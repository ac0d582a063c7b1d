import Mathlib.Logic.Function.Basic
import Mathlib.Tactic.Common

/-!
# A character terminal

A screen of `rows` by `cols` cells with a cursor.  A character goes to the cell under
the cursor, which then moves right; from the end of a row it goes to the next row, and
from the last row the screen moves up by one row.

`feed_keeps` says what an input leaves on the screen.
-/

/-- A cell without a character is `none`. -/
structure Terminal (α : Type) (rows cols : Nat) where
  cell : Nat → Nat → Option α
  row : Nat
  col : Nat
  row_lt : row < rows
  col_lt : col < cols

namespace Terminal

variable {α : Type} {rows cols : Nat}

/-- The empty screen. -/
def blank (hrows : 0 < rows) (hcols : 0 < cols) : Terminal α rows cols :=
  ⟨fun _ _ => none, 0, 0, hrows, hcols⟩

variable (t : Terminal α rows cols)

/-- The cells after the screen has moved up. -/
def scrolled (r c : Nat) : Option α := if r + 1 < rows then t.cell (r + 1) c else none

/-- The start of the next row. -/
def nextRow : Terminal α rows cols :=
  if h : t.row + 1 < rows then ⟨t.cell, t.row + 1, 0, h, Nat.zero_lt_of_lt t.col_lt⟩
  else ⟨t.scrolled, t.row, 0, t.row_lt, Nat.zero_lt_of_lt t.col_lt⟩

/-- The cursor at a later column of its row, or at the next row if there is none. -/
def moveTo (col : Nat) : Terminal α rows cols :=
  if h : col < cols then ⟨t.cell, t.row, col, t.row_lt, h⟩ else t.nextRow

def place (c : α) : Terminal α rows cols :=
  ⟨fun r k => if r = t.row ∧ k = t.col then some c else t.cell r k, t.row, t.col, t.row_lt,
    t.col_lt⟩

/-- An input of the terminal. -/
inductive Input (α : Type)
  | char (c : α)
  | newline
  | carriageReturn
  | tab

/-- The terminal after an input; tabs stop at the multiples of `width`. -/
def feed (width : Nat) : Input α → Terminal α rows cols
  | .char c => (t.place c).moveTo (t.col + 1)
  | .newline => t.nextRow
  | .carriageReturn => ⟨t.cell, t.row, 0, t.row_lt, Nat.zero_lt_of_lt t.col_lt⟩
  | .tab => t.moveTo ((t.col / width + 1) * width)

variable {t}

theorem nextRow_keeps :
    ∃ up ≤ 1, ∀ r c, r + up < rows → t.nextRow.cell r c = t.cell (r + up) c := by
  unfold nextRow
  split
  · exact ⟨0, Nat.zero_le 1, fun r c _ => rfl⟩
  · exact ⟨1, Nat.le_refl 1, fun r c hr => if_pos hr⟩

theorem moveTo_keeps (col : Nat) :
    ∃ up ≤ 1, ∀ r c, r + up < rows → (t.moveTo col).cell r c = t.cell (r + up) c := by
  unfold moveTo
  split
  · exact ⟨0, Nat.zero_le 1, fun r c _ => rfl⟩
  · exact nextRow_keeps

/-- The rows that stay on the screen are altered under the cursor only. -/
theorem feed_keeps (width : Nat) (i : Input α) :
    ∃ up ≤ 1, ∀ r c, r + up < rows → ¬ (r + up = t.row ∧ c = t.col) →
      (t.feed width i).cell r c = t.cell (r + up) c := by
  cases i with
  | char c =>
    obtain ⟨up, hup, hkeep⟩ := (t.place c).moveTo_keeps (t.col + 1)
    exact ⟨up, hup, fun r k hr hcursor => (hkeep r k hr).trans (if_neg hcursor)⟩
  | newline =>
    obtain ⟨up, hup, hkeep⟩ := t.nextRow_keeps
    exact ⟨up, hup, fun r k hr _ => hkeep r k hr⟩
  | carriageReturn => exact ⟨0, Nat.zero_le 1, fun r k _ _ => rfl⟩
  | tab =>
    obtain ⟨up, hup, hkeep⟩ := t.moveTo_keeps ((t.col / width + 1) * width)
    exact ⟨up, hup, fun r k hr _ => hkeep r k hr⟩

end Terminal
