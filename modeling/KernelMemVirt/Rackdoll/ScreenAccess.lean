import KernelMemVirt.Lib.AccessLog
import KernelMemVirt.Rackdoll.Vga

/-!
# What the console accesses

The functions of `vga.c` once more, with a log of the screen cells they read and write, and of
the `int` values that `putc` assigns to its 16-bit position.  `value_putcLog` and its kind say
that they are the functions of the console.

No character moves the cursor by more than a row (`switchLog_safe`), so that one scroll brings each
position behind the screen back (`settleLog_safe`).  A console that has been cleared stays inside
its 2000 cells: `consoleLog_safe`.
-/

namespace KernelMemVirt.Rackdoll.Vga

open Logged

/-- An access to a cell of the screen, or an `int` that becomes a position. -/
inductive Effect where
  | cell (index : Nat)
  | position (value : BitVec 32)

/-- The cell is on the screen, and the `int` fits in 16 bits. -/
def Effect.Safe : Effect → Prop
  | .cell index => index < VGA_SCREEN_LINES * VGA_SCREEN_COLUMNS
  | .position value => 0 ≤ value.toInt ∧ value.toInt < 0x10000

/-! ## The source, with its accesses -/

/-- The loop that copies cells from one row below: each turn reads a cell and writes one. -/
def copyCellsLog (screen : Screen) (cursor : Nat) : Nat → Logged Effect Screen
  | 0 => pure screen
  | n + 1 => do
    let below ← access (.cell (cursor + VGA_SCREEN_COLUMNS)) (screen (cursor + VGA_SCREEN_COLUMNS))
    let screen ← access (.cell cursor) (Function.update screen cursor below)
    copyCellsLog screen (cursor + 1) n

/-- The loop that blanks cells, a write for each. -/
def blankCellsLog (screen : Screen) (cursor : Nat) : Nat → Logged Effect Screen
  | 0 => pure screen
  | n + 1 => do
    let screen ← access (.cell cursor) (Function.update screen cursor VGA_COLOR_DEFAULT)
    blankCellsLog screen (cursor + 1) n

/-- The loop of `scroll` over the lines. -/
def scrollLinesLog (screen : Screen) (line : Nat) : Nat → Logged Effect Screen
  | 0 => pure screen
  | n + 1 => do
    let screen ← copyCellsLog screen (line * VGA_SCREEN_COLUMNS) VGA_SCREEN_COLUMNS
    scrollLinesLog screen (line + 1) n

/-- `scroll`, with the blank line at the end. -/
def scrollLog (screen : Screen) : Logged Effect Screen := do
  let screen ← scrollLinesLog screen 0 (VGA_SCREEN_LINES - 1)
  blankCellsLog screen ((VGA_SCREEN_LINES - 1) * VGA_SCREEN_COLUMNS) VGA_SCREEN_COLUMNS

/-- `clear`; the position 0 is no `int` that is cut to 16 bits. -/
def clearLog (v : Vga) : Logged Effect Vga := do
  let screen ← blankCellsLog v.screen 0 (VGA_SCREEN_LINES * VGA_SCREEN_COLUMNS)
  return { v with screen }.updateCursor 0

/-- The assignment of an `int` to `n`. -/
def assign (value : BitVec 32) : Logged Effect (BitVec 16) :=
  access (.position value) (value.setWidth 16)

/-- `n = (n / VGA_SCREEN_COLUMNS) * VGA_SCREEN_COLUMNS`, in `int`. -/
def assignLineStart (n : BitVec 16) : Logged Effect (BitVec 16) :=
  assign ((n.setWidth 32).sdiv 80 * 80)

/-- The `switch` of `putc`.  `n` is promoted to `int` in each of its formulas. -/
def switchLog (v : Vga) (c : BitVec 8) : Logged Effect (Screen × BitVec 16) :=
  let n := v.cursor
  if c = 0x0a then do
    let n ← assign (n.setWidth 32 + 80)
    let n ← assignLineStart n
    return (v.screen, n)
  else if c = 0x0d then do
    let n ← assignLineStart n
    return (v.screen, n)
  else if c = 0x09 then do
    let n ← assign (((n.setWidth 32 + 1) &&& ~~~7) + 8)
    return (v.screen, n)
  else do
    let screen ← access (.cell n.toNat) (Function.update v.screen n.toNat (cellOf c))
    let n ← assign (n.setWidth 32 + 1)
    return (screen, n)

/-- The end of `putc`, from the test for the last line on. -/
def settleLog (v : Vga) (screen : Screen) (n : BitVec 16) : Logged Effect Vga :=
  if VGA_SCREEN_LINES * VGA_SCREEN_COLUMNS ≤ n.toNat then do
    let screen ← scrollLog screen
    let n ← assign (n.setWidth 32 - 80)
    return { v with screen }.updateCursor n
  else return { v with screen }.updateCursor n

/-- `putc`: the accesses of the `switch`, then those of the scroll. -/
def putcLog (v : Vga) (c : BitVec 8) : Logged Effect Vga := do
  let switched ← v.switchLog c
  v.settleLog switched.1 switched.2

/-- `puts`, with the first `n` bytes of the string. -/
def putsLog (v : Vga) : List (BitVec 8) → Logged Effect Vga
  | [] => pure v
  | c :: str => do
    let v ← v.putcLog c
    v.putsLog str

/-- A console that is cleared and then given bytes. -/
def consoleLog (v : Vga) (str : List (BitVec 8)) : Logged Effect Vga := do
  let v ← v.clearLog
  v.putsLog str

/-! ## They are the functions of the console -/

section Values

variable (screen : Screen) (v : Vga) (cursor line n : Nat) (c : BitVec 8)

@[simp] theorem value_copyCellsLog :
    (copyCellsLog screen cursor n).value = copyCells screen cursor n := by
  induction n generalizing screen cursor with
  | zero => rfl
  | succ n ih => simp [copyCellsLog, copyCells, ih]

@[simp] theorem value_blankCellsLog :
    (blankCellsLog screen cursor n).value = blankCells screen cursor n := by
  induction n generalizing screen cursor with
  | zero => rfl
  | succ n ih => simp [blankCellsLog, blankCells, ih]

@[simp] theorem value_scrollLinesLog :
    (scrollLinesLog screen line n).value = scrollLines screen line n := by
  induction n generalizing screen line with
  | zero => rfl
  | succ n ih => simp [scrollLinesLog, scrollLines, ih]

@[simp] theorem value_scrollLog : (scrollLog screen).value = scroll screen := by
  simp [scrollLog, scroll]

@[simp] theorem value_clearLog : v.clearLog.value = v.clear := by
  simp [clearLog, clear]

@[simp] theorem value_assign (value : BitVec 32) : (assign value).value = value.setWidth 16 := rfl

/-- The `int` division by the width of a row is the one of 16 bits. -/
theorem sdiv_row (n : BitVec 16) :
    ((n.setWidth 32).sdiv 80 * 80).toNat = n.toNat / 80 * 80 := by
  have hmsb : (n.setWidth 32).msb = false := by
    rw [BitVec.msb_eq_false_iff_two_mul_lt]
    bv_omega
  have hdiv : (n.setWidth 32).sdiv 80 = n.setWidth 32 / 80 := by
    rw [BitVec.sdiv_eq, hmsb]
    rfl
  rw [hdiv, BitVec.toNat_mul, BitVec.toNat_udiv, BitVec.toNat_setWidth]
  have := n.isLt
  simp
  omega

@[simp] theorem value_assignLineStart (n : BitVec 16) :
    (assignLineStart n).value = n / 80 * 80 := by
  apply BitVec.eq_of_toNat_eq
  rw [assignLineStart, value_assign, BitVec.toNat_setWidth, sdiv_row, BitVec.toNat_mul,
    BitVec.toNat_udiv]
  rfl

@[simp] theorem value_switchLog : (v.switchLog c).value = v.switch c := by
  have hdown : (v.cursor.setWidth 32 + 80#32).setWidth 16 = v.cursor + 80#16 := by bv_omega
  have hnext : (v.cursor.setWidth 32 + 1#32).setWidth 16 = v.cursor + 1#16 := by bv_omega
  simp [switchLog, switch, hdown, hnext]

@[simp] theorem value_settleLog (n : BitVec 16) :
    (v.settleLog screen n).value = v.settle screen n := by
  have hup : (n.setWidth 32 - 80#32).setWidth 16 = n - 80#16 := by bv_omega
  simp [settleLog, settle, hup]

@[simp] theorem value_putcLog : (v.putcLog c).value = v.putc c := by
  simp [putcLog, putc]

@[simp] theorem value_putsLog (str : List (BitVec 8)) : (v.putsLog str).value = v.puts str := by
  induction str generalizing v with
  | nil => rfl
  | cons c str ih => simp [putsLog, puts, ih]

end Values

/-! ## The accesses are safe -/

section Safe

variable {screen : Screen} {v : Vga} {cursor line n : Nat}

theorem cell_safe {index : Nat} : (Effect.cell index).Safe ↔ index < 2000 := Iff.rfl

theorem copyCellsLog_safe (hend : cursor + n + 80 ≤ 2000) :
    (copyCellsLog screen cursor n).Within Effect.Safe := by
  induction n generalizing screen cursor with
  | zero => exact within_pure screen
  | succ n ih =>
    simp only [copyCellsLog, within_bind, within_access, value_access, cell_safe]
    exact ⟨show cursor + 80 < 2000 by omega, by omega, ih (by omega)⟩

theorem blankCellsLog_safe (hend : cursor + n ≤ 2000) :
    (blankCellsLog screen cursor n).Within Effect.Safe := by
  induction n generalizing screen cursor with
  | zero => exact within_pure screen
  | succ n ih =>
    simp only [blankCellsLog, within_bind, within_access, value_access, cell_safe]
    exact ⟨by omega, ih (by omega)⟩

theorem scrollLinesLog_safe (hend : line + n ≤ 24) :
    (scrollLinesLog screen line n).Within Effect.Safe := by
  induction n generalizing screen line with
  | zero => exact within_pure screen
  | succ n ih =>
    rw [scrollLinesLog, within_bind]
    exact ⟨copyCellsLog_safe (show line * 80 + 80 + 80 ≤ 2000 by omega), ih (by omega)⟩

theorem scrollLog_safe : (scrollLog screen).Within Effect.Safe := by
  rw [scrollLog, within_bind]
  exact ⟨scrollLinesLog_safe (Nat.le_refl 24), blankCellsLog_safe (Nat.le_refl 2000)⟩

theorem clearLog_safe : v.clearLog.Within Effect.Safe := by
  rw [clearLog, within_bind]
  exact ⟨blankCellsLog_safe (Nat.le_refl 2000), within_pure _⟩

/-- An `int` of 16 bits is assigned as it is. -/
theorem assign_safe {value : BitVec 32} (hvalue : value.toNat < 2 ^ 16) :
    (assign value).Within Effect.Safe := by
  have hint : value.toInt = value.toNat := BitVec.toInt_eq_toNat_of_lt (by omega)
  simp only [assign, within_access, Effect.Safe, hint]
  omega

theorem toNat_assign_le {value : BitVec 32} : (assign value).value.toNat ≤ value.toNat := by
  rw [value_assign, BitVec.toNat_setWidth]
  exact Nat.mod_le _ _

theorem assignLineStart_safe {pos : BitVec 16} : (assignLineStart pos).Within Effect.Safe :=
  assign_safe (by rw [sdiv_row]; omega)

theorem toNat_assignLineStart_le {pos : BitVec 16} :
    (assignLineStart pos).value.toNat ≤ pos.toNat := by
  have hrow := sdiv_row pos
  have hassign := @toNat_assign_le ((pos.setWidth 32).sdiv 80 * 80)
  rw [assignLineStart]
  omega

/-! ## One byte -/

/-- A tab moves the cursor by nine cells at most. -/
theorem toNat_tab_le {pos : BitVec 16} (hpos : pos.toNat < 2000) :
    (((pos.setWidth 32 + 1) &&& ~~~7) + 8).toNat ≤ pos.toNat + 9 := by
  have hand : ((pos.setWidth 32 + 1) &&& ~~~7).toNat ≤ (pos.setWidth 32 + 1).toNat := by
    rw [BitVec.toNat_and]
    exact Nat.and_le_left
  bv_omega

/-- No character moves the cursor by more than a row. -/
theorem switchLog_safe (hcursor : v.cursor.toNat < 2000) (c : BitVec 8) :
    (v.switchLog c).Within Effect.Safe ∧
      (v.switchLog c).value.2.toNat ≤ v.cursor.toNat + 80 := by
  unfold switchLog
  split_ifs
  · have hdown : (v.cursor.setWidth 32 + 80).toNat = v.cursor.toNat + 80 := by bv_omega
    have hassign := @toNat_assign_le (v.cursor.setWidth 32 + 80)
    have hstart := @toNat_assignLineStart_le (assign (v.cursor.setWidth 32 + 80)).value
    simp only [within_bind, within_pure, value_bind, value_pure]
    exact ⟨⟨assign_safe (by omega), assignLineStart_safe, trivial⟩, by omega⟩
  · have hstart := @toNat_assignLineStart_le v.cursor
    simp only [within_bind, within_pure, value_bind, value_pure]
    exact ⟨⟨assignLineStart_safe, trivial⟩, by omega⟩
  · have htab := toNat_tab_le hcursor
    have hassign := @toNat_assign_le (((v.cursor.setWidth 32 + 1) &&& ~~~7) + 8)
    simp only [within_bind, within_pure, value_bind, value_pure]
    exact ⟨⟨assign_safe (by omega), trivial⟩, by omega⟩
  · have hnext : (v.cursor.setWidth 32 + 1).toNat = v.cursor.toNat + 1 := by bv_omega
    have hassign := @toNat_assign_le (v.cursor.setWidth 32 + 1)
    simp only [within_bind, within_access, within_pure, value_bind, value_pure, cell_safe]
    exact ⟨⟨hcursor, assign_safe (by omega), trivial⟩, by omega⟩

/-- One scroll brings such a position back. -/
theorem settleLog_safe {pos : BitVec 16} (hpos : pos.toNat < 2080) :
    (v.settleLog screen pos).Within Effect.Safe ∧
      (v.settleLog screen pos).value.cursor.toNat < 2000 := by
  rw [value_settleLog, settle_cursor]
  unfold settleLog
  by_cases hpast : VGA_SCREEN_LINES * VGA_SCREEN_COLUMNS ≤ pos.toNat
  · have hlast : 2000 ≤ pos.toNat := hpast
    have hup : (pos.setWidth 32 - 80).toNat = pos.toNat - 80 := by bv_omega
    rw [if_pos hpast, if_pos hlast, within_bind, within_bind]
    exact ⟨⟨scrollLog_safe, assign_safe (by omega), within_pure _⟩, by bv_omega⟩
  · have hlast : ¬ 2000 ≤ pos.toNat := hpast
    rw [if_neg hpast, if_neg hlast]
    exact ⟨within_pure _, by omega⟩

theorem putcLog_safe (hcursor : v.cursor.toNat < 2000) (c : BitVec 8) :
    (v.putcLog c).Within Effect.Safe ∧ (v.putcLog c).value.cursor.toNat < 2000 := by
  obtain ⟨hswitch, hpos⟩ := switchLog_safe hcursor c
  obtain ⟨hsettle, hcursor'⟩ :=
    @settleLog_safe (v.switchLog c).value.1 v (v.switchLog c).value.2 (by omega)
  rw [putcLog, within_bind, value_bind]
  exact ⟨⟨hswitch, hsettle⟩, hcursor'⟩

/-! ## A run -/

theorem putsLog_safe (str : List (BitVec 8)) (hcursor : v.cursor.toNat < 2000) :
    (v.putsLog str).Within Effect.Safe ∧ (v.putsLog str).value.cursor.toNat < 2000 := by
  induction str generalizing v with
  | nil => exact ⟨within_pure v, hcursor⟩
  | cons c str ih =>
    obtain ⟨hputc, hnext⟩ := putcLog_safe hcursor c
    obtain ⟨hrest, hlast⟩ := ih hnext
    rw [putsLog, within_bind, value_bind]
    exact ⟨⟨hputc, hrest⟩, hlast⟩

end Safe

/-- Whatever is printed on it, a console that has been cleared accesses its 2000 cells only, never
loses a bit of a position, and ends with the cursor on the screen. -/
theorem consoleLog_safe (v : Vga) (str : List (BitVec 8)) :
    (v.consoleLog str).value = v.clear.puts str ∧
      (v.consoleLog str).Within Effect.Safe ∧
      (v.consoleLog str).value.cursor.toNat < VGA_SCREEN_LINES * VGA_SCREEN_COLUMNS := by
  have hclear : v.clearLog.value.cursor.toNat < 2000 := by simp [clear]
  obtain ⟨hputs, hcursor⟩ := putsLog_safe str hclear
  refine ⟨by simp [consoleLog], ?_, hcursor⟩
  rw [consoleLog, within_bind]
  exact ⟨clearLog_safe, hputs⟩

end KernelMemVirt.Rackdoll.Vga
