import KernelMemVirt.Lib.Bitset
import KernelMemVirt.Lib.Terminal
import KernelMemVirt.Lib.Transition

/-!
# The VGA console

`vga.c`, the same in the Rackdoll kernel and in the guest of Janus.  The screen is an
array of 16-bit cells, and the static `cursor` is the index of the next one.  The cursor
that the hardware shows is in two registers behind a pair of ports.

A console beside the terminal it implements (`Console`) takes the same bytes.  Two
conversions of `putc` go wrong: `char` is signed, so a byte from 128 on overwrites the
colour, and the tab formula skips a stop when the cursor is just before one.
`console_iff_of_run` says that the console is the terminal up to there.
-/

namespace KernelMemVirt.Rackdoll

open Transition

abbrev VGA_SCREEN_LINES : Nat := 25

abbrev VGA_SCREEN_COLUMNS : Nat := 80

abbrev VGA_COLOR_DEFAULT : BitVec 16 := 0x700

abbrev VGA_CURSOR_ADDRESS_PORT : BitVec 16 := 0x3d4

abbrev VGA_CURSOR_DATA_PORT : BitVec 16 := 0x3d5

abbrev VGA_CURSOR_ADDRESS_LOW : BitVec 8 := 0x0f

abbrev VGA_CURSOR_ADDRESS_HIGH : BitVec 8 := 0x0e

/-! ## The source -/

abbrev Screen := Nat → BitVec 16

/-- The screen, the static `cursor`, and the register file of the display controller with
its address register. -/
structure Vga where
  screen : Screen
  cursor : BitVec 16
  address : BitVec 8
  register : BitVec 8 → BitVec 8

namespace Vga

/-- A write to a port of the display controller. -/
def out8 (v : Vga) (port : BitVec 16) (val : BitVec 8) : Vga :=
  if port = VGA_CURSOR_ADDRESS_PORT then { v with address := val }
  else if port = VGA_CURSOR_DATA_PORT then
    { v with register := Function.update v.register v.address val }
  else v

/-- `update_cursor`: the static `cursor`, and the two registers of the hardware's one. -/
def updateCursor (v : Vga) (pos : BitVec 16) : Vga :=
  let v := { v with cursor := pos }
  let v := v.out8 VGA_CURSOR_ADDRESS_PORT VGA_CURSOR_ADDRESS_LOW
  let v := v.out8 VGA_CURSOR_DATA_PORT ((pos &&& 0xff).setWidth 8)
  let v := v.out8 VGA_CURSOR_ADDRESS_PORT VGA_CURSOR_ADDRESS_HIGH
  v.out8 VGA_CURSOR_DATA_PORT ((pos >>> 8 &&& 0xff).setWidth 8)

/-- The loop that copies cells from one row below; the last argument counts the turns. -/
def copyCells (screen : Screen) (cursor : Nat) : Nat → Screen
  | 0 => screen
  | n + 1 =>
    let screen := Function.update screen cursor (screen (cursor + VGA_SCREEN_COLUMNS))
    copyCells screen (cursor + 1) n

/-- The loop that blanks cells. -/
def blankCells (screen : Screen) (cursor : Nat) : Nat → Screen
  | 0 => screen
  | n + 1 => blankCells (Function.update screen cursor VGA_COLOR_DEFAULT) (cursor + 1) n

/-- The loop of `scroll` over the lines. -/
def scrollLines (screen : Screen) (line : Nat) : Nat → Screen
  | 0 => screen
  | n + 1 =>
    scrollLines (copyCells screen (line * VGA_SCREEN_COLUMNS) VGA_SCREEN_COLUMNS) (line + 1) n

/-- `scroll`: every row takes the cells of the next one, and the last one is blank. -/
def scroll (screen : Screen) : Screen :=
  let screen := scrollLines screen 0 (VGA_SCREEN_LINES - 1)
  blankCells screen ((VGA_SCREEN_LINES - 1) * VGA_SCREEN_COLUMNS) VGA_SCREEN_COLUMNS

/-- `clear`: a blank screen with the cursor at its start. -/
def clear (v : Vga) : Vga :=
  let total := VGA_SCREEN_LINES * VGA_SCREEN_COLUMNS
  { v with screen := blankCells v.screen 0 total }.updateCursor 0

/-- The cell of a `char`, which is signed and promoted to `int`. -/
def cellOf (c : BitVec 8) : BitVec 16 :=
  (VGA_COLOR_DEFAULT.setWidth 32 ||| c.signExtend 32).setWidth 16

/-- The `switch` of `putc`: the screen, and the position `n` after it. -/
def switch (v : Vga) (c : BitVec 8) : Screen × BitVec 16 :=
  let n := v.cursor
  let lineStart (n : BitVec 16) := n / 80 * 80
  if c = 0x0a then (v.screen, lineStart (n + 80))       -- '\n' falls through to '\r'
  else if c = 0x0d then (v.screen, lineStart n)
  else if c = 0x09 then (v.screen, (((n.setWidth 32 + 1) &&& ~~~7) + 8).setWidth 16)
  else (Function.update v.screen n.toNat (cellOf c), n + 1)

/-- The end of `putc`, from the test for the last line on. -/
def settle (v : Vga) (screen : Screen) (n : BitVec 16) : Vga :=
  if VGA_SCREEN_LINES * VGA_SCREEN_COLUMNS ≤ n.toNat then
    { v with screen := scroll screen }.updateCursor (n - 80)
  else { v with screen }.updateCursor n

/-- `putc`: the character, then the scroll if the position is behind the last row. -/
def putc (v : Vga) (c : BitVec 8) : Vga := v.settle (v.switch c).1 (v.switch c).2

/-- `puts`, with the first `n` bytes of the string. -/
def puts (v : Vga) (str : List (BitVec 8)) : Vga := str.foldl putc v

/-! ## The loops -/

section Loops

variable {screen : Screen} {cursor n i : Nat}

/-- The cells below are read before they are written, so that each row moves up by one. -/
theorem copyCells_apply :
    copyCells screen cursor n i =
      if cursor ≤ i ∧ i < cursor + n then screen (i + VGA_SCREEN_COLUMNS) else screen i := by
  induction n generalizing screen cursor with
  | zero => exact (if_neg (by omega)).symm
  | succ n ih =>
    rw [copyCells, ih]
    by_cases hi : i = cursor
    · rw [if_neg (by omega), if_pos (by omega), hi, Function.update_self]
    · rw [Function.update_of_ne hi]
      by_cases hrest : cursor + 1 ≤ i ∧ i < cursor + 1 + n
      · rw [if_pos hrest, if_pos (by omega), Function.update_of_ne (by omega)]
      · rw [if_neg hrest, if_neg (by omega)]

theorem blankCells_apply :
    blankCells screen cursor n i =
      if cursor ≤ i ∧ i < cursor + n then VGA_COLOR_DEFAULT else screen i := by
  induction n generalizing screen cursor with
  | zero => exact (if_neg (by omega)).symm
  | succ n ih =>
    rw [blankCells, ih]
    by_cases hi : i = cursor
    · rw [if_neg (by omega), if_pos (by omega), hi, Function.update_self]
    · rw [Function.update_of_ne hi]
      by_cases hrest : cursor + 1 ≤ i ∧ i < cursor + 1 + n
      · rw [if_pos hrest, if_pos (by omega)]
      · rw [if_neg hrest, if_neg (by omega)]

theorem scrollLines_apply {line : Nat} :
    scrollLines screen line n i =
      if line * 80 ≤ i ∧ i < (line + n) * 80 then screen (i + 80) else screen i := by
  induction n generalizing screen line with
  | zero => exact (if_neg (by omega)).symm
  | succ n ih =>
    rw [scrollLines, ih, copyCells_apply, copyCells_apply]
    dsimp only [VGA_SCREEN_COLUMNS]
    by_cases hline : line * 80 ≤ i ∧ i < line * 80 + 80
    · rw [if_neg (by omega), if_pos hline, if_pos (by omega)]
    · by_cases hrest : (line + 1) * 80 ≤ i ∧ i < (line + 1 + n) * 80
      · rw [if_pos hrest, if_neg (by omega), if_pos (by omega)]
      · rw [if_neg hrest, if_neg hline, if_neg (by omega)]

/-- Every line moves up, and the last one is blank. -/
theorem scroll_apply (hi : i < 2000) :
    scroll screen i = if i < 1920 then screen (i + 80) else VGA_COLOR_DEFAULT := by
  rw [scroll, blankCells_apply, scrollLines_apply]
  dsimp only [VGA_SCREEN_COLUMNS, VGA_SCREEN_LINES]
  by_cases hlast : i < 1920
  · rw [if_neg (by omega), if_pos (by omega), if_pos hlast]
  · rw [if_pos (by omega), if_neg hlast]

end Loops

/-! ## The cursor -/

section Cursor

variable {v : Vga} {pos : BitVec 16}

@[simp] theorem updateCursor_screen : (v.updateCursor pos).screen = v.screen := rfl

@[simp] theorem updateCursor_cursor : (v.updateCursor pos).cursor = pos := rfl

/-- The position that the hardware shows. -/
def shown (v : Vga) : BitVec 16 :=
  v.register VGA_CURSOR_ADDRESS_HIGH ++ v.register VGA_CURSOR_ADDRESS_LOW

theorem updateCursor_shown : (v.updateCursor pos).shown = pos := by
  have hbytes : (pos >>> 8 &&& 0xff).setWidth 8 ++ (pos &&& 0xff).setWidth 8 = pos := by
    have hmask : ∀ i < 8, BitVec.getLsbD 255#16 i = true := by decide
    apply BitVec.eq_of_getLsbD_eq
    intro i hi
    simp only [BitVec.getLsbD_append, BitVec.getLsbD_setWidth, BitVec.getLsbD_and,
      BitVec.getLsbD_ushiftRight]
    by_cases hlow : i < 8
    · simp [hlow, hmask i hlow]
    · simp [hlow, hmask (i - 8) (by omega), show 8 + (i - 8) = i by omega,
        show i - 8 < 8 by omega]
  refine Eq.trans ?_ hbytes
  rfl

end Cursor

/-! ## The terminal on the screen -/

/-- The cell of a character of the terminal. -/
def cellValue : Option (BitVec 8) → BitVec 16
  | none => VGA_COLOR_DEFAULT
  | some c => VGA_COLOR_DEFAULT + c.setWidth 16

/-- The terminal that the console implements. -/
abbrev VgaTerminal := Terminal (BitVec 8) VGA_SCREEN_LINES VGA_SCREEN_COLUMNS

/-- The console shows the terminal, with its cursor. -/
structure Shows (v : Vga) (t : VgaTerminal) : Prop where
  cell : ∀ row < VGA_SCREEN_LINES, ∀ col < VGA_SCREEN_COLUMNS,
    v.screen (row * VGA_SCREEN_COLUMNS + col) = cellValue (t.cell row col)
  cursor : v.cursor.toNat = t.row * VGA_SCREEN_COLUMNS + t.col
  shown : v.shown = v.cursor

/-- The rows that stay on the screen are altered under the cursor only. -/
def Keeps (v v' : Vga) : Prop :=
  ∃ up ≤ 1, ∀ row col, row + up < VGA_SCREEN_LINES → col < VGA_SCREEN_COLUMNS →
    (row + up) * VGA_SCREEN_COLUMNS + col ≠ v.cursor.toNat →
    v'.screen (row * VGA_SCREEN_COLUMNS + col) = v.screen ((row + up) * VGA_SCREEN_COLUMNS + col)

/-- What a byte means to the terminal. -/
def inputOf (c : BitVec 8) : Terminal.Input (BitVec 8) :=
  if c = 0x0a then .newline
  else if c = 0x0d then .carriageReturn
  else if c = 0x09 then .tab
  else .char c

section Step

variable {v : Vga} {t : VgaTerminal} {screen : Screen} {n : BitVec 16} {col : Nat}
  {c : BitVec 8}

/-- The end of `putc` moves the terminal to a position: on the row of the cursor, or at
the start of the next row with or without a scroll. -/
theorem settle_cases (v : Vga) (screen : Screen) (hn : n.toNat = t.row * 80 + col)
    (hcol : col ≤ 80) :
    ((v.settle screen n).screen = screen ∧ (v.settle screen n).cursor = n ∧
        (t.moveTo col).cell = t.cell ∧ (t.moveTo col).row * 80 + (t.moveTo col).col = n.toNat) ∨
      (t.row = 24 ∧ (v.settle screen n).screen = scroll screen ∧
        (v.settle screen n).cursor.toNat = 1920 ∧ (t.moveTo col).cell = t.scrolled ∧
        (t.moveTo col).row * 80 + (t.moveTo col).col = 1920) := by
  have hrow : t.row < 25 := t.row_lt
  by_cases hlt : col < 80
  · have hmove : t.moveTo col = ⟨t.cell, t.row, col, t.row_lt, hlt⟩ := dif_pos hlt
    have hsettle : v.settle screen n = { v with screen }.updateCursor n :=
      if_neg (show ¬ 25 * 80 ≤ n.toNat by omega)
    rw [hmove, hsettle]
    exact Or.inl ⟨rfl, rfl, rfl, hn.symm⟩
  have hmove : t.moveTo col = t.nextRow := dif_neg hlt
  by_cases hnext : t.row + 1 < 25
  · have hrow' : t.nextRow = ⟨t.cell, t.row + 1, 0, hnext, Nat.zero_lt_of_lt t.col_lt⟩ :=
      dif_pos hnext
    have hsettle : v.settle screen n = { v with screen }.updateCursor n :=
      if_neg (show ¬ 25 * 80 ≤ n.toNat by omega)
    rw [hmove, hrow', hsettle]
    refine Or.inl ⟨rfl, rfl, rfl, ?_⟩
    dsimp only
    omega
  · have hrow' : t.nextRow = ⟨t.scrolled, t.row, 0, t.row_lt, Nat.zero_lt_of_lt t.col_lt⟩ :=
      dif_neg hnext
    have hsettle : v.settle screen n = { v with screen := scroll screen }.updateCursor (n - 80) :=
      if_pos (show 25 * 80 ≤ n.toNat by omega)
    rw [hmove, hrow', hsettle]
    refine Or.inr ⟨by omega, rfl, ?_, rfl, ?_⟩
    · rw [updateCursor_cursor]
      bv_omega
    · dsimp only
      omega

theorem settle_cursor (v : Vga) (screen : Screen) (n : BitVec 16) :
    (v.settle screen n).cursor = if 25 * 80 ≤ n.toNat then n - 80 else n := by
  unfold settle
  split <;> rfl

theorem moveTo_position (t : VgaTerminal) (col : Nat) (hcol : col ≤ 80) :
    (t.moveTo col).row * 80 + (t.moveTo col).col =
      if t.row * 80 + col < 2000 then t.row * 80 + col else 1920 := by
  have hrow : t.row < 25 := t.row_lt
  unfold Terminal.moveTo Terminal.nextRow
  by_cases hlt : col < 80
  · rw [dif_pos hlt, if_pos (by omega)]
  · rw [dif_neg hlt]
    by_cases hnext : t.row + 1 < 25
    · rw [dif_pos hnext, if_pos (by omega)]
      dsimp only
      omega
    · rw [dif_neg hnext, if_neg (by omega)]
      dsimp only
      omega

/-- Moving to a position shows the terminal that moves there. -/
theorem settle_shows (v : Vga) (t : VgaTerminal) (col : Nat)
    (hn : n.toNat = t.row * 80 + col) (hcol : col ≤ 80)
    (hcell : ∀ r < 25, ∀ k < 80, screen (r * 80 + k) = cellValue (t.cell r k)) :
    (v.settle screen n).Shows (t.moveTo col) := by
  have hshown : (v.settle screen n).shown = (v.settle screen n).cursor := by
    unfold settle
    split <;> exact updateCursor_shown
  rcases settle_cases v screen hn hcol with
    ⟨hscreen, hcursor, hcells, hpos⟩ | ⟨hrow, hscreen, hcursor, hcells, hpos⟩
  · refine ⟨fun r hr k hk => ?_, ?_, hshown⟩
    · rw [hscreen, hcells]
      exact hcell r hr k hk
    · rw [hcursor]
      exact hpos.symm
  · refine ⟨fun r hr k hk => ?_, hcursor.trans hpos.symm, hshown⟩
    have hr' : r < 25 := hr
    have hk' : k < 80 := hk
    rw [hscreen, hcells, scroll_apply (by dsimp only [VGA_SCREEN_COLUMNS]; omega)]
    dsimp only [VGA_SCREEN_COLUMNS]
    by_cases hlast : r + 1 < 25
    · rw [if_pos (by omega), show r * 80 + k + 80 = (r + 1) * 80 + k by omega,
        hcell (r + 1) hlast k hk]
      exact congrArg cellValue (if_pos hlast).symm
    · rw [if_neg (by omega)]
      exact (congrArg cellValue (show t.scrolled r k = none from if_neg hlast)).symm

/-- The row of the cursor stays on the screen. -/
theorem cell_of_settle_shows (hn : n.toNat = t.row * 80 + col) (hcol : col ≤ 80)
    (hshows : (v.settle screen n).Shows (t.moveTo col)) {k : Nat} (hk : k < 80) :
    screen (t.row * 80 + k) = cellValue (t.cell t.row k) := by
  rcases settle_cases v screen hn hcol with
    ⟨hscreen, -, hcells, -⟩ | ⟨hrow, hscreen, -, hcells, -⟩
  · have hcell := hshows.cell t.row t.row_lt k hk
    rw [hscreen, hcells] at hcell
    exact hcell
  · have hcell := hshows.cell 23 (by decide) k hk
    rw [hscreen, hcells, scroll_apply (by dsimp only [VGA_SCREEN_COLUMNS]; omega)] at hcell
    dsimp only [VGA_SCREEN_COLUMNS] at hcell
    rw [if_pos (by omega), show 23 * 80 + k + 80 = 24 * 80 + k by omega] at hcell
    rw [hrow]
    exact hcell.trans (congrArg cellValue (if_pos (by decide)))

/-! ## One byte -/

/-- The cell of a byte below 128 keeps the colour, and the cell of the others loses it. -/
theorem cellOf_eq_iff (c : BitVec 8) : cellOf c = cellValue (some c) ↔ c < 0x80 := by
  revert c
  decide

/-- A byte that the console gives to the terminal as it should. -/
def Fits (v : Vga) (c : BitVec 8) : Prop := c < 0x80 ∧ (c = 0x09 → v.cursor.toNat % 8 ≠ 7)

instance (c : BitVec 8) : Decidable (v.Fits c) := inferInstanceAs (Decidable (_ ∧ _))

/-- The position after a tab. -/
theorem toNat_tab (hn : n.toNat < 2000) :
    (((n.setWidth 32 + 1) &&& ~~~7) + 8).setWidth 16
      = BitVec.ofNat 16 ((n.toNat + 1) / 8 * 8 + 8) := by
  have hmask : ∀ i, i < 32 → BitVec.getLsbD (~~~7 : BitVec 32) i = decide (3 ≤ i) := by decide
  have hsum : (n.setWidth 32 + 1).toNat = n.toNat + 1 := by bv_omega
  apply BitVec.eq_of_toNat_eq
  rw [BitVec.toNat_setWidth, BitVec.toNat_add, Bitset.toNat_and_mask hmask, hsum,
    BitVec.toNat_ofNat, show (8 : BitVec 32).toNat = 8 from rfl]
  omega

theorem toNat_lineStart (hn : n.toNat < 65536 - 80) :
    (n / 80 * 80).toNat = n.toNat / 80 * 80 := by
  rw [BitVec.toNat_mul, BitVec.toNat_udiv, show (80 : BitVec 16).toNat = 80 from rfl]
  omega

theorem putc_char (hc : inputOf c = .char c) :
    v.putc c = v.settle (Function.update v.screen v.cursor.toNat (cellOf c)) (v.cursor + 1) := by
  unfold inputOf at hc
  unfold putc switch
  split at hc
  · cases hc
  · split at hc
    · cases hc
    · split at hc
      · cases hc
      · rename_i hnewline hreturn htab
        rw [if_neg hnewline, if_neg hreturn, if_neg htab]

/-- After a byte that fits, the console shows the terminal after it. -/
theorem putc_shows (h : v.Shows t) (hfits : v.Fits c) :
    (v.putc c).Shows (t.feed 8 (inputOf c)) := by
  have hrow : t.row < 25 := t.row_lt
  have hcol : t.col < 80 := t.col_lt
  have hcursor : v.cursor.toNat = t.row * 80 + t.col := h.cursor
  by_cases hnewline : c = 0x0a
  · have hn : ((v.cursor + 80) / 80 * 80).toNat = t.row * 80 + 80 := by
      have hsum : (v.cursor + 80).toNat = v.cursor.toNat + 80 := by bv_omega
      rw [toNat_lineStart (by omega), hsum]
      omega
    have hmove : t.moveTo 80 = t.nextRow := dif_neg (Nat.lt_irrefl 80)
    subst hnewline
    show (v.settle v.screen ((v.cursor + 80) / 80 * 80)).Shows t.nextRow
    rw [← hmove]
    exact settle_shows v t 80 hn (Nat.le_refl 80) h.cell
  by_cases hreturn : c = 0x0d
  · have hn : (v.cursor / 80 * 80).toNat = t.row * 80 + 0 := by
      rw [toNat_lineStart (by omega)]
      omega
    subst hreturn
    exact settle_shows v t 0 hn (by decide) h.cell
  by_cases htab : c = 0x09
  · have hstop := hfits.2 htab
    have hn : ((((v.cursor.setWidth 32 + 1) &&& ~~~7) + 8).setWidth 16).toNat =
        t.row * 80 + (t.col / 8 + 1) * 8 := by
      rw [toNat_tab (by omega), BitVec.toNat_ofNat]
      omega
    subst htab
    exact settle_shows v t _ hn (by omega) h.cell
  · have hn : (v.cursor + 1).toNat = t.row * 80 + (t.col + 1) := by bv_omega
    have hinput : inputOf c = .char c := by
      rw [inputOf, if_neg hnewline, if_neg hreturn, if_neg htab]
    rw [hinput, putc_char hinput]
    refine settle_shows v (t.place c) (t.col + 1) hn hcol fun r hr k hk => ?_
    by_cases hat : r = t.row ∧ k = t.col
    · rw [hat.1, hat.2, ← hcursor, Function.update_self, (cellOf_eq_iff c).mpr hfits.1]
      exact (congrArg cellValue
        (show (t.place c).cell t.row t.col = some c from if_pos ⟨rfl, rfl⟩)).symm
    · rw [Function.update_of_ne (by omega)]
      exact (h.cell r hr k hk).trans (congrArg cellValue
        (show (t.place c).cell r k = t.cell r k from if_neg hat).symm)

/-- A byte that does not fit leaves something else on the screen. -/
theorem fits_of_putc_shows (h : v.Shows t) (hnext : (v.putc c).Shows (t.feed 8 (inputOf c))) :
    v.Fits c := by
  have hrow : t.row < 25 := t.row_lt
  have hcol : t.col < 80 := t.col_lt
  have hcursor : v.cursor.toNat = t.row * 80 + t.col := h.cursor
  constructor
  · by_cases hinput : inputOf c = .char c
    · have hn : (v.cursor + 1).toNat = (t.place c).row * 80 + (t.col + 1) := by
        show (v.cursor + 1).toNat = t.row * 80 + (t.col + 1)
        bv_omega
      rw [hinput, putc_char hinput] at hnext
      have hplace : (t.place c).cell t.row t.col = some c := if_pos ⟨rfl, rfl⟩
      have hcell := (cell_of_settle_shows hn hcol hnext hcol).trans (congrArg cellValue hplace)
      rw [show (t.place c).row * 80 + t.col = v.cursor.toNat from hcursor.symm,
        Function.update_self] at hcell
      exact (cellOf_eq_iff c).mp hcell
    · unfold inputOf at hinput
      split at hinput
      · rename_i hc
        rw [hc]
        decide
      · split at hinput
        · rename_i hc
          rw [hc]
          decide
        · split at hinput
          · rename_i hc
            rw [hc]
            decide
          · exact absurd rfl hinput
  · rintro rfl hstop
    have hn : ((((v.cursor.setWidth 32 + 1) &&& ~~~7) + 8).setWidth 16).toNat =
        v.cursor.toNat + 9 := by
      rw [toNat_tab (by omega), BitVec.toNat_ofNat]
      omega
    have hpos : (v.settle v.screen
        ((((v.cursor.setWidth 32 + 1) &&& ~~~7) + 8).setWidth 16)).cursor.toNat =
      (t.moveTo ((t.col / 8 + 1) * 8)).row * 80 + (t.moveTo ((t.col / 8 + 1) * 8)).col :=
        hnext.cursor
    rw [settle_cursor, moveTo_position t _ (by omega), hn,
      show t.row * 80 + (t.col / 8 + 1) * 8 = v.cursor.toNat + 1 by omega] at hpos
    generalize (((v.cursor.setWidth 32 + 1) &&& ~~~7) + 8).setWidth 16 = n at hn hpos
    have hsub : 2000 ≤ v.cursor.toNat + 9 → (n - 80).toNat = v.cursor.toNat + 9 - 80 := by
      intro hge
      bv_omega
    by_cases hge : 2000 ≤ v.cursor.toNat + 9
    · rw [if_pos hge, hsub hge] at hpos
      split at hpos <;> omega
    · rw [if_neg hge, hn, if_pos (by omega)] at hpos
      omega

/-- After a byte that fits, the rows that stay on the screen are kept. -/
theorem keeps_of_shows {v' : Vga} {i : Terminal.Input (BitVec 8)} (h : v.Shows t)
    (hnext : v'.Shows (t.feed 8 i)) : v.Keeps v' := by
  obtain ⟨up, hup, hkeep⟩ := t.feed_keeps 8 i
  have hcol : t.col < 80 := t.col_lt
  have hcursor : v.cursor.toNat = t.row * 80 + t.col := h.cursor
  refine ⟨up, hup, fun row col hrow hcol hne => ?_⟩
  have hnot : ¬ (row + up = t.row ∧ col = t.col) := by
    rintro ⟨hr, hc⟩
    exact hne (by rw [hr, hc]; exact hcursor.symm)
  rw [hnext.cell row (by omega) col hcol, h.cell (row + up) hrow col hcol, hkeep row col hrow hnot]

end Step

theorem clear_shows (v : Vga) : v.clear.Shows (.blank (by decide) (by decide)) where
  cell := fun row hrow col hcol => by
    have hrow' : row < 25 := hrow
    have hcol' : col < 80 := hcol
    rw [clear, updateCursor_screen]
    dsimp only [VGA_SCREEN_LINES, VGA_SCREEN_COLUMNS]
    rw [blankCells_apply, if_pos (by omega)]
    rfl
  cursor := rfl
  shown := updateCursor_shown

end Vga

/-! ## Runs -/

/-- The console, and the terminal it stands for. -/
structure Console where
  vga : Vga
  terminal : Vga.VgaTerminal

namespace Console

variable (s : Console)

/-- The console after `clear`. -/
def init (v : Vga) : Console := ⟨v.clear, .blank (by decide) (by decide)⟩

/-- Both take a byte. -/
def step (c : BitVec 8) : Option Console :=
  some ⟨s.vga.putc c, s.terminal.feed 8 (Vga.inputOf c)⟩

/-- After the byte the console shows the terminal, and the rows on the screen are kept. -/
def Faithful (c : BitVec 8) : Prop :=
  (s.vga.putc c).Shows (s.terminal.feed 8 (Vga.inputOf c)) ∧ s.vga.Keeps (s.vga.putc c)

def Fits (c : BitVec 8) : Prop := s.vga.Fits c

end Console

/-- After `clear` the console shows the empty terminal, and it shows the terminal after
every byte of a sequence exactly if every byte is below 128 and no tab comes just before
a tab stop. -/
theorem console_iff_of_run (v : Vga) (bytes : List (BitVec 8)) :
    (Console.init v).vga.Shows (Console.init v).terminal ∧
      (RunOk Console.step Console.Faithful (Console.init v) bytes ↔
        RunOk Console.step Console.Fits (Console.init v) bytes) := by
  refine ⟨Vga.clear_shows v, ?_⟩
  refine @runOk_iff_of_ok _ _ Console.step (fun _ _ => True)
    (fun s => s.vga.Shows s.terminal) Console.Faithful Console.Fits ?_ ?_ bytes _
    (Vga.clear_shows v) (runOk_true bytes _)
  · intro s c hs _
    refine ⟨fun hfaithful => Vga.fits_of_putc_shows hs hfaithful.1, fun hfits => ?_⟩
    have hnext := Vga.putc_shows hs hfits
    exact ⟨hnext, Vga.keeps_of_shows hs hnext⟩
  · intro s c s' hs _ hfits hstep
    cases hstep
    exact Vga.putc_shows hs hfits

/-- A byte above 127 is shown in another colour, and a tab in column 7 goes to column 16. -/
theorem console_not_of_byte :
    let start : Console := .init ⟨fun _ => 0, 0, 0, fun _ => 0⟩
    ¬ RunOk Console.step Console.Faithful start [0xe9] ∧
      ¬ RunOk Console.step Console.Faithful start
        [0x20, 0x20, 0x20, 0x20, 0x20, 0x20, 0x20, 0x09] := by
  constructor
  · intro h
    have hfits := Vga.fits_of_putc_shows (Vga.clear_shows _) h.1.1
    exact absurd hfits.1 (by decide)
  · intro h
    have hseventh := (((((h.2 _ rfl).2 _ rfl).2 _ rfl).2 _ rfl).2 _ rfl).2 _ rfl
    have hshows := hseventh.1.1
    have hfits := Vga.fits_of_putc_shows hshows (hseventh.2 _ rfl).1.1
    apply hfits.2 rfl
    rw [hshows.cursor]
    rfl

end KernelMemVirt.Rackdoll
