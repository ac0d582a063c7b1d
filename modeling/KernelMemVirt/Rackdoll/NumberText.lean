import KernelMemVirt.Rackdoll.Printk
import Mathlib.Tactic.Ring

/-!
# Numbers read back

`numberText` gives the characters that `vhprintk_print_number` prints.  Here they are read
back.  The reader `readDigits` knows nothing of the two loops that count and print the
digits.

* `readDigits_digits`: the lowest `k` digits of a number read back as the number modulo
  the `k`-th power of the base.
* `isNumeral_digits`: all of them are its numeral, with no leading zero.
* `numberText_layout`: padding, prefix, zeros, numeral and padding, as wide as asked for.
* `convert_readsBack`: a number conversion prints such a text of its operand.
-/

namespace KernelMemVirt.Rackdoll.Printk

/-! ## Reading numerals -/

/-- The value of a digit, in lower or in upper case. -/
def digitValue (c : Byte) : Option Nat :=
  if chr '0' ≤ c ∧ c ≤ chr '9' then some (c.toNat - (chr '0').toNat)
  else if chr 'a' ≤ c ∧ c ≤ chr 'f' then some (c.toNat - (chr 'a').toNat + 10)
  else if chr 'A' ≤ c ∧ c ≤ chr 'F' then some (c.toNat - (chr 'A').toNat + 10)
  else none

/-- The number that is read when `value` has been read before. -/
def readDigits (base value : Nat) : List Byte → Option Nat
  | [] => some value
  | c :: cs =>
    match digitValue c with
    | some digit => if digit < base then readDigits base (value * base + digit) cs else none
    | none => none

/-- The characters are the numeral of a number: they have no leading zero, or they are
the one digit `0`. -/
structure IsNumeral (base value : Nat) (cs : List Byte) : Prop where
  nonempty : cs ≠ []
  reads : readDigits base 0 cs = some value
  leading : cs.head? = some (chr '0') → value = 0 ∧ cs = [chr '0']

/-- A case in which digits of a base can be printed. -/
def CaseOf (base : Nat) (upchar : Byte) : Prop :=
  base ≤ 10 ∨ upchar = chr 'a' ∨ upchar = chr 'A'

theorem digitChar_of_lt_ten (upchar upchar' : Byte) {digit : Nat} (hdigit : digit < 10) :
    digitChar upchar (BitVec.ofNat 64 digit) = digitChar upchar' (BitVec.ofNat 64 digit) := by
  have hlt : BitVec.ofNat 64 digit < 10 := by
    rw [BitVec.lt_def, BitVec.toNat_ofNat, Nat.mod_eq_of_lt (by omega)]
    exact hdigit
  rw [digitChar, digitChar, if_pos hlt, if_pos hlt]

/-- What is printed for a digit is read as the digit. -/
theorem digitValue_digitChar {base digit : Nat} {upchar : Byte} (hbase : base ≤ 16)
    (hcase : CaseOf base upchar) (hdigit : digit < base) :
    digitValue (digitChar upchar (BitVec.ofNat 64 digit)) = some digit := by
  have hlower : ∀ digit < 16, digitValue (digitChar (chr 'a') (BitVec.ofNat 64 digit)) =
      some digit := by decide
  have hupper : ∀ digit < 16, digitValue (digitChar (chr 'A') (BitVec.ofNat 64 digit)) =
      some digit := by decide
  rcases hcase with hten | rfl | rfl
  · rw [digitChar_of_lt_ten upchar (chr 'a') (by omega)]
    apply hlower
    omega
  · apply hlower
    omega
  · apply hupper
    omega

/-- Only the digit zero is printed as `0`. -/
theorem eq_zero_of_digitChar_eq {base digit : Nat} {upchar : Byte} (hbase : base ≤ 16)
    (hcase : CaseOf base upchar) (hdigit : digit < base)
    (hchar : digitChar upchar (BitVec.ofNat 64 digit) = chr '0') : digit = 0 := by
  have hvalue := digitValue_digitChar hbase hcase hdigit
  rw [hchar] at hvalue
  exact (Option.some.inj hvalue).symm

section Digits

variable {base upchar : Byte}

theorem readDigits_digits (hpos : 0 < base.toNat) (hbase : base.toNat ≤ 16)
    (hcase : CaseOf base.toNat upchar) (value n k : Nat) :
    readDigits base.toNat value (digits base upchar n k) =
      some (value * base.toNat ^ k + n % base.toNat ^ k) := by
  induction k generalizing value with
  | zero => simp [digits, readDigits, Nat.mod_one]
  | succ k ih =>
    have hdigit : n / base.toNat ^ k % base.toNat < base.toNat := Nat.mod_lt _ hpos
    rw [digits_succ, readDigits, digitValue_digitChar hbase hcase hdigit]
    dsimp only
    rw [if_pos hdigit, ih]
    congr 1
    calc (value * base.toNat + n / base.toNat ^ k % base.toNat) * base.toNat ^ k +
          n % base.toNat ^ k
        = value * base.toNat ^ (k + 1) +
            (n % base.toNat ^ k + base.toNat ^ k * (n / base.toNat ^ k % base.toNat)) := by ring
      _ = value * base.toNat ^ (k + 1) + n % base.toNat ^ (k + 1) := by
          rw [Nat.pow_succ base.toNat k, Nat.mod_mul]

theorem length_digits (n k : Nat) : (digits base upchar n k).length = k := by
  simp [digits]

/-- The first of all the digits is not zero, unless the number is. -/
theorem firstDigit_pos (hbase : 2 ≤ base.toNat) {n : Nat} (hn : n ≠ 0) :
    0 < n / base.toNat ^ Nat.log base.toNat n % base.toNat := by
  have hlt : n / base.toNat ^ Nat.log base.toNat n < base.toNat := by
    rw [Nat.div_lt_iff_lt_mul (Nat.pow_pos (by omega)), ← Nat.pow_succ']
    exact Nat.lt_pow_succ_log_self hbase n
  rw [Nat.mod_eq_of_lt hlt]
  exact Nat.div_pos (Nat.pow_log_le_self _ hn) (Nat.pow_pos (by omega))

theorem isNumeral_digits (hbase : 2 ≤ base.toNat) (hle : base.toNat ≤ 16)
    (hcase : CaseOf base.toNat upchar) (n : Nat) :
    IsNumeral base.toNat n (digits base upchar n (digitCount base n)) where
  nonempty := by
    rw [digitCount, digits_succ]
    exact List.cons_ne_nil _ _
  reads := by
    rw [readDigits_digits (by omega) hle hcase, digitCount, Nat.zero_mul, Nat.zero_add,
      Nat.mod_eq_of_lt (Nat.lt_pow_succ_log_self hbase n)]
  leading := by
    intro hhead
    rw [digitCount, digits_succ, List.head?_cons, Option.some.injEq] at hhead
    have hfirst := eq_zero_of_digitChar_eq hle hcase (Nat.mod_lt _ (by omega)) hhead
    have hn : n = 0 := by
      by_contra hn
      have hpos := firstDigit_pos hbase hn
      omega
    subst hn
    refine ⟨rfl, ?_⟩
    rw [digitCount, digits_succ, hhead, Nat.log_zero_right]
    rfl

end Digits

/-! ## Layouts -/

/-- The parts of the text of a number: how many spaces, zeros and spaces are around its
prefix and its numeral. -/
structure NumberParts where
  left : Nat
  zeros : Nat
  numeral : List Byte
  right : Nat

def NumberParts.text (parts : NumberParts) (pre : List Byte) : List Byte :=
  List.replicate parts.left (chr ' ') ++ pre ++ List.replicate parts.zeros (chr '0') ++
    parts.numeral ++ List.replicate parts.right (chr ' ')

/-- The parts fit a format: they are padded where its flags say so, up to its width. -/
structure NumberParts.Fit (parts : NumberParts) (f : Format) (base value : Nat)
    (pre : List Byte) : Prop where
  numeral : IsNumeral base value parts.numeral
  left : parts.left ≠ 0 → f.rightPad = false ∧ f.zeroPad = false
  zeros : parts.zeros ≠ 0 → f.rightPad = false ∧ f.zeroPad = true
  right : parts.right ≠ 0 → f.rightPad = true
  width : (parts.text pre).length = max f.minimumSize.toNat (pre.length + parts.numeral.length)

/-- The parts of the text that `vhprintk_print_number` prints. -/
def numberParts (f : Format) (positive : Word) (base : Byte) (pre : List Byte) (upbase : Byte) :
    NumberParts :=
  let count := digitCount base positive.toNat
  let padlen := f.minimumSize.toNat - (count + pre.length)
  { left := if !f.rightPad && !f.zeroPad then padlen else 0
    zeros := if !f.rightPad && f.zeroPad then padlen else 0
    numeral := digits base upbase positive.toNat count
    right := if f.rightPad then padlen else 0 }

theorem ite_replicate (b : Bool) (n : Nat) (c : Byte) :
    (if b then List.replicate n c else []) = List.replicate (if b then n else 0) c := by
  cases b <;> rfl

theorem numberText_eq (f : Format) (positive : Word) (base : Byte) (pre : List Byte)
    (upbase : Byte) :
    numberText f positive base pre upbase = (numberParts f positive base pre upbase).text pre := by
  unfold numberText NumberParts.text numberParts
  simp only [ite_replicate]

theorem numberText_layout {f : Format} {base upbase : Byte} (hbase : 2 ≤ base.toNat)
    (hle : base.toNat ≤ 16) (hcase : CaseOf base.toNat upbase) (positive : Word)
    (pre : List Byte) :
    (numberParts f positive base pre upbase).Fit f base.toNat positive.toNat pre where
  numeral := isNumeral_digits hbase hle hcase positive.toNat
  left := by
    unfold numberParts
    cases f.rightPad <;> cases f.zeroPad <;> simp
  zeros := by
    unfold numberParts
    cases f.rightPad <;> cases f.zeroPad <;> simp
  right := by
    unfold numberParts
    cases f.rightPad <;> simp
  width := by
    unfold NumberParts.text numberParts
    cases f.rightPad <;> cases f.zeroPad <;> simp [length_digits] <;> omega

/-! ## Conversions -/

/-- The base of a number conversion, and the number in the slot of its argument: signed for
`d` and `i`, unsigned for the others, and of 32 bits unless the operand is long. -/
def Format.number (f : Format) (slot : Word) : Option (Nat × Int) :=
  let signed : Int := if f.longOperand then slot.toInt else (slot.setWidth 32).toInt
  let unsigned : Int := if f.longOperand then slot.toNat else (slot.setWidth 32).toNat
  if f.type = chr 'd' ∨ f.type = chr 'i' then some (10, signed)
  else if f.type = chr 'x' ∨ f.type = chr 'X' then some (16, unsigned)
  else if f.type = chr 'u' then some (10, unsigned)
  else if f.type = chr 'o' then some (8, unsigned)
  else if f.type = chr 'b' then some (2, unsigned)
  -- a pointer is printed as a long `x`
  else if f.type = chr 'p' then some (16, slot.toNat)
  else none

/-- The prefix of a number: its sign, or the mark of its base. -/
def Format.numberPrefix (f : Format) (value : Int) : List Byte :=
  if f.type = chr 'd' ∨ f.type = chr 'i' then
    if value < 0 then [chr '-']
    else if f.positiveBlank then [chr ' '] else if f.visibleSign then [chr '+'] else []
  else unsignedPrefix f.pointer

theorem pointer_of_ne {f : Format} (htype : f.type ≠ chr 'p') : f.pointer = f := if_neg htype

/-- The number that a signed conversion prints after its sign. -/
theorem toNat_abs (arg : Word) : (if arg.slt 0 then -arg else arg).toNat = arg.toInt.natAbs := by
  have hlt := arg.isLt
  have hneg : arg.slt 0 = decide (arg.toInt < 0) := BitVec.slt_eq_decide
  rw [hneg, BitVec.toInt_eq_toNat_cond]
  by_cases hhalf : 2 * arg.toNat < 2 ^ 64
  · rw [if_pos hhalf, if_neg (by simp)]
    simp
  · rw [if_neg hhalf, if_pos (by simp; omega), BitVec.toNat_neg]
    omega

theorem signedPrefix_eq {f : Format} (htype : f.type = chr 'd' ∨ f.type = chr 'i') (arg : Word) :
    signedPrefix f arg = f.numberPrefix arg.toInt := by
  have hneg : arg.slt 0 = decide (arg.toInt < 0) := BitVec.slt_eq_decide
  rw [signedPrefix, Format.numberPrefix, if_pos htype, hneg]
  simp

/-- The operand of an unsigned conversion, as it is passed to `vhprintk_print_unsigned`. -/
def Format.unsigned (f : Format) (slot : Word) : Word :=
  if f.longOperand then slot else (slot.setWidth 32).setWidth 64

theorem conversionText_of_unsignedBase {args : Args} {f : Format} {va : Nat} {base : Byte}
    (hbase : unsignedBase f.pointer.type = some base) :
    conversionText args f va =
      (numberText f.pointer (f.pointer.unsigned (args.slot va)) base (unsignedPrefix f.pointer)
        (if f.pointer.type = chr 'X' then chr 'A' else chr 'a'), 1) := by
  unfold conversionText
  generalize f.pointer = f at hbase
  have hother : ∀ c, unsignedBase c = none → f.type ≠ c := by
    intro c hnone heq
    rw [heq, hnone] at hbase
    cases hbase
  dsimp only
  rw [if_neg (hother _ (by decide)), if_neg, if_neg (hother _ (by decide)), hbase]
  · rfl
  · exact not_or.mpr ⟨hother _ (by decide), hother _ (by decide)⟩

theorem toNat_unsigned (f : Format) (slot : Word) :
    (f.unsigned slot).toNat =
      if f.longOperand then slot.toNat else (slot.setWidth 32).toNat := by
  unfold Format.unsigned
  cases f.longOperand
  · exact BitVec.toNat_setWidth_of_le (by decide)
  · rfl

/-- The `switch` adds up the bases of the unsigned conversions. -/
theorem unsignedBase_of_number {f : Format} {slot : Word} {base : Nat} {value : Int}
    (htype : ¬ (f.type = chr 'd' ∨ f.type = chr 'i'))
    (hnumber : f.number slot = some (base, value)) :
    ∃ b : Byte, unsignedBase f.pointer.type = some b ∧ b.toNat = base ∧ base ≤ 16 ∧
      value = (f.pointer.unsigned slot).toNat := by
  have hvalue : (if f.longOperand then (slot.toNat : Int) else (slot.setWidth 32).toNat) =
      (f.unsigned slot).toNat := by
    rw [toNat_unsigned, Nat.cast_ite]
  have hself : ∀ c b, f.type = c → c ≠ chr 'p' → unsignedBase c = some b → b.toNat ≤ 16 →
      some (b.toNat, ((f.unsigned slot).toNat : Int)) = some (base, value) →
      ∃ b : Byte, unsignedBase f.pointer.type = some b ∧ b.toNat = base ∧ base ≤ 16 ∧
        value = (f.pointer.unsigned slot).toNat := by
    intro c b hc hne hbase hle heq
    cases heq
    rw [pointer_of_ne (hc ▸ hne), hc]
    exact ⟨b, hbase, rfl, hle, rfl⟩
  unfold Format.number at hnumber
  dsimp only at hnumber
  rw [if_neg htype, hvalue] at hnumber
  by_cases hx : f.type = chr 'x' ∨ f.type = chr 'X'
  · rw [if_pos hx] at hnumber
    rcases hx with hx | hx
    · exact hself _ 16 hx (by decide) (by decide) (by decide) hnumber
    · exact hself _ 16 hx (by decide) (by decide) (by decide) hnumber
  rw [if_neg hx] at hnumber
  by_cases hu : f.type = chr 'u'
  · rw [if_pos hu] at hnumber
    exact hself _ 10 hu (by decide) (by decide) (by decide) hnumber
  rw [if_neg hu] at hnumber
  by_cases ho : f.type = chr 'o'
  · rw [if_pos ho] at hnumber
    exact hself _ 8 ho (by decide) (by decide) (by decide) hnumber
  rw [if_neg ho] at hnumber
  by_cases hb : f.type = chr 'b'
  · rw [if_pos hb] at hnumber
    exact hself _ 2 hb (by decide) (by decide) (by decide) hnumber
  rw [if_neg hb] at hnumber
  by_cases hp : f.type = chr 'p'
  · rw [if_pos hp] at hnumber
    cases hnumber
    rw [Format.pointer, if_pos hp]
    exact ⟨16, rfl, rfl, by decide, rfl⟩
  · rw [if_neg hp] at hnumber
    cases hnumber

/-- A number conversion prints the text of its number. -/
theorem conversionText_of_number {args : Args} {f : Format} {va base : Nat} {value : Int}
    (hnumber : f.number (args.slot va) = some (base, value)) :
    ∃ (positive : Word) (b upbase : Byte), positive.toNat = value.natAbs ∧ b.toNat = base ∧
      2 ≤ base ∧ base ≤ 16 ∧ CaseOf base upbase ∧
      conversionText args f va =
        (numberText f.pointer positive b (f.numberPrefix value) upbase, 1) := by
  by_cases htype : f.type = chr 'd' ∨ f.type = chr 'i'
  · have hpointer : f.pointer = f := by
      apply pointer_of_ne
      rcases htype with htype | htype <;> rw [htype] <;> decide
    have hc : f.type ≠ chr 'c' := by
      rcases htype with htype | htype <;> rw [htype] <;> decide
    let arg : Word := if f.longOperand then args.slot va
      else ((args.slot va).setWidth 32).signExtend 64
    have harg : arg.toInt =
        if f.longOperand then (args.slot va).toInt else ((args.slot va).setWidth 32).toInt := by
      unfold arg
      cases f.longOperand
      · exact BitVec.toInt_signExtend_of_le (by decide)
      · rfl
    rw [Format.number, if_pos htype, ← harg] at hnumber
    cases hnumber
    refine ⟨if arg.slt 0 then -arg else arg, 10, 0, toNat_abs arg, rfl, by decide, by decide,
      Or.inl (le_refl 10), ?_⟩
    rw [conversionText, hpointer, if_neg hc, if_pos htype, signedText, signedPrefix_eq htype]
  · obtain ⟨b, hb, rfl, hle, rfl⟩ := unsignedBase_of_number htype hnumber
    refine ⟨_, b, if f.pointer.type = chr 'X' then chr 'A' else chr 'a', rfl, rfl,
      two_le_unsignedBase hb, hle, ?_, ?_⟩
    · apply Or.inr
      split
      · exact Or.inr rfl
      · exact Or.inl rfl
    · rw [conversionText_of_unsignedBase hb, Format.numberPrefix, if_neg htype]

/-- The rewriting of `%p` leaves the padding as it is. -/
theorem NumberParts.Fit.of_pointer {parts : NumberParts} {f : Format} {base value : Nat}
    {pre : List Byte} (hfit : parts.Fit f.pointer base value pre) : parts.Fit f base value pre := by
  unfold Format.pointer at hfit
  split at hfit
  · exact ⟨hfit.numeral, hfit.left, hfit.zeros, hfit.right, hfit.width⟩
  · exact hfit

/-- No mark of a base is a minus sign. -/
theorem minus_notMem_unsignedPrefix (f : Format) : chr '-' ∉ unsignedPrefix f := by
  unfold unsignedPrefix
  repeat' split
  all_goals decide

theorem minus_mem_numberPrefix {f : Format} {slot : Word} {base : Nat} {value : Int}
    (hnumber : f.number slot = some (base, value)) :
    chr '-' ∈ f.numberPrefix value ↔ value < 0 := by
  unfold Format.numberPrefix
  by_cases htype : f.type = chr 'd' ∨ f.type = chr 'i'
  · rw [if_pos htype]
    by_cases hneg : value < 0
    · rw [if_pos hneg]
      exact iff_of_true (by decide) hneg
    · rw [if_neg hneg]
      apply iff_of_false _ hneg
      repeat' split
      all_goals decide
  · rw [if_neg htype]
    obtain ⟨b, -, -, -, rfl⟩ := unsignedBase_of_number htype hnumber
    exact iff_of_false (minus_notMem_unsignedPrefix _) (Int.not_lt.mpr (Int.natCast_nonneg _))

/-- A number conversion gives a handler that accepts every character the prefix and the
numeral of its operand, padded up to the width.  The prefix has a minus sign if and only if
the operand is negative. -/
theorem convert_readsBack (args : Args) (f : Format) (va base : Nat) (value : Int)
    (hnumber : f.number (args.slot va) = some (base, value)) :
    (chr '-' ∈ f.numberPrefix value ↔ value < 0) ∧
      ∃ parts : NumberParts, parts.Fit f base value.natAbs (f.numberPrefix value) ∧
        ∀ (σ : Type) (h : Handler σ) (st : PrintState σ),
          (∀ s c, (h s c).2 = true) → st.stop = false →
          convert h args f st va =
            .ok (⟨(parts.text (f.numberPrefix value)).foldl (fun s c => (h s c).1) st.user,
              st.done + BitVec.ofNat 64 (parts.text (f.numberPrefix value)).length, false⟩,
              va + 1) := by
  refine ⟨minus_mem_numberPrefix hnumber, ?_⟩
  obtain ⟨positive, b, upbase, habs, rfl, htwo, hle, hcase, htext⟩ :=
    conversionText_of_number hnumber
  have hfit := numberText_layout (f := f.pointer) htwo hle hcase positive (f.numberPrefix value)
  rw [habs] at hfit
  refine ⟨_, hfit.of_pointer, fun σ h st haccept hstop => ?_⟩
  obtain ⟨user, done, stop⟩ := st
  subst hstop
  rw [convert_eq, htext, numberText_eq, printAll_of_accepts haccept]

/-- `%+025ld` of the least integer. -/
theorem convert_readsBack_least :
    let f : Format := ⟨false, true, false, false, true, true, 25, chr 'd'⟩
    let args : Args := ⟨fun _ => BitVec.intMin 64, fun _ => ⟨[], by decide, by decide⟩⟩
    (chr '-' ∈ f.numberPrefix (-2 ^ 63) ↔ (-2 ^ 63 : Int) < 0) ∧
      ∃ parts : NumberParts,
        parts.Fit f 10 (-2 ^ 63 : Int).natAbs (f.numberPrefix (-2 ^ 63)) ∧
        ∀ (σ : Type) (h : Handler σ) (st : PrintState σ),
          (∀ s c, (h s c).2 = true) → st.stop = false →
          convert h args f st 0 =
            .ok (⟨(parts.text (f.numberPrefix (-2 ^ 63))).foldl (fun s c => (h s c).1) st.user,
              st.done + BitVec.ofNat 64 (parts.text (f.numberPrefix (-2 ^ 63))).length, false⟩,
              0 + 1) :=
  convert_readsBack _ _ 0 10 (-2 ^ 63) (by decide)

end KernelMemVirt.Rackdoll.Printk
