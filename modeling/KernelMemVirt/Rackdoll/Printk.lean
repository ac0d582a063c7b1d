import KernelMemVirt.Rackdoll.Scheduler
import Mathlib.Data.Nat.Log

/-!
# Formatted printing

`printk.c`.  The interpreter `vhprintk` hands its characters one by one to a handler:
`vprintk` gives them to the console, and `vsnprintk` stores them in a buffer until it is
full.

Strings are values (`CString`), so no string argument and no format lies in the buffer.
The arguments of a call are the 64-bit slots of its `va_list`, and `Args.string` gives the
string at an address.  A pointer into the format is `some` of what is left of the format,
or `none` one place after its NUL.

The characters of each conversion are given as a list (`numberText`, `conversionText`),
and every function of the interpreter is shown to emit such a list whatever its handler
does (`vhprintkLoop_eq_emit`).  What a handler makes of the list is a fact about the
handler alone.
-/

namespace KernelMemVirt.Rackdoll.Printk

abbrev Byte := BitVec 8

/-- The code of an ASCII character. -/
abbrev chr (c : Char) : Byte := BitVec.ofNat 8 c.toNat

/-- A NUL-terminated string in memory, without its NUL. -/
structure CString where
  bytes : List Byte
  noNul : 0 ∉ bytes
  fits : bytes.length < 2 ^ 64

/-- How the interpreter can fail: by a read past the NUL of the format, or in a loop that
does not end within the turns of the model. -/
inductive Fault
  | pastEnd
  | endless
  deriving DecidableEq, Repr

/-! ## Handlers -/

/-- A handler: the new user state, and if the character was accepted. -/
abbrev Handler (σ : Type) := σ → Byte → σ × Bool

structure SnprintkState where
  mem : Word → Byte
  buffer : Word
  len : Word
  ptr : Word

def vsnprintkHandler : Handler SnprintkState := fun st c =>
  if st.len ≤ st.ptr then (st, false)
  else ({ st with mem := Function.update st.mem (st.buffer + st.ptr) c, ptr := st.ptr + 1 }, true)

/-- The console is a parameter: `putc` gives its state after a character. -/
def vprintkHandler {κ : Type} (putc : κ → Byte → κ) : Handler κ := fun console c =>
  (putc console c, true)

/-! ## The format -/

/-- `struct vhprintk_format`. -/
structure Format where
  alternateForm : Bool
  zeroPad : Bool
  rightPad : Bool
  positiveBlank : Bool
  visibleSign : Bool
  longOperand : Bool
  minimumSize : Word
  type : Byte
  deriving DecidableEq, Repr

def Format.zero : Format := ⟨false, false, false, false, false, false, 0, 0⟩

def isDigit (c : Byte) : Bool := chr '0' ≤ c && c ≤ chr '9'

/-- The second loop of `vhprintk_read_format`: the width and the type. -/
def readWidth (f : Format) : List Byte → Format × Option (List Byte)
  | [] => (f, none)
  | c :: input =>
    if isDigit c then
      readWidth { f with minimumSize := f.minimumSize * 10 + (c - chr '0').setWidth 64 } input
    else ({ f with type := c }, some input)

/-- The first loop of `vhprintk_read_format`: the flags. -/
def readFlags (f : Format) : List Byte → Format × Option (List Byte)
  | [] => (f, none)
  | c :: input =>
    if c = chr '#' then readFlags { f with alternateForm := true } input
    else if c = chr '0' then readFlags { f with zeroPad := true } input
    else if c = chr '-' then readFlags { f with rightPad := true } input
    else if c = chr ' ' then readFlags { f with positiveBlank := true } input
    else if c = chr '+' then readFlags { f with visibleSign := true } input
    else readWidth f (c :: input)

/-- `vhprintk_read_format`: the format, and the input after it. -/
def readFormat (input : List Byte) : Except Fault (Format × Option (List Byte)) :=
  let (f, input) := readFlags .zero input
  if f.type = chr 'l' then
    match input with
    | none => .error .pastEnd
    | some [] => .ok ({ f with longOperand := true, type := 0 }, none)
    | some (c :: input) => .ok ({ f with longOperand := true, type := c }, some input)
  else .ok (f, input)

/-! ## Printing helpers -/

/-- The fields of `struct vhprintk_state` that printing changes. -/
structure PrintState (σ : Type) where
  user : σ
  done : Word
  stop : Bool

section Helpers

variable {σ : Type} (h : Handler σ)

def printOne (st : PrintState σ) (c : Byte) : PrintState σ × Bool :=
  let st :=
    if !st.stop then
      match h st.user c with
      | (user, true) => { st with user, done := st.done + 1 }
      | (user, false) => { st with user, stop := true }
    else st
  (st, !st.stop)

/-- A loop that prints each character and ignores what `vhprintk_print_one` returns. -/
def printAll (st : PrintState σ) (cs : List Byte) : PrintState σ :=
  cs.foldl (fun st c => (printOne h st c).1) st

/-- `vhprintk_pad`; the first argument counts the turns left. -/
def pad (st : PrintState σ) (c : Byte) : Nat → PrintState σ
  | 0 => st
  | n + 1 =>
    match printOne h st c with
    | (st, true) => pad st c n
    | (st, false) => st

/-- The loop of `number_length`. -/
def numberLengthLoop (base : Byte) : Nat → Word → Word → Except Fault Word
  | 0, _, _ => .error .endless
  | fuel + 1, number, len =>
    let number := number / base.setWidth 64
    let len := len + 1
    if 0 < number then numberLengthLoop base fuel number len else .ok len

/-- `number_length`.  A word has at most 64 digits. -/
def numberLength (number : Word) (base : Byte) : Except Fault Word :=
  numberLengthLoop base 64 number 0

/-- The character of a digit. -/
def digitChar (upchar : Byte) (unit : Word) : Byte :=
  if unit < 10 then chr '0' + unit.setWidth 8 else upchar + (unit - 10).setWidth 8

/-- The second loop of `vhprintk_print_radical`. -/
def radicalLoop (base upchar : Byte) :
    Nat → PrintState σ → Word → Word → Except Fault (PrintState σ)
  | 0, _, _, _ => .error .endless
  | fuel + 1, st, radical, div =>
    match printOne h st (digitChar upchar (radical / div)) with
    | (st, false) => .ok st
    | (st, true) =>
      let radical := radical % div
      let div := div / base.setWidth 64
      if 0 < div then radicalLoop base upchar fuel st radical div else .ok st

/-- `vhprintk_print_radical`; its first loop multiplies `div` by the base `len - 1`
times. -/
def printRadical (st : PrintState σ) (radical : Word) (base : Byte) (len : Word)
    (upchar : Byte) : Except Fault (PrintState σ) :=
  let div := (fun div : Word => div * base.setWidth 64)^[len.toNat - 1] 1
  radicalLoop h base upchar 64 st radical div

/-- `vhprintk_print_number`. -/
def printNumber (st : PrintState σ) (f : Format) (positive : Word) (base : Byte)
    (pre : List Byte) (upbase : Byte) : Except Fault (PrintState σ) := do
  let len ← numberLength positive base
  let totlen := len + BitVec.ofNat 64 pre.length
  let padlen := if totlen < f.minimumSize then f.minimumSize - totlen else 0
  let st := if !f.rightPad && !f.zeroPad then pad h st (chr ' ') padlen.toNat else st
  let st := printAll h st pre
  let st := if !f.rightPad && f.zeroPad then pad h st (chr '0') padlen.toNat else st
  let st ← printRadical h st positive base len upbase
  return if f.rightPad then pad h st (chr ' ') padlen.toNat else st

/-- `vhprintk_print_signed`. -/
def printSigned (st : PrintState σ) (f : Format) (base : Byte) (arg : Word) :
    Except Fault (PrintState σ) :=
  if arg.slt 0 then printNumber h st f (-arg) base [chr '-'] 0
  else
    let pre :=
      if f.positiveBlank then [chr ' '] else if f.visibleSign then [chr '+'] else []
    printNumber h st f arg base pre 0

/-- The prefix of `vhprintk_print_unsigned`. -/
def unsignedPrefix (f : Format) : List Byte :=
  if f.type = chr 'x' ∨ f.type = chr 'X' then
    if f.alternateForm then [chr '0', chr 'x'] else []
  else if f.type = chr 'o' then
    if f.alternateForm then [chr '0'] else []
  else if f.type = chr 'b' then
    if f.alternateForm then [chr '0', chr 'b'] else []
  else if f.positiveBlank then [chr ' ']
  else if f.visibleSign then [chr '+']
  else []

/-- `vhprintk_print_unsigned`. -/
def printUnsigned (st : PrintState σ) (f : Format) (base upbase : Byte) (arg : Word) :
    Except Fault (PrintState σ) :=
  printNumber h st f arg base (unsignedPrefix f) upbase

/-- `vhprintk_print_char`. -/
def printChar (st : PrintState σ) (f : Format) (arg : BitVec 32) : PrintState σ :=
  let padlen := if 1 < f.minimumSize then f.minimumSize - 1 else 0
  let st := if !f.rightPad then pad h st (chr ' ') padlen.toNat else st
  let st := (printOne h st (arg.setWidth 8)).1
  if f.rightPad then pad h st (chr ' ') padlen.toNat else st

/-- The string that is printed for a null pointer. -/
def nullString : List Byte := [chr '(', chr 'n', chr 'u', chr 'l', chr 'l', chr ')']

/-- `vhprintk_print_string`. -/
def printString (st : PrintState σ) (f : Format) (arg : Option CString) : PrintState σ :=
  let arg := arg.elim nullString CString.bytes
  let len := BitVec.ofNat 64 arg.length
  let padlen : Word := if len = 0 ∧ f.positiveBlank then 1 else 0
  let padlen := if len < f.minimumSize then f.minimumSize - len else padlen
  let st := if !f.rightPad then pad h st (chr ' ') padlen.toNat else st
  let st := printAll h st arg
  if f.rightPad then pad h st (chr ' ') padlen.toNat else st

end Helpers

/-! ## The interpreter -/

/-- The arguments of a call: the slots of the `va_list`, and the strings in memory. -/
structure Args where
  slot : Nat → Word
  string : Word → CString

/-- `va_arg(ap, char *)`. -/
def Args.str (args : Args) (va : Nat) : Option CString :=
  if args.slot va = 0 then none else some (args.string (args.slot va))

/-- The base of an unsigned conversion, as the cases of the `switch` add it up. -/
def unsignedBase (type : Byte) : Option Byte :=
  if type = chr 'X' ∨ type = chr 'x' then some (6 + 2 + 6 + 2)
  else if type = chr 'u' then some (2 + 6 + 2)
  else if type = chr 'o' then some (6 + 2)
  else if type = chr 'b' then some 2
  else none

/-- The rewriting of `%p`. -/
def Format.pointer (f : Format) : Format :=
  if f.type = chr 'p' then
    { f with type := chr 'x', alternateForm := true, longOperand := true }
  else f

section Interpreter

variable {σ : Type} (h : Handler σ) (args : Args)

/-- The `switch` of `vhprintk`, with the arguments read so far. -/
def convert (f : Format) (st : PrintState σ) (va : Nat) : Except Fault (PrintState σ × Nat) :=
  let f := f.pointer
  let arg := args.slot va
  if f.type = chr 'c' then .ok (printChar h st f (arg.setWidth 32), va + 1)
  else if f.type = chr 'd' ∨ f.type = chr 'i' then do
    let arg := if f.longOperand then arg else (arg.setWidth 32).signExtend 64
    let st ← printSigned h st f 10 arg
    return (st, va + 1)
  else if f.type = chr 's' then .ok (printString h st f (args.str va), va + 1)
  else
    match unsignedBase f.type with
    | some base => do
      let upbase := if f.type = chr 'X' then chr 'A' else chr 'a'
      let arg := if f.longOperand then arg else (arg.setWidth 32).setWidth 64
      let st ← printUnsigned h st f base upbase arg
      return (st, va + 1)
    | none => .ok (st, va)

/-- The loop of `vhprintk`. -/
def vhprintkLoop : Nat → PrintState σ → Nat → Bool → Option (List Byte) →
    Except Fault (PrintState σ)
  | 0, _, _, _, _ => .error .endless
  | _ + 1, _, _, _, none => .error .pastEnd
  | _ + 1, st, _, _, some [] => .ok st
  | fuel + 1, st, va, fmt, some (c :: input) =>
    if st.stop then .ok st
    else if c = chr '%' ∧ fmt = false then vhprintkLoop fuel st va true (some input)
    else if c = chr '%' ∨ fmt = false then
      vhprintkLoop fuel (printOne h st c).1 va false (some input)
    else do
      let (f, input) ← readFormat (c :: input)
      let (st, va) ← convert h args f st va
      vhprintkLoop fuel st va false input

/-- `vhprintk`: the user state, and the number of characters accepted.  Every turn of the
loop reads a character of the format. -/
def vhprintk (user : σ) (format : CString) : Except Fault (σ × Word) := do
  let st ← vhprintkLoop h args (format.bytes.length + 2) ⟨user, 0, false⟩ 0 false
    (some format.bytes)
  return (st.user, st.done)

end Interpreter

def vprintk {κ : Type} (putc : κ → Byte → κ) (console : κ) (format : CString) (args : Args) :
    Except Fault (κ × Word) :=
  vhprintk (vprintkHandler putc) args console format

/-- `vsnprintk`: the memory after the call, and the value it returns. -/
def vsnprintk (mem : Word → Byte) (buffer size : Word) (format : CString) (args : Args) :
    Except Fault ((Word → Byte) × Word) := do
  let (st, done) ← vhprintk vsnprintkHandler args ⟨mem, buffer, size, 0⟩ format
  return (st.mem, done)

/-! ## Complete formats -/

/-- Where the next character of a format stands. -/
inductive Phase
  | text
  | percent
  | flags
  | width
  | long
  deriving DecidableEq, Repr

def isFlag (c : Byte) : Bool :=
  c = chr '#' || c = chr '0' || c = chr '-' || c = chr ' ' || c = chr '+'

/-- The phase after a character that may be the type. -/
def afterType (c : Byte) : Phase := if c = chr 'l' then .long else .text

def Phase.next : Phase → Byte → Phase
  | .text, c => if c = chr '%' then .percent else .text
  | .percent, c =>
    if c = chr '%' then .text
    else if isFlag c then .flags
    else if isDigit c then .width
    else afterType c
  | .flags, c => if isFlag c then .flags else if isDigit c then .width else afterType c
  | .width, c => if isDigit c then .width else afterType c
  | .long, _ => .text

/-- The phase at the end of a format. -/
def Phase.after (phase : Phase) (format : List Byte) : Phase := format.foldl Phase.next phase

/-- The format does not end in the middle of a conversion: every conversion that begins
has its type. -/
def Complete (format : List Byte) : Prop :=
  Phase.after .text format = .text ∨ Phase.after .text format = .percent

instance (format : List Byte) : Decidable (Complete format) :=
  inferInstanceAs (Decidable (_ ∨ _))

/-! ## Printing is emission -/

section Emission

variable {σ : Type} {h : Handler σ} {st : PrintState σ}

theorem printOne_of_stop (hstop : st.stop = true) (c : Byte) : printOne h st c = (st, false) := by
  unfold printOne
  rw [hstop]
  simp [hstop]

/-- What `vhprintk_print_one` returns is read off the new state. -/
theorem printOne_snd (c : Byte) : (printOne h st c).2 = !(printOne h st c).1.stop := rfl

theorem printAll_cons (c : Byte) (cs : List Byte) :
    printAll h st (c :: cs) = printAll h (printOne h st c).1 cs := rfl

/-- A stopped interpreter prints nothing. -/
theorem printAll_of_stop (hstop : st.stop = true) (cs : List Byte) : printAll h st cs = st := by
  induction cs with
  | nil => rfl
  | cons c cs ih =>
    rw [printAll_cons, printOne_of_stop hstop]
    exact ih

theorem printAll_append (cs cs' : List Byte) :
    printAll h st (cs ++ cs') = printAll h (printAll h st cs) cs' :=
  List.foldl_append

/-- The early return of a loop loses nothing: the characters left are not printed either. -/
theorem printOne_cases (h : Handler σ) (st : PrintState σ) (c : Byte) (cs : List Byte) :
    (∃ st', printOne h st c = (st', true) ∧ printAll h st (c :: cs) = printAll h st' cs) ∨
      ∃ st', printOne h st c = (st', false) ∧ printAll h st (c :: cs) = st' := by
  rcases hstop : (printOne h st c).1.stop with _ | _
  · refine Or.inl ⟨(printOne h st c).1, ?_, rfl⟩
    rw [Prod.ext_iff, printOne_snd, hstop]
    exact ⟨rfl, rfl⟩
  · refine Or.inr ⟨(printOne h st c).1, ?_, ?_⟩
    · rw [Prod.ext_iff, printOne_snd, hstop]
      exact ⟨rfl, rfl⟩
    · rw [printAll_cons, printAll_of_stop hstop]

theorem pad_eq_printAll (c : Byte) (n : Nat) : pad h st c n = printAll h st (.replicate n c) := by
  induction n generalizing st with
  | zero => rfl
  | succ n ih =>
    rw [List.replicate_succ, pad]
    rcases printOne_cases h st c (.replicate n c) with ⟨st', hone, hall⟩ | ⟨st', hone, hall⟩
    · rw [hone, hall]
      exact ih
    · rw [hone, hall]

end Emission

/-! ## Digits -/

section Digits

variable {base : Byte}

theorem toNat_base : (base.setWidth 64).toNat = base.toNat :=
  BitVec.toNat_setWidth_of_le (by decide)

/-- The number of digits of a number. -/
def digitCount (base : Byte) (n : Nat) : Nat := Nat.log base.toNat n + 1

theorem numberLengthLoop_eq (hbase : 2 ≤ base.toNat) {fuel : Nat} {number len : Word}
    (hfuel : Nat.log base.toNat number.toNat < fuel) :
    numberLengthLoop base fuel number len =
      .ok (len + BitVec.ofNat 64 (Nat.log base.toNat number.toNat + 1)) := by
  induction fuel generalizing number len with
  | zero => omega
  | succ fuel ih =>
    have hdiv : (number / base.setWidth 64).toNat = number.toNat / base.toNat := by
      rw [BitVec.toNat_udiv, toNat_base]
    have hlog := Nat.log_div_base base.toNat number.toNat
    rw [← hdiv] at hlog
    unfold numberLengthLoop
    dsimp only
    split
    · rename_i hpos
      have hle : base.toNat ≤ number.toNat := by
        have hpos' : 0 < (number / base.setWidth 64).toNat := BitVec.lt_def.mp hpos
        rw [hdiv] at hpos'
        exact (Nat.div_pos_iff.mp hpos').2
      have hlog' : 0 < Nat.log base.toNat number.toNat := Nat.log_pos hbase hle
      rw [ih (by omega), hlog, Nat.sub_add_cancel hlog', BitVec.add_assoc, Nat.add_comm,
        BitVec.ofNat_add]
      rfl
    · rename_i hpos
      have hlt : number.toNat < base.toNat := by
        apply (Nat.div_eq_zero_iff_lt (by omega)).mp
        rw [← hdiv]
        exact Nat.eq_zero_of_not_pos fun hlt => hpos (BitVec.lt_def.mpr hlt)
      rw [Nat.log_of_lt hlt]
      rfl

/-- A word has at most 64 digits. -/
theorem log_lt (hbase : 2 ≤ base.toNat) (number : Word) :
    Nat.log base.toNat number.toNat < 64 := by
  refine Nat.log_lt_of_lt_pow' (by decide) (number.isLt.trans_le ?_)
  exact Nat.pow_le_pow_left hbase 64

theorem numberLength_eq (hbase : 2 ≤ base.toNat) (number : Word) :
    numberLength number base = .ok (BitVec.ofNat 64 (digitCount base number.toNat)) := by
  rw [numberLength, numberLengthLoop_eq hbase (log_lt hbase number)]
  exact congrArg Except.ok (BitVec.zero_add _)

/-- The lowest `k` digits of a number, the most significant one first. -/
def digits (base upchar : Byte) (n k : Nat) : List Byte :=
  (List.range k).reverse.map fun i =>
    digitChar upchar (BitVec.ofNat 64 (n / base.toNat ^ i % base.toNat))

theorem digits_succ (upchar : Byte) (n k : Nat) :
    digits base upchar n (k + 1) =
      digitChar upchar (BitVec.ofNat 64 (n / base.toNat ^ k % base.toNat)) ::
        digits base upchar n k := by
  rw [digits, List.range_succ, List.reverse_append]
  rfl

/-- The lowest `k` digits depend on the number modulo the `k`-th power only. -/
theorem digits_mod (upchar : Byte) (n k : Nat) :
    digits base upchar (n % base.toNat ^ k) k = digits base upchar n k := by
  refine List.map_congr_left fun i hi => ?_
  have hik : i < k := List.mem_range.mp (List.mem_reverse.mp hi)
  have hdvd : base.toNat ∣ base.toNat ^ (k - i) := dvd_pow_self _ (by omega)
  rw [show k = i + (k - i) by omega, pow_add, Nat.mod_mul_right_div_self,
    Nat.mod_mod_of_dvd _ hdvd]

theorem radicalLoop_eq {σ : Type} {h : Handler σ} {upchar : Byte} (hbase : 2 ≤ base.toNat)
    {fuel k : Nat} (hfuel : k < fuel) {st : PrintState σ} {radical div : Word}
    (hdiv : div.toNat = base.toNat ^ k) (hradical : radical.toNat < base.toNat ^ (k + 1)) :
    radicalLoop h base upchar fuel st radical div =
      .ok (printAll h st (digits base upchar radical.toNat (k + 1))) := by
  induction fuel generalizing k st radical div with
  | zero => omega
  | succ fuel ih =>
    have hunit : radical / div =
        BitVec.ofNat 64 (radical.toNat / base.toNat ^ k % base.toNat) := by
      have hlt : radical.toNat / base.toNat ^ k < base.toNat := by
        rw [Nat.div_lt_iff_lt_mul (Nat.pow_pos (by omega)), ← Nat.pow_succ']
        exact hradical
      rw [Nat.mod_eq_of_lt hlt, ← hdiv, ← BitVec.toNat_udiv, BitVec.ofNat_toNat,
        BitVec.setWidth_eq]
    rw [radicalLoop, digits_succ, hunit]
    rcases printOne_cases h st
      (digitChar upchar (BitVec.ofNat 64 (radical.toNat / base.toNat ^ k % base.toNat)))
      (digits base upchar radical.toNat k) with ⟨st', hone, hall⟩ | ⟨st', hone, hall⟩
    · rw [hone, hall]
      dsimp only
      have hdiv' : (div / base.setWidth 64).toNat = base.toNat ^ k / base.toNat := by
        rw [BitVec.toNat_udiv, toNat_base, hdiv]
      cases k with
      | zero =>
        rw [if_neg]
        · rfl
        · rw [BitVec.lt_def, hdiv', Nat.pow_zero, Nat.div_eq_of_lt (by omega)]
          exact Nat.lt_irrefl 0
      | succ k =>
        rw [Nat.pow_succ, Nat.mul_div_cancel _ (by omega)] at hdiv'
        rw [if_pos (by rw [BitVec.lt_def, hdiv']; exact Nat.pow_pos (by omega))]
        have hmod : (radical % div).toNat = radical.toNat % base.toNat ^ (k + 1) := by
          rw [BitVec.toNat_umod, hdiv]
        rw [ih (by omega) hdiv' (by rw [hmod]; exact Nat.mod_lt _ (Nat.pow_pos (by omega))),
          hmod, digits_mod]
    · rw [hone, hall]

/-- The divisor of the first digit. -/
theorem toNat_iterate_mul (hbase : 2 ≤ base.toNat) {k : Nat} (hlt : base.toNat ^ k < 2 ^ 64) :
    ((fun div : Word => div * base.setWidth 64)^[k] 1).toNat = base.toNat ^ k := by
  induction k with
  | zero => rfl
  | succ k ih =>
    have hle : base.toNat ^ k ≤ base.toNat ^ (k + 1) :=
      Nat.pow_le_pow_right (by omega) (Nat.le_succ k)
    rw [Function.iterate_succ_apply', BitVec.toNat_mul, ih (hle.trans_lt hlt), toNat_base,
      ← Nat.pow_succ, Nat.mod_eq_of_lt hlt]

theorem printRadical_eq {σ : Type} {h : Handler σ} {st : PrintState σ} (hbase : 2 ≤ base.toNat)
    (radical : Word) (upchar : Byte) :
    printRadical h st radical base (BitVec.ofNat 64 (digitCount base radical.toNat)) upchar =
      .ok (printAll h st
        (digits base upchar radical.toNat (digitCount base radical.toNat))) := by
  have hlog := log_lt hbase radical
  have hlen : (BitVec.ofNat 64 (digitCount base radical.toNat)).toNat - 1 =
      Nat.log base.toNat radical.toNat := by
    rw [BitVec.toNat_ofNat, digitCount, Nat.mod_eq_of_lt (by omega), Nat.add_sub_cancel]
  have hlt : base.toNat ^ Nat.log base.toNat radical.toNat < 2 ^ 64 := by
    by_cases hzero : radical.toNat = 0
    · rw [hzero, Nat.log_zero_right, Nat.pow_zero]
      decide
    · exact (Nat.pow_log_le_self _ hzero).trans_lt radical.isLt
  rw [printRadical, hlen]
  exact radicalLoop_eq hbase hlog (toNat_iterate_mul hbase hlt) (Nat.lt_pow_succ_log_self hbase _)

end Digits

/-! ## Conversions -/

/-- The characters of a number: padding, prefix, zeros, digits and padding. -/
def numberText (f : Format) (positive : Word) (base : Byte) (pre : List Byte) (upbase : Byte) :
    List Byte :=
  let count := digitCount base positive.toNat
  let padlen := f.minimumSize.toNat - (count + pre.length)
  (if !f.rightPad && !f.zeroPad then List.replicate padlen (chr ' ') else []) ++ pre ++
    (if !f.rightPad && f.zeroPad then List.replicate padlen (chr '0') else []) ++
    digits base upbase positive.toNat count ++
    (if f.rightPad then List.replicate padlen (chr ' ') else [])

/-- The sign of a signed conversion. -/
def signedPrefix (f : Format) (arg : Word) : List Byte :=
  if arg.slt 0 then [chr '-']
  else if f.positiveBlank then [chr ' ']
  else if f.visibleSign then [chr '+']
  else []

def signedText (f : Format) (base : Byte) (arg : Word) : List Byte :=
  numberText f (if arg.slt 0 then -arg else arg) base (signedPrefix f arg) 0

/-- Characters with padding around them. -/
def padded (f : Format) (padlen : Nat) (cs : List Byte) : List Byte :=
  (if f.rightPad then [] else List.replicate padlen (chr ' ')) ++ cs ++
    if f.rightPad then List.replicate padlen (chr ' ') else []

def charText (f : Format) (arg : BitVec 32) : List Byte :=
  padded f (f.minimumSize.toNat - 1) [arg.setWidth 8]

def stringText (f : Format) (arg : Option CString) : List Byte :=
  let cs := arg.elim nullString CString.bytes
  padded f (max (f.minimumSize.toNat - cs.length) (if cs = [] ∧ f.positiveBlank then 1 else 0)) cs

/-- The characters of a conversion, and the number of arguments it reads. -/
def conversionText (args : Args) (f : Format) (va : Nat) : List Byte × Nat :=
  let f := f.pointer
  let arg := args.slot va
  if f.type = chr 'c' then (charText f (arg.setWidth 32), 1)
  else if f.type = chr 'd' ∨ f.type = chr 'i' then
    (signedText f 10 (if f.longOperand then arg else (arg.setWidth 32).signExtend 64), 1)
  else if f.type = chr 's' then (stringText f (args.str va), 1)
  else
    match unsignedBase f.type with
    | some base =>
      (numberText f (if f.longOperand then arg else (arg.setWidth 32).setWidth 64) base
        (unsignedPrefix f) (if f.type = chr 'X' then chr 'A' else chr 'a'), 1)
    | none => ([], 0)

section Conversions

variable {σ : Type} {h : Handler σ} {st : PrintState σ} {f : Format}

theorem ite_pad (b : Bool) (c : Byte) (n : Nat) :
    (if b then pad h st c n else st) =
      printAll h st (if b then List.replicate n c else []) := by
  cases b
  · rfl
  · exact pad_eq_printAll c n

/-- The length of a padding. -/
theorem toNat_padlen (size len : Word) {least : Word} (hleast : least.toNat ≤ 1) :
    (if len < size then size - len else least).toNat =
      max (size.toNat - len.toNat) least.toNat := by
  split
  · rename_i hlt
    have hlt' := BitVec.lt_def.mp hlt
    rw [BitVec.toNat_sub_of_le (BitVec.le_of_lt hlt)]
    omega
  · rename_i hge
    have hge' : size.toNat ≤ len.toNat := Nat.not_lt.mp fun hlt => hge (BitVec.lt_def.mpr hlt)
    omega

theorem printNumber_eq {base : Byte} (hbase : 2 ≤ base.toNat) (positive : Word)
    {pre : List Byte} (hpre : pre.length ≤ 2) (upbase : Byte) :
    printNumber h st f positive base pre upbase =
      .ok (printAll h st (numberText f positive base pre upbase)) := by
  have hlog := log_lt hbase positive
  have htot : (BitVec.ofNat 64 (digitCount base positive.toNat) +
      BitVec.ofNat 64 pre.length).toNat = digitCount base positive.toNat + pre.length := by
    rw [← BitVec.ofNat_add, BitVec.toNat_ofNat, digitCount]
    omega
  have hpad := toNat_padlen f.minimumSize (BitVec.ofNat 64 (digitCount base positive.toNat) +
    BitVec.ofNat 64 pre.length) (show (0 : Word).toNat ≤ 1 by decide)
  rw [htot] at hpad
  unfold printNumber
  rw [numberLength_eq hbase]
  simp only [bind, Except.bind, ite_pad, printRadical_eq hbase, pure, Except.pure, hpad,
    ← printAll_append]
  simp [numberText]

theorem printSigned_eq {base : Byte} (hbase : 2 ≤ base.toNat) (arg : Word) :
    printSigned h st f base arg = .ok (printAll h st (signedText f base arg)) := by
  unfold printSigned signedText signedPrefix
  dsimp only
  split
  · exact printNumber_eq hbase _ (by decide) _
  · refine printNumber_eq hbase _ ?_ _
    split
    · decide
    · split <;> decide

theorem length_unsignedPrefix : (unsignedPrefix f).length ≤ 2 := by
  unfold unsignedPrefix
  repeat' split
  all_goals decide

/-- The two paddings around printed characters. -/
theorem ite_padded (b : Bool) (n : Nat) (cs : List Byte) :
    (if b then pad h (printAll h (if !b then pad h st (chr ' ') n else st) cs) (chr ' ') n
      else printAll h (if !b then pad h st (chr ' ') n else st) cs) =
      printAll h st ((if b then [] else List.replicate n (chr ' ')) ++ cs ++
        if b then List.replicate n (chr ' ') else []) := by
  rw [ite_pad, ite_pad, ← printAll_append, ← printAll_append, ← List.append_assoc]
  cases b <;> rfl

theorem printChar_eq (arg : BitVec 32) :
    printChar h st f arg = printAll h st (charText f arg) := by
  have hpad := toNat_padlen f.minimumSize 1 (show (0 : Word).toNat ≤ 1 by decide)
  have hmax : max (f.minimumSize.toNat - 1) 0 = f.minimumSize.toNat - 1 := Nat.max_zero _
  unfold printChar charText padded
  rw [← hmax]
  refine Eq.trans ?_ (ite_padded f.rightPad _ _)
  rw [← show _ = max (f.minimumSize.toNat - 1) 0 from hpad]
  rfl

theorem printString_eq (arg : Option CString) :
    printString h st f arg = printAll h st (stringText f arg) := by
  have hlt : (arg.elim nullString CString.bytes).length < 2 ^ 64 := by
    cases arg with
    | none => decide
    | some s => exact s.fits
  unfold printString stringText padded
  dsimp only
  generalize arg.elim nullString CString.bytes = cs at hlt
  have hlen : (BitVec.ofNat 64 cs.length).toNat = cs.length := Nat.mod_eq_of_lt hlt
  have hnil : BitVec.ofNat 64 cs.length = 0 ↔ cs = [] := by
    rw [← List.length_eq_zero_iff, BitVec.toNat_eq, hlen]
    rfl
  have hleast : (if BitVec.ofNat 64 cs.length = 0 ∧ f.positiveBlank then (1 : Word) else 0).toNat =
      if cs = [] ∧ f.positiveBlank then 1 else 0 := by
    simp only [hnil]
    split <;> rfl
  have hpad := toNat_padlen f.minimumSize (BitVec.ofNat 64 cs.length)
    (show (if BitVec.ofNat 64 cs.length = 0 ∧ f.positiveBlank then (1 : Word) else 0).toNat ≤ 1 by
      rw [hleast]
      split <;> decide)
  rw [hlen, hleast] at hpad
  rw [← hpad]
  exact ite_padded f.rightPad _ _

theorem two_le_unsignedBase {type base : Byte} (hbase : unsignedBase type = some base) :
    2 ≤ base.toNat := by
  unfold unsignedBase at hbase
  repeat' split at hbase
  all_goals cases hbase
  all_goals decide

theorem convert_eq (args : Args) (va : Nat) :
    convert h args f st va = .ok (printAll h st (conversionText args f va).1,
      va + (conversionText args f va).2) := by
  unfold convert conversionText
  dsimp only
  generalize f.pointer = f
  by_cases hc : f.type = chr 'c'
  · rw [if_pos hc, if_pos hc, printChar_eq]
  rw [if_neg hc, if_neg hc]
  by_cases hd : f.type = chr 'd' ∨ f.type = chr 'i'
  · rw [if_pos hd, if_pos hd, printSigned_eq (by decide)]
    rfl
  rw [if_neg hd, if_neg hd]
  by_cases hs : f.type = chr 's'
  · rw [if_pos hs, if_pos hs, printString_eq]
  rw [if_neg hs, if_neg hs]
  rcases hbase : unsignedBase f.type with _ | base
  · rfl
  · dsimp only
    rw [printUnsigned, printNumber_eq (two_le_unsignedBase hbase) _ length_unsignedPrefix]
    rfl

end Conversions

/-! ## Reading a conversion -/

/-- The phases in which a complete format may end. -/
def Phase.IsEnd (phase : Phase) : Prop := phase = .text ∨ phase = .percent

theorem Phase.after_cons (phase : Phase) (c : Byte) (input : List Byte) :
    phase.after (c :: input) = (phase.next c).after input := rfl

/-- What is left of a format after a read from a phase on: the characters after the phase
`next`, or nothing when the format ends before it. -/
def ReadsTo (phase next : Phase) (input : List Byte) : Option (List Byte) → Prop
  | some rest => rest.length < input.length ∧ phase.after input = next.after rest
  | none => ¬ (phase.after input).IsEnd

/-- A character read before. -/
theorem ReadsTo.cons {phase phase' next : Phase} {c : Byte} {input : List Byte}
    {rest : Option (List Byte)} (hphase : phase.next c = phase')
    (hreads : ReadsTo phase' next input rest) : ReadsTo phase next (c :: input) rest := by
  subst hphase
  cases rest with
  | none => exact hreads
  | some rest => exact ⟨Nat.lt_succ_of_lt hreads.1, hreads.2⟩

/-- The width is read up to the type. -/
theorem readWidth_reads (f : Format) (input : List Byte) :
    ReadsTo .width (afterType (readWidth f input).1.type) input (readWidth f input).2 := by
  induction input generalizing f with
  | nil => rintro (hend | hend) <;> cases hend
  | cons c input ih =>
    unfold readWidth
    by_cases hdigit : isDigit c
    · rw [if_pos hdigit]
      exact (ih _).cons (if_pos hdigit)
    · rw [if_neg hdigit]
      refine ⟨Nat.lt_succ_self _, ?_⟩
      rw [Phase.after_cons, Phase.next, if_neg hdigit]

theorem readFlags_of_isFlag (f : Format) {c : Byte} (hflag : isFlag c) (input : List Byte) :
    ∃ f', readFlags f (c :: input) = readFlags f' input ∧ f'.type = f.type := by
  unfold isFlag at hflag
  simp only [Bool.or_eq_true, decide_eq_true_eq] at hflag
  rcases hflag with (((rfl | rfl) | rfl) | rfl) | rfl <;> exact ⟨_, rfl, rfl⟩

theorem readFlags_of_not_isFlag (f : Format) {c : Byte} (hflag : ¬ isFlag c) (input : List Byte) :
    readFlags f (c :: input) = readWidth f (c :: input) := by
  unfold isFlag at hflag
  simp only [Bool.or_eq_true, decide_eq_true_eq, not_or] at hflag
  obtain ⟨⟨⟨⟨halt, hzero⟩, hminus⟩, hblank⟩, hplus⟩ := hflag
  rw [readFlags, if_neg halt, if_neg hzero, if_neg hminus, if_neg hblank, if_neg hplus]

theorem readFlags_reads (f : Format) (input : List Byte) :
    ReadsTo .flags (afterType (readFlags f input).1.type) input (readFlags f input).2 := by
  induction input generalizing f with
  | nil => rintro (hend | hend) <;> cases hend
  | cons c input ih =>
    by_cases hflag : isFlag c
    · obtain ⟨f₁, hfirst, -⟩ := readFlags_of_isFlag f hflag input
      rw [hfirst]
      exact (ih f₁).cons (if_pos hflag)
    · have hwidth : Phase.flags.after (c :: input) = Phase.width.after (c :: input) := by
        rw [Phase.after_cons, Phase.after_cons, Phase.next, if_neg hflag]
        rfl
      have hreads := readWidth_reads f (c :: input)
      rw [readFlags_of_not_isFlag f hflag]
      unfold ReadsTo at hreads ⊢
      rw [hwidth]
      exact hreads

/-- Where the format ends first, no type is read. -/
theorem readWidth_type_of_none {f : Format} {input : List Byte}
    (hnone : (readWidth f input).2 = none) : (readWidth f input).1.type = f.type := by
  induction input generalizing f with
  | nil => rfl
  | cons c input ih =>
    unfold readWidth at hnone ⊢
    by_cases hdigit : isDigit c
    · rw [if_pos hdigit] at hnone ⊢
      exact ih hnone
    · rw [if_neg hdigit] at hnone
      cases hnone

theorem readFlags_type_of_none {f : Format} {input : List Byte}
    (hnone : (readFlags f input).2 = none) : (readFlags f input).1.type = f.type := by
  induction input generalizing f with
  | nil => rfl
  | cons c input ih =>
    by_cases hflag : isFlag c
    · obtain ⟨f₁, hfirst, htype⟩ := readFlags_of_isFlag f hflag input
      rw [hfirst] at hnone ⊢
      exact (ih hnone).trans htype
    · rw [readFlags_of_not_isFlag f hflag] at hnone ⊢
      exact readWidth_type_of_none hnone

/-- `vhprintk_read_format` reads up to the type of a conversion, or past the end of a format
that has none. -/
theorem readFormat_reads (input : List Byte) :
    ∃ f rest, readFormat input = .ok (f, rest) ∧ ReadsTo .flags .text input rest := by
  have hreads := readFlags_reads .zero input
  have htype : (readFlags .zero input).2 = none → (readFlags .zero input).1.type = 0 :=
    readFlags_type_of_none
  unfold readFormat
  generalize readFlags .zero input = read at hreads htype
  obtain ⟨f, rest⟩ := read
  dsimp only at hreads htype ⊢
  by_cases hlong : f.type = chr 'l'
  · rw [afterType, if_pos hlong] at hreads
    rw [if_pos hlong]
    cases rest with
    | none =>
      rw [htype rfl] at hlong
      exact absurd hlong (by decide)
    | some rest =>
      cases rest with
      | nil =>
        refine ⟨_, none, rfl, ?_⟩
        unfold ReadsTo
        rw [hreads.2]
        rintro (hend | hend) <;> cases hend
      | cons c rest => exact ⟨_, some rest, rfl, Nat.lt_of_succ_lt hreads.1, hreads.2⟩
  · rw [afterType, if_neg hlong] at hreads
    rw [if_neg hlong]
    exact ⟨f, rest, rfl, hreads⟩

/-- After a character that is printed, the interpreter reads text. -/
theorem next_of_plain {c : Byte} {fmt : Bool} (hfirst : ¬ (c = chr '%' ∧ fmt = false))
    (hplain : c = chr '%' ∨ fmt = false) :
    (if fmt then Phase.percent else .text).next c = .text := by
  cases fmt with
  | false => exact if_neg fun heq => hfirst ⟨heq, rfl⟩
  | true => exact if_pos (hplain.resolve_right (by decide))

/-- Any other character begins the flags of a conversion. -/
theorem after_of_not_plain {c : Byte} {fmt : Bool} (hplain : ¬ (c = chr '%' ∨ fmt = false))
    (input : List Byte) :
    ((if fmt then Phase.percent else .text).next c).after input =
      Phase.flags.after (c :: input) := by
  obtain ⟨hpercent, hfmt⟩ := not_or.mp hplain
  rw [Bool.not_eq_false] at hfmt
  rw [hfmt, if_pos rfl, Phase.after_cons, Phase.next, if_neg hpercent]
  rfl

/-- The interpreter emits a list of characters that does not depend on its handler. -/
theorem vhprintkLoop_eq_emit (args : Args) {fuel : Nat} (va : Nat) (fmt : Bool)
    {input : List Byte} (hfuel : input.length < fuel)
    (hend : ((if fmt then Phase.percent else .text).after input).IsEnd) :
    ∃ text, ∀ (σ : Type) (h : Handler σ) (st : PrintState σ),
      vhprintkLoop h args fuel st va fmt (some input) = .ok (printAll h st text) := by
  induction fuel generalizing va fmt input with
  | zero => omega
  | succ fuel ih =>
    cases input with
    | nil => exact ⟨[], fun σ h st => rfl⟩
    | cons c input =>
      have hlen : input.length < fuel := Nat.lt_of_succ_lt_succ hfuel
      rw [Phase.after_cons] at hend
      suffices hturn : ∃ text, ∀ (σ : Type) (h : Handler σ) (st : PrintState σ),
          st.stop = false →
            vhprintkLoop h args (fuel + 1) st va fmt (some (c :: input)) =
              .ok (printAll h st text) by
        obtain ⟨text, htext⟩ := hturn
        refine ⟨text, fun σ h st => ?_⟩
        rcases hstop : st.stop with _ | _
        · exact htext σ h st hstop
        · rw [vhprintkLoop, if_pos hstop, printAll_of_stop hstop]
      by_cases hfirst : c = chr '%' ∧ fmt = false
      · obtain ⟨rfl, rfl⟩ := hfirst
        obtain ⟨text, htext⟩ := ih va true hlen hend
        refine ⟨text, fun σ h st hstop => ?_⟩
        rw [vhprintkLoop, if_neg (by rw [hstop]; decide), if_pos ⟨rfl, rfl⟩]
        exact htext σ h st
      by_cases hplain : c = chr '%' ∨ fmt = false
      · rw [next_of_plain hfirst hplain] at hend
        obtain ⟨text, htext⟩ := ih va false hlen hend
        refine ⟨c :: text, fun σ h st hstop => ?_⟩
        rw [vhprintkLoop, if_neg (by rw [hstop]; decide), if_neg hfirst, if_pos hplain]
        exact htext σ h _
      · rw [after_of_not_plain hplain] at hend
        obtain ⟨f, rest, hread, hreads⟩ := readFormat_reads (c :: input)
        obtain _ | rest := rest
        · exact absurd hend hreads
        obtain ⟨hlen', hafter⟩ := hreads
        obtain ⟨text, htext⟩ := ih (va + (conversionText args f va).2) false
          (show rest.length < fuel by rw [List.length_cons] at hlen'; omega) (hafter ▸ hend)
        refine ⟨(conversionText args f va).1 ++ text, fun σ h st hstop => ?_⟩
        rw [vhprintkLoop, if_neg (by rw [hstop]; decide), if_neg hfirst, if_neg hplain, hread]
        simp only [bind, Except.bind, convert_eq]
        rw [htext, printAll_append]

/-! ## What the handlers make of the characters -/

section Handlers

theorem add_ofNat_succ (x : Word) (n : Nat) :
    x + BitVec.ofNat 64 (n + 1) = x + 1 + BitVec.ofNat 64 n := by
  rw [Nat.add_comm, BitVec.ofNat_add, BitVec.add_assoc]
  rfl

/-- A handler that accepts every character gets all of them. -/
theorem printAll_of_accepts {σ : Type} {h : Handler σ} (haccept : ∀ s c, (h s c).2 = true)
    (user : σ) (done : Word) (text : List Byte) :
    printAll h ⟨user, done, false⟩ text =
      ⟨text.foldl (fun s c => (h s c).1) user, done + BitVec.ofNat 64 text.length, false⟩ := by
  induction text generalizing user done with
  | nil => simp [printAll]
  | cons c text ih =>
    have hone : (printOne h ⟨user, done, false⟩ c).1 = ⟨(h user c).1, done + 1, false⟩ := by
      rw [printOne, show h user c = ((h user c).1, true) from Prod.ext rfl (haccept user c)]
      rfl
    rw [printAll_cons, hone, List.length_cons, add_ofNat_succ]
    exact ih (h user c).1 (done + 1)

/-- The console accepts every character. -/
theorem printAll_vprintk {κ : Type} (putc : κ → Byte → κ) (console : κ) (done : Word)
    (text : List Byte) :
    printAll (vprintkHandler putc) ⟨console, done, false⟩ text =
      ⟨text.foldl putc console, done + BitVec.ofNat 64 text.length, false⟩ :=
  printAll_of_accepts (fun _ _ => rfl) console done text

/-- The memory after characters have been stored from `addr` on. -/
def store (mem : Word → Byte) (addr : Word) : List Byte → Word → Byte
  | [] => mem
  | c :: cs => store (Function.update mem addr c) (addr + 1) cs

/-- The buffer takes the characters that fit. -/
theorem printAll_vsnprintk (mem : Word → Byte) (buffer len ptr done : Word) (text : List Byte) :
    ∃ stop, printAll vsnprintkHandler ⟨⟨mem, buffer, len, ptr⟩, done, false⟩ text =
      ⟨⟨store mem (buffer + ptr) (text.take (len.toNat - ptr.toNat)), buffer, len,
          ptr + BitVec.ofNat 64 (min (len.toNat - ptr.toNat) text.length)⟩,
        done + BitVec.ofNat 64 (min (len.toNat - ptr.toNat) text.length), stop⟩ := by
  induction text generalizing mem ptr done with
  | nil => exact ⟨false, by simp [printAll, store]⟩
  | cons c text ih =>
    by_cases hfull : len ≤ ptr
    · have hroom : len.toNat - ptr.toNat = 0 := Nat.sub_eq_zero_of_le (BitVec.le_def.mp hfull)
      have hone : (printOne vsnprintkHandler ⟨⟨mem, buffer, len, ptr⟩, done, false⟩ c).1 =
          ⟨⟨mem, buffer, len, ptr⟩, done, true⟩ := by
        simp [printOne, vsnprintkHandler, hfull]
      refine ⟨true, ?_⟩
      rw [printAll_cons, hone, printAll_of_stop rfl, hroom]
      simp [store]
    · have hone : (printOne vsnprintkHandler ⟨⟨mem, buffer, len, ptr⟩, done, false⟩ c).1 =
          ⟨⟨Function.update mem (buffer + ptr) c, buffer, len, ptr + 1⟩, done + 1, false⟩ := by
        simp [printOne, vsnprintkHandler, hfull]
      have hlt : ptr.toNat < len.toNat := Nat.not_le.mp fun hle => hfull (BitVec.le_def.mpr hle)
      have hroom : len.toNat - ptr.toNat = len.toNat - (ptr + 1).toNat + 1 := by
        rw [BitVec.toNat_add, show (1 : Word).toNat = 1 from rfl]
        omega
      obtain ⟨stop, hrest⟩ := ih (Function.update mem (buffer + ptr) c) (ptr + 1) (done + 1)
      refine ⟨stop, ?_⟩
      rw [printAll_cons, hone, hrest, hroom, List.length_cons, Nat.add_min_add_right,
        add_ofNat_succ, add_ofNat_succ, List.take_succ_cons, store, BitVec.add_assoc buffer]

/-- Characters stored in the memory: one at each address from `addr` on. -/
theorem store_spec (mem : Word → Byte) (addr : Word) {cs : List Byte} (hcs : cs.length ≤ 2 ^ 64) :
    (∀ i < cs.length, some (store mem addr cs (addr + BitVec.ofNat 64 i)) = cs[i]?) ∧
      ∀ a, (∀ i < cs.length, a ≠ addr + BitVec.ofNat 64 i) → store mem addr cs a = mem a := by
  induction cs generalizing mem addr with
  | nil => exact ⟨fun i hi => absurd hi (Nat.not_lt_zero i), fun a _ => rfl⟩
  | cons c cs ih =>
    rw [List.length_cons] at hcs
    obtain ⟨hstored, hframe⟩ := ih (Function.update mem addr c) (addr + 1) (by omega)
    refine ⟨fun i hi => ?_, fun a ha => ?_⟩
    · cases i with
      | zero =>
        refine congrArg some ((hframe _ fun i hi heq => ?_).trans ?_)
        · have hsucc : BitVec.ofNat 64 0 = BitVec.ofNat 64 (i + 1) := by
            rw [← add_ofNat_succ] at heq
            exact (BitVec.add_right_inj addr).mp heq
          have hlt := congrArg BitVec.toNat hsucc
          rw [BitVec.toNat_ofNat, BitVec.toNat_ofNat] at hlt
          omega
        · simp
      | succ i =>
        rw [add_ofNat_succ]
        exact hstored i (Nat.lt_of_succ_lt_succ hi)
    · rw [store, hframe a fun i hi => ?_]
      · exact Function.update_of_ne (fun heq => ha 0 (Nat.succ_pos _) (by rw [heq]; simp)) _ _
      · rw [← add_ofNat_succ]
        exact ha (i + 1) (Nat.succ_lt_succ hi)

end Handlers

/-- `vsnprintk` stores the first characters of what `vprintk` gives to the console, as many
as fit, returns their number, and writes nothing else. -/
theorem vsnprintk_prefix (format : CString) (args : Args) (hcomplete : Complete format.bytes) :
    ∃ text : List Byte,
      (∀ (κ : Type) (putc : κ → Byte → κ) (console : κ),
        vprintk putc console format args =
          .ok (text.foldl putc console, BitVec.ofNat 64 text.length)) ∧
      ∀ (mem : Word → Byte) (buffer size : Word), ∃ mem',
        vsnprintk mem buffer size format args =
            .ok (mem', BitVec.ofNat 64 (min size.toNat text.length)) ∧
          (∀ i < min size.toNat text.length,
            some (mem' (buffer + BitVec.ofNat 64 i)) = text[i]?) ∧
          ∀ a, (∀ i < min size.toNat text.length, a ≠ buffer + BitVec.ofNat 64 i) →
            mem' a = mem a := by
  obtain ⟨text, htext⟩ := vhprintkLoop_eq_emit args 0 false
    (show format.bytes.length < format.bytes.length + 2 by omega) hcomplete
  refine ⟨text, fun κ putc console => ?_, fun mem buffer size => ?_⟩
  · rw [vprintk, vhprintk, htext, printAll_vprintk]
    simp [bind, Except.bind, pure, Except.pure]
  · obtain ⟨stop, hprint⟩ := printAll_vsnprintk mem buffer size 0 0 text
    have hlen : (text.take size.toNat).length = min size.toNat text.length := List.length_take
    obtain ⟨hstored, hframe⟩ := store_spec mem buffer
      (show (text.take size.toNat).length ≤ 2 ^ 64 by rw [hlen]; omega)
    rw [hlen] at hstored hframe
    refine ⟨store mem buffer (text.take size.toNat), ?_, fun i hi => ?_, hframe⟩
    · rw [vsnprintk, vhprintk, htext, hprint]
      simp [bind, Except.bind, pure, Except.pure]
    · rw [hstored i hi, List.getElem?_take, if_pos (lt_min_iff.mp hi).1]

/-- The format `"%5d%%"`. -/
theorem vsnprintk_prefix_width :
    let format : CString := ⟨[chr '%', chr '5', chr 'd', chr '%', chr '%'], by decide, by decide⟩
    let args : Args := ⟨fun _ => 42, fun _ => format⟩
    ∃ text : List Byte,
      (∀ (κ : Type) (putc : κ → Byte → κ) (console : κ),
        vprintk putc console format args =
          .ok (text.foldl putc console, BitVec.ofNat 64 text.length)) ∧
      ∀ (mem : Word → Byte) (buffer size : Word), ∃ mem',
        vsnprintk mem buffer size format args =
            .ok (mem', BitVec.ofNat 64 (min size.toNat text.length)) ∧
          (∀ i < min size.toNat text.length,
            some (mem' (buffer + BitVec.ofNat 64 i)) = text[i]?) ∧
          ∀ a, (∀ i < min size.toNat text.length, a ≠ buffer + BitVec.ofNat 64 i) →
            mem' a = mem a :=
  vsnprintk_prefix _ _ (by decide)

end KernelMemVirt.Rackdoll.Printk
