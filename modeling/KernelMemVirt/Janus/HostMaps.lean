import KernelMemVirt.Janus.State
import KernelMemVirt.Rackdoll.NumberText
import Mathlib.Data.List.TakeWhile

/-!
# The lines of `/proc/self/maps`

`parse_host_mapping` of `monitor/memory.c` reads a line with a cursor: it skips to separators, and
`strtol` reads the two addresses.  A line is the list of its characters before the NUL that `fgets`
puts behind them.  The addresses are unsigned and `strtol` is not, so those from `2 ^ 63` on are cut
to `LONG_MAX`.

* `HostLine` is a line as the host kernel prints it, for a mapping.
* `strtol_of_numeral` is what `strtol` makes of an address.
* `parseHostMapping_line` is what the parser makes of a line.
* `readsMapping_iff` says for which mappings that is right.
-/

namespace KernelMemVirt.Janus

open Rackdoll.Printk

/-! ## The source -/

abbrev MAPS_LINE_SIZE : Nat := 1024

abbrev PROT_READ : BitVec 8 := 1

abbrev PROT_WRITE : BitVec 8 := 2

abbrev PROT_EXEC : BitVec 8 := 4

/-- `struct maps`. -/
structure Maps where
  start : Word
  stop : Word
  prot : BitVec 8
  deriving DecidableEq

/-- `struct mapping`. -/
structure Mapping where
  maps : Maps
  file : List Byte
  deriving DecidableEq

/-- `isspace`. -/
def isSpace (c : Byte) : Bool := c = chr ' ' ∨ 9 ≤ c ∧ c ≤ 13

/-- The digits that `strtol` reads in base 16, behind a number that it has read, and what it leaves
of the text. -/
def strtolDigits (value : Nat) : List Byte → Nat × List Byte
  | [] => (value, [])
  | c :: cs =>
    match digitValue c with
    | some digit => strtolDigits (value * 16 + digit) cs
    | none => (value, c :: cs)

/-- The sign that `strtol` accepts. -/
def strtolSign : List Byte → Bool × List Byte
  | [] => (false, [])
  | c :: cs =>
    if c = chr '-' then (true, cs)
    else if c = chr '+' then (false, cs)
    else (false, c :: cs)

/-- The prefix that `strtol` accepts in base 16, before a digit. -/
def strtolPrefix : List Byte → List Byte
  | c :: x :: d :: cs =>
    if c = chr '0' ∧ (x = chr 'x' ∨ x = chr 'X') ∧ (digitValue d).isSome then d :: cs
    else c :: x :: d :: cs
  | cs => cs

abbrev LONG_MAX : Nat := 2 ^ 63 - 1

/-- `strtol(st, &err, 16)`: the number, a signed one, and the text at `err`. -/
def strtol (st : List Byte) : Word × List Byte :=
  let (negative, text) := strtolSign (st.dropWhile isSpace)
  let text := strtolPrefix text
  let (value, err) := strtolDigits 0 text
  if err.length = text.length then (0, st)
  else if negative then (-BitVec.ofNat 64 (min value (LONG_MAX + 1)), err)
  else (BitVec.ofNat 64 (min value LONG_MAX), err)

/-- `while (*ptr != sep) ptr++;`, where `none` is a cursor behind the NUL. -/
def skipTo (sep : Byte) : List Byte → Option (List Byte)
  | [] => none
  | c :: cs => if c = sep then some (c :: cs) else skipTo sep cs

/-- `*ptr++`. -/
def takeChar : List Byte → Option (Byte × List Byte)
  | [] => none
  | c :: cs => some (c, cs)

/-- The number before `sep`, and the text behind `sep`; `none` is an `abort` as well. -/
def parseAddress (sep : Byte) (st : List Byte) : Option (Word × List Byte) := do
  let ptr ← skipTo sep st
  let (value, err) := strtol st
  if err.head? = some sep then do
    let (_, ptr) ← takeChar ptr
    return (value, ptr)
  else none

/-- A field and the space behind it. -/
def skipField (ptr : List Byte) : Option (List Byte) := do
  let ptr ← skipTo (chr ' ') ptr
  let (_, ptr) ← takeChar ptr
  return ptr

/-- `strncpy`. -/
def strncpy (n : Nat) (src : List Byte) : List Byte :=
  let text := src.takeWhile (· ≠ 0)
  text.take n ++ List.replicate (n - text.length) 0

/-- The loop that ends the path at its newline. -/
def cutNewline : List Byte → List Byte
  | [] => []
  | c :: cs =>
    if c = 0 then c :: cs
    else if c = chr '\n' then 0 :: cs
    else c :: cutNewline cs

/-- `parse_host_mapping`, where `none` is a cursor that leaves the line, or an `abort`. -/
def parseHostMapping (buffer : List Byte) : Option Mapping := do
  let (start, st) ← parseAddress (chr '-') buffer
  let (stop, ptr) ← parseAddress (chr ' ') st
  let (r, ptr) ← takeChar ptr
  let (w, ptr) ← takeChar ptr
  let (x, ptr) ← takeChar ptr
  let prot := (if r = chr 'r' then PROT_READ else 0) ||| (if w = chr 'w' then PROT_WRITE else 0)
    ||| (if x = chr 'x' then PROT_EXEC else 0)
  let (_, ptr) ← takeChar ptr
  let (_, ptr) ← takeChar ptr
  let ptr ← skipField ptr
  let ptr ← skipField ptr
  let ptr ← skipTo (chr ' ') ptr
  let file := strncpy 256 (ptr.dropWhile (· = chr ' '))
  return ⟨⟨start, stop, prot⟩, cutNewline (file.set 255 0)⟩

/-- `fgets(buffer, n + 1, stream)`: the characters that are stored, and the rest of the stream. -/
def fgets : Nat → List Byte → List Byte × List Byte
  | 0, cs => ([], cs)
  | _, [] => ([], [])
  | n + 1, c :: cs =>
    if c = chr '\n' then ([c], cs)
    else
      let (buffer, rest) := fgets n cs
      (c :: buffer, rest)

/-- The string in an array of characters. -/
def cString (file : List Byte) : List Byte := file.takeWhile (· ≠ 0)

/-! ## Lines -/

/-- A numeral of base 16, with any number of leading zeros. -/
structure IsHex (value : Nat) (text : List Byte) : Prop where
  nonempty : text ≠ []
  reads : readDigits 16 0 text = some value

/-- A line of the host kernel with its mapping.  The offset, the device and the inode are of no
interest. -/
structure HostLine where
  start : Word
  stop : Word
  start_lt_stop : start.toNat < stop.toNat
  startText : List Byte
  stopText : List Byte
  start_hex : IsHex start.toNat startText
  stop_hex : IsHex stop.toNat stopText
  read : Bool
  write : Bool
  exec : Bool
  shared : Bool
  offset : List Byte
  device : List Byte
  inode : List Byte
  fields_text : ∀ text ∈ [offset, device, inode], chr ' ' ∉ text ∧ chr '\n' ∉ text
  padding : Nat
  path : List Byte
  path_text : ∀ c ∈ path, c ≠ 0 ∧ c ≠ chr '\n'
  path_head : path.head? ≠ some (chr ' ')

namespace HostLine

variable (l : HostLine)

/-- The four characters of the permissions. -/
def permissions : List Byte :=
  [if l.read then chr 'r' else chr '-', if l.write then chr 'w' else chr '-',
    if l.exec then chr 'x' else chr '-', if l.shared then chr 's' else chr 'p']

/-- The characters of the line, without the newline. -/
def text : List Byte :=
  l.startText ++ chr '-' :: (l.stopText ++ chr ' ' :: (l.permissions ++ chr ' ' ::
    (l.offset ++ chr ' ' :: (l.device ++ chr ' ' :: (l.inode ++ chr ' ' ::
      (List.replicate l.padding (chr ' ') ++ l.path))))))

def prot : BitVec 8 :=
  (if l.read then PROT_READ else 0) ||| (if l.write then PROT_WRITE else 0)
    ||| (if l.exec then PROT_EXEC else 0)

end HostLine

/-! ## Numbers -/

/-- A digit is none of the other characters that `strtol` looks for. -/
theorem digit_ne : ∀ c : Byte, (digitValue c).isSome = true →
    isSpace c = false ∧ c ≠ chr '-' ∧ c ≠ chr '+' ∧ c ≠ chr 'x' ∧ c ≠ chr 'X' := by
  decide

theorem digit_lt : ∀ c : Byte, ∀ digit ∈ digitValue c, digit < 16 := by
  decide

/-- The loop of `strtol` reads a numeral as `readDigits` does. -/
theorem strtolDigits_append {rest : List Byte}
    (hrest : ∀ c ∈ rest.head?, digitValue c = none) :
    ∀ {cs : List Byte} {value n : Nat}, readDigits 16 value cs = some n →
      strtolDigits value (cs ++ rest) = (n, rest) := by
  intro cs
  induction cs with
  | nil =>
    intro value n h
    cases h
    cases rest with
    | nil => rfl
    | cons c rest => simp [strtolDigits, hrest c rfl]
  | cons c cs ih =>
    intro value n h
    simp only [readDigits] at h
    split at h
    · next digit hdigit =>
      rw [if_pos (digit_lt c digit hdigit)] at h
      simp only [List.cons_append, strtolDigits, hdigit]
      exact ih h
    · cases h

theorem digits_of_readDigits {cs : List Byte} :
    ∀ {value n : Nat}, readDigits 16 value cs = some n → ∀ c ∈ cs, (digitValue c).isSome := by
  induction cs with
  | nil =>
    intro value n _ c hc
    cases hc
  | cons c cs ih =>
    intro value n h
    simp only [readDigits] at h
    split at h
    · next digit hdigit =>
      rw [if_pos (digit_lt c digit hdigit)] at h
      intro c' hc'
      rcases List.mem_cons.mp hc' with rfl | hc'
      · rw [hdigit]
        rfl
      · exact ih h c' hc'
    · cases h

/-- The characters that end an address. -/
def IsSeparator (sep : Byte) : Prop :=
  digitValue sep = none ∧ sep ≠ chr 'x' ∧ sep ≠ chr 'X'

theorem strtolPrefix_eq_self {c x : Byte} (hx : x ≠ chr 'x') (hX : x ≠ chr 'X')
    (cs : List Byte) : strtolPrefix (c :: x :: cs) = c :: x :: cs := by
  cases cs with
  | nil => rfl
  | cons d cs => simp [strtolPrefix, hx, hX]

theorem strtol_of_numeral {value : Nat} {cs : List Byte} (h : IsHex value cs) {sep : Byte}
    (hsep : IsSeparator sep) (rest : List Byte) :
    strtol (cs ++ sep :: rest) = (BitVec.ofNat 64 (min value LONG_MAX), sep :: rest) := by
  have hdigits := digits_of_readDigits h.reads
  have hloop : strtolDigits 0 (cs ++ sep :: rest) = (value, sep :: rest) :=
    strtolDigits_append (by simpa using hsep.1) h.reads
  have hlength : (sep :: rest).length ≠ (cs ++ sep :: rest).length := by
    have hpos := List.length_pos_iff.mpr h.nonempty
    rw [List.length_append]
    omega
  cases cs with
  | nil => exact absurd rfl h.nonempty
  | cons c cs =>
    obtain ⟨hspace, hminus, hplus, -, -⟩ := digit_ne c (hdigits c List.mem_cons_self)
    have hprefix : strtolPrefix (c :: (cs ++ sep :: rest)) = c :: (cs ++ sep :: rest) := by
      cases cs with
      | nil => exact strtolPrefix_eq_self hsep.2.1 hsep.2.2 rest
      | cons x cs =>
        have hx := digit_ne x (hdigits x (by simp))
        exact strtolPrefix_eq_self hx.2.2.2.1 hx.2.2.2.2 _
    rw [List.cons_append] at hloop hlength ⊢
    simp only [strtol, List.dropWhile_cons, hspace, strtolSign, hminus, hplus, hprefix, hloop,
      if_neg hlength, if_false, Bool.false_eq_true]

/-! ## The cursor -/

theorem skipTo_append {sep : Byte} {cs : List Byte} (hcs : sep ∉ cs) (rest : List Byte) :
    skipTo sep (cs ++ sep :: rest) = some (sep :: rest) := by
  induction cs with
  | nil => simp [skipTo]
  | cons c cs ih =>
    rw [List.mem_cons, not_or] at hcs
    rw [List.cons_append, skipTo, if_neg (Ne.symm hcs.1)]
    exact ih hcs.2

theorem skipField_append {cs : List Byte} (hcs : chr ' ' ∉ cs) (rest : List Byte) :
    skipField (cs ++ chr ' ' :: rest) = some rest := by
  simp [skipField, skipTo_append hcs, takeChar]

theorem parseAddress_of_numeral {value : Nat} {cs : List Byte} (h : IsHex value cs) {sep : Byte}
    (hsep : IsSeparator sep) (rest : List Byte) :
    parseAddress sep (cs ++ sep :: rest) =
      some (BitVec.ofNat 64 (min value LONG_MAX), rest) := by
  have hnot : sep ∉ cs := by
    intro hmem
    have hdigit := digits_of_readDigits h.reads sep hmem
    rw [hsep.1] at hdigit
    cases hdigit
  simp [parseAddress, skipTo_append hnot, strtol_of_numeral h hsep, takeChar]

/-! ## The path -/

/-- The string that is left when the newline is cut. -/
theorem cString_cutNewline (file : List Byte) :
    cString (cutNewline file) = (cString file).takeWhile (· ≠ chr '\n') := by
  induction file with
  | nil => rfl
  | cons c cs ih =>
    unfold cString at ih ⊢
    by_cases h0 : c = 0
    · simp [cutNewline, h0]
    · by_cases hn : c = chr '\n'
      · subst hn
        rfl
      · have hkeep : ∀ cs : List Byte, (c :: cs).takeWhile (· ≠ 0) = c :: cs.takeWhile (· ≠ 0) :=
          fun cs => List.takeWhile_cons_of_pos (decide_eq_true h0)
        rw [cutNewline, if_neg h0, if_neg hn, hkeep, hkeep, ih]
        refine Eq.symm ?_
        exact List.takeWhile_cons_of_pos (decide_eq_true hn)

/-- The last place of the array is for the NUL. -/
theorem cString_strncpy {src : List Byte} (hsrc : ∀ c ∈ src, c ≠ 0) (n : Nat) :
    cString ((strncpy (n + 1) src).set n 0) = src.take n := by
  have htext : src.takeWhile (· ≠ 0) = src := by
    rw [List.takeWhile_eq_self_iff]
    simpa using hsrc
  have hlen : (strncpy (n + 1) src).length = n + 1 := by
    simp only [strncpy, htext, List.length_append, List.length_take, List.length_replicate]
    omega
  rw [List.set_eq_take_append_cons_drop, if_pos (by omega), cString]
  have hfront : (strncpy (n + 1) src).take n = src.take n ++ List.replicate (n - src.length) 0 := by
    simp only [strncpy, htext, List.take_append, List.take_take, List.length_take,
      List.take_replicate]
    congr 1
    · congr 1
      omega
    · congr 1
      omega
  have htake : ∀ c ∈ src.take n, decide (c ≠ 0) = true := by
    intro c hc
    exact decide_eq_true (hsrc c (List.mem_of_mem_take hc))
  rw [hfront, List.append_assoc, List.takeWhile_append_of_pos htake]
  cases n - src.length with
  | zero => simp
  | succ k => simp [List.replicate_succ]

/-- The path of a line, with the newline or without it. -/
theorem file_of_path {path : List Byte} (hpath : ∀ c ∈ path, c ≠ 0 ∧ c ≠ chr '\n')
    {eol : List Byte} (heol : eol = [] ∨ eol = [chr '\n']) :
    cString (cutNewline ((strncpy 256 (path ++ eol)).set 255 0)) = path.take 255 := by
  have hsrc : ∀ c ∈ path ++ eol, c ≠ 0 := by
    intro c hc
    rcases List.mem_append.mp hc with hc | hc
    · exact (hpath c hc).1
    · rcases heol with rfl | rfl
      · cases hc
      · rw [List.mem_singleton.mp hc]
        decide
  have hnewline : ∀ c ∈ path.take 255, decide (c ≠ chr '\n') = true := by
    intro c hc
    exact decide_eq_true (hpath c (List.mem_of_mem_take hc)).2
  rw [cString_cutNewline, cString_strncpy hsrc 255, List.take_append,
    List.takeWhile_append_of_pos hnewline]
  rcases heol with rfl | rfl
  · simp
  · cases 255 - path.length with
    | zero => simp
    | succ k => simp

theorem dropWhile_padding {path : List Byte} (hhead : path.head? ≠ some (chr ' '))
    {eol : List Byte} (heol : eol = [] ∨ eol = [chr '\n']) (padding : Nat) :
    (List.replicate padding (chr ' ') ++ (path ++ eol)).dropWhile (· = chr ' ') = path ++ eol := by
  rw [List.dropWhile_append_of_pos (by simp)]
  cases path with
  | nil => rcases heol with rfl | rfl <;> rfl
  | cons c cs =>
    have hc : c ≠ chr ' ' := by simpa using hhead
    simp [hc]

/-! ## The line -/

theorem ite_chr_eq_ite (b : Bool) (c : Byte) (hc : c ≠ chr '-') (p : BitVec 8) :
    (if (if b = true then c else chr '-') = c then p else 0) = if b = true then p else 0 := by
  cases b with
  | true => simp
  | false => simp [Ne.symm hc]

/-- The addresses go through `strtol`; the rest is exact. -/
theorem parseHostMapping_line (l : HostLine) {eol : List Byte}
    (heol : eol = [] ∨ eol = [chr '\n']) :
    ∃ file, parseHostMapping (l.text ++ eol) =
        some ⟨⟨BitVec.ofNat 64 (min l.start.toNat LONG_MAX),
          BitVec.ofNat 64 (min l.stop.toNat LONG_MAX), l.prot⟩, file⟩ ∧
      cString file = l.path.take 255 := by
  have hdash : IsSeparator (chr '-') := by
    refine ⟨by decide, by decide, by decide⟩
  have hspace : IsSeparator (chr ' ') := by
    refine ⟨by decide, by decide, by decide⟩
  have hoffset := (l.fields_text l.offset (by simp)).1
  have hdevice := (l.fields_text l.device (by simp)).1
  have hinode := (l.fields_text l.inode (by simp)).1
  refine ⟨_, ?_, file_of_path l.path_text heol⟩
  have hpad : (chr ' ' :: (List.replicate l.padding (chr ' ') ++ (l.path ++ eol))).dropWhile
      (· = chr ' ') = l.path ++ eol := by
    have hdrop := dropWhile_padding l.path_head heol (l.padding + 1)
    rwa [List.replicate_succ] at hdrop
  simp only [parseHostMapping, HostLine.text, HostLine.permissions, List.append_assoc,
    List.cons_append, List.nil_append, parseAddress_of_numeral l.start_hex hdash,
    parseAddress_of_numeral l.stop_hex hspace, Option.bind_eq_bind, Option.bind_some, takeChar,
    skipField_append hoffset, skipField_append hdevice, skipTo_append hinode, hpad,
    ite_chr_eq_ite l.read (chr 'r') (by decide), ite_chr_eq_ite l.write (chr 'w') (by decide),
    ite_chr_eq_ite l.exec (chr 'x') (by decide)]
  rfl

/-! ## The mapping -/

/-- A line that fits in the buffer is stored with its newline, if there is room for that. -/
theorem fgets_append : ∀ (n : Nat) (text rest : List Byte), chr '\n' ∉ text → text.length ≤ n →
    ∃ eol, (eol = [] ∨ eol = [chr '\n']) ∧
      (fgets n (text ++ chr '\n' :: rest)).1 = text ++ eol := by
  intro n
  induction n with
  | zero =>
    intro text rest _ hlen
    have hnil : text = [] := List.length_eq_zero_iff.mp (Nat.le_zero.mp hlen)
    exact ⟨[], .inl rfl, by simp [hnil, fgets]⟩
  | succ n ih =>
    intro text rest hnl hlen
    cases text with
    | nil => exact ⟨[chr '\n'], .inr rfl, by simp [fgets]⟩
    | cons c cs =>
      rw [List.mem_cons, not_or] at hnl
      rw [List.length_cons] at hlen
      obtain ⟨eol, heol, hcs⟩ := ih cs rest hnl.2 (by omega)
      refine ⟨eol, heol, ?_⟩
      rw [List.cons_append, fgets, if_neg (Ne.symm hnl.1)]
      exact congrArg (c :: ·) hcs

theorem newline_notMem_numeral {value : Nat} {cs : List Byte} (h : IsHex value cs) :
    chr '\n' ∉ cs := by
  intro hmem
  have hdigit := digits_of_readDigits h.reads _ hmem
  revert hdigit
  decide

theorem newline_notMem_text (l : HostLine) : chr '\n' ∉ l.text := by
  have hstart := newline_notMem_numeral l.start_hex
  have hstop := newline_notMem_numeral l.stop_hex
  have hoffset := (l.fields_text l.offset (by simp)).2
  have hdevice := (l.fields_text l.device (by simp)).2
  have hinode := (l.fields_text l.inode (by simp)).2
  have hpath : chr '\n' ∉ l.path := fun hmem => (l.path_text _ hmem).2 rfl
  have hpermissions : chr '\n' ∉ l.permissions := by
    unfold HostLine.permissions
    cases l.read <;> cases l.write <;> cases l.exec <;> cases l.shared <;> decide
  have hdash : chr '\n' ≠ chr '-' := by decide
  have hspace : chr '\n' ≠ chr ' ' := by decide
  simp only [HostLine.text, List.mem_append, List.mem_cons, List.mem_replicate, hstart, hstop,
    hoffset, hdevice, hinode, hpath, hpermissions, hdash, hspace, and_false, or_self,
    not_false_eq_true]

/-- `fgets` and `parse_host_mapping` read the line and give its mapping. -/
def ReadsMapping (l : HostLine) (rest : List Byte) : Prop :=
  ∃ file, parseHostMapping (fgets (MAPS_LINE_SIZE - 1) (l.text ++ chr '\n' :: rest)).1 =
      some ⟨⟨l.start, l.stop, l.prot⟩, file⟩ ∧
    cString file = l.path.take 255

/-- An address is kept exactly if it is not negative for `strtol`. -/
theorem ofNat_min_eq_iff (a : Word) :
    BitVec.ofNat 64 (min a.toNat LONG_MAX) = a ↔ a.toNat < 2 ^ 63 := by
  have ha := a.isLt
  rw [← BitVec.toNat_inj, BitVec.toNat_ofNat, Nat.mod_eq_of_lt (by omega), LONG_MAX]
  omega

section Reads

variable {l : HostLine} {rest : List Byte}

theorem stop_lt_of_readsMapping (hlen : l.text.length ≤ MAPS_LINE_SIZE - 1)
    (h : ReadsMapping l rest) : l.stop.toNat < 2 ^ 63 := by
  obtain ⟨eol, heol, hbuffer⟩ := fgets_append _ l.text rest (newline_notMem_text l) hlen
  obtain ⟨file, hparse, -⟩ := parseHostMapping_line l heol
  obtain ⟨file', hread, -⟩ := h
  rw [hbuffer, hparse] at hread
  injection hread with hmapping
  injection hmapping with hmaps
  injection hmaps with _ hstop
  exact (ofNat_min_eq_iff l.stop).mp hstop

theorem readsMapping_of_stop_lt (hlen : l.text.length ≤ MAPS_LINE_SIZE - 1)
    (h : l.stop.toNat < 2 ^ 63) : ReadsMapping l rest := by
  obtain ⟨eol, heol, hbuffer⟩ := fgets_append _ l.text rest (newline_notMem_text l) hlen
  obtain ⟨file, hparse, hfile⟩ := parseHostMapping_line l heol
  have hstart := l.start_lt_stop
  refine ⟨file, ?_, hfile⟩
  rw [hbuffer, hparse, (ofNat_min_eq_iff l.start).mpr (by omega),
    (ofNat_min_eq_iff l.stop).mpr h]

end Reads

/-- A line of at most 1023 characters is read right exactly if its mapping ends below `2 ^ 63`. -/
theorem readsMapping_iff (l : HostLine) (rest : List Byte)
    (hlen : l.text.length ≤ MAPS_LINE_SIZE - 1) :
    ReadsMapping l rest ↔ l.stop.toNat < 2 ^ 63 :=
  ⟨stop_lt_of_readsMapping hlen, readsMapping_of_stop_lt hlen⟩

/-- `00400000-00452000 r-xp 00000000 08:02 1 /a`. -/
def programLine : HostLine where
  start := 0x400000
  stop := 0x452000
  start_lt_stop := by decide
  startText := ['0', '0', '4', '0', '0', '0', '0', '0'].map chr
  stopText := ['0', '0', '4', '5', '2', '0', '0', '0'].map chr
  start_hex := ⟨by decide, by decide⟩
  stop_hex := ⟨by decide, by decide⟩
  read := true
  write := false
  exec := true
  shared := false
  offset := ['0', '0', '0', '0', '0', '0', '0', '0'].map chr
  device := ['0', '8', ':', '0', '2'].map chr
  inode := ['1'].map chr
  fields_text := by decide
  padding := 0
  path := ['/', 'a'].map chr
  path_text := by decide
  path_head := by decide

theorem readsMapping_iff_programLine :
    ReadsMapping programLine [] ↔ programLine.stop.toNat < 2 ^ 63 :=
  readsMapping_iff programLine [] (by decide)

/-- The last line of every process: `ffffffffff600000-ffffffffff601000 --xp 00000000 00:00 0`. -/
def vsyscallLine : HostLine :=
  { programLine with
    start := 0xffffffffff600000
    stop := 0xffffffffff601000
    start_lt_stop := by decide
    startText := List.replicate 10 (chr 'f') ++ ['6', '0', '0', '0', '0', '0'].map chr
    stopText := List.replicate 10 (chr 'f') ++ ['6', '0', '1', '0', '0', '0'].map chr
    start_hex := ⟨by decide, by decide⟩
    stop_hex := ⟨by decide, by decide⟩
    read := false }

theorem readsMapping_not_of_vsyscall :
    ¬ ∀ (l : HostLine) (rest : List Byte), l.text.length ≤ MAPS_LINE_SIZE - 1 →
      ReadsMapping l rest := by
  intro h
  have hlen : vsyscallLine.text.length ≤ MAPS_LINE_SIZE - 1 := by decide
  have hstop := stop_lt_of_readsMapping hlen (h vsyscallLine [] hlen)
  exact absurd hstop (by decide)

end KernelMemVirt.Janus
