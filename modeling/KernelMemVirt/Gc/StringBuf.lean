import KernelMemVirt.Gc.Mutator
import Mathlib.Algebra.Group.Int.Defs

/-!
# The string buffer of the test program

`string_buf_append` of `main.c` prints a number and a space at the end of a buffer.  A buffer with
fewer than 64 free bytes is replaced once, by one of 64 bytes or of twice the length.

The buffer is an object of `gcmalloc`, and the program one of the module `Mutator`.  What `memcpy`
and `sprintf` write at a pointer has to be inside the object that starts there, or it is the
`fault` of the program.

The `string_buf` itself is anywhere: `addr` is the address of its field `buf`, for the write
barrier.  The barrier ends the program if it finds no object at `addr`; `Resolves` says when it
finds one.

* `Ready` is the state before `sprintf`; `wp_grow` says that the growth leads to it.
* `Grown` is the state between two appends; `wp_print` says that `sprintf` leads to it.
* `holds_of_run` is a sequence of appends.
-/

namespace KernelMemVirt.Gc

open ByteMem StateLogic Transition

/-! ## The source -/

/-- An object of `n` bytes or more starts at the address. -/
def HeapRun.InBlock (r : HeapRun) (p n : Nat) : Prop :=
  ∃ o ∈ r.live, toObject o.header = p ∧ n ≤ o.size

instance (r : HeapRun) (p n : Nat) : Decidable (r.InBlock p n) :=
  inferInstanceAs (Decidable (∃ o ∈ r.live, _ ∧ _))

/-- The decimal form of a number. -/
def decimal : Int → List Char
  | .ofNat n => Nat.toDigits 10 n
  | .negSucc n => '-' :: Nat.toDigits 10 (n + 1)

/-- What `sprintf` prints for `"%d "`, without the final NUL. -/
def decimalText (val : Int32) : List (BitVec 8) :=
  (decimal val.toInt ++ [' ']).map fun c => BitVec.ofNat 8 c.toNat

namespace Mutator

/-- `memcpy` between two objects. -/
def memcpy (dst src n : Nat) : Mutator Unit := do
  let r ← get
  if r.InBlock dst n ∧ r.InBlock src n then set (r.setMem (copy r.heap.mem dst src n))
  else throw .fault

/-- `sprintf(buf + cursor, "%d ", val)`, in the object `buf`. -/
def sprintf (buf : Nat) (cursor val : Int32) : Mutator Int32 := do
  let r ← get
  let text := decimalText val
  if 0 ≤ cursor.toInt ∧ r.InBlock buf (cursor.toNat + (text.length + 1)) then
    set (r.setMem (storeList r.heap.mem (buf + cursor.toNat) (text ++ [0])))
    return BitVec.ofNat 32 text.length
  else throw .fault

end Mutator

/-- `struct string_buf`, with the address of its first field. -/
structure StringBuf where
  addr : Nat
  buf : Nat
  cursor : Int32
  top : Int32

namespace StringBuf

/-- A `string_buf` that is zeroed. -/
def init (addr : Nat) : StringBuf := ⟨addr, 0, 0, 0⟩

variable (s : StringBuf)

/-- `doWriteRef(buf->buf, src)`, a macro that evaluates `src` twice. -/
def doWriteRef (src : Mutator Nat) : Mutator StringBuf := do
  Mutator.writeBarrier s.addr (← src)
  let buf ← src
  return { s with buf }

/-- The first part of `string_buf_append`: a longer buffer, where there is little room. -/
def grow (os : Mmap) : Mutator StringBuf := do
  if s.top.slt (s.cursor + 64) then
    if s.top ≠ 0 then
      let tmp ← Mutator.gcmalloc os (s.top <<< 1)
      Mutator.memcpy tmp s.buf (s.cursor.signExtend 64).toNat
      let s ← s.doWriteRef (pure tmp)
      return { s with top := s.top <<< 1 }
    else
      let s ← s.doWriteRef (Mutator.gcmalloc os 64)
      return { s with top := 64 }
  else return s

/-- `buf->cursor += sprintf(buf->buf + buf->cursor, "%d ", val)`. -/
def print (val : Int32) : Mutator StringBuf := do
  let n ← Mutator.sprintf s.buf s.cursor val
  return { s with cursor := s.cursor + n }

/-- `string_buf_append`. -/
def append (os : Mmap) (val : Int32) : Mutator StringBuf := do
  let s ← s.grow os
  s.print val

/-- An append, with the heap; `none` when the process ends. -/
def step (os : Mmap) (s : StringBuf × HeapRun) (val : Int32) : Option (StringBuf × HeapRun) :=
  (s.1.append os val s.2).toOption

/-! ## The property -/

/-- The heaps that a program leads to which takes objects and writes inside of them. -/
inductive Reached (os : Mmap) (mem : Mem) : HeapRun → Prop
  | init : Reached os mem (HeapRun.init mem)
  | gcmalloc {r r' : HeapRun} {size : Int32} {p : Nat} (h : Reached os mem r)
      (hsize : size.toNat + 4100 ≤ 2 ^ 31) (hrun : Mutator.gcmalloc os size r = .ok (p, r')) :
      Reached os mem r'
  | write {r : HeapRun} {o : Obj} {mem' : Mem} (h : Reached os mem r) (ho : o ∈ r.live)
      (hsame : SameOutside r.heap.mem mem' (toObject o.header) o.size) :
      Reached os mem (r.setMem mem')

/-- The field at `addr` is in an object, and `toHeader` finds it and the other objects. -/
structure Resolves (os : Mmap) (addr : Nat) (r : HeapRun) : Prop where
  low : os.Low
  sizes : ∀ o ∈ r.live, 0 < o.size ∧ o.size % 8 = 0
  inObject : r.InObject addr 8

/-- The characters of a string before its NUL. -/
def cString (bytes : List (BitVec 8)) : List (BitVec 8) := bytes.takeWhile (· != 0)

/-- The buffer is an object of `top` bytes with room for the NUL, and holds `text`. -/
structure Holds (r : HeapRun) (text : List (BitVec 8)) : Prop where
  object : r.HasObject s.buf s.top.toNat
  cursor : s.cursor.toInt = text.length
  room : s.cursor.toInt + 1 ≤ s.top.toInt
  terminated : bytesAt r.heap.mem s.buf (text.length + 1) = text ++ [0]
  text : cString (bytesAt r.heap.mem s.buf s.top.toNat) = text

/-- The decimal forms of some numbers, each with a space. -/
def textOf (vals : List Int32) : List (BitVec 8) := vals.flatMap decimalText

/-- The step of a sequence of appends may be taken. -/
def Small (s : StringBuf × HeapRun) (_ : Int32) : Prop := s.1.top.toInt < 2 ^ 30

instance (s : StringBuf × HeapRun) (val : Int32) : Decidable (Small s val) :=
  inferInstanceAs (Decidable (_ < _))

/-- Why an append may stop, `P` being what the barrier needs: `mmap` fails, or the barrier does not
find its two objects. -/
def Stops (P : Prop) (e : Stop) : Prop := e = .heap .mapFailed ∨ e ≠ .fault ∧ ¬ P

end StringBuf

/-! ## The text of a number -/

theorem length_toDigits_le {n : Nat} (hn : n ≤ 2 ^ 31) : (Nat.toDigits 10 n).length ≤ 10 := by
  apply (Nat.length_toDigits_le_iff (by decide) (by decide)).mpr
  omega

/-- A sign and ten digits. -/
theorem decimal_length_le {v : Int} (hlo : -2 ^ 31 ≤ v) (hhi : v < 2 ^ 31) :
    (decimal v).length ≤ 11 := by
  cases v with
  | ofNat n =>
    have := length_toDigits_le (show n ≤ 2 ^ 31 by rw [Int.ofNat_eq_natCast] at hhi; omega)
    simp only [decimal]
    omega
  | negSucc n =>
    have := length_toDigits_le (show n + 1 ≤ 2 ^ 31 by omega)
    simp only [decimal, List.length_cons]
    omega

theorem decimalText_length_le (val : Int32) : (decimalText val).length ≤ 12 := by
  have hlen := decimal_length_le val.le_toInt val.toInt_lt
  simp [decimalText]
  omega

theorem byte_toDigits_ne_zero {n : Nat} {x : Char} (hx : x ∈ Nat.toDigits 10 n) :
    BitVec.ofNat 8 x.toNat ≠ 0 := by
  have hdigit := Nat.isDigit_of_mem_toDigits (by decide) (by decide) hx
  simp only [Char.isDigit, Bool.and_eq_true, decide_eq_true_eq] at hdigit
  have hlo : 48 ≤ x.toNat := hdigit.1
  have hhi : x.toNat ≤ 57 := hdigit.2
  intro h0
  have := congrArg BitVec.toNat h0
  simp at this
  omega

/-- A number is printed without a NUL. -/
theorem ne_zero_of_mem_decimalText {val : Int32} {c : BitVec 8} (hc : c ∈ decimalText val) :
    c ≠ 0 := by
  obtain ⟨x, hx, rfl⟩ := List.mem_map.mp hc
  rcases List.mem_append.mp hx with hx | hx
  · unfold decimal at hx
    split at hx
    · exact byte_toDigits_ne_zero hx
    · rcases List.mem_cons.mp hx with rfl | hx
      · decide
      · exact byte_toDigits_ne_zero hx
  · cases List.mem_singleton.mp hx
    decide

/-! ## The heap of the appends -/

theorem HeapRun.HasObject.inBlock {r : HeapRun} {p n k : Nat} (h : r.HasObject p n) (hle : k ≤ n) :
    r.InBlock p k := by
  rcases h with ⟨header, rfl, hlive⟩
  exact ⟨_, hlive, rfl, hle⟩

namespace Mutator

variable {allowed : Stop → Prop} {r : HeapRun} {a src : Nat}

theorem wp_memcpy {dst n : Nat} (hdst : r.InBlock dst n) (hsrc : r.InBlock src n)
    {Q : Unit → HeapRun → Prop} :
    wp allowed (memcpy dst src n) Q r ↔ Q () (r.setMem (copy r.heap.mem dst src n)) := by
  simp [memcpy, wp_ite, hdst, hsrc]

/-- The barrier goes on, or ends the program for its own reasons. -/
theorem wp_writeBarrier_of_ne_fault (hallowed : ∀ e, e ≠ .fault → allowed e)
    {Q : Unit → HeapRun → Prop} (hQ : Q () r) : wp allowed (writeBarrier a src) Q r := by
  have hheader : ∀ p {R : Nat → HeapRun → Prop}, (∀ header, R header r) →
      wp allowed (toHeader p) R r := by
    intro p R hR
    rw [toHeader, wp_bind, wp_get]
    split
    · exact wp_pure.mpr (hR _)
    · exact wp_throw.mpr (hallowed _ (by simp))
  rw [writeBarrier, wp_bind]
  refine hheader a fun headerDst => ?_
  rw [wp_bind]
  refine hheader src fun headerSrc => ?_
  rw [wp_ite]
  split
  · exact wp_pure.mpr hQ
  · exact wp_throw.mpr (hallowed _ (by simp))

end Mutator

namespace StringBuf

/-- The heap of a program of appends, where `P` is what the barrier needs. -/
structure Kept (os : Mmap) (addr : Nat) (P : Prop) (r : HeapRun) : Prop where
  ok : HeapOk r
  passes : P → os.Low ∧ MutatorInv r ∧ r.InObject addr 8

section Kept

variable {os : Mmap} {addr : Nat} {P : Prop} {r : HeapRun} {p n k a : Nat}

theorem Reached.heapOk {mem : Mem} (h : Reached os mem r) : HeapOk r := by
  induction h with
  | init => exact heapOk_init mem
  | gcmalloc h hsize hrun ih =>
    have hnew := @Mutator.wp_gcmalloc_of_heapOk (fun _ => True) os _ trivial ih _ hsize
    exact (of_wp_ok hnew hrun).1
  | write h ho hsame ih => exact ih.setMem ⟨_, rfl, ho⟩ hsame (Nat.le_refl _) (Nat.le_refl _)

/-- The objects of `gcmalloc` stay, so the sizes are those of all the calls. -/
theorem Reached.mutatorInv {mem : Mem} (h : Reached os mem r) (hlow : os.Low)
    (hsizes : ∀ o ∈ r.live, 0 < o.size ∧ o.size % 8 = 0) : MutatorInv r := by
  induction h with
  | init => exact mutatorInv_init mem
  | @gcmalloc r r' size p h hsize hrun ih =>
    have hnew := @Mutator.wp_gcmalloc_of_malloc (fun _ => True) os r trivial size (by omega)
      (fun _ r' => (∀ o ∈ r'.live, 0 < o.size ∧ o.size % 8 = 0) → MutatorInv r')
      fun s' hd hmalloc hsizes => by
        obtain ⟨hpos, hmod⟩ := hsizes _ List.mem_cons_self
        exact (ih fun o ho => hsizes o (List.mem_cons_of_mem _ ho)).malloc hpos hmod hsize hlow
          hmalloc
    exact of_wp_ok hnew hrun hsizes
  | write h ho hsame ih =>
    exact (ih hsizes).setMem ⟨_, rfl, ho⟩ hsame (Nat.le_refl _) (Nat.le_refl _)

theorem Reached.kept {mem : Mem} (h : Reached os mem r) : Kept os addr (Resolves os addr r) r :=
  ⟨h.heapOk, fun hres => ⟨hres.low, h.mutatorInv hres.low hres.sizes, hres.inObject⟩⟩

theorem Kept.setMem (h : Kept os addr P r) {mem : Mem} (hp : r.HasObject p n)
    (hsame : SameOutside r.heap.mem mem a k) (hlo : p ≤ a) (hhi : a + k ≤ p + n) :
    Kept os addr P (r.setMem mem) := by
  refine ⟨h.ok.setMem hp hsame hlo hhi, fun hP => ?_⟩
  obtain ⟨hlow, hinv, hin⟩ := h.passes hP
  exact ⟨hlow, hinv.setMem hp hsame hlo hhi, hin⟩

theorem Kept.wp_gcmalloc (h : Kept os addr P r) {size : Int32} (hpos : 0 < size.toNat)
    (hmod : size.toNat % 8 = 0) (hsize : size.toNat + 4100 ≤ 2 ^ 31) :
    wp (Stops P) (Mutator.gcmalloc os size)
      (fun p r' => Kept os addr P r' ∧ NewObject r r' p size.toNat) r := by
  have hfail : Stops P (.heap .mapFailed) := .inl rfl
  have hlt : size.toNat < 2 ^ 31 := by omega
  refine Mutator.wp_gcmalloc_of_malloc hfail hlt fun s' hd hmalloc => ?_
  obtain ⟨hok, hnew⟩ := h.ok.gcmalloc hsize hmalloc
  refine ⟨⟨hok, fun hP => ?_⟩, hnew⟩
  obtain ⟨hlow, hinv, o, ho, hin⟩ := h.passes hP
  exact ⟨hlow, hinv.malloc hpos hmod hsize hlow hmalloc, o, List.mem_cons_of_mem _ ho, hin⟩

/-- The barrier of `doWriteRef(buf->buf, ..)`. -/
theorem Kept.wp_writeBarrier (h : Kept os addr P r) (hp : r.HasObject p n) (hn : 0 < n)
    {Q : Unit → HeapRun → Prop} (hQ : Q () r) :
    wp (Stops P) (Mutator.writeBarrier addr p) Q r := by
  by_cases hP : P
  · obtain ⟨-, hinv, o, ho, hlo, hhi⟩ := h.passes hP
    have hobj : r.HasObject (toObject o.header) o.size := ⟨_, rfl, ho⟩
    exact (Mutator.wp_writeBarrier hinv hobj hlo (by omega) hp (Nat.le_refl p) (by omega)).mpr hQ
  · exact Mutator.wp_writeBarrier_of_ne_fault (fun e he => .inr ⟨he, hP⟩) hQ

end Kept

/-! ## One append -/

/-- The buffer has 64 free bytes, and starts with `text`. -/
structure Ready (s : StringBuf) (r : HeapRun) (text : List (BitVec 8)) : Prop where
  object : r.HasObject s.buf s.top.toNat
  doubled : ∃ j, s.top.toNat = 64 * 2 ^ j
  bound : s.top.toNat < 2 ^ 31
  cursor : s.cursor.toNat = text.length
  room : s.cursor.toNat + 64 ≤ s.top.toNat
  text : bytesAt r.heap.mem s.buf text.length = text

/-- The buffer was printed into, and has room for the NUL. -/
structure Printed (s : StringBuf) (r : HeapRun) (text : List (BitVec 8)) : Prop where
  object : r.HasObject s.buf s.top.toNat
  doubled : ∃ j, s.top.toNat = 64 * 2 ^ j
  bound : s.top.toNat < 2 ^ 31
  cursor : s.cursor.toNat = text.length
  room : s.cursor.toNat + 1 ≤ s.top.toNat
  text : bytesAt r.heap.mem s.buf (text.length + 1) = text ++ [0]

/-- The state between two appends: there is no buffer, or one that was printed into. -/
def Grown (s : StringBuf) (r : HeapRun) (text : List (BitVec 8)) : Prop :=
  s.cursor = 0 ∧ s.top = 0 ∧ text = [] ∨ s.Printed r text

variable {os : Mmap} {P : Prop} {r : HeapRun} {s : StringBuf} {text : List (BitVec 8)}

/-- The text without the NUL. -/
theorem Printed.unterminated (h : s.Printed r text) :
    bytesAt r.heap.mem s.buf text.length = text := by
  have htext := h.text
  rw [bytesAt_add] at htext
  exact List.append_inj_left htext (by simp)

/-- There is little room exactly if the sum, which does not wrap, is above `top`. -/
theorem top_slt_iff (hcursor : s.cursor.toNat < 2 ^ 30) (htop : s.top.toNat < 2 ^ 31) :
    s.top.slt (s.cursor + 64) = true ↔ s.top.toNat < s.cursor.toNat + 64 := by
  have hsum : (s.cursor + 64).toNat = s.cursor.toNat + 64 := by bv_omega
  rw [BitVec.slt_iff_toInt_lt, toInt_of_lt htop, toInt_of_lt (by omega), hsum]
  omega

/-- The first buffer: the macro takes two objects, and the second one is the buffer. -/
theorem wp_grow_null (h : Kept os s.addr P r) (hcursor : s.cursor = 0) (htop : s.top = 0) :
    wp (Stops P) (s.grow os)
      (fun s' r' => s'.addr = s.addr ∧ Kept os s.addr P r' ∧ s'.Ready r' []) r := by
  have hlittle : s.top.slt (s.cursor + 64) = true := by
    rw [hcursor, htop]
    decide
  rw [grow, if_pos hlittle, if_neg (not_not.mpr htop)]
  simp only [doWriteRef, wp_bind, wp_pure]
  refine wp_mono (h.wp_gcmalloc (by decide) (by decide) (by decide)) fun p₁ r₁ hres => ?_
  obtain ⟨h₁, hnew₁⟩ := hres
  refine h₁.wp_writeBarrier hnew₁.object (by decide) ?_
  refine wp_mono (h₁.wp_gcmalloc (by decide) (by decide) (by decide)) fun p₂ r₂ hres => ?_
  obtain ⟨h₂, hnew₂⟩ := hres
  refine ⟨trivial, h₂, hnew₂.object, ⟨0, rfl⟩, ?_, ?_, ?_, rfl⟩ <;> simp [hcursor]

/-- A buffer of twice the length, with the text. -/
theorem wp_grow_double (h : Kept os s.addr P r) (hprinted : s.Printed r text)
    (hsmall : s.top.toNat < 2 ^ 30) (hlittle : s.top.toNat < s.cursor.toNat + 64) :
    wp (Stops P) (s.grow os)
      (fun s' r' => s'.addr = s.addr ∧ Kept os s.addr P r' ∧ s'.Ready r' text) r := by
  obtain ⟨j, hj⟩ := hprinted.doubled
  have hcursor := hprinted.cursor
  have hroom := hprinted.room
  have hpow : 1 ≤ 2 ^ j := Nat.one_le_two_pow
  have hdouble : (s.top <<< 1).toNat = 2 * s.top.toNat := by
    rw [BitVec.toNat_shiftLeft, Nat.shiftLeft_eq]
    omega
  have hmax : 2 * s.top.toNat ≤ 2 ^ 30 := by
    have hexp : 6 + j < 30 := by
      refine (Nat.pow_lt_pow_iff_right (by decide : 1 < 2)).mp ?_
      rw [Nat.pow_add]
      omega
    have hle : 2 ^ j ≤ 2 ^ 23 := Nat.pow_le_pow_right (by decide) (by omega)
    omega
  have hcount : (s.cursor.signExtend 64).toNat = s.cursor.toNat := by
    have hext : (s.cursor.signExtend 64).toInt = s.cursor.toInt :=
      BitVec.toInt_signExtend_of_le (by decide)
    rw [toInt_of_lt (by omega), BitVec.toInt_eq_toNat_cond] at hext
    split at hext <;> omega
  have htop : s.top ≠ 0 := by
    intro h0
    simp [h0] at hj
  have hslt := (top_slt_iff (s := s) (by omega) hprinted.bound).mpr hlittle
  rw [grow, if_pos hslt, if_pos htop, hcount]
  simp only [doWriteRef, wp_bind, wp_pure]
  refine wp_mono (h.wp_gcmalloc (by omega) (by omega) (by omega)) fun tmp r₁ hres => ?_
  obtain ⟨h₁, hnew⟩ := hres
  rw [hdouble] at hnew
  obtain ⟨hobj, hbytes⟩ := hnew.grows _ _ hprinted.object
  rw [Mutator.wp_memcpy (hnew.object.inBlock (by omega)) (hobj.inBlock (by omega))]
  have hsame := sameOutside_copy r₁.heap.mem tmp s.buf s.cursor.toNat
  have h₂ := h₁.setMem hnew.object hsame (Nat.le_refl tmp) (by omega)
  refine h₂.wp_writeBarrier hnew.object (by omega) ?_
  refine ⟨trivial, h₂, ?_, ⟨j + 1, ?_⟩, ?_, hcursor, ?_, ?_⟩
  · dsimp only
    rw [hdouble]
    exact hnew.object
  · dsimp only
    rw [hdouble, hj, Nat.pow_succ]
    omega
  · dsimp only
    omega
  · dsimp only
    omega
  · have hcopy : bytesAt (copy r₁.heap.mem tmp s.buf s.cursor.toNat) tmp text.length =
        bytesAt r₁.heap.mem s.buf text.length := by
      rw [hcursor, bytesAt_copy]
    refine hcopy.trans (Eq.trans (bytesAt_congr fun i hi => ?_) hprinted.unterminated)
    exact hbytes _ (Nat.le_add_right _ _) (by omega)

/-- After the growth there are 64 free bytes, and the text is still there. -/
theorem wp_grow (h : Kept os s.addr P r) (hgrown : s.Grown r text) (hsmall : s.top.toNat < 2 ^ 30) :
    wp (Stops P) (s.grow os)
      (fun s' r' => s'.addr = s.addr ∧ Kept os s.addr P r' ∧ s'.Ready r' text) r := by
  rcases hgrown with ⟨hcursor, htop, rfl⟩ | hprinted
  · exact wp_grow_null h hcursor htop
  · by_cases hlittle : s.top.toNat < s.cursor.toNat + 64
    · exact wp_grow_double h hprinted hsmall hlittle
    · have hroom := hprinted.room
      have hslt := top_slt_iff (s := s) (by omega) hprinted.bound
      rw [grow, if_neg (by rw [hslt]; exact hlittle), wp_pure]
      exact ⟨rfl, h, hprinted.object, hprinted.doubled, hprinted.bound, hprinted.cursor, by omega,
        hprinted.unterminated⟩

/-- `sprintf` writes behind the text, inside the buffer. -/
theorem wp_print (h : Kept os s.addr P r) (hready : s.Ready r text) (val : Int32) :
    wp (Stops P) (s.print val) (fun s' r' => s'.addr = s.addr ∧ Kept os s.addr P r' ∧
      s'.Printed r' (text ++ decimalText val)) r := by
  have hlen := decimalText_length_le val
  have hcursor := hready.cursor
  have hroom := hready.room
  have hbound := hready.bound
  have hint : 0 ≤ s.cursor.toInt := by
    rw [toInt_of_lt (by omega)]
    omega
  have hblock : r.InBlock s.buf (s.cursor.toNat + ((decimalText val).length + 1)) :=
    hready.object.inBlock (by omega)
  have hsum : (s.cursor + BitVec.ofNat 32 (decimalText val).length).toNat =
      (text ++ decimalText val).length := by
    rw [BitVec.toNat_add, BitVec.toNat_ofNat, hcursor, List.length_append]
    omega
  have hsame := sameOutside_storeList r.heap.mem (s.buf + s.cursor.toNat) (decimalText val ++ [0])
  simp only [print, Mutator.sprintf, wp_bind, wp_get, wp_ite, if_pos (And.intro hint hblock),
    wp_set, wp_pure]
  have hend : s.buf + s.cursor.toNat + (decimalText val ++ [0]).length ≤
      s.buf + s.top.toNat := by
    rw [List.length_append, List.length_singleton]
    omega
  refine ⟨trivial, h.setMem hready.object hsame (Nat.le_add_right _ _) hend,
    hready.object, hready.doubled, hbound, hsum, ?_, ?_⟩
  · dsimp only
    rw [hsum, List.length_append]
    omega
  · have hlength : (text ++ decimalText val).length + 1 =
        text.length + (decimalText val ++ [0]).length := by
      simp only [List.length_append, List.length_singleton]
      omega
    have hold : bytesAt (storeList r.heap.mem (s.buf + s.cursor.toNat) (decimalText val ++ [0]))
        s.buf text.length = text := by
      refine (hsame.bytesAt ?_).trans hready.text
      exact .inl (by omega)
    dsimp only [HeapRun.setMem]
    rw [hlength, bytesAt_add, hold, ← hcursor, bytesAt_storeList, List.append_assoc]

/-- `string_buf_append`. -/
theorem wp_append (h : Kept os s.addr P r) (hgrown : s.Grown r text) (val : Int32)
    (hsmall : Small (s, r) val) :
    wp (Stops P) (s.append os val) (fun s' r' => s'.addr = s.addr ∧ Kept os s.addr P r' ∧
      s'.Printed r' (text ++ decimalText val)) r := by
  have htop : s.top.toNat < 2 ^ 30 := by
    have hlt : s.top.toNat < 2 ^ 31 := by
      rcases hgrown with ⟨-, htop, -⟩ | hprinted
      · simp [htop]
      · exact hprinted.bound
    have hint := toInt_of_lt hlt
    have hsmall : s.top.toInt < 2 ^ 30 := hsmall
    omega
  rw [append, wp_bind]
  refine wp_mono (wp_grow h hgrown htop) fun s₁ r₁ hres => ?_
  obtain ⟨haddr, h₁, hready⟩ := hres
  rw [← haddr] at h₁ ⊢
  exact wp_print h₁ hready val

theorem cString_terminated {text rest : List (BitVec 8)} (hne : ∀ c ∈ text, c ≠ 0) :
    cString (text ++ [0] ++ rest) = text := by
  rw [cString, List.append_assoc,
    List.takeWhile_append_of_pos fun c hc => by simpa using hne c hc]
  simp

/-- A buffer that was printed into is as it should be. -/
theorem Printed.holds (h : s.Printed r text) (hzero : ∀ c ∈ text, c ≠ 0) : s.Holds r text := by
  have hcursor := h.cursor
  have hroom := h.room
  have hbound := h.bound
  refine ⟨h.object, ?_, ?_, h.text, ?_⟩
  · rw [toInt_of_lt (by omega), hcursor]
  · rw [toInt_of_lt (by omega), toInt_of_lt hbound]
    omega
  · have hsplit : s.top.toNat = text.length + 1 + (s.top.toNat - (text.length + 1)) := by omega
    rw [hsplit, bytesAt_add, h.text]
    exact cString_terminated hzero

/-! ## The run -/

theorem ne_zero_of_mem_textOf {vals : List Int32} {c : BitVec 8} (hc : c ∈ textOf vals) :
    c ≠ 0 := by
  obtain ⟨val, -, hc⟩ := List.mem_flatMap.mp hc
  exact ne_zero_of_mem_decimalText hc

/-- What the appends keep. -/
structure RunInv (os : Mmap) (addr : Nat) (P : Prop) (t : StringBuf × HeapRun)
    (text : List (BitVec 8)) : Prop where
  address : t.1.addr = addr
  kept : Kept os addr P t.2
  grown : t.1.Grown t.2 text

theorem RunInv.step {addr : Nat} {t t' : StringBuf × HeapRun} {val : Int32}
    (h : RunInv os addr P t text) (hsmall : Small t val) (hstep : step os t val = some t') :
    RunInv os addr P t' (text ++ decimalText val) ∧
      t'.1.Printed t'.2 (text ++ decimalText val) := by
  rcases h with ⟨rfl, hkept, hgrown⟩
  have happend : t.1.append os val t.2 = .ok t' := by
    unfold StringBuf.step at hstep
    cases hrun : t.1.append os val t.2 with
    | ok t'' =>
      rw [hrun] at hstep
      exact congrArg Except.ok (Option.some.inj hstep)
    | error e =>
      rw [hrun] at hstep
      cases hstep
  obtain ⟨haddr, hkept', hprinted⟩ := of_wp_ok (wp_append hkept hgrown val hsmall) happend
  exact ⟨⟨haddr, hkept', .inr hprinted⟩, hprinted⟩

theorem RunInv.run {addr : Nat} (vals : List Int32) :
    ∀ {t t' : StringBuf × HeapRun} {text : List (BitVec 8)}, RunInv os addr P t text →
      RunOk (StringBuf.step os) Small t vals → Transition.run (StringBuf.step os) t vals = some t' →
        RunInv os addr P t' (text ++ textOf vals) ∧
          (vals ≠ [] → t'.1.Printed t'.2 (text ++ textOf vals)) := by
  induction vals with
  | nil =>
    intro t t' text h _ hrun
    obtain rfl := Option.some.inj hrun
    exact ⟨by simpa [textOf] using h, fun hne => absurd rfl hne⟩
  | cons val vals ih =>
    intro t t' text h hok hrun
    obtain ⟨t₁, hstep, hrest⟩ := run_cons_eq_some hrun
    obtain ⟨h₁, hprinted⟩ := h.step hok.1 hstep
    obtain ⟨h', hlast⟩ := ih h₁ (hok.2 t₁ hstep) hrest
    have htext : text ++ decimalText val ++ textOf vals = text ++ textOf (val :: vals) := by
      simp [textOf]
    rw [htext] at h' hlast
    refine ⟨h', fun _ => ?_⟩
    by_cases hvals : vals = []
    · subst hvals
      obtain rfl := Option.some.inj hrest
      simpa [textOf] using hprinted
    · exact hlast hvals

/-- The heap of `hashmap_to_string`, with its `string_buf`. -/
def bufferHeap : HeapRun :=
  match Mutator.gcmalloc pageMmap 16 (HeapRun.init fun _ => 0) with
  | .ok (_, r) => r
  | .error _ => HeapRun.init fun _ => 0

theorem reached_bufferHeap : Reached pageMmap (fun _ => 0) bufferHeap := by
  unfold bufferHeap
  split
  · next p r hrun => exact .gcmalloc .init (by decide) hrun
  · exact .init

end StringBuf

end KernelMemVirt.Gc
