import KernelMemVirt.Janus.HostMaps
import KernelMemVirt.Lib.AccessLog

/-!
# The snapshot of the low memory

`protect_low_memory` of `monitor/memory.c` reads the lines of `/proc/self/maps` into an array of 64
entries and copies those below one megabyte into another.  `read_host_mapping` returns the number
of lines that it has seen, not of those that it has stored, and the copy goes up to that number.

* `protectLowMemory` is the function with the places of the two arrays that it accesses.
* `listing` is the text of any number of lines.
* `readHostMapping_spec` is what is stored, and counted, of a listing.
* `copyLoop_spec` is the copy, for the number `k` of low entries it comes to.
* `SnapshotRight` is what the function should do, and `snapshotRight_iff` says when it does.
-/

namespace KernelMemVirt.Janus

open Logged Rackdoll.Printk

/-! ## The source -/

abbrev MAPS_MAX_SIZE : Nat := 64

abbrev MAPS_LOW_LIMIT : Word := 0x100000

/-- An entry of the array `mapping`, or of the array `low_memory_maps`. -/
inductive Place
  | mapping (i : Nat)
  | lowMemoryMaps (i : Nat)
  deriving DecidableEq

/-- The index of an entry. -/
def Place.index : Place → Nat
  | .mapping i => i
  | .lowMemoryMaps i => i

/-- `low_memory_maps` and `low_memory_size`.  What is behind the 64 entries of the array is
whatever the linker has put there. -/
structure LowMemory where
  maps : Nat → Maps
  size : Nat

theorem fgets_rest_lt {n : Nat} (hn : 0 < n) {stream : List Byte} (hstream : stream ≠ []) :
    (fgets n stream).2.length < stream.length := by
  have hle : ∀ (n : Nat) (cs : List Byte), (fgets n cs).2.length ≤ cs.length := by
    intro n
    induction n with
    | zero => exact fun _ => Nat.le_refl _
    | succ n ih =>
      intro cs
      cases cs with
      | nil => exact Nat.le_refl _
      | cons c cs =>
        rw [fgets]
        split
        · simp
        · exact Nat.le_succ_of_le (ih cs)
  obtain ⟨n, rfl⟩ := Nat.exists_eq_succ_of_ne_zero (Nat.pos_iff_ne_zero.mp hn)
  cases stream with
  | nil => exact absurd rfl hstream
  | cons c cs =>
    rw [fgets]
    split
    · simp
    · exact Nat.lt_succ_of_le (hle n cs)

/-- What the calls of `fgets` leave in the buffer, one after the other, until the end of the
stream. -/
def hostLines (stream : List Byte) : List (List Byte) :=
  if h : stream = [] then []
  else
    (fgets (MAPS_LINE_SIZE - 1) stream).1 :: hostLines (fgets (MAPS_LINE_SIZE - 1) stream).2
termination_by stream.length
decreasing_by exact fgets_rest_lt (by decide) h

/-- The loop of `read_host_mapping`. -/
def readLoop (len : Nat) : Nat → (Nat → Mapping) → List (List Byte) →
    Logged Place (Option ((Nat → Mapping) × Nat))
  | i, dest, [] => pure (some (dest, i))
  | i, dest, buffer :: rest =>
    if i < len then do
      match ← access (.mapping i) (parseHostMapping buffer) with
      | some entry => readLoop len (i + 1) (Function.update dest i entry) rest
      | none => pure none
    else readLoop len (i + 1) dest rest

/-- `read_host_mapping`, when the file can be opened. -/
def readHostMapping (dest : Nat → Mapping) (len : Nat) (stream : List Byte) :
    Logged Place (Option ((Nat → Mapping) × Nat)) :=
  readLoop len 0 dest (hostLines stream)

/-- The loop of `protect_low_memory` that copies, for the number of turns that are left. -/
def copyLoop (mapping : Nat → Mapping) :
    Nat → Nat → (Nat → Maps) → Logged Place (Nat × (Nat → Maps))
  | 0, i, maps => pure (i, maps)
  | turns + 1, i, maps => do
    let start ← access (.mapping i) (mapping i).maps.start
    if MAPS_LOW_LIMIT ≤ start then
      pure (i, maps)
    else do
      let entry ← access (.mapping i) (mapping i).maps
      let maps ← access (.lowMemoryMaps i) (Function.update maps i entry)
      copyLoop mapping turns (i + 1) maps

/-- A call of `mprotect`. -/
structure Mprotect where
  addr : Word
  len : Word
  prot : BitVec 8

/-- The loop of `protect_low_memory` that calls `mprotect`. -/
def protectLoop (maps : Nat → Maps) : Nat → Nat → Logged Place (List Mprotect)
  | 0, _ => pure []
  | turns + 1, i => do
    let entry ← access (.lowMemoryMaps i) (maps i)
    let calls ← protectLoop maps turns (i + 1)
    pure (⟨entry.start, entry.stop - entry.start, entry.prot &&& ~~~PROT_WRITE⟩ :: calls)

/-- `protect_low_memory`, with a block of `malloc` that holds `heap`; `none` is an `abort`, or a
line that is not parsed. -/
def protectLowMemory (heap : Nat → Mapping) (s : LowMemory) (stream : List Byte) :
    Logged Place (Option (LowMemory × List Mprotect)) := do
  match ← readHostMapping heap MAPS_MAX_SIZE stream with
  | none => pure none
  | some (mapping, len) => do
    let (i, maps) ← copyLoop mapping len 0 s.maps
    if i = MAPS_MAX_SIZE then
      pure none
    else do
      let calls ← protectLoop maps i 0
      pure (some (⟨maps, i⟩, calls))

/-! ## What it should do -/

/-- The text of a listing. -/
def listing (lines : List HostLine) : List Byte := lines.flatMap fun l => l.text ++ [chr '\n']

namespace HostLine

variable (l : HostLine)

/-- The line fits in the buffer, with its newline and the NUL. -/
def Fits : Prop := l.text.length + 2 ≤ MAPS_LINE_SIZE

/-- The mapping of the line. -/
def maps : Maps := ⟨l.start, l.stop, l.prot⟩

/-- What `strtol` makes of it. -/
def readMaps : Maps :=
  ⟨BitVec.ofNat 64 (min l.start.toNat LONG_MAX), BitVec.ofNat 64 (min l.stop.toNat LONG_MAX),
    l.prot⟩

end HostLine

/-- The mapping starts below the limit. -/
def IsLow (m : Maps) : Prop := m.start < MAPS_LOW_LIMIT

instance (m : Maps) : Decidable (IsLow m) := inferInstanceAs (Decidable (_ < _))

/-- The lines that start below the limit. -/
def lowLines (lines : List HostLine) : List HostLine := lines.filter (IsLow ·.maps)

/-- The function stays inside of its arrays.  It records the low lines, if there are fewer than the
arrays hold, and aborts otherwise. -/
structure SnapshotRight (heap : Nat → Mapping) (s : LowMemory) (lines : List HostLine) : Prop where
  inside : Within (fun p => p.index < MAPS_MAX_SIZE) (protectLowMemory heap s (listing lines))
  records : (lowLines lines).length < MAPS_MAX_SIZE →
    ∃ s' calls, (protectLowMemory heap s (listing lines)).value = some (s', calls) ∧
      s'.size = (lowLines lines).length ∧
      (List.range s'.size).map s'.maps = (lowLines lines).map HostLine.maps
  aborts : MAPS_MAX_SIZE ≤ (lowLines lines).length →
    (protectLowMemory heap s (listing lines)).value = none

/-! ## Lines -/

theorem fgets_line : ∀ {n : Nat} {text : List Byte} (rest : List Byte), chr '\n' ∉ text →
    text.length < n → fgets n (text ++ chr '\n' :: rest) = (text ++ [chr '\n'], rest) := by
  intro n
  induction n with
  | zero => exact fun _ _ h => absurd h (Nat.not_lt_zero _)
  | succ n ih =>
    intro text rest hnl hlen
    cases text with
    | nil => simp [fgets]
    | cons c cs =>
      rw [List.mem_cons, not_or] at hnl
      rw [List.cons_append, fgets, if_neg (Ne.symm hnl.1),
        ih rest hnl.2 (Nat.lt_of_succ_lt_succ hlen)]
      rfl

theorem length_hostLines_pos {stream : List Byte} (h : stream ≠ []) :
    0 < (hostLines stream).length := by
  rw [hostLines, dif_neg h]
  exact Nat.succ_pos _

/-- The lines that fit are read one by one. -/
theorem hostLines_listing_append {front : List HostLine} (back : List HostLine)
    (hfit : ∀ l ∈ front, l.Fits) :
    hostLines (listing (front ++ back)) =
      front.map (fun l => l.text ++ [chr '\n']) ++ hostLines (listing back) := by
  induction front with
  | nil => rfl
  | cons l front ih =>
    have hline : listing (l :: front ++ back) =
        l.text ++ chr '\n' :: listing (front ++ back) := by
      simp [listing]
    have hl : l.text.length + 2 ≤ MAPS_LINE_SIZE := hfit l List.mem_cons_self
    rw [hline, hostLines, dif_neg (by simp),
      fgets_line _ (newline_notMem_text l) (by omega),
      ih fun l hl => hfit l (List.mem_cons_of_mem _ hl)]
    rfl

theorem listing_ne_nil {lines : List HostLine} (h : lines ≠ []) : listing lines ≠ [] := by
  cases lines with
  | nil => exact absurd rfl h
  | cons l lines => simp [listing]

/-! ## Low lines first -/


section Sorted

variable {α : Type} {p : α → Prop} [DecidablePred p]

/-- In a list in which what comes before a `p` is a `p`, they all come first. -/
theorem filter_eq_take : ∀ {l : List α}, l.Pairwise (fun a b => p b → p a) →
    l.filter (p ·) = l.take (l.filter (p ·)).length ∧
      ∀ (j : Nat) (hj : j < l.length), p l[j] ↔ j < (l.filter (p ·)).length
  | [], _ => ⟨rfl, fun j hj => absurd hj (Nat.not_lt_zero j)⟩
  | a :: l, h => by
    obtain ⟨ha, hl⟩ := List.pairwise_cons.mp h
    obtain ⟨htake, hiff⟩ := filter_eq_take hl
    by_cases hpa : p a
    · rw [List.filter_cons_of_pos (by simpa using hpa), List.length_cons, List.take_succ_cons]
      refine ⟨congrArg (a :: ·) htake, fun j hj => ?_⟩
      cases j with
      | zero => simpa using hpa
      | succ j =>
        rw [List.getElem_cons_succ, Nat.succ_lt_succ_iff]
        exact hiff j (Nat.lt_of_succ_lt_succ hj)
    · have hnone : l.filter (p ·) = [] := by
        rw [List.filter_eq_nil_iff]
        intro b hb hpb
        exact hpa (ha b hb (by simpa using hpb))
      rw [List.filter_cons_of_neg (by simpa using hpa), hnone]
      refine ⟨rfl, fun j hj => ?_⟩
      have hbefore : p (a :: l)[j] → p a := by
        cases j with
        | zero => exact id
        | succ j => exact ha _ (List.getElem_mem _)
      exact iff_of_false (fun hp => hpa (hbefore hp)) (Nat.not_lt_zero j)

end Sorted

/-! ## The loops -/

theorem parseHostMapping_readMaps (l : HostLine) :
    ∃ file, parseHostMapping (l.text ++ [chr '\n']) = some ⟨l.readMaps, file⟩ := by
  obtain ⟨file, hparse, -⟩ := parseHostMapping_line l (.inr rfl)
  exact ⟨file, hparse⟩

/-- The lines that fit are stored in order, and all of them are counted. -/
theorem readLoop_spec (len : Nat) : ∀ {buffers : List (List Byte)} (lines : List HostLine) (i : Nat)
    (dest : Nat → Mapping),
    (∀ (j : Nat) (hj : j < lines.length), i + j < len →
      ∃ (hb : j < buffers.length), ∃ file,
        parseHostMapping buffers[j] = some ⟨lines[j].readMaps, file⟩) →
    (lines.length < buffers.length → len ≤ i + lines.length) →
      ∃ dest', (readLoop len i dest buffers).value = some (dest', i + buffers.length) ∧
        Within (fun p => p.index < len) (readLoop len i dest buffers) ∧
        (∀ j < i, dest' j = dest j) ∧
        ∀ (j : Nat) (hj : j < lines.length), i + j < len →
          (dest' (i + j)).maps = lines[j].readMaps := by
  intro buffers
  induction buffers with
  | nil =>
    intro lines i dest hparse _
    refine ⟨dest, rfl, within_pure _, fun _ _ => rfl, fun j hj hlt => ?_⟩
    obtain ⟨hb, -⟩ := hparse j hj hlt
    exact absurd hb (Nat.not_lt_zero j)
  | cons buffer buffers ih =>
    intro lines i dest hparse hcount
    by_cases hi : i < len
    · cases lines with
      | nil =>
        have hle := hcount (Nat.succ_pos _)
        rw [List.length_nil] at hle
        omega
      | cons l lines =>
        obtain ⟨_, file, hfirst⟩ := hparse 0 (Nat.succ_pos _) hi
        have hfirst : parseHostMapping buffer = some ⟨l.readMaps, file⟩ := hfirst
        obtain ⟨dest', hvalue, hwithin, hbelow, hstored⟩ :=
          ih lines (i + 1) (Function.update dest i ⟨l.readMaps, file⟩)
            (fun j hj hlt => by
              obtain ⟨hb, file, hline⟩ := hparse (j + 1) (Nat.succ_lt_succ hj) (by omega)
              rw [List.getElem_cons_succ, List.getElem_cons_succ] at hline
              exact ⟨Nat.lt_of_succ_lt_succ hb, file, hline⟩)
            (fun hlt => by
              have hle := hcount (Nat.succ_lt_succ hlt)
              rw [List.length_cons] at hle
              omega)
        refine ⟨dest', ?_, ?_, fun j hj => ?_, fun j hj hlt => ?_⟩
        · rw [readLoop, if_pos hi, value_bind, value_access, hfirst, List.length_cons]
          rw [hvalue]
          congr 2
          omega
        · rw [readLoop, if_pos hi, within_bind, value_access, hfirst, within_access]
          exact ⟨hi, hwithin⟩
        · rw [hbelow j (by omega), Function.update_of_ne (by omega)]
        · cases j with
          | zero =>
            rw [Nat.add_zero, hbelow i (Nat.lt_succ_self i), Function.update_self]
            rfl
          | succ j =>
            have hj' := hstored j (Nat.lt_of_succ_lt_succ hj) (by omega)
            rw [show i + (j + 1) = i + 1 + j by omega, hj']
            rfl
    · obtain ⟨dest', hvalue, hwithin, hbelow, -⟩ := ih [] (i + 1) dest
        (fun j hj => absurd hj (Nat.not_lt_zero j)) (fun _ => by omega)
      refine ⟨dest', ?_, ?_, fun j hj => hbelow j (by omega), fun j hj hlt => by omega⟩
      · rw [readLoop, if_neg hi, hvalue, List.length_cons]
        congr 2
        omega
      · rw [readLoop, if_neg hi]
        exact hwithin

/-- The first lines of a listing are stored.  The count is that of the lines, or too large as
well. -/
theorem readHostMapping_spec {lines : List HostLine} (dest : Nat → Mapping)
    (hfit : ∀ l ∈ lines.take MAPS_MAX_SIZE, l.Fits) :
    ∃ mapping n, (readHostMapping dest MAPS_MAX_SIZE (listing lines)).value =
        some (mapping, n) ∧
      Within (fun p => p.index < MAPS_MAX_SIZE)
        (readHostMapping dest MAPS_MAX_SIZE (listing lines)) ∧
      (lines.length ≤ MAPS_MAX_SIZE → n = lines.length) ∧
      (MAPS_MAX_SIZE < lines.length → MAPS_MAX_SIZE < n) ∧
      ∀ (j : Nat) (hj : j < lines.length), j < MAPS_MAX_SIZE →
        (mapping j).maps = lines[j].readMaps := by
  have hbuffers := hostLines_listing_append (lines.drop MAPS_MAX_SIZE) hfit
  rw [List.take_append_drop] at hbuffers
  have hlength := congrArg List.length hbuffers
  rw [List.length_append, List.length_map, List.length_take] at hlength
  have hback : lines.length ≤ MAPS_MAX_SIZE →
      (hostLines (listing (lines.drop MAPS_MAX_SIZE))).length = 0 := by
    intro hle
    rw [List.drop_eq_nil_of_le hle, listing, List.flatMap_nil, hostLines, dif_pos rfl]
    rfl
  have hmore : MAPS_MAX_SIZE < lines.length →
      0 < (hostLines (listing (lines.drop MAPS_MAX_SIZE))).length := by
    intro hlt
    refine length_hostLines_pos (listing_ne_nil fun hnil => ?_)
    rw [List.drop_eq_nil_iff] at hnil
    omega
  obtain ⟨mapping, hvalue, hwithin, -, hstored⟩ :=
    readLoop_spec MAPS_MAX_SIZE lines 0 dest
      (fun j hj hlt => by
        have hb : j < (hostLines (listing lines)).length := by omega
        refine ⟨hb, ?_⟩
        have hbuffer : (hostLines (listing lines))[j] = lines[j].text ++ [chr '\n'] := by
          simp only [hbuffers]
          rw [List.getElem_append_left (by simp; omega), List.getElem_map, List.getElem_take]
        rw [hbuffer]
        exact parseHostMapping_readMaps lines[j])
      (fun hlt => by omega)
  rw [Nat.zero_add] at hvalue
  simp only [Nat.zero_add] at hstored
  exact ⟨mapping, _, hvalue, hwithin, fun hle => by omega, fun hlt => by omega, hstored⟩

section Copy

variable {mapping : Nat → Mapping}

/-- The copy of `k` low entries, up to the end or to an entry that is not low. -/
theorem copyLoop_spec {P : Place → Prop} : ∀ {k turns : Nat} (i : Nat) (maps : Nat → Maps),
    k ≤ turns → (∀ j < k, IsLow (mapping (i + j)).maps) →
    (k < turns → ¬ IsLow (mapping (i + k)).maps ∧ P (.mapping (i + k))) →
    (∀ j < k, P (.mapping (i + j)) ∧ P (.lowMemoryMaps (i + j))) →
      (copyLoop mapping turns i maps).value =
          (i + k, fun x => if i ≤ x ∧ x < i + k then (mapping x).maps else maps x) ∧
        Within P (copyLoop mapping turns i maps) := by
  intro k
  induction k with
  | zero =>
    intro turns i maps _ _ hend _
    have hnone : ∀ x, ¬ (i ≤ x ∧ x < i + 0) := by omega
    simp only [hnone, if_false]
    cases turns with
    | zero => exact ⟨rfl, within_pure _⟩
    | succ turns =>
      obtain ⟨hhigh, hplace⟩ := hend (Nat.succ_pos turns)
      have hstart : MAPS_LOW_LIMIT ≤ (mapping i).maps.start := BitVec.not_lt.mp hhigh
      rw [copyLoop, value_bind, within_bind, value_access, if_pos hstart, within_access]
      exact ⟨rfl, hplace, within_pure _⟩
  | succ k ih =>
    intro turns i maps hle hlow hend hplaces
    have hshift : ∀ j, i + 1 + j = i + (j + 1) := fun j => by omega
    cases turns with
    | zero => omega
    | succ turns =>
      have hfirst : ¬ MAPS_LOW_LIMIT ≤ (mapping i).maps.start :=
        BitVec.not_le.mpr (hlow 0 (Nat.succ_pos k))
      obtain ⟨hvalue, hwithin⟩ := ih (i + 1) (Function.update maps i (mapping i).maps)
        (Nat.le_of_succ_le_succ hle)
        (fun j hj => by rw [hshift]; exact hlow (j + 1) (by omega))
        (fun hk => by rw [hshift]; exact hend (by omega))
        (fun j hj => by rw [hshift]; exact hplaces (j + 1) (by omega))
      have hplace := hplaces 0 (Nat.succ_pos k)
      constructor
      · rw [copyLoop, value_bind, value_access, if_neg hfirst, value_bind, value_access,
          value_bind, value_access, hvalue, Prod.mk.injEq]
        refine ⟨by omega, funext fun x => ?_⟩
        by_cases hx : x = i
        · subst hx
          rw [if_neg (by omega), if_pos (by omega), Function.update_self]
        · rw [Function.update_of_ne hx]
          exact if_congr (by omega) rfl rfl
      · rw [copyLoop, within_bind, value_access, if_neg hfirst, within_bind, value_access,
          within_bind, value_access, within_access, within_access, within_access]
        exact ⟨hplace.1, hplace.1, hplace.2, hwithin⟩

/-- Behind low entries the next one is read, while there are turns left. -/
theorem mem_log_copyLoop : ∀ {k turns : Nat} (i : Nat) (maps : Nat → Maps), k < turns →
    (∀ j < k, IsLow (mapping (i + j)).maps) →
      .mapping (i + k) ∈ (copyLoop mapping turns i maps).log := by
  intro k
  induction k with
  | zero =>
    intro turns i maps hlt _
    cases turns with
    | zero => omega
    | succ turns => simp [copyLoop]
  | succ k ih =>
    intro turns i maps hlt hlow
    cases turns with
    | zero => omega
    | succ turns =>
      have hfirst : ¬ MAPS_LOW_LIMIT ≤ (mapping i).maps.start :=
        BitVec.not_le.mpr (hlow 0 (Nat.succ_pos k))
      have hrest := ih (i + 1) (Function.update maps i (mapping i).maps)
        (Nat.lt_of_succ_lt_succ hlt)
        (fun j hj => by rw [show i + 1 + j = i + (j + 1) by omega]; exact hlow (j + 1) (by omega))
      rw [show i + 1 + k = i + (k + 1) by omega] at hrest
      rw [copyLoop, log_bind, value_access, if_neg hfirst, log_bind, value_access, log_bind,
        value_access]
      simp only [List.mem_append]
      exact .inr (.inr (.inr hrest))

end Copy

theorem within_protectLoop (maps : Nat → Maps) : ∀ (turns i : Nat), i + turns ≤ MAPS_MAX_SIZE →
    Within (fun p => p.index < MAPS_MAX_SIZE) (protectLoop maps turns i) := by
  intro turns
  induction turns with
  | zero => exact fun _ _ => within_pure _
  | succ turns ih =>
    intro i hi
    simp only [protectLoop, within_bind, within_access, within_pure, and_true]
    exact ⟨by simp only [Place.index]; omega, ih (i + 1) (by omega)⟩

/-! ## The snapshot -/

theorem isLow_readMaps (l : HostLine) : IsLow l.readMaps ↔ IsLow l.maps := by
  have hstart := l.start.isLt
  have hlimit : MAPS_LOW_LIMIT.toNat = 0x100000 := rfl
  simp only [IsLow, HostLine.readMaps, HostLine.maps, BitVec.lt_def, BitVec.toNat_ofNat, hlimit,
    LONG_MAX]
  omega

/-- The mapping of a low line is kept exactly if it ends where `strtol` can say so. -/
theorem readMaps_eq_maps_iff {l : HostLine} (hlow : IsLow l.maps) :
    l.readMaps = l.maps ↔ l.stop.toNat < 2 ^ 63 := by
  have hstart : l.start.toNat < (0x100000 : Word).toNat := BitVec.lt_def.mp hlow
  have hkept := (ofNat_min_eq_iff l.start).mpr (Nat.lt_trans hstart (by decide))
  simp only [HostLine.readMaps, HostLine.maps, Maps.mk.injEq, hkept, true_and, and_true]
  exact ofNat_min_eq_iff l.stop

section Snapshot

variable {lines : List HostLine}

/-- The low lines of a listing in increasing order come first. -/
theorem lowLines_spec (hsorted : lines.Pairwise (fun a b => a.start ≤ b.start)) :
    lowLines lines = lines.take (lowLines lines).length ∧
      ∀ (j : Nat) (hj : j < lines.length),
        IsLow lines[j].maps ↔ j < (lowLines lines).length :=
  filter_eq_take (hsorted.imp fun hle hlow =>
    BitVec.lt_def.mpr (Nat.lt_of_le_of_lt (BitVec.le_def.mp hle) (BitVec.lt_def.mp hlow)))

/-- A listing with as many low lines as the arrays hold, and more lines than that: the next entry
is read outside of the array. -/
theorem mem_log_of_overflow (heap : Nat → Mapping) (s : LowMemory)
    (hfit : ∀ l ∈ lines.take MAPS_MAX_SIZE, l.Fits)
    (hsorted : lines.Pairwise (fun a b => a.start ≤ b.start))
    (hlines : MAPS_MAX_SIZE < lines.length) (hlow : MAPS_MAX_SIZE ≤ (lowLines lines).length) :
    .mapping MAPS_MAX_SIZE ∈ (protectLowMemory heap s (listing lines)).log := by
  obtain ⟨mapping, n, hvalue, -, -, hmore, hstored⟩ := readHostMapping_spec heap hfit
  have hentries : ∀ j < MAPS_MAX_SIZE, IsLow (mapping (0 + j)).maps := by
    intro j hj
    rw [Nat.zero_add, hstored j (by omega) hj, isLow_readMaps]
    exact ((lowLines_spec hsorted).2 j (by omega)).mpr (by omega)
  have hread := mem_log_copyLoop 0 s.maps (hmore hlines) hentries
  rw [Nat.zero_add] at hread
  rw [protectLowMemory, log_bind, hvalue, List.mem_append]
  right
  dsimp only
  rw [log_bind, List.mem_append]
  exact .inl hread

/-- In the other cases the copy ends inside of the arrays, at the first line that is not low. -/
theorem protectLowMemory_spec (heap : Nat → Mapping) (s : LowMemory)
    (hfit : ∀ l ∈ lines.take MAPS_MAX_SIZE, l.Fits)
    (hsorted : lines.Pairwise (fun a b => a.start ≤ b.start))
    (hroom : lines.length ≤ MAPS_MAX_SIZE ∨ (lowLines lines).length < MAPS_MAX_SIZE) :
    ∃ maps, (List.range (lowLines lines).length).map maps =
        (lowLines lines).map HostLine.readMaps ∧
      (protectLowMemory heap s (listing lines)).value =
        (if (lowLines lines).length = MAPS_MAX_SIZE then none
        else some (⟨maps, (lowLines lines).length⟩,
          (protectLoop maps (lowLines lines).length 0).value)) ∧
      Within (fun p => p.index < MAPS_MAX_SIZE) (protectLowMemory heap s (listing lines)) := by
  obtain ⟨mapping, n, hvalue, hwithin, hcount, hmore, hstored⟩ := readHostMapping_spec heap hfit
  obtain ⟨htake, hiff⟩ := lowLines_spec hsorted
  have hle : (lowLines lines).length ≤ lines.length := List.length_filter_le _ _
  generalize hk : (lowLines lines).length = k at *
  obtain ⟨hcopy, hcopied⟩ := copyLoop_spec (P := fun p => p.index < MAPS_MAX_SIZE)
    0 s.maps (show k ≤ n by omega)
    (fun j hj => by
      rw [Nat.zero_add, hstored j (by omega) (by omega), isLow_readMaps]
      exact (hiff j (by omega)).mpr hj)
    (fun hlt => by
      rw [Nat.zero_add, hstored k (by omega) (by omega), isLow_readMaps]
      refine ⟨fun hlow => ?_, by simp only [Place.index]; omega⟩
      exact absurd ((hiff k (by omega)).mp hlow) (Nat.lt_irrefl k))
    (fun j hj => ⟨by simp only [Place.index]; omega, by simp only [Place.index]; omega⟩)
  simp only [Nat.zero_add, Nat.zero_le, true_and] at hcopy
  refine ⟨fun x => if x < k then (mapping x).maps else s.maps x, ?_, ?_, ?_⟩
  · rw [htake]
    apply List.ext_getElem
    · simp only [List.length_map, List.length_range, List.length_take]
      omega
    · intro j hj _
      rw [List.length_map, List.length_range] at hj
      simp only [List.getElem_map, List.getElem_range, List.getElem_take, if_pos hj]
      rw [hstored j (by omega) (by omega)]
  · rw [protectLowMemory, value_bind, hvalue]
    dsimp only
    rw [value_bind, hcopy]
    dsimp only
    rw [value_ite]
    rfl
  · rw [protectLowMemory, within_bind, hvalue]
    refine ⟨hwithin, ?_⟩
    dsimp only
    rw [within_bind, hcopy]
    refine ⟨hcopied, ?_⟩
    dsimp only
    split
    · exact within_pure _
    · rw [within_bind]
      exact ⟨within_protectLoop _ _ _ (by omega), within_pure _⟩

variable {heap : Nat → Mapping} {s : LowMemory}

theorem snapshotRight_of_room (hfit : ∀ l ∈ lines.take MAPS_MAX_SIZE, l.Fits)
    (hsorted : lines.Pairwise (fun a b => a.start ≤ b.start))
    (hroom : (lowLines lines).length < MAPS_MAX_SIZE ∧
        (∀ l ∈ lowLines lines, l.stop.toNat < 2 ^ 63) ∨
      lines.length ≤ MAPS_MAX_SIZE ∧ MAPS_MAX_SIZE ≤ (lowLines lines).length) :
    SnapshotRight heap s lines := by
  obtain ⟨maps, hmaps, hvalue, hwithin⟩ := protectLowMemory_spec heap s hfit hsorted (by omega)
  refine ⟨hwithin, fun hlt => ?_, fun hge => ?_⟩
  · have hstops : ∀ l ∈ lowLines lines, l.stop.toNat < 2 ^ 63 := by
      rcases hroom with hroom | hroom
      · exact hroom.2
      · omega
    rw [if_neg (by omega)] at hvalue
    refine ⟨_, _, hvalue, rfl, ?_⟩
    rw [hmaps, List.map_inj_left]
    intro l hl
    exact (readMaps_eq_maps_iff (by simpa using (List.mem_filter.mp hl).2)).mpr (hstops l hl)
  · have hle : (lowLines lines).length ≤ lines.length := List.length_filter_le _ _
    rw [if_pos (by omega)] at hvalue
    exact hvalue

theorem room_of_snapshotRight (hfit : ∀ l ∈ lines.take MAPS_MAX_SIZE, l.Fits)
    (hsorted : lines.Pairwise (fun a b => a.start ≤ b.start)) (h : SnapshotRight heap s lines) :
    (lowLines lines).length < MAPS_MAX_SIZE ∧ (∀ l ∈ lowLines lines, l.stop.toNat < 2 ^ 63) ∨
      lines.length ≤ MAPS_MAX_SIZE ∧ MAPS_MAX_SIZE ≤ (lowLines lines).length := by
  by_cases hlt : (lowLines lines).length < MAPS_MAX_SIZE
  · refine .inl ⟨hlt, fun l hl => ?_⟩
    obtain ⟨maps, hmaps, hvalue, -⟩ := protectLowMemory_spec heap s hfit hsorted (.inr hlt)
    obtain ⟨s', calls, hvalue', -, hmaps'⟩ := h.records hlt
    rw [hvalue, if_neg (by omega)] at hvalue'
    cases hvalue'
    rw [hmaps, List.map_inj_left] at hmaps'
    exact (readMaps_eq_maps_iff (by simpa using (List.mem_filter.mp hl).2)).mp (hmaps' l hl)
  · refine .inr ⟨?_, by omega⟩
    by_contra hover
    have houtside := h.inside _ (mem_log_of_overflow heap s hfit hsorted (by omega) (by omega))
    exact absurd houtside (Nat.lt_irrefl _)

end Snapshot

/-- For a listing in increasing order, whose first lines fit in the buffer, `protect_low_memory` is
right exactly if it has fewer low lines than the arrays have entries, or no more lines at all. -/
theorem snapshotRight_iff (heap : Nat → Mapping) (s : LowMemory) (lines : List HostLine)
    (hfit : ∀ l ∈ lines.take MAPS_MAX_SIZE, l.Fits)
    (hsorted : lines.Pairwise (fun a b => a.start ≤ b.start)) :
    SnapshotRight heap s lines ↔
      (lowLines lines).length < MAPS_MAX_SIZE ∧ (∀ l ∈ lowLines lines, l.stop.toNat < 2 ^ 63) ∨
        lines.length ≤ MAPS_MAX_SIZE ∧ MAPS_MAX_SIZE ≤ (lowLines lines).length :=
  ⟨room_of_snapshotRight hfit hsorted, snapshotRight_of_room hfit hsorted⟩

/-! ## Pages -/

/-- The text of an address, of eight digits. -/
def pageText (i : Nat) : List Byte := digits 16 (chr 'a') (0x1000 * i) 8

theorem isHex_pageText {i : Nat} (hi : i < 0x100000) :
    IsHex (BitVec.ofNat 64 (0x1000 * i)).toNat (pageText i) where
  nonempty := by
    rw [pageText, digits_succ]
    exact List.cons_ne_nil _ _
  reads := by
    have hreads := @readDigits_digits 16 (chr 'a') (by decide) (by decide) (.inr (.inl rfl)) 0
      (0x1000 * i) 8
    have hmod : 0x1000 * i % 16 ^ 8 = 0x1000 * i := Nat.mod_eq_of_lt (by omega)
    rw [BitVec.toNat_ofNat, Nat.mod_eq_of_lt (by omega)]
    refine hreads.trans (congrArg some ?_)
    rw [Nat.zero_mul, Nat.zero_add]
    exact hmod

/-- The line of a page between 64 kilobytes and one megabyte; the page behind it is not mapped. -/
def pageLine (i : Fin 120) : HostLine :=
  { programLine with
    start := BitVec.ofNat 64 (0x1000 * (16 + 2 * i))
    stop := BitVec.ofNat 64 (0x1000 * (17 + 2 * i))
    start_lt_stop := by
      simp only [BitVec.toNat_ofNat]
      omega
    startText := pageText (16 + 2 * i)
    stopText := pageText (17 + 2 * i)
    start_hex := isHex_pageText (by omega)
    stop_hex := isHex_pageText (by omega) }

/-- The lines of the first of these pages. -/
def pageLines (n : Nat) : List HostLine := ((List.finRange 120).take n).map pageLine

theorem fits_pageLines (n : Nat) : ∀ l ∈ pageLines n, l.Fits := by
  intro l hl
  obtain ⟨i, -, rfl⟩ := List.mem_map.mp hl
  have hlength : (pageLine i).text.length = 42 := rfl
  rw [HostLine.Fits, hlength]
  decide

theorem pairwise_pageLines (n : Nat) :
    (pageLines n).Pairwise (fun a b => a.start ≤ b.start) := by
  unfold pageLines
  rw [List.pairwise_map]
  refine ((List.pairwise_lt_finRange 120).take).imp fun {i j} hlt => ?_
  have hij : i.val < j.val := hlt
  simp only [pageLine, BitVec.le_def, BitVec.toNat_ofNat]
  omega

theorem lowLines_pageLines (n : Nat) : lowLines (pageLines n) = pageLines n := by
  refine List.filter_eq_self.mpr fun l hl => ?_
  obtain ⟨i, -, rfl⟩ := List.mem_map.mp hl
  have hlimit : MAPS_LOW_LIMIT.toNat = 0x100000 := rfl
  simp only [pageLine, IsLow, HostLine.maps, BitVec.lt_def, BitVec.toNat_ofNat, hlimit,
    decide_eq_true_eq]
  omega

theorem snapshotRight_iff_pageLines :
    SnapshotRight (fun _ => ⟨⟨0, 0, 0⟩, []⟩) ⟨fun _ => ⟨0, 0, 0⟩, 0⟩ (pageLines 64) ↔
      (lowLines (pageLines 64)).length < MAPS_MAX_SIZE ∧
          (∀ l ∈ lowLines (pageLines 64), l.stop.toNat < 2 ^ 63) ∨
        (pageLines 64).length ≤ MAPS_MAX_SIZE ∧
          MAPS_MAX_SIZE ≤ (lowLines (pageLines 64)).length :=
  snapshotRight_iff _ _ (pageLines 64)
    (fun l hl => fits_pageLines 64 l (List.mem_of_mem_take hl)) (pairwise_pageLines 64)

theorem snapshotRight_not_of_pageLines :
    ¬ ∀ (heap : Nat → Mapping) (s : LowMemory) (lines : List HostLine),
      (∀ l ∈ lines, l.Fits) → lines.Pairwise (fun a b => a.start ≤ b.start) →
        SnapshotRight heap s lines := by
  intro h
  have hright := h (fun _ => ⟨⟨0, 0, 0⟩, []⟩) ⟨fun _ => ⟨0, 0, 0⟩, 0⟩ (pageLines 65)
    (fits_pageLines 65) (pairwise_pageLines 65)
  have hlength : (pageLines 65).length = 65 := by simp [pageLines]
  have hroom := room_of_snapshotRight
    (fun l hl => fits_pageLines 65 l (List.mem_of_mem_take hl)) (pairwise_pageLines 65) hright
  rw [lowLines_pageLines, hlength] at hroom
  rcases hroom with ⟨hlow, -⟩ | ⟨hlines, -⟩
  · exact absurd hlow (by decide)
  · exact absurd hlines (by decide)

end KernelMemVirt.Janus
