import KernelMemVirt.Rackdoll.Printk

/-!
# Formats that end in a conversion

Where a format ends after the flags, the width or the letter `l` of a conversion,
`vhprintk_read_format` has read the NUL already, and its cursor points one place after it.
The loop of `vhprintk` goes on reading there.

* `readFormat_reads`, from `Rackdoll.Printk`: `vhprintk_read_format` itself reads nothing
  after the NUL.
* `vhprintkLoop_of_cut`: the loop does, after a conversion that is cut off.
* `staysInside_iff_complete`: no call leaves its format exactly when the format is complete.
-/

namespace KernelMemVirt.Rackdoll.Printk

section Loop

variable {σ : Type} {h : Handler σ}

/-- A handler that accepts every character never stops the interpreter. -/
theorem stop_printAll_of_accepts (haccept : ∀ s c, (h s c).2 = true) {st : PrintState σ}
    (hstop : st.stop = false) (text : List Byte) : (printAll h st text).stop = false := by
  obtain ⟨user, done, stop⟩ := st
  subst hstop
  rw [printAll_of_accepts haccept]

/-- The loop goes past the NUL of a format whose last conversion has no type. -/
theorem vhprintkLoop_of_cut (haccept : ∀ s c, (h s c).2 = true) (args : Args) {fuel : Nat}
    (st : PrintState σ) (hstop : st.stop = false) (va : Nat) (fmt : Bool) {input : List Byte}
    (hfuel : input.length < fuel)
    (hcut : ¬ ((if fmt then Phase.percent else .text).after input).IsEnd) :
    vhprintkLoop h args fuel st va fmt (some input) = .error .pastEnd := by
  induction fuel generalizing st va fmt input with
  | zero => omega
  | succ fuel ih =>
    cases input with
    | nil =>
      apply absurd _ hcut
      cases fmt
      · exact Or.inl rfl
      · exact Or.inr rfl
    | cons c input =>
      have hlen : input.length < fuel := Nat.lt_of_succ_lt_succ hfuel
      rw [Phase.after_cons] at hcut
      rw [vhprintkLoop, if_neg (by rw [hstop]; decide)]
      by_cases hfirst : c = chr '%' ∧ fmt = false
      · rw [if_pos hfirst]
        obtain ⟨rfl, rfl⟩ := hfirst
        exact ih st hstop va true hlen hcut
      rw [if_neg hfirst]
      by_cases hplain : c = chr '%' ∨ fmt = false
      · rw [next_of_plain hfirst hplain] at hcut
        rw [if_pos hplain]
        exact ih _ (stop_printAll_of_accepts haccept hstop [c]) va false hlen hcut
      · rw [after_of_not_plain hplain] at hcut
        obtain ⟨f, rest, hread, hreads⟩ := readFormat_reads (c :: input)
        rw [if_neg hplain, hread]
        simp only [bind, Except.bind, convert_eq]
        cases rest with
        | none =>
          obtain ⟨fuel, rfl⟩ : ∃ n, fuel = n + 1 := Nat.exists_eq_add_one.mpr (by omega)
          rfl
        | some rest =>
          obtain ⟨hlen', hafter⟩ := hreads
          rw [List.length_cons] at hlen'
          rw [hafter] at hcut
          exact ih _ (stop_printAll_of_accepts haccept hstop _) _ false (by omega) hcut

end Loop

/-- A call stays inside its format: `vhprintk_read_format` reads no character after the NUL,
wherever it starts, and `vhprintk` reads none and returns. -/
def StaysInside {σ : Type} (h : Handler σ) (args : Args) (user : σ) (format : CString) : Prop :=
  (∀ input, input <:+ format.bytes → ∃ read, readFormat input = .ok read) ∧
    ∃ result, vhprintk h args user format = .ok result

section StaysInside

variable {σ : Type} {h : Handler σ}

theorem staysInside_of_complete {format : CString} (hcomplete : Complete format.bytes)
    (h : Handler σ) (args : Args) (user : σ) : StaysInside h args user format := by
  constructor
  · intro input _
    obtain ⟨f, rest, hread, -⟩ := readFormat_reads input
    exact ⟨(f, rest), hread⟩
  · obtain ⟨text, htext⟩ := vhprintkLoop_eq_emit args 0 false
      (show format.bytes.length < format.bytes.length + 2 by omega) hcomplete
    rw [vhprintk, htext]
    exact ⟨_, rfl⟩

theorem not_staysInside_of_cut (haccept : ∀ s c, (h s c).2 = true) {format : CString}
    (hcut : ¬ Complete format.bytes) (args : Args) (user : σ) :
    ¬ StaysInside h args user format := by
  rintro ⟨-, result, hresult⟩
  have hpast := vhprintkLoop_of_cut haccept args ⟨user, 0, false⟩ rfl 0 false
    (show format.bytes.length < format.bytes.length + 2 by omega) hcut
  rw [vhprintk, hpast] at hresult
  cases hresult

end StaysInside

/-- Every call stays inside its format if and only if the format is complete, and so does
each call whose handler accepts every character. -/
theorem staysInside_iff_complete (format : CString) :
    ((∀ (σ : Type) (h : Handler σ) (args : Args) (user : σ), StaysInside h args user format) ↔
        Complete format.bytes) ∧
      ∀ (σ : Type) (h : Handler σ) (args : Args) (user : σ), (∀ s c, (h s c).2 = true) →
        (StaysInside h args user format ↔ Complete format.bytes) := by
  have heach : ∀ (σ : Type) (h : Handler σ) (args : Args) (user : σ),
      (∀ s c, (h s c).2 = true) → (StaysInside h args user format ↔ Complete format.bytes) := by
    intro σ h args user haccept
    constructor
    · intro hinside
      by_contra hcut
      exact not_staysInside_of_cut haccept hcut args user hinside
    · intro hcomplete
      exact staysInside_of_complete hcomplete h args user
  refine ⟨⟨fun hall => ?_, fun hcomplete σ h args user => ?_⟩, heach⟩
  · have hunit := hall Unit (fun _ _ => ((), true)) ⟨fun _ => 0, fun _ => format⟩ ()
    exact (heach _ _ _ _ fun _ _ => rfl).mp hunit
  · exact staysInside_of_complete hcomplete h args user

/-- The format `"%l"`, given to a console that counts its characters. -/
theorem staysInside_iff_complete_long :
    let format : CString := ⟨[chr '%', chr 'l'], by decide, by decide⟩
    ∀ args : Args, StaysInside (vprintkHandler fun (n : Nat) _ => n + 1) args 0 format ↔
      Complete format.bytes :=
  fun args => (staysInside_iff_complete _).2 _ _ args 0 fun _ _ => rfl

/-- The format `"%5"`, given to the console. -/
theorem staysInside_not_of_width :
    ¬ ∀ (format : CString) (args : Args) (putc : Unit → Byte → Unit),
      StaysInside (vprintkHandler putc) args () format := by
  intro hall
  have hwidth := hall ⟨[chr '%', chr '5'], by decide, by decide⟩
    ⟨fun _ => 0, fun _ => ⟨[], by decide, by decide⟩⟩ fun _ _ => ()
  exact not_staysInside_of_cut (fun _ _ => rfl) (by decide) _ _ hwidth

end KernelMemVirt.Rackdoll.Printk
