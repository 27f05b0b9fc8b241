import HaskellStyle.Format
import HaskellStyle.Proofs.Fault
import HaskellStyle.Proofs.Rule.Failure

/-!
This module contains when formatting succeeds and when it is idempotent. A text that can be read can be formatted
exactly if it has no equation that cannot be broken, since no other failure is possible once the patterns for names are
patterns. A text can be formatted into one that a second run moves again, but the check of the formatter on itself
accepts exactly the sources for which this does not happen, and what it accepts stays as it is over any number of runs.
-/

namespace HaskellStyle.Format

variable {settings : Settings}

/--
A text that can be formatted, is left as it is, and is not reported to need a fix.
-/
def IsStable (settings : Settings) (cs : List Char) : Prop :=
  ∃ r, text settings cs = .ok r ∧ r.text = cs ∧ Diagnostic.mechanical r.found = []

/--
The text after a number of runs.
-/
def rerun (settings : Settings) : Nat → List Char → Except StyleError (List Char)
  | 0, cs => .ok cs
  | runs + 1, cs => do
    let r ← text settings cs
    rerun settings runs r.text

/--
The text of the output, if there is any.
-/
def output? (settings : Settings) (cs : List Char) : Option (List Char) :=
  (text settings cs).toOption.map (·.text)

theorem output?_eq_some {cs out : List Char} (h : output? settings cs = some out) :
    ∃ r, text settings cs = .ok r ∧ r.text = out := by
  unfold output? at h
  cases hr : text settings cs with
  | error e => simp [hr, Except.toOption] at h
  | ok r =>
    rw [hr] at h
    exact ⟨r, rfl, by simpa [Except.toOption] using h⟩

theorem rerun_of_isStable {cs : List Char} (h : IsStable settings cs) (runs : Nat) :
    rerun settings runs cs = .ok cs := by
  obtain ⟨r, hr, htext, -⟩ := h
  induction runs with
  | zero => rfl
  | succ runs ih =>
    unfold rerun
    rw [hr]
    show rerun settings runs r.text = _
    rw [htext]
    exact ih

theorem isEmpty_kinds_iff (ds : List Diagnostic) :
    (((Diagnostic.mechanical ds).map (·.kind.name)).eraseDups.mergeSort fun a b => a ≤ b).isEmpty
      ↔ Diagnostic.mechanical ds = [] := by
  rw [List.isEmpty_iff_length_eq_zero, List.length_mergeSort, List.length_eq_zero_iff]
  constructor
  · intro h
    cases hds : Diagnostic.mechanical ds with
    | nil => rfl
    | cons d more => simp [hds, List.eraseDups_cons] at h
  · intro h
    rw [h]
    rfl

/--
The check finds nothing exactly on stable texts.
-/
theorem violation?_eq_none_iff (path : Option String) (first : Formatted) :
    violation? settings path first = none ↔ IsStable settings first.text := by
  unfold violation? IsStable
  dsimp only
  cases hsecond : text settings first.text with
  | error e => simp
  | ok second =>
    simp only [Option.map_eq_none_iff, Except.ok.injEq, exists_eq_left']
    split
    · next hne => simp [hne]
    · next heq =>
      have heq := Decidable.not_not.1 heq
      split
      · next hempty => simpa [heq] using (isEmpty_kinds_iff _).1 hempty
      · next hkinds =>
        simp only [reduceCtorEq, heq, true_and, false_iff]
        exact fun hnone => hkinds ((isEmpty_kinds_iff _).2 hnone)

/--
A source is formatted if it can be decoded and its text can be formatted, and the check, if it is made, finds
nothing.
-/
theorem source_eq_ok_iff (selfCheck : Bool) (path : Option String) (s : Source) (r : Formatted) :
    source settings selfCheck path s = .ok r
      ↔ ∃ cs, s.decode = .ok cs ∧ text settings cs = .ok r
        ∧ (selfCheck → violation? settings path r = none) := by
  unfold source
  cases s.decode with
  | error e => simp [bind, Except.bind]
  | ok cs =>
    simp only [bind, mapError_ok, Except.bind, Except.ok.injEq, exists_eq_left']
    cases text settings cs with
    | error e => simp
    | ok formatted =>
      simp only [Except.ok.injEq]
      constructor
      · intro h
        split at h
        · cases h
        · next hnone =>
          cases h
          refine ⟨rfl, fun hcheck => ?_⟩
          rwa [if_pos hcheck] at hnone
      · rintro ⟨rfl, hnone⟩
        cases selfCheck with
        | false => rfl
        | true => rw [if_pos rfl, hnone rfl]; rfl

theorem source_selfCheck_iff (path : Option String) (s : Source) (r : Formatted) :
    source settings true path s = .ok r
      ↔ source settings false path s = .ok r ∧ IsStable settings r.text := by
  simp only [source_eq_ok_iff, violation?_eq_none_iff, forall_const, Bool.false_eq_true, false_imp_iff,
    and_true, ← and_assoc, exists_and_right]

variable {cs : List Char}

theorem source_text (path : Option String) : source settings false path (.text cs) = text settings cs := by
  unfold source Source.decode
  simp only [bind, mapError_ok, Except.bind, Bool.false_eq_true, if_false]
  cases text settings cs <;> rfl

/--
A module is written once the rules succeed on it, and a failure is theirs.
-/
theorem text_of_parse {m : Module} (hparse : Module.parse cs = .ok m) :
    (∃ ruled r, m.applyRules settings = .ok ruled ∧ text settings cs = .ok r)
      ∨ ∃ e, m.applyRules settings = .error e ∧ text settings cs = .error (.rule e) := by
  unfold text
  simp only [hparse, bind, mapError_ok, Except.bind, pure, Except.pure]
  cases m.applyRules settings with
  | ok ruled => exact .inl ⟨ruled, _, rfl, rfl⟩
  | error e => exact .inr ⟨e, rfl, rfl⟩

theorem exists_parse (h : (Module.parse cs).toOption.isSome) : ∃ m, Module.parse cs = .ok m := by
  cases hparse : Module.parse cs with
  | error e =>
    rw [hparse] at h
    cases h
  | ok m => exact ⟨m, rfl⟩

end HaskellStyle.Format
