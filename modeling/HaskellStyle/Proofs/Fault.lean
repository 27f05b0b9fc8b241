import HaskellStyle.Fault

/-!
This module contains what is left of an outcome when the reason of a failure is forgotten.
-/

namespace HaskellStyle

variable {ε ε' α β : Type}

theorem toOption_eq_some {x : Except ε α} {a : α} (h : x.toOption = some a) : x = .ok a := by
  cases x with
  | error e => cases h
  | ok b =>
    cases h
    rfl

/--
What a computation gives, with what evaluation confirms of it.
-/
def sample (x : Except ε α) (P : α → Prop) [DecidablePred P] (h : x.toOption.any fun a => decide (P a)) :
    { a // x = .ok a ∧ P a } :=
  match x, h with
  | .ok a, h => ⟨a, rfl, of_decide_eq_true h⟩

theorem toOption_eq_none {x : Except ε α} : x.toOption = none ↔ ∃ e, x = .error e := by
  cases x with
  | error e => exact ⟨fun _ => ⟨e, rfl⟩, fun _ => rfl⟩
  | ok a => exact ⟨nofun, nofun⟩

@[simp] theorem toOption_ok (a : α) : (Except.ok a : Except ε α).toOption = some a := rfl

@[simp] theorem toOption_error (e : ε) : (Except.error e : Except ε α).toOption = none := rfl

@[simp] theorem toOption_pure (a : α) : (pure a : Except ε α).toOption = some a := rfl

@[simp] theorem mapError_ok (f : ε → ε') (a : α) : (Except.ok a : Except ε α).mapError f = .ok a := rfl

@[simp] theorem mapError_error (f : ε → ε') (e : ε) : (Except.error e : Except ε α).mapError f = .error (f e) := rfl

@[simp] theorem toOption_map (x : Except ε α) (f : α → β) : (x.map f).toOption = x.toOption.map f := by
  cases x <;> rfl

@[simp] theorem toOption_bind (x : Except ε α) (f : α → Except ε β) :
    (x >>= f).toOption = x.toOption.bind fun a => (f a).toOption := by
  cases x <;> rfl

@[simp] theorem toOption_mapError (x : Except ε α) (f : ε → ε') : (x.mapError f).toOption = x.toOption := by
  cases x <;> rfl

theorem map_eq_ok {x : Except ε α} {f : α → β} {b : β} (h : x.map f = .ok b) : ∃ a, x = .ok a ∧ f a = b := by
  cases x with
  | error e => cases h
  | ok a =>
    cases h
    exact ⟨a, rfl, rfl⟩

theorem mapError_eq_ok {x : Except ε α} {f : ε → ε'} {a : α} (h : x.mapError f = .ok a) : x = .ok a := by
  cases x with
  | error e => cases h
  | ok b =>
    cases h
    rfl

/--
Two runs that agree on what is compared of their first steps agree as a whole if their other steps do.
-/
theorem map_bind_congr {α' β' γ δ : Type} {x : Except ε α} {y : Except ε α'} {f : α → γ} {g : α' → γ} {k : α → Except ε β}
    {k' : α' → Except ε β'} {f' : β → δ} {g' : β' → δ} (h : x.map f = y.map g)
    (hmore : ∀ a a', f a = g a' → (k a).map f' = (k' a').map g') : (x >>= k).map f' = (y >>= k').map g' := by
  cases x with
  | error e =>
    cases y with
    | error e' => exact congrArg Except.error (Except.error.inj h)
    | ok a' => cases h
  | ok a =>
    cases y with
    | error e' => cases h
    | ok a' => exact hmore a a' (Except.ok.inj h)

end HaskellStyle
