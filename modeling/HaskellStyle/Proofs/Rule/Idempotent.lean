import HaskellStyle.Proofs.Rule.Indent
import HaskellStyle.Proofs.Rule.Layout
import HaskellStyle.Proofs.Rule.PragmaRun

/-!
This module contains that rules have nothing left to do on what they made of a module. The rule for imports is no part
of this: it copies an import whose origin the settings name twice, and copies it again.
-/

namespace HaskellStyle

variable {settings : Settings}

namespace Indent

section Placements

variable (placements : List (Nat × Placement)) (offset : Nat) (placement : Placement)

/--
How often an offset has a placement.
-/
def countOf : Nat :=
  placements.countP (·.1 = offset)

theorem countOf_insertPlacement (other : Nat) :
    countOf (insertPlacement placements offset placement) other
      = if other = offset then 1 else countOf placements other := by
  unfold insertPlacement countOf
  rw [List.countP_cons, List.countP_filter]
  by_cases hother : other = offset
  · have hnone : placements.countP (fun x => decide (x.1 = other) && decide (x.1 ≠ offset)) = 0 := by
      rw [List.countP_eq_zero]
      simp [hother]
    rw [hnone, if_pos (by simp [hother]), if_pos hother]
  · rw [if_neg (by simpa using Ne.symm hother), if_neg hother, Nat.add_zero]
    refine List.countP_congr fun x _ => ?_
    simp +contextual [hother]

theorem length_insertPlacement :
    (insertPlacement placements offset placement).length + countOf placements offset = placements.length + 1 := by
  have hsplit := List.length_eq_countP_add_countP (fun x : Nat × Placement => x.1 = offset) (l := placements)
  have hothers : placements.countP (fun x => decide ¬decide (x.1 = offset) = true)
      = (placements.filter (·.1 ≠ offset)).length := by
    rw [← List.countP_eq_length_filter]
    refine List.countP_congr fun x _ => ?_
    simp
  rw [insertPlacement, List.length_cons, countOf, hsplit, hothers]
  omega

/--
Adds placements one after the other.
-/
def insertAll (entries : List (Nat × Placement)) : List (Nat × Placement) :=
  entries.foldl (fun result x => insertPlacement result x.1 x.2) placements

variable {placements}

theorem countOf_insertAll {entries : List (Nat × Placement)} {offset : Nat}
    (h : offset ∈ entries.map Prod.fst ∨ countOf placements offset = 1) :
    countOf (insertAll placements entries) offset = 1 := by
  induction entries generalizing placements with
  | nil => exact h.resolve_left List.not_mem_nil
  | cons x entries ih =>
    refine @ih (insertPlacement placements x.1 x.2) ?_
    rw [countOf_insertPlacement]
    split
    · exact .inr rfl
    · next hne =>
      rw [List.map_cons, List.mem_cons, or_assoc] at h
      exact h.resolve_left hne

theorem length_insertAll {entries : List (Nat × Placement)} (h : ∀ x ∈ entries, countOf placements x.1 = 1) :
    (insertAll placements entries).length = placements.length := by
  induction entries generalizing placements with
  | nil => rfl
  | cons x entries ih =>
    obtain ⟨hx, hentries⟩ := List.forall_mem_cons.1 h
    have hlength := length_insertPlacement placements x.1 x.2
    have hmore := @ih (insertPlacement placements x.1 x.2) fun y hy => by
      rw [countOf_insertPlacement, hentries y hy, ite_self]
    exact hmore.trans (by omega)

/--
Placements that were added are only replaced when they are added again.
-/
theorem length_insertAll_insertAll (placements entries : List (Nat × Placement)) :
    (insertAll (insertAll placements entries) entries).length = (insertAll placements entries).length :=
  length_insertAll fun _ hx => countOf_insertAll (.inl (List.mem_map_of_mem hx))

end Placements

/--
The placements of a plan, in the order in which they are added.
-/
def entries (g : Grid) (plan : Plan) : List (Nat × Placement) :=
  plan.columns.reverse.filterMap fun (index, _) =>
    let t := g.get index
    let column := (plan.columns.lookup index).getD t.column
    let isBreak := plan.breaks.contains index
    if column ≠ t.column || isBreak then some (t.offset, ⟨column, isBreak⟩) else none

theorem placements_eq (g : Grid) (plan : Plan) (earlier : List (Nat × Placement)) :
    placements g plan earlier = insertAll earlier (entries g plan) := by
  unfold placements insertAll entries
  rw [List.foldl_filterMap]
  congr 1
  funext result x
  dsimp only
  split <;> rfl

/--
What the rule does to a module depends on the placements that it has only in that they are kept.
-/
theorem module_apply_apply (m : Module) :
    (apply settings (apply settings m).module).module = (apply settings m).module := by
  have happly := module_apply_eq settings m
  dsimp only at happly
  split at happly
  · rw [happly, happly]
  · rw [happly, module_apply_eq]
    refine if_pos ?_
    simp only [placements_eq]
    exact length_insertAll_insertAll m.placements _

end Indent

theorem PragmaOrder.module_apply_apply (m : Module) :
    (apply settings (apply settings m).module).module = (apply settings m).module := by
  have hreorders : reorders (apply settings m).module = false := by
    rw [module_apply_eq]
    unfold reorders
    dsimp only
    cases hnormalized : m.pragmasNormalized <;> cases hempty : m.headerPragmas.isEmpty <;>
      cases hall : m.headerPragmas.tail.all (·.token.leading.ownLineOnly) <;> simp [hempty, hall]
  have hpin : (if pins (apply settings m).module.declarations then pin (apply settings m).module.declarations
      else (apply settings m).module.declarations) = (apply settings m).module.declarations := by
    rw [module_apply_eq]
    dsimp only
    cases hpins : pins m.declarations with
    | true => rw [if_pos rfl, pin_pin, ite_self]
    | false => rw [if_neg Bool.false_ne_true, hpins, if_neg Bool.false_ne_true]
  rw [module_apply_eq settings (apply settings m).module, hreorders, hpin, Bool.or_false]
  rfl

namespace DerivingFormat

theorem normalize_normalize (d : DataDecl) (layout : ListLayout) :
    normalize settings (normalize settings d layout) layout = normalize settings d layout := by
  have hlength : (normalize settings d layout).derivings.length = d.derivings.length := List.length_map _
  have hkeywords : (normalize settings d layout).derivings.map (·.flatKeyword.length)
      = d.derivings.map (·.flatKeyword.length) := by
    rw [normalize, List.map_map]
    rfl
  rw [normalize, hlength, hkeywords]
  simp only [normalize, List.map_map]
  rfl

theorem declaration_declaration (p q : Printer) (d : Declaration) (notes notes' : Notes) :
    (declaration settings q (declaration settings p d notes).1 notes').1 = (declaration settings p d notes).1 := by
  cases d with
  | data decl =>
    unfold declaration
    dsimp only
    cases hlayout : decl.layout with
    | none => simp [hlayout]
    | some layout =>
      cases hderivings : decl.derivings with
      | nil => simp [hlayout, hderivings]
      | cons first more =>
        have hlayout' : (normalize settings decl layout).layout = some layout := hlayout
        have hderivings' : (normalize settings decl layout).derivings
            = { first with parenthesize := true } :: more.map fun clause => { clause with parenthesize := true } := by
          rw [normalize, hderivings]
          rfl
        simp only [hlayout', hderivings', normalize_normalize]
  | importing | pragma | signature | clause | raw => rfl

theorem declarations_declarations (p q : Printer) (ds : List Declaration) (notes notes' : Notes) :
    (declarations settings q (declarations settings p ds notes).1 notes').1 = (declarations settings p ds notes).1 := by
  induction ds generalizing notes notes' with
  | nil => rfl
  | cons d ds ih => exact congrArg₂ List.cons (declaration_declaration p q d _ _) (ih _ _)

theorem module_apply_apply (m : Module) :
    (apply settings (apply settings m).module).module = (apply settings m).module :=
  congrArg (fun ds => { (apply settings m).module with declarations := ds : Module })
    (declarations_declarations _ _ m.declarations _ _)

end DerivingFormat

namespace Rule

/--
A rule other than the one for imports leaves a module to which it was applied as it is. This is so for every module,
with whatever layouts, placements and pinned pragmas.
-/
theorem apply_again {rule : Rule} {m : Module} {result : RuleResult} (hrule : rule ≠ .importOrder)
    (h : rule.apply settings m = .ok result) :
    ∃ again, rule.apply settings result.module = .ok again ∧ again.module = result.module := by
  cases rule with
  | indentation =>
    cases h
    exact ⟨_, rfl, Indent.module_apply_apply m⟩
  | alignment => exact Align.apply_apply h
  | importOrder => exact absurd rfl hrule
  | pragmaPlacement =>
    cases h
    exact ⟨_, rfl, PragmaOrder.module_apply_apply m⟩
  | strictnessDeriving =>
    cases h
    exact ⟨_, rfl, DerivingFormat.module_apply_apply m⟩
  | naming =>
    have hmodule := Names.module_apply h
    refine ⟨result, ?_, rfl⟩
    rw [hmodule]
    exact h

/--
A block that is moved once, in a module that was laid out and pinned before.
-/
theorem apply_again_block :
    ∃ m₀ m result, Module.parse "\x7b-# INLINE f #-\x7d\nf = do\n      x\ng = f\n".toList = .ok m₀
      ∧ m₀.afterRules {} [.pragmaPlacement, .alignment] = .ok m
      ∧ indentation ≠ importOrder ∧ indentation.apply {} m = .ok result
      ∧ result.module.placements = [(30, ⟨2, false⟩)]
      ∧ ∃ again, indentation.apply {} result.module = .ok again ∧ again.module = result.module := by
  have hplaced : (Module.parse "\x7b-# INLINE f #-\x7d\nf = do\n      x\ng = f\n".toList).toOption.bind
      (fun m₀ => (m₀.afterRules {} [.pragmaPlacement, .alignment]).toOption.bind fun m =>
        (indentation.apply {} m).toOption.map fun result =>
          decide (result.module.placements = [(30, ⟨2, false⟩)])) = some true := by
    decide +kernel
  obtain ⟨m₀, hm₀, hplaced⟩ := Option.bind_eq_some_iff.1 hplaced
  obtain ⟨m, hm, hplaced⟩ := Option.bind_eq_some_iff.1 hplaced
  obtain ⟨result, hresult, hplaced⟩ := Option.map_eq_some_iff.1 hplaced
  have hrule : indentation ≠ importOrder := by decide
  have happly := toOption_eq_some hresult
  exact ⟨m₀, m, result, toOption_eq_some hm₀, toOption_eq_some hm, hrule, happly, of_decide_eq_true hplaced,
    apply_again hrule happly⟩

end Rule

end HaskellStyle
