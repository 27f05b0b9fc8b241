import HaskellStyle.Proofs.Rule.Apply
import HaskellStyle.Proofs.Rule.Move

/-!
This module contains what the rules do to the regions of a module. Neither the order of header pragmas nor that of
imports moves a token to the other side of a directive, so the regions of a module are kept exactly if no import is
copied and no pragma about a binder leaves its region.
-/

namespace HaskellStyle

variable {settings : Settings}

open Event

theorem minBy_least {α : Type} {key : α → Nat} {xs : List α} {x : α} (h : minBy key xs = some x) :
    x ∈ xs ∧ ∀ y ∈ xs, key x ≤ key y := by
  induction xs generalizing x with
  | nil => cases h
  | cons first more ih =>
    rw [minBy] at h
    cases hmin : minBy key more with
    | none =>
      rw [hmin] at h
      cases h
      rw [Module.minBy_eq_none hmin]
      simp
    | some y =>
      obtain ⟨hmem, hleast⟩ := ih hmin
      rw [hmin] at h
      dsimp only at h
      split at h
      · next hlt =>
        cases h
        refine ⟨List.mem_cons_of_mem _ hmem, List.forall_mem_cons.2 ⟨Nat.le_of_lt hlt, hleast⟩⟩
      · next hle =>
        cases h
        refine ⟨List.mem_cons_self, List.forall_mem_cons.2 ⟨Nat.le_refl _, fun z hz => ?_⟩⟩
        exact Nat.le_trans (Nat.le_of_not_lt hle) (hleast z hz)

theorem minBy_eq_some {α : Type} {key : α → Nat} {xs : List α} {x : α} (hx : x ∈ xs)
    (hleast : ∀ y ∈ xs, y = x ∨ key x < key y) : minBy key xs = some x := by
  cases hmin : minBy key xs with
  | none =>
    rw [Module.minBy_eq_none hmin] at hx
    cases hx
  | some y =>
    obtain ⟨hy, hle⟩ := minBy_least hmin
    rcases hleast y hy with rfl | hlt
    · rfl
    · exact absurd hlt (Nat.not_lt_of_le (hle x hx))

theorem Trivia.hasDirective_of_ownLineOnly {trivia : Trivia} (h : trivia.ownLineOnly) :
    trivia.hasDirective = false := by
  unfold ownLineOnly at h
  exact Bool.not_eq_true' _ ▸ (Bool.and_eq_true_iff.1 h).1

/--
Header pragmas can be put in any order if no directive stands between them.
-/
theorem Module.rearranged_pragmaEvents {first : Pragma} {more sorted : List Pragma} (hperm : sorted.Perm (first :: more))
    (hordered : ∀ p ∈ more, first.token.offset < p.token.offset)
    (htrailing : ∀ p ∈ first :: more, p.token.trailing.hasDirective = false)
    (hleading : ∀ p ∈ more, p.token.leading.hasDirective = false) :
    Rearranged (pragmaEvents false (first :: more)) (pragmaEvents true sorted) := by
  have hmem {p : Pragma} : p ∈ sorted ↔ p = first ∨ p ∈ more := by rw [hperm.mem_iff, List.mem_cons]
  have hmin : minBy (·.token.offset) sorted = some first :=
    minBy_eq_some (hmem.2 (.inl rfl)) fun p hp => (hmem.1 hp).imp_right (hordered p)
  have hnew : pragmaEvents true sorted
      = first.token.leading.directives.map .directive ++ (sorted.map (·.token)).map .token := by
    rw [pragmaEvents, if_pos rfl, hmin]
    dsimp only
    rw [List.map_map]
    refine congrArg _ (.trans (List.flatMap_congr fun p hp => ?_) List.map_eq_flatMap.symm)
    have hinside := eventsInside_eq (htrailing p (hperm.mem_iff.1 hp))
    rcases hmem.1 hp with rfl | hp
    · rw [if_pos rfl, hinside]
      rfl
    · rw [if_neg (Nat.ne_of_gt (hordered p hp)), Event.events_eq (hleading p hp) (htrailing p (List.mem_cons_of_mem _ hp))]
      rfl
  have hold : pragmaEvents false (first :: more)
      = first.token.leading.directives.map .directive ++ ((first :: more).map (·.token)).map .token := by
    have hmore : ofTokens (more.map (·.token)) = (more.map (·.token)).map .token :=
      ofTokens_eq (List.forall_mem_map.2 hleading)
        (List.forall_mem_map.2 fun p hp => htrailing p (List.mem_cons_of_mem _ hp))
    rw [pragmaEvents, if_neg Bool.false_ne_true, List.map_cons, ofTokens, List.flatMap_cons, Token.events,
      eventsInside_eq (htrailing first List.mem_cons_self), List.append_assoc]
    exact congrArg (fun es => _ ++ ([Event.token first.token] ++ es)) hmore
  rw [hold, hnew]
  exact (Rearranged.refl _).append (rearranged_of_perm (hperm.map _))

theorem ImportOrder.rearranged_imports {m : Module} (hread : m.AsRead) (h : NamedOnce settings m) :
    Rearranged (ofTokens (m.importDecls.flatMap tokens))
      (ofTokens ((apply settings m).module.importDecls.flatMap tokens)) := by
  have hperm := importDecls_apply_perm h
  rw [module_apply] at hperm ⊢
  split
  · next hregroups =>
    rw [if_pos hregroups] at hperm
    have htokens := hperm.flatMap_right tokens
    have hleading := hread.imports (Bool.and_eq_true_iff.1 hregroups).1
    have htrailing (t : Token) (ht : t ∈ m.importDecls.flatMap tokens) : t.trailing.hasDirective = false := by
      refine hread.trailing t ?_
      rw [Module.tokens_eq_append]
      simp [ht]
    rw [ofTokens_eq hleading htrailing, ofTokens_eq (fun t ht => hleading t (htokens.mem_iff.1 ht))
      (fun t ht => htrailing t (htokens.mem_iff.1 ht))]
    exact rearranged_of_perm htokens
  · exact .refl _

namespace Align

section Moves

variable {ds es : List Declaration}

theorem bindersOf_declaration {d e : Declaration} (h : declaration settings d = .ok e) :
    PragmaOrder.bindersOf e = PragmaOrder.bindersOf d := by
  cases d with
  | signature s =>
    cases h
    show (signature settings s).binders = s.binders
    unfold signature
    dsimp only
    split
    · rfl
    · split
      · rfl
      · split <;> rfl
  | clause c layout =>
    obtain ⟨_, rfl⟩ := declaration_clause h
    rfl
  | data | importing | pragma | raw =>
    cases h
    rfl

theorem firstToken_declaration {d e : Declaration} (h : declaration settings d = .ok e) :
    firstToken e = firstToken d := by
  have htokens : tokens e = tokens d := congrArg Prod.fst (contents_declaration h)
  obtain ⟨t, ts, hd⟩ := List.exists_cons_of_ne_nil d.tokens_ne_nil
  rw [firstToken, firstToken, htokens, hd]
  rfl

theorem alike_declaration {d e : Declaration} (h : declaration settings d = .ok e) : PragmaOrder.Alike d e where
  bindersOf_eq := bindersOf_declaration h
  firstToken_eq := firstToken_declaration h
  pragma_iff p := by
    cases d with
    | clause c layout =>
      obtain ⟨_, rfl⟩ := declaration_clause h
      simp
    | data | importing | signature | pragma | raw =>
      cases h
      simp

variable (h : List.Forall₂ (fun d e => declaration settings d = .ok e) ds es)

include h in
theorem alike_declarations : List.Forall₂ PragmaOrder.Alike ds es :=
  h.imp fun _ _ => alike_declaration

include h in
theorem moves_eq : PragmaOrder.moves es = PragmaOrder.moves ds := by
  have hmoves (ds : List Declaration) : PragmaOrder.moves ds
      = (ds.map (PragmaOrder.moved? ds)).zipIdx.filterMap fun x => x.1.map fun y => ⟨x.2, y.1, y.2⟩ := by
    rw [PragmaOrder.moves, List.zipIdx_map, List.filterMap_map]
    rfl
  rw [hmoves, hmoves, PragmaOrder.map_moved?_eq (alike_declarations h)]

include h in
/--
Laying out changes nothing on which the moving of pragmas depends.
-/
theorem keepsRegions_iff : PragmaOrder.KeepsRegions es ↔ PragmaOrder.KeepsRegions ds := by
  have hbefore (index : Nat) : PragmaOrder.directivesBefore es index = PragmaOrder.directivesBefore ds index := by
    have htokens := congrArg (fun contents => (contents.take index).flatMap Prod.fst) (contents_declarations h)
    rw [← List.map_take, ← List.map_take, List.flatMap_map, List.flatMap_map] at htokens
    exact congrArg (fun ts => (directives (ofTokens ts)).length) htokens
  unfold PragmaOrder.KeepsRegions
  simp only [PragmaOrder.pins_eq (alike_declarations h), moves_eq h, hbefore]

end Moves

theorem flatMap_tokens_eq {m : Module} {result : RuleResult} (h : apply settings m = .ok result) :
    result.module.importDecls.flatMap tokens = m.importDecls.flatMap tokens
      ∧ result.module.declarations.flatMap tokens = m.declarations.flatMap tokens := by
  constructor
  · rw [importDecls_eq h, List.flatMap_map]
    exact List.flatMap_congr fun i _ => tokens_importDecl settings i
  · obtain ⟨ds, hds, hmodule⟩ := apply_ok h
    have hcontents := congrArg (List.flatMap Prod.fst) (contents_declarations hds)
    rw [List.flatMap_map, List.flatMap_map] at hcontents
    rw [hmodule]
    exact hcontents

theorem events_eq {m : Module} {result : RuleResult} (h : apply settings m = .ok result) :
    result.module.events = m.events := by
  obtain ⟨himports, hdecls⟩ := flatMap_tokens_eq h
  have hparts := keepsParts h
  obtain ⟨ds, -, hmodule⟩ := apply_ok h
  rw [Module.events, Module.events, himports, hdecls, hparts.header, hparts.eof]
  rw [hmodule]

theorem asRead {m : Module} {result : RuleResult} (h : apply settings m = .ok result) (hread : m.AsRead) :
    result.module.AsRead := by
  have htokens : tokens result.module = tokens m := by
    rw [← Module.tokensOf_events, ← Module.tokensOf_events, events_eq h]
  obtain ⟨himports, -⟩ := flatMap_tokens_eq h
  obtain ⟨ds, -, hmodule⟩ := apply_ok h
  constructor
  case pragmasNormalized =>
    rw [hmodule]
    exact hread.pragmasNormalized
  case ordered =>
    rw [htokens]
    exact hread.ordered
  case trailing =>
    rw [htokens]
    exact hread.trailing
  case imports =>
    rw [himports]
    rw [hmodule]
    exact hread.imports

end Align

namespace Module

theorem rearranged_headerPragmas {m : Module} (hread : m.AsRead) :
    Rearranged (pragmaEvents m.pragmasNormalized m.headerPragmas)
      (pragmaEvents (m.pragmasNormalized || PragmaOrder.reorders m)
        (if PragmaOrder.reorders m then m.headerPragmas.mergeSort PragmaOrder.pragmaLe else m.headerPragmas)) := by
  have hsub : (m.headerPragmas.map (·.token)).Sublist (tokens m) := by
    rw [tokens_eq_append]
    simp only [List.append_assoc]
    exact List.sublist_append_left _ _
  have hordered := hread.ordered.sublist hsub
  have htrailing := fun t ht => hread.trailing t (hsub.subset ht)
  cases hreorders : PragmaOrder.reorders m with
  | false => simpa using .refl _
  | true =>
    unfold PragmaOrder.reorders at hreorders
    cases hpragmas : m.headerPragmas with
    | nil => simp [hpragmas] at hreorders
    | cons first more =>
      rw [hpragmas] at hordered htrailing hreorders
      rw [hread.pragmasNormalized, if_pos rfl]
      refine rearranged_pragmaEvents (List.mergeSort_perm _ _) ?_ ?_ ?_
      · exact fun p hp => (List.pairwise_cons.1 hordered).1 _ (List.mem_map_of_mem hp)
      · exact List.forall_mem_map.1 htrailing
      · intro p hp
        exact Trivia.hasDirective_of_ownLineOnly (List.all_eq_true.1 (Bool.and_eq_true_iff.1 hreorders).2 p hp)

theorem events_finished (m : Module) :
    (m.finished settings).events
      = pragmaEvents (m.pragmasNormalized || PragmaOrder.reorders m)
          (if PragmaOrder.reorders m then m.headerPragmas.mergeSort PragmaOrder.pragmaLe else m.headerPragmas)
        ++ ofTokens ((m.header.map tokens).getD [])
        ++ ofTokens ((ImportOrder.apply settings m).module.importDecls.flatMap tokens)
        ++ ofTokens ((if PragmaOrder.pins m.declarations then PragmaOrder.pin m.declarations
          else m.declarations).flatMap tokens)
        ++ ofTokens [m.eof] := by
  obtain ⟨ds, hmodule, hds⟩ := DerivingFormat.module_apply settings
    (PragmaOrder.apply settings (ImportOrder.apply settings m).module).module
  have hdecls := congrArg (List.flatMap Prod.fst) hds
  rw [List.flatMap_map, List.flatMap_map] at hdecls
  rw [events, finished, hmodule]
  rw [show ds.flatMap tokens = _ from hdecls, PragmaOrder.module_apply_eq, ImportOrder.module_apply]
  split <;> rfl

section Finished

variable {m : Module} (hread : m.AsRead) (hnamed : ImportOrder.NamedOnce settings m)

include hread in
theorem hasDirective_declarations : ∀ t ∈ m.declarations.flatMap tokens, t.trailing.hasDirective = false := by
  intro t ht
  refine hread.trailing t ?_
  rw [tokens_eq_append]
  simp [ht]

include hread hnamed in
/--
Neither header pragmas nor imports go to the other side of a directive.
-/
theorem rearranged_beforeDeclarations :
    Rearranged
      (pragmaEvents m.pragmasNormalized m.headerPragmas ++ ofTokens ((m.header.map tokens).getD [])
        ++ ofTokens (m.importDecls.flatMap tokens))
      (pragmaEvents (m.pragmasNormalized || PragmaOrder.reorders m)
          (if PragmaOrder.reorders m then m.headerPragmas.mergeSort PragmaOrder.pragmaLe else m.headerPragmas)
        ++ ofTokens ((m.header.map tokens).getD [])
        ++ ofTokens ((ImportOrder.apply settings m).module.importDecls.flatMap tokens)) :=
  ((rearranged_headerPragmas hread).append (.refl _)).append (ImportOrder.rearranged_imports hread hnamed)

include hread hnamed in
/--
Once a module is laid out, nothing but pragmas about binders leaves its region.
-/
theorem rearranged_finished :
    Rearranged (without (PragmaOrder.movedTokens m.declarations) m.events)
      (without (PragmaOrder.movedTokens m.declarations) (m.finished settings).events) := by
  have hdecls : Rearranged
      (without (PragmaOrder.movedTokens m.declarations) (ofTokens (m.declarations.flatMap tokens)))
      (without (PragmaOrder.movedTokens m.declarations)
        (ofTokens ((if PragmaOrder.pins m.declarations then PragmaOrder.pin m.declarations
          else m.declarations).flatMap tokens))) := by
    unfold PragmaOrder.movedTokens
    split
    · exact PragmaOrder.rearranged_pin (hasDirective_declarations hread)
    · exact .refl _
  have hbefore := (rearranged_beforeDeclarations hread hnamed).without (PragmaOrder.movedTokens m.declarations)
  rw [events_finished, events]
  simp only [without_append] at hbefore ⊢
  exact (hbefore.append hdecls).append (.refl _)

include hread hnamed in
/--
Once a module is laid out, its regions are kept exactly if no pragma about a binder leaves its own.
-/
theorem sameRegions_finished_iff :
    SameRegions m.events (m.finished settings).events ↔ PragmaOrder.KeepsRegions m.declarations := by
  have hdeclared : (m.declarations.flatMap tokens).Sublist (tokens m) := by
    rw [tokens_eq_append, List.append_assoc]
    exact (List.sublist_append_left _ _).trans (List.sublist_append_right _ _)
  have hnodup : (m.declarations.flatMap tokens).Nodup :=
    (hread.ordered.sublist hdeclared).imp fun hlt => ne_of_apply_ne Token.offset (Nat.ne_of_lt hlt)
  have htrailing := hasDirective_declarations hread
  have hbefore := rearranged_beforeDeclarations hread hnamed
  rw [events_finished, events]
  unfold PragmaOrder.KeepsRegions
  by_cases hpins : PragmaOrder.pins m.declarations
  · rw [if_pos hpins, sameRegions_append_iff hbefore (PragmaOrder.directives_pin htrailing),
      PragmaOrder.regions_pin_perm_iff htrailing hnodup]
    exact ⟨fun h _ => h, fun h => h hpins⟩
  · rw [if_neg hpins, sameRegions_append_iff hbefore rfl]
    exact ⟨fun _ h => absurd h hpins, fun _ => .refl _⟩

end Finished

/--
Laying out comes before all that changes an order, and changes nothing on which the order depends.
-/
theorem exists_aligned {m : Module} {ruled : RuledModule} (h : m.applyRules settings = .ok ruled)
    (hread : m.AsRead) :
    ∃ aligned : Module, ruled.module = aligned.finished settings ∧ aligned.AsRead ∧ aligned.events = m.events
      ∧ (ImportOrder.NamedOnce settings aligned ↔ ImportOrder.NamedOnce settings m)
      ∧ PragmaOrder.movedTokens aligned.declarations = PragmaOrder.movedTokens m.declarations
      ∧ (PragmaOrder.KeepsRegions aligned.declarations ↔ PragmaOrder.KeepsRegions m.declarations) := by
  obtain ⟨aligned, haligned, hmodule⟩ := applyRules_ok h
  obtain ⟨placements, hindent⟩ := Indent.module_apply settings m
  have hnamed := (aligned_imports haligned).2
  rw [hindent] at haligned
  have hreadIndented : Module.AsRead { m with placements := placements } := ⟨hread.1, hread.2, hread.3, hread.4⟩
  have hread := Align.asRead haligned hreadIndented
  have hevents := Align.events_eq haligned
  obtain ⟨ds, hds, hdecls⟩ := Align.apply_ok haligned
  refine ⟨aligned.module, hmodule, hread, hevents, hnamed, ?_, ?_⟩
  · rw [hdecls]
    unfold PragmaOrder.movedTokens
    rw [PragmaOrder.pins_eq (Align.alike_declarations hds), Align.moves_eq hds]
  · rw [hdecls]
    exact Align.keepsRegions_iff hds

/--
The rules keep the regions of a module exactly if they copy no import and move no pragma to another region, and nothing
but a pragma that is moved leaves its region.
-/
theorem regions_applyRules {m : Module} {ruled : RuledModule} (h : m.applyRules settings = .ok ruled)
    (hread : m.AsRead) :
    (ImportOrder.NamedOnce settings m →
        SameRegions (without (PragmaOrder.movedTokens m.declarations) m.events)
          (without (PragmaOrder.movedTokens m.declarations) ruled.module.events))
      ∧ (SameRegions m.events ruled.module.events
        ↔ ImportOrder.NamedOnce settings m ∧ PragmaOrder.KeepsRegions m.declarations) := by
  -- An import that is copied brings tokens that the module did not have.
  have hcopied (hregions : SameRegions m.events ruled.module.events) : ImportOrder.NamedOnce settings m := by
    rw [← tokens_applyRules_perm_iff h, ← tokensOf_events, ← tokensOf_events]
    exact hregions.tokensOf_perm
  obtain ⟨aligned, hmodule, hread, hevents, hnamed, hmoved, hkeeps⟩ := exists_aligned h hread
  rw [hmodule, ← hevents] at hcopied ⊢
  rw [← hkeeps, ← hmoved]
  refine ⟨fun h => (rearranged_finished hread (hnamed.2 h)).sameRegions, ?_⟩
  constructor
  · intro hregions
    have hnamedOnce := hcopied hregions
    exact ⟨hnamedOnce, (sameRegions_finished_iff hread (hnamed.2 hnamedOnce)).1 hregions⟩
  · rintro ⟨hnamedOnce, hkept⟩
    exact (sameRegions_finished_iff hread (hnamed.2 hnamedOnce)).2 hkept

end Module

end HaskellStyle
