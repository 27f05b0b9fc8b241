import HaskellStyle.Proofs.Fault
import HaskellStyle.Proofs.Module.Region
import HaskellStyle.Proofs.Rule.ImportOrder
import HaskellStyle.Proofs.Rule.PragmaOrder
import HaskellStyle.Rule.Apply

/-!
This module contains what all rules together do to a module. The header and the declarations keep their tokens and
outlines, pragmas change place, and imports are copied exactly when the settings name their origin twice. Hence a module
keeps its tokens exactly if no import is copied. A sequence of rules, in any order and with any repetition, does the same:
all rules but the one for imports keep every token.
-/

namespace HaskellStyle

variable (settings : Settings)

/--
What every rule leaves of a module apart from its imports. The pragmas can change place, among the header
pragmas and among the declarations; everything else keeps its place and its contents.
-/
structure Module.KeepsParts (m m' : Module) : Prop where
  headerPragmas : m'.headerPragmas.Perm m.headerPragmas
  header : m'.header.map tokens = m.header.map tokens
  declarations : (m'.declarations.map Declaration.contents).Perm (m.declarations.map Declaration.contents)
  order : (m'.declarations.map Declaration.contents).filter (!·.2.isPragma)
    = (m.declarations.map Declaration.contents).filter (!·.2.isPragma)
  eof : m'.eof = m.eof

theorem Module.KeepsParts.trans {m m' m'' : Module} (h : m.KeepsParts m') (h' : m'.KeepsParts m'') :
    m.KeepsParts m'' where
  headerPragmas := h'.headerPragmas.trans h.headerPragmas
  header := h'.header.trans h.header
  declarations := h'.declarations.trans h.declarations
  order := h'.order.trans h.order
  eof := h'.eof.trans h.eof

namespace Indent

theorem module_apply (m : Module) :
    ∃ placements, (apply settings m).module = { m with placements := placements } := by
  unfold apply
  dsimp only
  split
  · exact ⟨m.placements, rfl⟩
  · exact ⟨_, rfl⟩

theorem keepsParts (m : Module) : m.KeepsParts (apply settings m).module := by
  obtain ⟨placements, h⟩ := module_apply settings m
  rw [h]
  exact ⟨.refl _, rfl, .refl _, rfl, rfl⟩

end Indent

namespace DerivingFormat

theorem contents_normalize (d : DataDecl) (layout : ListLayout) :
    Declaration.contents (.data (normalize settings d layout)) = Declaration.contents (.data d) := by
  have htokens : tokens (normalize settings d layout) = tokens d := by
    rw [DataDecl.tokens_eq, DataDecl.tokens_eq]
    simp only [normalize, List.flatMap_map]
    rfl
  have houtline : Outline.ofData (normalize settings d layout) = Outline.ofData d := by
    unfold Outline.ofData
    rw [htokens]
    simp only [normalize, List.map_map]
    rfl
  exact Prod.ext htokens houtline

theorem contents_declaration (p : Printer) (d : Declaration) (notes : Notes) :
    (declaration settings p d notes).1.contents = d.contents := by
  unfold declaration
  split
  · split
    · exact contents_normalize settings _ _
    · rfl
  · rfl

theorem contents_declarations (p : Printer) (ds : List Declaration) (notes : Notes) :
    (declarations settings p ds notes).1.map Declaration.contents = ds.map Declaration.contents := by
  induction ds generalizing notes with
  | nil => rfl
  | cons d more ih =>
    unfold declarations
    dsimp only
    rw [List.map_cons, List.map_cons, contents_declaration, ih]

theorem module_apply (m : Module) :
    ∃ ds, (apply settings m).module = { m with declarations := ds }
      ∧ ds.map Declaration.contents = m.declarations.map Declaration.contents :=
  ⟨_, rfl, contents_declarations settings _ _ _⟩

theorem keepsParts (m : Module) : m.KeepsParts (apply settings m).module := by
  obtain ⟨ds, h, hcontents⟩ := module_apply settings m
  rw [h]
  exact ⟨.refl _, rfl, .of_eq hcontents, congrArg _ hcontents, rfl⟩

end DerivingFormat

theorem ImportOrder.keepsParts (m : Module) : m.KeepsParts (apply settings m).module := by
  rw [module_apply]
  split <;> exact ⟨.refl _, rfl, .refl _, rfl, rfl⟩

theorem PragmaOrder.keepsParts (m : Module) : m.KeepsParts (apply settings m).module := by
  obtain ⟨pragmas, ds, normalized, h, hpragmas, hds⟩ := module_apply settings m
  rw [h]
  rcases hds with rfl | rfl
  · exact ⟨hpragmas, rfl, .refl _, rfl, rfl⟩
  · refine ⟨hpragmas, rfl, contents_pin_perm _, ?_, rfl⟩
    rw [← Declaration.map_contents_filter, ← Declaration.map_contents_filter, filter_pin]

variable {settings}

theorem Names.module_apply {m : Module} {result : RuleResult} (h : Names.apply settings m = .ok result) :
    result.module = m := by
  simp only [Names.apply, bind, Except.bind, pure, Except.pure] at h
  split at h
  · cases h
  · cases h
    rfl

theorem minBy_map {α : Type} {key : α → Nat} {f : α → α} (hf : ∀ x, key (f x) = key x) (xs : List α) :
    minBy key (xs.map f) = (minBy key xs).map f := by
  induction xs with
  | nil => rfl
  | cons x more ih =>
    rw [List.map_cons, minBy, ih, minBy]
    cases minBy key more with
    | none => rfl
    | some y =>
      simp only [Option.map_some, hf]
      split <;> rfl

namespace Align

theorem importDecls_eq {m : Module} {result : RuleResult} (h : apply settings m = .ok result) :
    result.module.importDecls = m.importDecls.map (importDecl settings) := by
  obtain ⟨ds, -, hmodule⟩ := apply_ok h
  rw [hmodule]
  unfold Module.importDecls
  rw [List.map_flatten]

theorem name?_eq {m : Module} {result : RuleResult} (h : apply settings m = .ok result) :
    result.module.name? = m.name? := by
  obtain ⟨ds, -, hmodule⟩ := apply_ok h
  rw [hmodule]
  unfold Module.name?
  cases m.header with
  | none => rfl
  | some h => simp only [Option.map_some, name_header]

/--
Laying out changes nothing on which the grouping of imports depends.
-/
theorem namedOnce_iff {m : Module} {result : RuleResult} (h : apply settings m = .ok result) :
    ImportOrder.NamedOnce settings result.module ↔ ImportOrder.NamedOnce settings m := by
  have hregroups : ImportOrder.regroups result.module = ImportOrder.regroups m := by
    unfold ImportOrder.regroups
    rw [importDecls_eq h, minBy_map fun i => by rw [keyword_importDecl], Option.any_map]
    obtain ⟨ds, -, hmodule⟩ := apply_ok h
    rw [hmodule]
    congr 2
    funext i
    simp only [ImportOrder.isMovable, keyword_importDecl]
  have horigin (i : Import) : ImportOrder.originOf settings result.module (importDecl settings i)
      = ImportOrder.originOf settings m i := by
    unfold ImportOrder.originOf ImportOrder.isLocal Import.moduleName Import.moduleName?
    rw [name?_eq h, words_importDecl]
  unfold ImportOrder.NamedOnce
  rw [hregroups, importDecls_eq h]
  simp only [List.forall_mem_map, horigin]

theorem keepsParts {m : Module} {result : RuleResult} (h : apply settings m = .ok result) :
    m.KeepsParts result.module := by
  obtain ⟨ds, hds, hmodule⟩ := apply_ok h
  have hcontents := contents_declarations hds
  have hheader : (m.header.map (header settings)).map tokens = m.header.map tokens := by
    rw [Option.map_map]
    congr 1
    funext h
    exact tokens_header settings h
  rw [hmodule]
  exact ⟨.refl _, hheader, .of_eq hcontents, congrArg _ hcontents, rfl⟩

end Align

/--
What the rules make of a module once it is laid out.
-/
def Module.finished (settings : Settings) (m : Module) : Module :=
  (DerivingFormat.apply settings
    (PragmaOrder.apply settings (ImportOrder.apply settings m).module).module).module

/--
The rules are applied to what the rules before them made of the module.
-/
theorem Module.applyRules_ok {m : Module} {ruled : RuledModule} (h : m.applyRules settings = .ok ruled) :
    ∃ aligned, Align.apply settings (Indent.apply settings m).module = .ok aligned
      ∧ ruled.module = aligned.module.finished settings := by
  unfold Module.applyRules Rule.all at h
  simp only [Rule.applyAll, Rule.apply] at h
  cases haligned : Align.apply settings (Indent.apply settings m).module with
  | error e => simp [haligned] at h
  | ok aligned =>
    refine ⟨aligned, rfl, ?_⟩
    cases hnamed : Names.apply settings (aligned.module.finished settings) with
    | error e =>
      unfold Module.finished at hnamed
      simp [haligned, hnamed] at h
    | ok named =>
      unfold Module.finished at hnamed
      simp only [haligned, hnamed] at h
      cases h
      exact Names.module_apply hnamed

namespace Module

theorem keepsParts_applyRules {m : Module} {ruled : RuledModule} (h : m.applyRules settings = .ok ruled) :
    m.KeepsParts ruled.module := by
  obtain ⟨aligned, haligned, hmodule⟩ := applyRules_ok h
  rw [hmodule, finished]
  have hindent := Indent.keepsParts settings m
  have halign := Align.keepsParts haligned
  have himports := ImportOrder.keepsParts settings aligned.module
  have hpragmas := PragmaOrder.keepsParts settings (ImportOrder.apply settings aligned.module).module
  have hderiving := DerivingFormat.keepsParts settings
    (PragmaOrder.apply settings (ImportOrder.apply settings aligned.module).module).module
  exact (((hindent.trans halign).trans himports).trans hpragmas).trans hderiving

/--
The imports behind all rules are those that grouping makes of the imports that were laid out.
-/
theorem importDecls_finished (m : Module) :
    (m.finished settings).importDecls = (ImportOrder.apply settings m).module.importDecls := by
  obtain ⟨pragmas, ds, normalized, h, -, -⟩ :=
    PragmaOrder.module_apply settings (ImportOrder.apply settings m).module
  unfold finished DerivingFormat.apply
  rw [h]
  rfl

/--
Up to the grouping, the rules keep the contents of the imports and what the grouping depends on.
-/
theorem aligned_imports {m : Module} {aligned : RuleResult}
    (h : Align.apply settings (Indent.apply settings m).module = .ok aligned) :
    aligned.module.importDecls.map Import.contents = m.importDecls.map Import.contents
      ∧ (ImportOrder.NamedOnce settings aligned.module ↔ ImportOrder.NamedOnce settings m) := by
  have himports := Align.importDecls_eq h
  have hnamed := Align.namedOnce_iff h
  obtain ⟨placements, hindent⟩ := Indent.module_apply settings m
  rw [hindent] at himports hnamed
  refine ⟨?_, hnamed⟩
  rw [himports, List.map_map]
  exact List.map_congr_left fun i _ => Align.contents_importDecl settings i

theorem importDecls_applyRules_perm {m : Module} {ruled : RuledModule}
    (h : m.applyRules settings = .ok ruled) (hnamed : ImportOrder.NamedOnce settings m) :
    (ruled.module.importDecls.map Import.contents).Perm (m.importDecls.map Import.contents) := by
  obtain ⟨aligned, haligned, hmodule⟩ := applyRules_ok h
  obtain ⟨hcontents, hiff⟩ := aligned_imports haligned
  rw [hmodule, importDecls_finished, ← hcontents]
  exact (ImportOrder.importDecls_apply_perm (hiff.2 hnamed)).map _

/--
The imports measure as much behind the rules as before exactly if none is copied, however they are measured.
-/
theorem sum_importDecls_applyRules {m : Module} {ruled : RuledModule}
    (h : m.applyRules settings = .ok ruled) (size : List Token × Outline → Nat)
    (hsize : ∀ i : Import, 0 < size i.contents) :
    ((ruled.module.importDecls.map Import.contents).map size).sum
        = ((m.importDecls.map Import.contents).map size).sum
      ↔ ImportOrder.NamedOnce settings m := by
  obtain ⟨aligned, haligned, hmodule⟩ := applyRules_ok h
  obtain ⟨hcontents, hiff⟩ := aligned_imports haligned
  rw [hmodule, importDecls_finished, ← hcontents, ← hiff, List.map_map, List.map_map]
  exact ImportOrder.sum_apply_eq_iff aligned.module hsize

theorem length_importDecls_applyRules {m : Module} {ruled : RuledModule}
    (h : m.applyRules settings = .ok ruled) :
    ruled.module.importDecls.length = m.importDecls.length ↔ ImportOrder.NamedOnce settings m := by
  rw [← sum_importDecls_applyRules h (fun _ => 1) fun _ => Nat.one_pos]
  simp only [List.map_const', List.sum_replicate_nat, Nat.mul_one, List.length_map]

/--
The tokens of a module, with those of its imports and declarations taken from their contents.
-/
theorem tokens_eq (m : Module) :
    tokens m = m.headerPragmas.map (·.token) ++ (m.header.map tokens).getD []
      ++ (m.importDecls.map Import.contents).flatMap Prod.fst
      ++ (m.declarations.map Declaration.contents).flatMap Prod.fst ++ [m.eof] := by
  have himports : m.imports.flatMap (·.flatMap tokens) = m.importDecls.flatMap tokens := by
    unfold importDecls
    rw [List.flatten_eq_flatMap, List.flatMap_assoc]
    rfl
  rw [List.flatMap_map, List.flatMap_map]
  unfold Import.contents Declaration.contents
  dsimp only
  rw [← himports]
  rfl

/--
The rules keep the tokens of a module exactly if they copy no import.
-/
theorem tokens_applyRules_perm_iff {m : Module} {ruled : RuledModule}
    (h : m.applyRules settings = .ok ruled) :
    (tokens ruled.module).Perm (tokens m) ↔ ImportOrder.NamedOnce settings m := by
  have hparts := keepsParts_applyRules h
  have hpragmas := hparts.headerPragmas.map (·.token)
  have hdecls := hparts.declarations.flatMap_right Prod.fst
  rw [tokens_eq, tokens_eq, hparts.header, hparts.eof]
  constructor
  · intro hperm
    have hpositive (i : Import) : 0 < i.contents.1.length := by
      simp [Import.contents, tokens, Import.head]
    rw [← sum_importDecls_applyRules h (·.1.length) hpositive]
    -- All other parts have as many tokens as before, so the imports have, too.
    have hlength := hperm.length_eq
    simp only [List.length_append, hpragmas.length_eq, hdecls.length_eq, List.length_flatMap] at hlength ⊢
    omega
  · intro hnamed
    have himports := (importDecls_applyRules_perm h hnamed).flatMap_right Prod.fst
    exact (((hpragmas.append_right _).append himports).append hdecls).append_right _

/--
No token is lost when rules are applied.
-/
theorem tokens_subset_applyRules {m : Module} {ruled : RuledModule} (h : m.applyRules settings = .ok ruled) :
    tokens m ⊆ tokens ruled.module := by
  have hparts := keepsParts_applyRules h
  have himports : m.importDecls.map Import.contents ⊆ ruled.module.importDecls.map Import.contents := by
    obtain ⟨aligned, haligned, hmodule⟩ := applyRules_ok h
    rw [← (aligned_imports haligned).1, hmodule, importDecls_finished]
    exact List.map_subset _ (ImportOrder.importDecls_subset aligned.module)
  rw [tokens_eq, tokens_eq, hparts.header, hparts.eof]
  intro t ht
  simp only [List.mem_append] at ht ⊢
  refine ht.imp_left fun ht => ht.imp (Or.imp (Or.imp_left fun ht => ?_) fun ht => ?_) fun ht => ?_
  · exact (hparts.headerPragmas.map _).mem_iff.2 ht
  · obtain ⟨contents, hcontents, ht⟩ := List.mem_flatMap.1 ht
    exact List.mem_flatMap.2 ⟨contents, himports hcontents, ht⟩
  · exact (hparts.declarations.flatMap_right _).mem_iff.2 ht

end Module

/--
What rules make of a module one after the other, up to the first that fails.
-/
def Module.afterRules (settings : Settings) (m : Module) (rules : List Rule) : Except RuleError Module :=
  match Rule.applyAll settings m rules with
  | (results, none) => .ok ((results.getLast?.map (·.2.module)).getD m)
  | (_, some e) => .error e

namespace Module

theorem afterRules_nil (m : Module) : m.afterRules settings [] = .ok m := rfl

theorem afterRules_cons (m : Module) (rule : Rule) (more : List Rule) :
    m.afterRules settings (rule :: more)
      = (rule.apply settings m).bind fun result => result.module.afterRules settings more := by
  unfold afterRules
  rw [Rule.applyAll]
  cases rule.apply settings m with
  | error e => rfl
  | ok result =>
    simp only [Except.bind]
    cases hmore : Rule.applyAll settings result.module more with
    | mk results failure =>
      cases failure with
      | some e => rfl
      | none =>
        simp only [List.getLast?_cons, Option.map_some, Option.getD_some]
        cases results.getLast? <;> rfl

/--
What every rule of a sequence keeps, the whole sequence keeps.
-/
theorem afterRules_induction {P : Module → Prop} {m m' : Module} {rules : List Rule}
    (hstep : ∀ rule ∈ rules, ∀ m result, rule.apply settings m = .ok result → P m → P result.module)
    (h : m.afterRules settings rules = .ok m') (hm : P m) : P m' := by
  induction rules generalizing m with
  | nil =>
    cases h
    exact hm
  | cons rule more ih =>
    rw [afterRules_cons] at h
    cases hrule : rule.apply settings m with
    | error e =>
      rw [hrule] at h
      cases h
    | ok result =>
      rw [hrule] at h
      have hmore (rule' : Rule) (hmem : rule' ∈ more) := hstep rule' (List.mem_cons_of_mem _ hmem)
      exact ih hmore h (hstep rule List.mem_cons_self m result hrule hm)

/--
What all rules but the one for imports leave of a module.
-/
structure KeepsTokens (m m' : Module) : Prop extends m.KeepsParts m' where
  imports : m'.imports.map (·.map tokens) = m.imports.map (·.map tokens)

theorem KeepsTokens.refl (m : Module) : m.KeepsTokens m :=
  ⟨⟨.refl _, rfl, .refl _, rfl, rfl⟩, rfl⟩

theorem KeepsTokens.trans {m m' m'' : Module} (h : m.KeepsTokens m') (h' : m'.KeepsTokens m'') :
    m.KeepsTokens m'' :=
  ⟨h.toKeepsParts.trans h'.toKeepsParts, h'.imports.trans h.imports⟩

/--
The rules other than that for imports keep the imports' tokens: only one of them touches imports, and it gives
them a layout.
-/
theorem keepsTokens_apply {m : Module} {rule : Rule} {result : RuleResult}
    (hrule : rule ≠ .importOrder) (h : rule.apply settings m = .ok result) : m.KeepsTokens result.module := by
  cases rule with
  | importOrder => exact absurd rfl hrule
  | indentation =>
    cases h
    refine ⟨Indent.keepsParts settings m, ?_⟩
    obtain ⟨placements, hmodule⟩ := Indent.module_apply settings m
    rw [hmodule]
  | alignment =>
    refine ⟨Align.keepsParts h, ?_⟩
    obtain ⟨ds, -, hmodule⟩ := Align.apply_ok h
    rw [hmodule, List.map_map]
    refine List.map_congr_left fun group _ => ?_
    rw [Function.comp_apply, List.map_map]
    exact List.map_congr_left fun i _ => Align.tokens_importDecl settings i
  | pragmaPlacement =>
    cases h
    refine ⟨PragmaOrder.keepsParts settings m, ?_⟩
    obtain ⟨pragmas, ds, normalized, hmodule, -, -⟩ := PragmaOrder.module_apply settings m
    rw [hmodule]
  | strictnessDeriving =>
    cases h
    refine ⟨DerivingFormat.keepsParts settings m, ?_⟩
    obtain ⟨ds, hmodule, -⟩ := DerivingFormat.module_apply settings m
    rw [hmodule]
  | naming =>
    rw [Names.module_apply h]
    exact .refl m

theorem keepsTokens_afterRules {m m' : Module} {rules : List Rule} (hrules : .importOrder ∉ rules)
    (h : m.afterRules settings rules = .ok m') : m.KeepsTokens m' := by
  refine afterRules_induction (P := m.KeepsTokens) (fun rule hrule m₁ result hresult hkept => ?_) h (.refl m)
  exact hkept.trans (keepsTokens_apply (ne_of_mem_of_not_mem hrule hrules) hresult)

theorem KeepsTokens.tokens_perm {m m' : Module} (h : m.KeepsTokens m') : (tokens m').Perm (tokens m) := by
  have himports : m'.importDecls.map tokens = m.importDecls.map tokens := by
    unfold importDecls
    rw [List.map_flatten, List.map_flatten, h.imports]
  have hcontents : (m'.importDecls.map Import.contents).flatMap Prod.fst
      = (m.importDecls.map Import.contents).flatMap Prod.fst := by
    rw [List.flatMap_map, List.flatMap_map, List.flatMap_def, List.flatMap_def]
    exact congrArg _ himports
  have hpragmas := h.headerPragmas.map (·.token)
  have hdecls := h.declarations.flatMap_right Prod.fst
  rw [tokens_eq, tokens_eq, h.header, h.eof, hcontents]
  exact (((hpragmas.append_right _).append_right _).append hdecls).append_right _

/--
The declarations that are no pragmas, as their tokens, are read off the contents of all declarations.
-/
theorem map_tokens_filter (ds : List Declaration) :
    (ds.filter (!·.isPragma)).map tokens
      = ((ds.map Declaration.contents).filter (!·.2.isPragma)).map Prod.fst := by
  rw [← Declaration.map_contents_filter, List.map_map]
  rfl

theorem map_tokens_filter_isPragma (ds : List Declaration) :
    (ds.filter (·.isPragma)).map tokens
      = ((ds.map Declaration.contents).filter (·.2.isPragma)).map Prod.fst := by
  rw [List.filter_map, List.map_map]
  congr 1
  refine List.filter_congr fun d _ => ?_
  rw [← Declaration.isPragma_outline]
  rfl

/--
A sequence of rules without the one for imports keeps the tokens that were read. Header, imports and the
declarations that are no pragmas keep them one by one and in order; only pragmas change places, header pragmas
among themselves and those among the declarations.
-/
theorem tokens_kept_afterRules {text : List Char} {m m' : Module} {rules : List Rule}
    (hparse : parse text = .ok m) (hrules : .importOrder ∉ rules) (h : m.afterRules settings rules = .ok m') :
    (∃ stream, TokenStream.ofText text = .ok stream ∧ (tokens m').Perm stream.toList)
      ∧ m'.header.map tokens = m.header.map tokens
      ∧ m'.imports.map (·.map tokens) = m.imports.map (·.map tokens)
      ∧ (m'.declarations.filter (!·.isPragma)).map tokens = (m.declarations.filter (!·.isPragma)).map tokens
      ∧ (m'.headerPragmas.map (·.token)).Perm (m.headerPragmas.map (·.token))
      ∧ ((m'.declarations.filter (·.isPragma)).map tokens).Perm
          ((m.declarations.filter (·.isPragma)).map tokens) := by
  have hkept := keepsTokens_afterRules hrules h
  obtain ⟨stream, hstream, htokens, -⟩ := tokens_of_read (read_of_parse hparse)
  refine ⟨⟨stream, hstream, ?_⟩, hkept.header, hkept.imports, ?_, hkept.headerPragmas.map _, ?_⟩
  · rw [← htokens]
    exact hkept.tokens_perm
  · rw [map_tokens_filter, map_tokens_filter, hkept.order]
  · rw [map_tokens_filter_isPragma, map_tokens_filter_isPragma]
    exact (hkept.declarations.filter _).map _

/--
Pinned twice, with the declarations laid out in between.
-/
theorem tokens_kept_afterRules_pragmas :
    ∃ m m', parse "import C\nf = 1\ng = 2\n\x7b-# INLINE f #-\x7d\n".toList
        = .ok m
      ∧ Rule.importOrder ∉ [Rule.pragmaPlacement, .alignment, .indentation, .pragmaPlacement]
      ∧ m.afterRules {} [.pragmaPlacement, .alignment, .indentation, .pragmaPlacement] = .ok m'
      ∧ m'.declarations.map firstToken ≠ m.declarations.map firstToken
      ∧ ((∃ stream, TokenStream.ofText
            "import C\nf = 1\ng = 2\n\x7b-# INLINE f #-\x7d\n".toList
            = .ok stream ∧ (tokens m').Perm stream.toList)
        ∧ m'.header.map tokens = m.header.map tokens
        ∧ m'.imports.map (·.map tokens) = m.imports.map (·.map tokens)
        ∧ (m'.declarations.filter (!·.isPragma)).map tokens = (m.declarations.filter (!·.isPragma)).map tokens
        ∧ (m'.headerPragmas.map (·.token)).Perm (m.headerPragmas.map (·.token))
        ∧ ((m'.declarations.filter (·.isPragma)).map tokens).Perm
            ((m.declarations.filter (·.isPragma)).map tokens)) := by
  have hmoved : ((parse "import C\nf = 1\ng = 2\n\x7b-# INLINE f #-\x7d\n".toList).toOption.bind
      fun m => (m.afterRules {} [.pragmaPlacement, .alignment, .indentation, .pragmaPlacement]).toOption.map
        fun m' => decide (m'.declarations.map firstToken ≠ m.declarations.map firstToken)) = some true := by
    decide +kernel
  obtain ⟨m, hm, hmoved⟩ := Option.bind_eq_some_iff.1 hmoved
  obtain ⟨m', hm', hne⟩ := Option.map_eq_some_iff.1 hmoved
  have hparse := toOption_eq_some hm
  have hrules : Rule.importOrder ∉ [Rule.pragmaPlacement, .alignment, .indentation, .pragmaPlacement] := by decide
  have hafter := toOption_eq_some hm'
  exact ⟨m, m', hparse, hrules, hafter, of_decide_eq_true hne, tokens_kept_afterRules hparse hrules hafter⟩

end Module

end HaskellStyle
