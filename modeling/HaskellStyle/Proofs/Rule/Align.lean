import HaskellStyle.Rule.Align
import Mathlib.Data.List.Forall2

/-!
This module contains what laying out leaves alone: every part keeps its tokens and its outline, so a layout
decides how a part is written and nothing else.
-/

namespace HaskellStyle

/--
What a declaration is made of: its tokens and its outline. Layouts are no part of it, nor is it a part of a
pragma that it is pinned.
-/
def Declaration.contents (d : Declaration) : List Token × Outline :=
  (tokens d, Outline.ofDeclaration d)

/--
What an import is made of.
-/
def Import.contents (i : Import) : List Token × Outline :=
  (tokens i, Outline.ofImport i)

theorem Constructor.tokens_eq (c : Constructor) :
    tokens c = c.before ++ (c.record.map tokens).getD [] ++ c.after := rfl

theorem DataDecl.tokens_eq (d : DataDecl) : tokens d = d.bodyTokens ++ d.derivings.flatMap tokens := rfl

namespace Align

variable (settings : Settings)

theorem header_cases (h : Header) :
    header settings h = h
      ∨ ∃ exports layout, h.exports = some exports
        ∧ header settings h = { h with exports := some { exports with layout := some layout } } := by
  unfold header
  dsimp only
  split
  · exact .inl rfl
  · next exports hexports =>
    split
    · exact .inl rfl
    · split
      · exact .inl rfl
      · next layout _ => exact .inr ⟨exports, layout, hexports, rfl⟩

theorem tokens_header (h : Header) : tokens (header settings h) = tokens h := by
  rcases header_cases settings h with heq | ⟨exports, layout, hexports, heq⟩
  · rw [heq]
  · rw [heq]
    simp [tokens, hexports]

theorem name_header (h : Header) : (header settings h).name = h.name := by
  rcases header_cases settings h with heq | ⟨exports, layout, hexports, heq⟩ <;> rw [heq]

theorem importDecl_cases (i : Import) :
    importDecl settings i = i
      ∨ ∃ list layout, i.list = some list
        ∧ importDecl settings i = { i with list := some { list with layout := some layout } } := by
  unfold importDecl
  dsimp only
  split
  · exact .inl rfl
  · next list hlist =>
    split
    · exact .inl rfl
    · split
      · exact .inl rfl
      · next layout _ => exact .inr ⟨list, layout, hlist, rfl⟩

theorem tokens_importDecl (i : Import) : tokens (importDecl settings i) = tokens i := by
  rcases importDecl_cases settings i with h | ⟨list, layout, hlist, h⟩
  · rw [h]
  · rw [h]
    simp [tokens, hlist, Import.head]

theorem keyword_importDecl (i : Import) : (importDecl settings i).keyword = i.keyword := by
  rcases importDecl_cases settings i with h | ⟨list, layout, hlist, h⟩ <;> rw [h]

theorem words_importDecl (i : Import) : (importDecl settings i).words = i.words := by
  rcases importDecl_cases settings i with h | ⟨list, layout, hlist, h⟩ <;> rw [h]

theorem contents_importDecl (i : Import) : (importDecl settings i).contents = i.contents := by
  have houtline : Outline.ofImport (importDecl settings i) = Outline.ofImport i := by
    unfold Outline.ofImport
    rw [tokens_importDecl]
    rcases importDecl_cases settings i with h | ⟨list, layout, hlist, h⟩
    · rw [h]
    · rw [h, hlist]
      rfl
  exact Prod.ext (tokens_importDecl settings i) houtline

theorem tokens_record (layout : ListLayout) (r : Record) : tokens (record settings layout r) = tokens r := by
  cases layout <;> rfl

theorem items_record (layout : ListLayout) (r : Record) : (record settings layout r).items = r.items := by
  cases layout <;> rfl

theorem tokens_constructor (layout : ListLayout) (c : Constructor) :
    tokens (constructor settings layout c) = tokens c := by
  rw [Constructor.tokens_eq, Constructor.tokens_eq]
  cases hr : c.record with
  | none => simp [constructor, hr, Constructor.before]
  | some r => simp [constructor, hr, Constructor.before, tokens_record]

/--
What a layout of constructors leaves alone.
-/
structure KeepsConstructor (f : Constructor → Constructor) : Prop where
  tokens_eq : ∀ c, tokens (f c) = tokens c
  lists_eq : ∀ c, (f c).record.toList.map
      (fun r => Outline.ofList .recordBody .recordField r.toItemList)
    = c.record.toList.map fun r => Outline.ofList .recordBody .recordField r.toItemList

theorem keepsConstructor_constructor (layout : ListLayout) :
    KeepsConstructor (constructor settings layout) where
  tokens_eq := tokens_constructor settings layout
  lists_eq c := by
    cases hr : c.record with
    | none => simp [constructor, hr]
    | some r =>
      have htokens := tokens_record settings layout r
      have hitems := items_record settings layout r
      simp only [constructor, hr, Option.map_some, Option.toList_some, List.map_cons, List.map_nil,
        Outline.ofList, hitems]
      rw [show tokens (record settings layout r).toItemList = tokens r.toItemList from htokens]

theorem keepsConstructor_sumConstructor (column : Int) :
    KeepsConstructor (sumConstructor settings column) where
  tokens_eq c := by
    unfold sumConstructor
    split
    · rfl
    · exact tokens_constructor settings _ c
  lists_eq c := by
    unfold sumConstructor
    split
    · rfl
    · exact (keepsConstructor_constructor settings _).lists_eq c

theorem contents_mapConstructors {f : Constructor → Constructor} (hf : KeepsConstructor f)
    (layout : ListLayout) (d : DataDecl) :
    Declaration.contents (.data (mapConstructors f layout d)) = Declaration.contents (.data d) := by
  have htokens : tokens (mapConstructors f layout d) = tokens d := by
    rw [DataDecl.tokens_eq, DataDecl.tokens_eq]
    simp only [mapConstructors, DataDecl.bodyTokens, DataDecl.ledConstructors, List.flatMap_cons,
      List.flatMap_map, hf.tokens_eq]
  have houtline : Outline.ofData (mapConstructors f layout d) = Outline.ofData d := by
    unfold Outline.ofData
    rw [htokens]
    simp only [mapConstructors, DataDecl.constructors, List.map_cons, List.map_map, Function.comp_def,
      hf.tokens_eq, hf.lists_eq]
  exact Prod.ext htokens houtline

/--
A data declaration is left alone, or its constructors are laid out.
-/
theorem dataDecl_cases (d : DataDecl) :
    dataDecl settings d = d
      ∨ ∃ f layout, KeepsConstructor f ∧ dataDecl settings d = mapConstructors f layout d := by
  unfold dataDecl
  split
  · dsimp only
    cases d.singleRecord? with
    | some r =>
      dsimp only
      split
      · exact .inr ⟨_, _, keepsConstructor_constructor settings _, rfl⟩
      · split
        · exact .inl rfl
        · exact .inr ⟨_, _, keepsConstructor_constructor settings _, rfl⟩
    | none =>
      dsimp only
      split
      · exact .inr ⟨_, _, keepsConstructor_constructor settings _, rfl⟩
      · exact .inr ⟨_, _, keepsConstructor_sumConstructor settings _, rfl⟩
  · exact .inl rfl

theorem contents_dataDecl (d : DataDecl) :
    Declaration.contents (.data (dataDecl settings d)) = Declaration.contents (.data d) := by
  rcases dataDecl_cases settings d with h | ⟨f, layout, hf, h⟩
  · rw [h]
  · rw [h]
    exact contents_mapConstructors hf layout d

theorem contents_signature (s : Signature) :
    Declaration.contents (.signature (signature settings s)) = Declaration.contents (.signature s) := by
  unfold signature
  dsimp only
  split
  · rfl
  · split
    · rfl
    · split <;> rfl

variable {settings}

/--
A layout is all that the rule gives to a clause.
-/
theorem declaration_clause {c : Clause Block} {layout : Option RhsLayout} {d : Declaration}
    (h : declaration settings (.clause c layout) = .ok d) : ∃ layout, d = .clause c layout := by
  simp only [declaration, bind, Except.bind, pure, Except.pure] at h
  split at h
  · cases h
  · split at h <;> cases h <;> exact ⟨_, rfl⟩

theorem contents_declaration {d e : Declaration} (h : declaration settings d = .ok e) :
    e.contents = d.contents := by
  cases d with
  | data decl =>
    cases h
    exact contents_dataDecl settings decl
  | signature s =>
    cases h
    exact contents_signature settings s
  | clause c layout =>
    obtain ⟨_, rfl⟩ := declaration_clause h
    rfl
  | importing i => cases h; rfl
  | pragma p => cases h; rfl
  | raw run => cases h; rfl

/--
The rule lays out the declarations one by one.
-/
theorem declarations_ok {p : Printer} {ds es : List Declaration} {notes notes' : Notes}
    (h : declarations settings p ds notes = .ok (es, notes')) :
    List.Forall₂ (fun d e => declaration settings d = .ok e) ds es := by
  induction ds generalizing es notes notes' with
  | nil =>
    cases h
    exact .nil
  | cons d more ih =>
    simp only [declarations, bind, Except.bind, pure, Except.pure] at h
    split at h
    · cases h
    · next laidOut hd =>
      split at h
      · cases h
      · next hmore =>
        cases h
        exact .cons hd (ih hmore)

theorem contents_declarations {ds es : List Declaration}
    (h : List.Forall₂ (fun d e => declaration settings d = .ok e) ds es) :
    es.map Declaration.contents = ds.map Declaration.contents := by
  induction h with
  | nil => rfl
  | cons hd _ ih => rw [List.map_cons, List.map_cons, contents_declaration hd, ih]

theorem apply_ok {m : Module} {result : RuleResult} (h : apply settings m = .ok result) :
    ∃ ds, List.Forall₂ (fun d e => declaration settings d = .ok e) m.declarations ds
      ∧ result.module = { m with
          header := m.header.map (header settings)
          imports := m.imports.map (·.map (importDecl settings))
          declarations := ds } := by
  simp only [apply, bind, Except.bind, pure, Except.pure] at h
  split at h
  · cases h
  · next decls hdecls =>
    cases h
    refine ⟨decls.1, declarations_ok hdecls, ?_⟩
    cases hm : m.header with
    | none => rfl
    | some head => simp only [Option.map_some]; split <;> rfl

end Align

end HaskellStyle
