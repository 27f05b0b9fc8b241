import HaskellStyle.Proofs.Rule.Printable
import HaskellStyle.Proofs.Rule.Apply
import HaskellStyle.Rule.Names

/-!
This module contains modules without their layouts. Advice does not depend on layouts, and laying out changes nothing else;
so the rules that lay a module out, mark its deriving clauses or move its pragmas leave the advice on it as it is. What was
read has not been laid out: no part has a layout, no pragma is pinned and no token has a placement.
-/

namespace HaskellStyle

/--
A list without its layout.
-/
def ItemList.unlaid {ι : Type} (list : ItemList ι) : ItemList ι :=
  { list with layout := none }

/--
A record without its layout.
-/
def Record.unlaid (r : Record) : Record :=
  { r with layout := none, nameWidths := [] }

/--
A constructor without the layout of its record.
-/
def Constructor.unlaid (c : Constructor) : Constructor :=
  { c with record := c.record.map Record.unlaid }

/--
A deriving clause as it was written.
-/
def Deriving.unlaid (clause : Deriving) : Deriving :=
  { clause with parenthesize := false }

/--
A data declaration without the layouts of its parts.
-/
def DataDecl.unlaid (d : DataDecl) : DataDecl :=
  { d with
    constructor := d.constructor.unlaid
    others := d.others.map fun (bar, c) => (bar, c.unlaid)
    derivings := d.derivings.map Deriving.unlaid
    layout := none
    derivingLayout := none }

/--
A declaration without layouts.
-/
def Declaration.unlaid : Declaration → Declaration
  | .data d => .data d.unlaid
  | .signature s => .signature { s with layout := none }
  | .clause c _ => .clause c none
  | d@(.importing _) | d@(.pragma _) | d@(.raw _) => d

/--
An import without the layout of its list.
-/
def Import.unlaid (i : Import) : Import :=
  { i with list := i.list.map ItemList.unlaid }

/--
A header without the layout of its export list.
-/
def Header.unlaid (h : Header) : Header :=
  { h with exports := h.exports.map ItemList.unlaid }

/--
A module without layouts, with all lines where they were.
-/
def Module.unlaid (m : Module) : Module :=
  { m with
    header := m.header.map Header.unlaid
    imports := m.imports.map (·.map Import.unlaid)
    declarations := m.declarations.map Declaration.unlaid
    placements := [] }

section Rules

variable (settings : Settings)

theorem Indent.unlaid_apply (m : Module) : (apply settings m).module.unlaid = m.unlaid := by
  obtain ⟨placements, hmodule⟩ := module_apply settings m
  rw [hmodule]
  rfl

namespace Align

theorem unlaid_header (h : Header) : (header settings h).unlaid = h.unlaid := by
  rcases header_cases settings h with heq | ⟨exports, layout, hexports, heq⟩
  · rw [heq]
  · rw [heq, Header.unlaid, Header.unlaid, hexports]
    rfl

theorem unlaid_importDecl (i : Import) : (importDecl settings i).unlaid = i.unlaid := by
  rcases importDecl_cases settings i with heq | ⟨list, layout, hlist, heq⟩
  · rw [heq]
  · rw [heq, Import.unlaid, Import.unlaid, hlist]
    rfl

theorem unlaid_constructor (layout : ListLayout) (c : Constructor) : (constructor settings layout c).unlaid = c.unlaid := by
  have hrecord : Record.unlaid ∘ record settings layout = Record.unlaid := by
    funext r
    cases layout <;> rfl
  rw [Constructor.unlaid, Constructor.unlaid, constructor, Option.map_map, hrecord]

theorem unlaid_sumConstructor (column : Int) (c : Constructor) : (sumConstructor settings column c).unlaid = c.unlaid := by
  unfold sumConstructor
  split
  · rfl
  · exact unlaid_constructor settings _ c

theorem unlaid_mapConstructors {f : Constructor → Constructor} (hf : ∀ c, (f c).unlaid = c.unlaid) (layout : ListLayout)
    (d : DataDecl) : (mapConstructors f layout d).unlaid = d.unlaid := by
  simp only [DataDecl.unlaid, mapConstructors, hf, List.map_map, Function.comp_def]

theorem unlaid_dataDecl (d : DataDecl) : (dataDecl settings d).unlaid = d.unlaid := by
  unfold dataDecl
  split
  · dsimp only
    cases d.singleRecord? with
    | some r =>
      dsimp only
      split
      · exact unlaid_mapConstructors (unlaid_constructor settings _) _ d
      · split
        · rfl
        · exact unlaid_mapConstructors (unlaid_constructor settings _) _ d
    | none =>
      dsimp only
      split
      · exact unlaid_mapConstructors (unlaid_constructor settings _) _ d
      · exact unlaid_mapConstructors (unlaid_sumConstructor settings _) _ d
  · rfl

variable {settings}

theorem unlaid_declaration {d e : Declaration} (h : declaration settings d = .ok e) : e.unlaid = d.unlaid := by
  cases d with
  | data decl =>
    cases h
    exact congrArg Declaration.data (unlaid_dataDecl settings decl)
  | signature s =>
    cases h
    unfold signature
    dsimp only
    split
    · rfl
    · split
      · rfl
      · split <;> rfl
  | clause c layout =>
    obtain ⟨_, rfl⟩ := declaration_clause h
    rfl
  | importing i => cases h; rfl
  | pragma p => cases h; rfl
  | raw run => cases h; rfl

theorem unlaid_declarations {ds es : List Declaration}
    (h : List.Forall₂ (fun d e => declaration settings d = .ok e) ds es) :
    es.map Declaration.unlaid = ds.map Declaration.unlaid := by
  induction h with
  | nil => rfl
  | cons hd _ ih => rw [List.map_cons, List.map_cons, unlaid_declaration hd, ih]

theorem unlaid_apply {m : Module} {result : RuleResult} (h : apply settings m = .ok result) :
    result.module.unlaid = m.unlaid := by
  obtain ⟨ds, hds, hmodule⟩ := apply_ok h
  have hdeclarations := unlaid_declarations hds
  rw [hmodule]
  simp only [Module.unlaid, Option.map_map, List.map_map, Function.comp_def, unlaid_header, unlaid_importDecl,
    hdeclarations]

end Align

namespace DerivingFormat

theorem unlaid_normalize (d : DataDecl) (layout : ListLayout) : (normalize settings d layout).unlaid = d.unlaid := by
  unfold normalize DataDecl.unlaid
  dsimp only
  rw [List.map_map]
  rfl

theorem unlaid_declarations (p : Printer) (ds : List Declaration) (notes : Notes) :
    (declarations settings p ds notes).1.map Declaration.unlaid = ds.map Declaration.unlaid := by
  induction ds generalizing notes with
  | nil => rfl
  | cons d more ih =>
    have hd : (declaration settings p d notes).1.unlaid = d.unlaid := by
      unfold declaration
      split
      · split
        · exact congrArg Declaration.data (unlaid_normalize settings _ _)
        · rfl
      · rfl
    exact congrArg₂ List.cons hd (ih _)

theorem unlaid_apply (m : Module) : (apply settings m).module.unlaid = m.unlaid := by
  have hdeclarations := unlaid_declarations settings (Printer.ofModule settings m) m.declarations
    { found := lazyFields settings m ++ repeatedClasses settings m }
  exact congrArg (fun ds => { m.unlaid with declarations := ds : Module }) hdeclarations

end DerivingFormat

end Rules

section Advice

variable (settings : Settings) (m : Module)

namespace ImportOrder

theorem isReexport_unlaid : isReexport m.unlaid = isReexport m := by
  have hheader : m.unlaid.header = m.header.map Header.unlaid := rfl
  have hdeclarations : m.unlaid.declarations.isEmpty = m.declarations.isEmpty := List.isEmpty_map
  unfold isReexport
  rw [hheader, hdeclarations]
  cases m.header with
  | none => rfl
  | some h =>
    simp only [Option.map_some, Option.bind_some, Header.unlaid]
    cases h.exports <;> rfl

theorem importAdvice_unlaid (reexport : Bool) (i : Import) :
    importAdvice settings reexport i.unlaid = importAdvice settings reexport i := by
  obtain ⟨keyword, words, list, tail⟩ := i
  cases list <;> rfl

theorem advice_unlaid : advice settings m.unlaid = advice settings m := by
  have himports : m.unlaid.importDecls = m.importDecls.map Import.unlaid := List.map_flatten.symm
  have hheader : m.unlaid.header = m.header.map Header.unlaid := rfl
  unfold advice
  rw [isReexport_unlaid, himports, hheader, List.filterMap_map]
  simp only [Function.comp_def, importAdvice_unlaid]
  cases m.header with
  | none => rfl
  | some h =>
    simp only [Option.map_some, Header.unlaid, Option.isNone_map]

end ImportOrder

namespace DerivingFormat

theorem dataDecls_unlaid : dataDecls m.unlaid = (dataDecls m).map DataDecl.unlaid := by
  have hdeclarations : m.unlaid.declarations = m.declarations.map Declaration.unlaid := rfl
  unfold dataDecls
  rw [hdeclarations, List.filterMap_map, List.map_filterMap]
  refine List.filterMap_congr fun d _ => ?_
  cases d <;> rfl

theorem constructors_unlaid (d : DataDecl) : d.unlaid.constructors = d.constructors.map Constructor.unlaid := by
  simp only [DataDecl.constructors, DataDecl.unlaid, List.map_cons, List.map_map, Function.comp_def]

theorem lazyFields_unlaid : lazyFields settings m.unlaid = lazyFields settings m := by
  have hdata : (dataDecls m.unlaid).filter (!·.isNewtype) = ((dataDecls m).filter (!·.isNewtype)).map DataDecl.unlaid := by
    rw [dataDecls_unlaid, List.filter_map]
    rfl
  have hfields (c : Constructor) : c.unlaid.record.map (·.items) = c.record.map (·.items) := by
    rw [Constructor.unlaid, Option.map_map]
    rfl
  unfold lazyFields
  rw [hdata, List.flatMap_map]
  simp only [constructors_unlaid, List.flatMap_map, hfields]

theorem repeatedClasses_unlaid : repeatedClasses settings m.unlaid = repeatedClasses settings m := by
  have hclasses (d : DataDecl) : d.unlaid.derivings.flatMap (·.classNames) = d.derivings.flatMap (·.classNames) := by
    rw [DataDecl.unlaid, List.flatMap_map]
    rfl
  unfold repeatedClasses
  rw [dataDecls_unlaid, List.flatMap_map]
  simp only [hclasses]

end DerivingFormat

namespace Names

theorem ofDeclaration_unlaid (d : Declaration) : Defined.ofDeclaration d.unlaid = Defined.ofDeclaration d := by
  cases d with
  | data d =>
    have hconstructor (c : Constructor) : Defined.ofConstructor c.unlaid = Defined.ofConstructor c := by
      unfold Defined.ofConstructor Constructor.unlaid
      rw [Option.map_map]
      rfl
    show Defined.ofData d.unlaid = Defined.ofData d
    unfold Defined.ofData
    rw [DerivingFormat.constructors_unlaid, List.map_map]
    simp only [Function.comp_def, hconstructor]
    rfl
  | importing | pragma | signature | clause | raw => rfl

theorem advice_unlaid : advice settings m.unlaid = advice settings m := by
  have hdefined : Defined.ofModule m.unlaid = Defined.ofModule m := by
    have hdeclarations : m.unlaid.declarations = m.declarations.map Declaration.unlaid := rfl
    unfold Defined.ofModule
    rw [hdeclarations, List.map_map]
    simp only [Function.comp_def, ofDeclaration_unlaid]
  unfold advice
  rw [hdefined]

end Names

theorem ImportOrder.declarations_apply : (apply settings m).module.declarations = m.declarations := by
  rw [module_apply]
  split <;> rfl

/--
What is read off the declarations that are no pragmas does not depend on groups of imports and places of pragmas.
-/
theorem flatMap_declarations {α : Type} {f : Declaration → List α} (hf : ∀ d, d.isPragma → f d = []) :
    (PragmaOrder.apply settings (ImportOrder.apply settings m).module).module.declarations.flatMap f
      = m.declarations.flatMap f := by
  have hfilter (ds : List Declaration) : (ds.filter (!·.isPragma)).flatMap f = ds.flatMap f := by
    induction ds with
    | nil => rfl
    | cons d ds ih =>
      rw [List.filter_cons]
      cases hd : d.isPragma with
      | true =>
        rw [if_neg (by simp), List.flatMap_cons, hf d hd, ih]
        rfl
      | false =>
        rw [if_pos (by simp), List.flatMap_cons, List.flatMap_cons, ih]
  obtain ⟨pragmas, ds, normalized, hmodule, -, hds⟩ :=
    PragmaOrder.module_apply settings (ImportOrder.apply settings m).module
  rw [hmodule, ← ImportOrder.declarations_apply settings m]
  rcases hds with rfl | rfl
  · rfl
  · rw [← hfilter, PragmaOrder.filter_pin, hfilter]

theorem DerivingFormat.dataDecls_eq_flatMap (m : Module) : dataDecls m = m.declarations.flatMap fun
    | .data d => [d]
    | _ => [] := by
  unfold dataDecls
  rw [List.filterMap_eq_flatMap_toList]
  refine List.flatMap_congr fun d _ => ?_
  cases d <;> rfl

theorem DerivingFormat.dataDecls_declarations :
    dataDecls (PragmaOrder.apply settings (ImportOrder.apply settings m).module).module = dataDecls m := by
  rw [dataDecls_eq_flatMap, dataDecls_eq_flatMap, flatMap_declarations]
  intro d hd
  cases d with
  | pragma => rfl
  | importing | signature | data | clause | raw => cases hd

theorem Names.ofModule_declarations :
    Defined.ofModule (PragmaOrder.apply settings (ImportOrder.apply settings m).module).module = Defined.ofModule m := by
  have hpragma (d : Declaration) (hd : d.isPragma) : Defined.ofDeclaration d = {} := by
    cases d with
    | pragma => rfl
    | importing | signature | data | clause | raw => cases hd
  unfold Defined.ofModule Defined.join
  simp only [List.flatMap_map]
  rw [flatMap_declarations settings m fun d hd => by rw [hpragma d hd],
    flatMap_declarations settings m fun d hd => by rw [hpragma d hd]]

section Kept

variable {m} {m' : Module} (h : m'.unlaid = m.unlaid)
include h

theorem ImportOrder.advice_of_unlaid : advice settings m' = advice settings m := by
  rw [← advice_unlaid, h, advice_unlaid]

theorem DerivingFormat.lazyFields_of_unlaid :
    lazyFields settings (PragmaOrder.apply settings (ImportOrder.apply settings m').module).module
      = lazyFields settings m := by
  rw [← lazyFields_unlaid settings m, ← h, lazyFields_unlaid]
  unfold lazyFields
  rw [dataDecls_declarations]

theorem DerivingFormat.repeatedClasses_of_unlaid :
    repeatedClasses settings (PragmaOrder.apply settings (ImportOrder.apply settings m').module).module
      = repeatedClasses settings m := by
  rw [← repeatedClasses_unlaid settings m, ← h, repeatedClasses_unlaid]
  unfold repeatedClasses
  rw [dataDecls_declarations]

theorem Names.advice_of_unlaid : advice settings (m'.finished settings) = advice settings m := by
  rw [Module.finished, ← advice_unlaid, DerivingFormat.unlaid_apply, advice_unlaid, ← advice_unlaid settings m, ← h,
    advice_unlaid]
  unfold advice
  rw [ofModule_declarations]

end Kept

end Advice

/--
A declaration as it is read: it has no layout, or is a pragma that is not pinned.
-/
def Declaration.IsFresh (d : Declaration) : Prop :=
  d.unlaid = d ∧ ∀ p, d = .pragma p → p.pinned = false

theorem ItemList.unlaid_ofTokens? {opening : Token} {ts rest : List Token} {list : ItemList Entry}
    (h : ItemList.ofTokens? opening ts = some (list, rest)) : list.unlaid = list := by
  simp only [ofTokens?, Option.bind_eq_bind] at h
  obtain ⟨⟨part, parts, closing, rest'⟩, -, h⟩ := Option.bind_eq_some_iff.1 h
  obtain ⟨items, -, h⟩ := Option.bind_eq_some_iff.1 h
  cases h
  rfl

theorem Import.unlaid_ofTokens? {keyword : Token} {ts : List Token} {i : Import}
    (h : ofTokens? keyword ts = some i) : i.unlaid = i := by
  have hnamed {j : Import} (h : (if j.moduleName?.isSome then some j else none) = some i) : j = i := by
    split at h <;> cases h
    rfl
  simp only [ofTokens?, Option.bind_eq_bind] at h
  split at h
  · split at h
    · cases h
    · rw [← hnamed h]
      rfl
  · obtain ⟨⟨list, tail⟩, hlist, h⟩ := Option.bind_eq_some_iff.1 h
    rw [← hnamed h, unlaid, Option.map_some, ItemList.unlaid_ofTokens? hlist]

theorem Constructor.unlaid_ofTokens? {ts : List Token} {c : Constructor} (h : ofTokens? ts = some c) :
    c.unlaid = c := by
  simp only [ofTokens?, Option.bind_eq_bind] at h
  split at h
  · split at h
    · cases h
      rfl
    · cases h
  · cases h
  · obtain ⟨⟨list, after⟩, -, h⟩ := Option.bind_eq_some_iff.1 h
    obtain ⟨items, -, h⟩ := Option.bind_eq_some_iff.1 h
    split at h
    · cases h
    · cases h
      rfl

theorem Deriving.unlaid_ofTokens? {keyword : Token} {ts : List Token} {clause : Deriving}
    (h : ofTokens? keyword ts = some clause) : clause.unlaid = clause := by
  simp only [ofTokens?, Option.bind_eq_bind] at h
  obtain ⟨⟨classes, via⟩, -, h⟩ := Option.bind_eq_some_iff.1 h
  dsimp only at h
  split at h
  · cases h
    rfl
  · cases h

theorem Constructor.map_unlaid_others {others : List (Token × Constructor)} (h : ∀ x ∈ others, x.2.unlaid = x.2) :
    others.map (fun (bar, c) => (bar, c.unlaid)) = others :=
  (List.map_congr_left fun x hx => congrArg (x.1, ·) (h x hx)).trans (List.map_id others)

theorem DataDecl.unlaid_ofTokens? {keyword : Token} {ts : List Token} {d : DataDecl}
    (h : ofTokens? keyword ts = some d) : d.unlaid = d := by
  simp only [ofTokens?, Option.bind_eq_bind] at h
  obtain ⟨⟨head, equals, rest⟩, -, h⟩ := Option.bind_eq_some_iff.1 h
  split at h
  · cases h
  · obtain ⟨first, hfirst, h⟩ := Option.bind_eq_some_iff.1 h
    obtain ⟨others, hothers, h⟩ := Option.bind_eq_some_iff.1 h
    obtain ⟨derivings, hderivings, h⟩ := Option.bind_eq_some_iff.1 h
    cases h
    have hmore := Constructor.map_unlaid_others fun x hx => by
      obtain ⟨⟨bar, group⟩, -, hx⟩ := mem_of_mapM hothers _ hx
      obtain ⟨c, hc, rfl⟩ := Option.map_eq_some_iff.1 hx
      exact Constructor.unlaid_ofTokens? hc
    have hclauses : derivings.map Deriving.unlaid = derivings := by
      refine (List.map_congr_left fun clause hclause => ?_).trans (List.map_id derivings)
      obtain ⟨⟨keyword, ts⟩, -, hclause⟩ := mem_of_mapM hderivings _ hclause
      exact Deriving.unlaid_ofTokens? hclause
    rw [unlaid]
    dsimp only
    rw [Constructor.unlaid_ofTokens? hfirst, hmore, hclauses]

theorem Signature.layout_ofTokens? {ts : List Token} {s : Signature} (h : ofTokens? ts = some s) :
    s.layout = none := by
  simp only [ofTokens?, Option.bind_eq_bind] at h
  obtain ⟨⟨names, colons, type⟩, -, h⟩ := Option.bind_eq_some_iff.1 h
  split at h <;> cases h
  rfl

namespace Declaration

theorem isFresh_raw (run : Run Block) : (raw run).IsFresh :=
  ⟨rfl, nofun⟩

theorem isFresh_ofBinding (run : Run Block) : (ofBinding run).IsFresh := by
  unfold ofBinding
  split
  · next s hs =>
    obtain ⟨ts, -, hs⟩ := Option.bind_eq_some_iff.1 hs
    refine ⟨?_, nofun⟩
    rw [unlaid, ← Signature.layout_ofTokens? hs]
  · split
    · exact ⟨rfl, nofun⟩
    · exact isFresh_raw run

theorem isFresh_ofRun (run : Run Block) : (ofRun run).IsFresh := by
  unfold ofRun
  dsimp only
  split
  · split
    · next i hi =>
      obtain ⟨ts, -, hi⟩ := Option.bind_eq_some_iff.1 hi
      exact ⟨rfl, nofun⟩
    · exact isFresh_raw run
  · split
    · refine ⟨rfl, fun p hp => ?_⟩
      cases hp
      rfl
    · split
      · split
        · next d hd =>
          obtain ⟨ts, -, hd⟩ := Option.bind_eq_some_iff.1 hd
          exact ⟨congrArg data (DataDecl.unlaid_ofTokens? hd), nofun⟩
        · exact isFresh_raw run
      · split
        · exact isFresh_raw run
        · exact isFresh_ofBinding run

end Declaration

namespace Module

/--
A module as it is read: no part of it has been laid out.
-/
structure IsFresh (m : Module) : Prop where
  pragmas : m.pragmasNormalized = false
  imports : m.importsNormalized = false
  header : ∀ head ∈ m.header, ∀ list ∈ head.exports, list.layout = none
  declarations : ∀ d ∈ m.declarations, d.IsFresh

theorem isFresh_of_readBody {eof : Token} {ts : List Token} {ds : List Declaration} (h : readBody eof ts = .ok ds) :
    ∀ d ∈ ds, d.IsFresh :=
  forall_of_readBody h Declaration.isFresh_raw Declaration.isFresh_ofRun

theorem isFresh_of_read {text : List Char} {m : Module} (h : read text = .ok m) : m.IsFresh := by
  have hexports := exports_of_read h
  obtain ⟨stream, header, rest, ds, -, -, hbody, rfl⟩ := read_eq_ok h
  refine ⟨rfl, rfl, fun head hhead list hlist => ?_, fun d hd => ?_⟩
  · obtain ⟨opening, inner, after, hread⟩ := hexports head hhead list hlist
    rw [← ItemList.unlaid_ofTokens? hread]
    rfl
  · refine isFresh_of_readBody hbody d ?_
    rw [splitImports_eq ds]
    exact List.mem_append_right _ hd

theorem placements_of_read {text : List Char} {m : Module} (h : read text = .ok m) : m.placements = [] := by
  obtain ⟨stream, header, rest, ds, -, -, -, rfl⟩ := read_eq_ok h
  rfl

end Module

end HaskellStyle
