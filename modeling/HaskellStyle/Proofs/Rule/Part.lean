import HaskellStyle.Proofs.Rule.Unlaid
import HaskellStyle.Proofs.Rule.Layout
import HaskellStyle.Proofs.Rule.PragmaRun

/-!
This module contains what rules do to a single part of a module. The header, an import, a signature or a data
declaration is changed by the rules that lay it out, one after the other, and by nothing else that happens to the
module around it.
-/

namespace HaskellStyle

variable (settings : Settings)

/--
What the rule for deriving clauses makes of a data declaration.
-/
def DerivingFormat.dataDecl (d : DataDecl) : DataDecl :=
  match d.layout, d.derivings with
  | some layout, _ :: _ => normalize settings d layout
  | _, _ => d

namespace Rule

/--
What a rule makes of a header.
-/
def onHeader (h : Header) : Rule → Header
  | .alignment => Align.header settings h
  | _ => h

/--
What a rule makes of an import.
-/
def onImport (i : Import) : Rule → Import
  | .alignment => Align.importDecl settings i
  | _ => i

/--
What a rule makes of a signature.
-/
def onSignature (s : Signature) : Rule → Signature
  | .alignment => Align.signature settings s
  | _ => s

/--
What a rule makes of a data declaration.
-/
def onData (d : DataDecl) : Rule → DataDecl
  | .alignment => Align.dataDecl settings d
  | .strictnessDeriving => DerivingFormat.dataDecl settings d
  | _ => d

end Rule

/--
The parts of a module are those of another one, each of them after the rules. Imports among the declarations are
left alone.
-/
structure Module.PartsAfter (rules : List Rule) (m m' : Module) : Prop where
  header : m'.header = m.header.map fun h => rules.foldl (Rule.onHeader settings) h
  imports : ∀ i' ∈ m'.importDecls, ∃ i ∈ m.importDecls, i' = rules.foldl (Rule.onImport settings) i
  importings : ∀ i, .importing i ∈ m'.declarations → .importing i ∈ m.declarations
  signatures : ∀ s', .signature s' ∈ m'.declarations →
    ∃ s, .signature s ∈ m.declarations ∧ s' = rules.foldl (Rule.onSignature settings) s
  data : ∀ d', .data d' ∈ m'.declarations →
    ∃ d, .data d ∈ m.declarations ∧ d' = rules.foldl (Rule.onData settings) d

variable {settings}

namespace Module.PartsAfter

theorem nil (m : Module) : PartsAfter settings [] m m where
  header := Option.map_id'.symm
  imports i hi := ⟨i, hi, rfl⟩
  importings _ hi := hi
  signatures s hs := ⟨s, hs, rfl⟩
  data d hd := ⟨d, hd, rfl⟩

theorem cons {rule : Rule} {rules : List Rule} {m₀ m m' : Module} (hfirst : PartsAfter settings [rule] m₀ m)
    (hmore : PartsAfter settings rules m m') : PartsAfter settings (rule :: rules) m₀ m' where
  header := by
    rw [hmore.header, hfirst.header, Option.map_map]
    rfl
  imports i' hi' := by
    obtain ⟨i, hi, rfl⟩ := hmore.imports i' hi'
    obtain ⟨i₀, hi₀, rfl⟩ := hfirst.imports i hi
    exact ⟨i₀, hi₀, rfl⟩
  importings i hi := hfirst.importings i (hmore.importings i hi)
  signatures s' hs' := by
    obtain ⟨s, hs, rfl⟩ := hmore.signatures s' hs'
    obtain ⟨s₀, hs₀, rfl⟩ := hfirst.signatures s hs
    exact ⟨s₀, hs₀, rfl⟩
  data d' hd' := by
    obtain ⟨d, hd, rfl⟩ := hmore.data d' hd'
    obtain ⟨d₀, hd₀, rfl⟩ := hfirst.data d hd
    exact ⟨d₀, hd₀, rfl⟩

/--
A rule that lays nothing out leaves its parts as they are, in whatever order.
-/
theorem of_subset {rule : Rule} {m m' : Module} (halign : rule ≠ .alignment) (hderiving : rule ≠ .strictnessDeriving)
    (hheader : m'.header = m.header) (himports : m'.importDecls ⊆ m.importDecls)
    (hdecls : ∀ d ∈ m'.declarations, d ∈ m.declarations ∨ d.isPragma) : PartsAfter settings [rule] m m' := by
  have hkept (d : Declaration) (hd : d ∈ m'.declarations) (hpragma : d.isPragma = false) : d ∈ m.declarations :=
    (hdecls d hd).resolve_right (by rw [hpragma]; exact Bool.false_ne_true)
  cases rule with
  | alignment => exact absurd rfl halign
  | strictnessDeriving => exact absurd rfl hderiving
  | _ =>
    exact ⟨hheader.trans Option.map_id'.symm, fun i hi => ⟨i, himports hi, rfl⟩, fun i hi => hkept _ hi rfl,
      fun s hs => ⟨s, hkept _ hs rfl, rfl⟩, fun d hd => ⟨d, hkept _ hd rfl, rfl⟩⟩

end Module.PartsAfter

theorem DerivingFormat.mem_declarations {p : Printer} {ds : List Declaration} {notes : Notes} {d' : Declaration}
    (h : d' ∈ (declarations settings p ds notes).1) : ∃ d ∈ ds, ∃ notes, d' = (declaration settings p d notes).1 := by
  induction ds generalizing notes with
  | nil => cases h
  | cons d more ih =>
    unfold declarations at h
    rcases List.mem_cons.1 h with rfl | h
    · exact ⟨d, List.mem_cons_self, notes, rfl⟩
    · obtain ⟨e, he, heq⟩ := ih h
      exact ⟨e, List.mem_cons_of_mem _ he, heq⟩

theorem DerivingFormat.declaration_data (p : Printer) (d : DataDecl) (notes : Notes) :
    (declaration settings p (.data d) notes).1 = .data (dataDecl settings d) := by
  unfold declaration dataDecl
  dsimp only
  cases d.layout <;> cases d.derivings <;> rfl

theorem DerivingFormat.partsAfter (m : Module) :
    Module.PartsAfter settings [.strictnessDeriving] m (apply settings m).module where
  header := Option.map_id'.symm
  imports i hi := ⟨i, hi, rfl⟩
  importings i hi := by
    obtain ⟨d, hd, notes, heq⟩ := mem_declarations hi
    cases d with
    | data d => rw [declaration_data] at heq; cases heq
    | importing j =>
      cases heq
      exact hd
    | _ => cases heq
  signatures s hs := by
    obtain ⟨d, hd, notes, heq⟩ := mem_declarations hs
    cases d with
    | data d => rw [declaration_data] at heq; cases heq
    | signature s =>
      cases heq
      exact ⟨_, hd, rfl⟩
    | _ => cases heq
  data d' hd' := by
    obtain ⟨d, hd, notes, heq⟩ := mem_declarations hd'
    cases d with
    | data d =>
      rw [declaration_data] at heq
      cases heq
      exact ⟨d, hd, rfl⟩
    | _ => cases heq

theorem Align.partsAfter {m : Module} {result : RuleResult} (h : apply settings m = .ok result) :
    Module.PartsAfter settings [.alignment] m result.module := by
  obtain ⟨ds, hds, hmodule⟩ := apply_ok h
  rw [hmodule]
  refine ⟨rfl, fun i' hi' => ?_, fun i hi => ?_, fun s' hs' => ?_, fun d' hd' => ?_⟩
  · rw [Module.importDecls, ← List.map_flatten] at hi'
    obtain ⟨i, hi, rfl⟩ := List.mem_map.1 hi'
    exact ⟨i, hi, rfl⟩
  · obtain ⟨d, hd, hlaid⟩ := exists_of_forall₂ hds _ hi
    cases d with
    | clause c layout =>
      obtain ⟨_, heq⟩ := declaration_clause hlaid
      cases heq
    | importing i =>
      cases hlaid
      exact hd
    | _ => cases hlaid
  · obtain ⟨d, hd, hlaid⟩ := exists_of_forall₂ hds _ hs'
    cases d with
    | clause c layout =>
      obtain ⟨_, heq⟩ := declaration_clause hlaid
      cases heq
    | signature s =>
      cases hlaid
      exact ⟨_, hd, rfl⟩
    | _ => cases hlaid
  · obtain ⟨d, hd, hlaid⟩ := exists_of_forall₂ hds _ hd'
    cases d with
    | clause c layout =>
      obtain ⟨_, heq⟩ := declaration_clause hlaid
      cases heq
    | data decl =>
      cases hlaid
      exact ⟨_, hd, rfl⟩
    | _ => cases hlaid

theorem Declaration.exists_import_of_ofRun {run : Run Block} {i : Import} (h : ofRun run = .importing i) :
    ∃ ts, Import.ofTokens? run.first ts = some i := by
  unfold ofRun ofBinding at h
  dsimp only at h
  repeat' split at h
  case h_1 j hj =>
    cases h
    obtain ⟨ts, -, hts⟩ := Option.bind_eq_some_iff.1 hj
    exact ⟨ts, hts⟩
  all_goals cases h

namespace Module

theorem partsAfter_apply {m : Module} {rule : Rule} {result : RuleResult} (h : rule.apply settings m = .ok result) :
    PartsAfter settings [rule] m result.module := by
  cases rule with
  | alignment => exact Align.partsAfter h
  | strictnessDeriving =>
    cases h
    exact DerivingFormat.partsAfter m
  | indentation =>
    cases h
    obtain ⟨placements, hmodule⟩ := Indent.module_apply settings m
    rw [hmodule]
    exact .of_subset nofun nofun rfl (List.Subset.refl _) fun d hd => .inl hd
  | importOrder =>
    cases h
    rw [ImportOrder.module_apply]
    split
    · refine .of_subset nofun nofun rfl (fun i hi => ?_) fun d hd => .inl hd
      obtain ⟨group, hgroup, hi⟩ := List.mem_flatten.1 hi
      exact ImportOrder.mem_importDecls_of_mem_groups hgroup hi
    · exact .of_subset nofun nofun rfl (List.Subset.refl _) fun d hd => .inl hd
  | pragmaPlacement =>
    cases h
    rw [PragmaOrder.module_apply_eq]
    refine .of_subset nofun nofun rfl (List.Subset.refl _) fun d hd => ?_
    dsimp only at hd
    split at hd
    · refine (PragmaOrder.mem_pin hd).imp_right ?_
      rintro ⟨q, rfl⟩
      rfl
    · exact .inl hd
  | naming =>
    rw [Names.module_apply h]
    exact .of_subset nofun nofun rfl (List.Subset.refl _) fun d hd => .inl hd

/--
What a sequence of rules makes of a module it makes of each part on its own.
-/
theorem partsAfter_afterRules {rules : List Rule} {m m' : Module} (h : m.afterRules settings rules = .ok m') :
    PartsAfter settings rules m m' := by
  induction rules generalizing m with
  | nil =>
    cases h
    exact .nil m
  | cons rule more ih =>
    rw [afterRules_cons] at h
    cases hrule : rule.apply settings m with
    | error e =>
      rw [hrule] at h
      cases h
    | ok result =>
      rw [hrule] at h
      exact (partsAfter_apply hrule).cons (ih h)

/--
The imports of a module as it is read, those among its declarations included, have no layouts.
-/
theorem unlaid_imports_of_read {text : List Char} {m : Module} (h : read text = .ok m) (i : Import)
    (hi : i ∈ m.importDecls ∨ .importing i ∈ m.declarations) : i.unlaid = i := by
  obtain ⟨stream, header, rest, ds, -, -, hbody, rfl⟩ := read_eq_ok h
  have hmem : .importing i ∈ ds := by
    rw [splitImports_eq ds]
    refine List.mem_append.2 (hi.imp_left fun hi => List.mem_map_of_mem ?_)
    exact flatten_groupImports (splitImports ds).1 ▸ hi
  unfold readBody at hbody
  split at hbody
  · cases hbody
    cases hmem
  · split at hbody
    · cases hbody
      cases List.mem_singleton.1 hmem
    · obtain ⟨runs, -, rfl⟩ := map_eq_ok hbody
      obtain ⟨run, -, hrun⟩ := List.mem_map.1 hmem
      obtain ⟨ts, hts⟩ := Declaration.exists_import_of_ofRun hrun
      exact Import.unlaid_ofTokens? hts

end Module

end HaskellStyle
