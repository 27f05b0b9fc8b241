import HaskellStyle.Print.Module
import HaskellStyle.Proofs.Rule.Apply
import HaskellStyle.Proofs.Rule.Failure
import HaskellStyle.Proofs.Rule.Indent

/-!
This module contains what the settings for advice, which are the checks, the patterns for names and the number of names
from which an import is to be qualified, have an influence on. No text that the printer writes depends on them. In rules it
is the findings, and nothing else: with settings that agree on the findings to be kept, a rule gives the same module and
the same fixes, and the same of those findings; and each finding that it gives is one that the settings ask for.
-/

namespace HaskellStyle

namespace Settings

/--
Settings that say the same about the form of the output.
-/
structure SameLayout (s t : Settings) : Prop where
  indentWidth : s.indentWidth = t.indentWidth
  maxLineLength : s.maxLineLength = t.maxLineLength
  importGroupOrder : s.importGroupOrder = t.importGroupOrder
  localModulePrefixes : s.localModulePrefixes = t.localModulePrefixes
  alignment : s.alignment = t.alignment
  preserveCommentAlignment : s.preserveCommentAlignment = t.preserveCommentAlignment

/--
Settings with the advice of others.
-/
def withAdvice (s t : Settings) : Settings :=
  { s with
    enabledChecks := t.enabledChecks
    naming := t.naming
    qualificationThreshold := t.qualificationThreshold }

/--
Settings with all checks on.
-/
def withAllChecks (s : Settings) : Settings :=
  { s with enabledChecks := DiagnosticKind.checks }

variable {s t : Settings}

theorem SameLayout.withAdvice_eq (h : s.SameLayout t) : s.withAdvice t = t := by
  obtain ⟨h₁, h₂, h₃, h₄, h₅, h₆⟩ := h
  unfold withAdvice
  rw [h₁, h₂, h₃, h₄, h₅, h₆]

theorem SameLayout.refl (s : Settings) : s.SameLayout s :=
  ⟨rfl, rfl, rfl, rfl, rfl, rfl⟩

theorem SameLayout.symm (h : s.SameLayout t) : t.SameLayout s :=
  ⟨h.indentWidth.symm, h.maxLineLength.symm, h.importGroupOrder.symm, h.localModulePrefixes.symm, h.alignment.symm,
    h.preserveCommentAlignment.symm⟩

theorem SameLayout.trans {u : Settings} (h : s.SameLayout t) (h' : t.SameLayout u) : s.SameLayout u :=
  ⟨h.indentWidth.trans h'.indentWidth, h.maxLineLength.trans h'.maxLineLength,
    h.importGroupOrder.trans h'.importGroupOrder, h.localModulePrefixes.trans h'.localModulePrefixes,
    h.alignment.trans h'.alignment, h.preserveCommentAlignment.trans h'.preserveCommentAlignment⟩

theorem sameLayout_withAllChecks (s : Settings) : s.withAllChecks.SameLayout s :=
  ⟨rfl, rfl, rfl, rfl, rfl, rfl⟩

theorem checkEnabled_withAllChecks (s : Settings) (kind : DiagnosticKind) :
    s.withAllChecks.checkEnabled kind.check := by
  cases kind <;> rfl

/--
Settings that say the same about the form of the output, turn the checks of findings to `keep` on and off alike, and
say the same about names and imports unless only what the formatter mends is to be kept.
-/
structure AgreeOn (keep : DiagnosticKind → Bool) (s t : Settings) : Prop where
  layout : s.SameLayout t
  checks : ∀ kind, keep kind → s.checkEnabled kind.check = t.checkEnabled kind.check
  advice : (∀ kind, keep kind → kind.isMechanical) ∧ s.naming.Compile ∧ t.naming.Compile
    ∨ s.naming = t.naming ∧ s.qualificationThreshold = t.qualificationThreshold

/--
Settings agree with those that have all checks on about what they report.
-/
theorem agreeOn_withAllChecks (s : Settings) : AgreeOn (fun kind => s.checkEnabled kind.check) s s.withAllChecks where
  layout := (sameLayout_withAllChecks s).symm
  checks kind h := by rw [h, checkEnabled_withAllChecks]
  advice := .inr ⟨rfl, rfl⟩

end Settings

namespace Printer

variable (p : Printer) (a : Settings)

/--
A printer with the advice of other settings.
-/
def withAdvice : Printer :=
  { p with settings := p.settings.withAdvice a }

@[simp] theorem start_withAdvice : (p.withAdvice a).start = p.start := rfl

@[simp] theorem indent_withAdvice : (p.withAdvice a).indent = p.indent := rfl

@[simp] theorem leading_withAdvice : (p.withAdvice a).leading = p.leading := rfl

@[simp] theorem trailing_withAdvice : (p.withAdvice a).trailing = p.trailing := rfl

@[simp] theorem verbatim_withAdvice : (p.withAdvice a).verbatim = p.verbatim := rfl

@[simp] theorem verbatimInside_withAdvice : (p.withAdvice a).verbatimInside = p.verbatimInside := rfl

@[simp] theorem verbatimWith_withAdvice : (p.withAdvice a).verbatimWith = p.verbatimWith := rfl

@[simp] theorem itemList_withAdvice {ι : Type} [HasTokens ι] :
    (p.withAdvice a).itemList (ι := ι) = p.itemList := by
  have hitems : (p.withAdvice a).ledItems (ι := ι) = p.ledItems := by
    funext indent isFirst items out
    induction items generalizing isFirst out with
    | nil => rfl
    | cons _ _ ih => simp [ledItems, ih]
  funext list texts indent out
  simp [itemList, hitems]

@[simp] theorem trailingInside_withAdvice : (p.withAdvice a).trailingInside = p.trailingInside := rfl

@[simp] theorem signature_withAdvice : (p.withAdvice a).signature = p.signature := rfl

@[simp] theorem record_withAdvice : (p.withAdvice a).record = p.record := by
  funext
  simp [record]

@[simp] theorem constructor_withAdvice : (p.withAdvice a).constructor = p.constructor := by
  funext
  simp [constructor]

@[simp] theorem derivings_withAdvice : (p.withAdvice a).derivings = p.derivings := rfl

@[simp] theorem dataDecl_withAdvice : (p.withAdvice a).dataDecl = p.dataDecl := by
  funext
  simp [dataDecl]

@[simp] theorem brokenClause_withAdvice : (p.withAdvice a).brokenClause = p.brokenClause := rfl

@[simp] theorem pinnedPragma_withAdvice : (p.withAdvice a).pinnedPragma = p.pinnedPragma := rfl

@[simp] theorem structured_withAdvice : (p.withAdvice a).structured = p.structured := rfl

@[simp] theorem declaration_withAdvice : (p.withAdvice a).declaration = p.declaration := by
  funext
  simp [declaration]

@[simp] theorem headerPragmas_withAdvice : (p.withAdvice a).headerPragmas = p.headerPragmas := rfl

@[simp] theorem header_withAdvice : (p.withAdvice a).header = p.header := by
  funext
  simp [header]

@[simp] theorem importDecl_withAdvice : (p.withAdvice a).importDecl = p.importDecl := by
  funext
  simp [importDecl]

@[simp] theorem importGroup_withAdvice : (p.withAdvice a).importGroup = p.importGroup := by
  funext
  simp [importGroup, importLine]

@[simp] theorem importBlock_withAdvice : (p.withAdvice a).importBlock = p.importBlock := by
  funext
  simp [importBlock]

@[simp] theorem moduleParts_withAdvice : (p.withAdvice a).moduleParts = p.moduleParts := by
  funext
  simp [moduleParts]

@[simp] theorem headerText_withAdvice : (p.withAdvice a).headerText = p.headerText := by
  funext
  simp [headerText]

@[simp] theorem declarationText_withAdvice : (p.withAdvice a).declarationText = p.declarationText := by
  funext
  simp [declarationText]

end Printer

variable {keep : DiagnosticKind → Bool} {s t a : Settings}

theorem bind_eq_ok {ε α β : Type} {x : Except ε α} {f : α → Except ε β} {b : β} (h : x >>= f = .ok b) :
    ∃ a, x = .ok a ∧ f a = .ok b := by
  cases x with
  | error e => cases h
  | ok a => exact ⟨a, rfl, h⟩

/--
Results that look the same are the same failure, or values that look the same.
-/
theorem cases_of_map_eq {ε α β γ : Type} {x : Except ε α} {y : Except ε β} {f : α → γ} {g : β → γ}
    (h : x.map f = y.map g) : (∃ e, x = .error e ∧ y = .error e) ∨ ∃ a b, x = .ok a ∧ y = .ok b ∧ f a = g b := by
  cases x with
  | error e =>
    cases y with
    | error e' =>
      cases h
      exact .inl ⟨e, rfl, rfl⟩
    | ok b => cases h
  | ok a =>
    cases y with
    | error e => cases h
    | ok b => exact .inr ⟨a, b, rfl, rfl, Except.ok.inj h⟩

/--
Findings of the kinds to be kept.
-/
def Diagnostic.restrict (keep : DiagnosticKind → Bool) (ds : List Diagnostic) : List Diagnostic :=
  ds.filter (keep ·.kind)

/--
The rule that gives advice of a kind, if it is one of those that the linter takes from rules.
-/
def DiagnosticKind.adviser? : DiagnosticKind → Option Rule
  | .namingViolation | .abbreviationCase | .operatorDefinition => some .naming
  | .missingStrictness | .unnecessaryDerive => some .strictnessDeriving
  | .missingExportList | .missingImportList | .largeUnqualifiedImport => some .importOrder
  | _ => none

/--
Findings that are all advice of one rule.
-/
def Diagnostic.AdvisedBy (rule : Rule) (ds : List Diagnostic) : Prop :=
  ∀ d ∈ ds, d.kind.adviser? = some rule

theorem DiagnosticKind.isMechanical_of_adviser? {kind : DiagnosticKind} {rule : Rule} (h : kind.adviser? = some rule) :
    kind.isMechanical = false := by
  cases kind <;> first | rfl | cases h

/--
Notes with the findings of the kinds to be kept.
-/
def Notes.restrict (keep : DiagnosticKind → Bool) (notes : Notes) : Notes :=
  { notes with found := Diagnostic.restrict keep notes.found }

/--
What a rule gives, with the findings of the kinds to be kept.
-/
def RuleResult.restrict (keep : DiagnosticKind → Bool) (result : RuleResult) : RuleResult :=
  { result with notes := result.notes.restrict keep }

/--
What all rules give, with the findings of the kinds to be kept.
-/
def RuledModule.restrict (keep : DiagnosticKind → Bool) (ruled : RuledModule) : RuledModule :=
  { ruled with found := Diagnostic.restrict keep ruled.found }

namespace Diagnostic

theorem restrict_append (ds ds' : List Diagnostic) :
    restrict keep (ds ++ ds') = restrict keep ds ++ restrict keep ds' :=
  List.filter_append ..

theorem restrict_eq_nil {rule : Rule} {ds : List Diagnostic} (hkeep : ∀ kind, keep kind → kind.isMechanical)
    (hds : AdvisedBy rule ds) : restrict keep ds = [] := by
  refine List.filter_eq_nil_iff.2 fun d hd h => ?_
  have := hkeep d.kind h
  rw [DiagnosticKind.isMechanical_of_adviser? (hds d hd)] at this
  cases this

/--
Settings that agree on the findings to be kept choose the same of them.
-/
theorem restrict_filter_reports (h : Settings.AgreeOn keep s t) (ds : List Diagnostic) :
    restrict keep (ds.filter s.reports) = restrict keep (ds.filter t.reports) := by
  unfold restrict
  rw [List.filter_filter, List.filter_filter]
  refine List.filter_congr fun d _ => ?_
  cases hd : keep d.kind with
  | false => rfl
  | true => rw [Bool.true_and, Bool.true_and]; exact h.checks d.kind hd

end Diagnostic

namespace Notes

/--
Notes all of whose findings the settings ask for.
-/
def Wanted (s : Settings) (notes : Notes) : Prop :=
  ∀ d ∈ notes.found, s.reports d

theorem fixed_eq (s : Settings) (notes : Notes) (fix : String) (d : Diagnostic) :
    notes.fixed s fix d = ⟨notes.found ++ [d].filter s.reports,
      if notes.fixes.contains fix then notes.fixes else notes.fixes ++ [fix], addCount fix 1 notes.counts⟩ := by
  cases hd : s.reports d <;> simp [fixed, report, count, hd]

theorem wanted_empty (s : Settings) : ({} : Notes).Wanted s :=
  fun _ hd => absurd hd List.not_mem_nil

theorem wanted_fixed {notes : Notes} (fix : String) (d : Diagnostic) (h : notes.Wanted s) :
    (notes.fixed s fix d).Wanted s := by
  intro e he
  rw [fixed_eq] at he
  rcases List.mem_append.1 he with he | he
  · exact h e he
  · exact (List.mem_filter.1 he).2

theorem restrict_fixed (h : Settings.AgreeOn keep s t) {notes notes' : Notes} (fix : String) (d : Diagnostic)
    (hnotes : notes.restrict keep = notes'.restrict keep) :
    (notes.fixed s fix d).restrict keep = (notes'.fixed t fix d).restrict keep := by
  obtain ⟨found, fixes, counts⟩ := notes
  obtain ⟨found', fixes', counts'⟩ := notes'
  obtain ⟨hfound, rfl, rfl⟩ := Notes.mk.inj hnotes
  have hreport : Diagnostic.restrict keep (found ++ [d].filter s.reports)
      = Diagnostic.restrict keep (found' ++ [d].filter t.reports) := by
    rw [Diagnostic.restrict_append, Diagnostic.restrict_append, hfound, Diagnostic.restrict_filter_reports h]
  rw [fixed_eq, fixed_eq, restrict, restrict, hreport]

end Notes

namespace Indent

variable (g : Grid)

/--
A grid with the advice of other settings.
-/
def Grid.withAdvice (a : Settings) : Grid :=
  { g with settings := g.settings.withAdvice a }

@[simp] theorem Grid.get_withAdvice : (g.withAdvice a).get = g.get := rfl

@[simp] theorem Grid.indexOf_withAdvice : (g.withAdvice a).indexOf = g.indexOf := rfl

@[simp] theorem Grid.width_withAdvice : (g.withAdvice a).width = g.width := rfl

@[simp] theorem Plan.beginsLine_withAdvice (plan : Plan) : plan.beginsLine (g.withAdvice a) = plan.beginsLine g := rfl

@[simp] theorem Plan.shiftAt_withAdvice (plan : Plan) : plan.shiftAt (g.withAdvice a) = plan.shiftAt g := rfl

@[simp] theorem Plan.lineShiftFrom_withAdvice (plan : Plan) (isStart : Bool) (index : Nat) :
    plan.lineShiftFrom (g.withAdvice a) isStart index = plan.lineShiftFrom g isStart index := by
  induction index generalizing isStart with
  | zero => rfl
  | succ before ih =>
    simp only [lineShiftFrom, ih, Grid.get_withAdvice, beginsLine_withAdvice, shiftAt_withAdvice]

@[simp] theorem Plan.newColumn_withAdvice (plan : Plan) : plan.newColumn (g.withAdvice a) = plan.newColumn g := by
  funext index
  rw [newColumn, newColumn, lineShiftFrom_withAdvice, Grid.get_withAdvice]

@[simp] theorem Plan.lineStartOf_withAdvice (plan : Plan) (index : Nat) :
    plan.lineStartOf (g.withAdvice a) index = plan.lineStartOf g index := by
  induction index with
  | zero => rfl
  | succ before ih =>
    simp only [lineStartOf, ih, beginsLine_withAdvice]

@[simp] theorem Grid.lineStarts_withAdvice : (g.withAdvice a).lineStarts = g.lineStarts := rfl

@[simp] theorem Grid.assign_withAdvice : (g.withAdvice a).assign = g.assign := rfl

@[simp] theorem Grid.closesCleanly_withAdvice : (g.withAdvice a).closesCleanly = g.closesCleanly := by
  funext
  simp only [closesCleanly, get_withAdvice, indexOf_withAdvice, Plan.newColumn_withAdvice]

@[simp] theorem Grid.shift?_withAdvice : (g.withAdvice a).shift? = g.shift? := by
  funext
  simp only [shift?, get_withAdvice, indexOf_withAdvice, width_withAdvice, lineStarts_withAdvice,
    closesCleanly_withAdvice, Plan.newColumn_withAdvice, Plan.lineStartOf_withAdvice]
  rfl

@[simp] theorem Grid.whereMovable_withAdvice : (g.withAdvice a).whereMovable = g.whereMovable := by
  funext
  simp only [whereMovable, indexOf_withAdvice, Plan.newColumn_withAdvice]
  rfl

@[simp] theorem Grid.bindingsMovable_withAdvice : (g.withAdvice a).bindingsMovable = g.bindingsMovable := by
  funext
  simp only [bindingsMovable, get_withAdvice, lineStarts_withAdvice, closesCleanly_withAdvice]
  rfl

@[simp] theorem placeWhere_withAdvice : placeWhere (g.withAdvice a) = placeWhere g := by
  funext
  simp [placeWhere]
  rfl

@[simp] theorem visitClause_withAdvice : visitClause (g.withAdvice a) = visitClause g := by
  funext
  simp [visitClause]

@[simp] theorem visitItem_withAdvice : visitItem (g.withAdvice a) = visitItem g := by
  funext
  simp [visitItem]

@[simp] theorem visit_withAdvice : visit (g.withAdvice a) = visit g := by
  funext
  simp [visit]
  rfl

@[simp] theorem visitDeclaration_withAdvice : visitDeclaration (g.withAdvice a) = visitDeclaration g := by
  funext
  simp [visitDeclaration, visits]

theorem apply_withAdvice (m : Module) : apply (s.withAdvice a) m = apply s m := by
  have hgrid : (⟨s.withAdvice a, (tokens m).toArray, m.eof⟩ : Grid)
      = Grid.withAdvice ⟨s, (tokens m).toArray, m.eof⟩ a := rfl
  simp only [apply, hgrid, visitDeclaration_withAdvice]
  rfl

theorem wanted (m : Module) : (apply s m).notes.Wanted s := by
  have hplan := visitDeclarations_kept (g := ⟨s, (tokens m).toArray, m.eof⟩) (P := fun plan => plan.notes.Wanted s)
    ⟨fun _ _ h => h, fun _ h => h, fun fix d h => Notes.wanted_fixed fix d h, fun _ h => h⟩
    ((m.importDecls.map firstToken ++ m.declarations.map firstToken).head?.map (·.column)) m.declarations
    (Notes.wanted_empty s)
  unfold apply
  dsimp only
  split <;> exact hplan

end Indent

namespace Align

theorem declarations_withAdvice (p : Printer) : declarations (s.withAdvice a) (p.withAdvice a) = declarations s p := by
  funext ds notes
  induction ds generalizing notes with
  | nil => rfl
  | cons d more ih =>
    simp only [declarations, ih, Printer.declarationText_withAdvice]
    rfl

theorem apply_withAdvice (m : Module) : apply (s.withAdvice a) m = apply s m := by
  have hprinter : Printer.ofModule (s.withAdvice a) m = (Printer.ofModule s m).withAdvice a := rfl
  simp only [apply, hprinter, declarations_withAdvice, Printer.headerText_withAdvice]
  rfl

theorem wanted_declarations {p : Printer} {ds es : List Declaration} {notes notes' : Notes}
    (h : declarations s p ds notes = .ok (es, notes')) (hnotes : notes.Wanted s) : notes'.Wanted s := by
  induction ds generalizing es notes with
  | nil =>
    cases h
    exact hnotes
  | cons d more ih =>
    obtain ⟨laidOut, -, h⟩ := bind_eq_ok h
    obtain ⟨⟨others, notes₁⟩, hmore, h⟩ := bind_eq_ok h
    cases h
    refine ih hmore ?_
    split
    · exact Notes.wanted_fixed _ _ hnotes
    · exact hnotes

theorem wanted {m : Module} {result : RuleResult} (h : apply s m = .ok result) : result.notes.Wanted s := by
  obtain ⟨⟨ds, notes⟩, hds, h⟩ := bind_eq_ok h
  cases h
  refine wanted_declarations hds ?_
  split
  · exact Notes.wanted_empty s
  · dsimp only
    split
    · exact Notes.wanted_fixed _ _ (Notes.wanted_empty s)
    · exact Notes.wanted_empty s

end Align

namespace PragmaOrder

theorem apply_withAdvice (m : Module) : apply (s.withAdvice a) m = apply s m := rfl

theorem wanted_header? {m m' : Module} {notes notes' : Notes} (h : header? s m notes = some (m', notes'))
    (hnotes : notes.Wanted s) : notes'.Wanted s := by
  unfold header? at h
  split at h
  · cases h
  · split at h
    · cases h
    · cases h
      split
      · exact hnotes
      · exact Notes.wanted_fixed _ _ hnotes

theorem wanted_binders? {m m' : Module} {notes notes' : Notes} (h : binders? s m notes = some (m', notes'))
    (hnotes : notes.Wanted s) : notes'.Wanted s := by
  unfold binders? at h
  dsimp only at h
  split at h
  · cases h
  · cases h
    refine List.foldlRecOn _ _ hnotes fun notes hnotes d _ => ?_
    split
    · split
      · exact Notes.wanted_fixed _ _ hnotes
      · exact hnotes
    · exact hnotes

theorem wanted (m : Module) : (apply s m).notes.Wanted s := by
  unfold apply
  cases hheader : header? s m {} with
  | none =>
    dsimp only
    split
    · next h => exact wanted_binders? h (Notes.wanted_empty s)
    · exact Notes.wanted_empty s
  | some headed =>
    have hheaded := wanted_header? hheader (Notes.wanted_empty s)
    dsimp only
    split
    · next h => exact wanted_binders? h hheaded
    · exact hheaded

end PragmaOrder

namespace ImportOrder

theorem wanted_advice (m : Module) : ∀ d ∈ advice s m, s.reports d :=
  fun _ hd => (List.mem_filter.1 hd).2

theorem advisedBy_advice (s : Settings) (m : Module) : Diagnostic.AdvisedBy .importOrder (advice s m) := by
  intro d hd
  rcases List.mem_append.1 (List.mem_of_mem_filter hd) with hd | hd
  · split at hd
    · split at hd
      · rw [List.mem_singleton.1 hd]
        rfl
      · cases hd
    · cases hd
  · obtain ⟨i, -, hi⟩ := List.mem_filterMap.1 hd
    unfold importAdvice at hi
    split at hi
    · cases hi
    · split at hi
      · split at hi <;> cases hi
        rfl
      · dsimp only at hi
        split at hi <;> cases hi
        rfl

theorem restrict_advice (h : Settings.AgreeOn keep s t) (m : Module) :
    Diagnostic.restrict keep (advice s m) = Diagnostic.restrict keep (advice t m) := by
  rcases h.advice with ⟨hkeep, -, -⟩ | ⟨-, hthreshold⟩
  · rw [Diagnostic.restrict_eq_nil hkeep (advisedBy_advice s m), Diagnostic.restrict_eq_nil hkeep (advisedBy_advice t m)]
  · have himport : importAdvice s = importAdvice t := by
      funext reexport i
      unfold importAdvice
      rw [hthreshold]
    unfold advice
    rw [himport]
    exact Diagnostic.restrict_filter_reports h _

theorem restrict_apply (h : Settings.AgreeOn keep s t) (m : Module) :
    (apply s m).restrict keep = (apply t m).restrict keep := by
  have ht : t = s.withAdvice t := h.layout.withAdvice_eq.symm
  have hadvice : (⟨advice s m, [], []⟩ : Notes).restrict keep = (⟨advice t m, [], []⟩ : Notes).restrict keep :=
    congrArg (Notes.mk · [] []) (restrict_advice h m)
  have hgroups : groups t m = groups s m := by
    rw [ht]
    rfl
  have htext (m : Module) : (m.render t).text = (m.render s).text := by
    have hprinter : Printer.ofModule t m = (Printer.ofModule s m).withAdvice t := by
      rw [Printer.withAdvice, Printer.ofModule, Printer.ofModule, ← ht]
    simp only [Module.render, hprinter, Printer.moduleParts_withAdvice, Printer.start_withAdvice]
  unfold apply
  dsimp only
  rw [hgroups, htext, htext]
  split
  · split
    · split
      · refine congrArg (RuleResult.mk _ _) ?_
        exact congrArg (Notes.count "imports-sorted" _) (Notes.restrict_fixed h "import-order" _ hadvice)
      · split
        · exact congrArg (RuleResult.mk _ _) (Notes.restrict_fixed h _ _ hadvice)
        · exact congrArg (RuleResult.mk _ _) hadvice
    · exact congrArg (RuleResult.mk _ _) hadvice
  · exact congrArg (RuleResult.mk _ _) hadvice

theorem wanted (m : Module) : (apply s m).notes.Wanted s := by
  have hadvice : Notes.Wanted s ⟨advice s m, [], []⟩ := wanted_advice m
  unfold apply
  dsimp only
  split
  · split
    · split
      · exact Notes.wanted_fixed _ _ hadvice
      · split
        · exact Notes.wanted_fixed _ _ hadvice
        · exact hadvice
    · exact hadvice
  · exact hadvice

end ImportOrder

namespace DerivingFormat

theorem restrict_declarations (h : Settings.AgreeOn keep s t) (p : Printer) (ds : List Declaration)
    {notes notes' : Notes} (hnotes : notes.restrict keep = notes'.restrict keep) :
    (declarations s p ds notes).1 = (declarations t (p.withAdvice t) ds notes').1
      ∧ (declarations s p ds notes).2.restrict keep = (declarations t (p.withAdvice t) ds notes').2.restrict keep := by
  have hnormalize : normalize t = normalize s := by
    rw [← h.layout.withAdvice_eq]
    rfl
  have hclauses : clausesText (p.withAdvice t) = clausesText p := by
    funext d
    rw [clausesText, clausesText, Printer.declarationText_withAdvice]
  induction ds generalizing notes notes' with
  | nil => exact ⟨rfl, hnotes⟩
  | cons d more ih =>
    have hd : (declaration s p d notes).1 = (declaration t (p.withAdvice t) d notes').1
        ∧ (declaration s p d notes).2.restrict keep = (declaration t (p.withAdvice t) d notes').2.restrict keep := by
      unfold declaration
      rw [hnormalize, hclauses]
      split
      · split
        · refine ⟨rfl, ?_⟩
          dsimp only
          split
          · exact Notes.restrict_fixed h _ _ hnotes
          · exact hnotes
        · exact ⟨rfl, hnotes⟩
      · exact ⟨rfl, hnotes⟩
    have hmore := ih hd.2
    exact ⟨congrArg₂ List.cons hd.1 hmore.1, hmore.2⟩

theorem restrict_apply (h : Settings.AgreeOn keep s t) (m : Module) :
    (apply s m).restrict keep = (apply t m).restrict keep := by
  have hlazy : Diagnostic.restrict keep (lazyFields s m) = Diagnostic.restrict keep (lazyFields t m) :=
    Diagnostic.restrict_filter_reports h _
  have hrepeated : Diagnostic.restrict keep (repeatedClasses s m) = Diagnostic.restrict keep (repeatedClasses t m) :=
    Diagnostic.restrict_filter_reports h _
  have hadvice : (⟨lazyFields s m ++ repeatedClasses s m, [], []⟩ : Notes).restrict keep
      = (⟨lazyFields t m ++ repeatedClasses t m, [], []⟩ : Notes).restrict keep := by
    unfold Notes.restrict
    dsimp only
    rw [Diagnostic.restrict_append, Diagnostic.restrict_append, hlazy, hrepeated]
  have hprinter : Printer.ofModule t m = (Printer.ofModule s m).withAdvice t := by
    rw [Printer.withAdvice, Printer.ofModule, Printer.ofModule, h.layout.withAdvice_eq]
  obtain ⟨hds, hnotes⟩ := restrict_declarations h (Printer.ofModule s m) m.declarations hadvice
  rw [← hprinter] at hds hnotes
  unfold apply RuleResult.restrict
  dsimp only
  rw [hds, hnotes]

theorem wanted (m : Module) : (apply s m).notes.Wanted s := by
  have hds (p : Printer) (ds : List Declaration) {notes : Notes} (hnotes : notes.Wanted s) :
      (declarations s p ds notes).2.Wanted s := by
    induction ds generalizing notes with
    | nil => exact hnotes
    | cons d more ih =>
      refine ih ?_
      split
      · split
        · dsimp only
          split
          · exact Notes.wanted_fixed _ _ hnotes
          · exact hnotes
        · exact hnotes
      · exact hnotes
  refine hds _ _ fun d hd => ?_
  rcases List.mem_append.1 hd with hd | hd <;> exact (List.mem_filter.1 hd).2

end DerivingFormat

namespace Names

theorem advisedBy_advice {m : Module} {ds : List Diagnostic} (h : advice s m = .ok ds) :
    Diagnostic.AdvisedBy .naming ds := by
  obtain ⟨pattern, -, h⟩ := bind_eq_ok h
  cases h
  intro d hd
  rcases List.mem_append.1 (List.mem_of_mem_filter hd) with hd | hd
  · obtain ⟨⟨role, t⟩, -, hd⟩ := List.mem_flatMap.1 hd
    rcases List.mem_append.1 hd with hd | hd
    · split at hd
      · cases hd
      · rw [List.mem_singleton.1 hd]
        rfl
    · obtain ⟨run, -, rfl⟩ := List.mem_map.1 hd
      rfl
  · obtain ⟨t, -, rfl⟩ := List.mem_map.1 hd
    rfl

theorem exists_advice (h : s.naming.Compile) (m : Module) : ∃ ds, advice s m = .ok ds := by
  cases hpatterns : patterns s.naming with
  | error e => exact absurd h (patterns_eq_error_iff.1 hpatterns).2
  | ok pattern => exact ⟨_, by rw [advice, hpatterns]; rfl⟩

theorem restrict_advice (h : Settings.AgreeOn keep s t) (m : Module) :
    (advice s m).map (Diagnostic.restrict keep) = (advice t m).map (Diagnostic.restrict keep) := by
  rcases h.advice with ⟨hkeep, hs, ht⟩ | ⟨hnaming, -⟩
  · obtain ⟨ds, hds⟩ := exists_advice hs m
    obtain ⟨ds', hds'⟩ := exists_advice ht m
    rw [hds, hds']
    exact congrArg Except.ok ((Diagnostic.restrict_eq_nil hkeep (advisedBy_advice hds)).trans
      (Diagnostic.restrict_eq_nil hkeep (advisedBy_advice hds')).symm)
  · unfold advice
    dsimp only
    rw [hnaming]
    cases patterns t.naming with
    | error e => rfl
    | ok pattern => exact congrArg Except.ok (Diagnostic.restrict_filter_reports h _)

theorem restrict_apply (h : Settings.AgreeOn keep s t) (m : Module) :
    (apply s m).map (RuleResult.restrict keep) = (apply t m).map (RuleResult.restrict keep) := by
  have hform (s : Settings) : (apply s m).map (RuleResult.restrict keep)
      = ((advice s m).map (Diagnostic.restrict keep)).map fun found => ⟨m, true, { found }⟩ := by
    unfold apply
    cases advice s m <;> rfl
  rw [hform, hform, restrict_advice h]

theorem wanted_advice {m : Module} {ds : List Diagnostic} (h : advice s m = .ok ds) : ∀ d ∈ ds, s.reports d := by
  obtain ⟨pattern, -, h⟩ := bind_eq_ok h
  cases h
  exact fun d hd => (List.mem_filter.1 hd).2

theorem wanted {m : Module} {result : RuleResult} (h : apply s m = .ok result) : result.notes.Wanted s := by
  obtain ⟨ds, hds, h⟩ := bind_eq_ok h
  cases h
  exact wanted_advice hds

end Names

namespace Rule

/--
With settings that agree, a rule gives the same apart from findings that are not kept.
-/
theorem restrict_apply (h : Settings.AgreeOn keep s t) (m : Module) (rule : Rule) :
    (rule.apply s m).map (RuleResult.restrict keep) = (rule.apply t m).map (RuleResult.restrict keep) := by
  cases rule with
  | indentation => rw [apply, apply, ← h.layout.withAdvice_eq, Indent.apply_withAdvice]
  | alignment => rw [apply, apply, ← h.layout.withAdvice_eq, Align.apply_withAdvice]
  | importOrder => exact congrArg Except.ok (ImportOrder.restrict_apply h m)
  | pragmaPlacement => rw [apply, apply, ← h.layout.withAdvice_eq, PragmaOrder.apply_withAdvice]
  | strictnessDeriving => exact congrArg Except.ok (DerivingFormat.restrict_apply h m)
  | naming => exact Names.restrict_apply h m

/--
A rule gives no finding that the settings do not ask for.
-/
theorem wanted_apply {m : Module} {rule : Rule} {result : RuleResult} (h : rule.apply s m = .ok result) :
    result.notes.Wanted s := by
  cases rule with
  | indentation => cases h; exact Indent.wanted m
  | alignment => exact Align.wanted h
  | importOrder => cases h; exact ImportOrder.wanted m
  | pragmaPlacement => cases h; exact PragmaOrder.wanted m
  | strictnessDeriving => cases h; exact DerivingFormat.wanted m
  | naming => exact Names.wanted h

/--
With settings that agree, rules one after the other give the same apart from findings that are not kept.
-/
theorem restrict_applyAll (h : Settings.AgreeOn keep s t) (m : Module) (rules : List Rule) :
    (applyAll s m rules).1.map (fun r => (r.1, r.2.restrict keep))
        = (applyAll t m rules).1.map (fun r => (r.1, r.2.restrict keep))
      ∧ (applyAll s m rules).2 = (applyAll t m rules).2 := by
  induction rules generalizing m with
  | nil => exact ⟨rfl, rfl⟩
  | cons rule more ih =>
    unfold applyAll
    rcases cases_of_map_eq (restrict_apply h m rule) with ⟨e, hs, ht⟩ | ⟨result, result', hs, ht, hresult⟩
    · rw [hs, ht]
      exact ⟨rfl, rfl⟩
    · have hmodule : result.module = result'.module := by
        show (result.restrict keep).module = (result'.restrict keep).module
        rw [hresult]
      obtain ⟨hmore, hfailure⟩ := ih result.module
      rw [hs, ht]
      dsimp only
      rw [← hmodule]
      exact ⟨by rw [List.map_cons, List.map_cons, hresult, hmore], hfailure⟩

end Rule

end HaskellStyle
