import HaskellStyle.Proofs.Format.Advice
import HaskellStyle.Proofs.Rule.Unlaid

/-!
This module contains that the formatter and the linter give the same advice. The linter looks at the module as it is
written, and the formatter at what the rules have made of it so far; but rules change nothing that advice is about.
-/

namespace HaskellStyle

/--
Whether advice of a kind is given both by the formatter and by the linter for the same reasons.
-/
def DiagnosticKind.isShared (kind : DiagnosticKind) : Bool :=
  kind.adviser?.isSome

/--
The shared advice among findings.
-/
def Diagnostic.shared (ds : List Diagnostic) : List Diagnostic :=
  ds.filter (·.kind.isShared)

namespace Diagnostic

theorem AdvisedBy.append {rule : Rule} {ds ds' : List Diagnostic} (h : AdvisedBy rule ds) (h' : AdvisedBy rule ds') :
    AdvisedBy rule (ds ++ ds') :=
  List.forall_mem_append.2 ⟨h, h'⟩

theorem shared_append (ds ds' : List Diagnostic) : shared (ds ++ ds') = shared ds ++ shared ds' :=
  List.filter_append ..

theorem shared_sort (ds : List Diagnostic) : shared (sort ds) = sort (shared ds) :=
  sort_restrict ds

theorem shared_eq_nil {ds : List Diagnostic} (h : ∀ d ∈ ds, d.kind.adviser? = none) : shared ds = [] := by
  refine List.filter_eq_nil_iff.2 fun d hd => ?_
  rw [DiagnosticKind.isShared, h d hd]
  exact nofun

theorem shared_eq_self {rule : Rule} {ds : List Diagnostic} (h : AdvisedBy rule ds) : shared ds = ds := by
  refine List.filter_eq_self.2 fun d hd => ?_
  rw [DiagnosticKind.isShared, h d hd]
  rfl

theorem adviser?_eq_none {kind : DiagnosticKind} (h : kind.check = none) : kind.adviser? = none := by
  cases kind <;> first | rfl | cases h

/--
The advice of different rules is reported in the same way in whatever order the rules give it.
-/
theorem filter_append_comm {rule rule' : Rule} (hne : rule ≠ rule') {ds ds' : List Diagnostic}
    (h : AdvisedBy rule ds) (h' : AdvisedBy rule' ds') (kind : DiagnosticKind) :
    ds.filter (·.kind = kind) ++ ds'.filter (·.kind = kind)
      = ds'.filter (·.kind = kind) ++ ds.filter (·.kind = kind) := by
  have hnone {rule : Rule} {ds : List Diagnostic} (h : AdvisedBy rule ds) (hkind : kind.adviser? ≠ some rule) :
      ds.filter (·.kind = kind) = [] := by
    refine List.filter_eq_nil_iff.2 fun d hd hdkind => hkind ?_
    rw [← of_decide_eq_true hdkind]
    exact h d hd
  by_cases hkind : kind.adviser? = some rule
  · have hkind' : kind.adviser? ≠ some rule' := fun heq => hne (Option.some.inj (hkind.symm.trans heq))
    rw [hnone h' hkind', List.append_nil, List.nil_append]
  · rw [hnone h hkind, List.append_nil, List.nil_append]

end Diagnostic

variable {settings : Settings}

/--
A rule that takes no notice of the settings for advice finds nothing that they turn off.
-/
theorem Notes.Wanted.shared {notes : Notes} (h : notes.Wanted { settings with enabledChecks := [] }) :
    Diagnostic.shared notes.found = [] := by
  refine Diagnostic.shared_eq_nil fun d hd => Diagnostic.adviser?_eq_none ?_
  have hreported := h d hd
  unfold Settings.reports Settings.checkEnabled at hreported
  cases hcheck : d.kind.check with
  | none => rfl
  | some check =>
    rw [hcheck] at hreported
    cases hreported

theorem Notes.shared_fixed {notes : Notes} (fix : String) (d : Diagnostic) (hd : d.kind.adviser? = none) :
    Diagnostic.shared (notes.fixed settings fix d).found = Diagnostic.shared notes.found := by
  have hnone : Diagnostic.shared ([d].filter settings.reports) = [] := by
    refine Diagnostic.shared_eq_nil fun e he => ?_
    rw [List.mem_singleton.1 (List.mem_of_mem_filter he)]
    exact hd
  rw [fixed_eq, Diagnostic.shared_append, hnone, List.append_nil]

section Rules

theorem Indent.shared_apply (m : Module) : Diagnostic.shared (apply settings m).notes.found = [] := by
  rw [← apply_withAdvice (s := settings) (a := { settings with enabledChecks := [] })]
  exact (wanted m).shared

theorem Align.shared_apply {m : Module} {result : RuleResult} (h : apply settings m = .ok result) :
    Diagnostic.shared result.notes.found = [] := by
  rw [← apply_withAdvice (s := settings) (a := { settings with enabledChecks := [] })] at h
  exact (wanted h).shared

theorem PragmaOrder.shared_apply (m : Module) : Diagnostic.shared (apply settings m).notes.found = [] := by
  rw [← apply_withAdvice (s := settings) (a := { settings with enabledChecks := [] })]
  exact (wanted m).shared

namespace ImportOrder

variable (settings) (m : Module)

theorem shared_apply : Diagnostic.shared (apply settings m).notes.found = advice settings m := by
  have hadvice := Diagnostic.shared_eq_self (advisedBy_advice settings m)
  unfold apply
  dsimp only
  split
  · split
    · dsimp only
      split
      · exact (Notes.shared_fixed _ _ rfl).trans hadvice
      · split
        · exact (Notes.shared_fixed _ _ rfl).trans hadvice
        · exact hadvice
    · exact hadvice
  · exact hadvice

end ImportOrder

namespace DerivingFormat

variable (settings) (m : Module)

theorem advisedBy_lazyFields : Diagnostic.AdvisedBy .strictnessDeriving (lazyFields settings m) := by
  intro d hd
  obtain ⟨field, -, rfl⟩ := List.mem_map.1 (List.mem_of_mem_filter hd)
  rfl

theorem advisedBy_repeatedClasses : Diagnostic.AdvisedBy .strictnessDeriving (repeatedClasses settings m) := by
  intro d hd
  obtain ⟨decl, -, hd⟩ := List.mem_flatMap.1 (List.mem_of_mem_filter hd)
  obtain ⟨name, -, rfl⟩ := List.mem_map.1 hd
  rfl

theorem shared_declarations (p : Printer) (ds : List Declaration) (notes : Notes) :
    Diagnostic.shared (declarations settings p ds notes).2.found = Diagnostic.shared notes.found := by
  induction ds generalizing notes with
  | nil => rfl
  | cons d more ih =>
    have hd : Diagnostic.shared (declaration settings p d notes).2.found = Diagnostic.shared notes.found := by
      unfold declaration
      split
      · split
        · dsimp only
          split
          · exact Notes.shared_fixed _ _ rfl
          · rfl
        · rfl
      · rfl
    exact (ih _).trans hd

theorem shared_apply : Diagnostic.shared (apply settings m).notes.found
    = lazyFields settings m ++ repeatedClasses settings m :=
  (shared_declarations settings _ _ _).trans
    (Diagnostic.shared_eq_self ((advisedBy_lazyFields settings m).append (advisedBy_repeatedClasses settings m)))

end DerivingFormat

end Rules

namespace Module

/--
The shared advice that the rules give, one after the other, is the advice on the module that they were given.
-/
theorem shared_applyRules {m : Module} {ruled : RuledModule} (h : m.applyRules settings = .ok ruled) :
    ∃ names, Names.advice settings m = .ok names ∧ Diagnostic.shared ruled.found
      = ImportOrder.advice settings m ++ (DerivingFormat.lazyFields settings m ++ DerivingFormat.repeatedClasses settings m)
        ++ names := by
  unfold applyRules Rule.all at h
  simp only [Rule.applyAll, Rule.apply] at h
  cases haligned : Align.apply settings (Indent.apply settings m).module with
  | error e => simp [haligned] at h
  | ok aligned =>
    have hlaid : aligned.module.unlaid = m.unlaid :=
      (Align.unlaid_apply haligned).trans (Indent.unlaid_apply settings m)
    have himports := ImportOrder.advice_of_unlaid settings hlaid
    have hfields := DerivingFormat.lazyFields_of_unlaid settings hlaid
    have hclasses := DerivingFormat.repeatedClasses_of_unlaid settings hlaid
    have hnames := Names.advice_of_unlaid settings hlaid
    simp only [haligned] at h
    cases hnamed : Names.apply settings (aligned.module.finished settings) with
    | error e =>
      rw [finished] at hnamed
      simp [hnamed] at h
    | ok named =>
      obtain ⟨names, hadvice, hresult⟩ := bind_eq_ok hnamed
      cases hresult
      rw [finished] at hnamed
      simp only [hnamed] at h
      cases h
      refine ⟨names, hnames ▸ hadvice, ?_⟩
      simp only [List.flatMap_cons, List.flatMap_nil, Diagnostic.shared_append, List.append_nil, Indent.shared_apply,
        Align.shared_apply haligned, ImportOrder.shared_apply, PragmaOrder.shared_apply, DerivingFormat.shared_apply,
        Diagnostic.shared_eq_self (Names.advisedBy_advice hadvice), himports, hfields, hclasses, List.nil_append,
        List.append_assoc]

theorem adviser?_longLines (settings : Settings) (text : List Char) :
    ∀ d ∈ longLines settings text, d.kind.adviser? = none := by
  intro d hd
  unfold longLines at hd
  split at hd
  · obtain ⟨row, -, hrow⟩ := List.mem_filterMap.1 hd
    dsimp only at hrow
    split at hrow <;> cases hrow
    rfl
  · cases hd

theorem shared_render (m : Module) : Diagnostic.shared (m.render settings).found = [] := by
  refine Diagnostic.shared_eq_nil fun d hd => ?_
  rcases List.mem_append.1 hd with hd | hd
  · rw [kind_found_moduleParts _ m d (List.mem_reverse.1 hd)]
    rfl
  · exact adviser?_longLines settings _ d hd

theorem shared_lint {m : Module} {text : List Char} {ds : List Diagnostic} (h : m.lint settings text = .ok ds) :
    ∃ names, Names.advice settings m = .ok names ∧ Diagnostic.shared ds = Diagnostic.sort
      (names ++ (DerivingFormat.lazyFields settings m ++ DerivingFormat.repeatedClasses settings m)
        ++ ImportOrder.advice settings m) := by
  obtain ⟨names, hnames, h⟩ := bind_eq_ok h
  cases h
  refine ⟨names, hnames, ?_⟩
  have hnone {ds : List Diagnostic} (h : ∀ d ∈ ds, d.kind.adviser? = none) :
      Diagnostic.shared (ds.filter settings.reports) = [] :=
    Diagnostic.shared_eq_nil fun d hd => h d (List.mem_of_mem_filter hd)
  have hkept {rule : Rule} {ds : List Diagnostic} (h : Diagnostic.AdvisedBy rule ds)
      (hwanted : ∀ d ∈ ds, settings.reports d) : Diagnostic.shared (ds.filter settings.reports) = ds := by
    rw [List.filter_eq_self.2 hwanted, Diagnostic.shared_eq_self h]
  have hsignatures : Diagnostic.shared ((Lint.missingSignatures m).filter settings.reports) = [] := by
    refine hnone fun d hd => ?_
    obtain ⟨t, -, rfl⟩ := List.mem_map.1 hd
    rfl
  have hrecords : Diagnostic.shared ((Lint.recordsInSumTypes m).filter settings.reports) = [] := by
    refine hnone fun d hd => ?_
    obtain ⟨c, -, rfl⟩ := List.mem_map.1 hd
    rfl
  have hreducible : Diagnostic.shared ((Lint.etaReducible m).filter settings.reports) = [] := by
    refine hnone fun d hd => ?_
    obtain ⟨c, -, hc⟩ := List.mem_filterMap.1 hd
    dsimp only at hc
    split at hc
    · obtain ⟨reduced, -, rfl⟩ := Option.map_eq_some_iff.1 hc
      rfl
    · cases hc
  have hblanks : Diagnostic.shared ((Lint.trailingBlanks m text).filter settings.reports) = [] := by
    refine hnone fun d hd => ?_
    obtain ⟨edit, -, rfl⟩ := List.mem_map.1 hd
    rfl
  have htabs : Diagnostic.shared ((Lint.tabs m text).filter settings.reports) = [] := by
    refine hnone fun d hd => ?_
    obtain ⟨piece, -, rfl⟩ := List.mem_map.1 hd
    rfl
  rw [Diagnostic.shared_sort]
  refine congrArg Diagnostic.sort ?_
  simp only [List.filter_append, Diagnostic.shared_append, hsignatures, hrecords, hreducible, hblanks, htabs,
    hnone (adviser?_longLines settings text), hkept (Names.advisedBy_advice hnames) (Names.wanted_advice hnames),
    hkept (ImportOrder.advisedBy_advice settings m) (ImportOrder.wanted_advice m),
    hkept (DerivingFormat.advisedBy_lazyFields settings m) fun _ hd => (List.mem_filter.1 hd).2,
    hkept (DerivingFormat.advisedBy_repeatedClasses settings m) fun _ hd => (List.mem_filter.1 hd).2,
    List.nil_append, List.append_assoc]

end Module

namespace Format

theorem shared_lineFixes (m : Module) (text : List Char) : Diagnostic.shared (lineFixes settings m text) = [] := by
  refine Diagnostic.shared_eq_nil fun d hd => ?_
  obtain ⟨edit, -, rfl⟩ := List.mem_map.1 (List.mem_of_mem_filter hd)
  split <;> rfl

/--
When a source can be formatted and linted, the shared advice of both is the same, in the same order.
-/
theorem advice_agrees {selfCheck : Bool} {path : Option String} {s : Source} {f : Formatted} {ds : List Diagnostic}
    (hformat : source settings selfCheck path s = .ok f) (hlint : s.lint settings = .ok ds) :
    f.found.filter (·.kind.isShared) = ds.filter (·.kind.isShared) := by
  obtain ⟨cs, hdecode, htext, -⟩ := (source_eq_ok_iff selfCheck path s f).1 hformat
  unfold Source.lint at hlint
  rw [hdecode] at hlint
  obtain ⟨m, hm, htext⟩ := bind_eq_ok htext
  obtain ⟨cs', hcs, hlint⟩ := bind_eq_ok hlint
  cases hcs
  obtain ⟨m', hm', hlint⟩ := bind_eq_ok hlint
  cases hm.symm.trans hm'
  obtain ⟨ruled, hruled, htext⟩ := bind_eq_ok htext
  cases htext
  obtain ⟨names, hnames, hruled⟩ := Module.shared_applyRules (mapError_eq_ok hruled)
  obtain ⟨names', hnames', hlinted⟩ := Module.shared_lint (mapError_eq_ok hlint)
  cases hnames.symm.trans hnames'
  refine Eq.trans ?_ hlinted.symm
  refine (Diagnostic.shared_sort _).trans ?_
  rw [Diagnostic.shared_append, Diagnostic.shared_append, hruled, Module.shared_render, shared_lineFixes,
    List.append_nil, List.append_nil]
  have himports := ImportOrder.advisedBy_advice settings m
  have hfields := (DerivingFormat.advisedBy_lazyFields settings m).append
    (DerivingFormat.advisedBy_repeatedClasses settings m)
  have hnames := Names.advisedBy_advice hnames
  refine Diagnostic.sort_congr fun kind => ?_
  rw [List.filter_append, List.filter_append, List.filter_append (_ ++ _), List.filter_append names]
  rw [Diagnostic.filter_append_comm (by decide) himports hfields, List.append_assoc,
    Diagnostic.filter_append_comm (by decide) himports hnames, ← List.append_assoc,
    Diagnostic.filter_append_comm (by decide) hfields hnames]

/--
Imports that are regrouped, a record that is laid out and a pragma that is moved, with advice on all of them.
-/
theorem advice_agrees_record :
    let cs := "import B\nimport A\n\x7b-# INLINE a_b #-\x7d\ndata T = T \x7bn :: Int\x7d deriving (Eq, Eq)\na_b = 1\n".toList
    ∃ f ds, source {} false none (.text cs) = .ok f ∧ (Source.text cs).lint {} = .ok ds
      ∧ f.found.filter (·.kind.isShared) = ds.filter (·.kind.isShared) := by
  intro cs
  have hformatted : (source {} false none (.text cs)).toOption.isSome := by decide +kernel
  have hlinted : ((Source.text cs).lint {}).toOption.isSome := by decide +kernel
  obtain ⟨f, hf⟩ := Option.isSome_iff_exists.1 hformatted
  obtain ⟨ds, hds⟩ := Option.isSome_iff_exists.1 hlinted
  have hformat := toOption_eq_some hf
  have hlint := toOption_eq_some hds
  exact ⟨f, ds, hformat, hlint, advice_agrees hformat hlint⟩

end Format

end HaskellStyle
