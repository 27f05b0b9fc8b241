import HaskellStyle.Proofs.Diagnostic.Sort
import HaskellStyle.Proofs.Format.Success
import HaskellStyle.Proofs.Print.Kept
import HaskellStyle.Proofs.Rule.Advice

/-!
This module contains what the settings for advice have an influence on in formatting and linting. They choose among
the findings, and have no influence on the output of a run. The check of the formatter on its own output is the
exception: it looks at the findings of a second run, and one of the kinds that it looks at, blanks at the end of a
line, can be turned off.
-/

namespace HaskellStyle

variable {keep : DiagnosticKind → Bool} {s t : Settings}

namespace Diagnostic

theorem sort_restrict (ds : List Diagnostic) : restrict keep (sort ds) = sort (restrict keep ds) := by
  refine (sort_filter (fun a b hsame => ?_) ds).symm
  unfold sameReport at hsame
  rw [Bool.and_eq_true, Bool.and_eq_true, decide_eq_true_eq] at hsame
  rw [hsame.1.1]

theorem mem_of_mem_dedup {d : Diagnostic} {ds : List Diagnostic} (h : d ∈ dedup ds) : d ∈ ds := by
  induction ds with
  | nil => cases h
  | cons e ds ih =>
    rcases List.mem_cons.1 h with rfl | h
    · exact List.mem_cons_self
    · exact List.mem_cons_of_mem _ (ih (List.mem_filter.1 h).1)

theorem mem_of_mem_sort {d : Diagnostic} {ds : List Diagnostic} (h : d ∈ sort ds) : d ∈ ds :=
  List.mem_mergeSort.1 (mem_of_mem_dedup h)

theorem restrict_filter_congr (h : Settings.AgreeOn keep s t) {ds ds' : List Diagnostic}
    (hds : restrict keep ds = restrict keep ds') :
    restrict keep (ds.filter s.reports) = restrict keep (ds'.filter t.reports) := by
  have hswap (s : Settings) (ds : List Diagnostic) :
      restrict keep (ds.filter s.reports) = (restrict keep ds).filter s.reports := by
    unfold restrict
    rw [List.filter_filter, List.filter_filter]
    exact List.filter_congr fun d _ => Bool.and_comm _ _
  rw [restrict_filter_reports h, hswap, hswap, hds]

end Diagnostic

theorem longLines_eq (s : Settings) (text : List Char) :
    longLines s text = (longLines s.withAllChecks text).filter s.reports := by
  have hkinds : ∀ d ∈ longLines s.withAllChecks text, s.reports d = s.checkEnabled DiagnosticKind.longLine.check := by
    intro d hd
    unfold longLines at hd
    rw [if_pos (s.checkEnabled_withAllChecks .longLine)] at hd
    obtain ⟨row, -, hrow⟩ := List.mem_filterMap.1 hd
    dsimp only at hrow
    split at hrow <;> cases hrow
    rfl
  rw [List.filter_congr hkinds]
  unfold longLines
  rw [if_pos (s.checkEnabled_withAllChecks .longLine)]
  split
  · next h => simp only [h, List.filter_true]; rfl
  · next h => simp only [h, List.filter_false]

theorem restrict_longLines (h : Settings.AgreeOn keep s t) (text : List Char) :
    Diagnostic.restrict keep (longLines s text) = Diagnostic.restrict keep (longLines t text) := by
  have hall : longLines (s.withAdvice t).withAllChecks text = longLines s.withAllChecks text := rfl
  rw [h.layout.withAdvice_eq] at hall
  rw [longLines_eq s, longLines_eq t, hall]
  exact Diagnostic.restrict_filter_reports h _

namespace Module

theorem text_render (h : s.SameLayout t) (m : Module) : (m.render s).text = (m.render t).text := by
  have hprinter : Printer.ofModule t m = (Printer.ofModule s m).withAdvice t := by
    rw [Printer.withAdvice, Printer.ofModule, Printer.ofModule, h.withAdvice_eq]
  simp only [Module.render, hprinter, Printer.moduleParts_withAdvice, Printer.start_withAdvice]

theorem restrict_found_render (h : Settings.AgreeOn keep s t) (m : Module) :
    Diagnostic.restrict keep (m.render s).found = Diagnostic.restrict keep (m.render t).found := by
  have hprinter : Printer.ofModule t m = (Printer.ofModule s m).withAdvice t := by
    rw [Printer.withAdvice, Printer.ofModule, Printer.ofModule, h.layout.withAdvice_eq]
  have hform (s : Settings) : (m.render s).found
      = ((Printer.ofModule s m).moduleParts m (Printer.ofModule s m).start).found.reverse
        ++ longLines s (m.render s).text := rfl
  rw [hform, hform, Diagnostic.restrict_append, Diagnostic.restrict_append, ← text_render h.layout,
    restrict_longLines h, hprinter, Printer.moduleParts_withAdvice, Printer.start_withAdvice]

theorem kind_found_moduleParts (p : Printer) (m : Module) :
    ∀ d ∈ (p.moduleParts m p.start).found, d.kind = .endOfLineCommentSpacing := by
  have hkept : Output.Kept (fun _ => True) fun out => ∀ d ∈ out.found, d.kind = .endOfLineCommentSpacing := by
    refine ⟨⟨trivial, fun _ => trivial⟩, fun _ _ _ => trivial, fun _ _ h => h, fun d hd h e he => ?_⟩
    rcases List.mem_cons.1 he with rfl | he
    · exact hd
    · exact h e he
  exact Printer.moduleParts_kept hkept p (fun d hd => absurd hd List.not_mem_nil)
    fun _ _ => ⟨fun _ _ => trivial, fun _ _ _ _ => trivial, fun _ _ _ _ => trivial⟩

theorem wanted_found_render (s : Settings) (m : Module) : ∀ d ∈ (m.render s).found, s.reports d := by
  intro d hd
  rcases List.mem_append.1 hd with hd | hd
  · unfold Settings.reports
    rw [kind_found_moduleParts _ m d (List.mem_reverse.1 hd)]
    rfl
  · rw [longLines_eq] at hd
    exact (List.mem_filter.1 hd).2

theorem restrict_applyRules_eq (keep : DiagnosticKind → Bool) (s : Settings) (m : Module) :
    (m.applyRules s).map (RuledModule.restrict keep) = match (Rule.applyAll s m Rule.all).2 with
      | some e => .error e
      | none => .ok (
        let results := (Rule.applyAll s m Rule.all).1.map fun r => (r.1, r.2.restrict keep)
        { module := ((results.getLast?).map (·.2.module)).getD m
          found := results.flatMap (·.2.notes.found)
          fixes := (results.flatMap (·.2.notes.fixes)).eraseDups }) := by
  unfold applyRules
  dsimp only
  cases (Rule.applyAll s m Rule.all).2 with
  | some e => rfl
  | none =>
    refine congrArg Except.ok ?_
    simp only [RuledModule.restrict, Diagnostic.restrict, List.getLast?_map, Option.map_map, List.flatMap_map,
      List.filter_flatMap]
    rfl

theorem restrict_applyRules (h : Settings.AgreeOn keep s t) (m : Module) :
    (m.applyRules s).map (RuledModule.restrict keep) = (m.applyRules t).map (RuledModule.restrict keep) := by
  obtain ⟨hresults, hfailure⟩ := Rule.restrict_applyAll h m Rule.all
  rw [restrict_applyRules_eq, restrict_applyRules_eq, hresults, hfailure]

theorem wanted_applyRules {m : Module} {ruled : RuledModule} (h : m.applyRules s = .ok ruled) :
    ∀ d ∈ ruled.found, s.reports d := by
  have hall (m : Module) (rules : List Rule) : ∀ r ∈ (Rule.applyAll s m rules).1, r.2.notes.Wanted s := by
    induction rules generalizing m with
    | nil => exact fun r hr => absurd hr List.not_mem_nil
    | cons rule more ih =>
      intro r hr
      unfold Rule.applyAll at hr
      split at hr
      · cases hr
      · next result hresult =>
        rcases List.mem_cons.1 hr with rfl | hr
        · exact Rule.wanted_apply hresult
        · exact ih _ r hr
  unfold applyRules at h
  dsimp only at h
  split at h
  · cases h
  · cases h
    intro d hd
    obtain ⟨r, hr, hd⟩ := List.mem_flatMap.1 hd
    exact hall m Rule.all r hr d hd

/--
Linting with settings that agree gives the same advice apart from findings that are not kept.
-/
theorem restrict_lint (h : Settings.AgreeOn keep s t) (m : Module) (text : List Char) :
    (m.lint s text).map (Diagnostic.restrict keep) = (m.lint t text).map (Diagnostic.restrict keep) := by
  have hlazy : Diagnostic.restrict keep (DerivingFormat.lazyFields s m)
      = Diagnostic.restrict keep (DerivingFormat.lazyFields t m) := Diagnostic.restrict_filter_reports h _
  have hrepeated : Diagnostic.restrict keep (DerivingFormat.repeatedClasses s m)
      = Diagnostic.restrict keep (DerivingFormat.repeatedClasses t m) := Diagnostic.restrict_filter_reports h _
  unfold lint
  rcases cases_of_map_eq (Names.restrict_advice h m) with ⟨e, hs, ht⟩ | ⟨names, names', hs, ht, hnames⟩
  · rw [hs, ht]
    rfl
  · rw [hs, ht]
    refine congrArg Except.ok ?_
    rw [Diagnostic.sort_restrict, Diagnostic.sort_restrict]
    refine congrArg Diagnostic.sort (Diagnostic.restrict_filter_congr h ?_)
    simp only [Diagnostic.restrict_append, hnames, hlazy, hrepeated, restrict_longLines h,
      ImportOrder.restrict_advice h]

theorem wanted_lint {m : Module} {text : List Char} {ds : List Diagnostic} (h : m.lint s text = .ok ds) :
    ∀ d ∈ ds, s.reports d := by
  obtain ⟨names, -, h⟩ := bind_eq_ok h
  cases h
  exact fun d hd => (List.mem_filter.1 (Diagnostic.mem_of_mem_sort hd)).2

end Module

/--
A formatted text with the findings of the kinds to be kept.
-/
def Formatted.restrict (keep : DiagnosticKind → Bool) (f : Formatted) : Formatted :=
  { f with found := Diagnostic.restrict keep f.found }

namespace Format

/--
Formatting with settings that agree gives the same apart from findings that are not kept.
-/
theorem restrict_text (h : Settings.AgreeOn keep s t) (cs : List Char) :
    (text s cs).map (Formatted.restrict keep) = (text t cs).map (Formatted.restrict keep) := by
  unfold text
  cases Module.parse cs with
  | error e => simp only [bind, mapError_error, Except.bind]
  | ok m =>
    have hlines : Diagnostic.restrict keep (lineFixes s m cs) = Diagnostic.restrict keep (lineFixes t m cs) :=
      Diagnostic.restrict_filter_reports h _
    rcases cases_of_map_eq (Module.restrict_applyRules h m) with ⟨e, hs, ht⟩ | ⟨ruled, ruled', hs, ht, hruled⟩
    · simp only [hs, ht, bind, mapError_ok, mapError_error, Except.bind]
    · obtain ⟨hmodule, hfound, hfixes⟩ := RuledModule.mk.inj hruled
      simp only [hs, ht, bind, mapError_ok, Except.bind, pure, Except.pure, Except.map, Formatted.restrict,
        Diagnostic.sort_restrict, Diagnostic.restrict_append, hfound, hfixes, hlines, hmodule,
        Module.text_render h.layout, Module.restrict_found_render h]

theorem wanted_text {cs : List Char} {f : Formatted} (h : text s cs = .ok f) : ∀ d ∈ f.found, s.reports d := by
  obtain ⟨m, -, h⟩ := bind_eq_ok h
  obtain ⟨ruled, hruled, h⟩ := bind_eq_ok h
  cases h
  intro d hd
  rcases List.mem_append.1 (Diagnostic.mem_of_mem_sort hd) with hd | hd
  · rcases List.mem_append.1 hd with hd | hd
    · cases hrules : m.applyRules s with
      | error e =>
        rw [hrules] at hruled
        cases hruled
      | ok ruled' =>
        rw [hrules] at hruled
        cases hruled
        exact Module.wanted_applyRules hrules d hd
    · exact Module.wanted_found_render s _ d hd
  · exact (List.mem_filter.1 hd).2

theorem restrict_self {ds : List Diagnostic} (h : ∀ d ∈ ds, s.reports d) :
    Diagnostic.restrict (fun kind => s.checkEnabled kind.check) ds = ds :=
  List.filter_eq_self.2 h

/--
The findings of formatting are those of formatting with all checks on that the settings ask for.
-/
theorem found_text (s : Settings) (cs : List Char) :
    text s cs = (text s.withAllChecks cs).map fun f => { f with found := f.found.filter s.reports } := by
  have hagree := restrict_text s.agreeOn_withAllChecks cs
  cases hs : text s cs with
  | error e =>
    rw [hs] at hagree
    exact hagree
  | ok f =>
    rw [hs] at hagree
    refine Eq.trans (congrArg Except.ok ?_) hagree
    unfold Formatted.restrict
    rw [restrict_self (wanted_text hs)]

/--
The advice of linting is that of linting with all checks on that the settings ask for.
-/
theorem found_lint (s : Settings) (m : Module) (cs : List Char) :
    m.lint s cs = (m.lint s.withAllChecks cs).map fun ds => ds.filter s.reports := by
  have hagree := Module.restrict_lint s.agreeOn_withAllChecks m cs
  cases hs : m.lint s cs with
  | error e =>
    rw [hs] at hagree
    exact hagree
  | ok ds =>
    rw [hs] at hagree
    exact (congrArg Except.ok (restrict_self (Module.wanted_lint hs)).symm).trans hagree

/--
The output of formatting: the text, whether it differs from the source, and the names of the fixes.
-/
def output (f : Formatted) : List Char × Bool × List String :=
  (f.text, f.changed, f.fixes)

/--
The names of the kinds of fixes among findings.
-/
def fixedKinds (found : List Diagnostic) : List String :=
  ((Diagnostic.mechanical found).map (·.kind.name)).eraseDups.mergeSort fun a b => a ≤ b

/--
Whether the output of formatting a source stays as it is in a second run that still reports, with all checks on,
blanks at the end of a line.
-/
def BlanksStay (s : Settings) (source : Source) : Prop :=
  ∃ first second, Format.source s false none source = .ok first ∧ text s.withAllChecks first.text = .ok second
    ∧ second.text = first.text ∧ ∃ d ∈ second.found, d.kind = .trailingWhitespace

theorem source_false (path : Option String) (source : Source) :
    Format.source s false path source = source.decode.mapError .encoding >>= text s := by
  unfold Format.source
  cases source.decode with
  | error e => rfl
  | ok cs =>
    simp only [bind, mapError_ok, Except.bind, Bool.false_eq_true, if_false]
    cases text s cs <;> rfl

theorem source_true (path : Option String) (source : Source) :
    Format.source s true path source = Format.source s false path source >>= fun first =>
      match violation? s path first with
      | some v => .error (.violation v)
      | none => .ok first := by
  rw [source_false]
  unfold Format.source
  cases source.decode with
  | error e => rfl
  | ok cs =>
    simp only [bind, mapError_ok, Except.bind, if_true]
    cases text s cs <;> rfl

theorem violation?_of_ok {first second : Formatted} (h : text s first.text = .ok second) (path : Option String) :
    violation? s path first = (if second.text ≠ first.text then some .changesAgain
      else if (fixedKinds second.found).isEmpty then none else some (.fixedAgain (fixedKinds second.found))).map
        fun defect => {
          defect
          label := labelOf path
          diff := Diff.unified first.text second.text (labelOf path) 3
          first := String.ofList first.text
          second := String.ofList second.text } := by
  unfold violation?
  rw [h]
  rfl

theorem mem_fixedKinds {found : List Diagnostic} :
    DiagnosticKind.trailingWhitespace.name ∈ fixedKinds found ↔ ∃ d ∈ found, d.kind = .trailingWhitespace := by
  have hname : ∀ kind : DiagnosticKind, kind.isMechanical → kind.name = DiagnosticKind.trailingWhitespace.name →
      kind = .trailingWhitespace := by
    intro kind hmechanical hname
    cases kind <;> first | rfl | (revert hname; decide)
  rw [fixedKinds, List.mem_mergeSort, List.mem_eraseDups, List.mem_map]
  constructor
  · rintro ⟨d, hd, hkind⟩
    obtain ⟨hd, hmechanical⟩ := List.mem_filter.1 hd
    exact ⟨d, hd, hname d.kind hmechanical hkind⟩
  · rintro ⟨d, hd, hkind⟩
    refine ⟨d, List.mem_filter.2 ⟨hd, ?_⟩, by rw [hkind]⟩
    rw [Diagnostic.isMechanical, hkind]
    rfl

section SameLayout

variable (h : s.SameLayout t) (hs : s.naming.Compile) (ht : t.naming.Compile)
include h hs ht

/--
Settings agree on the fixes that no check turns off.
-/
theorem agreeOn_fixes : Settings.AgreeOn (fun kind => kind.isMechanical && kind ≠ .trailingWhitespace) s t where
  layout := h
  checks kind hkind := by
    cases kind <;> first | rfl | cases hkind
  advice := .inl ⟨fun kind hkind => (Bool.and_eq_true_iff.1 hkind).1, hs, ht⟩

/--
Settings agree on all fixes if they agree on blanks at the end of a line.
-/
theorem agreeOn_isMechanical (hblanks : s.checkEnabled DiagnosticKind.trailingWhitespace.check
    = t.checkEnabled DiagnosticKind.trailingWhitespace.check) : Settings.AgreeOn DiagnosticKind.isMechanical s t where
  layout := h
  checks kind hkind := by
    cases kind <;> first | rfl | exact hblanks | cases hkind
  advice := .inl ⟨fun _ hkind => hkind, hs, ht⟩

/--
The settings for advice have no influence on the output of a run.
-/
theorem output_source (path : Option String) (source : Source) :
    (Format.source s false path source).map output = (Format.source t false path source).map output := by
  rw [source_false, source_false]
  cases source.decode with
  | error e => simp only [bind, mapError_error, Except.bind]
  | ok cs =>
    simp only [bind, mapError_ok, Except.bind]
    rcases cases_of_map_eq (restrict_text (agreeOn_fixes h hs ht) cs) with ⟨e, hs, ht⟩ | ⟨f, f', hs, ht, hf⟩
    · rw [hs, ht]
    · obtain ⟨htext, hchanged, hfixes, -⟩ := Formatted.mk.inj hf
      simp only [hs, ht, Except.map, output, htext, hchanged, hfixes]

omit h hs ht in
/--
The check finds the same in outputs with the same text if the second runs fix the same.
-/
theorem violation?_congr {keep : DiagnosticKind → Bool} (hagree : Settings.AgreeOn keep s t)
    {first first' : Formatted} (htext : first'.text = first.text)
    (hkeep : ∀ second second', text s first.text = .ok second → text t first.text = .ok second' →
      second.text = first.text → second'.text = first.text →
        Diagnostic.mechanical second.found = Diagnostic.restrict keep second.found
          ∧ Diagnostic.mechanical second'.found = Diagnostic.restrict keep second'.found) (path : Option String) :
    violation? s path first = violation? t path first' := by
  rcases cases_of_map_eq (restrict_text hagree first.text) with ⟨e, hs, ht⟩ | ⟨second, second', hs, ht, hsecond⟩
  · rw [violation?, violation?, htext, hs, ht]
  · obtain ⟨hsame, -, -, hfound⟩ := Formatted.mk.inj hsecond
    rw [violation?_of_ok hs, violation?_of_ok (by rw [htext]; exact ht), htext, hsame]
    by_cases hmoved : second'.text = first.text
    · obtain ⟨hmechanical, hmechanical'⟩ := hkeep second second' hs ht (hsame.trans hmoved) hmoved
      rw [fixedKinds, fixedKinds, hmechanical, hmechanical', hfound]
    · rw [if_pos hmoved, if_pos hmoved]

omit h hs ht in
/--
The check finds blanks at the end of a line if the second run reports them.
-/
theorem source_true_of_blanksStay {path : Option String} {source : Source}
    (hblanks : s.checkEnabled DiagnosticKind.trailingWhitespace.check) (hstay : BlanksStay s source) :
    ∃ v kinds, Format.source s true path source = .error (.violation v) ∧ v.defect = .fixedAgain kinds
      ∧ DiagnosticKind.trailingWhitespace.name ∈ kinds := by
  obtain ⟨first, all, hfirst, hall, hsame, d, hd, hkind⟩ := hstay
  have hsecond : text s first.text = .ok { all with found := all.found.filter s.reports } := by
    rw [found_text, hall]
    rfl
  have hreported : d ∈ all.found.filter s.reports := by
    refine List.mem_filter.2 ⟨hd, ?_⟩
    rw [Settings.reports, hkind]
    exact hblanks
  have hkinds := mem_fixedKinds.2 ⟨d, hreported, hkind⟩
  have hnonempty : (fixedKinds (all.found.filter s.reports)).isEmpty = false := by
    rw [List.isEmpty_eq_false_iff]
    exact List.ne_nil_of_mem hkinds
  have hviolation := violation?_of_ok hsecond path
  rw [if_neg (fun hne => hne hsame), if_neg (by simp [hnonempty])] at hviolation
  obtain ⟨v, hv, hdefect⟩ : ∃ v, violation? s path first = some v
      ∧ v.defect = .fixedAgain (fixedKinds (all.found.filter s.reports)) := ⟨_, hviolation, rfl⟩
  rw [source_false] at hfirst
  refine ⟨v, _, ?_, hdefect, hkinds⟩
  rw [source_true, source_false, hfirst]
  simp only [bind, Except.bind, hv]

omit h hs ht in
theorem blanksStay_of_mem {source : Source} {first second : Formatted} {d : Diagnostic}
    (hfirst : Format.source s false none source = .ok first) (hsecond : text s first.text = .ok second)
    (hsame : second.text = first.text) (hd : d ∈ second.found) (hkind : d.kind = .trailingWhitespace) :
    BlanksStay s source := by
  rw [found_text] at hsecond
  cases hall : text s.withAllChecks first.text with
  | error e =>
    rw [hall] at hsecond
    cases hsecond
  | ok all =>
    rw [hall] at hsecond
    cases hsecond
    exact ⟨first, all, hfirst, hall, hsame, d, (List.mem_filter.1 hd).1, hkind⟩

omit h hs ht in
theorem mechanical_eq_restrict {found : List Diagnostic} (hnone : ∀ d ∈ found, d.kind ≠ .trailingWhitespace) :
    Diagnostic.mechanical found
      = Diagnostic.restrict (fun kind => kind.isMechanical && kind ≠ .trailingWhitespace) found :=
  List.filter_congr fun d hd => by simp [Diagnostic.isMechanical, hnone d hd]

omit h hs ht in
theorem text_ne_violation {cs : List Char} {v : Violation} : text s cs ≠ .error (.violation v) := by
  intro herror
  unfold text at herror
  cases hparse : Module.parse cs with
  | error e => simp [hparse, bind, Except.bind] at herror
  | ok m =>
    cases hruled : m.applyRules s with
    | error e => simp [hparse, hruled, bind, Except.bind] at herror
    | ok ruled => simp [hparse, hruled, bind, Except.bind, pure, Except.pure] at herror

omit h hs ht in
/--
The check finds no blanks at the end of a line if they are not reported.
-/
theorem not_mem_kinds {path : Option String} {source : Source} {v : Violation} {kinds : List String}
    (hblanks : s.checkEnabled DiagnosticKind.trailingWhitespace.check = false)
    (hviolation : Format.source s true path source = .error (.violation v)) (hkinds : v.defect = .fixedAgain kinds) :
    DiagnosticKind.trailingWhitespace.name ∉ kinds := by
  intro hmem
  rw [source_true, source_false] at hviolation
  cases hdecode : source.decode with
  | error e => simp [hdecode, bind, Except.bind] at hviolation
  | ok cs =>
    simp only [hdecode, mapError_ok, bind, Except.bind] at hviolation
    cases htext : text s cs with
    | error e =>
      rw [htext] at hviolation
      cases hviolation
      exact text_ne_violation htext
    | ok first =>
      simp only [htext] at hviolation
      split at hviolation
      · next w hw =>
        cases hviolation
        cases hsecond : text s first.text with
        | error e =>
          simp only [violation?, hsecond] at hw
          cases hw
          cases hkinds
        | ok second =>
          rw [violation?_of_ok hsecond] at hw
          obtain ⟨defect, hdefect, rfl⟩ := Option.map_eq_some_iff.1 hw
          cases hkinds
          have hkinds : kinds = fixedKinds second.found := by
            split at hdefect
            · cases hdefect
            · split at hdefect <;> cases hdefect
              rfl
          obtain ⟨d, hd, hkind⟩ := mem_fixedKinds.1 (hkinds ▸ hmem)
          have hreported := wanted_text hsecond d hd
          rw [Settings.reports, hkind, hblanks] at hreported
          cases hreported
      · cases hviolation

/--
The check has the same outcome if it finds the same in the output.
-/
theorem output_source_true {path : Option String} {source : Source}
    (hviolation : ∀ first first', Format.source s false none source = .ok first →
      Format.source t false none source = .ok first' → first'.text = first.text →
      violation? s path first = violation? t path first') :
    (Format.source s true path source).map output = (Format.source t true path source).map output := by
  rw [source_true, source_true]
  rcases cases_of_map_eq (output_source h hs ht path source) with ⟨e, hs, ht⟩ | ⟨first, first', hs, ht, hfirst⟩
  · simp only [hs, ht, bind, Except.bind]
  · have htext : first.text = first'.text := congrArg Prod.fst hfirst
    have hequal := hviolation first first' (by rwa [source_false, ← source_false path])
      (by rwa [source_false, ← source_false path]) htext.symm
    simp only [hs, ht, bind, Except.bind, hequal]
    split
    · simp only [Except.map]
    · simp only [Except.map, hfirst]

/--
Whether blanks stay does not depend on the settings for advice.
-/
theorem blanksStay_of_sameLayout {source : Source} (hstay : BlanksStay s source) : BlanksStay t source := by
  obtain ⟨first, second, hfirst, hsecond, hsame, d, hd, hkind⟩ := hstay
  have hlayout : s.withAllChecks.SameLayout t.withAllChecks :=
    (s.sameLayout_withAllChecks.trans h).trans t.sameLayout_withAllChecks.symm
  have hagree : Settings.AgreeOn DiagnosticKind.isMechanical s.withAllChecks t.withAllChecks :=
    agreeOn_isMechanical hlayout hs ht rfl
  rcases cases_of_map_eq (output_source h hs ht none source) with ⟨e, hs', -⟩ | ⟨f, first', hs', ht', houtput⟩
  · rw [hs'] at hfirst
    cases hfirst
  · rw [hs'] at hfirst
    cases hfirst
    have htext : first.text = first'.text := congrArg Prod.fst houtput
    rcases cases_of_map_eq (restrict_text hagree first.text) with ⟨e, hs'', -⟩ | ⟨f, second', hs'', ht'', hf⟩
    · rw [hs''] at hsecond
      cases hsecond
    · rw [hs''] at hsecond
      cases hsecond
      obtain ⟨hsame', -, -, hfound⟩ := Formatted.mk.inj hf
      have hmem : d ∈ Diagnostic.restrict DiagnosticKind.isMechanical second.found :=
        List.mem_filter.2 ⟨hd, by rw [hkind]; rfl⟩
      rw [hfound] at hmem
      exact ⟨first', second', ht', htext ▸ ht'', by rw [← hsame', hsame, htext], d, (List.mem_filter.1 hmem).1, hkind⟩

/--
With the check, the settings for advice have an influence exactly if blanks stay at the end of a line and only one of
the settings asks for them.
-/
theorem output_source_true_iff (path : Option String) (source : Source) :
    (Format.source s true path source).map output = (Format.source t true path source).map output
      ↔ s.checkEnabled DiagnosticKind.trailingWhitespace.check
          = t.checkEnabled DiagnosticKind.trailingWhitespace.check ∨ ¬BlanksStay s source := by
  have hdiffer {s t : Settings} (hblanks : s.checkEnabled DiagnosticKind.trailingWhitespace.check)
      (hblanks' : t.checkEnabled DiagnosticKind.trailingWhitespace.check = false) (hstay : BlanksStay s source) :
      (Format.source s true path source).map output ≠ (Format.source t true path source).map output := by
    intro heq
    obtain ⟨v, kinds, hv, hkinds, hmem⟩ := @source_true_of_blanksStay s path source hblanks hstay
    rcases cases_of_map_eq heq with ⟨e, hs, ht⟩ | ⟨f, f', hs, -, -⟩
    · rw [hs] at hv
      cases hv
      exact not_mem_kinds hblanks' ht hkinds hmem
    · rw [hs] at hv
      cases hv
  constructor
  · intro heq
    by_contra hnot
    obtain ⟨hflags, hstay⟩ := not_or.1 hnot
    have hstay := not_not.1 hstay
    cases hblanks : s.checkEnabled DiagnosticKind.trailingWhitespace.check with
    | true =>
      have hblanks' : t.checkEnabled DiagnosticKind.trailingWhitespace.check = false := by
        rw [hblanks] at hflags
        exact Bool.eq_false_of_not_eq_true fun ht => hflags ht.symm
      exact hdiffer hblanks hblanks' hstay heq
    | false =>
      have hblanks' : t.checkEnabled DiagnosticKind.trailingWhitespace.check = true := by
        rw [hblanks] at hflags
        exact Bool.eq_true_of_not_eq_false fun ht => hflags ht.symm
      exact hdiffer hblanks' hblanks (blanksStay_of_sameLayout h hs ht hstay) heq.symm
  · rintro (hflags | hstay)
    · exact output_source_true h hs ht fun first first' _ _ htext =>
        violation?_congr (agreeOn_isMechanical h hs ht hflags) htext (fun _ _ _ _ _ _ => ⟨rfl, rfl⟩) path
    · have hstay' : ¬BlanksStay t source := fun h' => hstay (blanksStay_of_sameLayout h.symm ht hs h')
      refine output_source_true h hs ht fun first first' hfirst hfirst' htext =>
        violation?_congr (agreeOn_fixes h hs ht) htext
          (fun second second' hsecond hsecond' hsame hsame' => ⟨?_, ?_⟩) path
      · exact mechanical_eq_restrict fun d hd hkind => hstay (blanksStay_of_mem hfirst hsecond hsame hd hkind)
      · rw [← htext] at hsecond' hsame'
        exact mechanical_eq_restrict fun d hd hkind => hstay' (blanksStay_of_mem hfirst' hsecond' hsame' hd hkind)

end SameLayout

/--
The findings of formatting a source are those of formatting it with all checks on that the settings ask for.
-/
theorem found_source (settings : Settings) (path : Option String) (source : Source) :
    (Format.source settings false path source).map (·.found)
      = (Format.source settings.withAllChecks false path source).map (·.found.filter settings.reports) := by
  rw [source_false, source_false]
  cases source.decode with
  | error e => simp only [bind, mapError_error, Except.bind, Except.map]
  | ok cs =>
    simp only [bind, mapError_ok, Except.bind]
    rw [found_text]
    cases text settings.withAllChecks cs with
    | error e => simp only [Except.map]
    | ok f => simp only [Except.map]

theorem found_source_true {settings : Settings} {path : Option String} {source : Source} {f all : Formatted}
    (hf : Format.source settings true path source = .ok f)
    (hall : Format.source settings.withAllChecks true path source = .ok all) :
    f.found = all.found.filter settings.reports := by
  have hfound := found_source settings path source
  rw [((source_selfCheck_iff path source f).1 hf).1, ((source_selfCheck_iff path source all).1 hall).1] at hfound
  exact Except.ok.inj hfound

/--
The advice on a source is that with all checks on that the settings ask for.
-/
theorem found_lint_source (settings : Settings) (source : Source) :
    source.lint settings = (source.lint settings.withAllChecks).map (·.filter settings.reports) := by
  unfold Source.lint
  cases source.decode with
  | error e => simp only [bind, mapError_error, Except.bind, Except.map]
  | ok cs =>
    cases hparse : Module.parse cs with
    | error e => simp only [hparse, bind, mapError_ok, mapError_error, Except.bind, Except.map]
    | ok m =>
      simp only [hparse, bind, mapError_ok, Except.bind]
      rw [found_lint]
      cases m.lint settings.withAllChecks cs with
      | error e => simp only [Except.map, mapError_error]
      | ok ds => simp only [Except.map, mapError_ok]

end Format

end HaskellStyle
