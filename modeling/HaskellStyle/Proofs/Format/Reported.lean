import HaskellStyle.Proofs.Diagnostic.Sort
import HaskellStyle.Proofs.Format.Success
import HaskellStyle.Proofs.Module.Retold
import HaskellStyle.Proofs.Print.Gap
import HaskellStyle.Proofs.Rule.Limit

/-!
This module contains that changes are reported. A text that is changed without a finding is changed in one of seven ways
that no rule looks at: at line ends, in blanks that are not trimmed, before comments, above pragmas that are pinned, and
in deriving clauses that one rule lays out and another compares.
-/

namespace HaskellStyle

variable {settings : Settings}

namespace Module

variable {m : Module} {cs : List Char} (h : read cs = .ok m)
include h

/--
A module of which no line end is mended can be given back if nothing is changed silently at its tokens.
-/
theorem retraceable_of_read (hedits : m.lineEdits cs = []) (heven : ∀ t ∈ tokens m, t.IsEven m.newline.text.toList)
    (hgap : ∀ t ∈ tokens m, t ≠ m.eof → t.keepsGap settings) :
    m.Retraceable settings ∧ LineEdit.closed m.newline.text.toList (Token.joinSource (tokens m)).toList = cs := by
  obtain ⟨stream, hstream, htokens, -⟩ := tokens_of_read h
  have hnewline : m.newline.text.toList = ['\n'] ∨ m.newline.text.toList = ['\r', '\n'] :=
    Printer.newline_cases (.ofModule settings m)
  have hlossless := TokenStream.lossless_of_ofTextWith hstream
  rw [lineEdits, htokens] at hedits
  rw [htokens] at heven hgap
  have hparts : m.headerPragmas.map (·.token) ++ (m.header.map tokens).getD [] ++ m.importDecls.flatMap tokens
      ++ m.declarations.flatMap tokens = stream.tokens ∧ m.eof = stream.eof := by
    have hall : tokens m = stream.tokens ++ [stream.eof] := htokens
    rw [tokens_eq, List.flatMap_map, List.flatMap_map] at hall
    exact (List.append_inj' hall rfl).imp_right List.singleton_inj.1
  have heof : stream.eof ∈ stream.toList := List.mem_append_right _ (List.mem_singleton.2 rfl)
  refine ⟨?_, ?_⟩
  · constructor
    case fresh => exact isFresh_of_read h
    case placements => exact placements_of_read h
    case whereKeyword => exact whereKeyword_of_read h
    case imports => exact fun i hi => unlaid_imports_of_read h i (.inl hi)
    case filled => exact filled_of_read h
    case ordered => exact (asRead_of_read h).ordered
    case tokens =>
      rw [hparts.1]
      intro t ht
      refine ⟨TokenStream.retraceable hstream hnewline hedits heven ht, hgap t (List.mem_append_left _ ht) ?_⟩
      rintro rfl
      have hend := (hlossless.token _ ht).1
      rw [hparts.2, hlossless.eof.1] at hend
      cases hend
    case ends =>
      obtain ⟨ls, -, -, heof⟩ := TokenStream.ofTextWith_eq hstream
      rw [hparts.2, heof]
      exact ⟨rfl, rfl⟩
    case eof => rw [hparts.2]; exact TokenStream.isTidy_of_even hstream hnewline hedits heven heof
    case neat => rw [hparts.2]; exact TokenStream.neat_leading hstream hnewline hedits heof
    case begins => rw [hparts.2]; exact TokenStream.begins_leading hstream hnewline hedits heven heof
  · have hsource : (Token.joinSource (tokens m)).toList = cs := by
      rw [htokens, ← TokenStream.sourceText, hlossless.sourceText, String.toList_ofList]
    rw [hsource]
    exact LineEdit.closed_of_finalEdits (List.append_eq_nil_iff.1 hedits).1

end Module

/--
Line ends that are mended are reported.
-/
theorem Format.lineEdits_eq_nil (hblanks : settings.checkEnabled DiagnosticKind.trailingWhitespace.check) {m : Module}
    {cs : List Char} (hquiet : ∀ d ∈ lineFixes settings m cs, d.isMechanical = false) : m.lineEdits cs = [] := by
  rw [List.eq_nil_iff_forall_not_mem]
  intro edit hedit
  have hfix := fun hreports => hquiet _ (List.mem_filter.2 ⟨List.mem_map.2 ⟨edit, hedit, rfl⟩, hreports⟩)
  cases hkind : edit.kind with
  | trailingBlanks =>
    simp only [hkind] at hfix
    exact nomatch show true = false from hfix hblanks
  | finalNewline =>
    simp only [hkind] at hfix
    exact nomatch show true = false from hfix rfl

/--
The ways in which `m` is written as `m'` with other characters, and no rule compares them.
-/
inductive Module.Overlooked (settings : Settings) (m m' : Module) : Prop where
  /--
  A line end that is not the one of the module.
  -/
  | newline {t : Token} {piece : TriviaPiece} (ht : t ∈ tokens m) (hpiece : piece ∈ t.leading)
    (hkind : piece.kind = .newline) (hother : piece.text ≠ m.newline.text)
  /--
  An empty line that ends in a blank that is not trimmed.
  -/
  | emptyLine {t : Token} {line : Trivia} (ht : t ∈ tokens m) (hline : line ∈ t.emptyLines) (hodd : line.EndsOdd)
  /--
  Blanks behind the last comment of a line, or behind its code, that end in one that is not trimmed.
  -/
  | lineEnd {t : Token} (ht : t ∈ tokens m) (hodd : Trivia.EndsOdd t.trailing.remainder)
  /--
  Blanks before a comment behind code that are not all spaces.
  -/
  | oddGap {t : Token} (ht : t ∈ tokens m) (hcomments : t.trailing.hasComments) (hodd : ¬t.gap.all (· == ' '))
  /--
  Blanks before a comment in a part that is written anew, and other ones than are written there.
  -/
  | gap {t : Token} (ht : t ∈ m'.rewritten) (hgap : t.keepsGap settings = false)
  /--
  Lines above a pragma about a binder that is pinned where it stands.
  -/
  | above {pragma : Pragma} (hmem : .pragma pragma ∈ m'.declarations) (hpinned : pragma.pinned)
    (habove : pragma.token.leading.text ≠ pragma.writtenAbove m.newline.text)
  /--
  Deriving clauses that were in normal form once their declaration was laid out, and not in the source.
  -/
  | derivings {d : DataDecl} (hmem : .data d ∈ m'.declarations) (hlayout : d.layout.isSome)
    (hderivings : d.derivings ≠ [])
    (hearlier : DerivingFormat.clausesText (.ofModule settings m') d = DerivingFormat.clausesText (.ofModule settings m')
      { d with derivings := d.derivings.map Deriving.unlaid, derivingLayout := none })
    (hsource : DerivingFormat.clausesText (.ofModule settings m') d ≠ DerivingFormat.clausesSource d)

namespace DerivingFormat

theorem clausesSource_normalize (d : DataDecl) (layout : ListLayout) :
    clausesSource (normalize settings d layout) = clausesSource d := by
  rw [clausesSource, clausesSource, normalize]
  dsimp only
  rw [List.head?_map, List.flatMap_map, Option.map_map]
  rfl

/--
Deriving clauses that were laid out, but not compared, are as they were before they were put in normal form.
-/
theorem unlaid_derivings {p : Printer} {d : Declaration} {decl : DataDecl} (h : Align.Keeps settings p d (.data decl))
    (hfresh : d.IsFresh) (layout : ListLayout) :
    { normalize settings decl layout with
      derivings := (normalize settings decl layout).derivings.map Deriving.unlaid, derivingLayout := none } = decl := by
  obtain ⟨h, -⟩ := h
  cases d with
  | data d =>
    have hunlaid := Declaration.data.inj hfresh.1
    have hkept : decl.derivings = d.derivings ∧ decl.derivingLayout = d.derivingLayout := by
      cases h
      rcases Align.dataDecl_cases settings d with heq | ⟨f, layout, -, heq⟩
      all_goals
        rw [heq]
        exact ⟨rfl, rfl⟩
    have hderivings : (normalize settings decl layout).derivings.map Deriving.unlaid = decl.derivings := by
      rw [normalize, List.map_map, hkept.1]
      exact congrArg DataDecl.derivings hunlaid
    have hlayout : none = decl.derivingLayout := by
      rw [hkept.2]
      exact congrArg DataDecl.derivingLayout hunlaid
    rw [hderivings, hlayout]
    rfl
  | importing _ | pragma _ | raw _ | signature _ => cases h
  | clause c layout =>
    obtain ⟨layout, h⟩ := Align.declaration_clause h
    cases h

end DerivingFormat

namespace Module

section Overlooked

variable {m m' : Module} (hoverlooked : ¬m.Overlooked settings m')
include hoverlooked

theorem isEven_of_not_overlooked {t : Token} (ht : t ∈ tokens m) : t.IsEven m.newline.text.toList where
  newline piece hpiece hkind := by
    by_contra hother
    exact hoverlooked (.newline ht hpiece hkind fun heq => hother (congrArg String.toList heq))
  blank line hline hodd := hoverlooked (.emptyLine ht hline hodd)
  rest hodd := hoverlooked (.lineEnd ht hodd)

theorem keepsGap_of_not_overlooked (hrendered : ∀ d ∈ (m'.render settings).found, d.isMechanical = false)
    {t : Token} (ht : t ∈ tokens m) (hkept : t ∈ tokens m') (hend : t ≠ m'.eof) : t.keepsGap settings := by
  refine keepsGap_of_render (fun d hd hkind => ?_) (fun u hu => ?_) hkept hend fun hcomments => ?_
  · have hmechanical := hrendered d hd
    rw [Diagnostic.isMechanical, hkind] at hmechanical
    cases hmechanical
  · by_contra hmoved
    exact hoverlooked (.gap hu (Bool.eq_false_of_not_eq_true hmoved))
  · by_contra hodd
    exact hoverlooked (.oddGap ht hcomments hodd)

/--
Deriving clauses are written as in the source if the rule for them notes no change.
-/
theorem clausesText_of_not_overlooked (hprinter : Printer.ofModule settings m' = .ofModule settings m)
    {d : Declaration} {decl : DataDecl} (hkeeps : Align.Keeps settings (.ofModule settings m) d (.data decl))
    (hfresh : d.IsFresh) {layout : ListLayout} (hlayout : layout ∈ decl.layout) (hderivings : decl.derivings ≠ [])
    (hmem : .data (DerivingFormat.normalize settings decl layout) ∈ m'.declarations)
    (hquiet : DerivingFormat.clausesText (.ofModule settings m) (DerivingFormat.normalize settings decl layout)
        = DerivingFormat.clausesText (.ofModule settings m) decl
      ∨ DerivingFormat.clausesText (.ofModule settings m) (DerivingFormat.normalize settings decl layout)
        = DerivingFormat.clausesSource decl) :
    DerivingFormat.clausesText (.ofModule settings m) (DerivingFormat.normalize settings decl layout)
      = DerivingFormat.clausesSource (DerivingFormat.normalize settings decl layout) := by
  by_contra hsource
  refine hoverlooked (.derivings hmem (Option.isSome_of_mem hlayout) ?_ ?_ ?_)
  · exact fun hnil => hderivings (List.map_eq_nil_iff.1 hnil)
  · rw [DerivingFormat.unlaid_derivings hkeeps hfresh layout, hprinter]
    refine hquiet.resolve_right fun heq => hsource ?_
    rw [heq, DerivingFormat.clausesSource_normalize]
  · rw [hprinter]
    exact hsource

end Overlooked

variable {m : Module} {cs : List Char}

/--
A module is given back if no finding is a change and nothing is overlooked.
-/
theorem text_render_applyRules (h : parse cs = .ok m) {ruled : RuledModule} (hruled : m.applyRules settings = .ok ruled)
    (hedits : m.lineEdits cs = []) (hfound : ∀ d ∈ ruled.found, d.isMechanical = false)
    (hrendered : ∀ d ∈ (ruled.module.render settings).found, d.isMechanical = false)
    (hoverlooked : ¬m.Overlooked settings ruled.module) : (ruled.module.render settings).text = cs := by
  have heof : ruled.module.eof = m.eof := (keepsParts_applyRules hruled).eof
  obtain ⟨hindented, aligned, halign, hmodule, haligned, himported, hplaced, hderived⟩ := applyRules_quiet hruled hfound
  rw [Indent.module_apply_of_hasChanges h settings hindented] at halign
  have hgap (t : Token) (ht : t ∈ tokens m) (hend : t ≠ m.eof) : t.keepsGap settings :=
    keepsGap_of_not_overlooked hoverlooked hrendered ht (tokens_subset_applyRules hruled ht) (heof ▸ hend)
  obtain ⟨hm, hclosed⟩ :=
    retraceable_of_read (read_of_parse h) hedits (fun t => isEven_of_not_overlooked hoverlooked) hgap
  have hdeclarations : ruled.module.declarations
      = (PragmaOrder.placed aligned.module.declarations).map (DerivingFormat.marked settings) := by
    rw [hmodule, finished_eq]
  have hmarked {d : Declaration} (hd : d ∈ PragmaOrder.placed aligned.module.declarations) :
      DerivingFormat.marked settings d ∈ ruled.module.declarations :=
    hdeclarations ▸ List.mem_map.2 ⟨d, hd, rfl⟩
  have hlaid : Printer.ofModule settings aligned.module = .ofModule settings m := by
    obtain ⟨_, -, haligned⟩ := Align.apply_ok halign
    rw [haligned]
    rfl
  rw [hmodule, hm.text_finished halign haligned himported hplaced (fun pragma hpragma hpinned => ?_)
    fun decl hdecl layout hlayout hderivings => ?_, hclosed]
  · by_contra habove
    exact hoverlooked (.above (hmarked hpragma) hpinned habove)
  · obtain ⟨d, hd, hkeeps⟩ : ∃ d ∈ m.declarations, Align.Keeps settings (.ofModule settings m) d (.data decl) := by
      rcases PragmaOrder.mem_placed hdecl with hmem | ⟨-, pragma, -, heq⟩
      · exact Align.exists_of_forall₂ (Align.apply_quiet halign haligned).2 _ hmem
      · cases heq
    have hmem := hmarked hdecl
    rw [DerivingFormat.marked, DerivingFormat.dataDecl_of_layout hlayout hderivings] at hmem
    refine clausesText_of_not_overlooked hoverlooked ?_ hkeeps (hm.declarations d hd).fresh hlayout hderivings hmem ?_
    · rw [hmodule, printer_finished, hlaid]
    · have hplace : (PragmaOrder.apply settings (ImportOrder.apply settings aligned.module).module).module.declarations
          = PragmaOrder.placed aligned.module.declarations := by
        rw [PragmaOrder.module_apply_eq, ImportOrder.declarations_apply]
        rfl
      have hprinter : Printer.ofModule settings
          (PragmaOrder.apply settings (ImportOrder.apply settings aligned.module).module).module
            = .ofModule settings m := by
        rw [PragmaOrder.module_apply_eq, ← hlaid]
        exact printer_imported aligned.module
      rw [← hprinter]
      exact (DerivingFormat.declarations_quiet hderived).2 decl (hplace ▸ hdecl) layout hlayout hderivings

end Module

namespace Format

/--
A source that is changed has a finding that says so, unless all that is changed is overlooked. Of these findings, only
those about blanks at line ends can be turned off.
-/
theorem changes_reported {selfCheck : Bool} {path : Option String} {s : Source} {r : Formatted}
    (hblanks : settings.checkEnabled DiagnosticKind.trailingWhitespace.check)
    (h : source settings selfCheck path s = .ok r) (hchanged : r.changed) :
    Diagnostic.mechanical r.found ≠ [] ∨ ∃ cs m ruled, s.decode = .ok cs ∧ Module.parse cs = .ok m
      ∧ m.applyRules settings = .ok ruled ∧ m.Overlooked settings ruled.module := by
  obtain ⟨cs, hdecode, htext, -⟩ := (source_eq_ok_iff selfCheck path s r).1 h
  obtain ⟨m, hm, htext⟩ := bind_eq_ok htext
  obtain ⟨ruled, hruled, htext⟩ := bind_eq_ok htext
  cases htext
  replace hm := mapError_eq_ok hm
  replace hruled := mapError_eq_ok hruled
  refine or_iff_not_imp_left.2 fun hfound => ⟨cs, m, ruled, hdecode, hm, hruled, ?_⟩
  rw [not_not, Diagnostic.mechanical_sort_eq_nil_iff] at hfound
  simp only [List.mem_append, or_imp, forall_and] at hfound
  obtain ⟨⟨hnoted, hrendered⟩, hlines⟩ := hfound
  by_contra hoverlooked
  exact of_decide_eq_true hchanged
    (Module.text_render_applyRules hm hruled (lineEdits_eq_nil hblanks hlines) hnoted hrendered hoverlooked)

/--
Blanks at the end of a line.
-/
theorem changes_reported_blanks :
    ∃ r, source {} true none (.text "f = 1 \n".toList) = .ok r ∧ r.changed
      ∧ ({} : Settings).checkEnabled DiagnosticKind.trailingWhitespace.check
      ∧ (Diagnostic.mechanical r.found ≠ [] ∨ ∃ cs m ruled, (Source.text "f = 1 \n".toList).decode = .ok cs
        ∧ Module.parse cs = .ok m ∧ m.applyRules {} = .ok ruled ∧ m.Overlooked {} ruled.module) := by
  have hblanks : ({} : Settings).checkEnabled DiagnosticKind.trailingWhitespace.check := by decide
  obtain ⟨r, hr, hchanged⟩ :=
    sample (source {} true none (.text "f = 1 \n".toList)) (fun r => r.changed) (by decide +kernel)
  exact ⟨r, hr, hchanged, hblanks, changes_reported hblanks hr hchanged⟩

/--
Each of the ways in which changes are overlooked: a text that is changed without a finding, in the order of
`Module.Overlooked`.
-/
example : ["f = 1\ng = 2\r\nh = 3\n", "f = 1\n\x0c\ng = 2\n", "f = 1\x0c\ng = 2\n", "f = 12\t-- c\n",
    "import A -- c\n", "f = 1\n  -- c\n\x7b-# INLINE f #-\x7d\n", "data A = A\n  deriving (Eq)\n"].all fun s =>
      (text {} s.toList).toOption.any fun r => r.changed && (Diagnostic.mechanical r.found).isEmpty := by
  decide +kernel

/--
The blanks before a comment behind a signature are changed, and nothing says so.
-/
theorem not_changes_reported :
    ¬∀ (settings : Settings) (selfCheck : Bool) (path : Option String) (s : Source) (r : Formatted),
      (∀ kind : DiagnosticKind, settings.checkEnabled kind.check) → source settings selfCheck path s = .ok r →
        r.changed → Diagnostic.mechanical r.found ≠ [] := by
  intro h
  have hchecks : ∀ kind : DiagnosticKind, ({} : Settings).checkEnabled kind.check := fun kind => by cases kind <;> decide
  obtain ⟨r, hr, hchanged, hfound⟩ := sample (source {} true none (.text "f :: Int -- c\n".toList))
    (fun r => r.changed ∧ (Diagnostic.mechanical r.found).isEmpty) (by decide +kernel)
  exact h {} true none _ r hchecks hr hchanged (List.isEmpty_iff.1 hfound)

end Format

end HaskellStyle
