import HaskellStyle.Proofs.Newline.Align
import HaskellStyle.Proofs.Rule.Region
import HaskellStyle.Proofs.Rule.Retold

/-!
This module contains that a module is given back if its tokens can be and no rule notes a change. The rules are taken one
after the other: what each of them makes of the module is written with the source of its parts, apart from deriving
clauses, which the last rule is about.
-/

namespace HaskellStyle

open Output (Yields)

/--
A module that can be given back: it is as it was read, and its tokens are written as they stand.
-/
structure Module.Retraceable (settings : Settings) (m : Module) : Prop where
  fresh : m.IsFresh
  placements : m.placements = []
  whereKeyword : ∀ head ∈ m.header, head.whereKeyword.text = "where"
  imports : ∀ i ∈ m.importDecls, i.unlaid = i
  filled : ∀ d ∈ m.declarations, d.Filled
  ordered : (tokens m).Pairwise fun t u => t.offset < u.offset
  tokens : ∀ t ∈ m.headerPragmas.map (·.token) ++ (m.header.map tokens).getD [] ++ m.importDecls.flatMap tokens
    ++ m.declarations.flatMap tokens, t.Retraceable m.newline.text.toList ∧ t.keepsGap settings
  ends : m.eof.text = "" ∧ m.eof.trailing = []
  eof : m.eof.IsTidy m.newline.text.toList
  neat : Shielded.Neat m.eof.leading.marks
  begins : ['\n'] <+: (Trivia.marks m.eof.leading).chars → m.newline.text.toList = ['\n']

namespace Printer

variable {p : Printer} (hplace : p.placements = [])
include hplace

/--
Header pragmas in order have their source if their text is the one that they had.
-/
theorem yields_sortedPragmas {pragmas : List Pragma} (hne : pragmas ≠ [])
    (hts : ∀ t ∈ pragmas.map (·.token), t.Retraceable p.newline.text.toList ∧ t.keepsGap p.settings)
    (hordered : pragmas.Pairwise fun a b => a.token.offset < b.token.offset)
    (hsame : (p.verbatimInside (pragmas.map (·.token)) p.start).text
      = (p.headerPragmas (pragmas.mergeSort PragmaOrder.pragmaLe) false p.start).text) (started : Bool) :
    Yields p.newline.text.toList started (p.headerPragmas (pragmas.mergeSort PragmaOrder.pragmaLe) true)
      (Token.joinSource (pragmas.map (·.token))).toList := by
  obtain ⟨first, more, rfl⟩ := List.exists_cons_of_ne_nil hne
  have hmem (pragma : Pragma) : pragma ∈ (first :: more).mergeSort PragmaOrder.pragmaLe ↔ pragma ∈ first :: more :=
    List.mem_mergeSort
  have hfirst : minBy (·.token.offset) ((first :: more).mergeSort PragmaOrder.pragmaLe) = some first := by
    refine minBy_eq_some ((hmem first).2 List.mem_cons_self) fun pragma hpragma => ?_
    exact (List.mem_cons.1 ((hmem pragma).1 hpragma)).imp_right ((List.pairwise_cons.1 hordered).1 pragma)
  have hsource : first.token.leading.text
      ++ (p.headerPragmas ((first :: more).mergeSort PragmaOrder.pragmaLe) false p.start).text
      = Token.joinSource (first.token :: more.map (·.token)) := by
    rw [← hsame]
    exact Token.joinSource_verbatimInside hplace hts
  rw [List.forall_mem_map] at hts
  rw [List.map_cons, ← hsource, String.toList_append]
  exact yields_headerPragmas hplace hfirst (fun pragma hpragma => (hts pragma ((hmem pragma).1 hpragma)).1)
    (Token.begins_of_joinSource (hts first List.mem_cons_self).1 hsource) started

/--
A header has its source if it is not reported to be written anew.
-/
theorem yields_laidHeader {h : Header}
    (hts : ∀ t ∈ tokens h, t.Retraceable p.newline.text.toList ∧ t.keepsGap p.settings)
    (hfresh : ∀ list ∈ h.exports, list.layout = none) (hwhere : h.whereKeyword.text = "where")
    (hquiet : rewritesSource (tokens h) (p.headerText h) (p.headerText (Align.header p.settings h)) = false)
    (started : Bool) :
    Yields p.newline.text.toList started (p.header (Align.header p.settings h) true)
      (Token.joinSource (tokens h)).toList := by
  have htokens := Align.tokens_header p.settings h
  have hkeyword : (Align.header p.settings h).keyword = h.keyword := Option.some.inj (congrArg List.head? htokens)
  have hkept : h.isRewritten = false := by
    rw [Header.isRewritten, Option.isSome_eq_false_iff, Option.isNone_iff_eq_none, Option.bind_eq_none_iff]
    exact hfresh
  obtain ⟨ts, hcons⟩ : ∃ ts, tokens h = h.keyword :: ts := ⟨_, rfl⟩
  have hold : h.keyword.leading.text ++ p.headerText h = Token.joinSource (h.keyword :: ts) := by
    rw [hcons] at hts
    rw [← Token.joinSource_verbatimInside hplace hts, ← hcons, headerText, header_of_isRewritten hkept]
    rfl
  have hnew : h.keyword.leading.text ++ p.headerText (Align.header p.settings h) = Token.joinSource (tokens h) := by
    rw [hcons] at hquiet hts ⊢
    refine Token.joinSource_of_rewritesSource ?_ hold hquiet
    exact (hts _ (by rw [← List.getLastD_cons (a := h.keyword)]; exact Token.getLastD_mem (List.cons_ne_nil _ _) _)).1.rest
  rw [← hnew, String.toList_append]
  have hyields := yields_header (h := Align.header p.settings h) hplace (Align.shaped_header hfresh hwhere) (htokens ▸ hts)
    (Token.begins_of_joinSource (hts h.keyword List.mem_cons_self).1 (hnew.trans (congrArg _ hcons))) started
  rwa [hkeyword] at hyields

end Printer

namespace LineEdit

variable {newline front front' behind behind' rest : List Char}

/--
What stands before characters that are not trimmed can be told from the trimmed text.
-/
theorem closed_congr
    (h : closed newline (front ++ (behind ++ rest)) = closed newline (front' ++ (behind ++ rest)))
    (hbehind : (behind = [] ∧ behind' = []) ∨ ∃ c ∈ behind, isEndBlank c = false) :
    closed newline (front ++ (behind' ++ rest)) = closed newline (front' ++ (behind' ++ rest)) := by
  rcases hbehind with ⟨rfl, rfl⟩ | ⟨c, hc, hshown⟩
  · exact h
  · have hmem : ∃ c ∈ behind ++ rest, isEndBlank c = false := ⟨c, List.mem_append_left _ hc, hshown⟩
    rw [closed_append hmem, closed_append hmem, List.append_cancel_right_eq] at h
    rw [h]

end LineEdit

namespace Module

/--
What the rules keep of a module, or only lay out. Header pragmas may be put in order where this does not change them.
-/
structure Frames (settings : Settings) (m m' : Module) : Prop where
  eof : m'.eof = m.eof
  printer : Printer.ofModule settings m' = Printer.ofModule settings m
  header : m'.header = m.header.map (Align.header settings)
  pragmas : m'.headerPragmas = m.headerPragmas ∧ m'.pragmasNormalized = false
    ∨ m.headerPragmas ≠ [] ∧ m'.headerPragmas = m.headerPragmas.mergeSort PragmaOrder.pragmaLe
      ∧ m'.pragmasNormalized = true
      ∧ ((Printer.ofModule settings m).verbatimInside (m.headerPragmas.map (·.token))
          (Printer.ofModule settings m).start).text
        = ((Printer.ofModule settings m).headerPragmas (m.headerPragmas.mergeSort PragmaOrder.pragmaLe) false
          (Printer.ofModule settings m).start).text

/--
The step that writes the imports of a module.
-/
def writeImports (p : Printer) (m : Module) (out : Output) : Output :=
  if m.importsNormalized then p.importBlock m.imports out else p.verbatim (m.importDecls.flatMap tokens) out

/--
The source of what precedes the imports.
-/
def sourceAbove (m : Module) : List Char :=
  (Token.joinSource (m.headerPragmas.map (·.token))).toList ++ (Token.joinSource ((m.header.map tokens).getD [])).toList

namespace Retraceable

variable {settings : Settings} {m : Module} (hm : m.Retraceable settings)
include hm

theorem declarations : ∀ d ∈ m.declarations, d.Retraceable (.ofModule settings m) := by
  intro d hd
  refine ⟨hm.fresh.declarations d hd, hm.filled d hd, ?_, fun t ht =>
    hm.tokens t (List.mem_append_right _ (List.mem_flatMap.2 ⟨d, hd, ht⟩))⟩
  have hinfix : HaskellStyle.tokens d <:+: HaskellStyle.tokens m :=
    (infix_flatMap hd).trans ((List.suffix_append _ _).isInfix.trans (List.prefix_append _ _).isInfix)
  exact List.pairwise_map.2 ((hm.ordered.sublist hinfix.sublist).imp fun h => Nat.ne_of_lt h)

theorem places : (m.declarations.map PragmaOrder.place).Nodup := by
  have hinfix : m.declarations.flatMap HaskellStyle.tokens <:+: HaskellStyle.tokens m :=
    (List.suffix_append _ _).isInfix.trans (List.prefix_append _ _).isInfix
  have hordered := (List.pairwise_flatMap.1 (hm.ordered.sublist hinfix.sublist)).2
  refine List.pairwise_map.2 (hordered.imp fun {d e} h => Nat.ne_of_lt ?_)
  exact h _ (ItemList.firstToken_mem d.tokens_ne_nil) _ (ItemList.firstToken_mem e.tokens_ne_nil)

section Frames

variable (hheader : ∀ head ∈ m.header,
    rewritesSource (HaskellStyle.tokens head) ((Printer.ofModule settings m).headerText head)
      ((Printer.ofModule settings m).headerText (Align.header settings head)) = false)
  {m' : Module} (h : m.Frames settings m')
include hheader h

theorem yields_framedHeader (started : Bool) : Yields m.newline.text.toList started (fun out =>
    match m'.header with
    | some head => (Printer.ofModule settings m).header head true out
    | none => out) (Token.joinSource ((m.header.map HaskellStyle.tokens).getD [])).toList := by
  rw [h.header]
  cases hhead : m.header with
  | none => exact .id (Printer.newline_cases (.ofModule settings m))
  | some head =>
    refine Printer.yields_laidHeader hm.placements (fun t ht => hm.tokens t ?_) (hm.fresh.header head hhead)
      (hm.whereKeyword head hhead) (hheader head hhead) started
    rw [hhead]
    exact List.mem_append_left _ (List.mem_append_left _ (List.mem_append_right _ ht))

theorem yields_preamble {cs : List Char} (himports : Yields m.newline.text.toList (!m.sourceAbove.isEmpty)
    (m'.writeImports (.ofModule settings m)) cs) :
    Yields m.newline.text.toList false ((Printer.ofModule settings m).preamble m') (m.sourceAbove ++ cs) := by
  have hplace : (Printer.ofModule settings m).placements = [] := hm.placements
  have hpragmas : Yields m.newline.text.toList false (fun out =>
      if m'.pragmasNormalized then (Printer.ofModule settings m).headerPragmas m'.headerPragmas true out
      else (Printer.ofModule settings m).verbatim (m'.headerPragmas.map (·.token)) out)
      (Token.joinSource (m.headerPragmas.map (·.token))).toList := by
    have hts : ∀ t ∈ m.headerPragmas.map (·.token), t.Retraceable m.newline.text.toList ∧ t.keepsGap settings :=
      fun t ht => hm.tokens t (List.mem_append_left _ (List.mem_append_left _ (List.mem_append_left _ ht)))
    rcases h.pragmas with ⟨hpragmas, hkept⟩ | ⟨hne, hpragmas, hanew, hsame⟩
    · simp only [hpragmas, hkept, Bool.false_eq_true, if_false]
      exact Printer.yields_verbatim hplace hts false
    · simp only [hpragmas, hanew, if_true]
      have hordered : m.headerPragmas.Pairwise fun a b => a.token.offset < b.token.offset := by
        have hprefix : m.headerPragmas.map (·.token) <+: HaskellStyle.tokens m :=
          (((List.prefix_append _ _).trans (List.prefix_append _ _)).trans (List.prefix_append _ _)).trans
            (List.prefix_append _ _)
        have hsublist := hm.ordered.sublist hprefix.sublist
        rwa [List.pairwise_map] at hsublist
      exact Printer.yields_sortedPragmas hplace hne hts hordered hsame false
  rw [sourceAbove] at himports ⊢
  exact Printer.yields_preamble (p := .ofModule settings m) (m := m') hpragmas (hm.yields_framedHeader hheader h) himports

/--
A module with such a frame is written with the source of what precedes its imports and of what follows its declarations.
-/
theorem text_render {is ds : List Char}
    (himports : Yields m.newline.text.toList (!m.sourceAbove.isEmpty) (m'.writeImports (.ofModule settings m)) is)
    (hdeclarations : ∀ started, Yields m.newline.text.toList started
      (fun out => m'.declarations.foldl (fun out d => (Printer.ofModule settings m).declaration d true out) out) ds) :
    (m'.render settings).text
      = LineEdit.closed m.newline.text.toList (m.sourceAbove ++ is ++ (ds ++ m.eof.leading.text.toList)) := by
  have hnewline : m'.newline = m.newline := congrArg Printer.newline h.printer
  have hplace : m'.placements = m.placements := congrArg Printer.placements h.printer
  have hparts := (hm.yields_preamble hheader h himports).comp (Printer.newline_cases (.ofModule settings m))
    (hdeclarations _)
  rw [← List.append_assoc, ← h.eof, ← hnewline]
  refine text_render_of_yields ?_ (hplace.trans hm.placements) ?_ ?_ ?_
  · rw [h.printer, hnewline]
    exact hparts
  · rw [h.eof, hnewline]; exact hm.eof
  · rw [h.eof]; exact hm.neat
  · rw [h.eof, hnewline]; exact hm.begins

end Frames

section Declarations

variable {es : List Declaration} (hkeeps : List.Forall₂ (Align.Keeps settings (.ofModule settings m)) m.declarations es)
include hkeeps

/--
The declarations that are laid out are written behind the trivia before them, with characters that are not trimmed.
-/
theorem exists_yields_laidOut : ∃ ds : List Char,
    (∀ started, Yields m.newline.text.toList started
      (fun out => es.foldl (fun out d => (Printer.ofModule settings m).declaration d true out) out) ds)
      ∧ ((ds = [] ∧ m.declarations = []) ∨ ∃ c ∈ ds, LineEdit.isEndBlank c = false) := by
  have hplace : (Printer.ofModule settings m).placements = [] := hm.placements
  have hlaid : ∀ e ∈ es, ∃ d ∈ m.declarations, Align.Keeps settings (.ofModule settings m) d e :=
    Align.exists_of_forall₂ hkeeps
  refine ⟨es.flatMap fun e => (Trivia.text (firstToken e).leading).toList
    ++ ((Printer.ofModule settings m).declarationText e).toList, fun started => ?_, ?_⟩
  · refine Output.Yields.foldl (Printer.newline_cases (.ofModule settings m)) (fun e he started => ?_) started
    obtain ⟨d, hd, h⟩ := hlaid e he
    exact Align.yields_laidOut hplace h (hm.declarations d hd) started
  · cases es with
    | nil => exact .inl ⟨rfl, List.forall₂_nil_right_iff.1 hkeeps⟩
    | cons e more =>
      obtain ⟨d, hd, h⟩ := hlaid e List.mem_cons_self
      obtain ⟨c, hc, hshown⟩ := (Align.begins_declarationText hplace h (hm.declarations d hd)).mem
      refine .inr ⟨c, ?_, hshown⟩
      rw [List.flatMap_cons]
      exact List.mem_append_left _ (List.mem_append_right _ hc)

/--
The declarations behind all rules are written with their source.
-/
theorem yields_placed
    (hpins : PragmaOrder.pins es → ∀ pragma, .pragma pragma ∈ PragmaOrder.pin es → pragma.pinned →
      PragmaOrder.changes (.ofModule settings m) es (PragmaOrder.pin es) pragma = false)
    (habove : ∀ pragma, .pragma pragma ∈ PragmaOrder.placed es → pragma.pinned →
      pragma.token.leading.text = pragma.writtenAbove m.newline.text)
    (hsource : ∀ decl, .data decl ∈ PragmaOrder.placed es → ∀ layout ∈ decl.layout, decl.derivings ≠ [] →
      DerivingFormat.clausesText (.ofModule settings m) (DerivingFormat.normalize settings decl layout)
        = DerivingFormat.clausesSource (DerivingFormat.normalize settings decl layout)) (started : Bool) :
    Yields m.newline.text.toList started
      (fun out => ((PragmaOrder.placed es).map (DerivingFormat.marked settings)).foldl
        (fun out d => (Printer.ofModule settings m).declaration d true out) out)
      (Token.joinSource (m.declarations.flatMap HaskellStyle.tokens)).toList := by
  have hplace : (Printer.ofModule settings m).placements = [] := hm.placements
  have htokens := PragmaOrder.flatMap_tokens_placed hkeeps hm.declarations hpins hm.places
  have hyields := Printer.yields_declarations hplace
    (PragmaOrder.retold_placed hplace hkeeps hm.declarations hpins habove hsource)
    (PragmaOrder.pinned_head?_placed hkeeps hm.declarations) started
  rwa [htokens] at hyields

end Declarations

/--
The imports in groups are written with characters of which none is trimmed.
-/
theorem draws_groups {m' : Module} (himports : m'.importDecls = m.importDecls.map (Align.importDecl settings)) :
    Output.Draws m.newline.text.toList ((Printer.ofModule settings m).importBlock (ImportOrder.groups settings m')) := by
  have hplace : (Printer.ofModule settings m).placements = [] := hm.placements
  refine Printer.draws_importBlock hplace fun i hi => ?_
  obtain ⟨group, hgroup, hi⟩ := List.mem_flatten.1 hi
  have hmem := ImportOrder.mem_importDecls_of_mem_groups hgroup hi
  rw [himports] at hmem
  obtain ⟨i, hdecl, rfl⟩ := List.mem_map.1 hmem
  refine ⟨Align.shaped_importDecl (hm.imports i hdecl), ?_⟩
  rw [Align.tokens_importDecl]
  exact fun t ht => hm.tokens t
    (List.mem_append_left _ (List.mem_append_right _ (List.mem_flatMap.2 ⟨i, hdecl, ht⟩)))

end Retraceable

section Finished

variable {settings : Settings} {m : Module}

theorem finished_eq (m : Module) : m.finished settings = { (ImportOrder.apply settings m).module with
    headerPragmas := if PragmaOrder.reorders m then m.headerPragmas.mergeSort PragmaOrder.pragmaLe else m.headerPragmas
    pragmasNormalized := m.pragmasNormalized || PragmaOrder.reorders m
    declarations := (PragmaOrder.placed m.declarations).map (DerivingFormat.marked settings) } := by
  have hpragmas := PragmaOrder.module_apply_eq settings (ImportOrder.apply settings m).module
  obtain ⟨imports, importsNormalized, himports⟩ : ∃ imports importsNormalized,
      (ImportOrder.apply settings m).module = { m with imports, importsNormalized } := by
    rw [ImportOrder.module_apply]
    split
    · exact ⟨_, _, rfl⟩
    · exact ⟨m.imports, m.importsNormalized, rfl⟩
  rw [finished, DerivingFormat.apply]
  dsimp only
  rw [DerivingFormat.declarations_eq_map, hpragmas, himports]
  rfl

theorem printer_imported (m : Module) :
    Printer.ofModule settings (ImportOrder.apply settings m).module = .ofModule settings m := by
  rw [ImportOrder.module_apply]
  split <;> rfl

theorem printer_finished (m : Module) : Printer.ofModule settings (m.finished settings) = .ofModule settings m := by
  rw [finished_eq]
  exact printer_imported m

/--
The rules behind the one for layout keep the frame of a module, if they do not change its header pragmas.
-/
theorem Frames.finished {laid imported : Module} (h : m.Frames settings laid)
    (hfresh : laid.headerPragmas = m.headerPragmas ∧ laid.pragmasNormalized = false)
    (himported : (ImportOrder.apply settings laid).module = imported)
    (hkept : imported = { laid with imports := imported.imports, importsNormalized := imported.importsNormalized })
    (hquiet : (PragmaOrder.apply settings imported).notes.hasChanges = false) :
    m.Frames settings (laid.finished settings) := by
  obtain ⟨hpragmas, -⟩ := PragmaOrder.apply_quiet hquiet
  have hprinter : Printer.ofModule settings imported = .ofModule settings m := by
    rw [hkept]
    exact h.printer
  have hreorders : PragmaOrder.reorders imported = PragmaOrder.reorders laid := by
    rw [hkept]
    rfl
  have hsame : imported.headerPragmas = m.headerPragmas := by
    rw [hkept]
    exact hfresh.1
  rw [hprinter, hreorders, hsame] at hpragmas
  rw [finished_eq, himported, hfresh.1, hfresh.2, Bool.false_or]
  refine ⟨?_, ?_, ?_, ?_⟩
  · rw [hkept]; exact h.eof
  · rw [hkept]; exact h.printer
  · rw [hkept]; exact h.header
  · cases hreorders : PragmaOrder.reorders laid with
    | false => exact .inl ⟨rfl, rfl⟩
    | true =>
      refine .inr ⟨?_, rfl, rfl, hpragmas hreorders⟩
      rw [PragmaOrder.reorders, hfresh.1, Bool.and_eq_true, Bool.and_eq_true] at hreorders
      simpa using hreorders.1.1

namespace Retraceable

variable (hm : m.Retraceable settings)
include hm

theorem source_eq : (Token.joinSource (HaskellStyle.tokens m)).toList = m.sourceAbove
    ++ (Token.joinSource (m.importDecls.flatMap HaskellStyle.tokens)).toList
    ++ ((Token.joinSource (m.declarations.flatMap HaskellStyle.tokens)).toList ++ m.eof.leading.text.toList) := by
  have heof : Token.joinSource [m.eof] = m.eof.leading.text := by
    rw [Token.joinSource_eq, List.getLastD_nil, hm.ends.2]
    simp [Token.textBetween, hm.ends.1, Trivia.text]
  rw [tokens_eq, List.flatMap_map, List.flatMap_map]
  simp only [Token.joinSource_append, String.toList_append, heof, sourceAbove, List.append_assoc]
  rfl

/--
Imports that are not put in groups are written with their source.
-/
theorem yields_imports {m' : Module} (hkept : m'.importsNormalized = false)
    (hsame : m'.importDecls.flatMap HaskellStyle.tokens = m.importDecls.flatMap HaskellStyle.tokens) (started : Bool) :
    Yields m.newline.text.toList started (m'.writeImports (.ofModule settings m))
      (Token.joinSource (m.importDecls.flatMap HaskellStyle.tokens)).toList := by
  have hyields := Printer.yields_verbatim (p := .ofModule settings m) hm.placements (fun t ht => hm.tokens t
    (List.mem_append_left _ (List.mem_append_right _ ht))) started
  refine hyields.congr fun out => ?_
  rw [writeImports, hkept, hsame]
  rfl

/--
The rule for layout keeps the frame of a module.
-/
theorem frames_aligned {aligned : RuleResult} (halign : Align.apply settings m = .ok aligned) :
    m.Frames settings aligned.module ∧ aligned.module.headerPragmas = m.headerPragmas
      ∧ aligned.module.pragmasNormalized = false ∧ aligned.module.importsNormalized = false := by
  obtain ⟨es, -, hmodule⟩ := Align.apply_ok halign
  rw [hmodule]
  exact ⟨⟨rfl, rfl, rfl, .inl ⟨rfl, hm.fresh.pragmas⟩⟩, rfl, hm.fresh.pragmas, hm.fresh.imports⟩

/--
A module is given back if no rule notes a change, but for what the rules overlook: lines above pinned pragmas that are
written differently, and deriving clauses that were changed before the rule for them was applied.
-/
theorem text_finished {aligned : RuleResult} (halign : Align.apply settings m = .ok aligned)
    (haligned : aligned.notes.hasChanges = false)
    (himported : (ImportOrder.apply settings aligned.module).notes.hasChanges = false)
    (hplaced : (PragmaOrder.apply settings (ImportOrder.apply settings aligned.module).module).notes.hasChanges = false)
    (habove : ∀ pragma, .pragma pragma ∈ PragmaOrder.placed aligned.module.declarations → pragma.pinned →
      pragma.token.leading.text = pragma.writtenAbove m.newline.text)
    (hsource : ∀ decl, .data decl ∈ PragmaOrder.placed aligned.module.declarations → ∀ layout ∈ decl.layout,
      decl.derivings ≠ [] →
      DerivingFormat.clausesText (.ofModule settings m) (DerivingFormat.normalize settings decl layout)
        = DerivingFormat.clausesSource (DerivingFormat.normalize settings decl layout)) :
    ((aligned.module.finished settings).render settings).text
      = LineEdit.closed m.newline.text.toList (Token.joinSource (HaskellStyle.tokens m)).toList := by
  obtain ⟨hheader, hkeeps⟩ := Align.apply_quiet halign haligned
  have himports := Align.importDecls_eq halign
  have htokens := (Align.flatMap_tokens_eq halign).1
  obtain ⟨hframes, hpragmas, hnormalized, hplain⟩ := hm.frames_aligned halign
  generalize aligned.module = laid at *
  obtain ⟨ds, hds, hshown⟩ := hm.exists_yields_laidOut hkeeps
  have hpins := (PragmaOrder.apply_quiet hplaced).2
  rw [printer_imported, hframes.printer, ImportOrder.declarations_apply] at hpins
  have hyields := hm.yields_placed hkeeps hpins habove hsource
  have hdeclarations (m' : Module) (h : m' = laid.finished settings) (started : Bool) :
      Yields m.newline.text.toList started
      (fun out => m'.declarations.foldl (fun out d => (Printer.ofModule settings m).declaration d true out) out)
      (Token.joinSource (m.declarations.flatMap HaskellStyle.tokens)).toList := by
    rw [h, finished_eq]
    exact hyields started
  rw [hm.source_eq]
  rcases ImportOrder.apply_quiet himported with heq | ⟨heq, hsame⟩
  · have hfinished := hframes.finished ⟨hpragmas, hnormalized⟩ heq rfl (heq ▸ hplaced)
    refine hm.text_render hheader hfinished (hm.yields_imports ?_ ?_ _) (hdeclarations _ rfl)
    · rw [finished_eq, heq]
      exact hplain
    · rw [finished_eq, heq]
      exact htokens
  · have hfinished := hframes.finished ⟨hpragmas, hnormalized⟩ heq rfl (heq ▸ hplaced)
    obtain ⟨is, hblock⟩ := hm.draws_groups himports (!m.sourceAbove.isEmpty)
    have hgroups (m' : Module) (himports : m'.imports = ImportOrder.groups settings laid) (hm' : m'.importsNormalized) :
        Yields m.newline.text.toList (!m.sourceAbove.isEmpty) (m'.writeImports (.ofModule settings m)) is :=
      hblock.congr fun out => by rw [writeImports, if_pos hm', himports]
    have hbefore := hm.text_render hheader hframes (hm.yields_imports hplain htokens _) hds
    rw [heq] at hsame
    have hgrouped :
        m.Frames settings { laid with imports := ImportOrder.groups settings laid, importsNormalized := true } :=
      ⟨hframes.eof, hframes.printer, hframes.header, hframes.pragmas⟩
    have hafter := hm.text_render hheader hgrouped (hgroups _ rfl rfl) hds
    have hfinal := hm.text_render hheader hfinished
      (hgroups _ (by rw [finished_eq, heq]) (by rw [finished_eq, heq])) (hdeclarations _ rfl)
    rw [hfinal]
    refine LineEdit.closed_congr (hafter.symm.trans (hsame.symm.trans hbefore)) (hshown.imp_left ?_)
    rintro ⟨rfl, hnil⟩
    rw [hnil]
    exact ⟨rfl, rfl⟩

end Retraceable

end Finished

end Module

end HaskellStyle
