import HaskellStyle.Proofs.Newline.Render
import HaskellStyle.Proofs.Rule.Apply
import Mathlib.Data.List.TakeWhile

/-!
This module contains the rule for deriving clauses on modules with carriage returns. The text of the clauses of a
declaration is what follows the text of its body, so carriage returns do not change where it begins.
-/

namespace HaskellStyle

open Text (crlfString)

namespace Printer

variable {p : Printer}

theorem trailing_of_not_hasComments {t : Token} (h : t.trailing.hasComments = false) (structured : Bool) (out : Output) :
    p.trailing t structured out = out := by
  have hcomments : ∀ piece ∈ t.trailing, !piece.isComment := by
    simpa [Trivia.hasComments] using h
  have hnone : t.trailing.dropWhile (!·.isComment) = [] := List.dropWhile_eq_nil_iff.2 hcomments
  unfold trailing splitComments
  rw [hnone]
  rfl

/--
Rows of which each but the last writes the comments behind it, and the comments behind the last of them.
-/
theorem trailing_rows {ρ : Type} {rows : List ρ} (toks : ρ → List Token) (write : ρ → Output → Output) {last end_ : Token}
    (htoks : ∀ row ∈ rows, toks row ≠ []) (hoffsets : ((rows.flatMap toks).map (·.offset)).Nodup)
    (hend : end_.offset ∉ (rows.flatMap toks).map (·.offset)) (hlast : (rows.flatMap toks).getLast? = some last)
    (out : Output) :
    p.trailing last true (rows.foldl (fun out row =>
        p.trailingInside ((toks row).getLastD last) last (write row out)) out)
      = rows.foldl (fun out row => p.trailingInside ((toks row).getLastD last) end_ (write row out)) out := by
  have hmem {row : ρ} (hrow : row ∈ rows) : (toks row).getLastD last ∈ toks row :=
    Token.getLastD_mem (htoks row hrow) _
  have hwrites {row : ρ} (hrow : row ∈ rows) (out : Output) :
      p.trailingInside ((toks row).getLastD last) end_ (write row out)
        = p.trailing ((toks row).getLastD last) true (write row out) := by
    refine if_neg fun heq => hend ?_
    rw [← heq]
    exact List.mem_map_of_mem (List.mem_flatMap.2 ⟨row, hrow, hmem hrow⟩)
  rcases List.eq_nil_or_concat' rows with rfl | ⟨before, row, rfl⟩
  · cases hlast
  · have hrow : row ∈ before ++ [row] := List.mem_append_right _ (List.mem_singleton.2 rfl)
    have hlastRow : (toks row).getLastD last = last := by
      rw [List.flatMap_append, List.flatMap_singleton, List.getLast?_append_of_ne_nil _ (htoks row hrow)] at hlast
      rw [List.getLastD_eq_getLast?, hlast]
      rfl
    have hbefore (out : Output) : before.foldl (fun out row =>
          p.trailingInside ((toks row).getLastD last) last (write row out)) out
        = before.foldl (fun out row => p.trailingInside ((toks row).getLastD last) end_ (write row out)) out := by
      refine List.foldl_ext _ _ _ fun out row' hrow' => ?_
      have hmember : row' ∈ before ++ [row] := List.mem_append_left _ hrow'
      rw [hwrites hmember]
      -- The last token is that of the last row, so no row before ends at its place.
      refine if_neg fun heq => ?_
      rw [List.flatMap_append, List.flatMap_singleton, List.map_append, List.nodup_append] at hoffsets
      refine hoffsets.2.2 _ (List.mem_map_of_mem (List.mem_flatMap.2 ⟨row', hrow', hmem hmember⟩)) last.offset ?_ heq
      exact List.mem_map_of_mem (hlastRow ▸ hmem hrow)
    rw [List.foldl_append, List.foldl_append, hbefore]
    dsimp only [List.foldl_cons, List.foldl_nil]
    rw [hwrites hrow, hlastRow]
    exact congrArg _ (if_pos rfl)

end Printer

/--
The body of a declaration ends before its deriving clauses.
-/
theorem DataDecl.lastToken_withoutDerivings (d : DataDecl) :
    lastToken { d with derivings := [] : DataDecl } = d.bodyTokens.getLastD d.keyword := by
  rw [lastToken, tokens_withoutDerivings]
  rfl

namespace Printer

variable {p : Printer} {d : DataDecl} (hd : d.IsPlain) (hderivings : d.derivings ≠ [])
include hd hderivings

theorem offset_lastToken_notMem : (lastToken d).offset ∉ d.bodyTokens.map (·.offset) := by
  have hoffsets := hd.offsets
  rw [DataDecl.tokens_eq, List.map_append, List.nodup_append] at hoffsets
  intro hmem
  have hlast : lastToken d ∈ d.derivings.flatMap tokens := by
    rw [lastToken, DataDecl.tokens_eq, Token.getLastD_append (flatMap_ne_nil hderivings)]
    exact Token.getLastD_mem (flatMap_ne_nil hderivings) _
  exact hoffsets.2.2 _ hmem _ (List.mem_map_of_mem hlast) rfl

/--
A declaration without its deriving clauses is written as its body is written with them.
-/
theorem trailing_dataBody {layout : ListLayout} (hlayout : d.layout = some layout) (out : Output) :
    p.trailing (lastToken { d with derivings := [] : DataDecl }) true
        (p.dataBody { d with derivings := [] } layout out)
      = p.dataBody d layout out := by
  have hlast := d.lastToken_withoutDerivings
  have hend := offset_lastToken_notMem hd hderivings
  have hrecord : { d with derivings := [] : DataDecl }.singleRecord? = d.singleRecord? := rfl
  cases layout with
  | singleLine =>
    have hclean := hd.clean hlayout
    rw [DataDecl.tokens_eq] at hclean
    rw [hlast]
    exact trailing_of_not_hasComments ((Token.cleanInside_append hclean).2.2 (List.cons_ne_nil _ _)
      (flatMap_ne_nil hderivings) d.keyword) _ _
  | multiLine =>
    cases hr : d.singleRecord? with
    | some r =>
      have hafter := hd.record hlayout (by rw [hr]; rfl)
      have hconstructor : d.constructor.record = some r ∧ d.others = [] := by
        unfold DataDecl.singleRecord? at hr
        split at hr
        · next hothers => exact ⟨hr, List.isEmpty_iff.1 hothers⟩
        · cases hr
      have hbody : d.bodyTokens = (d.keyword :: d.head ++ d.equals :: d.constructor.before) ++ tokens r := by
        unfold DataDecl.bodyTokens DataDecl.ledConstructors
        rw [hconstructor.2, List.flatMap_singleton]
        dsimp only
        rw [Constructor.tokens_of_record hconstructor.1 hafter]
        simp
      have hclosing : lastToken { d with derivings := [] : DataDecl } = r.closing := by
        have hrecordNe : tokens r ≠ [] := List.cons_ne_nil _ _
        rw [hlast, hbody, Token.getLastD_append hrecordNe, Record.getLastD_tokens]
      have hoffset : r.closing.offset ≠ (lastToken d).offset := by
        intro heq
        refine hend (heq ▸ List.mem_map_of_mem (hbody ▸ List.mem_append_right _ ?_))
        exact List.mem_append_right _ (List.mem_singleton.2 rfl)
      unfold dataBody
      rw [hrecord, hr, hclosing]
      dsimp only
      rw [trailingInside, trailingInside, if_pos rfl, if_neg hoffset]
      rfl
    | none =>
      have hbody : d.bodyTokens
        = (d.keyword :: d.head) ++ d.ledConstructors.flatMap fun row => row.1 :: tokens row.2 := rfl
      have hrowsNe : (d.ledConstructors.flatMap fun row => row.1 :: tokens row.2) ≠ [] := List.cons_ne_nil _ _
      have hoffsets : ((d.ledConstructors.flatMap fun row => row.1 :: tokens row.2).map (·.offset)).Nodup := by
        refine hd.offsets.sublist (List.Sublist.map _ ?_)
        rw [DataDecl.tokens_eq, hbody]
        exact (List.sublist_append_right _ _).trans (List.sublist_append_left _ _)
      have hgetLast : (d.ledConstructors.flatMap fun row => row.1 :: tokens row.2).getLast?
          = some (lastToken { d with derivings := [] : DataDecl }) := by
        rw [hlast, hbody, Token.getLastD_append hrowsNe, List.getLastD_eq_getLast?, List.getLast?_eq_some_getLast hrowsNe]
        rfl
      have hrows := trailing_rows (p := p) (fun row : Token × Constructor => row.1 :: tokens row.2)
        (p.constructorRow (d.keyword.column + p.indent)) (fun _ _ => List.cons_ne_nil _ _) hoffsets
        (fun hmem => hend (by rw [hbody, List.map_append]; exact List.mem_append_right _ hmem)) hgetLast (out.put d.flatHead)
      unfold dataBody
      rw [hrecord, hr]
      exact hrows

/--
The text of a declaration begins with that of its body.
-/
theorem declarationText_begins {layout : ListLayout} (hlayout : d.layout = some layout) :
    (p.declarationText (.data { d with derivings := [] })).toList <+: (p.declarationText (.data d)).toList := by
  have hbody : p.declarationText (.data { d with derivings := [] }) = (p.dataBody d layout p.start).text := by
    have hdeclaration : p.declarationText (.data { d with derivings := [] })
        = (p.trailing (lastToken { d with derivings := [] : DataDecl }) true (p.derivings { d with derivings := [] } layout
          (d.keyword.column + p.indent) (p.dataBody { d with derivings := [] } layout p.start))).text := by
      unfold declarationText declaration
      dsimp only
      rw [hlayout]
      rfl
    rw [hdeclaration, derivings_nil rfl, trailing_dataBody hd hderivings hlayout]
  have hwhole : p.declarationText (.data d) = (p.trailing (lastToken d) true
      (p.derivings d layout (d.keyword.column + p.indent) (p.dataBody d layout p.start))).text := by
    unfold declarationText declaration
    dsimp only
    rw [hlayout]
    rfl
  have hkept : Output.Kept (fun _ => True) fun out => (p.dataBody d layout p.start).text.toList <+: out.text.toList := by
    refine ⟨⟨trivial, fun _ => trivial⟩, fun _ _ _ => trivial, fun _ _ hout => ?_, fun _ _ hout => hout⟩
    rw [Output.write, String.toList_append]
    exact hout.trans (List.prefix_append _ _)
  have hover (t : Token) : t.Over fun _ => True := ⟨fun _ _ => trivial, fun _ _ _ _ => trivial, fun _ _ _ _ => trivial⟩
  rw [hbody, hwhole]
  exact trailing_kept hkept p (derivings_kept hkept p List.prefix_rfl (fun t _ => hover t) layout _) (hover _) true

end Printer

namespace DerivingFormat

variable {σ : Nat → Nat} (settings : Settings)

theorem isPlain_normalize {d : DataDecl} (hd : d.IsPlain) (layout : ListLayout) : (normalize settings d layout).IsPlain := by
  have htokens : tokens (normalize settings d layout) = tokens d :=
    congrArg Prod.fst (contents_normalize settings d layout)
  constructor
  case offsets => exact htokens ▸ hd.offsets
  case oneLine => exact fun hlayout t ht => hd.oneLine hlayout t (htokens ▸ ht)
  case clean => exact fun hlayout => htokens ▸ hd.clean hlayout
  case record => exact hd.record

theorem normalize_crlf {d : DataDecl} (hd : d.IsOneLine) (layout : ListLayout) :
    normalize settings (mapTokens (Token.crlf σ) d) layout = mapTokens (Token.crlf σ) (normalize settings d layout) := by
  have hderivings : (mapTokens (Token.crlf σ) d).derivings = d.derivings.map (mapTokens (Token.crlf σ)) := rfl
  have hwidths : (d.derivings.map (mapTokens (Token.crlf σ))).map (·.flatKeyword.length)
      = d.derivings.map (·.flatKeyword.length) := by
    rw [List.map_map]
    refine List.map_congr_left fun clause hclause => ?_
    rw [Function.comp_apply, Deriving.flatKeyword_crlf, hd.flatKeyword hclause]
  have hnormal : (d.derivings.map (mapTokens (Token.crlf σ))).map (fun clause => { clause with parenthesize := true })
      = (d.derivings.map fun clause => { clause with parenthesize := true : Deriving }).map (mapTokens (Token.crlf σ)) := by
    rw [List.map_map, List.map_map]
    rfl
  unfold normalize
  dsimp only
  rw [hderivings, List.length_map, hwidths, hnormal]
  rfl

theorem clausesText_crlf (hσ : Function.Injective σ) {p : Printer} (hp : p.newline = .lf) {d : DataDecl} (hd : d.IsPlain)
    (hderivings : d.derivings ≠ []) {layout : ListLayout} (hlayout : d.layout = some layout) :
    clausesText (p.crlf σ) (mapTokens (Token.crlf σ) d) = crlfString (clausesText p d) := by
  have hbegins := Printer.declarationText_begins (p := p) hd hderivings hlayout
  have hbody := Printer.declarationText_crlf hσ hp (d := .data { d with derivings := [] }) hd.withoutDerivings
  have hwhole := Printer.declarationText_crlf hσ hp (d := .data d) hd
  show String.ofList (((p.crlf σ).declarationText (mapTokens (Token.crlf σ) (.data d))).toList.drop
    ((p.crlf σ).declarationText (mapTokens (Token.crlf σ) (.data { d with derivings := [] }))).length) = _
  rw [hbody, hwhole, ← String.length_toList, Text.toList_crlfString, Text.toList_crlfString,
    Text.length_crlf_eq_crlfOffset hbegins, Text.drop_crlf, ← Text.crlfString_ofList, String.length_toList]
  rfl

theorem clausesSource_crlf (d : DataDecl) :
    clausesSource (mapTokens (Token.crlf σ) d) = crlfString (clausesSource d) := by
  have hderivings : (mapTokens (Token.crlf σ) d).derivings = d.derivings.map (mapTokens (Token.crlf σ)) := rfl
  unfold clausesSource
  rw [hderivings, flatMap_tokens_map, Token.sourceThroughComments_crlf, Text.crlfString_append, List.head?_map]
  congr 1
  cases d.derivings.head? with
  | none => exact Text.crlfString_empty.symm
  | some clause =>
    have hleading : (mapTokens (Token.crlf σ) clause).keyword.leading = Trivia.crlf σ clause.keyword.leading :=
      Token.leading_crlf σ clause.keyword
    simp only [Option.map_some, Option.getD_some, hleading, Trivia.text_crlf]

theorem isPlain_declaration (p : Printer) {d : Declaration} (hd : d.IsPlain) (notes : Notes) :
    (declaration settings p d notes).1.IsPlain := by
  unfold declaration
  split
  · split
    · exact isPlain_normalize settings hd _
    · exact hd
  · exact hd

theorem isPlain_declarations (p : Printer) {ds : List Declaration} (hds : ∀ d ∈ ds, d.IsPlain) (notes : Notes) :
    ∀ d ∈ (declarations settings p ds notes).1, d.IsPlain := by
  induction ds generalizing notes with
  | nil => exact hds
  | cons d more ih =>
    obtain ⟨hd, hmore⟩ := List.forall_mem_cons.1 hds
    exact List.forall_mem_cons.2 ⟨isPlain_declaration settings p hd notes, ih hmore _⟩

section

variable (hσ : Function.Injective σ) {p : Printer} (hp : p.newline = .lf)
include hσ hp

/--
One step: a declaration with carriage returns gets the normal form that it gets without them.
-/
theorem declaration_crlf {d : Declaration} (hd : d.IsPlain) {notes notes' : Notes} (hfixes : notes'.fixes = notes.fixes) :
    (declaration settings (p.crlf σ) (mapTokens (Token.crlf σ) d) notes').1
        = mapTokens (Token.crlf σ) (declaration settings p d notes).1
      ∧ (declaration settings (p.crlf σ) (mapTokens (Token.crlf σ) d) notes').2.fixes
        = (declaration settings p d notes).2.fixes := by
  cases d with
  | importing _ | pragma _ | signature _ | clause _ _ | raw _ => exact ⟨rfl, hfixes⟩
  | data decl =>
    have hlayout : (mapTokens (Token.crlf σ) decl).layout = decl.layout := rfl
    have hderivings : (mapTokens (Token.crlf σ) decl).derivings = decl.derivings.map (mapTokens (Token.crlf σ)) := rfl
    rw [Declaration.mapTokens_data]
    unfold declaration
    dsimp only
    rw [hlayout, hderivings]
    cases hlaidOut : decl.layout with
    | none => exact ⟨rfl, hfixes⟩
    | some layout =>
      cases hclauses : decl.derivings with
      | nil => exact ⟨rfl, hfixes⟩
      | cons first more =>
        have hne : decl.derivings ≠ [] := hclauses ▸ List.cons_ne_nil _ _
        have hnormalNe : (normalize settings decl layout).derivings ≠ [] := fun hnil => hne (List.map_eq_nil_iff.1 hnil)
        have hnormal := normalize_crlf settings (σ := σ) (hd.oneLine (by rw [hlaidOut]; rfl)) layout
        have hbefore := clausesText_crlf hσ hp hd hne hlaidOut
        have hafter := clausesText_crlf hσ hp (isPlain_normalize settings hd layout) hnormalNe hlaidOut
        rw [List.map_cons]
        dsimp only
        rw [hnormal, hbefore, hafter, clausesSource_crlf, Text.crlfString_bne, Text.crlfString_bne]
        refine ⟨rfl, ?_⟩
        split
        · rw [Notes.fixes_fixed, Notes.fixes_fixed, hfixes]
        · exact hfixes

/--
The run: declarations with carriage returns get the normal forms that they get without them, and the same fixes are
noted.
-/
theorem declarations_crlf {ds : List Declaration} (hds : ∀ d ∈ ds, d.IsPlain) {notes notes' : Notes}
    (hfixes : notes'.fixes = notes.fixes) :
    (declarations settings (p.crlf σ) (ds.map (mapTokens (Token.crlf σ))) notes').1
        = (declarations settings p ds notes).1.map (mapTokens (Token.crlf σ))
      ∧ (declarations settings (p.crlf σ) (ds.map (mapTokens (Token.crlf σ))) notes').2.fixes
        = (declarations settings p ds notes).2.fixes := by
  induction ds generalizing notes notes' with
  | nil => exact ⟨rfl, hfixes⟩
  | cons d more ih =>
    obtain ⟨hd, hmore⟩ := List.forall_mem_cons.1 hds
    obtain ⟨hdeclaration, hnoted⟩ := declaration_crlf settings hσ hp hd hfixes
    obtain ⟨hothers, hnotes⟩ := ih hmore hnoted
    rw [List.map_cons]
    unfold declarations
    exact ⟨congrArg₂ List.cons hdeclaration hothers, hnotes⟩

end

/--
The rule puts the deriving clauses of a module with carriage returns in the form that it puts them in without them.
-/
theorem apply_crlf (hσ : Function.Injective σ) {m : Module} (hm : m.IsPlain) :
    (apply settings (m.crlf σ)).outcome = (apply settings m).crlfOutcome σ := by
  have hnotes : ({ found := lazyFields settings (m.crlf σ) ++ repeatedClasses settings (m.crlf σ) } : Notes).fixes
      = ({ found := lazyFields settings m ++ repeatedClasses settings m } : Notes).fixes := rfl
  obtain ⟨hds, hfixes⟩ := declarations_crlf settings hσ (p := Printer.ofModule settings m) hm.newline hm.declarations
    hnotes
  refine Prod.ext ?_ hfixes
  exact congrArg (fun ds => ({ m.crlf σ with declarations := ds } : Module)) hds

end DerivingFormat

end HaskellStyle
