import HaskellStyle.Proofs.Rule.Unlaid
import HaskellStyle.Proofs.Print.Placed

/-!
This module contains the writing of a module as it was read: its tokens are written one after the other with what
stands around them. So a token with a placement comes to stand behind all that could be seen before it, on a line that
begins as its placement asks for.
-/

namespace HaskellStyle

namespace Output

/--
Output that was written on.
-/
structure Continues (out out' : Output) : Prop where
  text : out.text.toList <+: out'.text.toList
  shielded : out.shielded ⊆ out'.shielded

theorem kept_continues (out : Output) : Kept (fun _ => True) out.Continues where
  alphabet := ⟨trivial, fun _ => trivial⟩
  newline _ _ _ := trivial
  write {written text} shield _ h := by
    refine ⟨h.text.trans ?_, List.Subset.trans h.shielded ?_⟩
    · rw [Output.write, String.toList_append]
      exact List.prefix_append _ _
    · unfold Output.write
      dsimp only
      split
      · exact List.subset_cons_self _ _
      · exact List.Subset.refl _
  report _ _ h := ⟨h.text, h.shielded⟩

theorem kept_sound : Kept (fun _ => True) Sound where
  alphabet := ⟨trivial, fun _ => trivial⟩
  newline _ _ _ := trivial
  write shield _ h := h.write _ shield
  report _ _ h := ⟨h.size, h.newline, h.disjoint, h.bounded⟩

theorem Continues.refl (out : Output) : out.Continues out :=
  ⟨List.prefix_refl _, List.Subset.refl _⟩

/--
The line of a token is left in place when line ends are normalized, up to the end of the token.
-/
theorem Continues.exists_normalize {out out' : Output} {t : Token}
    (h : (out.write t.text t.isMultiline).Continues out') (hout : out.Sound) (hout' : out'.Sound)
    (ht : t.lexeme.Sound) {before lead : List Char} (htext : out.text.toList = before ++ '\n' :: lead)
    (hlead : '\n' ∉ lead)
    (newline : List Char) :
    ∃ before' behind, LineEdit.normalize newline out'.text.toList out'.shielded.reverse
        = before' ++ '\n' :: (lead ++ t.text.toList) ++ behind
      ∧ Text.visible before' = Text.visible before := by
  obtain ⟨⟨behind, hbehind⟩, hshielded⟩ := h
  have hsize : out.size = before.length + 1 + lead.length := by
    rw [hout.size, htext, List.length_append, List.length_cons]
    omega
  -- A token that goes over line ends was shielded when it was written.
  have hrange (hnewline : '\n' ∈ t.text.toList) :
      (before.length + 1 + lead.length, before.length + 1 + lead.length + t.text.toList.length)
        ∈ out'.shielded.reverse := by
    refine List.mem_reverse.2 (hshielded ?_)
    unfold Output.write
    dsimp only
    rw [Token.isMultiline, List.contains_iff_mem.2 hnewline, Bool.and_self, if_pos rfl, hsize]
    exact List.mem_cons_self
  have hwritten : before ++ '\n' :: (lead ++ t.text.toList) ++ behind = out'.text.toList := by
    rw [← hbehind, Output.write, String.toList_append, htext]
    simp
  rw [← hwritten]
  exact LineEdit.exists_normalize (List.pairwise_reverse.2 hout'.disjoint)
    (fun r hr => (hout'.bounded r (List.mem_reverse.1 hr)).1)
    (LineEdit.firm_append hlead (fun hnil => ht.nonempty (String.toList_eq_nil_iff.1 hnil)) (ht.first t.kind rfl)
      (ht.last t.kind rfl) hrange behind)

end Output

theorem Token.over_true (t : Token) : t.Over fun _ => True :=
  ⟨fun _ _ => trivial, fun _ _ _ _ => trivial, fun _ _ _ _ => trivial⟩

namespace Printer

theorem verbatim_append (p : Printer) (before after : List Token) (out : Output) :
    p.verbatim (before ++ after) out = p.verbatim after (p.verbatim before out) :=
  List.foldl_append

theorem sound_start (p : Printer) : p.start.Sound where
  size := rfl
  newline := by
    unfold start
    dsimp only
    cases p.newline with
    | lf => exact .inl (by decide)
    | crlf => exact .inr (by decide)
  disjoint := .nil
  bounded _ h := absurd h List.not_mem_nil

theorem spells_start (p : Printer) : p.start.Spells [] :=
  ⟨p.sound_start, rfl⟩

end Printer

/--
A token that was read is not the end of the text.
-/
theorem Token.isEnd_of_sound {t : Token} (h : t.lexeme.Sound) : t.isEnd = false := by
  rw [isEnd, decide_eq_false_iff_not]
  exact fun hkind => h.kind (congrArg LexemeKind.token hkind)

/--
A declaration that has not been laid out is written as it was read.
-/
theorem Declaration.IsFresh.declaration_eq {d : Declaration} (h : d.IsFresh) (p : Printer) (out : Output) :
    p.declaration d true out = p.verbatim (tokens d) out := by
  obtain ⟨hunlaid, hpinned⟩ := h
  cases d with
  | importing | raw => rfl
  | pragma pragma =>
    rw [Printer.declaration, hpinned pragma rfl]
    rfl
  | signature s =>
    have hlayout : none = s.layout := congrArg Signature.layout (Declaration.signature.inj hunlaid)
    rw [Printer.declaration, ← hlayout]
    rfl
  | data decl =>
    have hlayout : none = decl.layout := congrArg DataDecl.layout (Declaration.data.inj hunlaid)
    rw [Printer.declaration, ← hlayout]
    rfl
  | clause c layout =>
    have hlayout : none = layout := (Declaration.clause.inj hunlaid).2
    rw [← hlayout]
    rfl

namespace Module

section Fresh

variable {m : Module} (h : m.IsFresh) (p : Printer)
include h

theorem IsFresh.moduleParts_eq (out : Output) : p.moduleParts m out = p.leading m.eof (p.verbatim
    (m.headerPragmas.map (·.token) ++ (m.header.map tokens).getD [] ++ m.importDecls.flatMap tokens
      ++ m.declarations.flatMap tokens) out) := by
  have hdeclarations (out : Output) : m.declarations.foldl (fun out d => p.declaration d true out) out
      = p.verbatim (m.declarations.flatMap tokens) out := by
    have hds := h.declarations
    generalize m.declarations = ds at hds ⊢
    induction ds generalizing out with
    | nil => rfl
    | cons d ds ih =>
      obtain ⟨hd, hds⟩ := List.forall_mem_cons.1 hds
      rw [List.foldl_cons, hd.declaration_eq, ih _ hds, List.flatMap_cons, Printer.verbatim_append]
  unfold Printer.moduleParts
  simp only [h.pragmas, h.imports, Bool.false_eq_true, if_false]
  rw [hdeclarations, Printer.verbatim_append, Printer.verbatim_append, Printer.verbatim_append]
  cases hheader : m.header with
  | none => rfl
  | some head =>
    have hexports : head.exports.bind (fun exports => exports.layout.map (exports, ·)) = none := by
      cases hlist : head.exports with
      | none => rfl
      | some list => rw [Option.bind_some, h.header head hheader list hlist, Option.map_none]
    dsimp only
    rw [Printer.header, hexports]
    rfl

/--
A token is written behind the tokens before it, and it is not taken back.
-/
theorem IsFresh.continues {before after : List Token} {t : Token}
    (htokens : tokens m = before ++ t :: after ++ [m.eof]) :
    ((p.leading t (p.verbatim before p.start)).write t.text t.isMultiline).Continues (p.moduleParts m p.start) := by
  have hbody : m.headerPragmas.map (·.token) ++ (m.header.map tokens).getD [] ++ m.importDecls.flatMap tokens
      ++ m.declarations.flatMap tokens = before ++ t :: after :=
    List.append_cancel_right ((tokens_eq_append m).symm.trans htokens)
  have hkept := Output.kept_continues ((p.leading t (p.verbatim before p.start)).write t.text t.isMultiline)
  rw [h.moduleParts_eq, hbody, Printer.verbatim_append]
  exact Printer.leading_kept hkept p (Printer.verbatim_kept hkept p
    (Printer.trailing_kept hkept p (.refl _) t.over_true false) fun t _ => t.over_true) m.eof.over_true

omit h in
theorem sound_moduleParts : (p.moduleParts m p.start).Sound :=
  Printer.moduleParts_kept Output.kept_sound p p.sound_start fun t _ => t.over_true

omit p in
/--
A token with a placement that can be followed comes to stand behind all that could be seen before it, on a line that
begins as the placement asks for.
-/
theorem IsFresh.exists_text_render {before after : List Token} {t : Token}
    (htokens : tokens m = before ++ t :: after ++ [m.eof]) (hbefore : ∀ t ∈ before, t.IsClear) (ht : t.IsClear)
    (hsound : t.lexeme.Sound) {placement : Placement} (hplaced : m.placements.lookup t.offset = some placement)
    (hmovable : placement.Movable t) (settings : Settings) :
    ∃ before' behind, (m.render settings).text = before' ++ '\n' :: (placement.lead t ++ t.text.toList) ++ behind
      ∧ Text.visible (before' ++ placement.lead t)
        = Text.visible (Token.joinSource before).toList ++ t.leading.visible := by
  have hverbatim := Printer.spells_verbatim (.ofModule settings m) (Printer.spells_start (.ofModule settings m)) hbefore
  have hled := Printer.spells_leading (.ofModule settings m) hverbatim ht.leading
  have hlookup : (Printer.ofModule settings m).placements.lookup t.offset = some placement := hplaced
  obtain ⟨written, hwritten⟩ := Printer.exists_text_leading hverbatim.sound ht.leading
    (Token.isEnd_of_sound hsound) hlookup hmovable
  obtain ⟨before', behind, hrender, hvisible⟩ := (h.continues _ htokens).exists_normalize hled.sound
    (sound_moduleParts _) hsound hwritten (Placement.newline_notMem_lead hmovable) m.newline.text.toList
  refine ⟨before', behind, hrender, ?_⟩
  have hseen := hled.visible
  rw [hwritten, Text.visible_append,
    show Text.visible ('\n' :: placement.lead t) = Text.visible (placement.lead t) from rfl] at hseen
  rw [Text.visible_append, hvisible, hseen]
  rfl

end Fresh

section Read

variable {text : List Char} {m : Module} (h : read text = .ok m)
include h

/--
Of what stands around the tokens of a module only comments and directives can be seen.
-/
theorem isClear_of_read : ∀ t ∈ tokens m, t.IsClear := by
  obtain ⟨stream, hstream, htokens, -⟩ := tokens_of_read h
  have htiling := TokenStream.tiling_lexemes hstream
  obtain ⟨ls, -, -, heof⟩ := TokenStream.ofTextWith_eq hstream
  -- Every other piece of trivia is made of blanks.
  have hpiece {t : Token} (ht : t ∈ tokens m) {piece : TriviaPiece} (hpiece : piece ∈ t.leading ++ t.trailing)
      (hkind : piece.isComment = false) : Text.visible piece.text.toList = [] := by
    rw [htokens] at ht
    have hadmits := (htiling.sound _ (TokenStream.piece_mem_lexemes (by rw [heof]) ht hpiece)).trivia piece.kind rfl
    rw [TriviaPiece.isComment] at hkind
    cases hpiece : piece.kind with
    | blanks =>
      rw [hpiece] at hadmits
      exact Text.visible_eq_nil fun c hc => (hadmits c hc).1
    | newline =>
      rw [hpiece] at hadmits
      rcases hadmits with heq | heq
      all_goals
        rw [show piece.text.toList = _ from heq]
        decide
    | byteOrderMark =>
      rw [hpiece] at hadmits
      rw [show piece.text.toList = _ from hadmits]
      decide
    | lineComment | blockComment | directive =>
      rw [hpiece] at hkind
      cases hkind
  exact fun t ht => ⟨fun piece hmem => hpiece ht (List.mem_append_left _ hmem),
    fun piece hmem => hpiece ht (List.mem_append_right _ hmem)⟩

variable {before after : List Token} {t : Token} (htokens : tokens m = before ++ t :: after ++ [m.eof])
include htokens

theorem exists_lexemes : ∃ stream : TokenStream, Lexeme.Tiling .origin text stream.lexemes
    ∧ stream.tokens = before ++ t :: after := by
  obtain ⟨stream, hstream, hstreamTokens, -⟩ := tokens_of_read h
  exact ⟨stream, TokenStream.tiling_lexemes hstream, List.append_inj_left' (hstreamTokens.symm.trans htokens) rfl⟩

/--
A token of a text can be seen at both ends.
-/
theorem sound_of_read : t.lexeme.Sound := by
  obtain ⟨stream, htiling, hsplit⟩ := exists_lexemes h htokens
  exact htiling.sound _ (TokenStream.mem_lexemes (by rw [hsplit]; simp))

/--
The column of a token on a line of its own is the width of what stands before it on the line.
-/
theorem column_of_read (hnewline : t.leading.hasNewline) :
    t.column = Text.visualWidth (Trivia.text t.leading.lastLine).toList 0 := by
  obtain ⟨stream, htiling, hsplit⟩ := exists_lexemes h htokens
  obtain ⟨htake, hcolumn⟩ := TokenStream.take_offset htiling hsplit
  obtain ⟨-, lines, piece, hleading, hkind⟩ := Trivia.exists_lastLine hnewline
  have hmem : piece.lexeme ∈ stream.lexemes := by
    refine List.mem_append_left _ (List.mem_flatMap.2 ⟨t, by rw [hsplit]; simp, List.mem_append_left _ ?_⟩)
    rw [hleading]
    exact List.mem_map_of_mem (List.mem_append_right _ List.mem_cons_self)
  have hadmits := (htiling.sound _ hmem).trivia piece.kind rfl
  rw [hkind] at hadmits
  -- Behind a line end the column is zero again.
  have hend (start : Int) : Text.visualWidth piece.text.toList start = 0 := by
    rcases hadmits with heq | heq <;> rw [show piece.text.toList = _ from heq] <;> rfl
  have htext : t.leading.text.toList
      = (Trivia.text lines).toList ++ (piece.text.toList ++ (Trivia.text t.leading.lastLine).toList) := by
    conv => lhs; rw [hleading]
    rw [Trivia.text, List.map_append, String.join_append, String.toList_append, ← Trivia.toList_text_cons]
    rfl
  rw [hcolumn, htake, htext, Text.visualWidth_append, Text.visualWidth_append, Text.visualWidth_append, hend]

/--
A token with a placement that can be followed comes to stand behind all that could be seen before it in the text.
-/
theorem exists_text_render {placements : List (Nat × Placement)} {placement : Placement}
    (hplaced : placements.lookup t.offset = some placement) (hmovable : placement.Movable t) (settings : Settings) :
    ∃ before' behind, (render settings { m with placements }).text
        = before' ++ '\n' :: (placement.lead t ++ t.text.toList) ++ behind
      ∧ Text.visible (before' ++ placement.lead t) = Text.visible (text.take t.offset) := by
  obtain ⟨stream, htiling, hsplit⟩ := exists_lexemes h htokens
  have hfresh := isFresh_of_read h
  have hclear := isClear_of_read h
  rw [htokens, List.forall_mem_append, List.forall_mem_append] at hclear
  rw [(TokenStream.take_offset htiling hsplit).1, Text.visible_append]
  exact @IsFresh.exists_text_render { m with placements }
    ⟨hfresh.pragmas, hfresh.imports, hfresh.header, hfresh.declarations⟩ _ _ _ htokens hclear.1.1
    (hclear.1.2 t List.mem_cons_self) (sound_of_read h htokens) _ hplaced hmovable settings

end Read

end Module

end HaskellStyle
