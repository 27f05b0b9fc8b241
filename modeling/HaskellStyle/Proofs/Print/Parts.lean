import HaskellStyle.Proofs.Print.Declaration
import HaskellStyle.Proofs.Print.Pragma

/-!
This module contains what the writing of a declaration shows, whether in normal form or as it was read: all the
comments around and in it. A part begins and ends so that any other can precede and follow it on lines of its
own. The lines into which a long right-hand side is cut are the right-hand side again, and an equation without comments
in it is written on them without any.
-/

namespace HaskellStyle

variable {μ : Type} {v : View μ} {q : Bool}

namespace Rhs

/--
Tokens that are cut are what precedes the first cut, followed by the others.
-/
theorem cutBefore_eq (cuts : Int → Token → Token → Bool) (depth : Int) (previous : Token) (ts : List Token) :
    (cutBefore cuts depth previous ts).1 ++ (cutBefore cuts depth previous ts).2.flatten = ts := by
  induction ts generalizing depth previous with
  | nil => rfl
  | cons t ts ih =>
    rw [cutBefore]
    dsimp only
    split
    · rw [List.nil_append, List.flatten_cons, List.cons_append, ih]
    · rw [List.cons_append, ih]

theorem flatten_terms? {body : List Token} {terms : List (List Token)} (h : terms? body = some terms) :
    terms.flatten = body := by
  cases body with
  | nil =>
    cases h
    rfl
  | cons t ts =>
    rw [terms?] at h
    split at h
    · cases h
    · cases h
      rw [List.flatten_cons, List.cons_append, cutBefore_eq]

theorem flatten_chunks (operators : List String) (body : List Token) : (chunks operators body).flatten = body := by
  cases body with
  | nil => rfl
  | cons t ts =>
    rw [chunks]
    dsimp only
    rw [List.flatten_cons, List.cons_append, cutBefore_eq]

theorem flatten_operatorLines (settings : Settings) (body : List Token) :
    (operatorLines settings body).flatten = body := by
  have hchunks := flatten_chunks (cutOperators body) body
  unfold operatorLines
  split
  · next first second third more heq =>
    rw [heq] at hchunks
    split
    · rw [← hchunks]
      simp
    · exact hchunks
  · exact hchunks

/--
The lines of a right-hand side.
-/
def lines (settings : Settings) (body : List Token) : RhsStyle → List (List Token)
  | .application => (terms? body).getD [body]
  | .operators => operatorLines settings body

theorem flatten_lines (settings : Settings) (body : List Token) (style : RhsStyle) :
    (lines settings body style).flatten = body := by
  cases style with
  | application =>
    unfold lines
    cases hterms : terms? body with
    | none => simp
    | some terms => exact flatten_terms? hterms
  | operators => exact flatten_operatorLines settings body

end Rhs

namespace Printer

variable {out : Output} {ms : Multiset μ} {p : Printer}

open Output (Shows)

theorem shows_flatLines (hv : v.IgnoresTokens) {lines : List (List Token)}
    (hlines : ∀ line ∈ lines, Token.IsFlat q line) (column : Int) (h : out.Shows v q ms Lexeme.Soft) :
    (lines.foldl (fun out line => (out.endLine.blanks column).put (Token.flat line)) out).Shows v q ms
      Lexeme.Soft := by
  induction lines generalizing out with
  | nil => exact h
  | cons line lines ih =>
    have hend := (h.mono fun _ (hy : LineEnd _) => hy.soft).endLine
    exact ih (fun other hother => hlines other (List.mem_cons_of_mem line hother))
      (shows_put (Quiet.flat hv (hlines line List.mem_cons_self)) (hend.blanks column))

/--
An equation on several lines is written with all its tokens.
-/
theorem covers_brokenClause (hv : v.IgnoresTokens) {lhs body : List Token} {equals : Token}
    (hrun : Token.IsRun q (lhs ++ equals :: body)) (hline : ∀ t ∈ lhs ++ equals :: body, t.isMultiline = false)
    (hclean : Token.cleanInside (lhs ++ equals :: body)) (layout : RhsLayout) :
    Covers v q (lhs ++ equals :: body) (p.brokenClause lhs equals body layout) := by
  intro out ms h
  have hflat : Token.IsFlat q (lhs ++ equals :: body) := ⟨hrun.linked, hline⟩
  have hhead : Token.IsFlat q (lhs ++ [equals]) := hflat.of_infix ⟨[], body, by simp⟩
  have hbody : Token.IsFlat q body := hflat.of_infix ⟨lhs ++ [equals], [], by simp⟩
  have hlines : ∀ line ∈ Rhs.lines p.settings body layout.style, Token.IsFlat q line := by
    intro line hmem
    refine hbody.of_infix ?_
    have := List.infix_of_mem_flatten hmem
    rwa [Rhs.flatten_lines] at this
  have hfirst : Quiet v q (Token.flat ((Rhs.lines p.settings body layout.style).headD [])) := by
    cases hl : Rhs.lines p.settings body layout.style with
    | nil => exact Quiet.empty
    | cons line lines => exact Quiet.flat hv (hlines line (by rw [hl]; exact List.mem_cons_self))
  have hput := shows_put ((Quiet.flat hv hhead).join Joins.blank hfirst) h
  have hlater : ∀ line ∈ (Rhs.lines p.settings body layout.style).drop 1, Token.IsFlat q line :=
    fun line hmem => hlines line (List.mem_of_mem_drop hmem)
  have hrest := shows_flatLines hv hlater layout.column hput
  refine ⟨0, ?_, fun default => ?_⟩
  · rw [add_zero]
    unfold brokenClause
    cases hstyle : layout.style with
    | application =>
      rw [hstyle] at hrest
      exact hrest
    | operators =>
      rw [hstyle] at hrest
      exact hrest
  · rw [add_zero, Token.allShown_of_cleanInside hv hrun.sound hclean (by simp)]

end Printer

/--
A declaration whose layout, if it has one, leaves room for its comments.
-/
def Declaration.IsLaidOut (q : Bool) : Declaration → Prop
  | .pragma p => p.pinned → p.token.kind = .pragma ∧ Trivia.hasComments p.token.leading.lastLine = false
  | .signature s => ∀ layout, s.layout = some layout →
    (∀ t ∈ tokens s, t.isMultiline = false) ∧ s.IsLaidOut layout
  | .data d => ∀ layout, d.layout = some layout →
    (∀ t ∈ tokens d, t.isMultiline = false) ∧ d.IsLaidOut q layout
  | .clause c layout => layout.isSome → ∀ equals body, c.equation.rhs = .plain equals body →
    tokens c = Segment.topTokens c.equation.lhs ++ equals :: Segment.topTokens body
      ∧ Token.cleanInside (tokens c)
  | .importing _ | .raw _ => True

theorem Token.isMultiline_of_cleanInside {ts : List Token} (h : cleanInside ts) :
    ∀ t ∈ ts, t.isMultiline = false := by
  induction ts with
  | nil =>
    intro t ht
    cases ht
  | cons t ts ih =>
    intro u hu
    cases ts with
    | nil =>
      rw [List.mem_singleton.1 hu]
      simpa [cleanInside] using h
    | cons next more =>
      simp only [cleanInside, Bool.and_eq_true, Bool.not_eq_true'] at h
      rcases List.mem_cons.1 hu with rfl | hu
      · exact h.1.1.1
      · exact ih h.2 u hu

namespace Printer

variable {out : Output} {ms : Multiset μ} {p : Printer}

open Output (Shows Ready)

theorem Ready.lineEnd {t : Token} (h : out.Ready v q ms t) : out.Shows v q ms LineEnd := by
  rcases h with h | ⟨h, -⟩
  · exact h.mono fun _ hy => hy.calm
  · exact h

/--
The text of a pragma is written on one line, or on several as it was read.
-/
theorem shows_pragmaText {pragma : Pragma} (hv : v.IgnoresTokens) (hlinked : Token.Linked q [pragma.token])
    {text : String} (hline : pragma.token.isMultiline = false → Quiet v q text)
    (hlines : pragma.token.isMultiline → text = pragma.token.text) (h : out.Shows v q ms Calm) :
    (out.write text pragma.token.isMultiline).Shows v q ms Lexeme.Soft := by
  cases hmulti : pragma.token.isMultiline with
  | false => exact shows_put (hline hmulti) h
  | true =>
    have hshield : (true && pragma.token.text.toList.contains '\n') ∨ pragma.token.isMultiline = false := by
      left
      rw [Bool.true_and]
      exact hmulti
    have := h.write (hlinked.fits_singleton (v := v) _ hshield)
    rw [Token.seen, hv, add_zero] at this
    rw [hlines hmulti]
    exact this

/--
A pragma is written behind its declaration with all its comments.
-/
theorem shows_pinnedPragma (hv : v.IgnoresTokens) {pragma : Pragma} (hrun : Token.IsRun q [pragma.token])
    (hkind : pragma.token.kind = .pragma) (hlast : Trivia.hasComments pragma.token.leading.lastLine = false)
    (h : out.Shows v q ms LineEnd) :
    (p.pinnedPragma pragma true out).Shows v q (ms + pragma.token.shown v) LineEnd := by
  have hsound := hrun.sound pragma.token List.mem_cons_self
  have hlines := shows_linesBelow hsound.leading.isLine_allCommentLines h
  rw [Trivia.sum_allCommentLines hsound.leading hlast] at hlines
  have htext := shows_pragmaText hv hrun.linked (fun hline => Pragma.quiet_flat hv hkind hrun.linked hline)
    (fun hmulti => by rw [Pragma.flat, if_pos hmulti]) hlines.endLineIfStarted
  have htrailing := shows_trailing p hsound.trailing true htext fun _ => id
  rw [Token.shown_eq hv, ← add_assoc]
  exact htrailing.mono fun _ hy => Token.tail_of_lineEnd (fun _ hy => hy.soft) hy

/--
A declaration in normal form is written with all its comments.
-/
theorem shows_structured {d : Declaration} (hrun : Token.IsRun q (tokens d))
    (hplace : ∀ column, p.placements.lookup (firstToken d).offset ≠ some ⟨column, true⟩)
    {body : Output → Output} (hbody : Covers v q (tokens d) body) (h : out.Ready v q ms (firstToken d)) :
    (p.structured d true body out).Shows v q (ms + Token.allShown v (tokens d)) LineEnd := by
  have hfirst := hrun.sound _ (ItemList.firstToken_mem d.tokens_ne_nil)
  have hlast := hrun.sound _ (ItemList.lastToken_mem d.tokens_ne_nil)
  have hleading := shows_leading_of_ready hfirst h hplace
  obtain ⟨inner, hinner, heq⟩ := hbody _ _ hleading
  have htrailing := shows_trailing p hlast.trailing true hinner fun _ => id
  rw [heq (HasTokens.anchor d), ← add_assoc, ← add_assoc]
  exact htrailing.mono fun _ hy => Token.tail_of_lineEnd (fun _ hy => hy.soft) hy

/--
A declaration that is written as it was read is written with all its comments.
-/
theorem shows_verbatim_tokens {ts : List Token} (hne : ts ≠ []) (hrun : Token.IsRun q ts)
    (hbreak : BreaksLines p ts) (default : Token)
    (hplace : ∀ column, p.placements.lookup (ts.headD default).offset ≠ some ⟨column, true⟩)
    (h : out.Ready v q ms (ts.headD default)) :
    (p.verbatim ts out).Shows v q (ms + Token.allShown v ts) LineEnd := by
  cases ts with
  | nil => exact absurd rfl hne
  | cons t ts =>
    have := shows_verbatim hrun (fun u hu => hbreak u (List.mem_cons_of_mem t hu)) hplace h
    exact this.mono fun _ hy => Token.tail_of_lineEnd (fun _ hy => hy.soft) hy

/--
A declaration is written with all its comments.
-/
theorem shows_declaration (hv : v.IgnoresTokens) {d : Declaration} (hrun : Token.IsRun q (tokens d))
    (hd : d.IsLaidOut q) (hbreak : BreaksLines p (tokens d))
    (hplace : ∀ column, p.placements.lookup (firstToken d).offset ≠ some ⟨column, true⟩)
    (h : out.Ready v q ms (firstToken d)) :
    (p.declaration d true out).Shows v q (ms + Token.allShown v (tokens d)) LineEnd := by
  have hverbatim : (p.verbatimWith true (tokens d) out).Shows v q (ms + Token.allShown v (tokens d)) LineEnd :=
    shows_verbatim_tokens d.tokens_ne_nil hrun hbreak _ hplace h
  cases d with
  | importing i => exact hverbatim
  | raw run => exact hverbatim
  | pragma pragma =>
    unfold declaration
    dsimp only
    split
    · next hpinned =>
      obtain ⟨hkind, hlast⟩ := hd hpinned
      have := shows_pinnedPragma (p := p) hv hrun hkind hlast (Ready.lineEnd h)
      simpa [tokens, Token.allShown] using this
    · exact hverbatim
  | signature s =>
    unfold declaration
    dsimp only
    cases hlayout : s.layout with
    | none => exact hverbatim
    | some layout =>
      obtain ⟨hline, hs⟩ := hd layout hlayout
      exact shows_structured hrun hplace (covers_signature hv hrun hline hs) h
  | data decl =>
    unfold declaration
    dsimp only
    cases hlayout : decl.layout with
    | none => exact hverbatim
    | some layout =>
      obtain ⟨hline, hdecl⟩ := hd layout hlayout
      exact shows_structured hrun hplace (covers_dataDecl hv hrun hline hdecl) h
  | clause c layout =>
    cases layout with
    | none => exact hverbatim
    | some layout =>
      unfold declaration
      dsimp only
      cases hrhs : c.equation.rhs with
      | guarded guard more => exact hverbatim
      | plain equals body =>
        obtain ⟨htokens, hclean⟩ := hd rfl equals body hrhs
        have htokens' : tokens (Declaration.clause c (some layout)) = _ := htokens
        have hline := Token.isMultiline_of_cleanInside hclean
        rw [htokens] at hline hclean
        refine shows_structured hrun hplace ?_ h
        rw [htokens'] at hrun ⊢
        exact covers_brokenClause hv hrun hline hclean layout

end Printer

end HaskellStyle
