import HaskellStyle.Proofs.Token.Bare
import HaskellStyle.Proofs.Token.Directive
import HaskellStyle.Proofs.Token.Ending

/-!
This module contains texts that can be read in place of lexemes: the layout rule sees the same tokens in them. Blanks
are dropped before a line end, line ends are spelled anew, and blanks are put before a comment that no token follows on
its line. The trivia behind a token on its line are blanks and comments, behind which the line ends.
-/

namespace HaskellStyle

namespace Lexeme

theorem not_byteOrderMark_of_measure {q : Bool} {p : Option Char} {o n : Nat} {c : Char} {cs : List Char} :
    measure q p o c cs ≠ .ok (.trivia .byteOrderMark, n) := by
  rw [ne_eq, ← measured_iff]
  generalize hk : LexemeKind.trivia .byteOrderMark = k
  intro h
  cases h with
  | symbol => cases (symbolLength_lineComment (Prod.ext hk.symm rfl)).1
  | _ => cases hk

theorem not_byteOrderMark_of_scan {q : Bool} {p : Option Char} {start : Position} {cs : List Char} {ls : List Lexeme}
    (h : scan q p start cs = .ok ls) : ∀ l ∈ ls, l.kind ≠ .trivia .byteOrderMark := by
  intro l hl hkind
  obtain ⟨before, after, rfl⟩ := List.append_of_mem hl
  have hspell := spell_of_scan h
  rw [List.map_append, List.map_cons, spelling, hkind] at hspell
  obtain ⟨p', c, u, -, hmeasure, -⟩ := spell_split hspell
  exact not_byteOrderMark_of_measure hmeasure

end Lexeme

namespace Token

/--
What follows the trivia that a token keeps begins with a line end, if there is any.
-/
theorem newline_of_attach {leading : Trivia} {endLine : Option Nat}
    {groups : List ((TokenKind × String × Position) × Trivia)} {before after : List Token} {t : Token}
    (h : (attach leading endLine groups).1 = before ++ t :: after) (ht : t.trailing ≠ []) :
    ∀ l ∈ (after.flatMap lexemes ++ Trivia.lexemes (attach leading endLine groups).2).head?,
      l.kind = .trivia .newline := by
  induction groups generalizing leading endLine before with
  | nil => simp [attach] at h
  | cons group groups ih =>
    rw [attach_cons] at h ⊢
    cases before with
    | cons first before => exact ih (List.cons.inj h).2
    | nil =>
      obtain ⟨rfl, rfl⟩ := List.cons.inj h
      rw [lexemes_attach]
      intro l hl
      have hkept : (splitTrivia group.2 groups.isEmpty).1 ≠ [] := ht
      by_cases hnewline : group.2.hasNewline
      · have hdrop : (splitTrivia group.2 groups.isEmpty).2 = group.2.dropWhile (·.kind ≠ .newline) := by
          rw [splitTrivia, if_pos hnewline]
        rw [hdrop] at hl
        obtain ⟨piece, hpiece, hkind⟩ := List.any_eq_true.1 hnewline
        cases hrest : group.2.dropWhile (·.kind ≠ .newline) with
        | nil =>
          have := List.dropWhile_eq_nil_iff.1 hrest piece hpiece
          simp only [decide_eq_true_eq] at hkind this
          exact absurd hkind this
        | cons first more =>
          have hfirst := List.head?_dropWhile_not (fun piece : TriviaPiece => decide (piece.kind ≠ .newline)) group.2
          rw [hrest] at hl hfirst
          obtain rfl := Option.some.inj hl
          simp only [List.head?_cons, decide_eq_false_iff_not, not_not] at hfirst
          exact congrArg LexemeKind.trivia hfirst
      -- Without a line end all is kept at the end of the text, and nothing else.
      · rw [splitTrivia, if_neg hnewline] at hkept hl
        split at hkept
        · next hlast =>
          rw [if_pos hlast, List.isEmpty_iff.1 hlast] at hl
          cases hl
        · exact absurd rfl hkept

end Token

namespace TokenStream

variable {q : Bool} {text : List Char} {stream : TokenStream}

/--
Behind a token on its line there are blanks and comments only.
-/
theorem kind_trailing (h : ofTextWith q text = .ok stream) {t : Token} (ht : t ∈ stream.tokens) {piece : TriviaPiece}
    (hpiece : piece ∈ t.trailing) :
    piece.kind = .blanks ∨ piece.kind = .lineComment ∨ piece.kind = .blockComment := by
  obtain ⟨p, start, cs, others, l, hscan, -, hrun⟩ := exists_scan_trailing h ht
  obtain ⟨ls, hls, htokens, -⟩ := ofTextWith_eq h
  have hnewline := Token.trailing_attach (htokens ▸ ht)
  have hdirective := hasDirective_trailing h (List.mem_append_left _ ht)
  have hmark := Lexeme.not_byteOrderMark_of_scan hscan piece.lexeme
    (hrun.mem (List.mem_cons_of_mem _ (List.mem_map_of_mem hpiece)))
  rw [Trivia.hasNewline, List.any_eq_false] at hnewline
  rw [Trivia.hasDirective, List.any_eq_false] at hdirective
  specialize hnewline piece hpiece
  specialize hdirective piece hpiece
  cases hkind : piece.kind with
  | blanks => exact .inl rfl
  | lineComment => exact .inr (.inl rfl)
  | blockComment => exact .inr (.inr rfl)
  | newline => exact absurd (decide_eq_true hkind) hnewline
  | directive => exact absurd (decide_eq_true hkind) hdirective
  | byteOrderMark => exact absurd (congrArg LexemeKind.trivia hkind) hmark

/--
Behind the trivia that a token keeps the line ends.
-/
theorem endsLine_behind (h : ofTextWith q text = .ok stream) {before after : List Token} {t : Token}
    (htokens : stream.tokens = before ++ t :: after) (ht : t.trailing ≠ []) :
    Lexeme.EndsLine ((after.flatMap Token.lexemes ++ stream.eof.leading.lexemes).map Lexeme.spelling) := by
  obtain ⟨ls, -, hattach, heof⟩ := ofTextWith_eq h
  have hsound := (tiling_lexemes h).sound
  have hbehind : stream.eof.leading.lexemes
      = Trivia.lexemes (Token.attach (Token.groupLexemes ls).1 none (Token.groupLexemes ls).2).2 := by
    rw [heof]
  have hnewline := Token.newline_of_attach (hattach.symm.trans htokens) ht
  rw [← hbehind] at hnewline
  rw [lexemes, htokens, List.flatMap_append, List.flatMap_cons, List.append_assoc, List.append_assoc] at hsound
  rw [Lexeme.EndsLine, List.head?_map]
  intro x hx
  obtain ⟨l, hl, rfl⟩ := Option.map_eq_some_iff.1 hx
  have hkind := hnewline l hl
  refine ⟨hkind, (hsound l ?_).trivia .newline hkind⟩
  exact List.mem_append_right _ (List.mem_append_right _ (List.mem_of_head? hl))

/--
Between a token that begins a line and the token before it a line ends, in what belongs to the former.
-/
theorem newline_of_lineStart (h : ofTextWith q text = .ok stream) {before after : List Token} {t u : Token}
    (htokens : stream.tokens = before ++ t :: u :: after) (hline : u.lineStart) : '\n' ∈ u.leading.text.toList := by
  by_cases htrailing : t.trailing = []
  · obtain ⟨ls, -, hattach, -⟩ := ofTextWith_eq h
    have hsplit : stream.tokens = (before ++ [t]) ++ u :: after := by simpa using htokens
    have hstart := Token.lineStart_attach (hattach.symm.trans hsplit)
    rw [hline, List.getLast?_concat, Option.map_some, Option.some_or, Option.all_some] at hstart
    have hlt : t.endLine < u.line := of_decide_eq_true hstart.symm
    have hlexemes : stream.lexemes
        = (before.flatMap Token.lexemes ++ t.leading.lexemes) ++ t.lexeme :: u.leading.lexemes
          ++ u.lexeme :: (u.trailing.lexemes ++ after.flatMap Token.lexemes ++ stream.eof.leading.lexemes) := by
      simp [lexemes, htokens, Token.lexemes, htrailing, Trivia.lexemes]
    have htiled := (tiling_lexemes h).tiled
    rw [hlexemes] at htiled
    have hposition : u.position = t.position.after (t.text.toList ++ Lexeme.join u.leading.lexemes) := htiled.next
    rw [Token.line, hposition, Position.line_after, List.count_append, Trivia.join_lexemes, Token.endLine,
      Token.line] at hlt
    exact List.count_pos_iff.1 (by omega)
  -- Trivia that stays with the token before goes up to the line end.
  · have hend := endsLine_behind h htokens htrailing
    cases hleading : u.leading with
    | nil =>
      have hkind := (hend (.token u.kind, u.text.toList) (by simp [Token.lexemes, hleading, Trivia.lexemes]; rfl)).1
      cases hkind
    | cons piece more =>
      have hadmits := (hend (.trivia piece.kind, piece.text.toList)
        (by simp [Token.lexemes, hleading, Trivia.lexemes]; rfl)).2
      rw [← Trivia.join_lexemes, Trivia.lexemes, List.map_cons, Lexeme.join_cons]
      refine List.mem_append_left _ ?_
      rcases hadmits with heq | heq <;> simp [TriviaPiece.lexeme, show piece.text.toList = _ from heq]

end TokenStream

namespace TokenStream

variable {u n : List Char}

theorem quasiQuotesEnabled_parts (hu : ∀ c ∈ u, Text.isBlank c) (hn : Parts n) (cs : List Char) :
    quasiQuotesEnabled (cs ++ (u ++ n)) = quasiQuotesEnabled (cs ++ n) := by
  cases u with
  | nil => rfl
  | cons c u => exact quasiQuotesEnabled_insert ⟨hu, List.cons_ne_nil c u⟩ hn cs

/--
Whether a text turns quasi-quotes on does not depend on blanks before a line end.
-/
theorem quasiQuotesEnabled_lineEnd (hu : ∀ c ∈ u, Text.isBlank c) (hn : LineEnd n) (cs : List Char) :
    quasiQuotesEnabled (cs ++ (u ++ n)) = quasiQuotesEnabled (cs ++ n) := by
  have hgap {w : List Char} (hw : ∀ c ∈ w, Text.isBlank c) (hne : w ≠ []) (r : List Char) :
      quasiQuotesEnabled (cs ++ (u ++ (w ++ r))) = quasiQuotesEnabled (cs ++ (w ++ r)) := by
    rw [← List.append_assoc u]
    refine quasiQuotesEnabled_gap ⟨?_, ?_⟩ ⟨hw, hne⟩ cs r
    · exact List.forall_mem_append.2 ⟨hu, hw⟩
    · exact fun h => hne (List.append_eq_nil_iff.1 h).2
  obtain rfl | ⟨r, rfl⟩ | ⟨r, rfl⟩ := hn
  · exact quasiQuotesEnabled_parts hu (.inl rfl) cs
  · exact hgap (w := ['\n']) (List.all_eq_true.1 (by decide)) (List.cons_ne_nil _ _) r
  · exact hgap (w := ['\r', '\n']) (List.all_eq_true.1 (by decide)) (List.cons_ne_nil _ _) r

end TokenStream

namespace Lexeme

/--
The text `n` behind the character `p` can be read in place of the lexemes `ps`: a token before it is the same as before
them, the layout rule sees the same tokens, and both turn quasi-quotes on or none.
-/
structure ReadsAs (q : Bool) (p : Option Char) (ps : List (LexemeKind × List Char)) (n : List Char) : Prop where
  agrees : Agrees (ps.flatMap Prod.snd) n
  tokens : ∃ ps', spell q p n = some ps' ∧ ∀ fresh column, bareTokens fresh column ps' = bareTokens fresh column ps
  quasiQuotes : ∀ cs,
    TokenStream.quasiQuotesEnabled (cs ++ n) = TokenStream.quasiQuotesEnabled (cs ++ ps.flatMap Prod.snd)

/--
Trivia of blanks and line ends.
-/
def IsRoom (bs : List (LexemeKind × List Char)) : Prop :=
  ∀ b ∈ bs, (∃ kind, b.1 = .trivia kind) ∧ ∀ c ∈ b.2, Text.isBlank c

theorem IsRoom.isBlank {bs : List (LexemeKind × List Char)} (h : IsRoom bs) :
    ∀ c ∈ bs.flatMap Prod.snd, Text.isBlank c := by
  intro c hc
  obtain ⟨b, hb, hc⟩ := List.mem_flatMap.1 hc
  exact (h b hb).2 c hc

namespace ReadsAs

variable {q : Bool} {p p' : Option Char} {ps : List (LexemeKind × List Char)} {n : List Char}

/--
Behind all lexemes a last line end can stand.
-/
theorem nil (hn : LineEnd n) (hblank : ∀ c ∈ n, Text.isBlank c) : ReadsAs q p [] n where
  agrees := .of_closing soft_nil.dull (closing_of_lineEnd (u := []) (by simp) hn)
  tokens := by
    obtain ⟨ps', hps', hbare⟩ := spell_blank_append (p := p) hblank (spell_nil q _)
    rw [List.append_nil] at hps'
    exact ⟨ps', hps', hbare⟩
  quasiQuotes cs := by
    rw [← List.append_nil n]
    exact TokenStream.quasiQuotesEnabled_parts hblank (.inl rfl) cs

/--
A token is read again.
-/
theorem token {k : TokenKind} {c : Char} {u : List Char} (h : ReadsAs q (c :: u).getLast? ps n)
    (hmeasure : measure q p 0 c (u ++ ps.flatMap Prod.snd) = .ok (.token k, u.length)) :
    ReadsAs q p ((.token k, c :: u) :: ps) (c :: u ++ n) where
  agrees := h.agrees.token hmeasure
  tokens := by
    obtain ⟨ps', hps', hbare⟩ := h.tokens
    refine ⟨(.token k, c :: u) :: ps', ?_, fun fresh column => ?_⟩
    · rw [List.cons_append, spell_append (h.agrees.measure_eq hmeasure), hps']
      rfl
    · rw [bareTokens_token, bareTokens_token, hbare]
  quasiQuotes cs := by
    rw [List.flatMap_cons, ← List.append_assoc, ← List.append_assoc]
    exact h.quasiQuotes _

/--
Blanks and line ends at the same place are read again, however they are spelled.
-/
theorem room {bs : List (LexemeKind × List Char)} {v : List Char} (h : ReadsAs q (v.getLast?.or p) ps n)
    (hbs : IsRoom bs) (hne : bs.flatMap Prod.snd ≠ []) (hv : ∀ c ∈ v, Text.isBlank c) (hclosing : Closing (v ++ n))
    (hquasi : v ≠ [] ∨ LineEnd n)
    (hbare : ∀ fresh column, bareTokens (fresh || v.contains '\n') (Text.visualWidth v column) ps
      = bareTokens fresh column (bs ++ ps)) : ReadsAs q p (bs ++ ps) (v ++ n) where
  agrees := by
    rw [List.flatMap_append]
    refine .of_closing ?_ hclosing
    exact (Text.IsGap.soft ⟨hbs.isBlank, hne⟩ _).dull
  tokens := by
    obtain ⟨ps', hps', hsame⟩ := h.tokens
    obtain ⟨ps'', hps'', hmoved⟩ := spell_blank_append hv hps'
    refine ⟨ps'', hps'', fun fresh column => ?_⟩
    rw [hmoved, hsame, hbare]
  quasiQuotes cs := by
    have hold := h.quasiQuotes (cs ++ bs.flatMap Prod.snd)
    rw [List.append_assoc, List.append_assoc] at hold
    rw [List.flatMap_append, ← hold]
    rcases hquasi with hv' | hn
    · exact TokenStream.quasiQuotesEnabled_gap ⟨hv, hv'⟩ ⟨hbs.isBlank, hne⟩ cs n
    · rw [TokenStream.quasiQuotesEnabled_lineEnd hv hn, TokenStream.quasiQuotesEnabled_lineEnd hbs.isBlank hn]

/--
Before a line end no token depends on what stands before it.
-/
theorem settled (h : ReadsAs q p ps n) (hn : LineEnd n) : Settled ps := by
  obtain ⟨ps', hps', hbare⟩ := h.tokens
  intro fresh column fresh' column'
  rw [← hbare, ← hbare]
  exact (endsLine_of_lineEnd hn hps').settled _ _ _ _

theorem behind (h : ReadsAs q p ps n) (hn : n.head? ≠ some '#') (p' : Option Char) : ReadsAs q p' ps n where
  agrees := h.agrees
  tokens := by
    obtain ⟨ps', hps', hbare⟩ := h.tokens
    exact ⟨ps', (spell_previous q n (.inl hn)).trans hps', hbare⟩
  quasiQuotes := h.quasiQuotes

/--
A line end is read again, however it is spelled.
-/
theorem newline (h : ReadsAs q (some '\n') ps n) {w v : List Char} (hw : w = ['\n'] ∨ w = ['\r', '\n'])
    (hv : v = ['\n'] ∨ v = ['\r', '\n']) : ReadsAs q p ((.trivia .newline, w) :: ps) (v ++ n) := by
  have hblank {w : List Char} (hw : w = ['\n'] ∨ w = ['\r', '\n']) : ∀ c ∈ w, Text.isBlank c := by
    rcases hw with rfl | rfl <;> exact List.all_eq_true.1 (by decide)
  have hend : LineEnd (v ++ n) := by
    rcases hv with rfl | rfl
    · exact .inr (.inl ⟨n, rfl⟩)
    · exact .inr (.inr ⟨n, rfl⟩)
  have hlast : v.getLast?.or p = some '\n' := by
    rcases hv with rfl | rfl <;> rfl
  have hbare {w : List Char} (hw : w = ['\n'] ∨ w = ['\r', '\n']) (fresh : Bool) (column : Int) :
      bareTokens (fresh || w.contains '\n') (Text.visualWidth w column) ps = bareTokens true 0 ps := by
    rcases hw with rfl | rfl <;> rw [show List.contains _ '\n' = true from by decide, Bool.or_true] <;> rfl
  rw [← List.singleton_append]
  refine room (hlast ▸ h) ?_ ?_ (hblank hv) (closing_of_lineEnd (u := []) (by simp) hend)
    (.inl ?_) fun fresh column => ?_
  · exact List.forall_mem_singleton.2 ⟨⟨_, rfl⟩, hblank hw⟩
  · rcases hw with rfl | rfl <;> exact List.cons_ne_nil _ _
  · rcases hv with rfl | rfl <;> exact List.cons_ne_nil _ _
  · rw [List.singleton_append, bareTokens_trivia, hbare hv, hbare hw]

/--
Before a line end blanks and line ends can be dropped or changed.
-/
theorem trimmed {bs : List (LexemeKind × List Char)} {v : List Char} (h : ReadsAs q p ps n) (hn : LineEnd n)
    (hbs : IsRoom bs) (hne : bs.flatMap Prod.snd ≠ []) (hv : ∀ c ∈ v, Text.isBlank c) (p' : Option Char) :
    ReadsAs q p' (bs ++ ps) (v ++ n) := by
  refine room (h.behind hn.soft.head?_ne _) hbs hne hv (closing_of_lineEnd hv hn) (.inr hn) fun fresh column => ?_
  exact (bareTokens_append_of_settled (h.settled hn) (fun b hb => (hbs b hb).1) _ _ _ _).symm

/--
Blanks that are kept are read again.
-/
theorem blanks {w : List Char} (h : ReadsAs q w.getLast? ps n) (hne : w ≠ []) (hw : ∀ c ∈ w, Text.isBlank c) :
    ReadsAs q p ((.trivia .blanks, w) :: ps) (w ++ n) where
  agrees := by
    refine h.agrees.append hne fun hhead => ?_
    exact absurd (hw '.' (List.mem_of_head? hhead)) (by decide)
  tokens := by
    obtain ⟨ps', hps', hbare⟩ := h.tokens
    have hlast : w.getLast? = w.getLast?.or p := by
      rw [List.getLast?_eq_some_getLast hne]
      rfl
    rw [hlast] at hps'
    obtain ⟨ps'', hps'', hmoved⟩ := spell_blank_append hw hps'
    refine ⟨ps'', hps'', fun fresh column => ?_⟩
    rw [hmoved, hbare, bareTokens_trivia]
  quasiQuotes cs := by
    rw [List.flatMap_cons, ← List.append_assoc, ← List.append_assoc]
    exact h.quasiQuotes _

/--
Blanks can be changed, or put in, before a comment that no token follows on its line.
-/
theorem respaced {bs : List (LexemeKind × List Char)} {v : List Char} (h : ReadsAs q p ps n)
    (hn : (∃ r, n = '-' :: '-' :: r) ∨ ∃ r, n = '\x7b' :: r) (hold : Dull (ps.flatMap Prod.snd)) (hsettled : Settled ps)
    (hbs : IsRoom bs) (hv : ∀ c ∈ v, Text.isBlank c) (hne : v ≠ []) (p' : Option Char) :
    ReadsAs q p' (bs ++ ps) (v ++ n) where
  agrees := by
    have hdull : Dull ((bs ++ ps).flatMap Prod.snd) := by
      rw [List.flatMap_append]
      cases hgap : bs.flatMap Prod.snd with
      | nil => exact hold
      | cons c gap => exact (soft_cons (Bool.or_eq_true_iff.2 (.inl (hbs.isBlank c (by simp [hgap]))))).dull
    refine .of_closing hdull (closing_blank hv (.inl hne) ?_)
    rcases hn with ⟨r, rfl⟩ | ⟨r, rfl⟩ <;> rintro c ⟨⟩ <;> decide
  tokens := by
    have hhead : n.head? ≠ some '#' := by
      rcases hn with ⟨r, rfl⟩ | ⟨r, rfl⟩ <;> simp
    obtain ⟨ps', hps', hbare⟩ := (h.behind hhead (v.getLast?.or p')).tokens
    obtain ⟨ps'', hps'', hmoved⟩ := spell_blank_append hv hps'
    refine ⟨ps'', hps'', fun fresh column => ?_⟩
    rw [hmoved, hbare]
    exact (bareTokens_append_of_settled hsettled (fun b hb => (hbs b hb).1) _ _ _ _).symm
  quasiQuotes cs := by
    have hquasi := h.quasiQuotes (cs ++ bs.flatMap Prod.snd)
    rw [List.append_assoc, List.append_assoc] at hquasi
    rw [List.flatMap_append, ← hquasi, TokenStream.quasiQuotesEnabled_parts hv (.inr hn),
      TokenStream.quasiQuotesEnabled_parts hbs.isBlank (.inr hn)]

theorem blockComment {w : List Char} (h : ReadsAs q w.getLast? ps n) (hw : IsBlockComment w) :
    ReadsAs q p ((.trivia .blockComment, w) :: ps) (w ++ n) where
  agrees := by
    obtain ⟨u, rfl, -, -⟩ := hw
    exact h.agrees.append (List.cons_ne_nil _ _) (by simp)
  tokens := by
    obtain ⟨ps', hps', hbare⟩ := h.tokens
    obtain ⟨u, rfl, hpragma, hu⟩ := hw
    have hmeasure : measure q p 0 '\x7b' (('-' :: u) ++ n) = .ok (.trivia .blockComment, ('-' :: u).length) :=
      measure_blockComment hpragma hu n
    refine ⟨(.trivia .blockComment, '\x7b' :: '-' :: u) :: ps', ?_, fun fresh column => ?_⟩
    · rw [List.cons_append, spell_append hmeasure, hps']
      rfl
    · rw [bareTokens_trivia, bareTokens_trivia, hbare]
  quasiQuotes cs := by
    rw [List.flatMap_cons, ← List.append_assoc, ← List.append_assoc]
    exact h.quasiQuotes _

/--
Behind blanks at a line end the same tokens are read, wherever they stood.
-/
theorem spell_blanks (h : ReadsAs q p' ps n) (hn : LineEnd n) {b : List Char} (hb : ∀ e ∈ b, Text.isBlank e)
    (p : Option Char) : ∃ ps', spell q p (b ++ n) = some ps' ∧ ∀ fresh column fresh' column',
      bareTokens fresh column ps' = bareTokens fresh' column' ps := by
  obtain ⟨ps', hps', hbare⟩ := (h.behind hn.soft.head?_ne (b.getLast?.or p)).tokens
  obtain ⟨ps'', hps'', hmoved⟩ := spell_blank_append hb hps'
  refine ⟨ps'', hps'', fun fresh column fresh' column' => ?_⟩
  rw [hmoved, hbare]
  exact h.settled hn _ _ _ _

/--
What ends a line turns quasi-quotes on or not, whatever blanks stand at its end.
-/
theorem quasiQuotes_lineEnd (h : ReadsAs q p' ps n) (hn : LineEnd n) (hold : LineEnd (ps.flatMap Prod.snd))
    {d v : List Char} (hd : ∀ e ∈ d, Text.isBlank e) (hv : ∀ e ∈ v, Text.isBlank e) (cs : List Char) :
    TokenStream.quasiQuotesEnabled (cs ++ (v ++ n))
      = TokenStream.quasiQuotesEnabled (cs ++ (d ++ ps.flatMap Prod.snd)) := by
  rw [TokenStream.quasiQuotesEnabled_lineEnd hv hn, TokenStream.quasiQuotesEnabled_lineEnd hd hold]
  exact h.quasiQuotes cs

/--
A comment or a directive that ends its line is read again if blanks at its end are dropped.
-/
theorem lineEnding {kind : TriviaKind} {c : Char} {u d v : List Char} (h : ReadsAs q p' ps n) (hn : LineEnd n)
    (hold : LineEnd (ps.flatMap Prod.snd)) (hc : c ≠ '.') (hd : ∀ e ∈ d, Text.isBlank e)
    (hv : ∀ e ∈ v, Text.isBlank e) (hend : LineEnd (v ++ n))
    (hrest : ∃ x b ps', u ++ (v ++ n) = x ++ b ∧ measure q p 0 c (x ++ b) = .ok (.trivia kind, x.length)
      ∧ spell q (c :: x).getLast? b = some ps' ∧ ∀ fresh column fresh' column',
        bareTokens fresh column ps' = bareTokens fresh' column' ps) :
    ReadsAs q p ((.trivia kind, c :: u ++ d) :: ps) (c :: u ++ (v ++ n)) where
  agrees := by
    rw [List.flatMap_cons, List.append_assoc]
    refine (Agrees.of_closing ?_ (closing_of_lineEnd (u := []) (by simp) hend)).append (List.cons_ne_nil c u) ?_
    · cases d with
      | nil => exact hold.soft.dull
      | cons e d => exact (soft_cons (Bool.or_eq_true_iff.2 (.inl (hd e List.mem_cons_self)))).dull
    · rw [List.head?_cons, ne_eq, Option.some.injEq]
      exact hc
  tokens := by
    obtain ⟨x, b, ps', hsplit, hmeasure, hps', hbare⟩ := hrest
    refine ⟨(.trivia kind, c :: x) :: ps', ?_, fun fresh column => ?_⟩
    · rw [List.cons_append, hsplit, spell_append hmeasure, hps']
      rfl
    · rw [bareTokens_trivia, bareTokens_trivia]
      exact hbare _ _ _ _
  quasiQuotes cs := by
    rw [List.flatMap_cons, ← List.append_assoc, List.append_assoc (c :: u), ← List.append_assoc cs]
    exact h.quasiQuotes_lineEnd hn hold hd hv _

theorem lineComment {w d v : List Char} (h : ReadsAs q p' ps n) (hn : LineEnd n)
    (hold : LineEnd (ps.flatMap Prod.snd)) (hw : IsLineComment w) (hd : ∀ e ∈ d, Text.isBlank e)
    (hv : ∀ e ∈ v, Text.isBlank e) (hend : LineEnd (v ++ n)) :
    ReadsAs q p ((.trivia .lineComment, w ++ d) :: ps) (w ++ (v ++ n)) := by
  obtain ⟨u, rfl, hdashes, hu⟩ := hw
  have hmeasure := measure_lineComment (q := q) (p := p) (o := 0) hdashes hend
  refine h.lineEnding hn hold (by decide) hd hv hend ?_
  rcases lineCommentLength_append hu hend with hlength | ⟨x, rfl, hlength⟩
  · obtain ⟨ps', hps', hbare⟩ := h.spell_blanks hn hv ('-' :: u).getLast?
    exact ⟨u, v ++ n, ps', rfl, hmeasure.trans (by rw [hlength]), hps', hbare⟩
  · have hreturn : ∀ e ∈ '\r' :: v, Text.isBlank e := List.forall_mem_cons.2 ⟨by decide, hv⟩
    obtain ⟨ps', hps', hbare⟩ := h.spell_blanks hn hreturn ('-' :: x).getLast?
    rw [hlength, ← List.append_cons] at hmeasure
    exact ⟨x, '\r' :: v ++ n, ps', (List.append_cons _ _ _).symm, hmeasure, hps', hbare⟩

/--
The same tokens are read behind a directive whose blanks at the end are dropped, if no backslash stands before them.
At the end of the text there is nothing that a backslash could lead on to.
-/
theorem spell_directive {previous : Char} {u d v : List Char} (h : ReadsAs q p' ps n) (hn : LineEnd n)
    (hlength : directiveLength previous (u ++ (d ++ ps.flatMap Prod.snd)) = u.length + d.length)
    (hfirm : ps = [] ∧ FinalEnd (v ++ n)
      ∨ ∀ x b, previous :: u = x ++ '\\' :: b → ¬∀ e ∈ b, LineEdit.isEndBlank e)
    (hv : ∀ e ∈ v, Text.isBlank e) (hend : LineEnd (v ++ n)) :
    ∃ x b, u ++ (v ++ n) = x ++ b ∧ directiveLength previous (u ++ (v ++ n)) = x.length
      ∧ ∀ p, ∃ ps', spell q p b = some ps' ∧ ∀ fresh column fresh' column',
        bareTokens fresh column ps' = bareTokens fresh' column' ps := by
  rcases hfirm with ⟨rfl, hfinal⟩ | hfirm
  · rw [List.flatMap_nil, List.append_nil] at hlength
    obtain ⟨x, b, hsplit, hb, hkept⟩ := directiveLength_final hlength hfinal
    refine ⟨x, b, hsplit, hkept, fun p => ?_⟩
    obtain ⟨ps', hps', hmoved⟩ := spell_blank_append (p := p) hb (spell_nil q _)
    rw [List.append_nil] at hps'
    exact ⟨ps', hps', fun fresh column fresh' column' => hmoved _ _⟩
  · obtain ⟨x, b, rfl, hb, htrim⟩ := directiveLength_trim hlength hfirm hend
    refine ⟨x, b ++ (v ++ n), List.append_assoc _ _ _, htrim, fun p => ?_⟩
    rw [← List.append_assoc]
    exact h.spell_blanks hn (List.forall_mem_append.2 ⟨hb, hv⟩) p

theorem directive {c : Char} {u d v : List Char} (h : ReadsAs q p' ps n) (hn : LineEnd n)
    (hold : LineEnd (ps.flatMap Prod.snd))
    (hmeasure : measure q p 0 c (u ++ (d ++ ps.flatMap Prod.snd)) = .ok (.trivia .directive, u.length + d.length))
    (hfirm : ps = [] ∧ FinalEnd (v ++ n) ∨ ∀ x b, c :: u = x ++ '\\' :: b → ¬∀ e ∈ b, LineEdit.isEndBlank e)
    (hd : ∀ e ∈ d, Text.isBlank e) (hv : ∀ e ∈ v, Text.isBlank e) (hend : LineEnd (v ++ n)) :
    ReadsAs q p ((.trivia .directive, c :: u ++ d) :: ps) (c :: u ++ (v ++ n)) := by
  obtain ⟨rfl, hp⟩ := measure_directive hmeasure
  obtain ⟨hstarts, hlength⟩ := startsDirective_of_measure hmeasure
  obtain ⟨x, b, hsplit, hkept, hspell⟩ := h.spell_directive hn hlength.symm hfirm hv hend
  obtain ⟨ps', hps', hbare⟩ := hspell ('#' :: x).getLast?
  refine h.lineEnding hn hold (by decide) hd hv hend ⟨x, b, ps', hsplit, ?_, hps', hbare⟩
  rw [← hkept, ← hsplit]
  exact measured_iff.1 (.directive rfl hp (startsDirective_trim hstarts hd hold hend))

end ReadsAs

end Lexeme

end HaskellStyle
