import HaskellStyle.Proofs.Token.Slice
import Mathlib.Data.List.Chain

/-!
This module contains where directives stand. Each begins its line, so none follows a token on the token's line, and
the trivia behind a token has none.
-/

namespace HaskellStyle

namespace Lexeme

/--
Behind a directive the text ends or a line ends.
-/
theorem drop_directiveLength (previous : Char) (cs : List Char) :
    (cs.drop (directiveLength previous cs)).head? ≠ some '#' := by
  fun_induction directiveLength previous cs with
  | case1 => simp
  | case2 => assumption
  | case3 => simp
  | case4 => assumption
  | case5 => simp
  | case6 => assumption

theorem newline_notMem_lineComment (cs : List Char) : '\n' ∉ cs.take (lineCommentLength cs) := by
  fun_induction lineCommentLength cs with
  | case1 => simp
  | case2 => simp
  | case3 => simp
  | case4 c cs _ hc ih =>
    rw [List.take_succ_cons, List.mem_cons, not_or]
    exact ⟨fun h => hc h.symm, ih⟩

theorem newline_notMem_blanks (cs : List Char) : '\n' ∉ cs.take (blanksLength cs) := by
  fun_induction blanksLength cs with
  | case1 => simp
  | case2 => simp
  | case3 c cs _ hc ih =>
    rw [List.take_succ_cons, List.mem_cons, not_or]
    refine ⟨?_, ih⟩
    rintro rfl
    simp at hc
  | case4 => simp

/--
A lexeme that reaches over a line end is that line end, or else a directive that has it at the end of the text or
before another line end.
-/
theorem Measured.newline_of_last {q : Bool} {p : Option Char} {o : Nat} {c : Char} {cs : List Char} {k : LexemeKind}
    {n : Nat} (h : Measured q p o c cs (.ok (k, n))) (hlast : (c :: cs.take n).getLast? = some '\n')
    (hrest : (cs.drop n).head? = some '#') : k = .trivia .newline := by
  have hmem : '\n' ∈ c :: cs.take n := List.mem_of_getLast? hlast
  cases k with
  | token k =>
    have hblank := h.last hlast
    exact absurd hblank (by decide)
  | trivia k =>
    generalize hkind : LexemeKind.trivia k = kind at h
    cases h with
    | newline => rfl
    | carriageReturn => rfl
    | blanks hc hnewline =>
      rcases List.mem_cons.1 hmem with hc | hmem
      · exact absurd hc.symm hnewline
      · exact absurd hmem (newline_notMem_blanks cs)
    | directive => exact absurd hrest (drop_directiveLength c cs)
    | @blockComment n hc hcs hpragma hn =>
      obtain ⟨cs, rfl⟩ := List.head?_eq_some_iff.1 hcs
      rw [List.drop_succ_cons, List.drop_zero] at hn
      rw [List.take_succ_cons, List.getLast?_cons_cons, List.getLast?_cons,
        (endsIn_of_blockCommentLength hn).getLast?] at hlast
      cases hlast
    | symbol hc =>
      obtain ⟨-, hn⟩ := symbolLength_lineComment (Prod.ext hkind.symm rfl)
      rw [show (symbolLength c cs).snd = _ from hn] at hmem
      rcases List.mem_cons.1 hmem with rfl | hmem
      · exact absurd hc (by decide)
      · exact absurd hmem (newline_notMem_lineComment cs)
    | _ => cases hkind

theorem measure_directive {q : Bool} {p : Option Char} {o : Nat} {c : Char} {cs : List Char} {n : Nat}
    (h : measure q p o c cs = .ok (.trivia .directive, n)) : c = '#' ∧ startsLine p := by
  have hmeasured := measured_iff.2 h
  generalize hkind : LexemeKind.trivia .directive = kind at hmeasured
  cases hmeasured with
  | directive hc hp => exact ⟨hc, hp⟩
  | symbol => cases (symbolLength_lineComment (Prod.ext hkind.symm rfl)).1
  | _ => cases hkind

/--
What may stand before a lexeme: a directive needs a line end before it.
-/
def MayFollow (l next : Lexeme) : Prop :=
  next.kind = .trivia .directive → l.kind = .trivia .newline

theorem isChain_of_scan {q : Bool} {p : Option Char} {position : Position} {cs : List Char} {ls : List Lexeme}
    (h : scan q p position cs = .ok ls) :
    ls.IsChain MayFollow ∧ ∀ l ∈ ls.head?, l.kind = .trivia .directive → cs.head? = some '#' ∧ startsLine p := by
  match cs with
  | [] =>
    rw [scan] at h
    cases h
    exact ⟨.nil, by simp⟩
  | c :: cs =>
    cases hmeasure : measure q p position.offset c cs with
    | error e =>
      rw [scan] at h
      simp only [hmeasure, bind, Except.bind] at h
      cases h
    | ok r =>
      obtain ⟨k, n⟩ := r
      rw [scan_cons hmeasure] at h
      obtain ⟨others, hothers, rfl⟩ := map_eq_ok h
      obtain ⟨hchain, hhead⟩ := isChain_of_scan hothers
      constructor
      -- A directive begins with the text behind this lexeme, so this lexeme is the line end before it.
      · refine List.isChain_cons.2 ⟨fun next hnext hkind => ?_, hchain⟩
        obtain ⟨hrest, hstart⟩ := hhead next hnext hkind
        refine (measured_iff.2 hmeasure).newline_of_last ?_ hrest
        exact hstart.resolve_left (by simp)
      · intro l hl hkind
        cases hl
        cases hkind
        obtain ⟨rfl, hstart⟩ := measure_directive hmeasure
        exact ⟨rfl, hstart⟩
termination_by cs.length
decreasing_by simp only [List.length_drop, List.length_cons]; omega

theorem exists_scan_of_ofText {q : Bool} {text : List Char} {ls : List Lexeme} (h : ofText q text = .ok ls) :
    ∃ marks others p start cs, ls = marks ++ others ∧ (∀ l ∈ marks, ∃ k, l.kind = .trivia k)
      ∧ scan q p start cs = .ok others := by
  have hofRest {p : Option Char} {start : Position} {rest : List Char} {ls : List Lexeme}
      (h : ofRest q p start rest = .ok ls) :
      ∃ marks others p start cs, ls = marks ++ others ∧ (∀ l ∈ marks, ∃ k, l.kind = .trivia k)
        ∧ scan q p start cs = .ok others := by
    unfold ofRest at h
    split at h
    · obtain ⟨others, hothers, rfl⟩ := map_eq_ok h
      exact ⟨[_], others, _, _, _, rfl, by simp, hothers⟩
    · exact ⟨[], ls, _, _, _, rfl, by simp, h⟩
  rw [ofText_eq] at h
  split at h
  · obtain ⟨ls, hrest, rfl⟩ := map_eq_ok h
    obtain ⟨marks, others, p, start, cs, rfl, hmarks, hscan⟩ := hofRest hrest
    exact ⟨_ :: marks, others, p, start, cs, rfl, List.forall_mem_cons.2 ⟨⟨_, rfl⟩, hmarks⟩, hscan⟩
  · exact hofRest h

end Lexeme

namespace Token

theorem groups_append {marks : List Lexeme} (h : ∀ l ∈ marks, ∃ k, l.kind = .trivia k) (ls : List Lexeme) :
    (groupLexemes (marks ++ ls)).2 = (groupLexemes ls).2 := by
  induction marks with
  | nil => rfl
  | cons l marks ih =>
    obtain ⟨k, hk⟩ := h l List.mem_cons_self
    rw [List.cons_append, groupLexemes, hk]
    exact ih fun l hl => h l (List.mem_cons_of_mem _ hl)

theorem exists_group_of_mem_attach {leading : Trivia} {endLine : Option Nat}
    {groups : List ((TokenKind × String × Position) × Trivia)} {t : Token} (h : t ∈ (attach leading endLine groups).1) :
    ∃ group ∈ groups, ∃ isLast, t.trailing = (splitTrivia group.2 isLast).1 := by
  induction groups generalizing leading endLine with
  | nil => cases h
  | cons group groups ih =>
    obtain ⟨⟨kind, text, position⟩, following⟩ := group
    rw [attach] at h
    rcases List.mem_cons.1 h with rfl | h
    · exact ⟨_, List.mem_cons_self, groups.isEmpty, rfl⟩
    · obtain ⟨group, hgroup, hsplit⟩ := ih h
      exact ⟨group, List.mem_cons_of_mem _ hgroup, hsplit⟩

/--
On a line that something stands on already no directive begins.
-/
theorem hasDirective_of_isChain {l : Lexeme} {trivia : Trivia} (hchain : (l :: trivia.lexemes).IsChain Lexeme.MayFollow)
    (hl : l.kind ≠ .trivia .newline) (hnewline : trivia.hasNewline = false) : trivia.hasDirective = false := by
  induction trivia generalizing l with
  | nil => rfl
  | cons piece trivia ih =>
    obtain ⟨hfollow, hchain⟩ := List.isChain_cons_cons.1 hchain
    rw [Trivia.hasNewline, List.any_cons, Bool.or_eq_false_iff, decide_eq_false_iff_not] at hnewline
    rw [Trivia.hasDirective, List.any_cons, Bool.or_eq_false_iff, decide_eq_false_iff_not]
    constructor
    · intro hpiece
      exact hl (hfollow (congrArg LexemeKind.trivia hpiece))
    · exact ih hchain (fun h => hnewline.1 (LexemeKind.trivia.inj h)) hnewline.2

end Token

namespace TokenStream

variable {q : Bool} {text : List Char} {stream : TokenStream}

/--
A token and the trivia behind it were scanned one after the other.
-/
theorem exists_scan_trailing (h : ofTextWith q text = .ok stream) {t : Token} (ht : t ∈ stream.tokens) :
    ∃ p start cs others l, Lexeme.scan q p start cs = .ok others ∧ l.kind ≠ .trivia .newline
      ∧ (l :: t.trailing.lexemes) <:+: others := by
  obtain ⟨ls, hls, htokens, -⟩ := ofTextWith_eq h
  obtain ⟨marks, others, p, start, cs, rfl, hmarks, hscan⟩ := Lexeme.exists_scan_of_ofText hls
  rw [htokens] at ht
  obtain ⟨group, hgroup, isLast, htrailing⟩ := Token.exists_group_of_mem_attach ht
  rw [Token.groups_append hmarks] at hgroup
  refine ⟨p, start, cs, others, ⟨.token group.1.1, group.1.2.1, group.1.2.2⟩, hscan, by simp, ?_⟩
  have hinfix : Token.groupedLexemes group <:+: others := by
    rw [← Token.groupLexemes_eq others]
    exact (List.infix_of_mem_flatten (List.mem_map_of_mem hgroup)).trans (List.suffix_append _ _).isInfix
  have hsplit := Token.splitTrivia_append group.2 isLast
  rw [Token.groupedLexemes, ← hsplit, Trivia.lexemes, List.map_append, ← List.cons_append] at hinfix
  rw [htrailing]
  exact (List.prefix_append _ _).isInfix.trans hinfix

/--
No directive stands behind a token on its line.
-/
theorem hasDirective_trailing (h : ofTextWith q text = .ok stream) {t : Token} (ht : t ∈ stream.toList) :
    t.trailing.hasDirective = false := by
  rcases List.mem_append.1 ht with ht | ht
  · obtain ⟨p, start, cs, others, l, hscan, hl, hrun⟩ := exists_scan_trailing h ht
    have hnewline : t.trailing.hasNewline = false := by
      obtain ⟨ls, hls, htokens, -⟩ := ofTextWith_eq h
      exact Token.trailing_attach (htokens ▸ ht)
    have hchain := (Lexeme.isChain_of_scan hscan).1
    have hgroup := hchain.infix hrun
    exact Token.hasDirective_of_isChain hgroup hl hnewline
  · obtain ⟨ls, hls, htokens, heof⟩ := ofTextWith_eq h
    rw [List.mem_singleton.1 ht, heof]
    rfl

theorem offset_lt (h : ofTextWith q text = .ok stream) {before between after : List Token} {t u : Token}
    (hlist : stream.toList = before ++ t :: (between ++ u :: after)) : t.offset < u.offset := by
  have ht := offset_eq h hlist
  have hu := offset_eq h (show stream.toList = (before ++ t :: between) ++ u :: after by simp [hlist])
  have hmem : t ∈ stream.tokens := by
    have hdrop := congrArg List.dropLast hlist
    rw [toList, List.dropLast_concat, ← List.cons_append, ← List.append_assoc,
      List.dropLast_append_of_ne_nil (List.cons_ne_nil u after)] at hdrop
    rw [hdrop]
    simp
  have hpos : 0 < t.text.length := by
    have := ((lossless_of_ofTextWith h).token t hmem).2.1
    exact Nat.pos_of_ne_zero fun hlength => this (String.length_eq_zero_iff.1 hlength)
  rw [Token.joinSource_append, Token.joinSource_cons, Token.sourceText] at hu
  simp only [String.length_append] at hu
  omega

theorem pairwise_offset (h : ofTextWith q text = .ok stream) :
    stream.toList.Pairwise fun t u => t.offset < u.offset := by
  have hrest (before after : List Token) (hlist : stream.toList = before ++ after) :
      after.Pairwise fun t u => t.offset < u.offset := by
    induction after generalizing before with
    | nil => exact .nil
    | cons t after ih =>
      refine .cons (fun u hu => ?_) (ih (before ++ [t]) (by simp [hlist]))
      obtain ⟨between, rest, rfl⟩ := List.append_of_mem hu
      exact offset_lt h hlist
  exact hrest [] _ rfl

end TokenStream

end HaskellStyle
