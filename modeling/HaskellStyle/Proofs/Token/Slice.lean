import HaskellStyle.Declaration.Basic
import HaskellStyle.Proofs.Token.Lossless

/-!
This module contains the texts of consecutive tokens. The characters from the first of them to the last are their
texts with the trivia between them.
-/

namespace HaskellStyle

namespace Token

/--
The characters from the first of several tokens to the last.
-/
def spanOf? (ts : List Token) : Option Span :=
  ts.head?.bind fun first => ts.getLast?.map fun last => first.span.cover last.span

@[simp]
theorem joinSource_cons (t : Token) (ts : List Token) : joinSource (t :: ts) = t.sourceText ++ joinSource ts := by
  rw [joinSource, List.map_cons, String.join_cons, joinSource]

@[simp]
theorem joinSource_append (ts us : List Token) : joinSource (ts ++ us) = joinSource ts ++ joinSource us := by
  rw [joinSource, List.map_append, String.join_append, joinSource, joinSource]

/--
Tokens as written are what stands from the first to the last, with the trivia around them.
-/
theorem joinSource_eq (t : Token) (ts : List Token) :
    joinSource (t :: ts) = t.leading.text ++ textBetween (t :: ts) ++ (ts.getLastD t).trailing.text := by
  induction ts generalizing t with
  | nil => simp [textBetween, sourceText, joinSource]
  | cons u ts ih =>
    rw [joinSource_cons, ih u, List.getLastD_cons, textBetween, sourceText]
    simp only [String.append_assoc]

theorem spanOf?_cons (t : Token) (ts : List Token) : spanOf? (t :: ts) = some (t.span.cover (ts.getLastD t).span) := by
  rw [spanOf?, List.head?_cons, Option.bind_some, List.getLast?_cons, ← List.getLastD_eq_getLast?]
  rfl

end Token

namespace TokenStream

variable {q : Bool} {text : List Char} {stream : TokenStream}

theorem kind_eof (h : ofTextWith q text = .ok stream) : stream.eof.kind = .endOfText := by
  obtain ⟨ls, -, -, heof⟩ := ofTextWith_eq h
  rw [heof]

/--
A token begins behind the tokens before it and its leading trivia.
-/
theorem offset_eq (h : ofTextWith q text = .ok stream) {before after : List Token} {t : Token}
    (ht : stream.toList = before ++ t :: after) :
    t.offset = (Token.joinSource before).length + t.leading.text.length := by
  have htiling := tiling_lexemes h
  have hjoin : Lexeme.join (before.flatMap Token.lexemes ++ t.leading.lexemes)
      = (Token.joinSource before ++ t.leading.text).toList := by
    rw [Lexeme.join_append, Token.join_flatMap_lexemes, Trivia.join_lexemes, String.toList_append]
  have hposition : t.position = Position.origin.after (Token.joinSource before ++ t.leading.text).toList := by
    rw [← hjoin]
    rcases List.eq_nil_or_concat after with rfl | ⟨others, last, rfl⟩
    · -- The mark of the end stands behind the whole text.
      obtain ⟨hbefore, hlast⟩ := List.append_inj' (show stream.tokens ++ [stream.eof] = before ++ [t] from ht) rfl
      cases hbefore
      cases hlast
      obtain ⟨ls, -, -, heof⟩ := ofTextWith_eq h
      rw [← lexemes, htiling.join_eq, heof]
    · have hconcat : stream.tokens ++ [stream.eof] = (before ++ t :: others) ++ [last] := by simpa [toList] using ht
      obtain ⟨htokens, -⟩ := List.append_inj' hconcat rfl
      have htiled := htiling.tiled
      have hlexemes : stream.lexemes = (before.flatMap Token.lexemes ++ t.leading.lexemes) ++ t.lexeme ::
          (t.trailing.lexemes ++ others.flatMap Token.lexemes ++ stream.eof.leading.lexemes) := by
        simp [lexemes, htokens, Token.lexemes]
      rw [hlexemes] at htiled
      exact htiled.split
  rw [Token.offset, hposition, Position.offset_after, String.length_toList, String.length_append]
  exact Nat.zero_add _

theorem offset_le (h : ofTextWith q text = .ok stream) {t : Token} (ht : t ∈ stream.toList) :
    t.offset ≤ text.length := by
  obtain ⟨before, after, hlist⟩ := List.append_of_mem ht
  have hsource := congrArg String.length (lossless_of_ofTextWith h).sourceText
  rw [sourceText, hlist, Token.joinSource_append, Token.joinSource_cons, Token.sourceText, String.length_ofList] at hsource
  simp only [String.length_append] at hsource
  rw [offset_eq h hlist]
  omega

/--
Consecutive tokens with what is written before and behind them are the text.
-/
theorem text_eq (h : ofTextWith q text = .ok stream) {before more after : List Token} {first : Token}
    (hlist : before ++ first :: more ++ after = stream.toList) :
    text = (Token.joinSource before ++ first.leading.text).toList ++ (Token.textBetween (first :: more)).toList
      ++ ((more.getLastD first).trailing.text ++ Token.joinSource after).toList := by
  have hsource := (lossless_of_ofTextWith h).sourceText
  rw [sourceText, ← hlist, Token.joinSource_append, Token.joinSource_append, Token.joinSource_eq] at hsource
  have htext := congrArg String.toList hsource
  rw [String.toList_ofList] at htext
  rw [← htext]
  simp [String.toList_append]

theorem stop_eq (h : ofTextWith q text = .ok stream) {before more after : List Token} {first : Token}
    (hlist : before ++ first :: more ++ after = stream.toList) :
    (more.getLastD first).stop = first.offset + (Token.textBetween (first :: more)).length
      ∧ first.offset ≤ (more.getLastD first).offset ∧ first.stop ≤ (more.getLastD first).stop := by
  have hlast : (first :: more).getLast? = some (more.getLastD first) := by
    rw [List.getLast?_cons, List.getLastD_eq_getLast?]
  obtain ⟨init, hinit⟩ := List.getLast?_eq_some_iff.1 hlast
  have hsource := congrArg String.length (Token.joinSource_eq first more)
  generalize more.getLastD first = last at *
  have hfirstOffset : first.offset = (Token.joinSource before).length + first.leading.text.length :=
    offset_eq h (show stream.toList = before ++ first :: (more ++ after) by rw [← hlist]; simp)
  have hlastOffset : last.offset = (Token.joinSource (before ++ init)).length + last.leading.text.length :=
    offset_eq h (show stream.toList = (before ++ init) ++ last :: after by rw [← hlist, hinit]; simp)
  have hinitSource : last = first ∧ init = [] ∨ ∃ others, init = first :: others := by
    cases init with
    | nil => exact .inl ⟨(List.cons.inj hinit).1.symm, rfl⟩
    | cons t others => exact .inr ⟨others, by rw [(List.cons.inj hinit).1]⟩
  rw [hinit, Token.joinSource_append] at hsource
  simp only [Token.joinSource_append, Token.joinSource_cons, Token.sourceText, String.length_append,
    show Token.joinSource [] = "" from rfl, String.length_empty, hinit] at *
  rw [Token.stop, Token.stop]
  rcases hinitSource with ⟨rfl, rfl⟩ | ⟨others, rfl⟩
  · simp only [show Token.joinSource [] = "" from rfl, String.length_empty] at *
    omega
  · simp only [Token.joinSource_cons, Token.sourceText, String.length_append] at *
    omega

/--
The characters from the first to the last of consecutive tokens are their texts with the trivia between them.
-/
theorem slice_span (h : ofTextWith q text = .ok stream) {ts : List Token} (hne : ts ≠ [])
    (hts : ts <:+: stream.toList) :
    ∃ span, Token.spanOf? ts = some span ∧ Text.slice text span.start span.stop = (Token.textBetween ts).toList := by
  obtain ⟨first, more, rfl⟩ := List.exists_cons_of_ne_nil hne
  obtain ⟨before, after, hlist⟩ := hts
  refine ⟨_, Token.spanOf?_cons first more, ?_⟩
  have hfirst : first.offset = (Token.joinSource before).length + first.leading.text.length :=
    offset_eq h (show stream.toList = before ++ first :: (more ++ after) by rw [← hlist]; simp)
  have htext := text_eq h hlist
  obtain ⟨hstop, hoffset, hle⟩ := stop_eq h hlist
  have hcover : (first.span.cover (more.getLastD first).span).start = first.offset
      ∧ (first.span.cover (more.getLastD first).span).stop = (more.getLastD first).stop := by
    rw [Span.cover, dif_pos (show first.span.start ≤ (more.getLastD first).span.start from hoffset)]
    exact ⟨rfl, Nat.max_eq_right hle⟩
  rw [hcover.1, hcover.2, hstop]
  simp only [Text.slice, Int.natCast_nonneg, Int.not_lt.2, if_false, Int.toNat_natCast]
  rw [Nat.add_sub_cancel_left, htext, List.append_assoc,
    List.drop_left' (by rw [String.length_toList, String.length_append, hfirst]),
    List.take_left' String.length_toList]

end TokenStream

end HaskellStyle
