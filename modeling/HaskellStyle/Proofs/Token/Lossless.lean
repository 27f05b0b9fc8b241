import HaskellStyle.Proofs.Token.Place
import HaskellStyle.Token.Attach
import Mathlib.Data.List.Chain

/-!
This module contains that no character of a text is lost when it is cut into tokens. Attaching trivia to tokens keeps the
lexemes in their order, so tokens and trivia stand where the lexemes stood; and trivia goes over to the next token from the
first line end on. A token that does not begin a line stands on the line on which the token before it ends, and no further
left than the end of that token.
-/

namespace HaskellStyle

/--
A text stands in `source` at the place that it has been given.
-/
structure StandsAt (source : List Char) (text : String) (position : Position) : Prop where
  slice : Text.slice source position.offset (position.offset + text.length : Nat) = text.toList
  place : (LineIndex.ofText source).lineColumn position.offset = ((position.line : Int), position.column)

theorem standsAt_after (before behind : List Char) (text : String) :
    StandsAt (before ++ text.toList ++ behind) text (Position.origin.after before) where
  slice := by
    have hoffset : (Position.origin.after before).offset = before.length := by
      rw [Position.offset_after]
      exact Nat.zero_add _
    simp only [Text.slice, Int.natCast_nonneg, Int.not_lt.2, if_false, Int.toNat_natCast, hoffset]
    rw [List.append_assoc, List.drop_left, List.take_left' (by rw [String.length_toList]; omega)]
  place := by
    rw [Position.offset_after, show Position.origin.offset = 0 from rfl, Nat.zero_add, List.append_assoc]
    exact LineIndex.lineColumn_ofText before (text.toList ++ behind)

theorem Lexeme.Tiling.standsAt {text : List Char} {ls : List Lexeme} (h : Tiling .origin text ls) {l : Lexeme}
    (hl : l ∈ ls) : StandsAt text l.text l.position := by
  obtain ⟨before, after, rfl⟩ := List.append_of_mem hl
  rw [h.tiled.split, ← h.join_eq, join_append, join_cons, ← List.append_assoc]
  exact standsAt_after (join before) (join after) l.text

theorem Lexeme.Tiled.next {start : Position} {before between after : List Lexeme} {l next : Lexeme}
    (h : Tiled start (before ++ l :: between ++ next :: after)) :
    next.position = l.position.after (l.text.toList ++ join between) := by
  have hl : l.position = start.after (join before) := by
    rw [List.append_assoc, List.cons_append] at h
    exact h.split
  rw [h.split, hl, ← Position.after_append, join_append, join_cons]

/--
A piece of trivia as the lexeme that it was.
-/
def TriviaPiece.lexeme (piece : TriviaPiece) : Lexeme :=
  ⟨.trivia piece.kind, piece.text, piece.position⟩

namespace Trivia

/--
The lexemes of trivia.
-/
def lexemes (trivia : Trivia) : List Lexeme :=
  trivia.map TriviaPiece.lexeme

/--
A line end in the trivia comes first.
-/
def BeginsLine (trivia : Trivia) : Prop :=
  trivia.hasNewline → trivia.head?.any (·.kind = .newline)

theorem join_lexemes (trivia : Trivia) : Lexeme.join trivia.lexemes = trivia.text.toList := by
  induction trivia with
  | nil => rfl
  | cons piece more ih =>
    rw [lexemes, List.map_cons, Lexeme.join_cons, text, List.map_cons, String.join_cons, String.toList_append]
    exact congrArg _ ih

end Trivia

namespace Token

/--
A token without its trivia as the lexeme that it was.
-/
def lexeme (t : Token) : Lexeme :=
  ⟨.token t.kind, t.text, t.position⟩

/--
The lexemes of a token and its trivia.
-/
def lexemes (t : Token) : List Lexeme :=
  t.leading.lexemes ++ t.lexeme :: t.trailing.lexemes

theorem join_lexemes (t : Token) : Lexeme.join t.lexemes = t.sourceText.toList := by
  simp [lexemes, sourceText, Trivia.join_lexemes, lexeme]

theorem join_flatMap_lexemes (ts : List Token) :
    Lexeme.join (ts.flatMap lexemes) = (joinSource ts).toList := by
  induction ts with
  | nil => rfl
  | cons t ts ih =>
    rw [List.flatMap_cons, Lexeme.join_append, join_lexemes, ih, joinSource, joinSource, List.map_cons,
      String.join_cons, String.toList_append]

/--
The lexemes of a token with the trivia up to the next one.
-/
def groupedLexemes (group : (TokenKind × String × Position) × Trivia) : List Lexeme :=
  ⟨.token group.1.1, group.1.2.1, group.1.2.2⟩ :: group.2.lexemes

theorem groupLexemes_eq (ls : List Lexeme) :
    (groupLexemes ls).1.lexemes ++ (groupLexemes ls).2.flatMap groupedLexemes = ls := by
  induction ls with
  | nil => rfl
  | cons l ls ih =>
    rw [groupLexemes]
    cases hkind : l.kind with
    | trivia kind =>
      simp only [Trivia.lexemes, List.map_cons, List.cons_append]
      rw [Trivia.lexemes] at ih
      rw [ih, TriviaPiece.lexeme, ← hkind]
    | token kind =>
      simp only [Trivia.lexemes, List.map_nil, List.nil_append, List.flatMap_cons]
      rw [groupedLexemes, List.cons_append, ih, ← hkind]

theorem splitTrivia_append (trivia : Trivia) (isLast : Bool) :
    (splitTrivia trivia isLast).1 ++ (splitTrivia trivia isLast).2 = trivia := by
  unfold splitTrivia
  split
  · exact List.takeWhile_append_dropWhile
  · split
    · exact List.append_nil trivia
    · rfl

theorem hasNewline_splitTrivia (trivia : Trivia) (isLast : Bool) :
    Trivia.hasNewline (splitTrivia trivia isLast).1 = false := by
  unfold splitTrivia
  split
  · rw [Trivia.hasNewline, List.any_eq_false]
    intro piece hpiece
    simpa using List.all_eq_true.1 List.all_takeWhile piece hpiece
  · next hno =>
    split
    · simpa using hno
    · rfl

theorem beginsLine_splitTrivia (trivia : Trivia) (isLast : Bool) :
    Trivia.BeginsLine (splitTrivia trivia isLast).2 := by
  unfold splitTrivia
  intro hnewline
  split at hnewline
  · next htrivia =>
    -- What is left behind the pieces that end no line begins with one that does.
    rw [if_pos htrivia]
    cases hrest : trivia.dropWhile (·.kind ≠ .newline) with
    | nil =>
      rw [hrest] at hnewline
      cases hnewline
    | cons piece more =>
      have := List.head?_dropWhile_not (fun piece : TriviaPiece => decide (piece.kind ≠ .newline)) trivia
      rw [hrest] at this
      simpa using this
  · next hno =>
    split at hnewline
    · cases hnewline
    · exact absurd hnewline hno

/--
The token of a group, with the trivia left for it.
-/
def attached (leading : Trivia) (endLine : Option Nat) (group : (TokenKind × String × Position) × Trivia)
    (isLast : Bool) : Token :=
  { kind := group.1.1
    text := group.1.2.1
    position := group.1.2.2
    leading
    trailing := (splitTrivia group.2 isLast).1
    lineStart := endLine.all (· < group.1.2.2.line) }

theorem attach_cons (leading : Trivia) (endLine : Option Nat) (group : (TokenKind × String × Position) × Trivia)
    (groups : List ((TokenKind × String × Position) × Trivia)) :
    attach leading endLine (group :: groups)
      = (fun t r => (t :: r.1, r.2)) (attached leading endLine group groups.isEmpty)
        (attach (splitTrivia group.2 groups.isEmpty).2 (some (attached leading endLine group groups.isEmpty).endLine)
          groups) := rfl

theorem lexemes_attach (leading : Trivia) (endLine : Option Nat)
    (groups : List ((TokenKind × String × Position) × Trivia)) :
    (attach leading endLine groups).1.flatMap lexemes ++ (attach leading endLine groups).2.lexemes
      = leading.lexemes ++ groups.flatMap groupedLexemes := by
  induction groups generalizing leading endLine with
  | nil => simp [attach]
  | cons group groups ih =>
    obtain ⟨⟨kind, text, position⟩, following⟩ := group
    rw [attach]
    dsimp only
    have hsplit := splitTrivia_append following groups.isEmpty
    rw [List.flatMap_cons, List.append_assoc, ih, List.flatMap_cons, groupedLexemes]
    dsimp only
    rw [lexemes, lexeme]
    conv => rhs; rw [← hsplit]
    simp [Trivia.lexemes]

theorem trailing_attach {leading : Trivia} {endLine : Option Nat}
    {groups : List ((TokenKind × String × Position) × Trivia)} {t : Token}
    (h : t ∈ (attach leading endLine groups).1) : t.trailing.hasNewline = false := by
  induction groups generalizing leading endLine with
  | nil => cases h
  | cons group groups ih =>
    obtain ⟨⟨kind, text, position⟩, following⟩ := group
    rw [attach] at h
    rcases List.mem_cons.1 h with rfl | h
    · exact hasNewline_splitTrivia following groups.isEmpty
    · exact ih h

theorem leading_attach {leading : Trivia} {endLine : Option Nat}
    {groups : List ((TokenKind × String × Position) × Trivia)} (hleading : leading.BeginsLine) :
    (∀ t ∈ (attach leading endLine groups).1, t.leading.BeginsLine)
      ∧ Trivia.BeginsLine (attach leading endLine groups).2 := by
  induction groups generalizing leading endLine with
  | nil => exact ⟨by simp [attach], hleading⟩
  | cons group groups ih =>
    obtain ⟨⟨kind, text, position⟩, following⟩ := group
    rw [attach]
    dsimp only
    rw [List.forall_mem_cons, and_assoc]
    exact ⟨hleading, ih (beginsLine_splitTrivia following groups.isEmpty)⟩

theorem leading_attach_tail (leading : Trivia) (endLine : Option Nat)
    (groups : List ((TokenKind × String × Position) × Trivia)) :
    (∀ t ∈ (attach leading endLine groups).1.tail, t.leading.BeginsLine)
      ∧ ((attach leading endLine groups).1 ≠ [] → Trivia.BeginsLine (attach leading endLine groups).2) := by
  cases groups with
  | nil => simp [attach]
  | cons group groups =>
    obtain ⟨⟨kind, text, position⟩, following⟩ := group
    rw [attach]
    dsimp only
    rw [List.tail_cons]
    refine And.imp_right (fun h _ => h) ?_
    exact leading_attach (beginsLine_splitTrivia following groups.isEmpty)

theorem lineStart_attach {leading : Trivia} {endLine : Option Nat}
    {groups : List ((TokenKind × String × Position) × Trivia)} {before after : List Token} {t : Token}
    (h : (attach leading endLine groups).1 = before ++ t :: after) :
    t.lineStart = ((before.getLast?.map Token.endLine).or endLine).all (· < t.line) := by
  induction groups generalizing leading endLine before with
  | nil => simp [attach] at h
  | cons group groups ih =>
    obtain ⟨⟨kind, text, position⟩, following⟩ := group
    rw [attach] at h
    cases before with
    | nil =>
      obtain ⟨rfl, -⟩ := List.cons.inj h
      rfl
    | cons first before =>
      obtain ⟨rfl, hrest⟩ := List.cons.inj h
      rw [ih hrest, List.getLast?_cons]
      cases before.getLast? <;> rfl

end Token

namespace TokenStream

/--
The lexemes that a stream of tokens was made of.
-/
def lexemes (stream : TokenStream) : List Lexeme :=
  stream.tokens.flatMap Token.lexemes ++ stream.eof.leading.lexemes

/--
The tokens of a text in which nothing is lost: they make up the text, everything stands at its place, tokens own
the trivia up to the end of their line, and a token begins a line if no token ends on it before.
-/
structure Lossless (text : List Char) (stream : TokenStream) : Prop where
  sourceText : stream.sourceText = String.ofList text
  token : ∀ t ∈ stream.tokens, t.isEnd = false ∧ t.text ≠ "" ∧ StandsAt text t.text t.position
  piece : ∀ t ∈ stream.toList, ∀ piece ∈ t.leading ++ t.trailing,
    piece.text ≠ "" ∧ StandsAt text piece.text piece.position
  eof : stream.eof.isEnd ∧ stream.eof.text = "" ∧ stream.eof.offset = text.length
    ∧ StandsAt text stream.eof.text stream.eof.position
  trailing : ∀ t ∈ stream.toList, t.trailing.hasNewline = false
  leading : ∀ t ∈ stream.toList.tail, t.leading.BeginsLine
  lineStart : ∀ before t after, stream.tokens = before ++ t :: after →
    (t.lineStart ↔ ∀ u ∈ before, (LineIndex.ofText text).lineOf ((u.stop : Int) - 1) ≠ t.line)

theorem ofTextWith_eq {q : Bool} {text : List Char} {stream : TokenStream} (h : ofTextWith q text = .ok stream) :
    ∃ ls, Lexeme.ofText q text = .ok ls
      ∧ stream.tokens = (Token.attach (Token.groupLexemes ls).1 none (Token.groupLexemes ls).2).1
      ∧ stream.eof = ⟨.endOfText, "", Position.origin.after text,
        (Token.attach (Token.groupLexemes ls).1 none (Token.groupLexemes ls).2).2, [], true⟩ := by
  unfold ofTextWith at h
  cases hls : Lexeme.ofText q text with
  | error e =>
    rw [hls] at h
    cases h
  | ok ls =>
    rw [hls] at h
    cases h
    exact ⟨ls, rfl, rfl, rfl⟩

theorem tiling_lexemes {q : Bool} {text : List Char} {stream : TokenStream} (h : ofTextWith q text = .ok stream) :
    Lexeme.Tiling .origin text stream.lexemes := by
  obtain ⟨ls, hls, htokens, heof⟩ := ofTextWith_eq h
  have hlexemes : stream.lexemes = ls := by
    rw [lexemes, htokens, heof, Token.lexemes_attach, Token.groupLexemes_eq]
  rw [hlexemes]
  exact Lexeme.tiling_of_ofText hls

theorem join_lexemes {stream : TokenStream} (htext : stream.eof.text = "") (htrailing : stream.eof.trailing = []) :
    Lexeme.join stream.lexemes = stream.sourceText.toList := by
  rw [lexemes, Lexeme.join_append, Token.join_flatMap_lexemes, Trivia.join_lexemes, sourceText, toList,
    Token.joinSource, Token.joinSource, List.map_append, String.join_append, String.toList_append]
  simp [Token.sourceText, htext, htrailing, Trivia.text]

theorem mem_lexemes {stream : TokenStream} {t : Token} (ht : t ∈ stream.tokens) : t.lexeme ∈ stream.lexemes := by
  refine List.mem_append_left _ (List.mem_flatMap.2 ⟨t, ht, ?_⟩)
  exact List.mem_append_right _ List.mem_cons_self

theorem piece_mem_lexemes {stream : TokenStream} (htrailing : stream.eof.trailing = []) {t : Token}
    (ht : t ∈ stream.toList) {piece : TriviaPiece} (hpiece : piece ∈ t.leading ++ t.trailing) :
    piece.lexeme ∈ stream.lexemes := by
  rcases List.mem_append.1 ht with ht | ht
  · refine List.mem_append_left _ (List.mem_flatMap.2 ⟨t, ht, ?_⟩)
    rcases List.mem_append.1 hpiece with h | h
    · exact List.mem_append_left _ (List.mem_map_of_mem h)
    · exact List.mem_append_right _ (List.mem_cons_of_mem _ (List.mem_map_of_mem h))
  · cases List.mem_singleton.1 ht
    rw [htrailing, List.append_nil] at hpiece
    exact List.mem_append_right _ (List.mem_map_of_mem hpiece)

/--
What stands before a token: the tokens before it with their trivia, and its leading trivia.
-/
theorem take_offset {text : List Char} {stream : TokenStream} (htiling : Lexeme.Tiling .origin text stream.lexemes)
    {before after : List Token} {t : Token} (h : stream.tokens = before ++ t :: after) :
    text.take t.offset = (Token.joinSource before).toList ++ t.leading.text.toList
      ∧ t.column = Text.visualWidth (text.take t.offset) 0 := by
  have hlexemes : stream.lexemes = (before.flatMap Token.lexemes ++ t.leading.lexemes)
      ++ t.lexeme :: (t.trailing.lexemes ++ after.flatMap Token.lexemes ++ stream.eof.leading.lexemes) := by
    simp [lexemes, h, Token.lexemes]
  have htiled := htiling.tiled
  have hjoin := htiling.join_eq
  rw [hlexemes] at htiled hjoin
  have hposition : t.position = Position.origin.after _ := htiled.split
  rw [Lexeme.join_append] at hjoin
  have htake : text.take t.offset = Lexeme.join (before.flatMap Token.lexemes ++ t.leading.lexemes) := by
    rw [Token.offset, hposition, Position.offset_after, show Position.origin.offset = 0 from rfl, Nat.zero_add, ← hjoin,
      List.take_left]
  refine ⟨?_, ?_⟩
  · rw [htake, Lexeme.join_append, Token.join_flatMap_lexemes, Trivia.join_lexemes]
  · rw [htake, Token.column, hposition, Position.column_after]
    rfl

/--
A token ends no later than a token behind it begins.
-/
theorem endLine_le_line {text : List Char} {stream : TokenStream}
    (htiling : Lexeme.Tiling .origin text stream.lexemes) {before between after : List Token} {t u : Token}
    (h : stream.tokens = before ++ u :: between ++ t :: after) : u.endLine ≤ t.line := by
  have hlexemes : stream.lexemes
      = (before.flatMap Token.lexemes ++ u.leading.lexemes)
        ++ u.lexeme :: (u.trailing.lexemes ++ between.flatMap Token.lexemes ++ t.leading.lexemes)
        ++ t.lexeme :: (t.trailing.lexemes ++ after.flatMap Token.lexemes ++ stream.eof.leading.lexemes) := by
    simp [lexemes, h, Token.lexemes]
  have htiled := htiling.tiled
  rw [hlexemes] at htiled
  have hposition : t.position = u.position.after (u.text.toList ++ _) := htiled.next
  rw [Token.line, hposition, Position.line_after, List.count_append, Token.endLine, Token.line]
  omega

/--
A token ends on the line of its last character, since that is not a line end.
-/
theorem lineOf_stop {text : List Char} {stream : TokenStream}
    (htiling : Lexeme.Tiling .origin text stream.lexemes) {u : Token} (hu : u ∈ stream.tokens) :
    (LineIndex.ofText text).lineOf ((u.stop : Int) - 1) = u.endLine := by
  have hsound := htiling.sound _ (mem_lexemes hu)
  obtain ⟨before, after, hlexemes⟩ := List.append_of_mem (mem_lexemes hu)
  have htiled := htiling.tiled
  have hjoin := htiling.join_eq
  rw [hlexemes] at htiled hjoin
  have hposition : u.position = Position.origin.after (Lexeme.join before) := htiled.split
  rcases List.eq_nil_or_concat u.text.toList with hnil | ⟨w, c, hw⟩
  · exact absurd (String.toList_eq_nil_iff.1 hnil) hsound.nonempty
  · have hc : c ≠ '\n' := by
      rintro rfl
      have := hsound.last u.kind rfl '\n' (by rw [show u.lexeme.text = u.text from rfl, hw]; simp)
      revert this
      decide
    have htext : text = (Lexeme.join before ++ w) ++ (c :: Lexeme.join after) := by
      rw [← hjoin, Lexeme.join_append, Lexeme.join_cons, show u.lexeme.text = u.text from rfl, hw]
      simp
    have hstop : ((u.stop : Int) - 1) = (Lexeme.join before ++ w).length := by
      have hlength : u.text.length = w.length + 1 := by
        rw [← String.length_toList, hw]
        simp
      rw [Token.stop, Token.offset, hposition, Position.offset_after, hlength, List.length_append]
      simp only [Position.origin]
      omega
    rw [hstop, htext, LineIndex.lineOf_ofText, Position.after_append, ← hposition, Position.line_after,
      Token.endLine, hw, List.concat_eq_append, List.count_append,
      List.count_eq_zero_of_not_mem (by simpa using hc.symm : '\n' ∉ [c])]
    rfl

theorem lineStart_iff {q : Bool} {text : List Char} {stream : TokenStream} (h : ofTextWith q text = .ok stream)
    {before after : List Token} {t : Token} (htokens : stream.tokens = before ++ t :: after) :
    t.lineStart ↔ ∀ u ∈ before, (LineIndex.ofText text).lineOf ((u.stop : Int) - 1) ≠ t.line := by
  have htiling := tiling_lexemes h
  obtain ⟨ls, -, hattach, -⟩ := ofTextWith_eq h
  rw [hattach] at htokens
  rw [Token.lineStart_attach htokens]
  rw [← hattach] at htokens
  have hends (u : Token) (hu : u ∈ before) :
      (LineIndex.ofText text).lineOf ((u.stop : Int) - 1) = u.endLine :=
    lineOf_stop htiling (htokens ▸ List.mem_append_left _ hu)
  rcases List.eq_nil_or_concat before with rfl | ⟨others, last, rfl⟩
  · simp
  · -- The last token before `t` ends behind all others, and no later than `t` begins.
    have hlast : last.endLine ≤ t.line := by
      have hsplit : stream.tokens = others ++ last :: [] ++ t :: after := by simpa using htokens
      exact endLine_le_line htiling hsplit
    have hothers (u : Token) (hu : u ∈ others) : u.endLine ≤ last.endLine := by
      obtain ⟨a, b, rfl⟩ := List.append_of_mem hu
      have hsplit : stream.tokens = a ++ u :: b ++ last :: t :: after := by simpa using htokens
      have hline := endLine_le_line htiling hsplit
      exact Nat.le_trans hline (Nat.le_add_right _ _)
    rw [List.concat_eq_append] at hends ⊢
    rw [List.getLast?_concat, Option.map_some, Option.some_or, Option.all_some, decide_eq_true_eq]
    constructor
    · intro hlt u hu
      rw [hends u hu]
      rcases List.mem_append.1 hu with hu | hu
      · have := hothers u hu
        omega
      · cases List.mem_singleton.1 hu
        omega
    · intro hne
      have := hne last (by simp)
      rw [hends last (by simp)] at this
      omega

theorem lossless_of_ofTextWith {q : Bool} {text : List Char} {stream : TokenStream}
    (h : ofTextWith q text = .ok stream) : stream.Lossless text := by
  have htiling := tiling_lexemes h
  obtain ⟨ls, -, htokens, heof⟩ := ofTextWith_eq h
  have htrailing : stream.eof.trailing = [] := by rw [heof]
  constructor
  case sourceText =>
    rw [← htiling.join_eq, join_lexemes (by rw [heof]) htrailing, String.ofList_toList]
  case token =>
    intro t ht
    have hsound := htiling.sound _ (mem_lexemes ht)
    refine ⟨?_, hsound.nonempty, htiling.standsAt (mem_lexemes ht)⟩
    rw [Token.isEnd, decide_eq_false_iff_not]
    intro hend
    exact hsound.kind (congrArg LexemeKind.token hend)
  case piece =>
    intro t ht piece hpiece
    have hmem := piece_mem_lexemes htrailing ht hpiece
    exact ⟨(htiling.sound _ hmem).nonempty, htiling.standsAt hmem⟩
  case eof =>
    have hstands : StandsAt (text ++ "".toList ++ []) "" (Position.origin.after text) := standsAt_after text [] ""
    rw [heof]
    refine ⟨rfl, rfl, ?_, by simpa using hstands⟩
    rw [Token.offset, Position.offset_after]
    exact Nat.zero_add _
  case trailing =>
    intro t ht
    rcases List.mem_append.1 ht with ht | ht
    · rw [htokens] at ht
      exact Token.trailing_attach ht
    · cases List.mem_singleton.1 ht
      rw [htrailing]
      rfl
  case leading =>
    intro t ht
    have hattach := Token.leading_attach_tail (Token.groupLexemes ls).1 none (Token.groupLexemes ls).2
    rw [← htokens] at hattach
    rw [toList] at ht
    cases hfirst : stream.tokens with
    | nil =>
      rw [hfirst] at ht
      cases ht
    | cons first more =>
      rw [hfirst, List.cons_append, List.tail_cons] at ht
      rcases List.mem_append.1 ht with ht | ht
      · exact hattach.1 t (by rw [hfirst]; exact ht)
      · cases List.mem_singleton.1 ht
        rw [heof]
        exact hattach.2 (by rw [hfirst]; exact List.cons_ne_nil _ _)
  case lineStart =>
    intro before t after hsplit
    exact lineStart_iff h hsplit

theorem opens_of_ofTextWith {q : Bool} {text : List Char} {failure : Failure}
    (h : ofTextWith q text = .error failure) : failure.Opens text := by
  unfold ofTextWith at h
  cases hls : Lexeme.ofText q text with
  | error e =>
    rw [hls] at h
    cases h
    exact Lexeme.opens_of_ofText hls
  | ok ls =>
    rw [hls] at h
    cases h

/--
A text has an open mark where it cannot be cut into tokens, or else it is cut into tokens without loss.
-/
theorem ofTextWith_lossless (quasiQuotes : Bool) (text : List Char) :
    (∃ failure, ofTextWith quasiQuotes text = .error failure ∧ failure.Opens text)
      ∨ ∃ stream, ofTextWith quasiQuotes text = .ok stream ∧ stream.Lossless text := by
  cases h : ofTextWith quasiQuotes text with
  | error failure => exact .inl ⟨failure, rfl, opens_of_ofTextWith h⟩
  | ok stream => exact .inr ⟨stream, rfl, lossless_of_ofTextWith h⟩

end TokenStream

namespace Text

theorem le_advanceColumn {c : Char} (h : c ≠ '\n') (column : Int) : column ≤ advanceColumn column c := by
  rw [advanceColumn, if_neg h]
  split
  · rw [tabStop, Int.fdiv_eq_ediv_of_nonneg _ (by decide)]
    omega
  · split <;> omega

theorem le_visualWidth {cs : List Char} (h : '\n' ∉ cs) (start : Int) : start ≤ visualWidth cs start := by
  induction cs generalizing start with
  | nil => exact Int.le_refl start
  | cons c cs ih =>
    rw [List.mem_cons, not_or] at h
    rw [visualWidth_cons]
    exact Int.le_trans (le_advanceColumn (Ne.symm h.1) start) (ih h.2 _)

theorem lt_visualWidth {c : Char} {cs : List Char} {start : Int} (hc : advanceColumn start c = start + 1)
    (hcs : '\n' ∉ cs) : start < visualWidth (c :: cs) start := by
  rw [visualWidth_cons, hc]
  exact Int.lt_of_lt_of_le (Int.lt_succ start) (le_visualWidth hcs _)

/--
Behind a line end it does not matter where a text begins.
-/
theorem visualWidth_of_newline {cs : List Char} (h : '\n' ∈ cs) (start start' : Int) :
    visualWidth cs start = visualWidth cs start' := by
  obtain ⟨before, after, rfl⟩ := List.append_of_mem h
  rw [visualWidth_append, visualWidth_append, visualWidth_cons, visualWidth_cons]
  rfl

theorem visualWidth_nonneg (cs : List Char) {start : Int} (h : 0 ≤ start) : 0 ≤ visualWidth cs start := by
  induction cs generalizing start with
  | nil => exact h
  | cons c cs ih =>
    refine ih ?_
    by_cases hc : c = '\n'
    · rw [hc]
      exact Int.le_refl 0
    · exact Int.le_trans h (le_advanceColumn hc start)

end Text

/--
How a token stands behind another if no line ends between them.
-/
def Token.Adjacent (t u : Token) : Prop :=
  u.lineStart = false → u.line = t.endLine ∧ Text.visualWidth t.text.toList t.column ≤ u.column

namespace TokenStream

variable {q : Bool} {text : List Char} {stream : TokenStream}

theorem adjacent_of_ofTextWith (h : ofTextWith q text = .ok stream) {before after : List Token} {t u : Token}
    (htokens : stream.tokens = before ++ t :: u :: after) : t.Adjacent u := by
  intro hline
  have htiling := tiling_lexemes h
  have hbetween : stream.tokens = before ++ t :: [] ++ u :: after := by rw [htokens]; simp
  have hle : t.endLine ≤ u.line := endLine_le_line htiling hbetween
  have hge : u.line ≤ t.endLine := by
    obtain ⟨ls, -, hattach, -⟩ := ofTextWith_eq h
    have hsplit : stream.tokens = (before ++ [t]) ++ u :: after := by rw [htokens]; simp
    rw [hattach] at hsplit
    have hstart := Token.lineStart_attach hsplit
    rw [List.getLast?_concat, Option.map_some, Option.some_or, Option.all_some, hline] at hstart
    simpa using hstart.symm
  have hsame : u.line = t.endLine := Nat.le_antisymm hge hle
  refine ⟨hsame, ?_⟩
  -- Between the two tokens there is trivia only, and no line ends in it.
  have hlexemes : stream.lexemes
      = (before.flatMap Token.lexemes ++ t.leading.lexemes)
        ++ t.lexeme :: (t.trailing.lexemes ++ u.leading.lexemes)
        ++ u.lexeme :: (u.trailing.lexemes ++ after.flatMap Token.lexemes ++ stream.eof.leading.lexemes) := by
    simp [lexemes, htokens, Token.lexemes]
  have htiled := htiling.tiled
  rw [hlexemes] at htiled
  have hposition : u.position = t.position.after (t.text.toList ++ Lexeme.join _) := htiled.next
  generalize Lexeme.join (t.trailing.lexemes ++ u.leading.lexemes) = between at hposition
  have hnone : '\n' ∉ between := by
    rw [Token.line, hposition, Position.line_after, List.count_append, Token.endLine, Token.line] at hsame
    exact List.count_eq_zero.1 (by omega)
  rw [Token.column, Token.column, hposition, Position.column_after, Text.visualWidth_append]
  exact Text.le_visualWidth hnone _

theorem column_nonneg (h : ofTextWith q text = .ok stream) {t : Token} (ht : t ∈ stream.toList) : 0 ≤ t.column := by
  have hafter (cs : List Char) : 0 ≤ (Position.origin.after cs).column := by
    rw [Position.column_after]
    exact Text.visualWidth_nonneg cs (Int.le_refl 0)
  rcases List.mem_append.1 ht with ht | ht
  · obtain ⟨before, after, hlexemes⟩ := List.append_of_mem (mem_lexemes ht)
    have htiled := (tiling_lexemes h).tiled
    rw [hlexemes] at htiled
    rw [Token.column, show t.position = _ from htiled.split]
    exact hafter _
  · obtain ⟨ls, -, -, heof⟩ := ofTextWith_eq h
    rw [List.mem_singleton.1 ht, heof]
    exact hafter text

/--
A token that begins a line stands on a later line than all tokens before it.
-/
theorem line_lt_of_lineStart (h : ofTextWith q text = .ok stream) {before between after : List Token} {t u : Token}
    (htokens : stream.tokens = before ++ t :: between ++ u :: after) (hline : u.lineStart) : t.line < u.line := by
  have htiling := tiling_lexemes h
  obtain ⟨ls, -, hattach, -⟩ := ofTextWith_eq h
  have hstart := Token.lineStart_attach (hattach.symm.trans htokens)
  rw [hline] at hstart
  have hle (t : Token) : t.line ≤ t.endLine := Nat.le_add_right _ _
  rcases List.eq_nil_or_concat between with rfl | ⟨others, last, rfl⟩
  · rw [List.getLast?_concat] at hstart
    exact Nat.lt_of_le_of_lt (hle t) (of_decide_eq_true hstart.symm)
  · rw [List.concat_eq_append] at htokens hstart
    have hsplit : stream.tokens = before ++ t :: others ++ last :: ([] ++ u :: after) := by simpa using htokens
    have hlast := endLine_le_line htiling hsplit
    rw [show before ++ t :: (others ++ [last]) = (before ++ t :: others) ++ [last] by simp,
      List.getLast?_concat] at hstart
    have hlt : last.endLine < u.line := of_decide_eq_true hstart.symm
    exact Nat.lt_of_le_of_lt (Nat.le_trans (hle t) (Nat.le_trans hlast (hle last))) hlt

theorem isChain_adjacent (h : ofTextWith q text = .ok stream) : stream.tokens.IsChain Token.Adjacent :=
  List.isChain_iff_forall_rel_of_append_cons_cons.2 fun {_ _ _ _} => adjacent_of_ofTextWith h

end TokenStream

end HaskellStyle
