import HaskellStyle.Proofs.Newline.Lexeme
import HaskellStyle.Proofs.Token.Faithful
import HaskellStyle.Token.Attach

/-!
This module contains the tokens of a text with carriage returns before its line feeds. They have the kinds, the lines,
the columns and the trivia of the tokens without them; their texts have the carriage returns, and their offsets are
moved.
-/

namespace HaskellStyle

open Text (crlfString crlfOffset)

variable (σ : Nat → Nat)

/--
A piece of trivia of a text with carriage returns.
-/
def TriviaPiece.crlf (piece : TriviaPiece) : TriviaPiece :=
  ⟨piece.kind, crlfString piece.text, piece.position.crlf σ⟩

namespace TriviaPiece

variable (piece : TriviaPiece)

@[simp] theorem kind_crlf : (piece.crlf σ).kind = piece.kind := by
  cases piece
  rfl

@[simp] theorem text_crlf : (piece.crlf σ).text = crlfString piece.text := by
  cases piece
  rfl

@[simp] theorem isComment_crlf : (piece.crlf σ).isComment = piece.isComment := by
  cases piece
  rfl

@[simp] theorem isMultiline_crlf : (piece.crlf σ).isMultiline = piece.isMultiline := by
  simp only [isMultiline, text_crlf, Text.toList_crlfString, Text.contains_newline_crlf]
  rfl

end TriviaPiece

/--
The trivia of a text with carriage returns.
-/
def Trivia.crlf (trivia : Trivia) : Trivia :=
  trivia.map (TriviaPiece.crlf σ)

namespace Trivia

variable (trivia : Trivia)

@[simp] theorem text_crlf : (Trivia.crlf σ trivia).text = crlfString trivia.text := by
  simp [text, crlf, Text.crlfString_join, Function.comp_def]

@[simp] theorem hasNewline_crlf : (Trivia.crlf σ trivia).hasNewline = trivia.hasNewline := by
  simp only [hasNewline, crlf, List.any_map]
  rfl

@[simp] theorem comments_crlf : (Trivia.crlf σ trivia).comments = trivia.comments.map (TriviaPiece.crlf σ) := by
  simp [comments, crlf, List.filter_map, Function.comp_def]

@[simp] theorem hasComments_crlf : (Trivia.crlf σ trivia).hasComments = trivia.hasComments := by
  simp [hasComments, crlf, Function.comp_def]

@[simp] theorem hasDirective_crlf : (Trivia.crlf σ trivia).hasDirective = trivia.hasDirective := by
  simp only [hasDirective, crlf, List.any_map]
  rfl

@[simp] theorem isEmpty_crlf : (Trivia.crlf σ trivia).isEmpty = trivia.isEmpty := by
  simp [crlf]

theorem splitLines_crlf : (Trivia.crlf σ trivia).splitLines
    = (Trivia.crlf σ trivia.splitLines.1, trivia.splitLines.2.map (Trivia.crlf σ)) := by
  induction trivia with
  | nil => rfl
  | cons piece more ih =>
    have hcons : Trivia.crlf σ (piece :: more) = piece.crlf σ :: Trivia.crlf σ more := rfl
    rw [hcons, splitLines, splitLines, ih, TriviaPiece.kind_crlf]
    dsimp only
    split <;> rfl

@[simp] theorem wholeLines_crlf : (Trivia.crlf σ trivia).wholeLines = trivia.wholeLines.map (Trivia.crlf σ) := by
  rw [wholeLines, splitLines_crlf, wholeLines, List.map_dropLast]

@[simp] theorem lastLine_crlf : (Trivia.crlf σ trivia).lastLine = Trivia.crlf σ trivia.lastLine := by
  unfold lastLine
  rw [splitLines_crlf]
  dsimp only
  rw [List.getLast?_map]
  cases trivia.splitLines.2.getLast? <;> rfl

@[simp] theorem lineContent_crlf : lineContent (Trivia.crlf σ trivia) = Trivia.crlf σ (lineContent trivia) := by
  simp only [lineContent, crlf, List.filter_map]
  rfl

@[simp] theorem blankLines_crlf : (Trivia.crlf σ trivia).blankLines = trivia.blankLines := by
  simp [blankLines, List.countP_map, Function.comp_def]

@[simp] theorem commentLines_crlf :
    (Trivia.crlf σ trivia).commentLines = trivia.commentLines.map (Trivia.crlf σ) := by
  simp [commentLines, Function.comp_def]

end Trivia

/--
A token of a text with carriage returns.
-/
def Token.crlf (t : Token) : Token :=
  { t with
    text := crlfString t.text
    position := t.position.crlf σ
    leading := Trivia.crlf σ t.leading
    trailing := Trivia.crlf σ t.trailing }

namespace Token

variable (t : Token)

@[simp] theorem kind_crlf : (t.crlf σ).kind = t.kind := by
  cases t
  rfl

@[simp] theorem text_crlf : (t.crlf σ).text = crlfString t.text := by
  cases t
  rfl

@[simp] theorem leading_crlf : (t.crlf σ).leading = Trivia.crlf σ t.leading := by
  cases t
  rfl

@[simp] theorem trailing_crlf : (t.crlf σ).trailing = Trivia.crlf σ t.trailing := by
  cases t
  rfl

@[simp] theorem lineStart_crlf : (t.crlf σ).lineStart = t.lineStart := by
  cases t
  rfl

@[simp] theorem offset_crlf : (t.crlf σ).offset = σ t.offset := by
  cases t
  rfl

@[simp] theorem line_crlf : (t.crlf σ).line = t.line := by
  cases t
  rfl

@[simp] theorem column_crlf : (t.crlf σ).column = t.column := by
  cases t
  rfl

@[simp] theorem isMultiline_crlf : (t.crlf σ).isMultiline = t.isMultiline := by
  simp only [isMultiline, text_crlf, Text.toList_crlfString, Text.contains_newline_crlf]

@[simp] theorem endLine_crlf : (t.crlf σ).endLine = t.endLine := by
  simp [endLine]

@[simp] theorem isOperator_crlf : (t.crlf σ).isOperator = t.isOperator := by
  cases t
  rfl

@[simp] theorem isName_crlf : (t.crlf σ).isName = t.isName := by
  cases t
  rfl

@[simp] theorem isEnd_crlf : (t.crlf σ).isEnd = t.isEnd := by
  cases t
  rfl

instance : KeepsColumns (crlf σ) where
  kind_map := kind_crlf σ
  contains_map h t := by rw [text_crlf, Text.contains_crlfString h]
  column_map := column_crlf σ
  lineStart_map := lineStart_crlf σ

@[simp] theorem isKeyword_crlf {words : List String} (h : AreLines words) :
    (t.crlf σ).isKeyword words = t.isKeyword words :=
  isKeyword_map (crlf σ) t h

@[simp] theorem isSpecial_crlf {marks : List String} (h : AreLines marks) :
    (t.crlf σ).isSpecial marks = t.isSpecial marks :=
  isSpecial_map (crlf σ) t h

@[simp] theorem isReservedOp_crlf {ops : List String} (h : AreLines ops) :
    (t.crlf σ).isReservedOp ops = t.isReservedOp ops :=
  isReservedOp_map (crlf σ) t h

@[simp] theorem isOpening_crlf : (t.crlf σ).isOpening = t.isOpening :=
  isOpening_map (crlf σ) t

@[simp] theorem isClosing_crlf : (t.crlf σ).isClosing = t.isClosing :=
  isClosing_map (crlf σ) t

@[simp] theorem bracketStep_crlf : (t.crlf σ).bracketStep = t.bracketStep :=
  bracketStep_map (crlf σ) t

@[simp] theorem reindentable_crlf : (t.crlf σ).reindentable = t.reindentable := by
  have hpiece (piece : TriviaPiece) : (piece.crlf σ).text.toList.contains '\t' = piece.text.toList.contains '\t' := by
    rw [TriviaPiece.text_crlf, Text.toList_crlfString, Text.contains_crlf (by decide)]
  rw [reindentable, leading_crlf, Trivia.hasNewline_crlf, Trivia.lastLine_crlf, Trivia.crlf, List.all_map]
  simp only [Function.comp_def, hpiece, TriviaPiece.isMultiline_crlf]
  rfl

@[simp] theorem sourceText_crlf : (t.crlf σ).sourceText = crlfString t.sourceText := by
  simp [sourceText]

@[simp] theorem joinSource_crlf (ts : List Token) :
    joinSource (ts.map (Token.crlf σ)) = crlfString (joinSource ts) := by
  simp [joinSource, Text.crlfString_join, Function.comp_def]

/--
The lexemes of a token with carriage returns in front of the trivia behind it.
-/
def crlfGroup (group : (TokenKind × String × Position) × Trivia) : (TokenKind × String × Position) × Trivia :=
  ((group.1.1, crlfString group.1.2.1, group.1.2.2.crlf σ), Trivia.crlf σ group.2)

theorem groupLexemes_crlf (ls : List Lexeme) :
    groupLexemes (ls.map (Lexeme.crlf σ))
      = (Trivia.crlf σ (groupLexemes ls).1, (groupLexemes ls).2.map (crlfGroup σ)) := by
  induction ls with
  | nil => rfl
  | cons l more ih =>
    rw [List.map_cons, groupLexemes, groupLexemes, ih]
    obtain ⟨kind, text, position⟩ := l
    cases kind <;> rfl

theorem splitTrivia_crlf (trivia : Trivia) (isLast : Bool) :
    splitTrivia (Trivia.crlf σ trivia) isLast
      = (Trivia.crlf σ (splitTrivia trivia isLast).1, Trivia.crlf σ (splitTrivia trivia isLast).2) := by
  unfold splitTrivia
  rw [Trivia.hasNewline_crlf]
  split
  · simp only [Trivia.crlf, List.takeWhile_map, List.dropWhile_map]
    rfl
  · split <;> rfl

theorem attached_crlf (leading : Trivia) (endLine : Option Nat) (group : (TokenKind × String × Position) × Trivia)
    (isLast : Bool) :
    attached (Trivia.crlf σ leading) endLine (crlfGroup σ group) isLast
      = (attached leading endLine group isLast).crlf σ := by
  simp only [attached, crlfGroup, splitTrivia_crlf]
  rfl

theorem attach_crlf (leading : Trivia) (endLine : Option Nat)
    (groups : List ((TokenKind × String × Position) × Trivia)) :
    attach (Trivia.crlf σ leading) endLine (groups.map (crlfGroup σ))
      = ((attach leading endLine groups).1.map (Token.crlf σ), Trivia.crlf σ (attach leading endLine groups).2) := by
  induction groups generalizing leading endLine with
  | nil => rfl
  | cons group groups ih =>
    have htrivia : (crlfGroup σ group).2 = Trivia.crlf σ group.2 := rfl
    rw [List.map_cons, attach_cons, attach_cons, List.isEmpty_map, attached_crlf, endLine_crlf, htrivia,
      splitTrivia_crlf, ih]
    rfl

end Token

namespace TokenStream

/--
The tokens of a text with carriage returns.
-/
def crlf (stream : TokenStream) : TokenStream :=
  ⟨stream.tokens.map (Token.crlf σ), stream.eof.crlf σ⟩

theorem opensWithQuasiQuotes_crlf (text : List Char) :
    opensWithQuasiQuotes (Text.crlf text) = opensWithQuasiQuotes text := by
  unfold opensWithQuasiQuotes
  rw [Text.isPrefixOf_crlf (by decide) (by decide)]
  split
  · next hopen =>
    obtain ⟨rest, rfl⟩ := List.isPrefixOf_iff_prefix.1 hopen
    have hrest : (['\x7b', '-', '#'] ++ rest).drop 3 = rest := rfl
    have hrest' : (Text.crlf (['\x7b', '-', '#'] ++ rest)).drop 3 = Text.crlf rest := rfl
    dsimp only
    rw [hrest, hrest', Text.dropWhile_crlf (by decide)]
    generalize rest.dropWhile Text.isBlank = rest
    have hword {w : List Char} {c : Char} (hc : c.toLower ∉ "language".toList) (h : c ∈ w) :
        (w.map Char.toLower == "language".toList) = false := by
      rw [beq_eq_false_iff_ne]
      exact fun heq => hc (heq ▸ List.mem_map_of_mem h)
    by_cases hline : '\n' ∈ rest.take 8
    · simp only [hword (by decide) hline, hword (by decide) (Text.return_mem_take_crlf hline), Bool.false_and]
    · have hoffset := Text.crlfOffset_eq_self hline
      have htake := Text.take_crlf rest 8
      have hdrop := Text.drop_crlf rest 8
      rw [hoffset] at htake hdrop
      rw [htake, hdrop, Text.crlf_eq_self hline, Text.any_head?_crlf (by decide +kernel),
        Text.takeWhile_crlf (by decide), Text.any_fields_crlf (by decide +kernel) (by decide +kernel) (by decide)]
  · rfl

theorem quasiQuotesEnabled_crlf (text : List Char) : quasiQuotesEnabled (Text.crlf text) = quasiQuotesEnabled text := by
  induction text with
  | nil => rfl
  | cons c cs ih =>
    by_cases hc : c = '\n'
    · subst hc
      have hnone (c : Char) (hc : c ≠ '\x7b') (cs : List Char) : opensWithQuasiQuotes (c :: cs) = false := by
        rw [opensWithQuasiQuotes, if_neg]
        simp [Ne.symm hc]
      rw [Text.crlf_newline, quasiQuotesEnabled, quasiQuotesEnabled, hnone _ (by decide), hnone _ (by decide), ih,
        Bool.false_or, Bool.false_or, quasiQuotesEnabled, hnone _ (by decide), Bool.false_or]
    · rw [Text.crlf_cons hc, quasiQuotesEnabled, quasiQuotesEnabled, ih, ← Text.crlf_cons hc,
        opensWithQuasiQuotes_crlf]

/--
The tokens of a text with carriage returns before its line feeds are those of the text without them.
-/
theorem ofText_crlf {text : List Char} (h : '\r' ∉ text) :
    (ofText (Text.crlf text)).toOption = (ofText text).toOption.map (TokenStream.crlf (crlfOffset text)) := by
  unfold ofText ofTextWith
  rw [quasiQuotesEnabled_crlf, toOption_bind, toOption_bind, Lexeme.ofText_crlf _ h]
  cases (Lexeme.ofText (quasiQuotesEnabled text) text).toOption with
  | none => rfl
  | some ls =>
    have hposition : Position.origin.after (Text.crlf text) = (Position.origin.after text).crlf (crlfOffset text) := by
      have hlength := Text.crlfOffset_length text []
      rw [List.append_nil] at hlength
      exact Position.after_crlf hlength
    simp only [Option.map_some, Option.bind_some, Token.groupLexemes_crlf, Token.attach_crlf, hposition]
    rfl

end TokenStream

end HaskellStyle
