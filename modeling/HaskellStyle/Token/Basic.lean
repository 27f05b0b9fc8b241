import HaskellStyle.Text.Position
import HaskellStyle.Text.Span

/-!
This module contains tokens and the trivia between them. Every character of a source text belongs to
the text of a token or to a piece of trivia: what follows a token on its line, up to the line end, is
its trailing trivia, all else is leading trivia of the next token.
-/

namespace HaskellStyle

/--
The lexical classes of tokens.
-/
inductive TokenKind where
  | varId
  | conId
  | qualifiedVarId
  | qualifiedConId
  | varSym
  | conSym
  | qualifiedVarSym
  | qualifiedConSym
  | reservedId
  | reservedOp
  | integer
  | float
  | char
  | string
  | pragma
  | special
  | quasiQuote
  | tick
  | endOfText
  deriving DecidableEq

/--
The classes of source material without meaning to a compiler's parser.
-/
inductive TriviaKind where
  | blanks
  | newline
  | lineComment
  | blockComment
  | directive
  | byteOrderMark
  deriving DecidableEq

/--
One piece of trivia with its position.
-/
structure TriviaPiece where
  kind : TriviaKind
  text : String
  position : Position
  deriving DecidableEq

namespace TriviaPiece

/--
Comments and preprocessor directives, which have to survive every rearrangement.
-/
def isComment (piece : TriviaPiece) : Bool :=
  match piece.kind with
  | .lineComment | .blockComment | .directive => true
  | .blanks | .newline | .byteOrderMark => false

/--
A piece, other than a line end, that contains a line end.
-/
def isMultiline (piece : TriviaPiece) : Bool :=
  piece.kind ≠ .newline && piece.text.toList.contains '\n'

end TriviaPiece

/--
The trivia on one side of a token.
-/
abbrev Trivia := List TriviaPiece

namespace Trivia

/--
The trivia as written.
-/
def text (trivia : Trivia) : String :=
  String.join (trivia.map (·.text))

/--
Whether a line ends in the trivia.
-/
def hasNewline (trivia : Trivia) : Bool :=
  trivia.any (·.kind = .newline)

/--
The comments and directives of the trivia.
-/
def comments (trivia : Trivia) : List TriviaPiece :=
  trivia.filter (·.isComment)

/--
Whether the trivia has a comment or a directive.
-/
def hasComments (trivia : Trivia) : Bool :=
  trivia.any (·.isComment)

/--
Whether the trivia has a preprocessor directive.
-/
def hasDirective (trivia : Trivia) : Bool :=
  trivia.any (·.kind = .directive)

/--
The pieces before the first line end and the lines after it. The last line is the one on which the
token stands.
-/
def splitLines : Trivia → List TriviaPiece × List (List TriviaPiece)
  | [] => ([], [])
  | piece :: more =>
    let (first, others) := splitLines more
    if piece.kind = .newline then
      ([], first :: others)
    else
      (piece :: first, others)

/--
The lines that begin and end in the trivia.
-/
def wholeLines (trivia : Trivia) : List (List TriviaPiece) :=
  trivia.splitLines.2.dropLast

/--
The pieces behind the last line end, or all of them if there is none.
-/
def lastLine (trivia : Trivia) : List TriviaPiece :=
  let (first, others) := trivia.splitLines
  others.getLast?.getD first

/--
A line's pieces other than blanks.
-/
def lineContent (line : List TriviaPiece) : List TriviaPiece :=
  line.filter (·.kind ≠ .blanks)

/--
The number of empty lines.
-/
def blankLines (trivia : Trivia) : Nat :=
  trivia.wholeLines.countP fun line => (lineContent line).isEmpty

/--
What the whole lines show: nothing on an empty line, else its pieces without blanks.
-/
def commentLines (trivia : Trivia) : List (List TriviaPiece) :=
  trivia.wholeLines.map lineContent

end Trivia

/--
A token with its trivia. No token before it ends on its line if `lineStart` is true.
-/
structure Token where
  kind : TokenKind
  text : String
  position : Position
  leading : Trivia
  trailing : Trivia
  lineStart : Bool
  deriving DecidableEq

namespace Token

/--
The number of characters before the token.
-/
def offset (t : Token) : Nat :=
  t.position.offset

/--
The line on which the token begins.
-/
def line (t : Token) : Nat :=
  t.position.line

/--
The column at which the token begins.
-/
def column (t : Token) : Int :=
  t.position.column

/--
The number of characters before the token's end.
-/
def stop (t : Token) : Nat :=
  t.offset + t.text.length

/--
The characters of the token.
-/
def span (t : Token) : Span :=
  ⟨t.offset, t.stop, t.line, t.column, by simp [stop]⟩

/--
Whether the token goes over a line end.
-/
def isMultiline (t : Token) : Bool :=
  t.text.toList.contains '\n'

/--
The line on which the token ends.
-/
def endLine (t : Token) : Nat :=
  t.line + t.text.toList.count '\n'

/--
Operators that are not reserved.
-/
def isOperator (t : Token) : Bool :=
  match t.kind with
  | .varSym | .conSym | .qualifiedVarSym | .qualifiedConSym => true
  | _ => false

/--
Names of variables and constructors.
-/
def isName (t : Token) : Bool :=
  match t.kind with
  | .varId | .conId | .qualifiedVarId | .qualifiedConId => true
  | _ => false

/--
Whether the token is one of the reserved words `words`.
-/
def isKeyword (t : Token) (words : List String) : Bool :=
  t.kind = .reservedId && words.contains t.text

/--
Whether the token is one of the brackets and separators `marks`.
-/
def isSpecial (t : Token) (marks : List String) : Bool :=
  t.kind = .special && marks.contains t.text

/--
Whether the token is one of the reserved operators `ops`.
-/
def isReservedOp (t : Token) (ops : List String) : Bool :=
  t.kind = .reservedOp && ops.contains t.text

/--
Whether the token ends the text.
-/
def isEnd (t : Token) : Bool :=
  t.kind = .endOfText

/--
Whether the token's line can be moved by changing its indentation: the indentation is plain, follows a
line end, and no comment that spans lines ends on it.
-/
def reindentable (t : Token) : Bool :=
  t.lineStart && t.leading.hasNewline && t.leading.lastLine.all fun piece =>
    !(piece.kind = .blanks && piece.text.toList.contains '\t') && !piece.isMultiline

/--
The token and its trivia as written.
-/
def sourceText (t : Token) : String :=
  t.leading.text ++ t.text ++ t.trailing.text

/--
Tokens and their trivia as written.
-/
def joinSource (tokens : List Token) : String :=
  String.join (tokens.map sourceText)

end Token

end HaskellStyle
