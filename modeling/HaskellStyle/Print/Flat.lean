import HaskellStyle.Module.Basic
import HaskellStyle.Settings.Basic

/-!
This module contains the text of parts on one line, and how a part is cut when it needs several lines.
-/

namespace HaskellStyle

namespace Token

/--
Whether there is trivia between two neighbours.
-/
def hasGap (t next : Token) : Bool :=
  !t.trailing.isEmpty || !next.leading.isEmpty

/--
Tokens on one line behind the token `previous`. A gap becomes one blank, and a blank follows each comma.
-/
def flatRest (previous : Token) : List Token → String
  | [] => ""
  | t :: ts =>
    let blank := if hasGap previous t || previous.isSpecial [","] then " " else ""
    blank ++ t.text ++ flatRest t ts

/--
Tokens on one line.
-/
def flat : List Token → String
  | [] => ""
  | t :: ts => t.text ++ flatRest t ts

/--
Whether no comment stands between tokens and none of them spans lines.
-/
def cleanInside : List Token → Bool
  | [] => true
  | [t] => !t.isMultiline
  | t :: u :: more =>
    !t.isMultiline && !t.trailing.hasComments && !u.leading.hasComments && cleanInside (u :: more)

/--
Whether tokens begin and end on different lines.
-/
def spansLines (ts : List Token) : Bool :=
  match ts.head?, ts.getLast? with
  | some first, some last => first.line ≠ last.endLine
  | _, _ => false

/--
Whether comments stand at tokens.
-/
def haveComments (ts : List Token) : Bool :=
  ts.any fun t => t.leading.hasComments || t.trailing.hasComments

end Token

namespace Trivia

/--
Whether all comments stand on lines of their own and there is no directive. Before a token in the middle
of a line there may be no comment at all.
-/
def ownLineOnly (trivia : Trivia) : Bool :=
  let (first, others) := trivia.splitLines
  !trivia.hasDirective &&
    match others.getLast? with
    | none => !hasComments first
    | some last => !hasComments last

/--
The comments of a line with one blank between them.
-/
def lineText (pieces : List TriviaPiece) : String :=
  " ".intercalate (pieces.map (·.text))

/--
The comment lines of trivia, among them one that begins the text.
-/
def allCommentLines (trivia : Trivia) : List (List TriviaPiece) :=
  let (first, others) := trivia.splitLines
  let opening := if others.isEmpty then [] else [comments first]
  (opening ++ trivia.commentLines).filter fun line => !line.isEmpty

end Trivia

/--
A text with blanks behind it up to the given width.
-/
def padRight (text : String) (width : Nat) : String :=
  text ++ String.ofList (List.replicate (width - text.length) ' ')

/--
A field on one line, with its names padded to the given width.
-/
def Field.flat (f : Field) (nameWidth : Nat) : String :=
  padRight (Token.flat f.names) nameWidth ++ " :: " ++ Token.flat f.type

/--
An entry on one line.
-/
def Entry.flat (e : Entry) : String :=
  Token.flat (tokens e)

/--
An export or import list on one line.
-/
def ItemList.flat (list : ItemList Entry) : String :=
  list.opening.text ++ ", ".intercalate (list.items.map Entry.flat) ++ list.closing.text

/--
A record on one line.
-/
def Record.flat (record : Record) : String :=
  match record.items with
  | [] => "\x7b\x7d"
  | items => "\x7b " ++ ", ".intercalate (items.map (Field.flat · 0)) ++ " \x7d"

/--
A constructor on one line.
-/
def Constructor.flat (c : Constructor) : String :=
  Token.flat c.before
    ++ (match c.record with
      | some record => " " ++ record.flat
      | none => "")
    ++ (if c.after.isEmpty then "" else " " ++ Token.flat c.after)

namespace Deriving

/--
The keyword of a deriving clause with its strategy.
-/
def flatKeyword (d : Deriving) : String :=
  match d.strategy with
  | some strategy => d.keyword.text ++ " " ++ strategy.text
  | none => d.keyword.text

/--
A deriving clause on one line, with its keyword and strategy padded to the given width.
-/
def flat (d : Deriving) (keywordWidth : Nat) : String :=
  let classes := Token.flat d.classes
  let classes := if d.parenthesize && !d.isParenthesized then "(" ++ classes ++ ")" else classes
  padRight d.flatKeyword keywordWidth ++ " " ++ classes
    ++ (if d.via.isEmpty then "" else " " ++ Token.flat d.via)

end Deriving

/--
A signature on one line.
-/
def Signature.flat (s : Signature) : String :=
  Token.flat s.names ++ " :: " ++ Token.flat s.type

namespace DataDecl

/--
The keyword and the head of a data declaration.
-/
def flatHead (d : DataDecl) : String :=
  d.keyword.text ++ " " ++ Token.flat d.head

/--
A data declaration on one line, without its deriving clauses.
-/
def flat (d : DataDecl) : String :=
  d.flatHead ++ " = " ++ " | ".intercalate (d.constructors.map Constructor.flat)

end DataDecl

namespace Pragma

/--
The text of a language pragma up to its closing delimiter.
-/
def flatLanguage (p : Pragma) : String :=
  "\x7b-# " ++ p.words.headD "LANGUAGE" ++ " " ++ ", ".intercalate p.extensions

/--
A language pragma with one blank between its parts, its closing delimiter moved behind the given width.
-/
def languageText (p : Pragma) (width : Nat) : String :=
  padRight p.flatLanguage width ++ " #-\x7d"

/--
A pragma with one blank between its parts. A pragma of several lines is left alone.
-/
def flat (p : Pragma) : String :=
  if p.token.isMultiline then
    p.token.text
  else if p.name == "LANGUAGE" && !p.extensions.isEmpty then
    p.languageText 0
  else
    "\x7b-# " ++ " ".intercalate p.words ++ " #-\x7d"

/--
Whether a pragma lists extensions on one line.
-/
def isLanguage (p : Pragma) : Bool :=
  p.name == "LANGUAGE" && !p.extensions.isEmpty && !p.token.isMultiline

/--
The block of header pragmas that a pragma belongs to: options, extensions, others.
-/
def blockIndex (p : Pragma) : Nat :=
  if ["OPTIONS_GHC", "OPTIONS"].contains p.name then
    0
  else if p.name == "LANGUAGE" then
    1
  else
    2

/--
Header pragmas by blocks, in order.
-/
def blocks (pragmas : List Pragma) : List (List Pragma) :=
  ([0, 1, 2].map fun index => pragmas.filter (·.blockIndex = index)).filter fun block => !block.isEmpty

end Pragma

namespace Rhs

/--
Cuts tokens before those at which `cuts`, given the number of open brackets and the token before, holds:
what precedes the first of them, and the others.
-/
def cutBefore (cuts : Int → Token → Token → Bool) (depth : Int) (previous : Token) :
    List Token → List Token × List (List Token)
  | [] => ([], [])
  | t :: ts =>
    let (group, groups) := cutBefore cuts (depth + t.bracketStep) t ts
    if cuts depth previous t then
      ([], (t :: group) :: groups)
    else
      (t :: group, groups)

/--
The function and the arguments of a call. A term begins outside of brackets behind a gap. Tokens that
begin with a closing bracket are no call.
-/
def terms? : List Token → Option (List (List Token))
  | [] => some []
  | t :: ts =>
    if t.isClosing then
      none
    else
      let cuts := fun (depth : Int) previous t => depth = 0 && Token.hasGap previous t && !t.isClosing
      let (group, groups) := cutBefore cuts t.bracketStep t ts
      some ((t :: group) :: groups)

/--
The parts of an operator chain. A part begins at one of the operators, outside of brackets, behind a gap.
-/
def chunks (operators : List String) : List Token → List (List Token)
  | [] => [[]]
  | t :: ts =>
    let cuts := fun (depth : Int) previous t =>
      depth = 0 && operators.contains t.text && t.isOperator && Token.hasGap previous t
    let (group, groups) := cutBefore cuts t.bracketStep t ts
    (t :: group) :: groups

/--
The operators that bind least and that chains are usually made of.
-/
def chainOperators : List String :=
  ["<$>", "<*>", "<*", "*>", ">>=", "=<<", ">>", "<|>", "$", ".", "<>"]

/--
The operators at which a body is cut: the chain operators outside of its brackets, or all operators there
if there is none.
-/
def cutOperators (body : List Token) : List String :=
  let operators := ((Outside.tokens 0 body).filter (·.isOperator)).map (·.text)
  let chain := operators.filter chainOperators.contains
  if chain.isEmpty then operators else chain

/--
The lines of an operator chain. In an aligned chain the first operator stays on the first line.
-/
def operatorLines (settings : Settings) (body : List Token) : List (List Token) :=
  match chunks (cutOperators body) body with
  | first :: second :: third :: more =>
    if settings.alignment.operatorChains = .aligned then
      (first ++ second) :: third :: more
    else
      first :: second :: third :: more
  | parts => parts

end Rhs

end HaskellStyle
