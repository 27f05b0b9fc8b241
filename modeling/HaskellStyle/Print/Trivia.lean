import HaskellStyle.Print.Flat
import HaskellStyle.Print.Output

/-!
This module contains the writing of tokens with the trivia around them. Lines with a placement are moved,
line ends become those of the module, and the blanks before a comment behind code are normalized.
-/

namespace HaskellStyle

/--
What writing depends on.
-/
structure Printer where
  settings : Settings
  newline : Newline
  placements : List (Nat × Placement)

namespace Printer

/--
The blanks between code and a comment behind it.
-/
def commentSpacing : Int := 2

/--
The printer for a module.
-/
def ofModule (settings : Settings) (m : Module) : Printer :=
  ⟨settings, m.newline, m.placements⟩

/--
The width of one step of indentation.
-/
def indent (p : Printer) : Int :=
  p.settings.indentWidth

/--
Empty output with the line ends of the module.
-/
def start (p : Printer) : Output :=
  { newline := p.newline.text }

/--
Writes a piece of trivia as it is.
-/
def piece (out : Output) (piece : TriviaPiece) : Output :=
  out.write piece.text piece.isMultiline

/--
Writes the pieces on a line before a token or a comment, moved by `delta` columns. An empty line stays
empty.
-/
def triviaLine (line : List TriviaPiece) (delta : Int) (isTokenLine : Bool) (out : Output) : Output :=
  if (Trivia.lineContent line).isEmpty && !isTokenLine then
    out
  else
    match line with
    | first :: more =>
      if first.kind = .blanks then
        let out :=
          if delta = 0 then
            out.put first.text
          else
            out.blanks (Text.visualWidth first.text.toList 0 + delta)
        more.foldl piece out
      else
        line.foldl piece (out.blanks delta)
    | [] => out.blanks delta

/--
Writes the trivia before a token. A token that goes to a new line takes its comments along to the line
before.
-/
def leading (p : Printer) (t : Token) (out : Output) : Output :=
  let placement := p.placements.lookup t.offset
  match placement with
  | some ⟨column, true⟩ =>
    let out := t.leading.comments.foldl (fun out comment => out.write (" " ++ comment.text) true) out
    out.endLine.blanks column
  | _ =>
    let delta := (placement.map (·.column - t.column)).getD 0
    let (first, others) := t.leading.splitLines
    let out := first.foldl piece out
    match others.getLast? with
    | none => out
    | some last =>
      let out := others.dropLast.foldl (fun out line => triviaLine line delta false out.endLine) out
      triviaLine last delta (!t.isEnd) out.endLine

/--
The pieces of trivia from the first comment to the last, and what precedes them.
-/
def splitComments (trivia : Trivia) : Trivia × Trivia :=
  let gap := trivia.takeWhile (!·.isComment)
  let rest := trivia.dropWhile (!·.isComment)
  (gap, (rest.reverse.dropWhile (!·.isComment)).reverse)

/--
Writes the comments behind a token. Where a part is written anew, `structured`, the blanks before them
are not reported.
-/
def trailing (p : Printer) (t : Token) (structured : Bool) (out : Output) : Output :=
  let (gap, rest) := splitComments t.trailing
  match rest with
  | [] => out
  | comment :: _ =>
    let width := Text.visualWidth (Trivia.text gap).toList out.column - out.column
    let spacing :=
      if structured || !p.settings.preserveCommentAlignment then
        commentSpacing
      else
        max commentSpacing width
    let out :=
      if width ≠ spacing && !structured then
        out.report {
          kind := .endOfLineCommentSpacing
          message := "End-of-line comment needs two spaces before it"
          span := ⟨comment.position.offset, comment.position.offset + comment.text.length,
            comment.position.line, comment.position.column, by omega⟩
        }
      else
        out
    rest.foldl piece (out.blanks spacing)

/--
Writes a token as it is with the comments behind it.
-/
def token (p : Printer) (out : Output) (t : Token) : Output :=
  p.trailing t false (out.write t.text t.isMultiline)

/--
Writes tokens as they are, with the trivia before each of them.
-/
def verbatim (p : Printer) (ts : List Token) (out : Output) : Output :=
  ts.foldl (fun out t => p.token (p.leading t out) t) out

/--
Writes tokens as they are, without the trivia before the first of them.
-/
def verbatimInside (p : Printer) (ts : List Token) (out : Output) : Output :=
  match ts with
  | [] => out
  | t :: more => p.verbatim more (p.token out t)

/--
Writes tokens as they are, with or without the trivia before the first of them.
-/
def verbatimWith (p : Printer) (withLeading : Bool) (ts : List Token) (out : Output) : Output :=
  if withLeading then p.verbatim ts out else p.verbatimInside ts out

/--
Writes a comment line on a new line at the given column.
-/
def commentLine (indent : Int) (out : Output) (line : List TriviaPiece) : Output :=
  (out.endLine.blanks indent).write (Trivia.lineText line) true

/--
Writes the comment lines of trivia at the given column. Blank lines between them become one if they are
kept, and none else; `blank` tells whether one is due.
-/
def commentLinesFrom (indent : Int) (keepBlank blank : Bool) : List (List TriviaPiece) → Output → Output
  | [], out => if blank then out.endLine else out
  | [] :: more, out => commentLinesFrom indent keepBlank keepBlank more out
  | line :: more, out =>
    let out := if blank then out.endLine else out
    commentLinesFrom indent keepBlank false more (commentLine indent out line)

/--
Writes the comment lines of trivia at the given column.
-/
def commentLines (trivia : Trivia) (indent : Int) (keepBlank : Bool) (out : Output) : Output :=
  commentLinesFrom indent keepBlank false trivia.commentLines out

end Printer

end HaskellStyle
