import HaskellStyle.Print.List

/-!
This module contains the writing of what precedes the declarations of a module: header pragmas, the header
and the imports.
-/

namespace HaskellStyle

/--
The element with the smallest key, the first of several.
-/
def minBy {α : Type} (key : α → Nat) : List α → Option α
  | [] => none
  | x :: xs =>
    match minBy key xs with
    | some y => if key y < key x then some y else some x
    | none => some x

namespace Printer

/--
Writes comment lines, each with a line end behind it.
-/
def linesAbove (out : Output) (lines : List (List TriviaPiece)) : Output :=
  lines.foldl (fun out line => (out.write (Trivia.lineText line) true).endLine) out

/--
Writes a header pragma, language pragmas up to the given width. All but the pragma at `sourceFirst` take
their comment lines along.
-/
def headerPragma (p : Printer) (sourceFirst : Option Nat) (width : Nat) (pragma : Pragma) (out : Output) :
    Output :=
  let out :=
    if some pragma.token.offset = sourceFirst then
      out
    else
      linesAbove out pragma.token.leading.allCommentLines
  let text := if pragma.isLanguage then pragma.languageText width else pragma.flat
  p.trailing pragma.token true (out.write text pragma.token.isMultiline)

/--
Writes a block of header pragmas, the closing delimiters of language pragmas below each other.
-/
def pragmaBlock (p : Printer) (sourceFirst : Option Nat) (block : List Pragma) (out : Output) : Output :=
  let width := ((block.filter (·.isLanguage)).map (·.flatLanguage.length)).foldl max 0
  match block with
  | [] => out
  | pragma :: more =>
    more.foldl (fun out pragma => p.headerPragma sourceFirst width pragma out.endLine)
      (p.headerPragma sourceFirst width pragma out)

/--
Writes blocks of header pragmas with a blank line between them.
-/
def pragmaBlocks (p : Printer) (sourceFirst : Option Nat) (blocks : List (List Pragma)) (out : Output) :
    Output :=
  match blocks with
  | [] => out
  | block :: more =>
    more.foldl (fun out block => p.pragmaBlock sourceFirst block out.endLine.endLine)
      (p.pragmaBlock sourceFirst block out)

/--
Writes header pragmas in normal form, with or without the trivia before the one that comes first in the
source.
-/
def headerPragmas (p : Printer) (pragmas : List Pragma) (withLeading : Bool) (out : Output) : Output :=
  let sourceFirst := minBy (·.token.offset) pragmas
  let out :=
    match sourceFirst with
    | some pragma => if withLeading then p.leading pragma.token out else out
    | none => out
  p.pragmaBlocks (sourceFirst.map (·.token.offset)) (Pragma.blocks pragmas) out

/--
Writes the module header, with or without the trivia before it.
-/
def header (p : Printer) (h : Header) (withLeading : Bool) (out : Output) : Output :=
  match h.exports.bind fun exports => exports.layout.map (exports, ·) with
  | none => p.verbatimWith withLeading (tokens h) out
  | some (exports, layout) =>
    let out := if withLeading then p.leading h.keyword out else out
    let out := out.put (" ".intercalate (h.head.map (·.text)))
    let out :=
      match layout with
      | .singleLine => out.put (" " ++ exports.flat)
      | .multiLine => p.itemList exports (exports.items.map Entry.flat) p.indent out
    p.trailing h.whereKeyword true (out.put (" " ++ h.whereKeyword.text))

/--
Whether an import can be spaced anew without touching its comments.
-/
def isStructured (i : Import) : Bool :=
  Token.cleanInside i.head &&
    match i.list with
    | none => Token.cleanInside (tokens i)
    | some list =>
      (i.tail.isEmpty || Token.cleanInside (list.closing :: i.tail))
        && !i.lastOfHead.trailing.hasComments && list.layout.isSome

/--
Writes an import without the trivia before it.
-/
def importDecl (p : Printer) (i : Import) (out : Output) : Output :=
  if isStructured i then
    let out := out.put (" ".intercalate (i.head.map (·.text)))
    let out :=
      match i.list with
      | none => out
      | some list =>
        if list.layout = some .singleLine || list.items.isEmpty then
          out.put (" " ++ list.flat)
        else
          p.itemList list (list.items.map Entry.flat) p.indent out
    let out := if i.tail.isEmpty then out else out.put (" " ++ Token.flat i.tail)
    p.trailing (lastToken i) true out
  else
    p.verbatimInside (tokens i) out

/--
Writes an import of the normalized import block behind the given number of blank lines.
-/
def importLine (p : Printer) (blankLines : Nat) (i : Import) (out : Output) : Output :=
  let out := (List.replicate blankLines ()).foldl (fun out _ => out.endLine) out
  let out := i.keyword.leading.allCommentLines.foldl
    (fun out line => out.endLineIfStarted.write (Trivia.lineText line) true) out
  p.importDecl i out.endLineIfStarted

/--
Writes a group of imports behind the given number of blank lines.
-/
def importGroup (p : Printer) (blankLines : Nat) (group : List Import) (out : Output) : Output :=
  match group with
  | [] => out
  | i :: more => more.foldl (fun out i => p.importLine 0 i out) (p.importLine blankLines i out)

/--
The blank lines before the import that comes first in the source.
-/
def blankLinesBefore (imports : List Import) : Nat :=
  match minBy (·.keyword.offset) imports with
  | some i => (i.keyword.leading.commentLines.takeWhile (·.isEmpty)).length
  | none => 0

/--
Writes the groups of imports in normal form, with a blank line between them.
-/
def importBlock (p : Printer) (groups : List (List Import)) (out : Output) : Output :=
  match groups with
  | [] => out
  | group :: more =>
    more.foldl (fun out group => p.importGroup 1 group out)
      (p.importGroup (blankLinesBefore groups.flatten) group out)

end Printer

end HaskellStyle
