import HaskellStyle.Print.Declaration
import HaskellStyle.Print.Header
import HaskellStyle.Text.LineEnds
import HaskellStyle.Text.LineIndex

/-!
This module contains the writing of whole modules and of single parts of them.
-/

namespace HaskellStyle

/--
A written module: its text, the findings made while writing, and the shielded ranges of the text before
its line ends were trimmed.
-/
structure Rendering where
  text : List Char
  found : List Diagnostic
  shielded : List (Nat × Nat)

namespace Printer

/--
Writes the parts of a module one after the other.
-/
def moduleParts (p : Printer) (m : Module) (out : Output) : Output :=
  let out :=
    if m.pragmasNormalized then
      p.headerPragmas m.headerPragmas true out
    else
      p.verbatim (m.headerPragmas.map (·.token)) out
  let out :=
    match m.header with
    | some h => p.header h true out
    | none => out
  let out :=
    if m.importsNormalized then
      p.importBlock m.imports out
    else
      p.verbatim (m.importDecls.flatMap tokens) out
  let out := m.declarations.foldl (fun out d => p.declaration d true out) out
  p.leading m.eof out

/--
The text of a header without the trivia before it.
-/
def headerText (p : Printer) (h : Header) : String :=
  (p.header h false p.start).text

/--
The text of a declaration without the trivia before it.
-/
def declarationText (p : Printer) (d : Declaration) : String :=
  (p.declaration d false p.start).text

end Printer

/--
The lines of a text that are too long.
-/
def longLines (settings : Settings) (text : List Char) : List Diagnostic :=
  if settings.checkEnabled DiagnosticKind.longLine.check then
    let index := LineIndex.ofText text
    index.lines.filterMap fun (_, start, line) =>
      let width := Text.visualWidth line 0
      if settings.maxLineLength < width then
        some {
          kind := .longLine
          message := s!"Line is {width} columns long (maximum {settings.maxLineLength})"
          span := index.spanFrom start line.length
        }
      else
        none
  else
    []

/--
Writes a module.
-/
def Module.render (settings : Settings) (m : Module) : Rendering :=
  let p := Printer.ofModule settings m
  let out := p.moduleParts m p.start
  let shielded := out.shielded.reverse
  let text := LineEdit.normalize m.newline.text.toList out.text.toList shielded
  { text, shielded, found := out.found.reverse ++ longLines settings text }

end HaskellStyle
