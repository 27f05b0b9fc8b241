import HaskellStyle.Diagnostic
import HaskellStyle.Text.Position

/-!
This module contains the text that is being written, with its length, the current column, the ranges whose
line ends are to be left alone, and the findings made while writing.
-/

namespace HaskellStyle

/--
What has been written. Ranges and findings are kept with the newest first.
-/
structure Output where
  newline : String
  text : String := ""
  size : Nat := 0
  column : Int := 0
  shielded : List (Nat × Nat) := []
  found : List Diagnostic := []

namespace Output

/--
Writes a text. If it is to be shielded and spans lines, its range is kept.
-/
def write (text : String) (shield : Bool) (out : Output) : Output :=
  let cs := text.toList
  { out with
    text := out.text ++ text
    size := out.size + cs.length
    column := Text.visualWidth cs out.column
    shielded :=
      if shield && cs.contains '\n' then
        (out.size, out.size + cs.length) :: out.shielded
      else
        out.shielded }

/--
Writes a text of one line.
-/
def put (text : String) (out : Output) : Output :=
  out.write text false

/--
Ends a line.
-/
def endLine (out : Output) : Output :=
  out.put out.newline

/--
Ends a line if anything has been written.
-/
def endLineIfStarted (out : Output) : Output :=
  if out.size = 0 then out else out.endLine

/--
Writes blanks; a negative number counts as none.
-/
def blanks (count : Int) (out : Output) : Output :=
  out.put (String.ofList (List.replicate count.toNat ' '))

/--
Keeps a finding.
-/
def report (d : Diagnostic) (out : Output) : Output :=
  { out with found := d :: out.found }

end Output

end HaskellStyle
