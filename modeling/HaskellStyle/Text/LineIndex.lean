import HaskellStyle.Text.Blank
import HaskellStyle.Text.Position
import HaskellStyle.Text.Span

/-!
This module contains the index of the lines of a text, which finds the line and the column of a
character by a search among the starts of the lines. Lines end at line feeds only.
-/

namespace HaskellStyle

namespace Text

/--
The part of `xs` between two places. A negative place counts from the end, and places beyond the ends
are moved to them.
-/
def slice (xs : List α) (start stop : Int) : List α :=
  let place (i : Int) : Nat := (if i < 0 then i + xs.length else i).toNat
  (xs.drop (place start)).take (place stop - place start)

/--
How many entries of the ascending array `starts` between `lo` and `hi` are at most `offset`, by
bisection, plus `lo`.
-/
def bisect (starts : Array Nat) (offset : Int) (lo hi : Nat) : Nat :=
  if h : lo < hi then
    let mid := (lo + hi) / 2
    if offset < starts.getD mid 0 then
      bisect starts offset lo mid
    else
      bisect starts offset (mid + 1) hi
  else
    lo
termination_by hi - lo

end Text

/--
A text with the offsets at which its lines start.
-/
structure LineIndex where
  text : List Char
  starts : Array Nat

namespace LineIndex

/--
The offsets behind the line feeds of a text that begins at `offset`.
-/
def lineStarts (offset : Nat) : List Char → List Nat
  | [] => []
  | c :: cs =>
    if c = '\n' then
      (offset + 1) :: lineStarts (offset + 1) cs
    else
      lineStarts (offset + 1) cs

/--
The index of a text. Its first line starts at the beginning.
-/
def ofText (text : List Char) : LineIndex :=
  ⟨text, (0 :: lineStarts 0 text).toArray⟩

/--
The number of lines; behind a final line feed there is one more, empty line.
-/
def lineCount (index : LineIndex) : Nat :=
  index.starts.size

/--
The line of an offset, counted from zero. Before the text there is no line, which gives `-1`.
-/
def lineOf (index : LineIndex) (offset : Int) : Int :=
  (Text.bisect index.starts offset 0 index.starts.size : Int) - 1

/--
Where line number `line` starts; `-1` stands for the last line.
-/
def startOf (index : LineIndex) (line : Int) : Nat :=
  index.starts.getD (if line < 0 then line + index.starts.size else line).toNat 0

/--
The line and the column of an offset. Offsets may lie outside of the text: a negative one counts from
its end.
-/
def lineColumn (index : LineIndex) (offset : Int) : Int × Int :=
  let line := index.lineOf offset
  (line, Text.visualWidth (Text.slice index.text (index.startOf line) offset) 0)

/--
The position of an offset inside of the text.
-/
def position (index : LineIndex) (offset : Nat) : Position :=
  let (line, column) := index.lineColumn offset
  ⟨offset, line.toNat, column⟩

/--
The span of `length` characters from `start` on.
-/
def spanFrom (index : LineIndex) (start length : Nat) : Span :=
  let (line, column) := index.lineColumn start
  ⟨start, start + length, line, column, by omega⟩

/--
The span between two offsets, if they are in order.
-/
def span (index : LineIndex) (start stop : Int) : Except Span.Error Span :=
  let (line, column) := index.lineColumn start
  Span.ofInts start stop line column

/--
A line without the carriage return that can precede its line feed.
-/
def withoutReturn (line : List Char) : List Char :=
  if line.getLast? = some '\r' then line.dropLast else line

/--
The lines of the index: number, start and text without the line end.
-/
def lines (index : LineIndex) : List (Nat × Nat × List Char) :=
  (index.starts.toList.zip (Text.fields (· == '\n') index.text)).mapIdx fun number (start, line) =>
    (number, start, withoutReturn line)

end LineIndex

end HaskellStyle
