/-!
This module contains spans: ranges of characters with the line and the column of their start.
-/

namespace HaskellStyle

/--
The characters from `start` up to and without `stop`, with the line and the column of `start`, both
counted from zero.
-/
structure Span where
  start : Nat
  stop : Nat
  line : Int
  column : Int
  start_le_stop : start ≤ stop := by omega
  deriving DecidableEq

namespace Span

/--
The one way in which numbers fail to form a span.
-/
inductive Error where
  | inverted

/--
The wording of a rejected span.
-/
def Error.message : Error → String
  | .inverted => "Invalid span: start must not be after end"

/--
The span with the given ends, if they are in order and not before the text.
-/
def ofInts (start stop line column : Int) : Except Error Span :=
  if h : 0 ≤ start ∧ start ≤ stop then
    .ok ⟨start.toNat, stop.toNat, line, column, by omega⟩
  else
    .error .inverted

/--
The line of the span's start, counted from one.
-/
def lineNumber (s : Span) : Int :=
  s.line + 1

/--
The column of the span's start, counted from one.
-/
def columnNumber (s : Span) : Int :=
  s.column + 1

/--
Whether the character at `offset` belongs to the span.
-/
def contains (s : Span) (offset : Int) : Bool :=
  s.start ≤ offset && offset < s.stop

/--
The smallest span around two spans. It begins where the earlier one does; of two that begin together
the first gives line and column.
-/
def cover (s t : Span) : Span :=
  if h : s.start ≤ t.start then
    ⟨s.start, max s.stop t.stop, s.line, s.column, by have := s.start_le_stop; omega⟩
  else
    ⟨t.start, max s.stop t.stop, t.line, t.column, by have := t.start_le_stop; omega⟩

end Span

end HaskellStyle
