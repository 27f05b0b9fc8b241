import HaskellStyle.Text.Blank

/-!
This module contains the trimming of lines and of the end of a text. Blanks in shielded ranges, which hold
tokens and comments of several lines, are left alone.
-/

namespace HaskellStyle

/--
What an edit of line ends is for.
-/
inductive LineEditKind where
  | trailingBlanks
  | finalNewline
  deriving DecidableEq

/--
The replacement of the characters between two offsets.
-/
structure LineEdit where
  start : Nat
  stop : Nat
  replacement : List Char
  kind : LineEditKind
  deriving DecidableEq

namespace LineEdit

/--
A text without the characters at its end that satisfy `p`.
-/
def dropEnd (p : Char → Bool) (text : List Char) : List Char :=
  (text.reverse.dropWhile p).reverse

/--
A blank that is trimmed from the end of a line.
-/
def isLineBlank (c : Char) : Bool :=
  c == ' ' || c == '\t'

/--
A character that is trimmed from the end of a text.
-/
def isEndBlank (c : Char) : Bool :=
  isLineBlank c || c == '\r' || c == '\n'

/--
Whether a shielded range meets the characters between two offsets, by a search from the last range that
does not start behind them, down to one that ends before them. The ranges are given from the last to the
first.
-/
def meetsShield (start stop : Nat) : List (Nat × Nat) → Bool
  | [] => false
  | (low, high) :: more =>
    if low < stop ∧ start < high then
      true
    else if high ≤ start then
      false
    else
      meetsShield start stop more

/--
Whether the characters between two offsets meet a range of the ascending list `shielded`.
-/
def isShielded (shielded : List (Nat × Nat)) (start stop : Nat) : Bool :=
  meetsShield start stop (shielded.takeWhile fun range => range.1 ≤ stop).reverse

/--
The edits that trim the blanks at the ends of lines, up to the end of the content. The lines begin at
`offset`.
-/
def trimLines (shielded : List (Nat × Nat)) (contentEnd : Nat) (offset : Nat) :
    List (List Char) → List LineEdit
  | [] => []
  | line :: more =>
    let body := if line.getLast? = some '\r' then line.dropLast else line
    let start := offset + (dropEnd isLineBlank body).length
    let stop := offset + body.length
    let others := trimLines shielded contentEnd (offset + line.length + 1) more
    if start < stop ∧ stop ≤ contentEnd ∧ !isShielded shielded start stop then
      { start, stop, replacement := [], kind := .trailingBlanks } :: others
    else
      others

/--
The edit that makes a text end in exactly one line end, unless it does. A text of blanks becomes empty.
-/
def finalEdits (newline text : List Char) : List LineEdit :=
  let contentEnd := (dropEnd isEndBlank text).length
  let replacement := if contentEnd = 0 then [] else newline
  if text.drop contentEnd = replacement then
    []
  else
    [{ start := contentEnd, stop := text.length, replacement, kind := .finalNewline }]

/--
The order of ranges.
-/
def rangeLe (a b : Nat × Nat) : Bool :=
  a.1 < b.1 || (a.1 == b.1 && a.2 ≤ b.2)

/--
The edits that normalize the line ends of a text. The one at the end of the text comes first.
-/
def ofText (newline text : List Char) (shielded : List (Nat × Nat)) : List LineEdit :=
  let contentEnd := (dropEnd isEndBlank text).length
  finalEdits newline text
    ++ trimLines (shielded.mergeSort rangeLe) contentEnd 0 (Text.fields (· == '\n') text)

/--
Carries out edits, the last one in the text first.
-/
def apply (text : List Char) (edits : List LineEdit) : List Char :=
  (edits.mergeSort fun a b => b.start ≤ a.start).foldl
    (fun text edit => text.take edit.start ++ edit.replacement ++ text.drop edit.stop) text

/--
A text with normalized line ends.
-/
def normalize (newline text : List Char) (shielded : List (Nat × Nat)) : List Char :=
  apply text (ofText newline text shielded)

end LineEdit

end HaskellStyle
