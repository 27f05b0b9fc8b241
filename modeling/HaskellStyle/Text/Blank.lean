import HaskellStyle.Text.CharRange

/-!
This module contains the blank characters and the ways to trim and to cut a text at them.
-/

namespace HaskellStyle.Text

/--
The blank characters above ASCII.
-/
def blankRanges : List (Nat × Nat) :=
  [(0x85, 0x85), (0xA0, 0xA0), (0x1680, 0x1680), (0x2000, 0x200A), (0x2028, 0x2029),
   (0x202F, 0x202F), (0x205F, 0x205F), (0x3000, 0x3000)]

/--
A character that shows as empty room: the blanks of every script, the line ends and the ASCII
separators.
-/
def isBlank (c : Char) : Bool :=
  if isAscii c then
    (9 ≤ c.toNat && c.toNat ≤ 13) || (28 ≤ c.toNat && c.toNat ≤ 32)
  else
    inRanges blankRanges c

/--
A text without the blanks around it.
-/
def trimBlanks (text : List Char) : List Char :=
  ((text.dropWhile isBlank).reverse.dropWhile isBlank).reverse

/--
The pieces of a text between the characters that satisfy `p`, empty pieces included.
-/
def fields (p : Char → Bool) : List Char → List (List Char)
  | [] => [[]]
  | c :: cs =>
    if p c then
      [] :: fields p cs
    else
      match fields p cs with
      | [] => [[c]]
      | field :: more => (c :: field) :: more

/--
The words of a text: its longest runs without a blank.
-/
def words (text : List Char) : List (List Char) :=
  (fields isBlank text).filter fun word => !word.isEmpty

end HaskellStyle.Text
