import HaskellStyle.Json.Print
import HaskellStyle.Text.Printable

/-!
This module contains texts in quotes, as messages about files show names. Single quotes are used unless the
text has single quotes only; what cannot be printed is written as an escape.
-/

namespace HaskellStyle.Text

/--
A number in hexadecimal digits, the last ones first.
-/
def hexDigitsReversed : Nat → Nat → List Char
  | 0, _ => []
  | width + 1, n => Json.hexDigit (n % 16) :: hexDigitsReversed width (n / 16)

/--
A number as hexadecimal digits of a fixed count.
-/
def hexDigits (width n : Nat) : List Char :=
  (hexDigitsReversed width n).reverse

/--
How a character is written between quotes.
-/
def quotedChar (quote c : Char) : List Char :=
  if c == quote || c == '\\' then
    ['\\', c]
  else if c == '\n' then
    ['\\', 'n']
  else if c == '\r' then
    ['\\', 'r']
  else if c == '\t' then
    ['\\', 't']
  else if isPrintable c then
    [c]
  else if c.toNat < 0x100 then
    '\\' :: 'x' :: hexDigits 2 c.toNat
  else if c.toNat < 0x10000 then
    '\\' :: 'u' :: hexDigits 4 c.toNat
  else
    '\\' :: 'U' :: hexDigits 8 c.toNat

/--
A text in quotes.
-/
def quoted (text : String) : String :=
  let cs := text.toList
  let quote := if cs.contains '\'' && !cs.contains '"' then '"' else '\''
  String.ofList (quote :: cs.flatMap (quotedChar quote) ++ [quote])

end HaskellStyle.Text
