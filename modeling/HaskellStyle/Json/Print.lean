import HaskellStyle.Json.Basic

/-!
This module contains the writing of JSON values on one line: a blank follows each comma and each colon,
and only quotes, backslashes and control characters are escaped.
-/

namespace HaskellStyle.Json

/--
A hexadecimal digit.
-/
def hexDigit (n : Nat) : Char :=
  if n < 10 then Char.ofNat (n + '0'.toNat) else Char.ofNat (n - 10 + 'a'.toNat)

/--
How a character is written in a string.
-/
def escape (c : Char) : List Char :=
  match c with
  | '"' => ['\\', '"']
  | '\\' => ['\\', '\\']
  | '\n' => ['\\', 'n']
  | '\r' => ['\\', 'r']
  | '\t' => ['\\', 't']
  | '\x08' => ['\\', 'b']
  | '\x0c' => ['\\', 'f']
  | c =>
    if c.toNat < 32 then
      ['\\', 'u', '0', '0', hexDigit (c.toNat / 16), hexDigit (c.toNat % 16)]
    else
      [c]

/--
A string in quotes.
-/
def quote (text : String) : String :=
  String.ofList ('"' :: text.toList.flatMap escape ++ ['"'])

/--
A decimal without needless zeros, but with at least one place.
-/
def printDecimal (mantissa exponent : Int) : String :=
  let sign := if mantissa < 0 then "-" else ""
  let digits := Nat.toDigits 10 mantissa.natAbs ++ List.replicate exponent.toNat '0'
  let places := (-exponent).toNat
  let padded := List.replicate (places + 1 - digits.length) '0' ++ digits
  let whole := padded.take (padded.length - places)
  let fraction := ((padded.drop (padded.length - places)).reverse.dropWhile (· == '0')).reverse
  sign ++ String.ofList whole ++ "." ++ (if fraction.isEmpty then "0" else String.ofList fraction)

mutual

/--
A value on one line.
-/
def print : Json → String
  | .null => "null"
  | .bool true => "true"
  | .bool false => "false"
  | .int value => toString value
  | .decimal mantissa exponent => printDecimal mantissa exponent
  | .str value => quote value
  | .arr elements => "[" ++ ", ".intercalate (printElements elements) ++ "]"
  | .obj members => "\x7b" ++ ", ".intercalate (printMembers members) ++ "\x7d"

/--
The elements of an array, each on its own.
-/
def printElements : List Json → List String
  | [] => []
  | value :: more => print value :: printElements more

/--
The members of an object, each on its own.
-/
def printMembers : List (String × Json) → List String
  | [] => []
  | (key, value) :: more => (quote key ++ ": " ++ print value) :: printMembers more

end

end HaskellStyle.Json
