import HaskellStyle.Json.Basic

/-!
This module contains the reading of JSON texts.
-/

namespace HaskellStyle.Json

/--
A character that may stand between the parts of a JSON text.
-/
def isBlank (c : Char) : Bool :=
  c == ' ' || c == '\t' || c == '\n' || c == '\r'

/--
A text without the blanks it begins with.
-/
def skipBlanks (cs : List Char) : List Char :=
  cs.dropWhile isBlank

/--
The value of a hexadecimal digit.
-/
def hexDigit? (c : Char) : Option Nat :=
  if c.isDigit then
    some (c.toNat - '0'.toNat)
  else if 'a' ≤ c ∧ c ≤ 'f' then
    some (c.toNat - 'a'.toNat + 10)
  else if 'A' ≤ c ∧ c ≤ 'F' then
    some (c.toNat - 'A'.toNat + 10)
  else
    none

/--
The value of four hexadecimal digits.
-/
def hexQuad? (a b c d : Char) : Option Nat := do
  return (((← hexDigit? a) * 16 + (← hexDigit? b)) * 16 + (← hexDigit? c)) * 16 + (← hexDigit? d)

/--
The character that a letter behind a backslash stands for.
-/
def escape? (c : Char) : Option Char :=
  match c with
  | '"' => some '"'
  | '\\' => some '\\'
  | '/' => some '/'
  | 'b' => some '\x08'
  | 'f' => some '\x0c'
  | 'n' => some '\n'
  | 'r' => some '\r'
  | 't' => some '\t'
  | _ => none

/--
The rest of a string behind its opening quote, and what follows its closing quote. `high` is the first
half of a surrogate pair, if the second has to come next.
-/
def string? (high : Option Nat) : List Char → Option (List Char × List Char)
  | '\\' :: 'u' :: a :: b :: c :: d :: cs => do
    let unit ← hexQuad? a b c d
    match high with
    | some first =>
      if 0xDC00 ≤ unit ∧ unit ≤ 0xDFFF then
        let (text, rest) ← string? none cs
        return (Char.ofNat (0x10000 + (first - 0xD800) * 0x400 + (unit - 0xDC00)) :: text, rest)
      else
        none
    | none =>
      if 0xD800 ≤ unit ∧ unit ≤ 0xDBFF then
        string? (some unit) cs
      else if 0xDC00 ≤ unit ∧ unit ≤ 0xDFFF then
        none
      else
        let (text, rest) ← string? none cs
        return (Char.ofNat unit :: text, rest)
  | '\\' :: c :: cs =>
    if high.isSome then
      none
    else do
      let escaped ← escape? c
      let (text, rest) ← string? none cs
      return (escaped :: text, rest)
  | c :: cs =>
    if high.isSome ∨ c.toNat < 32 ∨ c = '\\' then
      none
    else if c = '"' then
      some ([], cs)
    else do
      let (text, rest) ← string? none cs
      return (c :: text, rest)
  | [] => none

/--
The value of a run of decimal digits.
-/
def digitsValue (digits : List Char) : Nat :=
  digits.foldl (fun value c => value * 10 + (c.toNat - '0'.toNat)) 0

/--
The digits that a text begins with, at least one, and the rest.
-/
def digits? (cs : List Char) : Option (List Char × List Char) :=
  let digits := cs.takeWhile Char.isDigit
  if digits.isEmpty then none else some (digits, cs.dropWhile Char.isDigit)

/--
The exponent that a text begins with, if any, and the rest.
-/
def exponent? (cs : List Char) : Option (Option Int × List Char) :=
  match cs with
  | e :: more =>
    if e = 'e' ∨ e = 'E' then
      match more with
      | '-' :: more => (digits? more).map fun (digits, rest) => (some (-digitsValue digits), rest)
      | '+' :: more => (digits? more).map fun (digits, rest) => (some (digitsValue digits), rest)
      | _ => (digits? more).map fun (digits, rest) => (some (digitsValue digits), rest)
    else
      some (none, cs)
  | [] => some (none, cs)

/--
The number that a text begins with, and the rest. A whole part of several digits does not begin with
zero.
-/
def number? (cs : List Char) : Option (Json × List Char) := do
  let (sign, cs) := if cs.head? = some '-' then ((-1 : Int), cs.drop 1) else (1, cs)
  let (whole, cs) ← digits? cs
  if whole.head? = some '0' ∧ 1 < whole.length then
    none
  else
    let (fraction, cs) ←
      if cs.head? = some '.' then
        (digits? (cs.drop 1)).map fun (digits, rest) => (some digits, rest)
      else
        some (none, cs)
    let (exponent, cs) ← exponent? cs
    match fraction, exponent with
    | none, none => return (.int (sign * digitsValue whole), cs)
    | _, _ =>
      let places := fraction.getD []
      let mantissa := sign * digitsValue (whole ++ places)
      return (.decimal mantissa (exponent.getD 0 - places.length), cs)

/--
A literal word that a text begins with, and the rest.
-/
def literal? (word : List Char) (value : Json) (cs : List Char) : Option (Json × List Char) :=
  if word.isPrefixOf cs then some (value, cs.drop word.length) else none

mutual

/--
The value that a text begins with, and the rest. The fuel bounds the number of characters read.
-/
def value? (fuel : Nat) (cs : List Char) : Option (Json × List Char) :=
  match fuel with
  | 0 => none
  | fuel + 1 =>
    match skipBlanks cs with
    | '\x7b' :: cs =>
      match skipBlanks cs with
      | '\x7d' :: rest => some (.obj [], rest)
      | cs => (members? fuel cs).map fun (members, rest) => (.obj members, rest)
    | '[' :: cs =>
      match skipBlanks cs with
      | ']' :: rest => some (.arr [], rest)
      | cs => (elements? fuel cs).map fun (elements, rest) => (.arr elements, rest)
    | '"' :: cs => (string? none cs).map fun (text, rest) => (.str (String.ofList text), rest)
    | 't' :: cs => literal? "rue".toList (.bool true) cs
    | 'f' :: cs => literal? "alse".toList (.bool false) cs
    | 'n' :: cs => literal? "ull".toList .null cs
    | cs => number? cs

/--
The elements up to the closing bracket of an array.
-/
def elements? (fuel : Nat) (cs : List Char) : Option (List Json × List Char) :=
  match fuel with
  | 0 => none
  | fuel + 1 => do
    let (value, cs) ← value? fuel cs
    match skipBlanks cs with
    | ']' :: rest => return ([value], rest)
    | ',' :: cs =>
      let (values, rest) ← elements? fuel cs
      return (value :: values, rest)
    | _ => none

/--
The members up to the closing brace of an object.
-/
def members? (fuel : Nat) (cs : List Char) : Option (List (String × Json) × List Char) :=
  match fuel with
  | 0 => none
  | fuel + 1 =>
    match skipBlanks cs with
    | '"' :: cs => do
      let (key, cs) ← string? none cs
      match skipBlanks cs with
      | ':' :: cs =>
        let (value, cs) ← value? fuel cs
        match skipBlanks cs with
        | '\x7d' :: rest => return ([(String.ofList key, value)], rest)
        | ',' :: cs =>
          let (members, rest) ← members? fuel cs
          return ((String.ofList key, value) :: members, rest)
        | _ => none
      | _ => none
    | _ => none

end

/--
The value of a whole JSON text.
-/
def parse? (text : String) : Option Json :=
  let cs := text.toList
  match value? (cs.length + 1) cs with
  | some (value, rest) => if (skipBlanks rest).isEmpty then some value else none
  | none => none

end HaskellStyle.Json
