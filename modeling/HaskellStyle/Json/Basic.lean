/-!
This module contains JSON values. Members of an object keep their order, and a number knows whether it
was written as an integer.
-/

namespace HaskellStyle

/--
A JSON value. The number `decimal m e` is `m * 10 ^ e`, written with a fraction or an exponent.
-/
inductive Json where
  | null
  | bool (value : Bool)
  | int (value : Int)
  | decimal (mantissa : Int) (exponent : Int)
  | str (value : String)
  | arr (elements : List Json)
  | obj (members : List (String × Json))

namespace Json

/--
The value of a member. Of two members with one key the last counts.
-/
def member? (key : String) : Json → Option Json
  | .obj members => members.reverse.lookup key
  | _ => none

/--
The value of a member that is neither missing nor null.
-/
def given? (key : String) (value : Json) : Option Json :=
  match value.member? key with
  | some .null | none => none
  | some present => some present

/--
The text of a string.
-/
def str? : Json → Option String
  | .str value => some value
  | _ => none

/--
The value of an integer.
-/
def int? : Json → Option Int
  | .int value => some value
  | _ => none

/--
The value of a truth value.
-/
def bool? : Json → Option Bool
  | .bool value => some value
  | _ => none

/--
The elements of an array.
-/
def arr? : Json → Option (List Json)
  | .arr elements => some elements
  | _ => none

/--
The value of a number.
-/
def rat? : Json → Option Rat
  | .int value => some value
  | .decimal mantissa exponent =>
    if 0 ≤ exponent then
      some (mantissa * Nat.pow 10 exponent.toNat : Int)
    else
      some (mkRat mantissa (Nat.pow 10 (-exponent).toNat))
  | _ => none

/--
A number with a fraction. A denominator of twos and fives gives the number itself, any other one the number
cut off.
-/
def ofRat (value : Rat) : Json :=
  let places := value.den.log2
  .decimal (value.num * Nat.pow 10 places / value.den) (-places)

end Json

end HaskellStyle
