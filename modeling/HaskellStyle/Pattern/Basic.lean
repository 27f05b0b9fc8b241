import HaskellStyle.Text.Blank
import HaskellStyle.Text.Letter

/-!
This module contains patterns for names and what they match. A pattern is matched from a place in a text by
computing all places at which the match can end, by recursion on the pattern.
-/

namespace HaskellStyle

/--
Classes of characters with a name of their own.
-/
inductive CharClass where
  | word
  | decimal
  | blank
  deriving DecidableEq

/--
A part of a set of characters: a range, or a class or its complement.
-/
inductive CharPart where
  | range (first last : Char)
  | named (cls : CharClass) (negated : Bool)
  deriving DecidableEq

/--
A set of characters, or its complement.
-/
structure CharSet where
  parts : List CharPart
  negated : Bool := false
  deriving DecidableEq

/--
A pattern: one character of a set, a place in the text, or a combination of patterns. `repeated p n m` is
`p` at least `n` times and, if `m` is given, at most `m` times.
-/
inductive Pattern where
  | empty
  | one (set : CharSet)
  | textStart
  | textEnd
  | lastLineEnd
  | wordEdge (negated : Bool)
  | seq (a b : Pattern)
  | alt (a b : Pattern)
  | repeated (p : Pattern) (least : Nat) (most : Option Nat)
  | ahead (p : Pattern) (negated : Bool)
  deriving DecidableEq

/--
The characters of a class.
-/
def CharClass.contains : CharClass → Char → Bool
  | .word, c => Text.isWordChar c
  | .decimal, c => Text.isDecimal c
  | .blank, c => Text.isBlank c

/--
The characters of a part.
-/
def CharPart.contains : CharPart → Char → Bool
  | .range first last, c => first ≤ c && c ≤ last
  | .named cls negated, c => cls.contains c != negated

/--
The characters of a set.
-/
def CharSet.contains (set : CharSet) (c : Char) : Bool :=
  set.parts.any (·.contains c) != set.negated

/--
The set of one character.
-/
def CharSet.single (c : Char) : CharSet :=
  { parts := [.range c c] }

namespace Pattern

/--
Follows steps from places, `count` times.
-/
def iterate (step : Nat → List Nat) : Nat → List Nat → List Nat
  | 0, places => places
  | count + 1, places => iterate step count (places.flatMap step).eraseDups

/--
Follows steps from places, at most `count` times, and keeps all places on the way.
-/
def reach (step : Nat → List Nat) : Nat → List Nat → List Nat
  | 0, places => places
  | count + 1, places => places ++ reach step count (places.flatMap step).eraseDups

/--
The places at which a match that begins at `place` can end. In a text of `n` characters more than `n + 1`
repetitions reach nothing new.
-/
def ends (text : Array Char) : Pattern → Nat → List Nat
  | .empty, place => [place]
  | .one set, place => if text[place]?.any set.contains then [place + 1] else []
  | .textStart, place => if place = 0 then [place] else []
  | .textEnd, place => if place = text.size then [place] else []
  | .lastLineEnd, place =>
    if place = text.size ∨ (place + 1 = text.size ∧ text[place]? = some '\n') then [place] else []
  | .wordEdge negated, place =>
    let before := 0 < place && text[place - 1]?.any Text.isWordChar
    let after := text[place]?.any Text.isWordChar
    if (before != after) != negated then [place] else []
  | .seq a b, place => ((ends text a place).flatMap (ends text b)).eraseDups
  | .alt a b, place => (ends text a place ++ ends text b place).eraseDups
  | .repeated p least most, place =>
    let limit := text.size + 1
    let further := (most.map fun most => min (most - least) limit).getD limit
    (reach (ends text p) further (iterate (ends text p) (min least limit) [place])).eraseDups
  | .ahead p negated, place => if (ends text p place).isEmpty = negated then [place] else []

/--
Whether a pattern matches a beginning of a text.
-/
def isMatch (p : Pattern) (text : String) : Bool :=
  !(p.ends text.toList.toArray 0).isEmpty

end Pattern

end HaskellStyle
