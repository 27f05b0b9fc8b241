/-!
This module contains membership in ranges of code points, from which the character classes are
built.
-/

namespace HaskellStyle.Text

/--
A character of the ASCII part of Unicode.
-/
def isAscii (c : Char) : Bool :=
  c.toNat < 128

/--
Whether `c` lies in one of the ranges, both ends included.
-/
def inRanges (ranges : List (Nat × Nat)) (c : Char) : Bool :=
  ranges.any fun (first, last) => first ≤ c.toNat && c.toNat ≤ last

/--
Whether `c` is one of `first`, `first + distance`, `first + 2 * distance`, … up to `last`.
-/
def inSteppedRange (first last distance : Nat) (c : Char) : Bool :=
  first ≤ c.toNat && c.toNat ≤ last && (c.toNat - first) % distance == 0

/--
Whether `c` lies in one of the stepped ranges.
-/
def inSteppedRanges (ranges : List (Nat × Nat × Nat)) (c : Char) : Bool :=
  ranges.any fun (first, last, distance) => inSteppedRange first last distance c

end HaskellStyle.Text
