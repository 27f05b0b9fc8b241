import HaskellStyle.Block.Read

/-!
This module contains the ways to look for tokens outside of brackets and to cut a run of tokens at them.
The number of open brackets is kept as an integer, since a run can have closing brackets that nothing
opened; behind such a bracket nothing is outside until it is made up for.

The functions work on tokens as well as on segments: `view` gives the token that an element is.
-/

namespace HaskellStyle.Outside

variable {α : Type}

/--
Cuts a run at its first token outside of brackets that satisfies `p`, if `depth` brackets are open
before it.
-/
def split? (view : α → Option Token) (p : Token → Bool) (depth : Int) :
    List α → Option (List α × Token × List α)
  | [] => none
  | x :: xs =>
    let keep := fun (before, hit, after) => (x :: before, hit, after)
    match view x with
    | some t =>
      if t.bracketStep = 0 ∧ depth = 0 ∧ p t then
        some ([], t, xs)
      else
        (split? view p (depth + t.bracketStep) xs).map keep
    | none => (split? view p depth xs).map keep

/--
Cuts a run before all its tokens outside of brackets that satisfy `p`: what precedes the first of them,
and each of them with what follows it.
-/
def splitAll (view : α → Option Token) (p : Token → Bool) (depth : Int) :
    List α → List α × List (Token × List α)
  | [] => ([], [])
  | x :: xs =>
    match view x with
    | some t =>
      if t.bracketStep = 0 ∧ depth = 0 ∧ p t then
        let (group, groups) := splitAll view p depth xs
        ([], (t, group) :: groups)
      else
        let (group, groups) := splitAll view p (depth + t.bracketStep) xs
        (x :: group, groups)
    | none =>
      let (group, groups) := splitAll view p depth xs
      (x :: group, groups)

/--
Cuts a run at its first bracket `bracket` that no other bracket encloses.
-/
def splitBracket? (bracket : String) (depth : Int) :
    List Token → Option (List Token × Token × List Token)
  | [] => none
  | t :: ts =>
    if t.isSpecial [bracket] ∧ depth = 0 then
      some ([], t, ts)
    else
      (splitBracket? bracket (depth + t.bracketStep) ts).map
        fun (before, hit, after) => (t :: before, hit, after)

/--
Cuts a run behind the bracket that brings the number of open brackets down to zero.
-/
def splitClose? (depth : Int) : List Token → Option (List Token × List Token)
  | [] => none
  | t :: ts =>
    if t.isClosing ∧ depth = 1 then
      some ([t], ts)
    else
      (splitClose? (depth + t.bracketStep) ts).map fun (before, after) => (t :: before, after)

/--
The tokens of a run outside of brackets, the brackets left out.
-/
def tokens (depth : Int) : List Token → List Token
  | [] => []
  | t :: ts =>
    if t.bracketStep = 0 ∧ depth = 0 then
      t :: tokens depth ts
    else
      tokens (depth + t.bracketStep) ts

end HaskellStyle.Outside
