import HaskellStyle.Json.Parse
import HaskellStyle.Pattern.Basic

/-!
This module contains the notation of patterns: characters, `.`, classes in brackets, the anchors `^` and
`$`, groups, alternatives, repetitions and escapes.
-/

namespace HaskellStyle.Pattern

/--
How a part of a pattern may be repeated: an anchor and a repetition may not.
-/
inductive PartKind where
  | plain
  | anchor
  | repetition
  deriving DecidableEq

/--
The class that a letter behind a backslash names.
-/
def namedClass? (c : Char) : Option CharPart :=
  match c with
  | 'w' => some (.named .word false)
  | 'W' => some (.named .word true)
  | 'd' => some (.named .decimal false)
  | 'D' => some (.named .decimal true)
  | 's' => some (.named .blank false)
  | 'S' => some (.named .blank true)
  | _ => none

/--
The character that a letter behind a backslash names. Characters other than letters and digits stand for
themselves.
-/
def escapedChar? (c : Char) : Option Char :=
  match c with
  | 'n' => some '\n'
  | 't' => some '\t'
  | 'r' => some '\r'
  | 'f' => some '\x0c'
  | 'v' => some '\x0b'
  | 'a' => some '\x07'
  | '0' => some '\x00'
  | c => if c.isAlphanum then none else some c

/--
The escape behind a backslash in a class.
-/
def classEscape? (c : Char) : Option CharPart :=
  match namedClass? c with
  | some part => some part
  | none => if c = 'b' then some (.range '\x08' '\x08') else (escapedChar? c).map fun c => .range c c

/--
The first part of a class, as written before a possible dash, and the rest.
-/
def classPart? : List Char → Option (CharPart × List Char)
  | '\\' :: c :: cs => (classEscape? c).map (·, cs)
  | '\\' :: [] => none
  | c :: cs => some (.range c c, cs)
  | [] => none

/--
The range between two single characters in order.
-/
def range? : CharPart → CharPart → Option CharPart
  | .range a _, .range b _ => if a ≤ b then some (.range a b) else none
  | _, _ => none

/--
The parts of a class up to its closing bracket, and the rest. A bracket that comes first is a character.
-/
def classParts? (fuel : Nat) (isFirst : Bool) (cs : List Char) : Option (List CharPart × List Char) :=
  match fuel with
  | 0 => none
  | fuel + 1 =>
    if cs.head? = some ']' ∧ !isFirst then
      some ([], cs.drop 1)
    else do
      let (part, cs) ← classPart? cs
      match cs with
      | '-' :: ']' :: rest => return ([part, .range '-' '-'], rest)
      | '-' :: more =>
        let (last, rest) ← classPart? more
        let range ← range? part last
        let (parts, rest) ← classParts? fuel false rest
        return (range :: parts, rest)
      | _ =>
        let (parts, rest) ← classParts? fuel false cs
        return (part :: parts, rest)

/--
The set behind an opening bracket, and the rest.
-/
def set? (cs : List Char) : Option (CharSet × List Char) :=
  match cs with
  | '^' :: more =>
    (classParts? (more.length + 1) true more).map fun (parts, rest) => (⟨parts, true⟩, rest)
  | _ => (classParts? (cs.length + 1) true cs).map fun (parts, rest) => (⟨parts, false⟩, rest)

/--
The escape behind a backslash, with the kind of its part.
-/
def escape? (c : Char) : Option (Pattern × PartKind) :=
  match namedClass? c with
  | some part => some (.one { parts := [part] }, .plain)
  | none =>
    match c with
    | 'b' => some (.wordEdge false, .anchor)
    | 'B' => some (.wordEdge true, .anchor)
    | 'A' => some (.textStart, .anchor)
    | 'Z' => some (.textEnd, .anchor)
    | c => (escapedChar? c).map fun c => (.one (.single c), .plain)

/--
The bounds in braces behind an opening brace, and the rest.
-/
def bounds? (cs : List Char) : Option (Nat × Option Nat × List Char) :=
  let low := cs.takeWhile Char.isDigit
  let rest := cs.dropWhile Char.isDigit
  match rest with
  | '\x7d' :: after => if low.isEmpty then none else
    some (Json.digitsValue low, some (Json.digitsValue low), after)
  | ',' :: more =>
    let high := more.takeWhile Char.isDigit
    match more.dropWhile Char.isDigit with
    | '\x7d' :: after =>
      some (Json.digitsValue low, if high.isEmpty then none else some (Json.digitsValue high), after)
    | _ => none
  | _ => none

/--
The repetition that a text begins with, if any, and the rest. A mark of preference behind it does not
change what is matched.
-/
def repetition? (cs : List Char) : Option (Nat × Option Nat × List Char) :=
  let bounds :=
    match cs with
    | '*' :: rest => some (0, none, rest)
    | '+' :: rest => some (1, none, rest)
    | '?' :: rest => some (0, some 1, rest)
    | '\x7b' :: more => bounds? more
    | _ => none
  bounds.map fun (least, most, rest) => (least, most, if rest.head? = some '?' then rest.drop 1 else rest)

/--
Puts the parts of a sequence together; the last one comes first.
-/
def sequence (parts : List (Pattern × PartKind)) : Pattern :=
  parts.foldl (fun p (part, _) => if p = .empty then part else .seq part p) .empty

/--
Drops the name of a group up to its closing mark.
-/
def dropName (cs : List Char) : Option (List Char) :=
  let name := cs.takeWhile (· ≠ '>')
  if name.isEmpty || !name.all Text.isWordChar then
    none
  else
    match cs.dropWhile (· ≠ '>') with
    | '>' :: rest => some rest
    | _ => none

mutual

/--
The alternatives up to a closing parenthesis or the end, and the rest.
-/
def alternatives? (fuel : Nat) (cs : List Char) : Option (Pattern × List Char) :=
  match fuel with
  | 0 => none
  | fuel + 1 => do
    let (p, rest) ← parts? fuel [] cs
    match rest with
    | '|' :: more =>
      let (q, rest) ← alternatives? fuel more
      return (.alt p q, rest)
    | _ => return (p, rest)

/--
The sequence up to a bar, a closing parenthesis or the end, behind the parts read before, and the rest.
-/
def parts? (fuel : Nat) (before : List (Pattern × PartKind)) (cs : List Char) :
    Option (Pattern × List Char) :=
  match fuel with
  | 0 => none
  | fuel + 1 =>
    match repetition? cs with
    | some (least, most, rest) =>
      match before with
      | (p, .plain) :: others =>
        if most.all (least ≤ ·) then
          parts? fuel ((.repeated p least most, .repetition) :: others) rest
        else
          none
      | _ => none
    | none =>
      match cs with
      | [] => some (sequence before, [])
      | '|' :: _ | ')' :: _ => some (sequence before, cs)
      | '(' :: more => do
        let (p, rest) ← group? fuel more
        parts? fuel ((p, .plain) :: before) rest
      | '[' :: more => do
        let (set, rest) ← set? more
        parts? fuel ((.one set, .plain) :: before) rest
      | '\\' :: c :: rest => do
        let part ← escape? c
        parts? fuel (part :: before) rest
      | '\\' :: [] => none
      | '.' :: rest => parts? fuel ((.one ⟨[.range '\n' '\n'], true⟩, .plain) :: before) rest
      | '^' :: rest => parts? fuel ((.textStart, .anchor) :: before) rest
      | '$' :: rest => parts? fuel ((.lastLineEnd, .anchor) :: before) rest
      | c :: rest => parts? fuel ((.one (.single c), .plain) :: before) rest

/--
The group behind an opening parenthesis, and the rest.
-/
def group? (fuel : Nat) (cs : List Char) : Option (Pattern × List Char) :=
  match fuel with
  | 0 => none
  | fuel + 1 =>
    let close (f : Pattern → Pattern) (cs : List Char) : Option (Pattern × List Char) := do
      let (p, rest) ← alternatives? fuel cs
      match rest with
      | ')' :: rest => return (f p, rest)
      | _ => none
    match cs with
    | '?' :: ':' :: more => close id more
    | '?' :: '=' :: more => close (.ahead · false) more
    | '?' :: '!' :: more => close (.ahead · true) more
    | '?' :: 'P' :: '<' :: more => (dropName more).bind (close id)
    | '?' :: _ => none
    | _ => close id cs

end

/--
The pattern that a text writes.
-/
def parse? (text : String) : Option Pattern :=
  let cs := text.toList
  match alternatives? (4 * cs.length + 4) cs with
  | some (p, []) => some p
  | _ => none

end HaskellStyle.Pattern
