/-!
This module contains differences between texts, written as hunks of lines with context. The lines that two
texts share are found by taking the longest run of lines that they have in common and going on before and
behind it. In long texts, lines that occur too often do not begin such a run.
-/

namespace HaskellStyle.Diff

/--
A character that ends a line.
-/
def isLineEnd (c : Char) : Bool :=
  (10 ≤ c.toNat && c.toNat ≤ 13) || (28 ≤ c.toNat && c.toNat ≤ 30)
    || c.toNat = 0x85 || c.toNat = 0x2028 || c.toNat = 0x2029

/--
The lines of a text with their line ends.
-/
def lines : List Char → List (List Char)
  | [] => []
  | '\r' :: '\n' :: cs => ['\r', '\n'] :: lines cs
  | c :: cs =>
    if isLineEnd c then
      [c] :: lines cs
    else
      match lines cs with
      | line :: more => (c :: line) :: more
      | [] => [[c]]

/--
Two texts by lines. The lines of the second that occur too often are marked.
-/
structure Texts where
  old : Array String
  new : Array String
  popular : Array Bool

/--
The two texts. From 200 lines on, a line of the second is popular if it occurs in more than one of a
hundred lines.
-/
def Texts.ofLines (old new : List String) : Texts where
  old := old.toArray
  new := new.toArray
  popular :=
    let n := new.length
    (new.map fun line => 200 ≤ n && n / 100 + 1 < new.count line).toArray

/--
A run of equal lines: where it begins in both texts, and its length.
-/
structure Run where
  old : Nat
  new : Nat
  size : Nat

/--
The lengths of the common runs that end at a line of the old text and at each line of the new one from
`j` on, given those for the line before, shifted by one.
-/
def nextRow (t : Texts) (line : String) (j : Nat) : List Nat → List Nat
  | [] => []
  | length :: more =>
    let isEqual := t.new[j]? = some line && !t.popular.getD j false
    (if isEqual then length + 1 else 0) :: nextRow t line (j + 1) more

/--
The better of a run and the runs that end at line `i` of the old text and at the lines of the new one from
`j` on. The first one found stays if it is as long.
-/
def bestInRow (i : Nat) (best : Run) (j : Nat) : List Nat → Run
  | [] => best
  | length :: more =>
    let best := if best.size < length then ⟨i + 1 - length, j + 1 - length, length⟩ else best
    bestInRow i best (j + 1) more

/--
The longest run among the lines of the old text from `i` on, `count` of them, and the lines of the new text
from `low` on. `row` has the lengths for the line before `i`.
-/
def longestFrom (t : Texts) (low : Nat) (i : Nat) (row : List Nat) (best : Run) : Nat → Run
  | 0 => best
  | count + 1 =>
    let next := nextRow t (t.old.getD i "") low (0 :: row).dropLast
    longestFrom t low (i + 1) next (bestInRow i best low next) count

/--
Extends a run by equal lines before it.
-/
def extendBack (t : Texts) (oldLow newLow : Nat) (run : Run) : Nat → Run
  | 0 => run
  | fuel + 1 =>
    if oldLow < run.old ∧ newLow < run.new ∧ t.old[run.old - 1]? = t.new[run.new - 1]? then
      extendBack t oldLow newLow ⟨run.old - 1, run.new - 1, run.size + 1⟩ fuel
    else
      run

/--
Extends a run by equal lines behind it.
-/
def extendOn (t : Texts) (oldHigh newHigh : Nat) (run : Run) : Nat → Run
  | 0 => run
  | fuel + 1 =>
    if run.old + run.size < oldHigh ∧ run.new + run.size < newHigh
        ∧ t.old[run.old + run.size]? = t.new[run.new + run.size]? then
      extendOn t oldHigh newHigh ⟨run.old, run.new, run.size + 1⟩ fuel
    else
      run

/--
The longest common run of two ranges of lines.
-/
def longest (t : Texts) (oldLow oldHigh newLow newHigh : Nat) : Run :=
  let row := List.replicate (newHigh - newLow) 0
  let run := longestFrom t newLow oldLow row ⟨oldLow, newLow, 0⟩ (oldHigh - oldLow)
  let run := extendBack t oldLow newLow run (oldHigh - oldLow)
  extendOn t oldHigh newHigh run (oldHigh - oldLow)

/--
The common runs of two ranges of lines, in order.
-/
def runs (t : Texts) (oldLow oldHigh newLow newHigh : Nat) : List Run :=
  let run := longest t oldLow oldHigh newLow newHigh
  if _h : 0 < run.size ∧ oldLow ≤ run.old ∧ run.old + run.size ≤ oldHigh then
    runs t oldLow run.old newLow run.new
      ++ run :: runs t (run.old + run.size) oldHigh (run.new + run.size) newHigh
  else
    []
termination_by oldHigh - oldLow
decreasing_by all_goals simp +zetaDelta only [] at _h ⊢; omega

/--
Joins runs that follow each other directly.
-/
def joinRuns (run : Run) : List Run → List Run
  | [] => if run.size = 0 then [] else [run]
  | next :: more =>
    if run.old + run.size = next.old ∧ run.new + run.size = next.new then
      joinRuns ⟨run.old, run.new, run.size + next.size⟩ more
    else if run.size = 0 then
      joinRuns next more
    else
      run :: joinRuns next more

/--
A step from the old text to the new one: lines of the old text and those that take their place. In a step
with `isEqual` they are the same.
-/
structure Step where
  isEqual : Bool
  oldLow : Nat
  oldHigh : Nat
  newLow : Nat
  newHigh : Nat

/--
The steps between common runs, from the lines `i` and `j` on.
-/
def steps (i j : Nat) : List Run → List Step
  | [] => []
  | run :: more =>
    let change := if i < run.old ∨ j < run.new then [⟨false, i, run.old, j, run.new⟩] else []
    let (i, j) := (run.old + run.size, run.new + run.size)
    let same := if run.size = 0 then [] else [⟨true, run.old, i, run.new, j⟩]
    change ++ same ++ steps i j more

/--
A step with only the last `n` of its lines.
-/
def Step.tail (n : Nat) (s : Step) : Step :=
  { s with oldLow := max s.oldLow (s.oldHigh - n), newLow := max s.newLow (s.newHigh - n) }

/--
A step with only the first `n` of its lines.
-/
def Step.head (n : Nat) (s : Step) : Step :=
  { s with oldHigh := min s.oldHigh (s.oldLow + n), newHigh := min s.newHigh (s.newLow + n) }

/--
Shortens the equal lines at the beginning to the context.
-/
def trimFirst (n : Nat) : List Step → List Step
  | s :: more => (if s.isEqual then s.tail n else s) :: more
  | [] => []

/--
Shortens the equal lines at the end to the context.
-/
def trimLast (n : Nat) : List Step → List Step
  | [] => []
  | [s] => [if s.isEqual then s.head n else s]
  | s :: more => s :: trimLast n more

/--
Cuts steps into hunks where more than twice the context is equal. `hunk` has the steps of the current
hunk, the newest first.
-/
def cutHunks (n : Nat) (hunk : List Step) : List Step → List (List Step)
  | [] =>
    match hunk with
    | [] => []
    | [s] => if s.isEqual then [] else [[s]]
    | steps => [steps.reverse]
  | s :: more =>
    if s.isEqual ∧ 2 * n < s.oldHigh - s.oldLow then
      (s.head n :: hunk).reverse :: cutHunks n [s.tail n] more
    else
      cutHunks n (s :: hunk) more

/--
The hunks of two texts with `n` lines of context.
-/
def hunks (n : Nat) (t : Texts) : List (List Step) :=
  let final : Run := ⟨t.old.size, t.new.size, 0⟩
  let common := joinRuns ⟨0, 0, 0⟩ (runs t 0 t.old.size 0 t.new.size)
  let all := steps 0 0 (common ++ [final])
  let all := if all.isEmpty then [⟨true, 0, 1, 0, 1⟩] else all
  cutHunks n [] (trimLast n (trimFirst n all))

/--
A range of lines in the head of a hunk. The length is left out if it is one.
-/
def rangeText (low high : Nat) : String :=
  let length := high - low
  if length = 1 then
    toString (low + 1)
  else
    s!"{if length = 0 then low else low + 1},{length}"

/--
Some lines of a text with a mark before each.
-/
def markedLines (mark : String) (lines : Array String) (low high : Nat) : List String :=
  ((lines.toList.take high).drop low).map (mark ++ ·)

/--
The lines of a step.
-/
def stepLines (t : Texts) (s : Step) : List String :=
  if s.isEqual then
    markedLines " " t.old s.oldLow s.oldHigh
  else
    markedLines "-" t.old s.oldLow s.oldHigh ++ markedLines "+" t.new s.newLow s.newHigh

/--
The lines of a hunk.
-/
def hunkLines (t : Texts) (hunk : List Step) : List String :=
  match hunk.head?, hunk.getLast? with
  | some first, some last =>
    let old := rangeText first.oldLow last.oldHigh
    let new := rangeText first.newLow last.newHigh
    s!"@@ -{old} +{new} @@\n" :: hunk.flatMap (stepLines t)
  | _, _ => []

/--
The difference of two texts of one file, with `context` equal lines around each change. It is empty if
the texts are equal.
-/
def unified (old new : List Char) (filename : String) (context : Nat) : String :=
  let t := Texts.ofLines ((lines old).map String.ofList) ((lines new).map String.ofList)
  match hunks context t with
  | [] => ""
  | found =>
    let all := s!"--- {filename}\n" :: s!"+++ {filename}\n" :: found.flatMap (hunkLines t)
    String.join (all.map fun line => if line.endsWith "\n" then line else line ++ "\n")

end HaskellStyle.Diff
