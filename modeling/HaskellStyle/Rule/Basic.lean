import HaskellStyle.Module.Outline
import HaskellStyle.Print.Module

/-!
This module contains what the rules have in common: the notes that they take and the results that they give.
-/

namespace HaskellStyle

/--
The rules, in the order in which they are applied.
-/
inductive Rule where
  | indentation
  | alignment
  | importOrder
  | pragmaPlacement
  | strictnessDeriving
  | naming
  deriving DecidableEq

namespace Rule

/--
All rules in order.
-/
def all : List Rule :=
  [.indentation, .alignment, .importOrder, .pragmaPlacement, .strictnessDeriving, .naming]

/--
The names of rules in reports.
-/
def name : Rule → String
  | .indentation => "indentation"
  | .alignment => "alignment"
  | .importOrder => "import-order"
  | .pragmaPlacement => "pragma-placement"
  | .strictnessDeriving => "strictness-deriving"
  | .naming => "naming"

/--
The rule with the given name.
-/
def ofName? (s : String) : Option Rule :=
  all.find? (·.name == s)

end Rule

/--
What makes a rule fail: a long equation whose right-hand side begins with a closing bracket, or a pattern
for names that is no pattern.
-/
inductive RuleError where
  | unopenedBracket
  | invalidPattern
  deriving DecidableEq

namespace RuleError

/--
The rule that fails.
-/
def rule : RuleError → Rule
  | .unopenedBracket => .alignment
  | .invalidPattern => .naming

/--
The kind of declaration at which a rule fails.
-/
def nodeKind : RuleError → Option NodeKind
  | .unopenedBracket => some .functionClause
  | .invalidPattern => none

/--
The wording of a failure.
-/
def message (e : RuleError) : String :=
  let cause :=
    match e with
    | .unopenedBracket => "list index out of range"
    | .invalidPattern => "invalid pattern"
  s!"{e.rule.name} pass failed: {cause}"

end RuleError

/--
What a rule notes: findings in the order in which they were made, the names of the fixes that it made, and
how often it made them.
-/
structure Notes where
  found : List Diagnostic := []
  fixes : List String := []
  counts : List (String × Nat) := []

namespace Notes

/--
Notes a finding if its check is on.
-/
def report (settings : Settings) (d : Diagnostic) (notes : Notes) : Notes :=
  if settings.reports d then { notes with found := notes.found ++ [d] } else notes

/--
Adds to a counter.
-/
def addCount (key : String) (amount : Nat) : List (String × Nat) → List (String × Nat)
  | [] => [(key, amount)]
  | (k, n) :: more => if k == key then (k, n + amount) :: more else (k, n) :: addCount key amount more

/--
Counts something.
-/
def count (key : String) (amount : Nat) (notes : Notes) : Notes :=
  { notes with counts := addCount key amount notes.counts }

/--
Notes a fix.
-/
def fixed (settings : Settings) (fix : String) (d : Diagnostic) (notes : Notes) : Notes :=
  let fixes := if notes.fixes.contains fix then notes.fixes else notes.fixes ++ [fix]
  ({ notes with fixes } : Notes).count fix 1 |>.report settings d

/--
Whether a finding was noted that the formatter mends.
-/
def hasChanges (notes : Notes) : Bool :=
  notes.found.any (·.isMechanical)

end Notes

/--
What a rule makes of a module. A module that is `kept` is the one that was given.
-/
structure RuleResult where
  module : Module
  kept : Bool
  notes : Notes

/--
The text of tokens up to the last comment behind them.
-/
def Token.sourceThroughComments (ts : List Token) : String :=
  match ts.getLast? with
  | some last =>
    let behind := (last.trailing.reverse.dropWhile (!·.isComment)).reverse
    Token.textBetween ts ++ Trivia.text behind
  | none => ""

/--
Whether a part is written differently than before, given its tokens and its texts before and after.
A text that is the source itself is no change.
-/
def rewritesSource (before : List Token) (oldText newText : String) : Bool :=
  newText != oldText && newText != Token.sourceThroughComments before

end HaskellStyle
