import HaskellStyle.Rule.Align
import HaskellStyle.Rule.Deriving
import HaskellStyle.Rule.ImportOrder
import HaskellStyle.Rule.Indent
import HaskellStyle.Rule.Names
import HaskellStyle.Rule.PragmaOrder

/-!
This module contains the application of rules one after the other.
-/

namespace HaskellStyle

namespace Rule

/--
Applies a rule to a module.
-/
def apply (settings : Settings) (m : Module) : Rule → Except RuleError RuleResult
  | .indentation => .ok (Indent.apply settings m)
  | .alignment => Align.apply settings m
  | .importOrder => .ok (ImportOrder.apply settings m)
  | .pragmaPlacement => .ok (PragmaOrder.apply settings m)
  | .strictnessDeriving => .ok (DerivingFormat.apply settings m)
  | .naming => Names.apply settings m

/--
Applies rules one after the other: the results up to the first rule that fails, and its failure.
-/
def applyAll (settings : Settings) (m : Module) : List Rule → List (Rule × RuleResult) × Option RuleError
  | [] => ([], none)
  | rule :: more =>
    match rule.apply settings m with
    | .error e => ([], some e)
    | .ok result =>
      let (others, failure) := applyAll settings result.module more
      ((rule, result) :: others, failure)

end Rule

/--
What all rules make of a module.
-/
structure RuledModule where
  module : Module
  found : List Diagnostic
  fixes : List String

/--
Applies all rules in order.
-/
def Module.applyRules (settings : Settings) (m : Module) : Except RuleError RuledModule :=
  let (results, failure) := Rule.applyAll settings m Rule.all
  match failure with
  | some e => .error e
  | none => .ok {
      module := ((results.getLast?).map (·.2.module)).getD m
      found := results.flatMap (·.2.notes.found)
      fixes := (results.flatMap (·.2.notes.fixes)).eraseDups
    }

end HaskellStyle
