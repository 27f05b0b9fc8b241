import HaskellStyle.Diagnostic

/-!
This module contains the settings of the formatter and the linter.
-/

namespace HaskellStyle

/--
The patterns that names have to match, by what they name, and the longest run of capitals in a name.
-/
structure NamingRules where
  function : String := "^_?[a-z][A-Za-z0-9']*$"
  type : String := "^[A-Z][A-Za-z0-9']*$"
  constructor : String := "^[A-Z][A-Za-z0-9']*$"
  field : String := "^_?[a-z][A-Za-z0-9']*$"
  maxAbbreviationLength : Nat := 2
  deriving DecidableEq

/--
Where the lines of an operator chain continue: under the first operator, or one step indented.
-/
inductive ChainStyle where
  | aligned
  | indented
  deriving DecidableEq

/--
What is aligned over several lines.
-/
structure AlignmentPolicy where
  recordFields : Bool := true
  derivingStrategies : Bool := true
  operatorChains : ChainStyle := .aligned
  deriving DecidableEq

/--
Whether an imported module belongs to another project or to the same one.
-/
inductive ImportOrigin where
  | external
  | internal
  deriving DecidableEq

/--
The settings. Every check is on unless `enabledChecks` leaves it out.
-/
structure Settings where
  indentWidth : Nat := 2
  maxLineLength : Nat := 80
  importGroupOrder : List ImportOrigin := [.external, .internal]
  localModulePrefixes : List String := []
  enabledChecks : List String := DiagnosticKind.checks
  naming : NamingRules := {}
  qualificationThreshold : Nat := 15
  alignment : AlignmentPolicy := {}
  preserveCommentAlignment : Bool := false
  deriving DecidableEq

namespace Settings

/--
Whether a check is on. What has no check is always on.
-/
def checkEnabled (settings : Settings) (check : Option String) : Bool :=
  check.all settings.enabledChecks.contains

/--
Whether a finding is to be reported.
-/
def reports (settings : Settings) (d : Diagnostic) : Bool :=
  settings.checkEnabled d.kind.check

end Settings

end HaskellStyle
