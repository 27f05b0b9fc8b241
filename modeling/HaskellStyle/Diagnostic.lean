import HaskellStyle.Text.Span

/-!
This module contains diagnostics: what the formatter mended and what the linter advises.
-/

namespace HaskellStyle

/--
The kinds of findings: first the mechanical ones, which the formatter mends, then advice, then errors.
-/
inductive DiagnosticKind where
  | pragmaOrder
  | pragmaPlacement
  | importOrder
  | importSpacing
  | indentation
  | wherePlacement
  | alignment
  | derivingFormat
  | endOfLineCommentSpacing
  | trailingWhitespace
  | finalNewline
  | namingViolation
  | abbreviationCase
  | operatorDefinition
  | missingSignature
  | recordInSumType
  | etaReducible
  | unnecessaryDerive
  | longLine
  | tabCharacter
  | missingStrictness
  | missingExportList
  | missingImportList
  | largeUnqualifiedImport
  | encodingError
  | parseError
  deriving DecidableEq

/--
How much a finding matters.
-/
inductive Severity where
  | error
  | warning
  | advisory
  deriving DecidableEq

/--
The words for severities in reports.
-/
def Severity.name : Severity → String
  | .error => "error"
  | .warning => "warning"
  | .advisory => "advisory"

namespace DiagnosticKind

/--
All kinds.
-/
def all : List DiagnosticKind :=
  [.pragmaOrder, .pragmaPlacement, .importOrder, .importSpacing, .indentation, .wherePlacement,
   .alignment, .derivingFormat, .endOfLineCommentSpacing, .trailingWhitespace, .finalNewline,
   .namingViolation, .abbreviationCase, .operatorDefinition, .missingSignature, .recordInSumType,
   .etaReducible, .unnecessaryDerive, .longLine, .tabCharacter, .missingStrictness,
   .missingExportList, .missingImportList, .largeUnqualifiedImport, .encodingError, .parseError]

/--
The names of kinds in reports.
-/
def name : DiagnosticKind → String
  | .pragmaOrder => "PragmaOrder"
  | .pragmaPlacement => "PragmaPlacement"
  | .importOrder => "ImportOrder"
  | .importSpacing => "ImportSpacing"
  | .indentation => "Indentation"
  | .wherePlacement => "WherePlacement"
  | .alignment => "Alignment"
  | .derivingFormat => "DerivingFormat"
  | .endOfLineCommentSpacing => "EndOfLineCommentSpacing"
  | .trailingWhitespace => "TrailingWhitespace"
  | .finalNewline => "FinalNewline"
  | .namingViolation => "NamingViolation"
  | .abbreviationCase => "AbbreviationCase"
  | .operatorDefinition => "OperatorDefinition"
  | .missingSignature => "MissingSignature"
  | .recordInSumType => "RecordInSumType"
  | .etaReducible => "EtaReducible"
  | .unnecessaryDerive => "UnnecessaryDerive"
  | .longLine => "LongLine"
  | .tabCharacter => "TabCharacter"
  | .missingStrictness => "MissingStrictnessAnnotation"
  | .missingExportList => "MissingExportList"
  | .missingImportList => "MissingImportList"
  | .largeUnqualifiedImport => "LargeUnqualifiedImport"
  | .encodingError => "EncodingError"
  | .parseError => "ParseError"

/--
The kind with the given name.
-/
def ofName? (s : String) : Option DiagnosticKind :=
  all.find? (·.name == s)

/--
Whether the formatter mends such findings.
-/
def isMechanical : DiagnosticKind → Bool
  | .pragmaOrder | .pragmaPlacement | .importOrder | .importSpacing | .indentation | .wherePlacement
  | .alignment | .derivingFormat | .endOfLineCommentSpacing | .trailingWhitespace | .finalNewline => true
  | _ => false

/--
How much such findings matter.
-/
def severity (kind : DiagnosticKind) : Severity :=
  if kind = .encodingError ∨ kind = .parseError then
    .error
  else if kind.isMechanical then
    .warning
  else
    .advisory

/--
The check that turns such findings on and off. Findings without one are always reported.
-/
def check : DiagnosticKind → Option String
  | .namingViolation => some "naming-case"
  | .abbreviationCase => some "abbreviation-case"
  | .operatorDefinition => some "operator-definition"
  | .missingSignature => some "missing-signature"
  | .recordInSumType => some "record-in-sum-type"
  | .etaReducible => some "point-free"
  | .unnecessaryDerive => some "unnecessary-derive"
  | .longLine => some "long-line"
  | .trailingWhitespace => some "trailing-whitespace"
  | .tabCharacter => some "tab-character"
  | .missingStrictness => some "missing-strictness"
  | .missingExportList => some "missing-export-list"
  | .missingImportList => some "missing-import-list"
  | .largeUnqualifiedImport => some "large-unqualified-import"
  | _ => none

/--
The names of all checks.
-/
def checks : List String :=
  all.filterMap check

end DiagnosticKind

/--
Text to put in place of a span.
-/
structure Fix where
  span : Span
  replacement : String
  deriving DecidableEq

/--
A finding at a place of the source.
-/
structure Diagnostic where
  kind : DiagnosticKind
  message : String
  span : Span
  fix : Option Fix := none
  deriving DecidableEq

namespace Diagnostic

/--
How much the finding matters.
-/
def severity (d : Diagnostic) : Severity :=
  d.kind.severity

/--
Whether the formatter mends the finding.
-/
def isMechanical (d : Diagnostic) : Bool :=
  d.kind.isMechanical

/--
The order of reports: by start, then by end, then by the name of the kind.
-/
def le (a b : Diagnostic) : Bool :=
  if a.span.start ≠ b.span.start then
    a.span.start < b.span.start
  else if a.span.stop ≠ b.span.stop then
    a.span.stop < b.span.stop
  else
    a.kind.name ≤ b.kind.name

/--
Whether two findings report the same, whatever fix they suggest.
-/
def sameReport (a b : Diagnostic) : Bool :=
  a.kind = b.kind && a.span = b.span && a.message == b.message

/--
Keeps the first of all findings that report the same.
-/
def dedup : List Diagnostic → List Diagnostic
  | [] => []
  | d :: ds => d :: (dedup ds).filter (!d.sameReport ·)

/--
Findings in the order of reports, each once. Of those that report the same, the one that came first is
kept, and findings at equal places stay in order.
-/
def sort (ds : List Diagnostic) : List Diagnostic :=
  dedup (ds.mergeSort le)

/--
The findings that the formatter mends.
-/
def mechanical (ds : List Diagnostic) : List Diagnostic :=
  ds.filter (·.isMechanical)

/--
The findings that are advice.
-/
def advisories (ds : List Diagnostic) : List Diagnostic :=
  ds.filter (·.severity = .advisory)

/--
A finding on a line of a report about the file `path`.
-/
def format (path : String) (d : Diagnostic) : String :=
  s!"{path}:{d.span.lineNumber}:{d.span.columnNumber}: {d.severity.name}: [{d.kind.name}] {d.message}"

end Diagnostic

end HaskellStyle
