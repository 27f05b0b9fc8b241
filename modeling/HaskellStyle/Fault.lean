/-!
This module contains what can be wrong with a source text.
-/

namespace HaskellStyle

/--
The reasons for which a text is not a module.
-/
inductive Fault where
  | unterminatedPragma
  | unterminatedComment
  | unterminatedString
  | malformedGap
  | unterminatedQuasiQuote
  | nestingTooDeep
  | unclosedBracket (bracket : String)
  | missingModuleName
  | malformedExports
  | missingWhere
  deriving DecidableEq

/--
The wording of a fault.
-/
def Fault.message : Fault → String
  | .unterminatedPragma => "unterminated pragma"
  | .unterminatedComment => "unterminated block comment"
  | .unterminatedString => "unterminated string literal"
  | .malformedGap => "malformed string gap"
  | .unterminatedQuasiQuote => "unterminated quasi-quote"
  | .nestingTooDeep => "layout nesting too deep"
  | .unclosedBracket bracket => s!"unclosed '{bracket}'"
  | .missingModuleName => "expected module name after 'module'"
  | .malformedExports => "malformed export list"
  | .missingWhere => "expected 'where' after module header"

/--
A fault and the offset at which it was found.
-/
structure Failure where
  fault : Fault
  offset : Nat
  deriving DecidableEq

end HaskellStyle
