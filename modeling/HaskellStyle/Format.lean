import HaskellStyle.Lint
import HaskellStyle.Module.Read
import HaskellStyle.Rule.Apply
import HaskellStyle.Source
import HaskellStyle.Text.Diff

/-!
This module contains the formatter and the two checks on it: formatting its output again changes nothing,
and the tokens that carry meaning are kept.
-/

namespace HaskellStyle

/--
What a check on the formatter found: the output cannot be read, changes again, is reported to need fixes
again, or has other tokens.
-/
inductive Defect where
  | unreadable (message : String)
  | changesAgain
  | fixedAgain (kinds : List String)
  | losesTokens

/--
A failed check: the defect in the file `label`, the difference of the two outputs and the outputs, as far as
there are any.
-/
structure Violation where
  defect : Defect
  label : String
  diff : String := ""
  first : String
  second : String := ""

/--
The wording of a failed check.
-/
def Violation.message (v : Violation) : String :=
  match v.defect with
  | .unreadable message => s!"Formatted output of {v.label} no longer reads: {message}"
  | .changesAgain => s!"Formatting {v.label} a second time changed it again"
  | .fixedAgain kinds =>
    let list := ", ".intercalate kinds
    s!"Formatting {v.label} a second time reported fixes: {list}"
  | .losesTokens => s!"Formatting {v.label} changed its tokens"

/--
Why a source was not formatted.
-/
inductive StyleError where
  | encoding (e : EncodingError)
  | parse (e : ParseError)
  | rule (e : RuleError)
  | violation (v : Violation)

/--
The wording of an error.
-/
def StyleError.message : StyleError → String
  | .encoding e => e.message
  | .parse e => e.message
  | .rule e => e.message
  | .violation v => v.message

/--
A formatted text, whether it differs from the source, the names of the fixes that were made, and the
findings.
-/
structure Formatted where
  text : List Char
  changed : Bool
  fixes : List String
  found : List Diagnostic

namespace Format

/--
The fixes of line ends that the output carries.
-/
def lineFixes (settings : Settings) (m : Module) (text : List Char) : List Diagnostic :=
  let index := LineIndex.ofText text
  let found := (m.lineEdits text).map fun edit =>
    let span := index.spanFrom edit.start (edit.stop - edit.start)
    match edit.kind with
    | .trailingBlanks =>
      { kind := .trailingWhitespace, message := "Trailing whitespace removed", span : Diagnostic }
    | .finalNewline =>
      { kind := .finalNewline, message := "File must end with exactly one newline", span }
  found.filter settings.reports

/--
Formats a text.
-/
def text (settings : Settings) (cs : List Char) : Except StyleError Formatted := do
  let m ← (Module.parse cs).mapError .parse
  let ruled ← (m.applyRules settings).mapError .rule
  let rendering := ruled.module.render settings
  return {
    text := rendering.text
    changed := rendering.text ≠ cs
    fixes := ruled.fixes
    found := Diagnostic.sort (ruled.found ++ rendering.found ++ lineFixes settings m cs)
  }

/--
The name of a file in messages.
-/
def labelOf (path : Option String) : String :=
  path.getD "<input>"

/--
Formats the output again and compares.
-/
def violation? (settings : Settings) (path : Option String) (first : Formatted) : Option Violation :=
  let label := labelOf path
  match text settings first.text with
  | .error e =>
    some { defect := .unreadable e.message, label, first := String.ofList first.text }
  | .ok second =>
    let kinds := ((Diagnostic.mechanical second.found).map (·.kind.name)).eraseDups.mergeSort
      fun a b => a ≤ b
    let defect :=
      if second.text ≠ first.text then
        some .changesAgain
      else if kinds.isEmpty then
        none
      else
        some (.fixedAgain kinds)
    defect.map fun defect =>
      { defect, label
        diff := Diff.unified first.text second.text label 3
        first := String.ofList first.text
        second := String.ofList second.text }

/--
Formats a source, and with `selfCheck` its output again.
-/
def source (settings : Settings) (selfCheck : Bool) (path : Option String) (s : Source) :
    Except StyleError Formatted := do
  let cs ← s.decode.mapError .encoding
  let formatted ← text settings cs
  match if selfCheck then violation? settings path formatted else none with
  | some v => throw (.violation v)
  | none => return formatted

/--
Whether a source can be formatted and its output does not change again.
-/
def isIdempotent (settings : Settings) (s : Source) : Bool :=
  (source settings true none s).isOk

/--
The texts of the tokens that carry meaning. Pragmas are taken in normal form, and the parentheses around
derived classes are left out.
-/
def meaningfulTokens (m : Module) : List String :=
  let grouping := (DerivingFormat.dataDecls m).flatMap fun d => d.derivings.flatMap fun clause =>
    if clause.isParenthesized then
      (clause.classes.head?.toList ++ clause.classes.getLast?.toList).map (·.offset)
    else
      []
  let kept := (tokens m).filter fun t => !t.isEnd && !grouping.contains t.offset
  kept.map fun t => if t.kind = .pragma then Pragma.flat { token := t } else t.text

/--
Whether two texts are modules with the same meaningful tokens, each as often.
-/
def keepsTokens (old new : List Char) : Bool :=
  match Module.parse old, Module.parse new with
  | .ok old, .ok new =>
    (meaningfulTokens old).mergeSort (· ≤ ·) == (meaningfulTokens new).mergeSort (· ≤ ·)
  | _, _ => false

/--
Formats a source with both checks.
-/
def verified (settings : Settings) (path : Option String) (s : Source) : Except StyleError Formatted := do
  let formatted ← source settings true path s
  let cs ← s.decode.mapError .encoding
  if keepsTokens cs formatted.text then
    return formatted
  else
    throw (.violation {
      defect := .losesTokens
      label := labelOf path
      first := String.ofList formatted.text
    })

end Format

/--
The advice on a source.
-/
def Source.lint (settings : Settings) (s : Source) : Except StyleError (List Diagnostic) := do
  let cs ← s.decode.mapError .encoding
  let m ← (Module.parse cs).mapError .parse
  (m.lint settings cs).mapError .rule

end HaskellStyle
