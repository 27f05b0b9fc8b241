import HaskellStyle.Json.Parse
import HaskellStyle.Settings.Basic
import HaskellStyle.Text.Blank

/-!
This module contains the reading of settings from JSON. All that is wrong is reported: first what is wrong
with the settings, in the order in which they are declared, then the keys that are none.
-/

namespace HaskellStyle

/--
A step to a place in a JSON value.
-/
inductive PathStep where
  | key (name : String)
  | index (n : Nat)
  deriving DecidableEq

/--
What is wrong with a setting.
-/
inductive SettingFault where
  | notAnObject
  | unknownKey
  | notAnInteger
  | unreadableInteger
  | fractionalInteger
  | tooSmall (bound : Int)
  | tooLarge (bound : Int)
  | notABoolean
  | unreadableBoolean
  | notAString
  | notAnArray
  | notASet
  | notAChoice (first second : String)
  | notJson
  deriving DecidableEq

namespace SettingFault

/--
The names of faults in reports.
-/
def name : SettingFault → String
  | .notAnObject => "model_type"
  | .unknownKey => "extra_forbidden"
  | .notAnInteger => "int_type"
  | .unreadableInteger => "int_parsing"
  | .fractionalInteger => "int_from_float"
  | .tooSmall _ => "greater_than_equal"
  | .tooLarge _ => "less_than_equal"
  | .notABoolean => "bool_type"
  | .unreadableBoolean => "bool_parsing"
  | .notAString => "string_type"
  | .notAnArray => "tuple_type"
  | .notASet => "frozen_set_type"
  | .notAChoice _ _ => "literal_error"
  | .notJson => "json_invalid"

/--
The wording of faults.
-/
def message : SettingFault → String
  | .notAnObject => "Input should be an object"
  | .unknownKey => "Extra inputs are not permitted"
  | .notAnInteger => "Input should be a valid integer"
  | .unreadableInteger => "Input should be a valid integer, unable to parse string as an integer"
  | .fractionalInteger => "Input should be a valid integer, got a number with a fractional part"
  | .tooSmall bound => s!"Input should be greater than or equal to {bound}"
  | .tooLarge bound => s!"Input should be less than or equal to {bound}"
  | .notABoolean => "Input should be a valid boolean"
  | .unreadableBoolean => "Input should be a valid boolean, unable to interpret input"
  | .notAString => "Input should be a valid string"
  | .notAnArray | .notASet => "Input should be a valid array"
  | .notAChoice first second => s!"Input should be '{first}' or '{second}'"
  | .notJson => "Invalid JSON"

end SettingFault

/--
A fault and its place.
-/
structure SettingError where
  path : List PathStep
  fault : SettingFault
  deriving DecidableEq

namespace Settings

/--
A value together with all that is wrong with it.
-/
structure Checked (α : Type) where
  value : α
  errors : List SettingError := []

namespace Checked

variable {α : Type}

/--
A value that something is wrong with.
-/
def fail (path : List PathStep) (fault : SettingFault) (value : α) : Checked α :=
  ⟨value, [⟨path, fault⟩]⟩

/--
All values of a list.
-/
def all (parts : List (Checked α)) : Checked (List α) :=
  ⟨parts.map (·.value), parts.flatMap (·.errors)⟩

/--
Adds what is wrong elsewhere.
-/
def also (c : Checked α) (errors : List SettingError) : Checked α :=
  { c with errors := c.errors ++ errors }

end Checked

/--
The integer that a decimal number is.
-/
def integral? (mantissa exponent : Int) : Option Int :=
  if 0 ≤ exponent then
    some (mantissa * Nat.pow 10 exponent.toNat)
  else
    let scale : Int := Nat.pow 10 (-exponent).toNat
    if mantissa % scale = 0 then some (mantissa / scale) else none

/--
The digits of a number with single underscores between them.
-/
def spacedDigits? (cs : List Char) : Option (List Char) :=
  let groups := Text.fields (· == '_') cs
  if groups.all fun group => !group.isEmpty && group.all Char.isDigit then some groups.flatten else none

/--
A whole number without a fraction of zeros.
-/
def dropZeroFraction (cs : List Char) : List Char :=
  match cs.dropWhile (· ≠ '.') with
  | '.' :: zeros => if zeros.all (· == '0') then cs.takeWhile (· ≠ '.') else cs
  | _ => cs

/--
A text without the blanks around it. The ASCII separators do not count as blanks here.
-/
def trimSpace (cs : List Char) : List Char :=
  let isSpace := fun (c : Char) => Text.isBlank c && !(28 ≤ c.toNat && c.toNat ≤ 31)
  ((cs.dropWhile isSpace).reverse.dropWhile isSpace).reverse

/--
The integer that a text writes, with blanks around it, a sign, single underscores between digits and a
fraction of zeros.
-/
def textInteger? (text : String) : Option Int :=
  let magnitude? (cs : List Char) : Option Int :=
    (spacedDigits? (dropZeroFraction cs)).map fun digits => (Json.digitsValue digits : Int)
  match trimSpace text.toList with
  | '+' :: cs => magnitude? cs
  | '-' :: cs => (magnitude? cs).map (-·)
  | cs => magnitude? cs

/--
The integer that a JSON value stands for.
-/
def integer : Json → Except SettingFault Int
  | .int n => .ok n
  | .bool b => .ok (if b then 1 else 0)
  | .decimal mantissa exponent =>
    match integral? mantissa exponent with
    | some n => .ok n
    | none => .error .fractionalInteger
  | .str text =>
    match textInteger? text with
    | some n => .ok n
    | none => .error .unreadableInteger
  | .null | .arr _ | .obj _ => .error .notAnInteger

/--
A number within bounds.
-/
def bounded (low : Nat) (high : Option Nat) (default : Nat) (path : List PathStep) (j : Json) :
    Checked Nat :=
  match integer j with
  | .error fault => .fail path fault default
  | .ok n =>
    match high.filter fun bound => bound < n with
    | some bound => .fail path (.tooLarge bound) default
    | none => if n < low then .fail path (.tooSmall low) default else ⟨n.toNat, []⟩

/--
A truth value, also as a number or a word.
-/
def boolean (default : Bool) (path : List PathStep) (j : Json) : Checked Bool :=
  let ofInteger (n : Int) : Checked Bool :=
    if n = 0 then ⟨false, []⟩
    else if n = 1 then ⟨true, []⟩
    else .fail path .unreadableBoolean default
  match j with
  | .bool b => ⟨b, []⟩
  | .int n => ofInteger n
  | .decimal mantissa exponent =>
    match integral? mantissa exponent with
    | some n => ofInteger n
    | none => .fail path .notABoolean default
  | .str text =>
    let word := text.toLower
    if ["0", "off", "f", "false", "n", "no"].contains word then ⟨false, []⟩
    else if ["1", "on", "t", "true", "y", "yes"].contains word then ⟨true, []⟩
    else .fail path .unreadableBoolean default
  | .null | .arr _ | .obj _ => .fail path .notABoolean default

/--
A text.
-/
def string (default : String) (path : List PathStep) (j : Json) : Checked String :=
  match j with
  | .str text => ⟨text, []⟩
  | _ => .fail path .notAString default

/--
One of two words.
-/
def choice {α : Type} (first second : String × α) (path : List PathStep) (j : Json) : Checked α :=
  let fault := SettingFault.notAChoice first.1 second.1
  match j with
  | .str text =>
    if text == first.1 then ⟨first.2, []⟩
    else if text == second.1 then ⟨second.2, []⟩
    else .fail path fault first.2
  | _ => .fail path fault first.2

/--
An array. What is not one has the given fault.
-/
def array {α : Type} (fault : SettingFault) (element : List PathStep → Json → Checked α)
    (path : List PathStep) (j : Json) : Checked (List α) :=
  match j with
  | .arr elements => .all (elements.zipIdx.map fun (j, n) => element (path ++ [.index n]) j)
  | _ => .fail path fault []

/--
A key of a setting: the name it has in files, and another one that is read too.
-/
structure Key where
  name : String
  other : String := name

/--
The spelling of a key that an object has. The first name wins.
-/
def Key.spelling? (key : Key) (members : List (String × Json)) : Option String :=
  [key.name, key.other].find? fun name => members.any (·.1 == name)

/--
The keys of an object that do not belong to a setting, or belong to one that is given by its first name.
-/
def unknownKeys (keys : List Key) (path : List PathStep) (members : List (String × Json)) :
    List SettingError :=
  let known := keys.filterMap (·.spelling? members)
  ((members.map Prod.fst).eraseDups.filter fun name => !known.contains name).map fun name =>
    ⟨path ++ [.key name], .unknownKey⟩

/--
The value of a setting in an object, or the default.
-/
def field {α : Type} (members : List (String × Json)) (path : List PathStep) (key : Key) (default : α)
    (decode : List PathStep → Json → Checked α) : Checked α :=
  match key.spelling? members with
  | none => ⟨default, []⟩
  | some name =>
    match members.reverse.lookup name with
    | some j => decode (path ++ [.key name]) j
    | none => ⟨default, []⟩

/--
The settings for names.
-/
def namingRules (path : List PathStep) (j : Json) : Checked NamingRules :=
  match j with
  | .obj members =>
    let length : Key := ⟨"maxAbbreviationLength", "max_abbreviation_length"⟩
    let text (name default : String) : Checked String :=
      field members path { name } default (string default)
    let function := text "function" ({} : NamingRules).function
    let type := text "type" ({} : NamingRules).type
    let constructor := text "constructor" ({} : NamingRules).constructor
    let names := text "field" ({} : NamingRules).field
    let longest := field members path length 2 (bounded 1 none 2)
    let keys := [{ name := "function" }, { name := "type" }, { name := "constructor" },
      { name := "field" }, length]
    { value := ⟨function.value, type.value, constructor.value, names.value, longest.value⟩
      errors := function.errors ++ type.errors ++ constructor.errors ++ names.errors ++ longest.errors
        ++ unknownKeys keys path members }
  | _ => .fail path .notAnObject {}

/--
The settings for alignment.
-/
def alignmentPolicy (path : List PathStep) (j : Json) : Checked AlignmentPolicy :=
  match j with
  | .obj members =>
    let fieldsKey : Key := ⟨"recordFields", "record_fields"⟩
    let strategiesKey : Key := ⟨"derivingStrategies", "deriving_strategies"⟩
    let chainsKey : Key := ⟨"operatorChains", "operator_chains"⟩
    let fields := field members path fieldsKey true (boolean true)
    let strategies := field members path strategiesKey true (boolean true)
    let chains := field members path chainsKey .aligned
      (choice ("aligned", ChainStyle.aligned) ("indented", .indented))
    { value := ⟨fields.value, strategies.value, chains.value⟩
      errors := fields.errors ++ strategies.errors ++ chains.errors
        ++ unknownKeys [fieldsKey, strategiesKey, chainsKey] path members }
  | _ => .fail path .notAnObject {}

/--
All settings.
-/
def checked (j : Json) : Checked Settings :=
  match j with
  | .obj members =>
    let indentKey : Key := ⟨"indentWidth", "indent_width"⟩
    let lengthKey : Key := ⟨"maxLineLength", "max_line_length"⟩
    let orderKey : Key := ⟨"importGroupOrder", "import_group_order"⟩
    let localKey : Key := ⟨"localModulePrefixes", "local_module_prefixes"⟩
    let checksKey : Key := ⟨"enabledLintChecks", "enabled_lint_checks"⟩
    let namingKey : Key := ⟨"namingCaseRules", "naming_case_rules"⟩
    let thresholdKey : Key := ⟨"qualificationThreshold", "qualification_threshold"⟩
    let alignmentKey : Key := { name := "alignment" }
    let commentsKey : Key := ⟨"preserveCommentAlignment", "preserve_comment_alignment"⟩
    let defaults : Settings := {}
    let indent := field members [] indentKey 2 (bounded 1 (some 8) 2)
    let length := field members [] lengthKey 80 (bounded 20 none 80)
    let order := field members [] orderKey defaults.importGroupOrder
      (array .notAnArray (choice ("external", ImportOrigin.external) ("local", .internal)))
    let prefixes := field members [] localKey [] (array .notAnArray (string ""))
    let checks := field members [] checksKey defaults.enabledChecks (array .notASet (string ""))
    let names := field members [] namingKey {} namingRules
    let threshold := field members [] thresholdKey 15 (bounded 1 none 15)
    let policy := field members [] alignmentKey {} alignmentPolicy
    let comments := field members [] commentsKey false (boolean false)
    let keys := [indentKey, lengthKey, orderKey, localKey, checksKey, namingKey, thresholdKey,
      alignmentKey, commentsKey]
    { value := {
        indentWidth := indent.value
        maxLineLength := length.value
        importGroupOrder := order.value
        localModulePrefixes := prefixes.value
        enabledChecks := checks.value.eraseDups
        naming := names.value
        qualificationThreshold := threshold.value
        alignment := policy.value
        preserveCommentAlignment := comments.value }
      errors := indent.errors ++ length.errors ++ order.errors ++ prefixes.errors ++ checks.errors
        ++ names.errors ++ threshold.errors ++ policy.errors ++ comments.errors
        ++ unknownKeys keys [] members }
  | _ => .fail [] .notAnObject {}

/--
The settings that a JSON value holds, or all that is wrong with it.
-/
def ofJson (j : Json) : Except (List SettingError) Settings :=
  let c := checked j
  if c.errors.isEmpty then .ok c.value else .error c.errors

/--
The settings that a text holds.
-/
def ofText (text : String) : Except (List SettingError) Settings :=
  match Json.parse? text with
  | some j => ofJson j
  | none => .error [⟨[], .notJson⟩]

end Settings

end HaskellStyle
