import HaskellStyle.Pattern.Parse
import HaskellStyle.Rule.Basic

/-!
This module contains the rule for names, which gives advice only: names that do not match the pattern for
what they name, abbreviations in capitals, and operators that a module defines.
-/

namespace HaskellStyle.Names

/--
What a name stands for.
-/
inductive Role where
  | function
  | type
  | constructor
  | field
  deriving DecidableEq

namespace Role

/--
The word for a role in reports.
-/
def title : Role → String
  | .function => "Function"
  | .type => "Type"
  | .constructor => "Constructor"
  | .field => "Record field"

/--
The spelling that names of a role should have.
-/
def style : Role → String
  | .function | .field => "lower camel case"
  | .type | .constructor => "upper camel case"

end Role

/--
The names that a part of a module defines: those that have a role, and operators.
-/
structure Defined where
  names : List (Role × Token) := []
  operators : List Token := []

namespace Defined

/--
The definitions of several parts.
-/
def join (parts : List Defined) : Defined where
  names := parts.flatMap (·.names)
  operators := parts.flatMap (·.operators)

/--
The definition of a function or of an operator by the token that names it.
-/
def ofBinder (t : Token) : Defined where
  names := if t.kind = .varId then [(.function, t)] else []
  operators := if t.isOperator then [t] else []

/--
The definitions of a signature.
-/
def ofSignature (s : Signature) : Defined :=
  join (s.names.map ofBinder)

/--
What follows the context of a declaration's head.
-/
def afterContext (ts : List Token) : List Token :=
  match Outside.split? some (·.isReservedOp ["=>", "⇒"]) 0 ts with
  | some (_, _, rest) => rest
  | none => ts

/--
The first type name of tokens, before the body of a declaration.
-/
def typeNameIn : List Token → Option Token
  | [] => none
  | t :: ts =>
    if t.kind = .conId then
      some t
    else if t.isReservedOp ["=", "::"] || t.isKeyword ["where"] then
      none
    else
      typeNameIn ts

/--
The type that a declaration kept as it is introduces, given its tokens outside of blocks.
-/
def declaredType : List Token → Option Token
  | [] => none
  | t :: ts =>
    if t.isKeyword ["type", "data", "newtype", "class"] then
      match ts with
      | u :: more =>
        if u.text == "instance" then
          none
        else
          typeNameIn (afterContext (if u.text == "family" then more else ts))
      | [] => none
    else
      none

/--
The definitions of a declaration kept as it is, given those of its blocks. Instances define nothing new.
-/
def ofRaw (run : Run Defined) : Defined :=
  let inner := join run.blocks
  let declared := (declaredType (Segment.topTokens run.segments)).toList.map (Role.type, ·)
  { names := if run.first.isKeyword ["instance", "deriving"] then [] else declared ++ inner.names
    operators := if run.first.isKeyword ["instance"] then [] else inner.operators }

/--
The definitions of a clause, given those of its blocks.
-/
def ofClause (c : Clause Defined) : Defined :=
  join (c.equation.binder.toList.map ofBinder ++ c.blocks)

/--
The definitions of an item, given those of its blocks.
-/
def ofItem : Item Defined → Defined
  | .pragma _ => {}
  | .signature s => ofSignature s
  | .clause .alternative c => join c.blocks
  | .clause _ c => ofClause c
  | .statement run => join run.blocks
  | .raw run => ofRaw run

/--
The definitions of a block.
-/
def ofBlock (b : Block) : Defined :=
  b.fold fun b items => join (items.map fun run =>
    ofItem (Item.ofRun b.kind ⟨run.first, run.rest.map (Segment.map Prod.snd)⟩))

/--
The definitions of a constructor and its fields.
-/
def ofConstructor (c : Constructor) : Defined where
  names :=
    (c.name.filter (·.kind = .conId)).toList.map (.constructor, ·)
      ++ ((c.record.map (·.items)).getD []).flatMap fun field =>
        (field.fieldNames.filter (·.kind = .varId)).map (.field, ·)

/--
The definitions of a data declaration.
-/
def ofData (d : DataDecl) : Defined :=
  join ({ names := d.typeName.toList.map (.type, ·) } :: d.constructors.map ofConstructor)

/--
The definitions of a declaration.
-/
def ofDeclaration : Declaration → Defined
  | .importing _ | .pragma _ => {}
  | .signature s => ofSignature s
  | .data d => ofData d
  | .clause c _ =>
    join (c.equation.binder.toList.map ofBinder ++ c.blocks.map ofBlock)
  | .raw run => ofRaw ⟨run.first, run.rest.map (Segment.map ofBlock)⟩

/--
The definitions of a module.
-/
def ofModule (m : Module) : Defined :=
  join (m.declarations.map ofDeclaration)

end Defined

/--
Keeps the first of all elements with the same key.
-/
def firsts {α κ : Type} [BEq κ] (key : α → κ) : List α → List α
  | [] => []
  | x :: xs => x :: (firsts key xs).filter fun y => key y != key x

/--
The runs of capitals of a text, each with the character behind it.
-/
def capitalRuns (cs : List Char) : List (List Char × Option Char) :=
  match cs with
  | [] => []
  | c :: more =>
    if c.isUpper then
      let rest := more.dropWhile Char.isUpper
      (c :: more.takeWhile Char.isUpper, rest.head?) :: capitalRuns rest
    else
      capitalRuns more
termination_by cs.length
decreasing_by
  · have := (List.dropWhile_suffix (p := Char.isUpper) (l := more)).length_le
    simp; omega
  · simp

/--
The runs of more than `longest` capitals in a name that has other characters too. The last capital before
a lower case letter begins the next word and does not count.
-/
def abbreviations (name : String) (longest : Int) : List String :=
  let isMark := fun c => c == '_' || c == '\''
  let bare := ((name.toList.dropWhile isMark).reverse.dropWhile isMark).reverse
  let runs := (capitalRuns bare).map fun (run, next) =>
    if next.any Text.isLower then run.dropLast else run
  (runs.filter fun run => longest < run.length && run != bare).map String.ofList

/--
A word with only its first letter in upper case.
-/
def capitalize (word : String) : String :=
  match word.toList with
  | [] => ""
  | c :: cs => String.ofList (c.toUpper :: cs.map Char.toLower)

/--
The patterns for the roles.
-/
def patterns (rules : NamingRules) : Except RuleError (Role → Pattern) := do
  let compile (text : String) : Except RuleError Pattern :=
    match Pattern.parse? text with
    | some p => .ok p
    | none => .error .invalidPattern
  let function ← compile rules.function
  let type ← compile rules.type
  let constructor ← compile rules.constructor
  let field ← compile rules.field
  return fun
    | .function => function
    | .type => type
    | .constructor => constructor
    | .field => field

/--
The advice on one name.
-/
def nameAdvice (rules : NamingRules) (pattern : Role → Pattern) (role : Role) (t : Token) :
    List Diagnostic :=
  let mismatch :=
    if (pattern role).isMatch t.text then
      []
    else
      [{ kind := .namingViolation
         message := s!"{role.title} name '{t.text}' should be {role.style}"
         span := t.span : Diagnostic }]
  mismatch ++ (abbreviations t.text rules.maxAbbreviationLength).map fun run =>
    { kind := .abbreviationCase
      message := s!"Abbreviation '{run}' in '{t.text}' should be written '{capitalize run}'"
      span := t.span }

/--
The advice on the names of a module, once for each name in a role and once for each operator.
-/
def advice (settings : Settings) (m : Module) : Except RuleError (List Diagnostic) := do
  let rules := settings.naming
  let pattern ← patterns rules
  let defined := Defined.ofModule m
  let names := (firsts (fun (role, t) => (role, t.text)) defined.names).flatMap
    fun (role, t) => nameAdvice rules pattern role t
  let operators := (firsts (·.text) defined.operators).map fun t =>
    { kind := .operatorDefinition
      message :=
        s!"Custom operator '{t.text}' defined; review whether a named function is clearer"
      span := t.span : Diagnostic }
  return (names ++ operators).filter settings.reports

/--
Applies the rule, which keeps every module.
-/
def apply (settings : Settings) (m : Module) : Except RuleError RuleResult := do
  return ⟨m, true, { found := ← advice settings m }⟩

end HaskellStyle.Names
