import HaskellStyle.Batch.Job
import HaskellStyle.Json.Parse
import HaskellStyle.Text.Blank
import HaskellStyle.Text.Letter

/-!
This module contains the command line: what can be asked for, and how arguments ask for it.
-/

namespace HaskellStyle

/--
What a run is asked to do.
-/
structure Request where
  mode : Mode
  paths : List Path
  settings : Option Path := none
  log : Option Path := none
  workers : Nat := 1
  write : Bool := false
  check : Bool := false
  diff : Bool := false
  findings : Bool := false
  verbose : Bool := false
  deriving DecidableEq

/--
What the arguments ask for.
-/
inductive Command where
  | version
  | help
  | request (r : Request)
  deriving DecidableEq

/--
What is wrong with arguments.
-/
inductive UsageError where
  | missingCommand
  | unknownCommand (name : String)
  | unknownOption (name : String)
  | missingValue (option : String)
  | unexpectedValue (option : String)
  | invalidWorkers (value : String)
  | missingPaths
  deriving DecidableEq

/--
The wording of what is wrong.
-/
def UsageError.message : UsageError → String
  | .missingCommand => "Missing command."
  | .unknownCommand name => s!"No such command '{name}'."
  | .unknownOption name => s!"No such option: {name}"
  | .missingValue option => s!"Option '{option}' requires an argument."
  | .unexpectedValue option => s!"Option '{option}' does not take a value."
  | .invalidWorkers value => s!"Invalid value for '--workers': '{value}' is not an integer of at least 1."
  | .missingPaths => "Missing argument 'PATHS...'."

namespace Command

/--
An option that is on or off.
-/
inductive Switch where
  | write
  | check
  | diff
  | findings
  | verbose
  | help
  deriving DecidableEq

/--
The switches that a command has.
-/
def switches (mode : Mode) : List (String × Switch) :=
  let common := [("--verbose", Switch.verbose), ("--help", .help)]
  match mode with
  | .format =>
    [("--write", .write), ("--check", .check), ("--diff", .diff), ("--diagnostics", .findings)] ++ common
  | .lint => ("--check", .check) :: common
  | .check => common

/--
An option with a value.
-/
inductive Field where
  | settings
  | workers
  | log
  deriving DecidableEq

/--
The options with values that all commands have.
-/
def fields : List (String × Field) :=
  [("--config", .settings), ("--workers", .workers), ("--log-path", .log)]

/--
Arguments as they were read: the switches that are on, the values of options, and the paths.
-/
structure Arguments where
  switches : List Switch := []
  values : List (Field × String) := []
  paths : List String := []

namespace Arguments

/--
Whether a switch is on.
-/
def isOn (a : Arguments) (switch : Switch) : Bool :=
  a.switches.contains switch

/--
The value of an option. Of several the last counts.
-/
def value? (a : Arguments) (field : Field) : Option String :=
  a.values.reverse.lookup field

end Arguments

/--
Whether an argument is an option: a dash and something behind it.
-/
def isOption (argument : String) : Bool :=
  match argument.toList with
  | '-' :: _ :: _ => true
  | _ => false

/--
The name of an option and the value that is joined to it by an equals sign.
-/
def splitOption (argument : String) : String × Option String :=
  let cs := argument.toList
  match cs.dropWhile (· ≠ '=') with
  | _ :: value => (String.ofList (cs.takeWhile (· ≠ '=')), some (String.ofList value))
  | [] => (argument, none)

/--
Reads the letters of an argument such as `-ab`, each of which is a switch.
-/
def readLetters {σ : Type} (known : List (Char × σ)) (argument : String) : Except UsageError (List σ) :=
  match argument.toList with
  | '-' :: '-' :: _ => .error (.unknownOption argument)
  | _ :: letters => letters.mapM fun c =>
    match known.lookup c with
    | some switch => .ok switch
    | none => .error (.unknownOption (String.ofList ['-', c]))
  | [] => .error (.unknownOption argument)

/--
Reads the arguments of a command. Options may stand between paths; all that follows `--` is a path.
-/
def readArguments (mode : Mode) (a : Arguments) : List String → Except UsageError Arguments
  | [] => .ok a
  | argument :: more =>
    if argument = "--" then
      .ok { a with paths := a.paths ++ more }
    else if !isOption argument then
      readArguments mode { a with paths := a.paths ++ [argument] } more
    else
      let (name, value) := splitOption argument
      match (switches mode).lookup name, fields.lookup name, value, more with
      | some switch, _, none, more => readArguments mode { a with switches := switch :: a.switches } more
      | some _, _, some _, _ => .error (.unexpectedValue name)
      | none, some field, some value, more =>
        readArguments mode { a with values := a.values ++ [(field, value)] } more
      | none, some field, none, value :: rest =>
        readArguments mode { a with values := a.values ++ [(field, value)] } rest
      | none, some _, none, [] => .error (.missingValue name)
      | none, none, _, more => do
        let switches ← readLetters [('h', Switch.help)] argument
        readArguments mode { a with switches := switches ++ a.switches } more
  termination_by arguments => arguments.length

/--
The value of a digit of a decimal number in any script. Each script has its ten digits in a row.
-/
def digitValue? (c : Char) : Option Nat :=
  let rows := ('0'.toNat, '9'.toNat) :: Text.decimalRanges
  (rows.find? fun (first, last) => first ≤ c.toNat && c.toNat ≤ last).map fun (first, _) =>
    (c.toNat - first) % 10

/--
The number that digits with single underscores between them write.
-/
def magnitude? (cs : List Char) : Option Nat := do
  let groups := Text.fields (· == '_') cs
  if groups.any (·.isEmpty) then
    none
  else
    let digits ← groups.flatten.mapM digitValue?
    return digits.foldl (fun n digit => 10 * n + digit) 0

/--
A number of workers: an integer of at least one, with blanks around it and a sign.
-/
def workers? (text : String) : Option Nat := do
  let n ←
    match Text.trimBlanks text.toList with
    | '+' :: cs => magnitude? cs
    | cs => magnitude? cs
  if n = 0 then none else some n

/--
The request that the arguments of a command make.
-/
def Arguments.request (mode : Mode) (a : Arguments) : Except UsageError Request := do
  let workers ←
    match a.value? .workers with
    | none => pure 1
    | some text =>
      match workers? text with
      | some n => pure n
      | none => throw (.invalidWorkers text)
  if a.paths.isEmpty then
    throw .missingPaths
  return {
    mode
    paths := a.paths.map Path.ofText
    settings := (a.value? .settings).map Path.ofText
    log := (a.value? .log).map Path.ofText
    workers
    write := a.isOn .write
    check := a.isOn .check
    diff := a.isOn .diff
    findings := a.isOn .findings || mode = .lint
    verbose := a.isOn .verbose
  }

/--
Reads a command by its name.
-/
def ofName (name : String) (arguments : List String) : Except UsageError Command := do
  match Mode.ofName? name with
  | none => throw (.unknownCommand name)
  | some mode =>
    let a ← readArguments mode {} arguments
    if a.isOn .help then return .help else return .request (← a.request mode)

/--
Reads the name of a command and its arguments, behind options that ask for something else.
-/
def readCommand (asked : Option Command) : List String → Except UsageError Command
  | [] => asked.elim (.error .missingCommand) .ok
  | argument :: more =>
    if argument = "--" then
      match asked, more with
      | some command, _ => .ok command
      | none, [] => .error .missingCommand
      | none, name :: arguments => ofName name arguments
    else if !isOption argument then
      asked.elim (ofName argument more) .ok
    else
      let (name, value) := splitOption argument
      match [("--version", Command.version), ("--help", .help)].lookup name with
      | some command =>
        if value.isSome then .error (.unexpectedValue name) else readCommand (asked <|> some command) more
      | none => do
        let commands ← readLetters [('V', Command.version), ('h', .help)] argument
        readCommand (asked <|> commands.head?) more

/--
What the arguments of a program ask for.
-/
def ofArguments (arguments : List String) : Except UsageError Command :=
  readCommand none arguments

end Command

end HaskellStyle
