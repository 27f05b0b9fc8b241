import HaskellStyle.Batch.Pool
import HaskellStyle.Command.Arguments
import HaskellStyle.Command.Discover
import HaskellStyle.Settings.Decode

/-!
This module contains the runs of the program as functions of the files: the settings are read, the sources
are searched, the batch is done, and a report is printed.
-/

namespace HaskellStyle

/--
What the program leaves behind: its exit code, what it printed, and the files. A run ends by a crash if the
settings are not a text.
-/
structure Execution where
  exitCode : Nat
  output : String := ""
  errors : String := ""
  crash : Option EncodingError := none
  store : FileStore

namespace Execution

/--
The exit code of a run without findings.
-/
def success : Nat := 0

/--
The exit code of a run with findings.
-/
def findings : Nat := 1

/--
The exit code of a run with wrong arguments or settings.
-/
def misuse : Nat := 2

/--
The exit code of a run that the system refused.
-/
def refused : Nat := 3

end Execution

/--
Why there are no settings.
-/
inductive SettingsError where
  | missing (path : Path)
  | unreadable (e : AccessError)
  | undecodable (e : EncodingError)
  | invalid (errors : List SettingError)

/--
The wording of a reason.
-/
def SettingsError.message : SettingsError → String
  | .missing path => s!"Configuration file not found: {path.text}"
  | .unreadable e => s!"Cannot read configuration: {e.message}"
  | .undecodable e => e.message
  | .invalid errors =>
    let first := (errors.head?.map (·.fault.message)).getD ""
    s!"Invalid configuration: {errors.length} error(s); first: {first}"

/--
The file of settings that is read if none is given.
-/
def Settings.defaultPath : Path :=
  { parts := ["hsfmt.json"] }

/--
Reads settings from a file.
-/
def FileStore.settingsAt (s : FileStore) (p : Path) : Except SettingsError Settings := do
  let bytes ← (s.read p).mapError fun fault => .unreadable ⟨fault, p⟩
  let cs ← (Source.bytes bytes).decode.mapError .undecodable
  (Settings.ofText (String.ofList cs)).mapError .invalid

/--
The settings in the given file, or else in the default file if there is one, or else the default settings.
-/
def FileStore.settings (s : FileStore) : Option Path → Except SettingsError Settings
  | some p => if s.contains p then s.settingsAt p else .error (.missing p)
  | none => if s.contains Settings.defaultPath then s.settingsAt Settings.defaultPath else .ok {}

namespace Request

/--
The options of the jobs of a run.
-/
def jobOptions (r : Request) (settings : Settings) : JobOptions where
  settings := settings
  mode := r.mode
  write := r.write
  diff := r.diff

/--
Does the batch of a run, up to its end at `now`.
-/
def process (r : Request) (now : String) (s : FileStore) : Except Execution Pool := do
  let settings ←
    match s.settings r.settings with
    | .ok settings => pure settings
    | .error (.undecodable e) => throw { exitCode := Execution.findings, crash := some e, store := s }
    | .error e =>
      throw { exitCode := Execution.misuse, errors := s!"Configuration error: {e.message}\n", store := s }
  let paths ← (s.sources r.paths).mapError fun e =>
    { exitCode := Execution.misuse, errors := s!"Error: {e.message}\n", store := s : Execution }
  let logs := r.log.map (RunLogs.ofEvents now)
  let (store, refused) := (logs.map (·.startFresh s)).getD (s, none)
  if let some e := refused then
    throw { exitCode := Execution.refused, errors := s!"Unexpected error: {e.message}\n", store }
  let batch := ({ store, logs } : Batch).logEvent "run_started"
    [("mode", .str r.mode.name), ("files", .int paths.length), ("workers", .int r.workers)]
  let run := (Pool.new r.workers 10 batch).bind (·.runAll (r.jobOptions settings) paths)
  run.mapError fun e =>
    { exitCode := Execution.refused, errors := s!"Unexpected error: {e.message}\n", store }

/--
What is printed on a file: to the output and to the errors.
-/
def describe (r : Request) (outcome : Outcome) : String × String :=
  let label := outcome.job.path.text
  match outcome.result with
  | .failed e =>
    let diff :=
      match e with
      | .style (.violation v) => v.diff
      | _ => ""
    ("", s!"{label}: error: {e.message}\n" ++ diff)
  | .done changed found diff =>
    let lines := if r.findings then found.map fun d => d.format label ++ "\n" else []
    let verdict := if r.check && r.mode = .format && changed then s!"would reformat {label}\n" else ""
    (diff.getD "" ++ String.join lines ++ verdict, "")

/--
Whether the outcome of a file makes the run one with findings.
-/
def hasFindings (r : Request) (outcome : Outcome) : Bool :=
  match outcome.result with
  | .failed _ => true
  | .done changed found _ =>
    match r.mode with
    | .format => r.check && changed
    | .lint => r.check && !found.isEmpty
    | .check => false

/--
The last line of a report.
-/
def summary (r : Request) (outcomes : List Outcome) : String :=
  let count (status : FileStatus) : Nat := outcomes.countP (·.result.status = status)
  let failed := count .failed
  if r.mode = .lint then
    let findings := (outcomes.flatMap (·.result.found)).length
    s!"{outcomes.length} file(s) checked, {findings} finding(s), {failed} failed\n"
  else
    let verb := if r.write then "reformatted" else "would change"
    let changed := count .changed
    let unchanged := count .unchanged
    s!"{outcomes.length} file(s): {changed} {verb}, {unchanged} unchanged, {failed} failed\n"

/--
Ends the log of a run and reports on its outcomes.
-/
def conclude (r : Request) (elapsed : Nat) (p : Pool) : Execution :=
  let batch := p.batch.logEvent "run_finished" (p.batch.tally.snapshot ++ [("elapsed_ms", .int elapsed)])
  let outcomes := batch.sortedOutcomes
  let texts := outcomes.map r.describe
  { exitCode := if outcomes.any r.hasFindings then Execution.findings else Execution.success
    output := String.join (texts.map (·.1))
    errors := String.join (texts.map (·.2)) ++ r.summary outcomes
    store := batch.store }

/--
A whole run.
-/
def run (r : Request) (now : String) (elapsed : Nat) (s : FileStore) : Execution :=
  match r.process now s with
  | .ok p => r.conclude elapsed p
  | .error e => e

end Request

namespace Command

/--
The name and the version of the program.
-/
def versionText : String :=
  "hsfmt 0.1.0"

/--
The text that explains the command line.
-/
def usage : String :=
  "Usage: hsfmt [--version] [--help] COMMAND [OPTIONS] PATHS...\n\n"
    ++ "Haskell style formatter and linter\n\n"
    ++ "Commands:\n"
    ++ "  format  Format Haskell source files\n"
    ++ "          --write, --check, --diff, --diagnostics\n"
    ++ "  lint    Report style advisories without changing any file\n"
    ++ "          --check\n"
    ++ "  check   Verify that formatting each file twice gives the same result\n\n"
    ++ "Options of all commands:\n"
    ++ "  --config FILE    Path to an hsfmt.json configuration file\n"
    ++ "  --workers N      Number of files processed in parallel\n"
    ++ "  --log-path FILE  Write a run log, and a log of findings beside it\n"
    ++ "  --verbose        Log what is done\n"

/--
Does what the arguments ask for.
-/
def run (command : Command) (now : String) (elapsed : Nat) (s : FileStore) : Execution :=
  match command with
  | .version => { exitCode := Execution.success, output := versionText ++ "\n", store := s }
  | .help => { exitCode := Execution.success, output := usage, store := s }
  | .request r => r.run now elapsed s

end Command

end HaskellStyle
