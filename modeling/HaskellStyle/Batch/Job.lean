import HaskellStyle.Batch.Tally
import HaskellStyle.File.Access
import HaskellStyle.Format

/-!
This module contains the work on one file: it is read, formatted or linted, and written back where that is
asked for.
-/

namespace HaskellStyle

/--
What is done with the files of a batch: they are formatted, linted, or formatted with a check that the output
does not change again.
-/
inductive Mode where
  | format
  | lint
  | check
  deriving DecidableEq

namespace Mode

/--
The names of modes in logs.
-/
def name : Mode → String
  | .format => "format"
  | .lint => "lint"
  | .check => "check"

/--
The mode with the given name.
-/
def ofName? (name : String) : Option Mode :=
  [Mode.format, .lint, .check].find? (·.name == name)

end Mode

/--
What is the same for all files of a batch. With `write`, files that change are written back; with `diff`, the
changes are shown.
-/
structure JobOptions where
  settings : Settings
  mode : Mode
  write : Bool := false
  diff : Bool := false

/--
A file of a batch, and the number that it has there.
-/
structure Job where
  path : Path
  index : Nat
  deriving DecidableEq

/--
Why a file failed.
-/
inductive JobError where
  | file (e : FileError)
  | style (e : StyleError)

namespace JobError

/--
The wording of an error.
-/
def message : JobError → String
  | .file e => e.message
  | .style e => e.message

/--
The names of kinds of errors in logs.
-/
def name : JobError → String
  | .file _ => "FileError"
  | .style (.encoding _) => "EncodingError"
  | .style (.parse _) => "ParseError"
  | .style (.rule _) => "PassError"
  | .style (.violation _) => "IdempotenceViolation"

end JobError

/--
How the work on a file came out.
-/
inductive JobResult where
  | done (changed : Bool) (found : List Diagnostic) (diff : Option String)
  | failed (error : JobError)

namespace JobResult

/--
The status of a file with the given result.
-/
def status : JobResult → FileStatus
  | .done true _ _ => .changed
  | .done false _ _ => .unchanged
  | .failed _ => .failed

/--
The findings that were reported for a file.
-/
def found : JobResult → List Diagnostic
  | .done _ found _ => found
  | .failed _ => []

/--
The changes of a file, where they are shown.
-/
def diff? : JobResult → Option String
  | .done _ _ diff => diff
  | .failed _ => none

/--
Why a file failed.
-/
def error? : JobResult → Option JobError
  | .done _ _ _ => none
  | .failed e => some e

end JobResult

/--
Lints a source.
-/
def lintBytes (o : JobOptions) (bytes : List UInt8) : Except JobError JobResult := do
  let found ← ((Source.bytes bytes).lint o.settings).mapError .style
  return .done false found none

/--
Formats a source, and writes it back to `p` where that is asked for.
-/
def formatBytes (o : JobOptions) (p : Path) (bytes : List UInt8) (s : FileStore) :
    Except JobError (JobResult × FileStore) := do
  let source := Source.bytes bytes
  let formatted ← (Format.source o.settings (o.mode = .check) (some p.text) source).mapError .style
  let old ← (source.decode.mapError .encoding).mapError .style
  let s ←
    if o.write && formatted.changed then
      (s.writeFormatted p formatted.text).mapError .file
    else
      pure s
  let diff := if o.diff && formatted.changed then some (Diff.unified old formatted.text p.text 3) else none
  return (.done formatted.changed formatted.found diff, s)

/--
The work on one file. A file that fails is left as it is.
-/
def Job.run (o : JobOptions) (job : Job) (s : FileStore) : JobResult × FileStore :=
  let attempt : Except JobError (JobResult × FileStore) := do
    let bytes ← (s.readSource job.path).mapError .file
    if o.mode = .lint then
      return (← lintBytes o bytes, s)
    else
      formatBytes o job.path bytes s
  match attempt with
  | .ok done => done
  | .error e => (.failed e, s)

/--
The result of a job, and the number of the worker that did it.
-/
structure Outcome where
  job : Job
  worker : Nat
  result : JobResult

end HaskellStyle
