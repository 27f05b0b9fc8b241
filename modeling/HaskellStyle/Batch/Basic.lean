import HaskellStyle.Batch.Job
import HaskellStyle.Batch.Log

/-!
This module contains the state of a batch: the files, the outcomes, the tally and the logs.
-/

namespace HaskellStyle

/--
What a batch has done so far. Outcomes are in the order in which the jobs were finished.
-/
structure Batch where
  store : FileStore
  outcomes : List Outcome := []
  tally : Tally := {}
  logs : Option RunLogs := none

namespace Batch

/--
Adds a record to a log, if there are logs. A log that cannot be written is left as it is.
-/
def logTo (place : RunLogs → Path) (record : List (String × Json)) (b : Batch) : Batch :=
  match b.logs with
  | none => b
  | some logs =>
    match Log.write (.obj record) (place logs) b.store with
    | .ok store => { b with store }
    | .error _ => b

/--
Logs an event.
-/
def logEvent (name : String) (members : List (String × Json)) (b : Batch) : Batch :=
  b.logTo (·.events) (("ev", .str name) :: members)

/--
A finding as a record of a log.
-/
def findingRecord (path : Path) (d : Diagnostic) : List (String × Json) :=
  [("path", .str path.text), ("kind", .str d.kind.name), ("severity", .str d.severity.name),
   ("message", .str d.message), ("line", .int d.span.lineNumber), ("column", .int d.span.columnNumber)]
    ++ (d.fix.map fun f => ("fix", Json.str f.replacement)).toList

/--
Logs an outcome.
-/
def logOutcome (outcome : Outcome) (b : Batch) : Batch :=
  let path := ("path", Json.str outcome.job.path.text)
  let worker := ("worker_id", Json.int outcome.worker)
  match outcome.result with
  | .failed e =>
    b.logEvent "file_failed" [path, worker, ("error", .str e.message), ("error_type", .str e.name)]
  | .done _ found _ =>
    let b := b.logEvent "file_formatted"
      [path, worker, ("status", .str outcome.result.status.name), ("diagnostics", .int found.length)]
    found.foldl (fun b d => b.logTo (·.findings) (findingRecord outcome.job.path d)) b

/--
Does a job, counts it and logs it.
-/
def process (o : JobOptions) (worker : Nat) (job : Job) (b : Batch) : Batch :=
  let (result, store) := job.run o b.store
  let outcome := { job, worker, result : Outcome }
  let b := { b with
    store
    tally := b.tally.record result.status result.found
    outcomes := b.outcomes ++ [outcome] }
  b.logOutcome outcome

/--
The outcomes by the numbers of their jobs.
-/
def sortedOutcomes (b : Batch) : List Outcome :=
  b.outcomes.mergeSort fun a b => a.job.index ≤ b.job.index

end Batch

end HaskellStyle
