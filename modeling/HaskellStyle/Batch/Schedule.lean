import HaskellStyle.Batch.Pool

/-!
This module contains the interleavings of a pool: what the submitting side and the workers do, one step at a time and in
any order. A worker goes through the stages of its job, and between two of them everyone else may go on. `Pool` is the
case in which a worker does a job without a break.
-/

namespace HaskellStyle

/--
The jobs of a batch: its paths, numbered from one.
-/
def Job.numbered (paths : List Path) : List Job :=
  paths.zipIdx.map fun (path, i) => { path, index := i + 1 }

/--
What a worker makes of the bytes of a source: the result, and the text to write back, if there is one.
-/
def Job.render (o : JobOptions) (job : Job) (bytes : List UInt8) :
    Except JobError (JobResult × Option (List Char)) := do
  if o.mode = .lint then
    return (← lintBytes o bytes, none)
  else
    let source := Source.bytes bytes
    let formatted ← (Format.source o.settings (o.mode = .check) (some job.path.text) source).mapError .style
    let old ← (source.decode.mapError .encoding).mapError .style
    let diff :=
      if o.diff && formatted.changed then some (Diff.unified old formatted.text job.path.text 3) else none
    return (.done formatted.changed formatted.found diff,
      if o.write && formatted.changed then some formatted.text else none)

/--
How far a worker is with a job: it has the job, the bytes of the source, a text to write back, a result to count, or a
result to report.
-/
inductive Stage where
  | opened
  | rendering (bytes : List UInt8)
  | writing (text : List Char) (result : JobResult)
  | counting (result : JobResult)
  | reporting (result : JobResult)

namespace Stage

/--
Whether nothing is done with the file any more.
-/
def isSettled : Stage → Bool
  | .counting _ | .reporting _ => true
  | _ => false

/--
Whether the file is in the tally.
-/
def isCounted : Stage → Bool
  | .reporting _ => true
  | _ => false

/--
The next stage of a job. A result is reported in the same step in which the job is finished.
-/
def next? (o : JobOptions) (job : Job) (b : Batch) : Stage → Option (Stage × Batch)
  | .opened =>
    match b.store.readSource job.path with
    | .ok bytes => some (.rendering bytes, b)
    | .error e => some (.counting (.failed (.file e)), b)
  | .rendering bytes =>
    match job.render o bytes with
    | .ok (result, some text) => some (.writing text result, b)
    | .ok (result, none) => some (.counting result, b)
    | .error e => some (.counting (.failed e), b)
  | .writing text result =>
    match b.store.writeFormatted job.path text with
    | .ok store => some (.counting result, { b with store })
    | .error e => some (.counting (.failed (.file e)), b)
  | .counting result =>
    some (.reporting result, { b with tally := b.tally.record result.status result.found })
  | .reporting _ => none

end Stage

/--
A job that a worker is busy with.
-/
structure Task where
  job : Job
  stage : Stage

/--
Adds an outcome to a batch and logs it.
-/
def Batch.report (outcome : Outcome) (b : Batch) : Batch :=
  { b with outcomes := b.outcomes ++ [outcome] }.logOutcome outcome

/--
A moment of a run. The jobs `unsent` are not submitted yet. The job `announced` is counted already, but waits for room in
the queue. There is one place in `tasks` for each worker.
-/
structure Schedule where
  capacity : Int
  unsent : List Job
  announced : Option Job := none
  queue : List Job := []
  tasks : List (Option Task)
  pending : Nat := 0
  allDone : Bool := true
  batch : Batch

namespace Schedule

/--
Whether the queue has room for a job.
-/
def hasRoom (s : Schedule) : Bool :=
  s.capacity ≤ 0 || s.queue.length < s.capacity

/--
What can happen next: a job is counted, it is put into the queue, a worker takes the first job of the queue, goes on with
its job, or finishes it.
-/
inductive Step (o : JobOptions) : Schedule → Schedule → Prop where
  | announce {s job unsent} : s.unsent = job :: unsent → s.announced = none →
    Step o s { s with unsent, announced := some job, pending := s.pending + 1, allDone := false }
  | enqueue {s job} : s.announced = some job → s.hasRoom →
    Step o s { s with announced := none, queue := s.queue ++ [job] }
  | take {s job queue before behind} : s.queue = job :: queue → s.tasks = before ++ none :: behind →
    Step o s { s with queue, tasks := before ++ some ⟨job, .opened⟩ :: behind }
  | work {s job stage stage' batch before behind} : s.tasks = before ++ some ⟨job, stage⟩ :: behind →
    stage.next? o job s.batch = some (stage', batch) →
    Step o s { s with tasks := before ++ some ⟨job, stage'⟩ :: behind, batch }
  | finish {s job result before behind} : s.tasks = before ++ some ⟨job, .reporting result⟩ :: behind →
    Step o s { s with
      tasks := before ++ none :: behind
      pending := s.pending - 1
      allDone := s.allDone || s.pending - 1 = 0
      batch := s.batch.report ⟨job, before.length + 1, result⟩ }

/--
Whether the side that waits for a batch goes on: all jobs are submitted and none is pending.
-/
def isComplete (s : Schedule) : Bool :=
  s.unsent.isEmpty && s.announced.isNone && s.allDone

/--
The task of a worker of a pool.
-/
def taskOf? : Worker → Option Task
  | .busy job => some ⟨job, .opened⟩
  | _ => none

/--
The moment in which the workers are as in a pool, and the given jobs are still to be submitted.
-/
def ofPool (p : Pool) (unsent : List Job) (announced : Option Job := none) : Schedule where
  capacity := p.capacity
  unsent := unsent
  announced := announced
  queue := p.queue
  tasks := p.workers.map taskOf?
  pending := p.pending
  allDone := p.allDone
  batch := p.batch

end Schedule

end HaskellStyle
