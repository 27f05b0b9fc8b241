import HaskellStyle.Batch.Basic

/-!
This module contains the pool of workers that does the jobs of a batch. Jobs wait in a bounded queue, and a
worker takes the first one, does it, and takes the next.

The steps `announce`, `enqueue`, `take` and `finish` say what the parties do; `submit`, `wait` and `shutdown`
put them in the order in which they happen if no worker goes on before someone waits for it.
-/

namespace HaskellStyle

/--
What a worker is doing. A worker is `fresh` until someone first waits for the pool; a worker that is `waiting`
gets the next job as soon as there is one.
-/
inductive Worker where
  | fresh
  | waiting
  | busy (job : Job)
  deriving DecidableEq

/--
A misuse of a pool.
-/
inductive PoolError where
  | tooFewWorkers
  | alreadyRunning
  | notStarted
  deriving DecidableEq

/--
The wording of a misuse.
-/
def PoolError.message : PoolError → String
  | .tooFewWorkers => "num_workers must be at least 1"
  | .alreadyRunning => "Worker pool already running"
  | .notStarted => "Worker pool not started"

/--
A pool. The queue holds at most `capacity` jobs, or any number if that is not positive. The number of jobs
that were submitted and are not finished is `pending`, and `allDone` tells the waiting side that there are
none. Once `stopping` is set, no worker takes a further job.
-/
structure Pool where
  size : Nat
  capacity : Int
  options : Option JobOptions := none
  running : Bool := false
  stopping : Bool := false
  workers : List Worker := []
  queue : List Job := []
  pending : Nat := 0
  allDone : Bool := false
  batch : Batch

namespace Pool

/--
A pool with the given number of workers.
-/
def new (size : Int) (capacity : Int) (batch : Batch) : Except PoolError Pool :=
  if size < 1 then
    .error .tooFewWorkers
  else
    .ok { size := size.toNat, capacity, batch }

/--
Whether the queue has room for a job.
-/
def hasRoom (p : Pool) : Bool :=
  p.capacity ≤ 0 || p.queue.length < p.capacity

/--
Counts a job that is about to be put into the queue.
-/
def announce (p : Pool) : Pool :=
  { p with pending := p.pending + 1, allDone := false }

/--
Puts a job at the end of the queue.
-/
def enqueue (job : Job) (p : Pool) : Pool :=
  { p with queue := p.queue ++ [job] }

/--
Worker `i` takes the first job of the queue.
-/
def take (i : Nat) (p : Pool) : Pool :=
  match p.queue with
  | [] => p
  | job :: queue => { p with queue, workers := p.workers.set i (.busy job) }

/--
Worker `i` finishes its job.
-/
def finish (i : Nat) (p : Pool) : Pool :=
  match p.options, p.workers[i]? with
  | some o, some (.busy job) =>
    { p with
      workers := p.workers.set i .waiting
      pending := p.pending - 1
      allDone := p.pending - 1 = 0
      batch := p.batch.process o (i + 1) job }
  | _, _ => p

/--
The first worker that is not busy.
-/
def idle? (p : Pool) : Option Nat :=
  p.workers.findIdx? fun
    | .busy _ => false
    | _ => true

/--
The first worker that is busy.
-/
def busy? (p : Pool) : Option Nat :=
  p.workers.findIdx? fun
    | .busy _ => true
    | _ => false

/--
Makes room in a full queue: a worker takes the first job, after finishing another one if all are busy.
-/
def makeRoom (p : Pool) : Pool :=
  match p.idle? with
  | some i => p.take i
  | none =>
    match p.busy? with
    | some i => (p.finish i).take i
    | none => p

/--
Starts the workers.
-/
def start (o : JobOptions) (p : Pool) : Except PoolError Pool :=
  if p.running then
    .error .alreadyRunning
  else
    .ok { p with
      options := some o
      running := true
      workers := List.replicate p.size .fresh
      allDone := true
      batch := { p.batch with outcomes := [] }.logEvent "worker_pool_started"
        [("num_workers", .int p.size), ("queue_size", .int p.capacity), ("mode", .str o.mode.name)] }

/--
Submits a job. If the queue is full, room is made first; a worker that is waiting takes the job.
-/
def submit (job : Job) (p : Pool) : Except PoolError Pool :=
  if !p.running then
    .error .notStarted
  else
    let p := p.announce
    let p := if p.hasRoom || p.stopping then p else p.makeRoom
    let p := p.enqueue job
    match p.workers.findIdx? (· = .waiting) with
    | some i => .ok (p.take i)
    | none => .ok p

/--
Lets workers go on for a number of steps, as long as there is work.
-/
def advance : Nat → Pool → Pool
  | 0, p => p
  | n + 1, p =>
    match p.busy? with
    | some i => (p.finish i).advance n
    | none =>
      if p.queue.isEmpty then p else ((p.idle?.map p.take).getD p).advance n

/--
Waits until all jobs are done or the pool is stopping.
-/
def wait (p : Pool) : Pool :=
  if p.stopping then
    p
  else
    let p := p.advance (2 * p.queue.length + p.workers.length)
    { p with workers := p.workers.map fun _ => .waiting }

/--
Stops the workers after the jobs that they are busy with. Jobs in the queue are not done.
-/
def shutdown (p : Pool) : Pool :=
  if !p.running then
    p
  else
    let p := { p with stopping := true }
    let p := (List.range p.workers.length).foldl (fun p i => p.finish i) p
    { p with
      running := false
      workers := []
      batch := p.batch.logEvent "worker_pool_shutdown" [("timeout_used", .decimal 300 (-1))] }

/--
Whether the workers were told to stop, if the pool was ever started.
-/
def shouldStop? (p : Pool) : Option Bool :=
  p.options.map fun _ => p.stopping

/--
Does a batch from start to end: all paths are submitted in order, numbered from one, waited for, and the pool
is shut down.
-/
def runAll (o : JobOptions) (paths : List Path) (p : Pool) : Except PoolError Pool := do
  let p ← p.start o
  let jobs := paths.zipIdx.map fun (path, i) => { path, index := i + 1 : Job }
  let p ← jobs.foldlM (fun p job => p.submit job) p
  return p.wait.shutdown

end Pool

end HaskellStyle
