import HaskellStyle.Proofs.Batch.Schedule

/-!
This module contains why the pool is one of the interleavings: each of its operations is a run of steps. A batch that is
done from start to end is a run to a moment in which all is done.
-/

namespace HaskellStyle

open Schedule

variable {o : JobOptions} {p p' : Pool} {unsent : List Job} {announced : Option Job}

theorem exists_split {α : Type} {l : List α} {i : Nat} {a : α} (h : l[i]? = some a) :
    ∃ before behind, l = before ++ a :: behind ∧ before.length = i ∧ ∀ b, l.set i b = before ++ b :: behind := by
  obtain ⟨hi, rfl⟩ := List.getElem?_eq_some_iff.1 h
  refine ⟨l.take i, l.drop (i + 1), ?_, List.length_take_of_le (Nat.le_of_lt hi), fun b => ?_⟩
  · rw [List.getElem_cons_drop, List.take_append_drop]
  · exact List.set_eq_take_append_cons_drop.trans (if_pos hi)

/--
A worker that goes through the stages of a job without a break does what the job does at once.
-/
theorem Stage.runs_opened (o : JobOptions) (job : Job) (b : Batch) :
    Relation.ReflTransGen (fun x y => x.1.next? o job x.2 = some y) (Stage.opened, b)
      (.reporting (job.run o b.store).1,
        { b with
          store := (job.run o b.store).2
          tally := b.tally.record (job.run o b.store).1.status (job.run o b.store).1.found }) := by
  refine .tail (b := (.counting (job.run o b.store).1, { b with store := (job.run o b.store).2 })) ?_ rfl
  cases hread : b.store.readSource job.path with
  | error e =>
    rw [Job.run_of_read_error hread]
    refine .single ?_
    dsimp only
    rw [next?, hread]
  | ok bytes =>
    refine .head (b := (.rendering bytes, b)) (by dsimp only; rw [next?, hread]) ?_
    cases hrender : job.render o bytes with
    | error e =>
      rw [Job.run_of_render_error hread hrender]
      refine .single ?_
      dsimp only
      rw [next?, hrender]
    | ok rendered =>
      obtain ⟨result, text?⟩ := rendered
      cases text? with
      | none =>
        rw [Job.run_of_render hread hrender]
        refine .single ?_
        dsimp only
        rw [next?, hrender]
      | some text =>
        obtain ⟨l, -, -, hwrite⟩ := writeFormatted_of_readSource hread text
        rw [Job.run_of_write hread hrender hwrite]
        refine .head (b := (.writing text result, b)) (by dsimp only; rw [next?, hrender]) (.single ?_)
        dsimp only
        rw [next?, hwrite]

theorem Schedule.runs_work (s : Schedule) {job : Job} (before behind : List (Option Task)) {x y : Stage × Batch}
    (h : Relation.ReflTransGen (fun x y => x.1.next? o job x.2 = some y) x y) :
    Runs o { s with tasks := before ++ some ⟨job, x.1⟩ :: behind, batch := x.2 }
      { s with tasks := before ++ some ⟨job, y.1⟩ :: behind, batch := y.2 } := by
  induction h with
  | refl => exact .refl
  | tail _ hnext ih => exact ih.tail (.work rfl hnext)

namespace Pool

/--
A pool that runs, with a queue that is not too long.
-/
structure Active (o : JobOptions) (p : Pool) : Prop where
  options : p.options = some o
  running : p.running = true
  stopping : p.stopping = false
  workers : p.workers ≠ []
  bounded : p.capacity ≤ 0 ∨ p.queue.length ≤ p.capacity
  allDone : p.allDone = decide (p.pending = 0)

theorem runs_announce {job : Job} : Runs o (ofPool p (job :: unsent)) (ofPool p.announce unsent (some job)) :=
  .single (.announce rfl rfl)

theorem runs_enqueue {job : Job} (hroom : p.hasRoom) :
    Runs o (ofPool p unsent (some job)) (ofPool (p.enqueue job) unsent) :=
  .single (.enqueue rfl hroom)

theorem runs_take {i : Nat} {w : Worker} (hworker : p.workers[i]? = some w) (hidle : taskOf? w = none) :
    Runs o (ofPool p unsent announced) (ofPool (p.take i) unsent announced) := by
  unfold take
  cases hqueue : p.queue with
  | nil => exact .refl
  | cons job queue =>
    obtain ⟨before, behind, hworkers, -, hset⟩ := exists_split hworker
    have htasks : (ofPool p unsent announced).tasks = before.map taskOf? ++ none :: behind.map taskOf? := by
      simp [ofPool, hworkers, hidle]
    have hstep := Step.take (o := o) (s := ofPool p unsent announced) hqueue htasks
    refine .single ?_
    convert hstep using 1
    simp [ofPool, hset, taskOf?]

/--
What a worker does with a job before the result is reported.
-/
def worked (o : JobOptions) (job : Job) (b : Batch) : Batch :=
  { b with
    store := (job.run o b.store).2
    tally := b.tally.record (job.run o b.store).1.status (job.run o b.store).1.found }

theorem finish_eq {i : Nat} {job : Job} (hoptions : p.options = some o) (hdone : p.allDone = decide (p.pending = 0))
    (hworker : p.workers[i]? = some (.busy job)) :
    p.finish i = {
      p with
      workers := p.workers.set i .waiting
      pending := p.pending - 1
      allDone := p.allDone || p.pending - 1 = 0
      batch := (worked o job p.batch).report ⟨job, i + 1, (job.run o p.batch.store).1⟩ } := by
  have hevent : (p.allDone || decide (p.pending - 1 = 0)) = decide (p.pending - 1 = 0) := by
    rw [hdone]
    by_cases hzero : p.pending = 0 <;> simp [hzero]
  unfold finish
  rw [hoptions, hworker, hevent]
  rfl

theorem runs_finish {i : Nat} {job : Job} (hoptions : p.options = some o)
    (hdone : p.allDone = decide (p.pending = 0)) (hworker : p.workers[i]? = some (.busy job)) :
    Runs o (ofPool p unsent announced) (ofPool (p.finish i) unsent announced) := by
  rw [finish_eq hoptions hdone hworker]
  obtain ⟨before, behind, hworkers, rfl, hset⟩ := exists_split hworker
  have htasks : p.workers.map taskOf? = before.map taskOf? ++ some ⟨job, .opened⟩ :: behind.map taskOf? := by
    simp [hworkers, taskOf?]
  have hwork := Schedule.runs_work (ofPool p unsent announced) (before.map taskOf?) (behind.map taskOf?)
    (Stage.runs_opened o job p.batch)
  rw [← htasks] at hwork
  have hfinish := hwork.tail (.finish rfl)
  rw [List.length_map] at hfinish
  rw [hset]
  have hidle : (before ++ Worker.waiting :: behind).map taskOf? = before.map taskOf? ++ none :: behind.map taskOf? := by
    simp [taskOf?]
  unfold ofPool
  dsimp only
  rw [hidle]
  exact hfinish

theorem Active.take (h : Active o p) (i : Nat) : Active o (p.take i) := by
  unfold Pool.take
  cases hqueue : p.queue with
  | nil => exact h
  | cons job queue =>
    refine ⟨h.options, h.running, h.stopping, ?_, ?_, h.allDone⟩
    · have hworkers := h.workers
      simpa [List.set_eq_nil_iff] using hworkers
    · have hbounded := h.bounded
      rw [hqueue, List.length_cons] at hbounded
      show p.capacity ≤ 0 ∨ (queue.length : Int) ≤ p.capacity
      omega

theorem Active.finish {i : Nat} {job : Job} (h : Active o p) (hworker : p.workers[i]? = some (.busy job)) :
    Active o (p.finish i) := by
  unfold Pool.finish
  rw [h.options, hworker]
  refine ⟨rfl, h.running, h.stopping, ?_, h.bounded, rfl⟩
  have hworkers := h.workers
  simpa [List.set_eq_nil_iff] using hworkers

theorem queue_finish (i : Nat) : (p.finish i).queue = p.queue ∧ (p.finish i).capacity = p.capacity := by
  unfold finish
  split <;> exact ⟨rfl, rfl⟩

theorem exists_of_idle? {i : Nat} (h : p.idle? = some i) : ∃ w, p.workers[i]? = some w ∧ taskOf? w = none := by
  obtain ⟨hi, hidle, -⟩ := List.findIdx?_eq_some_iff_getElem.1 h
  refine ⟨p.workers[i], List.getElem?_eq_getElem hi, ?_⟩
  cases hw : p.workers[i] with
  | fresh | waiting => rfl
  | busy job => simp [hw] at hidle

theorem exists_of_busy? {i : Nat} (h : p.busy? = some i) : ∃ job, p.workers[i]? = some (.busy job) := by
  obtain ⟨hi, hbusy, -⟩ := List.findIdx?_eq_some_iff_getElem.1 h
  cases hw : p.workers[i] with
  | fresh | waiting => simp [hw] at hbusy
  | busy job => exact ⟨job, by rw [List.getElem?_eq_getElem hi, hw]⟩

/--
If no worker is busy, all have nothing to do.
-/
theorem taskOf?_of_busy? (h : p.busy? = none) : ∀ w ∈ p.workers, taskOf? w = none := by
  intro w hw
  have hidle := List.findIdx?_eq_none_iff.1 h w hw
  cases w with
  | fresh | waiting => rfl
  | busy job => cases hidle

theorem idle?_isSome (h : Active o p) (hbusy : p.busy? = none) : ∃ i, p.idle? = some i := by
  cases hidle : p.idle? with
  | some i => exact ⟨i, rfl⟩
  | none =>
    obtain ⟨w, hw⟩ := List.exists_mem_of_ne_nil _ h.workers
    have hbusyAll := List.findIdx?_eq_none_iff.1 hidle w hw
    have hidleAll := taskOf?_of_busy? hbusy w hw
    cases w with
    | fresh | waiting => cases hbusyAll
    | busy job => cases hidleAll

theorem hasRoom_take (h : Active o p) (i : Nat) : (p.take i).hasRoom := by
  have hbounded := h.bounded
  unfold Pool.take hasRoom
  cases hqueue : p.queue with
  | nil =>
    simp [hqueue]
    omega
  | cons job queue =>
    rw [hqueue, List.length_cons] at hbounded
    simp
    omega

/--
Room is made in a full queue by steps of workers.
-/
theorem runs_makeRoom (h : Active o p) (unsent : List Job) (announced : Option Job) :
    Active o p.makeRoom ∧ p.makeRoom.hasRoom
      ∧ Runs o (ofPool p unsent announced) (ofPool p.makeRoom unsent announced) := by
  unfold makeRoom
  cases hidle : p.idle? with
  | some i =>
    obtain ⟨w, hworker, hw⟩ := exists_of_idle? hidle
    exact ⟨h.take i, hasRoom_take h i, runs_take hworker hw⟩
  | none =>
    cases hbusy : p.busy? with
    | none =>
      obtain ⟨i, hi⟩ := idle?_isSome h hbusy
      rw [hidle] at hi
      cases hi
    | some i =>
      obtain ⟨job, hworker⟩ := exists_of_busy? hbusy
      have hfinish := h.finish hworker
      refine ⟨hfinish.take i, hasRoom_take hfinish i, ?_⟩
      have hidle' : (p.finish i).workers[i]? = some .waiting := by
        rw [finish_eq h.options h.allDone hworker]
        simp [(List.getElem?_eq_some_iff.1 hworker).1]
      exact (runs_finish h.options h.allDone hworker).trans (runs_take hidle' rfl)

/--
Submitting a job is a run: it is counted, room is made, it is put into the queue, and a waiting worker takes it.
-/
theorem runs_submit (h : Active o p) (job : Job) (unsent : List Job) :
    ∃ p', p.submit job = .ok p' ∧ Active o p' ∧ Runs o (ofPool p (job :: unsent)) (ofPool p' unsent) := by
  have hannounce : Active o p.announce :=
    ⟨h.options, h.running, h.stopping, h.workers, h.bounded, by simp [announce]⟩
  obtain ⟨roomy, hroomy, hactive, hroom, hruns⟩ : ∃ roomy,
      (if p.announce.hasRoom || p.announce.stopping then p.announce else p.announce.makeRoom) = roomy
        ∧ Active o roomy ∧ roomy.hasRoom
        ∧ Runs o (ofPool p.announce unsent (some job)) (ofPool roomy unsent (some job)) := by
    cases hroom : p.announce.hasRoom with
    | true => exact ⟨p.announce, by simp, hannounce, hroom, .refl⟩
    | false =>
      have hmake := runs_makeRoom hannounce unsent (some job)
      exact ⟨_, by simp [hannounce.stopping], hmake⟩
  have henqueue : Active o (roomy.enqueue job) := by
    refine ⟨hactive.options, hactive.running, hactive.stopping, hactive.workers, ?_, hactive.allDone⟩
    have hlength := hroom
    unfold hasRoom at hlength
    simp [enqueue] at hlength ⊢
    omega
  have hqueued : Runs o (ofPool p (job :: unsent)) (ofPool (roomy.enqueue job) unsent) :=
    (runs_announce.trans hruns).trans (runs_enqueue hroom)
  unfold submit
  rw [h.running, Bool.not_true, if_neg Bool.false_ne_true]
  dsimp only
  rw [hroomy]
  cases hwaiting : (roomy.enqueue job).workers.findIdx? (· = .waiting) with
  | none => exact ⟨_, rfl, henqueue, hqueued⟩
  | some i =>
    obtain ⟨hi, hw, -⟩ := List.findIdx?_eq_some_iff_getElem.1 hwaiting
    have hworker : (roomy.enqueue job).workers[i]? = some .waiting := by
      rw [List.getElem?_eq_getElem hi, of_decide_eq_true hw]
    exact ⟨_, rfl, henqueue.take i, hqueued.trans (runs_take hworker rfl)⟩

theorem runs_submitAll (h : Active o p) (jobs : List Job) :
    ∃ p', jobs.foldlM (fun p job => p.submit job) p = .ok p' ∧ Active o p' ∧ Runs o (ofPool p jobs) (ofPool p' []) := by
  induction jobs generalizing p with
  | nil => exact ⟨p, rfl, h, .refl⟩
  | cons job jobs ih =>
    obtain ⟨p', hsubmit, hactive, hruns⟩ := runs_submit h job jobs
    obtain ⟨p'', hall, hactive', hruns'⟩ := ih hactive
    refine ⟨p'', ?_, hactive', hruns.trans hruns'⟩
    rw [List.foldlM_cons, hsubmit]
    exact hall

/--
The number of workers that are busy.
-/
def busyCount (p : Pool) : Nat :=
  p.workers.countP fun w => (taskOf? w).isSome

theorem busyCount_set {i : Nat} {w : Worker} (hworker : p.workers[i]? = some w) (w' : Worker) :
    (p.workers.set i w').countP (fun w => (taskOf? w).isSome) + (if (taskOf? w).isSome then 1 else 0)
      = p.busyCount + if (taskOf? w').isSome then 1 else 0 := by
  obtain ⟨before, behind, hworkers, -, hset⟩ := exists_split hworker
  unfold busyCount
  rw [hset, hworkers]
  simp only [List.countP_append, List.countP_cons]
  omega

/--
Workers that go on for long enough do all jobs: a step takes a job from the queue or finishes one.
-/
theorem runs_advance (h : Active o p) (unsent : List Job) {n : Nat} (hn : 2 * p.queue.length + p.busyCount ≤ n) :
    Active o (p.advance n) ∧ (p.advance n).queue = [] ∧ (∀ w ∈ (p.advance n).workers, taskOf? w = none)
      ∧ Runs o (ofPool p unsent) (ofPool (p.advance n) unsent) := by
  induction n generalizing p with
  | zero =>
    have hqueue : p.queue = [] := List.length_eq_zero_iff.1 (by omega)
    have hcount : p.busyCount = 0 := by omega
    refine ⟨h, hqueue, fun w hw => ?_, .refl⟩
    simpa using List.countP_eq_zero.1 hcount w hw
  | succ n ih =>
    unfold advance
    cases hbusy : p.busy? with
    | some i =>
      obtain ⟨job, hworker⟩ := exists_of_busy? hbusy
      have hcount : (p.finish i).busyCount + 1 = p.busyCount := by
        rw [finish_eq h.options h.allDone hworker]
        exact busyCount_set hworker .waiting
      obtain ⟨hactive, hqueue, hidle, hruns⟩ := ih (h.finish hworker) (by rw [(queue_finish i).1]; omega)
      exact ⟨hactive, hqueue, hidle, (runs_finish h.options h.allDone hworker).trans hruns⟩
    | none =>
      cases hqueue : p.queue with
      | nil => exact ⟨h, hqueue, taskOf?_of_busy? hbusy, .refl⟩
      | cons job queue =>
        obtain ⟨i, hi⟩ := idle?_isSome h hbusy
        obtain ⟨w, hworker, hw⟩ := exists_of_idle? hi
        have htake : p.take i = { p with queue, workers := p.workers.set i (.busy job) } := by
          unfold take
          rw [hqueue]
        have hcount : (p.take i).busyCount = p.busyCount + 1 := by
          have hset := busyCount_set hworker (.busy job)
          rw [hw] at hset
          rw [htake]
          exact hset
        rw [hqueue, List.length_cons] at hn
        obtain ⟨hactive, hempty, hidle, hruns⟩ := ih (h.take i) (by rw [hcount, htake]; dsimp only; omega)
        rw [hi]
        exact ⟨hactive, hempty, hidle, (runs_take hworker hw).trans hruns⟩

/--
Waiting for the workers is a run to a moment in which no worker is busy and the queue is empty.
-/
theorem runs_wait (h : Active o p) (unsent : List Job) :
    Active o p.wait ∧ p.wait.queue = [] ∧ (∀ w ∈ p.wait.workers, w = .waiting)
      ∧ Runs o (ofPool p unsent) (ofPool p.wait unsent) := by
  have hfuel : 2 * p.queue.length + p.busyCount ≤ 2 * p.queue.length + p.workers.length :=
    Nat.add_le_add_left List.countP_le_length _
  obtain ⟨hactive, hqueue, hidle, hruns⟩ := runs_advance h unsent hfuel
  have hwait : p.wait = {
      p.advance (2 * p.queue.length + p.workers.length) with
      workers := (p.advance (2 * p.queue.length + p.workers.length)).workers.map fun _ => .waiting } := by
    unfold wait
    rw [h.stopping]
    rfl
  rw [hwait]
  refine ⟨⟨hactive.options, hactive.running, hactive.stopping, ?_, hactive.bounded, hactive.allDone⟩, hqueue, ?_, ?_⟩
  · simpa using hactive.workers
  · intro w hw
    obtain ⟨-, -, rfl⟩ := List.mem_map.1 hw
    rfl
  · convert hruns using 1
    unfold ofPool
    dsimp only
    rw [List.map_map, List.map_congr_left hidle]
    rfl

theorem finish_of_waiting (h : ∀ w ∈ p.workers, w = .waiting) (i : Nat) : p.finish i = p := by
  unfold finish
  split
  · next hworker =>
    cases h _ (List.mem_of_getElem? hworker)
  · rfl

/--
A pool without busy workers that is shut down logs that, and does nothing else with the batch.
-/
theorem batch_shutdown (h : Active o p) (hworkers : ∀ w ∈ p.workers, w = .waiting) :
    p.shutdown.batch = p.batch.logEvent "worker_pool_shutdown" [("timeout_used", .decimal 300 (-1))] := by
  have hfinish (is : List Nat) (q : Pool) (hq : ∀ w ∈ q.workers, w = .waiting) :
      is.foldl (fun p i => p.finish i) q = q := by
    induction is with
    | nil => rfl
    | cons i is ih => rw [List.foldl_cons, finish_of_waiting hq, ih]
  unfold shutdown
  rw [h.running, Bool.not_true, if_neg Bool.false_ne_true]
  dsimp only
  rw [hfinish _ { p with running := true, stopping := true } hworkers]

end Pool

end HaskellStyle
