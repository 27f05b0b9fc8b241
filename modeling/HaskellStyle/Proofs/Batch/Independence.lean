import HaskellStyle.Proofs.Batch.Pool

/-!
This module contains why the result of a batch does not depend on how the workers take turns: outcomes, files and counts
are those of one worker that does one job after the other.
-/

namespace HaskellStyle

open Schedule

variable {o : JobOptions} {b c c' : Batch} {jobs : List Job} {s : Schedule} {p : Pool} {n capacity : Int}
  {paths : List Path}

theorem Job.pairwise_numbered (paths : List Path) :
    (Job.numbered paths).Pairwise fun job job' => job.index < job'.index := by
  unfold numbered
  rw [List.pairwise_map, List.pairwise_iff_getElem]
  intro i j hi hj hij
  simpa using hij

/--
A pool that was started has idle workers, nothing to do, and one more event in its log.
-/
theorem Pool.started (h : (Pool.new n capacity b).bind (·.start o) = .ok p) :
    Active o p ∧ p.queue = [] ∧ p.pending = 0 ∧ p.batch.outcomes = []
      ∧ (∀ w ∈ p.workers, taskOf? w = none)
      ∧ (b.LogsAt b.logPlaces → b.SameBut b.logPlaces { p.batch with outcomes := b.outcomes }) := by
  unfold Pool.new at h
  split at h
  · cases h
  · next hn =>
    simp only [Except.bind, Pool.start, Bool.false_eq_true, if_false] at h
    obtain rfl := Except.ok.inj h
    refine ⟨⟨rfl, rfl, rfl, ?_, ?_, rfl⟩, rfl, rfl, Batch.outcomes_logEvent _ _ _, ?_, fun hlogs => ?_⟩
    · simp only [ne_eq, List.replicate_eq_nil_iff]
      omega
    · simp only [List.length_nil]
      omega
    · intro w hw
      rw [List.eq_of_mem_replicate hw]
      rfl
    · have hevent := Batch.sameBut_logEvent (b := { b with outcomes := [] }) "worker_pool_started"
        [("num_workers", .int n.toNat), ("queue_size", .int capacity), ("mode", .str o.mode.name)]
        (hlogs.of_sameShape rfl (.refl _))
      exact ⟨rfl, hevent.tally, hevent.logs, hevent.shape, hevent.elsewhere⟩

theorem Pool.exists_started (o : JobOptions) (b : Batch) (capacity : Int) (hn : 1 ≤ n) :
    ∃ p, (Pool.new n capacity b).bind (·.start o) = .ok p := by
  unfold Pool.new
  rw [if_neg (by omega)]
  exact ⟨_, rfl⟩

theorem Schedule.current_ofPool (h : ∀ w ∈ p.workers, taskOf? w = none) (unsent : List Job) :
    (ofPool p unsent).current = [] := by
  unfold current ofPool
  dsimp only
  rw [List.map_congr_left h, List.map_const', List.reduceOption_replicate_none]

theorem Schedule.placed_ofPool (h : (Pool.new n capacity b).bind (·.start o) = .ok p) (jobs : List Job) :
    Placed jobs (ofPool p jobs) := by
  obtain ⟨hactive, hqueue, hpending, houtcomes, hidle, -⟩ := Pool.started h
  have hunfinished : (ofPool p jobs).unfinished = [] := by
    unfold unfinished
    rw [current_ofPool hidle]
    simpa [ofPool] using hqueue
  refine ⟨?_, ?_, hactive.allDone⟩
  · rw [hunfinished, finished]
    exact .of_eq (by simp [ofPool, houtcomes])
  · rw [hunfinished]
    exact hpending

theorem Schedule.sound_ofPool (hseparate : b.Separate jobs)
    (h : (Pool.new n capacity b).bind (·.start o) = .ok p) : Sound o b jobs (ofPool p jobs) := by
  refine ⟨placed_ofPool h jobs, ?_⟩
  obtain ⟨-, -, -, houtcomes, hidle, hbatch⟩ := Pool.started h
  rw [current_ofPool hidle]
  exact .start o houtcomes (hbatch hseparate.logs)

/--
Doing a batch from start to end is a run to a moment in which all is done, and one more event in the log.
-/
theorem Pool.runs_runAll (paths : List Path) (h : (Pool.new n capacity b).bind (·.start o) = .ok p) :
    ∃ s q, Runs o (ofPool p (Job.numbered paths)) s ∧ s.isComplete
      ∧ (Pool.new n capacity b).bind (·.runAll o paths) = .ok q
      ∧ q.batch = s.batch.logEvent "worker_pool_shutdown" [("timeout_used", .decimal 300 (-1))] := by
  obtain ⟨submitted, hsubmit, hactive, hruns⟩ := runs_submitAll (Pool.started h).1 (Job.numbered paths)
  obtain ⟨hwaited, hqueue, hworkers, hruns'⟩ := runs_wait hactive []
  have hrun := hruns.trans hruns'
  refine ⟨ofPool submitted.wait [], submitted.wait.shutdown, hrun, ?_, ?_, batch_shutdown hwaited hworkers⟩
  · have hplaced := (placed_ofPool h _).run hrun
    have hidle : ∀ w ∈ submitted.wait.workers, taskOf? w = none := by
      intro w hw
      rw [hworkers w hw]
      rfl
    have hpending : (ofPool submitted.wait []).pending = 0 := by
      rw [hplaced.pending, unfinished, current_ofPool hidle]
      simp [ofPool, hqueue]
    unfold isComplete
    rw [hplaced.allDone, hpending]
    rfl
  · cases hnew : Pool.new n capacity b with
    | error e =>
      rw [hnew] at h
      cases h
    | ok fresh =>
      rw [hnew] at h
      change fresh.start o = .ok p at h
      change fresh.runAll o paths = _
      unfold runAll
      rw [h]
      change Except.bind ((Job.numbered paths).foldlM (fun p job => p.submit job) p) _ = _
      rw [hsubmit]
      rfl

namespace Schedule

/--
When all is done, no worker has a job, and each job has been reported.
-/
theorem Placed.complete (h : Placed jobs s) (hcomplete : s.isComplete) :
    s.current = [] ∧ s.finished.Perm jobs := by
  unfold isComplete at hcomplete
  simp only [Bool.and_eq_true, List.isEmpty_iff] at hcomplete
  obtain ⟨⟨hunsent, -⟩, hdone⟩ := hcomplete
  rw [h.allDone, decide_eq_true_iff, h.pending, List.length_eq_zero_iff] at hdone
  have hplaced := h.placed
  rw [hunsent, hdone, List.append_nil, List.append_nil] at hplaced
  refine ⟨?_, hplaced⟩
  unfold unfinished at hdone
  simpa using (List.append_eq_nil_iff.1 (List.append_eq_nil_iff.1 hdone).1).1

theorem Sound.past_eq (h : Sound o b jobs s) (hcomplete : s.isComplete) (p : Stage → Bool) :
    (past p s.current s.batch).Perm jobs := by
  obtain ⟨hcurrent, hfinished⟩ := h.placed.complete hcomplete
  rw [hcurrent]
  unfold past
  rw [List.filter_nil, List.map_nil, List.append_nil]
  exact hfinished

/--
When all is done, the outcomes by number are those of the jobs done in the files as they were at first.
-/
theorem Sound.sortedOutcomes_eq (h : Sound o b jobs s) (hcomplete : s.isComplete)
    (hindex : jobs.Pairwise fun job job' => job.index < job'.index) :
    s.batch.sortedOutcomes.map (fun outcome => (outcome.job, outcome.result))
      = jobs.map fun job => (job, (job.run o b.store).1) := by
  have hsort : s.batch.sortedOutcomes.Perm s.batch.outcomes := List.mergeSort_perm _ _
  have hsorted : (s.batch.sortedOutcomes.map (·.job)).Pairwise fun job job' => job.index ≤ job'.index := by
    rw [List.pairwise_map]
    refine (List.pairwise_mergeSort ?_ ?_ s.batch.outcomes).imp fun hle => of_decide_eq_true hle
    · intro x y z hxy hyz
      exact decide_eq_true (Nat.le_trans (of_decide_eq_true hxy) (of_decide_eq_true hyz))
    · intro x y
      rw [Bool.or_eq_true, decide_eq_true_iff, decide_eq_true_iff]
      exact Nat.le_total _ _
  have hperm : (s.batch.sortedOutcomes.map (·.job)).Perm jobs :=
    (hsort.map _).trans (h.placed.complete hcomplete).2
  have hjobs : s.batch.sortedOutcomes.map (·.job) = jobs := by
    have hinjective := List.inj_on_of_nodup_map (f := Job.index) (List.pairwise_map.2 (hindex.imp Nat.ne_of_lt))
    refine hperm.eq_of_pairwise (fun job job' hjob hjob' hle hle' => ?_) hsorted (hindex.imp Nat.le_of_lt)
    exact hinjective (hperm.subset hjob) hjob' (Nat.le_antisymm hle hle')
  have hresults : s.batch.sortedOutcomes.map (fun outcome => (outcome.job, outcome.result))
      = s.batch.sortedOutcomes.map fun outcome => (outcome.job, (outcome.job.run o b.store).1) :=
    List.map_congr_left fun outcome houtcome =>
      congrArg (outcome.job, ·) (h.consistent.results outcome (hsort.subset houtcome))
  rw [hresults, ← hjobs, List.map_map]
  rfl

/--
When all is done, a file stands as the job that leads to it leaves it, or as at first if there is none.
-/
theorem Sound.lookup_eq {s' : Schedule} (h : Sound o b jobs s) (hcomplete : s.isComplete) (h' : Sound o b jobs s')
    (hcomplete' : s'.isComplete) {l : Location} (hl : l ∉ b.logPlaces) :
    s.batch.store.files.lookup l = s'.batch.store.files.lookup l := by
  have hjobs := h.past_eq hcomplete Stage.isSettled
  have hjobs' := h'.past_eq hcomplete' Stage.isSettled
  by_cases hplace : ∃ job ∈ jobs, b.store.locate job.path = .ok l
  · obtain ⟨job, hjob, hlocate⟩ := hplace
    rw [h.consistent.written job (hjobs.symm.subset hjob) l hlocate,
      h'.consistent.written job (hjobs'.symm.subset hjob) l hlocate]
  · have hother : ∀ job ∈ jobs, b.store.locate job.path ≠ .ok l := fun job hjob hlocate => hplace ⟨job, hjob, hlocate⟩
    rw [h.consistent.untouched l hl fun job hjob => hother job (hjobs.subset hjob),
      h'.consistent.untouched l hl fun job hjob => hother job (hjobs'.subset hjob)]

theorem Sound.tally_eq (h : Sound o b jobs s) (hcomplete : s.isComplete) :
    s.batch.tally = b.tallyOf o jobs := by
  rw [h.consistent.tally]
  exact Batch.tallyOf_perm (h.past_eq hcomplete _)

end Schedule

/--
Whether two batches that began as `b` came to the same: the same outcomes by number, whichever workers they are of, the
same files but for the logs, and the same counts but for the time.
-/
structure Batch.SameResult (b c c' : Batch) : Prop where
  outcomes : c.sortedOutcomes.map (fun outcome => (outcome.job, outcome.result))
    = c'.sortedOutcomes.map fun outcome => (outcome.job, outcome.result)
  files : ∀ l ∉ b.logPlaces, c.store.entry? l = c'.store.entry? l
  counts : c.tally.counts = c'.tally.counts

theorem FileStore.entry?_congr {s t : FileStore} {l : Location} (hdirectories : s.directories = t.directories)
    (hlookup : s.files.lookup l = t.files.lookup l) : s.entry? l = t.entry? l := by
  unfold entry?
  rw [hdirectories, hlookup]

/--
Two runs of a batch to the end come to the same, whatever pools they are of.
-/
theorem Schedule.Sound.sameResult {s' : Schedule} (h : Sound o b jobs s) (hcomplete : s.isComplete)
    (h' : Sound o b jobs s') (hcomplete' : s'.isComplete)
    (hindex : jobs.Pairwise fun job job' => job.index < job'.index) : b.SameResult s.batch s'.batch where
  outcomes := (h.sortedOutcomes_eq hcomplete hindex).trans (h'.sortedOutcomes_eq hcomplete' hindex).symm
  files l hl := FileStore.entry?_congr (h.consistent.shape.directories.trans h'.consistent.shape.directories.symm)
    (h.lookup_eq hcomplete h' hcomplete' hl)
  counts := by rw [h.tally_eq hcomplete, h'.tally_eq hcomplete']

theorem Batch.SameResult.logEvent {name : String} {members : List (String × Json)} (h : b.SameResult c c')
    (hlogs : c'.LogsAt b.logPlaces) : b.SameResult c (c'.logEvent name members) := by
  have hevent := sameBut_logEvent name members hlogs
  refine ⟨?_, fun l hl => ?_, ?_⟩
  · rw [h.outcomes]
    unfold sortedOutcomes
    rw [hevent.outcomes]
  · rw [h.files l hl]
    exact (FileStore.entry?_congr hevent.shape.directories (hevent.elsewhere l hl)).symm
  · rw [h.counts, hevent.tally]

/--
A batch whose files are apart comes to the same in whatever order its workers go on. At every moment, each job is at one
place, and as many are pending as are submitted and not finished. When the waiting side goes on, each number has one
outcome, and outcomes, files and counts are those of a pool with one worker that does the batch from start to end.
-/
theorem Batch.independent_of_schedule (hseparate : b.Separate (Job.numbered paths))
    (hstart : (Pool.new n capacity b).bind (·.start o) = .ok p) (hrun : Runs o (ofPool p (Job.numbered paths)) s) :
    (s.finished ++ s.unfinished ++ s.unsent).Perm (Job.numbered paths)
      ∧ s.pending = s.unfinished.length
      ∧ (s.isComplete →
        (∀ job ∈ Job.numbered paths, s.batch.outcomes.countP (·.job.index = job.index) = 1)
        ∧ ∃ single, (Pool.new 1 capacity b).bind (·.runAll o paths) = .ok single
          ∧ b.SameResult s.batch single.batch) := by
  have hsound := (sound_ofPool hseparate hstart).run hseparate hrun
  refine ⟨hsound.placed.placed, hsound.placed.pending, fun hcomplete => ⟨fun job hjob => ?_, ?_⟩⟩
  · have hindices : (s.finished.map (·.index)).Perm ((Job.numbered paths).map (·.index)) :=
      (hsound.placed.complete hcomplete).2.map _
    have hnodup : ((Job.numbered paths).map (·.index)).Nodup :=
      List.pairwise_map.2 ((Job.pairwise_numbered paths).imp Nat.ne_of_lt)
    have hcount := List.count_eq_one_of_mem hnodup (List.mem_map_of_mem hjob)
    rw [← hindices.count_eq, finished, List.map_map, List.count_eq_countP, List.countP_map] at hcount
    exact hcount
  · obtain ⟨p₁, hstart₁⟩ := Pool.exists_started o b capacity (Int.le_refl 1)
    obtain ⟨s₁, single, hrun₁, hcomplete₁, hsingle, hbatch⟩ := Pool.runs_runAll paths hstart₁
    have hsound₁ := (sound_ofPool hseparate hstart₁).run hseparate hrun₁
    refine ⟨single, hsingle, ?_⟩
    rw [hbatch]
    refine (hsound.sameResult hcomplete hsound₁ hcomplete₁ (Job.pairwise_numbered paths)).logEvent ?_
    exact hseparate.logs.of_sameShape hsound₁.consistent.logs hsound₁.consistent.shape

/--
The jobs of two files, one of which is to be changed, with logs.
-/
def Batch.twoFiles : Batch where
  store := {
    files := [(["A.hs"], Utf8.encode "f = 1 \n".toList), (["B.hs"], Utf8.encode "g = (\n".toList), (["e.log"], []),
      (["d.log"], [])] }
  logs := some ⟨⟨"", ["e.log"]⟩, ⟨"", ["d.log"]⟩⟩

def JobOptions.writing : JobOptions where
  settings := {}
  mode := .format
  write := true

instance (places : List Location) (b : Batch) : Decidable (b.LogsAt places) :=
  inferInstanceAs (Decidable (∀ p ∈ b.logPaths,
    ∃ l ∈ places, b.store.locate p = .ok l ∧ (b.store.files.lookup l).isSome))

theorem Batch.separate_twoFiles : twoFiles.Separate (Job.numbered [⟨"", ["A.hs"]⟩, ⟨"", ["B.hs"]⟩]) :=
  ⟨by decide +kernel, by decide +kernel, by decide +kernel⟩

theorem Pool.outcomes_finish {i : Nat} {job : Job} (h : Active o p) (hworker : p.workers[i]? = some (.busy job)) :
    (p.finish i).batch.outcomes
      = p.batch.outcomes ++ [⟨job, i + 1, (job.run o p.batch.store).1⟩] := by
  rw [finish_eq h.options h.allDone hworker]
  exact Batch.outcomes_report _ _

/--
Two workers that were started for these jobs.
-/
def Pool.twoWorkers : Pool where
  size := 2
  capacity := 1
  options := some .writing
  running := true
  workers := [.fresh, .fresh]
  allDone := true
  batch := { Batch.twoFiles with outcomes := [] }.logEvent "worker_pool_started"
    [("num_workers", .int 2), ("queue_size", .int 1), ("mode", .str "format")]

/--
The moment in which both workers have a job.
-/
def Pool.bothBusy : Pool :=
  (((twoWorkers.announce.enqueue ⟨⟨"", ["A.hs"]⟩, 1⟩).take 0).announce.enqueue ⟨⟨"", ["B.hs"]⟩, 2⟩).take 1

theorem Pool.active_bothBusy : Active .writing bothBusy :=
  ⟨rfl, rfl, rfl, List.cons_ne_nil _ _, .inr (by decide), rfl⟩

theorem Pool.runs_bothBusy :
    Runs .writing (ofPool twoWorkers (Job.numbered [⟨"", ["A.hs"]⟩, ⟨"", ["B.hs"]⟩])) (ofPool bothBusy []) := by
  have hfirst : Runs .writing (ofPool twoWorkers (Job.numbered [⟨"", ["A.hs"]⟩, ⟨"", ["B.hs"]⟩]))
      (ofPool ((twoWorkers.announce.enqueue ⟨⟨"", ["A.hs"]⟩, 1⟩).take 0) [⟨⟨"", ["B.hs"]⟩, 2⟩]) :=
    (runs_announce.trans (runs_enqueue rfl)).trans (runs_take (i := 0) (w := .fresh) rfl rfl)
  exact hfirst.trans ((runs_announce.trans (runs_enqueue rfl)).trans (runs_take (i := 1) (w := .fresh) rfl rfl))

/--
Two workers have the two jobs of a batch at the same time, and the second job is done first.
-/
theorem Batch.independent_of_schedule_twoWorkers :
    ∃ s, Runs .writing (ofPool .twoWorkers (Job.numbered [⟨"", ["A.hs"]⟩, ⟨"", ["B.hs"]⟩])) s
      ∧ s.isComplete ∧ s.finished.map (·.index) = [2, 1]
      ∧ ∃ single, (Pool.new 1 1 twoFiles).bind (·.runAll .writing [⟨"", ["A.hs"]⟩, ⟨"", ["B.hs"]⟩]) = .ok single
        ∧ twoFiles.SameResult s.batch single.batch := by
  have hworker : Pool.bothBusy.workers[1]? = some (.busy ⟨⟨"", ["B.hs"]⟩, 2⟩) := rfl
  have hactive := Pool.active_bothBusy.finish hworker
  have hworker' : (Pool.bothBusy.finish 1).workers[0]? = some (.busy ⟨⟨"", ["A.hs"]⟩, 1⟩) := rfl
  have hsecond : Runs .writing (ofPool Pool.bothBusy []) (ofPool (Pool.bothBusy.finish 1) []) :=
    Pool.runs_finish Pool.active_bothBusy.options Pool.active_bothBusy.allDone hworker
  have hfirst : Runs .writing (ofPool (Pool.bothBusy.finish 1) []) (ofPool ((Pool.bothBusy.finish 1).finish 0) []) :=
    Pool.runs_finish hactive.options hactive.allDone hworker'
  have hruns := (Pool.runs_bothBusy.trans hsecond).trans hfirst
  refine ⟨_, hruns, rfl, ?_, ?_⟩
  · show List.map _ (List.map _ ((Pool.bothBusy.finish 1).finish 0).batch.outcomes) = _
    rw [Pool.outcomes_finish hactive hworker', Pool.outcomes_finish Pool.active_bothBusy hworker]
    show List.map _ (List.map _ ((Pool.twoWorkers.batch.outcomes ++ [_]) ++ [_])) = _
    rw [Pool.twoWorkers, outcomes_logEvent]
    rfl
  · exact ((independent_of_schedule (n := 2) separate_twoFiles rfl hruns).2.2 rfl).2

end HaskellStyle
