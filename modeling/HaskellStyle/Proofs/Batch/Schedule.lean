import Mathlib.Data.List.Perm.Basic
import Mathlib.Data.List.Nodup
import Mathlib.Data.List.ReduceOption
import Mathlib.Logic.Relation
import HaskellStyle.Proofs.Batch.Job

/-!
This module contains what is true at every moment of a run, in whatever order the steps happen: where the jobs are, that
as many are pending as were submitted and are not finished, and that files, results and tally are those of jobs that are
done one by one in the files as they were at first.
-/

namespace HaskellStyle

/--
The tally after some jobs, if each is done in the files as they are in a batch.
-/
def Batch.tallyOf (o : JobOptions) (b : Batch) (jobs : List Job) : Tally :=
  jobs.foldl (fun t job => t.record (job.run o b.store).1.status (job.run o b.store).1.found) b.tally

theorem Tally.record_comm (t : Tally) (status status' : FileStatus) (found found' : List Diagnostic) :
    (t.record status found).record status' found' = (t.record status' found').record status found := by
  unfold record
  rw [Tally.add_assoc, Tally.add_comm (ofFile status found 0), ← Tally.add_assoc]

/--
Files can be counted in any order.
-/
theorem Batch.tallyOf_perm {o : JobOptions} {b : Batch} {jobs jobs' : List Job} (h : jobs.Perm jobs') :
    b.tallyOf o jobs = b.tallyOf o jobs' :=
  h.foldl_eq' (fun _ _ _ _ t => t.record_comm _ _ _ _) _

theorem Stage.isCounted_of_open {stage : Stage} (h : stage.isSettled = false) : stage.isCounted = false := by
  cases stage with
  | opened | rendering | writing | counting => rfl
  | reporting result => cases h

namespace Schedule

/--
Whether one moment can come after another.
-/
abbrev Runs (o : JobOptions) : Schedule → Schedule → Prop :=
  Relation.ReflTransGen (Step o)

/--
The jobs that are reported, and those that workers have at a stage with the given property.
-/
def past (p : Stage → Bool) (current : List Task) (c : Batch) : List Job :=
  c.outcomes.map (·.job) ++ (current.filter fun t => p t.stage).map (·.job)

section Past

variable {p : Stage → Bool} {before behind : List Task} {job : Job} {stage : Stage} {c : Batch}

theorem past_of_false (hp : p stage = false) :
    past p (before ++ ⟨job, stage⟩ :: behind) c = past p (before ++ behind) c := by
  unfold past
  rw [List.filter_append, List.filter_append, List.filter_cons_of_neg (by simp [hp])]

theorem past_of_true (hp : p stage = true) :
    (past p (before ++ ⟨job, stage⟩ :: behind) c).Perm (job :: past p (before ++ behind) c) := by
  unfold past
  rw [List.filter_append, List.filter_append, List.filter_cons_of_pos (by simpa using hp), List.map_append,
    List.map_append, List.map_cons, ← List.append_assoc, ← List.append_assoc]
  exact List.perm_middle

theorem past_congr {stage' : Stage} (hp : p stage = p stage') :
    past p (before ++ ⟨job, stage⟩ :: behind) c = past p (before ++ ⟨job, stage'⟩ :: behind) c := by
  unfold past
  simp only [List.filter_append, List.filter_cons, hp, List.map_append]
  cases p stage' <;> simp

end Past

/--
What is true of the files and the counts at every moment of a run that began with the batch `b`. The workers are busy
with the tasks `current`, and `c` is what the batch has become.
-/
structure Consistent (o : JobOptions) (b : Batch) (current : List Task) (c : Batch) : Prop where
  logs : c.logs = b.logs
  shape : b.store.SameShape c.store
  agrees : ∀ t ∈ current, t.stage.Agrees o b.store t.job
  results : ∀ outcome ∈ c.outcomes, outcome.result = (outcome.job.run o b.store).1
  tally : c.tally = b.tallyOf o (past Stage.isCounted current c)
  untouched : ∀ l ∉ b.logPlaces, (∀ job ∈ past Stage.isSettled current c, b.store.locate job.path ≠ .ok l) →
    c.store.files.lookup l = b.store.files.lookup l
  written : ∀ job ∈ past Stage.isSettled current c, ∀ l, b.store.locate job.path = .ok l →
    c.store.files.lookup l = (job.run o b.store).2.files.lookup l

namespace Consistent

variable {o : JobOptions} {b c c' : Batch} {current before behind : List Task} {job : Job} {stage stage' : Stage}

theorem start (o : JobOptions) (houtcomes : c.outcomes = [])
    (hstart : b.SameBut b.logPlaces { c with outcomes := b.outcomes }) :
    Consistent o b [] c where
  logs := hstart.logs
  shape := hstart.shape
  agrees := nofun
  results := by
    rw [houtcomes]
    exact nofun
  tally := by
    unfold past
    rw [houtcomes]
    exact hstart.tally
  untouched l hl _ := hstart.elsewhere l hl
  written := by
    unfold past
    rw [houtcomes]
    exact nofun

theorem opened (h : Consistent o b (before ++ behind) c) :
    Consistent o b (before ++ ⟨job, .opened⟩ :: behind) c where
  logs := h.logs
  shape := h.shape
  agrees := by
    intro t ht
    rcases List.mem_append.1 ht with ht | ht
    · exact h.agrees t (List.mem_append_left _ ht)
    · rcases List.mem_cons.1 ht with rfl | ht
      · trivial
      · exact h.agrees t (List.mem_append_right _ ht)
  results := h.results
  tally := by
    rw [past_of_false rfl]
    exact h.tally
  untouched := by
    rw [past_of_false rfl]
    exact h.untouched
  written := by
    rw [past_of_false rfl]
    exact h.written

theorem agrees_self (h : Consistent o b (before ++ ⟨job, stage⟩ :: behind) c) : stage.Agrees o b.store job :=
  h.agrees _ (List.mem_append_right _ List.mem_cons_self)

/--
What the other workers are busy with stays right.
-/
theorem agrees_replace (h : Consistent o b (before ++ ⟨job, stage⟩ :: behind) c)
    (hagrees : stage'.Agrees o b.store job) :
    ∀ t ∈ before ++ ⟨job, stage'⟩ :: behind, t.stage.Agrees o b.store t.job := by
  intro t ht
  rcases List.mem_append.1 ht with ht | ht
  · exact h.agrees t (List.mem_append_left _ ht)
  · rcases List.mem_cons.1 ht with rfl | ht
    · exact hagrees
    · exact h.agrees t (List.mem_append_right _ (List.mem_cons_of_mem _ ht))

/--
A job whose place none of the settled jobs has finds its source as it was at first.
-/
theorem source_eq (h : Consistent o b current c)
    (hlogs : ∀ l ∈ b.logPlaces, b.store.locate job.path ≠ .ok l)
    (hfresh : ∀ job' ∈ past Stage.isSettled current c, ∀ l, b.store.locate job.path = .ok l →
      b.store.locate job'.path ≠ .ok l) :
    ∀ l, b.store.locate job.path = .ok l → c.store.files.lookup l = b.store.files.lookup l := by
  intro l hl
  exact h.untouched l (fun hlog => hlogs l hlog hl) fun job' hjob' => hfresh job' hjob' l hl

theorem move (h : Consistent o b (before ++ ⟨job, stage⟩ :: behind) c) (hold : stage.isSettled = false)
    (hnew : stage'.isSettled = false) (hagrees : stage'.Agrees o b.store job) :
    Consistent o b (before ++ ⟨job, stage'⟩ :: behind) c := by
  have hsettled : past Stage.isSettled (before ++ ⟨job, stage'⟩ :: behind) c
      = past Stage.isSettled (before ++ ⟨job, stage⟩ :: behind) c := past_congr (hnew.trans hold.symm)
  have hcounted : past Stage.isCounted (before ++ ⟨job, stage'⟩ :: behind) c
      = past Stage.isCounted (before ++ ⟨job, stage⟩ :: behind) c :=
    past_congr ((Stage.isCounted_of_open hnew).trans (Stage.isCounted_of_open hold).symm)
  exact {
    h with
    agrees := h.agrees_replace hagrees
    tally := by rw [hcounted]; exact h.tally
    untouched := by rw [hsettled]; exact h.untouched
    written := by rw [hsettled]; exact h.written }

/--
Settling a job changes the file at its place only, which none of the other settled jobs has.
-/
theorem settle (h : Consistent o b (before ++ ⟨job, stage⟩ :: behind) c) (hopen : stage.isSettled = false)
    {store : FileStore} (hshape : c.store.SameShape store)
    (hhere : ∀ l, b.store.locate job.path = .ok l → store.files.lookup l = (job.run o b.store).2.files.lookup l)
    (helsewhere : ∀ l, b.store.locate job.path ≠ .ok l → store.files.lookup l = c.store.files.lookup l)
    (hfresh : ∀ job' ∈ past Stage.isSettled (before ++ ⟨job, stage⟩ :: behind) c, ∀ l,
      b.store.locate job.path = .ok l → b.store.locate job'.path ≠ .ok l) :
    Consistent o b (before ++ ⟨job, .counting (job.run o b.store).1⟩ :: behind) { c with store } := by
  have hcounted : past Stage.isCounted (before ++ ⟨job, .counting (job.run o b.store).1⟩ :: behind) { c with store }
      = past Stage.isCounted (before ++ ⟨job, stage⟩ :: behind) c :=
    past_congr (Stage.isCounted_of_open hopen).symm
  have hold : past Stage.isSettled (before ++ ⟨job, stage⟩ :: behind) c
      = past Stage.isSettled (before ++ behind) c := past_of_false hopen
  have hnew (job' : Job) :
      job' ∈ past Stage.isSettled (before ++ ⟨job, .counting (job.run o b.store).1⟩ :: behind) { c with store }
        ↔ job' = job ∨ job' ∈ past Stage.isSettled (before ++ behind) c := by
    rw [(past_of_true (c := { c with store }) rfl).mem_iff, List.mem_cons]
    rfl
  exact {
    logs := h.logs
    shape := h.shape.trans hshape
    agrees := h.agrees_replace rfl
    results := h.results
    tally := by rw [hcounted]; exact h.tally
    untouched := by
      intro l hl hother
      rw [helsewhere l (hother job ((hnew job).2 (.inl rfl)))]
      refine h.untouched l hl fun job' hjob' => hother job' ((hnew job').2 (.inr ?_))
      rwa [hold] at hjob'
    written := by
      intro job' hjob' l hl
      rcases (hnew job').1 hjob' with rfl | hjob'
      · exact hhere l hl
      · rw [← hold] at hjob'
        rw [helsewhere l fun hjob => hfresh job' hjob' l hjob hl]
        exact h.written job' hjob' l hl }

theorem count {result : JobResult} (h : Consistent o b (before ++ ⟨job, .counting result⟩ :: behind) c) :
    Consistent o b (before ++ ⟨job, .reporting result⟩ :: behind)
      { c with tally := c.tally.record result.status result.found } := by
  have hresult : result = (job.run o b.store).1 := h.agrees_self
  have hsettled : past Stage.isSettled (before ++ ⟨job, .reporting result⟩ :: behind)
        { c with tally := c.tally.record result.status result.found }
      = past Stage.isSettled (before ++ ⟨job, .counting result⟩ :: behind) c := past_congr rfl
  exact {
    logs := h.logs
    shape := h.shape
    agrees := h.agrees_replace hresult
    results := h.results
    tally := by
      have hperm : (past Stage.isCounted (before ++ ⟨job, .reporting result⟩ :: behind)
            { c with tally := c.tally.record result.status result.found }).Perm
          (past Stage.isCounted (before ++ behind) c ++ [job]) :=
        (past_of_true rfl).trans (List.perm_append_singleton _ _).symm
      rw [Batch.tallyOf_perm hperm, Batch.tallyOf, List.foldl_append]
      have htally := h.tally
      rw [past_of_false rfl, Batch.tallyOf] at htally
      rw [← htally, hresult]
      rfl
    untouched := by rw [hsettled]; exact h.untouched
    written := by rw [hsettled]; exact h.written }

/--
A worker that goes on keeps files, results and tally as they should be, if the place of its job is neither that of a log
nor that of a settled job.
-/
theorem work (h : Consistent o b (before ++ ⟨job, stage⟩ :: behind) c)
    (hlogs : ∀ l ∈ b.logPlaces, b.store.locate job.path ≠ .ok l)
    (hfresh : stage.isSettled = false →
      ∀ job' ∈ past Stage.isSettled (before ++ ⟨job, stage⟩ :: behind) c, ∀ l,
        b.store.locate job.path = .ok l → b.store.locate job'.path ≠ .ok l)
    (hnext : stage.next? o job c = some (stage', c')) :
    Consistent o b (before ++ ⟨job, stage'⟩ :: behind) c' := by
  have hsource (hopen : stage.isSettled = false) := h.source_eq hlogs (hfresh hopen)
  cases Stage.follows_of_next? h.shape hsource h.agrees_self hnext with
  | move hold hnew hagrees => exact h.move hold hnew hagrees
  | settle hopen hshape hhere helsewhere => exact h.settle hopen hshape hhere helsewhere (hfresh hopen)
  | count => exact h.count

/--
Finishing a job reports the result that it has in the files as they were at first.
-/
theorem finish {result : JobResult} {worker : Nat} (hlogs : b.LogsAt b.logPlaces)
    (hplaces : ∀ job' ∈ past Stage.isSettled (before ++ ⟨job, .reporting result⟩ :: behind) c,
      ∀ l ∈ b.logPlaces, b.store.locate job'.path ≠ .ok l)
    (h : Consistent o b (before ++ ⟨job, .reporting result⟩ :: behind) c) :
    Consistent o b (before ++ behind) (c.report ⟨job, worker, result⟩) := by
  have hreport := Batch.report_spec ⟨job, worker, result⟩ (hlogs.of_sameShape h.logs h.shape)
  have hpast (p : Stage → Bool) (hp : p (.reporting result) = true) :
      (past p (before ++ behind) (c.report ⟨job, worker, result⟩)).Perm
        (past p (before ++ ⟨job, .reporting result⟩ :: behind) c) := by
    refine .trans ?_ (past_of_true hp).symm
    unfold past
    rw [hreport.outcomes, List.map_append, List.map_singleton, List.append_assoc]
    exact List.perm_middle
  exact {
    logs := hreport.logs.trans h.logs
    shape := h.shape.trans hreport.shape
    agrees := by
      intro t ht
      refine h.agrees t ?_
      rcases List.mem_append.1 ht with ht | ht
      · exact List.mem_append_left _ ht
      · exact List.mem_append_right _ (List.mem_cons_of_mem _ ht)
    results := by
      rw [hreport.outcomes]
      intro outcome houtcome
      rcases List.mem_append.1 houtcome with houtcome | houtcome
      · exact h.results outcome houtcome
      · rw [List.mem_singleton.1 houtcome]
        exact h.agrees_self
    tally := by
      rw [Batch.tallyOf_perm (hpast _ rfl)]
      exact hreport.tally.trans h.tally
    untouched := by
      intro l hl hother
      rw [hreport.elsewhere l hl]
      exact h.untouched l hl fun job' hjob' => hother job' ((hpast _ rfl).mem_iff.2 hjob')
    written := by
      intro job' hjob' l hl
      have hsettled := (hpast _ rfl).mem_iff.1 hjob'
      rw [hreport.elsewhere l fun hlog => hplaces job' hsettled l hlog hl]
      exact h.written job' hsettled l hl }

end Consistent

/--
The tasks that workers are busy with.
-/
def current (s : Schedule) : List Task :=
  s.tasks.reduceOption

/--
The jobs that are done and reported.
-/
def finished (s : Schedule) : List Job :=
  s.batch.outcomes.map (·.job)

/--
The jobs that are submitted and not finished: workers have them, or they are in the queue, or wait for room in it.
-/
def unfinished (s : Schedule) : List Job :=
  s.current.map (·.job) ++ s.queue ++ s.announced.toList

/--
Where the jobs of a batch are: each is at one place. As many are pending as are submitted and not finished.
-/
structure Placed (jobs : List Job) (s : Schedule) : Prop where
  placed : (s.finished ++ s.unfinished ++ s.unsent).Perm jobs
  pending : s.pending = s.unfinished.length
  allDone : s.allDone = decide (s.pending = 0)

variable {o : JobOptions} {jobs : List Job} {s s' : Schedule} {before behind : List (Option Task)}

theorem current_some {t : Task} (h : s.tasks = before ++ some t :: behind) :
    s.current = before.reduceOption ++ t :: behind.reduceOption := by
  unfold current
  rw [h, List.reduceOption_append, List.reduceOption_cons_of_some]

theorem current_none (before behind : List (Option Task)) (h : s.tasks = before ++ none :: behind) :
    s.current = before.reduceOption ++ behind.reduceOption := by
  unfold current
  rw [h, List.reduceOption_append, List.reduceOption_cons_of_none]

theorem outcomes_of_next? {stage stage' : Stage} {job : Job} {b b' : Batch}
    (h : stage.next? o job b = some (stage', b')) : b'.outcomes = b.outcomes := by
  unfold Stage.next? at h
  repeat' split at h
  all_goals first | cases h; rfl | cases h

/--
A job that goes from one place to another keeps all places but these two as they are.
-/
theorem Placed.of_unfinished (h : Placed jobs s) (hfinished : s'.finished = s.finished)
    (hunfinished : s'.unfinished.Perm s.unfinished) (hunsent : s'.unsent = s.unsent) (hpending : s'.pending = s.pending)
    (hdone : s'.allDone = s.allDone) : Placed jobs s' where
  placed := by
    rw [hfinished, hunsent]
    exact ((hunfinished.append_left _).append_right _).trans h.placed
  pending := by rw [hpending, hunfinished.length_eq, h.pending]
  allDone := by rw [hdone, hpending, h.allDone]

theorem Placed.of_finished (h : Placed jobs s) (job : Job) (hfinished : s'.finished = s.finished ++ [job])
    (hunfinished : s.unfinished.Perm (job :: s'.unfinished)) (hunsent : s'.unsent = s.unsent)
    (hpending : s'.pending = s.pending - 1) (hdone : s'.allDone = (s.allDone || s.pending - 1 = 0)) :
    Placed jobs s' := by
  have hlength : s.pending = s'.unfinished.length + 1 := by
    rw [h.pending, hunfinished.length_eq, List.length_cons]
  refine ⟨?_, ?_, ?_⟩
  · refine List.Perm.trans ?_ h.placed
    rw [hfinished, hunsent, List.append_assoc s.finished]
    exact (hunfinished.symm.append_left _).append_right _
  · rw [hpending, hlength]
    rfl
  · -- The event was not set before, since the job was pending.
    rw [hdone, hpending, h.allDone, hlength]
    simp

theorem Placed.step (h : Placed jobs s) (hstep : Step o s s') : Placed jobs s' := by
  cases hstep with
  | @announce job unsent hunsent hannounced =>
    have hplaced := h.placed
    have hpending := h.pending
    unfold unfinished at hplaced hpending
    rw [hunsent, hannounced] at hplaced
    rw [hannounced] at hpending
    refine ⟨(List.Perm.of_eq ?_).trans hplaced, ?_, rfl⟩
    · simp [finished, unfinished, current]
    · simp only [Option.toList_none, List.append_nil] at hpending
      simp [unfinished, current, hpending, Nat.add_assoc]
  | @enqueue job hannounced =>
    refine h.of_unfinished rfl (.of_eq ?_) rfl rfl rfl
    simp [unfinished, current, hannounced]
  | @take job queue before behind hqueue htasks =>
    refine h.of_unfinished rfl ?_ rfl rfl rfl
    unfold unfinished
    rw [current_none _ _ htasks, current_some (t := ⟨job, .opened⟩) rfl, hqueue]
    refine List.Perm.append_right _ ?_
    simp only [List.map_append, List.map_cons, List.append_assoc, List.cons_append]
    exact List.Perm.append_left _ List.perm_middle.symm
  | @work job stage stage' batch before behind htasks hnext =>
    refine h.of_unfinished ?_ (.of_eq ?_) rfl rfl rfl
    · exact congrArg (List.map (·.job)) (outcomes_of_next? hnext)
    · unfold unfinished
      rw [current_some htasks, current_some (t := ⟨job, stage'⟩) rfl]
      simp
  | @finish job result before behind htasks =>
    refine h.of_finished job ?_ ?_ rfl rfl rfl
    · simp [finished, Batch.outcomes_report]
    · unfold unfinished
      rw [current_some htasks, current_none before behind rfl]
      simp only [List.map_append, List.map_cons, List.append_assoc, List.cons_append]
      exact List.perm_middle

end Schedule

/--
Whether the jobs of a batch do not get in each other's way: no two lead to one place, and none leads to a log. The logs
are files already.
-/
structure Batch.Separate (b : Batch) (jobs : List Job) : Prop where
  logs : b.LogsAt b.logPlaces
  distinct : (jobs.filterMap fun job => (b.store.locate job.path).toOption).Nodup
  apart : ∀ job ∈ jobs, ∀ l ∈ b.logPlaces, b.store.locate job.path ≠ .ok l

namespace Schedule

/--
A moment of a run that began with the batch `b`.
-/
structure Sound (o : JobOptions) (b : Batch) (jobs : List Job) (s : Schedule) : Prop where
  placed : Placed jobs s
  consistent : Consistent o b s.current s.batch

variable {b : Batch}

theorem past_subset (h : Placed jobs s) (p : Stage → Bool) : past p s.current s.batch ⊆ jobs := by
  intro job hjob
  refine h.placed.subset ?_
  rcases List.mem_append.1 hjob with hjob | hjob
  · exact List.mem_append_left _ (List.mem_append_left _ hjob)
  · obtain ⟨t, ht, rfl⟩ := List.mem_map.1 hjob
    have hcurrent : t.job ∈ s.current.map (·.job) := List.mem_map_of_mem (List.mem_of_mem_filter ht)
    exact List.mem_append_left _ (List.mem_append_right _ (List.mem_append_left _ (List.mem_append_left _ hcurrent)))

/--
A job that is not settled is at another place of the batch than the settled ones.
-/
theorem Placed.subperm (h : Placed jobs s) {job : Job} {stage : Stage} {before behind : List (Option Task)}
    (htasks : s.tasks = before ++ some ⟨job, stage⟩ :: behind) (hopen : stage.isSettled = false) :
    (job :: past Stage.isSettled s.current s.batch).Subperm jobs := by
  have hpast : (past Stage.isSettled s.current s.batch).Sublist
      (s.finished ++ (before.reduceOption ++ behind.reduceOption).map (·.job)) := by
    rw [current_some htasks, past_of_false hopen]
    exact (List.filter_sublist.map _).append_left _
  have hplaced : (job :: (s.finished ++ (before.reduceOption ++ behind.reduceOption).map (·.job))).Perm
      (s.finished ++ s.current.map (·.job)) := by
    rw [current_some htasks, List.map_append, List.map_append, List.map_cons, ← List.append_assoc,
      ← List.append_assoc]
    exact List.perm_middle.symm
  have hwhole : (s.finished ++ s.current.map (·.job)).Sublist (s.finished ++ s.unfinished ++ s.unsent) := by
    unfold unfinished
    rw [List.append_assoc (s.current.map _), ← List.append_assoc, List.append_assoc _ _ s.unsent]
    exact List.sublist_append_left _ _
  exact (((hpast.cons_cons job).subperm.trans hplaced.subperm).trans hwhole.subperm).trans h.placed.subperm

theorem fresh_of_nodup {store : FileStore} {job : Job} {settled : List Job}
    (hjobs : (jobs.filterMap fun job => (store.locate job.path).toOption).Nodup)
    (h : (job :: settled).Subperm jobs) :
    ∀ job' ∈ settled, ∀ l, store.locate job.path = .ok l → store.locate job'.path ≠ .ok l := by
  obtain ⟨jobs', hperm, hsub⟩ := h
  have hnodup := (hperm.filterMap fun job => (store.locate job.path).toOption).nodup_iff.1
    (hjobs.sublist (hsub.filterMap _))
  intro job' hjob' l hl hl'
  rw [List.filterMap_cons_some (b := l) (by rw [hl]; rfl), List.nodup_cons] at hnodup
  exact hnodup.1 (List.mem_filterMap.2 ⟨job', hjob', by rw [hl']; rfl⟩)

/--
Every step keeps jobs, files, results and tally as they should be.
-/
theorem Sound.step (h : Sound o b jobs s) (hseparate : b.Separate jobs) (hstep : Step o s s') :
    Sound o b jobs s' := by
  have hplaces : ∀ job ∈ past Stage.isSettled s.current s.batch, ∀ l ∈ b.logPlaces, b.store.locate job.path ≠ .ok l :=
    fun job hjob => hseparate.apart job (past_subset h.placed _ hjob)
  refine ⟨h.placed.step hstep, ?_⟩
  have hconsistent := h.consistent
  cases hstep with
  | announce | enqueue => exact hconsistent
  | @take job queue before behind hqueue htasks =>
    rw [current_none _ _ htasks] at hconsistent
    rw [current_some (t := ⟨job, .opened⟩) rfl]
    exact hconsistent.opened
  | @work job stage stage' batch before behind htasks hnext =>
    have hjob : job ∈ jobs := by
      refine h.placed.placed.subset (List.mem_append_left _ (List.mem_append_right _ ?_))
      unfold unfinished
      rw [current_some htasks]
      simp
    have hfresh (hopen : stage.isSettled = false) :=
      fresh_of_nodup hseparate.distinct (h.placed.subperm htasks hopen)
    rw [current_some htasks] at hconsistent hfresh
    rw [current_some (t := ⟨job, stage'⟩) rfl]
    exact hconsistent.work (hseparate.apart job hjob) hfresh hnext
  | @finish job result before behind htasks =>
    rw [current_some htasks] at hconsistent hplaces
    rw [current_none before behind rfl]
    exact hconsistent.finish hseparate.logs hplaces

/--
What is true of a run is true at every moment of it.
-/
theorem Sound.run (h : Sound o b jobs s) (hseparate : b.Separate jobs)
    (hrun : Runs o s s') : Sound o b jobs s' := by
  induction hrun with
  | refl => exact h
  | tail _ hstep ih => exact ih.step hseparate hstep

theorem Placed.run (h : Placed jobs s) (hrun : Runs o s s') : Placed jobs s' := by
  induction hrun with
  | refl => exact h
  | tail _ hstep ih => exact ih.step hstep

theorem next?_isSome (o : JobOptions) (job : Job) {stage : Stage} (c : Batch) (h : ∀ result, stage ≠ .reporting result) :
    ∃ next, stage.next? o job c = some next := by
  refine Option.isSome_iff_exists.1 ?_
  cases stage with
  | opened => rw [Stage.next?]; split <;> rfl
  | rendering bytes => rw [Stage.next?]; split <;> rfl
  | writing text result => rw [Stage.next?]; split <;> rfl
  | counting result => rfl
  | reporting result => exact absurd rfl (h result)

/--
A batch with workers never gets stuck: something can happen next as long as not all is done.
-/
theorem Placed.exists_step (h : Placed jobs s) (hworkers : s.tasks ≠ []) (hopen : s.isComplete = false) :
    ∃ s', Step o s s' := by
  cases hcurrent : s.current with
  | cons t more =>
    have htask : t ∈ s.current := by
      rw [hcurrent]
      exact List.mem_cons_self
    have ht : some t ∈ s.tasks := List.reduceOption_mem_iff.1 htask
    obtain ⟨before, behind, htasks⟩ := List.append_of_mem ht
    obtain ⟨job, stage⟩ := t
    by_cases hreporting : ∃ result, stage = .reporting result
    · obtain ⟨result, rfl⟩ := hreporting
      exact ⟨_, .finish htasks⟩
    · obtain ⟨⟨stage', c⟩, hnext⟩ := next?_isSome o job s.batch fun result hstage =>
        hreporting ⟨result, hstage⟩
      exact ⟨_, .work htasks hnext⟩
  | nil =>
    -- No worker is busy, so the next job is taken, put into the queue, or counted.
    cases hqueue : s.queue with
    | cons job queue =>
      obtain ⟨task?, htask⟩ := List.exists_mem_of_ne_nil _ hworkers
      have hnone : task? = none := by
        cases task? with
        | none => rfl
        | some t =>
          have ht : t ∈ s.current := List.reduceOption_mem_iff.2 htask
          rw [hcurrent] at ht
          cases ht
      obtain ⟨before, behind, htasks⟩ := List.append_of_mem (hnone ▸ htask)
      exact ⟨_, .take hqueue htasks⟩
    | nil =>
      cases hannounced : s.announced with
      | some job =>
        refine ⟨_, .enqueue hannounced ?_⟩
        unfold hasRoom
        simp only [hqueue, List.length_nil, Bool.or_eq_true, decide_eq_true_iff]
        omega
      | none =>
        cases hunsent : s.unsent with
        | cons job unsent => exact ⟨_, .announce hunsent hannounced⟩
        | nil =>
          have hpending : s.pending = 0 := by
            rw [h.pending, unfinished, hcurrent, hqueue, hannounced]
            rfl
          unfold isComplete at hopen
          rw [h.allDone, hpending, hunsent, hannounced] at hopen
          cases hopen

end Schedule

end HaskellStyle
