import HaskellStyle.Batch.Schedule
import HaskellStyle.Proofs.Fault
import HaskellStyle.Proofs.File.Store

/-!
This module contains what a worker does with one job. The stages of a job come to the same as the job done at once, and
all they read or change is the place where the job's path leads. A log changes at its own place only, and the logs of a
batch change the files of the logs and nothing else.
-/

namespace HaskellStyle

namespace Batch

/--
The paths of the logs of a batch.
-/
def logPaths (b : Batch) : List Path :=
  match b.logs with
  | none => []
  | some logs => [logs.events, logs.findings]

/--
The places where the logs of a batch stand.
-/
def logPlaces (b : Batch) : List Location :=
  b.logPaths.filterMap fun p => (b.store.locate p).toOption

/--
Whether the logs of a batch are files, as they are once they were started, and stand at the given places.
-/
def LogsAt (places : List Location) (b : Batch) : Prop :=
  ∀ p ∈ b.logPaths, ∃ l ∈ places, b.store.locate p = .ok l ∧ (b.store.files.lookup l).isSome

/--
Whether two batches differ in what stands in the files at the given places only.
-/
structure SameBut (places : List Location) (b b' : Batch) : Prop where
  outcomes : b'.outcomes = b.outcomes
  tally : b'.tally = b.tally
  logs : b'.logs = b.logs
  shape : b.store.SameShape b'.store
  elsewhere : ∀ l, l ∉ places → b'.store.files.lookup l = b.store.files.lookup l

variable {places : List Location} {b b' b'' : Batch}

theorem SameBut.refl (b : Batch) : SameBut places b b :=
  ⟨rfl, rfl, rfl, .refl _, fun _ _ => rfl⟩

theorem SameBut.trans (h : SameBut places b b') (h' : SameBut places b' b'') : SameBut places b b'' where
  outcomes := h'.outcomes.trans h.outcomes
  tally := h'.tally.trans h.tally
  logs := h'.logs.trans h.logs
  shape := h.shape.trans h'.shape
  elsewhere l hl := (h'.elsewhere l hl).trans (h.elsewhere l hl)

theorem LogsAt.of_sameShape (h : LogsAt places b) (hlogs : b'.logs = b.logs) (hshape : b.store.SameShape b'.store) :
    LogsAt places b' := by
  intro p hp
  have hpaths : b'.logPaths = b.logPaths := by
    unfold logPaths
    rw [hlogs]
  rw [hpaths] at hp
  obtain ⟨l, hl, hlocate, hlookup⟩ := h p hp
  exact ⟨l, hl, (hshape.locate_eq p).trans hlocate, (hshape.isSome_lookup l).trans hlookup⟩

theorem LogsAt.of_sameBut (h : LogsAt places b) (hsame : SameBut places b b') : LogsAt places b' :=
  h.of_sameShape hsame.logs hsame.shape

@[simp]
theorem outcomes_logTo (place : RunLogs → Path) (record : List (String × Json)) (b : Batch) :
    (b.logTo place record).outcomes = b.outcomes := by
  unfold logTo
  split
  · rfl
  · split <;> rfl

@[simp]
theorem outcomes_logEvent (name : String) (members : List (String × Json)) (b : Batch) :
    (b.logEvent name members).outcomes = b.outcomes :=
  outcomes_logTo _ _ b

theorem outcomes_findings (path : Path) (found : List Diagnostic) (b : Batch) :
    (found.foldl (fun b d => b.logTo (·.findings) (findingRecord path d)) b).outcomes = b.outcomes := by
  induction found generalizing b with
  | nil => rfl
  | cons d found ih => rw [List.foldl_cons, ih, outcomes_logTo]

/--
What is reported is one more outcome, whether or not it can be logged.
-/
theorem outcomes_report (outcome : Outcome) (b : Batch) :
    (b.report outcome).outcomes = b.outcomes ++ [outcome] := by
  unfold report logOutcome
  split
  · rw [outcomes_logEvent]
  · rw [outcomes_findings, outcomes_logEvent]

theorem sameBut_logTo {place : RunLogs → Path} {record : List (String × Json)} (h : LogsAt places b)
    (hplace : ∀ logs, b.logs = some logs → place logs ∈ b.logPaths) : SameBut places b (b.logTo place record) := by
  unfold logTo
  split
  · exact .refl b
  · next logs hlogs =>
    split
    · next store hwrite =>
      obtain ⟨l, hl, hlocate, hlookup⟩ := h _ (hplace logs hlogs)
      obtain ⟨hshape, helsewhere⟩ := FileStore.sameShape_of_write hlocate hlookup hwrite
      exact ⟨rfl, rfl, rfl, hshape, fun m hm => helsewhere m fun heq => hm (heq ▸ hl)⟩
    · exact .refl b

theorem sameBut_logEvent (name : String) (members : List (String × Json)) (h : LogsAt places b) :
    SameBut places b (b.logEvent name members) := by
  refine sameBut_logTo h fun logs hlogs => ?_
  unfold logPaths
  rw [hlogs]
  exact List.mem_cons_self

theorem sameBut_findings {path : Path} {found : List Diagnostic} (h : LogsAt places b) :
    SameBut places b (found.foldl (fun b d => b.logTo (·.findings) (findingRecord path d)) b) := by
  induction found generalizing b with
  | nil => exact .refl b
  | cons d found ih =>
    have hfirst : SameBut places b (b.logTo (·.findings) (findingRecord path d)) := by
      refine sameBut_logTo h fun logs hlogs => ?_
      unfold logPaths
      rw [hlogs]
      exact List.mem_cons_of_mem _ List.mem_cons_self
    exact hfirst.trans (ih (h.of_sameBut hfirst))

theorem sameBut_logOutcome {outcome : Outcome} (h : LogsAt places b) : SameBut places b (b.logOutcome outcome) := by
  unfold logOutcome
  split
  · exact sameBut_logEvent _ _ h
  · exact (sameBut_logEvent _ _ h).trans (sameBut_findings (h.of_sameBut (sameBut_logEvent _ _ h)))

/--
Reporting adds an outcome and changes the logs.
-/
theorem report_spec (outcome : Outcome) (h : LogsAt places b) :
    SameBut places { b with outcomes := b.outcomes ++ [outcome] } (b.report outcome) :=
  sameBut_logOutcome (h.of_sameShape rfl (.refl _))

end Batch

variable {o : JobOptions} {s : FileStore} {job : Job}

/--
Writes a text back, if there is one.
-/
def Job.writeBack (job : Job) (s : FileStore) : JobResult × Option (List Char) → Except JobError (JobResult × FileStore)
  | (result, none) => .ok (result, s)
  | (result, some text) => ((s.writeFormatted job.path text).mapError .file).map fun s => (result, s)

theorem Job.formatBytes_eq (job : Job) (s : FileStore) (hmode : o.mode ≠ .lint) (bytes : List UInt8) :
    formatBytes o job.path bytes s = (job.render o bytes).bind (job.writeBack s) := by
  unfold formatBytes render
  simp only [bind, Except.bind, pure, Except.pure, if_neg hmode]
  cases (Format.source o.settings (o.mode = .check) (some job.path.text) (.bytes bytes)).mapError JobError.style with
  | error e => rfl
  | ok formatted =>
    dsimp only
    cases ((Source.bytes bytes).decode.mapError StyleError.encoding).mapError JobError.style with
    | error e => rfl
    | ok old =>
      dsimp only
      by_cases hwrite : (o.write && formatted.changed) = true
      · simp only [if_pos hwrite, writeBack]
        cases s.writeFormatted job.path formatted.text <;> rfl
      · simp only [if_neg hwrite, writeBack]

theorem Job.lintBytes_eq (job : Job) (s : FileStore) (hmode : o.mode = .lint) (bytes : List UInt8) :
    (lintBytes o bytes).map (fun result => (result, s)) = (job.render o bytes).bind (job.writeBack s) := by
  unfold render
  simp only [bind, Except.bind, pure, Except.pure, if_pos hmode]
  cases lintBytes o bytes <;> rfl

/--
A job is done by reading the source, making a result of it and writing it back.
-/
theorem Job.run_eq (o : JobOptions) (job : Job) (s : FileStore) :
    job.run o s =
      match ((s.readSource job.path).mapError .file).bind fun bytes =>
        (job.render o bytes).bind (job.writeBack s) with
      | .ok done => done
      | .error e => (.failed e, s) := by
  unfold Job.run
  simp only [bind, Except.bind, pure, Except.pure]
  cases (s.readSource job.path).mapError JobError.file with
  | error e => rfl
  | ok bytes =>
    dsimp only
    by_cases hmode : o.mode = .lint
    · have hlint := lintBytes_eq job s hmode bytes
      unfold Except.bind at hlint
      simp only [if_pos hmode, ← hlint]
      cases lintBytes o bytes <;> rfl
    · have hformat := formatBytes_eq job s hmode bytes
      unfold Except.bind at hformat
      cases hdone : formatBytes o job.path bytes s <;> simp only [if_neg hmode, ← hformat, hdone]

theorem Job.run_of_read_error {e : FileError} (h : s.readSource job.path = .error e) :
    job.run o s = (.failed (.file e), s) := by
  rw [run_eq, h]
  rfl

theorem Job.run_of_render_error {bytes : List UInt8} {e : JobError} (hread : s.readSource job.path = .ok bytes)
    (h : job.render o bytes = .error e) : job.run o s = (.failed e, s) := by
  rw [run_eq, hread, mapError_ok]
  dsimp only [Except.bind]
  rw [h]

theorem Job.run_of_render {bytes : List UInt8} {result : JobResult} (hread : s.readSource job.path = .ok bytes)
    (h : job.render o bytes = .ok (result, none)) : job.run o s = (result, s) := by
  rw [run_eq, hread, mapError_ok]
  dsimp only [Except.bind]
  rw [h]
  rfl

theorem Job.run_of_write {bytes : List UInt8} {result : JobResult} {text : List Char} {s' : FileStore}
    (hread : s.readSource job.path = .ok bytes) (h : job.render o bytes = .ok (result, some text))
    (hwrite : s.writeFormatted job.path text = .ok s') : job.run o s = (result, s') := by
  rw [run_eq, hread, mapError_ok]
  dsimp only [Except.bind]
  rw [h]
  dsimp only [writeBack]
  rw [hwrite]
  rfl

theorem readSource_eq_ok {p : Path} {bytes : List UInt8} : s.readSource p = .ok bytes ↔ s.read p = .ok bytes := by
  unfold FileStore.readSource
  refine ⟨mapError_eq_ok, fun h => ?_⟩
  rw [h]
  rfl

/--
A source that can be read can be written.
-/
theorem writeFormatted_of_readSource {p : Path} {bytes : List UInt8} (h : s.readSource p = .ok bytes)
    (text : List Char) :
    ∃ l, s.locate p = .ok l ∧ s.files.lookup l = some bytes
      ∧ s.writeFormatted p text = .ok (s.put l (Utf8.encode text)) := by
  obtain ⟨l, hlocate, hlookup, hreplace⟩ := FileStore.replace_of_read (readSource_eq_ok.1 h) (Utf8.encode text)
  refine ⟨l, hlocate, hlookup, ?_⟩
  unfold FileStore.writeFormatted
  rw [hreplace]
  rfl

/--
Whether a stage of a job is one that the job gets to if its source is as in the store `s`.
-/
def Stage.Agrees (o : JobOptions) (s : FileStore) (job : Job) : Stage → Prop
  | .opened => True
  | .rendering bytes => s.readSource job.path = .ok bytes
  | .writing text result => ∃ bytes, s.readSource job.path = .ok bytes ∧ job.render o bytes = .ok (result, some text)
  | .counting result | .reporting result => result = (job.run o s).1

/--
What the next stage of a job is, if its source is still as in the store `s`: the files are left alone, or the job is
settled, or it is counted.
-/
inductive Stage.Follows (o : JobOptions) (s : FileStore) (job : Job) : Stage → Batch → Stage → Batch → Prop where
  | move {stage stage' b} : stage.isSettled = false → stage'.isSettled = false → stage'.Agrees o s job →
    Follows o s job stage b stage' b
  | settle {stage b store} : stage.isSettled = false → b.store.SameShape store →
    (∀ l, s.locate job.path = .ok l → store.files.lookup l = (job.run o s).2.files.lookup l) →
    (∀ l, s.locate job.path ≠ .ok l → store.files.lookup l = b.store.files.lookup l) →
    Follows o s job stage b (.counting (job.run o s).1) { b with store }
  | count {result b} :
    Follows o s job (.counting result) b (.reporting result)
      { b with tally := b.tally.record result.status result.found }

section Next

variable {b b' : Batch} {stage stage' : Stage}

/--
If a job is settled without being written, its source stays as it was.
-/
theorem Stage.follows_of_run {result : JobResult} (hopen : stage.isSettled = false)
    (hsource : ∀ l, s.locate job.path = .ok l → b.store.files.lookup l = s.files.lookup l)
    (hrun : job.run o s = (result, s)) : stage.Follows o s job b (.counting result) b := by
  have hfollows : stage.Follows o s job b (.counting (job.run o s).1) b :=
    .settle hopen (.refl b.store) (fun l hl => by rw [hrun]; exact hsource l hl) fun _ _ => rfl
  rwa [hrun] at hfollows

theorem readSource_congr (hshape : s.SameShape b.store)
    (hsource : ∀ l, s.locate job.path = .ok l → b.store.files.lookup l = s.files.lookup l) :
    b.store.readSource job.path = s.readSource job.path := by
  unfold FileStore.readSource
  rw [hshape.read_congr hsource]

/--
What is written back is what the job would write if it were done at once.
-/
theorem Stage.follows_writing {text : List Char} {result : JobResult} (hshape : s.SameShape b.store)
    (hsource : ∀ l, s.locate job.path = .ok l → b.store.files.lookup l = s.files.lookup l)
    (hagrees : (Stage.writing text result).Agrees o s job) :
    ∃ store, b.store.writeFormatted job.path text = .ok store
      ∧ (Stage.writing text result).Follows o s job b (.counting result) { b with store } := by
  obtain ⟨bytes, hread, hrender⟩ := hagrees
  obtain ⟨l, hlocate, hlookup, hwrite⟩ := writeFormatted_of_readSource hread text
  have hrun := Job.run_of_write hread hrender hwrite
  obtain ⟨l', hlocate', hlookup', hwrite'⟩ :=
    writeFormatted_of_readSource ((readSource_congr hshape hsource).trans hread) text
  obtain rfl : l' = l := by
    rw [hshape.locate_eq, hlocate] at hlocate'
    exact (Except.ok.inj hlocate').symm
  have hfile : (s.files.lookup l').isSome := Option.isSome_of_eq_some hlookup
  have hfile' : (b.store.files.lookup l').isSome := Option.isSome_of_eq_some hlookup'
  refine ⟨_, hwrite', ?_⟩
  have hfollows : (Stage.writing text result).Follows o s job b (.counting (job.run o s).1)
      { b with store := b.store.put l' (Utf8.encode text) } := by
    refine .settle rfl (FileStore.sameShape_put hfile') (fun m hm => ?_) fun m hm => ?_
    · rw [hrun, FileStore.lookup_put hfile, FileStore.lookup_put hfile']
      rw [hlocate] at hm
      obtain rfl := Except.ok.inj hm
      rw [if_pos rfl, if_pos rfl]
    · rw [FileStore.lookup_put hfile', if_neg]
      rintro rfl
      exact hm hlocate
  rwa [hrun] at hfollows

theorem Stage.follows_of_next? (hshape : s.SameShape b.store)
    (hsource : stage.isSettled = false →
      ∀ l, s.locate job.path = .ok l → b.store.files.lookup l = s.files.lookup l)
    (hagrees : stage.Agrees o s job) (h : stage.next? o job b = some (stage', b')) :
    stage.Follows o s job b stage' b' := by
  cases stage with
  | opened =>
    have hread := readSource_congr hshape (hsource rfl)
    rw [next?] at h
    rw [hread] at h
    cases hsourceRead : s.readSource job.path with
    | error e =>
      rw [hsourceRead] at h
      cases h
      exact follows_of_run rfl (hsource rfl) (Job.run_of_read_error hsourceRead)
    | ok bytes =>
      rw [hsourceRead] at h
      cases h
      exact .move rfl rfl hsourceRead
  | rendering bytes =>
    rw [next?] at h
    cases hrender : job.render o bytes with
    | error e =>
      rw [hrender] at h
      cases h
      exact follows_of_run rfl (hsource rfl) (Job.run_of_render_error hagrees hrender)
    | ok rendered =>
      obtain ⟨result, text?⟩ := rendered
      rw [hrender] at h
      cases text? with
      | none =>
        cases h
        exact follows_of_run rfl (hsource rfl) (Job.run_of_render hagrees hrender)
      | some text =>
        cases h
        exact .move rfl rfl ⟨bytes, hagrees, hrender⟩
  | writing text result =>
    obtain ⟨store, hwrite, hfollows⟩ := follows_writing hshape (hsource rfl) hagrees
    rw [next?] at h
    rw [hwrite] at h
    cases h
    exact hfollows
  | counting result =>
    cases h
    exact .count
  | reporting result => cases h

end Next

end HaskellStyle
