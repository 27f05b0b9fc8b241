import HaskellStyle.Batch.Log
import HaskellStyle.File.Access

/-!
This module contains what changes in a store when bytes are put into a file that is there: the bytes at one place, and
nothing that paths depend on.
-/

namespace HaskellStyle

namespace FileStore

variable {s s' s'' : FileStore} {l l' : Location} {p : Path} {bytes : List UInt8}

theorem lookup_cons (files : List (Location × List UInt8)) :
    ((l, bytes) :: files).lookup l' = if l' = l then some bytes else files.lookup l' := by
  rw [List.lookup_cons]
  by_cases h : l' = l
  · rw [if_pos h, beq_iff_eq.2 h]
  · rw [if_neg h, beq_eq_false_iff_ne.2 h]

theorem lookup_map_put (files : List (Location × List UInt8)) :
    (files.map fun (m, old) => if m = l then (m, bytes) else (m, old)).lookup l'
      = if l' = l then (files.lookup l').map fun _ => bytes else files.lookup l' := by
  induction files with
  | nil => simp
  | cons entry files ih =>
    obtain ⟨m, old⟩ := entry
    have hhead : (if m = l then (m, bytes) else (m, old)) = (m, if m = l then bytes else old) := by
      split <;> rfl
    rw [List.map_cons]
    dsimp only
    rw [hhead, lookup_cons, lookup_cons, ih]
    by_cases hm : l' = m
    · subst hm
      by_cases hl : l' = l <;> simp [hl]
    · simp only [if_neg hm]

theorem lookup_put (h : (s.files.lookup l).isSome) :
    (s.put l bytes).files.lookup l' = if l' = l then some bytes else s.files.lookup l' := by
  rw [put, if_pos h]
  dsimp only
  rw [lookup_map_put]
  split
  · next hl =>
    obtain ⟨old, hold⟩ := Option.isSome_iff_exists.1 h
    rw [hl, hold, Option.map_some]
  · rfl

/--
Two stores with the same files and directories, but perhaps other bytes in the files.
-/
structure SameShape (s s' : FileStore) : Prop where
  workingDirectory : s'.workingDirectory = s.workingDirectory
  directories : s'.directories = s.directories
  isSome_lookup : ∀ l, (s'.files.lookup l).isSome = (s.files.lookup l).isSome

theorem SameShape.refl (s : FileStore) : SameShape s s :=
  ⟨rfl, rfl, fun _ => rfl⟩

theorem SameShape.trans (h : SameShape s s') (h' : SameShape s' s'') : SameShape s s'' where
  workingDirectory := h'.workingDirectory.trans h.workingDirectory
  directories := h'.directories.trans h.directories
  isSome_lookup l := (h'.isSome_lookup l).trans (h.isSome_lookup l)

theorem sameShape_put (h : (s.files.lookup l).isSome) : SameShape s (s.put l bytes) where
  workingDirectory := by rw [put, if_pos h]
  directories := by rw [put, if_pos h]
  isSome_lookup l' := by
    rw [lookup_put h]
    split
    · next hl => rw [hl, h, Option.isSome_some]
    · rfl

theorem entry?_eq_directory (hshape : SameShape s s') :
    s'.entry? l = some .directory ↔ s.entry? l = some .directory := by
  have hfile := hshape.isSome_lookup l
  unfold entry?
  rw [hshape.directories]
  cases hold : s.files.lookup l <;> cases hnew : s'.files.lookup l <;> simp_all

theorem entry?_eq_none (hshape : SameShape s s') : s'.entry? l = none ↔ s.entry? l = none := by
  have hfile := hshape.isSome_lookup l
  unfold entry?
  rw [hshape.directories]
  cases hold : s.files.lookup l <;> cases hnew : s'.files.lookup l <;> simp_all

theorem walk_congr (hshape : SameShape s s') (here : Location) (parts : List String) :
    s'.walk here parts = s.walk here parts := by
  induction parts generalizing here with
  | nil => rfl
  | cons part more ih =>
    unfold walk
    cases hentry : s.entry? here with
    | none => rw [(entry?_eq_none hshape).2 hentry]
    | some entry =>
      cases entry with
      | directory => rw [(entry?_eq_directory hshape).2 hentry, ih]
      | file bytes =>
        cases hentry' : s'.entry? here with
        | none =>
          rw [(entry?_eq_none hshape).1 hentry'] at hentry
          cases hentry
        | some entry' =>
          cases entry' with
          | file bytes' => rfl
          | directory =>
            rw [(entry?_eq_directory hshape).1 hentry'] at hentry
            cases hentry

/--
Where a path leads does not depend on the bytes of files.
-/
theorem SameShape.locate_eq (hshape : SameShape s s') (p : Path) : s'.locate p = s.locate p := by
  unfold locate
  rw [hshape.workingDirectory, walk_congr hshape]

theorem entry?_of_lookup (h : s.files.lookup l = some bytes) : s.entry? l = some (.file bytes) := by
  unfold entry?
  rw [h]

theorem read_eq_ok : s.read p = .ok bytes ↔ ∃ l, s.locate p = .ok l ∧ s.files.lookup l = some bytes := by
  unfold read find
  cases hlocate : s.locate p with
  | error fault => exact ⟨nofun, fun ⟨_, h, _⟩ => nomatch h⟩
  | ok l =>
    dsimp only [bind, Except.bind, pure, Except.pure]
    unfold entry?
    cases hlookup : s.files.lookup l with
    | some old => simp [hlookup]
    | none =>
      -- What stands there is a directory, or nothing does.
      cases l.isEmpty || s.directories.contains l <;> simp [hlookup, throw, throwThe, MonadExceptOf.throw]

/--
What a path reads depends on the bytes at the place where it leads only.
-/
theorem SameShape.read_congr (hshape : SameShape s s')
    (hplace : ∀ l, s.locate p = .ok l → s'.files.lookup l = s.files.lookup l) : s'.read p = s.read p := by
  unfold read find
  rw [hshape.locate_eq]
  cases hlocate : s.locate p with
  | error fault => rfl
  | ok l =>
    dsimp only [bind, Except.bind]
    unfold entry?
    rw [hplace l hlocate, hshape.directories]

theorem replace_of_read (h : s.read p = .ok bytes) (new : List UInt8) :
    ∃ l, s.locate p = .ok l ∧ s.files.lookup l = some bytes ∧ s.replace p new = .ok (s.put l new) := by
  obtain ⟨l, hlocate, hlookup⟩ := read_eq_ok.1 h
  refine ⟨l, hlocate, hlookup, ?_⟩
  unfold replace
  rw [h, hlocate]
  rfl

theorem edit_of_lookup {f : List UInt8 → List UInt8} (hlocate : s.locate p = .ok l)
    (hlookup : s.files.lookup l = some bytes) : s.edit p f = .ok (s.put l (f bytes)) := by
  unfold edit
  rw [hlocate]
  dsimp only
  rw [entry?_of_lookup hlookup]

/--
Where a path can lead, there is a directory on the way.
-/
theorem walk_dropLast {here : Location} {parts : List String} (h : s.walk here parts = .ok l) (hparts : parts ≠ []) :
    ∃ m, s.walk here parts.dropLast = .ok m ∧ s.entry? m = some .directory := by
  induction parts generalizing here with
  | nil => exact absurd rfl hparts
  | cons part more ih =>
    unfold walk at h
    split at h
    · next hdirectory =>
      cases more with
      | nil => exact ⟨here, rfl, hdirectory⟩
      | cons part' more =>
        obtain ⟨m, hwalk, hm⟩ := ih h (List.cons_ne_nil _ _)
        refine ⟨m, ?_, hm⟩
        rw [List.dropLast_cons_cons, walk, hdirectory]
        exact hwalk
    · cases h
    · cases h

/--
Something stands at the parent of a path that leads to a file.
-/
theorem find_parent (hlocate : s.locate p = .ok l) (hlookup : (s.files.lookup l).isSome) :
    ∃ entry, s.find p.parent = .ok entry := by
  by_cases hparts : p.parts = []
  · -- A path without names is its own parent.
    have hparent : p.parent = p := by
      unfold Path.parent
      rw [hparts, List.dropLast_nil, ← hparts]
    obtain ⟨bytes, hbytes⟩ := Option.isSome_iff_exists.1 hlookup
    refine ⟨.file bytes, ?_⟩
    unfold find
    rw [hparent, hlocate]
    dsimp only [bind, Except.bind]
    rw [entry?_of_lookup hbytes]
    rfl
  · obtain ⟨m, hwalk, hm⟩ := walk_dropLast hlocate hparts
    refine ⟨.directory, ?_⟩
    unfold find
    rw [show s.locate p.parent = .ok m from hwalk]
    dsimp only [bind, Except.bind]
    rw [hm]
    rfl

theorem ensureDirectories_of_find {entry : FileEntry} (h : s.find p = .ok entry)
    (hok : s.ensureDirectories p = .ok s') : s' = s := by
  have hmake : s.makeDirectory p = .error .alreadyExists := by
    unfold find at h
    unfold makeDirectory
    cases hlocate : s.locate p with
    | error fault =>
      rw [hlocate] at h
      cases h
    | ok m =>
      rw [hlocate] at h
      dsimp only [bind, Except.bind] at h ⊢
      cases hentry : s.entry? m with
      | none =>
        rw [hentry] at h
        cases h
      | some _ => rfl
  unfold ensureDirectories at hok
  rw [hmake] at hok
  dsimp only at hok
  unfold ensureDirectory at hok
  rw [hmake] at hok
  dsimp only at hok
  split at hok
  · exact (Except.ok.inj hok).symm
  · cases hok

/--
A log that is a file already changes at its own place only.
-/
theorem sameShape_of_write {record : Json} (hlocate : s.locate p = .ok l) (hlookup : (s.files.lookup l).isSome)
    (h : Log.write record p s = .ok s') :
    SameShape s s' ∧ ∀ l', l' ≠ l → s'.files.lookup l' = s.files.lookup l' := by
  obtain ⟨entry, hparent⟩ := find_parent hlocate hlookup
  obtain ⟨bytes, hbytes⟩ := Option.isSome_iff_exists.1 hlookup
  unfold Log.write at h
  cases hdirectories : s.ensureDirectories p.parent with
  | error e =>
    rw [hdirectories] at h
    cases h
  | ok above =>
    obtain rfl := ensureDirectories_of_find hparent hdirectories
    rw [hdirectories] at h
    change above.edit p _ = _ at h
    rw [edit_of_lookup hlocate hbytes] at h
    obtain rfl := Except.ok.inj h
    refine ⟨sameShape_put hlookup, fun l' hl' => ?_⟩
    rw [lookup_put hlookup, if_neg hl']

end FileStore

end HaskellStyle
