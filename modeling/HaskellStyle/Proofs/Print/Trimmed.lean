import HaskellStyle.Proofs.Print.Output
import HaskellStyle.Proofs.Text.Normalize

/-!
This module contains that normalizing line ends is trimming: the edits are carried out from the last to the first, and
each of them drops blanks that stand before a line end and are not shielded.
-/

namespace HaskellStyle

namespace Trims

theorem not_finalEnd_cons {t : List Char} (h : ¬FinalEnd t) (c : Char) : ¬FinalEnd (c :: t) := by
  rintro (hnil | hnewline | hreturn)
  · cases hnil
  · exact h (.inl (List.cons.inj hnewline).2)
  · exact h (.inr (.inl (List.cons.inj hreturn).2))

theorem not_finalEnd_append {t : List Char} (h : ¬FinalEnd t) (cs : List Char) : ¬FinalEnd (cs ++ t) := by
  induction cs with
  | nil => exact h
  | cons c cs ih => exact not_finalEnd_cons ih c

/--
Before a text that does not end the whole text everything can be kept.
-/
theorem keep_append {x y : Shielded} {t' t : List Char} (h : Trims y t' t) (ht : ¬FinalEnd t) :
    Trims (x ++ y) t' (x.map Prod.fst ++ t) := by
  induction x with
  | nil => exact h
  | cons first x ih => exact ih.keep fun _ => not_finalEnd_append ht _

/--
Before a line end, blanks that are not shielded can be dropped.
-/
theorem drop_append {x y : Shielded} {t' t : List Char} (h : Trims y t' t) (ht : LineEnd t)
    (hx : ∀ p ∈ x, LineEdit.isLineBlank p.1 ∧ p.2 = false) : Trims (x ++ y) t' t := by
  induction x with
  | nil => exact h
  | cons first x ih =>
    obtain ⟨⟨hblank, hshield⟩, hx⟩ := List.forall_mem_cons.1 hx
    refine (ih hx).drop (by rw [LineEdit.isEndBlank, hblank]; rfl) (.inr ⟨hblank, hshield, ht⟩)

/--
At the end of a text everything blank can be dropped.
-/
theorem drop_end {x : Shielded} {t : List Char} (ht : FinalEnd t) (hx : ∀ p ∈ x, LineEdit.isEndBlank p.1) :
    Trims x t t := by
  induction x with
  | nil => exact .nil t
  | cons first x ih =>
    obtain ⟨hblank, hx⟩ := List.forall_mem_cons.1 hx
    exact (ih hx).drop hblank (.inl ht)

end Trims

namespace LineEdit

section Marked

variable {text t' : List Char} {mark : Nat → Bool}

/--
The text `s` is trimmed behind the place `n`, which is not at a line end.
-/
structure TrimmedFrom (text : List Char) (mark : Nat → Bool) (t' : List Char) (n : Nat) (s : List Char) : Prop where
  place : ∃ c ∈ text[n]?, c ≠ '\n' ∧ c ≠ '\r'
  trims : ∃ t, s = text.take n ++ t ∧ ¬FinalEnd t
    ∧ HaskellStyle.Trims ((text.mapIdx fun i c => (c, mark i)).drop n) t' t

theorem map_fst_mapIdx (text : List Char) (mark : Nat → Bool) :
    (text.mapIdx fun i c => (c, mark i)).map Prod.fst = text := by
  refine List.ext_getElem (by simp) fun i hi hi' => ?_
  rw [List.getElem_map, List.getElem_mapIdx]

theorem TrimmedFrom.trims_all {n : Nat} {s : List Char} (h : TrimmedFrom text mark t' n s) :
    HaskellStyle.Trims (text.mapIdx fun i c => (c, mark i)) t' s := by
  obtain ⟨t, rfl, hend, htrims⟩ := h.trims
  have hkept := htrims.keep_append (x := (text.mapIdx fun i c => (c, mark i)).take n) hend
  rwa [List.take_append_drop, List.map_take, map_fst_mapIdx] at hkept

/--
An edit in front of what is trimmed trims more.
-/
theorem TrimmedFrom.applyTo {shielded : List (Nat × Nat)} {n : Nat} {s : List Char} {e : LineEdit}
    (h : TrimmedFrom text mark t' n s) (he : e.Trims shielded text) (hstop : e.stop ≤ n) (hstart : e.start < e.stop)
    (hmark : ∀ i, e.start ≤ i → i < e.stop → mark i = false) :
    TrimmedFrom text mark t' e.start (LineEdit.applyTo s e) := by
  obtain ⟨t, rfl, hend, htrims⟩ := h.trims
  obtain ⟨c, hc, hnewline, hreturn⟩ := h.place
  have hn : n < text.length := (List.getElem?_eq_some_iff.1 hc).1
  -- Behind the edit a line ends, and what is trimmed already begins elsewhere.
  have hlt : e.stop < n := by
    refine Nat.lt_of_le_of_ne hstop fun heq => ?_
    rw [← heq] at hc
    rcases he.ends c hc with hc | ⟨hc, -⟩
    · exact hnewline hc
    · exact hreturn hc
  have hends : LineEnd ((text.take n).drop e.stop ++ t) := by
    have hfirst := he.ends _ (List.getElem?_eq_getElem (Nat.lt_trans hlt hn))
    rw [List.drop_eq_getElem_cons (by rw [List.length_take]; omega), List.getElem_take]
    rcases hfirst with hfirst | ⟨hfirst, hnext⟩
    · exact .inr (.inl ⟨_, by rw [hfirst]; rfl⟩)
    · have hsecond : e.stop + 1 < n := by
        refine Nat.lt_of_le_of_ne hlt fun heq => ?_
        rw [← heq] at hc
        exact hnewline (hnext c hc)
      rw [List.drop_eq_getElem_cons (by rw [List.length_take]; omega), List.getElem_take, hfirst,
        hnext _ (List.getElem?_eq_getElem (Nat.lt_trans hsecond hn))]
      exact .inr (.inr ⟨_, rfl⟩)
  refine ⟨?_, (text.take n).drop e.stop ++ t, ?_, Trims.not_finalEnd_append hend _, ?_⟩
  · obtain ⟨d, hd, hblank⟩ := he.blank e.start (Nat.le_refl _) hstart
    refine ⟨d, hd, ?_, ?_⟩ <;>
      · rintro rfl
        cases hblank
  · have hlength : (text.take n).length = n := List.length_take_of_le (Nat.le_of_lt hn)
    rw [LineEdit.applyTo, he.replacement, List.append_nil, List.take_append_of_le_length (by omega),
      List.drop_append_of_le_length (by omega), List.take_take, Nat.min_eq_left (by omega)]
  · generalize hx : (text.mapIdx fun i c => (c, mark i)) = x at *
    have hmap : x.map Prod.fst = text := by rw [← hx, map_fst_mapIdx]
    have hsplit : x.drop e.start = (x.take e.stop).drop e.start ++ ((x.take n).drop e.stop ++ x.drop n) := by
      have hmiddle : (x.take n).drop e.stop ++ x.drop n = x.drop e.stop := by
        rw [← List.drop_append_of_le_length, List.take_append_drop]
        rw [List.length_take, ← List.length_map (f := Prod.fst), hmap]
        omega
      rw [hmiddle, ← List.drop_append_of_le_length, List.take_append_drop]
      rw [List.length_take, ← List.length_map (f := Prod.fst), hmap]
      omega
    have hkept := htrims.keep_append (x := (x.take n).drop e.stop) hend
    rw [List.map_drop, List.map_take, hmap] at hkept
    rw [hsplit]
    refine hkept.drop_append hends fun p hp => ?_
    obtain ⟨i, hi⟩ := List.mem_iff_getElem?.1 hp
    rw [List.getElem?_drop, List.getElem?_take] at hi
    split at hi
    · next hlt =>
      rw [← hx, List.getElem?_mapIdx, Option.map_eq_some_iff] at hi
      obtain ⟨d, hd, rfl⟩ := hi
      obtain ⟨d', hd', hblank⟩ := he.blank _ (Nat.le_add_right _ i) hlt
      cases hd.symm.trans hd'
      exact ⟨hblank, hmark _ (Nat.le_add_right _ _) hlt⟩
    · cases hi

theorem TrimmedFrom.foldl (shielded : List (Nat × Nat)) {edits : List LineEdit} {n : Nat} {s : List Char}
    (h : TrimmedFrom text mark t' n s) (hdescending : edits.Pairwise Descending)
    (hedits : ∀ e ∈ edits, e.Trims shielded text ∧ e.stop ≤ n ∧ e.start < e.stop
      ∧ ∀ i, e.start ≤ i → i < e.stop → mark i = false) :
    HaskellStyle.Trims (text.mapIdx fun i c => (c, mark i)) t' (edits.foldl LineEdit.applyTo s) := by
  induction edits generalizing n s with
  | nil => exact h.trims_all
  | cons e edits ih =>
    obtain ⟨hlater, hdescending⟩ := List.pairwise_cons.1 hdescending
    obtain ⟨⟨htrims, hstop, hstart, hmark⟩, hedits⟩ := List.forall_mem_cons.1 hedits
    refine ih (h.applyTo htrims hstop hstart hmark) hdescending fun later hmem => ?_
    obtain ⟨htrims, -, hstart, hmark⟩ := hedits later hmem
    exact ⟨htrims, (hlater later hmem).1, hstart, hmark⟩

end Marked

theorem exists_getElem?_dropEnd {p : Char → Bool} {text : List Char} (h : (dropEnd p text).length ≠ 0) :
    ∃ c ∈ text[(dropEnd p text).length - 1]?, p c = false := by
  obtain ⟨c, hc⟩ : ∃ c, (dropEnd p text).getLast? = some c :=
    ⟨_, List.getLast?_eq_some_getLast fun hnil => h (by rw [hnil]; rfl)⟩
  obtain ⟨rest, hrest⟩ := prefix_dropEnd p text
  refine ⟨c, ?_, not_of_mem_getLast?_dropEnd c hc⟩
  have hlt : (dropEnd p text).length - 1 < (dropEnd p text).length := by omega
  have hget : (dropEnd p text ++ rest)[(dropEnd p text).length - 1]? = some c := by
    rw [List.getElem?_append_left hlt, ← List.getLast?_eq_getElem?, hc]
  rwa [hrest] at hget

end LineEdit

namespace Output

/--
What has been written is trimmed when its line ends are normalized, and then it ends in one line end, or is empty.
-/
theorem Sound.trims {out : Output} (h : out.Sound) {newline : List Char}
    (hnewline : newline = ['\n'] ∨ newline = ['\r', '\n']) :
    ∃ t', FinalEnd t' ∧ (t' = [] → LineEdit.normalize newline out.text.toList out.shielded.reverse = [])
      ∧ Trims out.marked t' (LineEdit.normalize newline out.text.toList out.shielded.reverse) := by
  rw [LineEdit.normalize_eq, marked]
  generalize out.text.toList = text
  have hsorted : out.shielded.reverse.Pairwise fun r s => r.2 ≤ s.1 := List.pairwise_reverse.2 h.disjoint
  have hbounds : ∀ r ∈ out.shielded.reverse, r.1 < r.2 := fun r hr => (h.bounded r (List.mem_reverse.1 hr)).1
  have hsort : out.shielded.reverse.mergeSort LineEdit.rangeLe = out.shielded.reverse := by
    refine List.mergeSort_of_pairwise (hsorted.imp_of_mem fun {r s} hr hs hle => ?_)
    have hlt := hbounds r hr
    simp only [LineEdit.rangeLe, Bool.or_eq_true, decide_eq_true_eq]
    exact .inl (by omega)
  rw [hsort]
  have hedits : ∀ e ∈ LineEdit.trimLines out.shielded.reverse (LineEdit.dropEnd LineEdit.isEndBlank text).length 0
      (Text.fields (· == '\n') text), e.Trims out.shielded.reverse text
        ∧ e.start < e.stop ∧ e.stop ≤ (LineEdit.dropEnd LineEdit.isEndBlank text).length
        ∧ ∀ i, e.start ≤ i → i < e.stop → out.isShielded i = false := by
    intro e he
    obtain ⟨-, hstart, hstop⟩ := LineEdit.mem_trimLines he
    have htrims : e.Trims out.shielded.reverse text := @LineEdit.trims_of_mem_trimLines _ _ [] _ e he
    refine ⟨htrims, hstart, hstop, fun i hi hi' => ?_⟩
    rw [isShielded, List.any_eq_false]
    intro r hr hmem
    simp only [Bool.and_eq_true, decide_eq_true_eq] at hmem
    have hshielded := LineEdit.isShielded_of_mem hsorted hbounds (List.mem_reverse.2 hr)
      (Nat.lt_of_le_of_lt hmem.1 hi') (Nat.lt_of_le_of_lt hi hmem.2)
    rw [htrims.unshielded] at hshielded
    cases hshielded
  have hdescending := LineEdit.pairwise_mergeSort ((LineEdit.pairwise_trimLines out.shielded.reverse
    (LineEdit.dropEnd LineEdit.isEndBlank text).length 0 (Text.fields (· == '\n') text)).imp .inr) fun e he =>
      Nat.le_of_lt (hedits e he).2.1
  generalize hlines : LineEdit.trimLines out.shielded.reverse (LineEdit.dropEnd LineEdit.isEndBlank text).length 0
    (Text.fields (· == '\n') text) = lines at hedits hdescending ⊢
  obtain ⟨dropped, htext, hdropped⟩ := LineEdit.exists_dropEnd LineEdit.isEndBlank text
  have hrest : text.drop (LineEdit.dropEnd LineEdit.isEndBlank text).length = dropped := by
    generalize LineEdit.dropEnd LineEdit.isEndBlank text = kept at htext ⊢
    rw [htext, List.drop_left]
  generalize hlength : (LineEdit.dropEnd LineEdit.isEndBlank text).length = n at *
  have hend : FinalEnd (if n = 0 then [] else newline) := by
    split
    · exact .inl rfl
    · exact .inr hnewline
  have hnone (hn : n = 0) : lines.mergeSort (fun a b => decide (b.start ≤ a.start)) = [] := by
    refine List.eq_nil_iff_forall_not_mem.2 fun e he => ?_
    have := hedits e (List.mem_mergeSort.1 he)
    omega
  refine ⟨_, hend, fun hnil => ?_, ?_⟩
  · have hn : n = 0 := by
      by_contra hn
      rw [if_neg hn] at hnil
      rcases hnewline with rfl | rfl <;> cases hnil
    rw [hnone hn, hn]
    rfl
  generalize hx : (text.mapIdx fun i c => (c, out.isShielded i)) = x
  have hmarks : x.map Prod.fst = text := hx ▸ LineEdit.map_fst_mapIdx _ _
  have hblank : Trims (x.drop n) (if n = 0 then [] else newline) (if n = 0 then [] else newline) := by
    refine Trims.drop_end hend fun p hp => hdropped p.1 ?_
    rw [← hrest, ← hmarks, ← List.map_drop]
    exact List.mem_map_of_mem hp
  by_cases hn : n = 0
  · rw [hnone hn]
    rw [hn] at hblank ⊢
    exact hblank
  · obtain ⟨c, hc, hshown⟩ := LineEdit.exists_getElem?_dropEnd (hlength ▸ hn)
    rw [hlength] at hc
    obtain ⟨hlt, hget⟩ := List.getElem?_eq_some_iff.1 hc
    -- The last character that shows is kept.
    have hfrom : LineEdit.TrimmedFrom text out.isShielded (if n = 0 then [] else newline) (n - 1)
        (text.take n ++ if n = 0 then [] else newline) := by
      refine ⟨⟨c, hc, ?_, ?_⟩, c :: (if n = 0 then [] else newline), ?_, fun hfinal => ?_, ?_⟩
      · rintro rfl
        cases hshown
      · rintro rfl
        cases hshown
      · have htake : text.take n = text.take (n - 1) ++ [c] := by
          rw [← hget, List.take_append_getElem hlt, Nat.sub_add_cancel (Nat.pos_of_ne_zero hn)]
        rw [htake, List.append_assoc, List.singleton_append]
      · rw [hfinal.isEndBlank List.mem_cons_self] at hshown
        cases hshown
      · have hxlt : n - 1 < x.length := by
          rw [← List.length_map (f := Prod.fst), hmarks]
          exact hlt
        have hfirst : x[n - 1] = (c, out.isShielded (n - 1)) := by
          simp only [← hx, List.getElem_mapIdx, hget]
        rw [hx, List.drop_eq_getElem_cons hxlt, hfirst, Nat.sub_add_cancel (Nat.pos_of_ne_zero hn)]
        exact hblank.keep fun hc => by rw [hc] at hshown; cases hshown
    rw [← hx]
    refine hfrom.foldl out.shielded.reverse hdescending fun e he => ?_
    obtain ⟨htrims, hstart, hstop, hmark⟩ := hedits e (List.mem_mergeSort.1 he)
    refine ⟨htrims, ?_, hstart, hmark⟩
    -- What is trimmed is blank, and so it ends before that character.
    refine Nat.le_sub_one_of_lt (Nat.lt_of_le_of_ne hstop fun heq => ?_)
    obtain ⟨d, hd, hblank⟩ := htrims.blank (n - 1) (by omega) (by omega)
    cases hc.symm.trans hd
    rw [LineEdit.isEndBlank, hblank] at hshown
    cases hshown

end Output

end HaskellStyle
