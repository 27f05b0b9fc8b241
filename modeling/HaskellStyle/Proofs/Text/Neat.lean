import HaskellStyle.Proofs.Text.Lines

/-!
This module contains texts that the normalization of line ends does not trim: no blank stands before a line end, unless
it is shielded. Such texts are made of lines that each end in something else than a blank.
-/

namespace HaskellStyle

/--
A text that begins with a line end.
-/
def LineStop (cs : List Char) : Prop :=
  ['\n'] <+: cs ∨ ['\r', '\n'] <+: cs

namespace LineStop

variable {a b : List Char}

theorem append (h : LineStop a) (b : List Char) : LineStop (a ++ b) :=
  h.imp (·.trans (List.prefix_append _ _)) (·.trans (List.prefix_append _ _))

theorem of_newline {newline : List Char} (h : newline = ['\n'] ∨ newline = ['\r', '\n']) (cs : List Char) :
    LineStop (newline ++ cs) := by
  rcases h with rfl | rfl
  · exact .inl (List.prefix_append _ _)
  · exact .inr (List.prefix_append _ _)

theorem mem (h : LineStop a) : '\n' ∈ a := by
  rcases h with h | h <;> exact h.subset (by simp)

/--
A line end is looked for in two characters at most.
-/
theorem of_append (h : LineStop (a ++ b)) :
    LineStop a ∨ (a = [] ∧ LineStop b) ∨ (a = ['\r'] ∧ ['\n'] <+: b) := by
  match a with
  | [] => exact .inr (.inl ⟨rfl, h⟩)
  | [c] =>
    rcases h with h | h
    · exact .inl (.inl (by simpa using h))
    · rw [List.singleton_append, List.cons_prefix_cons] at h
      exact .inr (.inr ⟨by rw [h.1], h.2⟩)
  | c :: d :: a =>
    refine .inl (h.imp (fun h => ?_) fun h => ?_) <;> simpa using h

theorem head {c : Char} {cs : List Char} (h : LineStop (c :: cs)) : c = '\n' ∨ c = '\r' := by
  rcases h with h | h
  · exact .inl (List.cons_prefix_cons.1 h).1.symm
  · exact .inr (List.cons_prefix_cons.1 h).1.symm

end LineStop

namespace Shielded

/--
The characters without their marks.
-/
def chars (x : Shielded) : List Char :=
  x.map Prod.fst

@[simp] theorem chars_nil : chars [] = [] := rfl

@[simp] theorem chars_append (x y : Shielded) : chars (x ++ y) = x.chars ++ y.chars :=
  List.map_append

@[simp] theorem chars_ofText (shield : Bool) (cs : List Char) : chars (ofText shield cs) = cs := by
  simp [chars, ofText, Function.comp_def]

/--
No blank stands before a line end, unless it is shielded.
-/
def Neat : Shielded → Prop
  | [] => True
  | (c, shield) :: x => (LineEdit.isLineBlank c → shield = false → ¬LineStop (chars x)) ∧ Neat x

variable {x y y' : Shielded} {newline : List Char}

namespace Neat

theorem of_append (h : Neat (x ++ y)) : Neat x ∧ Neat y := by
  induction x with
  | nil => exact ⟨trivial, h⟩
  | cons first x ih =>
    obtain ⟨hfirst, hrest⟩ := h
    obtain ⟨hx, hy⟩ := ih hrest
    refine ⟨⟨fun hblank hshield hstop => hfirst hblank hshield ?_, hx⟩, hy⟩
    rw [List.append_eq, chars_append]
    exact hstop.append _

theorem of_infix (h : Neat y) (hx : x <:+: y) : Neat x := by
  obtain ⟨before, after, rfl⟩ := hx
  exact h.of_append.1.of_append.2

/--
What is shielded is not trimmed.
-/
theorem shielded (cs : List Char) (hy : Neat y) : Neat (ofText true cs ++ y) := by
  induction cs with
  | nil => exact hy
  | cons c cs ih => exact ⟨fun _ h => absurd h (by decide), ih⟩

/--
Another text can follow if it begins with a line end only where the first one does as well.
-/
theorem append (hx : Neat (x ++ y')) (hy : Neat y) (hstop : LineStop y.chars → LineStop y'.chars)
    (hnewline : ['\n'] <+: y.chars → ['\n'] <+: y'.chars) : Neat (x ++ y) := by
  induction x with
  | nil => exact hy
  | cons first x ih =>
    obtain ⟨hfirst, hrest⟩ := hx
    refine ⟨fun hblank hshield h => hfirst hblank hshield ?_, ih hrest⟩
    rw [List.append_eq, chars_append] at h ⊢
    rcases h.of_append with h | ⟨hnil, h⟩ | ⟨hone, h⟩
    · exact h.append _
    · rw [hnil]
      exact hstop h
    · rw [hone]
      exact .inr (List.cons_prefix_cons.2 ⟨rfl, hnewline h⟩)

/--
Anything that does not begin with a line end or a carriage return can stand behind a text on one line.
-/
theorem behind {cs : List Char} (hcs : '\n' ∉ cs) (hy : Neat y) (h : ∀ c ∈ y.chars.head?, c ≠ '\n' ∧ c ≠ '\r')
    (shield : Bool) : Neat (ofText shield cs ++ y) := by
  induction cs with
  | nil => exact hy
  | cons c cs ih =>
    rw [List.mem_cons, not_or] at hcs
    refine ⟨fun _ _ hstop => ?_, ih hcs.2⟩
    rw [List.append_eq, chars_append] at hstop
    change LineStop (chars (ofText shield cs) ++ _) at hstop
    rw [chars_ofText] at hstop
    rcases hstop.of_append with hstop | ⟨-, hstop⟩ | ⟨-, hstop⟩
    · exact hcs.2 hstop.mem
    · cases hchars : y.chars with
      | nil =>
        rw [hchars] at hstop
        cases hstop.mem
      | cons d ds =>
        rw [hchars] at h hstop
        exact hstop.head.elim (h d rfl).1 (h d rfl).2
    · obtain ⟨ds, hds⟩ := hstop
      rw [← hds] at h
      exact (h '\n' rfl).1 rfl

end Neat

/--
Whole lines but for the last line end: blanks stand before no line end, not even one that is added.
-/
structure Lines (newline : List Char) (x : Shielded) : Prop where
  neat : Neat (x ++ ofText false newline)
  head : ['\n'] <+: x.chars → newline = ['\n']

section Lines

variable (hnewline : newline = ['\n'] ∨ newline = ['\r', '\n'])

include hnewline in
theorem neat_newline : Neat (ofText false newline) := by
  rcases hnewline with rfl | rfl
  · exact ⟨fun h => absurd h (by decide), trivial⟩
  · exact ⟨fun h => absurd h (by decide), fun h => absurd h (by decide), trivial⟩

namespace Lines

include hnewline

theorem nil : Lines newline [] where
  neat := neat_newline hnewline
  head h := absurd h (by simp)

theorem append (hx : Lines newline x) (hy : Lines newline y) : Lines newline (x ++ y) where
  neat := by
    rw [List.append_assoc]
    refine hx.neat.append hy.neat (fun _ => ?_) fun h => ?_
    · rw [chars_ofText, ← List.append_nil newline]
      exact .of_newline hnewline []
    · rw [chars_ofText]
      rw [chars_append, chars_ofText] at h
      cases hchars : y.chars with
      | nil => rwa [hchars] at h
      | cons c cs =>
        have hhead := hy.head
        rw [hchars] at h hhead
        have hline := hhead (List.cons_prefix_cons.2 ⟨(List.cons_prefix_cons.1 h).1, List.nil_prefix⟩)
        exact hline ▸ List.prefix_rfl
  head h := by
    rw [chars_append] at h
    cases hchars : x.chars with
    | nil =>
      rw [hchars] at h
      exact hy.head h
    | cons c cs =>
      have hhead := hx.head
      rw [hchars] at h hhead
      exact hhead (List.cons_prefix_cons.2 ⟨(List.cons_prefix_cons.1 h).1, List.nil_prefix⟩)

theorem lineEnd : Lines newline (ofText false newline) where
  neat := by
    rcases hnewline with rfl | rfl
    · exact ⟨fun h => absurd h (by decide), fun h => absurd h (by decide), trivial⟩
    · exact ⟨fun h => absurd h (by decide), fun h => absurd h (by decide), fun h => absurd h (by decide),
        fun h => absurd h (by decide), trivial⟩
  head h := by
    rw [chars_ofText] at h
    rcases hnewline with rfl | rfl
    · rfl
    · exact absurd (List.cons_prefix_cons.1 h).1 (by decide)

/--
A text on one line that ends in something else than a blank.
-/
theorem word {cs : List Char} (hcs : '\n' ∉ cs) (hlast : ∃ c ∈ cs.getLast?, LineEdit.isEndBlank c = false)
    (shield : Bool) : Lines newline (ofText shield cs) := by
  obtain ⟨c, hc, hshown⟩ := hlast
  obtain ⟨front, rfl⟩ := List.getLast?_eq_some_iff.1 hc
  rw [List.mem_append, not_or] at hcs
  have hkept : ∀ d, LineEdit.isEndBlank d → d ≠ c := by
    rintro d hd rfl
    rw [hd] at hshown
    cases hshown
  have hlast : Neat ((c, shield) :: ofText false newline) := by
    refine ⟨fun hblank => ?_, neat_newline hnewline⟩
    exact absurd rfl (hkept c (by rw [LineEdit.isEndBlank, hblank]; rfl))
  refine ⟨?_, fun h => ?_⟩
  · rw [ofText_append, List.append_assoc]
    refine .behind hcs.1 hlast ?_ shield
    rintro d ⟨⟩
    exact ⟨(hkept '\n' (by decide)).symm, (hkept '\r' (by decide)).symm⟩
  · rw [chars_ofText] at h
    exact absurd (h.subset List.mem_cons_self) (by simp [hcs])

/--
A text that is shielded, with whatever line ends in it.
-/
theorem ofShielded {cs : List Char} (hcs : ∀ c ∈ cs.head?, c ≠ '\n') : Lines newline (ofText true cs) where
  neat := .shielded cs (neat_newline hnewline)
  head h := by
    rw [chars_ofText] at h
    obtain ⟨rest, rfl⟩ := h
    exact absurd rfl (hcs '\n' rfl)

omit hnewline in
/--
What goes on with a line can stand behind blanks, and behind any other beginning of a line.
-/
theorem behind (hx : Neat x) (hhead : ['\n'] <+: x.chars → newline = ['\n']) (hy : Lines newline y)
    (hline : ∃ c ∈ y.chars.head?, c ≠ '\n' ∧ c ≠ '\r') : Lines newline (x ++ y) := by
  obtain ⟨c, hc, hne⟩ := hline
  obtain ⟨cs, hchars⟩ := List.head?_eq_some_iff.1 hc
  refine ⟨?_, fun h => ?_⟩
  · rw [List.append_assoc]
    have hx : Neat (x ++ []) := by rwa [List.append_nil]
    refine Neat.append hx hy.neat (fun h => ?_) fun h => ?_
    · rw [chars_append, hchars] at h
      exact absurd h.head (by simp [hne])
    · rw [chars_append, hchars] at h
      exact absurd (List.cons_prefix_cons.1 h).1.symm hne.1
  · rw [chars_append] at h
    cases hx' : x.chars with
    | nil =>
      rw [hx'] at h
      exact hy.head h
    | cons d ds =>
      rw [hx'] at h hhead
      exact hhead (List.cons_prefix_cons.2 ⟨(List.cons_prefix_cons.1 h).1, List.nil_prefix⟩)

omit hnewline in
theorem blanks (n : Nat) (hx : Lines newline x) (hline : ∃ c ∈ x.chars.head?, c ≠ '\n' ∧ c ≠ '\r') :
    Lines newline (ofText false (List.replicate n ' ') ++ x) := by
  have hspace : '\n' ∉ List.replicate n ' ' := fun hmem => absurd (List.eq_of_mem_replicate hmem) (by decide)
  refine .behind ?_ (fun h => ?_) hx hline
  · have hneat := Neat.behind (y := []) hspace trivial (fun c hc => by cases hc) false
    rwa [List.append_nil] at hneat
  · rw [chars_ofText] at h
    exact absurd (h.subset List.mem_cons_self) hspace

end Lines

end Lines

theorem neat_iff : Neat x ↔
    ∀ i c, x[i]? = some (c, false) → LineEdit.isLineBlank c → ¬LineStop (x.chars.drop (i + 1)) := by
  induction x with
  | nil => exact ⟨fun _ i c h => by simp at h, fun _ => trivial⟩
  | cons first x ih =>
    constructor
    · rintro ⟨hfirst, hrest⟩ i c hi hblank
      cases i with
      | zero =>
        cases hi
        exact hfirst hblank rfl
      | succ i => exact ih.1 hrest i c hi hblank
    · intro h
      refine ⟨fun hblank hshield => h 0 first.1 (by rw [← hshield]; rfl) hblank, ih.2 fun i c hi => ?_⟩
      exact h (i + 1) c hi

/--
The characters of a text with the mark of those that stand in one of the ranges.
-/
def ofRanges (ranges : List (Nat × Nat)) (text : List Char) : Shielded :=
  text.mapIdx fun place c => (c, ranges.any fun range => range.1 ≤ place && place < range.2)

variable {ranges : List (Nat × Nat)} {text : List Char}

@[simp] theorem chars_ofRanges : chars (ofRanges ranges text) = text := by
  refine List.ext_getElem? fun i => ?_
  rw [chars, ofRanges, List.getElem?_map, List.getElem?_mapIdx, Option.map_map]
  exact Option.map_id'

theorem neat_ofRanges_iff : Neat (ofRanges ranges text) ↔ ∀ i c, text[i]? = some c → LineEdit.isLineBlank c →
    (∀ r ∈ ranges, ¬(r.1 ≤ i ∧ i < r.2)) → ¬LineStop (text.drop (i + 1)) := by
  rw [neat_iff, chars_ofRanges]
  have hmark {i : Nat} {c : Char} : (ofRanges ranges text)[i]? = some (c, false)
      ↔ text[i]? = some c ∧ ∀ r ∈ ranges, ¬(r.1 ≤ i ∧ i < r.2) := by
    rw [ofRanges, List.getElem?_mapIdx, Option.map_eq_some_iff]
    simp [List.any_eq_false]
  simp only [hmark, and_imp]
  exact forall₂_congr fun i c => by tauto

end Shielded

namespace LineEdit

variable {newline text : List Char} {ranges : List (Nat × Nat)} (hbounds : ∀ r ∈ ranges, r.1 < r.2)
  (hapart : ranges.Pairwise fun r s => r.2 ≤ s.1 ∨ s.2 ≤ r.1)
include hbounds hapart

/--
Nothing is trimmed from the lines of a neat text.
-/
theorem ofText_of_neat (h : Shielded.Neat (.ofRanges ranges text)) :
    ofText newline text ranges = finalEdits newline text := by
  refine List.append_right_eq_self.2 (List.eq_nil_iff_forall_not_mem.2 fun e he => ?_)
  have hkind : e.kind = .trailingBlanks := by
    obtain ⟨_, _, _, -, -, hline⟩ := mem_trimLines_iff.1 he
    rw [(mem_lineEdits_iff.1 hline).1]
  obtain ⟨before, blanks, after, rfl, hrun, hranges, -⟩ :=
    (mem_ofText_iff hbounds hapart).1 ⟨List.mem_append_right (finalEdits newline text) he, hkind⟩
  obtain ⟨blanks, c, rfl⟩ := List.eq_nil_or_concat' blanks |>.resolve_left hrun.ne_nil
  refine Shielded.neat_ofRanges_iff.1 h (before ++ blanks).length c ?_ (hrun.blank c (by simp)) (fun r hr hin => ?_) ?_
  · simp
  · refine hranges r hr ?_
    simp only [List.length_append, List.length_cons, List.length_nil] at hin ⊢
    omega
  · have hdrop : (before ++ (blanks ++ [c] ++ after)).drop ((before ++ blanks).length + 1) = after := by
      rw [← List.append_assoc, ← List.append_assoc, List.drop_left' (by simp [Nat.add_assoc])]
    rw [hdrop]
    exact hrun.ends

/--
A text with one line end behind its content, if it has any.
-/
def closed (newline text : List Char) : List Char :=
  dropEnd isEndBlank text ++ if (dropEnd isEndBlank text).length = 0 then [] else newline

/--
A neat text is kept by normalization up to its end.
-/
theorem normalize_of_neat (h : Shielded.Neat (.ofRanges ranges text)) :
    normalize newline text ranges = closed newline text := by
  have hnone : trimLines (ranges.mergeSort rangeLe) (dropEnd isEndBlank text).length 0
      (Text.fields (· == '\n') text) = [] :=
    List.append_right_eq_self.1 (show ofText newline text ranges = _ from ofText_of_neat hbounds hapart h)
  rw [normalize_eq, hnone, List.mergeSort_nil, List.foldl_nil, ← List.prefix_iff_eq_take.1 (prefix_dropEnd _ _)]
  rfl

omit hbounds hapart in
/--
A text whose end stays as it is ends in one line end behind its content.
-/
theorem closed_of_finalEdits (h : finalEdits newline text = []) : closed newline text = text := by
  unfold finalEdits at h
  unfold closed
  dsimp only at h
  generalize (if (dropEnd isEndBlank text).length = 0 then [] else newline) = replacement at h ⊢
  split at h
  · next hdrop =>
    rw [← hdrop]
    exact List.prefix_iff_eq_append.1 (prefix_dropEnd isEndBlank text)
  · cases h

omit hbounds hapart in
/--
The blanks before a character, back to one that is no blank.
-/
theorem exists_blanks {i : Nat} {c : Char} (h : text[i]? = some c) : ∃ front blanks,
    text = front ++ (blanks ++ c :: text.drop (i + 1)) ∧ front.length + blanks.length = i
      ∧ (∀ d ∈ blanks, isLineBlank d) ∧ ∀ d ∈ front.getLast?, isLineBlank d = false := by
  obtain ⟨hlt, hc⟩ := List.getElem?_eq_some_iff.1 h
  obtain ⟨blanks, hbefore, hblanks⟩ := exists_dropEnd isLineBlank (text.take i)
  refine ⟨dropEnd isLineBlank (text.take i), blanks, ?_, ?_, hblanks, not_of_mem_getLast?_dropEnd⟩
  · rw [← List.append_assoc, ← hbefore, ← hc, ← List.drop_eq_getElem_cons hlt, List.take_append_drop]
  · rw [← List.length_append, ← hbefore, List.length_take_of_le hlt.le]

/--
A text from which nothing is trimmed is neat, if no range with blanks behind it ends in one.
-/
theorem neat_of_ofText_eq_nil (hnewline : newline = ['\n'] ∨ newline = ['\r', '\n'])
    (hends : ∀ r ∈ ranges, ∀ c ∈ text[r.2 - 1]?, ∀ d ∈ text[r.2]?, isLineBlank c → isLineBlank d = false)
    (h : ofText newline text ranges = []) : Shielded.Neat (.ofRanges ranges text) := by
  refine Shielded.neat_ofRanges_iff.2 fun i c hi hblank hin hstop => ?_
  obtain ⟨front, blanks, htext, rfl, hblanks, hmaximal⟩ := exists_blanks hi
  generalize text.drop (front.length + blanks.length + 1) = after at htext hstop
  subst htext
  by_cases hcontent : ∃ c ∈ after, isEndBlank c = false
  · have hrun : IsRun front (blanks ++ [c]) after :=
      ⟨by simp, List.forall_mem_append.2 ⟨hblanks, List.forall_mem_singleton.2 hblank⟩, hmaximal, hstop, hcontent⟩
    have hat {j : Nat} (hfirst : front.length ≤ j) (hlast : j ≤ front.length + blanks.length) :
        ∃ d ∈ (front ++ (blanks ++ c :: after))[j]?, isLineBlank d := by
      obtain ⟨j, rfl⟩ := Nat.exists_eq_add_of_le hfirst
      have hj : j < (blanks ++ [c]).length := by simp; omega
      refine ⟨(blanks ++ [c])[j], ?_, hrun.blank _ (List.getElem_mem hj)⟩
      rw [List.append_cons blanks, List.getElem?_append_right hfirst, List.getElem?_append_left (by omega),
        Nat.add_sub_cancel_left, List.getElem?_eq_getElem hj]
      rfl
    -- A range that meets the run of blanks ends in it, for it does not reach up to the last of them.
    have hranges : ∀ r ∈ ranges, ¬(r.1 < (front ++ (blanks ++ [c])).length ∧ front.length < r.2) := by
      rintro r hr ⟨hstart, hstop⟩
      have hout := hin r hr
      simp only [List.length_append, List.length_cons, List.length_nil] at hstart
      obtain ⟨d, hd, hdblank⟩ := hat (j := r.2 - 1) (by omega) (by omega)
      obtain ⟨e, he, heblank⟩ := hat (j := r.2) (by omega) (by omega)
      rw [hends r hr d hd e he hdblank] at heblank
      cases heblank
    have htext : front ++ (blanks ++ c :: after) = front ++ (blanks ++ [c] ++ after) := by rw [List.append_cons blanks]
    have hedit : _ ∈ ofText newline _ ranges ∧ _ :=
      (mem_ofText_iff hbounds hapart).2 ⟨front, blanks ++ [c], after, htext, hrun, hranges, rfl⟩
    rw [h] at hedit
    cases hedit.1
  · -- All that follows is the line end at the end of the text.
    have hend : ∀ d ∈ c :: after, isEndBlank d := by
      refine List.forall_mem_cons.2 ⟨by rw [isEndBlank, hblank]; rfl, fun d hd => ?_⟩
      by_contra hshown
      exact hcontent ⟨d, hd, by simpa using hshown⟩
    have htext := (closed_of_finalEdits (List.append_eq_nil_iff.1 h).1).symm
    rw [closed, ← List.append_assoc, dropEnd_append_of_forall hend] at htext
    have hmem : c ∈ (if (dropEnd isEndBlank (front ++ blanks)).length = 0 then [] else newline) := by
      obtain ⟨dropped, hsplit, -⟩ := exists_dropEnd isEndBlank (front ++ blanks)
      generalize dropEnd isEndBlank (front ++ blanks) = kept at hsplit htext ⊢
      rw [hsplit, List.append_assoc, List.append_cancel_left_eq] at htext
      rw [← htext]
      simp
    split at hmem
    · cases hmem
    · rcases hnewline with rfl | rfl
      · rw [List.mem_singleton.1 hmem] at hblank
        exact absurd hblank (by decide)
      · rcases List.mem_pair.1 hmem with rfl | rfl <;> exact absurd hblank (by decide)

end LineEdit

end HaskellStyle
