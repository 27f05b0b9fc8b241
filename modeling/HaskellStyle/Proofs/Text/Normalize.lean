import HaskellStyle.Proofs.Text.Trim

/-!
This module contains what the normalization of line ends leaves in place. Blanks are trimmed only before a line end and
outside of shielded ranges, so the beginning of a line stays as it is up to the end of anything that shows, and no
character that shows is lost.
-/

namespace HaskellStyle

namespace Text

/--
The characters of a text that can be seen: all but blanks and byte order marks.
-/
def visible (cs : List Char) : List Char :=
  cs.filter fun c => !isBlank c && c != '\ufeff'

@[simp] theorem visible_nil : visible [] = [] := rfl

@[simp] theorem visible_append (a b : List Char) : visible (a ++ b) = visible a ++ visible b :=
  List.filter_append ..

theorem visible_eq_nil {cs : List Char} (h : ∀ c ∈ cs, isBlank c) : visible cs = [] := by
  refine List.filter_eq_nil_iff.2 fun c hc => ?_
  simp [h c hc]

end Text

namespace LineEdit

/--
What an edit that trims a line takes away: blanks before a line end that meet no shielded range.
-/
structure Trims (shielded : List (Nat × Nat)) (text : List Char) (e : LineEdit) : Prop where
  replacement : e.replacement = []
  blank : ∀ i, e.start ≤ i → i < e.stop → ∃ c ∈ text[i]?, isLineBlank c
  ends : ∀ c ∈ text[e.stop]?, c = '\n' ∨ c = '\r' ∧ ∀ d ∈ text[e.stop + 1]?, d = '\n'
  unshielded : isShielded shielded e.start e.stop = false

theorem trims_of_mem_lineEdits {shielded : List (Nat × Nat)} {contentEnd : Nat} {before body tail : List Char}
    {e : LineEdit} (he : e ∈ lineEdits shielded contentEnd before.length body)
    (htail : ∀ c ∈ tail.head?, c = '\n' ∨ c = '\r' ∧ ∀ d ∈ tail.tail.head?, d = '\n') :
    e.Trims shielded (before ++ body ++ tail) := by
  obtain ⟨dropped, hbody, hdropped⟩ := exists_dropEnd isLineBlank body
  obtain ⟨rfl, -, -, hshielded⟩ := mem_lineEdits_iff.1 he
  generalize dropEnd isLineBlank body = kept at hbody hshielded ⊢
  subst hbody
  rw [List.length_append] at hshielded ⊢
  refine ⟨rfl, fun i hstart hstop => ?_, ?_, hshielded⟩
  · dsimp only at hstart hstop
    have hi : i - before.length - kept.length < dropped.length := by omega
    refine ⟨dropped[i - before.length - kept.length], ?_, hdropped _ (List.getElem_mem hi)⟩
    rw [List.append_assoc, List.append_assoc, List.getElem?_append_right (by omega),
      List.getElem?_append_right (by omega), List.getElem?_append_left hi, List.getElem?_eq_getElem hi]
    rfl
  · dsimp only
    rw [← List.length_append, ← List.length_append, List.getElem?_append_right (Nat.le_refl _),
      List.getElem?_append_right (by omega), Nat.sub_self, Nat.add_sub_cancel_left, ← List.head?_eq_getElem?,
      ← List.getElem?_tail, ← List.head?_eq_getElem?]
    exact htail

/--
Lines are trimmed of blanks at their ends.
-/
theorem trims_of_mem_trimLines {shielded : List (Nat × Nat)} {contentEnd : Nat} {before rest : List Char} {e : LineEdit}
    (he : e ∈ trimLines shielded contentEnd before.length (Text.fields (· == '\n') rest)) :
    e.Trims shielded (before ++ rest) := by
  have hline {line tail : List Char} (htail : ∀ c ∈ tail.head?, c = '\n')
      (he : e ∈ lineEdits shielded contentEnd before.length
        (if line.getLast? = some '\r' then line.dropLast else line)) :
      e.Trims shielded (before ++ (line ++ tail)) := by
    split at he
    · next hreturn =>
      obtain ⟨body, rfl⟩ := List.getLast?_eq_some_iff.1 hreturn
      rw [List.dropLast_concat] at he
      rw [List.append_assoc body, List.singleton_append, ← List.append_assoc]
      refine trims_of_mem_lineEdits he fun c hc => .inr ⟨(Option.some.inj hc).symm, htail⟩
    · rw [← List.append_assoc]
      exact trims_of_mem_lineEdits he fun c hc => .inl (htail c hc)
  rcases Text.line_cases rest with hnone | ⟨line, more, hnone, hrest⟩
  · rw [Text.fields_line hnone, trimLines_cons] at he
    rw [← List.append_nil rest]
    exact hline (by simp) ((List.mem_append.1 he).resolve_right (by simp [trimLines]))
  · rw [hrest, Text.fields_line_append hnone, trimLines_cons, List.mem_append] at he
    rw [hrest]
    rcases he with he | he
    · exact hline (by simp) he
    · have hlength : before.length + line.length + 1 = (before ++ line ++ ['\n']).length := by simp [Nat.add_assoc]
      rw [hlength] at he
      have htrims := trims_of_mem_trimLines he
      simpa using htrims
termination_by rest.length
decreasing_by simp [hrest]; omega

theorem meetsShield_append {start stop : Nat} {ranges more : List (Nat × Nat)} (hranges : ∀ r ∈ ranges, start < r.2)
    (hmore : meetsShield start stop more) : meetsShield start stop (ranges ++ more) := by
  induction ranges with
  | nil => exact hmore
  | cons range ranges ih =>
    obtain ⟨hrange, hranges⟩ := List.forall_mem_cons.1 hranges
    rw [List.cons_append, meetsShield]
    split
    · rfl
    · rw [if_neg (Nat.not_le_of_lt hrange)]
      exact ih hranges

/--
The search finds a range of an ascending list that is met.
-/
theorem isShielded_of_mem {ranges : List (Nat × Nat)} (hsorted : ranges.Pairwise fun r s => r.2 ≤ s.1)
    (hbounds : ∀ r ∈ ranges, r.1 < r.2) {low high start stop : Nat} (hmem : (low, high) ∈ ranges) (hstop : low < stop)
    (hstart : start < high) : isShielded ranges start stop := by
  obtain ⟨before, after, rfl⟩ := List.append_of_mem hmem
  obtain ⟨-, hafter, hbefore⟩ := List.pairwise_append.1 hsorted
  -- The search goes back from the last range that begins before the end of the edit.
  have htaken : ∀ r ∈ before, decide (r.1 ≤ stop) = true := by
    intro r hr
    have hle := hbefore r hr (low, high) List.mem_cons_self
    have hlt := hbounds r (List.mem_append_left _ hr)
    exact decide_eq_true (by dsimp only at hle; omega)
  have hbehind : ∀ r ∈ (after.takeWhile fun r => decide (r.1 ≤ stop)).reverse, start < r.2 := by
    intro r hr
    have hr := (List.takeWhile_prefix _).subset (List.mem_reverse.1 hr)
    have hle := (List.pairwise_cons.1 hafter).1 r hr
    have hlt := hbounds r (List.mem_append_right _ (List.mem_cons_of_mem _ hr))
    dsimp only at hle
    omega
  rw [isShielded, List.takeWhile_append_of_pos htaken,
    List.takeWhile_cons, if_pos (decide_eq_true (Nat.le_of_lt hstop)), List.reverse_append,
    List.reverse_cons, List.append_assoc]
  refine meetsShield_append hbehind ?_
  rw [List.singleton_append, meetsShield, if_pos ⟨hstop, hstart⟩]

/--
The beginning of a line behind the line end at `line`, of which the characters from `first` up to `stop` show at both
ends and are shielded if they go over line ends.
-/
structure Firm (shielded : List (Nat × Nat)) (text : List Char) (line first stop : Nat) : Prop where
  order : line < first ∧ first < stop
  newline : text[line]? = some '\n'
  lead : ∀ i, line < i → i < first → text[i]? ≠ some '\n'
  head : ∃ c ∈ text[first]?, Text.isBlank c = false
  last : ∃ c ∈ text[stop - 1]?, Text.isBlank c = false
  shielded : ∀ i, first ≤ i → i < stop → text[i]? = some '\n' → (first, stop) ∈ shielded

theorem firm_append {shielded : List (Nat × Nat)} {before lead part : List Char} (hlead : '\n' ∉ lead) (hne : part ≠ [])
    (hhead : ∀ c ∈ part.head?, Text.isBlank c = false) (hlast : ∀ c ∈ part.getLast?, Text.isBlank c = false)
    (hshielded : '\n' ∈ part →
      (before.length + 1 + lead.length, before.length + 1 + lead.length + part.length) ∈ shielded)
    (behind : List Char) :
    Firm shielded (before ++ '\n' :: (lead ++ part) ++ behind) before.length (before.length + 1 + lead.length)
      (before.length + 1 + lead.length + part.length) := by
  have hline (i : Nat) : (before ++ '\n' :: (lead ++ part) ++ behind)[before.length + 1 + i]?
      = (lead ++ (part ++ behind))[i]? := by
    rw [List.append_assoc, List.getElem?_append_right (by omega),
      show before.length + 1 + i - before.length = i + 1 by omega, List.cons_append,
      List.getElem?_cons_succ, List.append_assoc]
  have hpart {i : Nat} (hi : i < part.length) :
      (before ++ '\n' :: (lead ++ part) ++ behind)[before.length + 1 + lead.length + i]? = part[i]? := by
    rw [Nat.add_assoc, hline, List.getElem?_append_right (Nat.le_add_right _ _), Nat.add_sub_cancel_left,
      List.getElem?_append_left hi]
  have hpos := List.length_pos_iff.2 hne
  refine ⟨⟨by omega, by omega⟩, ?_, fun i hstart hstop heq => ?_, ?_, ?_, fun i hstart hstop heq => hshielded ?_⟩
  · rw [List.append_assoc, List.getElem?_append_right (Nat.le_refl _), Nat.sub_self]
    rfl
  · obtain ⟨j, rfl⟩ := Nat.exists_eq_add_of_lt hstart
    rw [Nat.add_right_comm, hline, List.getElem?_append_left (by omega)] at heq
    exact hlead (List.mem_of_getElem? heq)
  · refine ⟨part.head hne, ?_, hhead _ (List.head?_eq_some_head hne)⟩
    have hfirst := hpart hpos
    rw [Nat.add_zero] at hfirst
    rw [hfirst, ← List.head?_eq_getElem?]
    exact List.head?_eq_some_head hne
  · refine ⟨part.getLast hne, ?_, hlast _ (List.getLast?_eq_some_getLast hne)⟩
    rw [Nat.add_sub_assoc hpos, hpart (by omega), ← List.getLast?_eq_getElem?]
    exact List.getLast?_eq_some_getLast hne
  · obtain ⟨j, rfl⟩ := Nat.exists_eq_add_of_le hstart
    rw [hpart (by omega)] at heq
    exact List.mem_of_getElem? heq

section Firm

variable {shielded : List (Nat × Nat)} {text : List Char} {line first stop : Nat}
  (h : Firm shielded text line first stop) (hsorted : shielded.Pairwise fun r s => r.2 ≤ s.1)
  (hbounds : ∀ r ∈ shielded, r.1 < r.2)
include h hsorted hbounds

/--
Behind what an edit trims a line ends. That is before the line, behind its beginning, or in a shielded part, where
nothing is trimmed.
-/
theorem Trims.apart {e : LineEdit} (he : e.Trims shielded text) : e.stop ≤ line ∨ stop ≤ e.start := by
  obtain ⟨hline, hfirst⟩ := h.order
  -- What shows is not trimmed, and neither is a line end.
  have hkept {i : Nat} {c : Char} (hi : text[i]? = some c) (hc : isLineBlank c = false) :
      ¬(e.start ≤ i ∧ i < e.stop) := by
    rintro ⟨hstart, hstop⟩
    obtain ⟨d, hd, hblank⟩ := he.blank i hstart hstop
    rw [hi, Option.mem_some_iff] at hd
    rw [hd, hblank] at hc
    cases hc
  have hshown {c : Char} (hc : Text.isBlank c = false) : isLineBlank c = false ∧ c ≠ '\n' ∧ c ≠ '\r' := by
    refine ⟨?_, ?_, ?_⟩
    · cases hblank : isLineBlank c with
      | false => rfl
      | true =>
        rw [isBlank_of_isEndBlank (by simp [isEndBlank, hblank])] at hc
        cases hc
    all_goals
      rintro rfl
      revert hc
      decide
  obtain ⟨c, hhead, hc⟩ := h.head
  obtain ⟨d, hlast, hd⟩ := h.last
  by_contra hmeets
  rw [not_or, Nat.not_le, Nat.not_le] at hmeets
  have hbehind := hkept h.newline (by decide)
  have hbefore := hkept hlast (hshown hd).1
  have hstop : e.stop < text.length := by
    have hlength := (List.getElem?_eq_some_iff.1 hlast).1
    omega
  have hend : text[e.stop]? = some text[e.stop] := List.getElem?_eq_getElem hstop
  -- The line end behind the edit stands in front of the last character, and not at the first one.
  obtain ⟨i, hi, hle, hlt', hne⟩ :
      ∃ i, text[i]? = some '\n' ∧ e.stop ≤ i ∧ i < stop ∧ (first ≤ i → first < e.stop) := by
    have hne {i : Nat} (hi : text[i]? = some '\n' ∨ text[i]? = some '\r') : first ≠ i := by
      rintro rfl
      rw [hhead] at hi
      exact hi.elim (fun heq => (hshown hc).2.1 (Option.some.inj heq)) fun heq => (hshown hc).2.2 (Option.some.inj heq)
    rcases he.ends _ hend with hnewline | ⟨hreturn, hnext⟩
    · rw [hnewline] at hend
      have hfirst := hne (.inl hend)
      exact ⟨e.stop, hend, Nat.le_refl _, by omega, by omega⟩
    · rw [hreturn] at hend
      have hlast : e.stop ≠ stop - 1 := by
        rintro heq
        rw [heq, hlast] at hend
        exact (hshown hd).2.2 (Option.some.inj hend)
      have hnext' : e.stop + 1 < text.length := by
        have hlength := (List.getElem?_eq_some_iff.1 ‹text[stop - 1]? = some d›).1
        omega
      have hnewline : text[e.stop + 1]? = some '\n' := by
        rw [List.getElem?_eq_getElem hnext', hnext _ (List.getElem?_eq_getElem hnext')]
      have hfirst := hne (.inr hend)
      have hfirst' := hne (.inl hnewline)
      exact ⟨e.stop + 1, hnewline, Nat.le_succ _, by omega, by omega⟩
  have hinside : first ≤ i := Nat.le_of_not_lt fun hlt => h.lead i (by omega) hlt hi
  have hshielded := isShielded_of_mem hsorted hbounds (h.shielded i hinside hlt' hi) (hne hinside) hmeets.2
  rw [he.unshielded] at hshielded
  cases hshielded

omit hsorted hbounds in
/--
The end of a text is normalized behind everything that shows.
-/
theorem Firm.le_contentEnd : stop ≤ (dropEnd isEndBlank text).length := by
  obtain ⟨c, hlast, hc⟩ := h.last
  obtain ⟨dropped, htext, hdropped⟩ := exists_dropEnd isEndBlank text
  refine Nat.le_of_not_lt fun hlt => ?_
  have hline := h.order
  rw [htext, List.getElem?_append_right (by omega)] at hlast
  rw [isBlank_of_isEndBlank (hdropped c (List.mem_of_getElem? hlast))] at hc
  cases hc

end Firm

/--
An edit takes only blanks away from a text.
-/
structure Clears (e : LineEdit) (text : List Char) : Prop where
  replacement : e.replacement = []
  le : e.start ≤ e.stop ∧ e.stop ≤ text.length
  blank : ∀ i, e.start ≤ i → i < e.stop → ∀ c ∈ text[i]?, Text.isBlank c

theorem Clears.visible_eq {e : LineEdit} {text : List Char} (h : e.Clears text) :
    Text.visible (text.take e.start) ++ Text.visible (text.drop e.stop) = Text.visible text := by
  have hsplit : text = text.take e.start ++ ((text.take e.stop).drop e.start ++ text.drop e.stop) := by
    have hstart : (text.take e.stop).take e.start = text.take e.start := by rw [List.take_take, Nat.min_eq_left h.le.1]
    rw [← hstart, ← List.append_assoc, List.take_append_drop, List.take_append_drop]
  have hblank : Text.visible ((text.take e.stop).drop e.start) = [] := by
    refine Text.visible_eq_nil fun c hc => ?_
    obtain ⟨i, hi⟩ := List.mem_iff_getElem?.1 hc
    rw [List.getElem?_drop, List.getElem?_take] at hi
    split at hi
    · next hlt => exact h.blank _ (Nat.le_add_right _ _) hlt c hi
    · cases hi
  conv => rhs; rw [hsplit]
  rw [Text.visible_append, Text.visible_append, hblank, List.nil_append]

/--
Edits that are carried out one behind the other, each before a part of the text, where it takes blanks away, or behind
that part, leave the part in place.
-/
theorem foldl_around {edits : List LineEdit} {before part behind : List Char} (hpart : part ≠ [])
    (hdescending : edits.Pairwise Descending)
    (h : ∀ e ∈ edits, e.Clears before ∨ (before ++ part).length ≤ e.start ∧ e.start ≤ e.stop) :
    ∃ before' behind', edits.foldl
        (fun text edit => text.take edit.start ++ edit.replacement ++ text.drop edit.stop) (before ++ part ++ behind)
      = before' ++ part ++ behind' ∧ Text.visible before' = Text.visible before := by
  induction edits generalizing before part behind with
  | nil => exact ⟨before, behind, rfl, rfl⟩
  | cons e edits ih =>
    obtain ⟨hlater, hdescending⟩ := List.pairwise_cons.1 hdescending
    obtain ⟨he, h⟩ := List.forall_mem_cons.1 h
    rw [List.foldl_cons]
    rcases he with hclears | ⟨hstart, hstop⟩
    -- An edit before the part leaves fewer characters for those after it, which all come before it in the text.
    · have hle := hclears.le
      have hedit : (before ++ part ++ behind).take e.start ++ e.replacement ++ (before ++ part ++ behind).drop e.stop
          = before.take e.start ++ (before.drop e.stop ++ part) ++ behind := by
        rw [hclears.replacement, List.append_assoc before, List.take_append_of_le_length (by omega),
          List.drop_append_of_le_length hle.2]
        simp
      have hpos := List.length_pos_iff.2 hpart
      obtain ⟨before', behind', heq, hvisible⟩ := @ih (before.take e.start)
        (before.drop e.stop ++ part) behind (by simp [hpart]) hdescending fun later hmem => by
          obtain ⟨hbehind, -⟩ := hlater later hmem
          rcases h later hmem with hclears' | ⟨hstart, hstop⟩
          · refine .inl ⟨hclears'.replacement, ⟨hclears'.le.1, by rw [List.length_take]; omega⟩, fun i hi hi' => ?_⟩
            rw [List.getElem?_take_of_lt (by omega)]
            exact hclears'.blank i hi hi'
          · rw [List.length_append] at hstart
            omega
      refine ⟨before' ++ before.drop e.stop, behind', ?_, ?_⟩
      · rw [hedit, heq]
        simp
      · rw [Text.visible_append, hvisible, hclears.visible_eq]
    · have hedit : (before ++ part ++ behind).take e.start ++ e.replacement ++ (before ++ part ++ behind).drop e.stop
          = before ++ part ++ (behind.take (e.start - (before ++ part).length) ++ e.replacement
            ++ behind.drop (e.stop - (before ++ part).length)) := by
        rw [List.take_append, List.take_of_length_le hstart, List.drop_append, List.drop_eq_nil_of_le (by omega)]
        simp
      rw [hedit]
      exact ih hpart hdescending h

/--
Normalization leaves the beginning of a line in place, and all that shows before it.
-/
theorem exists_normalize {newline before lead part behind : List Char} {shielded : List (Nat × Nat)}
    (hsorted : shielded.Pairwise fun r s => r.2 ≤ s.1) (hbounds : ∀ r ∈ shielded, r.1 < r.2)
    (h : Firm shielded (before ++ '\n' :: (lead ++ part) ++ behind) before.length (before.length + 1 + lead.length)
      (before.length + 1 + lead.length + part.length)) :
    ∃ before' behind', normalize newline (before ++ '\n' :: (lead ++ part) ++ behind) shielded
      = before' ++ '\n' :: (lead ++ part) ++ behind' ∧ Text.visible before' = Text.visible before := by
  -- The shielded parts are in order already.
  have hsort : shielded.mergeSort rangeLe = shielded := by
    refine List.mergeSort_of_pairwise (hsorted.imp_of_mem fun {r s} hr hs hle => ?_)
    have hlt := hbounds r hr
    simp only [rangeLe, Bool.or_eq_true, decide_eq_true_eq]
    exact .inl (by omega)
  unfold normalize apply
  refine foldl_around (List.cons_ne_nil _ _) (pairwise_mergeSort (pairwise_ofText _ _ _) fun e he =>
    (bounded_ofText he).1) fun e he => ?_
  have he := List.mem_mergeSort.1 he
  have hbounded := bounded_ofText he
  have hlength : (before ++ '\n' :: (lead ++ part)).length = before.length + 1 + lead.length + part.length := by
    simp only [List.length_append, List.length_cons]
    omega
  rw [hlength]
  rcases List.mem_append.1 he with hfinal | htrim
  · have hstart := (mem_finalEdits hfinal).1
    have hle := h.le_contentEnd
    exact .inr ⟨by omega, hbounded.1⟩
  · rw [hsort] at htrim
    have htrims : e.Trims shielded (before ++ '\n' :: (lead ++ part) ++ behind) :=
      @trims_of_mem_trimLines _ _ [] _ e htrim
    rcases htrims.apart h hsorted hbounds with hle | hle
    · refine .inl ⟨htrims.replacement, ⟨hbounded.1, hle⟩, fun i hstart hstop c hc => ?_⟩
      obtain ⟨d, hd, hblank⟩ := htrims.blank i hstart hstop
      rw [List.append_assoc, List.getElem?_append_left (by omega), hc, Option.mem_some_iff] at hd
      exact isBlank_of_isEndBlank (by simp [isEndBlank, hd, hblank])
    · exact .inr ⟨hle, hbounded.1⟩

end LineEdit

end HaskellStyle
