import HaskellStyle.Proofs.Text.Normalize

/-!
This module contains what the normalization of line ends does to the lines of a text. Main results: exactly the runs of
blanks at line ends that meet no shielded range are trimmed, and a text without shielded ranges becomes its content,
trimmed line by line, with one line end. A second normalization finds nothing to do unless trimming brings a carriage
return to the end of a line, with a blank before it.
-/

namespace HaskellStyle.LineEdit

section Search

variable {shielded : List (Nat × Nat)} {start stop : Nat}

theorem exists_of_meetsShield (h : meetsShield start stop shielded) : ∃ r ∈ shielded, r.1 < stop ∧ start < r.2 := by
  induction shielded with
  | nil => cases h
  | cons range more ih =>
    rw [meetsShield] at h
    split at h
    · next hmeets => exact ⟨range, List.mem_cons_self, hmeets⟩
    · split at h
      · cases h
      · obtain ⟨r, hr, hmeets⟩ := ih h
        exact ⟨r, List.mem_cons_of_mem range hr, hmeets⟩

variable (hbounds : ∀ r ∈ shielded, r.1 < r.2) (hapart : shielded.Pairwise fun r s => r.2 ≤ s.1 ∨ s.2 ≤ r.1)
include hbounds hapart

/--
Sorted, ranges that are apart from each other are in the order of the text.
-/
theorem pairwise_mergeSort_rangeLe : (shielded.mergeSort rangeLe).Pairwise fun r s => r.2 ≤ s.1 := by
  have hperm := List.mergeSort_perm shielded rangeLe
  have hsorted : (shielded.mergeSort rangeLe).Pairwise fun r s => rangeLe r s :=
    List.pairwise_mergeSort
      (fun a b c => by
        simp only [rangeLe, Bool.or_eq_true, Bool.and_eq_true, beq_iff_eq, decide_eq_true_eq]
        omega)
      (fun a b => by
        simp only [rangeLe, Bool.or_eq_true, Bool.and_eq_true, beq_iff_eq, decide_eq_true_eq]
        omega) shielded
  refine (hsorted.and ((hperm.pairwise_iff fun {r s} h => Or.symm h).2 hapart)).imp_of_mem fun {r s} hr hs h => ?_
  have hr := hbounds r (hperm.mem_iff.1 hr)
  have hs := hbounds s (hperm.mem_iff.1 hs)
  obtain ⟨hle, hapart⟩ := h
  simp only [rangeLe, Bool.or_eq_true, Bool.and_eq_true, beq_iff_eq, decide_eq_true_eq] at hle
  omega

/--
The search finds out whether there is a range that is met.
-/
theorem isShielded_mergeSort_iff :
    isShielded (shielded.mergeSort rangeLe) start stop ↔ ∃ r ∈ shielded, r.1 < stop ∧ start < r.2 := by
  constructor
  · intro h
    obtain ⟨r, hr, hmeets⟩ := exists_of_meetsShield h
    exact ⟨r, List.mem_mergeSort.1 ((List.takeWhile_prefix _).subset (List.mem_reverse.1 hr)), hmeets⟩
  · rintro ⟨r, hr, hstop, hstart⟩
    exact isShielded_of_mem (pairwise_mergeSort_rangeLe hbounds hapart)
      (fun s hs => hbounds s (List.mem_mergeSort.1 hs)) (List.mem_mergeSort.2 hr) hstop hstart

end Search

/--
A line without a carriage return at its end.
-/
def bare (line : List Char) : List Char :=
  if line.getLast? = some '\r' then line.dropLast else line

theorem bare_concat (line : List Char) : bare (line ++ ['\r']) = line := by
  rw [bare, if_pos List.getLast?_concat, List.dropLast_concat]

theorem bare_eq_self {line : List Char} (h : line.getLast? ≠ some '\r') : bare line = line :=
  if_neg h

theorem exists_bare (line : List Char) : ∃ ending, line = bare line ++ ending ∧ (ending = [] ∨ ending = ['\r']) := by
  by_cases h : line.getLast? = some '\r'
  · obtain ⟨body, rfl⟩ := List.getLast?_eq_some_iff.1 h
    exact ⟨['\r'], by rw [bare_concat], .inr rfl⟩
  · exact ⟨[], by rw [bare_eq_self h, List.append_nil], .inl rfl⟩

theorem isEndBlank_of_mem_ending {ending : List Char} (h : ending = [] ∨ ending = ['\r']) : ∀ c ∈ ending, isEndBlank c := by
  rcases h with rfl | rfl <;> simp [isEndBlank]

section Edits

variable {shielded : List (Nat × Nat)} {contentEnd : Nat}

/--
A line is trimmed only before the end of the content, so there is content behind it.
-/
theorem exists_content_of_mem_lineEdits {offset : Nat} {body after : List Char} {e : LineEdit}
    (he : e ∈ lineEdits shielded contentEnd offset body)
    (hend : contentEnd ≤ offset + (dropEnd isEndBlank (body ++ after)).length) : ∃ c ∈ after, isEndBlank c = false := by
  refine (exists_or_forall isEndBlank after).resolve_right fun hafter => ?_
  -- Without content behind it the body ends in content, but it is trimmed of blanks.
  obtain ⟨dropped, hdropped, hblank⟩ := exists_dropEnd isLineBlank body
  have hempty : dropEnd isEndBlank (body ++ after) = dropEnd isEndBlank (dropEnd isLineBlank body) := by
    rw [dropEnd_append_of_forall hafter]
    conv => lhs; rw [hdropped]
    exact dropEnd_append_of_forall fun c hc => by simp [isEndBlank, hblank c hc]
  have hle := (prefix_dropEnd isEndBlank (dropEnd isLineBlank body)).length_le
  obtain ⟨rfl, hstart, hstop, -⟩ := mem_lineEdits_iff.1 he
  rw [hempty] at hend
  dsimp only at hstart hstop
  omega

theorem trimLines_append (offset : Nat) (lines more : List (List Char)) :
    trimLines shielded contentEnd offset (lines ++ more) = trimLines shielded contentEnd offset lines
      ++ trimLines shielded contentEnd (offset + (lines.flatMap (· ++ ['\n'])).length) more := by
  induction lines generalizing offset with
  | nil => rfl
  | cons line lines ih =>
    rw [List.cons_append, trimLines_cons, trimLines_cons, ih, List.append_assoc, List.flatMap_cons, List.length_append,
      List.length_append, List.length_singleton, Nat.add_assoc offset, Nat.add_assoc offset]

theorem flatMap_fields (cs : List Char) : (Text.fields (· == '\n') cs).flatMap (· ++ ['\n']) = cs ++ ['\n'] := by
  induction cs with
  | nil => rfl
  | cons c cs ih =>
    rw [Text.fields]
    split
    · next hc =>
      rw [List.flatMap_cons, ih, eq_of_beq hc]
      rfl
    · cases hfields : Text.fields (· == '\n') cs with
      | nil => exact absurd hfields (Text.fields_ne_nil _ cs)
      | cons line more =>
        rw [hfields, List.flatMap_cons] at ih
        rw [List.flatMap_cons, List.cons_append, List.cons_append, ih]
        rfl

/--
Behind a line end the lines of a text are cut anew.
-/
theorem exists_fields_append {lead : List Char} (h : ∀ c ∈ lead.getLast?, c = '\n') :
    ∃ lines, lines.flatMap (· ++ ['\n']) = lead
      ∧ ∀ rest, Text.fields (· == '\n') (lead ++ rest) = lines ++ Text.fields (· == '\n') rest := by
  rcases List.eq_nil_or_concat lead with rfl | ⟨lead, c, rfl⟩
  · exact ⟨[], rfl, fun rest => rfl⟩
  · rw [List.concat_eq_append] at h ⊢
    cases h c List.getLast?_concat
    refine ⟨Text.fields (· == '\n') lead, flatMap_fields lead, fun rest => ?_⟩
    rw [List.append_assoc, List.singleton_append, Text.fields_append_cons (by rfl)]

/--
A line of a text: `before` is empty or ends in a line end, and so begins `behind`.
-/
structure IsLine (before line behind : List Char) : Prop where
  before : ∀ c ∈ before.getLast?, c = '\n'
  line : '\n' ∉ line
  behind : ∀ c ∈ behind.head?, c = '\n'

theorem IsLine.exists_fields {before line behind : List Char} (h : IsLine before line behind) :
    ∃ more, Text.fields (· == '\n') (line ++ behind) = line :: more := by
  cases behind with
  | nil => exact ⟨[], by rw [List.append_nil, Text.fields_line h.line]⟩
  | cons c behind =>
    cases h.behind c rfl
    exact ⟨_, Text.fields_line_append h.line behind⟩

theorem exists_isLine_of_mem_trimLines {offset : Nat} {text : List Char} {e : LineEdit}
    (he : e ∈ trimLines shielded contentEnd offset (Text.fields (· == '\n') text)) :
    ∃ before line behind, text = before ++ (line ++ behind) ∧ IsLine before line behind
      ∧ e ∈ lineEdits shielded contentEnd (offset + before.length) (bare line) := by
  rcases Text.line_cases text with hnone | ⟨line, more, hnone, htext⟩
  · rw [Text.fields_line hnone, trimLines_cons] at he
    exact ⟨[], text, [], by simp, ⟨by simp, hnone, by simp⟩, (List.mem_append.1 he).resolve_right (by simp [trimLines])⟩
  · rw [htext, Text.fields_line_append hnone, trimLines_cons, List.mem_append] at he
    rcases he with he | he
    · exact ⟨[], line, '\n' :: more, htext, ⟨by simp, hnone, by simp⟩, he⟩
    · obtain ⟨before, line', behind, rfl, hline, he⟩ := exists_isLine_of_mem_trimLines he
      refine ⟨line ++ '\n' :: before, line', behind, by rw [htext]; simp, ⟨fun c hc => ?_, hline.line, hline.behind⟩, ?_⟩
      · rw [List.getLast?_append_of_ne_nil _ (List.cons_ne_nil _ _)] at hc
        cases before with
        | nil => exact (Option.some.inj hc).symm
        | cons d before => exact hline.before c hc
      · have hlength : offset + line.length + 1 + before.length = offset + (line ++ '\n' :: before).length := by
          rw [List.length_append, List.length_cons]
          omega
        rwa [← hlength]
termination_by text.length
decreasing_by simp [htext]; omega

/--
The edits of the lines of a text are those of its single lines.
-/
theorem mem_trimLines_iff {offset : Nat} {text : List Char} {e : LineEdit} :
    e ∈ trimLines shielded contentEnd offset (Text.fields (· == '\n') text) ↔ ∃ before line behind,
      text = before ++ (line ++ behind) ∧ IsLine before line behind
        ∧ e ∈ lineEdits shielded contentEnd (offset + before.length) (bare line) := by
  refine ⟨exists_isLine_of_mem_trimLines, ?_⟩
  rintro ⟨before, line, behind, rfl, hline, he⟩
  obtain ⟨more, hmore⟩ := hline.exists_fields
  obtain ⟨lines, hlead, hlines⟩ := exists_fields_append hline.before
  rw [hlines, trimLines_append, hmore, trimLines_cons, hlead]
  exact List.mem_append_right _ (List.mem_append_left _ he)

/--
Blanks at the end of a line: all that stand there, up to the line end with which `after` begins. There is content
behind them.
-/
structure IsRun (before blanks after : List Char) : Prop where
  ne_nil : blanks ≠ []
  blank : ∀ c ∈ blanks, isLineBlank c
  maximal : ∀ c ∈ before.getLast?, isLineBlank c = false
  ends : ['\n'] <+: after ∨ ['\r', '\n'] <+: after
  content : ∃ c ∈ after, isEndBlank c = false

/--
A line is trimmed of a run of blanks.
-/
theorem exists_isRun_of_mem_lineEdits {before line behind : List Char} (hline : IsLine before line behind) {e : LineEdit}
    (he : e ∈ lineEdits shielded (dropEnd isEndBlank (before ++ (line ++ behind))).length before.length (bare line)) :
    ∃ before' blanks after, before ++ (line ++ behind) = before' ++ (blanks ++ after) ∧ IsRun before' blanks after
      ∧ e = ⟨before'.length, (before' ++ blanks).length, [], .trailingBlanks⟩
      ∧ isShielded shielded e.start e.stop = false := by
  obtain ⟨ending, hending, hends⟩ := exists_bare line
  generalize bare line = body at he hending
  subst hending
  rw [List.append_assoc] at he ⊢
  obtain ⟨c, hc, hshown⟩ := exists_content_of_mem_lineEdits he length_dropEnd_append_le
  obtain ⟨blanks, hbody, hblanks⟩ := exists_dropEnd isLineBlank body
  obtain ⟨rfl, hstart, -, hshielded⟩ := mem_lineEdits_iff.1 he
  have hlength : body.length = (dropEnd isLineBlank body).length + blanks.length := by
    rw [← List.length_append, ← hbody]
  refine ⟨before ++ dropEnd isLineBlank body, blanks, ending ++ behind, ?_, ⟨?_, hblanks, ?_, ?_, c, hc, hshown⟩, ?_,
    hshielded⟩
  · conv => lhs; rw [hbody]
    simp
  · rintro rfl
    dsimp only at hstart
    rw [hlength, List.length_nil] at hstart
    omega
  · intro d hd
    rw [List.getLast?_append] at hd
    rcases Option.or_eq_some_iff.1 hd with hd | ⟨-, hd⟩
    · exact not_of_mem_getLast?_dropEnd d hd
    · rw [hline.before d hd]
      decide
  · -- The line has an end, since there is content behind it.
    obtain ⟨more, rfl⟩ : ∃ more, behind = '\n' :: more := by
      cases behind with
      | nil =>
        rw [List.append_nil] at hc
        rw [isEndBlank_of_mem_ending hends c hc] at hshown
        cases hshown
      | cons d more => exact ⟨more, by rw [hline.behind d rfl]⟩
    rcases hends with rfl | rfl
    · exact .inl ⟨more, rfl⟩
    · exact .inr ⟨more, rfl⟩
  · rw [List.append_assoc, ← hbody, List.length_append, List.length_append]

/--
The last line of a text begins behind the last line end.
-/
theorem exists_lastLine (cs : List Char) :
    ∃ lead line, cs = lead ++ line ∧ '\n' ∉ line ∧ ∀ c ∈ lead.getLast?, c = '\n' := by
  obtain ⟨line, hcs, hline⟩ := exists_dropEnd (· != '\n') cs
  refine ⟨_, line, hcs, fun hmem => ?_, fun c hc => ?_⟩
  · simpa using hline _ hmem
  · simpa using not_of_mem_getLast?_dropEnd c hc

/--
A run of blanks is what its line is trimmed of.
-/
theorem IsRun.exists_isLine {before blanks after : List Char} (h : IsRun before blanks after) :
    ∃ lead line behind, before ++ (blanks ++ after) = lead ++ (line ++ behind) ∧ IsLine lead line behind
      ∧ lead ++ bare line = before ++ blanks ∧ lead ++ dropEnd isLineBlank (bare line) = before := by
  obtain ⟨lead, front, rfl, hfront, hlead⟩ := exists_lastLine before
  obtain ⟨ending, more, rfl, hends⟩ : ∃ ending more, after = ending ++ '\n' :: more ∧ (ending = [] ∨ ending = ['\r']) := by
    rcases h.ends with ⟨more, rfl⟩ | ⟨more, rfl⟩
    · exact ⟨[], more, rfl, .inl rfl⟩
    · exact ⟨['\r'], more, rfl, .inr rfl⟩
  have hblanks {c : Char} (hc : isLineBlank c = false) : c ∉ blanks := fun hmem => by
    rw [h.blank c hmem] at hc
    cases hc
  have hbare : bare (front ++ blanks ++ ending) = front ++ blanks := by
    rcases hends with rfl | rfl
    · rw [List.append_nil, bare_eq_self]
      rw [List.getLast?_append_of_ne_nil _ h.ne_nil]
      exact fun hlast => hblanks (by decide) (List.mem_of_getLast? hlast)
    · exact bare_concat _
  have hdrop : dropEnd isLineBlank (front ++ blanks) = front := by
    rw [dropEnd_append_of_forall h.blank, dropEnd_eq_self_iff]
    intro c hc
    refine h.maximal c ?_
    rw [List.getLast?_append, Option.mem_def.1 hc]
    rfl
  refine ⟨lead, front ++ blanks ++ ending, '\n' :: more, by simp, ⟨hlead, ?_, fun c hc => (Option.some.inj hc).symm⟩, ?_, ?_⟩
  · rw [List.mem_append, List.mem_append, not_or, not_or]
    refine ⟨⟨hfront, hblanks (by decide)⟩, ?_⟩
    rcases hends with rfl | rfl <;> decide
  · rw [hbare, List.append_assoc]
  · rw [hbare, hdrop]

/--
Exactly the runs of blanks at line ends are trimmed that meet no shielded range.
-/
theorem mem_ofText_iff {newline text : List Char} {ranges : List (Nat × Nat)} (hbounds : ∀ r ∈ ranges, r.1 < r.2)
    (hapart : ranges.Pairwise fun r s => r.2 ≤ s.1 ∨ s.2 ≤ r.1) {e : LineEdit} :
    e ∈ ofText newline text ranges ∧ e.kind = .trailingBlanks ↔ ∃ before blanks after,
      text = before ++ (blanks ++ after) ∧ IsRun before blanks after
        ∧ (∀ r ∈ ranges, ¬(r.1 < (before ++ blanks).length ∧ before.length < r.2))
        ∧ e = ⟨before.length, (before ++ blanks).length, [], .trailingBlanks⟩ := by
  have hmeets {start stop : Nat} : isShielded (ranges.mergeSort rangeLe) start stop = false
      ↔ ∀ r ∈ ranges, ¬(r.1 < stop ∧ start < r.2) := by
    rw [← Bool.not_eq_true, isShielded_mergeSort_iff hbounds hapart, not_exists]
    simp only [not_and]
  constructor
  · rintro ⟨he, hkind⟩
    rcases List.mem_append.1 he with he | he
    · rcases finalEdits_eq newline text with hnone | ⟨replacement, hone⟩
      · rw [hnone] at he
        cases he
      · rw [hone, List.mem_singleton] at he
        rw [he] at hkind
        cases hkind
    · obtain ⟨lead, line, behind, rfl, hline, he⟩ := mem_trimLines_iff.1 he
      rw [Nat.zero_add] at he
      obtain ⟨before, blanks, after, htext, hrun, rfl, hshielded⟩ := exists_isRun_of_mem_lineEdits hline he
      exact ⟨before, blanks, after, htext, hrun, hmeets.1 hshielded, rfl⟩
  · rintro ⟨before, blanks, after, rfl, hrun, hshielded, rfl⟩
    refine ⟨List.mem_append_right _ (mem_trimLines_iff.2 ?_), rfl⟩
    obtain ⟨lead, line, behind, htext, hline, hstop, hstart⟩ := hrun.exists_isLine
    have hpos := List.length_pos_iff.2 hrun.ne_nil
    have hcontent : (before ++ blanks).length ≤ (dropEnd isEndBlank (before ++ (blanks ++ after))).length := by
      rw [← List.append_assoc, dropEnd_append_of_exists hrun.content]
      exact (List.prefix_append _ _).length_le
    refine ⟨lead, line, behind, htext, hline, mem_lineEdits_iff.2 ⟨?_, ?_, hcontent, hmeets.2 hshielded⟩⟩
    · rw [Nat.zero_add, ← List.length_append, ← List.length_append, hstop, hstart]
    · rw [List.length_append]
      exact Nat.lt_add_of_pos_right hpos

end Edits

section Result

/--
A line without the blanks at its end. A carriage return at its end is set aside.
-/
def trimLine (line : List Char) : List Char :=
  dropEnd isLineBlank (bare line) ++ line.drop (bare line).length

theorem trimLine_eq {line ending : List Char} (h : line = bare line ++ ending) :
    trimLine line = dropEnd isLineBlank (bare line) ++ ending := by
  rw [trimLine]
  generalize bare line = body at h ⊢
  rw [h, List.drop_left]

theorem trimLine_eq_dropEnd {line : List Char} (h : line.getLast? ≠ some '\r') :
    trimLine line = dropEnd isLineBlank line := by
  rw [trimLine, bare_eq_self h, List.drop_length, List.append_nil]

/--
A line of which nothing is trimmed.
-/
def IsTrimmed (line : List Char) : Prop :=
  ∀ c ∈ (bare line).getLast?, isLineBlank c = false

instance (line : List Char) : Decidable (IsTrimmed line) :=
  Option.decidableForallMem (bare line).getLast?

theorem trimLine_eq_self_iff {line : List Char} : trimLine line = line ↔ IsTrimmed line := by
  obtain ⟨ending, hending, -⟩ := exists_bare line
  rw [IsTrimmed, ← dropEnd_eq_self_iff, trimLine_eq hending]
  generalize bare line = body at hending ⊢
  rw [hending]
  exact List.append_left_inj ending

theorem isLineBlank_eq_false {c : Char} (h : isEndBlank c = false) : isLineBlank c = false := by
  rw [isEndBlank, Bool.or_eq_false_iff, Bool.or_eq_false_iff] at h
  exact h.1.1

theorem isTrimmed_of_last {line : List Char} (h : ∀ c ∈ line.getLast?, isEndBlank c = false) : IsTrimmed line := by
  rw [IsTrimmed, bare_eq_self]
  · exact fun c hc => isLineBlank_eq_false (h c hc)
  · intro hreturn
    have hshown := h _ hreturn
    cases hshown

theorem newline_notMem_trimLine {line : List Char} (h : '\n' ∉ line) : '\n' ∉ trimLine line := by
  obtain ⟨ending, hending, -⟩ := exists_bare line
  rw [trimLine, List.mem_append, not_or]
  refine ⟨fun hmem => h ?_, fun hmem => h (List.mem_of_mem_drop hmem)⟩
  rw [hending]
  exact List.mem_append_left _ ((prefix_dropEnd _ _).subset hmem)

/--
A text with its lines trimmed.
-/
def trimText (text : List Char) : List Char :=
  ['\n'].intercalate ((Text.fields (· == '\n') text).map trimLine)

theorem trimText_line {line : List Char} (h : '\n' ∉ line) : trimText line = trimLine line := by
  rw [trimText, Text.fields_line h, List.map_singleton, List.intercalate_singleton]

theorem trimText_line_append {line : List Char} (h : '\n' ∉ line) (more : List Char) :
    trimText (line ++ '\n' :: more) = trimLine line ++ '\n' :: trimText more := by
  rw [trimText, Text.fields_line_append h, List.map_cons, List.intercalate_cons_of_ne_nil, List.append_assoc]
  · rfl
  · rw [Ne, List.map_eq_nil_iff]
    exact Text.fields_ne_nil _ _

theorem fields_trimText (text : List Char) :
    Text.fields (· == '\n') (trimText text) = (Text.fields (· == '\n') text).map trimLine := by
  refine Text.fields_intercalate (fun line hline => ?_) ?_
  · obtain ⟨line, hmem, rfl⟩ := List.mem_map.1 hline
    exact newline_notMem_trimLine fun hnewline => by simpa using Text.not_of_mem_fields hmem _ hnewline
  · rw [Ne, List.map_eq_nil_iff]
    exact Text.fields_ne_nil _ _

theorem getLast?_trimText {text : List Char} (h : ∀ c ∈ text.getLast?, isEndBlank c = false) :
    (trimText text).getLast? = text.getLast? := by
  rcases Text.line_cases text with hnone | ⟨line, more, hnone, htext⟩
  · rw [trimText_line hnone, trimLine_eq_self_iff.2 (isTrimmed_of_last h)]
  · have hmore : more ≠ [] := by
      rintro rfl
      have hshown := h '\n' (by rw [htext]; exact List.getLast?_concat)
      cases hshown
    have hlast : text.getLast? = more.getLast? := by
      rw [htext, List.getLast?_append_of_ne_nil _ (List.cons_ne_nil _ _), List.getLast?_cons_of_ne_nil hmore]
    have ih := @getLast?_trimText more (by rwa [hlast] at h)
    have hne : trimText more ≠ [] := by
      rwa [Ne, ← List.getLast?_eq_none_iff, ih, List.getLast?_eq_none_iff]
    conv => lhs; rw [htext]
    rw [trimText_line_append hnone, List.getLast?_append_of_ne_nil _ (List.cons_ne_nil _ _),
      List.getLast?_cons_of_ne_nil hne, ih, hlast]
termination_by text.length
decreasing_by simp [htext]; omega

/--
Without shielded ranges the edit of a line, if there is one, trims it.
-/
theorem foldr_lineEdits {contentEnd : Nat} {before line : List Char} (behind : List Char)
    (h : before.length + (bare line).length ≤ contentEnd) :
    (lineEdits [] contentEnd before.length (bare line)).foldr (fun e text => applyTo text e)
      (before ++ (line ++ behind)) = before ++ (trimLine line ++ behind) := by
  obtain ⟨ending, hending, -⟩ := exists_bare line
  obtain ⟨blanks, hblanks, -⟩ := exists_dropEnd isLineBlank (bare line)
  unfold lineEdits
  dsimp only
  split
  · next hedit =>
    rw [trimLine_eq hending]
    generalize dropEnd isLineBlank (bare line) = kept at hblanks ⊢
    generalize bare line = body at hending hblanks ⊢
    have hbody : before ++ (line ++ behind) = (before ++ body) ++ (ending ++ behind) := by
      rw [hending]
      simp only [List.append_assoc]
    have hkept : (before ++ body) ++ (ending ++ behind) = (before ++ kept) ++ (blanks ++ (ending ++ behind)) := by
      rw [hblanks]
      simp only [List.append_assoc]
    have hdrop : (before ++ (line ++ behind)).drop (before.length + body.length) = ending ++ behind := by
      rw [hbody, ← List.length_append, List.drop_left]
    have htake : (before ++ (line ++ behind)).take (before.length + kept.length) = before ++ kept := by
      rw [hbody, hkept, ← List.length_append, List.take_left]
    rw [List.foldr_cons, List.foldr_nil, applyTo, htake, hdrop]
    simp
  · next hnone =>
    have hkept : dropEnd isLineBlank (bare line) = bare line := by
      refine (prefix_dropEnd _ _).eq_of_length_le ?_
      by_contra hlt
      exact hnone ⟨by omega, h, rfl⟩
    rw [trimLine_eq_self_iff.2 (dropEnd_eq_self_iff.1 hkept), List.foldr_nil]

/--
The last content of a text stands in its first line, or there is content behind that line.
-/
theorem exists_lastContent (text : List Char) :
    (∃ line blanks, text = line ++ blanks ∧ IsLine [] line blanks ∧ ∀ c ∈ blanks, isEndBlank c)
      ∨ ∃ line more, text = line ++ '\n' :: more ∧ '\n' ∉ line ∧ ∃ c ∈ more, isEndBlank c = false := by
  rcases Text.line_cases text with hnone | ⟨line, more, hnone, rfl⟩
  · exact .inl ⟨text, [], by simp, ⟨by simp, hnone, by simp⟩, by simp⟩
  · rcases exists_or_forall isEndBlank more with h | h
    · exact .inr ⟨line, more, rfl, hnone, h⟩
    · exact .inl ⟨line, '\n' :: more, rfl, ⟨by simp, hnone, by simp⟩, List.forall_mem_cons.2 ⟨rfl, h⟩⟩

/--
The line with the last content is not trimmed, and neither is a line behind it.
-/
theorem trimLines_eq_nil_of_blanks {shielded : List (Nat × Nat)} {contentEnd offset : Nat} {line blanks : List Char}
    (hline : IsLine [] line blanks) (hblanks : ∀ c ∈ blanks, isEndBlank c)
    (h : contentEnd ≤ offset + (dropEnd isEndBlank (line ++ blanks)).length) :
    trimLines shielded contentEnd offset (Text.fields (· == '\n') (line ++ blanks)) = [] := by
  refine List.eq_nil_iff_forall_not_mem.2 fun e he => ?_
  obtain ⟨more, hmore⟩ := hline.exists_fields
  rw [hmore, trimLines_cons, List.mem_append] at he
  rcases he with he | he
  · obtain ⟨ending, hending, hends⟩ := exists_bare line
    have hbody : line ++ blanks = bare line ++ (ending ++ blanks) := by
      rw [← List.append_assoc, ← hending]
    obtain ⟨c, hc, hshown⟩ := exists_content_of_mem_lineEdits he (hbody ▸ h)
    have hblank : isEndBlank c := (List.mem_append.1 hc).elim (isEndBlank_of_mem_ending hends c) (hblanks c)
    rw [hblank] at hshown
    cases hshown
  · obtain ⟨hstart, hedit, hstop⟩ := mem_trimLines he
    have hle := (prefix_dropEnd isEndBlank line).length_le
    rw [dropEnd_append_of_forall hblanks] at h
    omega

/--
Carried out from the last to the first, the edits of the lines before the end of the content trim it.
-/
theorem foldr_trimLines {contentEnd : Nat} (before text behind : List Char)
    (h : contentEnd = before.length + (dropEnd isEndBlank text).length) :
    (trimLines [] contentEnd before.length (Text.fields (· == '\n') text)).foldr (fun e text => applyTo text e)
      (before ++ (dropEnd isEndBlank text ++ behind)) = before ++ (trimText (dropEnd isEndBlank text) ++ behind) := by
  rcases exists_lastContent text with ⟨line, blanks, rfl, hline, hblanks⟩ | ⟨line, more, htext, hline, hmore⟩
  · have hcontent : dropEnd isEndBlank (line ++ blanks) = dropEnd isEndBlank line := dropEnd_append_of_forall hblanks
    have hone : '\n' ∉ dropEnd isEndBlank line := fun hmem => hline.line ((prefix_dropEnd _ _).subset hmem)
    rw [trimLines_eq_nil_of_blanks hline hblanks (Nat.le_of_eq h), hcontent, trimText_line hone, trimLine_eq_self_iff.2 (isTrimmed_of_last not_of_mem_getLast?_dropEnd)]
    rfl
  · have hcontent : dropEnd isEndBlank text = line ++ '\n' :: dropEnd isEndBlank more := by
      rw [htext, List.append_cons, dropEnd_append_of_exists hmore, ← List.append_cons]
    have hnext : before.length + line.length + 1 = (before ++ (line ++ ['\n'])).length := by
      simp [Nat.add_assoc]
    have hend : contentEnd = (before ++ (line ++ ['\n'])).length + (dropEnd isEndBlank more).length := by
      rw [h, hcontent]
      simp [Nat.add_assoc, Nat.add_comm 1]
    have hbare : before.length + (bare line).length ≤ contentEnd := by
      obtain ⟨ending, hending, -⟩ := exists_bare line
      have hle := (List.prefix_iff_exists_eq_append.2 ⟨ending, hending⟩).length_le
      rw [h, hcontent, List.length_append]
      omega
    have ih := foldr_trimLines (before ++ (line ++ ['\n'])) more behind hend
    have hedit := foldr_lineEdits ('\n' :: (trimText (dropEnd isEndBlank more) ++ behind)) hbare
    simp only [List.append_assoc, List.singleton_append] at ih
    rw [hcontent, htext, Text.fields_line_append hline, trimLines_cons, List.foldr_append, hnext,
      trimText_line_append hline]
    simp only [List.append_assoc, List.cons_append]
    rw [ih]
    exact hedit
termination_by text.length
decreasing_by simp [htext]; omega

theorem mergeSort_trimLines (shielded : List (Nat × Nat)) (contentEnd offset : Nat) (lines : List (List Char)) :
    (trimLines shielded contentEnd offset lines).mergeSort (fun a b => b.start ≤ a.start)
      = (trimLines shielded contentEnd offset lines).reverse := by
  have hpair := pairwise_trimLines shielded contentEnd offset lines
  have hedits : ∀ e ∈ trimLines shielded contentEnd offset lines, e.start < e.stop := fun e he => (mem_trimLines he).2.1
  generalize trimLines shielded contentEnd offset lines = edits at hpair hedits ⊢
  have hsorted : (edits.mergeSort fun a b => b.start ≤ a.start).Pairwise fun a b => b.start < a.start := by
    refine (pairwise_mergeSort (hpair.imp .inr) fun e he => Nat.le_of_lt (hedits e he)).imp_of_mem fun {a b} _ hb h => ?_
    exact Nat.lt_of_lt_of_le (hedits b (List.mem_mergeSort.1 hb)) h.1
  refine ((List.mergeSort_perm _ _).trans (List.reverse_perm _).symm).eq_of_pairwise (fun a b _ _ hab hba => ?_) hsorted
    (List.pairwise_reverse.2 (hpair.imp And.right))
  exact absurd hab (Nat.lt_asymm hba)

/--
Without shielded ranges a text becomes its content, trimmed line by line, with one line end.
-/
theorem normalize_eq_trimText (newline text : List Char) : normalize newline text []
    = trimText (dropEnd isEndBlank text) ++ if (dropEnd isEndBlank text).length = 0 then [] else newline := by
  have hfold := foldr_trimLines [] text (if (dropEnd isEndBlank text).length = 0 then [] else newline)
    (Nat.zero_add _).symm
  rw [normalize_eq, List.mergeSort_nil, mergeSort_trimLines, List.foldl_reverse,
    ← List.prefix_iff_eq_take.1 (prefix_dropEnd isEndBlank text)]
  exact hfold

/--
A line that ends in blanks behind a carriage return that has a blank before it.
-/
def HasStrayReturn (line : List Char) : Prop :=
  ∃ front c blanks, line = front ++ c :: '\r' :: blanks ∧ isLineBlank c ∧ blanks ≠ [] ∧ ∀ d ∈ blanks, isLineBlank d

theorem HasStrayReturn.trimLine_eq {line : List Char} (h : HasStrayReturn line) :
    ∃ front c, trimLine line = front ++ [c] ++ ['\r'] ∧ isLineBlank c := by
  obtain ⟨front, c, blanks, rfl, hc, hne, hblanks⟩ := h
  refine ⟨front, c, ?_, hc⟩
  have hline : front ++ c :: '\r' :: blanks = front ++ [c] ++ ['\r'] ++ blanks := by simp
  rw [hline, trimLine_eq_dropEnd, dropEnd_append_of_forall hblanks, dropEnd_eq_self_iff]
  · intro d hd
    rw [List.getLast?_concat, Option.mem_some_iff] at hd
    rw [← hd]
    decide
  · rw [List.getLast?_append_of_ne_nil _ hne]
    intro hlast
    have hblank := hblanks _ (List.mem_of_getLast? hlast)
    cases hblank

/--
A trimmed line is not trimmed again, unless there is a blank before a carriage return to which it has been trimmed.
-/
theorem isTrimmed_trimLine_iff {line : List Char} : IsTrimmed (trimLine line) ↔ ¬HasStrayReturn line := by
  constructor
  · intro htrimmed hstray
    obtain ⟨front, c, htrim, hc⟩ := hstray.trimLine_eq
    rw [htrim, IsTrimmed, bare_concat] at htrimmed
    rw [htrimmed c List.getLast?_concat] at hc
    cases hc
  · intro hstray c hc
    obtain ⟨ending, hending, hends⟩ := exists_bare line
    rw [trimLine_eq hending] at hc
    rcases hends with rfl | rfl
    · rw [List.append_nil] at hending hc
      rw [← hending] at hc
      have hlast : ∀ c ∈ (dropEnd isLineBlank line).getLast?, isLineBlank c = false := not_of_mem_getLast?_dropEnd
      obtain ⟨blanks, hblanks, hall⟩ := exists_dropEnd isLineBlank line
      generalize dropEnd isLineBlank line = kept at hc hlast hblanks
      obtain ⟨ending, hkept, rfl | rfl⟩ := exists_bare kept
      · rw [List.append_nil] at hkept
        exact hlast c (hkept ▸ hc)
      · obtain ⟨front, hfront⟩ := List.getLast?_eq_some_iff.1 hc
        have hline : line = front ++ [c] ++ ['\r'] ++ blanks := by rw [hblanks, ← hfront, ← hkept]
        by_contra hblank
        refine hstray ⟨front, c, blanks, by simpa using hline, by simpa using hblank, ?_, hall⟩
        rintro rfl
        rw [hline, List.append_nil, bare_concat] at hending
        simpa using congrArg List.length hending
    · rw [bare_concat] at hc
      exact not_of_mem_getLast?_dropEnd c hc

instance (line : List Char) : Decidable (HasStrayReturn line) :=
  decidable_of_iff (¬IsTrimmed (trimLine line)) (by rw [isTrimmed_trimLine_iff, not_not])

theorem exists_trimText {text : List Char} (hne : dropEnd isEndBlank text ≠ []) :
    ∃ front c, trimText (dropEnd isEndBlank text) = front ++ [c] ∧ isEndBlank c = false := by
  have hlast := getLast?_trimText (@not_of_mem_getLast?_dropEnd isEndBlank text)
  obtain ⟨c, hc⟩ : ∃ c, (dropEnd isEndBlank text).getLast? = some c := ⟨_, List.getLast?_eq_some_getLast hne⟩
  rw [hc] at hlast
  obtain ⟨front, hfront⟩ := List.getLast?_eq_some_iff.1 hlast
  exact ⟨front, c, hfront, not_of_mem_getLast?_dropEnd c hc⟩

section Again

variable {newline front : List Char} {c : Char} (hnewline : newline = ['\n'] ∨ newline = ['\r', '\n'])
  (hc : isEndBlank c = false)
include hnewline hc

/--
One line end behind content leaves the lines trimmed or not.
-/
theorem forall_isTrimmed_append_newline :
    (∀ line ∈ Text.fields (· == '\n') (front ++ [c] ++ newline), IsTrimmed line)
      ↔ ∀ line ∈ Text.fields (· == '\n') (front ++ [c]), IsTrimmed line := by
  have hempty : IsTrimmed [] := isTrimmed_of_last (by simp)
  rcases hnewline with rfl | rfl
  · rw [Text.fields_append_cons (by rfl), List.forall_mem_append, Text.fields, List.forall_mem_singleton]
    exact and_iff_left hempty
  · obtain ⟨lead, line, rfl, hline, hlead⟩ := exists_lastLine front
    obtain ⟨lines, -, hlines⟩ := exists_fields_append hlead
    have hone : '\n' ∉ line ++ [c] := by
      rw [List.mem_append, List.mem_singleton, not_or]
      refine ⟨hline, ?_⟩
      rintro rfl
      cases hc
    have hlast : ∀ d ∈ (line ++ [c]).getLast?, isEndBlank d = false := by
      intro d hd
      rw [List.getLast?_concat] at hd
      rwa [← Option.mem_some_iff.1 hd]
    have htrimmed := isTrimmed_of_last hlast
    have hreturn : IsTrimmed (line ++ [c] ++ ['\r']) := by
      rw [IsTrimmed, bare_concat]
      exact fun d hd => isLineBlank_eq_false (hlast d hd)
    have htext : lead ++ line ++ [c] ++ ['\r', '\n'] = lead ++ (line ++ [c] ++ ['\r']) ++ '\n' :: [] := by simp
    have hcarriage : '\n' ∉ line ++ [c] ++ ['\r'] := by
      rw [List.mem_append, not_or]
      exact ⟨hone, by decide⟩
    rw [htext, Text.fields_append_cons (by rfl), hlines, Text.fields_line hcarriage, List.append_assoc lead, hlines,
      Text.fields_line hone, Text.fields]
    simp only [List.forall_mem_append, List.forall_mem_singleton]
    tauto

theorem dropEnd_append_newline : dropEnd isEndBlank (front ++ [c] ++ newline) = front ++ [c] := by
  have hblank : ∀ d ∈ newline, isEndBlank d := by
    rcases hnewline with rfl | rfl <;> simp [isEndBlank]
  rw [dropEnd_append_of_forall hblank, dropEnd_eq_self_iff, List.getLast?_concat]
  intro d hd
  rwa [← Option.mem_some_iff.1 hd]

theorem finalEdits_append_newline : finalEdits newline (front ++ [c] ++ newline) = [] := by
  unfold finalEdits
  dsimp only
  rw [dropEnd_append_newline hnewline hc, List.drop_left, if_pos]
  rw [if_neg (by simp)]

omit hnewline hc in
theorem trimLines_eq_nil {shielded : List (Nat × Nat)} {contentEnd offset : Nat} {lines : List (List Char)}
    (h : ∀ line ∈ lines, IsTrimmed line) : trimLines shielded contentEnd offset lines = [] := by
  induction lines generalizing offset with
  | nil => rfl
  | cons line lines ih =>
    rw [List.forall_mem_cons] at h
    have hline : lineEdits shielded contentEnd offset (bare line) = [] := by
      unfold lineEdits
      rw [dropEnd_eq_self_iff.2 h.1]
      exact if_neg fun hedit => Nat.lt_irrefl _ hedit.1
    rw [trimLines_cons, ih h.2, List.append_nil]
    exact hline

/--
A text that ends in one line end behind content is normalized if its lines are trimmed, and only then.
-/
theorem ofText_eq_nil_iff : ofText newline (front ++ [c] ++ newline) [] = []
    ↔ ∀ line ∈ Text.fields (· == '\n') (front ++ [c] ++ newline), IsTrimmed line := by
  constructor
  · intro hnone
    have hsame : normalize newline (front ++ [c] ++ newline) [] = front ++ [c] ++ newline := by
      rw [normalize, hnone, apply, List.mergeSort_nil, List.foldl_nil]
    rw [normalize_eq_trimText, dropEnd_append_newline hnewline hc, if_neg (by simp)] at hsame
    have htrim : trimText (front ++ [c]) = front ++ [c] := List.append_cancel_right hsame
    have hlines : (Text.fields (· == '\n') (front ++ [c])).map trimLine
        = (Text.fields (· == '\n') (front ++ [c])).map id := by
      rw [List.map_id, ← fields_trimText, htrim]
    rw [forall_isTrimmed_append_newline hnewline hc]
    exact fun line hline => trimLine_eq_self_iff.1 (List.map_inj_left.1 hlines line hline)
  · intro h
    unfold ofText
    dsimp only
    rw [finalEdits_append_newline hnewline hc, trimLines_eq_nil h]
    rfl

end Again

end Result

/--
The edits of line ends are apart from each other. They trim exactly the runs of blanks at the ends of lines before the
end of the content that meet no shielded range. Without shielded ranges the text is empty in the end or ends in content
and one line end; its lines are trimmed, and it is not edited again, exactly if no line of the content has a carriage
return between blanks at its end.
-/
theorem lines_normalized {newline text : List Char} {shielded : List (Nat × Nat)}
    (hnewline : newline = ['\n'] ∨ newline = ['\r', '\n']) (hbounds : ∀ r ∈ shielded, r.1 < r.2)
    (hapart : shielded.Pairwise fun r s => r.2 ≤ s.1 ∨ s.2 ≤ r.1) :
    (ofText newline text shielded).Pairwise Apart
      ∧ (∀ e, e ∈ ofText newline text shielded ∧ e.kind = .trailingBlanks ↔ ∃ before blanks after,
        text = before ++ (blanks ++ after) ∧ IsRun before blanks after
          ∧ (∀ r ∈ shielded, ¬(r.1 < (before ++ blanks).length ∧ before.length < r.2))
          ∧ e = ⟨before.length, (before ++ blanks).length, [], .trailingBlanks⟩)
      ∧ (normalize newline text [] = []
        ∨ ∃ front c, normalize newline text [] = front ++ [c] ++ newline ∧ isEndBlank c = false)
      ∧ ((∀ line ∈ Text.fields (· == '\n') (normalize newline text []), IsTrimmed line)
        ↔ ∀ line ∈ Text.fields (· == '\n') (dropEnd isEndBlank text), ¬HasStrayReturn line)
      ∧ (ofText newline (normalize newline text []) [] = []
        ↔ ∀ line ∈ Text.fields (· == '\n') (dropEnd isEndBlank text), ¬HasStrayReturn line) := by
  refine ⟨pairwise_ofText newline text shielded, fun e => mem_ofText_iff hbounds hapart, ?_⟩
  have hlines : (∀ line ∈ Text.fields (· == '\n') (trimText (dropEnd isEndBlank text)), IsTrimmed line)
      ↔ ∀ line ∈ Text.fields (· == '\n') (dropEnd isEndBlank text), ¬HasStrayReturn line := by
    rw [fields_trimText, List.forall_mem_map]
    exact forall₂_congr fun line _ => isTrimmed_trimLine_iff
  rw [← hlines, normalize_eq_trimText]
  by_cases hempty : dropEnd isEndBlank text = []
  · have hedits : ofText newline [] [] = [] := by rfl
    rw [hempty]
    exact ⟨.inl rfl, Iff.rfl, iff_of_true hedits fun line hline => trimLine_eq_self_iff.1 (by
      rw [List.mem_singleton.1 hline]
      rfl)⟩
  · obtain ⟨front, c, htext, hc⟩ := exists_trimText hempty
    rw [if_neg (by simpa using hempty), htext, ofText_eq_nil_iff hnewline hc, forall_isTrimmed_append_newline hnewline hc]
    exact ⟨.inr ⟨front, c, rfl, hc⟩, Iff.rfl, Iff.rfl⟩

/--
A blank behind a letter is trimmed, and one in a comment of two lines is not. Without the comment nothing is left to be
trimmed.
-/
theorem lines_normalized_comment :
    let text := ['a', ' ', '\r', '\n', '\x7b', '-', ' ', '\r', '\n', '-', '\x7d', 'b']
    ⟨1, 2, [], .trailingBlanks⟩ ∈ ofText ['\r', '\n'] text [(4, 11)]
      ∧ ⟨6, 7, [], .trailingBlanks⟩ ∉ ofText ['\r', '\n'] text [(4, 11)]
      ∧ ofText ['\r', '\n'] (normalize ['\r', '\n'] text []) [] = [] := by
  intro text
  obtain ⟨-, hedits, -, -, hagain⟩ :=
    @lines_normalized ['\r', '\n'] text [(4, 11)] (.inr rfl) (by decide) (by decide)
  refine ⟨((hedits _).2 ⟨['a'], [' '], text.drop 2, rfl, ?_, by decide, rfl⟩).1, fun hmem => ?_, hagain.2 (by decide)⟩
  · exact ⟨by decide, List.forall_mem_singleton.2 rfl, by simp [isLineBlank], by decide, '\x7b', by decide, rfl⟩
  · obtain ⟨before, blanks, after, -, -, hshielded, heq⟩ := (hedits _).1 ⟨hmem, rfl⟩
    injection heq with hstart hstop
    exact hshielded (4, 11) List.mem_cons_self ⟨by omega, by omega⟩

/--
Trimmed, a line can end in a carriage return with a blank before it. That blank is trimmed the next time.
-/
theorem not_lines_normalized :
    let text := ['a', ' ', '\r', ' ', ' ', '\n', 'b', '\n']
    normalize ['\n'] text [] = ['a', ' ', '\r', '\n', 'b', '\n']
      ∧ ¬(∀ line ∈ Text.fields (· == '\n') (normalize ['\n'] text []), IsTrimmed line)
      ∧ ofText ['\n'] (normalize ['\n'] text []) [] = [⟨1, 2, [], .trailingBlanks⟩] := by
  intro text
  have h : normalize ['\n'] text [] = ['a', ' ', '\r', '\n', 'b', '\n'] := by
    decide +kernel
  rw [h]
  exact ⟨rfl, by decide, by decide +kernel⟩

end HaskellStyle.LineEdit
