import HaskellStyle.Proofs.Text.Words
import HaskellStyle.Proofs.Token.Marks
import HaskellStyle.Text.LineEnds
import Mathlib.Data.List.DropRight
import Mathlib.Data.List.Pairwise

/-!
This module contains the edits of line ends. They stand apart from each other, so sorted from the last to the first they
can be carried out one behind the other. Trimming a text whose characters are marked as shielded or not goes from the end
to the start: a blank is dropped if a line end or nothing at all is left behind it.
-/

namespace HaskellStyle

namespace Text

/--
A text is a single line, or it begins with a line and its end.
-/
theorem line_cases (cs : List Char) :
    '\n' ∉ cs ∨ ∃ line rest, '\n' ∉ line ∧ cs = line ++ '\n' :: rest := by
  induction cs with
  | nil => exact .inl List.not_mem_nil
  | cons c cs ih =>
    by_cases hc : c = '\n'
    · exact .inr ⟨[], cs, List.not_mem_nil, by rw [hc]; rfl⟩
    · rcases ih with h | ⟨line, rest, hline, rfl⟩
      · exact .inl (by simp [h, Ne.symm hc])
      · exact .inr ⟨c :: line, rest, by simp [hline, Ne.symm hc], rfl⟩

theorem fields_line {line : List Char} (h : '\n' ∉ line) : fields (· == '\n') line = [line] :=
  fields_eq_singleton fun _ hc => beq_eq_false_iff_ne.2 fun heq => h (heq ▸ hc)

theorem fields_line_append {line : List Char} (h : '\n' ∉ line) (rest : List Char) :
    fields (· == '\n') (line ++ '\n' :: rest) = line :: fields (· == '\n') rest := by
  rw [fields_append_cons (by rfl), fields_line h, List.singleton_append]

end Text

theorem isBlank_of_isEndBlank {c : Char} (h : LineEdit.isEndBlank c) : Text.isBlank c := by
  simp only [LineEdit.isEndBlank, LineEdit.isLineBlank, Bool.or_eq_true, beq_iff_eq] at h
  rcases h with ((rfl | rfl) | rfl) | rfl <;> decide

namespace LineEdit

theorem prefix_dropEnd (p : Char → Bool) (text : List Char) : dropEnd p text <+: text :=
  List.rdropWhile_prefix p text

theorem exists_dropEnd (p : Char → Bool) (text : List Char) :
    ∃ dropped, text = dropEnd p text ++ dropped ∧ ∀ c ∈ dropped, p c :=
  ⟨text.rtakeWhile p, List.rdropWhile_append_rtakeWhile.symm, fun _ hc => List.mem_rtakeWhile_imp hc⟩

section DropEnd

variable {p : Char → Bool} {front behind : List Char}

theorem exists_or_forall (p : Char → Bool) (cs : List Char) : (∃ c ∈ cs, p c = false) ∨ ∀ c ∈ cs, p c := by
  cases hall : cs.all p with
  | true => exact .inr (List.all_eq_true.1 hall)
  | false => exact .inl (by simpa using List.all_eq_false.1 hall)

theorem dropEnd_append_of_exists (h : ∃ c ∈ behind, p c = false) :
    dropEnd p (front ++ behind) = front ++ dropEnd p behind := by
  have hne : (behind.reverse.dropWhile p).isEmpty = false := by
    obtain ⟨c, hc, hp⟩ := h
    rw [List.isEmpty_eq_false_iff, Ne, List.dropWhile_eq_nil_iff]
    intro hall
    rw [hall c (List.mem_reverse.2 hc)] at hp
    cases hp
  rw [dropEnd, List.reverse_append, List.dropWhile_append, hne, if_neg (by simp), List.reverse_append,
    List.reverse_reverse, dropEnd]

theorem dropEnd_append_of_forall (h : ∀ c ∈ behind, p c) : dropEnd p (front ++ behind) = dropEnd p front := by
  have hnil : behind.reverse.dropWhile p = [] := List.dropWhile_eq_nil_iff.2 fun c hc => h c (List.mem_reverse.1 hc)
  rw [dropEnd, List.reverse_append, List.dropWhile_append, hnil, List.isEmpty_nil, if_pos rfl, dropEnd]

theorem length_dropEnd_append_le : (dropEnd p (front ++ behind)).length ≤ front.length + (dropEnd p behind).length := by
  rcases exists_or_forall p behind with h | h
  · rw [dropEnd_append_of_exists h, List.length_append]
  · rw [dropEnd_append_of_forall h]
    exact Nat.le_add_right_of_le (prefix_dropEnd p front).length_le

theorem dropEnd_eq_self_iff {text : List Char} : dropEnd p text = text ↔ ∀ c ∈ text.getLast?, p c = false := by
  have h : dropEnd p text = text ↔ _ := List.rdropWhile_eq_self_iff
  rw [h]
  constructor
  · intro hlast c hc
    obtain ⟨hne, rfl⟩ := List.mem_getLast?_eq_getLast hc
    simpa using hlast hne
  · intro hlast hne
    simp [hlast _ (List.getLast?_eq_some_getLast hne)]

theorem not_of_mem_getLast?_dropEnd {text : List Char} : ∀ c ∈ (dropEnd p text).getLast?, p c = false :=
  dropEnd_eq_self_iff.1 (List.rdropWhile_idempotent p text)

end DropEnd

/--
The edit that trims a line without its end, if it is trimmed.
-/
def lineEdits (shielded : List (Nat × Nat)) (contentEnd offset : Nat) (body : List Char) : List LineEdit :=
  let start := offset + (dropEnd isLineBlank body).length
  let stop := offset + body.length
  if start < stop ∧ stop ≤ contentEnd ∧ !isShielded shielded start stop then
    [{ start, stop, replacement := [], kind := .trailingBlanks }]
  else
    []

theorem trimLines_cons (shielded : List (Nat × Nat)) (contentEnd offset : Nat) (line : List Char)
    (more : List (List Char)) : trimLines shielded contentEnd offset (line :: more)
      = lineEdits shielded contentEnd offset (if line.getLast? = some '\r' then line.dropLast else line)
        ++ trimLines shielded contentEnd (offset + line.length + 1) more := by
  rw [trimLines, lineEdits]
  generalize (if line.getLast? = some '\r' then line.dropLast else line) = body
  split <;> rfl

/--
Edits of which each one ends where an earlier one in the list begins, or before.
-/
def Descending (a b : LineEdit) : Prop :=
  b.stop ≤ a.start ∧ b.start ≤ b.stop

/--
Edits at different places: one of them ends where the other one begins, or before.
-/
def Apart (a b : LineEdit) : Prop :=
  (b.stop ≤ a.start ∧ b.start < a.start) ∨ (a.stop ≤ b.start ∧ a.start < b.start)

theorem mem_lineEdits_iff {shielded : List (Nat × Nat)} {contentEnd offset : Nat} {body : List Char} {e : LineEdit} :
    e ∈ lineEdits shielded contentEnd offset body
      ↔ e = ⟨offset + (dropEnd isLineBlank body).length, offset + body.length, [], .trailingBlanks⟩
        ∧ e.start < e.stop ∧ e.stop ≤ contentEnd ∧ isShielded shielded e.start e.stop = false := by
  unfold lineEdits
  dsimp only
  constructor
  · intro h
    split at h
    · next hedit =>
      cases List.mem_singleton.1 h
      exact ⟨rfl, hedit.1, hedit.2.1, by simpa using hedit.2.2⟩
    · cases h
  · rintro ⟨rfl, hstart, hstop, hshielded⟩
    rw [if_pos ⟨hstart, hstop, by rw [hshielded]; rfl⟩]
    exact List.mem_singleton_self _

theorem mem_lineEdits {shielded : List (Nat × Nat)} {contentEnd offset : Nat} {body : List Char} {e : LineEdit}
    (h : e ∈ lineEdits shielded contentEnd offset body) :
    offset ≤ e.start ∧ e.start < e.stop ∧ e.stop ≤ contentEnd ∧ e.stop = offset + body.length := by
  obtain ⟨he, hstart, hstop, -⟩ := mem_lineEdits_iff.1 h
  refine ⟨?_, hstart, hstop, ?_⟩
  · rw [he]
    exact Nat.le_add_right _ _
  · rw [he]

theorem mem_trimLines {shielded : List (Nat × Nat)} {contentEnd offset : Nat} {lines : List (List Char)} {e : LineEdit}
    (h : e ∈ trimLines shielded contentEnd offset lines) :
    offset ≤ e.start ∧ e.start < e.stop ∧ e.stop ≤ contentEnd := by
  induction lines generalizing offset with
  | nil => cases h
  | cons line more ih =>
    rw [trimLines_cons, List.mem_append] at h
    rcases h with h | h
    · obtain ⟨hstart, hedit, hstop, -⟩ := mem_lineEdits h
      exact ⟨hstart, hedit, hstop⟩
    · obtain ⟨hstart, hedit⟩ := ih h
      exact ⟨by omega, hedit⟩

theorem pairwise_trimLines (shielded : List (Nat × Nat)) (contentEnd offset : Nat) (lines : List (List Char)) :
    (trimLines shielded contentEnd offset lines).Pairwise fun a b => a.stop ≤ b.start ∧ a.start < b.start := by
  induction lines generalizing offset with
  | nil => exact .nil
  | cons line more ih =>
    have hbody : (if line.getLast? = some '\r' then line.dropLast else line).length ≤ line.length := by
      split
      · rw [List.length_dropLast]
        omega
      · exact Nat.le_refl _
    have hline (body : List Char) : (lineEdits shielded contentEnd offset body).Pairwise
        fun a b => a.stop ≤ b.start ∧ a.start < b.start := by
      unfold lineEdits
      dsimp only
      split
      · exact List.pairwise_singleton _ _
      · exact .nil
    rw [trimLines_cons]
    refine List.pairwise_append.2 ⟨hline _, ih _, fun a ha b hb => ?_⟩
    obtain ⟨hstart, hedit, -, hstop⟩ := mem_lineEdits ha
    have hnext := (mem_trimLines hb).1
    exact ⟨by omega, by omega⟩

theorem finalEdits_eq (newline text : List Char) : finalEdits newline text = []
    ∨ ∃ replacement, finalEdits newline text
      = [⟨(dropEnd isEndBlank text).length, text.length, replacement, .finalNewline⟩] := by
  unfold finalEdits
  dsimp only
  generalize (if (dropEnd isEndBlank text).length = 0 then [] else newline) = replacement
  split
  · exact .inl rfl
  · exact .inr ⟨replacement, rfl⟩

theorem mem_finalEdits {newline text : List Char} {e : LineEdit} (h : e ∈ finalEdits newline text) :
    e.start = (dropEnd isEndBlank text).length ∧ e.stop = text.length := by
  rcases finalEdits_eq newline text with heq | ⟨replacement, heq⟩
  · rw [heq] at h
    cases h
  · rw [heq, List.mem_singleton] at h
    exact ⟨by rw [h], by rw [h]⟩

theorem pairwise_ofText (newline text : List Char) (shielded : List (Nat × Nat)) :
    (ofText newline text shielded).Pairwise Apart := by
  refine List.pairwise_append.2 ⟨?_, (pairwise_trimLines _ _ _ _).imp .inr, fun a ha b hb => ?_⟩
  · rcases finalEdits_eq newline text with heq | ⟨replacement, heq⟩
    · exact heq ▸ .nil
    · exact heq ▸ List.pairwise_singleton _ _
  · obtain ⟨hstart, -⟩ := mem_finalEdits ha
    obtain ⟨-, hedit, hstop⟩ := mem_trimLines hb
    exact .inl ⟨by omega, by omega⟩

theorem bounded_ofText {newline text : List Char} {shielded : List (Nat × Nat)} {e : LineEdit}
    (h : e ∈ ofText newline text shielded) : e.start ≤ e.stop ∧ e.stop ≤ text.length := by
  have hend := (prefix_dropEnd isEndBlank text).length_le
  rcases List.mem_append.1 h with h | h
  · obtain ⟨hstart, hstop⟩ := mem_finalEdits h
    omega
  · obtain ⟨-, hedit, hstop⟩ := mem_trimLines h
    omega

/--
Sorted from the last to the first, edits at different places are carried out one behind the other.
-/
theorem pairwise_mergeSort {edits : List LineEdit} (hapart : edits.Pairwise Apart)
    (hbounded : ∀ e ∈ edits, e.start ≤ e.stop) :
    (edits.mergeSort fun a b => b.start ≤ a.start).Pairwise Descending := by
  have hperm := List.mergeSort_perm edits fun a b => decide (b.start ≤ a.start)
  have hsorted : (edits.mergeSort fun a b => b.start ≤ a.start).Pairwise fun a b => decide (b.start ≤ a.start) :=
    List.pairwise_mergeSort (fun a b c => by simp only [decide_eq_true_eq]; omega)
      (fun a b => by simp only [Bool.or_eq_true, decide_eq_true_eq]; omega) edits
  have hsymm : Std.Symm Apart := ⟨fun a b h => h.symm⟩
  have hpair := (hperm.pairwise_iff fun {a b} h => Or.symm h).2 hapart
  refine (hsorted.and hpair).imp_of_mem fun {a b} _ hb h => ?_
  have hle := of_decide_eq_true h.1
  rcases h.2 with h | h
  · exact ⟨h.1, hbounded b (hperm.mem_iff.1 hb)⟩
  · omega

/--
Carries out one edit.
-/
def applyTo (text : List Char) (e : LineEdit) : List Char :=
  text.take e.start ++ e.replacement ++ text.drop e.stop

/--
First the end of a text is normalized, then its lines are trimmed from the last to the first.
-/
theorem normalize_eq (newline text : List Char) (shielded : List (Nat × Nat)) :
    normalize newline text shielded
      = ((trimLines (shielded.mergeSort rangeLe) (dropEnd isEndBlank text).length 0
          (Text.fields (· == '\n') text)).mergeSort fun a b => b.start ≤ a.start).foldl applyTo
        (text.take (dropEnd isEndBlank text).length
          ++ if (dropEnd isEndBlank text).length = 0 then [] else newline) := by
  generalize htrims : trimLines (shielded.mergeSort rangeLe) (dropEnd isEndBlank text).length 0
    (Text.fields (· == '\n') text) = trims
  have hnormalize : normalize newline text shielded
      = ((finalEdits newline text ++ trims).mergeSort fun a b => b.start ≤ a.start).foldl applyTo text := by
    rw [← htrims]
    rfl
  generalize hreplacement : (if (dropEnd isEndBlank text).length = 0 then [] else newline) = replacement
  have hfinal : finalEdits newline text = if text.drop (dropEnd isEndBlank text).length = replacement then [] else
      [⟨(dropEnd isEndBlank text).length, text.length, replacement, .finalNewline⟩] := by
    rw [← hreplacement]
    rfl
  rw [hnormalize, hfinal]
  split
  · next hend => rw [← hend, List.take_append_drop, List.nil_append]
  · have htrans (a b c : LineEdit) (hab : decide (b.start ≤ a.start)) (hbc : decide (c.start ≤ b.start)) :
        decide (c.start ≤ a.start) := by
      simp only [decide_eq_true_eq] at hab hbc ⊢
      omega
    have htotal (a b : LineEdit) : decide (b.start ≤ a.start) || decide (a.start ≤ b.start) := by
      simp only [Bool.or_eq_true, decide_eq_true_eq]
      omega
    obtain ⟨before, after, hsorted, hothers, hbefore⟩ := List.mergeSort_cons htrans htotal
      ⟨(dropEnd isEndBlank text).length, text.length, replacement, .finalNewline⟩ trims
    -- No line is trimmed behind the end of the content.
    obtain rfl : before = [] := by
      refine List.eq_nil_iff_forall_not_mem.2 fun e he => ?_
      have hmem : e ∈ trims := List.mem_mergeSort.1 (hothers ▸ List.mem_append_left _ he)
      have hbound := mem_trimLines (htrims ▸ hmem)
      have hlt := hbefore e he
      simp only [Bool.not_eq_true', decide_eq_false_iff_not] at hlt
      omega
    rw [List.singleton_append, hsorted, hothers, List.nil_append, List.nil_append, List.foldl_cons]
    rw [applyTo, List.drop_length, List.append_nil]

end LineEdit

/--
The characters of a text with the mark of those that are shielded.
-/
abbrev Shielded := List (Char × Bool)

/--
A text with all characters marked alike.
-/
def Shielded.ofText (shield : Bool) (cs : List Char) : Shielded :=
  cs.map (·, shield)

theorem Shielded.ofText_append (shield : Bool) (a b : List Char) :
    ofText shield (a ++ b) = ofText shield a ++ ofText shield b :=
  List.map_append

/--
What a text can end in once it is trimmed.
-/
def FinalEnd (t : List Char) : Prop :=
  t = [] ∨ t = ['\n'] ∨ t = ['\r', '\n']

/--
`Trims x t' t` means that `x` before the trimmed text `t'` is trimmed to `t`, of which `t'` is the end.
Blanks at the end of a line may be dropped if they are not shielded, and everything blank at the end of the
text is.
-/
inductive Trims : Shielded → List Char → List Char → Prop where
  | nil (t : List Char) : Trims [] t t
  | keep {x : Shielded} {t' t : List Char} {c : Char} {shield : Bool} (h : Trims x t' t)
    (hc : LineEdit.isEndBlank c → ¬FinalEnd t) : Trims ((c, shield) :: x) t' (c :: t)
  | drop {x : Shielded} {t' t : List Char} {c : Char} {shield : Bool} (h : Trims x t' t)
    (hc : LineEdit.isEndBlank c)
    (hend : FinalEnd t ∨ (LineEdit.isLineBlank c ∧ shield = false ∧ LineEnd t)) :
    Trims ((c, shield) :: x) t' t

theorem FinalEnd.lineEnd {t : List Char} (h : FinalEnd t) : LineEnd t := by
  obtain rfl | rfl | rfl := h
  · exact .inl rfl
  · exact .inr (.inl ⟨[], rfl⟩)
  · exact .inr (.inr ⟨[], rfl⟩)

theorem FinalEnd.isEndBlank {t : List Char} (h : FinalEnd t) {c : Char} (hc : c ∈ t) :
    LineEdit.isEndBlank c := by
  obtain rfl | rfl | rfl := h
  · cases hc
  · simp only [List.mem_singleton] at hc
    subst hc
    decide
  · simp only [List.mem_cons, List.not_mem_nil, or_false] at hc
    rcases hc with rfl | rfl <;> decide

namespace Trims

theorem append_iff {x y : Shielded} {t'' t : List Char} :
    Trims (x ++ y) t'' t ↔ ∃ t', Trims y t'' t' ∧ Trims x t' t := by
  induction x generalizing t with
  | nil =>
    constructor
    · exact fun h => ⟨t, h, .nil t⟩
    · rintro ⟨t', h, ⟨⟩⟩
      exact h
  | cons first x ih =>
    constructor
    · intro h
      cases h with
      | keep h hc =>
        obtain ⟨t', hy, hx⟩ := ih.1 h
        exact ⟨t', hy, hx.keep hc⟩
      | drop h hc hend =>
        obtain ⟨t', hy, hx⟩ := ih.1 h
        exact ⟨t', hy, hx.drop hc hend⟩
    · rintro ⟨t', hy, hx⟩
      cases hx with
      | keep h hc => exact (ih.2 ⟨t', hy, h⟩).keep hc
      | drop h hc hend => exact (ih.2 ⟨t', hy, h⟩).drop hc hend

/--
A text stays as it is if it does not end in a blank and is either shielded or on one line.
-/
theorem eq_append {cs : List Char} {shield : Bool} {t' t : List Char}
    (h : Trims (.ofText shield cs) t' t) (hshield : shield ∨ '\n' ∉ cs)
    (hlast : ∀ c ∈ cs.getLast?, LineEdit.isEndBlank c = false) : t = cs ++ t' := by
  induction cs generalizing t with
  | nil =>
    cases h
    rfl
  | cons c cs ih =>
    have hshield' : shield ∨ '\n' ∉ cs := hshield.imp_right fun hc hmem => hc (List.mem_cons_of_mem c hmem)
    have hlast' : ∀ c ∈ cs.getLast?, LineEdit.isEndBlank c = false := by
      intro d hd
      refine hlast d ?_
      rw [List.getLast?_cons, Option.mem_def.1 hd]
      rfl
    cases h with
    | keep h hc => rw [ih h hshield' hlast', List.cons_append]
    | drop h hc hend =>
      -- A character that is dropped has a line end behind it, but the last one is no blank.
      exfalso
      have heq := ih h hshield' hlast'
      subst heq
      cases hcs : cs.getLast? with
      | none =>
        rw [List.getLast?_eq_none_iff] at hcs
        subst hcs
        have := hlast c rfl
        rw [hc] at this
        cases this
      | some d =>
        have hd := hlast' d hcs
        have hmem : d ∈ cs ++ t' := List.mem_append_left _ (List.mem_of_getLast? hcs)
        rcases hend with hend | ⟨-, hfalse, hend⟩
        · rw [hend.isEndBlank hmem] at hd
          cases hd
        · have hnewline : '\n' ∉ cs := hshield'.resolve_left (by simp [hfalse])
          obtain hnil | ⟨r, hr⟩ | ⟨r, hr⟩ := hend
          · rw [hnil] at hmem
            cases hmem
          · cases cs with
            | nil => cases hcs
            | cons e cs =>
              cases hr
              exact hnewline List.mem_cons_self
          · match cs with
            | [] => cases hcs
            | [e] =>
              cases hr
              cases hcs
              exact absurd hd (by decide)
            | e :: f :: cs =>
              cases hr
              exact hnewline (by simp)

end Trims

end HaskellStyle
