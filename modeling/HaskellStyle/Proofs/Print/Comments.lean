import HaskellStyle.Proofs.Print.Flat
import HaskellStyle.Print.Header

/-!
This module contains what the writing of comments on lines of their own shows. Comments before a token that
stand on whole lines are all of them written.
-/

namespace HaskellStyle

variable {μ : Type} {v : View μ} {q : Bool}

namespace Trivia

/--
All comments stand on lines that begin and end in the trivia.
-/
def InLines (trivia : Trivia) : Prop :=
  hasComments trivia.splitLines.1 = false ∧ hasComments trivia.lastLine = false

theorem seen_of_not_hasComments {line : List TriviaPiece} (h : IsLine line) (hnone : hasComments line = false) :
    seen v line = 0 := by
  refine seen_eq_zero h fun piece hpiece => ?_
  rw [hasComments, List.any_eq_false] at hnone
  simpa using hnone piece hpiece

theorem lineContent_eq_comments {line : List TriviaPiece} (h : IsLine line) :
    lineContent line = comments line := by
  unfold lineContent comments
  refine List.filter_congr fun piece hpiece => ?_
  have hsound := h.sound piece hpiece
  unfold TriviaPiece.IsSound at hsound
  unfold TriviaPiece.isComment
  cases hkind : piece.kind <;> simp_all

theorem isLine_lineContent {line : List TriviaPiece} (h : IsLine line) : IsLine (lineContent line) :=
  h.sublist List.filter_sublist

theorem seen_lineContent {line : List TriviaPiece} (h : IsLine line) : seen v (lineContent line) = seen v line := by
  rw [lineContent_eq_comments h, seen_comments h]

theorem IsSound.isLine_commentLines {trivia : Trivia} (h : trivia.IsSound) :
    ∀ line ∈ trivia.commentLines, IsLine line := by
  intro line hline
  obtain ⟨whole, hwhole, rfl⟩ := List.mem_map.1 hline
  exact isLine_lineContent (h.others whole ((List.dropLast_sublist _).mem hwhole))

theorem sum_commentLines {trivia : Trivia} (h : trivia.IsSound) :
    (trivia.commentLines.map (seen v)).sum = (trivia.splitLines.2.dropLast.map (seen v)).sum := by
  unfold commentLines wholeLines
  rw [List.map_map]
  congr 1
  refine List.map_congr_left fun line hline => ?_
  exact seen_lineContent (h.others line ((List.dropLast_sublist _).mem hline))

/--
What is seen of trivia is seen before its first line end, on its whole lines or before the token.
-/
theorem seen_eq {trivia : Trivia} (h : trivia.IsSound) (hlast : hasComments trivia.lastLine = false) :
    seen v trivia = seen v trivia.splitLines.1 + (trivia.commentLines.map (seen v)).sum := by
  rw [sum_commentLines h, seen_splitLines]
  congr 1
  have hothers := h.others
  unfold lastLine at hlast
  dsimp only at hlast
  cases hget : trivia.splitLines.2.getLast? with
  | none =>
    rw [List.getLast?_eq_none_iff.1 hget]
    rfl
  | some last =>
    rw [hget, Option.getD_some] at hlast
    obtain ⟨before, heq⟩ := List.getLast?_eq_some_iff.1 hget
    rw [heq] at hothers ⊢
    rw [List.dropLast_concat, List.map_append, List.sum_append, List.map_cons, List.map_nil,
      List.sum_singleton, seen_of_not_hasComments (hothers last (by simp)) hlast, add_zero]

theorem sum_commentLines_of_inLines {trivia : Trivia} (h : trivia.IsSound) (hlines : trivia.InLines) :
    (trivia.commentLines.map (seen v)).sum = seen v trivia := by
  rw [seen_eq h hlines.2, seen_of_not_hasComments h.first hlines.1, zero_add]

/--
Comments on their own lines are a line's text.
-/
theorem fits_lineText {line : List TriviaPiece} (h : IsLine line) {shield : Bool}
    (hshield : shield ∨ '\n' ∉ (lineText line).toList) :
    Fits v q Calm (.ofText shield (lineText line).toList) (seen v line) (After line) := by
  unfold lineText at hshield ⊢
  induction line with
  | nil => exact Fits.nil fun _ h => by simpa [After] using h
  | cons piece line ih =>
    have hpiece := h.sound piece List.mem_cons_self
    cases line with
    | nil =>
      rw [List.map_cons, List.map_nil, String.intercalate_singleton] at hshield ⊢
      rw [seen_cons, seen_nil, add_zero]
      exact piece.fits hpiece hshield
    | cons next more =>
      rw [List.map_cons, List.map_cons, String.intercalate_cons_cons] at hshield ⊢
      rw [← List.map_cons (f := TriviaPiece.text)] at hshield ⊢
      rw [String.toList_append, String.toList_append] at hshield ⊢
      simp only [List.mem_append, not_or] at hshield
      have hkind := (List.pairwise_cons.1 h.last).1 next List.mem_cons_self
      have hfirst := piece.fits (v := v) (q := q) hpiece (hshield.imp_right fun h => h.1.1)
      have hrest := ih (h.sublist (List.sublist_cons_self _ _)) (hshield.imp_right fun h => h.2)
      have hblank : Fits v q Calm (.ofText shield " ".toList) 0 Calm :=
        Fits.blanks (List.all_eq_true.1 (by decide)) shield
      rw [after_of_kind hkind] at hfirst
      rw [Shielded.ofText_append, Shielded.ofText_append, seen_cons, after_cons (List.cons_ne_nil _ _)]
      have := (hfirst.append hblank).append hrest
      rwa [add_zero] at this

end Trivia

namespace Printer

variable {out : Output} {ms : Multiset μ} {p : Printer} {t : Token}

open Output (Shows)

theorem shows_lineText {line : List TriviaPiece} (hline : Trivia.IsLine line) (h : out.Shows v q ms Calm) :
    (out.write (Trivia.lineText line) true).Shows v q (ms + Trivia.seen v line) (Trivia.After line) := by
  refine h.write (Trivia.fits_lineText hline ?_)
  by_cases hmem : '\n' ∈ (Trivia.lineText line).toList
  · left
    simp [hmem]
  · exact .inr hmem

/--
A comment line can be written behind everything.
-/
theorem shows_commentLine {line : List TriviaPiece} (hline : Trivia.IsLine line) (indent : Int)
    (h : out.Shows v q ms LineEnd) :
    (commentLine indent out line).Shows v q (ms + Trivia.seen v line) LineEnd :=
  (shows_lineText hline (h.endLine.blanks indent)).mono fun _ => Trivia.after_of_lineEnd

theorem lineEnd_of_endLine (h : out.Shows v q ms LineEnd) : out.endLine.Shows v q ms LineEnd :=
  h.endLine.mono fun _ hy => hy.calm

theorem shows_commentLinesFrom {lines : List (List TriviaPiece)} (hlines : ∀ line ∈ lines, Trivia.IsLine line)
    (indent : Int) (keepBlank blank : Bool) (h : out.Shows v q ms LineEnd) :
    (commentLinesFrom indent keepBlank blank lines out).Shows v q (ms + (lines.map (Trivia.seen v)).sum)
      LineEnd := by
  have hblank {out : Output} {ms : Multiset μ} (b : Bool) (h : out.Shows v q ms LineEnd) :
      (if b then out.endLine else out).Shows v q ms LineEnd := by
    split
    · exact lineEnd_of_endLine h
    · exact h
  induction lines generalizing out ms blank with
  | nil => simpa [commentLinesFrom] using hblank blank h
  | cons line lines ih =>
    have hlines' : ∀ line ∈ lines, Trivia.IsLine line := fun other hother =>
      hlines other (List.mem_cons_of_mem line hother)
    rw [List.map_cons, List.sum_cons]
    cases line with
    | nil =>
      rw [commentLinesFrom, Trivia.seen_nil, zero_add]
      exact ih hlines' keepBlank h
    | cons piece more =>
      rw [commentLinesFrom, ← add_assoc]
      · exact ih hlines' false (shows_commentLine (hlines _ List.mem_cons_self) indent (hblank blank h))
      · exact List.cons_ne_nil _ _

/--
The comments before a token are written on lines of their own.
-/
theorem shows_commentLines {trivia : Trivia} (htrivia : trivia.IsSound) (hlines : trivia.InLines) (indent : Int)
    (keepBlank : Bool) (h : out.Shows v q ms LineEnd) :
    (commentLines trivia indent keepBlank out).Shows v q (ms + trivia.seen v) LineEnd := by
  rw [← Trivia.sum_commentLines_of_inLines htrivia hlines]
  exact shows_commentLinesFrom htrivia.isLine_commentLines indent keepBlank false h

end Printer

namespace Trivia

theorem IsSound.isLine_allCommentLines {trivia : Trivia} (h : trivia.IsSound) :
    ∀ line ∈ trivia.allCommentLines, IsLine line := by
  intro line hline
  have hmem := (List.mem_filter.1 hline).1
  rcases List.mem_append.1 hmem with hmem | hmem
  · split at hmem
    · cases hmem
    · rw [List.mem_singleton.1 hmem]
      exact h.first.sublist List.filter_sublist
  · exact h.isLine_commentLines line hmem

theorem sum_filter_isEmpty (lines : List (List TriviaPiece)) :
    ((lines.filter fun line => !line.isEmpty).map (seen v)).sum = (lines.map (seen v)).sum := by
  induction lines with
  | nil => rfl
  | cons line lines ih =>
    cases line with
    | nil =>
      rw [List.filter_cons_of_neg (by simp), ih]
      simp
    | cons piece more => rw [List.filter_cons_of_pos (by simp), List.map_cons, List.map_cons, List.sum_cons, List.sum_cons, ih]

/--
All comments of trivia that has none on the line of its token.
-/
theorem sum_allCommentLines {trivia : Trivia} (h : trivia.IsSound) (hlast : hasComments trivia.lastLine = false) :
    (trivia.allCommentLines.map (seen v)).sum = seen v trivia := by
  unfold allCommentLines
  dsimp only
  rw [sum_filter_isEmpty, List.map_append, List.sum_append, seen_eq h hlast]
  congr 1
  split
  · next hempty =>
    have hnone : hasComments trivia.splitLines.1 = false := by
      unfold lastLine at hlast
      dsimp only at hlast
      rwa [List.isEmpty_iff.1 hempty] at hlast
    rw [seen_of_not_hasComments h.first hnone]
    rfl
  · rw [List.map_cons, List.map_nil, List.sum_singleton, seen_comments h.first]

end Trivia

namespace Printer

variable {out : Output} {ms : Multiset μ} {p : Printer} {t : Token}

open Output (Shows)

theorem shows_linesBelow {lines : List (List TriviaPiece)} (hlines : ∀ line ∈ lines, Trivia.IsLine line)
    (h : out.Shows v q ms LineEnd) :
    (lines.foldl (fun out line => out.endLineIfStarted.write (Trivia.lineText line) true) out).Shows v q
      (ms + (lines.map (Trivia.seen v)).sum) LineEnd := by
  induction lines generalizing out ms with
  | nil => simpa using h
  | cons line lines ih =>
    have hline := shows_lineText (hlines line List.mem_cons_self) h.endLineIfStarted
    rw [List.foldl_cons, List.map_cons, List.sum_cons, ← add_assoc]
    exact ih (fun other hother => hlines other (List.mem_cons_of_mem line hother))
      (hline.mono fun _ => Trivia.after_of_lineEnd)

end Printer

end HaskellStyle
