import HaskellStyle.Proofs.Print.Visible
import HaskellStyle.Proofs.Token.Lossless

/-!
This module contains the lines of tokens with placements. What stands on such a line before its token is blanks, as
many as the placement asks for, and the comments that stood there. The token comes to stand in its column if there is
room for it and no tab in a comment before it.
-/

namespace HaskellStyle

namespace Text

theorem advanceColumn_add {c : Char} (htab : c ≠ '\t') (hnewline : c ≠ '\n') (column d : Int) :
    advanceColumn (column + d) c = advanceColumn column c + d := by
  rw [advanceColumn, advanceColumn, if_neg hnewline, if_neg hnewline, if_neg htab, if_neg htab]
  split
  · rfl
  · omega

/--
Without tabs and line ends a text is as wide wherever it begins.
-/
theorem visualWidth_add {cs : List Char} (htab : '\t' ∉ cs) (hnewline : '\n' ∉ cs) (column d : Int) :
    visualWidth cs (column + d) = visualWidth cs column + d := by
  induction cs generalizing column with
  | nil => rfl
  | cons c cs ih =>
    rw [List.mem_cons, not_or] at htab hnewline
    rw [visualWidth_cons, visualWidth_cons, advanceColumn_add (Ne.symm htab.1) (Ne.symm hnewline.1),
      ih htab.2 hnewline.2]

theorem visualWidth_blanks (n : Nat) (start : Int) : visualWidth (List.replicate n ' ') start = start + n := by
  induction n generalizing start with
  | zero => exact (Int.add_zero start).symm
  | succ n ih =>
    rw [List.replicate_succ, visualWidth_cons, ih]
    simp only [advanceColumn]
    simp
    omega

end Text

namespace Token

/--
A token whose line has an indentation that can be changed is the first one on the line, behind comments that do not
go over a line end.
-/
theorem of_reindentable {t : Token} (h : t.reindentable) :
    t.lineStart ∧ t.leading.hasNewline ∧ ∀ piece ∈ t.leading.lastLine, piece.isMultiline = false := by
  simp only [reindentable, Bool.and_eq_true] at h
  obtain ⟨⟨hstart, hnewline⟩, hpieces⟩ := h
  refine ⟨hstart, hnewline, fun piece hpiece => ?_⟩
  have hone := List.all_eq_true.1 hpieces piece hpiece
  rw [Bool.and_eq_true] at hone
  simpa using hone.2

/--
The blanks with which the line of a token begins.
-/
def indentation (t : Token) : List Char :=
  match t.leading.lastLine with
  | first :: _ => if first.kind = .blanks then first.text.toList else []
  | [] => []

/--
What stands on the line of a token between the indentation and the token.
-/
def remarks (t : Token) : Trivia :=
  match t.leading.lastLine with
  | first :: more => if first.kind = .blanks then more else first :: more
  | [] => []

theorem text_lastLine (t : Token) :
    (Trivia.text t.leading.lastLine).toList = t.indentation ++ (Trivia.text t.remarks).toList := by
  unfold indentation remarks
  cases t.leading.lastLine with
  | nil => rfl
  | cons first more =>
    dsimp only
    split
    · exact Trivia.toList_text_cons first more
    · rfl

theorem remarks_subset (t : Token) : t.remarks ⊆ t.leading.lastLine := by
  unfold remarks
  cases t.leading.lastLine with
  | nil => exact List.Subset.refl _
  | cons first more =>
    dsimp only
    split
    · exact List.subset_cons_self _ _
    · exact List.Subset.refl _

end Token

namespace Placement

/--
The blanks that a placement asks for on the line of a token. They are less than none if the remarks on the line leave no
room.
-/
def room (placement : Placement) (t : Token) : Int :=
  if placement.breakBefore then
    placement.column
  else
    Text.visualWidth t.indentation 0 + (placement.column - t.column)

/--
What a placement puts on the line of a token before it.
-/
def lead (placement : Placement) (t : Token) : List Char :=
  List.replicate (placement.room t).toNat ' '
    ++ if placement.breakBefore then [] else (Trivia.text t.remarks).toList

/--
A placement that the printer can follow: it brings a token to a new line, or the token begins a line with an indentation
that can be changed.
-/
def Movable (placement : Placement) (t : Token) : Prop :=
  placement.breakBefore ∨ t.reindentable ∧ placement.column ≠ t.column

variable {placement : Placement} {t : Token}

theorem newline_notMem_lead (h : placement.Movable t) : '\n' ∉ placement.lead t := by
  unfold lead
  rw [List.mem_append, not_or]
  refine ⟨fun hmem => absurd (List.eq_of_mem_replicate hmem) (by decide), ?_⟩
  split
  · exact List.not_mem_nil
  · next hbreak =>
    obtain ⟨-, hnewline, hpieces⟩ := Token.of_reindentable (h.resolve_left hbreak).1
    rw [Trivia.text, String.toList_join, List.mem_flatMap]
    rintro ⟨text, htext, hmem⟩
    obtain ⟨piece, hpiece, rfl⟩ := List.mem_map.1 htext
    have hlast := t.remarks_subset hpiece
    have hline := List.mem_of_getLast? (Trivia.exists_lastLine hnewline).1
    have hkind := (t.leading.mem_splitLines.2 _ hline piece hlast).2
    have hone := hpieces piece hlast
    rw [TriviaPiece.isMultiline, decide_eq_true hkind, Bool.true_and, List.contains_iff_mem.2 hmem] at hone
    exact Bool.noConfusion hone

/--
A token comes to stand in the column of its placement if there is room for it.
-/
theorem width_lead
    (hcolumn : t.leading.hasNewline → t.column = Text.visualWidth (Trivia.text t.leading.lastLine).toList 0)
    (h : placement.Movable t) (htab : '\t' ∉ placement.lead t) :
    Text.visualWidth (placement.lead t) 0 = placement.column ↔ 0 ≤ placement.room t := by
  have hnewline := newline_notMem_lead h
  unfold lead at htab hnewline ⊢
  rw [List.mem_append, not_or] at htab hnewline
  rw [Text.visualWidth_append, Text.visualWidth_blanks]
  by_cases hbreak : placement.breakBefore
  · rw [if_pos hbreak, Text.visualWidth_nil, room, if_pos hbreak]
    omega
  · obtain ⟨-, hline, -⟩ := Token.of_reindentable (h.resolve_left hbreak).1
    specialize hcolumn hline
    rw [if_neg hbreak] at htab hnewline ⊢
    rw [t.text_lastLine, Text.visualWidth_append] at hcolumn
    -- The remarks are as wide as in the source, so the token moves with them.
    have hshift := Text.visualWidth_add htab.2 hnewline.2 (Text.visualWidth t.indentation 0)
      (0 + ((placement.room t).toNat : Int) - Text.visualWidth t.indentation 0)
    rw [add_sub_cancel, ← hcolumn] at hshift
    rw [hshift, room, if_neg hbreak]
    omega

end Placement

namespace Output

variable {out : Output}

theorem exists_text_endLine (h : out.Sound) : ∃ before, out.endLine.text.toList = before ++ ['\n'] := by
  rw [endLine, put, write, String.toList_append]
  rcases h.newline with heq | heq
  · exact ⟨out.text.toList, by rw [heq]⟩
  · exact ⟨out.text.toList ++ ['\r'], by rw [heq]; simp⟩

theorem text_blanks (count : Int) :
    (out.blanks count).text.toList = out.text.toList ++ List.replicate count.toNat ' ' := by
  rw [blanks, put, write, String.toList_append, String.toList_ofList]

end Output

namespace Printer

variable {p : Printer} {out : Output} {t : Token} {placement : Placement}

theorem text_pieces (pieces : List TriviaPiece) (out : Output) :
    (pieces.foldl piece out).text.toList = out.text.toList ++ (Trivia.text pieces).toList := by
  induction pieces generalizing out with
  | nil => simp [Trivia.text]
  | cons first more ih =>
    rw [List.foldl_cons, ih, piece, Output.write, String.toList_append, Trivia.toList_text_cons, List.append_assoc]

/--
A line that is moved gets a new indentation.
-/
theorem text_triviaLine {delta : Int} (hdelta : delta ≠ 0) (out : Output) :
    (triviaLine t.leading.lastLine delta true out).text.toList = out.text.toList
      ++ (List.replicate (Text.visualWidth t.indentation 0 + delta).toNat ' ' ++ (Trivia.text t.remarks).toList) := by
  unfold triviaLine Token.indentation Token.remarks
  rw [Bool.not_true, Bool.and_false, if_neg Bool.false_ne_true]
  cases t.leading.lastLine with
  | nil => simp [Output.text_blanks, Trivia.text]
  | cons first more =>
    dsimp only
    split
    · rw [text_pieces, Output.text_blanks, List.append_assoc]
    · rw [text_pieces, Output.text_blanks, Text.visualWidth_nil, Int.zero_add, List.append_assoc]

/--
A token with a placement that can be followed comes first on its line, but for blanks and comments.
-/
theorem exists_text_leading (h : out.Sound) (hclear : t.leading.Clear) (hend : t.isEnd = false)
    (hplaced : p.placements.lookup t.offset = some placement) (hmovable : placement.Movable t) :
    ∃ before, (p.leading t out).text.toList = before ++ '\n' :: placement.lead t := by
  obtain ⟨column, breakBefore⟩ := placement
  have hspells : out.Spells _ := ⟨h, rfl⟩
  cases breakBefore with
  | true =>
    rw [leading_eq_break hplaced, Output.text_blanks]
    obtain ⟨before, hbefore⟩ := Output.exists_text_endLine (spells_commentsBehind hspells t.leading.comments).sound
    refine ⟨before, ?_⟩
    rw [hbefore]
    simp [Placement.lead, Placement.room]
  | false =>
    obtain ⟨hreindentable, hcolumn⟩ := hmovable.resolve_left Bool.false_ne_true
    have hdelta : column - t.column ≠ 0 := by
      dsimp only at hcolumn
      omega
    obtain ⟨hlast, -⟩ := Trivia.exists_lastLine (Token.of_reindentable hreindentable).2.1
    obtain ⟨-, hothers⟩ := hclear.splitLines
    unfold leading
    dsimp only
    rw [hplaced]
    dsimp only
    rw [hlast]
    dsimp only
    rw [Option.map_some, Option.getD_some, hend, Bool.not_false, text_triviaLine hdelta]
    -- The lines before the last one have comments only, and the last one is the line of the token.
    have hbefore : ∀ line ∈ t.leading.splitLines.2.dropLast, Trivia.Clear line :=
      fun line hline => hothers line (List.dropLast_subset _ hline)
    have hlines := spells_lines (spells_pieces hspells t.leading.splitLines.1) hbefore (column - t.column)
    obtain ⟨before, hbefore⟩ := Output.exists_text_endLine hlines.sound
    refine ⟨before, ?_⟩
    rw [hbefore]
    simp [Placement.lead, Placement.room]

end Printer

end HaskellStyle
