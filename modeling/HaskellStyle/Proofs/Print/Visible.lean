import HaskellStyle.Proofs.Print.Kept
import HaskellStyle.Proofs.Print.Verbatim
import HaskellStyle.Proofs.Text.Normalize

/-!
This module contains what can be seen of tokens that are written as they were read: all their characters but blanks, in
their order, whatever columns their lines have been given.
-/

namespace HaskellStyle

namespace Trivia

theorem toList_text_cons (piece : TriviaPiece) (trivia : Trivia) :
    (text (piece :: trivia)).toList = piece.text.toList ++ trivia.text.toList := by
  rw [text, List.map_cons, String.join_cons, String.toList_append]
  rfl

/--
What can be seen of trivia.
-/
def visible (trivia : Trivia) : List Char :=
  Text.visible trivia.text.toList

@[simp] theorem visible_nil : visible [] = [] := by
  simp [visible, text]

@[simp] theorem visible_cons (piece : TriviaPiece) (trivia : Trivia) :
    visible (piece :: trivia) = Text.visible piece.text.toList ++ visible trivia := by
  rw [visible, toList_text_cons, Text.visible_append]
  rfl

@[simp] theorem visible_append (trivia more : Trivia) : visible (trivia ++ more) = visible trivia ++ visible more := by
  rw [visible, text, List.map_append, String.join_append, String.toList_append, Text.visible_append]
  rfl

/--
Trivia in which only comments and directives can be seen.
-/
def Clear (trivia : Trivia) : Prop :=
  ∀ piece ∈ trivia, piece.isComment = false → Text.visible piece.text.toList = []

theorem Clear.visible_eq_nil {trivia : Trivia} (h : trivia.Clear) (hnone : ∀ piece ∈ trivia, piece.isComment = false) :
    trivia.visible = [] := by
  induction trivia with
  | nil => exact visible_nil
  | cons piece more ih =>
    obtain ⟨hpiece, hmore⟩ := List.forall_mem_cons.1 h
    obtain ⟨hkind, hnone⟩ := List.forall_mem_cons.1 hnone
    rw [visible_cons, hpiece hkind, ih hmore hnone, List.nil_append]

theorem Clear.visible_comments {trivia : Trivia} (h : trivia.Clear) : visible trivia.comments = trivia.visible := by
  induction trivia with
  | nil => rfl
  | cons piece more ih =>
    obtain ⟨hpiece, hmore⟩ := List.forall_mem_cons.1 h
    rw [visible_cons, ← ih hmore, comments, List.filter_cons]
    split
    · rw [visible_cons]
      rfl
    · next hkind =>
      rw [hpiece (by simpa using hkind), List.nil_append]
      rfl

/--
The pieces of the lines of trivia are those of the trivia but for the line ends.
-/
theorem mem_splitLines (trivia : Trivia) :
    (∀ piece ∈ trivia.splitLines.1, piece ∈ trivia ∧ piece.kind ≠ .newline)
      ∧ ∀ line ∈ trivia.splitLines.2, ∀ piece ∈ line, piece ∈ trivia ∧ piece.kind ≠ .newline := by
  induction trivia with
  | nil => exact ⟨fun _ h => absurd h List.not_mem_nil, fun _ h => absurd h List.not_mem_nil⟩
  | cons first more ih =>
    have hmore {piece : TriviaPiece} (h : piece ∈ more ∧ piece.kind ≠ .newline) :
        piece ∈ first :: more ∧ piece.kind ≠ .newline := h.imp_left (List.mem_cons_of_mem _)
    have hothers : ∀ line ∈ (splitLines more).2, ∀ piece ∈ line, piece ∈ first :: more ∧ piece.kind ≠ .newline :=
      fun line hline piece hpiece => hmore (ih.2 line hline piece hpiece)
    by_cases hkind : first.kind = .newline
    · rw [splitLines_newline hkind]
      exact ⟨fun _ h => absurd h List.not_mem_nil,
        List.forall_mem_cons.2 ⟨fun piece hpiece => hmore (ih.1 piece hpiece), hothers⟩⟩
    · rw [splitLines_piece hkind]
      exact ⟨List.forall_mem_cons.2 ⟨⟨List.mem_cons_self, hkind⟩, fun piece hpiece => hmore (ih.1 piece hpiece)⟩,
        hothers⟩

theorem Clear.splitLines {trivia : Trivia} (h : trivia.Clear) :
    Clear trivia.splitLines.1 ∧ ∀ line ∈ trivia.splitLines.2, Clear line :=
  ⟨fun piece hpiece => h piece (trivia.mem_splitLines.1 piece hpiece).1,
    fun line hline piece hpiece => h piece (trivia.mem_splitLines.2 line hline piece hpiece).1⟩

theorem Clear.visible_splitLines {trivia : Trivia} (h : trivia.Clear) :
    trivia.visible = visible trivia.splitLines.1 ++ trivia.splitLines.2.flatMap visible := by
  induction trivia with
  | nil => rfl
  | cons piece more ih =>
    obtain ⟨hpiece, hmore⟩ := List.forall_mem_cons.1 h
    rw [visible_cons, ih hmore]
    by_cases hkind : piece.kind = .newline
    · rw [splitLines_newline hkind, hpiece (by rw [TriviaPiece.isComment, hkind])]
      rfl
    · rw [splitLines_piece hkind, visible_cons, List.append_assoc]

/--
Behind the last line end stands the last line.
-/
theorem exists_lastLine {trivia : Trivia} (h : trivia.hasNewline) :
    trivia.splitLines.2.getLast? = some trivia.lastLine
      ∧ ∃ before piece, trivia = before ++ piece :: trivia.lastLine ∧ piece.kind = .newline := by
  induction trivia with
  | nil => cases h
  | cons first more ih =>
    by_cases hmore : hasNewline more
    -- A line end that comes later hides the ones before it.
    · obtain ⟨hlast, before, piece, hsplit, hkind⟩ := ih hmore
      have hself : (splitLines (first :: more)).2.getLast? = some (lastLine more) := by
        by_cases hfirst : first.kind = .newline
        · rw [splitLines_newline hfirst, List.getLast?_cons, hlast]
          rfl
        · rw [splitLines_piece hfirst, hlast]
      have hlastLine : lastLine (first :: more) = lastLine more := by
        rw [Printer.lastLine_eq, hself]
        rfl
      rw [hlastLine]
      exact ⟨hself, first :: before, piece, congrArg _ hsplit, hkind⟩
    · rw [Bool.not_eq_true] at hmore
      rw [hasNewline, List.any_cons, show more.any _ = false from hmore, Bool.or_false, decide_eq_true_eq] at h
      have hself : splitLines (first :: more) = ([], [more]) := by
        rw [splitLines_newline h, Printer.splitLines_of_not_hasNewline hmore]
      have hlastLine : lastLine (first :: more) = more := by
        rw [Printer.lastLine_eq, hself]
        rfl
      rw [hlastLine, hself]
      exact ⟨rfl, [], first, rfl, h⟩

end Trivia

/--
A token around which only comments and directives can be seen.
-/
structure Token.IsClear (t : Token) : Prop where
  leading : t.leading.Clear
  trailing : t.trailing.Clear

namespace Output

/--
Output of which `cs` can be seen.
-/
structure Spells (out : Output) (cs : List Char) : Prop where
  sound : out.Sound
  visible : Text.visible out.text.toList = cs

namespace Spells

variable {out : Output} {cs : List Char} (h : out.Spells cs)
include h

theorem write (text : String) (shield : Bool) : (out.write text shield).Spells (cs ++ Text.visible text.toList) where
  sound := h.sound.write text shield
  visible := by
    rw [Output.write, String.toList_append, Text.visible_append, h.visible]

theorem put_blank {text : String} (htext : Text.visible text.toList = []) : (out.put text).Spells cs := by
  have hput := h.write text false
  rwa [htext, List.append_nil] at hput

theorem endLine : out.endLine.Spells cs := by
  refine h.put_blank ?_
  rcases h.sound.newline with heq | heq <;> rw [heq] <;> decide

theorem blanks (count : Int) : (out.blanks count).Spells cs := by
  refine h.put_blank (Text.visible_eq_nil fun c hc => ?_)
  rw [String.toList_ofList] at hc
  rw [List.eq_of_mem_replicate hc]
  decide

theorem report (d : Diagnostic) : (out.report d).Spells cs :=
  ⟨⟨h.sound.size, h.sound.newline, h.sound.disjoint, h.sound.bounded⟩, h.visible⟩

end Spells

end Output

namespace Printer

variable {out : Output} {cs : List Char} {t : Token}

open Output (Spells)

theorem spells_pieces (h : out.Spells cs) (pieces : List TriviaPiece) :
    (pieces.foldl piece out).Spells (cs ++ Trivia.visible pieces) := by
  induction pieces generalizing out cs with
  | nil => rwa [Trivia.visible_nil, List.append_nil]
  | cons first more ih =>
    rw [Trivia.visible_cons, ← List.append_assoc]
    exact ih (h.write first.text _)

theorem spells_commentsBehind (h : out.Spells cs) (comments : List TriviaPiece) :
    (comments.foldl (fun out comment => out.write (" " ++ comment.text) true) out).Spells
      (cs ++ Trivia.visible comments) := by
  induction comments generalizing out cs with
  | nil => rwa [Trivia.visible_nil, List.append_nil]
  | cons first more ih =>
    have hwrite := h.write (" " ++ first.text) true
    rw [String.toList_append, Text.visible_append, Text.visible_eq_nil (List.all_eq_true.1 (by decide)),
      List.nil_append] at hwrite
    rw [Trivia.visible_cons, ← List.append_assoc]
    exact ih hwrite

theorem spells_triviaLine (h : out.Spells cs) {line : List TriviaPiece} (hline : Trivia.Clear line) (delta : Int)
    (isTokenLine : Bool) : (triviaLine line delta isTokenLine out).Spells (cs ++ Trivia.visible line) := by
  have hblank {piece : TriviaPiece} (hkind : piece.kind = .blanks) : piece.isComment = false := by
    rw [TriviaPiece.isComment, hkind]
  unfold triviaLine
  split
  · next hempty =>
    rw [Bool.and_eq_true, List.isEmpty_iff, Trivia.lineContent, List.filter_eq_nil_iff] at hempty
    rw [hline.visible_eq_nil fun piece hpiece => hblank (by simpa using hempty.1 piece hpiece), List.append_nil]
    exact h
  · split
    · next first more _ =>
      split
      · next hkind =>
        have hfirst := hline first List.mem_cons_self (hblank hkind)
        rw [Trivia.visible_cons, hfirst, List.nil_append]
        refine spells_pieces ?_ more
        split
        · exact h.put_blank hfirst
        · exact h.blanks _
      · exact spells_pieces (h.blanks delta) _
    · rw [Trivia.visible_nil, List.append_nil]
      exact h.blanks delta

theorem spells_lines (h : out.Spells cs) {lines : List (List TriviaPiece)} (hlines : ∀ line ∈ lines, Trivia.Clear line)
    (delta : Int) : (lines.foldl (fun out line => triviaLine line delta false out.endLine) out).Spells
      (cs ++ lines.flatMap Trivia.visible) := by
  induction lines generalizing out cs with
  | nil => rwa [List.flatMap_nil, List.append_nil]
  | cons line lines ih =>
    obtain ⟨hline, hlines⟩ := List.forall_mem_cons.1 hlines
    rw [List.flatMap_cons, ← List.append_assoc]
    exact ih (spells_triviaLine h.endLine hline delta false) hlines

/--
All that can be seen of the trivia before a token is written.
-/
theorem spells_leading (p : Printer) (h : out.Spells cs) (ht : t.leading.Clear) :
    (p.leading t out).Spells (cs ++ t.leading.visible) := by
  unfold leading
  dsimp only
  split
  · rw [← ht.visible_comments]
    exact (spells_commentsBehind h _).endLine.blanks _
  · obtain ⟨-, hothers⟩ := ht.splitLines
    have hfirst := spells_pieces h t.leading.splitLines.1
    rw [ht.visible_splitLines, ← List.append_assoc]
    split
    · next hnone =>
      rw [List.getLast?_eq_none_iff.1 hnone, List.flatMap_nil, List.append_nil]
      exact hfirst
    · next last hlast =>
      obtain ⟨before, hbefore⟩ := List.getLast?_eq_some_iff.1 hlast
      rw [hbefore, List.forall_mem_append] at hothers
      rw [hbefore, List.dropLast_concat, List.flatMap_append, List.flatMap_singleton, ← List.append_assoc]
      exact spells_triviaLine (spells_lines hfirst hothers.1 _).endLine (hothers.2 last (List.mem_singleton.2 rfl)) _ _

theorem spells_trailing (p : Printer) (h : out.Spells cs) (ht : t.trailing.Clear) (structured : Bool) :
    (p.trailing t structured out).Spells (cs ++ t.trailing.visible) := by
  obtain ⟨tail, heq, hgap, htail, -⟩ := splitComments_cases t.trailing
  -- Only blanks around the comments are left out.
  have hvisible : t.trailing.visible = Trivia.visible (splitComments t.trailing).2 := by
    have hclear : Trivia.Clear (_ ++ (_ ++ tail)) := heq ▸ ht
    have hgap' := Trivia.Clear.visible_eq_nil (fun piece hpiece => hclear piece (List.mem_append_left _ hpiece)) hgap
    have htail' := Trivia.Clear.visible_eq_nil
      (fun piece hpiece => hclear piece (List.mem_append_right _ (List.mem_append_right _ hpiece))) htail
    conv => lhs; rw [heq]
    rw [Trivia.visible_append, Trivia.visible_append, hgap', htail', List.nil_append, List.append_nil]
  rw [hvisible]
  unfold trailing
  dsimp only
  split
  · next hnone =>
    rw [hnone, Trivia.visible_nil, List.append_nil]
    exact h
  · refine spells_pieces (Spells.blanks ?_ _) _
    exact iteInduction (motive := fun out : Output => out.Spells cs) (fun _ => h.report _) fun _ => h

theorem spells_token (p : Printer) (h : out.Spells cs) (ht : t.trailing.Clear) :
    (p.token out t).Spells (cs ++ Text.visible t.text.toList ++ t.trailing.visible) :=
  spells_trailing p (h.write t.text _) ht false

/--
All that can be seen of tokens is written.
-/
theorem spells_verbatim (p : Printer) (h : out.Spells cs) {ts : List Token} (hts : ∀ t ∈ ts, t.IsClear) :
    (p.verbatim ts out).Spells (cs ++ Text.visible (Token.joinSource ts).toList) := by
  induction ts generalizing out cs with
  | nil =>
    rw [show Text.visible (Token.joinSource []).toList = [] by simp [Token.joinSource], List.append_nil]
    exact h
  | cons t ts ih =>
    obtain ⟨ht, hts⟩ := List.forall_mem_cons.1 hts
    have hrest := ih (spells_token p (spells_leading p h ht.leading) ht.trailing) hts
    have hsource : Text.visible (Token.joinSource (t :: ts)).toList = t.leading.visible ++ Text.visible t.text.toList
        ++ t.trailing.visible ++ Text.visible (Token.joinSource ts).toList := by
      rw [Token.joinSource, List.map_cons, String.join_cons, String.toList_append, Token.sourceText,
        String.toList_append, String.toList_append, Text.visible_append, Text.visible_append, Text.visible_append]
      rfl
    rw [hsource, ← List.append_assoc, ← List.append_assoc, ← List.append_assoc]
    exact hrest

end Printer

end HaskellStyle
