import Mathlib.Tactic.Abel
import HaskellStyle.Proofs.Print.Output
import HaskellStyle.Print.Trivia

/-!
This module contains what the writing of tokens with their trivia shows. All comments are written, and the
blanks around them do not matter.
-/

namespace HaskellStyle

variable {μ : Type} {v : View μ} {q : Bool}

namespace TriviaPiece

/--
What is seen of a piece.
-/
def seen (v : View μ) (piece : TriviaPiece) : Multiset μ :=
  v.see (.trivia piece.kind) piece.text.toList

/--
A piece on a line that is what its kind says. Directives and byte order marks, which have fixed places, are
left out.
-/
def IsSound (piece : TriviaPiece) : Prop :=
  match piece.kind with
  | .blanks => piece.text.toList ≠ [] ∧ ∀ c ∈ piece.text.toList, Text.isBlank c
  | .lineComment => Lexeme.IsLineComment piece.text.toList
  | .blockComment => Lexeme.IsBlockComment piece.text.toList
  | .newline | .directive | .byteOrderMark => False

end TriviaPiece

namespace Trivia

/--
What is seen of trivia.
-/
def seen (v : View μ) (trivia : Trivia) : Multiset μ :=
  (trivia.map (TriviaPiece.seen v)).sum

@[simp]
theorem seen_nil : seen v [] = 0 := rfl

@[simp]
theorem seen_cons (piece : TriviaPiece) (trivia : Trivia) :
    seen v (piece :: trivia) = piece.seen v + seen v trivia := by
  simp [seen]

@[simp]
theorem seen_append (trivia more : Trivia) : seen v (trivia ++ more) = seen v trivia + seen v more := by
  simp [seen]

/--
Pieces on one line. A line comment comes last.
-/
structure IsLine (line : List TriviaPiece) : Prop where
  sound : ∀ piece ∈ line, piece.IsSound
  last : line.Pairwise fun piece _ => piece.kind ≠ .lineComment

theorem IsLine.sublist {line part : List TriviaPiece} (h : IsLine line) (hpart : part.Sublist line) :
    IsLine part :=
  ⟨fun piece hpiece => h.sound piece (hpart.mem hpiece), h.last.sublist hpart⟩

/--
What pieces on a line ask of what follows: a line end behind a line comment.
-/
def After (line : List TriviaPiece) : List Char → Prop :=
  if line.getLast?.any (·.kind = .lineComment) then LineEnd else Calm

theorem after_of_lineEnd {line : List TriviaPiece} {t : List Char} (h : LineEnd t) : After line t := by
  unfold After
  split
  · exact h
  · exact h.calm

theorem after_cons {piece : TriviaPiece} {line : List TriviaPiece} (h : line ≠ []) :
    After (piece :: line) = After line := by
  unfold After
  rw [List.getLast?_cons]
  cases hlast : line.getLast? with
  | none => exact absurd (List.getLast?_eq_none_iff.1 hlast) h
  | some last => rfl

theorem after_of_kind {piece : TriviaPiece} (h : piece.kind ≠ .lineComment) : After [piece] = Calm := by
  simp [After, h]

theorem seen_of_not_isComment {piece : TriviaPiece} (h : piece.IsSound) (hpiece : piece.isComment = false) :
    piece.seen v = 0 := by
  unfold TriviaPiece.IsSound at h
  unfold TriviaPiece.isComment at hpiece
  unfold TriviaPiece.seen
  cases hkind : piece.kind with
  | blanks => exact v.see_blanks _
  | newline => exact v.see_newline _
  | lineComment | blockComment | directive =>
    rw [hkind] at hpiece
    cases hpiece
  | byteOrderMark =>
    rw [hkind] at h
    exact h.elim

/--
Blanks on a line are not seen.
-/
theorem seen_eq_zero {line : List TriviaPiece} (h : IsLine line)
    (hblank : ∀ piece ∈ line, piece.isComment = false) : seen v line = 0 := by
  induction line with
  | nil => rfl
  | cons piece line ih =>
    rw [seen_cons, seen_of_not_isComment (h.sound piece List.mem_cons_self) (hblank piece List.mem_cons_self),
      ih (h.sublist (List.sublist_cons_self piece line))
        fun other hother => hblank other (List.mem_cons_of_mem piece hother), add_zero]

theorem seen_comments {line : List TriviaPiece} (h : IsLine line) : seen v (comments line) = seen v line := by
  induction line with
  | nil => rfl
  | cons piece line ih =>
    have ih := ih (h.sublist (List.sublist_cons_self piece line))
    unfold comments at ih ⊢
    cases hcomment : piece.isComment with
    | true => rw [List.filter_cons_of_pos hcomment, seen_cons, seen_cons, ih]
    | false =>
      rw [List.filter_cons_of_neg (by simp [hcomment]), seen_cons, ih,
        seen_of_not_isComment (h.sound piece List.mem_cons_self) hcomment, zero_add]

end Trivia

namespace TriviaPiece

/--
A piece can be written on a line.
-/
theorem fits {piece : TriviaPiece} (h : piece.IsSound) {shield : Bool}
    (hshield : shield ∨ '\n' ∉ piece.text.toList) :
    Fits v q Calm (.ofText shield piece.text.toList) (piece.seen v) (Trivia.After [piece]) := by
  unfold IsSound at h
  unfold seen
  split at h
  · next hkind =>
    rw [Trivia.after_of_kind (by simp [hkind]), hkind, v.see_blanks]
    exact Fits.blanks h.2 shield
  · next hkind =>
    have hafter : Trivia.After [piece] = LineEnd := by simp [Trivia.After, hkind]
    rw [hafter, hkind]
    exact Fits.lineComment h shield
  · next hkind =>
    rw [Trivia.after_of_kind (by simp [hkind]), hkind]
    exact (Fits.blockComment h hshield).mono (fun _ h => h.calm) fun _ => id
  · exact h.elim
  · exact h.elim
  · exact h.elim

/--
A piece other than a line comment can be written directly behind a token.
-/
theorem fits_soft {piece : TriviaPiece} (h : piece.IsSound) (hkind : piece.kind ≠ .lineComment)
    {shield : Bool} (hshield : shield ∨ '\n' ∉ piece.text.toList) :
    Fits v q Lexeme.Soft (.ofText shield piece.text.toList) (piece.seen v) Calm := by
  unfold IsSound at h
  unfold seen
  split at h
  · next hblanks =>
    rw [hblanks, v.see_blanks]
    exact Fits.separator h.2 h.1 shield
  · next hline => exact absurd hline hkind
  · next hblock =>
    rw [hblock]
    exact Fits.blockComment h hshield
  · exact h.elim
  · exact h.elim
  · exact h.elim

end TriviaPiece

namespace Printer

variable {out : Output} {ms : Multiset μ} {A : List Char → Prop}

open Output (Shows)

theorem shield_of_isMultiline {piece : TriviaPiece} (h : piece.IsSound) :
    (piece.isMultiline && piece.text.toList.contains '\n') ∨ '\n' ∉ piece.text.toList := by
  have hkind : piece.kind ≠ .newline := by
    intro hkind
    rw [TriviaPiece.IsSound, hkind] at h
    exact h
  by_cases hmem : '\n' ∈ piece.text.toList
  · left
    simp [TriviaPiece.isMultiline, hkind, hmem]
  · exact .inr hmem

theorem shows_piece {piece : TriviaPiece} (h : out.Shows v q ms Calm) (hpiece : piece.IsSound) :
    (Printer.piece out piece).Shows v q (ms + piece.seen v) (Trivia.After [piece]) :=
  h.write (piece.fits hpiece (shield_of_isMultiline hpiece))

theorem shows_pieces {line : List TriviaPiece} (h : out.Shows v q ms Calm) (hline : Trivia.IsLine line) :
    (line.foldl Printer.piece out).Shows v q (ms + Trivia.seen v line) (Trivia.After line) := by
  induction line generalizing out ms with
  | nil => simpa [Trivia.After] using h
  | cons piece line ih =>
    have hfirst := shows_piece h (hline.sound piece List.mem_cons_self)
    rw [List.foldl_cons, Trivia.seen_cons, ← add_assoc]
    by_cases hnil : line = []
    · subst hnil
      simpa using hfirst
    · -- Something follows the piece on its line, so that it is no line comment.
      obtain ⟨next, hnext⟩ := List.exists_mem_of_ne_nil line hnil
      have hkind := (List.pairwise_cons.1 hline.last).1 next hnext
      rw [Trivia.after_of_kind hkind] at hfirst
      rw [Trivia.after_cons hnil]
      exact ih hfirst (hline.sublist (List.sublist_cons_self piece line))

/--
Pieces can be written directly behind a token unless they begin with a line comment.
-/
theorem shows_pieces_of_soft {line : List TriviaPiece} (h : out.Shows v q ms Lexeme.Soft)
    (hline : Trivia.IsLine line) (hne : line ≠ []) (hfirst : ∀ piece ∈ line.head?, piece.kind ≠ .lineComment) :
    (line.foldl Printer.piece out).Shows v q (ms + Trivia.seen v line) (Trivia.After line) := by
  cases line with
  | nil => exact absurd rfl hne
  | cons piece line =>
    have hpiece := hline.sound piece List.mem_cons_self
    have hkind := hfirst piece rfl
    have hwritten : (Printer.piece out piece).Shows v q (ms + piece.seen v) Calm :=
      h.write (piece.fits_soft hpiece hkind (shield_of_isMultiline hpiece))
    have hrest := shows_pieces hwritten (hline.sublist (List.sublist_cons_self piece line))
    rw [List.foldl_cons, Trivia.seen_cons, ← add_assoc]
    refine hrest.mono fun t ht => ?_
    cases line with
    | nil =>
      rw [Trivia.after_of_kind hkind] at ht
      simpa [Trivia.After] using ht
    | cons => rwa [Trivia.after_cons (by simp)] at ht

/--
Trivia is what precedes its comments, the comments with what stands between them, and what follows them.
-/
theorem splitComments_cases (trivia : Trivia) :
    ∃ tail, trivia = (splitComments trivia).1 ++ ((splitComments trivia).2 ++ tail)
      ∧ (∀ piece ∈ (splitComments trivia).1, piece.isComment = false)
      ∧ (∀ piece ∈ tail, piece.isComment = false)
      ∧ (∀ piece ∈ (splitComments trivia).2.getLast?, piece.isComment) := by
  let rest := trivia.dropWhile (!·.isComment)
  refine ⟨(rest.reverse.takeWhile (!·.isComment)).reverse, ?_, ?_, ?_, ?_⟩
  · have hrest : (rest.reverse.dropWhile (!·.isComment)).reverse
        ++ (rest.reverse.takeWhile (!·.isComment)).reverse = rest := by
      rw [← List.reverse_append, List.takeWhile_append_dropWhile, List.reverse_reverse]
    show trivia = _ ++ ((rest.reverse.dropWhile (!·.isComment)).reverse ++ _)
    rw [hrest]
    exact List.takeWhile_append_dropWhile.symm
  · intro piece hpiece
    simpa using List.all_eq_true.1 List.all_takeWhile piece hpiece
  · intro piece hpiece
    rw [List.mem_reverse] at hpiece
    simpa using List.all_eq_true.1 List.all_takeWhile piece hpiece
  · intro piece hpiece
    have hlast : piece ∈ (rest.reverse.dropWhile (!·.isComment)).head? := by
      rwa [← List.getLast?_reverse]
    have := List.head?_dropWhile_not (fun piece : TriviaPiece => !piece.isComment) rest.reverse
    rw [Option.mem_def.1 hlast] at this
    simpa using this

theorem seen_splitComments {trivia : Trivia} (h : Trivia.IsLine trivia) :
    Trivia.seen v (splitComments trivia).2 = Trivia.seen v trivia := by
  obtain ⟨tail, heq, hgap, htail, -⟩ := splitComments_cases trivia
  have hline := h
  rw [heq] at hline
  conv => rhs; rw [heq, Trivia.seen_append, Trivia.seen_append]
  rw [Trivia.seen_eq_zero (hline.sublist (List.sublist_append_left _ _)) hgap,
    Trivia.seen_eq_zero (hline.sublist ((List.sublist_append_right _ _).trans (List.sublist_append_right _ _))) htail,
    zero_add, add_zero]

/--
What follows the comments of trivia ends where the last comment does.
-/
theorem after_splitComments (trivia : Trivia) :
    Trivia.After (splitComments trivia).2 = Trivia.After trivia.comments := by
  obtain ⟨tail, heq, hgap, htail, hlast⟩ := splitComments_cases trivia
  generalize (splitComments trivia).2 = rest at *
  generalize (splitComments trivia).1 = gap at *
  have hnone {pieces : List TriviaPiece} (h : ∀ piece ∈ pieces, piece.isComment = false) :
      Trivia.comments pieces = [] := by
    rw [Trivia.comments, List.filter_eq_nil_iff]
    exact fun piece hpiece => by simp [h piece hpiece]
  have hcomments : trivia.comments = Trivia.comments rest := by
    rw [heq]
    unfold Trivia.comments
    rw [List.filter_append, List.filter_append]
    show Trivia.comments gap ++ (Trivia.comments rest ++ Trivia.comments tail) = Trivia.comments rest
    rw [hnone hgap, hnone htail, List.nil_append, List.append_nil]
  have hgetLast : (Trivia.comments rest).getLast? = rest.getLast? := by
    cases hrest : rest.getLast? with
    | none =>
      rw [List.getLast?_eq_none_iff] at hrest
      rw [hrest]
      rfl
    | some last =>
      obtain ⟨before, rfl⟩ := List.getLast?_eq_some_iff.1 hrest
      unfold Trivia.comments
      rw [List.filter_append, List.filter_cons_of_pos (hlast last hrest), List.filter_nil]
      exact List.getLast?_concat
  unfold Trivia.After
  rw [hcomments, hgetLast]

theorem splitComments_eq_nil_iff {trivia : Trivia} :
    (splitComments trivia).2 = [] ↔ trivia.hasComments = false := by
  obtain ⟨tail, heq, hgap, htail, hlast⟩ := splitComments_cases trivia
  generalize (splitComments trivia).2 = rest at *
  unfold Trivia.hasComments
  rw [List.any_eq_false]
  constructor
  · rintro rfl piece hpiece
    rw [heq, List.nil_append, List.mem_append] at hpiece
    rcases hpiece with hpiece | hpiece
    · simp [hgap piece hpiece]
    · simp [htail piece hpiece]
  · intro hnone
    refine List.getLast?_eq_none_iff.1 ?_
    cases hrest : rest.getLast? with
    | none => rfl
    | some last =>
      have hmem : last ∈ trivia := by
        rw [heq]
        exact List.mem_append_right _ (List.mem_append_left _ (List.mem_of_getLast? hrest))
      exact absurd (hlast last hrest) (hnone last hmem)

end Printer

/--
What a token asks of what follows its comments, if it asks `A` of what follows itself.
-/
def Token.Tail (t : Token) (A : List Char → Prop) : List Char → Prop :=
  if t.trailing.hasComments then Trivia.After t.trailing.comments else A

theorem Token.tail_of_lineEnd {t : Token} {A : List Char → Prop} (hA : ∀ y, LineEnd y → A y) {y : List Char}
    (hy : LineEnd y) : t.Tail A y := by
  unfold Tail
  split
  · exact Trivia.after_of_lineEnd hy
  · exact hA y hy

namespace Printer

variable {out : Output} {ms : Multiset μ} {A : List Char → Prop}

open Output (Shows)

theorem isLine_splitComments {trivia : Trivia} (h : Trivia.IsLine trivia) :
    Trivia.IsLine (splitComments trivia).2 := by
  obtain ⟨tail, heq, -⟩ := splitComments_cases trivia
  refine h.sublist ?_
  conv => rhs; rw [heq]
  exact (List.sublist_append_left _ _).trans (List.sublist_append_right _ _)

/--
The comments behind a token are written.
-/
theorem shows_trailing (p : Printer) {t : Token} (ht : Trivia.IsLine t.trailing) (structured : Bool)
    (h : out.Shows v q ms A) (hA : ∀ y, Lexeme.Soft y → A y) :
    (p.trailing t structured out).Shows v q (ms + Trivia.seen v t.trailing) (t.Tail A) := by
  rw [← seen_splitComments ht]
  have hline := isLine_splitComments ht
  have hafter := after_splitComments t.trailing
  unfold trailing Token.Tail
  dsimp only
  cases hrest : (splitComments t.trailing).2 with
  | nil =>
    rw [splitComments_eq_nil_iff.1 hrest]
    simpa using h
  | cons comment more =>
    have hcomments : t.trailing.hasComments := by
      refine Bool.eq_true_of_not_eq_false fun hfalse => ?_
      rw [splitComments_eq_nil_iff.2 hfalse] at hrest
      cases hrest
    rw [hrest] at hline hafter
    rw [if_pos hcomments, ← hafter]
    have hreport (b : Bool) (d : Diagnostic) : (if b then out.report d else out).Shows v q ms A := by
      split
      · exact h.report d
      · exact h
    refine shows_pieces (Shows.separate ((hreport _ _).mono hA) ?_) hline
    · split
      · decide
      · exact Int.lt_of_lt_of_le (by decide) (Int.le_max_left _ _)

/--
Pieces on a line before a token or a comment are written, in whatever column.
-/
theorem shows_triviaLine {line : List TriviaPiece} (hline : Trivia.IsLine line) (delta : Int)
    (isTokenLine : Bool) (h : out.Shows v q ms Calm) :
    (triviaLine line delta isTokenLine out).Shows v q (ms + Trivia.seen v line) (Trivia.After line) := by
  unfold triviaLine
  split
  · next hempty =>
    -- An empty line has blanks only.
    have hblank : ∀ piece ∈ line, piece.kind = .blanks := by
      rw [Bool.and_eq_true_iff, List.isEmpty_iff, Trivia.lineContent, List.filter_eq_nil_iff] at hempty
      intro piece hpiece
      simpa using hempty.1 piece hpiece
    have hseen : Trivia.seen v line = 0 := by
      refine Trivia.seen_eq_zero hline fun piece hpiece => ?_
      rw [TriviaPiece.isComment, hblank piece hpiece]
    have hafter : Trivia.After line = Calm := by
      unfold Trivia.After
      rw [if_neg]
      cases hlast : line.getLast? with
      | none => simp
      | some last => simp [hblank last (List.mem_of_getLast? hlast)]
    rw [hseen, hafter, add_zero]
    exact h
  · split
    · next first more _ =>
      have hfirst := hline.sound first List.mem_cons_self
      split
      · next hkind =>
        have hseen : first.seen v = 0 := Trivia.seen_of_not_isComment hfirst (by
          rw [TriviaPiece.isComment, hkind])
        have hafter : Trivia.After (first :: more) = Trivia.After more := by
          cases more with
          | nil => simp [Trivia.After, hkind]
          | cons => exact Trivia.after_cons (by simp)
        have hblanks : ∀ c ∈ first.text.toList, Text.isBlank c := by
          rw [TriviaPiece.IsSound, hkind] at hfirst
          exact hfirst.2
        rw [Trivia.seen_cons, hseen, zero_add, hafter]
        refine shows_pieces ?_ (hline.sublist (List.sublist_cons_self first more))
        split
        · have := h.put (Fits.blanks hblanks false)
          rwa [add_zero] at this
        · exact h.blanks _
      · exact shows_pieces (h.blanks delta) hline
    · simpa [Trivia.After] using h.blanks delta

end Printer

namespace Trivia

/--
Trivia all of whose lines are sound.
-/
structure IsSound (trivia : Trivia) : Prop where
  first : IsLine trivia.splitLines.1
  others : ∀ line ∈ trivia.splitLines.2, IsLine line

theorem splitLines_newline {piece : TriviaPiece} (h : piece.kind = .newline) (more : Trivia) :
    splitLines (piece :: more) = ([], more.splitLines.1 :: more.splitLines.2) := by
  simp only [splitLines, h, if_true]

theorem splitLines_piece {piece : TriviaPiece} (h : piece.kind ≠ .newline) (more : Trivia) :
    splitLines (piece :: more) = (piece :: more.splitLines.1, more.splitLines.2) := by
  simp only [splitLines, h, if_false]

theorem seen_splitLines (trivia : Trivia) :
    seen v trivia = seen v trivia.splitLines.1 + (trivia.splitLines.2.map (seen v)).sum := by
  induction trivia with
  | nil => rfl
  | cons piece more ih =>
    rw [seen_cons, ih]
    by_cases hkind : piece.kind = .newline
    · have hseen : piece.seen v = 0 := by
        rw [TriviaPiece.seen, hkind]
        exact v.see_newline _
      rw [splitLines_newline hkind, hseen]
      simp
    · rw [splitLines_piece hkind, seen_cons, add_assoc]

end Trivia

namespace Printer

variable {out : Output} {ms : Multiset μ} {A : List Char → Prop}

open Output (Shows)

theorem shows_lines {lines : List (List TriviaPiece)} (hlines : ∀ line ∈ lines, Trivia.IsLine line)
    (delta : Int) (h : out.Shows v q ms LineEnd) :
    (lines.foldl (fun out line => triviaLine line delta false out.endLine) out).Shows v q
      (ms + (lines.map (Trivia.seen v)).sum) LineEnd := by
  induction lines generalizing out ms with
  | nil => simpa using h
  | cons line lines ih =>
    have hfirst := shows_triviaLine (hlines line List.mem_cons_self) delta false h.endLine
    rw [List.foldl_cons, List.map_cons, List.sum_cons, ← add_assoc]
    exact ih (fun other hother => hlines other (List.mem_cons_of_mem line hother))
      (hfirst.mono fun _ => Trivia.after_of_lineEnd)

/--
The lines that begin in the trivia before a token are written behind what precedes the first line end.
-/
theorem shows_others {others : List (List TriviaPiece)} (hothers : ∀ line ∈ others, Trivia.IsLine line)
    (delta : Int) (isTokenLine : Bool) (h : out.Shows v q ms A) (hA : ∀ y, LineEnd y → A y) :
    (match others.getLast? with
      | none => out
      | some last =>
        triviaLine last delta isTokenLine
          (others.dropLast.foldl (fun out line => triviaLine line delta false out.endLine) out).endLine).Shows
      v q (ms + (others.map (Trivia.seen v)).sum) ((others.getLast?.map Trivia.After).getD A) := by
  cases hlast : others.getLast? with
  | none =>
    rw [List.getLast?_eq_none_iff] at hlast
    subst hlast
    simpa using h
  | some last =>
    obtain ⟨before, rfl⟩ := List.getLast?_eq_some_iff.1 hlast
    rw [List.dropLast_concat, List.map_append, List.sum_append, ← add_assoc]
    have hbefore := shows_lines (fun line hline => hothers line (List.mem_append_left _ hline)) delta
      (h.mono hA)
    have := shows_triviaLine (hothers last (by simp)) delta isTokenLine hbefore.endLine
    simpa using this

/--
Comments are written behind code, each with a blank before it.
-/
theorem shows_commentsBehind {comments : List TriviaPiece} (hline : Trivia.IsLine comments)
    (h : out.Shows v q ms Lexeme.Soft) :
    (comments.foldl (fun out comment => out.write (" " ++ comment.text) true) out).Shows v q
      (ms + Trivia.seen v comments) (if comments = [] then Lexeme.Soft else Trivia.After comments) := by
  induction comments generalizing out ms with
  | nil => simpa using h
  | cons comment comments ih =>
    have hcomment := hline.sound comment List.mem_cons_self
    have hfits : Fits v q Lexeme.Soft
        (.ofText (true && (" " ++ comment.text).toList.contains '\n') (" " ++ comment.text).toList)
        (comment.seen v) (Trivia.After [comment]) := by
      rw [String.toList_append, Shielded.ofText_append, ← zero_add (comment.seen v)]
      refine (Token.fits_blank _).append (comment.fits hcomment ?_)
      by_cases hmem : '\n' ∈ comment.text.toList
      · left
        simp [hmem]
      · exact .inr hmem
    have hwritten := h.write hfits
    rw [List.foldl_cons, Trivia.seen_cons, ← add_assoc, if_neg (List.cons_ne_nil _ _)]
    cases comments with
    | nil => simpa using hwritten
    | cons next more =>
      have hkind := (List.pairwise_cons.1 hline.last).1 next List.mem_cons_self
      rw [Trivia.after_of_kind hkind] at hwritten
      have := ih (hline.sublist (List.sublist_cons_self _ _)) (hwritten.mono fun _ h => h.calm)
      rwa [if_neg (List.cons_ne_nil _ _)] at this

/--
The trivia before a token that is not put on a line of its own is written line by line.
-/
theorem leading_eq {p : Printer} {t : Token} (h : ∀ column, p.placements.lookup t.offset ≠ some ⟨column, true⟩)
    (out : Output) :
    ∃ delta, p.leading t out =
      match t.leading.splitLines.2.getLast? with
      | none => t.leading.splitLines.1.foldl piece out
      | some last =>
        triviaLine last delta (!t.isEnd)
          (t.leading.splitLines.2.dropLast.foldl (fun out line => triviaLine line delta false out.endLine)
            (t.leading.splitLines.1.foldl piece out)).endLine := by
  unfold leading
  dsimp only
  split
  · next column hcolumn => exact absurd hcolumn (h column)
  · exact ⟨_, rfl⟩

theorem leading_eq_break {p : Printer} {t : Token} {column : Int}
    (h : p.placements.lookup t.offset = some ⟨column, true⟩) (out : Output) :
    p.leading t out
      = (t.leading.comments.foldl (fun out comment => out.write (" " ++ comment.text) true) out).endLine.blanks
        column := by
  unfold leading
  rw [h]

end Printer

end HaskellStyle
