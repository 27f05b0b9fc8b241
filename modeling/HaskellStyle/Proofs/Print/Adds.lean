import HaskellStyle.Proofs.Module.Verbatim
import HaskellStyle.Proofs.Print.Placed
import HaskellStyle.Proofs.Print.Rewritten
import HaskellStyle.Proofs.Text.Neat

/-!
This module contains what a step of writing adds to an output: the same marked text wherever it is done. Tokens without
placements that are written as they are add their own text, if nothing is left out around them and the blanks before
their comments are kept.
-/

namespace HaskellStyle

/--
The text of a piece of trivia. A piece of several lines is shielded.
-/
def TriviaPiece.marks (piece : TriviaPiece) : Shielded :=
  .ofText piece.isMultiline piece.text.toList

namespace Trivia

/--
The text of trivia, its pieces of several lines shielded.
-/
def marks (trivia : Trivia) : Shielded :=
  trivia.flatMap TriviaPiece.marks

@[simp] theorem marks_nil : marks [] = [] := rfl

@[simp] theorem marks_cons (piece : TriviaPiece) (trivia : Trivia) :
    marks (piece :: trivia) = piece.marks ++ marks trivia := rfl

@[simp] theorem marks_append (trivia more : Trivia) : marks (trivia ++ more) = marks trivia ++ marks more :=
  List.flatMap_append

@[simp] theorem chars_marks (trivia : Trivia) : trivia.marks.chars = (text trivia).toList := by
  induction trivia with
  | nil => rfl
  | cons piece trivia ih =>
    rw [marks_cons, Shielded.chars_append, TriviaPiece.marks, Shielded.chars_ofText, ih, toList_text_cons]

/--
Nothing on one line is shielded.
-/
theorem marks_of_line {trivia : Trivia} (h : '\n' ∉ (text trivia).toList) :
    trivia.marks = .ofText false (text trivia).toList := by
  induction trivia with
  | nil => rfl
  | cons piece trivia ih =>
    rw [toList_text_cons, List.mem_append, not_or] at h
    have hpiece : piece.isMultiline = false := by
      rw [TriviaPiece.isMultiline, Bool.and_eq_false_iff]
      exact .inr (by simpa using h.1)
    rw [marks_cons, TriviaPiece.marks, hpiece, ih h.2, toList_text_cons, Shielded.ofText_append]

theorem marks_eq_nil_iff {trivia : Trivia} : trivia.marks = [] ↔ text trivia = "" := by
  rw [← String.toList_eq_nil_iff, ← chars_marks, Shielded.chars, List.map_eq_nil_iff]

/--
What follows the last comment.
-/
def remainder (trivia : Trivia) : Trivia :=
  (trivia.reverse.takeWhile (!·.isComment)).reverse

end Trivia

namespace Token

/--
The text of a token, shielded if it has several lines.
-/
def mark (t : Token) : Shielded :=
  .ofText t.isMultiline t.text.toList

/--
The text of a token and its trivia, with the marks of what has several lines.
-/
def marks (t : Token) : Shielded :=
  t.leading.marks ++ (t.mark ++ Trivia.marks t.trailing)

/--
The text of tokens without the trivia before the first of them.
-/
def marksInside : List Token → Shielded
  | [] => []
  | t :: ts => t.mark ++ Trivia.marks t.trailing ++ ts.flatMap marks

/--
The lines in the trivia before a token on which nothing stands but blanks.
-/
def emptyLines (t : Token) : List Trivia :=
  (if t.isEnd then t.leading.splitLines.2 else t.leading.wholeLines).filter fun line => (Trivia.lineContent line).isEmpty

/--
The blanks between a token and the comments behind it.
-/
def gap (t : Token) : List Char :=
  (Trivia.text (Printer.splitComments t.trailing).1).toList

/--
Whether the comments behind a token stay where they are when the token is written as it is: they stand two blanks behind
it, or more if the alignment of comments is preserved.
-/
def keepsGap (settings : Settings) (t : Token) : Bool :=
  !t.trailing.hasComments || (t.gap.all (· == ' ')
    && (t.gap.length == 2 || (settings.preserveCommentAlignment && 2 ≤ t.gap.length)))

/--
A token whose trivia is written as it stands, but for the blanks before its comments: its lines end as they do in the
output, and nothing stands on empty lines or behind the last comment.
-/
structure IsTidy (newline : List Char) (t : Token) : Prop where
  sound : ∀ piece ∈ t.leading, piece.lexeme.Sound
  newline : ∀ piece ∈ t.leading, piece.kind = .newline → piece.text.toList = newline
  blank : ∀ line ∈ t.emptyLines, Trivia.text line = ""
  rest : Trivia.text t.trailing.remainder = ""

end Token

namespace Output

/--
Whether anything has been written.
-/
def isStarted (out : Output) : Bool :=
  0 < out.size

/--
What a step of writing adds to every output with the given line ends that has been started or not.
-/
def Adds (newline : List Char) (started : Bool) (f : Output → Output) (x : Shielded) : Prop :=
  ∀ out : Output, out.Sound → out.newline.toList = newline → out.isStarted = started →
    (f out).Sound ∧ (f out).newline = out.newline ∧ (f out).marked = out.marked ++ x

variable {newline : List Char} {started : Bool} {f g : Output → Output} {x y : Shielded} {out : Output}

theorem chars_marked (out : Output) : out.marked.chars = out.text.toList :=
  Shielded.chars_ofRanges

theorem Sound.isStarted (h : out.Sound) : out.isStarted = !out.marked.isEmpty := by
  have hsize : out.size = out.marked.length := by rw [h.size, ← chars_marked, Shielded.chars, List.length_map]
  rw [Output.isStarted, hsize]
  cases out.marked <;> rfl

namespace Adds

theorem id : Adds newline started (fun out => out) [] :=
  fun _ hsound _ _ => ⟨hsound, rfl, (List.append_nil _).symm⟩

theorem comp (hf : Adds newline started f x) (hg : Adds newline (started || !x.isEmpty) g y) :
    Adds newline started (fun out => g (f out)) (x ++ y) := by
  intro out hsound hnewline hstarted
  obtain ⟨hfsound, hfnewline, hfmarked⟩ := hf out hsound hnewline hstarted
  have hfstarted : (f out).isStarted = (started || !x.isEmpty) := by
    rw [hfsound.isStarted, hfmarked, ← hstarted, hsound.isStarted]
    cases out.marked <;> rfl
  obtain ⟨hgsound, hgnewline, hgmarked⟩ := hg (f out) hfsound (by rw [hfnewline, hnewline]) hfstarted
  exact ⟨hgsound, hgnewline.trans hfnewline, by rw [hgmarked, hfmarked, List.append_assoc]⟩

theorem foldl {α : Type} {step : Output → α → Output} {seen : α → Shielded} {items : List α}
    (h : ∀ item ∈ items, ∀ started, Adds newline started (fun out => step out item) (seen item)) (started : Bool) :
    Adds newline started (fun out => items.foldl step out) (items.flatMap seen) := by
  induction items generalizing started with
  | nil => exact .id
  | cons item items ih =>
    obtain ⟨hfirst, hmore⟩ := List.forall_mem_cons.1 h
    exact (hfirst _).comp (ih hmore _)

theorem write (text : String) (shield : Bool) : Adds newline started (·.write text shield)
    (.ofText (shield && text.toList.contains '\n') text.toList) :=
  fun _ hsound _ _ => ⟨hsound.write text shield, rfl, marked_write hsound text shield⟩

theorem put (text : String) : Adds newline started (·.put text) (.ofText false text.toList) :=
  write text false

theorem endLine : Adds newline started Output.endLine (.ofText false newline) := by
  intro out hsound hnewline hstarted
  rw [← hnewline]
  exact put out.newline out hsound hnewline hstarted

theorem blanks (count : Int) :
    Adds newline started (·.blanks count) (.ofText false (List.replicate count.toNat ' ')) := by
  have hput : Adds newline started (·.blanks count) _ := put (String.ofList (List.replicate count.toNat ' '))
  rwa [String.toList_ofList] at hput

theorem report (d : Diagnostic) : Adds newline started (·.report d) [] :=
  fun _ hsound _ _ =>
    ⟨⟨hsound.size, hsound.newline, hsound.disjoint, hsound.bounded⟩, rfl, (List.append_nil _).symm⟩

theorem congr (hf : Adds newline started f x) (h : ∀ out, out.newline.toList = newline → out.isStarted = started →
    g out = f out) : Adds newline started g x := by
  intro out hsound hnewline hstarted
  rw [h out hnewline hstarted]
  exact hf out hsound hnewline hstarted

/--
The text that is written at the beginning.
-/
theorem text_start {p : Printer} (hf : Adds p.newline.text.toList false f x) : (f p.start).text.toList = x.chars := by
  have hmarked := (hf p.start p.sound_start rfl rfl).2.2
  rw [← chars_marked, hmarked, Shielded.chars_append, chars_marked]
  rfl

end Adds

end Output

namespace Printer

open Output (Adds)

variable {newline : List Char} {started : Bool} {p : Printer} {t : Token}

theorem adds_piece (first : TriviaPiece) : Adds newline started (piece · first) first.marks := by
  have hwrite : Adds newline started (piece · first) _ := Adds.write first.text first.isMultiline
  have hmultiline : (first.isMultiline && first.text.toList.contains '\n') = first.isMultiline := by
    rw [TriviaPiece.isMultiline, Bool.and_assoc, Bool.and_self]
  rwa [hmultiline] at hwrite

theorem adds_pieces (pieces : Trivia) (started : Bool) :
    Adds newline started (fun out => pieces.foldl piece out) pieces.marks :=
  Adds.foldl (fun first _ _ => adds_piece first) started

/--
A line of trivia is written, unless it is empty and no token follows on it.
-/
theorem adds_triviaLine {line : Trivia} {isTokenLine : Bool} (hsound : ∀ piece ∈ line, piece.lexeme.Sound)
    (hempty : (Trivia.lineContent line).isEmpty → isTokenLine ∨ Trivia.text line = "") :
    Adds newline started (triviaLine line 0 isTokenLine) line.marks := by
  unfold triviaLine
  split
  · next hcontent =>
    rw [Bool.and_eq_true, Bool.not_eq_true'] at hcontent
    have htext := (hempty hcontent.1).resolve_left (by simp [hcontent.2])
    rw [Trivia.marks_eq_nil_iff.2 htext]
    exact .id
  · have hblanks : Adds newline started (fun out => out.blanks 0) [] := Adds.blanks 0
    split
    · next first more _ =>
      split
      · next hkind =>
        have hmultiline : first.isMultiline = false := by
          have hadmits := (hsound first List.mem_cons_self).trivia .blanks (congrArg LexemeKind.trivia hkind)
          rw [TriviaPiece.isMultiline, Bool.and_eq_false_iff]
          right
          rw [← Bool.not_eq_true, List.contains_iff_mem]
          exact fun hmem => (hadmits _ hmem).2 rfl
        have hput : Adds newline started (fun out => if (0 : Int) = 0 then out.put first.text
            else out.blanks (Text.visualWidth first.text.toList 0 + 0)) first.marks := by
          rw [TriviaPiece.marks, hmultiline]
          exact Adds.put _
        exact hput.comp (adds_pieces more _)
      · exact hblanks.comp (adds_pieces _ _)
    · exact hblanks

/--
The trivia before a token without a placement is written as it stands.
-/
theorem adds_leading (hplace : p.placements.lookup t.offset = none) (ht : t.IsTidy newline) (started : Bool) :
    Adds newline started (p.leading t) t.leading.marks := by
  obtain ⟨lines, htrivia, hlines, hkinds⟩ := Trivia.exists_lines t.leading
  have hpieces : ∀ r ∈ lines, r.1 ∈ t.leading ∧ ∀ piece ∈ r.2, piece.lexeme.Sound := by
    intro r hr
    have hmem : ∀ piece ∈ r.1 :: r.2, piece ∈ t.leading := fun piece hpiece =>
      htrivia ▸ List.mem_append_right _ (List.mem_flatMap.2 ⟨r, hr, hpiece⟩)
    exact ⟨hmem _ List.mem_cons_self, fun piece hpiece => ht.sound piece (hmem _ (List.mem_cons_of_mem _ hpiece))⟩
  have hends : ∀ r ∈ lines, r.1.marks = .ofText false newline := by
    intro r hr
    rw [TriviaPiece.marks, ht.newline r.1 (hpieces r hr).1 (hkinds r hr), TriviaPiece.isMultiline, hkinds r hr]
    rfl
  have hempty : ∀ line ∈ t.emptyLines, Trivia.text line = "" := ht.blank
  rw [Token.emptyLines, Trivia.wholeLines, hlines] at hempty
  have heq := fun out => leading_of_none hplace out
  rw [hlines] at heq
  generalize t.leading.splitLines.1 = first at htrivia heq
  rw [htrivia, Trivia.marks_append]
  have hfirst : Adds newline started _ _ := adds_pieces first started
  rcases List.eq_nil_or_concat' lines with rfl | ⟨others, r, rfl⟩
  · refine Adds.congr ?_ fun out _ _ => heq out
    rw [List.flatMap_nil, Trivia.marks_nil, List.append_nil]
    exact hfirst
  · simp only [List.map_append, List.map_singleton, List.dropLast_concat, List.getLast?_concat] at heq hempty
    simp only [List.forall_mem_append, List.forall_mem_singleton] at hends hpieces
    have hline (r : TriviaPiece × Trivia) (hmarks : r.1.marks = .ofText false newline)
        (hsound : ∀ piece ∈ r.2, piece.lexeme.Sound) {isTokenLine : Bool}
        (hempty : (Trivia.lineContent r.2).isEmpty → isTokenLine ∨ Trivia.text r.2 = "") (started : Bool) :
        Adds newline started (fun out => triviaLine r.2 0 isTokenLine out.endLine) (Trivia.marks (r.1 :: r.2)) := by
      rw [Trivia.marks_cons, hmarks]
      exact Adds.comp .endLine (adds_triviaLine hsound hempty)
    have hothers (started : Bool) : Adds newline started
        (fun out => others.foldl (fun out r => triviaLine r.2 0 false out.endLine) out)
        (others.flatMap fun r => Trivia.marks (r.1 :: r.2)) := by
      refine Adds.foldl (fun r hr started => hline r (hends.1 r hr) (hpieces.1 r hr).2 (fun hcontent => .inr ?_) started)
        started
      refine hempty r.2 (List.mem_filter.2 ⟨?_, hcontent⟩)
      split
      · exact List.mem_append_left _ (List.mem_map_of_mem hr)
      · exact List.mem_map_of_mem hr
    have hlast (started : Bool) : Adds newline started (fun out => triviaLine r.2 0 (!t.isEnd) out.endLine)
        (Trivia.marks (r.1 :: r.2)) := by
      refine hline r hends.2 hpieces.2.2 (fun hcontent => ?_) started
      cases hend : t.isEnd with
      | false => exact .inl rfl
      | true =>
        rw [hend, if_pos rfl] at hempty
        exact .inr (hempty r.2 (List.mem_filter.2 ⟨List.mem_append_right _ (List.mem_singleton.2 rfl), hcontent⟩))
    have hmarks : Trivia.marks ((others ++ [r]).flatMap fun r => r.1 :: r.2)
        = (others.flatMap fun r => Trivia.marks (r.1 :: r.2)) ++ Trivia.marks (r.1 :: r.2) := by
      rw [Trivia.marks, List.flatMap_assoc, List.flatMap_append, List.flatMap_singleton]
      rfl
    rw [hmarks, ← List.append_assoc]
    refine ((hfirst.comp (hothers _)).comp (hlast _)).congr fun out _ _ => ?_
    rw [heq, List.foldl_map]

/--
The comments behind a token stand between the gap and what follows the last of them.
-/
theorem splitComments_remainder {trivia : Trivia} (h : (splitComments trivia).2 ≠ []) :
    trivia = (splitComments trivia).1 ++ ((splitComments trivia).2 ++ trivia.remainder) := by
  obtain ⟨first, hfirst⟩ := List.exists_mem_of_ne_nil _ h
  have hcomments : ∃ piece ∈ trivia.dropWhile (!·.isComment), piece.isComment := by
    cases hrest : trivia.dropWhile (!·.isComment) with
    | nil =>
      rw [splitComments, hrest] at h
      exact absurd rfl h
    | cons piece more =>
      have hhead := List.head?_dropWhile_not (fun piece : TriviaPiece => !piece.isComment) trivia
      rw [hrest] at hhead
      exact ⟨piece, List.mem_cons_self, by simpa using hhead⟩
  have htail : trivia.remainder = ((trivia.dropWhile (!·.isComment)).reverse.takeWhile (!·.isComment)).reverse := by
    have hsplit := List.takeWhile_append_dropWhile (p := fun piece : TriviaPiece => !piece.isComment) (l := trivia)
    conv => lhs; rw [← hsplit]
    rw [Trivia.remainder, List.reverse_append, List.takeWhile_append, if_neg]
    intro hlength
    obtain ⟨piece, hpiece, hcomment⟩ := hcomments
    have hall := List.takeWhile_eq_self_iff.1
      ((List.takeWhile_prefix _).eq_of_length hlength) piece (List.mem_reverse.2 hpiece)
    simp [hcomment] at hall
  rw [htail, splitComments, ← List.reverse_append, List.takeWhile_append_dropWhile, List.reverse_reverse,
    List.takeWhile_append_dropWhile]

theorem remainder_of_not_hasComments {trivia : Trivia} (h : trivia.hasComments = false) :
    trivia.remainder = trivia := by
  rw [Trivia.hasComments, List.any_eq_false] at h
  rw [Trivia.remainder, List.takeWhile_eq_self_iff.2, List.reverse_reverse]
  intro piece hpiece
  simpa using h piece (List.mem_reverse.1 hpiece)

/--
What stands behind a token: blanks and comments, if only blanks precede the comments and nothing follows them.
-/
theorem marks_trailing {settings : Settings} (hrest : Trivia.text t.trailing.remainder = "")
    (hgap : t.keepsGap settings) (hcomments : (splitComments t.trailing).2 ≠ []) :
    t.gap = List.replicate t.gap.length ' ' ∧ Trivia.marks t.trailing
      = .ofText false (List.replicate t.gap.length ' ') ++ Trivia.marks (splitComments t.trailing).2 := by
  have hhas : t.trailing.hasComments := by
    rw [← Bool.not_eq_false, ← splitComments_eq_nil_iff]
    exact hcomments
  rw [Token.keepsGap, hhas, Bool.not_true, Bool.false_or, Bool.and_eq_true, List.all_eq_true] at hgap
  have hblank (c : Char) (hc : c ∈ t.gap) : c = ' ' := by simpa using hgap.1 c hc
  have heq : t.gap = List.replicate t.gap.length ' ' := List.eq_replicate_iff.2 ⟨rfl, hblank⟩
  have hmarks : Trivia.marks (splitComments t.trailing).1 = .ofText false (List.replicate t.gap.length ' ') := by
    rw [← heq, Token.gap]
    exact Trivia.marks_of_line fun hmem => absurd (hblank '\n' hmem) (by decide)
  refine ⟨heq, ?_⟩
  conv => lhs; rw [splitComments_remainder hcomments]
  rw [Trivia.marks_append, Trivia.marks_append, Trivia.marks_eq_nil_iff.2 hrest, List.append_nil, hmarks]

/--
The comments behind a token stay where they are.
-/
theorem adds_trailing (hrest : Trivia.text t.trailing.remainder = "") (hgap : t.keepsGap p.settings) (started : Bool) :
    Adds newline started (p.trailing t false) (Trivia.marks t.trailing) := by
  have hmarks := marks_trailing hrest hgap
  unfold trailing
  dsimp only
  cases hcomments : (splitComments t.trailing).2 with
  | nil =>
    rw [splitComments_eq_nil_iff] at hcomments
    rw [remainder_of_not_hasComments hcomments] at hrest
    rw [Trivia.marks_eq_nil_iff.2 hrest]
    exact .id
  | cons comment more =>
    have hhas : t.trailing.hasComments := by
      rw [← Bool.not_eq_false, ← splitComments_eq_nil_iff, hcomments]
      simp
    rw [hcomments] at hmarks
    obtain ⟨heq, htrailing⟩ := hmarks (List.cons_ne_nil _ _)
    rw [Token.keepsGap, hhas, Bool.not_true, Bool.false_or, Bool.and_eq_true] at hgap
    have hlength := hgap.2
    have hmore : ∀ started, Adds newline started _ _ := adds_pieces (comment :: more)
    rw [htrailing]
    refine (Adds.comp (Adds.blanks t.gap.length) (hmore _)).congr fun out _ _ => ?_
    have hwidth : Text.visualWidth (Trivia.text (splitComments t.trailing).1).toList out.column - out.column
        = t.gap.length := by
      rw [← Token.gap, heq, Text.visualWidth_blanks, List.length_replicate]
      omega
    have hspacing : (if (false || !p.settings.preserveCommentAlignment) = true then commentSpacing
        else max commentSpacing (t.gap.length : Int)) = t.gap.length := by
      rw [Bool.or_eq_true, beq_iff_eq, Bool.and_eq_true, decide_eq_true_eq] at hlength
      cases hpreserve : p.settings.preserveCommentAlignment with
      | false =>
        rw [hpreserve] at hlength
        have hlength := hlength.resolve_right (by simp)
        rw [hlength]
        rfl
      | true =>
        have hlength : 2 ≤ t.gap.length := by omega
        rw [if_neg (by simp), commentSpacing]
        omega
    dsimp only
    rw [hwidth, hspacing, if_neg (by simp)]

theorem adds_token (hrest : Trivia.text t.trailing.remainder = "") (hgap : t.keepsGap p.settings) (started : Bool) :
    Adds newline started (p.token · t) (t.mark ++ Trivia.marks t.trailing) := by
  have hwrite : Adds newline started (·.write t.text t.isMultiline) _ := Adds.write t.text t.isMultiline
  rw [Token.isMultiline, Bool.and_self] at hwrite
  exact hwrite.comp (adds_trailing hrest hgap _)

variable {ts : List Token}

/--
Tokens without placements are written as they stand.
-/
theorem adds_verbatim (hplace : ∀ t ∈ ts, p.placements.lookup t.offset = none) (hts : ∀ t ∈ ts, t.IsTidy newline)
    (hgap : ∀ t ∈ ts, t.keepsGap p.settings) (started : Bool) :
    Adds newline started (p.verbatim ts) (ts.flatMap Token.marks) :=
  Adds.foldl (fun t ht started =>
    (adds_leading (hplace t ht) (hts t ht) started).comp (adds_token (hts t ht).rest (hgap t ht) _)) started

theorem adds_verbatimInside (hplace : ∀ t ∈ ts, p.placements.lookup t.offset = none)
    (hts : ∀ t ∈ ts, t.IsTidy newline) (hgap : ∀ t ∈ ts, t.keepsGap p.settings) (started : Bool) :
    Adds newline started (p.verbatimInside ts) (Token.marksInside ts) := by
  cases ts with
  | nil => exact .id
  | cons t ts =>
    rw [List.forall_mem_cons] at hplace hts hgap
    exact (adds_token hts.1.rest hgap.1 _).comp (adds_verbatim hplace.2 hts.2 hgap.2 _)

end Printer

end HaskellStyle
