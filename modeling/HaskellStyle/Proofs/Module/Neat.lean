import HaskellStyle.Lint
import HaskellStyle.Proofs.Module.Reread
import HaskellStyle.Proofs.Print.Steady

/-!
This module contains what is known of a module when no edit of its line ends is due: its text is neat, and so are its
tokens. Blanks are then left where writing leaves them out only if they end in one that is trimmed from no line.
-/

namespace HaskellStyle

namespace Shielded

theorem ofRanges_congr {a b : List (Nat × Nat)} (h : ∀ r, r ∈ a ↔ r ∈ b) (text : List Char) :
    ofRanges a text = ofRanges b text := by
  have hany (place : Nat) : (a.any fun r => r.1 ≤ place && place < r.2) = b.any fun r => r.1 ≤ place && place < r.2 := by
    rw [Bool.eq_iff_iff, List.any_eq_true, List.any_eq_true]
    simp only [h]
  simp only [ofRanges, hany]

end Shielded

namespace Lexeme

/--
A lexeme, other than a line end, that contains a line end.
-/
def isMultiline (l : Lexeme) : Bool :=
  l.kind ≠ .trivia .newline && l.text.toList.contains '\n'

/--
The characters of a lexeme.
-/
def range (l : Lexeme) : Nat × Nat :=
  (l.position.offset, l.position.offset + l.text.length)

/--
The ranges of the lexemes that have several lines.
-/
def shieldedRanges (ls : List Lexeme) : List (Nat × Nat) :=
  (ls.filter (·.isMultiline)).map range

/--
The text of a lexeme, shielded if it has several lines.
-/
def marks (l : Lexeme) : Shielded :=
  .ofText l.isMultiline l.text.toList

variable {newline text cs : List Char} {ls before after : List Lexeme} {l : Lexeme} {q : Bool} {p : Option Char}
  {start : Position}

theorem chars_marks (l : Lexeme) : l.marks.chars = l.text.toList :=
  Shielded.chars_ofText _ _

theorem chars_flatMap_marks (ls : List Lexeme) : Shielded.chars (ls.flatMap marks) = join ls := by
  simp only [Shielded.chars, List.map_flatMap]
  exact congrArg (ls.flatMap ·) (funext chars_marks)

/--
Writes a lexeme as it is.
-/
def write (out : Output) (l : Lexeme) : Output :=
  Output.write l.text (l.kind ≠ .trivia .newline) out

theorem adds_write (started : Bool) : Output.Adds newline started (write · l) l.marks :=
  .write l.text _

/--
What is shielded when lexemes are written one after the other is the ranges of those with several lines.
-/
theorem shielded_write {out : Output} (h : Tiled start ls) (hsize : out.size = start.offset) :
    (ls.foldl write out).shielded = (shieldedRanges ls).reverse ++ out.shielded := by
  induction ls generalizing start out with
  | nil => rfl
  | cons l ls ih =>
    obtain ⟨hposition, htiled⟩ := h
    have hlength : (write out l).size = (start.after l.text.toList).offset := by
      rw [Position.offset_after, ← hsize]
      rfl
    have hfirst : (write out l).shielded = (if l.isMultiline then [l.range] else []) ++ out.shielded := by
      have hrange : l.range = (out.size, out.size + l.text.toList.length) := by
        rw [range, hposition, hsize, String.length_toList]
      rw [hrange]
      unfold write Output.write isMultiline
      dsimp only
      split <;> rfl
    rw [List.foldl_cons, ih htiled hlength, hfirst, shieldedRanges, shieldedRanges, List.filter_cons]
    split
    · rw [List.map_cons, List.reverse_cons, List.append_assoc]
    · rfl

/--
The lexemes of a text with the ranges of those that have several lines.
-/
theorem ofRanges_of_tiling (h : Tiling .origin text ls) :
    Shielded.ofRanges (shieldedRanges ls) text = ls.flatMap marks
      ∧ (∀ r ∈ shieldedRanges ls, r.1 < r.2)
      ∧ (shieldedRanges ls).Pairwise fun r s => r.2 ≤ s.1 ∨ s.2 ≤ r.1 := by
  have hstart : Output.Sound { newline := "\n" } :=
    ⟨rfl, .inl rfl, .nil, fun range hrange => by cases hrange⟩
  have hadds : Output.Adds ['\n'] false (fun out => ls.foldl write out) (ls.flatMap marks) :=
    .foldl (fun l _ started => adds_write started) false
  obtain ⟨hsound, -, hmarked⟩ := hadds { newline := "\n" } hstart rfl rfl
  have hshielded : (ls.foldl write { newline := "\n" }).shielded = (shieldedRanges ls).reverse := by
    rw [shielded_write h.tiled rfl, List.append_nil]
  have hmem (r : Nat × Nat) : r ∈ (ls.foldl write { newline := "\n" }).shielded ↔ r ∈ shieldedRanges ls := by
    rw [hshielded, List.mem_reverse]
  have htext : (ls.foldl write { newline := "\n" }).text.toList = text := by
    rw [← Output.chars_marked, hmarked, Shielded.chars_append, chars_flatMap_marks, h.join_eq]
    rfl
  refine ⟨?_, fun r hr => (hsound.bounded r ((hmem r).2 hr)).1, ?_⟩
  · rw [← Shielded.ofRanges_congr hmem, ← htext]
    exact hmarked
  · have hdisjoint := hsound.disjoint
    rw [hshielded, List.pairwise_reverse] at hdisjoint
    exact hdisjoint.imp fun h => .inl h

/--
A lexeme other than blanks and line ends shows at its beginning, and either at its end too, or a line end follows.
-/
structure Shows (l : Lexeme) (after : List Lexeme) : Prop where
  head : ∃ c ∈ l.text.toList.head?, c ≠ '\n' ∧ c ≠ '\r'
  ends : Text.Ends l.text ∨ EndsLine (after.map spelling)

theorem isEndBlank_of_isBlank {c : Char} (h : Text.isBlank c = false) : LineEdit.isEndBlank c = false := by
  rw [Bool.eq_false_iff] at h ⊢
  exact mt isBlank_of_isEndBlank h

/--
A character that shows ends no line.
-/
theorem ne_of_isBlank {c : Char} (h : Text.isBlank c = false) : c ≠ '\n' ∧ c ≠ '\r' := by
  constructor
  all_goals
    rintro rfl
    revert h
    decide

theorem ends_of_isBlockComment {text : String} (h : IsBlockComment text.toList) : Text.Ends text := by
  have hlast := h.last
  obtain ⟨u, htext, -⟩ := h
  rw [htext] at hlast
  refine ⟨_, ?_, hlast _ (List.getLast?_eq_some_getLast (List.cons_ne_nil _ _))⟩
  rw [htext, List.getLast?_eq_some_getLast (List.cons_ne_nil _ _)]
  rfl

theorem Sound.ends {kind : TokenKind} (h : l.Sound) (hkind : l.kind = .token kind) : Text.Ends l.text := by
  have hne : l.text.toList ≠ [] := fun hnil => h.nonempty (String.toList_eq_nil_iff.1 hnil)
  exact ⟨_, List.getLast?_eq_some_getLast hne, isEndBlank_of_isBlank (h.last kind hkind _
    (List.getLast?_eq_some_getLast hne))⟩

theorem Sound.head {kind : TokenKind} (h : l.Sound) (hkind : l.kind = .token kind) :
    ∃ c ∈ l.text.toList.head?, c ≠ '\n' ∧ c ≠ '\r' := by
  obtain ⟨c, u, htext⟩ := List.exists_cons_of_ne_nil fun hnil => h.nonempty (String.toList_eq_nil_iff.1 hnil)
  exact ⟨c, by rw [htext]; rfl, ne_of_isBlank (h.first kind hkind c (by rw [htext]; rfl))⟩

theorem endsLine_of_directiveLength {previous : Char} {u cs : List Char} {ps : List (LexemeKind × List Char)}
    (h : directiveLength previous (u ++ cs) = u.length) (hps : spell q p cs = some ps) : EndsLine ps := by
  refine endsLine_of_lineEnd ?_ hps
  rcases directiveLength_stop h with rfl | hend
  · exact .inl rfl
  · exact hend.1

theorem shows_of_scan (h : scan q p start cs = .ok ls) (hls : ls = before ++ l :: after)
    (hblanks : l.kind ≠ .trivia .blanks) (hnewline : l.kind ≠ .trivia .newline) : l.Shows after := by
  have hspell := spell_of_scan h
  rw [hls, List.map_append, List.map_cons] at hspell
  obtain ⟨p', c, u, hw, hmeasure, hrest⟩ := spell_split hspell
  have hsound := (tiling_of_scan h).sound l (by simp [hls])
  have hfirst (hc : c ≠ '\n' ∧ c ≠ '\r') : ∃ c ∈ l.text.toList.head?, c ≠ '\n' ∧ c ≠ '\r' := ⟨c, by rw [hw]; rfl, hc⟩
  cases hkind : l.kind with
  | token kind => exact ⟨hsound.head hkind, .inl (hsound.ends hkind)⟩
  | trivia kind =>
    rw [hkind] at hmeasure hblanks hnewline
    cases kind with
    | blanks => exact absurd rfl hblanks
    | newline => exact absurd rfl hnewline
    | byteOrderMark => exact absurd hmeasure not_byteOrderMark_of_measure
    | lineComment =>
      obtain ⟨⟨v, hv, -⟩, hend⟩ := isLineComment_of_measure hmeasure
      obtain rfl : c = '-' := (List.cons.inj hv).1
      exact ⟨hfirst (by decide), .inr (endsLine_of_lineEnd hend hrest)⟩
    | blockComment =>
      have hends : Text.Ends l.text := ends_of_isBlockComment (hw ▸ isBlockComment_of_measure hmeasure)
      obtain ⟨v, hv, -⟩ := isBlockComment_of_measure hmeasure
      obtain rfl : c = '\x7b' := (List.cons.inj hv).1
      exact ⟨hfirst (by decide), .inl hends⟩
    | directive =>
      obtain rfl : c = '#' := (measure_directive hmeasure).1
      exact ⟨hfirst (by decide), .inr (endsLine_of_directiveLength (startsDirective_of_measure hmeasure).2.symm hrest)⟩

theorem shows_of_ofRest (h : ofRest q p start cs = .ok ls) (hls : ls = before ++ l :: after)
    (hblanks : l.kind ≠ .trivia .blanks) (hnewline : l.kind ≠ .trivia .newline) : l.Shows after := by
  by_cases hline : ∃ more, cs = '#' :: '!' :: more
  · obtain ⟨more, rfl⟩ := hline
    have hlength : directiveLength '!' (more.take (directiveLength '!' more) ++ more.drop (directiveLength '!' more))
        = (more.take (directiveLength '!' more)).length := by
      rw [List.take_append_drop, List.length_take_of_le (directiveLength_le _ _)]
    rw [← List.take_append_drop (directiveLength '!' more) more, ofRest_interpreter_append hlength] at h
    obtain ⟨others, hscan, rfl⟩ := map_eq_ok h
    cases before with
    | nil =>
      obtain ⟨rfl, rfl⟩ := List.cons.inj hls
      refine ⟨⟨'#', by rw [String.toList_ofList]; rfl, by decide⟩, .inr ?_⟩
      exact endsLine_of_directiveLength hlength (spell_of_scan hscan)
    | cons first before => exact shows_of_scan hscan (List.cons.inj hls).2 hblanks hnewline
  · rw [ofRest_of_ne fun more heq => hline ⟨more, heq⟩] at h
    exact shows_of_scan h hls hblanks hnewline

theorem shows_of_ofText (h : ofText q text = .ok ls) (hls : ls = before ++ l :: after)
    (hblanks : l.kind ≠ .trivia .blanks) (hnewline : l.kind ≠ .trivia .newline) : l.Shows after := by
  rw [ofText_eq] at h
  split at h
  · obtain ⟨others, hrest, rfl⟩ := map_eq_ok h
    cases before with
    | nil =>
      obtain ⟨rfl, -⟩ := List.cons.inj hls
      exact ⟨⟨'\ufeff', by decide, by decide⟩, .inl ⟨'\ufeff', by decide, by decide⟩⟩
    | cons first before => exact shows_of_ofRest hrest (List.cons.inj hls).2 hblanks hnewline
  · exact shows_of_ofRest h hls hblanks hnewline

theorem marks_of_line (h : '\n' ∉ l.text.toList) : l.marks = .ofText false l.text.toList := by
  rw [marks, isMultiline, Bool.eq_false_iff.2 (mt List.contains_iff_mem.1 h), Bool.and_false]

theorem marks_newline (h : l.kind = .trivia .newline) : l.marks = .ofText false l.text.toList := by
  rw [marks, isMultiline, h]
  rfl

section Neat

variable (hneat : Shielded.Neat (ls.flatMap marks)) (hlast : join ls = [] ∨ (join ls).getLast? = some '\n')
include hneat hlast

/--
Nothing is trimmed from the lines of a lexeme in a neat text.
-/
theorem lines_marks (hnewline : newline = ['\n'] ∨ newline = ['\r', '\n'])
    (hsame : ∀ l ∈ ls, l.kind = .trivia .newline → l.text.toList = newline) (hls : ls = before ++ l :: after)
    (hshows : l.Shows after) : l.marks.Lines newline := by
  obtain ⟨c, hc, hne⟩ := hshows.head
  obtain ⟨cs, htext⟩ := List.head?_eq_some_iff.1 hc
  by_cases hmem : '\n' ∈ l.text.toList
  · by_cases hkind : l.kind = .trivia .newline
    · rw [marks_newline hkind, hsame l (by simp [hls]) hkind]
      exact .lineEnd hnewline
    · have hmultiline : l.isMultiline := by
        rw [isMultiline, Bool.and_eq_true]
        exact ⟨by simpa using hkind, List.contains_iff_mem.2 hmem⟩
      rw [marks, hmultiline]
      refine .ofShielded hnewline fun d hd => ?_
      rw [hc] at hd
      cases hd
      exact hne.1
  · rw [marks_of_line hmem]
    rcases hshows.ends with hends | hends
    · exact .word hnewline hmem hends false
    · have hhead : ['\n'] <+: Shielded.chars (.ofText false l.text.toList) → newline = ['\n'] := fun h => by
        rw [Shielded.chars_ofText] at h
        exact absurd (h.subset List.mem_cons_self) hmem
      refine ⟨?_, hhead⟩
      cases after with
      | nil =>
        rw [hls, join_append, join_cons, join_nil, List.append_nil] at hlast
        rw [htext] at hlast hmem
        rcases hlast with hnil | hlast
        · simp at hnil
        · rw [List.getLast?_append_of_ne_nil _ (List.cons_ne_nil _ _)] at hlast
          exact absurd (List.mem_of_getLast? hlast) hmem
      | cons next after =>
        obtain ⟨hkind, -⟩ := hends next.spelling rfl
        rw [← hsame next (by simp [hls]) hkind, ← marks_newline hkind, ← marks_of_line hmem]
        refine hneat.of_infix ⟨before.flatMap marks, after.flatMap marks, ?_⟩
        rw [hls, List.flatMap_append, List.flatMap_cons, List.flatMap_cons, List.append_assoc, List.append_assoc]

/--
No blanks that would be trimmed stand before a line end or at the end of a neat text.
-/
theorem join_eq_nil_of_neat {blanks : List Lexeme} (hls : ls = before ++ (blanks ++ after))
    (hblanks : '\n' ∉ join blanks) (hends : EndsLine (after.map spelling))
    (heven : ∀ c ∈ (join blanks).getLast?, LineEdit.isLineBlank c) : join blanks = [] := by
  by_contra hne
  obtain ⟨front, c, hjoin⟩ := List.eq_nil_or_concat' _ |>.resolve_left hne
  have hblank := heven c (by rw [hjoin, List.getLast?_concat]; rfl)
  have hline : '\n' ≠ c := by
    rintro rfl
    exact absurd hblank (by decide)
  have hmarks : blanks.flatMap marks = Shielded.ofText false front ++ [(c, false)] := by
    have hflat : blanks.flatMap marks = Shielded.ofText false (join blanks) := by
      unfold join Shielded.ofText
      rw [List.map_flatMap]
      exact List.flatMap_congr fun l hl => marks_of_line fun hmem => hblanks (List.mem_flatMap.2 ⟨l, hl, hmem⟩)
    rw [hflat, hjoin]
    exact List.map_append
  cases after with
  | nil =>
    rw [hls, List.append_nil, join_append, hjoin, ← List.append_assoc, List.getLast?_concat] at hlast
    rcases hlast with hnil | hlast
    · simp at hnil
    · exact hline (Option.some.inj hlast).symm
  | cons next after =>
    have hinfix : (c, false) :: next.marks <:+: ls.flatMap marks := by
      refine ⟨before.flatMap marks ++ Shielded.ofText false front, after.flatMap marks, ?_⟩
      rw [hls, List.flatMap_append, List.flatMap_append, List.flatMap_cons, hmarks]
      simp
    refine (hneat.of_infix hinfix).1 hblank rfl ?_
    rw [chars_marks, ← List.append_nil next.text.toList]
    exact .of_newline (hends next.spelling rfl).2 []

end Neat

end Lexeme

theorem TriviaPiece.isMultiline_lexeme (piece : TriviaPiece) : piece.lexeme.isMultiline = piece.isMultiline := by
  rw [Bool.eq_iff_iff]
  simp [Lexeme.isMultiline, isMultiline, lexeme]

theorem TriviaPiece.marks_lexeme (piece : TriviaPiece) : piece.lexeme.marks = piece.marks := by
  rw [Lexeme.marks, isMultiline_lexeme]
  rfl

theorem Trivia.marks_lexemes (trivia : Trivia) : trivia.lexemes.flatMap Lexeme.marks = trivia.marks := by
  rw [lexemes, List.flatMap_map]
  exact congrArg (trivia.flatMap ·) (funext TriviaPiece.marks_lexeme)

theorem Trivia.shieldedRanges_lexemes (trivia : Trivia) : Lexeme.shieldedRanges trivia.lexemes
    = (trivia.filter (·.isMultiline)).map
      fun piece => (piece.position.offset, piece.position.offset + piece.text.length) := by
  have hfilter : ((fun l : Lexeme => l.isMultiline) ∘ TriviaPiece.lexeme) = (·.isMultiline) :=
    funext TriviaPiece.isMultiline_lexeme
  rw [Lexeme.shieldedRanges, lexemes, List.filter_map, hfilter, List.map_map]
  rfl

theorem Lexeme.shieldedRanges_append (ls more : List Lexeme) :
    shieldedRanges (ls ++ more) = shieldedRanges ls ++ shieldedRanges more := by
  rw [shieldedRanges, List.filter_append, List.map_append]
  rfl

theorem Lexeme.shieldedRanges_flatMap {α : Type} (f : α → List Lexeme) (xs : List α) :
    shieldedRanges (xs.flatMap f) = xs.flatMap fun x => shieldedRanges (f x) := by
  rw [shieldedRanges, List.filter_flatMap, List.map_flatMap]
  rfl

namespace Token

theorem isMultiline_lexeme (t : Token) : t.lexeme.isMultiline = t.isMultiline := by
  simp [Lexeme.isMultiline, isMultiline, lexeme]

theorem marks_lexemes (t : Token) : t.lexemes.flatMap Lexeme.marks = t.marks := by
  rw [lexemes, List.flatMap_append, List.flatMap_cons, Trivia.marks_lexemes, Trivia.marks_lexemes, marks, mark,
    Lexeme.marks, isMultiline_lexeme]
  rfl

/--
The ranges of tokens are those of their lexemes.
-/
theorem shieldedRanges_perm (ts : List Token) :
    (shieldedRanges ts).Perm (Lexeme.shieldedRanges (ts.flatMap lexemes)) := by
  rw [Lexeme.shieldedRanges_flatMap]
  refine (List.mergeSort_perm _ _).trans (List.Perm.flatMap_left _ fun t _ => ?_)
  have htoken : Lexeme.shieldedRanges [t.lexeme] = if t.isMultiline then [(t.offset, t.stop)] else [] := by
    rw [Lexeme.shieldedRanges, List.filter_cons, isMultiline_lexeme, List.filter_nil]
    split <;> rfl
  have hlexemes : t.lexemes = t.leading.lexemes ++ ([t.lexeme] ++ t.trailing.lexemes) := rfl
  rw [hlexemes, Lexeme.shieldedRanges_append, Lexeme.shieldedRanges_append, htoken, Trivia.shieldedRanges_lexemes,
    Trivia.shieldedRanges_lexemes]
  dsimp only
  rw [List.filter_append, List.map_append, List.append_assoc]
  exact List.Perm.append_left _ List.perm_append_comm

/--
An empty line before a token is followed by the next one, but for the last line of the text.
-/
theorem exists_of_mem_emptyLines {t : Token} {line : Trivia} (h : line ∈ t.emptyLines) :
    (∀ piece ∈ line, piece.kind = .blanks) ∧ ∃ front behind, t.leading = front ++ (line ++ behind)
      ∧ (behind = [] → t.isEnd) ∧ ∀ piece ∈ behind.head?, piece.kind = .newline := by
  obtain ⟨hline, hcontent⟩ := List.mem_filter.1 h
  refine ⟨fun piece hpiece => ?_, ?_⟩
  · by_contra hkind
    exact absurd (List.isEmpty_iff.1 hcontent) (List.ne_nil_of_mem (List.mem_filter.2 ⟨hpiece, by simpa using hkind⟩))
  · obtain ⟨lines, htrivia, hlines, hkinds⟩ := Trivia.exists_lines t.leading
    have hrow : ∃ before r after, lines = before ++ r :: after ∧ r.2 = line ∧ (after = [] → t.isEnd) := by
      by_cases hend : t.isEnd
      · rw [if_pos hend, hlines] at hline
        obtain ⟨r, hr, rfl⟩ := List.mem_map.1 hline
        obtain ⟨before, after, hsplit⟩ := List.append_of_mem hr
        exact ⟨before, r, after, hsplit, rfl, fun _ => hend⟩
      · rw [if_neg hend, Trivia.wholeLines, hlines] at hline
        rcases List.eq_nil_or_concat' lines with rfl | ⟨whole, last, rfl⟩
        · cases hline
        · rw [List.map_append, List.map_singleton, List.dropLast_concat] at hline
          obtain ⟨r, hr, rfl⟩ := List.mem_map.1 hline
          obtain ⟨before, after, rfl⟩ := List.append_of_mem hr
          exact ⟨before, r, after ++ [last], by simp, rfl, fun hnil => absurd hnil (by simp)⟩
    obtain ⟨before, r, after, rfl, rfl, hend⟩ := hrow
    refine ⟨t.leading.splitLines.1 ++ (before.flatMap fun r => r.1 :: r.2) ++ [r.1], after.flatMap fun r => r.1 :: r.2, ?_,
      fun hnil => hend ?_, ?_⟩
    · conv => lhs; rw [htrivia]
      simp
    · cases after with
      | nil => rfl
      | cons => cases hnil
    · cases after with
      | nil => exact fun piece hpiece => by cases hpiece
      | cons next after =>
        rintro piece ⟨⟩
        exact hkinds next (by simp)

end Token

theorem Trivia.exists_remainder (trivia : Trivia) :
    ∃ front, trivia = front ++ trivia.remainder ∧ ∀ piece ∈ trivia.remainder, piece.isComment = false := by
  refine ⟨(trivia.reverse.dropWhile (!·.isComment)).reverse, ?_, fun piece hpiece => ?_⟩
  · rw [remainder, ← List.reverse_append, List.takeWhile_append_dropWhile, List.reverse_reverse]
  · have hall := List.all_eq_true.1 List.all_takeWhile piece (List.mem_reverse.1 hpiece)
    simpa using hall

/--
Blanks the last of which is trimmed from no line.
-/
def Trivia.EndsOdd (trivia : Trivia) : Prop :=
  ∃ c ∈ (text trivia).toList.getLast?, LineEdit.isLineBlank c = false

namespace LineEdit

variable {newline text : List Char}

theorem getLast?_of_finalEdits (hnewline : newline = ['\n'] ∨ newline = ['\r', '\n'])
    (h : finalEdits newline text = []) :
    text = [] ∨ text.getLast? = some '\n' := by
  have htext := closed_of_finalEdits h
  unfold closed at htext
  split at htext
  · next hlength =>
    rw [List.append_nil, List.length_eq_zero_iff.1 hlength] at htext
    exact .inl htext.symm
  · right
    rw [← htext, List.getLast?_append]
    rcases hnewline with rfl | rfl <;> rfl

end LineEdit

namespace TokenStream

variable {q : Bool} {text newline : List Char} {stream : TokenStream} (h : ofTextWith q text = .ok stream)
include h

theorem ofText_lexemes : Lexeme.ofText q text = .ok stream.lexemes := by
  obtain ⟨ls, hls, htokens, heof⟩ := ofTextWith_eq h
  rwa [lexemes, htokens, heof, Token.lexemes_attach, Token.groupLexemes_eq]

theorem shows_of_lexemes {before after : List Lexeme} {l : Lexeme} (hls : stream.lexemes = before ++ l :: after)
    (hblanks : l.kind ≠ .trivia .blanks) (hnewline : l.kind ≠ .trivia .newline) : l.Shows after :=
  Lexeme.shows_of_ofText (ofText_lexemes h) hls hblanks hnewline

theorem lexemes_eof : stream.eof.lexemes = stream.eof.leading.lexemes ++ [stream.eof.lexeme]
    ∧ stream.eof.lexeme.marks = [] ∧ Lexeme.shieldedRanges [stream.eof.lexeme] = [] := by
  obtain ⟨ls, -, -, heof⟩ := ofTextWith_eq h
  rw [heof]
  exact ⟨rfl, rfl, rfl⟩

theorem flatMap_marks : stream.toList.flatMap Token.marks = stream.lexemes.flatMap Lexeme.marks := by
  obtain ⟨hlexemes, hmarks, -⟩ := lexemes_eof h
  have heof : stream.eof.marks = stream.eof.leading.lexemes.flatMap Lexeme.marks := by
    rw [← Token.marks_lexemes, hlexemes, List.flatMap_append, List.flatMap_singleton, hmarks, List.append_nil]
  rw [toList, lexemes, List.flatMap_append, List.flatMap_append, List.flatMap_singleton, heof, List.flatMap_assoc]
  congr 1
  exact List.flatMap_congr fun t _ => t.marks_lexemes.symm

theorem shieldedRanges_perm :
    (Token.shieldedRanges stream.toList).Perm (Lexeme.shieldedRanges stream.lexemes) := by
  obtain ⟨hlexemes, -, hranges⟩ := lexemes_eof h
  have hall : stream.toList.flatMap Token.lexemes = stream.lexemes ++ [stream.eof.lexeme] := by
    rw [toList, lexemes, List.flatMap_append, List.flatMap_singleton, hlexemes, List.append_assoc]
  have hperm := Token.shieldedRanges_perm stream.toList
  rwa [hall, Lexeme.shieldedRanges_append, hranges, List.append_nil] at hperm

/--
A lexeme of several lines ends in no blank, or at a line end.
-/
theorem not_blank_behind {r : Nat × Nat} (hr : r ∈ Lexeme.shieldedRanges stream.lexemes) :
    ∀ c ∈ text[r.2 - 1]?, ∀ d ∈ text[r.2]?, LineEdit.isLineBlank c → LineEdit.isLineBlank d = false := by
  obtain ⟨l, hl, rfl⟩ := List.mem_map.1 hr
  obtain ⟨hl, hmultiline⟩ := List.mem_filter.1 hl
  obtain ⟨before, after, hls⟩ := List.append_of_mem hl
  have htiling := tiling_lexemes h
  have htext : text = Lexeme.join before ++ (l.text.toList ++ Lexeme.join after) := by
    rw [← htiling.join_eq, hls, Lexeme.join_append, Lexeme.join_cons]
  have hoffset : l.position.offset = (Lexeme.join before).length := by
    rw [Lexeme.Tiled.split (hls ▸ htiling.tiled), Position.offset_after]
    exact Nat.zero_add _
  rw [Lexeme.isMultiline, Bool.and_eq_true, decide_eq_true_eq, List.contains_iff_mem] at hmultiline
  have hblanks : l.kind ≠ .trivia .blanks := fun hkind =>
    ((htiling.sound l hl).trivia .blanks hkind _ hmultiline.2).2 rfl
  have hpos : 0 < l.text.toList.length := List.length_pos_of_mem hmultiline.2
  intro c hc d hd hblank
  rw [Lexeme.range, hoffset, ← String.length_toList] at hc hd
  rw [htext, Nat.add_sub_assoc hpos, List.getElem?_append_right (Nat.le_add_right _ _), Nat.add_sub_cancel_left,
    List.getElem?_append_left (by omega), ← List.getLast?_eq_getElem?] at hc
  rw [htext, List.getElem?_append_right (Nat.le_add_right _ _), Nat.add_sub_cancel_left,
    List.getElem?_append_right le_rfl, Nat.sub_self, ← List.head?_eq_getElem?] at hd
  rcases (shows_of_lexemes h hls hblanks hmultiline.1).ends with ⟨e, he, hshown⟩ | hends
  · rw [← Option.mem_unique hc he, LineEdit.isEndBlank, hblank] at hshown
    cases hshown
  · cases after with
    | nil => cases hd
    | cons next after =>
      rw [Lexeme.join_cons] at hd
      rcases (hends next.spelling rfl).2 with hnext | hnext
      all_goals
        rw [show next.text.toList = _ from hnext] at hd
        cases hd
        decide

theorem neat_of_ofText (hnewline : newline = ['\n'] ∨ newline = ['\r', '\n'])
    (hedits : LineEdit.ofText newline text (Token.shieldedRanges stream.toList) = []) :
    Shielded.Neat (stream.lexemes.flatMap Lexeme.marks) ∧ (text = [] ∨ text.getLast? = some '\n') := by
  obtain ⟨hranges, hbounds, hapart⟩ := Lexeme.ofRanges_of_tiling (tiling_lexemes h)
  have hperm := shieldedRanges_perm h
  refine ⟨?_, LineEdit.getLast?_of_finalEdits hnewline (List.append_eq_nil_iff.1 hedits).1⟩
  rw [← hranges, ← Shielded.ofRanges_congr fun r => hperm.mem_iff]
  refine LineEdit.neat_of_ofText_eq_nil (fun r hr => hbounds r (hperm.mem_iff.1 hr)) ?_ hnewline
    (fun r hr => not_blank_behind h (hperm.mem_iff.1 hr)) hedits
  exact (hperm.pairwise_iff fun h => h.symm).2 hapart

theorem sound_piece {t : Token} (ht : t ∈ stream.toList) {piece : TriviaPiece}
    (hpiece : piece ∈ t.leading ++ t.trailing) : piece.lexeme.Sound := by
  obtain ⟨ls, -, -, heof⟩ := ofTextWith_eq h
  exact (tiling_lexemes h).sound _ (piece_mem_lexemes (by rw [heof]) ht hpiece)

section Neat

variable (hneat : Shielded.Neat (stream.lexemes.flatMap Lexeme.marks)) (hlast : text = [] ∨ text.getLast? = some '\n')
include hneat hlast

section Comments

variable (hnewline : newline = ['\n'] ∨ newline = ['\r', '\n'])
  (hsame : ∀ t ∈ stream.toList, ∀ piece ∈ t.leading, piece.kind = .newline → piece.text.toList = newline)
include hnewline hsame

/--
Comments have nothing to trim from their lines.
-/
theorem isNeat_piece {t : Token} (ht : t ∈ stream.toList) {piece : TriviaPiece}
    (hpiece : piece ∈ t.leading ++ t.trailing)
    (hblanks : piece.kind ≠ .blanks) (hkind : piece.kind ≠ .newline) : piece.IsNeat newline := by
  obtain ⟨ls, -, -, heof⟩ := ofTextWith_eq h
  obtain ⟨before, after, hls⟩ := List.append_of_mem (piece_mem_lexemes (by rw [heof]) ht hpiece)
  have hshows := shows_of_lexemes h hls (by simpa [TriviaPiece.lexeme] using hblanks)
    (by simpa [TriviaPiece.lexeme] using hkind)
  have hends : ∀ l ∈ stream.lexemes, l.kind = .trivia .newline → l.text.toList = newline := by
    intro l hl hkind
    obtain ⟨t, ht, piece, hpiece, rfl⟩ := exists_piece_of_kind h hl hkind (.inr rfl)
    exact hsame t ht piece hpiece (LexemeKind.trivia.inj hkind)
  refine ⟨?_, hshows.head⟩
  rw [← TriviaPiece.marks_lexeme]
  exact Lexeme.lines_marks hneat (by rwa [(tiling_lexemes h).join_eq]) hnewline hends hls hshows

/--
Tokens are neat.
-/
theorem isNeat_token {t : Token} (ht : t ∈ stream.tokens) : t.IsNeat newline := by
  have hpieces (piece) (hpiece : piece ∈ t.leading ++ t.trailing) (hblanks : piece.kind ≠ .blanks)
      (hkind : piece.kind ≠ .newline) : piece.IsNeat newline :=
    isNeat_piece h hneat hlast hnewline hsame (List.mem_append_left _ ht) hpiece hblanks hkind
  refine ⟨((tiling_lexemes h).sound _ (mem_lexemes ht)).ends rfl, hpieces, ?_⟩
  obtain ⟨tail, hsplit, -, -, hcomment⟩ := Printer.splitComments_cases t.trailing
  have hhead := Printer.isComment_head?_splitComments t.trailing
  have hinfix : Trivia.marks (Printer.splitComments t.trailing).2 <:+: stream.lexemes.flatMap Lexeme.marks := by
    obtain ⟨before, after, htokens⟩ := List.append_of_mem (List.mem_append_left [stream.eof] ht)
    rw [← flatMap_marks h, toList, htokens, List.flatMap_append, List.flatMap_cons, Token.marks]
    conv => rhs; rw [hsplit]
    simp only [Trivia.marks_append, List.append_assoc]
    exact ⟨before.flatMap Token.marks ++ (t.leading.marks ++ (t.mark ++ Trivia.marks (Printer.splitComments t.trailing).1)),
      tail.marks ++ after.flatMap Token.marks, by simp only [List.append_assoc]⟩
  have hneat := hneat.of_infix hinfix
  have hmem : ∀ piece ∈ (Printer.splitComments t.trailing).2, piece ∈ t.leading ++ t.trailing := fun piece hpiece => by
    rw [hsplit]
    simp [hpiece]
  have hcomments : ∀ piece ∈ (Printer.splitComments t.trailing).2, piece.isComment → piece.IsNeat newline := by
    intro piece hpiece hcomment
    rw [TriviaPiece.isComment] at hcomment
    refine hpieces piece (hmem piece hpiece) ?_ ?_
    all_goals
      intro hkind
      rw [hkind] at hcomment
      cases hcomment
  generalize (Printer.splitComments t.trailing).2 = rest at *
  rcases List.eq_nil_or_concat' rest with rfl | ⟨front, last, rfl⟩
  · exact .nil hnewline
  · have hlast := hcomments last (by simp) (hcomment last (by simp))
    rw [Trivia.marks_append] at hneat ⊢
    rw [Trivia.marks_cons, Trivia.marks_nil, List.append_nil]
    refine .behind hneat.of_append.1 (fun hprefix => ?_) hlast.lines ?_
    · cases front with
      | nil => exact absurd hprefix.length_le (by simp)
      | cons first more =>
        obtain ⟨c, hc, hne⟩ := (hcomments first (by simp) (hhead first rfl)).head
        obtain ⟨cs, htext⟩ := List.head?_eq_some_iff.1 hc
        rw [Trivia.chars_marks, Trivia.toList_text_cons, htext] at hprefix
        exact absurd (List.cons_prefix_cons.1 hprefix).1.symm hne.1
    · rw [TriviaPiece.marks, Shielded.chars_ofText]
      exact hlast.head

end Comments

/--
Blanks at a token that are left out when it is written are not there, unless they are odd.
-/
theorem text_eq_empty {before after : List Lexeme} {line : Trivia}
    (hls : stream.lexemes = before ++ (line.lexemes ++ after)) (hkinds : ∀ piece ∈ line, piece.kind = .blanks)
    (hends : Lexeme.EndsLine (after.map Lexeme.spelling)) (heven : ¬line.EndsOdd) : Trivia.text line = "" := by
  have htiling := tiling_lexemes h
  have hjoin := Trivia.join_lexemes line
  rw [← String.toList_eq_nil_iff, ← hjoin]
  refine Lexeme.join_eq_nil_of_neat hneat (by rwa [htiling.join_eq]) hls (fun hmem => ?_) hends fun c hc => ?_
  · obtain ⟨l, hl, hmem⟩ := List.mem_flatMap.1 hmem
    obtain ⟨piece, hpiece, rfl⟩ := List.mem_map.1 hl
    have hsound := htiling.sound piece.lexeme (by rw [hls]; simp [hl])
    exact (hsound.trivia .blanks (congrArg LexemeKind.trivia (hkinds piece hpiece)) _ hmem).2 rfl
  · by_contra hodd
    rw [hjoin] at hc
    exact heven ⟨c, hc, by simpa using hodd⟩

/--
Empty lines above a token that do not end in an odd blank are empty.
-/
theorem text_emptyLine {t : Token} (ht : t ∈ stream.toList) {line : Trivia} (hline : line ∈ t.emptyLines)
    (heven : ¬line.EndsOdd) : Trivia.text line = "" := by
  obtain ⟨hkinds, front, behind, hleading, hend, hkind⟩ := Token.exists_of_mem_emptyLines hline
  have hlexemes : t.leading.lexemes = front.lexemes ++ (line.lexemes ++ behind.lexemes) := by
    rw [hleading]
    simp [Trivia.lexemes]
  have hnewline (more : List Lexeme) (hne : behind ≠ []) :
      Lexeme.EndsLine ((behind.lexemes ++ more).map Lexeme.spelling) := by
    have hsound : ∀ piece ∈ behind, piece.lexeme.Sound := fun piece hpiece =>
      sound_piece h ht (List.mem_append_left _ (by rw [hleading]; simp [hpiece]))
    obtain ⟨piece, more, rfl⟩ := List.exists_cons_of_ne_nil hne
    rintro x ⟨⟩
    have hkind := congrArg LexemeKind.trivia (hkind piece rfl)
    exact ⟨hkind, (hsound piece List.mem_cons_self).trivia .newline hkind⟩
  rcases List.mem_append.1 ht with htoken | hteof
  · obtain ⟨before, after, htokens⟩ := List.append_of_mem htoken
    have hne : behind ≠ [] := fun hnil => by
      rw [((lossless_of_ofTextWith h).token t htoken).1] at hend
      exact absurd (hend hnil) (by decide)
    have hls : stream.lexemes = before.flatMap Token.lexemes ++ front.lexemes ++ (line.lexemes ++ (behind.lexemes
        ++ (t.lexeme :: t.trailing.lexemes ++ (after.flatMap Token.lexemes ++ stream.eof.leading.lexemes)))) := by
      rw [lexemes, htokens, List.flatMap_append, List.flatMap_cons, Token.lexemes, hlexemes]
      simp only [List.append_assoc]
    exact text_eq_empty h hneat hlast hls hkinds (hnewline _ hne) heven
  · obtain rfl := List.mem_singleton.1 hteof
    have hls : stream.lexemes = stream.tokens.flatMap Token.lexemes ++ front.lexemes
        ++ (line.lexemes ++ (behind.lexemes ++ [])) := by
      rw [lexemes, hlexemes]
      simp only [List.append_assoc, List.append_nil]
    refine text_eq_empty h hneat hlast hls hkinds ?_ heven
    by_cases hne : behind = []
    · rw [hne]
      exact fun x hx => by cases hx
    · exact hnewline [] hne

/--
Nothing stands behind the last comment of a line if it does not end in an odd blank.
-/
theorem text_remainder {t : Token} (ht : t ∈ stream.toList) (heven : ¬Trivia.EndsOdd t.trailing.remainder) :
    Trivia.text t.trailing.remainder = "" := by
  rcases List.mem_append.1 ht with htoken | hteof
  · by_cases hne : t.trailing = []
    · rw [hne]
      rfl
    · obtain ⟨before, after, htokens⟩ := List.append_of_mem htoken
      obtain ⟨front, hfront, hkinds⟩ := t.trailing.exists_remainder
      have hlexemes : t.trailing.lexemes = Trivia.lexemes front ++ t.trailing.remainder.lexemes := by
        conv => lhs; rw [hfront]
        exact List.map_append
      have hls : stream.lexemes
          = before.flatMap Token.lexemes ++ (t.leading.lexemes ++ t.lexeme :: Trivia.lexemes front)
            ++ (t.trailing.remainder.lexemes ++ (after.flatMap Token.lexemes ++ stream.eof.leading.lexemes)) := by
        rw [lexemes, htokens, List.flatMap_append, List.flatMap_cons, Token.lexemes, hlexemes]
        simp only [List.append_assoc, List.cons_append]
      refine text_eq_empty h hneat hlast hls (fun piece hpiece => ?_) (endsLine_behind h htokens hne) heven
      have hcomment := hkinds piece hpiece
      have hmem : piece ∈ t.trailing := by
        rw [hfront]
        exact List.mem_append_right _ hpiece
      rcases kind_trailing h htoken hmem with hkind | hkind | hkind
      · exact hkind
      all_goals
        rw [TriviaPiece.isComment, hkind] at hcomment
        cases hcomment
  · obtain rfl := List.mem_singleton.1 hteof
    obtain ⟨ls, -, -, heof⟩ := ofTextWith_eq h
    rw [heof]
    rfl

/--
A token whose blanks are not odd is written with the trivia that it has.
-/
theorem isTidy_token {t : Token} (ht : t ∈ stream.toList)
    (hsame : ∀ piece ∈ t.leading, piece.kind = .newline → piece.text.toList = newline)
    (hblank : ∀ line ∈ t.emptyLines, ¬Trivia.EndsOdd line) (hrest : ¬Trivia.EndsOdd t.trailing.remainder) :
    t.IsTidy newline where
  sound _ hpiece := sound_piece h ht (List.mem_append_left _ hpiece)
  newline := hsame
  blank line hline := text_emptyLine h hneat hlast ht hline (hblank line hline)
  rest := text_remainder h hneat hlast ht hrest

end Neat

end TokenStream

end HaskellStyle
