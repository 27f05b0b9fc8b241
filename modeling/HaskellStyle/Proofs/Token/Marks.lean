import Mathlib.Algebra.Order.Group.Multiset
import HaskellStyle.Proofs.Token.Spell
import HaskellStyle.Text.LineEnds

/-!
This module contains what a text shows to a view that does not see blanks and line ends. A text is shown piece
by piece: blanks show nothing, and a token or a comment shows itself if what follows it does not go on with it.
-/

namespace HaskellStyle

/--
A way to look at lexemes: how much of what is seen in each of them. Blanks, line ends and the blanks at the
end of a line comment are not seen.
-/
structure View (μ : Type) where
  see : LexemeKind → List Char → Multiset μ
  see_blanks : ∀ w, see (.trivia .blanks) w = 0
  see_newline : ∀ w, see (.trivia .newline) w = 0
  see_lineComment : ∀ w blanks, blanks.all LineEdit.isEndBlank →
    see (.trivia .lineComment) (w ++ blanks) = see (.trivia .lineComment) w

namespace View

variable {μ : Type} (v : View μ)

/--
What is seen in lexemes.
-/
def total (ps : List (LexemeKind × List Char)) : Multiset μ :=
  (ps.map fun p => v.see p.1 p.2).sum

/--
What is seen in a text that begins in the middle of a line, if it can be cut into lexemes.
-/
def marks (q : Bool) (cs : List Char) : Option (Multiset μ) :=
  (Lexeme.spell q (some ' ') cs).map v.total

variable {v} {q : Bool}

@[simp]
theorem total_nil : v.total [] = 0 := rfl

@[simp]
theorem total_cons (p : LexemeKind × List Char) (ps : List (LexemeKind × List Char)) :
    v.total (p :: ps) = v.see p.1 p.2 + v.total ps := by
  simp [total]

@[simp]
theorem marks_nil : v.marks q [] = some 0 := by
  simp [marks, Lexeme.spell_nil]

theorem marks_cons {c : Char} {u y : List Char} {k : LexemeKind}
    (h : Lexeme.measure q (some ' ') 0 c (u ++ y) = .ok (k, u.length)) :
    v.marks q (c :: (u ++ y))
      = ((Lexeme.spell q (c :: u).getLast? y).map v.total).map (v.see k (c :: u) + ·) := by
  rw [marks, Lexeme.spell_append h, Option.map_map, Option.map_map]
  congr 1

/--
A lexeme shows itself before a text that it does not go on with.
-/
theorem marks_lexeme {c : Char} {u y : List Char} {k : LexemeKind}
    (h : Lexeme.measure q (some ' ') 0 c (u ++ y) = .ok (k, u.length)) (hy : y.head? ≠ some '#') :
    v.marks q (c :: (u ++ y)) = (v.marks q y).map (v.see k (c :: u) + ·) := by
  rw [marks_cons h, Lexeme.spell_previous q y (.inl hy)]
  rfl

theorem not_startsLine {c : Char} (h : c ≠ '\n') : ¬Lexeme.startsLine (some c) := by
  rintro (h' | h')
  · cases h'
  · exact h (Option.some.inj h')

theorem spell_behind {c : Char} (h : c ≠ '\n') (y : List Char) :
    Lexeme.spell q (some c) y = Lexeme.spell q (some ' ') y := by
  refine Lexeme.spell_previous q y (.inr ?_)
  exact ⟨fun hc => absurd hc (not_startsLine h), fun hc => absurd hc (not_startsLine (by decide))⟩

theorem zero_add_map (x : Option (Multiset μ)) : x.map (0 + ·) = x := by
  cases x <;> simp

theorem measure_blank {p : Option Char} {o : Nat} {c : Char} {cs : List Char} (hc : Text.isBlank c)
    (hnewline : c ≠ '\n') (hreturn : ¬(c = '\r' ∧ cs.head? = some '\n')) :
    Lexeme.measure q p o c cs = .ok (.trivia .blanks, Lexeme.blanksLength cs) := by
  unfold Lexeme.measure
  rw [if_neg hnewline, if_neg hreturn, if_pos hc]

theorem blanksLength_cons {c : Char} {cs : List Char} (hc : Text.isBlank c) (hnewline : c ≠ '\n')
    (hreturn : ¬(c = '\r' ∧ cs.head? = some '\n')) :
    Lexeme.blanksLength (c :: cs) = Lexeme.blanksLength cs + 1 := by
  rw [Lexeme.blanksLength]
  · simp [hc, hnewline]
  · rintro more rfl hcs
    exact hreturn ⟨rfl, by rw [hcs]; rfl⟩

theorem blanksLength_eq_zero {c : Char} {cs : List Char}
    (h : ¬Text.isBlank c ∨ c = '\n' ∨ (c = '\r' ∧ cs.head? = some '\n')) :
    Lexeme.blanksLength (c :: cs) = 0 := by
  unfold Lexeme.blanksLength
  split
  · rfl
  · rfl
  · next hne heq =>
    cases heq
    rcases h with h | h | ⟨rfl, h⟩
    · simp [h]
    · simp [h]
    · obtain ⟨more, rfl⟩ := List.head?_eq_some_iff.1 h
      exact absurd rfl (hne more rfl)

theorem marks_blanks {c : Char} {y : List Char} (hc : Text.isBlank c) (hnewline : c ≠ '\n')
    (hreturn : ¬(c = '\r' ∧ y.head? = some '\n')) :
    v.marks q (c :: y) = v.marks q (y.drop (Lexeme.blanksLength y)) := by
  obtain ⟨d, hd⟩ : ∃ d, (c :: y.take (Lexeme.blanksLength y)).getLast? = some d :=
    ⟨_, List.getLast?_eq_some_getLast (List.cons_ne_nil _ _)⟩
  have hne : d ≠ '\n' := by
    rcases List.mem_cons.1 (List.mem_of_getLast? hd) with rfl | hmem
    · exact hnewline
    · exact (Lexeme.mem_take_blanksLength hmem).2
  unfold marks
  rw [Lexeme.spell_cons (measure_blank hc hnewline hreturn), hd, spell_behind hne, Option.map_map]
  congr 1
  funext ps
  rw [Function.comp_apply, total_cons, v.see_blanks, zero_add]

/--
A blank shows nothing.
-/
theorem marks_blank {c : Char} {y : List Char} (hc : Text.isBlank c) (hy : y.head? ≠ some '#') :
    v.marks q (c :: y) = v.marks q y := by
  by_cases hnewline : c = '\n'
  · subst hnewline
    have hline : v.marks q ('\n' :: ([] ++ y)) = _ := marks_lexeme rfl hy
    rwa [v.see_newline, zero_add_map] at hline
  · by_cases hreturn : c = '\r' ∧ y.head? = some '\n'
    · obtain ⟨rfl, hhead⟩ := hreturn
      obtain ⟨y, rfl⟩ := List.head?_eq_some_iff.1 hhead
      have hpair : v.marks q ('\r' :: (['\n'] ++ y)) = _ := marks_cons rfl
      have hsingle : v.marks q ('\n' :: ([] ++ y)) = _ := marks_cons rfl
      rw [v.see_newline, zero_add_map] at hpair hsingle
      exact hpair.trans hsingle.symm
    · rw [marks_blanks hc hnewline hreturn]
      cases y with
      | nil => rfl
      | cons d y =>
        by_cases hd : Text.isBlank d ∧ d ≠ '\n' ∧ ¬(d = '\r' ∧ y.head? = some '\n')
        · obtain ⟨hblank, hnewline, hreturn⟩ := hd
          rw [blanksLength_cons hblank hnewline hreturn, List.drop_succ_cons,
            marks_blanks hblank hnewline hreturn]
        · rw [blanksLength_eq_zero (by grind), List.drop_zero]

theorem marks_append_of_isBlank {w y : List Char} (hw : ∀ c ∈ w, Text.isBlank c)
    (hy : y.head? ≠ some '#') : v.marks q (w ++ y) = v.marks q y := by
  induction w with
  | nil => rfl
  | cons c w ih =>
    have hhead : (w ++ y).head? ≠ some '#' := by
      cases w with
      | nil => exact hy
      | cons d w =>
        intro hd
        cases hd
        exact absurd (hw '#' (by simp)) (by decide)
    rw [List.cons_append, marks_blank (hw c List.mem_cons_self) hhead,
      ih fun d hd => hw d (List.mem_cons_of_mem c hd)]

end View

/--
A text that is empty or begins with a line end.
-/
def LineEnd (t : List Char) : Prop :=
  t = [] ∨ (∃ r, t = '\n' :: r) ∨ ∃ r, t = '\r' :: '\n' :: r

namespace LineEnd

theorem soft {t : List Char} (h : LineEnd t) : Lexeme.Soft t := by
  obtain rfl | ⟨r, rfl⟩ | ⟨r, rfl⟩ := h
  · exact Lexeme.soft_nil
  · exact Lexeme.soft_cons (by decide)
  · exact Lexeme.soft_cons (by decide)

end LineEnd

theorem Lexeme.Soft.head?_ne {t : List Char} (h : Lexeme.Soft t) : t.head? ≠ some '#' :=
  not_mem_head?_of_soft h (by decide)

namespace Lexeme

/--
A block comment.
-/
def IsBlockComment (w : List Char) : Prop :=
  ∃ u, w = '\x7b' :: '-' :: u ∧ u.head? ≠ some '#' ∧ blockCommentLength 0 u = some u.length

/--
A line comment: two or more dashes that no other symbol follows, and no line end behind them.
-/
def IsLineComment (w : List Char) : Prop :=
  ∃ u, w = '-' :: u ∧ isDashes ('-' :: u.take (runLength Text.isSymbol u)) ∧ '\n' ∉ u

theorem measure_blockComment {q : Bool} {p : Option Char} {o : Nat} {u : List Char}
    (hpragma : u.head? ≠ some '#') (hu : blockCommentLength 0 u = some u.length) (y : List Char) :
    measure q p o '\x7b' ('-' :: (u ++ y)) = .ok (.trivia .blockComment, u.length + 1) := by
  have hprefix : ¬['-', '#'].isPrefixOf ('-' :: (u ++ y)) := by
    intro h
    cases u with
    | nil => cases hu
    | cons d u =>
      simp [List.isPrefixOf] at h
      exact hpragma (by rw [h]; rfl)
  have hlength := blockCommentLength_append (v := u) (s := []) (by rwa [List.append_nil]) (Nat.le_refl _) y
  exact (Measured.blockComment rfl rfl hprefix hlength).measure_eq

theorem lineCommentLength_append {u y : List Char} (hu : '\n' ∉ u) (hy : LineEnd y) :
    lineCommentLength (u ++ y) = u.length
      ∨ ∃ u', u = u' ++ ['\r'] ∧ lineCommentLength (u ++ y) = u'.length := by
  induction u with
  | nil =>
    left
    obtain rfl | ⟨r, rfl⟩ | ⟨r, rfl⟩ := hy <;> rfl
  | cons c u ih =>
    have hc : c ≠ '\n' := fun h => hu (h ▸ List.mem_cons_self)
    have hu' : '\n' ∉ u := fun h => hu (List.mem_cons_of_mem c h)
    by_cases hreturn : c = '\r' ∧ (u ++ y).head? = some '\n'
    · obtain ⟨rfl, hhead⟩ := hreturn
      cases u with
      | nil =>
        right
        refine ⟨[], rfl, ?_⟩
        obtain ⟨r, rfl⟩ := List.head?_eq_some_iff.1 hhead
        rfl
      | cons d u =>
        cases hhead
        exact absurd List.mem_cons_self hu'
    · have hstep : lineCommentLength (c :: (u ++ y)) = lineCommentLength (u ++ y) + 1 := by
        rw [lineCommentLength]
        · rintro more rfl heq
          exact hreturn ⟨rfl, by rw [heq]; rfl⟩
        · exact hc
      rcases ih hu' with h | ⟨u', rfl, h⟩
      · left
        rw [List.cons_append, hstep, h]
        rfl
      · right
        refine ⟨c :: u', rfl, ?_⟩
        rw [List.cons_append, hstep, h]
        rfl

theorem measure_lineComment {q : Bool} {p : Option Char} {o : Nat} {u y : List Char}
    (hdashes : isDashes ('-' :: u.take (runLength Text.isSymbol u))) (hy : LineEnd y) :
    measure q p o '-' (u ++ y) = .ok (.trivia .lineComment, lineCommentLength (u ++ y)) := by
  have hrun : runLength Text.isSymbol (u ++ y) = runLength Text.isSymbol u := by
    unfold runLength
    rw [takeWhile_of_soft isHard_isSymbol hy.soft]
  have hsymbol : symbolLength '-' (u ++ y) = (.trivia .lineComment, lineCommentLength (u ++ y)) := by
    unfold symbolLength
    dsimp only
    rw [hrun, List.take_append_of_le_length (runLength_le _ u), if_pos hdashes]
  have hmeasured : Measured q p o '-' (u ++ y) _ :=
    .symbol (by decide) (by decide) (by decide) fun h => absurd h.1 (by decide)
  rw [hsymbol] at hmeasured
  exact hmeasured.measure_eq

end Lexeme

namespace View

variable {μ : Type} {v : View μ} {q : Bool}

theorem marks_blockComment {w : List Char} (hw : Lexeme.IsBlockComment w) {y : List Char}
    (hy : y.head? ≠ some '#') :
    v.marks q (w ++ y) = (v.marks q y).map (v.see (.trivia .blockComment) w + ·) := by
  obtain ⟨u, rfl, hpragma, hu⟩ := hw
  have h : v.marks q ('\x7b' :: (('-' :: u) ++ y)) = _ :=
    marks_lexeme (Lexeme.measure_blockComment hpragma hu y) hy
  exact h

/--
A line comment shows itself before a line end. A carriage return at its end can become part of the line end.
-/
theorem marks_lineComment {w : List Char} (hw : Lexeme.IsLineComment w) {y : List Char} (hy : LineEnd y) :
    v.marks q (w ++ y) = (v.marks q y).map (v.see (.trivia .lineComment) w + ·) := by
  obtain ⟨u, rfl, hdashes, hu⟩ := hw
  have hmeasure := Lexeme.measure_lineComment (q := q) (p := some ' ') (o := 0) hdashes hy
  rcases Lexeme.lineCommentLength_append hu hy with hlength | ⟨u', rfl, hlength⟩
  · rw [hlength] at hmeasure
    exact marks_lexeme hmeasure hy.soft.head?_ne
  · rw [hlength, List.append_assoc] at hmeasure
    have h : v.marks q ('-' :: (u' ++ (['\r'] ++ y))) = _ :=
      marks_lexeme hmeasure fun h => absurd (Option.some.inj h) (by decide)
    have hcomment := v.see_lineComment ('-' :: u') ['\r'] (by decide)
    have hblank : v.marks q ('\r' :: y) = v.marks q y := marks_blank (by decide) hy.soft.head?_ne
    rw [List.singleton_append, hblank, ← hcomment] at h
    rw [List.cons_append, List.append_assoc]
    exact h

end View

end HaskellStyle
