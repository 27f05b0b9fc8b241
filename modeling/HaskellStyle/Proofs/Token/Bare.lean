import HaskellStyle.Proofs.Token.Marks
import HaskellStyle.Proofs.Token.Respace

/-!
This module contains the tokens of lexemes as the layout rule sees them, computed from the spelling of the lexemes.
Blanks that stand before a text move its tokens, and blanks before a line end do not even that.
-/

namespace HaskellStyle

namespace Lexeme

/--
The tokens among lexemes as the layout rule sees them. The lexemes begin in a column, and `fresh` tells whether no token
ends on their line before them.
-/
def bareTokens (fresh : Bool) (column : Int) : List (LexemeKind × List Char) → List Token
  | [] => []
  | (.token kind, w) :: ps =>
    ⟨kind, String.ofList w, ⟨0, 0, column⟩, [], [], fresh⟩ :: bareTokens false (Text.visualWidth w column) ps
  | (.trivia _, w) :: ps => bareTokens (fresh || w.contains '\n') (Text.visualWidth w column) ps

theorem bareTokens_token (fresh : Bool) (column : Int) (kind : TokenKind) (w : List Char)
    (ps : List (LexemeKind × List Char)) : bareTokens fresh column ((.token kind, w) :: ps)
      = ⟨kind, String.ofList w, ⟨0, 0, column⟩, [], [], fresh⟩ :: bareTokens false (Text.visualWidth w column) ps := by
  rw [bareTokens]

theorem bareTokens_trivia (fresh : Bool) (column : Int) (kind : TriviaKind) (w : List Char)
    (ps : List (LexemeKind × List Char)) : bareTokens fresh column ((.trivia kind, w) :: ps)
      = bareTokens (fresh || w.contains '\n') (Text.visualWidth w column) ps := by
  rw [bareTokens]

/--
Lexemes whose tokens do not depend on what stands before them on their line.
-/
def Settled (ps : List (LexemeKind × List Char)) : Prop :=
  ∀ fresh column fresh' column', bareTokens fresh column ps = bareTokens fresh' column' ps

theorem settled_nil : Settled [] :=
  fun _ _ _ _ => rfl

/--
Lexemes whose first one, if there is any, ends a line.
-/
def EndsLine (ps : List (LexemeKind × List Char)) : Prop :=
  ∀ x ∈ ps.head?, x.1 = .trivia .newline ∧ (x.2 = ['\n'] ∨ x.2 = ['\r', '\n'])

/--
Behind a line end the column is zero and no token ends on the line.
-/
theorem EndsLine.settled {ps : List (LexemeKind × List Char)} (h : EndsLine ps) : Settled ps := by
  cases ps with
  | nil => exact settled_nil
  | cons x ps =>
    obtain ⟨hkind, hw⟩ := h x rfl
    obtain ⟨k, w⟩ := x
    cases hkind
    have hend (fresh : Bool) (column : Int) :
        bareTokens fresh column ((.trivia .newline, w) :: ps) = bareTokens true 0 ps := by
      rw [bareTokens_trivia]
      rcases hw with rfl | rfl <;> rw [show List.contains _ '\n' = true from by decide, Bool.or_true] <;> rfl
    intro fresh column fresh' column'
    rw [hend, hend]

/--
Trivia before settled lexemes is settled.
-/
theorem bareTokens_append_of_settled {ps bs : List (LexemeKind × List Char)} (h : Settled ps)
    (hbs : ∀ x ∈ bs, ∃ kind, x.1 = .trivia kind) (fresh fresh' : Bool) (column column' : Int) :
    bareTokens fresh column (bs ++ ps) = bareTokens fresh' column' ps := by
  induction bs generalizing fresh column with
  | nil => exact h _ _ _ _
  | cons x bs ih =>
    obtain ⟨⟨kind, hkind⟩, hmore⟩ := List.forall_mem_cons.1 hbs
    obtain ⟨k, w⟩ := x
    cases hkind
    rw [List.cons_append, bareTokens_trivia]
    exact ih hmore _ _

theorem Settled.append {ps bs : List (LexemeKind × List Char)} (h : Settled ps)
    (hbs : ∀ x ∈ bs, ∃ kind, x.1 = .trivia kind) : Settled (bs ++ ps) := by
  intro fresh column fresh' column'
  rw [bareTokens_append_of_settled h hbs fresh false column 0,
    bareTokens_append_of_settled h hbs fresh' false column' 0]

section

variable {q : Bool} {p p' : Option Char} {n : List Char} {ps : List (LexemeKind × List Char)}

theorem endsLine_of_lineEnd (hn : LineEnd n) (h : spell q p n = some ps) : EndsLine ps := by
  obtain rfl | ⟨r, rfl⟩ | ⟨r, rfl⟩ := hn
  · rw [spell_nil] at h
    cases h
    nofun
  · obtain ⟨k, u, y, rest, hcs, hmeasure, rfl, -⟩ := spell_cons_eq_some h
    obtain ⟨rfl, hu⟩ := Prod.mk.inj (Except.ok.inj
      ((measured_iff.1 (.newline rfl) : measure q p 0 '\n' (u ++ y) = _).symm.trans hmeasure))
    obtain rfl : u = [] := List.length_eq_zero_iff.1 hu.symm
    rintro x ⟨⟩
    exact ⟨rfl, .inl rfl⟩
  · obtain ⟨k, u, y, rest, hcs, hmeasure, rfl, -⟩ := spell_cons_eq_some h
    obtain ⟨rfl, hu⟩ := Prod.mk.inj (Except.ok.inj
      ((measured_iff.1 (.carriageReturn rfl (by rw [← hcs]; rfl)) : measure q p 0 '\r' (u ++ y) = _).symm.trans
        hmeasure))
    match u with
    | [d] =>
      obtain rfl : '\n' = d := (List.cons.inj hcs).1
      rintro x ⟨⟩
      exact ⟨rfl, .inr rfl⟩

/--
A blank before a text moves its tokens.
-/
theorem spell_blank_cons {c : Char} (hc : Text.isBlank c) (h : spell q (some c) n = some ps) (p : Option Char) :
    ∃ ps', spell q p (c :: n) = some ps' ∧ ∀ fresh column,
      bareTokens fresh column ps' = bareTokens (fresh || c == '\n') (Text.advanceColumn column c) ps := by
  by_cases hnewline : c = '\n'
  · subst hnewline
    refine ⟨(.trivia .newline, ['\n']) :: ps, ?_, fun fresh column => ?_⟩
    · rw [spell_cons (measured_iff.1 (.newline rfl)), List.take_zero, List.drop_zero, List.getLast?_singleton, h]
      rfl
    · rw [bareTokens_trivia]
      rfl
  have hfresh (fresh : Bool) : (fresh || c == '\n') = fresh := by
    rw [beq_eq_false_iff_ne.2 hnewline, Bool.or_false]
  by_cases hreturn : c = '\r' ∧ n.head? = some '\n'
  -- A carriage return and a line end become one line end.
  · obtain ⟨rfl, hhead⟩ := hreturn
    obtain ⟨n, rfl⟩ := List.head?_eq_some_iff.1 hhead
    rw [spell_cons (measured_iff.1 (.newline rfl)), List.take_zero, List.drop_zero] at h
    obtain ⟨rest, hrest, rfl⟩ := Option.map_eq_some_iff.1 h
    refine ⟨(.trivia .newline, ['\r', '\n']) :: rest, ?_, fun fresh column => ?_⟩
    · rw [spell_cons (measured_iff.1 (.carriageReturn rfl rfl)), List.take_succ_cons, List.take_zero,
        List.drop_succ_cons, List.drop_zero, List.getLast?_cons_cons, hrest]
      rfl
    · rw [hfresh, bareTokens_trivia, bareTokens_trivia]
      rfl
  · have hmeasure : measure q p 0 c n = .ok (.trivia .blanks, blanksLength n) :=
      measured_iff.1 (.blanks hc hnewline hreturn)
    by_cases hmore : ∃ d r, n = d :: r ∧ Text.isBlank d ∧ d ≠ '\n' ∧ ¬(d = '\r' ∧ r.head? = some '\n')
    · obtain ⟨d, r, rfl, hd, hdnewline, hdreturn⟩ := hmore
      rw [spell_cons (measured_iff.1 (.blanks hd hdnewline hdreturn))] at h
      obtain ⟨rest, hrest, rfl⟩ := Option.map_eq_some_iff.1 h
      rw [View.blanksLength_cons hd hdnewline hdreturn] at hmeasure
      refine ⟨(.trivia .blanks, c :: d :: r.take (blanksLength r)) :: rest, ?_, fun fresh column => ?_⟩
      · rw [spell_cons hmeasure, List.take_succ_cons, List.drop_succ_cons, List.getLast?_cons_cons, hrest]
        rfl
      · rw [bareTokens_trivia, bareTokens_trivia, List.contains_cons, BEq.comm, ← Bool.or_assoc]
        rfl
    · have hzero : blanksLength n = 0 := by
        cases n with
        | nil => rfl
        | cons d r =>
          refine View.blanksLength_eq_zero ?_
          by_contra hnot
          simp only [not_or] at hnot
          exact hmore ⟨d, r, rfl, by simpa using hnot.1, hnot.2.1, hnot.2.2⟩
      rw [hzero] at hmeasure
      refine ⟨(.trivia .blanks, [c]) :: ps, ?_, fun fresh column => ?_⟩
      · rw [spell_cons hmeasure, List.take_zero, List.drop_zero, List.getLast?_singleton, h]
        rfl
      · rw [bareTokens_trivia, List.contains_cons, BEq.comm, List.contains_nil, Bool.or_false]
        rfl

/--
Blanks before a text move its tokens.
-/
theorem spell_blank_append {u : List Char} (hu : ∀ c ∈ u, Text.isBlank c)
    (h : spell q (u.getLast?.or p) n = some ps) :
    ∃ ps', spell q p (u ++ n) = some ps' ∧ ∀ fresh column,
      bareTokens fresh column ps' = bareTokens (fresh || u.contains '\n') (Text.visualWidth u column) ps := by
  induction u generalizing p with
  | nil => exact ⟨ps, h, fun fresh column => by rw [List.contains_nil, Bool.or_false]; rfl⟩
  | cons c u ih =>
    obtain ⟨hc, hu⟩ := List.forall_mem_cons.1 hu
    have hlast : (c :: u).getLast?.or p = u.getLast?.or (some c) := by
      rw [List.getLast?_cons]
      cases u.getLast? <;> rfl
    rw [hlast] at h
    obtain ⟨ps₁, hps₁, hbare₁⟩ := ih hu h
    obtain ⟨ps₂, hps₂, hbare₂⟩ := spell_blank_cons hc hps₁ p
    refine ⟨ps₂, hps₂, fun fresh column => ?_⟩
    rw [hbare₂, hbare₁, List.contains_cons, BEq.comm, Bool.or_assoc]
    rfl

end

end Lexeme

namespace Token

/--
The tokens of lexemes are seen by the layout rule as their spelling tells.
-/
theorem map_bare_attach {start : Position} {ls : List Lexeme} (h : Lexeme.Tiled start ls) {endLine : Option Nat}
    (hend : ∀ line ∈ endLine, line ≤ start.line) (leading : Trivia) :
    (attach leading endLine (groupLexemes ls).2).1.map bare
      = Lexeme.bareTokens (endLine.all (· < start.line)) start.column (ls.map Lexeme.spelling) := by
  induction ls generalizing start endLine leading with
  | nil => rfl
  | cons l ls ih =>
    obtain ⟨hposition, htiled⟩ := h
    have hline := Position.line_after start l.text.toList
    have hcolumn := Position.column_after start l.text.toList
    rw [groupLexemes, List.map_cons, Lexeme.spelling]
    cases hkind : l.kind with
    | trivia kind =>
      have hfresh : endLine.all (fun line => decide (line < (start.after l.text.toList).line))
          = (endLine.all (fun line => decide (line < start.line)) || l.text.toList.contains '\n') := by
        cases endLine with
        | none => rfl
        | some line =>
          have hle := hend line rfl
          rw [hline, Option.all_some, Option.all_some, Bool.eq_iff_iff, Bool.or_eq_true, List.contains_iff_mem,
            ← List.count_pos_iff, decide_eq_true_eq, decide_eq_true_eq]
          omega
      rw [Lexeme.bareTokens_trivia, ← hfresh, ← hcolumn]
      refine ih htiled (fun line hmem => Nat.le_trans (hend line hmem) ?_) leading
      rw [hline]
      exact Nat.le_add_right _ _
    | token kind =>
      rw [Lexeme.bareTokens_token, attach_cons, List.map_cons]
      congr 1
      · simp only [bare, attached, column, hposition, String.ofList_toList]
      · have hstop : (attached leading endLine ((kind, l.text, l.position), (groupLexemes ls).1)
            (groupLexemes ls).2.isEmpty).endLine = (start.after l.text.toList).line := by
          rw [hline, ← hposition]
          rfl
        dsimp only
        rw [hstop, ih htiled (fun line hmem => Nat.le_of_eq (Option.some.inj hmem).symm), hcolumn, Option.all_some,
          decide_eq_false (Nat.lt_irrefl _)]

end Token

namespace TokenStream

variable {q : Bool} {text : List Char} {stream : TokenStream}

theorem map_bare_tokens (h : ofTextWith q text = .ok stream) :
    stream.tokens.map Token.bare = Lexeme.bareTokens true 0 (stream.lexemes.map Lexeme.spelling) := by
  obtain ⟨ls, hls, htokens, heof⟩ := ofTextWith_eq h
  have hlexemes : stream.lexemes = ls := by
    rw [lexemes, htokens, heof, Token.lexemes_attach, Token.groupLexemes_eq]
  rw [htokens, hlexemes]
  exact Token.map_bare_attach (Lexeme.tiling_of_ofText hls).tiled (by simp) _

end TokenStream

end HaskellStyle
