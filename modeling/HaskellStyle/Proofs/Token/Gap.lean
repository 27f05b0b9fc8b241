import HaskellStyle.Proofs.Token.Directive
import HaskellStyle.Proofs.Token.Spell
import Mathlib.Data.List.TakeWhile

/-!
This module contains the lexemes of a text in which the blanks between two tokens are replaced by other blanks. The
lexemes up to the first of the two tokens do not look beyond these blanks, but for a tick that a blank and another tick
make a character of, and a number sign that becomes the mark of a directive. Behind the blanks only a number sign can
notice whether it begins a line.
-/

namespace HaskellStyle

namespace Lexeme

/--
Whether a text begins with a line end of two characters.
-/
theorem return_append {c : Char} {v : List Char} (h : (c :: v).getLast? ≠ some '\r') (s y : List Char) :
    (c = '\r' ∧ (v ++ s).head? = some '\n') ↔ (c = '\r' ∧ (v ++ y).head? = some '\n') := by
  cases v with
  | nil =>
    rw [List.getLast?_singleton, ne_eq, Option.some.injEq] at h
    exact ⟨fun hc => absurd hc.1 h, fun hc => absurd hc.1 h⟩
  | cons d v => exact Iff.rfl

theorem getLast?_ne_of_cons {c d : Char} {v : List Char} (h : (c :: v).getLast? ≠ some d) : v.getLast? ≠ some d := by
  intro hlast
  rw [List.getLast?_cons, hlast] at h
  exact h rfl

theorem blanksLength_eq (c : Char) (cs : List Char) :
    blanksLength (c :: cs) = if c = '\r' ∧ cs.head? = some '\n' then 0 else
      if c ≠ '\n' && Text.isBlank c then blanksLength cs + 1 else 0 := by
  by_cases h : c = '\r' ∧ cs.head? = some '\n'
  · obtain ⟨rfl, hhead⟩ := h
    obtain ⟨rest, rfl⟩ := List.head?_eq_some_iff.1 hhead
    rfl
  · rw [if_neg h, blanksLength]
    exact fun rest hc hcs => h ⟨hc, by rw [hcs]; rfl⟩

theorem lineCommentLength_eq (c : Char) (cs : List Char) :
    lineCommentLength (c :: cs) = if c = '\r' ∧ cs.head? = some '\n' then 0 else
      if c = '\n' then 0 else lineCommentLength cs + 1 := by
  by_cases h : c = '\r' ∧ cs.head? = some '\n'
  · obtain ⟨rfl, hhead⟩ := h
    obtain ⟨rest, rfl⟩ := List.head?_eq_some_iff.1 hhead
    rfl
  · rw [if_neg h]
    by_cases hc : c = '\n'
    · rw [if_pos hc, hc, lineCommentLength]
    · rw [if_neg hc, lineCommentLength]
      · exact fun rest hc hcs => h ⟨hc, by rw [hcs]; rfl⟩
      · exact hc

theorem directiveLength_eq (previous c : Char) (cs : List Char) :
    directiveLength previous (c :: cs) = if c = '\r' ∧ cs.head? = some '\n' then
        if previous = '\\' then directiveLength '\n' (cs.drop 1) + 2 else 0
      else if c = '\n' then
        if previous = '\\' then directiveLength '\n' cs + 1 else 0
      else
        directiveLength c cs + 1 := by
  by_cases h : c = '\r' ∧ cs.head? = some '\n'
  · obtain ⟨rfl, hhead⟩ := h
    obtain ⟨rest, rfl⟩ := List.head?_eq_some_iff.1 hhead
    rfl
  · rw [if_neg h]
    by_cases hc : c = '\n'
    · rw [if_pos hc, hc, directiveLength]
    · rw [if_neg hc, directiveLength]
      · exact fun rest hc hcs => h ⟨hc, by rw [hcs]; rfl⟩
      · exact hc

/--
Blanks that end before a text do not depend on it.
-/
theorem blanksLength_append {v s : List Char} (h : blanksLength (v ++ s) < v.length) (hlast : v.getLast? ≠ some '\r')
    (y : List Char) : blanksLength (v ++ y) = blanksLength (v ++ s) := by
  induction v with
  | nil => cases h
  | cons c v ih =>
    rw [List.cons_append, blanksLength_eq] at h
    rw [List.cons_append, List.cons_append, blanksLength_eq, blanksLength_eq]
    simp only [return_append hlast y s]
    split
    · rfl
    · next hreturn =>
      rw [if_neg hreturn] at h
      split
      · next hblank =>
        rw [if_pos hblank, List.length_cons] at h
        rw [ih (Nat.lt_of_succ_lt_succ h) (getLast?_ne_of_cons hlast)]
      · rfl

theorem lineCommentLength_append_of_lt {v s : List Char} (h : lineCommentLength (v ++ s) < v.length)
    (hlast : v.getLast? ≠ some '\r') (y : List Char) : lineCommentLength (v ++ y) = lineCommentLength (v ++ s) := by
  induction v with
  | nil => cases h
  | cons c v ih =>
    rw [List.cons_append, lineCommentLength_eq] at h
    rw [List.cons_append, List.cons_append, lineCommentLength_eq, lineCommentLength_eq]
    simp only [return_append hlast y s]
    split
    · rfl
    · next hreturn =>
      rw [if_neg hreturn] at h
      split
      · rfl
      · next hnewline =>
        rw [if_neg hnewline, List.length_cons] at h
        rw [ih (Nat.lt_of_succ_lt_succ h) (getLast?_ne_of_cons hlast)]

theorem directiveLength_append {previous : Char} {v s : List Char} (h : directiveLength previous (v ++ s) < v.length)
    (hlast : v.getLast? ≠ some '\r') (y : List Char) :
    directiveLength previous (v ++ y) = directiveLength previous (v ++ s) := by
  match v with
  | [] => cases h
  | c :: v =>
    rw [List.cons_append, directiveLength_eq] at h
    rw [List.cons_append, List.cons_append, directiveLength_eq, directiveLength_eq]
    simp only [return_append hlast y s]
    split
    · next hreturn =>
      obtain ⟨d, v, rfl⟩ : ∃ d v', v = d :: v' := by
        cases v with
        | nil => exact absurd (congrArg some hreturn.1) hlast
        | cons d v => exact ⟨d, v, rfl⟩
      rw [if_pos hreturn] at h
      split
      · next hbackslash =>
        rw [if_pos hbackslash, List.cons_append, List.drop_one, List.tail_cons, List.length_cons, List.length_cons] at h
        rw [List.cons_append, List.cons_append, List.drop_one, List.tail_cons, List.drop_one, List.tail_cons,
          directiveLength_append (Nat.lt_of_succ_lt_succ (Nat.lt_of_succ_lt_succ h))
            (getLast?_ne_of_cons (getLast?_ne_of_cons hlast)) y]
      · rfl
    · next hreturn =>
      rw [if_neg hreturn] at h
      split
      · next hnewline =>
        rw [if_pos hnewline] at h
        split
        · next hbackslash =>
          rw [if_pos hbackslash, List.length_cons] at h
          rw [directiveLength_append (Nat.lt_of_succ_lt_succ h) (getLast?_ne_of_cons hlast) y]
        · rfl
      · next hnewline =>
        rw [if_neg hnewline, List.length_cons] at h
        rw [directiveLength_append (Nat.lt_of_succ_lt_succ h) (getLast?_ne_of_cons hlast) y]
termination_by v.length

/--
The symbols at the start of a line comment are part of it.
-/
theorem runLength_le_lineCommentLength (cs : List Char) : runLength Text.isSymbol cs ≤ lineCommentLength cs := by
  induction cs with
  | nil => exact Nat.le_refl 0
  | cons c cs ih =>
    by_cases hc : Text.isSymbol c
    · have hreturn : c ≠ '\r' := ne_of_class hc (by decide)
      have hnewline : c ≠ '\n' := ne_of_class hc (by decide)
      rw [lineCommentLength_eq, if_neg (fun h => hreturn h.1), if_neg hnewline, runLength, List.takeWhile_cons,
        if_pos hc]
      exact Nat.succ_le_succ ih
    · rw [runLength, List.takeWhile_cons, if_neg hc]
      exact Nat.zero_le _

theorem isHard_isWordChar : IsHard Text.isWordChar := isHard_of_softChars (by decide +kernel)

/--
The word behind a number sign ends before anything that no word goes on with.
-/
theorem startsDirective_append_of_head? {v : List Char} (hv : ∃ c ∈ v, c ≠ ' ' ∧ c ≠ '\t') {s y : List Char}
    (hs : ∀ c ∈ s.head?, Text.isWordChar c = false) (hy : ∀ c ∈ y.head?, Text.isWordChar c = false) :
    startsDirective (v ++ y) = startsDirective (v ++ s) := by
  have hdrop (t : List Char) : (v ++ t).dropWhile (fun c => c == ' ' || c == '\t')
      = v.dropWhile (fun c => c == ' ' || c == '\t') ++ t := by
    rw [List.dropWhile_append, if_neg]
    rw [List.isEmpty_iff, List.dropWhile_eq_nil_iff]
    intro hall
    obtain ⟨c, hc, hspace, htab⟩ := hv
    have hblank := hall c hc
    simp [hspace, htab] at hblank
  unfold startsDirective
  dsimp only
  rw [hdrop, hdrop, takeWhile_append_of_head? hs, takeWhile_append_of_head? hy]

/--
The word behind a number sign ends before anything soft.
-/
theorem startsDirective_append {v : List Char} (hv : ∃ c ∈ v, c ≠ ' ' ∧ c ≠ '\t') {s y : List Char} (hs : Soft s)
    (hy : Soft y) : startsDirective (v ++ y) = startsDirective (v ++ s) :=
  startsDirective_append_of_head? hv (fun c hc => isHard_isWordChar c (hs c hc))
    fun c hc => isHard_isWordChar c (hy c hc)

/--
A text that does not end in a blank.
-/
def EndsHard (v : List Char) : Prop :=
  ∀ c ∈ v.getLast?, Text.isBlank c = false

theorem EndsHard.ne_return {v : List Char} (h : EndsHard v) : v.getLast? ≠ some '\r' := by
  intro hlast
  exact absurd (h _ hlast) (by decide)

theorem EndsHard.exists_mem {v : List Char} (h : EndsHard v) (hne : v ≠ []) : ∃ c ∈ v, c ≠ ' ' ∧ c ≠ '\t' := by
  obtain ⟨c, hc⟩ := List.getLast?_isSome.2 hne |> Option.isSome_iff_exists.1
  refine ⟨c, List.mem_of_getLast? hc, ?_, ?_⟩ <;> rintro rfl <;> exact absurd (h _ hc) (by decide)

theorem EndsHard.of_append {u v : List Char} (h : EndsHard (u ++ v)) : EndsHard v := by
  intro c hc
  refine h c ?_
  rw [List.getLast?_append, hc]
  rfl

theorem cut_of_soft (z : List Char) {s : List Char} (hs : Soft s) : Cut z s := by
  rintro c v rfl
  exact ⟨fun _ => runLength_le_of_soft isHard_isIdentChar hs v, fun _ => runLength_le_of_soft isHard_isSymbol hs v⟩

section

variable {q : Bool} {p : Option Char} {c : Char} {v s y : List Char} {n : Nat}

theorem symbolLength_comment {kind : TriviaKind} (h : symbolLength c (v ++ s) = (.trivia kind, n))
    (hn : n < v.length) (hlast : EndsHard v) (y : List Char) : symbolLength c (v ++ y) = (.trivia kind, n) := by
  have hrun : runLength Text.isSymbol (v ++ s) < v.length := by
    refine Nat.lt_of_le_of_lt (runLength_le_lineCommentLength _) ?_
    rw [← (symbolLength_lineComment h).2]
    exact hn
  have hcomment : lineCommentLength (v ++ y) = lineCommentLength (v ++ s) := by
    refine lineCommentLength_append_of_lt ?_ hlast.ne_return y
    rw [← (symbolLength_lineComment h).2]
    exact hn
  unfold symbolLength at h ⊢
  dsimp only at h ⊢
  rw [runLength_of_lt hrun y, take_append_eq (Nat.le_of_lt hrun), hcomment]
  split at h
  · next hdashes =>
    rw [if_pos hdashes]
    exact h
  · repeat' split at h
    all_goals cases h

/--
A piece of trivia before a token is the same whatever stands behind that token.
-/
theorem measure_trivia {kind : TriviaKind} (h : measure q p 0 c (v ++ s) = .ok (.trivia kind, n)) (hs : Soft s)
    (hy : Soft y) (hlast : EndsHard v) (hn : n < v.length) :
    measure q p 0 c (v ++ y) = .ok (.trivia kind, n) := by
  have hne : v ≠ [] := List.ne_nil_of_length_pos (Nat.zero_lt_of_lt hn)
  have hhead (t : List Char) : (v ++ t).head? = v.head? := List.head?_append_of_ne_nil _ hne
  have hdirective : startsDirective (v ++ y) = startsDirective (v ++ s) :=
    startsDirective_append (hlast.exists_mem hne) hs hy
  rw [← measured_iff] at h ⊢
  generalize hkind : LexemeKind.trivia kind = k at h ⊢
  cases h with
  | newline hc => exact .newline hc
  | carriageReturn hc hcs => exact .carriageReturn hc (by rw [hhead, ← hhead s]; exact hcs)
  | blanks hc hnewline hreturn =>
    rw [← blanksLength_append hn hlast.ne_return y]
    exact .blanks hc hnewline (by rw [hhead, ← hhead s]; exact hreturn)
  | directive hc hp hcs =>
    rw [← directiveLength_append hn hlast.ne_return y]
    exact .directive hc hp (hdirective.trans hcs)
  | @blockComment n hc hcs hpragma hcomment =>
    have htwo := two_le_blockCommentLength hcomment
    have hdash (t : List Char) : ['-', '#'].isPrefixOf (v ++ t) = ['-', '#'].isPrefixOf v :=
      isPrefixOf_append (by simp only [List.length_cons, List.length_nil]; omega) t
    -- A block comment is at least two characters longer than its opening brace.
    have hdrop (t : List Char) : (v ++ t).drop 1 = v.drop 1 ++ t := List.drop_append_of_le_length (by omega)
    rw [hdrop] at hcomment
    refine .blockComment hc (by rw [hhead, ← hhead s]; exact hcs) ?_ ?_
    · rw [hdash, ← hdash s]
      exact hpragma
    · rw [hdrop]
      exact blockCommentLength_append hcomment (by rw [List.length_drop]; omega) y
  | symbol hc hdigit hident hmark =>
    have hcomment := symbolLength_comment (Prod.ext hkind.symm rfl) hn hlast y
    have hmeasured : Measured q p 0 c (v ++ y) _ :=
      .symbol hc hdigit hident fun hstart => hmark ⟨hstart.1, hstart.2.1, hdirective ▸ hstart.2.2⟩
    rw [hcomment] at hmeasured
    rwa [← hkind]
  | _ => cases hkind

theorem tick_of_measure {o : Nat} {cs : List Char} (h : measure q p o c cs = .ok (.token .tick, n)) :
    c = '\'' ∧ charLength cs = none ∧ n = if cs.head? = some '\'' then 1 else 0 := by
  have hplain {kind : TokenKind} (hkind : isPlain kind) : kind ≠ .tick := by
    rintro rfl
    cases hkind
  rw [← measured_iff] at h
  generalize hk : LexemeKind.token .tick = k at h
  cases h with
  | tick hc hchar => exact ⟨hc, hchar, rfl⟩
  | number => exact absurd (LexemeKind.token.inj hk).symm (hplain (isPlain_numberLength _ _))
  | identifier => exact absurd (LexemeKind.token.inj hk).symm (hplain (isPlain_identifierLength _ _))
  | symbol => exact absurd rfl (hplain (isPlain_symbolLength hk.symm))
  | _ => cases hk

/--
A token is the same whatever stands behind it and the lexemes `v` that follow, unless it is a tick that becomes a
character.
-/
theorem measure_token {k : TokenKind} (h : measure q p 0 c (v ++ s) = .ok (.token k, n)) (hs : Soft s) (hy : Soft y)
    (hlast : EndsHard v) (hn : n ≤ v.length) (hmark : c = '#' → v = [] → ¬startsLine p) :
    measure q p 0 c (v ++ y) = .ok (.token k, n)
      ∨ n ≤ 1 ∧ ∃ m, 2 ≤ m ∧ measure q p 0 c (v ++ y) = .ok (.token .char, m) := by
  by_cases hk : k = .tick
  · cases hk
    have hquote (t : List Char) (ht : Soft t) : (v ++ t).head? = some '\'' ↔ v.head? = some '\'' := by
      cases v with
      | nil => exact ⟨fun h => absurd h (not_mem_head?_of_soft ht (by decide)), nofun⟩
      | cons d v => exact Iff.rfl
    obtain ⟨hc, -, hlength⟩ := tick_of_measure h
    cases hchar : charLength (v ++ y) with
    | none =>
      have hsame : n = if (v ++ y).head? = some '\'' then 1 else 0 := by simp only [hlength, hquote s hs, hquote y hy]
      rw [hsame]
      exact .inl (measured_iff.1 (.tick hc hchar))
    | some m =>
      refine .inr ⟨?_, m, two_le_charLength hchar, measured_iff.1 (.char hc hchar)⟩
      rw [hlength]
      split <;> omega
  · refine .inl ?_
    have htake (t : List Char) : v ++ t = v.take n ++ (v.drop n ++ t) := by
      rw [← List.append_assoc, List.take_append_drop]
    have hlength : (v.take n).length = n := List.length_take_of_le hn
    have hdirective : ¬(c = '#' ∧ startsLine p ∧ startsDirective (v ++ y)) := by
      rintro ⟨hc, hp, hstarts⟩
      have hne : v ≠ [] := fun hv => hmark hc hv hp
      rw [startsDirective_append (hlast.exists_mem hne) hs hy] at hstarts
      cases h.symm.trans (measured_iff.1 (.directive hc hp hstarts))
    rw [htake] at h hdirective ⊢
    have hcut : measure q p 0 c (v.take n ++ (v.drop n ++ y)) = .ok (.token k, (v.take n).length) :=
      measure_cut (h.trans (by rw [hlength])) hk hdirective (fun _ _ _ => hs) (cut_of_soft _ hs) hy
    rwa [hlength] at hcut

/--
A lexeme is the same whatever stands behind the last of the lexemes `v` that follow, a token.
-/
theorem measure_gap {k : LexemeKind} (h : measure q p 0 c (v ++ s) = .ok (k, n)) (hs : Soft s) (hy : Soft y)
    (hlast : EndsHard v) (hn : n ≤ v.length) (hk : n = v.length → ∃ kind, k = .token kind)
    (hmark : c = '#' → v = [] → ¬startsLine p) :
    measure q p 0 c (v ++ y) = .ok (k, n)
      ∨ (∃ kind, k = .token kind) ∧ n ≤ 1 ∧ ∃ m, 2 ≤ m ∧ measure q p 0 c (v ++ y) = .ok (.token .char, m) := by
  cases k with
  | trivia kind =>
    refine .inl (measure_trivia h hs hy hlast (Nat.lt_of_le_of_ne hn fun heq => ?_))
    obtain ⟨kind, hkind⟩ := hk heq
    cases hkind
  | token kind =>
    rcases measure_token h hs hy hlast hn hmark with h | h
    · exact .inl h
    · exact .inr ⟨⟨kind, rfl⟩, h⟩

end

/--
The texts of the tokens among lexemes.
-/
def tokenTexts (ps : List (LexemeKind × List Char)) : List (List Char) :=
  ps.filterMap fun x =>
    match x.1 with
    | .token _ => some x.2
    | .trivia _ => none

theorem tokenTexts_token (kind : TokenKind) (w : List Char) (ps : List (LexemeKind × List Char)) :
    tokenTexts ((.token kind, w) :: ps) = w :: tokenTexts ps := rfl

theorem tokenTexts_tail {x : LexemeKind × List Char} {ps ps' : List (LexemeKind × List Char)}
    (h : tokenTexts (x :: ps) = tokenTexts (x :: ps')) : tokenTexts ps = tokenTexts ps' := by
  obtain ⟨kind | kind, w⟩ := x
  · exact (List.cons.inj h).2
  · exact h

theorem spell_eq_cons {q : Bool} {p : Option Char} {cs w : List Char} {k : LexemeKind}
    {ps : List (LexemeKind × List Char)} (h : spell q p cs = some ((k, w) :: ps)) :
    ∃ c u y, w = c :: u ∧ cs = c :: (u ++ y) ∧ measure q p 0 c (u ++ y) = .ok (k, u.length)
      ∧ spell q w.getLast? y = some ps := by
  cases cs with
  | nil =>
    rw [spell_nil] at h
    cases h
  | cons c cs =>
    obtain ⟨k, u, y, rest, rfl, hmeasure, heq, hrest⟩ := spell_cons_eq_some h
    cases heq
    exact ⟨c, u, y, rfl, rfl, hmeasure, hrest⟩

/--
Lexemes up to a token are the same whatever soft text stands behind them, as long as the tokens of the whole text have
the same texts.
-/
theorem spell_gap {q : Bool} {p : Option Char} {s y : List Char} {ps rest ps' : List (LexemeKind × List Char)}
    (h : spell q p (ps.flatMap Prod.snd ++ s) = some (ps ++ rest))
    (h' : spell q p (ps.flatMap Prod.snd ++ y) = some ps') (hs : Soft s) (hy : Soft y)
    (hlast : EndsHard (ps.flatMap Prod.snd)) (htoken : ∀ x ∈ ps.getLast?, ∃ kind, x.1 = .token kind)
    (hmark : ∀ before k, ps = before ++ [(k, ['#'])] → ¬startsLine ((before.flatMap Prod.snd).getLast?.or p))
    (htexts : tokenTexts ps' = tokenTexts (ps ++ rest)) : ∃ rest', ps' = ps ++ rest' ∧ spell q none y = some rest' := by
  induction ps generalizing p ps' with
  | nil =>
    refine ⟨ps', rfl, ?_⟩
    rw [← h']
    exact spell_previous q y (.inl (not_mem_head?_of_soft hy (by decide)))
  | cons x ps ih =>
    obtain ⟨k, w⟩ := x
    rw [List.flatMap_cons, List.append_assoc] at h h'
    rw [List.flatMap_cons] at hlast
    obtain ⟨c, u, t, rfl, hcs, hmeasure, hrest⟩ := spell_eq_cons h
    obtain ⟨-, hus⟩ := List.cons.inj hcs
    obtain rfl : ps.flatMap Prod.snd ++ s = t := List.append_cancel_left hus
    generalize hv : ps.flatMap Prod.snd = v at *
    -- No lexeme is empty.
    have hnil : v = [] → ps = [] := by
      rintro rfl
      cases ps with
      | nil => rfl
      | cons x ps =>
        obtain ⟨c, u, t, hx, -, -, -⟩ := spell_eq_cons (k := x.1) (w := x.2) hrest
        rw [List.flatMap_cons, hx] at hv
        cases hv
    obtain ⟨k', u', t', rest', hcs', hmeasure', rfl, hrest'⟩ := spell_cons_eq_some h'
    have hgap := measure_gap (v := u ++ v) (by rw [List.append_assoc]; exact hmeasure) hs hy
      (hlast.of_append (u := [c])) (by rw [List.length_append]; exact Nat.le_add_right _ _) ?_ ?_
    · rw [List.append_assoc, show u ++ (v ++ y) = u' ++ t' from hcs', hmeasure'] at hgap
      rcases hgap with hsame | ⟨⟨kind, rfl⟩, hle, m, hm, hchar⟩
      · obtain ⟨rfl, hlength⟩ := Prod.mk.inj (Except.ok.inj hsame)
        obtain ⟨rfl, rfl⟩ := List.append_inj hcs' hlength.symm
        have hlast' : EndsHard v := hlast.of_append
        have htoken' : ∀ x ∈ ps.getLast?, ∃ kind, x.1 = .token kind := by
          intro x hx
          refine htoken x ?_
          rw [List.getLast?_cons, hx]
          rfl
        have hmark' : ∀ before k, ps = before ++ [(k, ['#'])] →
            ¬startsLine ((before.flatMap Prod.snd).getLast?.or (c :: u).getLast?) := by
          intro before k' hps
          have hbefore := hmark ((_, c :: u) :: before) k' (by rw [hps]; rfl)
          rw [List.flatMap_cons, List.getLast?_append, Option.or_assoc, List.getLast?_cons, Option.some_or] at hbefore
          rw [List.getLast?_cons]
          exact hbefore
        obtain ⟨rest, rfl, hy'⟩ := ih hrest hrest' hlast' htoken' hmark' (tokenTexts_tail htexts)
        exact ⟨rest, rfl, hy'⟩
      · -- A tick has a shorter text than the character that it would become.
        obtain ⟨rfl, hlength⟩ := Prod.mk.inj (Except.ok.inj hchar)
        rw [List.cons_append, tokenTexts_token, tokenTexts_token] at htexts
        have hsame := congrArg List.length (List.cons.inj htexts).1
        simp only [List.length_cons] at hsame
        omega
    · intro hlength
      rw [List.length_append, Nat.left_eq_add, List.length_eq_zero_iff] at hlength
      exact htoken _ (by rw [hnil hlength]; rfl)
    · intro hc hempty
      obtain ⟨rfl, hempty⟩ := List.append_eq_nil_iff.1 hempty
      exact hmark [] k (by rw [hnil hempty, hc]; rfl)

theorem measure_blank {q : Bool} {p : Option Char} {o : Nat} {c : Char} {cs : List Char} (hc : Text.isBlank c) :
    ∃ kind n, measure q p o c cs = .ok (.trivia kind, n)
      ∧ (n = 0 ∨ n = 1 ∧ cs.head? = some '\n' ∨ n = blanksLength cs) := by
  unfold measure
  split
  · exact ⟨.newline, 0, rfl, .inl rfl⟩
  · split
    · next hreturn => exact ⟨.newline, 1, rfl, .inr (.inl ⟨rfl, hreturn.2⟩)⟩
    · exact ⟨.blanks, blanksLength cs, rfl, .inr (.inr rfl)⟩

theorem blanksLength_le_length {b : List Char} (hb : ∀ c ∈ b.head?, Text.isBlank c = false) (g : List Char) :
    blanksLength (g ++ b) ≤ g.length := by
  induction g with
  | nil =>
    cases b with
    | nil => exact Nat.le_refl 0
    | cons c b =>
      rw [List.nil_append, blanksLength_eq, hb c rfl, Bool.and_false]
      split <;> exact Nat.le_refl 0
  | cons c g ih =>
    rw [List.cons_append, blanksLength_eq]
    split
    · exact Nat.zero_le _
    · split
      · exact Nat.succ_le_succ ih
      · exact Nat.zero_le _

/--
The lexemes of blanks in front of a token are trivia.
-/
theorem spell_blank {q : Bool} {p : Option Char} {g b : List Char} {ps : List (LexemeKind × List Char)}
    (h : spell q p (g ++ b) = some ps) (hg : ∀ c ∈ g, Text.isBlank c) (hb : ∀ c ∈ b.head?, Text.isBlank c = false) :
    ∃ gap rest, ps = gap ++ rest ∧ (∀ x ∈ gap, ∃ kind, x.1 = .trivia kind) ∧ gap.flatMap Prod.snd = g
      ∧ spell q (g.getLast?.or p) b = some rest := by
  match g with
  | [] => exact ⟨[], ps, rfl, by simp, rfl, h⟩
  | c :: g =>
    obtain ⟨k, u, y, rest, hcs, hmeasure, rfl, hrest⟩ := spell_cons_eq_some h
    obtain ⟨kind, n, hblank, hn⟩ := @measure_blank q p 0 c (u ++ y) (hg c List.mem_cons_self)
    obtain ⟨rfl, rfl⟩ := Prod.mk.inj (Except.ok.inj (hmeasure.symm.trans hblank))
    -- The lexeme ends in the blanks: none of its forms goes on to what shows.
    have hle : u.length ≤ g.length := by
      rw [← hcs] at hn
      rcases hn with hn | ⟨hn, hhead⟩ | hn
      · omega
      · cases g with
        | nil => exact absurd (hb '\n' hhead) (by decide)
        | cons d g =>
          rw [hn, List.length_cons]
          exact Nat.le_add_left _ _
      · rw [hn]
        exact blanksLength_le_length hb g
    obtain ⟨g, rfl⟩ : u <+: g := by
      refine List.prefix_of_prefix_length_le (List.prefix_append u y) ?_ hle
      rw [← (show g ++ b = u ++ y from hcs)]
      exact List.prefix_append g b
    obtain rfl : g ++ b = y := by
      rw [← List.append_cancel_left_eq u, ← List.append_assoc]
      exact hcs
    obtain ⟨gap, rest, rfl, htrivia, hgap, hrest⟩ := spell_blank hrest
      (fun d hd => hg d (List.mem_cons_of_mem _ (List.mem_append_right _ hd))) hb
    refine ⟨(.trivia kind, c :: u) :: gap, rest, rfl, ?_, ?_, ?_⟩
    · rw [List.forall_mem_cons]
      exact ⟨⟨kind, rfl⟩, htrivia⟩
    · rw [List.flatMap_cons, hgap]
      rfl
    · rw [← List.cons_append, List.getLast?_append, Option.or_assoc, List.getLast?_cons, Option.some_or]
      rw [List.getLast?_cons] at hrest
      exact hrest
termination_by g.length

/--
A token that begins no line, or with something other than a number sign, is the same as at the start of a line.
-/
theorem measure_midline {q : Bool} {p p' : Option Char} {o n : Nat} {c : Char} {cs : List Char} {k : TokenKind}
    (h : measure q p o c cs = .ok (.token k, n)) (hp : c = '#' → ¬startsLine p') :
    measure q p' o c cs = .ok (.token k, n) := by
  have hiff : (c = '#' ∧ (p' = none ∨ p' = some '\n') ∧ startsDirective cs)
      ↔ (c = '#' ∧ (p = none ∨ p = some '\n') ∧ startsDirective cs) := by
    refine ⟨fun h' => absurd h'.2.1 (hp h'.1), fun ⟨hc, hstart, hdirective⟩ => ?_⟩
    cases h.symm.trans (measured_iff.1 (.directive hc hstart hdirective))
  rw [← h]
  unfold measure
  simp only [hiff]

end Lexeme

end HaskellStyle
