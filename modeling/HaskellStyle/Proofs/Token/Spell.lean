import HaskellStyle.Proofs.Token.Measure

/-!
This module contains the lexemes of a text without their places. What a lexeme is depends on the text behind
it and on whether it begins a line, but not on how far into the text it stands.
-/

namespace HaskellStyle

namespace Lexeme

theorem stringLength_offset {cs : List Char} {start offset n : Nat} {state : StringState}
    (h : stringLength start offset state cs = .ok n) (start' offset' : Nat) {state' : StringState}
    (hstate : state.Same state') : stringLength start' offset' state' cs = .ok n := by
  have := stringLength_append (v := cs) (s := []) (by rwa [List.append_nil]) (endsIn_of_stringLength h).le []
    start' offset' hstate
  rwa [List.append_nil] at this

/--
What a lexeme is does not depend on how far into the text it stands.
-/
theorem measure_offset {q : Bool} {p : Option Char} {o : Nat} {c : Char} {cs : List Char}
    {k : LexemeKind} {n : Nat} (h : measure q p o c cs = .ok (k, n)) (o' : Nat) : measure q p o' c cs = .ok (k, n) := by
  rw [← measured_iff] at h ⊢
  cases h with
  | newline hc => exact .newline hc
  | carriageReturn hc hcs => exact .carriageReturn hc hcs
  | blanks hc hnewline hreturn => exact .blanks hc hnewline hreturn
  | directive hc hp hcs => exact .directive hc hp hcs
  | pragma hc hcs hn => exact .pragma hc hcs hn
  | blockComment hc hcs hpragma hn => exact .blockComment hc hcs hpragma hn
  | string hc hn => exact .string hc (stringLength_offset hn o' (o' + 1) .plain)
  | char hc hn => exact .char hc hn
  | tick hc hn => exact .tick hc hn
  | number hc => exact .number hc
  | identifier hc hdigit => exact .identifier hc hdigit
  | quasiQuote hc hq hn hm => exact .quasiQuote hc hq hn hm
  | special hc hcomment hquasi => exact .special hc hcomment hquasi
  | symbol hc hdigit hident hdirective => exact .symbol hc hdigit hident hdirective
  | other hblank hstring hquote hdigit hident hspecial hsymbol =>
    exact .other hblank hstring hquote hdigit hident hspecial hsymbol

/--
The character before a lexeme matters only for directives.
-/
theorem measure_previous (q : Bool) {p p' : Option Char} (o : Nat) {c : Char} (cs : List Char)
    (hp : c ≠ '#' ∨ (startsLine p ↔ startsLine p')) : measure q p o c cs = measure q p' o c cs := by
  have hiff : (c = '#' ∧ (p = none ∨ p = some '\n') ∧ startsDirective cs)
      ↔ (c = '#' ∧ (p' = none ∨ p' = some '\n') ∧ startsDirective cs) := by
    rcases hp with hc | hp
    · exact ⟨fun h => absurd h.1 hc, fun h => absurd h.1 hc⟩
    · unfold startsLine at hp
      rw [hp]
  unfold measure
  simp only [hiff]

/--
The kinds and the texts of the lexemes of a text behind the character `previous`.
-/
def spell (q : Bool) (previous : Option Char) (cs : List Char) : Option (List (LexemeKind × List Char)) :=
  match cs with
  | [] => some []
  | c :: more =>
    match measure q previous 0 c more with
    | .error _ => none
    | .ok (kind, n) =>
      (spell q (c :: more.take n).getLast? (more.drop n)).map ((kind, c :: more.take n) :: ·)
termination_by cs.length
decreasing_by simp only [List.length_drop, List.length_cons]; omega

theorem spell_nil (q : Bool) (p : Option Char) : spell q p [] = some [] := by
  rw [spell]

theorem spell_previous (q : Bool) {p p' : Option Char} (cs : List Char)
    (hp : cs.head? ≠ some '#' ∨ (startsLine p ↔ startsLine p')) : spell q p cs = spell q p' cs := by
  cases cs with
  | nil => rw [spell_nil, spell_nil]
  | cons c cs =>
    have hc : c ≠ '#' ∨ (startsLine p ↔ startsLine p') := by
      refine hp.imp_left fun hhead hc => hhead ?_
      rw [hc]
      rfl
    rw [spell, spell, measure_previous q 0 cs hc]

theorem spell_cons {q : Bool} {p : Option Char} {c : Char} {cs : List Char} {k : LexemeKind} {n : Nat}
    (h : measure q p 0 c cs = .ok (k, n)) :
    spell q p (c :: cs)
      = (spell q (c :: cs.take n).getLast? (cs.drop n)).map ((k, c :: cs.take n) :: ·) := by
  rw [spell, h]

theorem spell_append {q : Bool} {p : Option Char} {c : Char} {u y : List Char} {k : LexemeKind}
    (h : measure q p 0 c (u ++ y) = .ok (k, u.length)) :
    spell q p (c :: (u ++ y)) = (spell q (c :: u).getLast? y).map ((k, c :: u) :: ·) := by
  rw [spell_cons h, List.take_left, List.drop_left]

theorem spell_cons_eq_some {q : Bool} {p : Option Char} {c : Char} {cs : List Char}
    {ps : List (LexemeKind × List Char)} (h : spell q p (c :: cs) = some ps) :
    ∃ k u y rest, cs = u ++ y ∧ measure q p 0 c (u ++ y) = .ok (k, u.length) ∧ ps = (k, c :: u) :: rest
      ∧ spell q (c :: u).getLast? y = some rest := by
  rw [spell] at h
  split at h
  · cases h
  · next k n hmeasure =>
    obtain ⟨rest, hrest, rfl⟩ := Option.map_eq_some_iff.1 h
    refine ⟨k, cs.take n, cs.drop n, rest, (List.take_append_drop n cs).symm, ?_, rfl, hrest⟩
    rw [List.take_append_drop, List.length_take, Nat.min_eq_left (measured_iff.2 hmeasure).le]
    exact hmeasure

/--
The lexemes of a text make it up.
-/
theorem flatMap_of_spell {q : Bool} {p : Option Char} {cs : List Char} {ps : List (LexemeKind × List Char)}
    (h : spell q p cs = some ps) : ps.flatMap Prod.snd = cs := by
  induction hn : ps.length generalizing p cs ps with
  | zero =>
    cases cs with
    | nil =>
      rw [spell_nil] at h
      cases h
      rfl
    | cons c cs =>
      obtain ⟨k, u, y, rest, -, -, rfl, -⟩ := spell_cons_eq_some h
      cases hn
  | succ n ih =>
    cases cs with
    | nil =>
      rw [spell_nil] at h
      cases h
      rfl
    | cons c cs =>
      obtain ⟨k, u, y, rest, rfl, -, rfl, hrest⟩ := spell_cons_eq_some h
      rw [List.flatMap_cons, ih hrest (Nat.succ.inj hn)]
      rfl

/--
Each lexeme of a text is what is read where it begins.
-/
theorem spell_split {q : Bool} {p : Option Char} {cs : List Char} {before after : List (LexemeKind × List Char)}
    {k : LexemeKind} {w : List Char} (h : spell q p cs = some (before ++ (k, w) :: after)) :
    ∃ p' c u, w = c :: u ∧ measure q p' 0 c (u ++ after.flatMap Prod.snd) = .ok (k, u.length)
      ∧ spell q w.getLast? (after.flatMap Prod.snd) = some after := by
  induction before generalizing p cs with
  | nil =>
    cases cs with
    | nil =>
      rw [spell_nil] at h
      cases h
    | cons c cs =>
      obtain ⟨k', u, y, rest, rfl, hmeasure, heq, hrest⟩ := spell_cons_eq_some h
      cases heq
      rw [flatMap_of_spell hrest]
      exact ⟨p, c, u, rfl, hmeasure, hrest⟩
  | cons first before ih =>
    cases cs with
    | nil =>
      rw [spell_nil] at h
      cases h
    | cons c cs =>
      obtain ⟨k', u, y, rest, rfl, hmeasure, heq, hrest⟩ := spell_cons_eq_some h
      cases heq
      exact ih hrest

theorem scan_cons {q : Bool} {p : Option Char} {position : Position} {c : Char} {cs : List Char}
    {k : LexemeKind} {n : Nat} (h : measure q p position.offset c cs = .ok (k, n)) :
    scan q p position (c :: cs)
      = (scan q (c :: cs.take n).getLast? (position.after (c :: cs.take n)) (cs.drop n)).map
        (⟨k, String.ofList (c :: cs.take n), position⟩ :: ·) := by
  rw [scan]
  simp only [h, bind, Except.bind, pure, Except.pure, Except.map]

/--
The kind and the text of a lexeme.
-/
def spelling (l : Lexeme) : LexemeKind × List Char :=
  (l.kind, l.text.toList)

/--
Scanning finds the lexemes of the text.
-/
theorem spell_of_scan {q : Bool} {p : Option Char} {position : Position} {cs : List Char} {ls : List Lexeme}
    (h : scan q p position cs = .ok ls) : spell q p cs = some (ls.map spelling) := by
  match cs with
  | [] =>
    rw [scan] at h
    cases h
    exact spell_nil q p
  | c :: cs =>
    cases hmeasure : measure q p position.offset c cs with
    | error e =>
      rw [scan] at h
      simp only [hmeasure, bind, Except.bind] at h
      cases h
    | ok r =>
      obtain ⟨k, n⟩ := r
      rw [scan_cons hmeasure] at h
      cases hrest : scan q (c :: cs.take n).getLast? (position.after (c :: cs.take n)) (cs.drop n) with
      | error e =>
        rw [hrest] at h
        cases h
      | ok others =>
        rw [hrest] at h
        cases h
        rw [spell_cons (measure_offset hmeasure 0), spell_of_scan hrest, List.map_cons, spelling,
          String.toList_ofList]
        rfl
termination_by cs.length
decreasing_by simp only [List.length_drop, List.length_cons]; omega

/--
A text with lexemes can be scanned from every place.
-/
theorem scan_of_spell {q : Bool} {p : Option Char} (position : Position) {cs : List Char}
    {ps : List (LexemeKind × List Char)} (h : spell q p cs = some ps) :
    ∃ ls, scan q p position cs = .ok ls ∧ ls.map spelling = ps := by
  induction ps generalizing p position cs with
  | nil =>
    have hcs : cs = [] := (flatMap_of_spell h).symm
    subst hcs
    exact ⟨[], by rw [scan], rfl⟩
  | cons first ps ih =>
    cases cs with
    | nil =>
      rw [spell_nil] at h
      cases h
    | cons c cs =>
      obtain ⟨k, u, y, rest, rfl, hmeasure, heq, hrest⟩ := spell_cons_eq_some h
      cases heq
      obtain ⟨ls, hls, hspelling⟩ := ih (position.after (c :: u)) hrest
      refine ⟨⟨k, String.ofList (c :: u), position⟩ :: ls, ?_, ?_⟩
      · rw [scan_cons (measure_offset hmeasure position.offset), List.take_left, List.drop_left, hls]
        rfl
      · rw [List.map_cons, hspelling, spelling, String.toList_ofList]

end Lexeme

end HaskellStyle
