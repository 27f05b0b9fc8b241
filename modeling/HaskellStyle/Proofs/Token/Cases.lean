import HaskellStyle.Proofs.Token.Soft

/-!
This module contains the cases in which a lexeme is measured. Each case holds all that decides for it, so what is known
of lexemes follows from the cases alone.
-/

namespace HaskellStyle

namespace Lexeme

variable {q : Bool} {p : Option Char} {o : Nat} {c : Char} {cs : List Char}

theorem isBlank_of_isSoft (h : isSoft c = false) : Text.isBlank c = false :=
  (Bool.or_eq_false_iff.1 h).1

theorem isSoft_of_isHard {r : Char → Bool} (hr : IsHard r) (hc : r c) : isSoft c = false := by
  cases hsoft : isSoft c with
  | false => rfl
  | true =>
    rw [hr c hsoft] at hc
    cases hc

theorem isHard_isIdentStart : IsHard isIdentStart := isHard_of_softChars (by decide +kernel)

theorem isHard_isDigit' : IsHard Text.isDigit := isHard_of_softChars (by decide +kernel)

theorem isSpecial_of_isHard {r : Char → Bool} (hr : IsHard r) (hc : r c) : isSpecial c = false :=
  (Bool.or_eq_false_iff.1 (isSoft_of_isHard hr hc)).2

theorem isHard_of_isSpecial {r : Char → Bool} (hr : IsHard r) (hc : isSpecial c) : r c = false :=
  hr c (Bool.or_eq_true_iff.2 (.inr hc))

theorem isBlank_of_isSpecial (h : isSpecial c) : Text.isBlank c = false := by
  have hall : "(),;[]\x60\x7b\x7d".toList.all fun d => !Text.isBlank d := by decide +kernel
  exact Bool.not_eq_true' _ ▸ List.all_eq_true.1 hall c (List.contains_iff_mem.1 h)

theorem ne_of_class {r : Char → Bool} {d : Char} (hc : r c) (hd : r d = false) : c ≠ d := by
  rintro rfl
  rw [hc] at hd
  cases hd

/--
Whether a character behind `previous` can begin a directive.
-/
def startsLine (previous : Option Char) : Prop :=
  previous = none ∨ previous = some '\n'

/--
The lexeme that begins with `c` at the offset `o` behind the character `p`, or why there is none.
-/
inductive Measured (q : Bool) (p : Option Char) (o : Nat) (c : Char) (cs : List Char) :
    Except Failure (LexemeKind × Nat) → Prop where
  | newline (hc : c = '\n') : Measured q p o c cs (.ok (.trivia .newline, 0))
  | carriageReturn (hc : c = '\r') (hcs : cs.head? = some '\n') : Measured q p o c cs (.ok (.trivia .newline, 1))
  | blanks (hc : Text.isBlank c) (hnewline : c ≠ '\n') (hreturn : ¬(c = '\r' ∧ cs.head? = some '\n')) :
    Measured q p o c cs (.ok (.trivia .blanks, blanksLength cs))
  | directive (hc : c = '#') (hp : startsLine p) (hcs : startsDirective cs) :
    Measured q p o c cs (.ok (.trivia .directive, directiveLength c cs))
  | pragma {n : Nat} (hc : c = '\x7b') (hcs : ['-', '#'].isPrefixOf cs)
    (hn : find ['#', '-', '\x7d'] (cs.drop 2) = some n) : Measured q p o c cs (.ok (.token .pragma, n + 5))
  | openPragma (hc : c = '\x7b') (hcs : ['-', '#'].isPrefixOf cs)
    (hn : find ['#', '-', '\x7d'] (cs.drop 2) = none) : Measured q p o c cs (.error ⟨.unterminatedPragma, o⟩)
  | blockComment {n : Nat} (hc : c = '\x7b') (hcs : cs.head? = some '-') (hpragma : ¬['-', '#'].isPrefixOf cs)
    (hn : blockCommentLength 0 (cs.drop 1) = some n) : Measured q p o c cs (.ok (.trivia .blockComment, n + 1))
  | openComment (hc : c = '\x7b') (hcs : cs.head? = some '-') (hpragma : ¬['-', '#'].isPrefixOf cs)
    (hn : blockCommentLength 0 (cs.drop 1) = none) : Measured q p o c cs (.error ⟨.unterminatedComment, o⟩)
  | string {n : Nat} (hc : c = '"') (hn : stringLength o (o + 1) .plain cs = .ok n) :
    Measured q p o c cs (.ok (.token .string, n))
  | openString {f : Failure} (hc : c = '"') (hf : stringLength o (o + 1) .plain cs = .error f) :
    Measured q p o c cs (.error f)
  | char {n : Nat} (hc : c = '\'') (hn : charLength cs = some n) : Measured q p o c cs (.ok (.token .char, n))
  | tick (hc : c = '\'') (hn : charLength cs = none) :
    Measured q p o c cs (.ok (.token .tick, if cs.head? = some '\'' then 1 else 0))
  | number (hc : Text.isDigit c) : Measured q p o c cs (.ok (.token (numberLength c cs).1, (numberLength c cs).2))
  | identifier (hc : isIdentStart c) (hdigit : Text.isDigit c = false) :
    Measured q p o c cs (.ok (.token (identifierLength c cs).1, (identifierLength c cs).2))
  | quasiQuote {n m : Nat} (hc : c = '[') (hq : q) (hn : quoterLength cs = some n)
    (hm : find ['|', ']'] (cs.drop n) = some m) : Measured q p o c cs (.ok (.token .quasiQuote, n + m + 2))
  | openQuasiQuote {n : Nat} (hc : c = '[') (hq : q) (hn : quoterLength cs = some n)
    (hm : find ['|', ']'] (cs.drop n) = none) : Measured q p o c cs (.error ⟨.unterminatedQuasiQuote, o⟩)
  | special (hc : isSpecial c) (hcomment : ¬(c = '\x7b' ∧ cs.head? = some '-'))
    (hquasi : c = '[' → q → quoterLength cs = none) : Measured q p o c cs (.ok (.token .special, 0))
  | symbol (hc : Text.isSymbol c) (hdigit : Text.isDigit c = false) (hident : isIdentStart c = false)
    (hdirective : ¬(c = '#' ∧ startsLine p ∧ startsDirective cs)) :
    Measured q p o c cs (.ok ((symbolLength c cs).1, (symbolLength c cs).2))
  | other (hblank : Text.isBlank c = false) (hstring : c ≠ '"') (hquote : c ≠ '\'') (hdigit : Text.isDigit c = false)
    (hident : isIdentStart c = false) (hspecial : isSpecial c = false) (hsymbol : Text.isSymbol c = false) :
    Measured q p o c cs (.ok (.token .varSym, 0))

/--
Every lexeme falls into one of the cases.
-/
theorem measured_measure (q : Bool) (p : Option Char) (o : Nat) (c : Char) (cs : List Char) :
    Measured q p o c cs (measure q p o c cs) := by
  unfold measure
  by_cases hnewline : c = '\n'
  · rw [if_pos hnewline]
    exact .newline hnewline
  rw [if_neg hnewline]
  by_cases hreturn : c = '\r' ∧ cs.head? = some '\n'
  · rw [if_pos hreturn]
    exact .carriageReturn hreturn.1 hreturn.2
  rw [if_neg hreturn]
  by_cases hblank : Text.isBlank c
  · rw [if_pos hblank]
    exact .blanks hblank hnewline hreturn
  rw [if_neg hblank]
  by_cases hdirective : c = '#' ∧ (p = none ∨ p = some '\n') ∧ startsDirective cs
  · rw [if_pos hdirective]
    exact .directive hdirective.1 hdirective.2.1 hdirective.2.2
  rw [if_neg hdirective]
  by_cases hpragma : c = '\x7b' ∧ ['-', '#'].isPrefixOf cs
  · rw [if_pos hpragma]
    split
    · next hn => exact .pragma hpragma.1 hpragma.2 hn
    · next hn => exact .openPragma hpragma.1 hpragma.2 hn
  rw [if_neg hpragma]
  by_cases hcomment : c = '\x7b' ∧ cs.head? = some '-'
  · rw [if_pos hcomment]
    have hcs : ¬['-', '#'].isPrefixOf cs := fun h => hpragma ⟨hcomment.1, h⟩
    split
    · next hn => exact .blockComment hcomment.1 hcomment.2 hcs hn
    · next hn => exact .openComment hcomment.1 hcomment.2 hcs hn
  rw [if_neg hcomment]
  by_cases hstring : c = '"'
  · rw [if_pos hstring]
    cases hn : stringLength o (o + 1) .plain cs with
    | ok n => exact .string hstring hn
    | error f => exact .openString hstring hn
  rw [if_neg hstring]
  by_cases hquote : c = '\''
  · rw [if_pos hquote]
    split
    · next hn => exact .char hquote hn
    · next hn => exact .tick hquote hn
  rw [if_neg hquote]
  cases hdigit : Text.isDigit c with
  | true => exact .number hdigit
  | false =>
  rw [if_neg Bool.false_ne_true]
  cases hident : isIdentStart c with
  | true => exact .identifier hident hdigit
  | false =>
  rw [if_neg Bool.false_ne_true]
  cases hquasi : if c = '[' ∧ q then quoterLength cs else none with
  | some n =>
    split at hquasi
    · next hc =>
      dsimp only
      split
      · next hm => exact .quasiQuote hc.1 hc.2 hquasi hm
      · next hm => exact .openQuasiQuote hc.1 hc.2 hquasi hm
    · cases hquasi
  | none =>
  cases hspecial : isSpecial c with
  | true =>
    refine .special hspecial hcomment fun hc hq => ?_
    rwa [if_pos ⟨hc, hq⟩] at hquasi
  | false =>
  cases hsymbol : Text.isSymbol c with
  | true => exact .symbol hsymbol hdigit hident hdirective
  | false =>
  rw [Bool.not_eq_true] at hblank
  exact .other hblank hstring hquote hdigit hident hspecial hsymbol

/--
What is no blank, no bracket, no quote and no directive is a name, a number or an operator.
-/
theorem measure_of_hard (hblank : Text.isBlank c = false) (hspecial : isSpecial c = false) (hstring : c ≠ '"')
    (hquote : c ≠ '\'') (hdirective : ¬(c = '#' ∧ startsLine p ∧ startsDirective cs)) :
    measure q p o c cs =
      if Text.isDigit c then
        .ok (.token (numberLength c cs).1, (numberLength c cs).2)
      else if isIdentStart c then
        .ok (.token (identifierLength c cs).1, (identifierLength c cs).2)
      else if Text.isSymbol c then
        .ok ((symbolLength c cs).1, (symbolLength c cs).2)
      else
        .ok (.token .varSym, 0) := by
  have hne {r : Char → Bool} (hc : r c = false) {d : Char} (hd : r d) : c ≠ d := (ne_of_class hd hc).symm
  unfold measure
  rw [if_neg (hne hblank (by decide)), if_neg fun h => hne hblank (by decide) h.1, if_neg (by simp [hblank]),
    if_neg (c := c = '#' ∧ (p = none ∨ p = some '\n') ∧ startsDirective cs) hdirective, if_neg fun h => hne hspecial (by decide) h.1, if_neg fun h => hne hspecial (by decide) h.1,
    if_neg hstring, if_neg hquote, if_neg (c := c = '[' ∧ q) fun h => hne hspecial (by decide) h.1]
  simp only [hspecial, Bool.false_eq_true, if_false]

/--
The cases exclude each other.
-/
theorem Measured.measure_eq {r : Except Failure (LexemeKind × Nat)} (h : Measured q p o c cs r) :
    measure q p o c cs = r := by
  have hother {P : Prop} {d : Char} (hd : c ≠ d) : ¬(c = d ∧ P) := fun h => hd h.1
  cases h with
  | newline hc =>
    subst hc
    rfl
  | carriageReturn hc hcs =>
    subst hc
    rw [measure, if_neg (by decide), if_pos ⟨rfl, hcs⟩]
  | blanks hc hnewline hreturn => rw [measure, if_neg hnewline, if_neg hreturn, if_pos hc]
  | directive hc hp hcs =>
    subst hc
    rw [measure, if_neg (by decide), if_neg (hother (by decide)), if_neg (by decide), if_pos ⟨rfl, hp, hcs⟩]
  | pragma hc hcs hn | openPragma hc hcs hn =>
    subst hc
    rw [measure, if_neg (by decide), if_neg (hother (by decide)), if_neg (by decide), if_neg (hother (by decide)),
      if_pos ⟨rfl, hcs⟩, hn]
  | blockComment hc hcs hpragma hn | openComment hc hcs hpragma hn =>
    subst hc
    rw [measure, if_neg (by decide), if_neg (hother (by decide)), if_neg (by decide), if_neg (hother (by decide)),
      if_neg fun h => hpragma h.2, if_pos ⟨rfl, hcs⟩, hn]
  | string hc hn | openString hc hn =>
    subst hc
    rw [measure, if_neg (by decide), if_neg (hother (by decide)), if_neg (by decide), if_neg (hother (by decide)),
      if_neg (hother (by decide)), if_neg (hother (by decide)), if_pos rfl, hn]
    rfl
  | char hc hn | tick hc hn =>
    subst hc
    rw [measure, if_neg (by decide), if_neg (hother (by decide)), if_neg (by decide), if_neg (hother (by decide)),
      if_neg (hother (by decide)), if_neg (hother (by decide)), if_neg (by decide), if_pos rfl, hn]
  | number hc =>
    have hsoft := isSoft_of_isHard isHard_isDigit' hc
    rw [measure_of_hard (isBlank_of_isSoft hsoft) (isSpecial_of_isHard isHard_isDigit' hc) (ne_of_class hc (by decide))
      (ne_of_class hc (by decide)) (hother (ne_of_class hc (by decide))), if_pos hc]
  | identifier hc hdigit =>
    have hsoft := isSoft_of_isHard isHard_isIdentStart hc
    rw [measure_of_hard (isBlank_of_isSoft hsoft) (isSpecial_of_isHard isHard_isIdentStart hc) (ne_of_class hc (by decide))
      (ne_of_class hc (by decide)) (hother (ne_of_class hc (by decide))), hdigit, if_neg Bool.false_ne_true, if_pos hc]
  | quasiQuote hc hq hn hm | openQuasiQuote hc hq hn hm =>
    subst hc
    rw [measure, if_neg (by decide), if_neg (hother (by decide)), if_neg (by decide), if_neg (hother (by decide)),
      if_neg (hother (by decide)), if_neg (hother (by decide)), if_neg (by decide), if_neg (by decide),
      if_neg (by decide), if_neg (by decide), if_pos ⟨rfl, hq⟩, hn]
    dsimp only
    rw [hm]
  | special hc hcomment hquasi =>
    have hpragma : ¬(c = '\x7b' ∧ ['-', '#'].isPrefixOf cs) := by
      rintro ⟨hc, hprefix⟩
      obtain ⟨rest, rfl⟩ := List.isPrefixOf_iff_prefix.1 hprefix
      exact hcomment ⟨hc, rfl⟩
    have hquoter : (if c = '[' ∧ q then quoterLength cs else none) = none := by
      split
      · next hbracket => exact hquasi hbracket.1 hbracket.2
      · rfl
    rw [measure, if_neg (ne_of_class hc (by decide)), if_neg (hother (ne_of_class hc (by decide))),
      isBlank_of_isSpecial hc, if_neg Bool.false_ne_true, if_neg (hother (ne_of_class hc (by decide))), if_neg hpragma,
      if_neg hcomment, if_neg (ne_of_class hc (by decide)), if_neg (ne_of_class hc (by decide)),
      isHard_of_isSpecial isHard_isDigit' hc, if_neg Bool.false_ne_true, isHard_of_isSpecial isHard_isIdentStart hc,
      if_neg Bool.false_ne_true, hquoter]
    dsimp only
    rw [if_pos hc]
  | symbol hc hdigit hident hdirective =>
    have hsoft := isSoft_of_isHard isHard_isSymbol hc
    rw [measure_of_hard (isBlank_of_isSoft hsoft) (isSpecial_of_isHard isHard_isSymbol hc) (ne_of_class hc (by decide))
      (ne_of_class hc (by decide)) hdirective, hdigit, if_neg Bool.false_ne_true, hident, if_neg Bool.false_ne_true, if_pos hc]
  | other hblank hstring hquote hdigit hident hspecial hsymbol =>
    have hdirective : c ≠ '#' := (ne_of_class (r := Text.isSymbol) (by decide) hsymbol).symm
    rw [measure_of_hard hblank hspecial hstring hquote (hother hdirective), hdigit, if_neg Bool.false_ne_true, hident,
      if_neg Bool.false_ne_true, hsymbol, if_neg Bool.false_ne_true]

theorem measured_iff {r : Except Failure (LexemeKind × Nat)} : Measured q p o c cs r ↔ measure q p o c cs = r :=
  ⟨Measured.measure_eq, fun h => h ▸ measured_measure q p o c cs⟩

end Lexeme

end HaskellStyle
