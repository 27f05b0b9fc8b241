import HaskellStyle.Proofs.Token.Faithful
import HaskellStyle.Proofs.Token.Gap

/-!
This module contains that the characters of a token tell its kind, whatever stands around it.
-/

namespace HaskellStyle

namespace Lexeme

theorem runLength_unique {p : Char → Bool} (hp : IsHard p) {u s s' : List Char}
    (h : runLength p (u ++ s) ≤ u.length) (h' : runLength p (u ++ s') ≤ u.length) :
    runLength p (u ++ s) = runLength p (u ++ s') := by
  have hcut {s : List Char} (h : runLength p (u ++ s) ≤ u.length) : runLength p u = runLength p (u ++ s) := by
    simpa using @runLength_cut p hp u [] s [] soft_nil h
  rw [← hcut h, ← hcut h']

theorem qualifiedLength_drop {b : Bool} {u s : List Char} {n : Nat} {k : TokenKind} (hn : n ≤ u.length)
    (hkind : (qualifiedLength b ((u ++ s).drop n)).1 = k)
    (hlength : n + (qualifiedLength b ((u ++ s).drop n)).2 = u.length) :
    qualifiedLength b (u.drop n ++ s) = (k, (u.drop n).length) := by
  rw [List.drop_append_of_le_length hn] at hkind hlength
  exact Prod.ext hkind (by rw [List.length_drop]; omega)

theorem qualifiedLength_unique {b : Bool} {u s s' : List Char} {k k' : TokenKind}
    (h : qualifiedLength b (u ++ s) = (k, u.length)) (h' : qualifiedLength b (u ++ s') = (k', u.length)) : k = k' := by
  match u with
  | [] => rw [eq_conKind_of_qualifiedLength h, eq_conKind_of_qualifiedLength h']
  | [d] => rw [eq_qualifiedConId_of_qualifiedLength h, eq_qualifiedConId_of_qualifiedLength h']
  | d :: c :: u =>
    -- What follows the first part begins with a dot, and both readings take the same branch behind it.
    obtain ⟨c', v, heq⟩ := qualifiedLength_pos h
    cases (List.cons.inj heq).1
    simp only [List.cons_append, qualifiedLength_dot, List.length_cons] at h h'
    split at h
    · next hupper =>
      rw [if_pos hupper] at h'
      split at h
      · next hident =>
        rw [if_pos hident] at h'
        obtain ⟨hkind, hlength⟩ := Prod.mk.inj h
        obtain ⟨hkind', hlength'⟩ := Prod.mk.inj h'
        have hle : runLength isIdentChar (u ++ s) ≤ u.length := by omega
        rw [← runLength_unique isHard_isIdentChar hle (by omega)] at hkind' hlength'
        exact qualifiedLength_unique (qualifiedLength_drop hle hkind (by omega))
          (qualifiedLength_drop hle hkind' (by omega))
      · cases congrArg Prod.snd h
    · next hupper =>
      rw [if_neg hupper] at h'
      split at h
      · next hstart =>
        rw [if_pos hstart] at h'
        split at h
        · cases congrArg Prod.snd h
        · split at h'
          · cases congrArg Prod.snd h'
          · exact (Prod.mk.inj h).1.symm.trans (Prod.mk.inj h').1
      · next hstart =>
        rw [if_neg hstart] at h'
        split at h
        · next hsymbol =>
          rw [if_pos hsymbol] at h'
          split at h
          · cases congrArg Prod.snd h
          · split at h'
            · cases congrArg Prod.snd h'
            · exact (Prod.mk.inj h).1.symm.trans (Prod.mk.inj h').1
        · cases congrArg Prod.snd h
termination_by u.length
decreasing_by simp only [List.length_drop, List.length_cons]; omega

theorem identifierLength_unique {c : Char} {u s s' : List Char} {k k' : TokenKind}
    (h : identifierLength c (u ++ s) = (k, u.length)) (h' : identifierLength c (u ++ s') = (k', u.length)) :
    k = k' := by
  unfold identifierLength at h h'
  dsimp only at h h'
  split at h
  · next hcapital =>
    rw [if_pos hcapital] at h'
    obtain ⟨hkind, hlength⟩ := Prod.mk.inj h
    obtain ⟨hkind', hlength'⟩ := Prod.mk.inj h'
    have hle : runLength isIdentChar (u ++ s) ≤ u.length := by omega
    rw [← runLength_unique isHard_isIdentChar hle (by omega)] at hkind' hlength'
    exact qualifiedLength_unique (qualifiedLength_drop hle hkind hlength) (qualifiedLength_drop hle hkind' hlength')
  · next hcapital =>
    rw [if_neg hcapital] at h'
    have hlength : runLength isIdentChar (u ++ s) = u.length := by
      split at h <;> exact congrArg Prod.snd h
    have hlength' : runLength isIdentChar (u ++ s') = u.length := by
      split at h' <;> exact congrArg Prod.snd h'
    rw [hlength, List.take_left] at h
    rw [hlength', List.take_left] at h'
    exact congrArg Prod.fst (h.symm.trans h')

section

variable {q : Bool} {p p' : Option Char} {o o' n : Nat} {c : Char} {cs u s s' : List Char} {k k' : TokenKind}

theorem numberLength_fst (c : Char) (cs : List Char) :
    (numberLength c cs).1 = .integer ∨ (numberLength c cs).1 = .float := by
  unfold numberLength
  dsimp only
  repeat' split
  all_goals simp

theorem isIdentStart_of_measure (h : measure q p o c cs = .ok (.token .qualifiedConId, n)) :
    isIdentStart c ∧ Text.isDigit c = false := by
  rw [← measured_iff] at h
  generalize hk : LexemeKind.token .qualifiedConId = k at h
  cases h with
  | identifier hc hdigit => exact ⟨hc, hdigit⟩
  | number =>
    have hnumber := numberLength_fst c cs
    rw [← LexemeKind.token.inj hk] at hnumber
    rcases hnumber with h | h <;> cases h
  | symbol =>
    unfold symbolLength at hk
    dsimp only at hk
    repeat' split at hk
    all_goals cases hk
  | _ => cases hk

theorem measure_tick : measure q p o '\'' cs = match charLength cs with
    | some n => .ok (.token .char, n)
    | none => .ok (.token .tick, if cs.head? = some '\'' then 1 else 0) := rfl

theorem char_or_tick_of_measure (h : measure q p o '\'' cs = .ok (.token k, n)) :
    k = .char ∧ 2 ≤ n ∨ k = .tick ∧ n ≤ 1 := by
  rw [measure_tick] at h
  split at h
  · next hchar =>
    cases h
    exact .inl ⟨rfl, two_le_charLength hchar⟩
  · cases h
    refine .inr ⟨rfl, ?_⟩
    split <;> omega

theorem measure_identifier (hc : isIdentStart c) (hdigit : Text.isDigit c = false) :
    measure q p o c cs = .ok (.token (identifierLength c cs).1, (identifierLength c cs).2) :=
  measured_iff.1 (.identifier hc hdigit)

/--
Tokens with the same characters have the same kind.
-/
theorem measure_unique (h : measure q p o c (u ++ s) = .ok (.token k, u.length))
    (h' : measure q p' o' c (u ++ s') = .ok (.token k', u.length)) : k = k' := by
  by_cases hquote : c = '\''
  · subst hquote
    rcases char_or_tick_of_measure h with ⟨rfl, hn⟩ | ⟨rfl, hn⟩ <;>
      rcases char_or_tick_of_measure h' with ⟨rfl, hn'⟩ | ⟨rfl, hn'⟩ <;> first | rfl | omega
  by_cases hident : isIdentStart c ∧ Text.isDigit c = false
  · rw [measure_identifier hident.1 hident.2, Except.ok.injEq, Prod.mk.injEq, LexemeKind.token.injEq] at h h'
    exact identifierLength_unique (Prod.ext h.1 h.2) (Prod.ext h'.1 h'.2)
  · have hcut {p : Option Char} {o : Nat} {s : List Char} {k : TokenKind}
        (h : measure q p o c (u ++ s) = .ok (.token k, u.length)) :
        measure q (some ' ') 0 c u = .ok (.token k, u.length) := by
      have htick : k ≠ .tick := by
        rintro rfl
        exact hquote (tick_of_measure h).1
      have hdot : k ≠ .qualifiedConId := by
        rintro rfl
        exact hident (isIdentStart_of_measure h)
      have := @measure_cut q p (some ' ') o 0 c u [] s [] k h htick (by simp [startsLine])
        (fun hk => absurd hk hdot) nofun soft_nil
      rwa [List.append_nil, List.append_nil] at this
    cases (hcut h).symm.trans (hcut h')
    rfl

theorem exists_measure_of_mem {text : List Char} {ls : List Lexeme} (h : ofText q text = .ok ls) {l : Lexeme}
    (hl : l ∈ ls) (hk : l.kind = .token k) :
    ∃ p c u s, l.text.toList = c :: u ∧ measure q p 0 c (u ++ s) = .ok (.token k, u.length) := by
  obtain ⟨marks, others, p, start, cs, rfl, hmarks, hscan⟩ := exists_scan_of_ofText h
  rcases List.mem_append.1 hl with hl | hl
  · obtain ⟨k', hk'⟩ := hmarks l hl
    cases hk.symm.trans hk'
  · obtain ⟨before, after, rfl⟩ := List.append_of_mem hl
    have hspell := spell_of_scan hscan
    rw [List.map_append, List.map_cons] at hspell
    obtain ⟨p, c, u, htext, hmeasure, -⟩ := spell_split hspell
    exact ⟨p, c, u, _, htext, hk ▸ hmeasure⟩

end

end Lexeme

namespace TokenStream

/--
A token is what is read where it begins.
-/
theorem exists_measure {q : Bool} {text : List Char} {stream : TokenStream} (h : ofTextWith q text = .ok stream) {t : Token}
    (ht : t ∈ stream.tokens) : ∃ p c u s, t.text.toList = c :: u
      ∧ Lexeme.measure q p 0 c (u ++ s) = .ok (.token t.kind, u.length) := by
  obtain ⟨ls, hls, htokens, heof⟩ := ofTextWith_eq h
  refine @Lexeme.exists_measure_of_mem q t.kind text ls hls t.lexeme ?_ rfl
  have hlexemes : stream.lexemes = ls := by
    rw [lexemes, htokens, heof, Token.lexemes_attach, Token.groupLexemes_eq]
  exact hlexemes ▸ mem_lexemes ht

/--
Tokens of two texts that are spelled with the same characters are of the same kind.
-/
theorem spelled_eq_of_text {q : Bool} {text text' : List Char} {stream stream' : TokenStream}
    (h : ofTextWith q text = .ok stream) (h' : ofTextWith q text' = .ok stream') {t t' : Token} (ht : t ∈ stream.tokens)
    (ht' : t' ∈ stream'.tokens) (htext : t'.text = t.text) : t'.spelled = t.spelled := by
  obtain ⟨p, c, u, s, hcs, hmeasured⟩ := exists_measure h ht
  obtain ⟨p', c', u', s', hcs', hmeasured'⟩ := exists_measure h' ht'
  rw [htext, hcs] at hcs'
  obtain ⟨rfl, rfl⟩ := List.cons.inj hcs'
  rw [Token.spelled, Token.spelled, htext, Lexeme.measure_unique hmeasured' hmeasured]

theorem map_spelled_of_text {q : Bool} {text text' : List Char} {stream stream' : TokenStream}
    (h : ofTextWith q text = .ok stream) (h' : ofTextWith q text' = .ok stream')
    (htexts : stream'.tokens.map (·.text) = stream.tokens.map (·.text)) :
    stream'.tokens.map Token.spelled = stream.tokens.map Token.spelled := by
  have hlength : stream'.tokens.length = stream.tokens.length := by
    simpa only [List.length_map] using congrArg List.length htexts
  refine List.ext_getElem (by rw [List.length_map, List.length_map, hlength]) fun n hn hn' => ?_
  rw [List.length_map] at hn hn'
  rw [List.getElem_map, List.getElem_map]
  refine spelled_eq_of_text h h' (List.getElem_mem hn') (List.getElem_mem hn) ?_
  have htext := List.getElem_of_eq htexts (by rwa [List.length_map])
  rwa [List.getElem_map, List.getElem_map] at htext

end TokenStream

end HaskellStyle
