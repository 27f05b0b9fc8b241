import HaskellStyle.Proofs.Fault
import HaskellStyle.Proofs.Token.Soft

/-!
This module contains lexemes that are closed by a mark of their own: strings, characters, block comments,
pragmas and quasi-quotes. Whether and where they end does not depend on what stands behind the mark.
-/

namespace HaskellStyle

namespace Lexeme

theorem isPrefixOf_append {part v : List Char} (h : part.length ≤ v.length) (s : List Char) :
    part.isPrefixOf (v ++ s) = part.isPrefixOf v := by
  rw [Bool.eq_iff_iff, List.isPrefixOf_iff_prefix, List.isPrefixOf_iff_prefix]
  constructor
  · intro hpart
    exact List.prefix_of_prefix_length_le hpart (List.prefix_append v s) h
  · exact fun hpart => hpart.trans (List.prefix_append v s)

/--
What is found in a text is found there whatever stands behind it.
-/
theorem find_append {part v s : List Char} {n : Nat} (h : find part (v ++ s) = some n)
    (hn : n + part.length ≤ v.length) (y : List Char) : find part (v ++ y) = some n := by
  induction v generalizing n with
  | nil =>
    have hpart : part = [] := List.length_eq_zero_iff.1 (by simp only [List.length_nil] at hn; omega)
    have hzero : n = 0 := by simp only [List.length_nil] at hn; omega
    subst hpart hzero
    cases y <;> rfl
  | cons c v ih =>
    have hlength : part.length ≤ (c :: v).length := by omega
    simp only [List.cons_append, find] at h ⊢
    rw [← List.cons_append, isPrefixOf_append hlength] at h ⊢
    split
    · next hpart => rwa [if_pos hpart] at h
    · next hpart =>
      rw [if_neg hpart, Option.map_eq_some_iff] at h
      obtain ⟨m, hm, rfl⟩ := h
      rw [ih hm (by simp only [List.length_cons] at hn; omega)]
      rfl

/--
States that differ in the place of their backslash at most.
-/
inductive StringState.Same : StringState → StringState → Prop where
  | plain : Same .plain .plain
  | escape (b b' : Nat) : Same (.escape b) (.escape b')
  | gap (b b' : Nat) : Same (.gap b) (.gap b')

/--
The character of a text before the place `n` is `mark`.
-/
def EndsIn (mark : Char) (cs : List Char) (n : Nat) : Prop :=
  ∃ before after, cs = before ++ mark :: after ∧ n = before.length + 1

theorem EndsIn.cons {mark : Char} {cs : List Char} {n : Nat} (h : EndsIn mark cs n) (c : Char) :
    EndsIn mark (c :: cs) (n + 1) := by
  obtain ⟨before, after, rfl, rfl⟩ := h
  exact ⟨c :: before, after, rfl, rfl⟩

theorem EndsIn.append {mark : Char} {cs : List Char} {n : Nat} (h : EndsIn mark cs n) (before : List Char) :
    EndsIn mark (before ++ cs) (before.length + n) := by
  obtain ⟨inner, after, rfl, rfl⟩ := h
  refine ⟨before ++ inner, after, by rw [List.append_assoc], ?_⟩
  rw [List.length_append]
  omega

theorem endsIn_of_head? {mark : Char} {cs : List Char} (h : cs.head? = some mark) : EndsIn mark cs 1 := by
  obtain ⟨after, rfl⟩ := List.head?_eq_some_iff.1 h
  exact ⟨[], after, rfl, rfl⟩

theorem EndsIn.pos {mark : Char} {cs : List Char} {n : Nat} (h : EndsIn mark cs n) : 0 < n := by
  obtain ⟨before, after, -, rfl⟩ := h
  exact Nat.succ_pos _

theorem EndsIn.le {mark : Char} {cs : List Char} {n : Nat} (h : EndsIn mark cs n) : n ≤ cs.length := by
  obtain ⟨before, after, rfl, rfl⟩ := h
  rw [List.length_append, List.length_cons]
  omega

theorem EndsIn.of_drop {mark : Char} {cs : List Char} {k n : Nat} (h : EndsIn mark (cs.drop k) n) :
    EndsIn mark cs (k + n) := by
  rcases Nat.le_total k cs.length with hk | hk
  · have happend := h.append (cs.take k)
    rwa [List.take_append_drop, List.length_take, Nat.min_eq_left hk] at happend
  · rw [List.drop_eq_nil_of_le hk] at h
    exact absurd h.pos (Nat.not_lt.2 h.le)

theorem EndsIn.getLast? {mark : Char} {cs : List Char} {n : Nat} (h : EndsIn mark cs n) :
    (cs.take n).getLast? = some mark := by
  obtain ⟨before, after, rfl, rfl⟩ := h
  rw [List.append_cons, List.take_left' (by simp)]
  exact List.getLast?_concat

/--
A string literal ends in a quote.
-/
theorem endsIn_of_stringLength {cs : List Char} {start offset n : Nat} {state : StringState}
    (h : stringLength start offset state cs = .ok n) : EndsIn '"' cs n := by
  induction cs generalizing offset n state with
  | nil => cases state <;> cases h
  | cons c cs ih =>
    have hstep {state : StringState}
        (h : (stringLength start (offset + 1) state cs).map (· + 1) = .ok n) : EndsIn '"' (c :: cs) n := by
      obtain ⟨m, hm, rfl⟩ := map_eq_ok h
      exact (ih hm).cons c
    cases state with
    | plain =>
      simp only [stringLength] at h
      split at h
      · next hc =>
        cases h
        exact ⟨[], cs, by rw [hc]; rfl, rfl⟩
      · split at h
        · cases h
        · exact hstep h
    | escape b => exact hstep h
    | gap b =>
      simp only [stringLength] at h
      split at h
      · exact hstep h
      · split at h
        · exact hstep h
        · cases h

/--
A string literal that ends before the text behind `v` does so whatever stands there, and wherever it begins.
-/
theorem stringLength_append {v s : List Char} {start offset n : Nat} {state : StringState}
    (h : stringLength start offset state (v ++ s) = .ok n) (hn : n ≤ v.length) (y : List Char)
    (start' offset' : Nat) {state' : StringState} (hstate : state.Same state') :
    stringLength start' offset' state' (v ++ y) = .ok n := by
  induction v generalizing offset offset' n state state' with
  | nil =>
    have hpos := (endsIn_of_stringLength h).pos
    simp only [List.length_nil] at hn
    omega
  | cons c v ih =>
    simp only [List.length_cons] at hn
    have hstep {state state' : StringState} {m : Nat}
        (hm : stringLength start (offset + 1) state (v ++ s) = .ok m) (hle : m ≤ v.length)
        (hstate : state.Same state') :
        (stringLength start' (offset' + 1) state' (v ++ y)).map (· + 1) = .ok (m + 1) := by
      rw [ih hm hle _ hstate]
      rfl
    cases hstate with
    | plain =>
      simp only [List.cons_append, stringLength] at h ⊢
      split
      · next hc => rwa [if_pos hc] at h
      · next hc =>
        rw [if_neg hc] at h
        split
        · next hnl =>
          rw [if_pos hnl] at h
          cases h
        · next hnl =>
          rw [if_neg hnl] at h
          obtain ⟨m, hm, rfl⟩ := map_eq_ok h
          refine hstep hm (by omega) ?_
          split
          · exact .escape _ _
          · exact .plain
    | escape b b' =>
      simp only [List.cons_append, stringLength] at h ⊢
      obtain ⟨m, hm, rfl⟩ := map_eq_ok h
      refine hstep hm (by omega) ?_
      split
      · exact .gap _ _
      · exact .plain
    | gap b b' =>
      simp only [List.cons_append, stringLength] at h ⊢
      split
      · next hc =>
        rw [if_pos hc] at h
        obtain ⟨m, hm, rfl⟩ := map_eq_ok h
        exact hstep hm (by omega) (.gap _ _)
      · next hc =>
        rw [if_neg hc] at h
        split
        · next hback =>
          rw [if_pos hback] at h
          obtain ⟨m, hm, rfl⟩ := map_eq_ok h
          exact hstep hm (by omega) .plain
        · next hback =>
          rw [if_neg hback] at h
          cases h

theorem blockCommentLength_other {c d : Char} (hopen : ¬(c = '\x7b' ∧ d = '-'))
    (hclose : ¬(c = '-' ∧ d = '\x7d')) (depth : Nat) (cs : List Char) :
    blockCommentLength depth (c :: d :: cs) = (blockCommentLength depth (d :: cs)).map (· + 1) := by
  conv => lhs; unfold blockCommentLength
  split
  · next heq => cases heq
  · next heq =>
    cases heq
    exact absurd ⟨rfl, rfl⟩ hopen
  · next heq =>
    cases heq
    exact absurd ⟨rfl, rfl⟩ hclose
  · next heq =>
    cases heq
    rfl

theorem two_le_blockCommentLength {cs : List Char} {depth n : Nat}
    (h : blockCommentLength depth cs = some n) : 2 ≤ n := by
  fun_induction blockCommentLength depth cs generalizing n with
  | case1 => cases h
  | case2 depth cs ih =>
    obtain ⟨m, hm, rfl⟩ := Option.map_eq_some_iff.1 h
    omega
  | case3 cs =>
    cases h
    exact Nat.le_refl 2
  | case4 cs depth ih =>
    obtain ⟨m, hm, rfl⟩ := Option.map_eq_some_iff.1 h
    omega
  | case5 depth c cs hopen hclose ih =>
    obtain ⟨m, hm, rfl⟩ := Option.map_eq_some_iff.1 h
    have := ih hm
    omega

theorem endsIn_of_blockCommentLength {cs : List Char} {depth n : Nat}
    (h : blockCommentLength depth cs = some n) : EndsIn '\x7d' cs n := by
  fun_induction blockCommentLength depth cs generalizing n with
  | case1 => cases h
  | case2 depth cs ih =>
    obtain ⟨m, hm, rfl⟩ := Option.map_eq_some_iff.1 h
    exact ((ih hm).cons _).cons _
  | case3 cs =>
    cases h
    exact ⟨['-'], cs, rfl, rfl⟩
  | case4 cs depth ih =>
    obtain ⟨m, hm, rfl⟩ := Option.map_eq_some_iff.1 h
    exact ((ih hm).cons _).cons _
  | case5 depth c cs hopen hclose ih =>
    obtain ⟨m, hm, rfl⟩ := Option.map_eq_some_iff.1 h
    exact (ih hm).cons _

/--
A block comment that ends before the text behind `v` does so whatever stands there.
-/
theorem blockCommentLength_append {v s : List Char} {depth n : Nat}
    (h : blockCommentLength depth (v ++ s) = some n) (hn : n ≤ v.length) (y : List Char) :
    blockCommentLength depth (v ++ y) = some n := by
  have htwo := two_le_blockCommentLength h
  match v with
  | [] => exact absurd hn (by simp only [List.length_nil]; omega)
  | [c] => exact absurd hn (by simp only [List.length_singleton]; omega)
  | c :: d :: v =>
    simp only [List.length_cons] at hn
    by_cases hopen : c = '\x7b' ∧ d = '-'
    · obtain ⟨rfl, rfl⟩ := hopen
      simp only [List.cons_append, blockCommentLength] at h ⊢
      obtain ⟨m, hm, rfl⟩ := Option.map_eq_some_iff.1 h
      rw [blockCommentLength_append hm (by omega) y]
      rfl
    · by_cases hclose : c = '-' ∧ d = '\x7d'
      · obtain ⟨rfl, rfl⟩ := hclose
        cases depth with
        | zero => exact h
        | succ depth =>
          simp only [List.cons_append, blockCommentLength] at h ⊢
          obtain ⟨m, hm, rfl⟩ := Option.map_eq_some_iff.1 h
          rw [blockCommentLength_append hm (by omega) y]
          rfl
      · simp only [List.cons_append, blockCommentLength_other hopen hclose] at h ⊢
        obtain ⟨m, hm, rfl⟩ := Option.map_eq_some_iff.1 h
        rw [← List.cons_append] at hm ⊢
        rw [blockCommentLength_append hm (by simp only [List.length_cons]; omega) y]
        rfl
termination_by v.length

/--
The length of a run of digits, if there is one.
-/
def digitRun (p : Char → Bool) (cs : List Char) : List Nat :=
  if runLength p cs = 0 then [] else [runLength p cs]

/--
The escape of a control character.
-/
def controlEscape : List Char → List Nat
  | '^' :: c :: _ => if c = '\n' then [] else [2]
  | _ => []

/--
The escape by the name of a character.
-/
def namedEscape (cs : List Char) : List Nat :=
  if runLength Char.isUpper cs = 2 ∨ runLength Char.isUpper cs = 3 then [runLength Char.isUpper cs] else []

/--
The escape by the number of a character.
-/
def numberedEscape : List Char → List Nat
  | 'x' :: cs => (digitRun isHexDigit cs).map (· + 1)
  | 'o' :: cs => (digitRun isOctDigit cs).map (· + 1)
  | cs => digitRun Char.isDigit cs

/--
The escape of a single character.
-/
def singleEscape : List Char → List Nat
  | c :: _ => if c = '\n' then [] else [1]
  | [] => []

theorem escapeLengths_eq (cs : List Char) :
    escapeLengths cs = controlEscape cs ++ namedEscape cs ++ numberedEscape cs ++ singleEscape cs := rfl

theorem digitRun_append {p : Char → Bool} {v : List Char} (h : ∃ c ∈ v, p c = false) (s : List Char) :
    digitRun p (v ++ s) = digitRun p v := by
  unfold digitRun
  rw [runLength_append h]

theorem numberedEscape_of_ne {c : Char} (hx : c ≠ 'x') (ho : c ≠ 'o') (cs : List Char) :
    numberedEscape (c :: cs) = digitRun Char.isDigit (c :: cs) := by
  unfold numberedEscape
  split
  · next heq => exact absurd (List.cons.inj heq).1 hx
  · next heq => exact absurd (List.cons.inj heq).1 ho
  · rfl

/--
The ways to spell an escape do not depend on what stands behind the closing quote.
-/
theorem escapeLengths_append {v : List Char} (h : '\'' ∈ v) (s : List Char) :
    escapeLengths (v ++ s) = escapeLengths v := by
  have hcontrol : controlEscape (v ++ s) = controlEscape v := by
    match v with
    | [] => cases h
    | [c] =>
      cases List.mem_singleton.1 h
      rfl
    | c :: d :: v =>
      unfold controlEscape
      by_cases hc : c = '^'
      · subst hc
        rfl
      · split
        · next heq => exact absurd (List.cons.inj heq).1 hc
        · split
          · next heq => exact absurd (List.cons.inj heq).1 hc
          · rfl
  have hnamed : namedEscape (v ++ s) = namedEscape v := by
    unfold namedEscape
    rw [runLength_append ⟨'\'', h, by decide⟩]
  have hnumbered : numberedEscape (v ++ s) = numberedEscape v := by
    cases v with
    | nil => cases h
    | cons c v =>
      by_cases hx : c = 'x'
      · subst hx
        have hv : '\'' ∈ v := (List.mem_cons.1 h).resolve_left (by decide)
        show (digitRun isHexDigit (v ++ s)).map (· + 1) = (digitRun isHexDigit v).map (· + 1)
        rw [digitRun_append ⟨'\'', hv, by decide⟩]
      · by_cases ho : c = 'o'
        · subst ho
          have hv : '\'' ∈ v := (List.mem_cons.1 h).resolve_left (by decide)
          show (digitRun isOctDigit (v ++ s)).map (· + 1) = (digitRun isOctDigit v).map (· + 1)
          rw [digitRun_append ⟨'\'', hv, by decide⟩]
        · rw [List.cons_append, numberedEscape_of_ne hx ho, numberedEscape_of_ne hx ho,
            ← List.cons_append, digitRun_append ⟨'\'', h, by decide⟩]
  have hsingle : singleEscape (v ++ s) = singleEscape v := by
    cases v with
    | nil => cases h
    | cons c v => rfl
  rw [escapeLengths_eq, escapeLengths_eq, hcontrol, hnamed, hnumbered, hsingle]

theorem mem_digitRun {p : Char → Bool} {cs : List Char} {n : Nat} (h : n ∈ digitRun p cs) :
    n ≤ cs.length := by
  unfold digitRun at h
  split at h
  · cases h
  · rw [List.mem_singleton.1 h]
    exact runLength_le p cs

theorem le_length_of_mem_escapeLengths {cs : List Char} {n : Nat} (h : n ∈ escapeLengths cs) :
    n ≤ cs.length := by
  rw [escapeLengths_eq, List.mem_append, List.mem_append, List.mem_append] at h
  rcases h with ((h | h) | h) | h
  · unfold controlEscape at h
    split at h
    · split at h
      · cases h
      · rw [List.mem_singleton.1 h]
        simp only [List.length_cons]
        omega
    · cases h
  · unfold namedEscape at h
    split at h
    · rw [List.mem_singleton.1 h]
      exact runLength_le _ cs
    · cases h
  · unfold numberedEscape at h
    split at h
    · obtain ⟨m, hm, rfl⟩ := List.mem_map.1 h
      simpa using mem_digitRun hm
    · obtain ⟨m, hm, rfl⟩ := List.mem_map.1 h
      simpa using mem_digitRun hm
    · exact mem_digitRun h
  · unfold singleEscape at h
    split at h
    · split at h
      · cases h
      · rw [List.mem_singleton.1 h]
        simp only [List.length_cons]
        omega
    · cases h

theorem charLength_escape (cs : List Char) :
    charLength ('\\' :: cs)
      = ((escapeLengths cs).find? fun n => (cs.drop n).head? = some '\'').map (· + 2) := rfl

theorem charLength_plain {c d : Char} (hc : c ≠ '\\') (cs : List Char) :
    charLength (c :: d :: cs) = if d = '\'' ∧ c ≠ '\'' ∧ c ≠ '\n' then some 2 else none := by
  unfold charLength
  split
  · next heq => exact absurd (List.cons.inj heq).1 hc
  · next heq =>
    cases heq
    split
    · next hor => rw [if_neg (by grind)]
    · next hor => rw [if_pos (by grind)]
  · next hne =>
    rw [if_neg]
    rintro ⟨rfl, -⟩
    exact hne c cs rfl

theorem endsIn_of_charLength {cs : List Char} {n : Nat} (h : charLength cs = some n) :
    EndsIn '\'' cs n := by
  unfold charLength at h
  split at h
  · next cs =>
    obtain ⟨m, hm, rfl⟩ := Option.map_eq_some_iff.1 h
    have hquote := List.find?_some hm
    rw [decide_eq_true_eq] at hquote
    obtain ⟨after, hafter⟩ := List.head?_eq_some_iff.1 hquote
    refine EndsIn.cons ⟨cs.take m, after, ?_, ?_⟩ _
    · rw [← hafter, List.take_append_drop]
    · rw [List.length_take, Nat.min_eq_left]
      exact le_length_of_mem_escapeLengths (List.mem_of_find?_eq_some hm)
  · next c cs hne =>
    split at h <;> cases h
    exact ⟨[c], cs, rfl, rfl⟩
  · cases h

theorem two_le_charLength {cs : List Char} {n : Nat} (h : charLength cs = some n) : 2 ≤ n := by
  unfold charLength at h
  split at h
  · obtain ⟨m, -, rfl⟩ := Option.map_eq_some_iff.1 h
    omega
  · split at h <;> cases h
    exact Nat.le_refl 2
  · cases h

/--
A character literal that ends before the text behind `v` does so in front of anything but a quote.
-/
theorem charLength_append_of_head? {v s y : List Char} {n : Nat} (h : charLength (v ++ s) = some n)
    (hn : n ≤ v.length) (hy : y.head? ≠ some '\'') : charLength (v ++ y) = some n := by
  have htwo := two_le_charLength h
  match v with
  | [] => exact absurd hn (by simp only [List.length_nil]; omega)
  | [c] => exact absurd hn (by simp only [List.length_singleton]; omega)
  | c :: d :: v =>
    by_cases hc : c = '\\'
    · subst hc
      rw [List.cons_append, charLength_escape, Option.map_eq_some_iff] at h ⊢
      obtain ⟨m, hm, rfl⟩ := h
      refine ⟨m, ?_, rfl⟩
      rw [List.length_cons] at hn
      generalize d :: v = v at *
      obtain ⟨hquote, before, after, heq, hbefore⟩ := List.find?_eq_some_iff_append.1 hm
      rw [decide_eq_true_eq, head?_drop_append (by omega)] at hquote
      have hmem : '\'' ∈ v := List.mem_of_mem_drop (List.mem_of_head? hquote)
      rw [escapeLengths_append hmem] at heq
      rw [escapeLengths_append hmem]
      refine List.find?_eq_some_iff_append.2 ⟨?_, before, after, heq, ?_⟩
      · rw [decide_eq_true_eq, head?_drop_append (by omega), hquote]
      · intro k hk
        have hle : k ≤ v.length := by
          refine le_length_of_mem_escapeLengths ?_
          rw [heq]
          exact List.mem_append_left _ hk
        specialize hbefore k hk
        rcases Nat.lt_or_ge k v.length with hlt | hge
        · rwa [head?_drop_append hlt] at hbefore ⊢
        · have hend : (v ++ y).drop k = y := by rw [Nat.le_antisymm hle hge, List.drop_left]
          rw [hend]
          simpa using hy
    · simp only [List.cons_append, charLength_plain hc] at h ⊢
      exact h

/--
A character literal that ends before the text behind `v` does so in front of anything soft.
-/
theorem charLength_append {v s y : List Char} {n : Nat} (h : charLength (v ++ s) = some n)
    (hn : n ≤ v.length) (hy : Soft y) : charLength (v ++ y) = some n :=
  charLength_append_of_head? h hn (not_mem_head?_of_soft hy (by decide))

/--
A character of the name of a quoter.
-/
def isQuoterChar (c : Char) : Bool :=
  Text.isWordChar c || c == '\''

theorem isHard_isQuoterChar : IsHard isQuoterChar := isHard_of_softChars (by decide +kernel)

theorem quoterLength_cons (c : Char) (cs : List Char) :
    quoterLength (c :: cs) =
      let n := runLength isQuoterChar cs
      if c.isUpper then
        if (cs.drop n).head? = some '.' then (quoterLength (cs.drop (n + 1))).map (· + (n + 2)) else none
      else if c.isLower ∨ c = '_' then
        if (cs.drop n).head? = some '|' then some (n + 2) else none
      else
        none := by
  rw [quoterLength]
  rfl

theorem quoterLength_le_of_soft {v y : List Char} {n : Nat} (hy : Soft y)
    (h : quoterLength (v ++ y) = some n) : n ≤ v.length := by
  match v with
  | [] =>
    cases y with
    | nil =>
      rw [List.nil_append, quoterLength] at h
      cases h
    | cons c y =>
      have hnone : softChars.all fun c => !c.isUpper && !c.isLower && c ≠ '_' := by decide +kernel
      have hc := List.all_eq_true.1 hnone c (mem_softChars (hy c rfl))
      simp only [Bool.and_eq_true, Bool.not_eq_true', decide_eq_true_eq] at hc
      obtain ⟨⟨hupper, hlower⟩, hunder⟩ := hc
      simp [quoterLength_cons, hupper, hlower, hunder] at h
  | c :: v =>
    rw [List.cons_append, quoterLength_cons] at h
    dsimp only at h
    have hle : runLength isQuoterChar (v ++ y) ≤ v.length := by
      unfold runLength
      rw [takeWhile_of_soft isHard_isQuoterChar hy]
      exact (List.takeWhile_prefix _).length_le
    generalize runLength isQuoterChar (v ++ y) = r at h hle
    -- The mark behind the name is hard, so it stands in `v`.
    have hlt {d : Char} (hd : isSoft d = false) (hhead : ((v ++ y).drop r).head? = some d) :
        r < v.length := by
      rcases Nat.lt_or_eq_of_le hle with hlt | rfl
      · exact hlt
      · rw [List.drop_left] at hhead
        exact absurd hhead (not_mem_head?_of_soft hy hd)
    split at h
    · split at h
      · next hhead =>
        have hr := hlt (by decide) hhead
        obtain ⟨m, hm, rfl⟩ := Option.map_eq_some_iff.1 h
        rw [List.drop_append_of_le_length hr] at hm
        have := quoterLength_le_of_soft hy hm
        rw [List.length_drop] at this
        rw [List.length_cons]
        omega
      · cases h
    · split at h
      · split at h
        · next hhead =>
          have hr := hlt (by decide) hhead
          cases h
          rw [List.length_cons]
          omega
        · cases h
      · cases h
termination_by v.length
decreasing_by simp only [List.length_drop, List.length_cons]; omega

theorem two_le_quoterLength {cs : List Char} {n : Nat} (h : quoterLength cs = some n) : 2 ≤ n := by
  cases cs with
  | nil =>
    rw [quoterLength] at h
    cases h
  | cons c cs =>
    rw [quoterLength_cons] at h
    dsimp only at h
    split at h
    · split at h
      · obtain ⟨m, -, rfl⟩ := Option.map_eq_some_iff.1 h
        omega
      · cases h
    · split at h
      · split at h
        · cases h
          omega
        · cases h
      · cases h

/--
A quoter whose bar stands before the text behind `v` does so whatever stands there.
-/
theorem quoterLength_append {v s : List Char} {n : Nat} (h : quoterLength (v ++ s) = some n)
    (hn : n ≤ v.length) (y : List Char) : quoterLength (v ++ y) = some n := by
  have htwo := two_le_quoterLength h
  match v with
  | [] => exact absurd hn (by simp only [List.length_nil]; omega)
  | c :: v =>
    rw [List.cons_append, quoterLength_cons] at h ⊢
    dsimp only at h ⊢
    rw [List.length_cons] at hn
    split at h
    · next hupper =>
      rw [if_pos hupper]
      split at h
      · next hhead =>
        obtain ⟨m, hm, rfl⟩ := Option.map_eq_some_iff.1 h
        have hmark := two_le_quoterLength hm
        have hrun : runLength isQuoterChar (v ++ s) < v.length := by omega
        rw [runLength_of_lt hrun y]
        generalize runLength isQuoterChar (v ++ s) = r at *
        rw [head?_drop_append (by omega)] at hhead
        rw [List.drop_append_of_le_length (by omega)] at hm
        rw [head?_drop_append (by omega), if_pos hhead, List.drop_append_of_le_length (by omega),
          quoterLength_append hm (by rw [List.length_drop]; omega) y]
        rfl
      · cases h
    · next hupper =>
      rw [if_neg hupper]
      split at h
      · next hlower =>
        rw [if_pos hlower]
        split at h
        · next hhead =>
          cases h
          have hrun : runLength isQuoterChar (v ++ s) < v.length := by omega
          rw [runLength_of_lt hrun y]
          generalize runLength isQuoterChar (v ++ s) = r at *
          rw [head?_drop_append (by omega)] at hhead
          rw [head?_drop_append (by omega), if_pos hhead]
        · cases h
      · cases h
termination_by v.length
decreasing_by simp only [List.length_drop, List.length_cons]; omega

theorem find_eq_some {part cs : List Char} {n : Nat} (h : find part cs = some n) :
    ∃ before after, cs = before ++ (part ++ after) ∧ before.length = n := by
  induction cs generalizing n with
  | nil =>
    unfold find at h
    split at h
    · next hempty =>
      cases h
      exact ⟨[], [], by rw [List.isEmpty_iff.1 hempty]; rfl, rfl⟩
    · cases h
  | cons c cs ih =>
    unfold find at h
    split at h
    · next hpart =>
      cases h
      obtain ⟨after, hafter⟩ := List.isPrefixOf_iff_prefix.1 hpart
      exact ⟨[], after, hafter.symm, rfl⟩
    · obtain ⟨m, hm, rfl⟩ := Option.map_eq_some_iff.1 h
      obtain ⟨before, after, rfl, rfl⟩ := ih hm
      exact ⟨c :: before, after, rfl, rfl⟩

theorem endsIn_of_find (part : List Char) {mark : Char} {cs : List Char} {n : Nat}
    (h : find (part ++ [mark]) cs = some n) : EndsIn mark cs (n + part.length + 1) := by
  obtain ⟨before, after, rfl, rfl⟩ := find_eq_some h
  exact ⟨before ++ part, after, by simp, by rw [List.length_append]⟩

end Lexeme

end HaskellStyle
