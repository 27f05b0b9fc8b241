import HaskellStyle.Token.Lexeme

/-!
This module contains the soft characters, blanks and brackets, which end names, numbers and operators. A run
of characters and a number that end before a text do so in front of anything soft.
-/

namespace HaskellStyle

namespace Lexeme

/--
A character that no name, number or operator holds.
-/
def isSoft (c : Char) : Bool :=
  Text.isBlank c || isSpecial c

/--
A text that is empty or begins with a blank or a bracket.
-/
def Soft (cs : List Char) : Prop :=
  ∀ c ∈ cs.head?, isSoft c

theorem soft_nil : Soft [] := by
  intro c hc
  cases hc

theorem soft_cons {c : Char} {cs : List Char} (h : isSoft c) : Soft (c :: cs) := by
  intro d hd
  cases hd
  exact h

/--
The blanks and the brackets.
-/
def softChars : List Char :=
  ([9, 10, 11, 12, 13, 28, 29, 30, 31, 32, 0x85, 0xA0, 0x1680, 0x2000, 0x2001, 0x2002, 0x2003, 0x2004,
    0x2005, 0x2006, 0x2007, 0x2008, 0x2009, 0x200A, 0x2028, 0x2029, 0x202F, 0x205F, 0x3000] : List Nat).map
      Char.ofNat ++ "(),;[]\x60\x7b\x7d".toList

theorem mem_softChars {c : Char} (h : isSoft c) : c ∈ softChars := by
  rcases Bool.or_eq_true_iff.1 h with hblank | hspecial
  · refine List.mem_append_left _ (List.mem_map.2 ⟨c.toNat, ?_, Char.ofNat_toNat c⟩)
    unfold Text.isBlank at hblank
    split at hblank
    · simp only [Bool.or_eq_true, Bool.and_eq_true, decide_eq_true_eq] at hblank
      simp only [List.mem_cons, List.not_mem_nil, or_false]
      omega
    · simp only [Text.inRanges, Text.blankRanges, List.any_cons, List.any_nil, Bool.or_eq_true,
        Bool.and_eq_true, decide_eq_true_eq, Bool.or_false] at hblank
      simp only [List.mem_cons, List.not_mem_nil, or_false]
      omega
  · exact List.mem_append_right _ (List.contains_iff_mem.1 hspecial)

theorem head?_of_soft {v s y : List Char} {c : Char} (hc : isSoft c = false) (hy : Soft y)
    (h : (v ++ y).head? = some c) : (v ++ s).head? = some c := by
  cases v with
  | nil =>
    have hsoft := hy c h
    rw [hc] at hsoft
    cases hsoft
  | cons d v => exact h

/--
A class of characters that has nothing soft in it.
-/
def IsHard (p : Char → Bool) : Prop :=
  ∀ c, isSoft c → p c = false

theorem isHard_of_softChars {p : Char → Bool} (h : softChars.all fun c => !p c) : IsHard p :=
  fun c hc => Bool.not_eq_true' (p c) ▸ List.all_eq_true.1 h c (mem_softChars hc)

theorem isHard_isIdentChar : IsHard isIdentChar := isHard_of_softChars (by decide +kernel)

theorem isHard_isSymbol : IsHard Text.isSymbol := isHard_of_softChars (by decide +kernel)

theorem isHard_isDigit : IsHard Char.isDigit := isHard_of_softChars (by decide +kernel)

theorem takeWhile_append_of_head? {p : Char → Bool} {y : List Char} (hy : ∀ c ∈ y.head?, p c = false) (v : List Char) :
    (v ++ y).takeWhile p = v.takeWhile p := by
  induction v with
  | nil =>
    cases y with
    | nil => rfl
    | cons c y => simp [hy c rfl]
  | cons d v ih => rw [List.cons_append, List.takeWhile_cons, List.takeWhile_cons, ih]

theorem takeWhile_of_soft {p : Char → Bool} (hp : IsHard p) {y : List Char} (hy : Soft y) (v : List Char) :
    (v ++ y).takeWhile p = v.takeWhile p :=
  takeWhile_append_of_head? (fun c hc => hp c (hy c hc)) v

/--
A run that ends before the text behind `v` does so in front of anything soft.
-/
theorem runLength_of_soft {p : Char → Bool} (hp : IsHard p) {v s y : List Char} (hy : Soft y)
    (h : runLength p (v ++ s) ≤ v.length) : runLength p (v ++ y) = runLength p (v ++ s) := by
  unfold runLength at h ⊢
  rw [takeWhile_of_soft hp hy]
  rw [List.takeWhile_append] at h ⊢
  split
  · next hall =>
    rw [if_pos hall, List.length_append] at h
    rw [List.length_append]
    omega
  · rfl

theorem not_mem_head?_of_soft {y : List Char} (hy : Soft y) {c : Char} (hc : isSoft c = false) :
    y.head? ≠ some c := by
  intro h
  have hsoft := hy c h
  rw [hc] at hsoft
  cases hsoft

theorem runLength_soft {p : Char → Bool} (hp : IsHard p) {y : List Char} (hy : Soft y) :
    runLength p y = 0 := by
  have h := takeWhile_of_soft hp hy []
  rw [List.nil_append] at h
  rw [runLength, h]
  rfl

theorem runLength_le (p : Char → Bool) (cs : List Char) : runLength p cs ≤ cs.length :=
  (List.takeWhile_prefix p).length_le

/--
A run that a character in `v` ends does not depend on what stands behind `v`.
-/
theorem runLength_append {p : Char → Bool} {v : List Char} (h : ∃ c ∈ v, p c = false) (s : List Char) :
    runLength p (v ++ s) = runLength p v := by
  unfold runLength
  rw [List.takeWhile_append, if_neg]
  intro hall
  obtain ⟨c, hc, hp⟩ := h
  have htake : v.takeWhile p = v := List.IsPrefix.eq_of_length (List.takeWhile_prefix p) hall
  rw [← htake] at hc
  rw [List.all_eq_true.1 List.all_takeWhile c hc] at hp
  cases hp

theorem runLength_of_lt {p : Char → Bool} {v s : List Char} (h : runLength p (v ++ s) < v.length)
    (y : List Char) : runLength p (v ++ y) = runLength p (v ++ s) := by
  unfold runLength at h ⊢
  rw [List.takeWhile_append] at h ⊢
  rw [List.takeWhile_append]
  split at h
  · next hall =>
    rw [List.length_append] at h
    omega
  · next hsome => rw [if_neg hsome, if_neg hsome]

theorem head?_drop_append {v : List Char} {m : Nat} (h : m < v.length) (s : List Char) :
    ((v ++ s).drop m).head? = (v.drop m).head? := by
  rw [List.drop_append_of_le_length (Nat.le_of_lt h), List.head?_append]
  cases hv : (v.drop m).head? with
  | none =>
    rw [List.head?_eq_none_iff, List.drop_eq_nil_iff] at hv
    omega
  | some c => rfl

/--
A number of characters of a text up to a certain one are the same whatever stands behind it.
-/
theorem take_append_eq {v s y : List Char} {n : Nat} (h : n ≤ v.length) :
    (v ++ y).take n = (v ++ s).take n := by
  rw [List.take_append_of_le_length h, List.take_append_of_le_length h]

theorem isHard_or_underscore {p : Char → Bool} (hp : IsHard p) : IsHard fun c => p c || c == '_' := by
  intro c hc
  show (p c || c == '_') = false
  rw [hp c hc, Bool.false_or]
  cases hu : c == '_' with
  | false => rfl
  | true =>
    cases beq_iff_eq.1 hu
    revert hc
    decide

theorem dropEnd_append_of_le {p : Char → Bool} {v u : List Char}
    (h : ((v ++ u).reverse.dropWhile p).length ≤ v.length) :
    (v ++ u).reverse.dropWhile p = v.reverse.dropWhile p := by
  rw [List.reverse_append, List.dropWhile_append] at h ⊢
  split
  · rfl
  · next hne =>
    rw [if_neg hne, List.length_append, List.length_reverse] at h
    have : (u.reverse.dropWhile p).length = 0 := by omega
    rw [List.length_eq_zero_iff] at this
    rw [this] at hne
    exact absurd rfl hne

theorem digitsLength_of_soft {p : Char → Bool} (hp : IsHard p) {v s y : List Char} (hy : Soft y)
    (h : digitsLength p (v ++ s) ≤ v.length) : digitsLength p (v ++ y) = digitsLength p (v ++ s) := by
  unfold digitsLength at h ⊢
  dsimp only at h ⊢
  rw [takeWhile_of_soft (isHard_or_underscore hp) hy]
  rw [List.takeWhile_append] at h ⊢
  split
  · next hall =>
    rw [if_pos hall] at h
    have htake : v.takeWhile (fun c => p c || c == '_') = v :=
      List.IsPrefix.eq_of_length (List.takeWhile_prefix _) hall
    rw [htake, dropEnd_append_of_le h]
  · rfl

/--
The length of a fraction with its dot.
-/
def fractionLength : List Char → Nat
  | '.' :: c :: more => if c.isDigit then runLength (fun c => c.isDigit || c == '_') more + 2 else 0
  | _ => 0

/--
The length of a sign.
-/
def signLength (cs : List Char) : Nat :=
  if cs.head? = some '+' ∨ cs.head? = some '-' then 1 else 0

/--
The length of an exponent with its letter.
-/
def exponentLength : List Char → Nat
  | e :: more =>
    if e = 'e' ∨ e = 'E' then
      let digits := runLength Char.isDigit (more.drop (signLength more))
      if digits = 0 then 0 else digits + signLength more + 1
    else
      0
  | [] => 0

theorem decimalLength_eq (cs : List Char) :
    decimalLength cs =
      let whole := runLength (fun c => c.isDigit || c == '_') cs
      let fraction := fractionLength (cs.drop whole)
      let exponent := exponentLength (cs.drop (whole + fraction))
      (decide (fraction + exponent ≠ 0), whole + fraction + exponent) := by
  rfl

theorem fractionLength_dot (c : Char) (cs : List Char) :
    fractionLength ('.' :: c :: cs)
      = if c.isDigit then runLength (fun c => c.isDigit || c == '_') cs + 2 else 0 := rfl

theorem fractionLength_of_ne {d : Char} (h : d ≠ '.') (cs : List Char) : fractionLength (d :: cs) = 0 := by
  unfold fractionLength
  split
  · next heq => exact absurd (List.cons.inj heq).1 h
  · rfl

theorem fractionLength_of_head {cs : List Char} (h : ∀ c ∈ cs.head?, c.isDigit = false) :
    fractionLength ('.' :: cs) = 0 := by
  unfold fractionLength
  split
  · next c more heq =>
    rw [(List.cons.inj heq).2] at h
    rw [if_neg (by simp [h c rfl])]
  · rfl

theorem fractionLength_of_soft {v s y : List Char} (hy : Soft y)
    (h : fractionLength (v ++ s) ≤ v.length) : fractionLength (v ++ y) = fractionLength (v ++ s) := by
  have hdigit (c : Char) (hc : c ∈ y.head?) : c.isDigit = false := isHard_isDigit c (hy c hc)
  match v with
  | [] =>
    have hzero : fractionLength y = 0 := by
      cases y with
      | nil => rfl
      | cons c y =>
        refine fractionLength_of_ne ?_ y
        rintro rfl
        exact absurd (hy '.' rfl) (by decide)
    exact hzero.trans (Nat.le_zero.1 h).symm
  | d :: v =>
    by_cases hd : d = '.'
    · subst hd
      cases v with
      | nil =>
        rw [List.cons_append, List.nil_append, fractionLength_of_head hdigit]
        refine (Nat.eq_zero_of_not_pos fun hpos => ?_).symm
        cases s with
        | nil => exact absurd hpos (by decide)
        | cons c s =>
          rw [List.cons_append, List.nil_append, fractionLength_dot] at h hpos
          split at h
          · rw [List.length_singleton] at h
            omega
          · next hc =>
            rw [if_neg hc] at hpos
            omega
      | cons c v =>
        simp only [List.cons_append, fractionLength_dot, List.length_cons] at h ⊢
        split
        · next hc =>
          rw [if_pos hc] at h
          have hrun : runLength (fun c => c.isDigit || c == '_') (v ++ s) ≤ v.length := by omega
          rw [runLength_of_soft (isHard_or_underscore isHard_isDigit) hy hrun]
        · rfl
    · rw [List.cons_append, List.cons_append, fractionLength_of_ne hd, fractionLength_of_ne hd]

theorem exponentLength_of_ne {d : Char} (h : ¬(d = 'e' ∨ d = 'E')) (cs : List Char) :
    exponentLength (d :: cs) = 0 := by
  unfold exponentLength
  exact if_neg h

theorem exponentLength_letter {d : Char} (h : d = 'e' ∨ d = 'E') (cs : List Char) :
    exponentLength (d :: cs) =
      let digits := runLength Char.isDigit (cs.drop (signLength cs))
      if digits = 0 then 0 else digits + signLength cs + 1 := by
  unfold exponentLength
  exact if_pos h

theorem exponentLength_of_soft {v s y : List Char} (hy : Soft y)
    (h : exponentLength (v ++ s) ≤ v.length) : exponentLength (v ++ y) = exponentLength (v ++ s) := by
  have hplus : y.head? ≠ some '+' := not_mem_head?_of_soft hy (by decide)
  have hminus : y.head? ≠ some '-' := not_mem_head?_of_soft hy (by decide)
  match v with
  | [] =>
    have hzero : exponentLength y = 0 := by
      cases y with
      | nil => rfl
      | cons c y =>
        refine exponentLength_of_ne ?_ y
        rintro (rfl | rfl) <;> exact absurd (hy _ rfl) (by decide)
    exact hzero.trans (Nat.le_zero.1 h).symm
  | d :: v =>
    by_cases hd : d = 'e' ∨ d = 'E'
    · simp only [List.cons_append, exponentLength_letter hd, List.length_cons] at h ⊢
      cases v with
      | nil =>
        simp only [List.nil_append, List.length_nil] at h ⊢
        have hsign : signLength y = 0 := if_neg (by simp [hplus, hminus])
        rw [hsign, List.drop_zero, runLength_soft isHard_isDigit hy, if_pos rfl]
        split at h
        · next hdigits => rw [if_pos hdigits]
        · omega
      | cons x v =>
        have hsign (r : List Char) : signLength (x :: v ++ r) = signLength [x] := rfl
        rw [hsign] at h
        rw [hsign, hsign]
        have hle : signLength [x] ≤ (x :: v).length := by
          rw [List.length_cons, signLength]
          split <;> omega
        generalize signLength [x] = sign at *
        rw [List.drop_append_of_le_length hle] at h ⊢
        rw [List.drop_append_of_le_length hle]
        have hrun : runLength Char.isDigit ((x :: v).drop sign ++ s) ≤ ((x :: v).drop sign).length := by
          rw [List.length_drop]
          split at h
          · omega
          · simp only [List.length_cons] at h hle ⊢
            omega
        rw [runLength_of_soft isHard_isDigit hy hrun]
    · rw [List.cons_append, List.cons_append, exponentLength_of_ne hd, exponentLength_of_ne hd]

theorem decimalLength_of_soft {v s y : List Char} (hy : Soft y)
    (h : (decimalLength (v ++ s)).2 ≤ v.length) : decimalLength (v ++ y) = decimalLength (v ++ s) := by
  simp only [decimalLength_eq] at h ⊢
  have hwhole : runLength (fun c => c.isDigit || c == '_') (v ++ s) ≤ v.length := by omega
  have heq := runLength_of_soft (isHard_or_underscore isHard_isDigit) hy hwhole
  rw [heq]
  generalize runLength (fun c => c.isDigit || c == '_') (v ++ s) = whole at *
  rw [List.drop_append_of_le_length hwhole] at h ⊢
  rw [List.drop_append_of_le_length hwhole]
  have hfraction : fractionLength (v.drop whole ++ s) ≤ (v.drop whole).length := by
    rw [List.length_drop]
    omega
  rw [fractionLength_of_soft hy hfraction]
  generalize fractionLength (v.drop whole ++ s) = fraction at *
  rw [List.length_drop] at hfraction
  have hboth : whole + fraction ≤ v.length := by omega
  rw [List.drop_append_of_le_length hboth] at h ⊢
  rw [List.drop_append_of_le_length hboth]
  have hexponent : exponentLength (v.drop (whole + fraction) ++ s)
      ≤ (v.drop (whole + fraction)).length := by
    rw [List.length_drop]
    omega
  rw [exponentLength_of_soft hy hexponent]

/--
The digits of the base that a letter behind a zero stands for.
-/
def baseDigits? : Char → Option (Char → Bool)
  | 'x' | 'X' => some isHexDigit
  | 'o' | 'O' => some isOctDigit
  | 'b' | 'B' => some isBinDigit
  | _ => none

theorem isHard_of_baseDigits? {d : Char} {p : Char → Bool} (h : baseDigits? d = some p) : IsHard p := by
  unfold baseDigits? at h
  split at h <;> cases h <;> exact isHard_of_softChars (by decide +kernel)

theorem baseDigits?_of_isSoft {d : Char} (h : isSoft d) : baseDigits? d = none := by
  unfold baseDigits?
  split <;> first | exact absurd h (by decide) | rfl

/--
The kind and the rest of a decimal number.
-/
def decimalNumber (cs : List Char) : TokenKind × Nat :=
  (if (decimalLength cs).1 then .float else .integer, (decimalLength cs).2)

theorem numberLength_based {d : Char} {p : Char → Bool} (hp : baseDigits? d = some p) (cs : List Char) :
    numberLength '0' (d :: cs)
      = if digitsLength p cs = 0 then decimalNumber (d :: cs) else (.integer, digitsLength p cs + 1) := by
  unfold baseDigits? at hp
  split at hp <;> cases hp <;> rfl

theorem numberLength_decimal {c : Char} {cs : List Char} (hc : c.isDigit)
    (h : c = '0' → ∀ d ∈ cs.head?, baseDigits? d = none) : numberLength c cs = decimalNumber cs := by
  unfold numberLength
  simp only [hc, Bool.not_true, Bool.false_eq_true, if_false]
  split
  · next hzero =>
    specialize h hzero
    split <;> first | exact absurd (h _ rfl) (by simp [baseDigits?]) | rfl
  · rfl

theorem decimalNumber_of_soft {v s y : List Char} (hy : Soft y) (h : (decimalNumber (v ++ s)).2 ≤ v.length) :
    decimalNumber (v ++ y) = decimalNumber (v ++ s) := by
  unfold decimalNumber
  rw [decimalLength_of_soft hy h]

theorem numberLength_of_soft {c : Char} {v s y : List Char} (hy : Soft y)
    (h : (numberLength c (v ++ s)).2 ≤ v.length) : numberLength c (v ++ y) = numberLength c (v ++ s) := by
  by_cases hdigit : c.isDigit
  · have hdecimal (hs : c = '0' → ∀ d ∈ (v ++ s).head?, baseDigits? d = none) :
        numberLength c (v ++ y) = numberLength c (v ++ s) := by
      have hy' : c = '0' → ∀ d ∈ (v ++ y).head?, baseDigits? d = none := by
        intro hc d hd
        by_cases hsoft : isSoft d
        · exact baseDigits?_of_isSoft hsoft
        · exact hs hc d (head?_of_soft (by simpa using hsoft) hy hd)
      rw [numberLength_decimal hdigit hs] at h ⊢
      rw [numberLength_decimal hdigit hy', decimalNumber_of_soft hy h]
    by_cases hc : c = '0'
    · subst hc
      cases v with
      | nil =>
        cases s with
        | nil => exact hdecimal fun _ _ h => by cases h
        | cons d s =>
          cases hbase : baseDigits? d with
          | none =>
            refine hdecimal fun _ e he => ?_
            cases he
            exact hbase
          | some p =>
            -- The letter begins a word of its own, so the zero stands alone.
            have hnone : ∀ d ∈ ([] ++ y).head?, baseDigits? d = none := fun d hd =>
              baseDigits?_of_isSoft (hy d hd)
            rw [List.nil_append (d :: s), numberLength_based hbase] at h ⊢
            rw [numberLength_decimal hdigit fun _ => hnone]
            split at h
            · next hzero =>
              rw [if_pos hzero]
              exact decimalNumber_of_soft (v := []) hy h
            · exact absurd h (by simp)
      | cons d v =>
        cases hbase : baseDigits? d with
        | none =>
          refine hdecimal fun _ e he => ?_
          cases he
          exact hbase
        | some p =>
          rw [List.cons_append, numberLength_based hbase] at h
          rw [List.cons_append, List.cons_append, numberLength_based hbase, numberLength_based hbase]
          have hdigits : digitsLength p (v ++ s) ≤ v.length := by
            split at h
            · omega
            · simpa using h
          rw [digitsLength_of_soft (isHard_of_baseDigits? hbase) hy hdigits]
          split
          · next hzero =>
            rw [if_pos hzero] at h
            exact decimalNumber_of_soft (v := d :: v) hy h
          · rfl
    · exact hdecimal fun hzero => absurd hzero hc
  · unfold numberLength
    simp only [hdigit, Bool.not_false, if_true]

theorem runLength_le_of_soft {p : Char → Bool} (hp : IsHard p) {y : List Char} (hy : Soft y)
    (v : List Char) : runLength p (v ++ y) ≤ v.length := by
  unfold runLength
  rw [takeWhile_of_soft hp hy]
  exact (List.takeWhile_prefix p).length_le

theorem digitsLength_le_of_soft {p : Char → Bool} (hp : IsHard p) {y : List Char} (hy : Soft y)
    (v : List Char) : digitsLength p (v ++ y) ≤ v.length := by
  unfold digitsLength
  dsimp only
  rw [takeWhile_of_soft (isHard_or_underscore hp) hy]
  calc _ ≤ (v.takeWhile fun c => p c || c == '_').reverse.length := (List.dropWhile_suffix _).length_le
    _ ≤ v.length := by
      rw [List.length_reverse]
      exact (List.takeWhile_prefix _).length_le

theorem fractionLength_le_of_soft {y : List Char} (hy : Soft y) (v : List Char) :
    fractionLength (v ++ y) ≤ v.length := by
  match v with
  | [] =>
    cases y with
    | nil => exact Nat.le_refl 0
    | cons c y =>
      refine Nat.le_of_eq (fractionLength_of_ne ?_ y)
      rintro rfl
      exact absurd (hy '.' rfl) (by decide)
  | [d] =>
    by_cases hd : d = '.'
    · subst hd
      rw [List.singleton_append, fractionLength_of_head fun c hc => isHard_isDigit c (hy c hc)]
      exact Nat.zero_le _
    · rw [List.singleton_append, fractionLength_of_ne hd]
      exact Nat.zero_le _
  | d :: c :: v =>
    by_cases hd : d = '.'
    · subst hd
      rw [List.cons_append, List.cons_append, fractionLength_dot]
      have := runLength_le_of_soft (isHard_or_underscore isHard_isDigit) hy v
      split
      · simp only [List.length_cons]
        omega
      · exact Nat.zero_le _
    · rw [List.cons_append, fractionLength_of_ne hd]
      exact Nat.zero_le _

theorem exponentLength_le_of_soft {y : List Char} (hy : Soft y) (v : List Char) :
    exponentLength (v ++ y) ≤ v.length := by
  match v with
  | [] =>
    cases y with
    | nil => exact Nat.le_refl 0
    | cons c y =>
      refine Nat.le_of_eq (exponentLength_of_ne ?_ y)
      rintro (rfl | rfl) <;> exact absurd (hy _ rfl) (by decide)
  | d :: v =>
    by_cases hd : d = 'e' ∨ d = 'E'
    · rw [List.cons_append, exponentLength_letter hd, List.length_cons]
      dsimp only
      have hsign : signLength (v ++ y) ≤ v.length := by
        unfold signLength
        split
        · next hhead =>
          cases v with
          | nil =>
            rw [List.nil_append] at hhead
            exact absurd hhead (not_or.2 ⟨not_mem_head?_of_soft hy (by decide),
              not_mem_head?_of_soft hy (by decide)⟩)
          | cons => simp
        · exact Nat.zero_le _
      have hdigits := runLength_le_of_soft isHard_isDigit hy (v.drop (signLength (v ++ y)))
      rw [List.drop_append_of_le_length hsign]
      rw [List.length_drop] at hdigits
      split <;> omega
    · rw [List.cons_append, exponentLength_of_ne hd]
      exact Nat.zero_le _

theorem decimalLength_le_of_soft {y : List Char} (hy : Soft y) (v : List Char) :
    (decimalLength (v ++ y)).2 ≤ v.length := by
  rw [decimalLength_eq]
  dsimp only
  have hwhole := runLength_le_of_soft (isHard_or_underscore isHard_isDigit) hy v
  generalize runLength (fun c => c.isDigit || c == '_') (v ++ y) = whole at *
  rw [List.drop_append_of_le_length hwhole]
  have hfraction := fractionLength_le_of_soft hy (v.drop whole)
  generalize fractionLength (v.drop whole ++ y) = fraction at *
  rw [List.length_drop] at hfraction
  rw [List.drop_append_of_le_length (by omega)]
  have hexponent := exponentLength_le_of_soft hy (v.drop (whole + fraction))
  rw [List.length_drop] at hexponent
  omega

/--
A number does not go over anything soft.
-/
theorem numberLength_le_of_soft {y : List Char} (hy : Soft y) (c : Char) (v : List Char) :
    (numberLength c (v ++ y)).2 ≤ v.length := by
  by_cases hdigit : c.isDigit
  · by_cases hbase : c = '0' ∧ ∃ d p, (v ++ y).head? = some d ∧ baseDigits? d = some p
    · obtain ⟨rfl, d, p, hd, hp⟩ := hbase
      cases v with
      | nil =>
        rw [baseDigits?_of_isSoft (hy d hd)] at hp
        cases hp
      | cons e v =>
        cases hd
        rw [List.cons_append, numberLength_based hp]
        have hdigits := digitsLength_le_of_soft (isHard_of_baseDigits? hp) hy v
        split
        · exact decimalLength_le_of_soft hy (_ :: v)
        · rw [List.length_cons]
          exact Nat.succ_le_succ hdigits
    · rw [numberLength_decimal hdigit]
      · exact decimalLength_le_of_soft hy v
      · intro hc d hd
        cases hp : baseDigits? d with
        | none => rfl
        | some p => exact absurd ⟨hc, d, p, hd, hp⟩ hbase
  · unfold numberLength
    simp [hdigit]

end Lexeme

end HaskellStyle
