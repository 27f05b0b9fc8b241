import HaskellStyle.Proofs.Token.Kind
import HaskellStyle.Proofs.Token.Marks

/-!
This module contains tokens in front of two texts that agree up to where a line of one of them ends or a comment is
moved away. There a token is the same in front of both.
-/

namespace HaskellStyle

namespace Lexeme

/--
A text that no name goes on with: it is soft or begins with a dash.
-/
def Dull (s : List Char) : Prop :=
  ∀ c ∈ s.head?, isSoft c ∨ c = '-'

theorem Soft.dull {s : List Char} (h : Soft s) : Dull s :=
  fun c hc => .inl (h c hc)

theorem Dull.head?_eq_false {s : List Char} (h : Dull s) {p : Char → Bool} (hp : IsHard p) (hdash : p '-' = false) :
    ∀ c ∈ s.head?, p c = false := by
  intro c hc
  rcases h c hc with hsoft | rfl
  · exact hp c hsoft
  · exact hdash

theorem Dull.head?_ne {s : List Char} (h : Dull s) {d : Char} (hd : isSoft d = false) (hdash : d ≠ '-') :
    s.head? ≠ some d := by
  intro hhead
  rcases h d hhead with hsoft | rfl
  · rw [hd] at hsoft
    cases hsoft
  · exact hdash rfl

/--
A soft text at whose start no character literal and no directive's word ends.
-/
structure Closing (y : List Char) : Prop where
  soft : Soft y
  quote : ∀ c r, y = c :: '\'' :: r → c = '\n'
  word : startsDirective y = false

theorem startsDirective_blank {u t : List Char} (hu : ∀ c ∈ u, Text.isBlank c)
    (ht : ∀ c ∈ t.head?, Text.isWordChar c = false ∧ c ≠ ' ' ∧ c ≠ '\t') : startsDirective (u ++ t) = false := by
  have hhead : ∀ c ∈ ((u ++ t).dropWhile fun c => c == ' ' || c == '\t').head?, Text.isWordChar c = false := by
    induction u with
    | nil =>
      cases t with
      | nil => nofun
      | cons c t =>
        obtain ⟨hword, hspace, htab⟩ := ht c rfl
        rw [List.nil_append, List.dropWhile_cons, if_neg (by simp [hspace, htab])]
        intro d hd
        cases hd
        exact hword
    | cons c u ih =>
      obtain ⟨hc, hu⟩ := List.forall_mem_cons.1 hu
      rw [List.cons_append, List.dropWhile_cons]
      split
      · exact ih hu
      · intro d hd
        cases hd
        exact isHard_isWordChar c (Bool.or_eq_true_iff.2 (.inl hc))
  have hword := takeWhile_append_of_head? hhead []
  unfold startsDirective
  dsimp only
  rw [← List.nil_append (List.dropWhile _ _), hword]
  decide

/--
Blanks close before a line end, and if there are any, before a mark that is no quote.
-/
theorem closing_blank {u t : List Char} (hu : ∀ c ∈ u, Text.isBlank c) (hne : u ≠ [] ∨ LineEnd t)
    (ht : ∀ c ∈ t.head?, Text.isWordChar c = false ∧ c ≠ ' ' ∧ c ≠ '\t' ∧ c ≠ '\'') : Closing (u ++ t) where
  soft := by
    cases u with
    | nil => exact (hne.resolve_left fun h => h rfl).soft
    | cons c u => exact soft_cons (Bool.or_eq_true_iff.2 (.inl (hu c List.mem_cons_self)))
  quote := by
    intro c r heq
    match u with
    | [] =>
      have hend := hne.resolve_left fun h => h rfl
      rw [List.nil_append] at heq
      subst heq
      obtain h | ⟨r, h⟩ | ⟨r, h⟩ := hend <;> cases h
      rfl
    | [d] =>
      rw [List.singleton_append, List.cons.injEq] at heq
      exact absurd rfl (ht '\'' (by rw [heq.2]; rfl)).2.2.2
    | d :: e :: u =>
      simp only [List.cons_append, List.cons.injEq] at heq
      have hblank := hu e (List.mem_cons_of_mem _ List.mem_cons_self)
      rw [heq.2.1] at hblank
      cases hblank
  word := startsDirective_blank hu fun c hc => ⟨(ht c hc).1, (ht c hc).2.1, (ht c hc).2.2.1⟩

theorem closing_of_lineEnd {u t : List Char} (hu : ∀ c ∈ u, Text.isBlank c) (ht : LineEnd t) : Closing (u ++ t) := by
  refine closing_blank hu (.inr ht) fun c hc => ?_
  obtain rfl | ⟨r, rfl⟩ | ⟨r, rfl⟩ := ht <;> cases hc <;> decide

/--
An escape goes over a soft character at most, and not over a line end.
-/
theorem le_of_mem_escapeLengths {v y : List Char} {m : Nat} (hy : Soft y) (h : m ∈ escapeLengths (v ++ y)) :
    m ≤ v.length ∨ m = v.length + 1 ∧ ∃ c r, y = c :: r ∧ c ≠ '\n' := by
  have hrun {p : Char → Bool} (hp : IsHard p) {v : List Char} {m : Nat} (h : m ∈ digitRun p (v ++ y)) :
      m ≤ v.length := by
    unfold digitRun at h
    split at h
    · cases h
    · rw [List.mem_singleton.1 h]
      exact runLength_le_of_soft hp hy v
  have hnot {c : Char} {r : List Char} (hc : isSoft c = false) : y ≠ c :: r := by
    rintro rfl
    exact not_mem_head?_of_soft hy hc rfl
  rw [escapeLengths_eq, List.mem_append, List.mem_append, List.mem_append] at h
  rcases h with ((h | h) | h) | h
  · unfold controlEscape at h
    split at h
    · next c r heq =>
      split at h
      · cases h
      · next hc =>
        rw [List.mem_singleton.1 h]
        match v with
        | [] => exact absurd heq (hnot (by decide))
        | [d] => exact .inr ⟨rfl, c, r, (List.cons.inj heq).2, hc⟩
        | d :: e :: v =>
          simp only [List.length_cons]
          omega
    · cases h
  · unfold namedEscape at h
    split at h
    · rw [List.mem_singleton.1 h]
      exact .inl (runLength_le_of_soft (isHard_of_softChars (by decide +kernel)) hy v)
    · cases h
  · have hbased {d : Char} {p : Char → Bool} (hd : isSoft d = false) (hp : IsHard p) {r : List Char}
        (heq : v ++ y = d :: r) (h : m ∈ (digitRun p r).map (· + 1)) : m ≤ v.length := by
      obtain ⟨n, hn, rfl⟩ := List.mem_map.1 h
      cases v with
      | nil => exact absurd heq (hnot hd)
      | cons e v =>
        rw [← (List.cons.inj heq).2] at hn
        exact Nat.succ_le_succ (hrun hp hn)
    refine .inl ?_
    unfold numberedEscape at h
    split at h
    · next heq => exact hbased (by decide) (isHard_of_softChars (by decide +kernel)) heq h
    · next heq => exact hbased (by decide) (isHard_of_softChars (by decide +kernel)) heq h
    · exact hrun isHard_isDigit h
  · unfold singleEscape at h
    split at h
    · next c r heq =>
      split at h
      · cases h
      · next hc =>
        rw [List.mem_singleton.1 h]
        cases v with
        | nil => exact .inr ⟨rfl, c, r, heq, hc⟩
        | cons d v =>
          rw [List.length_cons]
          omega
    · cases h

/--
No character literal ends where a text closes.
-/
theorem charLength_le_of_closing {v y : List Char} (hy : Closing y) {n : Nat} (h : charLength (v ++ y) = some n) :
    n ≤ v.length := by
  have hhead : y.head? ≠ some '\'' := not_mem_head?_of_soft hy.soft (by decide)
  match v with
  | [] =>
    cases y with
    | nil => cases h
    | cons c y =>
      have hc : c ≠ '\\' := fun hc => not_mem_head?_of_soft hy.soft (c := '\\') (by decide) (by rw [hc]; rfl)
      cases y with
      | nil =>
        unfold charLength at h
        split at h
        · next heq => exact absurd (List.cons.inj heq).1 hc
        · next heq => cases heq
        · cases h
      | cons d y =>
        rw [List.nil_append, charLength_plain hc] at h
        split at h
        · next hd => exact absurd (hy.quote c y (by rw [hd.1])) hd.2.2
        · cases h
  | c :: v =>
    by_cases hc : c = '\\'
    · subst hc
      rw [List.cons_append, charLength_escape, Option.map_eq_some_iff] at h
      obtain ⟨m, hm, rfl⟩ := h
      have hquote := List.find?_some hm
      rw [decide_eq_true_eq] at hquote
      rw [List.length_cons]
      rcases le_of_mem_escapeLengths hy.soft (List.mem_of_find?_eq_some hm) with hle | ⟨rfl, d, r, rfl, hd⟩
      · rcases Nat.lt_or_eq_of_le hle with hlt | rfl
        · omega
        · rw [List.drop_left] at hquote
          exact absurd hquote hhead
      · -- The escape would be one soft character, and a quote behind it.
        rw [List.append_cons, List.drop_left' (by simp)] at hquote
        obtain ⟨r, rfl⟩ := List.head?_eq_some_iff.1 hquote
        exact absurd (hy.quote d r rfl) hd
    · cases v with
      | nil =>
        cases y with
        | nil =>
          unfold charLength at h
          split at h
          · next heq => exact absurd (List.cons.inj heq).1 hc
          · next heq => cases heq
          · cases h
        | cons d y =>
          rw [List.singleton_append, charLength_plain hc] at h
          split at h
          · next hd => exact absurd (by rw [hd.1]; rfl) hhead
          · cases h
      | cons d v =>
        rw [List.cons_append, List.cons_append, charLength_plain hc] at h
        split at h
        · cases h
          simp only [List.length_cons]
          omega
        · cases h

/--
A dot belongs to the name before it only if a capital follows that no name can hold.
-/
theorem isUpper_of_qualifiedLength {b : Bool} {u s : List Char}
    (h : qualifiedLength b (u ++ s) = (.qualifiedConId, u.length)) (hlast : u.getLast? = some '.') :
    ∃ d ∈ s.head?, Text.isUpper d := by
  match u with
  | [d] =>
    obtain rfl : d = '.' := Option.some.inj hlast
    match s with
    | [] =>
      rw [List.append_nil, qualifiedLength_stop (by simp)] at h
      cases (Prod.mk.inj h).2
    | c :: s =>
      refine ⟨c, rfl, ?_⟩
      by_contra hupper
      rw [List.singleton_append, qualifiedLength_dot, if_neg hupper] at h
      dsimp only at h
      repeat' split at h
      all_goals cases (Prod.mk.inj h).2
  | d :: c :: u =>
    obtain ⟨c', v, heq⟩ := qualifiedLength_pos h
    cases (List.cons.inj heq).1
    simp only [List.cons_append, qualifiedLength_dot, List.length_cons] at h
    split at h
    · next hupper =>
      split at h
      · next hident =>
        obtain ⟨hkind, hlength⟩ := Prod.mk.inj h
        have hu : u.getLast? = some '.' := by
          rw [List.getLast?_cons_cons, List.getLast?_cons] at hlast
          cases hu : u.getLast? with
          | none =>
            rw [hu] at hlast
            rw [show c = '.' from Option.some.inj hlast] at hident
            exact absurd hident (by decide)
          | some e =>
            rw [hu] at hlast
            exact hlast
        -- The dot at the end does not belong to the part that follows the first one.
        have hlt : runLength isIdentChar (u ++ s) < u.length := by
          refine Nat.lt_of_le_of_ne (by omega) fun heq => ?_
          rw [runLength_append ⟨'.', List.mem_of_getLast? hu, by decide⟩] at heq
          have hall := (List.takeWhile_prefix isIdentChar).eq_of_length heq
          exact absurd (List.takeWhile_eq_self_iff.1 hall '.' (List.mem_of_getLast? hu)) (by decide)
        generalize runLength isIdentChar (u ++ s) = n at *
        rw [List.drop_append_of_le_length (Nat.le_of_lt hlt)] at hkind hlength
        refine isUpper_of_qualifiedLength (b := true) (u := u.drop n) (Prod.ext hkind ?_) ?_
        · rw [List.length_drop]
          dsimp only
          omega
        · rw [List.getLast?_drop, if_neg (Nat.not_le_of_lt hlt)]
          exact hu
      · cases congrArg Prod.snd h
    · split at h
      · split at h
        · cases congrArg Prod.snd h
        · cases (Prod.mk.inj h).1
      · split at h
        · split at h
          · cases congrArg Prod.snd h
          · have := (Prod.mk.inj h).1
            split at this <;> cases this
        · cases congrArg Prod.snd h
termination_by u.length
decreasing_by simp only [List.length_drop, List.length_cons]; omega

section

variable {q : Bool} {p : Option Char} {o : Nat} {c : Char} {u s y rest n : List Char} {k : TokenKind}

theorem isUpper_of_measure (h : measure q p o c (u ++ s) = .ok (.token .qualifiedConId, u.length))
    (hlast : u.getLast? = some '.') : ∃ d ∈ s.head?, Text.isUpper d := by
  obtain ⟨hstart, hdigit⟩ := isIdentStart_of_measure h
  rw [measure_identifier hstart hdigit, Except.ok.injEq, Prod.mk.injEq, LexemeKind.token.injEq] at h
  unfold identifierLength at h
  dsimp only at h
  split at h
  · obtain ⟨hkind, hlength⟩ := h
    have hlt : runLength isIdentChar (u ++ s) < u.length := by
      refine Nat.lt_of_le_of_ne (by dsimp only at hlength; omega) fun heq => ?_
      rw [runLength_append ⟨'.', List.mem_of_getLast? hlast, by decide⟩] at heq
      have hall := (List.takeWhile_prefix isIdentChar).eq_of_length heq
      exact absurd (List.takeWhile_eq_self_iff.1 hall '.' (List.mem_of_getLast? hlast)) (by decide)
    generalize runLength isIdentChar (u ++ s) = n at *
    rw [List.drop_append_of_le_length (Nat.le_of_lt hlt)] at hkind hlength
    refine isUpper_of_qualifiedLength (b := false) (u := u.drop n) (Prod.ext hkind ?_) ?_
    · rw [List.length_drop]
      dsimp only at hlength ⊢
      omega
    · rwa [List.getLast?_drop, if_neg (Nat.not_le_of_lt hlt)]
  · split at h <;> cases h.1

theorem runLength_le_of_head? {p : Char → Bool} {y : List Char} (hy : ∀ c ∈ y.head?, p c = false) (v : List Char) :
    runLength p (v ++ y) ≤ v.length := by
  rw [runLength, takeWhile_append_of_head? hy]
  exact (List.takeWhile_prefix p).length_le

theorem length_of_measure_dot {kind : LexemeKind} {m : Nat} (h : measure q p o '.' rest = .ok (kind, m)) :
    m = runLength Text.isSymbol rest := by
  have hmeasured : Measured q p o '.' rest _ :=
    .symbol (by decide) (by decide) (by decide) fun hdirective => absurd hdirective.1 (by decide)
  obtain ⟨rfl, rfl⟩ := Prod.mk.inj (Except.ok.inj (hmeasured.measure_eq.symm.trans h))
  unfold symbolLength
  dsimp only
  rw [if_neg (by simp [isDashes])]
  repeat' split
  all_goals rfl

/--
Two texts that are the same up to a place where the second one closes. No name before it goes on in the first one.
-/
inductive Agrees : List Char → List Char → Prop where
  | intro {z s y : List Char} (hcut : Cut z s) (hs : Dull s) (hy : Closing y) : Agrees (z ++ s) (z ++ y)

namespace Agrees

theorem of_closing (hs : Dull s) (hy : Closing y) : Agrees s y :=
  .intro (z := []) nofun hs hy

theorem append (h : Agrees rest n) {w : List Char} (hne : w ≠ []) (hw : w.head? ≠ some '.') :
    Agrees (w ++ rest) (w ++ n) := by
  obtain ⟨-, hs, hy⟩ := h
  rw [← List.append_assoc, ← List.append_assoc]
  refine .intro (fun c v heq => ?_) hs hy
  obtain ⟨d, w, rfl⟩ := List.exists_cons_of_ne_nil hne
  rw [List.cons_append, List.cons.injEq] at heq
  exact absurd (congrArg some heq.1) hw

/--
Behind a token the texts still agree.
-/
theorem token (h : Agrees rest n) (hmeasure : measure q p o c (u ++ rest) = .ok (.token k, u.length)) :
    Agrees (c :: (u ++ rest)) (c :: (u ++ n)) := by
  obtain @⟨z, s, y, -, hs, hy⟩ := h
  rw [← List.append_assoc, ← List.append_assoc, ← List.cons_append, ← List.cons_append]
  refine .intro (fun d v heq => ⟨fun _ => ?_, fun hd => ?_⟩) hs hy
  · exact runLength_le_of_head? (hs.head?_eq_false isHard_isIdentChar (by decide)) v
  · obtain ⟨rfl, hcons⟩ := List.cons.inj heq
    replace hcons : u ++ z = d :: v := hcons
    have hrun := length_of_measure_dot hmeasure
    have hlength := congrArg List.length hcons
    rw [← List.append_assoc, hcons, List.cons_append, runLength, List.takeWhile_cons, if_pos hd,
      List.length_cons] at hrun
    rw [List.length_append, List.length_cons] at hlength
    rw [runLength]
    omega

/--
What a text begins with begins the other one that agrees with it, if it is not soft.
-/
theorem head?_eq (h : Agrees rest n) {c : Char} (hc : isSoft c = false) (hn : n.head? = some c) :
    rest.head? = some c := by
  obtain @⟨z, s, y, -, -, hy⟩ := h
  exact head?_of_soft hc hy.soft hn

theorem ne_interpreter (h : Agrees rest n) (hrest : ∀ more, rest ≠ '#' :: '!' :: more)
    (more : List Char) : n ≠ '#' :: '!' :: more := by
  obtain @⟨z, s, y, -, -, hy⟩ := h
  intro hn
  match z with
  | [] => exact not_mem_head?_of_soft hy.soft (c := '#') (by decide) (by rw [show y = _ from hn]; rfl)
  | [c] =>
    obtain ⟨rfl, hy'⟩ := List.cons.inj hn
    exact not_mem_head?_of_soft hy.soft (c := '!') (by decide) (by rw [show y = _ from hy']; rfl)
  | c :: d :: z =>
    obtain ⟨rfl, htail⟩ := List.cons.inj hn
    obtain ⟨rfl, -⟩ := List.cons.inj htail
    exact hrest _ rfl

/--
A token is the same in front of both texts.
-/
theorem measure_eq (h : Agrees rest n) (hmeasure : measure q p 0 c (u ++ rest) = .ok (.token k, u.length)) :
    measure q p 0 c (u ++ n) = .ok (.token k, u.length) := by
  obtain @⟨z, s, y, hcut, hs, hy⟩ := h
  by_cases hk : k = .tick
  · cases hk
    obtain ⟨rfl, hchar, hlength⟩ := tick_of_measure hmeasure
    rw [← List.append_assoc] at hchar hlength ⊢
    have hnone : charLength (u ++ z ++ y) = none := by
      cases hsome : charLength (u ++ z ++ y) with
      | none => rfl
      | some m =>
        have hle := charLength_le_of_closing hy hsome
        rw [charLength_append_of_head? hsome hle (hs.head?_ne (by decide) (by decide))] at hchar
        cases hchar
    have hquote : (u ++ z ++ y).head? = some '\'' ↔ (u ++ z ++ s).head? = some '\'' := by
      cases hz : u ++ z with
      | nil =>
        exact ⟨fun h => absurd h (not_mem_head?_of_soft hy.soft (by decide)),
          fun h => absurd h (hs.head?_ne (by decide) (by decide))⟩
      | cons d v => exact Iff.rfl
    rw [hlength, ← measured_iff]
    simp only [← hquote]
    exact .tick rfl hnone
  · refine measure_cut hmeasure hk ?_ ?_ hcut hy.soft
    · rintro ⟨rfl, hp, hstarts⟩
      rw [← List.append_assoc] at hstarts hmeasure
      have hnot : ¬startsDirective (u ++ z ++ s) := fun hdirective => by
        cases hmeasure.symm.trans (measured_iff.1 (.directive rfl hp hdirective))
      by_cases hshown : ∃ c ∈ u ++ z, c ≠ ' ' ∧ c ≠ '\t'
      · rw [startsDirective_append_of_head? hshown (hs.head?_eq_false isHard_isWordChar (by decide))
          fun c hc => isHard_isWordChar c (hy.soft c hc)] at hstarts
        exact hnot hstarts
      · have hblank : ∀ c ∈ u ++ z, c == ' ' || c == '\t' := by
          intro c hc
          by_contra hnot
          simp only [Bool.or_eq_true, beq_iff_eq, not_or] at hnot
          exact hshown ⟨c, hc, hnot⟩
        have hdrop : startsDirective (u ++ z ++ y) = startsDirective y := by
          unfold startsDirective
          dsimp only
          rw [List.dropWhile_append_of_pos hblank]
        rw [hdrop, hy.word] at hstarts
        cases hstarts
    · rintro rfl hlast rfl
      obtain ⟨d, hd, hupper⟩ := isUpper_of_measure hmeasure hlast
      rcases hs d hd with hsoft | rfl
      · rw [isUpper_of_isSoft hsoft] at hupper
        cases hupper
      · exact absurd hupper (by decide)

end Agrees

end

end Lexeme

end HaskellStyle
