import HaskellStyle.Proofs.Token.Cases
import HaskellStyle.Proofs.Token.Closed

/-!
This module contains how the length of a token depends on the text behind it. Only the lexemes up to the next
blank or bracket matter: a token that stands before some of them is read the same when anything soft comes
behind these.
-/

namespace HaskellStyle

namespace Lexeme

/--
No name and no operator behind a dot at the start of `z` goes on in `s`. This holds if `z` consists of whole
lexemes.
-/
def Cut (z s : List Char) : Prop :=
  ∀ c v, z = '.' :: c :: v →
    (isIdentStart c → runLength isIdentChar (v ++ s) ≤ v.length)
      ∧ (Text.isSymbol c → runLength Text.isSymbol (v ++ s) ≤ v.length)

/--
A run that ends before `z` does so when anything soft comes behind `z`.
-/
theorem runLength_cut {p : Char → Bool} (hp : IsHard p) {u z s y : List Char} (hy : Soft y)
    (h : runLength p (u ++ (z ++ s)) ≤ u.length) :
    runLength p (u ++ (z ++ y)) = runLength p (u ++ (z ++ s)) := by
  rw [← List.append_assoc] at h ⊢
  rw [← List.append_assoc]
  refine runLength_of_soft hp hy ?_
  rw [List.length_append]
  omega

/--
The kind of a capitalised name that ends here.
-/
def conKind ( qualified : Bool) : TokenKind :=
  if qualified then .qualifiedConId else .conId

theorem qualifiedLength_dot ( qualified : Bool) (c : Char) (cs : List Char) :
    qualifiedLength qualified ('.' :: c :: cs) =
      if Text.isUpper c then
        if isIdentChar c then
          let n := runLength isIdentChar cs
          ((qualifiedLength true (cs.drop n)).1, n + (qualifiedLength true (cs.drop n)).2 + 2)
        else
          (.qualifiedConId, 1)
      else if isIdentStart c then
        let n := runLength isIdentChar cs
        if reservedIds.contains (String.ofList (c :: cs.take n)) then
          (conKind qualified, 0)
        else
          (.qualifiedVarId, n + 2)
      else if Text.isSymbol c then
        let n := runLength Text.isSymbol cs
        if isDashes (c :: cs.take n) then
          (conKind qualified, 0)
        else
          (if c = ':' then .qualifiedConSym else .qualifiedVarSym, n + 2)
      else
        (conKind qualified, 0) := by
  rw [qualifiedLength]
  rfl

theorem qualifiedLength_stop {cs : List Char} (h : ∀ c v, cs ≠ '.' :: c :: v) ( qualified : Bool) :
    qualifiedLength qualified cs = (conKind qualified, 0) := by
  rw [qualifiedLength]
  · rfl
  · exact h

theorem eq_conKind_of_qualifiedLength {b : Bool} {cs : List Char} {k : TokenKind}
    (h : qualifiedLength b cs = (k, 0)) : k = conKind b := by
  by_cases hdot : ∃ c v, cs = '.' :: c :: v
  · obtain ⟨c, v, rfl⟩ := hdot
    rw [qualifiedLength_dot] at h
    dsimp only at h
    split at h
    · split at h <;> cases h
    · split at h
      · split at h <;> cases h
        rfl
      · split at h
        · split at h <;> cases h
          rfl
        · cases h
          rfl
  · rw [qualifiedLength_stop (by grind)] at h
    cases h
    rfl

theorem eq_qualifiedConId_of_qualifiedLength {b : Bool} {cs : List Char} {k : TokenKind}
    (h : qualifiedLength b cs = (k, 1)) : k = .qualifiedConId := by
  by_cases hdot : ∃ c v, cs = '.' :: c :: v
  · obtain ⟨c, v, rfl⟩ := hdot
    rw [qualifiedLength_dot] at h
    dsimp only at h
    -- All other names behind a dot are at least one character long.
    split at h
    · split at h
      · have := congrArg Prod.snd h
        dsimp only at this
        omega
      · cases h
        rfl
    · split at h
      · split at h <;> cases h
      · split at h
        · split at h <;> cases h
        · cases h
  · rw [qualifiedLength_stop (by grind)] at h
    cases h

theorem qualifiedLength_pos {b : Bool} {cs : List Char} {k : TokenKind} {n : Nat}
    (h : qualifiedLength b cs = (k, n + 1)) : ∃ c v, cs = '.' :: c :: v := by
  refine Classical.byContradiction fun hdot => ?_
  rw [qualifiedLength_stop (by grind)] at h
  cases h

theorem isUpper_of_isSoft {c : Char} (h : isSoft c) : Text.isUpper c = false :=
  isHard_of_softChars (p := Text.isUpper) (by decide +kernel) c h

theorem qualifiedLength_soft ( qualified : Bool) {y : List Char} (hy : Soft y) :
    qualifiedLength qualified y = (conKind qualified, 0) := by
  refine qualifiedLength_stop ?_ qualified
  rintro c v rfl
  exact absurd (hy '.' rfl) (by decide)

theorem qualifiedLength_dot_soft ( qualified : Bool) {y : List Char} (hy : Soft y) :
    qualifiedLength qualified ('.' :: y) = (conKind qualified, 0) := by
  cases y with
  | nil => exact qualifiedLength_stop (by simp) qualified
  | cons c y =>
    have hc := hy c rfl
    rw [qualifiedLength_dot, isUpper_of_isSoft hc, isHard_isIdentStart c hc, isHard_isSymbol c hc]
    rfl

/--
A name that ends before `z` still does so when `z` stands before anything soft.
-/
theorem qualifiedLength_zero_cut {b : Bool} {z s y : List Char} {k : TokenKind}
    (h : qualifiedLength b (z ++ s) = (k, 0)) (hz : Cut z s) (hy : Soft y) :
    qualifiedLength b (z ++ y) = (k, 0) := by
  cases eq_conKind_of_qualifiedLength h
  match z with
  | [] => exact qualifiedLength_soft b hy
  | [d] =>
    by_cases hd : d = '.'
    · subst hd
      exact qualifiedLength_dot_soft b hy
    · exact qualifiedLength_stop (by simp [hd]) b
  | d :: c :: v =>
    by_cases hd : d = '.'
    · subst hd
      obtain ⟨hident, hsymbol⟩ := hz c v rfl
      simp only [List.cons_append, qualifiedLength_dot] at h ⊢
      split at h
      · split at h <;> exact absurd (congrArg Prod.snd h) (by simp)
      · next hupper =>
        rw [if_neg hupper]
        split at h
        · next hstart =>
          have hrun := hident hstart
          rw [if_pos hstart, runLength_of_soft isHard_isIdentChar hy hrun, take_append_eq hrun]
          exact h
        · next hstart =>
          rw [if_neg hstart]
          split at h
          · next hsym =>
            have hrun := hsymbol hsym
            rw [if_pos hsym, runLength_of_soft isHard_isSymbol hy hrun, take_append_eq hrun]
            exact h
          · next hsym => rw [if_neg hsym]
    · exact qualifiedLength_stop (by simp [hd]) b

/--
The rest of a capitalised name is the same before anything soft behind `z`.
-/
theorem qualifiedLength_cut {b : Bool} {u z s y : List Char} {k : TokenKind}
    (h : qualifiedLength b (u ++ (z ++ s)) = (k, u.length))
    (hdot : k = .qualifiedConId → u.getLast? = some '.' → z = [] → Soft s) (hz : Cut z s) (hy : Soft y) :
    qualifiedLength b (u ++ (z ++ y)) = (k, u.length) := by
  match u with
  | [] => exact qualifiedLength_zero_cut (z := z) h hz hy
  | [d] =>
    obtain ⟨c', v, heq⟩ := qualifiedLength_pos h
    cases (List.cons.inj heq).1
    match z with
    | [] =>
      have hsoft := hdot (eq_qualifiedConId_of_qualifiedLength h) rfl rfl
      cases (qualifiedLength_dot_soft b hsoft).symm.trans h
    | c :: z =>
      -- What makes the dot part of the name stands right behind it.
      have hhead (t : List Char) : ['.'] ++ (c :: z ++ t) = '.' :: c :: (z ++ t) := rfl
      rw [hhead, qualifiedLength_dot] at h
      rw [hhead, qualifiedLength_dot]
      dsimp only [List.length_singleton] at h ⊢
      split at h
      · next hupper =>
        rw [if_pos hupper]
        split at h
        · have := congrArg Prod.snd h
          dsimp only at this
          omega
        · next hident =>
          rw [if_neg hident]
          exact h
      · split at h
        · split at h <;> cases h
        · split at h
          · split at h <;> cases h
          · cases h
  | d :: c :: u =>
    obtain ⟨c', v, heq⟩ := qualifiedLength_pos h
    cases (List.cons.inj heq).1
    simp only [List.cons_append, qualifiedLength_dot, List.length_cons] at h ⊢
    split at h
    · next hupper =>
      rw [if_pos hupper]
      split at h
      · next hident =>
        rw [if_pos hident]
        obtain ⟨hkind, hlength⟩ := Prod.mk.inj h
        have hle : runLength isIdentChar (u ++ (z ++ s)) ≤ u.length := by omega
        rw [runLength_cut isHard_isIdentChar hy hle]
        generalize runLength isIdentChar (u ++ (z ++ s)) = n at *
        rw [List.drop_append_of_le_length hle] at hkind hlength
        have hrest : qualifiedLength true (u.drop n ++ (z ++ s)) = (k, (u.drop n).length) := by
          refine Prod.ext hkind ?_
          rw [List.length_drop]
          omega
        have hdot' : k = .qualifiedConId → (u.drop n).getLast? = some '.' → z = [] → Soft s := by
          intro hk hlast
          refine hdot hk ?_
          rw [List.getLast?_drop] at hlast
          split at hlast
          · cases hlast
          · rw [List.getLast?_cons_cons, List.getLast?_cons, hlast]
            rfl
        have := qualifiedLength_cut hrest hdot' hz hy
        rw [List.drop_append_of_le_length hle, this, List.length_drop]
        exact Prod.ext rfl (by dsimp only; omega)
      · have := congrArg Prod.snd h
        dsimp only at this
        omega
    · next hupper =>
      rw [if_neg hupper]
      split at h
      · next hstart =>
        rw [if_pos hstart]
        split at h
        · have := congrArg Prod.snd h
          dsimp only at this
          omega
        · next hreserved =>
          obtain ⟨hkind, hlength⟩ := Prod.mk.inj h
          have hle : runLength isIdentChar (u ++ (z ++ s)) ≤ u.length := by omega
          rw [runLength_cut isHard_isIdentChar hy hle, take_append_eq hle, if_neg hreserved]
          exact h
      · next hstart =>
        rw [if_neg hstart]
        split at h
        · next hsymbol =>
          rw [if_pos hsymbol]
          split at h
          · have := congrArg Prod.snd h
            dsimp only at this
            omega
          · next hdashes =>
            obtain ⟨hkind, hlength⟩ := Prod.mk.inj h
            have hle : runLength Text.isSymbol (u ++ (z ++ s)) ≤ u.length := by omega
            rw [runLength_cut isHard_isSymbol hy hle, take_append_eq hle, if_neg hdashes]
            exact h
        · have := congrArg Prod.snd h
          dsimp only at this
          omega
termination_by u.length
decreasing_by simp only [List.length_drop, List.length_cons]; omega

/--
The rest of an identifier is the same before anything soft behind `z`.
-/
theorem identifierLength_cut {c : Char} {u z s y : List Char} {k : TokenKind}
    (h : identifierLength c (u ++ (z ++ s)) = (k, u.length))
    (hdot : k = .qualifiedConId → u.getLast? = some '.' → z = [] → Soft s) (hz : Cut z s) (hy : Soft y) :
    identifierLength c (u ++ (z ++ y)) = (k, u.length) := by
  have hle : runLength isIdentChar (u ++ (z ++ s)) ≤ u.length := by
    have := congrArg Prod.snd h
    unfold identifierLength at this
    dsimp only at this
    split at this
    · dsimp only at this
      omega
    · split at this <;> exact Nat.le_of_eq this
  unfold identifierLength at h ⊢
  dsimp only at h ⊢
  rw [runLength_cut isHard_isIdentChar hy hle, take_append_eq hle]
  split at h
  · next hcapital =>
    rw [if_pos hcapital]
    generalize runLength isIdentChar (u ++ (z ++ s)) = n at *
    rw [List.drop_append_of_le_length hle] at h ⊢
    obtain ⟨hkind, hlength⟩ := Prod.mk.inj h
    have hrest : qualifiedLength false (u.drop n ++ (z ++ s)) = (k, (u.drop n).length) := by
      refine Prod.ext hkind ?_
      rw [List.length_drop]
      omega
    have hdot' : k = .qualifiedConId → (u.drop n).getLast? = some '.' → z = [] → Soft s := by
      intro hk hlast
      refine hdot hk ?_
      rw [List.getLast?_drop] at hlast
      split at hlast
      · cases hlast
      · exact hlast
    rw [qualifiedLength_cut hrest hdot' hz hy, List.length_drop]
    exact Prod.ext rfl (by dsimp only; omega)
  · next hcapital =>
    rw [if_neg hcapital]
    exact h

theorem symbolLength_cut {c : Char} {u z s y : List Char} {k : TokenKind}
    (h : symbolLength c (u ++ (z ++ s)) = (.token k, u.length)) (hy : Soft y) :
    symbolLength c (u ++ (z ++ y)) = (.token k, u.length) := by
  have hle : runLength Text.isSymbol (u ++ (z ++ s)) ≤ u.length := by
    unfold symbolLength at h
    dsimp only at h
    split at h
    · cases (Prod.mk.inj h).1
    · repeat' split at h
      all_goals exact Nat.le_of_eq (Prod.mk.inj h).2
  unfold symbolLength at h ⊢
  dsimp only at h ⊢
  rw [runLength_cut isHard_isSymbol hy hle, take_append_eq hle]
  split at h
  · cases (Prod.mk.inj h).1
  · next hdashes =>
    rw [if_neg hdashes]
    exact h

/--
No quoter ends a bracket that was none before.
-/
theorem quoterLength_eq_none_cut {z s y : List Char} (h : quoterLength (z ++ s) = none) (hy : Soft y) :
    quoterLength (z ++ y) = none := by
  cases hq : quoterLength (z ++ y) with
  | none => rfl
  | some n =>
    rw [quoterLength_append hq (quoterLength_le_of_soft hy hq) s] at h
    cases h

/--
A token is read the same when anything soft comes behind the lexemes `z` that follow it. A lone tick is
excluded, since a quote at any place behind it can make a character of it, and so is a name that ends in a dot for
which what makes the dot part of it is replaced.
-/
theorem measure_cut {q : Bool} {p p' : Option Char} {o o' : Nat} {c : Char} {u z s y : List Char}
    {k : TokenKind} (h : measure q p o c (u ++ (z ++ s)) = .ok (.token k, u.length)) (htick : k ≠ .tick)
    (hdirective : ¬(c = '#' ∧ startsLine p' ∧ startsDirective (u ++ (z ++ y))))
    (hdot : k = .qualifiedConId → u.getLast? = some '.' → z = [] → Soft s) (hz : Cut z s) (hy : Soft y) :
    measure q p' o' c (u ++ (z ++ y)) = .ok (.token k, u.length) := by
  have hmeasured := measured_iff.2 h
  rw [← measured_iff]
  generalize hkind : LexemeKind.token k = kind, hlength : u.length = n at hmeasured
  cases hmeasured with
  | newline | carriageReturn | blanks | directive | blockComment => cases hkind
  | @pragma n hc hcs hn =>
    cases hkind
    have htwo : ['-', '#'].length ≤ u.length := by simp [hlength]
    have hdrop (t : List Char) : (u ++ t).drop 2 = u.drop 2 ++ t := List.drop_append_of_le_length htwo
    have hmark : n + ['#', '-', '\x7d'].length ≤ (u.drop 2).length := by simp [hlength]
    rw [isPrefixOf_append htwo] at hcs
    rw [hdrop] at hn
    refine .pragma hc ?_ ?_
    · rwa [isPrefixOf_append htwo]
    · rw [hdrop, find_append hn hmark]
  | string hc hn =>
    cases hkind
    subst hlength
    exact .string hc (stringLength_append hn (Nat.le_refl _) (z ++ y) o' (o' + 1) .plain)
  | char hc hn =>
    cases hkind
    subst hlength
    have hle : u.length ≤ (u ++ z).length := by simp
    rw [← List.append_assoc] at hn ⊢
    exact .char hc (charLength_append hn hle hy)
  | tick =>
    cases hkind
    exact absurd rfl htick
  | number hc =>
    have hle : (numberLength c ((u ++ z) ++ s)).2 ≤ (u ++ z).length := by
      rw [List.append_assoc, ← hlength]
      simp
    have hcut := numberLength_of_soft hy hle
    rw [List.append_assoc, List.append_assoc] at hcut
    rw [← hcut]
    exact .number hc
  | identifier hc hdigit =>
    have hname := identifierLength_cut (Prod.ext (LexemeKind.token.inj hkind).symm hlength.symm) hdot hz hy
    have hmeasured : Measured q p' o' c (u ++ (z ++ y)) _ := .identifier hc hdigit
    rw [hname] at hmeasured
    rwa [← hkind, ← hlength]
  | @quasiQuote n m hc hq hn hm =>
    cases hkind
    have hle : n ≤ u.length := by omega
    have hdrop (t : List Char) : (u ++ t).drop n = u.drop n ++ t := List.drop_append_of_le_length hle
    have hmark : m + ['|', ']'].length ≤ (u.drop n).length := by
      rw [List.length_drop, hlength]
      simp only [List.length_cons, List.length_nil]
      omega
    rw [hdrop] at hm
    refine .quasiQuote hc hq (quoterLength_append hn hle _) ?_
    rw [hdrop, find_append hm hmark]
  | special hc hcomment hquasi =>
    refine .special hc ?_ ?_
    · rintro ⟨hc, hhead⟩
      rw [← List.append_assoc] at hcomment hhead
      exact hcomment ⟨hc, head?_of_soft (by decide) hy hhead⟩
    · intro hc hq
      rw [← List.append_assoc] at hquasi ⊢
      exact quoterLength_eq_none_cut (hquasi hc hq) hy
  | symbol hc hdigit hident =>
    have hsymbol := symbolLength_cut (Prod.ext hkind.symm hlength.symm) hy
    have hmeasured : Measured q p' o' c (u ++ (z ++ y)) _ := .symbol hc hdigit hident hdirective
    rw [hsymbol] at hmeasured
    rwa [← hkind, ← hlength]
  | other hblank hstring hquote hdigit hident hspecial hsymbol =>
    exact .other hblank hstring hquote hdigit hident hspecial hsymbol

theorem qualifiedLength_le_of_soft {b : Bool} {y : List Char} (hy : Soft y) (v : List Char) :
    (qualifiedLength b (v ++ y)).2 ≤ v.length := by
  match v with
  | [] =>
    rw [List.nil_append, qualifiedLength_soft b hy]
    exact Nat.le_refl 0
  | [d] =>
    by_cases hd : d = '.'
    · subst hd
      rw [List.singleton_append, qualifiedLength_dot_soft b hy]
      exact Nat.zero_le _
    · rw [qualifiedLength_stop (by simp [hd])]
      exact Nat.zero_le _
  | d :: c :: v =>
    by_cases hd : d = '.'
    · subst hd
      rw [List.cons_append, List.cons_append, qualifiedLength_dot]
      have hident := runLength_le_of_soft isHard_isIdentChar hy v
      have hsymbol := runLength_le_of_soft isHard_isSymbol hy v
      simp only [List.length_cons]
      split
      · split
        · rw [List.drop_append_of_le_length hident]
          have := qualifiedLength_le_of_soft (b := true) hy (v.drop (runLength isIdentChar (v ++ y)))
          rw [List.length_drop] at this
          dsimp only
          omega
        · exact Nat.succ_le_succ (Nat.zero_le _)
      · split
        · split
          · exact Nat.zero_le _
          · exact Nat.add_le_add_right hident 2
        · split
          · split
            · exact Nat.zero_le _
            · exact Nat.add_le_add_right hsymbol 2
          · exact Nat.zero_le _
    · rw [qualifiedLength_stop (by simp [hd])]
      exact Nat.zero_le _
termination_by v.length
decreasing_by simp only [List.length_drop, List.length_cons]; omega

theorem identifierLength_le_of_soft {y : List Char} (hy : Soft y) (c : Char) (v : List Char) :
    (identifierLength c (v ++ y)).2 ≤ v.length := by
  have hident := runLength_le_of_soft isHard_isIdentChar hy v
  unfold identifierLength
  dsimp only
  split
  · rw [List.drop_append_of_le_length hident]
    have := qualifiedLength_le_of_soft (b := false) hy (v.drop (runLength isIdentChar (v ++ y)))
    rw [List.length_drop] at this
    dsimp only
    omega
  · split <;> exact hident

theorem symbolLength_le_of_soft {y : List Char} (hy : Soft y) {c : Char} {v : List Char} {k : TokenKind}
    {n : Nat} (h : symbolLength c (v ++ y) = (.token k, n)) : n ≤ v.length := by
  have hsymbol := runLength_le_of_soft isHard_isSymbol hy v
  unfold symbolLength at h
  dsimp only at h
  split at h
  · cases (Prod.mk.inj h).1
  · repeat' split at h
    all_goals exact (Prod.mk.inj h).2 ▸ hsymbol

/--
The kinds of names, numbers and operators, which no mark of their own closes.
-/
def isPlain : TokenKind → Bool
  | .char | .string | .pragma | .special | .quasiQuote | .tick | .endOfText => false
  | _ => true

theorem isPlain_numberLength (c : Char) (cs : List Char) : isPlain (numberLength c cs).1 := by
  unfold numberLength
  dsimp only
  repeat' split
  all_goals rfl

theorem isPlain_qualifiedLength (b : Bool) (cs : List Char) : isPlain (qualifiedLength b cs).1 := by
  fun_induction qualifiedLength b cs <;> grind [isPlain]

theorem isPlain_identifierLength (c : Char) (cs : List Char) : isPlain (identifierLength c cs).1 := by
  unfold identifierLength
  dsimp only
  split
  · exact isPlain_qualifiedLength _ _
  · split <;> rfl

theorem isPlain_symbolLength {c : Char} {cs : List Char} {k : TokenKind}
    (h : (symbolLength c cs).1 = .token k) : isPlain k := by
  unfold symbolLength at h
  dsimp only at h
  repeat' split at h
  all_goals cases h <;> rfl

theorem blanksLength_le (cs : List Char) : blanksLength cs ≤ cs.length := by
  fun_induction blanksLength cs with
  | case1 => exact Nat.le_refl 0
  | case2 => exact Nat.zero_le _
  | case3 c cs _ _ ih => exact Nat.succ_le_succ ih
  | case4 => exact Nat.zero_le _

theorem mem_take_blanksLength {cs : List Char} {d : Char} (h : d ∈ cs.take (blanksLength cs)) :
    Text.isBlank d ∧ d ≠ '\n' := by
  fun_induction blanksLength cs with
  | case1 | case2 | case4 => cases h
  | case3 c cs _ hc ih =>
    rcases List.mem_cons.1 h with rfl | h
    · simpa [and_comm] using hc
    · exact ih h

theorem directiveLength_le (previous : Char) (cs : List Char) : directiveLength previous cs ≤ cs.length := by
  fun_induction directiveLength previous cs <;> simp only [List.length_cons, List.length_nil] <;> omega

theorem lineCommentLength_le (cs : List Char) : lineCommentLength cs ≤ cs.length := by
  fun_induction lineCommentLength cs <;> simp only [List.length_cons, List.length_nil] <;> omega

theorem symbolLength_lineComment {c : Char} {cs : List Char} {k : TriviaKind} {n : Nat}
    (h : symbolLength c cs = (.trivia k, n)) : k = .lineComment ∧ n = lineCommentLength cs := by
  unfold symbolLength at h
  dsimp only at h
  repeat' split at h
  all_goals cases h
  exact ⟨rfl, rfl⟩

/--
The last character of a beginning that goes over nothing soft is not soft.
-/
theorem not_isSoft_getLast? {cs : List Char} {n : Nat}
    (h : ∀ v y, Soft y → cs = v ++ y → n ≤ v.length) {d : Char} (hd : (cs.take n).getLast? = some d) :
    isSoft d = false := by
  cases hsoft : isSoft d with
  | false => rfl
  | true =>
    obtain ⟨v, hv⟩ := List.getLast?_eq_some_iff.1 hd
    have hle : n ≤ cs.length := h cs [] soft_nil (List.append_nil cs).symm
    have hlength : (v ++ [d]).length = n := by rw [← hv, List.length_take, Nat.min_eq_left hle]
    have hcs : cs = v ++ (d :: cs.drop n) := by
      conv => lhs; rw [← List.take_append_drop n cs, hv]
      rw [List.append_assoc]
      rfl
    have := h v _ (soft_cons hsoft) hcs
    simp only [List.length_append, List.length_singleton] at hlength
    omega

variable {q : Bool} {p : Option Char} {o : Nat} {c : Char} {cs : List Char} {n : Nat}

/--
A token ends in a mark of its own, or else nothing soft stops it early.
-/
theorem Measured.ends_or_hard {k : TokenKind} (h : Measured q p o c cs (.ok (.token k, n))) :
    (∃ mark, Text.isBlank mark = false ∧ EndsIn mark cs n)
      ∨ (Text.isBlank c = false ∧ ∀ v y, Soft y → cs = v ++ y → n ≤ v.length) := by
  have hblank {r : Char → Bool} (hr : IsHard r) (hc : r c) : Text.isBlank c = false :=
    isBlank_of_isSoft (isSoft_of_isHard hr hc)
  generalize hkind : LexemeKind.token k = kind at h
  cases h with
  | newline | carriageReturn | blanks | directive | blockComment => cases hkind
  | @pragma n hc hcs hn =>
    have hends := (endsIn_of_find ['#', '-'] hn).of_drop
    rw [Nat.add_comm] at hends
    exact .inl ⟨'\x7d', by decide, hends⟩
  | string hc hn => exact .inl ⟨'"', by decide, endsIn_of_stringLength hn⟩
  | char hc hn => exact .inl ⟨'\'', by decide, endsIn_of_charLength hn⟩
  | tick hc hn =>
    subst hc
    split
    · next hhead => exact .inl ⟨'\'', by decide, endsIn_of_head? hhead⟩
    · exact .inr ⟨by decide, fun _ _ _ _ => Nat.zero_le _⟩
  | number hc => exact .inr ⟨hblank isHard_isDigit' hc, fun v y hy hcs => hcs ▸ numberLength_le_of_soft hy c v⟩
  | identifier hc =>
    exact .inr ⟨hblank isHard_isIdentStart hc, fun v y hy hcs => hcs ▸ identifierLength_le_of_soft hy c v⟩
  | quasiQuote hc hq hn hm => exact .inl ⟨']', by decide, (endsIn_of_find ['|'] hm).of_drop⟩
  | special hc => exact .inr ⟨isBlank_of_isSpecial hc, fun _ _ _ _ => Nat.zero_le _⟩
  | symbol hc =>
    refine .inr ⟨hblank isHard_isSymbol hc, ?_⟩
    rintro v y hy rfl
    exact symbolLength_le_of_soft hy (Prod.ext hkind.symm rfl)
  | other hc => exact .inr ⟨hc, fun _ _ _ _ => Nat.zero_le _⟩

theorem Measured.le {k : LexemeKind} (h : Measured q p o c cs (.ok (k, n))) : n ≤ cs.length := by
  cases k with
  | token k =>
    rcases h.ends_or_hard with ⟨mark, -, hends⟩ | ⟨-, hhard⟩
    · exact hends.le
    · exact hhard cs [] soft_nil (List.append_nil cs).symm
  | trivia k =>
    generalize hkind : LexemeKind.trivia k = kind at h
    cases h with
    | newline => exact Nat.zero_le _
    | carriageReturn hc hcs => exact (endsIn_of_head? hcs).le
    | blanks => exact blanksLength_le cs
    | directive => exact directiveLength_le c cs
    | blockComment hc hcs hpragma hn =>
      have hends := (endsIn_of_blockCommentLength hn).of_drop
      rw [Nat.add_comm] at hends
      exact hends.le
    | symbol =>
      obtain ⟨-, hn⟩ := symbolLength_lineComment (Prod.ext hkind.symm rfl)
      exact Nat.le_trans (Nat.le_of_eq hn) (lineCommentLength_le cs)
    | _ => cases hkind

/--
A token does not begin with a blank.
-/
theorem Measured.first {k : TokenKind} (h : Measured q p o c cs (.ok (.token k, n))) : Text.isBlank c = false := by
  have hblank {r : Char → Bool} (hr : IsHard r) (hc : r c) : Text.isBlank c = false :=
    isBlank_of_isSoft (isSoft_of_isHard hr hc)
  generalize hkind : LexemeKind.token k = kind at h
  cases h with
  | newline | carriageReturn | blanks | directive | blockComment => cases hkind
  | pragma hc | string hc | char hc | tick hc | quasiQuote hc =>
    subst hc
    decide
  | number hc => exact hblank isHard_isDigit' hc
  | identifier hc => exact hblank isHard_isIdentStart hc
  | special hc => exact isBlank_of_isSpecial hc
  | symbol hc => exact hblank isHard_isSymbol hc
  | other hc => exact hc

/--
A token does not end in a blank.
-/
theorem Measured.last {k : TokenKind} (h : Measured q p o c cs (.ok (.token k, n))) {d : Char}
    (hd : (c :: cs.take n).getLast? = some d) : Text.isBlank d = false := by
  rw [List.getLast?_cons] at hd
  rcases h.ends_or_hard with ⟨mark, hmark, hends⟩ | ⟨hc, hhard⟩
  · rw [hends.getLast?] at hd
    cases hd
    exact hmark
  · cases hlast : (cs.take n).getLast? with
    | none =>
      rw [hlast] at hd
      cases hd
      exact hc
    | some e =>
      rw [hlast] at hd
      cases hd
      exact isBlank_of_isSoft (not_isSoft_getLast? hhard hlast)

end Lexeme

end HaskellStyle
