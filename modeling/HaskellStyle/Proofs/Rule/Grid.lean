import HaskellStyle.Proofs.Rule.Indent

/-!
This module contains where tokens stand in a grid and with what a token moves: with the first token on its line, or
not at all if the line begins inside of a token.
-/

namespace HaskellStyle

namespace Indent

variable {g : Grid}

namespace Grid

/--
A grid with the tokens in the order of the text. Only a token that begins a line ends the text.
-/
structure Ordered (g : Grid) : Prop where
  ordered : g.tokens.toList.Pairwise fun t u => t.offset < u.offset
  ends : ∀ t ∈ g.tokens, t.isEnd → t.lineStart

theorem get_eq_getElem {index : Nat} (h : index < g.tokens.size) : g.get index = g.tokens[index] := by
  rw [get, Array.getD_eq_getD_getElem?, Array.getElem?_eq_getElem h, Option.getD_some]

theorem get_mem {index : Nat} (h : index < g.tokens.size) : g.get index ∈ g.tokens := by
  rw [get_eq_getElem h]
  exact Array.getElem_mem h

/--
Consecutive tokens of a grid: those with the indices from `start` on.
-/
structure Covers (g : Grid) (ts : List Token) (start : Nat) : Prop where
  isInfix : ts <:+: g.tokens.toList
  le : start + ts.length ≤ g.tokens.size
  get_add : ∀ {i : Nat} (hi : i < ts.length), g.get (start + i) = ts[i]
  mem_iff : ∀ {index : Nat}, index < g.tokens.size → (g.get index ∈ ts ↔ start ≤ index ∧ index < start + ts.length)

namespace Ordered

variable (h : g.Ordered)
include h

theorem nodup : g.tokens.toList.Nodup := by
  refine h.ordered.imp fun hlt heq => ?_
  rw [heq] at hlt
  exact Nat.lt_irrefl _ hlt

theorem offset_lt {i j : Nat} (hij : i < j) (hj : j < g.tokens.size) : (g.get i).offset < (g.get j).offset := by
  rw [get_eq_getElem (Nat.lt_trans hij hj), get_eq_getElem hj]
  exact List.pairwise_iff_getElem.1 h.ordered i j (by simp; omega) (by simpa using hj) hij

theorem indexOf_get {index : Nat} (hindex : index < g.tokens.size) : g.indexOf (g.get index) = index := by
  have hfound : g.tokens.findIdx? (·.offset = (g.get index).offset) = some index := by
    refine Array.findIdx?_eq_some_iff_getElem.2 ⟨hindex, ?_, fun j hj => ?_⟩
    · rw [get_eq_getElem hindex]
      simp
    · have hlt := h.offset_lt hj hindex
      rw [get_eq_getElem (Nat.lt_trans hj hindex)] at hlt
      simpa using Nat.ne_of_lt hlt
  rw [indexOf, hfound, Option.getD_some]

theorem index_eq {i j : Nat} (hi : i < g.tokens.size) (hj : j < g.tokens.size)
    (hoffset : (g.get i).offset = (g.get j).offset) : i = j := by
  rw [← h.indexOf_get hi, ← h.indexOf_get hj, indexOf, indexOf, hoffset]

theorem exists_index {t : Token} (ht : t ∈ g.tokens) : g.indexOf t < g.tokens.size ∧ g.get (g.indexOf t) = t := by
  obtain ⟨index, hindex, rfl⟩ := Array.getElem_of_mem ht
  rw [← get_eq_getElem hindex, h.indexOf_get hindex]
  exact ⟨hindex, rfl⟩

/--
Consecutive tokens have consecutive indices.
-/
theorem exists_covers {ts : List Token} (hts : ts <:+: g.tokens.toList) : ∃ start, g.Covers ts start := by
  obtain ⟨before, after, hsplit⟩ := id hts
  have hsize : before.length + ts.length + after.length = g.tokens.size := by
    rw [← Array.length_toList, ← hsplit, List.length_append, List.length_append]
  have hinside {i : Nat} (hi : i < ts.length) : g.get (before.length + i) = ts[i] := by
    have hplace : (before ++ ts ++ after)[before.length + i]? = some ts[i] := by
      rw [List.getElem?_append_left (by simp; omega), List.getElem?_append_right (by omega), Nat.add_sub_cancel_left,
        List.getElem?_eq_getElem hi]
    rw [hsplit, Array.getElem?_toList, Array.getElem?_eq_getElem (by omega)] at hplace
    rw [get_eq_getElem (by omega)]
    exact Option.some.inj hplace
  refine ⟨before.length, hts, by omega, fun hi => hinside hi,
    fun {index} hindex => ⟨fun hmem => ?_, fun hbounds => ?_⟩⟩
  · obtain ⟨i, hi, heq⟩ := List.getElem_of_mem hmem
    have hsame := congrArg g.indexOf ((hinside hi).trans heq)
    rw [h.indexOf_get (by omega), h.indexOf_get hindex] at hsame
    omega
  · have hplace := @hinside (index - before.length) (by omega)
    rw [Nat.add_sub_of_le hbounds.1] at hplace
    rw [hplace]
    exact List.getElem_mem _

end Ordered

namespace Covers

variable {t : Token} {ts : List Token} {start : Nat}

theorem indexOf_getElem (hg : g.Ordered) (h : g.Covers ts start) {i : Nat} (hi : i < ts.length) :
    g.indexOf ts[i] = start + i := by
  rw [← h.get_add hi]
  exact hg.indexOf_get (Nat.lt_of_lt_of_le (Nat.add_lt_add_left hi start) h.le)

theorem indexOf_head (hg : g.Ordered) (h : g.Covers (t :: ts) start) : g.indexOf t = start :=
  h.indexOf_getElem hg (Nat.zero_lt_succ _)

theorem get_start (h : g.Covers (t :: ts) start) : g.get start = t :=
  h.get_add (Nat.zero_lt_succ _)

theorem mem (h : g.Covers ts start) (ht : t ∈ ts) : t ∈ g.tokens :=
  Array.mem_toList_iff.1 (h.isInfix.subset ht)

theorem nodup (hg : g.Ordered) (h : g.Covers ts start) : ts.Nodup :=
  h.isInfix.sublist.nodup hg.nodup

theorem tail (hg : g.Ordered) (h : g.Covers (t :: ts) start) : g.Covers ts (start + 1) where
  isInfix := (List.suffix_cons t ts).isInfix.trans h.isInfix
  le := by
    have hle := h.le
    rw [List.length_cons] at hle
    omega
  get_add {i} hi := by
    rw [Nat.add_right_comm]
    exact h.get_add (Nat.succ_lt_succ hi)
  mem_iff {index} hindex := by
    have hmem := h.mem_iff hindex
    rw [List.length_cons] at hmem
    constructor
    · intro htail
      have hbounds := hmem.1 (List.mem_cons_of_mem _ htail)
      obtain ⟨i, hi, heq⟩ := List.getElem_of_mem htail
      have hplace := h.indexOf_getElem hg (Nat.succ_lt_succ hi)
      rw [List.getElem_cons_succ, heq, hg.indexOf_get hindex] at hplace
      omega
    · intro hbounds
      have hplace := h.get_add (i := index - start) (by rw [List.length_cons]; omega)
      rw [Nat.add_sub_of_le (by omega)] at hplace
      rw [hplace, List.getElem_cons, dif_neg (by omega)]
      exact List.getElem_mem _

end Covers

end Grid

namespace Plan

/--
The first token on the line of a token, going back as `lineShiftFrom` does; none if the line begins inside of a token.
-/
def homeFrom (plan : Plan) (g : Grid) (isStart : Bool) (index : Nat) : Option Nat :=
  if !isStart && (g.get index).isMultiline then
    none
  else if plan.beginsLine g index then
    some index
  else
    match index with
    | 0 => some 0
    | before + 1 => plan.homeFrom g false before

theorem homeFrom_succ (plan : Plan) (isStart : Bool) (index : Nat) :
    plan.homeFrom g isStart (index + 1)
      = if !isStart && (g.get (index + 1)).isMultiline then none
        else if plan.beginsLine g (index + 1) then some (index + 1)
        else plan.homeFrom g false index := by
  rw [homeFrom]

/--
The token with which a token moves.
-/
def home (plan : Plan) (g : Grid) (index : Nat) : Option Nat :=
  plan.homeFrom g true index

theorem lineShiftFrom_eq (plan : Plan) (isStart : Bool) (index : Nat) :
    plan.lineShiftFrom g isStart index = ((plan.homeFrom g isStart index).map (plan.shiftAt g)).getD 0 := by
  induction index generalizing isStart with
  | zero =>
    unfold lineShiftFrom homeFrom
    split
    · rfl
    · split <;> rfl
  | succ index ih =>
    unfold lineShiftFrom homeFrom
    split
    · rfl
    · split
      · rfl
      · exact ih false

/--
A token moves with a token that begins a line or the text, and none between them begins a line.
-/
theorem homeFrom_eq_some {plan : Plan} {isStart : Bool} {index k : Nat} (h : plan.homeFrom g isStart index = some k) :
    k ≤ index ∧ (plan.beginsLine g k ∨ k = 0) ∧ ∀ j, k < j → j ≤ index → plan.beginsLine g j = false := by
  induction index generalizing isStart with
  | zero =>
    unfold homeFrom at h
    split at h
    · cases h
    · split at h <;> cases h
      · next hbegins => exact ⟨Nat.le_refl 0, .inl hbegins, by omega⟩
      · exact ⟨Nat.le_refl 0, .inr rfl, by omega⟩
  | succ index ih =>
    unfold homeFrom at h
    split at h
    · cases h
    · split at h
      · next hbegins =>
        cases h
        exact ⟨Nat.le_refl _, .inl hbegins, by omega⟩
      · next hbegins =>
        obtain ⟨hle, hk, hnone⟩ := ih h
        refine ⟨by omega, hk, fun j hj hle => ?_⟩
        rcases Nat.lt_or_eq_of_le hle with hlt | rfl
        · exact hnone j hj (by omega)
        · simpa using hbegins

theorem home_of_beginsLine {plan : Plan} {index : Nat} (h : plan.beginsLine g index) :
    plan.home g index = some index := by
  unfold home homeFrom
  rw [if_neg (by simp), if_pos h]

/--
What a token moves with depends on what begins lines from the beginning of its own line on.
-/
theorem homeFrom_congr {plan plan' : Plan} {isStart : Bool} {start index : Nat} (hstart : start ≤ index)
    (hline : start = 0 ∨ plan.beginsLine g start)
    (h : ∀ j, start ≤ j → j ≤ index → plan'.beginsLine g j = plan.beginsLine g j) :
    plan'.homeFrom g isStart index = plan.homeFrom g isStart index := by
  induction index generalizing isStart with
  | zero =>
    unfold homeFrom
    rw [h 0 hstart (Nat.le_refl 0)]
  | succ index ih =>
    rw [homeFrom_succ, homeFrom_succ, h _ hstart (Nat.le_refl _)]
    rcases Nat.lt_or_eq_of_le hstart with hlt | rfl
    · rw [ih (by omega) fun j hj hle => h j hj (by omega)]
    · simp only [hline.resolve_left (Nat.succ_ne_zero _), if_true]

/--
The plan moves a token by `d`, unless its line begins inside of a token.
-/
def MovesBy (plan : Plan) (g : Grid) (index : Nat) (d : Int) : Prop :=
  ∀ k, plan.home g index = some k → plan.shiftAt g k = d

end Plan

end Indent

end HaskellStyle
