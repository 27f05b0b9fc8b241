import HaskellStyle.Proofs.Block.Laid
import HaskellStyle.Proofs.Rule.Grid
import Mathlib.Data.List.Nodup

/-!
This module contains what visits of blocks do to a plan. A visit changes nothing for tokens outside of its blocks, it plans
columns only where a line can be moved, and it gives the items of each block one shift. The blocks of an item are visited
one after the other, so the visits compose, and what a visit has done is not undone by those after it. If a line begins
behind consecutive tokens that are moved, all tokens outside of them stay with their lines; and if all lines of theirs are
moved by the same, so are the tokens.
-/

namespace HaskellStyle

namespace Indent

variable {g : Grid}

namespace Plan

/--
A token can get a column: its line has an indentation that can be changed, or it goes to a new line.
-/
def Movable (plan : Plan) (g : Grid) (index : Nat) : Prop :=
  (g.get index).reindentable ∨ index ∈ plan.breaks

/--
A plan that differs from another one for some tokens only: every other token moves with the same token, by the same
shift. Of those tokens, only ones that can be moved come to have a column.
-/
structure SameOutside (g : Grid) (ts : List Token) (plan plan' : Plan) : Prop where
  breaks_subset : plan.breaks ⊆ plan'.breaks
  planned : ∀ index, (plan'.columns.lookup index).isSome → (plan.columns.lookup index).isSome
    ∨ (index < g.tokens.size ∧ g.get index ∈ ts) ∧ plan'.Movable g index
  breaks : ∀ index < g.tokens.size, g.get index ∉ ts → (index ∈ plan'.breaks ↔ index ∈ plan.breaks)
  home : ∀ index < g.tokens.size, g.get index ∉ ts → plan'.home g index = plan.home g index
  shift : ∀ index < g.tokens.size, g.get index ∉ ts → ∀ k, plan.home g index = some k →
    plan'.shiftAt g k = plan.shiftAt g k

/--
A plan in which the given tokens move by `d` and none of them goes to a new line.
-/
def Fresh (plan : Plan) (g : Grid) (ts : List Token) (d : Int) : Prop :=
  ∀ index < g.tokens.size, g.get index ∈ ts → plan.MovesBy g index d ∧ index ∉ plan.breaks

/--
The items of a block have one shift.
-/
def Aligns (plan : Plan) (g : Grid) (b : Block) : Prop :=
  ∃ d, ∀ run ∈ b.items, plan.MovesBy g (g.indexOf run.first) d

namespace SameOutside

variable {ts ts' : List Token} {plan plan' plan'' : Plan}

/--
Notes are no matter.
-/
theorem of_eq (hcolumns : plan'.columns = plan.columns) (hbreaks : plan'.breaks = plan.breaks) :
    SameOutside g ts plan plan' := by
  have hline (index : Nat) : plan'.beginsLine g index = plan.beginsLine g index := by
    rw [beginsLine, beginsLine, hbreaks]
  refine ⟨by rw [hbreaks]; exact List.Subset.refl _, fun index h => .inl (by rwa [← hcolumns]),
    fun _ _ _ => by rw [hbreaks], fun _ _ _ => ?_, fun _ _ _ _ _ => by rw [shiftAt, shiftAt, hcolumns]⟩
  exact homeFrom_congr (Nat.zero_le _) (.inl rfl) fun j _ _ => hline j

theorem mono (h : SameOutside g ts plan plan') (hts : ts ⊆ ts') : SameOutside g ts' plan plan' where
  breaks_subset := h.breaks_subset
  planned index hplanned := (h.planned index hplanned).imp_right (And.imp_left (And.imp_right (hts ·)))
  breaks index hindex hmem := h.breaks index hindex fun hts' => hmem (hts hts')
  home index hindex hmem := h.home index hindex fun hts' => hmem (hts hts')
  shift index hindex hmem := h.shift index hindex fun hts' => hmem (hts hts')

theorem trans (h : SameOutside g ts plan plan') (h' : SameOutside g ts plan' plan'') :
    SameOutside g ts plan plan'' where
  breaks_subset := List.Subset.trans h.breaks_subset h'.breaks_subset
  planned index hplanned := by
    rcases h'.planned index hplanned with hplanned | hnew
    · exact (h.planned index hplanned).imp_right (And.imp_right (Or.imp_right (h'.breaks_subset ·)))
    · exact .inr hnew
  breaks index hindex hmem := (h'.breaks index hindex hmem).trans (h.breaks index hindex hmem)
  home index hindex hmem := (h'.home index hindex hmem).trans (h.home index hindex hmem)
  shift index hindex hmem k hk := by
    rw [h'.shift index hindex hmem k (by rw [h.home index hindex hmem, hk]), h.shift index hindex hmem k hk]

variable (h : SameOutside g ts plan plan')
include h

theorem movesBy {index : Nat} (hindex : index < g.tokens.size) (hmem : g.get index ∉ ts) {d : Int}
    (hmoves : plan.MovesBy g index d) : plan'.MovesBy g index d := by
  intro k hk
  rw [h.home index hindex hmem] at hk
  rw [h.shift index hindex hmem k hk]
  exact hmoves k hk

theorem fresh (hts : ∀ t ∈ ts', t ∉ ts) {d : Int} (hfresh : plan.Fresh g ts' d) : plan'.Fresh g ts' d := by
  intro index hindex hmem
  obtain ⟨hmoves, hbreak⟩ := hfresh index hindex hmem
  have houtside := hts _ hmem
  exact ⟨h.movesBy hindex houtside hmoves, fun hbreak' => hbreak ((h.breaks index hindex houtside).1 hbreak')⟩

theorem aligns (hg : g.Ordered) {b : Block} (hb : ∀ run ∈ b.items, run.first ∈ g.tokens ∧ run.first ∉ ts)
    (haligns : plan.Aligns g b) : plan'.Aligns g b := by
  obtain ⟨d, hd⟩ := haligns
  refine ⟨d, fun run hrun => ?_⟩
  obtain ⟨hmem, houtside⟩ := hb run hrun
  obtain ⟨hindex, hget⟩ := hg.exists_index hmem
  exact h.movesBy hindex (by rwa [hget]) (hd run hrun)

theorem newColumn_eq {index : Nat} (hindex : index < g.tokens.size) (hmem : g.get index ∉ ts) :
    plan'.newColumn g index = plan.newColumn g index := by
  have hhome : plan'.homeFrom g true index = plan.homeFrom g true index := h.home index hindex hmem
  rw [newColumn, newColumn, lineShiftFrom_eq, lineShiftFrom_eq, hhome]
  cases hk : plan.homeFrom g true index with
  | none => rfl
  | some k => rw [Option.map_some, Option.map_some, h.shift index hindex hmem k hk]

end SameOutside

end Plan

/--
What a visit of blocks does: it leaves other tokens alone, and the items of each block come to have one shift, if all
tokens had the same shift before.
-/
structure Visits (g : Grid) (ts : List Token) (bs : List Block) (f : Plan → Plan) : Prop where
  subset : ∀ b ∈ bs, b.tokens ⊆ ts
  visit : ∀ plan d, plan.Fresh g ts d → plan.SameOutside g ts (f plan) ∧ ∀ b ∈ bs, ∀ c ∈ b.nested, (f plan).Aligns g c

theorem first_mem_tokens {b c : Block} (hc : c ∈ b.nested) {run : Run Block} (hrun : run ∈ c.items) :
    run.first ∈ b.tokens :=
  (Block.infix_of_mem_nested hc).subset ((Block.infix_of_mem_items hrun).subset List.mem_cons_self)

namespace Visits

variable {ts ts' : List Token} {bs bs' : List Block} {f f' : Plan → Plan}

theorem mono (h : Visits g ts bs f) (hts : ts ⊆ ts') : Visits g ts' bs f where
  subset b hb := List.Subset.trans (h.subset b hb) hts
  visit plan d hfresh := by
    obtain ⟨hsame, haligns⟩ := h.visit plan d fun index hindex hmem => hfresh index hindex (hts hmem)
    exact ⟨hsame.mono hts, haligns⟩

theorem nil : Visits g [] [] id where
  subset _ hb := absurd hb List.not_mem_nil
  visit _ _ _ := ⟨.of_eq rfl rfl, fun _ hb => absurd hb List.not_mem_nil⟩

/--
Visits of blocks apart from each other can be made one after the other.
-/
theorem append (hg : g.Ordered) (h : Visits g ts bs f) (h' : Visits g ts' bs' f') (hts : ts ⊆ g.tokens.toList)
    (hdisjoint : ts.Disjoint ts') : Visits g (ts ++ ts') (bs ++ bs') fun plan => f' (f plan) where
  subset b hb := by
    rcases List.mem_append.1 hb with hb | hb
    · exact List.Subset.trans (h.subset b hb) (List.subset_append_left _ _)
    · exact List.Subset.trans (h'.subset b hb) (List.subset_append_right _ _)
  visit plan d hfresh := by
    obtain ⟨hsame, haligns⟩ := h.visit plan d fun index hindex hmem =>
      hfresh index hindex (List.mem_append_left _ hmem)
    have hfresh' : plan.Fresh g ts' d := fun index hindex hmem => hfresh index hindex (List.mem_append_right _ hmem)
    obtain ⟨hsame', haligns'⟩ := h'.visit (f plan) d (hsame.fresh (fun t ht' ht => hdisjoint ht ht') hfresh')
    refine ⟨(hsame.mono (List.subset_append_left _ _)).trans (hsame'.mono (List.subset_append_right _ _)), ?_⟩
    intro b hb c hc
    rcases List.mem_append.1 hb with hb | hb
    · refine hsame'.aligns hg (fun run hrun => ?_) (haligns b hb c hc)
      have hmem := h.subset b hb (first_mem_tokens hc hrun)
      exact ⟨Array.mem_toList_iff.1 (hts hmem), fun hmem' => hdisjoint hmem hmem'⟩
    · exact haligns' b hb c hc

/--
Visits of parts of the text that stand one behind the other.
-/
theorem foldl {α : Type} (hg : g.Ordered) {xs : List α} {tokensOf : α → List Token} {blocksOf : α → List Block}
    {step : Plan → α → Plan} (h : ∀ x ∈ xs, Visits g (tokensOf x) (blocksOf x) fun plan => step plan x)
    (hts : (xs.flatMap tokensOf).Sublist g.tokens.toList) :
    Visits g (xs.flatMap tokensOf) (xs.flatMap blocksOf) fun plan => xs.foldl step plan := by
  induction xs with
  | nil => exact nil
  | cons x xs ih =>
    obtain ⟨hx, hxs⟩ := List.forall_mem_cons.1 h
    rw [List.flatMap_cons] at hts
    have hdisjoint : (tokensOf x).Disjoint (xs.flatMap tokensOf) :=
      List.disjoint_of_nodup_append (hts.nodup hg.nodup)
    exact hx.append hg (ih hxs ((List.sublist_append_right _ _).trans hts))
      ((List.sublist_append_left _ _).trans hts).subset hdisjoint

end Visits

namespace Plan

variable {plan plan' : Plan} {ts : List Token} {start stop : Nat} {d : Int}

/--
Plans that differ for the tokens from `start` up to `stop` only, the second one with more columns, for tokens that can
be moved.
-/
structure Differs (g : Grid) (start stop : Nat) (plan plan' : Plan) : Prop where
  breaks_subset : plan.breaks ⊆ plan'.breaks
  planned : ∀ index, (plan'.columns.lookup index).isSome → (plan.columns.lookup index).isSome
    ∨ (start ≤ index ∧ index < stop) ∧ plan'.Movable g index
  breaks : ∀ index, index < start ∨ stop ≤ index → (index ∈ plan'.breaks ↔ index ∈ plan.breaks)
  shift : ∀ index, index < start ∨ stop ≤ index → plan'.shiftAt g index = plan.shiftAt g index

theorem Differs.beginsLine_eq (h : Differs g start stop plan plan') {index : Nat}
    (hindex : index < start ∨ stop ≤ index) :
    plan'.beginsLine g index = plan.beginsLine g index := by
  have hcontains : plan'.breaks.contains index = plan.breaks.contains index := by
    rw [Bool.eq_iff_iff, List.contains_iff_mem, List.contains_iff_mem]
    exact h.breaks index hindex
  rw [beginsLine, beginsLine, hcontains]

/--
Tokens before the ones that are moved do not depend on them, and those behind them do not either if a line begins there.
-/
theorem Differs.sameOutside (h : Differs g start stop plan plan') (hcovers : g.Covers ts start)
    (hstop : start + ts.length = stop) (hnext : stop < g.tokens.size → plan.beginsLine g stop) :
    SameOutside g ts plan plan' := by
  have hside {index : Nat} (hindex : index < g.tokens.size) (hmem : g.get index ∉ ts) :
      index < start ∨ stop ≤ index := by
    rw [hcovers.mem_iff hindex] at hmem
    omega
  refine ⟨h.breaks_subset, fun index hplanned => (h.planned index hplanned).imp_right fun hnew => ?_,
    fun index hindex hmem => h.breaks index (hside hindex hmem), fun index hindex hmem => ?_,
    fun index hindex hmem k hk => ?_⟩
  · obtain ⟨hbounds, hmovable⟩ := hnew
    rw [← hstop] at hbounds
    have hindex := Nat.lt_of_lt_of_le hbounds.2 hcovers.le
    exact ⟨⟨hindex, (hcovers.mem_iff hindex).2 hbounds⟩, hmovable⟩
  -- Before the tokens nothing changes, and behind them the lines begin where they did.
  · rcases hside hindex hmem with hbefore | hbehind
    · exact homeFrom_congr (Nat.zero_le _) (.inl rfl) fun j _ hj => h.beginsLine_eq (.inl (by omega))
    · exact homeFrom_congr hbehind (.inr (hnext (by omega))) fun j hj _ => h.beginsLine_eq (.inr hj)
  -- The first token on a line behind the tokens is behind them too.
  · obtain ⟨hle, -, hnone⟩ := homeFrom_eq_some hk
    refine h.shift k ?_
    rcases hside hindex hmem with hbefore | hbehind
    · exact .inl (by omega)
    · refine .inr (Nat.le_of_not_lt fun hlt => ?_)
      have hbegins := hnext (by omega)
      rw [hnone stop hlt hbehind] at hbegins
      cases hbegins

/--
The tokens behind the beginning of a line move by `d` if all lines do that begin there.
-/
theorem movesBy_of_lines (hbegins : plan.beginsLine g start)
    (hlines : ∀ j, start ≤ j → j < stop → plan.beginsLine g j → plan.shiftAt g j = d) {index : Nat}
    (hstart : start ≤ index) (hstop : index < stop) : plan.MovesBy g index d := by
  intro k hk
  obtain ⟨hle, hline, hnone⟩ := homeFrom_eq_some hk
  have hk : start ≤ k := by
    refine Nat.le_of_not_lt fun hlt => ?_
    rw [hnone start hlt hstart] at hbegins
    cases hbegins
  refine hlines k hk (by omega) ?_
  rcases hline with hline | rfl
  · exact hline
  · rwa [Nat.le_zero.1 hk] at hbegins

end Plan

namespace Grid

/--
A block in the text of a grid, laid out by its columns.
-/
structure Holds (g : Grid) (b : Block) (start : Nat) : Prop where
  covers : g.Covers b.tokens start
  laid : b.Laid

namespace Holds

variable {b : Block} {start : Nat} (h : g.Holds b start)
include h

theorem tokens_eq : ∃ ts, b.tokens = b.firstToken :: ts :=
  List.head?_eq_some_iff.1 h.laid.firstToken_eq.1

theorem length_pos : 0 < b.tokens.length := by
  obtain ⟨ts, hts⟩ := h.tokens_eq
  rw [hts]
  exact Nat.zero_lt_succ _

theorem get_start : g.get start = b.firstToken := by
  obtain ⟨ts, hts⟩ := h.tokens_eq
  have hcovers := h.covers
  rw [hts] at hcovers
  exact hcovers.get_start

theorem indexOf_firstToken (hg : g.Ordered) : g.indexOf b.firstToken = start := by
  obtain ⟨ts, hts⟩ := h.tokens_eq
  have hcovers := h.covers
  rw [hts] at hcovers
  exact hcovers.indexOf_head hg

theorem indexOf_lastToken (hg : g.Ordered) : g.indexOf b.lastToken + 1 = start + b.tokens.length := by
  have hpos := h.length_pos
  have hlast : b.lastToken = b.tokens[b.tokens.length - 1] := by
    rw [Block.lastToken, List.getLastD_eq_getLast?, List.getLast?_eq_getElem?, List.getElem?_eq_getElem (by omega),
      Option.getD_some]
  rw [hlast, h.covers.indexOf_getElem hg]
  omega

theorem mem_lineStarts (hg : g.Ordered) {index : Nat} :
    index ∈ g.lineStarts b
      ↔ (start ≤ index ∧ index < start + b.tokens.length) ∧ (g.get index).lineStart := by
  have hpos := h.length_pos
  unfold lineStarts
  dsimp only
  rw [h.indexOf_firstToken hg, h.indexOf_lastToken hg, List.mem_filter, List.range_eq_range', List.drop_range',
    List.mem_range'_1, Nat.mul_one, Nat.zero_add, Nat.add_sub_cancel_left]

/--
Behind a block that closes cleanly a line begins.
-/
theorem lineStart_next (hg : g.Ordered) {target : Int} {plan : Plan} (hcloses : g.closesCleanly b target plan)
    (hnext : start + b.tokens.length < g.tokens.size) : (g.get (start + b.tokens.length)).lineStart := by
  unfold closesCleanly at hcloses
  dsimp only at hcloses
  rw [h.indexOf_lastToken hg, Bool.or_eq_true, Bool.and_eq_true] at hcloses
  rcases hcloses with hend | hline
  · exact hg.ends _ (get_mem hnext) hend
  · exact hline.1

end Holds

end Grid

section Steps

variable (plan : Plan)

@[simp] theorem columns_setBreak (index : Nat) : (plan.setBreak index).columns = plan.columns := rfl

@[simp] theorem columns_fixed (fix : String) (d : Diagnostic) : (plan.fixed g fix d).columns = plan.columns := rfl

@[simp] theorem breaks_setColumn (index : Nat) (column : Int) :
    (plan.setColumn index column).breaks = plan.breaks := rfl

@[simp] theorem breaks_fixed (fix : String) (d : Diagnostic) : (plan.fixed g fix d).breaks = plan.breaks := rfl

theorem lookup_setColumn (index : Nat) (column : Int) (other : Nat) :
    (plan.setColumn index column).columns.lookup other
      = if other = index then some column else plan.columns.lookup other := by
  rw [Plan.setColumn, List.lookup_cons]
  by_cases h : other = index
  · rw [h, beq_self_eq_true, if_pos rfl]
  · rw [beq_false_of_ne h, if_neg h]

theorem mem_breaks_ite (isStart : Bool) (index other : Nat) :
    other ∈ (if isStart then plan else plan.setBreak index).breaks
      ↔ other ∈ plan.breaks ∨ other = index ∧ isStart = false := by
  cases isStart with
  | true => simp
  | false =>
    rw [if_neg Bool.false_ne_true, Plan.setBreak, List.mem_cons]
    simp [or_comm]

end Steps

section Assign

variable (b : Block) (d : Int) (plan : Plan)

@[simp] theorem breaks_assign : (g.assign b d plan).breaks = plan.breaks :=
  List.foldlRecOn (motive := fun result : Plan => result.breaks = plan.breaks) _ _ rfl fun _ h _ _ => h

theorem lookup_assign (index : Nat) :
    (g.assign b d plan).columns.lookup index
      = if index ∈ g.lineStarts b then some ((g.get index).column + d) else plan.columns.lookup index := by
  unfold Grid.assign
  generalize g.lineStarts b = starts
  induction starts generalizing plan with
  | nil => rfl
  | cons first starts ih =>
    rw [List.foldl_cons, ih, lookup_setColumn]
    by_cases hstarts : index ∈ starts
    · rw [if_pos hstarts, if_pos (List.mem_cons_of_mem _ hstarts)]
    · rw [if_neg hstarts]
      by_cases hfirst : index = first
      · rw [if_pos hfirst, if_pos (List.mem_cons.2 (.inl hfirst)), hfirst]
      · rw [if_neg hfirst, if_neg fun hmem => (List.mem_cons.1 hmem).elim hfirst hstarts]

theorem shiftAt_assign (index : Nat) :
    (g.assign b d plan).shiftAt g index = if index ∈ g.lineStarts b then d else plan.shiftAt g index := by
  unfold Plan.shiftAt
  dsimp only
  rw [lookup_assign]
  split
  · rw [Option.getD_some]
    omega
  · rfl

end Assign

end Indent

end HaskellStyle
