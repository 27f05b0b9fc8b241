import HaskellStyle.Proofs.Declaration.Map
import HaskellStyle.Proofs.Rule.Visit
import Mathlib.Data.List.Pairwise

/-!
This module contains the columns that are planned for the items of blocks. The visit of a block moves it as a whole,
or not at all, before the blocks in its items are visited, and those visits leave the first tokens of its items alone.
So the items of every block of a module come to have one shift.
-/

namespace HaskellStyle

namespace Block

/--
The tokens of a block behind the first ones of its items.
-/
def inside (b : Block) : List Token :=
  b.items.flatMap fun run => Segment.tokens run.rest

theorem inside_sublist (b : Block) : b.inside.Sublist b.tokens := by
  rw [inside, tokens_eq]
  generalize b.items = items
  induction items with
  | nil => exact List.Sublist.refl _
  | cons run items ih =>
    rw [List.flatMap_cons, List.flatMap_cons]
    exact (List.sublist_cons_self _ _).append ih

theorem inside_subset (b : Block) : b.inside ⊆ b.tokens :=
  b.inside_sublist.subset

theorem first_not_mem_inside {b : Block} (h : b.tokens.Nodup) {run : Run Block} (hrun : run ∈ b.items) :
    run.first ∉ b.inside := by
  rw [tokens_eq, List.nodup_flatMap] at h
  intro hmem
  obtain ⟨other, hother, hmem⟩ := List.mem_flatMap.1 hmem
  by_cases heq : run = other
  · rw [← heq] at hmem
    exact (List.nodup_cons.1 (h.1 run hrun)).1 hmem
  · have : Std.Symm (Function.onFun List.Disjoint (@HaskellStyle.tokens (Run Block) _)) :=
      ⟨fun _ _ hdisjoint _ ht hu => hdisjoint hu ht⟩
    exact h.2.forall hrun hother heq List.mem_cons_self (List.mem_cons_of_mem _ hmem)

end Block

section Sublist

variable {β : Type} (f : β → List Token)

theorem Segment.sublist_tokensWith (segments : List (Segment β)) :
    ((blocks segments).flatMap f).Sublist (tokensWith f segments) := by
  induction segments with
  | nil => exact List.Sublist.refl _
  | cons segment segments ih =>
    cases segment with
    | token t =>
      rw [blocks_token, tokensWith_token]
      exact ih.cons t
    | block b =>
      rw [blocks_block, tokensWith_block, List.flatMap_cons]
      exact ih.append_left _

theorem Guard.sublist_tokensWith (x : Guard β) : (x.blocks.flatMap f).Sublist (x.tokensWith f) := by
  rw [blocks, tokensWith, List.flatMap_append]
  exact ((Segment.sublist_tokensWith f x.condition).cons _).append
    ((Segment.sublist_tokensWith f x.body).cons _)

theorem Equation.sublist_tokensWith (e : Equation β) : (e.blocks.flatMap f).Sublist (e.tokensWith f) := by
  rw [blocks, tokensWith, List.flatMap_append]
  refine (Segment.sublist_tokensWith f e.lhs).append ?_
  cases e.rhs with
  | plain equals body => exact (Segment.sublist_tokensWith f body).cons _
  | guarded guard more =>
    rw [Rhs.tokensWith, List.flatMap_assoc]
    generalize guard :: more = guards
    induction guards with
    | nil => exact List.Sublist.refl _
    | cons x guards ih =>
      rw [List.flatMap_cons, List.flatMap_cons]
      exact (Guard.sublist_tokensWith f x).append ih

end Sublist

namespace Indent

variable {g : Grid}

/--
What is done at a block: it is moved, or only its items are visited.
-/
structure Visited (g : Grid) (b : Block) (v : Visit) : Prop where
  whole : ∀ enclosing, Visits g b.tokens [b] (v.whole enclosing)
  items : ∀ enclosing, Visits g b.inside (b.items.flatMap Run.blocks) (v.items enclosing)

/--
The plan in which a `where` and its bindings have been placed. Lines of theirs that have an indentation can be moved.
-/
structure Placed (g : Grid) (w : WhereClause (Block × Visit)) (whereColumn bindingColumn : Int) (plan placed : Plan) :
    Prop where
  lookup : ∀ index, placed.columns.lookup index
    = if index = g.indexOf w.block.1.firstToken then some bindingColumn
      else if index ∈ g.lineStarts w.block.1 then some ((g.get index).column + (bindingColumn - w.block.1.column))
      else if index = g.indexOf w.keyword then some whereColumn
      else plan.columns.lookup index
  breaks : ∀ index, index ∈ placed.breaks ↔ index ∈ plan.breaks
    ∨ index = g.indexOf w.keyword ∧ w.keyword.lineStart = false
    ∨ index = g.indexOf w.block.1.firstToken ∧ w.block.1.firstToken.lineStart = false
  keyword : w.keyword.lineStart → w.keyword.reindentable
  first : w.block.1.firstToken.lineStart → w.block.1.firstToken.reindentable
  lines : ∀ index ∈ g.lineStarts w.block.1,
    (g.get index).offset = w.block.1.firstToken.offset ∨ (g.get index).reindentable

theorem Grid.closesCleanly_of_bindingsMovable {b : Block} {target : Int} {plan : Plan}
    (h : g.bindingsMovable b target plan) : g.closesCleanly b target plan := by
  unfold bindingsMovable at h
  dsimp only at h
  rw [Bool.and_eq_true] at h
  exact h.2

variable (hg : g.Ordered)
include hg

/--
If all tokens of a block have one shift, its items keep it when the blocks in them are visited.
-/
theorem Visits.nested {b : Block} {start : Nat} {f : Plan → Plan} (hb : g.Holds b start)
    (h : Visits g b.inside (b.items.flatMap Run.blocks) f) {plan : Plan} {d : Int}
    (hmoves : ∀ index, start ≤ index → index < start + b.tokens.length → plan.MovesBy g index d)
    (hbreaks : ∀ index < g.tokens.size, g.get index ∈ b.inside → index ∉ plan.breaks) :
    plan.SameOutside g b.tokens (f plan) ∧ ∀ c ∈ b.nested, (f plan).Aligns g c := by
  have hbounds {index : Nat} (hindex : index < g.tokens.size) (hmem : g.get index ∈ b.tokens) :=
    (hb.covers.mem_iff hindex).1 hmem
  obtain ⟨hsame, haligns⟩ := h.visit plan d fun index hindex hmem =>
    have hindices := hbounds hindex (b.inside_subset hmem)
    ⟨hmoves index hindices.1 hindices.2, hbreaks index hindex hmem⟩
  refine ⟨hsame.mono b.inside_subset, Block.forall_mem_nested.2 ⟨?_, fun run hrun c hc => ?_⟩⟩
  -- The first tokens of the items are outside of what the visit may change, so they keep the shift.
  · have hfirst {run : Run Block} (hrun : run ∈ b.items) : run.first ∈ b.tokens :=
      first_mem_tokens b.mem_nested_self hrun
    have houtside {run : Run Block} (hrun : run ∈ b.items) :=
      Block.first_not_mem_inside (hb.covers.nodup hg) hrun
    refine hsame.aligns hg (fun run hrun => ⟨hb.covers.mem (hfirst hrun), houtside hrun⟩) ⟨d, fun run hrun => ?_⟩
    obtain ⟨hindex, hget⟩ := hg.exists_index (hb.covers.mem (hfirst hrun))
    have hindices := hbounds hindex (by rw [hget]; exact hfirst hrun)
    exact hmoves _ hindices.1 hindices.2
  · exact haligns c (List.mem_flatMap.2 ⟨run, hrun, hc⟩)

/--
A block that can be moved takes its tokens with it, and no others.
-/
theorem assign_fresh {b : Block} {start : Nat} (hb : g.Holds b start) {plan : Plan} {d delta : Int}
    {enclosing : Option Int} (hfresh : plan.Fresh g b.tokens d) (hshift : g.shift? b enclosing plan = some delta) :
    plan.SameOutside g b.tokens (g.assign b delta plan) ∧ (g.assign b delta plan).Fresh g b.tokens delta := by
  unfold Grid.shift? at hshift
  dsimp only at hshift
  obtain ⟨hmovable, -⟩ := Option.ite_none_right_eq_some.1 hshift
  simp only [Bool.and_eq_true] at hmovable
  obtain ⟨⟨⟨⟨hline, hlines⟩, -⟩, -⟩, hcloses⟩ := hmovable
  have hdiffers : plan.Differs g start (start + b.tokens.length) (g.assign b delta plan) := by
    refine ⟨by rw [breaks_assign]; exact List.Subset.refl _, fun index hplanned => ?_,
      fun _ _ => by rw [breaks_assign], fun index hindex => ?_⟩
    · rw [lookup_assign] at hplanned
      split at hplanned
      · next hline => exact .inr ⟨((hb.mem_lineStarts hg).1 hline).1, .inl (List.all_eq_true.1 hlines index hline)⟩
      · exact .inl hplanned
    · rw [shiftAt_assign, if_neg]
      rw [hb.mem_lineStarts hg]
      omega
  refine ⟨hdiffers.sameOutside hb.covers rfl fun hnext => ?_, fun index hindex hmem => ⟨?_, ?_⟩⟩
  · rw [Plan.beginsLine, hb.lineStart_next hg hcloses hnext, Bool.true_or]
  · have hindices := (hb.covers.mem_iff hindex).1 hmem
    refine Plan.movesBy_of_lines ?_ (fun j hstart hstop hbegins => ?_) hindices.1 hindices.2
    · rw [Plan.beginsLine, hb.get_start, hline, Bool.true_or]
    · -- No token of the block has gone to a new line, so each line of it begins in the text.
      have hj : j < g.tokens.size := Nat.lt_of_lt_of_le hstop hb.covers.le
      have hbreak := (hfresh j hj ((hb.covers.mem_iff hj).2 ⟨hstart, hstop⟩)).2
      rw [shiftAt_assign, if_pos]
      rw [hb.mem_lineStarts hg]
      rw [Plan.beginsLine, breaks_assign, Bool.or_eq_true, List.contains_iff_mem] at hbegins
      exact ⟨⟨hstart, hstop⟩, hbegins.resolve_right hbreak⟩
  · rw [breaks_assign]
    exact (hfresh index hindex hmem).2

theorem visitAll_visits {blocks : List (Block × Visit)} (hblocks : ∀ b ∈ blocks, Visited g b.1 b.2)
    (hts : (blocks.flatMap fun b => b.1.tokens).Sublist g.tokens.toList) (enclosing : Option Int) :
    Visits g (blocks.flatMap fun b => b.1.tokens) (blocks.map Prod.fst)
      (visitAll (blocks.map Prod.snd) enclosing) := by
  have hvisits : Visits g (blocks.flatMap fun b => b.1.tokens) (blocks.flatMap fun b => [b.1])
      fun plan => blocks.foldl (fun plan b => b.2.whole enclosing plan) plan :=
    .foldl hg (fun b hb => (hblocks b hb).whole enclosing) hts
  rw [List.map_eq_flatMap]
  unfold visitAll
  simp only [List.foldl_map]
  exact hvisits

section Clause

variable {first : Token} {blocks : List Block} {w : WhereClause (Block × Visit)} {enclosing : Option Int} {plan : Plan}
  {index : Nat}

omit hg in
/--
A `where` that is put in its place, with its bindings.
-/
theorem exists_placed
    (h : (g.whereMovable blocks w.keyword (plan.newColumn g (g.indexOf first) + g.width) plan
      && g.bindingsMovable w.block.1 (plan.newColumn g (g.indexOf first) + g.width + g.width) plan) = true) :
    ∃ (whereColumn bindingColumn : Int) (placed : Plan),
      placeWhere g first blocks w enclosing plan = w.block.2.items (some bindingColumn) placed
        ∧ Placed g w whereColumn bindingColumn plan placed := by
  obtain ⟨keyword, b, v⟩ := w
  refine ⟨plan.newColumn g (g.indexOf first) + g.width, plan.newColumn g (g.indexOf first) + g.width + g.width, ?_⟩
  unfold placeWhere
  dsimp only at h ⊢
  rw [if_pos h]
  refine ⟨_, rfl, fun index => ?_, fun index => ?_, fun hline => ?_, fun hline => ?_, fun index hindex => ?_⟩
  · simp only [apply_ite Plan.columns, columns_fixed, columns_setBreak, ite_self, lookup_setColumn, lookup_assign]
  · rw [apply_ite Plan.breaks, breaks_fixed, ite_self, mem_breaks_ite]
    show index ∈ (g.assign b _ _).breaks ∨ _ ↔ _
    rw [breaks_assign, mem_breaks_ite, or_assoc]
    rfl
  all_goals
    unfold Grid.whereMovable Grid.bindingsMovable at h
    simp only [Bool.and_eq_true] at h
    obtain ⟨⟨hkeyword, -⟩, ⟨hfirst, hlines⟩, -⟩ := h
  · rwa [if_pos hline] at hkeyword
  · rwa [if_pos hline] at hfirst
  · simpa using List.all_eq_true.1 hlines index hindex

namespace Placed

variable {start : Nat} {whereColumn bindingColumn : Int} {placed : Plan}
  (h : Placed g w whereColumn bindingColumn plan placed) (hcovers : g.Covers (w.keyword :: w.block.1.tokens) start)
  (hb : g.Holds w.block.1 (start + 1))
include h hcovers hb

theorem movable {index : Nat} (hindex : (placed.columns.lookup index).isSome) :
    (plan.columns.lookup index).isSome
      ∨ (start ≤ index ∧ index < start + (w.block.1.tokens.length + 1)) ∧ placed.Movable g index := by
  have hpos := hb.length_pos
  -- Where the keyword or the first binding begins no line, it goes to a new one.
  have hkeyword : placed.Movable g start := by
    unfold Plan.Movable
    rw [hcovers.get_start, h.breaks, hcovers.indexOf_head hg]
    cases hline : w.keyword.lineStart with
    | true => exact .inl (h.keyword hline)
    | false => exact .inr (.inr (.inl ⟨rfl, rfl⟩))
  have hbinding : placed.Movable g (start + 1) := by
    unfold Plan.Movable
    rw [hb.get_start, h.breaks, hb.indexOf_firstToken hg]
    cases hline : w.block.1.firstToken.lineStart with
    | true => exact .inl (h.first hline)
    | false => exact .inr (.inr (.inr ⟨rfl, rfl⟩))
  rw [h.lookup, hcovers.indexOf_head hg, hb.indexOf_firstToken hg] at hindex
  split at hindex
  · next heq => exact .inr ⟨by omega, heq ▸ hbinding⟩
  · split at hindex
    · next hline =>
      have hbounds := ((hb.mem_lineStarts hg).1 hline).1
      have hle := hb.covers.le
      refine .inr ⟨by omega, (h.lines index hline).elim (fun hoffset => ?_) .inl⟩
      rw [← hb.get_start] at hoffset
      rw [hg.index_eq (by omega) (by omega) hoffset]
      exact hbinding
    · split at hindex
      · next heq => exact .inr ⟨by omega, heq ▸ hkeyword⟩
      · exact .inl hindex

theorem differs : plan.Differs g start (start + (w.keyword :: w.block.1.tokens).length) placed := by
  rw [List.length_cons]
  refine ⟨fun index hindex => (h.breaks index).2 (.inl hindex), fun index => h.movable hg hcovers hb,
    fun index hindex => ?_, fun index hindex => ?_⟩
  · rw [h.breaks, hcovers.indexOf_head hg, hb.indexOf_firstToken hg]
    have hpos := hb.length_pos
    have hkeyword : index ≠ start := by omega
    have hbinding : index ≠ start + 1 := by omega
    simp only [hkeyword, hbinding, false_and, or_false]
  · have hpos := hb.length_pos
    unfold Plan.shiftAt
    dsimp only
    rw [h.lookup, hcovers.indexOf_head hg, hb.indexOf_firstToken hg, if_neg (by omega), if_neg, if_neg (by omega)]
    rw [hb.mem_lineStarts hg]
    omega

variable (hfree : ∀ index < g.tokens.size, g.get index ∈ w.keyword :: w.block.1.tokens → index ∉ plan.breaks)
include hfree

/--
Of the bindings only the first token may go to a new line.
-/
theorem mem_breaks_iff (hindex : start + 1 ≤ index) (hstop : index < start + 1 + w.block.1.tokens.length) :
    index ∈ placed.breaks ↔ index = start + 1 ∧ w.block.1.firstToken.lineStart = false := by
  have hlt := Nat.lt_of_lt_of_le hstop hb.covers.le
  have hnew := hfree index hlt (List.mem_cons_of_mem _ ((hb.covers.mem_iff hlt).2 ⟨hindex, hstop⟩))
  rw [h.breaks, hcovers.indexOf_head hg, hb.indexOf_firstToken hg]
  constructor
  · rintro (hplanned | ⟨hkeyword, -⟩ | hbinding)
    · exact absurd hplanned hnew
    · omega
    · exact hbinding
  · exact fun hbinding => .inr (.inr hbinding)

theorem movesBy (hindex : start + 1 ≤ index) (hstop : index < start + 1 + w.block.1.tokens.length) :
    placed.MovesBy g index (bindingColumn - w.block.1.column) := by
  have hbegins {j : Nat} (hj : start + 1 ≤ j) (hstop : j < start + 1 + w.block.1.tokens.length) :
      placed.beginsLine g j ↔ (g.get j).lineStart ∨ j = start + 1 ∧ w.block.1.firstToken.lineStart = false := by
    rw [Plan.beginsLine, Bool.or_eq_true, List.contains_iff_mem, h.mem_breaks_iff hg hcovers hb hfree hj hstop]
  refine Plan.movesBy_of_lines ?_ (fun j hj hstop hline => ?_) hindex hstop
  · rw [hbegins (Nat.le_refl _) (by have := hb.length_pos; omega), hb.get_start]
    cases w.block.1.firstToken.lineStart <;> simp
  · have hfirst : (g.get (start + 1)).column = w.block.1.column := by rw [hb.get_start, hb.laid.firstToken_eq.2]
    rw [hbegins hj hstop] at hline
    unfold Plan.shiftAt
    dsimp only
    rw [h.lookup, hb.indexOf_firstToken hg]
    split
    · next hbinding => rw [hbinding, hfirst, Option.getD_some]
    · next hother =>
      rw [if_pos, Option.getD_some]
      · omega
      · exact (hb.mem_lineStarts hg).2 ⟨⟨hj, hstop⟩, hline.resolve_right fun hbinding => hother hbinding.1⟩

theorem not_mem_breaks (hindex : index < g.tokens.size) (hmem : g.get index ∈ w.block.1.inside) :
    index ∉ placed.breaks := by
  obtain ⟨hstart, hstop⟩ := (hb.covers.mem_iff hindex).1 (w.block.1.inside_subset hmem)
  rw [h.mem_breaks_iff hg hcovers hb hfree hstart hstop]
  rintro ⟨rfl, -⟩
  obtain ⟨run, more, hitems, hrun⟩ := hb.laid.exists_items
  rw [hb.get_start, hrun] at hmem
  exact Block.first_not_mem_inside (hb.covers.nodup hg) (by rw [hitems]; exact List.mem_cons_self) hmem

end Placed

/--
A `where` that is put in its place takes its bindings along, and no other tokens.
-/
theorem placeWhere_visits {start : Nat} (hcovers : g.Covers (w.keyword :: w.block.1.tokens) start)
    (hlaid : w.block.1.Laid) (hv : Visited g w.block.1 w.block.2)
    (hfree : ∀ index < g.tokens.size, g.get index ∈ w.keyword :: w.block.1.tokens → index ∉ plan.breaks)
    (h : (g.whereMovable blocks w.keyword (plan.newColumn g (g.indexOf first) + g.width) plan
      && g.bindingsMovable w.block.1 (plan.newColumn g (g.indexOf first) + g.width + g.width) plan) = true) :
    plan.SameOutside g (w.keyword :: w.block.1.tokens) (placeWhere g first blocks w enclosing plan)
      ∧ ∀ c ∈ w.block.1.nested, (placeWhere g first blocks w enclosing plan).Aligns g c := by
  obtain ⟨whereColumn, bindingColumn, placed, heq, hplaced⟩ := @exists_placed g first blocks w enclosing plan h
  have hb : g.Holds w.block.1 (start + 1) := ⟨hcovers.tail hg, hlaid⟩
  rw [Bool.and_eq_true] at h
  have hsame := (hplaced.differs hg hcovers hb).sameOutside hcovers rfl fun hnext => by
    rw [List.length_cons, Nat.add_comm _ 1, ← Nat.add_assoc] at hnext ⊢
    rw [Plan.beginsLine, hb.lineStart_next hg (Grid.closesCleanly_of_bindingsMovable h.2) hnext, Bool.true_or]
  obtain ⟨hitems, haligns⟩ := Visits.nested hg hb (hv.items (some bindingColumn))
    (fun _ => hplaced.movesBy hg hcovers hb hfree) fun _ => hplaced.not_mem_breaks hg hcovers hb hfree
  rw [heq]
  exact ⟨hsame.trans (hitems.mono (List.subset_cons_self _ _)), haligns⟩

omit hg in
/--
The column of a `where` is no matter to tokens outside of it and its bindings if a line begins behind these.
-/
theorem setColumn_sameOutside {ts : List Token} {start : Nat} (hcovers : g.Covers ts start) (hts : ts ≠ [])
    (hmovable : (g.get start).reindentable)
    (hnext : start + ts.length < g.tokens.size → plan.beginsLine g (start + ts.length)) (column : Int) :
    plan.SameOutside g ts (plan.setColumn start column) := by
  have hpos := List.length_pos_of_ne_nil hts
  refine Plan.Differs.sameOutside ⟨List.Subset.refl _, fun index hindex => ?_, fun _ _ => Iff.rfl,
    fun index hindex => ?_⟩ hcovers rfl hnext
  · rw [lookup_setColumn] at hindex
    split at hindex
    · next heq => exact .inr ⟨by omega, .inl (heq ▸ hmovable)⟩
    · exact .inl hindex
  · unfold Plan.shiftAt
    dsimp only
    rw [lookup_setColumn, if_neg (by omega)]

/--
The parts of an equation with local definitions: the blocks before the `where`, the `where` and its bindings.
-/
structure Parted (g : Grid) (first : Token) (ts : List Token) (c : Clause (Block × Visit))
    (w : WhereClause (Block × Visit)) (start : Nat) : Prop where
  covers : g.Covers (w.keyword :: w.block.1.tokens) start
  laid : w.block.1.Laid
  visited : Visited g w.block.1 w.block.2
  equation : ∀ enclosing, Visits g (c.equation.blocks.flatMap fun b => b.1.tokens) (c.equation.blocks.map Prod.fst)
    (visitAll (c.equation.blocks.map Prod.snd) enclosing)
  before : (c.equation.blocks.flatMap fun b => b.1.tokens) ⊆ ts
  behind : w.keyword :: w.block.1.tokens ⊆ ts
  disjoint : (c.equation.blocks.flatMap fun b => b.1.tokens).Disjoint (w.keyword :: w.block.1.tokens)
  subset : ts ⊆ g.tokens.toList
  first_mem : first ∈ g.tokens
  first_not_mem : first ∉ ts

/--
What is planned before the `where` is placed: other tokens are left alone, and either the `where` can be placed then,
or it and its bindings have the shift that they had.
-/
structure Planned (g : Grid) (first : Token) (ts : List Token) (c : Clause (Block × Visit))
    (w : WhereClause (Block × Visit)) (plan planned : Plan) : Prop where
  same : plan.SameOutside g ts planned
  aligns : ∀ b ∈ c.equation.blocks.map Prod.fst, ∀ inner ∈ b.nested, planned.Aligns g inner
  free : ∀ index < g.tokens.size, g.get index ∈ w.keyword :: w.block.1.tokens → index ∉ planned.breaks
  ready : (g.whereMovable (c.equation.blocks.map Prod.fst) w.keyword
      (planned.newColumn g (g.indexOf first) + g.width) planned
    && g.bindingsMovable w.block.1 (planned.newColumn g (g.indexOf first) + g.width + g.width) planned) = true
    ∨ ∃ d, planned.Fresh g (w.keyword :: w.block.1.tokens) d

namespace Parted

variable {ts : List Token} {c : Clause (Block × Visit)} {start : Nat} {d : Int} (h : Parted g first ts c w start)
include h

omit hg in
/--
The blocks before the `where` are visited as if there was none.
-/
theorem planned_visitAll {plan' : Plan} (hsame : plan.SameOutside g ts plan') (hfresh : plan'.Fresh g ts d) :
    Planned g first ts c w plan (visitAll (c.equation.blocks.map Prod.snd) enclosing plan') := by
  obtain ⟨hvisit, haligns⟩ := (h.equation enclosing).visit plan' d fun index hindex hmem =>
    hfresh index hindex (h.before hmem)
  have hlocals : plan'.Fresh g (w.keyword :: w.block.1.tokens) d := fun index hindex hmem =>
    hfresh index hindex (h.behind hmem)
  have hvisited := hvisit.fresh (fun t ht hmem => h.disjoint hmem ht) hlocals
  exact ⟨hsame.trans (hvisit.mono h.before), haligns, fun index hindex hmem => (hvisited index hindex hmem).2,
    .inr ⟨d, hvisited⟩⟩

/--
The blocks before the `where` are visited with a column for it, and it can be placed there.
-/
theorem planned_tried (hkeyword : w.keyword.reindentable) (hfresh : plan.Fresh g ts d) {tried : Plan}
    (htried : tried = visitAll (c.equation.blocks.map Prod.snd) enclosing
      (plan.setColumn (g.indexOf w.keyword) (plan.newColumn g (g.indexOf first) + g.width)))
    (hmovable : (g.whereMovable (c.equation.blocks.map Prod.fst) w.keyword
        (plan.newColumn g (g.indexOf first) + g.width) tried
      && g.bindingsMovable w.block.1 (plan.newColumn g (g.indexOf first) + g.width + g.width) tried) = true) :
    Planned g first ts c w plan tried := by
  have hb : g.Holds w.block.1 (start + 1) := ⟨h.covers.tail hg, h.laid⟩
  rw [h.covers.indexOf_head hg] at htried
  have hprovisional : plan.SameOutside g (w.keyword :: w.block.1.tokens) _ :=
    setColumn_sameOutside h.covers (List.cons_ne_nil _ _) (by rwa [h.covers.get_start]) (fun hnext => by
      rw [Bool.and_eq_true] at hmovable
      rw [List.length_cons, Nat.add_comm _ 1, ← Nat.add_assoc] at hnext ⊢
      rw [Plan.beginsLine, hb.lineStart_next hg (Grid.closesCleanly_of_bindingsMovable hmovable.2) hnext,
        Bool.true_or]) (plan.newColumn g (g.indexOf first) + g.width)
  -- The column for the `where` is no matter to the blocks before it.
  obtain ⟨hvisit, haligns⟩ := (h.equation enclosing).visit _ d
    (hprovisional.fresh (fun t ht => h.disjoint ht) fun index hindex hmem => hfresh index hindex (h.before hmem))
  rw [← htried] at hvisit haligns
  have hsame := (hprovisional.mono h.behind).trans (hvisit.mono h.before)
  refine ⟨hsame, haligns, fun index hindex hmem hbreak => ?_, .inl ?_⟩
  · rw [hvisit.breaks index hindex fun hbefore => h.disjoint hbefore hmem] at hbreak
    exact (hfresh index hindex (h.behind hmem)).2 hbreak
  -- The first token has stayed, so the columns for the `where` are those that were tried.
  · obtain ⟨hindex, hget⟩ := hg.exists_index h.first_mem
    rwa [hsame.newColumn_eq hindex (by rw [hget]; exact h.first_not_mem)]

/--
Once its blocks are visited and its `where` is placed, all of an equation is visited.
-/
theorem visits_of_planned (enclosing : Option Int) {f : Plan → Plan} (hlocals : c.locals = some w)
    (hf : ∀ plan d, plan.Fresh g ts d → ∃ planned, Planned g first ts c w plan planned
      ∧ f plan = placeWhere g first (c.equation.blocks.map Prod.fst) w enclosing planned) :
    Visits g ts (c.blocks.map Prod.fst) f := by
  have hblocks : c.blocks.map Prod.fst = c.equation.blocks.map Prod.fst ++ [w.block.1] := by
    rw [Clause.blocks, hlocals, List.map_append]
    rfl
  have hsubset : ∀ b ∈ c.equation.blocks.map Prod.fst, b.tokens ⊆ c.equation.blocks.flatMap fun b => b.1.tokens := by
    rw [List.forall_mem_map]
    exact fun b hb t ht => List.mem_flatMap.2 ⟨b, hb, ht⟩
  rw [hblocks]
  refine ⟨fun b hb => ?_, fun plan d hfresh => ?_⟩
  · rcases List.mem_append.1 hb with hb | hb
    · exact List.Subset.trans (hsubset b hb) h.before
    · rw [List.mem_singleton.1 hb]
      exact List.Subset.trans (List.subset_cons_self _ _) h.behind
  · obtain ⟨planned, hplanned, heq⟩ := hf plan d hfresh
    have hplaced : planned.SameOutside g (w.keyword :: w.block.1.tokens) (f plan)
        ∧ ∀ b ∈ w.block.1.nested, (f plan).Aligns g b := by
      rw [heq]
      -- The `where` is placed with its bindings, or its bindings are visited where they are.
      by_cases hmovable : (g.whereMovable (c.equation.blocks.map Prod.fst) w.keyword
          (planned.newColumn g (g.indexOf first) + g.width) planned
        && g.bindingsMovable w.block.1 (planned.newColumn g (g.indexOf first) + g.width + g.width) planned) = true
      · exact placeWhere_visits hg h.covers h.laid h.visited hplanned.free hmovable
      · obtain ⟨d, hfresh⟩ := hplanned.ready.resolve_left hmovable
        unfold placeWhere
        dsimp only
        rw [if_neg hmovable]
        obtain ⟨hsame, haligns⟩ := (h.visited.whole enclosing).visit planned d fun index hindex hmem =>
          hfresh index hindex (List.mem_cons_of_mem _ hmem)
        exact ⟨hsame.mono (List.subset_cons_self _ _), haligns _ (List.mem_singleton.2 rfl)⟩
    refine ⟨hplanned.same.trans (hplaced.1.mono h.behind), fun b hb => ?_⟩
    rcases List.mem_append.1 hb with hb | hb
    · intro inner hinner
      refine hplaced.1.aligns hg (fun run hrun => ?_) (hplanned.aligns b hb inner hinner)
      have hmem := hsubset b hb (first_mem_tokens hinner hrun)
      exact ⟨Array.mem_toList_iff.1 (h.subset (h.before hmem)), h.disjoint hmem⟩
    · rw [List.mem_singleton.1 hb]
      exact hplaced.2

end Parted

omit hg in
theorem tokensWith_ne_nil (f : Block × Visit → List Token) (e : Equation (Block × Visit)) : e.tokensWith f ≠ [] := by
  obtain ⟨lhs, rhs⟩ := e
  cases rhs <;> simp [Equation.tokensWith, Rhs.tokensWith, Guard.tokensWith]

omit hg in
/--
The local definitions of an equation stand behind its first token.
-/
theorem locals_suffix {ts : List Token} {c : Clause (Block × Visit)} (hlocals : c.locals = some w)
    (htokens : c.tokensWith (fun b => b.1.tokens) = first :: ts) :
    c.equation.tokensWith (fun b => b.1.tokens) ++ w.keyword :: w.block.1.tokens = first :: ts
      ∧ w.keyword :: w.block.1.tokens <:+ ts := by
  have hsplit : c.equation.tokensWith (fun b => b.1.tokens) ++ w.keyword :: w.block.1.tokens = first :: ts := by
    rw [← htokens, Clause.tokensWith, hlocals]
  obtain ⟨more, -, hmore⟩ := (List.append_eq_cons_iff.1 hsplit).resolve_left fun hnil => tokensWith_ne_nil _ _ hnil.1
  exact ⟨hsplit, hmore ▸ List.suffix_append _ _⟩

theorem parted_of_tokensWith {ts : List Token} {c : Clause (Block × Visit)} (hlocals : c.locals = some w)
    (htokens : c.tokensWith (fun b => b.1.tokens) = first :: ts) (hts : first :: ts <:+: g.tokens.toList)
    (hblocks : (c.equation.blocks.flatMap fun b => b.1.tokens) ⊆ ts) (hlaid : w.block.1.Laid)
    (hvisited : Visited g w.block.1 w.block.2)
    (hequation : ∀ enclosing, Visits g (c.equation.blocks.flatMap fun b => b.1.tokens)
      (c.equation.blocks.map Prod.fst) (visitAll (c.equation.blocks.map Prod.snd) enclosing)) :
    ∃ start, Parted g first ts c w start := by
  have hnodup := hts.sublist.nodup hg.nodup
  obtain ⟨hsplit, hbehind⟩ := locals_suffix hlocals htokens
  have hsuffix : ts <:+ first :: ts := List.suffix_cons first ts
  obtain ⟨start, hcovers⟩ := hg.exists_covers ((hbehind.trans hsuffix).isInfix.trans hts)
  rw [← hsplit] at hnodup
  exact ⟨start, {
    covers := hcovers
    laid := hlaid
    visited := hvisited
    equation := hequation
    before := hblocks
    behind := hbehind.subset
    disjoint := fun t ht => List.disjoint_of_nodup_append hnodup ((Equation.sublist_tokensWith _ _).subset ht)
    subset := (hsuffix.isInfix.trans hts).subset
    first_mem := Array.mem_toList_iff.1 (hts.subset List.mem_cons_self)
    first_not_mem := (List.nodup_cons.1 (hsplit ▸ hnodup)).1
  }⟩

/--
The visit of an equation that begins with `first`, if its blocks are visited as they should be.
-/
theorem visitClause_visits {ts : List Token} {c : Clause (Block × Visit)}
    (htokens : c.tokensWith (fun b => b.1.tokens) = first :: ts) (hts : first :: ts <:+: g.tokens.toList)
    (hblocks : (c.blocks.flatMap fun b => b.1.tokens).Sublist ts) (hlaid : ∀ b ∈ c.blocks, b.1.Laid)
    (hvisited : ∀ b ∈ c.blocks, Visited g b.1 b.2) (enclosing : Option Int) :
    Visits g ts (c.blocks.map Prod.fst) (visitClause g first c enclosing) := by
  have hsublist : ts.Sublist g.tokens.toList := (List.sublist_cons_self _ _).trans hts.sublist
  have hequation (enclosing : Option Int) : Visits g (c.equation.blocks.flatMap fun b => b.1.tokens)
      (c.equation.blocks.map Prod.fst) (visitAll (c.equation.blocks.map Prod.snd) enclosing) := by
    refine visitAll_visits hg (fun b hb => hvisited b (List.mem_append_left _ hb)) ?_ enclosing
    rw [Clause.blocks, List.flatMap_append] at hblocks
    exact (List.sublist_append_left _ _).trans (hblocks.trans hsublist)
  cases hlocals : c.locals with
  | none =>
    have heq : c.blocks = c.equation.blocks := by rw [Clause.blocks, hlocals]; exact List.append_nil _
    have hvisit : visitClause g first c enclosing = visitAll (c.equation.blocks.map Prod.snd) enclosing := by
      funext plan
      unfold visitClause
      rw [hlocals]
    rw [heq] at hblocks ⊢
    rw [hvisit]
    exact (hequation enclosing).mono hblocks.subset
  | some w =>
    have hw : w.block ∈ c.blocks := by simp [Clause.blocks, hlocals]
    have hbefore : (c.equation.blocks.flatMap fun b => b.1.tokens) ⊆ ts := by
      rw [Clause.blocks, List.flatMap_append] at hblocks
      exact ((List.sublist_append_left _ _).trans hblocks).subset
    obtain ⟨start, hparted⟩ :=
      parted_of_tokensWith hg hlocals htokens hts hbefore (hlaid _ hw) (hvisited _ hw) hequation
    refine hparted.visits_of_planned hg enclosing hlocals fun plan d hfresh => ?_
    unfold visitClause
    rw [hlocals]
    dsimp only
    split
    · next hkeyword =>
      split
      · next hmovable => exact ⟨_, hparted.planned_tried hg hkeyword hfresh rfl hmovable, rfl⟩
      · -- What was tried is undone, up to the notes on it.
        have hrestored (tried : Plan) : plan.SameOutside g [] (tried.restore plan) := .of_eq rfl rfl
        exact ⟨_, hparted.planned_visitAll ((hrestored _).mono (List.nil_subset _))
          ((hrestored _).fresh (fun _ _ => List.not_mem_nil) hfresh), rfl⟩
    · have hsame : plan.SameOutside g ts plan := .of_eq rfl rfl
      exact ⟨_, hparted.planned_visitAll hsame hfresh, rfl⟩

end Clause

/--
The visit of an item, if its blocks are visited as they should be.
-/
theorem visitItem_visits {kind : BlockKind} {run : Run (Block × Visit)}
    (hts : Segment.tokensWith (fun b => b.1.tokens) run.segments <:+: g.tokens.toList)
    (hlaid : ∀ b ∈ run.blocks, b.1.Laid) (hvisited : ∀ b ∈ run.blocks, Visited g b.1 b.2) (enclosing : Option Int) :
    Visits g (Segment.tokensWith (fun b => b.1.tokens) run.rest) (run.blocks.map Prod.fst)
      (visitItem g run.first (Item.ofRun kind run) enclosing) := by
  have hkeeps := Item.keeps_ofRun (fun b : Block × Visit => b.1.tokens) kind run
  have hblocks := Segment.sublist_tokensWith (fun b : Block × Visit => b.1.tokens) run.rest
  have hrest := (List.sublist_cons_self _ _).trans hts.sublist
  have hall : Visits g (Segment.tokensWith (fun b => b.1.tokens) run.rest) (run.blocks.map Prod.fst)
      (visitAll (run.blocks.map Prod.snd) enclosing) :=
    (visitAll_visits hg hvisited (hblocks.trans hrest) enclosing).mono hblocks.subset
  generalize Item.ofRun kind run = item at hkeeps
  rw [← hkeeps.blocks_eq] at hall hlaid hvisited ⊢
  unfold visitItem
  split
  · next c =>
    refine visitClause_visits hg hkeeps.tokens_eq hts ?_ hlaid hvisited enclosing
    rw [show c.blocks = run.blocks from hkeeps.blocks_eq]
    exact hblocks
  · exact hall

/--
The items of a block are visited as they should be if the blocks in them are.
-/
theorem items_visits {b : Block} (hts : b.tokens <:+: g.tokens.toList)
    (hlaid : ∀ run ∈ b.items, ∀ c ∈ run.blocks, c.Laid)
    (hvisited : ∀ run ∈ b.items, ∀ c ∈ run.blocks, Visited g c (visit g c)) (enclosing : Option Int) :
    Visits g b.inside (b.items.flatMap Run.blocks) ((visit g b).items enclosing) := by
  obtain ⟨kind, opener, column, items⟩ := b
  have hvisit : (visit g (.mk kind opener column items)).items enclosing
      = fun plan => items.foldl (fun plan run => visitItem g run.first
        (Item.ofRun kind ⟨run.first, run.rest.map (Segment.map fun b => (b, visit g b))⟩) enclosing plan) plan :=
    funext fun plan => items_visit ..
  rw [hvisit]
  refine .foldl hg (fun run hrun => ?_) ((Block.inside_sublist _).trans hts.sublist)
  have htokens (segments : List (Segment Block)) :
      Segment.tokensWith (fun b => b.1.tokens) (segments.map (Segment.map fun b => (b, visit g b)))
        = Segment.tokens segments := Segment.tokensWith_map ..
  have hblocks : (Run.mk run.first (run.rest.map (Segment.map fun b => (b, visit g b)))).blocks
      = run.blocks.map fun b => (b, visit g b) := Segment.blocks_map ..
  have hinfix : Segment.tokensWith (fun b => b.1.tokens) (run.segments.map (Segment.map fun b => (b, visit g b)))
      <:+: g.tokens.toList := by
    rw [htokens]
    exact (Block.infix_of_mem_items hrun).trans hts
  have hitem := @visitItem_visits g hg kind ⟨run.first, run.rest.map (Segment.map fun b => (b, visit g b))⟩ hinfix
    (by rw [hblocks, List.forall_mem_map]; exact hlaid run hrun)
    (by rw [hblocks, List.forall_mem_map]; exact hvisited run hrun) enclosing
  rw [htokens, hblocks, List.map_map] at hitem
  simpa [Function.comp_def] using hitem

/--
A block is visited as it should be if its items are.
-/
theorem visited_of_items {b : Block} {start : Nat} (hb : g.Holds b start)
    (hitems : ∀ enclosing, Visits g b.inside (b.items.flatMap Run.blocks) ((visit g b).items enclosing)) :
    Visited g b (visit g b) := by
  refine ⟨fun enclosing => ⟨fun c hc => ?_, fun plan d hfresh => ?_⟩, hitems⟩
  · rw [List.mem_singleton.1 hc]
    exact List.Subset.refl _
  -- Whatever was done to the block as a whole, its items are visited next.
  · have hfinish {moved : Plan} {delta : Int} (hsame : plan.SameOutside g b.tokens moved)
        (hmoved : moved.Fresh g b.tokens delta) (outer : Option Int) :
        plan.SameOutside g b.tokens ((visit g b).items outer moved)
          ∧ ∀ c ∈ [b], ∀ inner ∈ c.nested, ((visit g b).items outer moved).Aligns g inner := by
      have hindex {index : Nat} (hstop : index < start + b.tokens.length) : index < g.tokens.size :=
        Nat.lt_of_lt_of_le hstop hb.covers.le
      obtain ⟨hsame', haligns⟩ := (hitems outer).nested hg hb
        (fun index hstart hstop =>
          (hmoved index (hindex hstop) ((hb.covers.mem_iff (hindex hstop)).2 ⟨hstart, hstop⟩)).1)
        (fun index hindex hmem => (hmoved index hindex (b.inside_subset hmem)).2)
      exact ⟨hsame.trans hsame', fun c hc => by rw [List.mem_singleton.1 hc]; exact haligns⟩
    obtain ⟨note, hwhole⟩ := whole_visit b enclosing plan
    rw [hwhole]
    cases hshift : g.shift? b enclosing plan with
    | none => exact hfinish (.of_eq rfl rfl) hfresh _
    | some delta =>
      obtain ⟨hsame, hmoved⟩ := assign_fresh hg hb hfresh hshift
      dsimp only
      split
      · exact hfinish hsame hmoved _
      · have hnote : (g.assign b delta plan).SameOutside g []
            ((g.assign b delta plan).fixed g "block-indentation" note) := .of_eq rfl rfl
        exact hfinish (hsame.trans (hnote.mono (List.nil_subset _)))
          (hnote.fresh (fun _ _ => List.not_mem_nil) hmoved) _

/--
One step: a block is visited as it should be if the blocks in its items are.
-/
theorem visit_visited (b : Block) (hts : b.tokens <:+: g.tokens.toList) (hlaid : ∀ c ∈ b.nested, c.Laid) :
    Visited g b (visit g b) := by
  induction b using Block.forall_of_items with
  | h kind opener column items ih =>
    obtain ⟨hself, hinner⟩ := Block.forall_mem_nested.1 hlaid
    obtain ⟨start, hcovers⟩ := hg.exists_covers hts
    refine visited_of_items hg ⟨hcovers, hself⟩ (items_visits hg hts
      (fun run hrun b hb => hinner run hrun b hb b b.mem_nested_self) fun run hrun b hb => ?_)
    exact ih run hrun b hb ((Block.infix_of_mem_blocks hb).trans ((Block.infix_of_mem_items hrun).trans hts))
      (hinner run hrun b hb)

/--
The visit of a declaration that was read from a run.
-/
theorem visitDeclaration_visits {d : Declaration} {run : Run Block} (hkeeps : d.Keeps run)
    (hts : tokens d <:+: g.tokens.toList) (hlaid : ∀ b ∈ run.blocks, ∀ c ∈ b.nested, c.Laid) (top : Option Int) :
    Visits g (tokens d) d.blocks fun plan => visitDeclaration g top plan d := by
  have hrun : tokens run <:+: g.tokens.toList := hkeeps.tokens_eq ▸ hts
  have hfst : (run.blocks.map fun b => (b, visit g b)).map Prod.fst = run.blocks := by
    rw [List.map_map]
    exact List.map_id _
  have hblocks : ((run.blocks.map fun b => (b, visit g b)).flatMap fun b => b.1.tokens).Sublist
      (Segment.tokens run.rest) := by
    rw [List.flatMap_map]
    exact Segment.sublist_tokensWith Block.tokens run.rest
  have hvisited : ∀ b ∈ run.blocks.map fun b => (b, visit g b), b.1.Laid ∧ Visited g b.1 b.2 := by
    rw [List.forall_mem_map]
    exact fun b hb => ⟨hlaid b hb b b.mem_nested_self,
      visit_visited hg b ((Block.infix_of_mem_blocks hb).trans hrun) (hlaid b hb)⟩
  have hrest : Segment.tokens run.rest ⊆ tokens d := by
    rw [hkeeps.tokens_eq]
    exact List.subset_cons_self _ _
  cases d with
  | importing _ | pragma _ | signature _ | data _ => exact Visits.nil.mono (List.nil_subset _)
  | raw run' =>
    have hraw := visitAll_visits hg (fun b hb => (hvisited b hb).2)
      (hblocks.trans ((List.sublist_cons_self _ _).trans hrun.sublist)) top
    rw [hfst, List.map_map] at hraw
    rw [hkeeps.blocks_eq]
    simp only [visitDeclaration, show run'.blocks = run.blocks from hkeeps.blocks_eq]
    exact hraw.mono (List.Subset.trans hblocks.subset hrest)
  | clause c layout =>
    have htokens : tokens c = run.first :: Segment.tokens run.rest := hkeeps.tokens_eq
    have hfirst : firstToken c = run.first := by rw [firstToken, htokens]; rfl
    -- The blocks of the equation are visited as it has them, in the order of the run.
    have hclause : (c.bimap id fun b => (b, visit g b)).blocks = run.blocks.map fun b => (b, visit g b) := by
      rw [Clause.blocks_bimap]
      exact congrArg _ hkeeps.blocks_eq
    have hbimap : (c.bimap id fun b => (b, visit g b)).tokensWith (fun b => b.1.tokens)
        = run.first :: Segment.tokens run.rest := by
      rw [← htokens, ← List.map_id (tokens c)]
      exact Clause.tokensWith_bimap id (fun b => (List.map_id _).symm) c
    rw [← hclause] at hblocks hvisited
    have hvisits := visitClause_visits hg hbimap hrun hblocks (fun b hb => (hvisited b hb).1)
      (fun b hb => (hvisited b hb).2) top
    rw [hclause, hfst] at hvisits
    rw [hkeeps.blocks_eq]
    simp only [visitDeclaration_clause, hfirst]
    exact hvisits.mono hrest

end Indent

end HaskellStyle
