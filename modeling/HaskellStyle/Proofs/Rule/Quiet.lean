import HaskellStyle.Proofs.Rule.Alignment
import HaskellStyle.Proofs.Rule.Undo

/-!
This module contains that the rule for indentation moves nothing without a finding: if a module is planned and no change
is noted, then every token is planned for the column that it has, and none for a line of its own. Main result: the rule
keeps such a module.
-/

namespace HaskellStyle

namespace Notes

variable {settings : Settings} {fix : String} {d : Diagnostic}

/--
A fix that is always reported is a change.
-/
theorem hasChanges_fixed (notes : Notes) (hkind : d.kind.isMechanical) (hcheck : d.kind.check = none) :
    (notes.fixed settings fix d).hasChanges := by
  have hreports : settings.reports d := by
    rw [Settings.reports, hcheck]
    rfl
  have hmechanical : d.isMechanical := hkind
  simp [fixed, count, report, hreports, hasChanges, hmechanical]

end Notes

namespace Indent

variable {g : Grid}

namespace Plan

/--
Two plans that plan the same for the tokens up to an index.
-/
def SameUpTo (i : Nat) (plan plan' : Plan) : Prop :=
  ∀ index ≤ i, plan'.columns.lookup index = plan.columns.lookup index ∧ (index ∈ plan'.breaks ↔ index ∈ plan.breaks)

/--
A plan by which all tokens, but for those with the indices `except`, stay in their columns and on their lines.
-/
structure StaysBut (plan : Plan) (g : Grid) (except : List Nat) : Prop where
  breaks : plan.breaks = []
  columns : ∀ index column, plan.columns.lookup index = some column → index ∈ except ∨ column = (g.get index).column

variable {plan plan' plan'' : Plan} {i index : Nat} {column : Int} {except : List Nat}

theorem lookup_setColumn (index' : Nat) : (plan.setColumn index column).columns.lookup index'
    = if index' = index then some column else plan.columns.lookup index' := by
  rw [setColumn, List.lookup_cons]
  by_cases h : index' = index
  · simp [h]
  · rw [if_neg h, beq_false_of_ne h]

namespace SameUpTo

theorem refl (i : Nat) (plan : Plan) : SameUpTo i plan plan :=
  fun _ _ => ⟨rfl, .rfl⟩

theorem trans (h : SameUpTo i plan plan') (h' : SameUpTo i plan' plan'') : SameUpTo i plan plan'' :=
  fun index hindex => ⟨(h' index hindex).1.trans (h index hindex).1, (h' index hindex).2.trans (h index hindex).2⟩

theorem setColumn (h : SameUpTo i plan plan') (hindex : i < index) (column : Int) :
    SameUpTo i plan (plan'.setColumn index column) := by
  intro index' hle
  rw [lookup_setColumn, if_neg (by omega)]
  exact h index' hle

theorem setBreak (h : SameUpTo i plan plan') (hindex : i < index) : SameUpTo i plan (plan'.setBreak index) := by
  intro index' hle
  refine ⟨(h index' hle).1, ?_⟩
  rw [Plan.setBreak, List.mem_cons, (h index' hle).2]
  exact or_iff_right (by omega)

theorem lineShiftFrom_eq (h : SameUpTo i plan plan') (hindex : index ≤ i) (isStart : Bool) :
    plan'.lineShiftFrom g isStart index = plan.lineShiftFrom g isStart index := by
  have hbegins {index : Nat} (hindex : index ≤ i) : plan'.beginsLine g index = plan.beginsLine g index := by
    rw [beginsLine, beginsLine, Bool.eq_iff_iff, Bool.or_eq_true, Bool.or_eq_true, List.contains_iff_mem,
      List.contains_iff_mem, (h index hindex).2]
  have hshift {index : Nat} (hindex : index ≤ i) : plan'.shiftAt g index = plan.shiftAt g index := by
    rw [shiftAt, shiftAt, (h index hindex).1]
  induction index generalizing isStart with
  | zero => rw [lineShiftFrom, lineShiftFrom, hbegins hindex, hshift hindex]
  | succ index ih =>
    rw [lineShiftFrom, lineShiftFrom, hbegins hindex, hshift hindex, ih (by omega) false]

theorem newColumn_eq (h : SameUpTo i plan plan') (hindex : index ≤ i) :
    plan'.newColumn g index = plan.newColumn g index := by
  rw [newColumn, newColumn, h.lineShiftFrom_eq hindex]

end SameUpTo

namespace StaysBut

theorem mono {more : List Nat} (h : plan.StaysBut g except) (hmore : except ⊆ more) : plan.StaysBut g more where
  breaks := h.breaks
  columns index column hlookup := (h.columns index column hlookup).imp_left fun hmem => hmore hmem

theorem congr (h : plan.StaysBut g except) (hcolumns : plan'.columns = plan.columns)
    (hbreaks : plan'.breaks = plan.breaks) :
    plan'.StaysBut g except where
  breaks := hbreaks.trans h.breaks
  columns := hcolumns ▸ h.columns

/--
A token may be planned for its own column, or for any if it is among the exceptions.
-/
theorem setColumn (h : plan.StaysBut g except) (hcolumn : index ∈ except ∨ column = (g.get index).column) :
    (plan.setColumn index column).StaysBut g except where
  breaks := h.breaks
  columns index' column' hlookup := by
    rw [lookup_setColumn] at hlookup
    split at hlookup
    · next heq =>
      cases hlookup
      rwa [heq]
    · exact h.columns index' column' hlookup

/--
A token that is planned for its own column at last is no exception.
-/
theorem settle (h : plan.StaysBut g (index :: except)) (hcolumn : column = (g.get index).column) :
    (plan.setColumn index column).StaysBut g except where
  breaks := h.breaks
  columns index' column' hlookup := by
    rw [lookup_setColumn] at hlookup
    split at hlookup
    · next heq =>
      cases hlookup
      rw [heq]
      exact .inr hcolumn
    · next hne =>
      exact (h.columns index' column' hlookup).imp_left fun hmem => (List.mem_cons.1 hmem).resolve_left hne

end StaysBut

end Plan

open Plan (SameUpTo StaysBut)

/--
A step of planning that plans nothing before the tokens `ts`. If no change is noted then, none was before, and the step
moved nothing, even if the columns of the tokens `pending` were not their own before.
-/
structure Settles (g : Grid) (ts : List Token) (pending : List Nat) (plan plan' : Plan) : Prop where
  sameUpTo : ∀ i, (∀ t ∈ ts, i < g.indexOf t) → plan.SameUpTo i plan'
  quiet : plan'.notes.hasChanges = false → plan.notes.hasChanges = false
  stays : plan'.notes.hasChanges = false → ∀ except, plan.StaysBut g (pending ++ except) → plan'.StaysBut g except

/--
A visit that moves nothing if no change is noted.
-/
def Calm (g : Grid) (ts : List Token) (f : Plan → Plan) : Prop :=
  ∀ plan, Settles g ts [] plan (f plan)

namespace Settles

variable {ts ts' : List Token} {pending : List Nat} {plan plan' plan'' : Plan} {index : Nat} {column : Int}

theorem of_eq (hcolumns : plan'.columns = plan.columns) (hbreaks : plan'.breaks = plan.breaks)
    (hnotes : plan'.notes.hasChanges = plan.notes.hasChanges) : Settles g ts [] plan plan' where
  sameUpTo i _ index _ := by rw [hcolumns, hbreaks]; exact ⟨rfl, .rfl⟩
  quiet h := hnotes ▸ h
  stays _ _ hstays := hstays.congr hcolumns hbreaks

theorem mono (h : Settles g ts pending plan plan') (hts : ts ⊆ ts') : Settles g ts' pending plan plan' where
  sameUpTo i hi := h.sameUpTo i fun t ht => hi t (hts ht)
  quiet := h.quiet
  stays := h.stays

/--
A step that settles some columns may find them settled.
-/
theorem of_pending (h : Settles g ts pending plan plan') : Settles g ts [] plan plan' where
  sameUpTo := h.sameUpTo
  quiet := h.quiet
  stays hquiet _ hstays := h.stays hquiet _ (hstays.mono (List.subset_append_right _ _))

theorem trans (h : Settles g ts pending plan plan') (h' : Settles g ts [] plan' plan'') :
    Settles g ts pending plan plan'' where
  sameUpTo i hi := (h.sameUpTo i hi).trans (h'.sameUpTo i hi)
  quiet hquiet := h.quiet (h'.quiet hquiet)
  stays hquiet except hstays := h'.stays hquiet except (h.stays (h'.quiet hquiet) except hstays)

/--
A column that is tried for a token may be any if it is settled at last.
-/
theorem of_tried {t : Token} (ht : t ∈ ts) (h : Settles g ts [] (plan.setColumn (g.indexOf t) column) plan')
    (h' : Settles g ts [g.indexOf t] plan' plan'') : Settles g ts [] plan plan'' where
  sameUpTo i hi := (((SameUpTo.refl i plan).setColumn (hi t ht) column).trans (h.sameUpTo i hi)).trans (h'.sameUpTo i hi)
  quiet hquiet := h.quiet (h'.quiet hquiet)
  stays hquiet except hstays := by
    have htried : (plan.setColumn (g.indexOf t) column).StaysBut g (g.indexOf t :: except) :=
      (hstays.mono (List.subset_cons_self _ _)).setColumn (.inl List.mem_cons_self)
    exact h'.stays hquiet except (h.stays (h'.quiet hquiet) _ htried)

end Settles

namespace Calm

variable {ts ts' : List Token} {f : Plan → Plan}

theorem id : Calm g ts fun plan => plan :=
  fun _ => .of_eq rfl rfl rfl

theorem mono (h : Calm g ts f) (hts : ts ⊆ ts') : Calm g ts' f :=
  fun plan => (h plan).mono hts

theorem foldl {α : Type} {step : Plan → α → Plan} {xs : List α} (h : ∀ x ∈ xs, Calm g ts fun plan => step plan x) :
    Calm g ts fun plan => xs.foldl step plan := by
  induction xs with
  | nil => exact .id
  | cons x xs ih =>
    rw [List.forall_mem_cons] at h
    exact fun plan => (h.1 plan).trans (ih h.2 (step plan x))

end Calm

/--
The visits of a block, of all of it or of its items.
-/
structure Visit.Calm (g : Grid) (ts : List Token) (v : Visit) : Prop where
  whole : ∀ enclosing, Indent.Calm g ts (v.whole enclosing)
  items : ∀ enclosing, Indent.Calm g ts (v.items enclosing)

theorem visitAll_calm {ts : List Token} {blocks : List (Block × Visit)} (hblocks : ∀ b ∈ blocks, b.2.Calm g b.1.tokens)
    (hts : (blocks.flatMap fun b => b.1.tokens) ⊆ ts) (enclosing : Option Int) :
    Calm g ts (visitAll (blocks.map Prod.snd) enclosing) := by
  refine .foldl fun v hv => ?_
  obtain ⟨b, hb, rfl⟩ := List.mem_map.1 hv
  exact ((hblocks b hb).whole enclosing).mono fun t ht => hts (List.mem_flatMap.2 ⟨b, hb, ht⟩)

section Block

variable {b : Block} {plan plan' : Plan} {i : Nat} {except : List Nat}

theorem firstToken_mem (hb : b.Laid) : b.firstToken ∈ b.tokens :=
  List.mem_of_mem_head? hb.firstToken_eq.1

theorem le_of_mem_lineStarts {index : Nat} (h : index ∈ g.lineStarts b) : g.indexOf b.firstToken ≤ index := by
  have hmem := (List.mem_filter.1 h).1
  rw [List.range_eq_range', List.drop_range', List.mem_range'_1] at hmem
  omega

theorem assign_sameUpTo (h : plan.SameUpTo i plan') (hi : i < g.indexOf b.firstToken) (delta : Int) :
    plan.SameUpTo i (g.assign b delta plan') := by
  unfold Grid.assign
  refine List.foldlRecOn (motive := fun plan' => plan.SameUpTo i plan') _ _ h fun plan' hplan index hindex => ?_
  exact hplan.setColumn (hi.trans_le (le_of_mem_lineStarts hindex)) _

/--
A block that moves by nothing stays where it is.
-/
theorem assign_staysBut (h : plan.StaysBut g except) : (g.assign b 0 plan).StaysBut g except := by
  unfold Grid.assign
  refine List.foldlRecOn (motive := fun plan => Plan.StaysBut plan g except) _ _ h fun plan hplan index hindex => ?_
  exact hplan.setColumn (.inr (Int.add_zero _))

theorem moveBlock_calm (hb : b.Laid) (enclosing : Option Int) : Calm g b.tokens (moveBlock g b enclosing) := by
  intro plan
  have hassign (delta : Int) (i : Nat) (hi : ∀ t ∈ b.tokens, i < g.indexOf t) : plan.SameUpTo i (g.assign b delta plan) :=
    assign_sameUpTo (.refl _ _) (hi _ (firstToken_mem hb)) delta
  unfold moveBlock
  split
  · exact Calm.id plan
  · next delta _ =>
    split
    · refine ⟨fun i hi => hassign delta i hi, fun hquiet => ?_, fun hquiet => ?_⟩
      all_goals
        unfold Plan.fixed at hquiet
        rw [Notes.hasChanges_fixed _ rfl rfl] at hquiet
        cases hquiet
    · next hzero =>
      rw [not_not] at hzero
      refine ⟨fun i hi => hassign delta i hi, fun hquiet => ?_, fun _ except hstays => ?_⟩
      · rwa [Grid.notes_assign] at hquiet
      · rw [hzero]
        exact assign_staysBut hstays

end Block

section Clause

variable {first : Token} {blocks : List Block} {w : WhereClause (Block × Visit)} {enclosing : Option Int} {plan : Plan}
  {ts : List Token}

/--
The plan in which a `where` and its bindings have their columns, before this is noted.
-/
def Plan.place (g : Grid) (keyword : Token) (bindings : Block) (whereColumn bindingColumn : Int) (plan : Plan) : Plan :=
  let plan := plan.setColumn (g.indexOf keyword) whereColumn
  let plan := if keyword.lineStart then plan else plan.setBreak (g.indexOf keyword)
  let plan := g.assign bindings (bindingColumn - bindings.column) plan
  let plan := plan.setColumn (g.indexOf bindings.firstToken) bindingColumn
  if bindings.firstToken.lineStart then plan else plan.setBreak (g.indexOf bindings.firstToken)

theorem notes_place (keyword : Token) (bindings : Block) (whereColumn bindingColumn : Int) :
    (plan.place g keyword bindings whereColumn bindingColumn).notes = plan.notes := by
  unfold Plan.place
  dsimp only
  split <;> (unfold Plan.setBreak; dsimp only [Plan.setColumn]; rw [Grid.notes_assign]; split <;> rfl)

theorem place_sameUpTo {keyword : Token} {bindings : Block} {i : Nat} (hkeyword : i < g.indexOf keyword)
    (hfirst : i < g.indexOf bindings.firstToken) (whereColumn bindingColumn : Int) :
    plan.SameUpTo i (plan.place g keyword bindings whereColumn bindingColumn) := by
  have hbreak {plan' : Plan} {t : Token} (ht : i < g.indexOf t) (h : plan.SameUpTo i plan') :
      plan.SameUpTo i (if t.lineStart then plan' else plan'.setBreak (g.indexOf t)) := by
    split
    · exact h
    · exact h.setBreak ht
  refine hbreak hfirst (SameUpTo.setColumn ?_ hfirst _)
  exact assign_sameUpTo (hbreak hkeyword ((SameUpTo.refl i plan).setColumn hkeyword _)) hfirst _

/--
A `where` that is put where it is stays there, and so do its bindings.
-/
theorem place_staysBut {keyword : Token} {bindings : Block} {except : List Nat}
    (hplan : plan.StaysBut g (g.indexOf keyword :: except)) (hkeyword : g.get (g.indexOf keyword) = keyword)
    (hfirst : g.get (g.indexOf bindings.firstToken) = bindings.firstToken)
    (hcolumn : bindings.firstToken.column = bindings.column) (hline : keyword.lineStart)
    (hbinding : bindings.firstToken.lineStart) :
    (plan.place g keyword bindings keyword.column bindings.column).StaysBut g except := by
  unfold Plan.place
  dsimp only
  rw [if_pos hline, if_pos hbinding, Int.sub_self]
  exact (assign_staysBut (hplan.settle (congrArg Token.column hkeyword).symm)).setColumn (.inr (by rw [hfirst, hcolumn]))

/--
A `where` is placed with its bindings. If no change is noted, they stand where they are put.
-/
theorem placeWhere_settles (hkeyword : g.get (g.indexOf w.keyword) = w.keyword)
    (hfirst : g.get (g.indexOf w.block.1.firstToken) = w.block.1.firstToken) (hlaid : w.block.1.Laid)
    (hts : w.keyword :: w.block.1.tokens ⊆ ts) (hcalm : w.block.2.Calm g w.block.1.tokens)
    (h : (g.whereMovable blocks w.keyword (plan.newColumn g (g.indexOf first) + g.width) plan
      && g.bindingsMovable w.block.1 (plan.newColumn g (g.indexOf first) + g.width + g.width) plan) = true) :
    Settles g ts [g.indexOf w.keyword] plan (placeWhere g first blocks w enclosing plan) := by
  obtain ⟨keyword, b, v⟩ := w
  dsimp only at hkeyword hfirst hlaid hts hcalm h
  obtain ⟨-, hcolumn⟩ := hlaid.firstToken_eq
  unfold placeWhere
  dsimp only
  rw [if_pos h]
  generalize plan.newColumn g (g.indexOf first) + g.width = whereColumn
  have hsame (i : Nat) (hi : ∀ t ∈ ts, i < g.indexOf t) :
      plan.SameUpTo i (plan.place g keyword b whereColumn (whereColumn + g.width)) :=
    place_sameUpTo (hi _ (hts List.mem_cons_self)) (hi _ (hts (List.mem_cons_of_mem _ (firstToken_mem hlaid)))) _ _
  refine Settles.trans ?_ ((hcalm.items _ _).mono fun t ht => hts (List.mem_cons_of_mem _ ht))
  split
  · refine ⟨fun i hi => hsame i hi, fun hquiet => ?_, fun hquiet => ?_⟩
    all_goals
      unfold Plan.fixed at hquiet
      rw [Notes.hasChanges_fixed _ rfl rfl] at hquiet
      cases hquiet
  · next hmoved =>
    simp only [Bool.or_eq_true, Bool.not_eq_true', decide_eq_true_eq, not_or, Bool.not_eq_false, not_not, ne_eq] at hmoved
    obtain ⟨⟨⟨hline, hwhere⟩, hbinding⟩, hbindings⟩ := hmoved
    refine ⟨hsame, fun hquiet => ?_, fun _ except hstays => ?_⟩
    · exact notes_place keyword b _ _ ▸ hquiet
    · have hplaced := place_staysBut hstays hkeyword hfirst hcolumn hline hbinding
      rw [← hbindings, ← hwhere, hcolumn]
      exact hplaced

/--
A `where` is placed, or its bindings are visited like any block.
-/
theorem placeWhere_calm (hkeyword : g.get (g.indexOf w.keyword) = w.keyword)
    (hfirst : g.get (g.indexOf w.block.1.firstToken) = w.block.1.firstToken) (hlaid : w.block.1.Laid)
    (hts : w.keyword :: w.block.1.tokens ⊆ ts) (hcalm : w.block.2.Calm g w.block.1.tokens) :
    Calm g ts (placeWhere g first blocks w enclosing) := by
  intro plan
  by_cases h : (g.whereMovable blocks w.keyword (plan.newColumn g (g.indexOf first) + g.width) plan
      && g.bindingsMovable w.block.1 (plan.newColumn g (g.indexOf first) + g.width + g.width) plan) = true
  · exact (placeWhere_settles hkeyword hfirst hlaid hts hcalm h).of_pending
  · unfold placeWhere
    dsimp only
    rw [if_neg h]
    exact ((hcalm.whole enclosing) plan).mono fun t ht => hts (List.mem_cons_of_mem _ ht)

variable (hg : g.Ordered)
include hg

theorem indexOf_lt (hts : first :: ts <:+: g.tokens.toList) {t : Token} (ht : t ∈ ts) :
    g.indexOf first < g.indexOf t := by
  obtain ⟨start, hcovers⟩ := hg.exists_covers hts
  obtain ⟨i, hi, rfl⟩ := List.getElem_of_mem ht
  have hindex := (hcovers.tail hg).indexOf_getElem hg hi
  rw [hcovers.indexOf_head hg, hindex]
  omega

/--
The visit of an equation. The column that is tried for a `where` is settled when the `where` is placed, since the blocks
before it leave the first token of the equation where it is.
-/
theorem visitClause_calm {c : Clause (Block × Visit)} (htokens : c.tokensWith (fun b => b.1.tokens) = first :: ts)
    (hts : first :: ts <:+: g.tokens.toList) (hblocks : (c.blocks.flatMap fun b => b.1.tokens) ⊆ ts)
    (hlaid : ∀ b ∈ c.blocks, b.1.Laid) (hcalm : ∀ b ∈ c.blocks, b.2.Calm g b.1.tokens) (enclosing : Option Int) :
    Calm g ts (visitClause g first c enclosing) := by
  rw [Clause.blocks] at hblocks hlaid hcalm
  have hequation : Calm g ts (visitAll (c.equation.blocks.map Prod.snd) enclosing) := by
    refine visitAll_calm (fun b hb => hcalm b (List.mem_append_left _ hb)) ?_ enclosing
    rw [List.flatMap_append] at hblocks
    exact List.Subset.trans (List.subset_append_left _ _) hblocks
  intro plan
  unfold visitClause
  cases hlocals : c.locals with
  | none => exact hequation plan
  | some w =>
    obtain ⟨-, hsuffix⟩ := locals_suffix hlocals htokens
    have hbehind : w.keyword :: w.block.1.tokens ⊆ ts := hsuffix.subset
    have hw : w.block ∈ c.equation.blocks ++ (c.locals.map (·.block)).toList := by simp [hlocals]
    have hget {t : Token} (ht : t ∈ ts) : g.get (g.indexOf t) = t :=
      (hg.exists_index (Array.mem_toList_iff.1 (hts.subset (List.mem_cons_of_mem _ ht)))).2
    have hkeyword := hget (hbehind List.mem_cons_self)
    have hfirst := hget (hbehind (List.mem_cons_of_mem _ (firstToken_mem (hlaid _ hw))))
    have hplace : Calm g ts (placeWhere g first (c.equation.blocks.map Prod.fst) w enclosing) :=
      placeWhere_calm hkeyword hfirst (hlaid _ hw) hbehind (hcalm _ hw)
    dsimp only
    split
    · generalize htarget : plan.newColumn g (g.indexOf first) + g.width = target
      have htried := hequation (plan.setColumn (g.indexOf w.keyword) target)
      split
      · next hmovable =>
        -- The first token has stayed, so the columns for the `where` are those that were tried.
        have hless : ∀ t ∈ ts, g.indexOf first < g.indexOf t := fun t ht => indexOf_lt hg hts ht
        have hsame := (((SameUpTo.refl (g.indexOf first) plan).setColumn (hless _ (hbehind List.mem_cons_self))
          target).trans (htried.sameUpTo _ hless)).newColumn_eq (g := g) (Nat.le_refl _)
        exact .of_tried (hbehind List.mem_cons_self) htried
          (placeWhere_settles hkeyword hfirst (hlaid _ hw) hbehind (hcalm _ hw) (by rwa [hsame, htarget]))
      · have hrestored (tried : Plan) : Settles g ts [] plan (tried.restore plan) := .of_eq rfl rfl rfl
        exact (hrestored _).trans ((hequation _).trans (hplace _))
    · exact (hequation plan).trans (hplace _)

/--
The visit of an item.
-/
theorem visitItem_calm {kind : BlockKind} {run : Run (Block × Visit)}
    (hts : Segment.tokensWith (fun b => b.1.tokens) run.segments <:+: g.tokens.toList)
    (hlaid : ∀ b ∈ run.blocks, b.1.Laid) (hcalm : ∀ b ∈ run.blocks, b.2.Calm g b.1.tokens) (enclosing : Option Int) :
    Calm g (Segment.tokensWith (fun b => b.1.tokens) run.rest)
      (visitItem g run.first (Item.ofRun kind run) enclosing) := by
  have hkeeps := Item.keeps_ofRun (fun b : Block × Visit => b.1.tokens) kind run
  have hblocks := (Segment.sublist_tokensWith (fun b : Block × Visit => b.1.tokens) run.rest).subset
  have hall : Calm g (Segment.tokensWith (fun b => b.1.tokens) run.rest)
      (visitAll (run.blocks.map Prod.snd) enclosing) := visitAll_calm hcalm hblocks enclosing
  generalize Item.ofRun kind run = item at hkeeps
  rw [← hkeeps.blocks_eq] at hall hlaid hcalm
  unfold visitItem
  split
  · next c =>
    refine visitClause_calm hg hkeeps.tokens_eq hts ?_ hlaid hcalm enclosing
    rw [show c.blocks = run.blocks from hkeeps.blocks_eq]
    exact hblocks
  · exact hall

end Clause

section Visit

variable (hg : g.Ordered)
include hg

/--
The items of a block are visited calmly if the blocks in them are.
-/
theorem items_calm {b : Block} (hts : b.tokens <:+: g.tokens.toList)
    (hlaid : ∀ run ∈ b.items, ∀ c ∈ run.blocks, c.Laid)
    (hcalm : ∀ run ∈ b.items, ∀ c ∈ run.blocks, (visit g c).Calm g c.tokens) (enclosing : Option Int) :
    Calm g b.tokens ((visit g b).items enclosing) := by
  obtain ⟨kind, opener, column, items⟩ := b
  intro plan
  rw [items_visit]
  refine Calm.foldl (fun run hrun => ?_) plan
  have htokens (segments : List (Segment Block)) :
      Segment.tokensWith (fun b => b.1.tokens) (segments.map (Segment.map fun b => (b, visit g b)))
        = Segment.tokens segments := Segment.tokensWith_map ..
  have hblocks : (Run.mk run.first (run.rest.map (Segment.map fun b => (b, visit g b)))).blocks
      = run.blocks.map fun b => (b, visit g b) := Segment.blocks_map ..
  have hinfix : Segment.tokensWith (fun b => b.1.tokens) (run.segments.map (Segment.map fun b => (b, visit g b)))
      <:+: g.tokens.toList := by
    rw [htokens]
    exact (Block.infix_of_mem_items hrun).trans hts
  have hitem := @visitItem_calm g hg kind ⟨run.first, run.rest.map (Segment.map fun b => (b, visit g b))⟩ hinfix
    (by rw [hblocks, List.forall_mem_map]; exact hlaid run hrun)
    (by rw [hblocks, List.forall_mem_map]; exact hcalm run hrun) enclosing
  rw [htokens] at hitem
  exact hitem.mono fun t ht => (Block.infix_of_mem_items hrun).subset (List.mem_cons_of_mem _ ht)

theorem visit_calm (b : Block) (hts : b.tokens <:+: g.tokens.toList) (hlaid : ∀ c ∈ b.nested, c.Laid) :
    (visit g b).Calm g b.tokens := by
  induction b using Block.forall_of_items with
  | h kind opener column items ih =>
    obtain ⟨hself, hinner⟩ := Block.forall_mem_nested.1 hlaid
    have hitems := items_calm hg hts (fun run hrun b hb => hinner run hrun b hb b b.mem_nested_self) fun run hrun b hb =>
      ih run hrun b hb ((Block.infix_of_mem_blocks hb).trans ((Block.infix_of_mem_items hrun).trans hts))
        (hinner run hrun b hb)
    refine ⟨fun enclosing plan => ?_, hitems⟩
    rw [← visitWith_restore, whole_visitWith, visitWith_restore]
    exact (moveBlock_calm hself enclosing plan).trans (hitems _ _)

theorem visitDeclaration_calm {d : Declaration} {run : Run Block} (hkeeps : d.Keeps run)
    (hts : tokens d <:+: g.tokens.toList) (hlaid : ∀ b ∈ run.blocks, ∀ c ∈ b.nested, c.Laid) (top : Option Int) :
    Calm g (tokens d) fun plan => visitDeclaration g top plan d := by
  have hrun : tokens run <:+: g.tokens.toList := hkeeps.tokens_eq ▸ hts
  have hblocks : ((run.blocks.map fun b => (b, visit g b)).flatMap fun b => b.1.tokens) ⊆ Segment.tokens run.rest := by
    rw [List.flatMap_map]
    exact (Segment.sublist_tokensWith Block.tokens run.rest).subset
  have hcalm : ∀ b ∈ run.blocks.map fun b => (b, visit g b), b.1.Laid ∧ b.2.Calm g b.1.tokens := by
    rw [List.forall_mem_map]
    exact fun b hb => ⟨hlaid b hb b b.mem_nested_self,
      visit_calm hg b ((Block.infix_of_mem_blocks hb).trans hrun) (hlaid b hb)⟩
  have hrest : Segment.tokens run.rest ⊆ tokens d := by
    rw [hkeeps.tokens_eq]
    exact List.subset_cons_self _ _
  cases d with
  | importing _ | pragma _ | signature _ | data _ => exact .id
  | raw run' =>
    have hraw := visitAll_calm (fun b hb => (hcalm b hb).2) hblocks top
    rw [List.map_map] at hraw
    simp only [visitDeclaration, show run'.blocks = run.blocks from hkeeps.blocks_eq]
    exact hraw.mono hrest
  | clause c layout =>
    have htokens : tokens c = run.first :: Segment.tokens run.rest := hkeeps.tokens_eq
    have hfirst : firstToken c = run.first := by rw [firstToken, htokens]; rfl
    have hclause : (c.bimap id fun b => (b, visit g b)).blocks = run.blocks.map fun b => (b, visit g b) := by
      rw [Clause.blocks_bimap]
      exact congrArg _ hkeeps.blocks_eq
    have hbimap : (c.bimap id fun b => (b, visit g b)).tokensWith (fun b => b.1.tokens)
        = run.first :: Segment.tokens run.rest := by
      rw [← htokens, ← List.map_id (tokens c)]
      exact Clause.tokensWith_bimap id (fun b => (List.map_id _).symm) c
    rw [← hclause] at hblocks hcalm
    have hvisit := visitClause_calm hg hbimap hrun hblocks (fun b hb => (hcalm b hb).1) (fun b hb => (hcalm b hb).2) top
    simp only [visitDeclaration_clause, hfirst]
    exact hvisit.mono hrest

end Visit

/--
A plan by which all tokens stay where they are places none.
-/
theorem placements_of_staysBut {g : Grid} {plan : Plan} (hplan : plan.StaysBut g []) (earlier : List (Nat × Placement)) :
    placements g plan earlier = earlier := by
  unfold placements
  refine List.foldlRecOn (motive := fun result => result = earlier) _ _ rfl fun result hresult x _ => ?_
  have hcolumn : (plan.columns.lookup x.1).getD (g.get x.1).column = (g.get x.1).column := by
    cases hlookup : plan.columns.lookup x.1 with
    | none => rfl
    | some column => exact (hplan.columns x.1 column hlookup).resolve_left List.not_mem_nil
  dsimp only
  rw [hcolumn, hplan.breaks, if_neg (by simp)]
  exact hresult

section Module

variable {text : List Char} {m : Module} (h : Module.parse text = .ok m) (settings : Settings)
include h

theorem Plan.ofModule_calm (hquiet : (ofModule settings m).notes.hasChanges = false) :
    (ofModule settings m).StaysBut (.ofModule settings m) [] := by
  obtain ⟨stream, -, -, hbody⟩ := Module.readBody_body (Module.read_of_parse h)
  have hruns := Module.exists_run_of_readBody hbody
  have hsuffix : m.declarations.flatMap HasTokens.tokens ++ [m.eof] <:+ HasTokens.tokens m :=
    ⟨_, (List.append_assoc ..).symm⟩
  have hwithin : m.declarations.flatMap HasTokens.tokens <:+: HasTokens.tokens m :=
    (List.prefix_append _ _).isInfix.trans hsuffix.isInfix
  have hg := Grid.ordered_ofModule h settings
  have hcalm : Calm (.ofModule settings m) (HasTokens.tokens m) fun plan =>
      m.declarations.foldl (visitDeclaration (.ofModule settings m) (topColumn m)) plan := by
    refine .foldl fun d hd => ?_
    obtain ⟨run, hkeeps, hlaid⟩ := hruns d (List.mem_append_right _ hd)
    have hinfix := (infix_flatMap hd).trans hwithin
    exact (visitDeclaration_calm hg hkeeps hinfix hlaid _).mono hinfix.subset
  exact (hcalm {}).stays hquiet [] ⟨rfl, fun _ _ hlookup => by cases hlookup⟩

/--
The rule keeps a module unless it notes a change.
-/
theorem module_apply_of_hasChanges (hquiet : (apply settings m).notes.hasChanges = false) :
    (apply settings m).module = m := by
  rw [notes_apply] at hquiet
  rw [module_apply_eq, placements_of_staysBut (Plan.ofModule_calm h settings hquiet)]
  exact if_pos rfl

end Module

end Indent

end HaskellStyle
