import HaskellStyle.Declaration.Clause
import HaskellStyle.Proofs.Block.Read

/-!
This module contains the replacement of the tokens and the blocks in runs, clauses and items, and the induction over
blocks.
-/

namespace HaskellStyle

variable {β γ δ : Type} (f : Token → Token) (g : β → γ)

namespace Segment

/--
Replaces the token or the block of a segment.
-/
def bimap : Segment β → Segment γ
  | .token t => .token (f t)
  | .block b => .block (g b)

@[simp] theorem bimap_token (t : Token) : bimap f g (.token t) = .token (f t) := rfl

@[simp] theorem bimap_block (b : β) : bimap f g (.block b) = .block (g b) := rfl

theorem bimap_id : bimap id g = map g := by
  funext segment
  cases segment <;> rfl

@[simp] theorem token?_bimap (segment : Segment β) : (segment.bimap f g).token? = segment.token?.map f := by
  cases segment <;> rfl

@[simp] theorem blocks_bimap (segments : List (Segment β)) :
    blocks (segments.map (bimap f g)) = (blocks segments).map g := by
  induction segments with
  | nil => rfl
  | cons segment segments ih => cases segment <;> simp [ih]

@[simp] theorem isFlat_bimap (segments : List (Segment β)) : isFlat (segments.map (bimap f g)) = isFlat segments := by
  simp [isFlat, Function.comp_def]

@[simp] theorem topTokens_bimap (segments : List (Segment β)) :
    topTokens (segments.map (bimap f g)) = (topTokens segments).map f := by
  simp [topTokens, List.filterMap_map, List.map_filterMap, Function.comp_def]

@[simp] theorem flat?_bimap (segments : List (Segment β)) :
    flat? (segments.map (bimap f g)) = (flat? segments).map (·.map f) := by
  simp only [flat?, isFlat_bimap, topTokens_bimap]
  split <;> rfl

end Segment

/--
Replaces the tokens and the blocks of a run.
-/
def Run.bimap (run : Run β) : Run γ :=
  ⟨f run.first, run.rest.map (Segment.bimap f g)⟩

/--
Replaces the tokens and the blocks of a guard.
-/
def Guard.bimap (x : Guard β) : Guard γ :=
  ⟨f x.bar, x.condition.map (Segment.bimap f g), f x.equals, x.body.map (Segment.bimap f g)⟩

/--
Replaces the tokens and the blocks of a right-hand side.
-/
def Rhs.bimap : Rhs β → Rhs γ
  | .plain equals body => .plain (f equals) (body.map (Segment.bimap f g))
  | .guarded first more => .guarded (first.bimap f g) (more.map (Guard.bimap f g))

/--
Replaces the tokens and the blocks of an equation.
-/
def Equation.bimap (e : Equation β) : Equation γ :=
  ⟨e.lhs.map (Segment.bimap f g), e.rhs.bimap f g⟩

/--
Replaces the tokens and the block of local definitions.
-/
def WhereClause.bimap (w : WhereClause β) : WhereClause γ :=
  ⟨f w.keyword, g w.block⟩

/--
Replaces the tokens and the blocks of a clause.
-/
def Clause.bimap (c : Clause β) : Clause γ :=
  ⟨c.equation.bimap f g, c.locals.map (WhereClause.bimap f g)⟩

theorem Run.segments_bimap (run : Run β) : (run.bimap f g).segments = run.segments.map (Segment.bimap f g) := rfl

@[simp] theorem Run.blocks_bimap (run : Run β) : (run.bimap f g).blocks = run.blocks.map g :=
  Segment.blocks_bimap f g run.rest

@[simp] theorem Guard.blocks_bimap (x : Guard β) : (x.bimap f g).blocks = x.blocks.map g := by
  simp [Guard.blocks, Guard.bimap]

@[simp] theorem Equation.blocks_bimap (e : Equation β) : (e.bimap f g).blocks = e.blocks.map g := by
  obtain ⟨lhs, rhs⟩ := e
  cases rhs with
  | plain equals body => simp [Equation.blocks, Equation.bimap, Rhs.bimap]
  | guarded first more =>
    simp [Equation.blocks, Equation.bimap, Rhs.bimap, List.flatMap_map, List.map_flatMap]

@[simp] theorem Clause.blocks_bimap (c : Clause β) : (c.bimap f g).blocks = c.blocks.map g := by
  obtain ⟨equation, locals⟩ := c
  cases locals <;> simp [Clause.blocks, Clause.bimap, WhereClause.bimap]

section Twice

variable (f' : Token → Token) (g' : γ → δ)

theorem Segment.map_bimap_bimap (segments : List (Segment β)) :
    (segments.map (bimap f g)).map (bimap f' g') = segments.map (bimap (f' ∘ f) (g' ∘ g)) := by
  rw [List.map_map]
  refine List.map_congr_left fun segment _ => ?_
  cases segment <;> rfl

theorem Guard.bimap_bimap (x : Guard β) : (x.bimap f g).bimap f' g' = x.bimap (f' ∘ f) (g' ∘ g) := by
  simp only [bimap, Segment.map_bimap_bimap, Function.comp_apply]

theorem Rhs.bimap_bimap (rhs : Rhs β) : (rhs.bimap f g).bimap f' g' = rhs.bimap (f' ∘ f) (g' ∘ g) := by
  cases rhs with
  | plain equals body => simp only [bimap, Segment.map_bimap_bimap, Function.comp_apply]
  | guarded first more =>
    simp only [bimap, Guard.bimap_bimap, List.map_map]
    exact congrArg _ (List.map_congr_left fun x _ => x.bimap_bimap f g f' g')

theorem Clause.bimap_bimap (c : Clause β) : (c.bimap f g).bimap f' g' = c.bimap (f' ∘ f) (g' ∘ g) := by
  simp only [bimap, Equation.bimap, Segment.map_bimap_bimap, Rhs.bimap_bimap, Option.map_map]
  rfl

end Twice

mutual

/--
A property of blocks that passes on from the blocks in its items to a block holds of all blocks.
-/
theorem Block.forall_of_items {P : Block → Prop}
    (h : ∀ kind opener column items, (∀ run ∈ items, ∀ b ∈ run.blocks, P b) → P (.mk kind opener column items)) :
    ∀ b, P b
  | .mk kind opener column items => h kind opener column items (forall_of_runs h items)

theorem Block.forall_of_runs {P : Block → Prop}
    (h : ∀ kind opener column items, (∀ run ∈ items, ∀ b ∈ run.blocks, P b) → P (.mk kind opener column items)) :
    ∀ items : List (Run Block), ∀ run ∈ items, ∀ b ∈ run.blocks, P b
  | [] => fun _ hrun => absurd hrun List.not_mem_nil
  | ⟨first, rest⟩ :: more => by
    have hrest := forall_of_segments h rest
    have hmore := forall_of_runs h more
    intro run hrun
    rcases List.mem_cons.1 hrun with rfl | hrun
    · exact hrest
    · exact hmore run hrun

theorem Block.forall_of_segments {P : Block → Prop}
    (h : ∀ kind opener column items, (∀ run ∈ items, ∀ b ∈ run.blocks, P b) → P (.mk kind opener column items)) :
    ∀ segments : List (Segment Block), ∀ b ∈ Segment.blocks segments, P b
  | [] => fun _ hb => absurd hb List.not_mem_nil
  | .token _ :: more => forall_of_segments h more
  | .block b :: more => by
    have hfirst := forall_of_items h b
    have hmore := forall_of_segments h more
    intro b hb
    rcases List.mem_cons.1 hb with rfl | hb
    · exact hfirst
    · exact hmore b hb

end

end HaskellStyle
