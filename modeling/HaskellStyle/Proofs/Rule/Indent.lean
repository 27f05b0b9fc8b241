import HaskellStyle.Proofs.Block.Map
import HaskellStyle.Proofs.Declaration.Tokens
import HaskellStyle.Rule.Indent

/-!
This module contains the induction over the steps of planning. A visit of a block plans columns and lines, notes fixes
and now and then undoes what it planned; what these steps keep, the plan for a module has.
-/

namespace HaskellStyle

namespace Indent

/--
The grid of a module.
-/
def Grid.ofModule (settings : Settings) (m : Module) : Grid :=
  ⟨settings, (HasTokens.tokens m).toArray, m.eof⟩

/--
The column of the body of a module, as its first import or declaration has it.
-/
def topColumn (m : Module) : Option Int :=
  (m.importDecls.map firstToken ++ m.declarations.map firstToken).head?.map (·.column)

/--
The plan for a module.
-/
def Plan.ofModule (settings : Settings) (m : Module) : Plan :=
  m.declarations.foldl (visitDeclaration (.ofModule settings m) (topColumn m)) {}

theorem module_apply_eq (settings : Settings) (m : Module) :
    (apply settings m).module
      = (let placed := placements (.ofModule settings m) (.ofModule settings m) m.placements
        if placed.length = m.placements.length then m else { m with placements := placed }) := by
  have hplan : m.declarations.foldl (visitDeclaration ⟨settings, (tokens m).toArray, m.eof⟩
      ((m.importDecls.map firstToken ++ m.declarations.map firstToken).head?.map (·.column))) {}
      = .ofModule settings m := rfl
  unfold apply
  dsimp only
  rw [hplan, show Grid.mk settings (tokens m).toArray m.eof = .ofModule settings m from rfl]
  split <;> rfl

variable {g : Grid} {P : Plan → Prop}

/--
A property of plans that every step of planning keeps.
-/
structure Kept (g : Grid) (P : Plan → Prop) : Prop where
  setColumn : ∀ {plan} index column, P plan → P (plan.setColumn index column)
  setBreak : ∀ {plan} index, P plan → P (plan.setBreak index)
  fixed : ∀ {plan} fix d, P plan → P (plan.fixed g fix d)
  restore : ∀ {plan earlier}, P plan → P earlier → P (plan.restore earlier)

/--
A visit that keeps a property of plans.
-/
structure Visit.Keeps (P : Plan → Prop) (v : Visit) : Prop where
  whole : ∀ enclosing {plan}, P plan → P (v.whole enclosing plan)
  items : ∀ enclosing {plan}, P plan → P (v.items enclosing plan)

theorem visitAll_kept {visits : List Visit} (hvisits : ∀ v ∈ visits, v.Keeps P) (enclosing : Option Int) {plan : Plan}
    (h : P plan) : P (visitAll visits enclosing plan) :=
  List.foldlRecOn visits _ h fun _ hplan v hv => (hvisits v hv).whole enclosing hplan

variable (hkept : Kept g P)
include hkept

theorem assign_kept (b : Block) (delta : Int) {plan : Plan} (h : P plan) : P (g.assign b delta plan) :=
  List.foldlRecOn _ _ h fun _ hplan _ _ => hkept.setColumn _ _ hplan

theorem placeWhere_kept {first : Token} {blocks : List Block} {w : WhereClause (Block × Visit)}
    (hw : w.block.2.Keeps P) (enclosing : Option Int) {plan : Plan} (h : P plan) :
    P (placeWhere g first blocks w enclosing plan) := by
  unfold placeWhere
  dsimp only
  split
  · have hbreak {plan : Plan} (isStart : Bool) (index : Nat) (h : P plan) :
        P (if isStart then plan else plan.setBreak index) := by
      split
      · exact h
      · exact hkept.setBreak index h
    have hfixed {plan : Plan} (isMoved : Bool) (fix : String) (d : Diagnostic) (h : P plan) :
        P (if isMoved then plan.fixed g fix d else plan) := by
      split
      · exact hkept.fixed fix d h
      · exact h
    refine hw.items _ (hfixed _ _ _ (hbreak _ _ (hkept.setColumn _ _ (assign_kept hkept _ _ (hbreak _ _ ?_)))))
    exact hkept.setColumn _ _ h
  · exact hw.whole enclosing h

theorem visitClause_kept {first : Token} {c : Clause (Block × Visit)} (hc : ∀ b ∈ c.blocks, b.2.Keeps P)
    (enclosing : Option Int) {plan : Plan} (h : P plan) : P (visitClause g first c enclosing plan) := by
  have hvisits : ∀ v ∈ c.equation.blocks.map Prod.snd, v.Keeps P := by
    intro v hv
    obtain ⟨b, hb, rfl⟩ := List.mem_map.1 hv
    exact hc b (List.mem_append_left _ hb)
  unfold visitClause
  split
  · exact visitAll_kept hvisits enclosing h
  · next w hlocals =>
    have hw : w.block.2.Keeps P := hc w.block (by simp [Clause.blocks, hlocals])
    apply placeWhere_kept hkept hw
    split
    · have htried := visitAll_kept hvisits enclosing (hkept.setColumn (g.indexOf w.keyword)
        (plan.newColumn g (g.indexOf first) + g.width) h)
      dsimp only
      split
      · exact htried
      · exact visitAll_kept hvisits enclosing (hkept.restore htried h)
    · exact visitAll_kept hvisits enclosing h

theorem visitItem_kept {first : Token} {item : Item (Block × Visit)} (hitem : ∀ b ∈ item.blocks, b.2.Keeps P)
    (enclosing : Option Int) {plan : Plan} (h : P plan) : P (visitItem g first item enclosing plan) := by
  unfold visitItem
  split
  · exact visitClause_kept hkept hitem enclosing h
  · apply visitAll_kept _ enclosing h
    intro v hv
    obtain ⟨b, hb, rfl⟩ := List.mem_map.1 hv
    exact hitem b hb

omit hkept in
/--
The items of a block are visited one after the other.
-/
theorem items_visit (kind : BlockKind) (opener : Token) (column : Int) (items : List (Run Block))
    (enclosing : Option Int) (plan : Plan) :
    (visit g (.mk kind opener column items)).items enclosing plan
      = items.foldl (fun plan run => visitItem g run.first
        (Item.ofRun kind ⟨run.first, run.rest.map (Segment.map fun b => (b, visit g b))⟩) enclosing plan) plan := by
  unfold visit
  rw [Block.fold, Block.foldItems_eq]
  exact List.foldl_map

omit hkept in
/--
A block is moved first, if it can be, and then its items are visited.
-/
theorem whole_visit (b : Block) (enclosing : Option Int) (plan : Plan) :
    ∃ d : Diagnostic, (visit g b).whole enclosing plan
      = (let moved :=
          match g.shift? b enclosing plan with
          | none => plan
          | some delta =>
            if delta = 0 then g.assign b delta plan else (g.assign b delta plan).fixed g "block-indentation" d
        (visit g b).items (some (moved.newColumn g (g.indexOf b.firstToken))) moved) := by
  obtain ⟨kind, opener, column, items⟩ := b
  unfold visit
  rw [Block.fold]
  exact ⟨_, rfl⟩

/--
One step: a visit of a block keeps what the visits of the blocks in its items keep.
-/
theorem visit_kept (b : Block) : (visit g b).Keeps P := by
  induction b using Block.forall_of_items with
  | h kind opener column items ih =>
    have hinside (enclosing : Option Int) {plan : Plan} (h : P plan) :
        P ((visit g (.mk kind opener column items)).items enclosing plan) := by
      rw [items_visit]
      refine List.foldlRecOn _ _ h fun _ hplan run hrun => visitItem_kept hkept (fun b hb => ?_) enclosing hplan
      rw [(Item.keeps_ofRun (fun _ => []) kind _).blocks_eq, Run.blocks, Segment.blocks_map] at hb
      obtain ⟨b, hmem, rfl⟩ := List.mem_map.1 hb
      exact ih run hrun b hmem
    refine ⟨fun enclosing plan h => ?_, fun enclosing plan => hinside enclosing⟩
    obtain ⟨d, hwhole⟩ := whole_visit (g := g) (.mk kind opener column items) enclosing plan
    rw [hwhole]
    apply hinside
    split
    · exact h
    · split
      · exact assign_kept hkept _ _ h
      · exact hkept.fixed _ _ (assign_kept hkept _ _ h)

omit hkept in
theorem visitDeclaration_clause (top : Option Int) (plan : Plan) (c : Clause Block) (layout : Option RhsLayout) :
    visitDeclaration g top plan (.clause c layout)
      = visitClause g (firstToken c) (c.bimap id fun b => (b, visit g b)) top plan := by
  obtain ⟨⟨lhs, rhs⟩, locals⟩ := c
  cases rhs <;> simp only [visitDeclaration, visits, Clause.bimap, Equation.bimap, Rhs.bimap, Segment.bimap_id] <;> rfl

theorem visitDeclaration_kept (top : Option Int) (d : Declaration) {plan : Plan} (h : P plan) :
    P (visitDeclaration g top plan d) := by
  cases d with
  | clause c layout =>
    rw [visitDeclaration_clause]
    refine visitClause_kept hkept (fun b hb => ?_) top h
    rw [Clause.blocks_bimap] at hb
    obtain ⟨b, -, rfl⟩ := List.mem_map.1 hb
    exact visit_kept hkept b
  | raw run =>
    refine visitAll_kept (fun v hv => ?_) top h
    obtain ⟨b, -, rfl⟩ := List.mem_map.1 hv
    exact visit_kept hkept b
  | importing _ | pragma _ | signature _ | data _ => exact h

/--
The run: what every step keeps, the plan for declarations has.
-/
theorem visitDeclarations_kept (top : Option Int) (ds : List Declaration) (h : P {}) :
    P (ds.foldl (visitDeclaration g top) {}) :=
  List.foldlRecOn ds _ h fun _ hplan d _ => visitDeclaration_kept hkept top d hplan

end Indent

end HaskellStyle
