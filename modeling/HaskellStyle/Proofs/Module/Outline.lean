import HaskellStyle.Module.Outline
import HaskellStyle.Proofs.Declaration.Tokens

/-!
This module contains what holds of the outline of a module whose blocks have items: every part of it has tokens, and
they stand next to each other among the tokens of the part around it.
-/

namespace HaskellStyle

namespace Outline

/--
The kind of a part.
-/
def kind : Outline → NodeKind
  | .node kind _ _ => kind

mutual

/--
A part and the parts in it, outer parts first.
-/
def nodes : Outline → List Outline
  | .node kind tokens children => .node kind tokens children :: nodesOfAll children

/--
Several parts and the parts in them.
-/
def nodesOfAll : List Outline → List Outline
  | [] => []
  | outline :: more => nodes outline ++ nodesOfAll more

end

mutual

theorem map_kind_nodes : ∀ outline : Outline, outline.nodes.map kind = outline.kinds
  | .node kind tokens children => by
    rw [nodes, List.map_cons, map_kind_nodesOfAll children, kinds]
    rfl

theorem map_kind_nodesOfAll : ∀ outlines : List Outline, (nodesOfAll outlines).map kind = kindsOfAll outlines
  | [] => rfl
  | outline :: more => by
    rw [nodesOfAll, List.map_append, map_kind_nodes outline, map_kind_nodesOfAll more, kindsOfAll]

end

/--
Parts that have tokens, and in which the tokens of every part stand next to each other.
-/
inductive Proper : Outline → Prop where
  | node {kind : NodeKind} {tokens : List Token} {children : List Outline} (hne : tokens ≠ [])
    (hwithin : ∀ child ∈ children, child.tokens <:+: tokens) (hproper : ∀ child ∈ children, child.Proper) :
    Proper (.node kind tokens children)

theorem mem_nodesOfAll {node : Outline} {outlines : List Outline} (h : node ∈ nodesOfAll outlines) :
    ∃ outline ∈ outlines, node ∈ outline.nodes := by
  induction outlines with
  | nil => cases h
  | cons outline more ih =>
    rw [nodesOfAll] at h
    rcases List.mem_append.1 h with h | h
    · exact ⟨outline, List.mem_cons_self, h⟩
    · obtain ⟨outline', hmem, hnode⟩ := ih h
      exact ⟨outline', List.mem_cons_of_mem _ hmem, hnode⟩

/--
Every part in a proper one has tokens, which stand next to each other among those of the whole.
-/
theorem Proper.of_mem_nodes {outline node : Outline} (h : outline.Proper) (hnode : node ∈ outline.nodes) :
    node.tokens ≠ [] ∧ node.tokens <:+: outline.tokens := by
  induction h with
  | @node kind tokens children hne hwithin hproper ih =>
    rw [nodes] at hnode
    rcases List.mem_cons.1 hnode with rfl | hnode
    · exact ⟨hne, List.infix_refl _⟩
    · obtain ⟨child, hchild, hnode⟩ := mem_nodesOfAll hnode
      obtain ⟨hne', hwithin'⟩ := ih child hchild hnode
      exact ⟨hne', hwithin'.trans (hwithin child hchild)⟩

theorem Proper.tokens_ne_nil {outline : Outline} (h : outline.Proper) : outline.tokens ≠ [] := by
  cases h with
  | node hne => exact hne

theorem Proper.of_children {kind : NodeKind} {tokens : List Token} {children : List Outline} (hne : tokens ≠ [])
    (h : ∀ child ∈ children, child.tokens <:+: tokens ∧ child.Proper) : (Outline.node kind tokens children).Proper :=
  .node hne (fun child hchild => (h child hchild).1) fun child hchild => (h child hchild).2

theorem proper_leaf {ν : Type} [HasTokens ν] (kind : NodeKind) {part : ν} (h : HaskellStyle.tokens part ≠ []) :
    (leaf kind part).Proper := by
  apply Proper.of_children h
  intro child hchild
  cases hchild

theorem proper_ofList {ι : Type} [HasTokens ι] (kind itemKind : NodeKind) {list : ItemList ι}
    (hitems : ∀ item ∈ list.items, HaskellStyle.tokens item ≠ []) : (ofList kind itemKind list).Proper := by
  apply Proper.of_children (List.cons_ne_nil _ _)
  rw [List.forall_mem_map]
  intro item hitem
  exact ⟨ItemList.infix_tokens hitem, proper_leaf itemKind (hitems item hitem)⟩

theorem proper_ofImport (i : Import) : (ofImport i).Proper := by
  apply Proper.of_children (List.cons_ne_nil _ _)
  rw [List.forall_mem_map]
  intro list hlist
  have hwithin : HaskellStyle.tokens list <:+: HaskellStyle.tokens i := by
    refine ⟨i.head, i.tail, ?_⟩
    simp [HaskellStyle.tokens, Option.mem_toList.1 hlist]
  exact ⟨hwithin, proper_ofList _ _ fun item _ => List.cons_ne_nil _ _⟩

theorem proper_ofHeader (h : Header) : (ofHeader h).Proper := by
  apply Proper.of_children (List.cons_ne_nil _ _)
  rw [List.forall_mem_map]
  intro list hlist
  have hwithin : HaskellStyle.tokens list <:+: HaskellStyle.tokens h := by
    refine ⟨h.head, [h.whereKeyword], ?_⟩
    simp [HaskellStyle.tokens, Header.head, Option.mem_toList.1 hlist]
  exact ⟨hwithin, proper_ofList _ _ fun item _ => List.cons_ne_nil _ _⟩

theorem proper_ofData (d : DataDecl) : (ofData d).Proper := by
  apply Proper.of_children (List.cons_ne_nil _ _)
  rw [List.forall_mem_append, List.forall_mem_map, List.forall_mem_map]
  constructor
  · intro c hc
    have hled : ∃ leader, (leader, c) ∈ d.ledConstructors := by
      rcases List.mem_cons.1 hc with rfl | hc
      · exact ⟨d.equals, List.mem_cons_self⟩
      · obtain ⟨⟨leader, _⟩, hmem, rfl⟩ := List.mem_map.1 hc
        exact ⟨leader, List.mem_cons_of_mem _ hmem⟩
    obtain ⟨leader, hled⟩ := hled
    have hwithin : HaskellStyle.tokens c <:+: HaskellStyle.tokens d := by
      have hbody : leader :: HaskellStyle.tokens c <:+: d.ledConstructors.flatMap fun led =>
          led.1 :: HaskellStyle.tokens led.2 :=
        infix_flatMap (f := fun led : Token × Constructor => led.1 :: HaskellStyle.tokens led.2) hled
      have hsuffix : HaskellStyle.tokens c <:+: leader :: HaskellStyle.tokens c := (List.suffix_cons _ _).isInfix
      exact (hsuffix.trans hbody).trans ⟨d.keyword :: d.head, d.derivings.flatMap HaskellStyle.tokens, rfl⟩
    refine ⟨hwithin, Proper.of_children (List.cons_ne_nil _ _) ?_⟩
    rw [List.forall_mem_map]
    intro record hrecord
    have hrecordWithin : HaskellStyle.tokens record <:+: HaskellStyle.tokens c := by
      refine ⟨c.before, c.after, ?_⟩
      simp [HaskellStyle.tokens, Option.mem_toList.1 hrecord]
    refine ⟨hrecordWithin, proper_ofList _ _ fun field _ => ?_⟩
    exact List.append_ne_nil_of_right_ne_nil _ (List.cons_ne_nil _ _)
  · intro deriv hderiv
    refine ⟨?_, proper_leaf _ (List.cons_ne_nil _ _)⟩
    have hclauses : HaskellStyle.tokens deriv <:+: d.derivings.flatMap HaskellStyle.tokens :=
      infix_flatMap hderiv
    exact hclauses.trans (List.suffix_append d.bodyTokens _).isInfix

section Clause

/--
The blocks of segments are proper parts of whatever holds the segments.
-/
theorem forall_blocks {segments : List (Segment Outline)} {ts : List Token}
    (hproper : ∀ b ∈ Segment.blocks segments, b.Proper) (hwithin : Segment.tokensWith tokens segments <:+: ts) :
    ∀ b ∈ Segment.blocks segments, b.tokens <:+: ts ∧ b.Proper :=
  fun b hb => ⟨(Segment.infix_tokensWith tokens hb).trans hwithin, hproper b hb⟩

theorem proper_guard {g : Guard Outline} (h : ∀ b ∈ g.blocks, b.Proper) :
    (Outline.node .guardedRhs (g.tokensWith tokens) g.blocks).Proper := by
  rw [Guard.blocks, List.forall_mem_append] at h
  apply Proper.of_children (List.cons_ne_nil _ _)
  rw [Guard.blocks, List.forall_mem_append]
  constructor
  · exact forall_blocks h.1 ⟨[g.bar], g.equals :: Segment.tokensWith tokens g.body, by simp⟩
  · exact forall_blocks h.2 ⟨g.bar :: Segment.tokensWith tokens g.condition ++ [g.equals], [], by simp⟩

theorem proper_ofEquation {e : Equation Outline} (h : ∀ b ∈ e.blocks, b.Proper) : (ofEquation e).Proper := by
  obtain ⟨lhs, rhs⟩ := e
  cases rhs with
  | plain equals body =>
    rw [Equation.blocks, List.forall_mem_append] at h
    apply Proper.of_children
    · exact List.append_ne_nil_of_right_ne_nil _ (List.cons_ne_nil _ _)
    · rw [List.forall_mem_append]
      constructor
      · exact forall_blocks h.1 (List.prefix_append _ _).isInfix
      · exact forall_blocks h.2 ⟨Segment.tokensWith tokens lhs ++ [equals], [], by
          simp [Equation.tokensWith, Rhs.tokensWith]⟩
  | guarded guard more =>
    rw [Equation.blocks, List.forall_mem_append] at h
    apply Proper.of_children
    · exact List.append_ne_nil_of_right_ne_nil _ (List.cons_ne_nil _ _)
    · rw [List.forall_mem_append, List.forall_mem_map]
      constructor
      · exact forall_blocks h.1 (List.prefix_append _ _).isInfix
      · intro g hg
        have hguards : g.tokensWith tokens <:+: (guard :: more).flatMap (Guard.tokensWith tokens) :=
          infix_flatMap hg
        refine ⟨hguards.trans (List.suffix_append _ _).isInfix, proper_guard fun b hb => ?_⟩
        exact h.2 b (List.mem_flatMap.2 ⟨g, hg, hb⟩)

theorem proper_ofClause (form : ClauseForm) {c : Clause Outline} (h : ∀ b ∈ c.blocks, b.Proper) :
    (ofClause form c).Proper := by
  rw [Clause.blocks, List.forall_mem_append] at h
  have hequation := proper_ofEquation h.1
  have hne : c.equation.tokensWith tokens ≠ [] := hequation.tokens_ne_nil
  apply Proper.of_children
  · exact List.append_ne_nil_of_left_ne_nil hne _
  · rw [List.forall_mem_cons, List.forall_mem_map]
    refine ⟨⟨(List.prefix_append _ _).isInfix, hequation⟩, ?_⟩
    intro w hw
    have hlocals := Option.mem_toList.1 hw
    have hblock : w.block.Proper := h.2 w.block (by simp [Option.mem_def.1 hlocals])
    constructor
    · rw [Clause.tokensWith, Option.mem_def.1 hlocals]
      exact (List.suffix_append _ _).isInfix
    · apply Proper.of_children (List.cons_ne_nil _ _)
      rw [List.forall_mem_singleton]
      exact ⟨(List.suffix_cons _ _).isInfix, hblock⟩

theorem proper_ofRun (kind : NodeKind) {run : Run Outline} (h : ∀ b ∈ run.blocks, b.Proper) :
    (ofRun kind run).Proper := by
  have hexpression : (Outline.node .expression (Segment.tokensWith tokens run.segments) run.blocks).Proper :=
    Proper.of_children (List.cons_ne_nil _ _) (forall_blocks h (List.suffix_cons _ _).isInfix)
  apply Proper.of_children (List.cons_ne_nil _ _)
  rw [List.forall_mem_singleton]
  exact ⟨List.infix_refl _, hexpression⟩

theorem tokens_ofItem (item : Item Outline) : (ofItem item).tokens = item.tokensWith tokens := by
  cases item <;> rfl

theorem proper_ofItem {item : Item Outline} (h : ∀ b ∈ item.blocks, b.Proper) : (ofItem item).Proper := by
  cases item with
  | pragma p => exact proper_leaf _ (List.cons_ne_nil _ _)
  | signature s => exact proper_leaf _ (List.append_ne_nil_of_right_ne_nil _ (List.cons_ne_nil _ _))
  | clause form c => exact proper_ofClause form h
  | statement run => exact proper_ofRun _ h
  | raw run => exact proper_ofRun _ h

end Clause

/--
The outline of an item of a block.
-/
def ofBlockItem (kind : BlockKind) (run : Run Block) : Outline :=
  ofItem (Item.ofRun kind ⟨run.first, segments run.rest⟩)

theorem ofBlock_mk (kind : BlockKind) (opener : Token) (column : Int) (items : List (Run Block)) :
    ofBlock (.mk kind opener column items)
      = .node .layoutBlock ((items.map (ofBlockItem kind)).flatMap tokens) (items.map (ofBlockItem kind)) := by
  have hsegments (run : List (Segment Block)) :
      (run.map (Segment.map fun b => (b, ofBlock b))).map (Segment.map Prod.snd) = segments run := by
    rw [List.map_map, segments]
    apply List.map_congr_left
    intro segment _
    cases segment <;> rfl
  have hitems (items : List (Run Block)) :
      (items.map fun run => (⟨run.first, run.rest.map (Segment.map fun b => (b, ofBlock b))⟩ : Run _)).map
          (fun run => ofItem (Item.ofRun kind ⟨run.first, run.rest.map (Segment.map Prod.snd)⟩))
        = items.map (ofBlockItem kind) := by
    rw [List.map_map]
    apply List.map_congr_left
    intro run _
    rw [ofBlockItem, ← hsegments]
    rfl
  rw [ofBlock, Block.fold, Block.foldItems_eq]
  exact congrArg (fun items => Outline.node .layoutBlock (items.flatMap tokens) items) (hitems items)

mutual

theorem tokens_ofBlock : ∀ b : Block, (ofBlock b).tokens = b.tokens
  | .mk kind opener column items => by
    rw [ofBlock_mk, Block.tokens_mk]
    exact tokens_ofBlockItems kind items

theorem tokens_ofBlockItems (kind : BlockKind) :
    ∀ items : List (Run Block), (items.map (ofBlockItem kind)).flatMap tokens = items.flatMap HaskellStyle.tokens
  | [] => rfl
  | ⟨first, rest⟩ :: more => by
    have hitem : (ofBlockItem kind ⟨first, rest⟩).tokens = HaskellStyle.tokens (⟨first, rest⟩ : Run Block) := by
      rw [ofBlockItem, tokens_ofItem, (Item.keeps_ofRun tokens kind _).tokens_eq]
      exact congrArg (first :: ·) (tokens_segments rest)
    rw [List.map_cons, List.flatMap_cons, List.flatMap_cons, hitem, tokens_ofBlockItems kind more]

theorem tokens_segments : ∀ run : List (Segment Block), Segment.tokensWith tokens (segments run) = Segment.tokens run
  | [] => rfl
  | .token t :: more => congrArg (t :: ·) (tokens_segments more)
  | .block b :: more => by
    have hmore := tokens_segments more
    show (ofBlock b).tokens ++ Segment.tokensWith tokens (segments more) = b.tokens ++ Segment.tokens more
    rw [tokens_ofBlock b, hmore]

end

theorem blocks_segments (run : List (Segment Block)) :
    Segment.blocks (segments run) = (Segment.blocks run).map ofBlock :=
  Segment.blocks_map ofBlock run

theorem proper_ofBlock {b : Block} (h : b.Proper) : (ofBlock b).Proper := by
  induction h with
  | @mk kind opener column items hitems hblocks ih =>
    have hproper (run : Run Block) (hrun : run ∈ items) : (ofBlockItem kind run).Proper := by
      apply proper_ofItem
      intro b hb
      rw [(Item.keeps_ofRun tokens kind _).blocks_eq, Run.blocks, blocks_segments] at hb
      obtain ⟨b', hb', rfl⟩ := List.mem_map.1 hb
      exact ih run hrun b' hb'
    rw [ofBlock_mk]
    apply Proper.of_children
    · obtain ⟨run, hrun⟩ := List.exists_mem_of_ne_nil items hitems
      intro hnil
      exact (hproper run hrun).tokens_ne_nil (List.flatMap_eq_nil_iff.1 hnil _ (List.mem_map_of_mem hrun))
    · rw [List.forall_mem_map]
      intro run hrun
      refine ⟨?_, hproper run hrun⟩
      exact infix_flatMap (List.mem_map_of_mem hrun)

theorem tokensWith_guard (g : Guard Block) :
    Guard.tokensWith tokens ⟨g.bar, segments g.condition, g.equals, segments g.body⟩ = HaskellStyle.tokens g := by
  show _ = Guard.tokensWith Block.tokens g
  simp [Guard.tokensWith, tokens_segments, Segment.tokens]

theorem tokensWith_clause (c : Clause Block) : (clause c).tokensWith tokens = HaskellStyle.tokens c := by
  obtain ⟨⟨lhs, rhs⟩, locals⟩ := c
  show _ = Clause.tokensWith Block.tokens _
  have hrhs : (clause ⟨⟨lhs, rhs⟩, locals⟩).equation.rhs.tokensWith tokens = rhs.tokensWith Block.tokens := by
    cases rhs with
    | plain equals body => exact congrArg (equals :: ·) (tokens_segments body)
    | guarded guard more =>
      simp only [clause, Rhs.tokensWith, List.flatMap_cons, List.flatMap_map, tokensWith_guard]
      rfl
  have hequation : (clause ⟨⟨lhs, rhs⟩, locals⟩).equation.tokensWith tokens
      = Equation.tokensWith Block.tokens ⟨lhs, rhs⟩ := by
    rw [Equation.tokensWith, hrhs]
    exact congrArg (· ++ _) (tokens_segments lhs)
  rw [Clause.tokensWith, Clause.tokensWith, hequation]
  cases locals with
  | none => rfl
  | some w => exact congrArg (_ ++ w.keyword :: ·) (tokens_ofBlock w.block)

theorem blocks_clause (c : Clause Block) : (clause c).blocks = c.blocks.map ofBlock := by
  obtain ⟨⟨lhs, rhs⟩, locals⟩ := c
  cases rhs <;> cases locals <;>
    simp [clause, Clause.blocks, Equation.blocks, Guard.blocks, blocks_segments, List.flatMap_map, List.map_flatMap]

theorem tokens_ofDeclaration (d : Declaration) : (ofDeclaration d).tokens = HaskellStyle.tokens d := by
  cases d with
  | importing i => rfl
  | pragma p => rfl
  | signature s => rfl
  | data d => rfl
  | clause c layout => exact tokensWith_clause c
  | raw run => exact congrArg (run.first :: ·) (tokens_segments run.rest)

theorem proper_ofDeclaration {d : Declaration} (h : ∀ b ∈ d.blocks, b.Proper) : (ofDeclaration d).Proper := by
  cases d with
  | importing i => exact proper_ofImport i
  | pragma p => exact proper_leaf _ (List.cons_ne_nil _ _)
  | signature s => exact proper_leaf _ (List.append_ne_nil_of_right_ne_nil _ (List.cons_ne_nil _ _))
  | data d => exact proper_ofData d
  | clause c layout =>
    refine proper_ofClause .function (c := clause c) ?_
    rw [blocks_clause, List.forall_mem_map]
    exact fun b hb => proper_ofBlock (h b hb)
  | raw run =>
    apply proper_ofRun
    rw [Run.blocks, blocks_segments, List.forall_mem_map]
    exact fun b hb => proper_ofBlock (h b hb)

/--
The outline of a module without empty groups of imports and empty blocks is proper.
-/
theorem proper_ofModule {m : Module} (himports : ∀ group ∈ m.imports, group ≠ [])
    (hblocks : ∀ d ∈ m.declarations, ∀ b ∈ d.blocks, b.Proper) : (ofModule m).Proper := by
  have htokens : HaskellStyle.tokens m = List.flatten [m.headerPragmas.flatMap HaskellStyle.tokens,
      (m.header.map HaskellStyle.tokens).getD [], m.imports.flatMap (·.flatMap HaskellStyle.tokens),
      m.declarations.flatMap HaskellStyle.tokens, [m.eof]] := by
    have hpragmas : m.headerPragmas.flatMap HaskellStyle.tokens = m.headerPragmas.map (·.token) :=
      List.map_eq_flatMap.symm
    rw [hpragmas]
    simp [HaskellStyle.tokens]
  have hregion {region part : List Token} (hpart : part <:+: region)
      (hmem : region ∈ [m.headerPragmas.flatMap HaskellStyle.tokens, (m.header.map HaskellStyle.tokens).getD [],
        m.imports.flatMap (·.flatMap HaskellStyle.tokens), m.declarations.flatMap HaskellStyle.tokens, [m.eof]]) :
      part <:+: HaskellStyle.tokens m := by
    rw [htokens]
    exact hpart.trans (List.infix_of_mem_flatten hmem)
  apply Proper.of_children
  · exact List.append_ne_nil_of_right_ne_nil _ (List.cons_ne_nil _ _)
  · simp only [List.forall_mem_append, List.forall_mem_map]
    refine ⟨⟨⟨?_, ?_⟩, ?_⟩, ?_⟩
    · intro p hp
      have hwithin : HaskellStyle.tokens p <:+: m.headerPragmas.flatMap HaskellStyle.tokens := infix_flatMap hp
      exact ⟨hregion hwithin (by simp), proper_leaf _ (List.cons_ne_nil _ _)⟩
    · intro header hheader
      refine ⟨hregion (List.infix_refl _) ?_, proper_ofHeader header⟩
      rw [Option.mem_toList.1 hheader]
      simp [ofHeader, tokens]
    · intro group hgroup
      refine ⟨hregion (infix_flatMap (f := fun group : List Import => group.flatMap HaskellStyle.tokens) hgroup)
        (by simp), Proper.of_children ?_ ?_⟩
      · obtain ⟨i, more, rfl⟩ := List.exists_cons_of_ne_nil (himports group hgroup)
        exact List.cons_ne_nil _ _
      · rw [List.forall_mem_map]
        intro i hi
        have hwithin : HaskellStyle.tokens i <:+: group.flatMap HaskellStyle.tokens := infix_flatMap hi
        exact ⟨hwithin, proper_ofImport i⟩
    · intro d hd
      refine ⟨?_, proper_ofDeclaration (hblocks d hd)⟩
      rw [tokens_ofDeclaration]
      exact hregion (infix_flatMap hd) (by simp)

end Outline

end HaskellStyle
