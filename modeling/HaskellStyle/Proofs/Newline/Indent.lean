import HaskellStyle.Proofs.Block.Laid
import HaskellStyle.Proofs.Newline.Render
import HaskellStyle.Proofs.Rule.Indent

/-!
This module contains the rule for indentation on modules with carriage returns. The rule looks at columns, at lines and
at the order of tokens, none of which carriage returns change, so it plans the same.
-/

namespace HaskellStyle

variable {σ : Nat → Nat}

@[simp] theorem Block.nested_map (f : Token → Token) (b : Block) :
    (b.map f).nested = b.nested.map (Block.map f) := by
  induction b using Block.forall_of_items with
  | h kind opener column items ih =>
    rw [nested_eq, nested_eq, inner, inner, items_map, List.map_cons, List.flatMap_map, List.map_flatMap]
    refine congrArg _ ?_
    rw [List.flatMap_def, List.flatMap_def]
    refine congrArg _ (List.map_congr_left fun run hrun => ?_)
    rw [Run.blocks_bimap, List.flatMap_map, List.map_flatMap, List.flatMap_def, List.flatMap_def]
    exact congrArg _ (List.map_congr_left fun b hb => ih run hrun b hb)

namespace Indent

/--
The tokens of a module with carriage returns.
-/
def Grid.crlf (σ : Nat → Nat) (g : Grid) : Grid :=
  ⟨g.settings, g.tokens.map (Token.crlf σ), g.eof.crlf σ⟩

/--
Plans that agree on everything but the findings and the counts.
-/
structure Plan.Mirrors (plan plan' : Plan) : Prop where
  columns : plan'.columns = plan.columns
  breaks : plan'.breaks = plan.breaks
  fixes : plan'.notes.fixes = plan.notes.fixes

namespace Plan.Mirrors

variable {plan plan' : Plan} (h : plan.Mirrors plan')
include h

theorem setColumn (index : Nat) (column : Int) : (plan.setColumn index column).Mirrors (plan'.setColumn index column) :=
  ⟨congrArg ((index, column) :: ·) h.columns, h.breaks, h.fixes⟩

theorem setBreak (index : Nat) : (plan.setBreak index).Mirrors (plan'.setBreak index) :=
  ⟨h.columns, congrArg (index :: ·) h.breaks, h.fixes⟩

theorem fixed {g g' : Grid} (fix : String) (d d' : Diagnostic) :
    (plan.fixed g fix d).Mirrors (plan'.fixed g' fix d') where
  columns := h.columns
  breaks := h.breaks
  fixes := by
    unfold Plan.fixed
    dsimp only
    rw [Notes.fixes_fixed, Notes.fixes_fixed, h.fixes]

theorem restore {earlier earlier' : Plan} (hearlier : earlier.Mirrors earlier') :
    (plan.restore earlier).Mirrors (plan'.restore earlier') :=
  ⟨hearlier.columns, hearlier.breaks, h.fixes⟩

theorem iteFixed {g g' : Grid} (isFixed : Bool) (fix : String) (d d' : Diagnostic) :
    (if isFixed then plan.fixed g fix d else plan).Mirrors (if isFixed then plan'.fixed g' fix d' else plan') := by
  split
  · exact h.fixed fix d d'
  · exact h

theorem iteBreak (isStart : Bool) (index : Nat) :
    (if isStart then plan else plan.setBreak index).Mirrors (if isStart then plan' else plan'.setBreak index) := by
  split
  · exact h
  · exact h.setBreak index

end Plan.Mirrors

@[simp] theorem Grid.get_crlf (g : Grid) (index : Nat) : (g.crlf σ).get index = (g.get index).crlf σ := by
  simp only [get, crlf, Array.getD_eq_getD_getElem?, Array.getElem?_map]
  cases g.tokens[index]? <;> rfl

section Columns

variable {plan plan' : Plan} (h : plan.Mirrors plan') (g : Grid)
include h

theorem Plan.beginsLine_crlf (index : Nat) : plan'.beginsLine (g.crlf σ) index = plan.beginsLine g index := by
  simp only [beginsLine, Grid.get_crlf, Token.lineStart_crlf, h.breaks]

theorem Plan.shiftAt_crlf (index : Nat) : plan'.shiftAt (g.crlf σ) index = plan.shiftAt g index := by
  simp only [shiftAt, Grid.get_crlf, Token.column_crlf, h.columns]

theorem Plan.lineShiftFrom_crlf (isStart : Bool) (index : Nat) :
    plan'.lineShiftFrom (g.crlf σ) isStart index = plan.lineShiftFrom g isStart index := by
  induction index generalizing isStart with
  | zero =>
    unfold lineShiftFrom
    simp only [Grid.get_crlf, Token.isMultiline_crlf, beginsLine_crlf h, shiftAt_crlf h]
  | succ before ih =>
    unfold lineShiftFrom
    simp only [Grid.get_crlf, Token.isMultiline_crlf, beginsLine_crlf h, shiftAt_crlf h, ih]

theorem Plan.newColumn_crlf (index : Nat) : plan'.newColumn (g.crlf σ) index = plan.newColumn g index := by
  simp only [newColumn, Grid.get_crlf, Token.column_crlf, lineShiftFrom_crlf h]

theorem Plan.lineStartOf_crlf (index : Nat) : plan'.lineStartOf (g.crlf σ) index = plan.lineStartOf g index := by
  induction index with
  | zero => rfl
  | succ before ih =>
    unfold lineStartOf
    simp only [beginsLine_crlf h, ih]

end Columns

section Blocks

variable (hσ : Function.Injective σ) (g : Grid)
include hσ

@[simp] theorem Grid.indexOf_crlf (t : Token) : (g.crlf σ).indexOf (t.crlf σ) = g.indexOf t := by
  simp only [indexOf, crlf, Array.findIdx?_map, Function.comp_def, Token.offset_crlf, hσ.eq_iff, Array.size_map]

theorem Grid.lineStarts_crlf (b : Block) : (g.crlf σ).lineStarts (b.map (Token.crlf σ)) = g.lineStarts b := by
  simp only [lineStarts, Block.firstToken_map, Block.lastToken_map, indexOf_crlf hσ, get_crlf, Token.lineStart_crlf]

variable {plan plan' : Plan} (h : plan.Mirrors plan')
include h

theorem Grid.assign_crlf (b : Block) (delta : Int) :
    (g.assign b delta plan).Mirrors ((g.crlf σ).assign (b.map (Token.crlf σ)) delta plan') := by
  unfold assign
  rw [lineStarts_crlf hσ]
  generalize g.lineStarts b = starts
  induction starts generalizing plan plan' with
  | nil => exact h
  | cons index starts ih =>
    rw [List.foldl_cons, List.foldl_cons, get_crlf, Token.column_crlf]
    exact ih (h.setColumn _ _)

theorem Grid.closesCleanly_crlf (b : Block) (target : Int) :
    (g.crlf σ).closesCleanly (b.map (Token.crlf σ)) target plan' = g.closesCleanly b target plan := by
  simp (disch := decide) only [closesCleanly, Block.lastToken_map, indexOf_crlf hσ, get_crlf, Plan.newColumn_crlf h,
    Token.isEnd_crlf, Token.lineStart_crlf, Token.isKeyword_crlf]

theorem Grid.shift?_crlf (b : Block) (enclosing : Option Int) :
    (g.crlf σ).shift? (b.map (Token.crlf σ)) enclosing plan' = g.shift? b enclosing plan := by
  have hwidth : (g.crlf σ).width = g.width := rfl
  simp only [shift?, Block.opener_map, Block.firstToken_map, Block.column_map, indexOf_crlf hσ, get_crlf, hwidth,
    Plan.newColumn_crlf h, Plan.lineStartOf_crlf h, Token.lineStart_crlf, Token.reindentable_crlf, Token.offset_crlf,
    hσ.eq_iff, lineStarts_crlf hσ, closesCleanly_crlf hσ g h]

theorem Grid.whereMovable_crlf (blocks : List Block) (keyword : Token) (target : Int) :
    (g.crlf σ).whereMovable (blocks.map (Block.map (Token.crlf σ))) (keyword.crlf σ) target plan'
      = g.whereMovable blocks keyword target plan := by
  have hnested : (blocks.map (Block.map (Token.crlf σ))).flatMap Block.nested
      = (blocks.flatMap Block.nested).map (Block.map (Token.crlf σ)) := by
    simp only [List.flatMap_map, List.map_flatMap, Block.nested_map]
  simp only [whereMovable, hnested, List.all_map, Function.comp_def, indexOf_crlf hσ, Block.lastToken_map,
    Block.firstToken_map, Plan.newColumn_crlf h, Token.lineStart_crlf, Token.reindentable_crlf, Token.leading_crlf,
    Trivia.hasDirective_crlf]

theorem Grid.bindingsMovable_crlf (b : Block) (target : Int) :
    (g.crlf σ).bindingsMovable (b.map (Token.crlf σ)) target plan' = g.bindingsMovable b target plan := by
  simp only [bindingsMovable, Block.firstToken_map, Block.kind_map, Token.lineStart_crlf, Token.reindentable_crlf,
    Token.leading_crlf, Trivia.hasDirective_crlf, lineStarts_crlf hσ, get_crlf, Token.offset_crlf, hσ.eq_iff,
    closesCleanly_crlf hσ g h]

end Blocks

/--
Visits that make the same plans.
-/
structure Visit.Mirrors (v v' : Visit) : Prop where
  whole : ∀ enclosing {plan plan'}, plan.Mirrors plan' → (v.whole enclosing plan).Mirrors (v'.whole enclosing plan')
  items : ∀ enclosing {plan plan'}, plan.Mirrors plan' → (v.items enclosing plan).Mirrors (v'.items enclosing plan')

/--
A visited block with carriage returns.
-/
def visited (σ : Nat → Nat) (g : Grid) (b : Block × Visit) : Block × Visit :=
  (b.1.map (Token.crlf σ), visit (g.crlf σ) (b.1.map (Token.crlf σ)))

theorem visitAll_crlf {g : Grid} {blocks : List (Block × Visit)}
    (hblocks : ∀ b ∈ blocks, b.2.Mirrors (visited σ g b).2) (enclosing : Option Int) {plan plan' : Plan}
    (h : plan.Mirrors plan') :
    (visitAll (blocks.map Prod.snd) enclosing plan).Mirrors
      (visitAll ((blocks.map (visited σ g)).map Prod.snd) enclosing plan') := by
  induction blocks generalizing plan plan' with
  | nil => exact h
  | cons b blocks ih =>
    rw [List.forall_mem_cons] at hblocks
    exact ih hblocks.2 (hblocks.1.whole enclosing h)

variable (hσ : Function.Injective σ) {g : Grid}
include hσ

theorem placeWhere_crlf (first : Token) (blocks : List Block) {w : WhereClause (Block × Visit)}
    (hw : w.block.2.Mirrors (visited σ g w.block).2) (enclosing : Option Int) {plan plan' : Plan}
    (h : plan.Mirrors plan') :
    (placeWhere g first blocks w enclosing plan).Mirrors
      (placeWhere (g.crlf σ) (first.crlf σ) (blocks.map (Block.map (Token.crlf σ)))
        (w.bimap (Token.crlf σ) (visited σ g)) enclosing plan') := by
  obtain ⟨keyword, bindings, v⟩ := w
  have hwidth : (g.crlf σ).width = g.width := rfl
  unfold placeWhere WhereClause.bimap visited
  dsimp only
  simp only [Grid.indexOf_crlf hσ, Grid.whereMovable_crlf hσ g h, Grid.bindingsMovable_crlf hσ g h,
    Plan.newColumn_crlf h, Block.firstToken_map, Block.column_map, Token.lineStart_crlf, Token.column_crlf, hwidth]
  split
  · refine hw.items _ (Plan.Mirrors.iteFixed ?_ _ _ _ _)
    refine (Plan.Mirrors.iteBreak ?_ _ _)
    exact (Grid.assign_crlf hσ g ((h.setColumn _ _).iteBreak _ _) _ _).setColumn _ _
  · exact hw.whole enclosing h

theorem visitClause_crlf (first : Token) {c : Clause (Block × Visit)}
    (hc : ∀ b ∈ c.blocks, b.2.Mirrors (visited σ g b).2) (enclosing : Option Int) {plan plan' : Plan}
    (h : plan.Mirrors plan') :
    (visitClause g first c enclosing plan).Mirrors
      (visitClause (g.crlf σ) (first.crlf σ) (c.bimap (Token.crlf σ) (visited σ g)) enclosing plan') := by
  have hvisits (enclosing : Option Int) {plan plan' : Plan} (h : plan.Mirrors plan') :=
    visitAll_crlf (fun b hb => hc b (List.mem_append_left _ hb)) enclosing h
  have hblocks : ((c.equation.blocks.map (visited σ g)).map Prod.fst)
      = (c.equation.blocks.map Prod.fst).map (Block.map (Token.crlf σ)) := by
    rw [List.map_map, List.map_map]
    rfl
  have hwidth : (g.crlf σ).width = g.width := rfl
  unfold visitClause Clause.bimap
  dsimp only
  rw [Equation.blocks_bimap, hblocks]
  cases hlocals : c.locals with
  | none => exact hvisits enclosing h
  | some w =>
    have hw : w.block.2.Mirrors (visited σ g w.block).2 := hc w.block (by simp [Clause.blocks, hlocals])
    refine placeWhere_crlf hσ first _ hw enclosing ?_
    have hkeyword : (w.bimap (Token.crlf σ) (visited σ g)).keyword = w.keyword.crlf σ := rfl
    have hblock : (w.bimap (Token.crlf σ) (visited σ g)).block.1 = w.block.1.map (Token.crlf σ) := rfl
    rw [hkeyword, hblock, Token.reindentable_crlf, Grid.indexOf_crlf hσ, Grid.indexOf_crlf hσ, Plan.newColumn_crlf h,
      hwidth]
    split
    · have htried := hvisits enclosing (h.setColumn (g.indexOf w.keyword) (plan.newColumn g (g.indexOf first) + g.width))
      rw [Grid.whereMovable_crlf hσ g htried, Grid.bindingsMovable_crlf hσ g htried]
      split
      · exact htried
      · exact hvisits enclosing (htried.restore h)
    · exact hvisits enclosing h

theorem visitItem_crlf (first : Token) {item : Item (Block × Visit)}
    (hitem : ∀ b ∈ item.blocks, b.2.Mirrors (visited σ g b).2) (enclosing : Option Int) {plan plan' : Plan}
    (h : plan.Mirrors plan') :
    (visitItem g first item enclosing plan).Mirrors
      (visitItem (g.crlf σ) (first.crlf σ) (item.bimap (Token.crlf σ) (visited σ g)) enclosing plan') := by
  have hrun {run : Run (Block × Visit)} (hrun : ∀ b ∈ run.blocks, b.2.Mirrors (visited σ g b).2) :
      (visitAll (run.blocks.map Prod.snd) enclosing plan).Mirrors
        (visitAll ((run.bimap (Token.crlf σ) (visited σ g)).blocks.map Prod.snd) enclosing plan') := by
    rw [Run.blocks_bimap]
    exact visitAll_crlf hrun enclosing h
  have hclause {c : Clause (Block × Visit)} (hc : ∀ b ∈ c.blocks, b.2.Mirrors (visited σ g b).2) :
      (visitAll (c.blocks.map Prod.snd) enclosing plan).Mirrors
        (visitAll ((c.bimap (Token.crlf σ) (visited σ g)).blocks.map Prod.snd) enclosing plan') := by
    rw [Clause.blocks_bimap]
    exact visitAll_crlf hc enclosing h
  cases item with
  | pragma p => exact h
  | signature s => exact h
  | statement run => exact hrun hitem
  | raw run => exact hrun hitem
  | clause form c =>
    cases form with
    | function => exact visitClause_crlf hσ first hitem enclosing h
    | alternative => exact hclause hitem
    | binding => exact hclause hitem

/--
One step: blocks with carriage returns are visited as they are without them, if the blocks in their items are.
-/
theorem visit_crlf (b : Block) : (visit g b).Mirrors (visit (g.crlf σ) (b.map (Token.crlf σ))) := by
  induction b using Block.forall_of_items with
  | h kind opener column items ih =>
    have hinside (enclosing : Option Int) {plan plan' : Plan} (h : plan.Mirrors plan') :
        ((visit g (.mk kind opener column items)).items enclosing plan).Mirrors
          ((visit (g.crlf σ) (Block.map (Token.crlf σ) (.mk kind opener column items))).items enclosing plan') := by
      rw [Block.map_mk, items_visit, items_visit]
      induction items generalizing plan plan' with
      | nil => exact h
      | cons run items ihItems =>
        obtain ⟨hrun, hitems⟩ := List.forall_mem_cons.1 ih
        have hblocks (b : Block × Visit) (hb : b ∈ (Item.ofRun kind ⟨run.first, run.rest.map
            (Segment.map fun b => (b, visit g b))⟩).blocks) : b.2.Mirrors (visited σ g b).2 := by
          rw [(Item.keeps_ofRun (fun _ => []) kind _).blocks_eq, Run.blocks, Segment.blocks_map] at hb
          obtain ⟨b, hmem, rfl⟩ := List.mem_map.1 hb
          exact hrun b hmem
        have hstep := visitItem_crlf hσ run.first hblocks enclosing h
        have hform : Run.bimap (Token.crlf σ) (visited σ g)
              ⟨run.first, run.rest.map (Segment.map fun b => (b, visit g b))⟩
            = ⟨run.first.crlf σ, (run.rest.map (Segment.bimap (Token.crlf σ) (Block.map (Token.crlf σ)))).map
              (Segment.map fun b => (b, visit (g.crlf σ) b))⟩ := by
          simp only [Run.bimap, List.map_map, Run.mk.injEq, true_and]
          refine List.map_congr_left fun segment _ => ?_
          cases segment <;> rfl
        rw [← Item.ofRun_map (Token.crlf σ), hform] at hstep
        exact ihItems hitems hstep
    refine ⟨fun enclosing plan plan' h => ?_, fun enclosing _ _ => hinside enclosing⟩
    obtain ⟨d, hwhole⟩ := whole_visit (g := g) (.mk kind opener column items) enclosing plan
    obtain ⟨d', hwhole'⟩ := whole_visit (g := g.crlf σ) (Block.map (Token.crlf σ) (.mk kind opener column items))
      enclosing plan'
    rw [hwhole, hwhole', Grid.shift?_crlf hσ g h, Block.firstToken_map, Grid.indexOf_crlf hσ]
    have hfinish {moved moved' : Plan} (h : moved.Mirrors moved') (index : Nat) :=
      hinside (some (moved.newColumn g index)) h
    cases g.shift? (.mk kind opener column items) enclosing plan with
    | none =>
      dsimp only
      rw [Plan.newColumn_crlf h]
      exact hfinish h _
    | some delta =>
      have hassign := Grid.assign_crlf hσ g h (.mk kind opener column items) delta
      have hmoved : (if delta = 0 then g.assign (.mk kind opener column items) delta plan
            else (g.assign (.mk kind opener column items) delta plan).fixed g "block-indentation" d).Mirrors
          (if delta = 0 then (g.crlf σ).assign (Block.map (Token.crlf σ) (.mk kind opener column items)) delta plan'
            else ((g.crlf σ).assign (Block.map (Token.crlf σ) (.mk kind opener column items)) delta plan').fixed
              (g.crlf σ) "block-indentation" d') := by
        split
        · exact hassign
        · exact hassign.fixed _ _ _
      dsimp only
      rw [Plan.newColumn_crlf hmoved]
      exact hfinish hmoved _

omit hσ in
theorem visited_bimap (c : Clause Block) :
    (c.bimap (Token.crlf σ) (Block.map (Token.crlf σ))).bimap id (fun b => (b, visit (g.crlf σ) b))
      = (c.bimap id fun b => (b, visit g b)).bimap (Token.crlf σ) (visited σ g) := by
  rw [Clause.bimap_bimap, Clause.bimap_bimap]
  rfl

theorem visitDeclaration_crlf (top : Option Int) (d : Declaration) {plan plan' : Plan} (h : plan.Mirrors plan') :
    (visitDeclaration g top plan d).Mirrors
      (visitDeclaration (g.crlf σ) top plan' (mapTokens (Token.crlf σ) d)) := by
  have hvisited (b : Block) : Visit.Mirrors (visit g b) (visited σ g (b, visit g b)).2 := visit_crlf hσ b
  cases d with
  | importing _ | pragma _ | signature _ | data _ => exact h
  | raw run =>
    have hblocks : (mapTokens (Token.crlf σ) run).blocks = run.blocks.map (Block.map (Token.crlf σ)) :=
      Run.blocks_bimap _ _ run
    have hmirrors (b : Block × Visit) (hb : b ∈ run.blocks.map fun b => (b, visit g b)) :
        b.2.Mirrors (visited σ g b).2 := by
      obtain ⟨b, -, rfl⟩ := List.mem_map.1 hb
      exact hvisited b
    have hall := visitAll_crlf hmirrors top h
    simp only [List.map_map] at hall
    rw [Declaration.mapTokens_raw]
    unfold visitDeclaration
    dsimp only
    rw [hblocks, List.map_map]
    exact hall
  | clause c layout =>
    have hc (b : Block × Visit) (hb : b ∈ (c.bimap id fun b => (b, visit g b)).blocks) :
        b.2.Mirrors (visited σ g b).2 := by
      rw [Clause.blocks_bimap] at hb
      obtain ⟨b, -, rfl⟩ := List.mem_map.1 hb
      exact hvisited b
    have hclause := visitClause_crlf hσ (firstToken c) hc top h
    rw [← visited_bimap, ← firstToken_mapTokens (Token.crlf σ) c] at hclause
    rw [Declaration.mapTokens_clause, visitDeclaration_clause, visitDeclaration_clause]
    exact hclause

/--
The run: declarations with carriage returns are planned as they are without them.
-/
theorem visitDeclarations_crlf (top : Option Int) (ds : List Declaration) {plan plan' : Plan} (h : plan.Mirrors plan') :
    (ds.foldl (visitDeclaration g top) plan).Mirrors
      ((ds.map (mapTokens (Token.crlf σ))).foldl (visitDeclaration (g.crlf σ) top) plan') := by
  induction ds generalizing plan plan' with
  | nil => exact h
  | cons d ds ih => exact ih (visitDeclaration_crlf hσ top d h)

theorem placements_crlf {plan plan' : Plan} (h : plan.Mirrors plan') (earlier : List (Nat × Placement)) :
    placements (g.crlf σ) plan' (earlier.map fun (offset, placement) => (σ offset, placement))
      = (placements g plan earlier).map fun (offset, placement) => (σ offset, placement) := by
  have hinsert (result : List (Nat × Placement)) (offset : Nat) (placement : Placement) :
      insertPlacement (result.map fun (offset, placement) => (σ offset, placement)) (σ offset) placement
        = (insertPlacement result offset placement).map fun (offset, placement) => (σ offset, placement) := by
    simp only [insertPlacement, List.filter_map, List.map_cons, Function.comp_def, hσ.eq_iff, ne_eq]
  unfold placements
  rw [h.columns, h.breaks]
  generalize plan.columns.reverse = columns
  induction columns generalizing earlier with
  | nil => rfl
  | cons entry columns ih =>
    rw [List.foldl_cons, List.foldl_cons, ← ih]
    congr 1
    dsimp only
    rw [Grid.get_crlf, Token.column_crlf, Token.offset_crlf, hinsert]
    split <;> rfl

/--
The rule plans the same for a module with carriage returns.
-/
theorem apply_crlf (settings : Settings) (m : Module) :
    (apply settings (m.crlf σ)).module = (apply settings m).module.crlf σ
      ∧ (apply settings (m.crlf σ)).notes.fixes = (apply settings m).notes.fixes := by
  have hgrid : (⟨settings, (tokens (m.crlf σ)).toArray, (m.crlf σ).eof⟩ : Grid)
      = Grid.crlf σ ⟨settings, (tokens m).toArray, m.eof⟩ := by
    rw [Module.tokens_crlf, ← List.map_toArray]
    rfl
  have htop : ((m.crlf σ).importDecls.map firstToken ++ (m.crlf σ).declarations.map firstToken).head?.map (·.column)
      = (m.importDecls.map firstToken ++ m.declarations.map firstToken).head?.map (·.column) := by
    have hfirsts : (m.crlf σ).importDecls.map firstToken ++ (m.crlf σ).declarations.map firstToken
        = (m.importDecls.map firstToken ++ m.declarations.map firstToken).map (Token.crlf σ) := by
      have hdeclarations : (m.crlf σ).declarations = m.declarations.map (mapTokens (Token.crlf σ)) := rfl
      rw [Module.importDecls_crlf, hdeclarations]
      simp only [List.map_append, List.map_map, Function.comp_def, firstToken_mapTokens]
    rw [hfirsts, List.head?_map, Option.map_map]
    simp only [Function.comp_def, Token.column_crlf]
  have hplan := visitDeclarations_crlf hσ (g := ⟨settings, (tokens m).toArray, m.eof⟩)
    ((m.importDecls.map firstToken ++ m.declarations.map firstToken).head?.map (·.column)) m.declarations
    (show Plan.Mirrors {} {} from ⟨rfl, rfl, rfl⟩)
  have hplaced := placements_crlf hσ (g := ⟨settings, (tokens m).toArray, m.eof⟩) hplan m.placements
  have hdeclarations : (m.crlf σ).declarations = m.declarations.map (mapTokens (Token.crlf σ)) := rfl
  have hplacements : (m.crlf σ).placements = m.placements.map fun (offset, placement) => (σ offset, placement) := rfl
  unfold apply
  dsimp only
  rw [hgrid, htop, hdeclarations, hplacements, hplaced, List.length_map, List.length_map]
  split
  · exact ⟨rfl, hplan.fixes⟩
  · exact ⟨rfl, hplan.fixes⟩

end Indent

end HaskellStyle
