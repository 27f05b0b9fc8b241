import HaskellStyle.Module.Read
import HaskellStyle.Proofs.Module.Faithful
import HaskellStyle.Proofs.Fault
import HaskellStyle.Proofs.Rule.Advice
import HaskellStyle.Proofs.Rule.Indent

/-!
This module contains what is left of a try that is undone. The plan for a module is the one that would be made if undone
tries left nothing behind, except for the names of the fixes, which stay. The counts agree with the findings in any case:
the notes of a rule grow with each fix by its name, by how often it was counted and by what was reported of it.
-/

namespace HaskellStyle

/--
The fixes that the rule for indentation makes, each with the kind of its findings.
-/
def Indent.fixKinds : List (String × DiagnosticKind) :=
  [("block-indentation", .indentation), ("where-placement", .wherePlacement)]

namespace Notes

variable {settings : Settings}

/--
How often something was counted.
-/
def countOf (notes : Notes) (key : String) : Nat :=
  (notes.counts.lookup key).getD 0

/--
The notes with the fixes that were counted, whichever were noted.
-/
def settled (notes : Notes) : Notes :=
  { notes with fixes := notes.counts.map Prod.fst }

theorem lookup_addCount (key key' : String) (amount : Nat) (counts : List (String × Nat)) :
    (addCount key amount counts).lookup key'
      = if key' == key then some ((counts.lookup key').getD 0 + amount) else counts.lookup key' := by
  induction counts with
  | nil => cases h : key' == key <;> simp [addCount, List.lookup_cons, h]
  | cons x counts ih =>
    obtain ⟨k, n⟩ := x
    unfold addCount
    by_cases hk : k = key
    · subst hk
      cases h : key' == k <;> simp [List.lookup_cons, h]
    · rw [if_neg (by simpa using hk)]
      cases h : key' == k with
      | true =>
        obtain rfl : key' = k := by simpa using h
        simp [hk]
      | false => simp [List.lookup_cons, h, ih]

theorem keys_addCount (key : String) (amount : Nat) (counts : List (String × Nat)) :
    (addCount key amount counts).map Prod.fst
      = if (counts.map Prod.fst).contains key then counts.map Prod.fst else counts.map Prod.fst ++ [key] := by
  induction counts with
  | nil => rfl
  | cons x counts ih =>
    obtain ⟨k, n⟩ := x
    unfold addCount
    by_cases hk : k = key
    · simp [hk]
    · rw [if_neg (by simpa using hk), List.map_cons, ih, List.map_cons]
      have hne : (key == k) = false := by simpa using fun h => hk h.symm
      rw [List.contains_cons, hne, Bool.false_or]
      split <;> rfl

theorem countOf_fixed (notes : Notes) (fix key : String) (d : Diagnostic) :
    (notes.fixed settings fix d).countOf key = notes.countOf key + if key = fix then 1 else 0 := by
  rw [countOf, fixed_eq, lookup_addCount, countOf]
  by_cases h : key = fix <;> simp [h]

theorem settled_fixed (notes : Notes) (fix : String) (d : Diagnostic) :
    (notes.fixed settings fix d).settled = notes.settled.fixed settings fix d := by
  rw [settled, fixed_eq, fixed_eq, settled, keys_addCount]

/--
Notes that name a fix exactly if it was counted, and that count it exactly if it was reported.
-/
def Agree (notes : Notes) (fix : String) (kind : DiagnosticKind) : Prop :=
  (fix ∈ notes.fixes ↔ 0 < notes.countOf fix) ∧ (0 < notes.countOf fix ↔ ∃ d ∈ notes.found, d.kind = kind)

/--
Notes that know of each fix that was counted.
-/
def Known (notes : Notes) : Prop :=
  notes.settled.fixes ⊆ notes.fixes

/--
Notes whose counts agree with the findings on the fixes of the rule for indentation.
-/
structure Tallied (notes : Notes) : Prop where
  counted : ∀ key, key ∈ notes.settled.fixes ↔ 0 < notes.countOf key
  found : ∀ x ∈ Indent.fixKinds, notes.countOf x.1 = notes.found.countP fun d => d.kind = x.2

theorem subset_fixed (notes : Notes) (fix : String) (d : Diagnostic) :
    notes.fixes ⊆ (notes.fixed settings fix d).fixes := by
  rw [fixed_eq]
  dsimp only
  split
  · exact List.Subset.refl _
  · exact List.subset_append_left _ _

theorem known_fixed {notes : Notes} (h : notes.Known) (fix : String) (d : Diagnostic) :
    (notes.fixed settings fix d).Known := by
  intro key hkey
  rw [settled_fixed] at hkey
  rw [fixed_eq] at hkey ⊢
  dsimp only at hkey ⊢
  split at hkey
  · next hcounted =>
    have hfix : notes.fixes.contains fix := List.contains_iff_mem.2 (h (List.contains_iff_mem.1 hcounted))
    rw [if_pos hfix]
    exact h hkey
  · rcases List.mem_append.1 hkey with hkey | hkey
    · split
      · exact h hkey
      · exact List.mem_append_left _ (h hkey)
    · rw [List.mem_singleton.1 hkey]
      split
      · next hfix => exact List.contains_iff_mem.1 hfix
      · exact List.mem_append_right _ List.mem_cons_self

theorem mem_settled_fixed (notes : Notes) (fix key : String) (d : Diagnostic) :
    key ∈ (notes.fixed settings fix d).settled.fixes ↔ key ∈ notes.settled.fixes ∨ key = fix := by
  rw [settled_fixed, fixed_eq]
  dsimp only
  split
  · next hfix =>
    refine ⟨.inl, ?_⟩
    rintro (hkey | rfl)
    · exact hkey
    · exact List.contains_iff_mem.1 hfix
  · rw [List.mem_append, List.mem_singleton]

theorem tallied_fixed {notes : Notes} (h : notes.Tallied) {fix : String} {d : Diagnostic}
    (hfix : (fix, d.kind) ∈ Indent.fixKinds) : (notes.fixed settings fix d).Tallied where
  counted key := by
    rw [mem_settled_fixed, countOf_fixed, h.counted]
    split <;> simp_all
  found x hx := by
    have hchecks : ∀ y ∈ Indent.fixKinds, y.2.check = none := by decide
    have hreports : settings.reports d := by
      rw [Settings.reports, hchecks _ hfix]
      rfl
    have hinjective : ∀ x ∈ Indent.fixKinds, ∀ y ∈ Indent.fixKinds, x.1 = y.1 ↔ y.2 = x.2 := by decide
    have hsame : x.1 = fix ↔ d.kind = x.2 := hinjective x hx _ hfix
    rw [countOf_fixed, fixed_eq, List.filter_cons_of_pos hreports, List.filter_nil, List.countP_append, h.found x hx,
      List.countP_singleton]
    simp only [hsame, decide_eq_true_eq]

end Notes

namespace Indent

section With

variable (undo : Plan → Plan → Plan)

/--
Visits an equation with local definitions, where `undo` undoes a try.
-/
def visitClauseWith (g : Grid) (first : Token) (c : Clause (Block × Visit)) (enclosing : Option Int)
    (plan : Plan) : Plan :=
  let visits := c.equation.blocks.map Prod.snd
  match c.locals with
  | none => visitAll visits enclosing plan
  | some w =>
    let blocks := c.equation.blocks.map Prod.fst
    let planned :=
      if w.keyword.reindentable then
        let target := plan.newColumn g (g.indexOf first) + g.width
        let tried := visitAll visits enclosing (plan.setColumn (g.indexOf w.keyword) target)
        if g.whereMovable blocks w.keyword target tried
            && g.bindingsMovable w.block.1 (target + g.width) tried then
          tried
        else
          visitAll visits enclosing (undo tried plan)
      else
        visitAll visits enclosing plan
    placeWhere g first blocks w enclosing planned

/--
Visits the blocks of an item, where `undo` undoes a try.
-/
def visitItemWith (g : Grid) (first : Token) (item : Item (Block × Visit)) (enclosing : Option Int)
    (plan : Plan) : Plan :=
  match item with
  | .clause .function c => visitClauseWith undo g first c enclosing plan
  | item => visitAll (item.blocks.map Prod.snd) enclosing plan

/--
What is done at a block, where `undo` undoes a try.
-/
def visitWith (g : Grid) (b : Block) : Visit :=
  b.fold fun b items =>
    let inside := fun enclosing plan => items.foldl
      (fun plan run => visitItemWith undo g run.first (Item.ofRun b.kind run) enclosing plan) plan
    let whole := fun enclosing plan =>
      let plan :=
        match g.shift? b enclosing plan with
        | none => plan
        | some delta =>
          let plan := g.assign b delta plan
          if delta = 0 then
            plan
          else
            plan.fixed g "block-indentation" {
              kind := .indentation
              message := s!"Indent '{b.opener.text}' block by {g.width} spaces"
              span := b.firstToken.span
            }
      inside (some (plan.newColumn g (g.indexOf b.firstToken))) plan
    ⟨whole, inside⟩

/--
Visits a declaration, where `undo` undoes a try.
-/
def visitDeclarationWith (g : Grid) (top : Option Int) (plan : Plan) : Declaration → Plan
  | .clause c _ => visitClauseWith undo g (firstToken c) (c.bimap id fun b => (b, visitWith undo g b)) top plan
  | .raw run => visitAll (run.blocks.map (visitWith undo g)) top plan
  | .importing _ | .pragma _ | .signature _ | .data _ => plan

/--
The plan for a module, where `undo` undoes a try.
-/
def Plan.ofModuleWith (settings : Settings) (m : Module) : Plan :=
  m.declarations.foldl (visitDeclarationWith undo (.ofModule settings m) (topColumn m)) {}

end With

theorem visitWith_restore (g : Grid) : visitWith Plan.restore g = visit g := rfl

/--
The plan for a module is that in which tries are undone by restoring the plan before them.
-/
theorem Plan.ofModule_eq (settings : Settings) (m : Module) :
    Plan.ofModule settings m = Plan.ofModuleWith Plan.restore settings m := by
  unfold ofModule ofModuleWith
  congr 1
  funext plan d
  cases d with
  | clause c layout => exact visitDeclaration_clause (topColumn m) plan c layout
  | _ => rfl

instance : Token.Faithful id where
  kind_map _ := rfl
  contains_map _ _ := rfl

variable {g : Grid}

namespace Plan

/--
The plan with the fixes that were counted, whichever were noted.
-/
def settled (plan : Plan) : Plan :=
  { plan with notes := plan.notes.settled }

variable (plan : Plan)

theorem beginsLine_settled (index : Nat) : plan.settled.beginsLine g index = plan.beginsLine g index := rfl

theorem shiftAt_settled (index : Nat) : plan.settled.shiftAt g index = plan.shiftAt g index := rfl

theorem lineShiftFrom_settled (isStart : Bool) (index : Nat) :
    plan.settled.lineShiftFrom g isStart index = plan.lineShiftFrom g isStart index := by
  induction index generalizing isStart with
  | zero => rfl
  | succ before ih => simp only [lineShiftFrom, ih, beginsLine_settled, shiftAt_settled]

theorem newColumn_settled (index : Nat) : plan.settled.newColumn g index = plan.newColumn g index := by
  rw [newColumn, newColumn, lineShiftFrom_settled]

theorem lineStartOf_settled (index : Nat) : plan.settled.lineStartOf g index = plan.lineStartOf g index := by
  induction index with
  | zero => rfl
  | succ before ih => simp only [lineStartOf, ih, beginsLine_settled]

theorem setColumn_settled (index : Nat) (column : Int) :
    plan.settled.setColumn index column = (plan.setColumn index column).settled := rfl

theorem iteBreak_settled (isStart : Bool) (index : Nat) :
    (if isStart then plan.settled else plan.settled.setBreak index)
      = (if isStart then plan else plan.setBreak index).settled := by
  cases isStart <;> rfl

theorem fixed_settled (fix : String) (d : Diagnostic) :
    plan.settled.fixed g fix d = (plan.fixed g fix d).settled := by
  simp only [fixed, settled, Notes.settled_fixed]

theorem iteFixed_settled (isFixed : Bool) (fix : String) (d : Diagnostic) :
    (if isFixed then plan.settled.fixed g fix d else plan.settled)
      = (if isFixed then plan.fixed g fix d else plan).settled := by
  cases isFixed
  · rfl
  · exact fixed_settled plan fix d

end Plan

namespace Grid

variable (g : Grid) (b : Block) (plan : Plan)

theorem closesCleanly_settled (target : Int) : g.closesCleanly b target plan.settled = g.closesCleanly b target plan := by
  simp only [closesCleanly, Plan.newColumn_settled]

theorem shift?_settled (enclosing : Option Int) : g.shift? b enclosing plan.settled = g.shift? b enclosing plan := by
  simp only [shift?, Plan.newColumn_settled, Plan.lineStartOf_settled, closesCleanly_settled]

theorem whereMovable_settled (blocks : List Block) (keyword : Token) (target : Int) :
    g.whereMovable blocks keyword target plan.settled = g.whereMovable blocks keyword target plan := by
  simp only [whereMovable, Plan.newColumn_settled]

theorem bindingsMovable_settled (target : Int) :
    g.bindingsMovable b target plan.settled = g.bindingsMovable b target plan := by
  simp only [bindingsMovable, closesCleanly_settled]

theorem assign_settled (delta : Int) : g.assign b delta plan.settled = (g.assign b delta plan).settled := by
  unfold assign
  generalize g.lineStarts b = starts
  induction starts generalizing plan with
  | nil => rfl
  | cons index starts ih => exact ih (plan.setColumn index ((g.get index).column + delta))

theorem notes_assign (delta : Int) : (g.assign b delta plan).notes = plan.notes := by
  unfold assign
  exact List.foldlRecOn (motive := fun p : Plan => p.notes = plan.notes) _ _ rfl fun _ hplan _ _ => hplan

end Grid

/--
A step from a plan to the next one. Taken where only the counted fixes are known, it leads to the same plan, but for that.
It forgets no fix.
-/
structure Plan.Leads (plan next next' : Plan) : Prop where
  settled : next' = next.settled
  subset : plan.notes.fixes ⊆ next.notes.fixes
  known : plan.notes.Known → next.notes.Known
  tallied : plan.notes.Tallied → next.notes.Tallied

namespace Plan.Leads

variable {plan next next' last last' : Plan}

theorem of_notes (h : next.notes = plan.notes) : plan.Leads next next.settled :=
  ⟨rfl, h ▸ List.Subset.refl _, fun hknown => h ▸ hknown, fun htallied => h ▸ htallied⟩

theorem of_fixed (h : plan.Leads next next.settled) (isFixed : Bool) {fix : String} {d : Diagnostic}
    (hfix : (fix, d.kind) ∈ fixKinds) :
    plan.Leads (if isFixed then next.fixed g fix d else next) (if isFixed then next.fixed g fix d else next).settled := by
  cases isFixed with
  | false => exact h
  | true =>
    exact ⟨rfl, List.Subset.trans h.subset (Notes.subset_fixed _ _ _),
      fun hknown => Notes.known_fixed (h.known hknown) _ _, fun htallied => Notes.tallied_fixed (h.tallied htallied) hfix⟩

theorem trans (h : plan.Leads next next.settled) (h' : next.Leads last last') : plan.Leads last last' :=
  ⟨h'.settled, List.Subset.trans h.subset h'.subset, fun hknown => h'.known (h.known hknown),
    fun htallied => h'.tallied (h.tallied htallied)⟩

theorem self (h : plan.Leads next next') : plan.Leads next next.settled :=
  ⟨rfl, h.subset, h.known, h.tallied⟩

end Plan.Leads

/--
Two visits of which the second, made where only the counted fixes are known, plans the same.
-/
structure Visit.Leads (v v' : Visit) : Prop where
  whole : ∀ enclosing (plan : Plan), plan.Leads (v.whole enclosing plan) (v'.whole enclosing plan.settled)
  items : ∀ enclosing (plan : Plan), plan.Leads (v.items enclosing plan) (v'.items enclosing plan.settled)

/--
A block to be visited such that an undone try leaves nothing.
-/
def intended (g : Grid) (b : Block × Visit) : Block × Visit :=
  (b.1, visitWith (fun _ earlier => earlier) g b.1)

theorem visitAll_leads {blocks : List (Block × Visit)} (hblocks : ∀ b ∈ blocks, b.2.Leads (intended g b).2)
    (enclosing : Option Int) (plan : Plan) :
    plan.Leads (visitAll (blocks.map Prod.snd) enclosing plan)
      (visitAll ((blocks.map (intended g)).map Prod.snd) enclosing plan.settled) := by
  induction blocks generalizing plan with
  | nil => exact .of_notes rfl
  | cons b blocks ih =>
    rw [List.forall_mem_cons] at hblocks
    have hb := hblocks.1.whole enclosing plan
    have hmore := ih hblocks.2 (b.2.whole enclosing plan)
    rw [← hb.settled] at hmore
    exact hb.self.trans hmore

theorem placeWhere_leads (first : Token) (blocks : List Block) {w : WhereClause (Block × Visit)}
    (hw : w.block.2.Leads (intended g w.block).2) (enclosing : Option Int) (plan : Plan) :
    plan.Leads (placeWhere g first blocks w enclosing plan)
      (placeWhere g first blocks (w.bimap id (intended g)) enclosing plan.settled) := by
  obtain ⟨keyword, bindings, v⟩ := w
  unfold placeWhere WhereClause.bimap intended
  simp only [id_eq, Grid.whereMovable_settled, Grid.bindingsMovable_settled, Plan.newColumn_settled,
    Plan.setColumn_settled, Plan.iteBreak_settled, Grid.assign_settled, Plan.iteFixed_settled]
  split
  · refine (Plan.Leads.of_fixed (.of_notes ?_) _ (List.mem_cons_of_mem _ List.mem_cons_self)).trans (hw.items _ _)
    have hbreak (plan : Plan) (isStart : Bool) (index : Nat) :
        (if isStart then plan else plan.setBreak index).notes = plan.notes := by
      cases isStart <;> rfl
    rw [hbreak]
    show (g.assign _ _ _).notes = _
    rw [Grid.notes_assign, hbreak]
    rfl
  · exact hw.whole enclosing plan

theorem visitClause_leads (first : Token) {c : Clause (Block × Visit)}
    (hc : ∀ b ∈ c.blocks, b.2.Leads (intended g b).2) (enclosing : Option Int) (plan : Plan) :
    plan.Leads (visitClauseWith Plan.restore g first c enclosing plan)
      (visitClauseWith (fun _ earlier => earlier) g first (c.bimap id (intended g)) enclosing plan.settled) := by
  have hvisits := visitAll_leads fun b hb => hc b (List.mem_append_left _ hb)
  have hblocks : (c.equation.blocks.map (intended g)).map Prod.fst = c.equation.blocks.map Prod.fst := by
    rw [List.map_map]
    rfl
  unfold visitClauseWith Clause.bimap
  dsimp only
  rw [Equation.blocks_bimap, hblocks]
  cases hlocals : c.locals with
  | none => exact hvisits enclosing plan
  | some w =>
    have hw : w.block.2.Leads (intended g w.block).2 := hc w.block (by simp [Clause.blocks, hlocals])
    have hplace {planned planned' : Plan} (h : plan.Leads planned planned') :
        plan.Leads (placeWhere g first (c.equation.blocks.map Prod.fst) w enclosing planned)
          (placeWhere g first (c.equation.blocks.map Prod.fst) (w.bimap id (intended g)) enclosing planned') := by
      rw [h.settled]
      exact h.self.trans (placeWhere_leads first _ hw enclosing planned)
    have hkeyword : (w.bimap id (intended g)).keyword = w.keyword := rfl
    have hblock : (w.bimap id (intended g)).block.1 = w.block.1 := rfl
    rw [Option.map_some]
    dsimp only
    rw [hkeyword, hblock, Plan.newColumn_settled, Plan.setColumn_settled]
    apply hplace
    split
    · have htried := hvisits enclosing (plan.setColumn (g.indexOf w.keyword)
        (plan.newColumn g (g.indexOf first) + g.width))
      rw [htried.settled, Grid.whereMovable_settled, Grid.bindingsMovable_settled]
      split
      · exact ⟨rfl, htried.subset, htried.known, htried.tallied⟩
      · -- The fixes that the try noted stay, which is all that tells the plan from the one before the try.
        have hrestored : plan.Leads ((visitAll (c.equation.blocks.map Prod.snd) enclosing (plan.setColumn
            (g.indexOf w.keyword) (plan.newColumn g (g.indexOf first) + g.width))).restore plan) plan.settled :=
          ⟨rfl, htried.subset, fun hknown => List.Subset.trans hknown htried.subset,
            fun htallied => ⟨htallied.counted, htallied.found⟩⟩
        exact hrestored.self.trans (hvisits enclosing _)
    · exact hvisits enclosing plan

theorem visitItem_leads (first : Token) {item : Item (Block × Visit)}
    (hitem : ∀ b ∈ item.blocks, b.2.Leads (intended g b).2) (enclosing : Option Int) (plan : Plan) :
    plan.Leads (visitItemWith Plan.restore g first item enclosing plan)
      (visitItemWith (fun _ earlier => earlier) g first (item.bimap id (intended g)) enclosing plan.settled) := by
  have hrun {run : Run (Block × Visit)} (hrun : ∀ b ∈ run.blocks, b.2.Leads (intended g b).2) :
      plan.Leads (visitAll (run.blocks.map Prod.snd) enclosing plan)
        (visitAll ((run.bimap id (intended g)).blocks.map Prod.snd) enclosing plan.settled) := by
    rw [Run.blocks_bimap]
    exact visitAll_leads hrun enclosing plan
  have hclause {c : Clause (Block × Visit)} (hc : ∀ b ∈ c.blocks, b.2.Leads (intended g b).2) :
      plan.Leads (visitAll (c.blocks.map Prod.snd) enclosing plan)
        (visitAll ((c.bimap id (intended g)).blocks.map Prod.snd) enclosing plan.settled) := by
    rw [Clause.blocks_bimap]
    exact visitAll_leads hc enclosing plan
  cases item with
  | pragma p => exact .of_notes rfl
  | signature s => exact .of_notes rfl
  | statement run => exact hrun hitem
  | raw run => exact hrun hitem
  | clause form c =>
    cases form with
    | function => exact visitClause_leads first hitem enclosing plan
    | alternative => exact hclause hitem
    | binding => exact hclause hitem

section Blocks

variable (undo : Plan → Plan → Plan)

theorem items_visitWith (kind : BlockKind) (opener : Token) (column : Int) (items : List (Run Block))
    (enclosing : Option Int) (plan : Plan) :
    (visitWith undo g (.mk kind opener column items)).items enclosing plan
      = items.foldl (fun plan run => visitItemWith undo g run.first
        (Item.ofRun kind ⟨run.first, run.rest.map (Segment.map fun b => (b, visitWith undo g b))⟩) enclosing plan) plan := by
  unfold visitWith
  rw [Block.fold, Block.foldItems_eq]
  exact List.foldl_map

/--
A block to which `shift?` gives a shift is moved, and the fix noted.
-/
def moveBlock (g : Grid) (b : Block) (enclosing : Option Int) (plan : Plan) : Plan :=
  match g.shift? b enclosing plan with
  | none => plan
  | some delta =>
    if delta ≠ 0 then
      (g.assign b delta plan).fixed g "block-indentation" {
        kind := .indentation
        message := s!"Indent '{b.opener.text}' block by {g.width} spaces"
        span := b.firstToken.span
      }
    else
      g.assign b delta plan

theorem whole_visitWith (b : Block) (enclosing : Option Int) (plan : Plan) :
    (visitWith undo g b).whole enclosing plan
      = (visitWith undo g b).items (some ((moveBlock g b enclosing plan).newColumn g (g.indexOf b.firstToken)))
        (moveBlock g b enclosing plan) := by
  have hmoved : moveBlock g b enclosing plan
      = match g.shift? b enclosing plan with
        | none => plan
        | some delta =>
          if delta = 0 then g.assign b delta plan
          else (g.assign b delta plan).fixed g "block-indentation" {
            kind := .indentation
            message := s!"Indent '{b.opener.text}' block by {g.width} spaces"
            span := b.firstToken.span } := by
    unfold moveBlock
    cases g.shift? b enclosing plan with
    | none => rfl
    | some delta => exact ite_not ..
  obtain ⟨kind, opener, column, items⟩ := b
  rw [hmoved]
  unfold visitWith
  rw [Block.fold]

end Blocks

theorem moveBlock_leads (b : Block) (enclosing : Option Int) (plan : Plan) :
    plan.Leads (moveBlock g b enclosing plan) (moveBlock g b enclosing plan.settled) := by
  unfold moveBlock
  rw [Grid.shift?_settled]
  cases g.shift? b enclosing plan with
  | none => exact .of_notes rfl
  | some delta =>
    have hassigned (d : Diagnostic) (hd : d.kind = .indentation) : plan.Leads
        (if delta ≠ 0 then (g.assign b delta plan).fixed g "block-indentation" d else g.assign b delta plan)
        (if delta ≠ 0 then (g.assign b delta plan.settled).fixed g "block-indentation" d
          else g.assign b delta plan.settled) := by
      have hfix : ("block-indentation", d.kind) ∈ fixKinds := hd ▸ List.mem_cons_self
      have hleads := Plan.Leads.of_fixed (g := g) (.of_notes (g.notes_assign b plan delta)) (decide (delta ≠ 0)) hfix
      rw [← Plan.iteFixed_settled, ← Grid.assign_settled] at hleads
      simpa only [decide_eq_true_eq] using hleads
    exact hassigned _ rfl

/--
One step: a block is visited as intended if the blocks in its items are.
-/
theorem visit_leads (b : Block) :
    (visitWith Plan.restore g b).Leads (visitWith (fun _ earlier => earlier) g b) := by
  induction b using Block.forall_of_items with
  | h kind opener column items ih =>
    have hinside (enclosing : Option Int) (plan : Plan) :
        plan.Leads ((visitWith Plan.restore g (.mk kind opener column items)).items enclosing plan)
          ((visitWith (fun _ earlier => earlier) g (.mk kind opener column items)).items enclosing plan.settled) := by
      rw [items_visitWith, items_visitWith]
      induction items generalizing plan with
      | nil => exact .of_notes rfl
      | cons run items ihItems =>
        obtain ⟨hrun, hitems⟩ := List.forall_mem_cons.1 ih
        have hblocks (b : Block × Visit) (hb : b ∈ (Item.ofRun kind ⟨run.first, run.rest.map
            (Segment.map fun b => (b, visitWith Plan.restore g b))⟩).blocks) : b.2.Leads (intended g b).2 := by
          rw [(Item.keeps_ofRun (fun _ => []) kind _).blocks_eq, Run.blocks, Segment.blocks_map] at hb
          obtain ⟨b, hmem, rfl⟩ := List.mem_map.1 hb
          exact hrun b hmem
        have hstep := visitItem_leads run.first hblocks enclosing plan
        have hform : Run.bimap id (intended g)
              ⟨run.first, run.rest.map (Segment.map fun b => (b, visitWith Plan.restore g b))⟩
            = ⟨run.first, run.rest.map (Segment.map fun b => (b, visitWith (fun _ earlier => earlier) g b))⟩ := by
          simp only [Run.bimap, List.map_map, Run.mk.injEq, id_eq, true_and]
          refine List.map_congr_left fun segment _ => ?_
          cases segment <;> rfl
        rw [← Item.ofRun_map id, hform] at hstep
        rw [List.foldl_cons, List.foldl_cons, hstep.settled]
        exact hstep.self.trans (ihItems hitems _)
    refine ⟨fun enclosing plan => ?_, hinside⟩
    have hmoved := moveBlock_leads (g := g) (.mk kind opener column items) enclosing plan
    rw [whole_visitWith, whole_visitWith, hmoved.settled, Plan.newColumn_settled]
    exact hmoved.self.trans (hinside _ _)

theorem visitDeclaration_leads (top : Option Int) (d : Declaration) (plan : Plan) :
    plan.Leads (visitDeclarationWith Plan.restore g top plan d)
      (visitDeclarationWith (fun _ earlier => earlier) g top plan.settled d) := by
  cases d with
  | clause c layout =>
    have hblocks : ∀ b ∈ (c.bimap id fun b => (b, visitWith Plan.restore g b)).blocks, b.2.Leads (intended g b).2 := by
      intro b hb
      rw [Clause.blocks_bimap] at hb
      obtain ⟨b, -, rfl⟩ := List.mem_map.1 hb
      exact visit_leads b
    have hclause := visitClause_leads (firstToken c) hblocks top plan
    rw [Clause.bimap_bimap] at hclause
    exact hclause
  | raw run =>
    have hblocks : ∀ b ∈ run.blocks.map fun b => (b, visitWith Plan.restore g b), b.2.Leads (intended g b).2 := by
      intro b hb
      obtain ⟨b, -, rfl⟩ := List.mem_map.1 hb
      exact visit_leads b
    have hall := visitAll_leads hblocks top plan
    rw [List.map_map, List.map_map, List.map_map] at hall
    exact hall
  | importing _ | pragma _ | signature _ | data _ => exact .of_notes rfl

/--
The run: the plan for a module is the intended one but for the fixes that were noted, and it knows of those that were
counted.
-/
theorem ofModule_leads (settings : Settings) (m : Module) :
    Plan.Leads {} (Plan.ofModule settings m) (Plan.ofModuleWith (fun _ earlier => earlier) settings m) := by
  have hrun (ds : List Declaration) (plan : Plan) :
      plan.Leads (ds.foldl (visitDeclarationWith Plan.restore (.ofModule settings m) (topColumn m)) plan)
        (ds.foldl (visitDeclarationWith (fun _ earlier => earlier) (.ofModule settings m) (topColumn m)) plan.settled) := by
    induction ds generalizing plan with
    | nil => exact .of_notes rfl
    | cons d ds ih =>
      have hd := visitDeclaration_leads (g := .ofModule settings m) (topColumn m) d plan
      rw [List.foldl_cons, List.foldl_cons, hd.settled]
      exact hd.self.trans (ih _)
  rw [Plan.ofModule_eq]
  exact hrun m.declarations {}

/--
The plan for a module that would be made if undone tries left nothing behind.
-/
def Plan.intended (settings : Settings) (m : Module) : Plan :=
  Plan.ofModuleWith (fun _ earlier => earlier) settings m

theorem notes_apply (settings : Settings) (m : Module) : (apply settings m).notes = (Plan.ofModule settings m).notes := by
  unfold apply
  dsimp only
  split <;> rfl

/--
Tries that are undone leave nothing but the names of their fixes. The rest of the plan is the intended one, whose notes
name a fix exactly if it was counted, which is as often as it was reported. So the notes of the rule do the same as long
as they name no fix that only undone tries made.
-/
theorem agree_apply_iff (settings : Settings) (m : Module) :
    (Plan.intended settings m).columns = (Plan.ofModule settings m).columns
      ∧ (Plan.intended settings m).breaks = (Plan.ofModule settings m).breaks
      ∧ (Plan.intended settings m).notes
        = { (apply settings m).notes with fixes := (Plan.intended settings m).notes.fixes }
      ∧ ∀ x ∈ fixKinds,
        (apply settings m).notes.countOf x.1 = (apply settings m).notes.found.countP (fun d => d.kind = x.2)
        ∧ (0 < (apply settings m).notes.countOf x.1 → x.1 ∈ (apply settings m).notes.fixes)
        ∧ (Plan.intended settings m).notes.Agree x.1 x.2
        ∧ ((apply settings m).notes.Agree x.1 x.2
          ↔ (x.1 ∈ (apply settings m).notes.fixes → x.1 ∈ (Plan.intended settings m).notes.fixes)) := by
  have hleads := ofModule_leads settings m
  have hintended : Plan.intended settings m = (Plan.ofModule settings m).settled := hleads.settled
  have hknown := hleads.known (List.nil_subset _)
  have htallied := hleads.tallied ⟨fun key => by simp [Notes.settled, Notes.countOf], fun _ _ => rfl⟩
  rw [notes_apply, hintended]
  refine ⟨rfl, rfl, rfl, fun x hx => ?_⟩
  have hreported : 0 < (Plan.ofModule settings m).notes.countOf x.1
      ↔ ∃ d ∈ (Plan.ofModule settings m).notes.found, d.kind = x.2 := by
    rw [htallied.found x hx, List.countP_pos_iff]
    simp only [decide_eq_true_eq]
  refine ⟨htallied.found x hx, fun hcounted => hknown ((htallied.counted x.1).2 hcounted),
    ⟨htallied.counted x.1, hreported⟩, ?_⟩
  constructor
  · rintro ⟨hfix, -⟩ hmem
    exact (htallied.counted x.1).2 (hfix.1 hmem)
  · intro hmade
    refine ⟨⟨fun hmem => (htallied.counted x.1).1 (hmade hmem), fun hcounted => ?_⟩, hreported⟩
    exact hknown ((htallied.counted x.1).2 hcounted)

/--
The block is moved in a try that is undone, for the tab before the binding. The fix is named, and nothing else noted.
-/
theorem not_agree_apply_tab : ∃ m, Module.parse "f = do\n      x\n   where\n\ty = 1\n".toList = .ok m
    ∧ (apply {} m).notes = { fixes := ["block-indentation"] }
    ∧ ¬(apply {} m).notes.Agree "block-indentation" .indentation := by
  have hnotes : ((Module.parse "f = do\n      x\n   where\n\ty = 1\n".toList).toOption.map fun m =>
      ((apply {} m).notes.found, (apply {} m).notes.fixes, (apply {} m).notes.counts))
        = some ([], ["block-indentation"], []) := by
    decide +kernel
  obtain ⟨m, hm, hnotes⟩ := Option.map_eq_some_iff.1 hnotes
  rw [Prod.mk.injEq, Prod.mk.injEq] at hnotes
  obtain ⟨hfound, hfixes, hcounts⟩ := hnotes
  have hall : (apply {} m).notes = { fixes := ["block-indentation"] } := by
    rw [← hfixes, ← hcounts, ← hfound]
  refine ⟨m, toOption_eq_some hm, hall, fun hagree => ?_⟩
  rw [hall] at hagree
  exact absurd (hagree.1.1 List.mem_cons_self) (by decide)

end Indent

end HaskellStyle
