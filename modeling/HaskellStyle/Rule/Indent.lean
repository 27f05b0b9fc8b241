import HaskellStyle.Rule.Basic

/-!
This module contains the rule for indentation. A block that begins on a line of its own goes one step to
the right of the line with its keyword, and the `where` of an equation goes to a line of its own one step
to the right of the equation, with its bindings one step further. A block is moved as a whole, and only if
its lines can be moved and the line behind it stays outside of it.
-/

namespace HaskellStyle.Indent

/--
The tokens of a module with the settings.
-/
structure Grid where
  settings : Settings
  tokens : Array Token
  eof : Token

/--
The columns planned for tokens, by index, the newest first, the tokens that go to new lines, and the notes.
-/
structure Plan where
  columns : List (Nat × Int) := []
  breaks : List Nat := []
  notes : Notes := {}

namespace Grid

/--
The token with the given index.
-/
def get (g : Grid) (index : Nat) : Token :=
  g.tokens.getD index g.eof

/--
The index of a token.
-/
def indexOf (g : Grid) (t : Token) : Nat :=
  (g.tokens.findIdx? (·.offset = t.offset)).getD g.tokens.size

/--
The width of one step of indentation.
-/
def width (g : Grid) : Int :=
  g.settings.indentWidth

end Grid

namespace Plan

/--
Whether a token begins a line.
-/
def beginsLine (plan : Plan) (g : Grid) (index : Nat) : Bool :=
  (g.get index).lineStart || plan.breaks.contains index

/--
By how much a token that begins a line is moved.
-/
def shiftAt (plan : Plan) (g : Grid) (index : Nat) : Int :=
  let column := (g.get index).column
  (plan.columns.lookup index).getD column - column

/--
By how much the line of a token is moved, going back to its first token. What stands behind a token of
several lines is not moved; `isStart` holds at the token itself.
-/
def lineShiftFrom (plan : Plan) (g : Grid) (isStart : Bool) (index : Nat) : Int :=
  if !isStart && (g.get index).isMultiline then
    0
  else if plan.beginsLine g index then
    plan.shiftAt g index
  else
    match index with
    | 0 => plan.shiftAt g 0
    | before + 1 => plan.lineShiftFrom g false before

/--
The column that a token will have.
-/
def newColumn (plan : Plan) (g : Grid) (index : Nat) : Int :=
  (g.get index).column + plan.lineShiftFrom g true index

/--
The first token on the line of a token.
-/
def lineStartOf (plan : Plan) (g : Grid) (index : Nat) : Nat :=
  match index with
  | 0 => 0
  | before + 1 => if plan.beginsLine g index then index else plan.lineStartOf g before

/--
Plans a column.
-/
def setColumn (index : Nat) (column : Int) (plan : Plan) : Plan :=
  { plan with columns := (index, column) :: plan.columns }

/--
Plans a line of its own for a token.
-/
def setBreak (index : Nat) (plan : Plan) : Plan :=
  { plan with breaks := index :: plan.breaks }

/--
Notes a fix.
-/
def fixed (g : Grid) (fix : String) (d : Diagnostic) (plan : Plan) : Plan :=
  { plan with notes := plan.notes.fixed g.settings fix d }

/--
Undoes what was planned since `earlier`. Which fixes were tried is still known.
-/
def restore (plan earlier : Plan) : Plan :=
  { earlier with notes := { earlier.notes with fixes := plan.notes.fixes } }

end Plan

namespace Grid

/--
The tokens of a block that begin lines.
-/
def lineStarts (g : Grid) (b : Block) : List Nat :=
  let first := g.indexOf b.firstToken
  let last := g.indexOf b.lastToken
  ((List.range (last + 1)).drop first).filter fun index => (g.get index).lineStart

/--
Moves all lines of a block.
-/
def assign (g : Grid) (b : Block) (delta : Int) (plan : Plan) : Plan :=
  (g.lineStarts b).foldl (fun plan index => plan.setColumn index ((g.get index).column + delta)) plan

/--
Whether a block at the column `target` ends its line and the line behind it stays left of it. A `where`
may stand at the same column.
-/
def closesCleanly (g : Grid) (b : Block) (target : Int) (plan : Plan) : Bool :=
  let index := g.indexOf b.lastToken + 1
  let after := g.get index
  let column := plan.newColumn g index
  after.isEnd || (after.lineStart
    && (column < target || (column = target && after.isKeyword ["where"])))

/--
By how much a block is moved, if it can be. It has to stay right of the block around it, whose column is
`enclosing`.
-/
def shift? (g : Grid) (b : Block) (enclosing : Option Int) (plan : Plan) : Option Int :=
  let opener := g.indexOf b.opener
  let target := plan.newColumn g (plan.lineStartOf g opener) + g.width
  if b.firstToken.lineStart
      && (g.lineStarts b).all (fun index => (g.get index).reindentable)
      && (g.get (opener + 1)).offset = b.firstToken.offset
      && enclosing.all (· < target)
      && g.closesCleanly b target plan then
    some (target - b.column)
  else
    none

/--
Whether the `where` of an equation with the given blocks can go to the column `target`: no block that ends
just before it would take it in.
-/
def whereMovable (g : Grid) (blocks : List Block) (keyword : Token) (target : Int) (plan : Plan) : Bool :=
  let index := g.indexOf keyword
  (if keyword.lineStart then keyword.reindentable else !keyword.leading.hasDirective)
    && (blocks.flatMap Block.nested).all fun b =>
      g.indexOf b.lastToken + 1 ≠ index || target ≤ plan.newColumn g (g.indexOf b.firstToken)

/--
Whether the bindings behind a `where` can go to the column `target`.
-/
def bindingsMovable (g : Grid) (b : Block) (target : Int) (plan : Plan) : Bool :=
  let first := b.firstToken
  (if first.lineStart then first.reindentable else !first.leading.hasDirective && b.kind = .whereBlock)
    && (g.lineStarts b).all (fun index =>
      (g.get index).offset = first.offset || (g.get index).reindentable)
    && g.closesCleanly b target plan

end Grid

/--
What is done at a block: all of it, given the column of the block around it, or only its items, given the
column of the block.
-/
structure Visit where
  whole : Option Int → Plan → Plan
  items : Option Int → Plan → Plan

/--
Visits blocks one after the other.
-/
def visitAll (visits : List Visit) (enclosing : Option Int) (plan : Plan) : Plan :=
  visits.foldl (fun plan visit => visit.whole enclosing plan) plan

/--
Places a `where` with its bindings, or else treats them as any block.
-/
def placeWhere (g : Grid) (first : Token) (blocks : List Block) (w : WhereClause (Block × Visit))
    (enclosing : Option Int) (plan : Plan) : Plan :=
  let (bindings, visit) := w.block
  let keyword := g.indexOf w.keyword
  let firstBinding := bindings.firstToken
  let whereColumn := plan.newColumn g (g.indexOf first) + g.width
  let bindingColumn := whereColumn + g.width
  if g.whereMovable blocks w.keyword whereColumn plan && g.bindingsMovable bindings bindingColumn plan then
    let plan := plan.setColumn keyword whereColumn
    let plan := if w.keyword.lineStart then plan else plan.setBreak keyword
    let plan := g.assign bindings (bindingColumn - bindings.column) plan
    let plan := plan.setColumn (g.indexOf firstBinding) bindingColumn
    let plan := if firstBinding.lineStart then plan else plan.setBreak (g.indexOf firstBinding)
    let moved := !w.keyword.lineStart || w.keyword.column ≠ whereColumn
      || !firstBinding.lineStart || firstBinding.column ≠ bindingColumn
    let plan :=
      if moved then
        plan.fixed g "where-placement" {
          kind := .wherePlacement
          message := "Place 'where' on its own line, indented one level from its equation"
          span := w.keyword.span
        }
      else
        plan
    visit.items (some bindingColumn) plan
  else
    visit.whole enclosing plan

/--
Visits an equation with local definitions that begins with the token `first`. A `where` on a line of its
own is first put where it belongs, so that blocks before it may move to its column; if it cannot stay
there, the equation is planned anew without that.
-/
def visitClause (g : Grid) (first : Token) (c : Clause (Block × Visit)) (enclosing : Option Int)
    (plan : Plan) : Plan :=
  let visits := c.equation.blocks.map Prod.snd
  match c.locals with
  | none => visitAll visits enclosing plan
  | some w =>
    let blocks := c.equation.blocks.map Prod.fst
    let planned :=
      if w.keyword.reindentable then
        let target := plan.newColumn g (g.indexOf first) + g.width
        let tried := visitAll visits enclosing (plan.setColumn (g.indexOf w.keyword) target)
        if g.whereMovable blocks w.keyword target tried
            && g.bindingsMovable w.block.1 (target + g.width) tried then
          tried
        else
          visitAll visits enclosing (tried.restore plan)
      else
        visitAll visits enclosing plan
    placeWhere g first blocks w enclosing planned

/--
Visits the blocks of an item that begins with the token `first`.
-/
def visitItem (g : Grid) (first : Token) (item : Item (Block × Visit)) (enclosing : Option Int)
    (plan : Plan) : Plan :=
  match item with
  | .clause .function c => visitClause g first c enclosing plan
  | item => visitAll (item.blocks.map Prod.snd) enclosing plan

/--
What is done at a block.
-/
def visit (g : Grid) (b : Block) : Visit :=
  b.fold fun b items =>
    let inside := fun enclosing plan => items.foldl
      (fun plan run => visitItem g run.first (Item.ofRun b.kind run) enclosing plan) plan
    let whole := fun enclosing plan =>
      let plan :=
        match g.shift? b enclosing plan with
        | none => plan
        | some delta =>
          let plan := g.assign b delta plan
          if delta = 0 then
            plan
          else
            plan.fixed g "block-indentation" {
              kind := .indentation
              message := s!"Indent '{b.opener.text}' block by {g.width} spaces"
              span := b.firstToken.span
            }
      inside (some (plan.newColumn g (g.indexOf b.firstToken))) plan
    ⟨whole, inside⟩

/--
Segments with the visits of their blocks.
-/
def visits (g : Grid) (segments : List (Segment Block)) : List (Segment (Block × Visit)) :=
  segments.map (Segment.map fun b => (b, visit g b))

/--
Visits a declaration.
-/
def visitDeclaration (g : Grid) (top : Option Int) (plan : Plan) (d : Declaration) : Plan :=
  match d with
  | .clause c _ =>
    let guard (x : Guard Block) : Guard (Block × Visit) :=
      ⟨x.bar, visits g x.condition, x.equals, visits g x.body⟩
    let rhs :=
      match c.equation.rhs with
      | .plain equals body => Rhs.plain equals (visits g body)
      | .guarded first more => .guarded (guard first) (more.map guard)
    let locals := c.locals.map fun w => ⟨w.keyword, (w.block, visit g w.block)⟩
    visitClause g (firstToken c) ⟨⟨visits g c.equation.lhs, rhs⟩, locals⟩ top plan
  | .raw run => visitAll (run.blocks.map (visit g)) top plan
  | .importing _ | .pragma _ | .signature _ | .data _ => plan

/--
Gives a token a placement in place of the one it has.
-/
def insertPlacement (placements : List (Nat × Placement)) (offset : Nat) (placement : Placement) :
    List (Nat × Placement) :=
  (offset, placement) :: placements.filter (·.1 ≠ offset)

/--
The placements of a plan, added to earlier ones. The newest column of a token counts.
-/
def placements (g : Grid) (plan : Plan) (earlier : List (Nat × Placement)) : List (Nat × Placement) :=
  plan.columns.reverse.foldl
    (fun result (index, _) =>
      let t := g.get index
      let column := (plan.columns.lookup index).getD t.column
      let isBreak := plan.breaks.contains index
      if column ≠ t.column || isBreak then insertPlacement result t.offset ⟨column, isBreak⟩ else result)
    earlier

/--
Applies the rule. A module for which no token gets a placement is kept.
-/
def apply (settings : Settings) (m : Module) : RuleResult :=
  let g : Grid := ⟨settings, (tokens m).toArray, m.eof⟩
  let firsts := m.importDecls.map firstToken ++ m.declarations.map firstToken
  let top := firsts.head?.map (·.column)
  let plan := m.declarations.foldl (visitDeclaration g top) {}
  let placed := placements g plan m.placements
  if placed.length = m.placements.length then
    ⟨m, true, plan.notes⟩
  else
    ⟨{ m with placements := placed }, false, plan.notes⟩

end HaskellStyle.Indent
