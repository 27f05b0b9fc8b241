import HaskellStyle.Module.Basic

/-!
This module contains the outline of a module: the tree of its parts with their kinds and tokens, which
forgets everything else.
-/

namespace HaskellStyle

/--
The kinds of parts that a module has.
-/
inductive NodeKind where
  | module
  | header
  | exportList
  | exportItem
  | importGroup
  | importDecl
  | importList
  | importItem
  | pragma
  | signature
  | dataDecl
  | constructor
  | recordBody
  | recordField
  | derivingClause
  | functionClause
  | equation
  | guardedRhs
  | caseAlternative
  | letBinding
  | statement
  | whereClause
  | layoutBlock
  | expression
  | rawDecl
  deriving DecidableEq

/--
The names of kinds in reports.
-/
def NodeKind.name : NodeKind → String
  | .module => "Module"
  | .header => "ModuleHeader"
  | .exportList => "ExportList"
  | .exportItem => "ExportItem"
  | .importGroup => "ImportGroup"
  | .importDecl => "ImportDecl"
  | .importList => "ImportList"
  | .importItem => "ImportItem"
  | .pragma => "Pragma"
  | .signature => "TypeSignature"
  | .dataDecl => "DataDecl"
  | .constructor => "Constructor"
  | .recordBody => "RecordBody"
  | .recordField => "RecordField"
  | .derivingClause => "DerivingClause"
  | .functionClause => "FunctionClause"
  | .equation => "Equation"
  | .guardedRhs => "GuardedRHS"
  | .caseAlternative => "CaseAlt"
  | .letBinding => "LetBinding"
  | .statement => "Statement"
  | .whereClause => "WhereClause"
  | .layoutBlock => "LayoutBlock"
  | .expression => "Expr"
  | .rawDecl => "OpaqueDecl"

/--
A part of a module with its kind, its tokens and the parts in it.
-/
inductive Outline where
  | node (kind : NodeKind) (tokens : List Token) (children : List Outline)

namespace Outline

/--
The tokens of a part.
-/
def tokens : Outline → List Token
  | .node _ tokens _ => tokens

mutual

/--
The kinds of a part and of the parts in it, outer parts first.
-/
def kinds : Outline → List NodeKind
  | .node kind _ children => kind :: kindsOfAll children

/--
The kinds of several parts.
-/
def kindsOfAll : List Outline → List NodeKind
  | [] => []
  | outline :: more => kinds outline ++ kindsOfAll more

end

/--
A part without parts in it.
-/
def leaf {ν : Type} [HasTokens ν] (kind : NodeKind) (node : ν) : Outline :=
  .node kind (HaskellStyle.tokens node) []

/--
The outline of an equation, given those of its blocks.
-/
def ofEquation (e : Equation Outline) : Outline :=
  let guard (g : Guard Outline) : Outline := .node .guardedRhs (g.tokensWith tokens) g.blocks
  let rhs :=
    match e.rhs with
    | .plain _ body => Segment.blocks body
    | .guarded first more => (first :: more).map guard
  .node .equation (e.tokensWith tokens) (Segment.blocks e.lhs ++ rhs)

/--
The outline of a clause, given those of its blocks.
-/
def ofClause (form : ClauseForm) (c : Clause Outline) : Outline :=
  let kind :=
    match form with
    | .function => NodeKind.functionClause
    | .alternative => .caseAlternative
    | .binding => .letBinding
  let locals := c.locals.toList.map fun w =>
    .node .whereClause (w.keyword :: w.block.tokens) [w.block]
  .node kind (c.tokensWith tokens) (ofEquation c.equation :: locals)

/--
The outline of a run of segments, given those of its blocks.
-/
def ofRun (kind : NodeKind) (run : Run Outline) : Outline :=
  let ts := Segment.tokensWith tokens run.segments
  .node kind ts [.node .expression ts run.blocks]

/--
The outline of an item, given those of its blocks.
-/
def ofItem : Item Outline → Outline
  | .pragma p => leaf .pragma p
  | .signature s => leaf .signature s
  | .clause form c => ofClause form c
  | .statement run => ofRun .statement run
  | .raw run => ofRun .rawDecl run

/--
The outline of a block.
-/
def ofBlock (b : Block) : Outline :=
  b.fold fun b items =>
    let items := items.map fun run =>
      ofItem (Item.ofRun b.kind ⟨run.first, run.rest.map (Segment.map Prod.snd)⟩)
    .node .layoutBlock (items.flatMap tokens) items

/--
The outline of a list.
-/
def ofList {ι : Type} [HasTokens ι] (kind itemKind : NodeKind) (list : ItemList ι) : Outline :=
  .node kind (HaskellStyle.tokens list) (list.items.map (leaf itemKind))

/--
The outline of an import.
-/
def ofImport (i : Import) : Outline :=
  .node .importDecl (HaskellStyle.tokens i) (i.list.toList.map (ofList .importList .importItem))

/--
The outline of a data declaration.
-/
def ofData (d : DataDecl) : Outline :=
  let constructor (c : Constructor) : Outline :=
    .node .constructor (HaskellStyle.tokens c)
      (c.record.toList.map fun record => ofList .recordBody .recordField record.toItemList)
  .node .dataDecl (HaskellStyle.tokens d)
    (d.constructors.map constructor ++ d.derivings.map (leaf .derivingClause))

/--
Replaces the blocks of segments by their outlines.
-/
def segments (run : List (Segment Block)) : List (Segment Outline) :=
  run.map (Segment.map ofBlock)

/--
Replaces the blocks of a clause by their outlines.
-/
def clause (c : Clause Block) : Clause Outline :=
  let guard (g : Guard Block) : Guard Outline :=
    ⟨g.bar, segments g.condition, g.equals, segments g.body⟩
  let rhs :=
    match c.equation.rhs with
    | .plain equals body => Rhs.plain equals (segments body)
    | .guarded first more => .guarded (guard first) (more.map guard)
  { equation := ⟨segments c.equation.lhs, rhs⟩
    locals := c.locals.map fun w => ⟨w.keyword, ofBlock w.block⟩ }

/--
The outline of a declaration.
-/
def ofDeclaration : Declaration → Outline
  | .importing i => ofImport i
  | .pragma p => leaf .pragma p
  | .signature s => leaf .signature s
  | .data d => ofData d
  | .clause c _ => ofClause .function (clause c)
  | .raw run => ofRun .rawDecl ⟨run.first, segments run.rest⟩

/--
The outline of a header.
-/
def ofHeader (h : Header) : Outline :=
  .node .header (HaskellStyle.tokens h) (h.exports.toList.map (ofList .exportList .exportItem))

/--
The outline of a module.
-/
def ofModule (m : Module) : Outline :=
  let group (decls : List Import) : Outline :=
    .node .importGroup (decls.flatMap HaskellStyle.tokens) (decls.map ofImport)
  .node .module (HaskellStyle.tokens m)
    (m.headerPragmas.map (leaf .pragma) ++ m.header.toList.map ofHeader ++ m.imports.map group
      ++ m.declarations.map ofDeclaration)

end Outline

/--
The kind of a declaration.
-/
def Declaration.kind : Declaration → NodeKind
  | .importing _ => .importDecl
  | .pragma _ => .pragma
  | .signature _ => .signature
  | .data _ => .dataDecl
  | .clause _ _ => .functionClause
  | .raw _ => .rawDecl

end HaskellStyle
