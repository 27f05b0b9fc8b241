import HaskellStyle.Declaration.Outside
import HaskellStyle.Declaration.Pragma

/-!
This module contains signatures, equations and the items of layout blocks. The parts of an item are read
off its segments, and nested blocks are left as they are; their type is a parameter, so that a function
on blocks can look at an item whose blocks it has already replaced by values.
-/

namespace HaskellStyle

/--
A type signature: names, colons and a type.
-/
structure Signature where
  names : List Token
  colons : Token
  type : List Token
  layout : Option ListLayout := none
  deriving DecidableEq

/--
A guarded right-hand side.
-/
structure Guard (β : Type) where
  bar : Token
  condition : List (Segment β)
  equals : Token
  body : List (Segment β)

/--
What follows the left-hand side of an equation.
-/
inductive Rhs (β : Type) where
  | plain (equals : Token) (body : List (Segment β))
  | guarded (guard : Guard β) (more : List (Guard β))

/--
An equation, a case alternative or a binding without its local definitions.
-/
structure Equation (β : Type) where
  lhs : List (Segment β)
  rhs : Rhs β

/--
Local definitions.
-/
structure WhereClause (β : Type) where
  keyword : Token
  block : β

/--
An equation with its local definitions.
-/
structure Clause (β : Type) where
  equation : Equation β
  locals : Option (WhereClause β)

/--
What a clause is: an equation, an alternative of a case, or a binding of a `let`.
-/
inductive ClauseForm where
  | function
  | alternative
  | binding
  deriving DecidableEq

/--
An item of a layout block. What has no form of its own is a statement, or raw among declarations.
-/
inductive Item (β : Type) where
  | pragma (pragma : Pragma)
  | signature (signature : Signature)
  | clause (form : ClauseForm) (clause : Clause β)
  | statement (run : Run β)
  | raw (run : Run β)

namespace Signature

instance : HasTokens Signature where
  tokens s := s.names ++ s.colons :: s.type
  anchor := colons

/--
The names that a signature is for, without the parentheses around operators.
-/
def binders (s : Signature) : List String :=
  (s.names.filter fun t => !t.isSpecial [",", "(", ")"]).map (·.text)

/--
The type of a signature cut at its arrows: each part with the colons or the arrow before it.
-/
def parts (s : Signature) : List (Token × List Token) :=
  let (first, others) := Outside.splitAll some (·.isReservedOp ["->", "→", "=>", "⇒"]) 0 s.type
  (s.colons, first) :: others

/--
Whether tokens are names, separated by commas, where an operator stands in parentheses.
-/
def areBinders : List Token → Bool
  | [] => false
  | t :: ts =>
    if t.kind = .varId then
      match ts with
      | [] => true
      | comma :: more => comma.isSpecial [","] && areBinders more
    else if t.isSpecial ["("] then
      match ts with
      | op :: close :: more =>
        op.isOperator && close.isSpecial [")"] &&
          match more with
          | [] => true
          | comma :: more => comma.isSpecial [","] && areBinders more
      | _ => false
    else
      false

/--
The signature that tokens form.
-/
def ofTokens? (ts : List Token) : Option Signature := do
  let (names, colons, type) ← Outside.split? some (·.isReservedOp ["::", "∷", "="]) 0 ts
  if colons.isReservedOp ["="] || !areBinders names || type.isEmpty
      || (Outside.split? some (·.isReservedOp ["="]) 0 type).isSome then
    none
  else
    some { names, colons, type }

end Signature

variable {β : Type}

namespace Guard

/--
The blocks of a guard.
-/
def blocks (g : Guard β) : List β :=
  Segment.blocks g.condition ++ Segment.blocks g.body

/--
The tokens of a guard, given those of its blocks.
-/
def tokensWith (f : β → List Token) (g : Guard β) : List Token :=
  g.bar :: Segment.tokensWith f g.condition ++ g.equals :: Segment.tokensWith f g.body

instance : HasTokens (Guard Block) where
  tokens := tokensWith Block.tokens
  anchor := bar

/--
The guard with the given bar whose right-hand side begins at a token that satisfies `separator`.
-/
def ofSegments? (separator : Token → Bool) (bar : Token) (segments : List (Segment β)) :
    Option (Guard β) :=
  (Outside.split? Segment.token? separator 0 segments).map
    fun (condition, equals, body) => { bar, condition, equals, body }

end Guard

namespace Rhs

/--
The guards of a right-hand side.
-/
def guards : Rhs β → List (Guard β)
  | .plain _ _ => []
  | .guarded guard more => guard :: more

/--
The tokens of a right-hand side, given those of its blocks.
-/
def tokensWith (f : β → List Token) : Rhs β → List Token
  | .plain equals body => equals :: Segment.tokensWith f body
  | .guarded guard more => (guard :: more).flatMap (Guard.tokensWith f)

/--
The token that a right-hand side begins with.
-/
def anchor : Rhs β → Token
  | .plain equals _ => equals
  | .guarded guard _ => guard.bar

end Rhs

namespace Equation

/--
The blocks of an equation.
-/
def blocks (e : Equation β) : List β :=
  Segment.blocks e.lhs ++
    match e.rhs with
    | .plain _ body => Segment.blocks body
    | .guarded guard more => (guard :: more).flatMap Guard.blocks

/--
The tokens of an equation, given those of its blocks.
-/
def tokensWith (f : β → List Token) (e : Equation β) : List Token :=
  Segment.tokensWith f e.lhs ++ e.rhs.tokensWith f

instance : HasTokens (Equation Block) where
  tokens := tokensWith Block.tokens
  anchor e := e.rhs.anchor

/--
Whether `operator` before `following` marks a strict or lazy pattern, as in `f !x`, and is not the
operator that an equation defines, as in `x ! y`.
-/
def isPatternMark (operator following : Token) : Bool :=
  ["!", "~"].contains operator.text && !operator.leading.isEmpty
    && operator.trailing.isEmpty && following.leading.isEmpty

/--
The name that an equation defines, if its left-hand side shows one.
-/
def binder (e : Equation β) : Option Token :=
  match Segment.flat? e.lhs with
  | none | some [] => none
  | some (t :: ts) =>
    match t.kind, ts with
    | .varId, u :: v :: _ =>
      if u.isSpecial ["\x60"] then
        some v
      else if u.isOperator && !isPatternMark u v then
        some u
      else
        some t
    | .varId, _ => some t
    | _, u :: v :: _ =>
      if t.isSpecial ["("] && u.isOperator && v.isSpecial [")"] then
        some u
      else if u.isOperator && !u.text.startsWith ":" then
        some u
      else
        none
    | _, _ => none

/--
The equation that segments form. Its right-hand side begins at a token that satisfies `separator`, and
neither a bar before it nor the separator may come first.
-/
def ofSegments? (separator : Token → Bool) (segments : List (Segment β)) : Option (Equation β) := do
  let isMark := fun t => separator t || t.isReservedOp ["|", "::"]
  let (lhs, mark, rest) ← Outside.split? Segment.token? isMark 0 segments
  if lhs.isEmpty || mark.isReservedOp ["::"] then
    none
  else if mark.isReservedOp ["|"] then
    let (first, others) := Outside.splitAll Segment.token? (·.isReservedOp ["|"]) 0 rest
    let guard ← Guard.ofSegments? separator mark first
    let more ← others.mapM fun (bar, group) => Guard.ofSegments? separator bar group
    return ⟨lhs, .guarded guard more⟩
  else
    return ⟨lhs, .plain mark rest⟩

end Equation

namespace WhereClause

instance : HasTokens (WhereClause Block) where
  tokens w := w.keyword :: w.block.tokens
  anchor := keyword

/--
Separates the local definitions at the end of segments from the rest.
-/
def split (segments : List (Segment β)) : List (Segment β) × Option (WhereClause β) :=
  match segments.reverse with
  | .block block :: .token keyword :: before =>
    if keyword.isKeyword ["where"] then
      (before.reverse, some ⟨keyword, block⟩)
    else
      (segments, none)
  | _ => (segments, none)

end WhereClause

namespace Clause

/--
The blocks of a clause.
-/
def blocks (c : Clause β) : List β :=
  c.equation.blocks ++ (c.locals.map (·.block)).toList

/--
The tokens of a clause, given those of its blocks.
-/
def tokensWith (f : β → List Token) (c : Clause β) : List Token :=
  c.equation.tokensWith f ++
    match c.locals with
    | some locals => locals.keyword :: f locals.block
    | none => []

instance : HasTokens (Clause Block) where
  tokens := tokensWith Block.tokens
  anchor c := c.equation.rhs.anchor

/--
The clause that segments form.
-/
def ofSegments? (separator : Token → Bool) (segments : List (Segment β)) : Option (Clause β) :=
  let (body, locals) := WhereClause.split segments
  (Equation.ofSegments? separator body).map fun equation => { equation, locals }

end Clause

namespace Item

/--
The equals sign of an equation.
-/
def isEquals (t : Token) : Bool :=
  t.isReservedOp ["="]

/--
The arrow of a case alternative.
-/
def isArrow (t : Token) : Bool :=
  t.isReservedOp ["->", "→"]

/--
An item of a block of declarations, with the given reading of what is neither a pragma nor a signature
nor an equation.
-/
def ofDeclaration (form : ClauseForm) (other : Run β → Item β) (run : Run β) : Item β :=
  if run.first.kind = .pragma && run.rest.isEmpty then
    .pragma { token := run.first }
  else
    match (Segment.flat? run.segments).bind Signature.ofTokens? with
    | some s => .signature s
    | none =>
      match Clause.ofSegments? isEquals run.segments with
      | some c => .clause form c
      | none => other run

/--
The item that a run is in a block of the given kind.
-/
def ofRun (kind : BlockKind) (run : Run β) : Item β :=
  match kind with
  | .doBlock => .statement run
  | .ofBlock | .lambdaCase =>
    match Clause.ofSegments? isArrow run.segments with
    | some c => .clause .alternative c
    | none => .statement run
  | .letBlock => ofDeclaration .binding .statement run
  | .whereBlock | .declarations => ofDeclaration .function .raw run

/--
The blocks of an item.
-/
def blocks : Item β → List β
  | .pragma _ | .signature _ => []
  | .clause _ c => c.blocks
  | .statement run | .raw run => run.blocks

end Item

end HaskellStyle
