import HaskellStyle.Block.Basic
import HaskellStyle.Fault

/-!
This module contains the layout rule. Tokens are taken one at a time: a token can first end the items and
blocks that it does not belong to, then it extends an item or begins one, and a layout keyword makes the
next token open a block. Open blocks are kept on a stack, the innermost first.
-/

namespace HaskellStyle

namespace Token

/--
An opening bracket.
-/
def isOpening (t : Token) : Bool :=
  t.isSpecial ["(", "[", "\x7b"]

/--
A closing bracket.
-/
def isClosing (t : Token) : Bool :=
  t.isSpecial [")", "]", "\x7d"]

/--
By how much a token changes the number of open brackets.
-/
def bracketStep (t : Token) : Int :=
  if t.isOpening then 1 else if t.isClosing then -1 else 0

end Token

namespace Layout

/--
The blocks that may be open at the same time.
-/
def maxNesting : Nat := 200

/--
How often an item still expects each of the keywords that continue an earlier one.
-/
structure Pending where
  thens : Nat := 0
  elses : Nat := 0
  ofs : Nat := 0
  ins : Nat := 0
  deriving DecidableEq

/--
The item that is being read: its first and its last token and the one before the last, the segments
behind the first token and the open brackets, the newest first, and the keywords it expects.
-/
structure OpenItem where
  first : Token
  previous : Option Token
  last : Token
  rest : List (Segment Block)
  pending : Pending
  brackets : List Token

/--
A block that is being read: its finished items, the newest first, and its current item. The outermost
block has no keyword.
-/
structure OpenBlock where
  opening : Option (BlockKind × Token)
  column : Int
  finished : List (Run Block)
  item : OpenItem

/--
The kind of block that `t` opens behind the token `previous` in an item that begins with `first`.
-/
def openedKind (t : Token) (previous : Option Token) (first : Token) : Option BlockKind :=
  let afterLambda := previous.any (·.isReservedOp ["\\"])
  if t.isKeyword ["do"] || (t.kind = .varId && t.text == "mdo") then
    some .doBlock
  else if t.isKeyword ["of"] then
    some .ofBlock
  else if t.isKeyword ["let"] then
    some .letBlock
  else if t.isKeyword ["where"] then
    if first.isKeyword ["class", "instance", "data", "newtype", "type"] then
      some .declarations
    else
      some .whereBlock
  else if afterLambda && (t.isKeyword ["case"] || (t.kind = .varId && t.text == "cases")) then
    some .lambdaCase
  else
    none

/--
Whether `t` cannot begin an item, so that it ends a block even in the column of the items.
-/
def endsBlock (t : Token) : Bool :=
  t.isKeyword ["then", "else", "of", "in", "where"]
    || t.isReservedOp ["=", "->", "=>", "::", "<-", "|", "..", "→", "⇒", "∷", "←"]
    || t.isClosing || t.isSpecial [","]

/--
Whether `t` cannot continue an item of a nested block, so that it ends the block in the middle of a line.
-/
def endsItem (t : Token) (kind : BlockKind) (pending : Pending) : Bool :=
  t.isClosing
    || (t.isSpecial [","] && kind = .doBlock)
    || (t.isKeyword ["then"] && pending.thens = 0)
    || (t.isKeyword ["else"] && pending.elses = 0)
    || (t.isKeyword ["of"] && pending.ofs = 0)
    || (t.isKeyword ["in"] && pending.ins = 0)
    || (t.isKeyword ["where"] && kind = .doBlock)

/--
The keywords expected after `t`, which stands between `previous` and `following`.
-/
def Pending.count (pending : Pending) (previous : Option Token) (t following : Token) : Pending :=
  if t.isKeyword ["if"] then
    if following.isReservedOp ["|"] then
      pending
    else
      { pending with thens := pending.thens + 1, elses := pending.elses + 1 }
  else if t.isKeyword ["then"] then
    { pending with thens := pending.thens - 1 }
  else if t.isKeyword ["else"] then
    { pending with elses := pending.elses - 1 }
  else if t.isKeyword ["case"] then
    if previous.any (·.isReservedOp ["\\"]) then
      pending
    else
      { pending with ofs := pending.ofs + 1 }
  else if t.isKeyword ["of"] then
    { pending with ofs := pending.ofs - 1 }
  else if t.isKeyword ["in"] then
    { pending with ins := pending.ins - 1 }
  else
    pending

/--
Whether a layout keyword in a block at `column` opens nothing if `following` comes next.
-/
def opensNothing (following : Token) (column : Int) : Bool :=
  following.isEnd || following.isSpecial ["\x7b", ","] || following.isClosing
    || following.isKeyword ["then", "else", "of", "in"]
    || (following.lineStart && following.column ≤ column)

/--
The open brackets after `t`.
-/
def countBracket (brackets : List Token) (t : Token) : List Token :=
  if t.isOpening then
    t :: brackets
  else if t.isClosing then
    brackets.drop 1
  else
    brackets

/--
An item that begins with `t`.
-/
def OpenItem.start (t following : Token) : OpenItem where
  first := t
  previous := none
  last := t
  rest := []
  pending := ({} : Pending).count none t following
  brackets := countBracket [] t

/--
An item continued by `t`.
-/
def OpenItem.push (item : OpenItem) (t following : Token) : OpenItem where
  first := item.first
  previous := some item.last
  last := t
  rest := .token t :: item.rest
  pending := item.pending.count (some item.last) t following
  brackets := countBracket item.brackets t

/--
An item continued by a block that ends with the token `last`. Behind a `let` block an `in` can follow.
-/
def OpenItem.pushBlock (item : OpenItem) (block : Block) (last : Token) : OpenItem where
  first := item.first
  previous := item.last
  last := last
  rest := .block block :: item.rest
  pending :=
    if block.kind = .letBlock then
      { item.pending with ins := item.pending.ins + 1 }
    else
      item.pending
  brackets := item.brackets

/--
An item may only end outside of brackets.
-/
def OpenItem.requireClosed (item : OpenItem) : Except Failure Unit :=
  match item.brackets with
  | [] => .ok ()
  | bracket :: _ => .error ⟨.unclosedBracket bracket.text, bracket.offset⟩

/--
The segments of an item, in order.
-/
def OpenItem.run (item : OpenItem) : Run Block :=
  ⟨item.first, item.rest.reverse⟩

/--
All items of a block, the current one included.
-/
def OpenBlock.items (block : OpenBlock) : List (Run Block) :=
  (block.item.run :: block.finished).reverse

/--
A block whose current item is finished and that begins another one with `t`.
-/
def OpenBlock.nextItem (block : OpenBlock) (t following : Token) : OpenBlock :=
  { block with
    finished := block.item.run :: block.finished
    item := .start t following }

/--
A block whose current item is continued by `t`.
-/
def OpenBlock.push (block : OpenBlock) (t following : Token) : OpenBlock :=
  { block with item := block.item.push t following }

/--
What a token means to the innermost open block.
-/
inductive Role where
  | continues
  | beginsItem
  | closesBlock
  deriving DecidableEq

/--
The role of the token `t` in a block. On a line's start the column decides, except that `then` and `else`
may stand in the column of a `do` block's items. Elsewhere a nested block ends at a token that cannot
belong to it.
-/
def OpenBlock.roleOf (block : OpenBlock) (t : Token) : Except Failure Role :=
  let item := block.item
  match block.opening with
  | none =>
    if t.lineStart ∧ t.column ≤ block.column then do
      item.requireClosed
      return .beginsItem
    else
      .ok .continues
  | some (kind, _) =>
    let continuesIf := kind = .doBlock && t.column = block.column
      && ((t.isKeyword ["then"] && item.pending.thens ≠ 0)
        || (t.isKeyword ["else"] && item.pending.elses ≠ 0))
    if t.lineStart ∧ t.column ≤ block.column ∧ !continuesIf then
      .ok (if t.column < block.column || endsBlock t then .closesBlock else .beginsItem)
    else if item.brackets.isEmpty && endsItem t kind item.pending then
      .ok .closesBlock
    else
      .ok .continues

/--
A block continued by a nested block that is finished.
-/
def OpenBlock.close (outer inner : OpenBlock) : OpenBlock :=
  match inner.opening with
  | some (kind, opener) =>
    let block := Block.mk kind opener inner.column inner.items
    { outer with item := outer.item.pushBlock block inner.item.last }
  | none => outer

/--
Ends the blocks that `t` does not belong to and adds it to the innermost of the others.
-/
def place (t following : Token) (block : OpenBlock) (outer : List OpenBlock) :
    Except Failure (OpenBlock × List OpenBlock) := do
  match ← block.roleOf t with
  | .continues => return (block.push t following, outer)
  | .beginsItem => return (block.nextItem t following, outer)
  | .closesBlock =>
    match outer with
    | [] => return (block.push t following, [])
    | parent :: others => place t following (parent.close block) others

/--
Opens a block of the given kind with the token `t`.
-/
def openBlock (kind : BlockKind) (t following : Token) (block : OpenBlock) (outer : List OpenBlock) :
    Except Failure (OpenBlock × List OpenBlock) :=
  if maxNesting ≤ outer.length + 1 then
    .error ⟨.nestingTooDeep, 0⟩
  else
    .ok (⟨some (kind, block.item.last), t.column, [], .start t following⟩, block :: outer)

/--
The kind of block that the last token opens before `following`.
-/
def OpenBlock.awaitedKind (block : OpenBlock) (following : Token) : Option BlockKind :=
  match openedKind block.item.last block.item.previous block.item.first with
  | some kind => if opensNothing following block.column then none else some kind
  | none => none

/--
The items of the outermost block once the text ends. Every open item has to be complete.
-/
def finish (block : OpenBlock) (outer : List OpenBlock) :
    Except Failure (List (Run Block)) := do
  block.item.requireClosed
  match outer with
  | [] => return block.items
  | parent :: others => finish (parent.close block) others

/--
Reads the tokens that remain. `awaited` tells whether the next token opens a block.
-/
def readRest (eof : Token) (awaited : Option BlockKind) (block : OpenBlock) (outer : List OpenBlock) :
    List Token → Except Failure (List (Run Block))
  | [] => finish block outer
  | t :: more => do
    let following := more.headD eof
    let (block, outer) ←
      match awaited with
      | some kind => openBlock kind t following block outer
      | none => place t following block outer
    readRest eof (block.awaitedKind following) block outer more

/--
The items of a module's body, which begins at the column of its first token.
-/
def read (eof : Token) : List Token → Except Failure (List (Run Block))
  | [] => .ok []
  | t :: more =>
    let following := more.headD eof
    let block : OpenBlock := ⟨none, t.column, [], .start t following⟩
    readRest eof (block.awaitedKind following) block [] more

end Layout

end HaskellStyle
