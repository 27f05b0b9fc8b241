import HaskellStyle.Declaration.ItemList

/-!
This module contains data declarations: constructors, records and deriving clauses.
-/

namespace HaskellStyle

/--
A field of a record: names, colons and a type.
-/
structure Field where
  names : List Token
  colons : Token
  type : List Token
  deriving DecidableEq

/--
The fields of a constructor in braces. The names are padded to `nameWidths` when each field has a line of
its own.
-/
structure Record extends ItemList Field where
  nameWidths : List Nat := []
  deriving DecidableEq

/--
A constructor: what precedes the record, the record and what follows it.
-/
structure Constructor where
  first : Token
  more : List Token
  record : Option Record := none
  after : List Token := []
  deriving DecidableEq

/--
A deriving clause with the classes as written, with or without parentheses; `parenthesize` asks for them.
-/
structure Deriving where
  keyword : Token
  strategy : Option Token
  classes : List Token
  via : List Token
  parenthesize : Bool := false
  deriving DecidableEq

/--
A data or newtype declaration. Each constructor but the first has a bar before it.
-/
structure DataDecl where
  keyword : Token
  head : List Token
  equals : Token
  constructor : Constructor
  others : List (Token × Constructor)
  derivings : List Deriving
  layout : Option ListLayout := none
  derivingLayout : Option DerivingLayout := none
  deriving DecidableEq

namespace Field

instance : HasTokens Field where
  tokens f := f.names ++ f.colons :: f.type
  anchor := colons

/--
The names of the fields declared together, without parentheses.
-/
def fieldNames (f : Field) : List Token :=
  f.names.filter fun t => !t.isSpecial [",", "(", ")"]

/--
Whether the type begins with a mark of strictness or laziness.
-/
def isStrict (f : Field) : Bool :=
  (f.type.find? (·.kind ≠ .pragma)).any fun t => ["!", "~"].contains t.text

/--
The field that an entry in braces forms.
-/
def ofEntry? (entry : Entry) : Option Field := do
  let (names, colons, type) ← Outside.split? some (·.isReservedOp ["::", "∷"]) 0 (tokens entry)
  if names.isEmpty || type.isEmpty then
    none
  else
    some { names, colons, type }

end Field

instance : HasTokens Record where
  tokens record := tokens record.toItemList
  anchor record := record.opening

namespace Constructor

/--
The tokens before the record.
-/
def before (c : Constructor) : List Token :=
  c.first :: c.more

instance : HasTokens Constructor where
  tokens c := c.before ++ (c.record.map tokens).getD [] ++ c.after
  anchor := first

/--
The name of a constructor, which can be an operator.
-/
def name (c : Constructor) : Option Token :=
  c.before.find? fun t => t.kind = .conId || t.kind = .conSym

/--
The constructor that tokens form.
-/
def ofTokens? (ts : List Token) : Option Constructor :=
  match Outside.splitBracket? "\x7b" 0 ts with
  | none =>
    match ts with
    | first :: more => some { first, more }
    | [] => none
  | some ([], _, _) => none
  | some (first :: more, opening, rest) => do
    let (list, after) ← ItemList.ofTokens? opening rest
    let items ← list.items.mapM Field.ofEntry?
    if list.hasTrailingComma then
      none
    else
      let record : Record := { opening, items, commas := list.commas, closing := list.closing }
      return { first, more, record := some record, after }

end Constructor

namespace Deriving

instance : HasTokens Deriving where
  tokens d := d.keyword :: d.strategy.toList ++ d.classes ++ d.via
  anchor := keyword

/--
Whether the classes stand in parentheses.
-/
def isParenthesized (d : Deriving) : Bool :=
  d.classes.head?.any (·.isSpecial ["("]) && d.classes.getLast?.any (·.isSpecial [")"])

/--
The classes, without what they are applied to.
-/
def classNames (d : Deriving) : List Token :=
  d.classes.filter fun t => t.kind = .conId || t.kind = .qualifiedConId

/--
The classes that tokens begin with, in parentheses or a single one, and the rest.
-/
def classes? : List Token → Option (List Token × List Token)
  | [] => none
  | t :: ts =>
    if t.isSpecial ["("] then
      (Outside.splitClose? 1 ts).map fun (inner, rest) => (t :: inner, rest)
    else if t.kind = .conId ∨ t.kind = .qualifiedConId then
      some ([t], ts)
    else
      none

/--
The strategy that tokens begin with, if any, and the rest.
-/
def splitStrategy : List Token → Option Token × List Token
  | [] => (none, [])
  | t :: ts =>
    if ["stock", "anyclass", "newtype"].contains t.text && (t.kind = .varId || t.kind = .reservedId) then
      (some t, ts)
    else
      (none, t :: ts)

/--
The clause that begins behind a keyword, up to the next one.
-/
def ofTokens? (keyword : Token) (ts : List Token) : Option Deriving := do
  let (strategy, ts) := splitStrategy ts
  let (classes, via) ← classes? ts
  if via.head?.all fun t => t.kind = .varId && t.text == "via" then
    some { keyword, strategy, classes, via }
  else
    none

end Deriving

namespace DataDecl

/--
The constructors in order.
-/
def constructors (d : DataDecl) : List Constructor :=
  d.constructor :: d.others.map Prod.snd

/--
Each constructor with the equals sign or the bar before it.
-/
def ledConstructors (d : DataDecl) : List (Token × Constructor) :=
  (d.equals, d.constructor) :: d.others

/--
The tokens up to the deriving clauses.
-/
def bodyTokens (d : DataDecl) : List Token :=
  d.keyword :: d.head ++ d.ledConstructors.flatMap fun (leader, c) => leader :: tokens c

instance : HasTokens DataDecl where
  tokens d := d.bodyTokens ++ d.derivings.flatMap tokens
  anchor := keyword

/--
Whether a declaration introduces a new type for another one.
-/
def isNewtype (d : DataDecl) : Bool :=
  d.keyword.text == "newtype"

/--
The name of the type.
-/
def typeName (d : DataDecl) : Option Token :=
  d.head.find? (·.kind = .conId)

/--
The record of a declaration with one constructor.
-/
def singleRecord? (d : DataDecl) : Option Record :=
  if d.others.isEmpty then d.constructor.record else none

/--
The declaration that tokens behind a keyword form.
-/
def ofTokens? (keyword : Token) (ts : List Token) : Option DataDecl := do
  let (head, equals, rest) ← Outside.split? some (·.isReservedOp ["="]) 0 ts
  if head.isEmpty || head.any (·.isKeyword ["where"]) then
    none
  else
    let (body, clauses) := Outside.splitAll some (·.isKeyword ["deriving"]) 0 rest
    let (group, groups) := Outside.splitAll some (·.isReservedOp ["|"]) 0 body
    let constructor ← Constructor.ofTokens? group
    let others ← groups.mapM fun (bar, group) => (Constructor.ofTokens? group).map (bar, ·)
    let derivings ← clauses.mapM fun (keyword, ts) => Deriving.ofTokens? keyword ts
    return { keyword, head, equals, constructor, others, derivings }

end DataDecl

end HaskellStyle
