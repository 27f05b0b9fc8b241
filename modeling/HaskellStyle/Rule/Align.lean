import HaskellStyle.Rule.Basic

/-!
This module contains the rule that lays out lists, data declarations, signatures and long equations: each
of them goes on one line if it fits and was not spread over lines, and is aligned over several lines else.
What has comments at places where the written form has none is left as it is.
-/

namespace HaskellStyle.Align

/--
Whether a text that begins at `column` fits on a line.
-/
def fits (settings : Settings) (column : Int) (text : String) : Bool :=
  column + text.length ≤ settings.maxLineLength

/--
Whether a list can be written in normal form with all its comments.
-/
def listWritable {ι : Type} [HasTokens ι] (list : ItemList ι) : Bool :=
  !list.hasTrailingComma
    && !(tokens list).any (·.isMultiline)
    && list.items.all (fun item =>
      Token.cleanInside (tokens item) && (firstToken item).leading.ownLineOnly)
    && (list.opening :: list.closing :: list.commas).all (·.leading.ownLineOnly)

/--
The layout of a list that begins at `column` and is followed by `suffix`.
-/
def listLayout? (settings : Settings) (list : ItemList Entry) (column : Int) (suffix : String) :
    Option ListLayout :=
  if listWritable list then
    let ts := tokens list
    let comments := Token.haveComments ts
    if list.items.isEmpty then
      if comments then none else some .singleLine
    else if !comments && !(Token.spansLines ts && 1 < list.items.length)
        && fits settings column (list.flat ++ suffix) then
      some .singleLine
    else
      some .multiLine
  else
    none

/--
Lays out the export list of a header.
-/
def header (settings : Settings) (h : Header) : Header :=
  match h.exports with
  | none => h
  | some exports =>
    let lastOfHead := h.pragmas.getLastD h.name
    if !Token.cleanInside (h.head ++ [exports.opening]) || lastOfHead.trailing.hasComments
        || exports.closing.trailing.hasComments || h.whereKeyword.leading.hasComments then
      h
    else
      let start := " ".intercalate (h.head.map (·.text)) ++ " "
      match listLayout? settings exports (h.keyword.column + start.length) " where" with
      | none => h
      | some layout => { h with exports := some { exports with layout := some layout } }

/--
Lays out the list of an import.
-/
def importDecl (settings : Settings) (i : Import) : Import :=
  match i.list with
  | none => i
  | some list =>
    if !Token.cleanInside i.head || i.lastOfHead.trailing.hasComments
        || (!i.tail.isEmpty && !Token.cleanInside (list.closing :: i.tail)) then
      i
    else
      let start := " ".intercalate (i.head.map (·.text)) ++ " "
      let suffix := if i.tail.isEmpty then "" else " " ++ Token.flat i.tail
      match listLayout? settings list (i.keyword.column + start.length) suffix with
      | none => i
      | some layout => { i with list := some { list with layout := some layout } }

/--
Whether a constructor can be written in normal form with all its comments.
-/
def constructorWritable (c : Constructor) : Bool :=
  c.first.leading.ownLineOnly &&
    match c.record with
    | none => Token.cleanInside (c.before ++ c.after)
    | some record =>
      c.after.isEmpty && Token.cleanInside c.before
        && !(c.more.getLastD c.first).trailing.hasComments && listWritable record.toItemList

/--
Whether a data declaration can be written in normal form with all its comments.
-/
def dataWritable (d : DataDecl) : Bool :=
  !(tokens d).any (·.isMultiline)
    && Token.cleanInside (d.keyword :: d.head)
    && !(d.head.getLastD d.keyword).trailing.hasComments
    && d.ledConstructors.all (fun (leader, c) => leader.leading.ownLineOnly && constructorWritable c)
    && d.derivings.all fun clause =>
      Token.cleanInside (tokens clause) && clause.keyword.leading.ownLineOnly

/--
The fields of a record by groups. A blank line before a field begins a group.
-/
def fieldGroups : List (Token × Field) → List (List Field)
  | [] => []
  | (_, field) :: more =>
    match more, fieldGroups more with
    | (leader, next) :: _, group :: groups =>
      if 0 < leader.leading.blankLines || 0 < (firstToken next).leading.blankLines then
        [field] :: group :: groups
      else
        (field :: group) :: groups
    | _, _ => [[field]]

/--
The widths to which the names of fields are padded: in each group that of its longest names.
-/
def nameWidths (settings : Settings) (record : Record) : List Nat :=
  if settings.alignment.recordFields then
    (fieldGroups record.ledItems).flatMap fun group =>
      let width := (group.map fun field => (Token.flat field.names).length).foldl max 0
      group.map fun _ => width
  else
    []

/--
Lays out a record.
-/
def record (settings : Settings) (layout : ListLayout) (r : Record) : Record :=
  match layout with
  | .singleLine => { r with layout := some layout }
  | .multiLine => { r with layout := some layout, nameWidths := nameWidths settings r }

/--
Lays out the record of a constructor.
-/
def constructor (settings : Settings) (layout : ListLayout) (c : Constructor) : Constructor :=
  { c with record := c.record.map (record settings layout) }

/--
Lays out a constructor on a line of its own in a declaration that begins at `column`.
-/
def sumConstructor (settings : Settings) (column : Int) (c : Constructor) : Constructor :=
  match c.record with
  | none => c
  | some r =>
    let ts := tokens r
    let line := padRight "" settings.indentWidth ++ "| " ++ c.flat
    let onOneLine := !Token.haveComments ts && !(Token.spansLines ts && 1 < r.items.length)
      && fits settings column line
    constructor settings (if r.items.isEmpty || onOneLine then .singleLine else .multiLine) c

/--
Replaces the constructors of a data declaration.
-/
def mapConstructors (f : Constructor → Constructor) (layout : ListLayout) (d : DataDecl) : DataDecl :=
  { d with
    constructor := f d.constructor
    others := d.others.map fun (bar, c) => (bar, f c)
    layout := some layout }

/--
The deriving clauses of a declaration as they would go on its line; several clauses do not.
-/
def inlineDerivings (d : DataDecl) : String :=
  match d.derivings with
  | [clause] => " " ++ { clause with parenthesize := true : Deriving }.flat 0
  | _ => ""

/--
Lays out a data declaration.
-/
def dataDecl (settings : Settings) (d : DataDecl) : DataDecl :=
  if dataWritable d then
    let comments := !Token.cleanInside (tokens d) || (lastToken d).trailing.hasComments
    let column := d.keyword.column
    let spread :=
      match d.singleRecord? with
      | some r => Token.spansLines (tokens r) && 1 < r.items.length
      | none =>
        Token.spansLines (d.equals :: d.constructors.flatMap tokens) && 1 < d.constructors.length
    if !comments && !spread && fits settings column (d.flat ++ inlineDerivings d) then
      mapConstructors (constructor settings .singleLine) .singleLine d
    else
      match d.singleRecord? with
      | some r =>
        if r.items.isEmpty then d else mapConstructors (constructor settings .multiLine) .multiLine d
      | none => mapConstructors (sumConstructor settings column) .multiLine d
  else
    d

/--
Whether a signature can be written on several lines with all its comments.
-/
def signatureWritable (s : Signature) : Bool :=
  Token.cleanInside s.names && !(s.names.getLast?.any (·.trailing.hasComments))
    && s.parts.all fun (leader, part) =>
      leader.leading.ownLineOnly && !leader.trailing.hasComments && Token.cleanInside part
        && part.head?.any (!·.leading.hasComments)

/--
Lays out a signature.
-/
def signature (settings : Settings) (s : Signature) : Signature :=
  let ts := tokens s
  if ts.any (·.isMultiline) then
    s
  else if Token.cleanInside ts && !(Token.spansLines ts && 1 < s.parts.length)
      && fits settings (firstToken s).column s.flat then
    { s with layout := some .singleLine }
  else if signatureWritable s then
    { s with layout := some .multiLine }
  else
    s

/--
Whether a minus sign among operators and operands is a negation.
-/
def hasNegation (previous : Option Token) : List Token → Bool
  | [] => false
  | t :: ts => (t.text == "-" && previous.all (·.isOperator)) || hasNegation (some t) ts

/--
How the body of a long equation is broken. The equation begins at `column` and `head` is its text up to
the equals sign. Bodies with keywords, reserved operators or negations outside of brackets are left.
-/
def rhsLayout (settings : Settings) (body : List Token) (column : Int) (head : String) :
    Except RuleError (Option RhsLayout) :=
  let top := Outside.tokens 0 body
  let continuation := column + settings.indentWidth
  if top.any fun t => t.kind = .reservedId || t.kind = .reservedOp then
    .ok none
  else if !top.any (·.isOperator) then
    if top.any (·.isSpecial ["\x60"]) then
      .ok none
    else
      match Rhs.terms? body with
      | none => .error .unopenedBracket
      | some terms =>
        .ok (if terms.length < 2 then none else some ⟨.application, continuation⟩)
  else if hasNegation none top then
    .ok none
  else
    match Rhs.chunks (Rhs.cutOperators body) body with
    | first :: _ :: more =>
      if settings.alignment.operatorChains = .aligned && !more.isEmpty then
        .ok (some ⟨.operators, column + head.length + (Token.flat first).length + 2⟩)
      else
        .ok (some ⟨.operators, continuation⟩)
    | _ => .ok none

/--
How a clause is broken if it is a single equation on one line, without comments, that does not fit.
-/
def clauseLayout (settings : Settings) (c : Clause Block) : Except RuleError (Option RhsLayout) :=
  match c.locals, Segment.flat? c.equation.lhs, c.equation.rhs with
  | none, some lhs, .plain equals body =>
    match Segment.flat? body with
    | none => .ok none
    | some body =>
      let ts := tokens c
      let column := (firstToken c).column
      if Token.spansLines ts || !Token.cleanInside ts || fits settings column (Token.flat ts) then
        .ok none
      else
        rhsLayout settings body column (Token.flat (lhs ++ [equals]))
  | _, _, _ => .ok none

/--
Lays out a declaration.
-/
def declaration (settings : Settings) (d : Declaration) : Except RuleError Declaration :=
  match d with
  | .data decl => .ok (.data (dataDecl settings decl))
  | .signature s => .ok (.signature (signature settings s))
  | .clause c layout => do
    match ← clauseLayout settings c with
    | some layout => return .clause c (some layout)
    | none => return .clause c layout
  | .importing _ | .pragma _ | .raw _ => .ok d

/--
The name of the fix that lays out a declaration.
-/
def fixName : Declaration → String
  | .data _ => "data-declaration"
  | .signature _ => "type-signature"
  | _ => "long-equation"

/--
A declaration without its deriving clauses, which have a rule of their own.
-/
def withoutDerivings : Declaration → Declaration
  | .data d => .data { d with derivings := [] }
  | d => d

/--
Lays out declarations one after the other and notes those that it changes.
-/
def declarations (settings : Settings) (p : Printer) :
    List Declaration → Notes → Except RuleError (List Declaration × Notes)
  | [], notes => .ok ([], notes)
  | d :: more, notes => do
    let laidOut ← declaration settings d
    let before := withoutDerivings d
    let oldText := p.declarationText before
    let newText := p.declarationText (withoutDerivings laidOut)
    let notes :=
      if rewritesSource (tokens before) oldText newText then
        notes.fixed settings (fixName d) {
          kind := .alignment
          message := s!"Align layout ({d.kind.name})"
          span := (firstToken before).span
        }
      else
        notes
    let (others, notes) ← declarations settings p more notes
    return (laidOut :: others, notes)

/--
Applies the rule.
-/
def apply (settings : Settings) (m : Module) : Except RuleError RuleResult := do
  let p := Printer.ofModule settings m
  let (laidOut, notes) :=
    match m.header with
    | none => (none, ({} : Notes))
    | some h =>
      let laidOut := header settings h
      if rewritesSource (tokens h) (p.headerText h) (p.headerText laidOut) then
        (some laidOut, ({} : Notes).fixed settings "export-list" {
          kind := .alignment
          message := s!"Reflow export list ({NodeKind.header.name})"
          span := h.keyword.span
        })
      else
        (some laidOut, {})
  let (decls, notes) ← declarations settings p m.declarations notes
  let module := { m with
    header := laidOut
    imports := m.imports.map (·.map (importDecl settings))
    declarations := decls }
  return ⟨module, false, notes⟩

end HaskellStyle.Align
