import HaskellStyle.Print.Module

/-!
This module contains the writing of modules in which every access is checked: the leader of an item, the first and
the last token of a part, the earliest of several parts and the lines of a broken equation are looked up, and
nothing is written if one of them is missing.
-/

namespace HaskellStyle

/--
The tokens that stand before the items of a list: its opening bracket and the commas between the items.
-/
def ItemList.leaders {ι : Type} (list : ItemList ι) : List Token :=
  list.opening :: list.commas.take (list.items.length - 1)

namespace Printer

variable {ι : Type} [HasTokens ι]

/--
Writes items, the first of which has the given index, with their texts.
-/
def ledItems? (p : Printer) (leaders : List Token) (indent : Int) (index : Nat) :
    List (ι × String) → Output → Option Output
  | [], out => some out
  | (item, text) :: more, out => do
    let leader ← leaders[index]?
    let first ← (tokens item).head?
    let last ← (tokens item).getLast?
    let out := commentLines leader.leading indent (index ≠ 0) out
    let out := (out.endLine.blanks indent).put leader.text
    let out := ledText leader first indent text (index = 0) out
    let out := p.trailing last true out
    let out ←
      if more.isEmpty then
        some out
      else
        leaders[index + 1]?.map fun comma => movedComments last comma out
    ledItems? p leaders indent (index + 1) more out

/--
Writes a list with one item per line, given the texts of its items.
-/
def itemList? (p : Printer) (list : ItemList ι) (texts : List String) (indent : Int) (out : Output) :
    Option Output := do
  let out ← ledItems? p list.leaders indent 0 (list.items.zip texts) out
  let out := commentLines list.closing.leading (indent + 2) false out
  return (out.endLine.blanks indent).put list.closing.text

/--
Writes header pragmas in normal form behind the trivia before the one that comes first in the source.
-/
def headerPragmas? (p : Printer) (pragmas : List Pragma) (out : Output) : Option Output := do
  let first ← minBy (·.token.offset) pragmas
  return p.pragmaBlocks (some first.token.offset) (Pragma.blocks pragmas) (p.leading first.token out)

/--
Writes the module header.
-/
def header? (p : Printer) (h : Header) (out : Output) : Option Output :=
  match h.exports.bind fun exports => exports.layout.map (exports, ·) with
  | none => some (p.verbatim (tokens h) out)
  | some (exports, layout) => do
    let out := (p.leading h.keyword out).put (" ".intercalate (h.head.map (·.text)))
    let out ←
      match layout with
      | .singleLine => some (out.put (" " ++ exports.flat))
      | .multiLine => p.itemList? exports (exports.items.map Entry.flat) p.indent out
    return p.trailing h.whereKeyword true (out.put (" " ++ h.whereKeyword.text))

/--
Writes an import without the trivia before it.
-/
def importDecl? (p : Printer) (i : Import) (out : Output) : Option Output :=
  if isStructured i then do
    let out := out.put (" ".intercalate (i.head.map (·.text)))
    let out ←
      match i.list with
      | none => some out
      | some list =>
        if list.layout = some .singleLine || list.items.isEmpty then
          some (out.put (" " ++ list.flat))
        else
          p.itemList? list (list.items.map Entry.flat) p.indent out
    let last ← (tokens i).getLast?
    return p.trailing last true (if i.tail.isEmpty then out else out.put (" " ++ Token.flat i.tail))
  else
    some (p.verbatimInside (tokens i) out)

/--
Writes an import of the normalized import block behind the given number of blank lines.
-/
def importLine? (p : Printer) (blankLines : Nat) (i : Import) (out : Output) : Option Output := do
  let first ← (tokens i).head?
  let out := (List.replicate blankLines ()).foldl (fun out _ => out.endLine) out
  let out := first.leading.allCommentLines.foldl
    (fun out line => out.endLineIfStarted.write (Trivia.lineText line) true) out
  p.importDecl? i out.endLineIfStarted

/--
Writes a group of imports behind the given number of blank lines.
-/
def importGroup? (p : Printer) (blankLines : Nat) (group : List Import) (out : Output) : Option Output :=
  match group with
  | [] => some out
  | i :: more => do
    more.foldlM (fun out i => p.importLine? 0 i out) (← p.importLine? blankLines i out)

/--
Writes the groups of imports in normal form, with a blank line between them.
-/
def importBlock? (p : Printer) (groups : List (List Import)) (out : Output) : Option Output := do
  let first ← minBy (·.keyword.offset) groups.flatten
  let blankLines := (first.keyword.leading.commentLines.takeWhile (·.isEmpty)).length
  match groups with
  | [] => none
  | group :: more =>
    more.foldlM (fun out group => p.importGroup? 1 group out) (← p.importGroup? blankLines group out)

/--
Writes a signature in normal form.
-/
def signature? (p : Printer) (s : Signature) (layout : ListLayout) (out : Output) : Option Output :=
  match layout with
  | .singleLine => some (out.put s.flat)
  | .multiLine => do
    let first ← (tokens s).head?
    let end_ ← (tokens s).getLast?
    let indent := first.column + p.indent
    return s.parts.foldl
      (fun out (leader, part) =>
        let out := commentLines leader.leading indent false out
        let out := (out.endLine.blanks indent).put (leader.text ++ " " ++ Token.flat part)
        match part.getLast? with
        | some last => p.trailingInside last end_ out
        | none => out)
      (out.put (Token.flat s.names))

/--
Writes a record with one field per line.
-/
def record? (p : Printer) (r : Record) (indent : Int) (out : Output) : Option Output :=
  let widths := r.nameWidths ++ List.replicate (r.items.length - r.nameWidths.length) 0
  p.itemList? r.toItemList (r.items.zipWith Field.flat widths) indent out

/--
Writes a constructor of a sum type on its line.
-/
def constructor? (p : Printer) (indent : Int) (end_ : Token) (out : Output) :
    Token × Constructor → Option Output
  | (leader, c) => do
    let first ← (tokens c).head?
    let last ← (tokens c).getLast?
    let out := commentLines leader.leading indent false out
    let out := (out.endLine.blanks indent).put leader.text
    let out ←
      match c.record.filter (·.layout ≠ some .singleLine) with
      | none => some (ledText leader first indent c.flat true out)
      | some r => p.record? r (indent + 4) (ledText leader first indent (Token.flat c.before) true out)
    return p.trailingInside last end_ out

/--
Writes the deriving clauses of a data declaration.
-/
def derivings? (p : Printer) (d : DataDecl) (layout : ListLayout) (indent : Int) (out : Output) :
    Option Output := do
  let placed := d.derivingLayout.getD ⟨false, 0⟩
  if !placed.ownLines && layout ≠ .multiLine then
    return d.derivings.foldl (fun out clause => out.put (" " ++ clause.flat 0)) out
  else
    let end_ ← (tokens d).getLast?
    d.derivings.foldlM
      (fun out clause => do
        let last ← (tokens clause).getLast?
        let out := commentLines clause.keyword.leading indent false out
        let out := (out.endLine.blanks indent).put (clause.flat placed.strategyWidth)
        return p.trailingInside last end_ out)
      out

/--
Writes a data declaration in normal form up to its deriving clauses.
-/
def dataBody? (p : Printer) (d : DataDecl) (layout : ListLayout) (end_ : Token) (out : Output) :
    Option Output :=
  let indent := d.keyword.column + p.indent
  match layout, d.singleRecord? with
  | .singleLine, _ => some (out.put d.flat)
  | .multiLine, some r =>
    (p.record? r indent (out.put (d.flatHead ++ " = " ++ Token.flat d.constructor.before))).map
      (p.trailingInside r.closing end_)
  | .multiLine, none => d.ledConstructors.foldlM (p.constructor? indent end_) (out.put d.flatHead)

/--
Writes a data declaration in normal form.
-/
def dataDecl? (p : Printer) (d : DataDecl) (layout : ListLayout) (out : Output) : Option Output := do
  let end_ ← (tokens d).getLast?
  let out ← p.dataBody? d layout end_ out
  p.derivings? d layout (d.keyword.column + p.indent) out

/--
Writes an equation with its right-hand side on several lines. A body that is no call has no lines.
-/
def brokenClause? (p : Printer) (lhs : List Token) (equals : Token) (body : List Token)
    (layout : RhsLayout) (out : Output) : Option Output := do
  let lines ←
    match layout.style with
    | .application => Rhs.terms? body
    | .operators => some (Rhs.operatorLines p.settings body)
  let first ← lines.head?
  let out := out.put (Token.flat (lhs ++ [equals]) ++ " " ++ Token.flat first)
  return lines.tail.foldl (fun out line => (out.endLine.blanks layout.column).put (Token.flat line)) out

/--
Writes a declaration in normal form between the trivia before and the comments behind it.
-/
def structured? (p : Printer) (d : Declaration) (body : Output → Option Output) (out : Output) :
    Option Output := do
  let first ← (tokens d).head?
  let last ← (tokens d).getLast?
  return p.trailing last true (← body (p.leading first out))

/--
Writes a declaration. An equation that is broken has one right-hand side, without blocks.
-/
def declaration? (p : Printer) (d : Declaration) (out : Output) : Option Output :=
  match d with
  | .pragma pragma =>
    some (if pragma.pinned then p.pinnedPragma pragma true out else p.verbatim (tokens d) out)
  | .signature s =>
    match s.layout with
    | some layout => p.structured? d (p.signature? s layout) out
    | none => some (p.verbatim (tokens d) out)
  | .data decl =>
    match decl.layout with
    | some layout => p.structured? d (p.dataDecl? decl layout) out
    | none => some (p.verbatim (tokens d) out)
  | .clause c (some layout) =>
    match c.equation.rhs with
    | .plain equals body => do
      let lhs ← Segment.flat? c.equation.lhs
      let body ← Segment.flat? body
      p.structured? d (p.brokenClause? lhs equals body layout) out
    | .guarded _ _ => none
  | .clause _ none | .importing _ | .raw _ => some (p.verbatim (tokens d) out)

/--
Writes the header pragmas of a module.
-/
def pragmaRegion? (p : Printer) (m : Module) (out : Output) : Option Output :=
  if m.headerPragmas.isEmpty then
    some out
  else if m.pragmasNormalized then
    p.headerPragmas? m.headerPragmas out
  else
    some (p.verbatim (m.headerPragmas.map (·.token)) out)

/--
Writes the header of a module, if it has one.
-/
def headerRegion? (p : Printer) (m : Module) (out : Output) : Option Output :=
  match m.header with
  | some h => p.header? h out
  | none => some out

/--
Writes the imports of a module.
-/
def importRegion? (p : Printer) (m : Module) (out : Output) : Option Output :=
  if m.imports.isEmpty then
    some out
  else if m.importsNormalized then
    p.importBlock? m.imports out
  else
    some (p.verbatim (m.importDecls.flatMap tokens) out)

/--
Writes the parts of a module one after the other.
-/
def moduleParts? (p : Printer) (m : Module) (out : Output) : Option Output := do
  let out ← p.pragmaRegion? m out
  let out ← p.headerRegion? m out
  let out ← p.importRegion? m out
  let out ← m.declarations.foldlM (fun out d => p.declaration? d out) out
  return p.leading m.eof out

end Printer

/--
Writes a module if no access fails.
-/
def Module.render? (settings : Settings) (m : Module) : Option Rendering := do
  let p := Printer.ofModule settings m
  let out ← p.moduleParts? m p.start
  let shielded := out.shielded.reverse
  let text := LineEdit.normalize m.newline.text.toList out.text.toList shielded
  return { text, shielded, found := out.found.reverse ++ longLines settings text }

end HaskellStyle
