import HaskellStyle.Print.List

/-!
This module contains the writing of declarations. A declaration without a layout is written as it was read.
-/

namespace HaskellStyle.Printer

/--
Writes comments behind the last token of a part unless the part ends the declaration, which writes them
itself.
-/
def trailingInside (p : Printer) (last end_ : Token) (out : Output) : Output :=
  if last.offset = end_.offset then out else p.trailing last true out

/--
Writes a signature in normal form. On several lines, each part of the type begins with its arrow.
-/
def signature (p : Printer) (s : Signature) (layout : ListLayout) (out : Output) : Output :=
  match layout with
  | .singleLine => out.put s.flat
  | .multiLine =>
    let indent := (firstToken s).column + p.indent
    s.parts.foldl
      (fun out (leader, part) =>
        let out := commentLines leader.leading indent false out
        let out := (out.endLine.blanks indent).put (leader.text ++ " " ++ Token.flat part)
        match part.getLast? with
        | some last => p.trailingInside last (lastToken s) out
        | none => out)
      (out.put (Token.flat s.names))

/--
Writes a record with one field per line.
-/
def record (p : Printer) (r : Record) (indent : Int) (out : Output) : Output :=
  let widths := r.nameWidths ++ List.replicate (r.items.length - r.nameWidths.length) 0
  p.itemList r.toItemList (r.items.zipWith Field.flat widths) indent out

/--
Writes a constructor of a sum type on its line.
-/
def constructor (p : Printer) (indent : Int) (end_ : Token) (out : Output) :
    Token × Constructor → Output
  | (leader, c) =>
    let out := commentLines leader.leading indent false out
    let out := (out.endLine.blanks indent).put leader.text
    let out :=
      match c.record.filter (·.layout ≠ some .singleLine) with
      | none => ledText leader (firstToken c) indent c.flat true out
      | some r =>
        p.record r (indent + 4) (ledText leader (firstToken c) indent (Token.flat c.before) true out)
    p.trailingInside (lastToken c) end_ out

/--
Writes the deriving clauses of a data declaration.
-/
def derivings (p : Printer) (d : DataDecl) (layout : ListLayout) (indent : Int) (out : Output) : Output :=
  let placed := d.derivingLayout.getD ⟨false, 0⟩
  if !placed.ownLines && layout ≠ .multiLine then
    d.derivings.foldl (fun out clause => out.put (" " ++ clause.flat 0)) out
  else
    d.derivings.foldl
      (fun out clause =>
        let out := commentLines clause.keyword.leading indent false out
        let out := (out.endLine.blanks indent).put (clause.flat placed.strategyWidth)
        p.trailingInside (lastToken clause) (lastToken d) out)
      out

/--
Writes a data declaration in normal form.
-/
def dataDecl (p : Printer) (d : DataDecl) (layout : ListLayout) (out : Output) : Output :=
  let indent := d.keyword.column + p.indent
  let out :=
    match layout, d.singleRecord? with
    | .singleLine, _ => out.put d.flat
    | .multiLine, some r =>
      let out := out.put (d.flatHead ++ " = " ++ Token.flat d.constructor.before)
      p.trailingInside r.closing (lastToken d) (p.record r indent out)
    | .multiLine, none =>
      d.ledConstructors.foldl (p.constructor indent (lastToken d)) (out.put d.flatHead)
  p.derivings d layout indent out

/--
Writes an equation with its right-hand side on several lines.
-/
def brokenClause (p : Printer) (lhs : List Token) (equals : Token) (body : List Token)
    (layout : RhsLayout) (out : Output) : Output :=
  let lines :=
    match layout.style with
    | .application => (Rhs.terms? body).getD [body]
    | .operators => Rhs.operatorLines p.settings body
  let out := out.put (Token.flat (lhs ++ [equals]) ++ " " ++ Token.flat (lines.headD []))
  (lines.drop 1).foldl (fun out line => (out.endLine.blanks layout.column).put (Token.flat line)) out

/--
Writes a pragma directly behind the declaration that it names.
-/
def pinnedPragma (p : Printer) (pragma : Pragma) (withLeading : Bool) (out : Output) : Output :=
  let out :=
    if withLeading then
      let out := pragma.token.leading.allCommentLines.foldl
        (fun out line => out.endLineIfStarted.write (Trivia.lineText line) true) out
      out.endLineIfStarted
    else
      out
  p.trailing pragma.token true (out.write pragma.flat pragma.token.isMultiline)

/--
Writes a declaration in normal form between the trivia before and the comments behind it.
-/
def structured (p : Printer) (d : Declaration) (withLeading : Bool) (body : Output → Output)
    (out : Output) : Output :=
  let out := if withLeading then p.leading (firstToken d) out else out
  p.trailing (lastToken d) true (body out)

/--
Writes a declaration, with or without the trivia before it.
-/
def declaration (p : Printer) (d : Declaration) (withLeading : Bool) (out : Output) : Output :=
  match d with
  | .pragma pragma =>
    if pragma.pinned then
      p.pinnedPragma pragma withLeading out
    else
      p.verbatimWith withLeading (tokens d) out
  | .signature s =>
    match s.layout with
    | some layout => p.structured d withLeading (p.signature s layout) out
    | none => p.verbatimWith withLeading (tokens d) out
  | .data decl =>
    match decl.layout with
    | some layout => p.structured d withLeading (p.dataDecl decl layout) out
    | none => p.verbatimWith withLeading (tokens d) out
  | .clause c (some layout) =>
    match c.equation.rhs with
    | .plain equals body =>
      let lhs := Segment.topTokens c.equation.lhs
      p.structured d withLeading (p.brokenClause lhs equals (Segment.topTokens body) layout) out
    | .guarded _ _ => p.verbatimWith withLeading (tokens d) out
  | .clause _ none | .importing _ | .raw _ => p.verbatimWith withLeading (tokens d) out

end HaskellStyle.Printer
