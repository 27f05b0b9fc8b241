import HaskellStyle.Module.Basic
import HaskellStyle.Token.Attach

/-!
This module contains the reading of a module from its source text.
-/

namespace HaskellStyle

/--
A text that is not a module: the fault and the place where it was found.
-/
structure ParseError where
  fault : Fault
  position : Position
  deriving DecidableEq

namespace ParseError

/--
The wording of the fault.
-/
def message (e : ParseError) : String :=
  e.fault.message

/--
The line of the fault, counted from one.
-/
def lineNumber (e : ParseError) : Nat :=
  e.position.line + 1

/--
The column of the fault, counted from one.
-/
def columnNumber (e : ParseError) : Int :=
  e.position.column + 1

/--
A failure with its place in the text.
-/
def ofFailure (text : List Char) (failure : Failure) : ParseError where
  fault := failure.fault
  position := (LineIndex.ofText text).position failure.offset

end ParseError

namespace Header

/--
The header behind the keyword `module`, and the tokens behind it.
-/
def ofTokens (keyword eof : Token) (ts : List Token) : Except Failure (Header × List Token) := do
  let name := ts.headD eof
  if name.kind ≠ .conId ∧ name.kind ≠ .qualifiedConId then
    throw ⟨.missingModuleName, name.offset⟩
  let rest := ts.drop 1
  let pragmas := rest.takeWhile (·.kind = .pragma)
  let rest := rest.dropWhile (·.kind = .pragma)
  let (exports, rest) ←
    match rest with
    | opening :: inner =>
      if opening.isSpecial ["("] then
        match ItemList.ofTokens? opening inner with
        | some (list, after) => pure (some list, after)
        | none => throw ⟨.malformedExports, opening.offset⟩
      else
        pure (none, rest)
    | [] => pure (none, rest)
  let whereKeyword := rest.headD eof
  if !whereKeyword.isKeyword ["where"] then
    throw ⟨.missingWhere, whereKeyword.offset⟩
  return ({ keyword, name, pragmas, exports, whereKeyword }, rest.drop 1)

end Header

namespace Module

/--
The groups of imports. A blank line before an import begins a group.
-/
def groupImports : List Import → List (List Import)
  | [] => []
  | i :: more =>
    match groupImports more with
    | [] => [[i]]
    | group :: groups =>
      if (group.head?.any fun next => 0 < next.keyword.leading.blankLines) then
        [i] :: group :: groups
      else
        (i :: group) :: groups

/--
The imports that a list of declarations begins with, and the other declarations.
-/
def splitImports : List Declaration → List Import × List Declaration
  | .importing i :: more =>
    let (imports, others) := splitImports more
    (i :: imports, others)
  | declarations => ([], declarations)

/--
Whether a directive stands at a token.
-/
def hasDirective (t : Token) : Bool :=
  t.leading.hasDirective || t.trailing.hasDirective

/--
The line ends of a text, as its first line shows them.
-/
def newlineOf (text : List Char) : Newline :=
  if (text.takeWhile (· ≠ '\n')).getLast? = some '\r' ∧ text.contains '\n' then .crlf else .lf

/--
The declarations of the tokens behind the header. A body in braces is kept as it is.
-/
def readBody (eof : Token) (ts : List Token) : Except Failure (List Declaration) :=
  match ts with
  | [] => .ok []
  | t :: more =>
    if t.isSpecial ["\x7b"] then
      .ok [.raw ⟨t, more.map .token⟩]
    else do
      return (← Layout.read eof ts).map Declaration.ofRun

/--
The module that a text is.
-/
def read (text : List Char) : Except Failure Module := do
  let stream ← TokenStream.ofText text
  let isHeaderPragma := fun t : Token => t.kind = .pragma && Pragma.isHeader { token := t }
  let headerPragmas := (stream.tokens.takeWhile isHeaderPragma).map ({ token := · : Pragma })
  let rest := stream.tokens.dropWhile isHeaderPragma
  let (header, rest) ←
    match rest with
    | keyword :: more =>
      if keyword.isKeyword ["module"] then do
        let (header, rest) ← Header.ofTokens keyword stream.eof more
        pure (some header, rest)
      else
        pure (none, rest)
    | [] => pure (none, [])
  let (imports, declarations) := splitImports (← readBody stream.eof rest)
  let following := (declarations.head?.map firstToken).getD stream.eof
  return {
    headerPragmas
    header
    imports := groupImports imports
    declarations
    eof := stream.eof
    newline := newlineOf text
    importsReorderable := !imports.any (fun i => (tokens i).any hasDirective)
      && (imports.isEmpty || !following.leading.hasDirective)
  }

/--
The module that a text is, or the place of the fault.
-/
def parse (text : List Char) : Except ParseError Module :=
  (read text).mapError (ParseError.ofFailure text)

end Module

end HaskellStyle
