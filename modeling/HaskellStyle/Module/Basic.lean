import HaskellStyle.Declaration.Top

/-!
This module contains modules: header pragmas, header, import groups and declarations, together with the
columns that lines have been given.
-/

namespace HaskellStyle

/--
The line `module … where`.
-/
structure Header where
  keyword : Token
  name : Token
  pragmas : List Token
  exports : Option (ItemList Entry)
  whereKeyword : Token
  deriving DecidableEq

/--
The column to which the line of a token is moved. A token with `breakBefore` goes to a line of its own.
-/
structure Placement where
  column : Int
  breakBefore : Bool
  deriving DecidableEq

/--
The way in which lines end.
-/
inductive Newline where
  | lf
  | crlf
  deriving DecidableEq

/--
The characters of a line end.
-/
def Newline.text : Newline → String
  | .lf => "\n"
  | .crlf => "\r\n"

/--
A module. Placements belong to the offsets of tokens. Regions that are not normalized are written as they
were read.
-/
structure Module where
  headerPragmas : List Pragma
  header : Option Header
  imports : List (List Import)
  declarations : List Declaration
  eof : Token
  newline : Newline
  placements : List (Nat × Placement) := []
  pragmasNormalized : Bool := false
  importsNormalized : Bool := false
  importsReorderable : Bool

namespace Header

instance : HasTokens Header where
  tokens h := h.keyword :: h.name :: h.pragmas ++ (h.exports.map tokens).getD [] ++ [h.whereKeyword]
  anchor := keyword

/--
The tokens before the export list.
-/
def head (h : Header) : List Token :=
  h.keyword :: h.name :: h.pragmas

end Header

namespace Module

instance : HasTokens Module where
  tokens m := m.headerPragmas.map (·.token) ++ (m.header.map tokens).getD []
    ++ m.imports.flatMap (·.flatMap tokens) ++ m.declarations.flatMap tokens ++ [m.eof]
  anchor := eof

/--
The imports of all groups.
-/
def importDecls (m : Module) : List Import :=
  m.imports.flatten

/--
The name of a module with a header.
-/
def name? (m : Module) : Option String :=
  m.header.map (·.name.text)

/--
The source text of a module, put together from its tokens.
-/
def sourceText (m : Module) : String :=
  Token.joinSource (tokens m)

end Module

end HaskellStyle
