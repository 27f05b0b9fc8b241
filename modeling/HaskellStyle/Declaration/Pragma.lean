import HaskellStyle.Declaration.Basic
import HaskellStyle.Text.Blank
import HaskellStyle.Text.LetterCase

/-!
This module contains pragmas and what can be read off their words.
-/

namespace HaskellStyle

/--
A pragma. A pinned one stands directly behind the declaration that it names.
-/
structure Pragma where
  token : Token
  pinned : Bool := false
  deriving DecidableEq

namespace Pragma

instance : HasTokens Pragma where
  tokens pragma := [pragma.token]
  anchor := token

/--
The names of pragmas that belong before the module header.
-/
def headerNames : List String :=
  ["LANGUAGE", "OPTIONS_GHC", "OPTIONS", "OPTIONS_HADDOCK", "INCLUDE"]

/--
The names of pragmas about one binder.
-/
def binderNames : List String :=
  ["INLINE", "NOINLINE", "INLINABLE", "INLINEABLE", "SPECIALIZE", "SPECIALISE", "OPAQUE"]

/--
The words between the delimiters of a pragma.
-/
def words (pragma : Pragma) : List String :=
  let cs := pragma.token.text.toList
  (Text.words ((cs.take (cs.length - 3)).drop 3)).map String.ofList

/--
The name of a pragma in upper case. The options of compilers without a name of their own count as
`OPTIONS`.
-/
def name (pragma : Pragma) : String :=
  match pragma.words with
  | [] => ""
  | word :: _ =>
    let name := Text.upperCase word
    if name.startsWith "OPTIONS_" && name != "OPTIONS_GHC" && name != "OPTIONS_HADDOCK" then
      "OPTIONS"
    else
      name

/--
What follows the name, with one blank between words.
-/
def body (pragma : Pragma) : String :=
  " ".intercalate (pragma.words.drop 1)

/--
The extensions that a language pragma lists.
-/
def extensions (pragma : Pragma) : List String :=
  if pragma.name == "LANGUAGE" then
    let parts := (Text.fields (· == ',') pragma.body.toList).map Text.trimBlanks
    (parts.filter fun part => !part.isEmpty).map String.ofList
  else
    []

/--
Whether a pragma belongs before the module header.
-/
def isHeader (pragma : Pragma) : Bool :=
  headerNames.contains pragma.name || pragma.name.startsWith "OPTIONS"

/--
The beginning of a text up to a double colon.
-/
def beforeColons : List Char → List Char
  | ':' :: ':' :: _ => []
  | c :: cs => c :: beforeColons cs
  | [] => []

/--
The binder that a pragma is about. A phase in brackets before it and the parentheses around an operator
are left out.
-/
def target (pragma : Pragma) : Option String :=
  if binderNames.contains pragma.name then
    let arguments := pragma.words.drop 1
    let arguments := if arguments.head?.any (·.startsWith "[") then arguments.drop 1 else arguments
    match arguments with
    | [] => none
    | argument :: _ =>
      let cs := argument.toList
      let cs :=
        if cs.head? = some '(' ∧ cs.getLast? = some ')' ∧ 2 < cs.length then
          cs.dropLast.drop 1
        else
          cs
      match beforeColons cs with
      | [] => none
      | name => some (String.ofList name)
  else
    none

end Pragma

end HaskellStyle
