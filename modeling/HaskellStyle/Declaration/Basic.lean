import HaskellStyle.Token.Basic

/-!
This module contains what the parts of a module have in common: they own tokens, and several of them carry
a decision on how they are laid out.
-/

namespace HaskellStyle

/--
A part of a module. It has at least the token `anchor`.
-/
class HasTokens (ν : Type) where
  tokens : ν → List Token
  anchor : ν → Token

export HasTokens (tokens)

variable {ν : Type} [HasTokens ν]

/--
The first token of a part.
-/
def firstToken (node : ν) : Token :=
  (tokens node).headD (HasTokens.anchor node)

/--
The last token of a part.
-/
def lastToken (node : ν) : Token :=
  (tokens node).getLastD (HasTokens.anchor node)

/--
The characters from the first token of a part to its last.
-/
def spanOf (node : ν) : Span :=
  (firstToken node).span.cover (lastToken node).span

/--
The text of consecutive tokens with the trivia between them.
-/
def Token.textBetween : List Token → String
  | [] => ""
  | [t] => t.text
  | t :: u :: more => t.text ++ t.trailing.text ++ u.leading.text ++ textBetween (u :: more)

/--
Whether a list goes on one line or on one line per item.
-/
inductive ListLayout where
  | singleLine
  | multiLine
  deriving DecidableEq

/--
Where a long right-hand side is broken: between the arguments of a call or before its operators.
-/
inductive RhsStyle where
  | application
  | operators
  deriving DecidableEq

/--
How a long right-hand side is broken, and the column of the lines behind the first.
-/
structure RhsLayout where
  style : RhsStyle
  column : Int
  deriving DecidableEq

/--
Whether deriving clauses go on lines of their own, and the width that their strategies are padded to.
-/
structure DerivingLayout where
  ownLines : Bool
  strategyWidth : Nat
  deriving DecidableEq

end HaskellStyle
