import HaskellStyle.Declaration.ItemList

/-!
This module contains import declarations.
-/

namespace HaskellStyle

/--
An import: the keyword, the words up to the list, the list and what follows it.
-/
structure Import where
  keyword : Token
  words : List Token
  list : Option (ItemList Entry) := none
  tail : List Token := []
  deriving DecidableEq

namespace Import

/--
The tokens before the list.
-/
def head (i : Import) : List Token :=
  i.keyword :: i.words

instance : HasTokens Import where
  tokens i := i.head ++ (i.list.map tokens).getD [] ++ i.tail
  anchor := keyword

/--
The last token before the list.
-/
def lastOfHead (i : Import) : Token :=
  i.words.getLastD i.keyword

/--
The imported module.
-/
def moduleName? (i : Import) : Option String :=
  (i.words.find? fun t => t.kind = .conId || t.kind = .qualifiedConId).map (·.text)

/--
The imported module, or nothing at all.
-/
def moduleName (i : Import) : String :=
  i.moduleName?.getD ""

/--
Whether names have to be qualified.
-/
def isQualified (i : Import) : Bool :=
  i.head.any (·.text == "qualified")

/--
Whether the list names what is not imported.
-/
def isHiding (i : Import) : Bool :=
  i.head.any (·.text == "hiding")

/--
The word behind `as`.
-/
def aliasOf : List Token → Option String
  | t :: u :: more => if t.text == "as" then some u.text else aliasOf (u :: more)
  | _ => none

/--
The short name of the imported module.
-/
def moduleAlias (i : Import) : Option String :=
  aliasOf i.head

/--
The tokens of an import with one blank between them.
-/
def spacedText (i : Import) : String :=
  " ".intercalate ((tokens i).map (·.text))

/--
The import that tokens form. It has no brackets but those of its list, and names a module.
-/
def ofTokens? (keyword : Token) (ts : List Token) : Option Import := do
  let i : Import ←
    match Outside.splitBracket? "(" 0 ts with
    | none =>
      if ts.any fun t => t.isOpening || t.isClosing then
        none
      else
        some { keyword, words := ts }
    | some (words, opening, rest) => do
      let (list, tail) ← ItemList.ofTokens? opening rest
      pure { keyword, words, list := some list, tail }
  if i.moduleName?.isSome then some i else none

end Import

end HaskellStyle
