import HaskellStyle.Declaration.Outside
import HaskellStyle.Declaration.Basic

/-!
This module contains bracketed lists with commas: export lists, import lists and the fields of records.
-/

namespace HaskellStyle

/--
An entry of an export or import list.
-/
structure Entry where
  first : Token
  rest : List Token
  deriving DecidableEq

instance : HasTokens Entry where
  tokens entry := entry.first :: entry.rest
  anchor := Entry.first

/--
A bracketed list. It has one comma less than items, or as many if a comma comes last.
-/
structure ItemList (ι : Type) where
  opening : Token
  items : List ι
  commas : List Token
  closing : Token
  layout : Option ListLayout := none
  deriving DecidableEq

namespace ItemList

variable {ι : Type}

/--
The tokens of items with the commas behind them.
-/
def interleave [HasTokens ι] : List ι → List Token → List Token
  | [], _ => []
  | item :: items, [] => tokens item ++ interleave items []
  | item :: items, comma :: commas => tokens item ++ comma :: interleave items commas

instance [HasTokens ι] : HasTokens (ItemList ι) where
  tokens list := list.opening :: interleave list.items list.commas ++ [list.closing]
  anchor := opening

/--
Whether a comma follows the last item.
-/
def hasTrailingComma (list : ItemList ι) : Bool :=
  !list.items.isEmpty && list.items.length ≤ list.commas.length

/--
Each item with the bracket or comma before it.
-/
def ledItems (list : ItemList ι) : List (Token × ι) :=
  (list.opening :: list.commas).zip list.items

/--
Cuts tokens at the commas up to the closing bracket of a list, inside of which `depth` brackets are open.
The first part has no comma before it.
-/
def cut? (depth : Nat) : List Token → Option (List Token × List (Token × List Token) × Token × List Token)
  | [] => none
  | t :: ts =>
    let keep := fun (part, parts, closing, rest) => (t :: part, parts, closing, rest)
    if t.isClosing then
      match depth with
      | 0 => some ([], [], t, ts)
      | depth + 1 => (cut? depth ts).map keep
    else if t.isOpening then
      (cut? (depth + 1) ts).map keep
    else if depth = 0 ∧ t.isSpecial [","] then
      (cut? depth ts).map fun (part, parts, closing, rest) => ([], (t, part) :: parts, closing, rest)
    else
      (cut? depth ts).map keep

/--
The entries that the parts between commas form. Only the last part may be empty.
-/
def entries? : List (List Token) → Option (List Entry)
  | [] => some []
  | [[]] => some []
  | [] :: _ => none
  | (t :: ts) :: parts => (entries? parts).map (⟨t, ts⟩ :: ·)

/--
The list behind an opening bracket, and the tokens behind it.
-/
def ofTokens? (opening : Token) (ts : List Token) : Option (ItemList Entry × List Token) := do
  let (part, parts, closing, rest) ← cut? 0 ts
  let items ← entries? (part :: parts.map Prod.snd)
  return ({ opening, items, commas := parts.map Prod.fst, closing }, rest)

end ItemList

end HaskellStyle
