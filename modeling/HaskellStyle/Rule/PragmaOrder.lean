import HaskellStyle.Rule.Basic

/-!
This module contains the rule for pragmas. Header pragmas are put in order, and a pragma about a binder
goes directly behind the last signature or clause of the binder.
-/

namespace HaskellStyle.PragmaOrder

/--
What header pragmas are sorted by: their block, and language pragmas by their first extension.
-/
def sortKey (p : Pragma) : Nat × String :=
  (p.blockIndex, if p.blockIndex = 1 then p.extensions.headD "" else "")

/--
The order of header pragmas.
-/
def pragmaLe (a b : Pragma) : Bool :=
  let (i, x) := sortKey a
  let (j, y) := sortKey b
  i < j || (i == j && x ≤ y)

/--
Puts header pragmas in order, unless comments or directives stand between them. Returns nothing if the
module is kept.
-/
def header? (settings : Settings) (m : Module) (notes : Notes) : Option (Module × Notes) :=
  match m.headerPragmas with
  | [] => none
  | first :: more =>
    if m.pragmasNormalized || !more.all (·.token.leading.ownLineOnly) then
      none
    else
      let sorted := m.headerPragmas.mergeSort pragmaLe
      let p := Printer.ofModule settings m
      let before := (p.verbatimInside (m.headerPragmas.map (·.token)) p.start).text
      let after := (p.headerPragmas sorted false p.start).text
      let notes :=
        if before == after then
          notes
        else
          notes.fixed settings "header-pragmas" {
            kind := .pragmaOrder
            message :=
              if sorted = m.headerPragmas then
                "Normalise header pragma spacing and alignment"
              else
                "Order header pragmas: OPTIONS_GHC, then LANGUAGE sorted by extension"
            span := first.token.span
          }
      some ({ m with headerPragmas := sorted, pragmasNormalized := true }, notes)

/--
The names that a declaration is about.
-/
def bindersOf : Declaration → List String
  | .signature s => s.binders
  | .clause c _ => (c.equation.binder.map (·.text)).toList
  | _ => []

/--
The index of the last declaration about a name.
-/
def owner? (declarations : List Declaration) (name : String) : Option Nat :=
  let named := declarations.map fun d => (bindersOf d).contains name
  (named.reverse.findIdx? id).map fun index => declarations.length - 1 - index

/--
The index of the declaration behind which a pragma goes. Only pragmas at the left margin on lines of their
own, away from directives, are moved.
-/
def destination? (declarations : List Declaration) (p : Pragma) : Option Nat := do
  let owner ← owner? declarations (← p.target)
  if p.token.column = 0 && !p.token.leading.hasDirective && p.token.leading.hasNewline then
    some owner
  else
    none

/--
The index of the declaration behind which a declaration goes.
-/
def moved? (declarations : List Declaration) : Declaration → Option (Nat × Pragma)
  | .pragma p => (destination? declarations p).map (·, p)
  | _ => none

/--
The declarations with the pragmas behind their owners.
-/
def pin (declarations : List Declaration) : List Declaration :=
  let pragmas := declarations.filterMap (moved? declarations)
  (declarations.zipIdx.filter fun (d, _) => (moved? declarations d).isNone).flatMap fun (d, index) =>
    d :: (pragmas.filter (·.1 = index)).map fun (_, p) => .pragma { p with pinned := true }

/--
The place of the declaration before the one at `offset`.
-/
def previousOffset (offset : Nat) : List Declaration → Option Nat
  | d :: e :: more =>
    if (firstToken e).offset = offset then some (firstToken d).offset else previousOffset offset (e :: more)
  | _ => none

/--
Whether a pinned pragma changes place or form, or loses a blank line.
-/
def changes (p : Printer) (before after : List Declaration) (pragma : Pragma) : Bool :=
  let offset := pragma.token.offset
  previousOffset offset before ≠ previousOffset offset after
    || p.declarationText (.pragma pragma) != p.declarationText (.pragma { pragma with pinned := false })
    || 0 < pragma.token.leading.blankLines

/--
Pins pragmas to their owners. Returns nothing if the module is kept: declarations are not at the left
margin, or no pragma has an owner.
-/
def binders? (settings : Settings) (m : Module) (notes : Notes) : Option (Module × Notes) :=
  let declarations := m.declarations
  if declarations.any (fun d => (firstToken d).column ≠ 0)
      || declarations.all (fun d => (moved? declarations d).isNone) then
    none
  else
    let p := Printer.ofModule settings m
    let pinned := pin declarations
    let note (notes : Notes) (d : Declaration) : Notes :=
      match d with
      | .pragma pragma =>
        if pragma.pinned && changes p declarations pinned pragma then
          notes.fixed settings "binder-pragmas" {
            kind := .pragmaPlacement
            message := "Place " ++ pragma.name ++ " pragma directly after the declaration of '"
              ++ pragma.target.getD "" ++ "'"
            span := pragma.token.span
          }
        else
          notes
      | _ => notes
    some ({ m with declarations := pinned }, pinned.foldl note notes)

/--
Applies the rule.
-/
def apply (settings : Settings) (m : Module) : RuleResult :=
  let (headed, kept, notes) :=
    match header? settings m {} with
    | some (module, notes) => (module, false, notes)
    | none => (m, true, {})
  match binders? settings headed notes with
  | some (module, notes) => ⟨module, false, notes⟩
  | none => ⟨headed, kept, notes⟩

end HaskellStyle.PragmaOrder
