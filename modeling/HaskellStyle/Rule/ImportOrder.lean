import HaskellStyle.Rule.Basic

/-!
This module contains the rule that groups, sorts and spaces imports, and the advice on imports and exports.
-/

namespace HaskellStyle.ImportOrder

/--
The first part of a module's name.
-/
def moduleRoot (name : String) : List Char :=
  name.toList.takeWhile (· ≠ '.')

/--
Whether an imported module belongs to the same project: it shares its root with the module, or has one of
the prefixes in the settings.
-/
def isLocal (settings : Settings) (current : Option String) (i : Import) : Bool :=
  let name := i.moduleName
  current.any (fun current =>
    current != "" && current != "Main" && moduleRoot name == moduleRoot current)
    || settings.localModulePrefixes.any fun root => name == root || name.startsWith (root ++ ".")

/--
The order of imports in a group: by module, unqualified ones first, then by text.
-/
def importLe (a b : Import) : Bool :=
  if a.moduleName != b.moduleName then
    a.moduleName < b.moduleName
  else if a.isQualified != b.isQualified then
    b.isQualified
  else
    a.spacedText ≤ b.spacedText

/--
Whether a module only passes other modules on.
-/
def isReexport (m : Module) : Bool :=
  match m.header.bind (·.exports) with
  | some exports =>
    m.declarations.isEmpty && !exports.items.isEmpty && exports.items.all (·.first.text == "module")
  | none => false

/--
The advice on one import.
-/
def importAdvice (settings : Settings) (reexport : Bool) (i : Import) : Option Diagnostic :=
  if i.isQualified then
    none
  else
    match i.list with
    | none =>
      if reexport then
        none
      else
        some {
          kind := .missingImportList
          message := s!"Unqualified import of '{i.moduleName}' has no explicit import list"
          span := spanOf i
        }
    | some list =>
      let count := list.items.length
      if !i.isHiding && settings.qualificationThreshold ≤ count then
        some {
          kind := .largeUnqualifiedImport
          message :=
            s!"Import of '{i.moduleName}' exposes {count} names; consider a qualified import"
          span := spanOf i
        }
      else
        none

/--
The advice on the exports and the imports of a module.
-/
def advice (settings : Settings) (m : Module) : List Diagnostic :=
  let exports :=
    match m.header with
    | some h =>
      if h.exports.isNone then
        [{ kind := .missingExportList
           message := s!"Module '{h.name.text}' has no explicit export list"
           span := h.name.span }]
      else
        []
    | none => []
  (exports ++ m.importDecls.filterMap (importAdvice settings (isReexport m))).filter settings.reports

/--
Whether the trivia before the first import of the source can be written anew.
-/
def isMovable (i : Import) : Bool :=
  let leading := i.keyword.leading
  !leading.any (·.kind = .byteOrderMark) && !Trivia.hasComments leading.splitLines.1

/--
The order of the groups. Origins that the settings leave out come last.
-/
def groupOrder (settings : Settings) : List ImportOrigin :=
  settings.importGroupOrder
    ++ [.external, .internal].filter fun origin => !settings.importGroupOrder.contains origin

/--
The sorted groups of imports. An origin that the settings name twice gives two groups.
-/
def groups (settings : Settings) (m : Module) : List (List Import) :=
  let (own, foreign) := m.importDecls.partition (isLocal settings m.name?)
  let ofOrigin : ImportOrigin → List Import
    | .external => foreign
    | .internal => own
  ((groupOrder settings).map fun origin => (ofOrigin origin).mergeSort importLe).filter
    fun group => !group.isEmpty

/--
The places of imports by groups.
-/
def offsets (groups : List (List Import)) : List (List Nat) :=
  groups.map (·.map (·.keyword.offset))

/--
Applies the rule. Imports among directives, or behind a comment that cannot be moved, are kept.
-/
def apply (settings : Settings) (m : Module) : RuleResult :=
  let notes : Notes := { found := advice settings m }
  match m.importDecls, minBy (·.keyword.offset) m.importDecls with
  | first :: more, some sourceFirst =>
    if m.importsReorderable && isMovable sourceFirst then
      let sorted := groups settings m
      let normalized := { m with imports := sorted, importsNormalized := true }
      let notes :=
        if offsets m.imports ≠ offsets sorted ∧ !m.importsNormalized then
          (notes.fixed settings "import-order" {
            kind := .importOrder
            message := "Group imports (external, then local) and sort them by module name"
            span := spanOf first
          }).count "imports-sorted" (more.length + 1)
        else if (m.render settings).text ≠ (normalized.render settings).text then
          notes.fixed settings "import-spacing" {
            kind := .importSpacing
            message := "Normalise spacing in the import block"
            span := spanOf first
          }
        else
          notes
      ⟨normalized, false, notes⟩
    else
      ⟨m, true, notes⟩
  | _, _ => ⟨m, true, notes⟩

end HaskellStyle.ImportOrder
