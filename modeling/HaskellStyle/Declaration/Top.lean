import HaskellStyle.Declaration.Clause
import HaskellStyle.Declaration.Data
import HaskellStyle.Declaration.Import

/-!
This module contains the declarations at the top of a module.
-/

namespace HaskellStyle

/--
A declaration. Imports that follow other declarations stay where they are, and what has no form of its own
is kept as it is.
-/
inductive Declaration where
  | importing (i : Import)
  | pragma (p : Pragma)
  | signature (s : Signature)
  | data (d : DataDecl)
  | clause (c : Clause Block) (layout : Option RhsLayout)
  | raw (run : Run Block)

instance : HasTokens (Run Block) where
  tokens run := Segment.tokens run.segments
  anchor := Run.first

namespace Declaration

instance : HasTokens Declaration where
  tokens
    | .importing i => tokens i
    | .pragma p => tokens p
    | .signature s => tokens s
    | .data d => tokens d
    | .clause c _ => tokens c
    | .raw run => tokens run
  anchor
    | .importing i => HasTokens.anchor i
    | .pragma p => HasTokens.anchor p
    | .signature s => HasTokens.anchor s
    | .data d => HasTokens.anchor d
    | .clause c _ => HasTokens.anchor c
    | .raw run => HasTokens.anchor run

/--
The keywords of declarations that are kept as they are.
-/
def rawKeywords : List String :=
  ["type", "class", "instance", "deriving", "infix", "infixl", "infixr", "foreign", "default", "module"]

/--
Whether a run declares a pattern synonym.
-/
def isPatternSynonym (run : Run Block) : Bool :=
  run.first.kind = .varId && run.first.text == "pattern"
    && (run.rest.head?.bind Segment.token?).any (·.kind = .conId)

/--
The declaration of a run that begins with no keyword of a declaration: a signature, a clause, or else
something to be kept.
-/
def ofBinding (run : Run Block) : Declaration :=
  match (Segment.flat? run.segments).bind Signature.ofTokens? with
  | some s => .signature s
  | none =>
    match Clause.ofSegments? Item.isEquals run.segments with
    | some c => .clause c none
    | none => .raw run

/--
The declaration that a run is. Keywords decide first; an import with a block is not an import.
-/
def ofRun (run : Run Block) : Declaration :=
  let rest := Segment.flat? run.rest
  if run.first.isKeyword ["import"] && rest.isSome then
    match rest.bind (Import.ofTokens? run.first) with
    | some i => .importing i
    | none => .raw run
  else if run.first.kind = .pragma && run.rest.isEmpty then
    .pragma { token := run.first }
  else if run.first.isKeyword ["data", "newtype"] then
    match rest.bind (DataDecl.ofTokens? run.first) with
    | some d => .data d
    | none => .raw run
  else if run.first.isKeyword rawKeywords || isPatternSynonym run then
    .raw run
  else
    ofBinding run

end Declaration

end HaskellStyle
