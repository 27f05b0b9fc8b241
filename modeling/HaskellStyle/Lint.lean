import HaskellStyle.Rule.Deriving
import HaskellStyle.Rule.ImportOrder
import HaskellStyle.Rule.Names

/-!
This module contains the linter, which gives advice on a module as it is written.
-/

namespace HaskellStyle

/--
The ranges of tokens and comments of several lines.
-/
def Token.shieldedRanges (ts : List Token) : List (Nat × Nat) :=
  let ranges := ts.flatMap fun t =>
    let pieces := (t.leading ++ t.trailing).filter (·.isMultiline)
    pieces.map (fun piece => (piece.position.offset, piece.position.offset + piece.text.length))
      ++ if t.isMultiline then [(t.offset, t.stop)] else []
  ranges.mergeSort LineEdit.rangeLe

/--
The edits that normalize the line ends of a module's text.
-/
def Module.lineEdits (m : Module) (text : List Char) : List LineEdit :=
  LineEdit.ofText m.newline.text.toList text (Token.shieldedRanges (tokens m))

namespace Lint

/--
The bindings at the top of a module without a signature, each name once.
-/
def missingSignatures (m : Module) : List Diagnostic :=
  let signed := m.declarations.flatMap fun
    | .signature s => s.binders
    | _ => []
  let binders := m.declarations.filterMap fun
    | .clause c _ => c.equation.binder
    | _ => none
  (Names.firsts (·.text) (binders.filter fun t => !signed.contains t.text)).map fun t =>
    { kind := .missingSignature
      message := s!"Top-level binding '{t.text}' has no type signature"
      span := t.span }

/--
The records among several constructors.
-/
def recordsInSumTypes (m : Module) : List Diagnostic :=
  let constructors := ((DerivingFormat.dataDecls m).filter (!·.others.isEmpty)).flatMap (·.constructors)
  (constructors.filter (·.record.isSome)).map fun c =>
    let name := (c.name.map (·.text)).getD "constructor"
    { kind := .recordInSumType
      message := s!"Record syntax in sum type constructor '{name}' creates partial field selectors"
      span := (firstToken c).span }

/--
Whether a body outside of brackets has nothing but names and literals, so that it is one call.
-/
def isCall (body : List Token) : Bool :=
  !(Outside.tokens 0 body).any fun t =>
    t.isOperator || t.kind = .reservedId || t.kind = .reservedOp || t.isSpecial ["\x60"]

/--
An equation `f x = g x` without the argument that both sides end with.
-/
def etaReduction? (c : Clause Block) : Option String := do
  let lhs ← Segment.flat? c.equation.lhs
  match c.equation.rhs with
  | .guarded _ _ => none
  | .plain equals body =>
    let body ← Segment.flat? body
    let argument ← lhs.getLast?
    let last ← body.getLast?
    let before ← body.dropLast.getLast?
    if 2 ≤ lhs.length && lhs.all (·.kind = .varId)
        && last.kind = .varId && last.text == argument.text
        && !(body.dropLast ++ lhs.dropLast).any (·.text == argument.text)
        && isCall body.dropLast
        && Token.hasGap before last then
      some (Token.flat (lhs.dropLast ++ [equals]) ++ " " ++ Token.flat body.dropLast)
    else
      none

/--
The functions of one equation that need not name their last argument.
-/
def etaReducible (m : Module) : List Diagnostic :=
  let clauses := m.declarations.filterMap fun
    | .clause c _ => c.equation.binder.map (c, ·.text)
    | _ => none
  clauses.filterMap fun (c, name) =>
    if (clauses.filter (·.2 == name)).length = 1 && c.locals.isNone then
      (etaReduction? c).map fun reduced =>
        { kind := .etaReducible
          message := s!"'{name}' can be written point-free: {reduced}"
          span := spanOf c
          fix := some ⟨spanOf c, reduced⟩ }
    else
      none

/--
The lines that end in blanks.
-/
def trailingBlanks (m : Module) (text : List Char) : List Diagnostic :=
  let index := LineIndex.ofText text
  ((m.lineEdits text).filter (·.kind = .trailingBlanks)).map fun edit =>
    { kind := .trailingWhitespace
      message := "Trailing whitespace"
      span := index.spanFrom edit.start (edit.stop - edit.start) }

/--
The first tab between tokens on each line.
-/
def tabs (m : Module) (text : List Char) : List Diagnostic :=
  let index := LineIndex.ofText text
  let pieces := (tokens m).flatMap fun t => t.leading ++ t.trailing
  let tabbed := pieces.filter fun piece => piece.kind = .blanks && piece.text.toList.contains '\t'
  (Names.firsts (·.position.line) tabbed).map fun piece =>
    let offset := piece.position.offset + (piece.text.toList.takeWhile (· ≠ '\t')).length
    { kind := .tabCharacter
      message := "Tab character in indentation or spacing"
      span := index.spanFrom offset 1 }

end Lint

/--
The advice on a module with the given text.
-/
def Module.lint (settings : Settings) (m : Module) (text : List Char) :
    Except RuleError (List Diagnostic) := do
  let names ← Names.advice settings m
  let found := names ++ Lint.missingSignatures m ++ Lint.recordsInSumTypes m ++ Lint.etaReducible m
    ++ longLines settings text ++ Lint.trailingBlanks m text ++ Lint.tabs m text
    ++ DerivingFormat.lazyFields settings m ++ DerivingFormat.repeatedClasses settings m
    ++ ImportOrder.advice settings m
  return Diagnostic.sort (found.filter settings.reports)

end HaskellStyle
