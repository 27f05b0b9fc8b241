import HaskellStyle.Rule.Basic

/-!
This module contains the rule for deriving clauses, which get parentheses and, if there are several, lines
of their own, and the advice on the strictness of fields and on classes derived twice.
-/

namespace HaskellStyle.DerivingFormat

/--
The data declarations of a module.
-/
def dataDecls (m : Module) : List DataDecl :=
  m.declarations.filterMap fun
    | .data d => some d
    | _ => none

/--
The fields of data types without a mark of strictness.
-/
def lazyFields (settings : Settings) (m : Module) : List Diagnostic :=
  let fields := ((dataDecls m).filter (!·.isNewtype)).flatMap fun d =>
    d.constructors.flatMap fun c => (c.record.map (·.items)).getD []
  let found := (fields.filter (!·.isStrict)).map fun field =>
    { kind := .missingStrictness
      message := s!"Record field '{Token.flat field.names}' has no strictness annotation"
      span := spanOf field : Diagnostic }
  found.filter settings.reports

/--
The names of which an earlier one has the same text, given the texts seen before.
-/
def repeated (seen : List String) : List Token → List Token
  | [] => []
  | t :: ts => if seen.contains t.text then t :: repeated seen ts else repeated (t.text :: seen) ts

/--
The classes that a type derives more than once.
-/
def repeatedClasses (settings : Settings) (m : Module) : List Diagnostic :=
  let found := (dataDecls m).flatMap fun d =>
    (repeated [] (d.derivings.flatMap (·.classNames))).map fun name =>
      { kind := .unnecessaryDerive
        message := s!"'{name.text}' is already derived for this type"
        span := name.span : Diagnostic }
  found.filter settings.reports

/--
A declaration with its deriving clauses in normal form.
-/
def normalize (settings : Settings) (d : DataDecl) (layout : ListLayout) : DataDecl :=
  let ownLines := 1 < d.derivings.length || layout = .multiLine
  let strategyWidth :=
    if ownLines && settings.alignment.derivingStrategies then
      (d.derivings.map (·.flatKeyword.length)).foldl max 0
    else
      0
  { d with
    derivings := d.derivings.map fun clause => { clause with parenthesize := true }
    derivingLayout := some ⟨ownLines, strategyWidth⟩ }

/--
The text of the deriving clauses of a declaration: what the declaration without them does not have.
-/
def clausesText (p : Printer) (d : DataDecl) : String :=
  let body := p.declarationText (.data { d with derivings := [] })
  String.ofList ((p.declarationText (.data d)).toList.drop body.length)

/--
The source of the deriving clauses of a declaration.
-/
def clausesSource (d : DataDecl) : String :=
  (d.derivings.head?.map (·.keyword.leading.text)).getD ""
    ++ Token.sourceThroughComments (d.derivings.flatMap tokens)

/--
Normalizes the deriving clauses of a declaration that has a layout, and notes a change.
-/
def declaration (settings : Settings) (p : Printer) (d : Declaration) (notes : Notes) :
    Declaration × Notes :=
  match d with
  | .data decl =>
    match decl.layout, decl.derivings with
    | some layout, first :: _ =>
      let normalized := normalize settings decl layout
      let text := clausesText p normalized
      let notes :=
        if text != clausesText p decl && text != clausesSource decl then
          notes.fixed settings "deriving" {
            kind := .derivingFormat
            message := "Parenthesise deriving clauses and put several clauses on their own lines"
            span := spanOf first
          }
        else
          notes
      (.data normalized, notes)
    | _, _ => (d, notes)
  | _ => (d, notes)

/--
Normalizes declarations one after the other.
-/
def declarations (settings : Settings) (p : Printer) :
    List Declaration → Notes → List Declaration × Notes
  | [], notes => ([], notes)
  | d :: more, notes =>
    let (d, notes) := declaration settings p d notes
    let (others, notes) := declarations settings p more notes
    (d :: others, notes)

/--
Applies the rule.
-/
def apply (settings : Settings) (m : Module) : RuleResult :=
  let notes : Notes := { found := lazyFields settings m ++ repeatedClasses settings m }
  let (decls, notes) := declarations settings (Printer.ofModule settings m) m.declarations notes
  ⟨{ m with declarations := decls }, false, notes⟩

end HaskellStyle.DerivingFormat
