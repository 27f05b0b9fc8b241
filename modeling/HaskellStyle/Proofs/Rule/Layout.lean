import HaskellStyle.Proofs.Rule.Unlaid

/-!
This module contains that the rule for layouts does not look at layouts. What it decides about a part depends on the
part without its layout only, so a part that is laid out is laid out in the same way again and stays as it is.
-/

namespace HaskellStyle

namespace Align

variable (settings : Settings)

/--
Laying out a list again changes nothing if neither the check nor the choice depends on the layout it has.
-/
theorem lay_lay {α : Type} {lay : α → α} {laid : Option ListLayout → α} {kept : Bool} {choice : Option ListLayout}
    (h : ∀ layout, lay (laid layout)
      = if kept then laid layout else choice.elim (laid layout) fun chosen => laid (some chosen))
    (layout : Option ListLayout) : lay (lay (laid layout)) = lay (laid layout) := by
  rw [h layout]
  cases kept with
  | true => rw [if_pos rfl, h, if_pos rfl]
  | false =>
    rw [if_neg Bool.false_ne_true]
    cases choice <;> exact h _

theorem header_header (h : Header) : header settings (header settings h) = header settings h := by
  rcases header_cases settings h with heq | ⟨exports, layout, hexports, -⟩
  · rw [heq, heq]
  · obtain ⟨keyword, name, pragmas, _, whereKeyword⟩ := h
    cases hexports
    let laid (layout : Option ListLayout) : Header :=
      ⟨keyword, name, pragmas, some { exports with layout }, whereKeyword⟩
    have hlaid (layout : Option ListLayout) : header settings (laid layout)
        = if !Token.cleanInside ((laid none).head ++ [exports.opening])
            || (pragmas.getLastD name).trailing.hasComments || exports.closing.trailing.hasComments
            || whereKeyword.leading.hasComments then laid layout
          else (listLayout? settings exports
            (keyword.column + (" ".intercalate ((laid none).head.map (·.text)) ++ " ").length) " where").elim
              (laid layout) fun chosen => laid (some chosen) := by
      refine if_congr Iff.rfl rfl ?_
      dsimp only
      split
      all_goals
        next hchoice => exact (congrArg (·.elim (laid layout) fun chosen => laid (some chosen)) hchoice).symm
    exact lay_lay hlaid exports.layout

theorem importDecl_importDecl (i : Import) :
    importDecl settings (importDecl settings i) = importDecl settings i := by
  rcases importDecl_cases settings i with heq | ⟨list, layout, hlist, -⟩
  · rw [heq, heq]
  · obtain ⟨keyword, words, _, tail⟩ := i
    cases hlist
    let laid (layout : Option ListLayout) : Import := ⟨keyword, words, some { list with layout }, tail⟩
    have hlaid (layout : Option ListLayout) : importDecl settings (laid layout)
        = if !Token.cleanInside (laid none).head || (laid none).lastOfHead.trailing.hasComments
            || (!tail.isEmpty && !Token.cleanInside (list.closing :: tail)) then laid layout
          else (listLayout? settings list
            (keyword.column + (" ".intercalate ((laid none).head.map (·.text)) ++ " ").length)
            (if tail.isEmpty then "" else " " ++ Token.flat tail)).elim
              (laid layout) fun chosen => laid (some chosen) := by
      refine if_congr Iff.rfl rfl ?_
      dsimp only
      split
      all_goals
        next hchoice => exact (congrArg (·.elim (laid layout) fun chosen => laid (some chosen)) hchoice).symm
    exact lay_lay hlaid list.layout

theorem signature_signature (s : Signature) : signature settings (signature settings s) = signature settings s := by
  have hlaid (layout : Option ListLayout) : signature settings { s with layout := layout }
      = if (tokens s).any (·.isMultiline) then { s with layout := layout }
        else if Token.cleanInside (tokens s) && !(Token.spansLines (tokens s) && 1 < s.parts.length)
          && fits settings (firstToken s).column s.flat then { s with layout := some .singleLine }
        else if signatureWritable s then { s with layout := some .multiLine }
        else { s with layout := layout } := rfl
  have hself := hlaid s.layout
  rw [show signature settings { s with layout := s.layout } = signature settings s from rfl] at hself
  split at hself
  · rw [hself, hself]
  · split at hself
    · rw [hself, hlaid]
      simp only [*, if_true, if_false, Bool.false_eq_true]
    · split at hself
      · rw [hself, hlaid]
        simp only [*, if_true, if_false, Bool.false_eq_true]
      · rw [hself, hself]

section Constructor

theorem tokens_unlaid (c : Constructor) : tokens c.unlaid = tokens c := by
  obtain ⟨first, more, record, after⟩ := c
  cases record <;> rfl

theorem flat_unlaid (c : Constructor) : c.unlaid.flat = c.flat := by
  obtain ⟨first, more, record, after⟩ := c
  cases record <;> rfl

theorem constructorWritable_unlaid (c : Constructor) : constructorWritable c.unlaid = constructorWritable c := by
  obtain ⟨first, more, record, after⟩ := c
  cases record <;> rfl

theorem record_record (layout : ListLayout) (r : Record) :
    record settings layout (record settings layout r) = record settings layout r := by
  cases layout <;> rfl

theorem constructor_constructor (layout : ListLayout) (c : Constructor) :
    constructor settings layout (constructor settings layout c) = constructor settings layout c := by
  simp only [constructor, Option.map_map]
  exact congrArg (fun r => { c with record := r : Constructor })
    (Option.map_congr fun r _ => record_record settings layout r)

/--
The layout of a constructor on a line of its own.
-/
def sumLayout (column : Int) (c : Constructor) (r : Record) : ListLayout :=
  if r.items.isEmpty || (!Token.haveComments (tokens r) && !(Token.spansLines (tokens r) && 1 < r.items.length)
      && fits settings column (padRight "" settings.indentWidth ++ "| " ++ c.flat)) then
    .singleLine
  else
    .multiLine

theorem sumConstructor_eq (column : Int) (c : Constructor) :
    sumConstructor settings column c
      = match c.record with
        | none => c
        | some r => constructor settings (sumLayout settings column c r) c := by
  unfold sumConstructor sumLayout
  cases c.record <;> rfl

theorem sumLayout_of_unlaid {column : Int} {c c' : Constructor} {r r' : Record} (hc : c'.unlaid = c.unlaid)
    (hr : r'.unlaid = r.unlaid) : sumLayout settings column c' r' = sumLayout settings column c r := by
  have hflat : c'.flat = c.flat := by rw [← flat_unlaid, hc, flat_unlaid]
  have hitems : r'.items = r.items := congrArg (·.items) hr
  have htokens : tokens r'.unlaid = tokens r.unlaid := congrArg tokens hr
  rw [show tokens r'.unlaid = tokens r' from rfl, show tokens r.unlaid = tokens r from rfl] at htokens
  rw [sumLayout, sumLayout, hflat, hitems, htokens]

theorem sumConstructor_sumConstructor (column : Int) (c : Constructor) :
    sumConstructor settings column (sumConstructor settings column c) = sumConstructor settings column c := by
  cases hrecord : c.record with
  | none => simp only [sumConstructor_eq, hrecord]
  | some r =>
    have hlaid : sumConstructor settings column c = constructor settings (sumLayout settings column c r) c := by
      rw [sumConstructor_eq, hrecord]
    have hrecord' : (constructor settings (sumLayout settings column c r) c).record
        = some (record settings (sumLayout settings column c r) r) := by
      rw [constructor, hrecord]
      rfl
    have hr : (record settings (sumLayout settings column c r) r).unlaid = r.unlaid := by
      cases sumLayout settings column c r <;> rfl
    rw [hlaid, sumConstructor_eq, hrecord']
    dsimp only
    rw [sumLayout_of_unlaid settings (unlaid_constructor settings _ c) hr, constructor_constructor]

end Constructor

section Data

/--
How the constructors of a data declaration are laid out, if they are.
-/
def dataLayout? (d : DataDecl) : Option ((Constructor → Constructor) × ListLayout) :=
  if dataWritable d then
    let comments := !Token.cleanInside (tokens d) || (lastToken d).trailing.hasComments
    let spread :=
      match d.singleRecord? with
      | some r => Token.spansLines (tokens r) && 1 < r.items.length
      | none =>
        Token.spansLines (d.equals :: d.constructors.flatMap tokens) && 1 < d.constructors.length
    if !comments && !spread && fits settings d.keyword.column (d.flat ++ inlineDerivings d) then
      some (constructor settings .singleLine, .singleLine)
    else
      match d.singleRecord? with
      | some r => if r.items.isEmpty then none else some (constructor settings .multiLine, .multiLine)
      | none => some (sumConstructor settings d.keyword.column, .multiLine)
  else
    none

theorem dataDecl_eq (d : DataDecl) :
    dataDecl settings d
      = match dataLayout? settings d with
        | none => d
        | some (f, layout) => mapConstructors f layout d := by
  unfold dataDecl dataLayout?
  split
  · cases d.singleRecord? with
    | some r =>
      dsimp only
      split
      · rfl
      · split <;> rfl
    | none =>
      dsimp only
      split <;> rfl
  · rfl

theorem singleRecord?_unlaid (d : DataDecl) : d.unlaid.singleRecord? = d.singleRecord?.map Record.unlaid := by
  obtain ⟨keyword, head, equals, constructor, others, derivings, layout, derivingLayout⟩ := d
  cases others <;> rfl

theorem tokens_dataDecl_unlaid (d : DataDecl) : tokens d.unlaid = tokens d := by
  simp only [DataDecl.tokens_eq, DataDecl.bodyTokens, DataDecl.ledConstructors, DataDecl.unlaid, List.flatMap_cons,
    List.flatMap_map, tokens_unlaid]
  rfl

theorem dataWritable_unlaid (d : DataDecl) : dataWritable d.unlaid = dataWritable d := by
  unfold dataWritable
  rw [tokens_dataDecl_unlaid]
  simp only [DataDecl.ledConstructors, DataDecl.unlaid, List.all_cons, List.all_map, Function.comp_def,
    constructorWritable_unlaid]
  rfl

theorem inlineDerivings_unlaid (d : DataDecl) : inlineDerivings d.unlaid = inlineDerivings d := by
  obtain ⟨keyword, head, equals, constructor, others, derivings, layout, derivingLayout⟩ := d
  rcases derivings with _ | ⟨clause, _ | ⟨second, more⟩⟩ <;> rfl

theorem flat_dataDecl_unlaid (d : DataDecl) : d.unlaid.flat = d.flat := by
  unfold DataDecl.flat
  rw [DerivingFormat.constructors_unlaid, List.map_map]
  simp only [Function.comp_def, flat_unlaid]
  rfl

theorem dataLayout?_unlaid (d : DataDecl) : dataLayout? settings d.unlaid = dataLayout? settings d := by
  have hlast : lastToken d.unlaid = lastToken d := by
    unfold lastToken
    rw [tokens_dataDecl_unlaid]
    rfl
  have hconstructors : d.unlaid.constructors.flatMap tokens = d.constructors.flatMap tokens := by
    rw [DerivingFormat.constructors_unlaid, List.flatMap_map]
    simp only [tokens_unlaid]
  have hlength : d.unlaid.constructors.length = d.constructors.length := by
    rw [DerivingFormat.constructors_unlaid, List.length_map]
  unfold dataLayout?
  rw [dataWritable_unlaid, tokens_dataDecl_unlaid, hlast, hconstructors, hlength, flat_dataDecl_unlaid,
    inlineDerivings_unlaid, singleRecord?_unlaid]
  cases d.singleRecord? <;> rfl

/--
What is done to a constructor, done twice, is done once.
-/
theorem of_dataLayout? {d : DataDecl} {f : Constructor → Constructor} {layout : ListLayout}
    (h : dataLayout? settings d = some (f, layout)) : (∀ c, (f c).unlaid = c.unlaid) ∧ ∀ c, f (f c) = f c := by
  have hconstructor (layout : ListLayout) : (∀ c, (constructor settings layout c).unlaid = c.unlaid)
      ∧ ∀ c, constructor settings layout (constructor settings layout c) = constructor settings layout c :=
    ⟨unlaid_constructor settings layout, constructor_constructor settings layout⟩
  unfold dataLayout? at h
  split at h
  · cases hrecord : d.singleRecord? with
    | some r =>
      simp only [hrecord] at h
      split at h
      · cases h
        exact hconstructor _
      · split at h <;> cases h
        exact hconstructor _
    | none =>
      simp only [hrecord] at h
      split at h <;> cases h
      · exact hconstructor _
      · exact ⟨unlaid_sumConstructor settings _, sumConstructor_sumConstructor settings _⟩
  · cases h

theorem dataDecl_dataDecl (d : DataDecl) : dataDecl settings (dataDecl settings d) = dataDecl settings d := by
  have hsame : dataLayout? settings (dataDecl settings d) = dataLayout? settings d := by
    rw [← dataLayout?_unlaid, unlaid_dataDecl, dataLayout?_unlaid]
  cases hlayout : dataLayout? settings d with
  | none =>
    have hkept : dataDecl settings d = d := by rw [dataDecl_eq, hlayout]
    rw [hkept, hkept]
  | some decision =>
    obtain ⟨f, layout⟩ := decision
    obtain ⟨-, hf⟩ := of_dataLayout? settings hlayout
    have hlaid : dataDecl settings d = mapConstructors f layout d := by rw [dataDecl_eq, hlayout]
    rw [dataDecl_eq settings (dataDecl settings d), hsame, hlayout, hlaid]
    simp only [mapConstructors, List.map_map, Function.comp_def, hf]

end Data

variable {settings}

/--
A declaration that is laid out is laid out already.
-/
theorem declaration_declaration {d e : Declaration} (h : declaration settings d = .ok e) :
    declaration settings e = .ok e := by
  cases d with
  | data decl =>
    cases h
    exact congrArg (fun d => Except.ok (Declaration.data d)) (dataDecl_dataDecl settings decl)
  | signature s =>
    cases h
    exact congrArg (fun s => Except.ok (Declaration.signature s)) (signature_signature settings s)
  | clause c layout =>
    simp only [declaration, bind, Except.bind, pure, Except.pure] at h
    cases hlayout : clauseLayout settings c with
    | error e => simp [hlayout] at h
    | ok decision =>
      simp only [hlayout] at h
      cases decision <;>
        · cases h
          simp [declaration, hlayout, bind, Except.bind, pure, Except.pure]
  | importing i => cases h; rfl
  | pragma p => cases h; rfl
  | raw run => cases h; rfl

theorem exists_declarations {ds es : List Declaration} (p : Printer)
    (h : List.Forall₂ (fun d e => declaration settings d = .ok e) ds es) (notes : Notes) :
    ∃ notes', declarations settings p ds notes = .ok (es, notes') := by
  induction h generalizing notes with
  | nil => exact ⟨notes, rfl⟩
  | cons hd _ ih =>
    simp only [declarations, bind, Except.bind, pure, Except.pure, hd]
    split
    · next herror =>
      obtain ⟨notes', hmore⟩ := ih _
      rw [hmore] at herror
      cases herror
    · next hok =>
      obtain ⟨notes', hmore⟩ := ih _
      rw [hmore] at hok
      cases hok
      exact ⟨_, rfl⟩

/--
The rule succeeds if it lays out every declaration.
-/
theorem exists_apply {m : Module} {ds : List Declaration}
    (h : List.Forall₂ (fun d e => declaration settings d = .ok e) m.declarations ds) :
    ∃ result, apply settings m = .ok result ∧ result.module = { m with
      header := m.header.map (header settings)
      imports := m.imports.map (·.map (importDecl settings))
      declarations := ds } := by
  have hok : ∃ result, apply settings m = .ok result := by
    unfold apply
    simp only [bind, Except.bind, pure, Except.pure]
    split
    · next herror =>
      obtain ⟨notes', hmore⟩ := exists_declarations (Printer.ofModule settings m) h _
      rw [hmore] at herror
      cases herror
    · exact ⟨_, rfl⟩
  obtain ⟨result, hresult⟩ := hok
  obtain ⟨es, hes, hmodule⟩ := apply_ok hresult
  have hunique : Relator.RightUnique fun d e => declaration settings d = .ok e := fun d e e' he he' =>
    Except.ok.inj (he.symm.trans he')
  have heq : es = ds := List.right_unique_forall₂' hunique hes h
  exact ⟨result, hresult, heq ▸ hmodule⟩

theorem declarations_declarations {ds es : List Declaration}
    (h : List.Forall₂ (fun d e => declaration settings d = .ok e) ds es) :
    List.Forall₂ (fun d e => declaration settings d = .ok e) es es := by
  induction h with
  | nil => exact .nil
  | cons hd _ ih => exact .cons (declaration_declaration hd) ih

/--
What the rule makes of a module, it leaves alone.
-/
theorem apply_apply {m : Module} {result : RuleResult} (h : apply settings m = .ok result) :
    ∃ again, apply settings result.module = .ok again ∧ again.module = result.module := by
  obtain ⟨ds, hds, hmodule⟩ := apply_ok h
  rw [hmodule]
  obtain ⟨again, hagain, hmodule'⟩ := exists_apply (m := { m with
    header := m.header.map (header settings)
    imports := m.imports.map (·.map (importDecl settings))
    declarations := ds }) (declarations_declarations hds)
  refine ⟨again, hagain, ?_⟩
  rw [hmodule']
  simp only [Option.map_map, List.map_map, Function.comp_def, header_header, importDecl_importDecl]

end Align

end HaskellStyle
