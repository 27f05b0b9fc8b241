import HaskellStyle.Proofs.Newline.Render
import HaskellStyle.Proofs.Print.Parts
import HaskellStyle.Proofs.Rule.Printable

/-!
This module contains the rule for layouts on modules with carriage returns. The rule measures texts without line ends
only, and these are the same with carriage returns, so every part gets the layout that it gets without them.
-/

namespace HaskellStyle

open Text (crlfString)

variable (σ : Nat → Nat)

theorem Token.crlfString_words {ts : List Token} (h : cleanInside ts) :
    crlfString (" ".intercalate (ts.map (·.text))) = " ".intercalate (ts.map (·.text)) :=
  crlfString_over (over_words Text.alphabet_line (over_lines (isMultiline_of_cleanInside h)))

namespace Align

section List

variable (settings : Settings)

theorem listWritable_crlf {ι : Type} [HasTokens ι] [MapTokens ι] (list : ItemList ι) :
    listWritable (mapTokens (Token.crlf σ) list) = listWritable list := by
  have hcomma : (mapTokens (Token.crlf σ) list).hasTrailingComma = list.hasTrailingComma := by
    show (!(list.items.map (mapTokens (Token.crlf σ))).isEmpty
      && decide ((list.items.map (mapTokens (Token.crlf σ))).length ≤ (list.commas.map (Token.crlf σ)).length)) = _
    rw [List.isEmpty_map, List.length_map, List.length_map, ItemList.hasTrailingComma]
  have hitems : (mapTokens (Token.crlf σ) list).items = list.items.map (mapTokens (Token.crlf σ)) := rfl
  have hmarks : (mapTokens (Token.crlf σ) list).opening :: (mapTokens (Token.crlf σ) list).closing
      :: (mapTokens (Token.crlf σ) list).commas
    = (list.opening :: list.closing :: list.commas).map (Token.crlf σ) := rfl
  unfold listWritable
  rw [hcomma, hitems, hmarks, tokens_mapTokens, Token.any_isMultiline_crlf, List.all_map, List.all_map]
  simp only [Function.comp_def, tokens_mapTokens, firstToken_mapTokens, Token.cleanInside_crlf, Token.leading_crlf,
    Trivia.ownLineOnly_crlf]

theorem isMultiline_of_listWritable {ι : Type} [HasTokens ι] {list : ItemList ι} (h : listWritable list) :
    ∀ t ∈ tokens list, t.isMultiline = false := by
  simp only [listWritable, Bool.and_eq_true, Bool.not_eq_true', List.any_eq_false, Bool.not_eq_true] at h
  exact h.1.1.2

theorem crlfString_flat_list {list : ItemList Entry} (h : listWritable list) : crlfString list.flat = list.flat :=
  crlfString_over (ItemList.over_flat Text.alphabet_line (Token.over_lines (isMultiline_of_listWritable h)))

theorem listLayout?_crlf (list : ItemList Entry) (column : Int) (suffix : String) :
    listLayout? settings (mapTokens (Token.crlf σ) list) column suffix = listLayout? settings list column suffix := by
  have hitems : (mapTokens (Token.crlf σ) list).items = list.items.map (mapTokens (Token.crlf σ)) := rfl
  unfold listLayout?
  rw [listWritable_crlf]
  split
  · next hwritable =>
    dsimp only
    rw [hitems, tokens_mapTokens, Token.haveComments_crlf, Token.spansLines_crlf, List.isEmpty_map, List.length_map,
      ItemList.flat_crlf, crlfString_flat_list hwritable]
  · rfl

theorem header_crlf (h : Header) :
    header settings (mapTokens (Token.crlf σ) h) = mapTokens (Token.crlf σ) (header settings h) := by
  have hexports : (mapTokens (Token.crlf σ) h).exports = h.exports.map (mapTokens (Token.crlf σ)) := rfl
  have hhead : (mapTokens (Token.crlf σ) h).head = h.head.map (Token.crlf σ) := rfl
  have hkeyword : (mapTokens (Token.crlf σ) h).keyword = h.keyword.crlf σ := rfl
  have hwhere : (mapTokens (Token.crlf σ) h).whereKeyword = h.whereKeyword.crlf σ := rfl
  have hlast : (mapTokens (Token.crlf σ) h).pragmas.getLastD (mapTokens (Token.crlf σ) h).name
      = (h.pragmas.getLastD h.name).crlf σ := List.getLastD_map _ h.pragmas h.name
  unfold header
  rw [hexports, hhead, hkeyword, hwhere, hlast]
  cases hlist : h.exports with
  | none => rfl
  | some exports =>
    have hopening : h.head.map (Token.crlf σ) ++ [(mapTokens (Token.crlf σ) exports).opening]
        = (h.head ++ [exports.opening]).map (Token.crlf σ) := by
      rw [List.map_append]
      rfl
    have hclosing : (mapTokens (Token.crlf σ) exports).closing = exports.closing.crlf σ := rfl
    simp only [Option.map_some, hopening, hclosing, Token.cleanInside_crlf, Token.leading_crlf, Token.trailing_crlf,
      Trivia.hasComments_crlf]
    split
    · rfl
    · next hclean =>
      simp only [Bool.or_eq_true, not_or, Bool.not_eq_true', Bool.not_eq_false] at hclean
      rw [intercalate_text_crlf, Token.crlfString_words (Token.cleanInside_append hclean.1.1.1).1, Token.column_crlf,
        listLayout?_crlf]
      split
      · rfl
      · simp only [mapTokens, hlist, Option.map_some]

theorem importDecl_crlf (i : Import) :
    importDecl settings (mapTokens (Token.crlf σ) i) = mapTokens (Token.crlf σ) (importDecl settings i) := by
  have hlist : (mapTokens (Token.crlf σ) i).list = i.list.map (mapTokens (Token.crlf σ)) := rfl
  have hhead : (mapTokens (Token.crlf σ) i).head = i.head.map (Token.crlf σ) := rfl
  have htail : (mapTokens (Token.crlf σ) i).tail = i.tail.map (Token.crlf σ) := rfl
  have hkeyword : (mapTokens (Token.crlf σ) i).keyword = i.keyword.crlf σ := rfl
  have hlast : (mapTokens (Token.crlf σ) i).lastOfHead = i.lastOfHead.crlf σ := List.getLastD_map _ i.words i.keyword
  unfold importDecl
  rw [hlist, hhead, htail, hkeyword, hlast]
  cases hentries : i.list with
  | none => rfl
  | some list =>
    have hclosing : (mapTokens (Token.crlf σ) list).closing :: i.tail.map (Token.crlf σ)
        = (list.closing :: i.tail).map (Token.crlf σ) := rfl
    simp only [Option.map_some, hclosing, Token.cleanInside_crlf, Token.trailing_crlf, Trivia.hasComments_crlf,
      List.isEmpty_map]
    split
    · rfl
    · next hclean =>
      simp only [Bool.or_eq_true, not_or, Bool.not_eq_true', Bool.not_eq_false, Bool.and_eq_true, not_and] at hclean
      have hsuffix : (if i.tail.isEmpty then "" else " " ++ Token.flat (i.tail.map (Token.crlf σ)))
          = if i.tail.isEmpty then "" else " " ++ Token.flat i.tail := by
        split
        · rfl
        · next htail =>
          have hline := Token.isMultiline_of_cleanInside (hclean.2 (by simpa using htail))
          rw [Token.flat_crlf, Token.crlfString_flat fun t ht => hline t (List.mem_cons_of_mem _ ht)]
      rw [intercalate_text_crlf, Token.crlfString_words hclean.1.1, Token.column_crlf, hsuffix, listLayout?_crlf]
      split
      · rfl
      · simp only [mapTokens, hentries, Option.map_some]

end List

section Data

variable (settings : Settings)

theorem fieldGroups_crlf (rows : List (Token × Field)) :
    fieldGroups (rows.map fun row => (row.1.crlf σ, mapTokens (Token.crlf σ) row.2))
      = (fieldGroups rows).map (·.map (mapTokens (Token.crlf σ))) := by
  induction rows with
  | nil => rfl
  | cons row more ih =>
    cases more with
    | nil => rfl
    | cons next more =>
      rw [List.map_cons] at ih
      rw [List.map_cons, List.map_cons]
      unfold fieldGroups
      rw [ih]
      cases fieldGroups (next :: more) with
      | nil => rfl
      | cons group groups =>
        simp only [List.map_cons, Token.leading_crlf, Trivia.blankLines_crlf, firstToken_mapTokens]
        split <;> rfl

theorem flatten_fieldGroups (rows : List (Token × Field)) : (fieldGroups rows).flatten = rows.map Prod.snd := by
  induction rows with
  | nil => rfl
  | cons row more ih =>
    cases more with
    | nil => rfl
    | cons next more =>
      rw [List.map_cons, ← ih]
      conv => lhs; unfold fieldGroups
      cases hgroups : fieldGroups (next :: more) with
      | nil => simp [hgroups] at ih
      | cons group groups =>
        dsimp only
        split <;> rfl

theorem nameWidths_crlf {r : Record} (hline : ∀ t ∈ tokens r, t.isMultiline = false) :
    nameWidths settings (mapTokens (Token.crlf σ) r) = nameWidths settings r := by
  have hled : (mapTokens (Token.crlf σ) r).ledItems
      = r.ledItems.map fun row => (row.1.crlf σ, mapTokens (Token.crlf σ) row.2) := by
    show ((r.opening :: r.commas).map (Token.crlf σ)).zip (r.items.map (mapTokens (Token.crlf σ))) = _
    rw [List.zip_map]
    rfl
  have hwidth (group : List Field) (hgroup : group ∈ fieldGroups r.ledItems) :
      (group.map (mapTokens (Token.crlf σ))).map (fun field => (Token.flat field.names).length)
        = group.map fun field => (Token.flat field.names).length := by
    rw [List.map_map]
    refine List.map_congr_left fun field hfield => ?_
    have hfields : field ∈ r.ledItems.map Prod.snd := flatten_fieldGroups _ ▸ List.mem_flatten_of_mem hgroup hfield
    obtain ⟨row, hrow, rfl⟩ := List.mem_map.1 hfields
    have hnames (t : Token) (ht : t ∈ row.2.names) : t.isMultiline = false :=
      (ItemList.forall_ledItems hline row hrow).2 t (List.mem_append_left _ ht)
    have hmap : (mapTokens (Token.crlf σ) row.2).names = row.2.names.map (Token.crlf σ) := rfl
    rw [Function.comp_apply, hmap, Token.flat_crlf, Token.crlfString_flat hnames]
  unfold nameWidths
  rw [hled, fieldGroups_crlf, List.flatMap_map]
  split
  · refine congrArg List.flatten (List.map_congr_left fun group hgroup => ?_)
    dsimp only
    rw [hwidth group hgroup, List.map_map]
    rfl
  · rfl

theorem record_crlf (layout : ListLayout) {r : Record} (hline : ∀ t ∈ tokens r, t.isMultiline = false) :
    record settings layout (mapTokens (Token.crlf σ) r) = mapTokens (Token.crlf σ) (record settings layout r) := by
  cases layout with
  | singleLine => rfl
  | multiLine =>
    unfold record
    rw [nameWidths_crlf σ settings hline]
    rfl

theorem constructor_crlf (layout : ListLayout) {c : Constructor} (hline : ∀ t ∈ tokens c, t.isMultiline = false) :
    constructor settings layout (mapTokens (Token.crlf σ) c)
      = mapTokens (Token.crlf σ) (constructor settings layout c) := by
  have hrecord : (mapTokens (Token.crlf σ) c).record = c.record.map (mapTokens (Token.crlf σ)) := rfl
  have hline := Constructor.forall_record hline
  unfold constructor
  rw [hrecord]
  cases hr : c.record with
  | none => simp only [mapTokens, hr, Option.map_none]
  | some r =>
    rw [Option.map_some, Option.map_some, record_crlf σ settings layout (hline r hr)]
    simp only [mapTokens, hr, Option.map_some]

theorem sumConstructor_crlf (column : Int) {c : Constructor} (hline : ∀ t ∈ tokens c, t.isMultiline = false) :
    sumConstructor settings column (mapTokens (Token.crlf σ) c)
      = mapTokens (Token.crlf σ) (sumConstructor settings column c) := by
  have hrecord : (mapTokens (Token.crlf σ) c).record = c.record.map (mapTokens (Token.crlf σ)) := rfl
  have hflat : (mapTokens (Token.crlf σ) c).flat = c.flat := by
    rw [Constructor.flat_crlf, crlfString_over (Constructor.over_flat Text.alphabet_line (Token.over_lines hline))]
  unfold sumConstructor
  rw [hrecord, hflat]
  cases hr : c.record with
  | none => rfl
  | some r =>
    have hitems : (mapTokens (Token.crlf σ) r).items = r.items.map (mapTokens (Token.crlf σ)) := rfl
    dsimp only [Option.map_some]
    rw [hitems, List.isEmpty_map, List.length_map, tokens_mapTokens, Token.haveComments_crlf, Token.spansLines_crlf,
      constructor_crlf σ settings _ hline]

theorem constructorWritable_crlf (c : Constructor) :
    constructorWritable (mapTokens (Token.crlf σ) c) = constructorWritable c := by
  have hrecord : (mapTokens (Token.crlf σ) c).record = c.record.map (mapTokens (Token.crlf σ)) := rfl
  have hafter : (mapTokens (Token.crlf σ) c).after = c.after.map (Token.crlf σ) := rfl
  have hfirst : (mapTokens (Token.crlf σ) c).first = c.first.crlf σ := rfl
  have hlast : (mapTokens (Token.crlf σ) c).more.getLastD (c.first.crlf σ) = (c.more.getLastD c.first).crlf σ :=
    List.getLastD_map _ c.more c.first
  unfold constructorWritable
  rw [hrecord, hafter, hfirst, hlast, Constructor.before_crlf, ← List.map_append, Token.cleanInside_crlf,
    Token.cleanInside_crlf, List.isEmpty_map, Token.leading_crlf, Trivia.ownLineOnly_crlf, Token.trailing_crlf,
    Trivia.hasComments_crlf]
  cases c.record with
  | none => rfl
  | some r =>
    have hlist : (mapTokens (Token.crlf σ) r).toItemList = mapTokens (Token.crlf σ) r.toItemList := rfl
    dsimp only [Option.map_some]
    rw [hlist, listWritable_crlf]

theorem dataWritable_crlf (d : DataDecl) : dataWritable (mapTokens (Token.crlf σ) d) = dataWritable d := by
  have hhead : (mapTokens (Token.crlf σ) d).keyword :: (mapTokens (Token.crlf σ) d).head
      = (d.keyword :: d.head).map (Token.crlf σ) := rfl
  have hlast : (mapTokens (Token.crlf σ) d).head.getLastD (mapTokens (Token.crlf σ) d).keyword
      = (d.head.getLastD d.keyword).crlf σ := List.getLastD_map _ d.head d.keyword
  have hderivings : (mapTokens (Token.crlf σ) d).derivings = d.derivings.map (mapTokens (Token.crlf σ)) := rfl
  have hkeyword (clause : Deriving) : (mapTokens (Token.crlf σ) clause).keyword = clause.keyword.crlf σ := rfl
  unfold dataWritable
  rw [hhead, hlast, hderivings, tokens_mapTokens, Token.any_isMultiline_crlf, DataDecl.ledConstructors_crlf,
    List.all_map, List.all_map]
  simp only [Function.comp_def, constructorWritable_crlf, tokens_mapTokens, hkeyword, Token.cleanInside_crlf,
    Token.leading_crlf, Trivia.ownLineOnly_crlf, Token.trailing_crlf, Trivia.hasComments_crlf]

theorem isOneLine_of_dataWritable {d : DataDecl} (h : dataWritable d) : d.IsOneLine := by
  simp only [dataWritable, Bool.and_eq_true, Bool.not_eq_true', List.any_eq_false, Bool.not_eq_true] at h
  exact h.1.1.1.1

theorem others_crlf {f : Constructor → Constructor} {d : DataDecl}
    (hf : ∀ row ∈ d.others, f (mapTokens (Token.crlf σ) row.2) = mapTokens (Token.crlf σ) (f row.2)) :
    (mapTokens (Token.crlf σ) d).others.map (fun (bar, c) => (bar, f c))
      = (d.others.map fun (bar, c) => (bar, f c)).map fun (bar, c) => (bar.crlf σ, mapTokens (Token.crlf σ) c) := by
  show (d.others.map fun (bar, c) => (bar.crlf σ, mapTokens (Token.crlf σ) c)).map (fun (bar, c) => (bar, f c)) = _
  rw [List.map_map, List.map_map]
  exact List.map_congr_left fun row hrow => congrArg _ (hf row hrow)

theorem mapConstructors_crlf {f : Constructor → Constructor} (layout : ListLayout) {d : DataDecl}
    (hf : ∀ c ∈ d.constructors, f (mapTokens (Token.crlf σ) c) = mapTokens (Token.crlf σ) (f c)) :
    mapConstructors f layout (mapTokens (Token.crlf σ) d) = mapTokens (Token.crlf σ) (mapConstructors f layout d) := by
  obtain ⟨hfirst, hothers⟩ := List.forall_mem_cons.1 hf
  have hmore := others_crlf σ fun row hrow => hothers row.2 (List.mem_map_of_mem hrow)
  have hconstructor : f (mapTokens (Token.crlf σ) d).constructor = mapTokens (Token.crlf σ) (f d.constructor) := hfirst
  unfold mapConstructors
  rw [hmore, hconstructor]
  rfl

theorem inlineDerivings_crlf {d : DataDecl} (h : d.IsOneLine) :
    inlineDerivings (mapTokens (Token.crlf σ) d) = inlineDerivings d := by
  have hderivings : (mapTokens (Token.crlf σ) d).derivings = d.derivings.map (mapTokens (Token.crlf σ)) := rfl
  have hline := DataDecl.forall_derivings h
  unfold inlineDerivings
  rw [hderivings]
  match hd : d.derivings with
  | [] => rfl
  | _ :: _ :: _ => rfl
  | [clause] =>
    have hclause := hline clause (by rw [hd]; exact List.mem_singleton.2 rfl)
    have hflat := crlfString_over (Deriving.over_flat Text.alphabet_line
      (d := { clause with parenthesize := true : Deriving }) (Token.over_lines hclause) 0)
    show " " ++ (mapTokens (Token.crlf σ) { clause with parenthesize := true : Deriving }).flat 0 = _
    rw [Deriving.flat_crlf σ (.inl rfl), hflat]

theorem dataDecl_crlf (d : DataDecl) :
    dataDecl settings (mapTokens (Token.crlf σ) d) = mapTokens (Token.crlf σ) (dataDecl settings d) := by
  unfold dataDecl
  rw [dataWritable_crlf]
  split
  · next hwritable =>
    have hline := isOneLine_of_dataWritable hwritable
    have hconstructors := DataDecl.forall_constructors hline
    have hsum : (mapTokens (Token.crlf σ) d).equals :: (mapTokens (Token.crlf σ) d).constructors.flatMap tokens
        = (d.equals :: d.constructors.flatMap tokens).map (Token.crlf σ) := by
      rw [DataDecl.constructors_crlf, flatMap_tokens_map]
      rfl
    have hcolumn : (mapTokens (Token.crlf σ) d).keyword.column = d.keyword.column := Token.column_crlf σ d.keyword
    have hflat : (mapTokens (Token.crlf σ) d).flat = d.flat := by
      rw [DataDecl.flat_crlf, crlfString_over (DataDecl.over_flat Text.alphabet_line (Token.over_lines hline))]
    have hcount : (mapTokens (Token.crlf σ) d).constructors.length = d.constructors.length := by
      rw [DataDecl.constructors_crlf, List.length_map]
    have hlaid (layout : ListLayout) := mapConstructors_crlf σ layout fun c hc =>
      constructor_crlf σ settings layout (hconstructors c hc)
    dsimp only
    rw [hcolumn, hflat, inlineDerivings_crlf σ hline, tokens_mapTokens, Token.cleanInside_crlf, lastToken_mapTokens,
      Token.trailing_crlf, Trivia.hasComments_crlf, DataDecl.singleRecord?_crlf]
    cases d.singleRecord? with
    | none =>
      simp only [Option.map_none, hsum, hcount, Token.spansLines_crlf]
      split
      · exact hlaid .singleLine
      · exact mapConstructors_crlf σ .multiLine fun c hc =>
          sumConstructor_crlf σ settings d.keyword.column (hconstructors c hc)
    | some r =>
      have hitems : (mapTokens (Token.crlf σ) r).items = r.items.map (mapTokens (Token.crlf σ)) := rfl
      simp only [Option.map_some, hitems, List.isEmpty_map, List.length_map, tokens_mapTokens, Token.spansLines_crlf]
      split
      · exact hlaid .singleLine
      · split
        · rfl
        · exact hlaid .multiLine
  · rfl

end Data

section Signature

variable (settings : Settings)

theorem signatureWritable_crlf (s : Signature) : signatureWritable (mapTokens (Token.crlf σ) s) = signatureWritable s := by
  have hnames : (mapTokens (Token.crlf σ) s).names = s.names.map (Token.crlf σ) := rfl
  unfold signatureWritable
  rw [hnames, Signature.parts_crlf, List.getLast?_map, List.all_map, Token.cleanInside_crlf]
  simp only [Function.comp_def, Option.any_map, List.head?_map, Token.leading_crlf, Token.trailing_crlf,
    Trivia.hasComments_crlf, Trivia.ownLineOnly_crlf, Token.cleanInside_crlf]

theorem signature_crlf (s : Signature) :
    signature settings (mapTokens (Token.crlf σ) s) = mapTokens (Token.crlf σ) (signature settings s) := by
  unfold signature
  dsimp only
  rw [tokens_mapTokens, Token.any_isMultiline_crlf, signatureWritable_crlf, Token.cleanInside_crlf,
    Token.spansLines_crlf, firstToken_mapTokens, Token.column_crlf, Signature.parts_crlf, List.length_map]
  split
  · rfl
  · next hmultiline =>
    have hline (t : Token) (ht : t ∈ tokens s) : t.isMultiline = false := by
      simpa using List.any_eq_false.1 (Bool.eq_false_iff.2 hmultiline) t ht
    rw [Signature.flat_crlf, crlfString_over (Signature.over_flat Text.alphabet_line (Token.over_lines hline))]
    split
    · rfl
    · split <;> rfl

end Signature

section Clause

variable (settings : Settings)

theorem hasNegation_crlf (previous : Option Token) (ts : List Token) :
    hasNegation (previous.map (Token.crlf σ)) (ts.map (Token.crlf σ)) = hasNegation previous ts := by
  induction ts generalizing previous with
  | nil => rfl
  | cons t ts ih =>
    have hminus : (crlfString t.text == "-") = (t.text == "-") := Text.crlfString_beq (by decide)
    have hprevious : (previous.map (Token.crlf σ)).all (·.isOperator) = previous.all (·.isOperator) := by
      cases previous with
      | none => rfl
      | some previous => exact Token.isOperator_crlf σ previous
    rw [List.map_cons, hasNegation, hasNegation, Token.text_crlf, hminus, hprevious, ← ih (some t)]
    rfl

theorem rhsLayout_crlf {body : List Token} (hbody : ∀ t ∈ body, t.isMultiline = false) (column : Int) (head : String) :
    rhsLayout settings (body.map (Token.crlf σ)) column head = rhsLayout settings body column head := by
  have hchunk {chunk : List Token} (h : chunk ∈ Rhs.chunks (Rhs.cutOperators body) body) :
      crlfString (Token.flat chunk) = Token.flat chunk :=
    Token.crlfString_flat fun t ht => hbody t (by
      rw [← Rhs.flatten_chunks (Rhs.cutOperators body) body]
      exact List.mem_flatten_of_mem h ht)
  unfold rhsLayout
  simp only [Outside.tokens_map (Token.crlf σ), List.any_map, Function.comp_def, Token.kind_crlf, Token.isOperator_crlf,
    Token.isSpecial_crlf σ _ (show Token.AreLines ["\x60"] by decide), Rhs.terms?_crlf, Rhs.cutOperators_crlf,
    Rhs.chunks_crlf]
  rw [show hasNegation none ((Outside.tokens 0 body).map (Token.crlf σ)) = hasNegation none (Outside.tokens 0 body) from
    hasNegation_crlf σ none _]
  split
  · rfl
  · split
    · split
      · rfl
      · cases Rhs.terms? body with
        | none => rfl
        | some terms => simp only [Option.map_some, List.length_map]
    · split
      · rfl
      · match hchunks : Rhs.chunks (Rhs.cutOperators body) body with
        | [] => rfl
        | [_] => rfl
        | first :: second :: more =>
          have hmem : first ∈ Rhs.chunks (Rhs.cutOperators body) body := hchunks ▸ List.mem_cons_self
          have hfirst := hchunk hmem
          simp only [List.map_cons, List.isEmpty_map, Token.flat_crlf, hfirst]

theorem clauseLayout_crlf (c : Clause Block) :
    clauseLayout settings (mapTokens (Token.crlf σ) c) = clauseLayout settings c := by
  obtain ⟨⟨lhs, rhs⟩, locals⟩ := c
  have hlhs : (mapTokens (Token.crlf σ) (⟨⟨lhs, rhs⟩, locals⟩ : Clause Block)).equation.lhs
      = lhs.map (Segment.bimap (Token.crlf σ) (Block.map (Token.crlf σ))) := rfl
  have hrhs : (mapTokens (Token.crlf σ) (⟨⟨lhs, rhs⟩, locals⟩ : Clause Block)).equation.rhs
      = rhs.bimap (Token.crlf σ) (Block.map (Token.crlf σ)) := rfl
  have hlocals : (mapTokens (Token.crlf σ) (⟨⟨lhs, rhs⟩, locals⟩ : Clause Block)).locals
      = locals.map (WhereClause.bimap (Token.crlf σ) (Block.map (Token.crlf σ))) := rfl
  unfold clauseLayout
  rw [hlhs, hrhs, hlocals, Segment.flat?_bimap]
  cases locals with
  | some w => rfl
  | none =>
    cases hflat : Segment.flat? lhs with
    | none => rfl
    | some start =>
      cases rhs with
      | guarded first more => rfl
      | plain equals segments =>
        have hequals : Rhs.bimap (Token.crlf σ) (Block.map (Token.crlf σ)) (.plain equals segments)
            = .plain (equals.crlf σ) (segments.map (Segment.bimap (Token.crlf σ) (Block.map (Token.crlf σ)))) := rfl
        simp only [Option.map_none, Option.map_some, hequals, Segment.flat?_bimap]
        cases hbody : Segment.flat? segments with
        | none => rfl
        | some body =>
          have htokens : tokens (⟨⟨lhs, .plain equals segments⟩, none⟩ : Clause Block) = start ++ equals :: body := by
            show (Segment.tokensWith Block.tokens lhs ++ equals :: Segment.tokensWith Block.tokens segments) ++ [] = _
            rw [List.append_nil, Segment.tokensWith_of_flat? _ hflat, Segment.tokensWith_of_flat? _ hbody]
          have hhead : start.map (Token.crlf σ) ++ [equals.crlf σ] = (start ++ [equals]).map (Token.crlf σ) := by
            rw [List.map_append]
            rfl
          simp only [Option.map_some, tokens_mapTokens, firstToken_mapTokens, Token.spansLines_crlf,
            Token.cleanInside_crlf, Token.column_crlf, htokens, hhead, Token.flat_crlf]
          by_cases hclean : Token.cleanInside (start ++ equals :: body)
          · have hline := Token.isMultiline_of_cleanInside hclean
            have hstart (t : Token) (ht : t ∈ start ++ [equals]) : t.isMultiline = false :=
              hline t (by simp only [List.mem_append, List.mem_cons] at ht ⊢; tauto)
            have hrest (t : Token) (ht : t ∈ body) : t.isMultiline = false :=
              hline t (List.mem_append_right _ (List.mem_cons_of_mem _ ht))
            rw [Token.crlfString_flat hline, Token.crlfString_flat hstart, rhsLayout_crlf σ settings hrest]
          · simp only [hclean, Bool.not_false, Bool.or_true, Bool.true_or, if_true]

theorem declaration_crlf (d : Declaration) :
    declaration settings (mapTokens (Token.crlf σ) d) = (declaration settings d).map (mapTokens (Token.crlf σ)) := by
  cases d with
  | importing _ | pragma _ | raw _ => rfl
  | data decl => exact congrArg (fun d => Except.ok (Declaration.data d)) (dataDecl_crlf σ settings decl)
  | signature s => exact congrArg (fun s => Except.ok (Declaration.signature s)) (signature_crlf σ settings s)
  | clause c layout =>
    rw [Declaration.mapTokens_clause]
    unfold declaration
    dsimp only
    rw [clauseLayout_crlf]
    cases clauseLayout settings c with
    | error e => rfl
    | ok broken => cases broken <;> rfl

end Clause

section Plain

variable (settings : Settings)

/--
What a layout of constructors leaves alone behind their records.
-/
structure KeepsRecord (f : Constructor → Constructor) : Prop extends KeepsConstructor f where
  after_eq : ∀ c, (f c).after = c.after
  isSome_eq : ∀ c, (f c).record.isSome = c.record.isSome

theorem keepsRecord_constructor (layout : ListLayout) : KeepsRecord (constructor settings layout) where
  toKeepsConstructor := keepsConstructor_constructor settings layout
  after_eq _ := rfl
  isSome_eq _ := Option.isSome_map

theorem keepsRecord_sumConstructor (column : Int) : KeepsRecord (sumConstructor settings column) where
  toKeepsConstructor := keepsConstructor_sumConstructor settings column
  after_eq c := by
    unfold sumConstructor
    split <;> rfl
  isSome_eq c := by
    unfold sumConstructor
    split
    · rfl
    · exact Option.isSome_map

variable {settings}

theorem isPlain_mapConstructors {f : Constructor → Constructor} (hf : KeepsRecord f) {layout : ListLayout} {d : DataDecl}
    (h : d.IsPlain) (hwritable : dataWritable d) (hclean : layout = .singleLine → Token.cleanInside (tokens d)) :
    (mapConstructors f layout d).IsPlain := by
  have htokens : tokens (mapConstructors f layout d) = tokens d :=
    congrArg Prod.fst (contents_mapConstructors hf.toKeepsConstructor layout d)
  constructor
  case offsets => exact htokens ▸ h.offsets
  case oneLine =>
    intro _ t ht
    exact isOneLine_of_dataWritable hwritable t (htokens ▸ ht)
  case clean =>
    intro hlayout
    rw [htokens]
    exact hclean (Option.some.inj hlayout)
  case record =>
    intro _ hrecord
    have hsome : d.constructor.record.isSome := by
      unfold DataDecl.singleRecord? at hrecord
      split at hrecord
      · exact hf.isSome_eq d.constructor ▸ hrecord
      · cases hrecord
    obtain ⟨r, hr⟩ := Option.isSome_iff_exists.1 hsome
    simp only [dataWritable, DataDecl.ledConstructors, List.all_cons, constructorWritable, hr, Bool.and_eq_true] at hwritable
    show (f d.constructor).after = []
    rw [hf.after_eq]
    exact List.isEmpty_iff.1 hwritable.1.2.1.2.2.1.1.1

/--
Laying out leaves a declaration plain: the layouts that it gives are for declarations that can have them.
-/
theorem isPlain_dataDecl {d : DataDecl} (h : d.IsPlain) : (dataDecl settings d).IsPlain := by
  have hclean {spread fits : Bool}
      (h : !(!Token.cleanInside (tokens d) || (lastToken d).trailing.hasComments) && !spread && fits) :
      Token.cleanInside (tokens d) := by
    simp only [Bool.and_eq_true, Bool.not_eq_true', Bool.or_eq_false_iff, Bool.not_eq_false'] at h
    exact h.1.1.1
  unfold dataDecl
  split
  · next hwritable =>
    dsimp only
    cases d.singleRecord? with
    | none =>
      dsimp only
      split
      · next hline => exact isPlain_mapConstructors (keepsRecord_constructor settings _) h hwritable fun _ => hclean hline
      · exact isPlain_mapConstructors (keepsRecord_sumConstructor settings _) h hwritable nofun
    | some r =>
      dsimp only
      split
      · next hline => exact isPlain_mapConstructors (keepsRecord_constructor settings _) h hwritable fun _ => hclean hline
      · split
        · exact h
        · exact isPlain_mapConstructors (keepsRecord_constructor settings _) h hwritable nofun
  · exact h

theorem isPlain_declaration {d e : Declaration} (h : declaration settings d = .ok e) (hd : d.IsPlain) : e.IsPlain := by
  cases d with
  | importing _ | pragma _ | raw _ => cases h; exact hd
  | signature s => cases h; exact trivial
  | data decl => cases h; exact isPlain_dataDecl hd
  | clause c layout =>
    obtain ⟨layout, rfl⟩ := declaration_clause h
    exact trivial

theorem isPlain_withoutDerivings {d : Declaration} (h : d.IsPlain) : (withoutDerivings d).IsPlain := by
  cases d with
  | data decl => exact DataDecl.IsPlain.withoutDerivings h
  | importing _ | pragma _ | signature _ | clause _ _ | raw _ => exact h

end Plain

theorem withoutDerivings_crlf (d : Declaration) :
    withoutDerivings (mapTokens (Token.crlf σ) d) = mapTokens (Token.crlf σ) (withoutDerivings d) := by
  cases d <;> rfl

theorem fixName_crlf (d : Declaration) : fixName (mapTokens (Token.crlf σ) d) = fixName d := by
  cases d <;> rfl

section Apply

variable {σ} (hσ : Function.Injective σ) (settings : Settings)
include hσ

/--
The run: declarations with carriage returns are laid out one after the other as they are without them, and the same
fixes are noted.
-/
theorem declarations_crlf {p : Printer} (hp : p.newline = .lf) {ds : List Declaration} (hds : ∀ d ∈ ds, d.IsPlain)
    {notes notes' : Notes} (hfixes : notes'.fixes = notes.fixes) :
    (declarations settings (p.crlf σ) (ds.map (mapTokens (Token.crlf σ))) notes').map (fun r => (r.1, r.2.fixes))
      = (declarations settings p ds notes).map fun r => (r.1.map (mapTokens (Token.crlf σ)), r.2.fixes) := by
  induction ds generalizing notes notes' with
  | nil => exact congrArg (fun fixes => Except.ok ([], fixes)) hfixes
  | cons d more ih =>
    obtain ⟨hd, hmore⟩ := List.forall_mem_cons.1 hds
    rw [List.map_cons, declarations, declarations, declaration_crlf]
    cases hlaidOut : declaration settings d with
    | error e => rfl
    | ok laidOut =>
      have hbefore := Printer.declarationText_crlf hσ hp (isPlain_withoutDerivings hd)
      have hafter := Printer.declarationText_crlf hσ hp (isPlain_withoutDerivings (isPlain_declaration hlaidOut hd))
      simp only [Except.map, bind, Except.bind, withoutDerivings_crlf, hbefore, hafter, tokens_mapTokens,
        rewritesSource_crlf, fixName_crlf]
      generalize hnotes : (if rewritesSource _ _ _ then notes.fixed settings (fixName d) _ else notes) = noted
      generalize hnotes' : (if rewritesSource _ _ _ then notes'.fixed settings (fixName d) _ else notes') = noted'
      have hnoted : noted'.fixes = noted.fixes := by
        rw [← hnotes, ← hnotes']
        split
        · rw [Notes.fixes_fixed, Notes.fixes_fixed, hfixes]
        · exact hfixes
      refine map_bind_congr (ih hmore hnoted) fun r r' hr => ?_
      obtain ⟨hds, hnotes⟩ := Prod.mk.inj hr
      simp only [pure, Except.pure, Except.map, hds, hnotes, List.map_cons]

theorem declarationsResult_crlf {m : Module} (hm : m.IsPlain) (laidOut : Option Header) {notes notes' : Notes}
    (hfixes : notes'.fixes = notes.fixes) :
    (do
      let (ds, notes) ← declarations settings ((Printer.ofModule settings m).crlf σ)
        (m.declarations.map (mapTokens (Token.crlf σ))) notes'
      return (⟨{ m.crlf σ with
        header := laidOut.map (mapTokens (Token.crlf σ))
        imports := (m.crlf σ).imports.map (List.map (importDecl settings))
        declarations := ds }, false, notes⟩ : RuleResult)).map RuleResult.outcome
      = (do
        let (ds, notes) ← declarations settings (Printer.ofModule settings m) m.declarations notes
        return (⟨{ m with
          header := laidOut
          imports := m.imports.map (List.map (importDecl settings))
          declarations := ds }, false, notes⟩ : RuleResult)).map (RuleResult.crlfOutcome σ) := by
  have hmodule (ds : List Declaration) :
      { m.crlf σ with
          header := laidOut.map (mapTokens (Token.crlf σ))
          imports := (m.crlf σ).imports.map (List.map (importDecl settings))
          declarations := ds.map (mapTokens (Token.crlf σ)) : Module }
        = Module.crlf σ { m with
          header := laidOut
          imports := m.imports.map (List.map (importDecl settings))
          declarations := ds } := by
    have himports : (m.crlf σ).imports.map (List.map (importDecl settings))
        = (m.imports.map (List.map (importDecl settings))).map (List.map (mapTokens (Token.crlf σ))) := by
      show (m.imports.map (List.map (mapTokens (Token.crlf σ)))).map (List.map (importDecl settings)) = _
      simp only [List.map_map, Function.comp_def, importDecl_crlf]
    rw [himports]
    rfl
  refine map_bind_congr (declarations_crlf hσ settings hm.newline hm.declarations hfixes) fun r r' hr => ?_
  obtain ⟨hds, hnotes⟩ := Prod.mk.inj hr
  simp only [pure, Except.pure, Except.map, RuleResult.outcome, RuleResult.crlfOutcome, hds, hnotes, hmodule]

/--
The rule lays out a module with carriage returns as it does without them.
-/
theorem apply_crlf {m : Module} (hm : m.IsPlain) :
    (apply settings (m.crlf σ)).map RuleResult.outcome = (apply settings m).map (RuleResult.crlfOutcome σ) := by
  have hprinter : Printer.ofModule settings (m.crlf σ) = (Printer.ofModule settings m).crlf σ := rfl
  have hdecls : (m.crlf σ).declarations = m.declarations.map (mapTokens (Token.crlf σ)) := rfl
  have hheader : (m.crlf σ).header = m.header.map (mapTokens (Token.crlf σ)) := rfl
  unfold apply
  dsimp only
  rw [hprinter, hdecls, hheader]
  cases m.header with
  | none => exact declarationsResult_crlf hσ settings hm none rfl
  | some h =>
    have hkeyword : (mapTokens (Token.crlf σ) h).keyword = h.keyword.crlf σ := rfl
    have htext (h : Header) := Printer.headerText_crlf hσ (p := Printer.ofModule settings m) hm.newline h
    simp only [Option.map_some, header_crlf, htext, tokens_mapTokens, rewritesSource_crlf]
    split
    · refine declarationsResult_crlf hσ settings hm (some (header settings h)) ?_
      rw [Notes.fixes_fixed, Notes.fixes_fixed]
    · exact declarationsResult_crlf hσ settings hm (some (header settings h)) rfl

end Apply

/--
Laying out leaves all declarations plain.
-/
theorem isPlain_apply {settings : Settings} {m : Module} {result : RuleResult} (h : apply settings m = .ok result)
    (hm : ∀ d ∈ m.declarations, d.IsPlain) : ∀ d ∈ result.module.declarations, d.IsPlain := by
  obtain ⟨ds, hds, hmodule⟩ := apply_ok h
  rw [hmodule]
  intro e he
  obtain ⟨d, hd, hde⟩ := exists_of_forall₂ hds e he
  exact isPlain_declaration hde (hm d hd)

end Align

end HaskellStyle
