import HaskellStyle.Proofs.Print.Chain
import HaskellStyle.Proofs.Print.Retrace
import HaskellStyle.Proofs.Rule.Apply
import HaskellStyle.Proofs.Rule.Limit
import HaskellStyle.Proofs.Rule.Part
import HaskellStyle.Proofs.Rule.Printable

/-!
This module contains that what is written anew has a shape that can be written: reading leaves no part of a declaration
without tokens, and only parts with tokens of one line are laid out.
-/

namespace HaskellStyle

variable {settings : Settings}

/--
A data declaration of which no part is without tokens.
-/
structure DataDecl.Filled (d : DataDecl) : Prop where
  head : d.head ≠ []
  fields : ∀ c ∈ d.constructors, ∀ r ∈ c.record, ∀ f ∈ r.items, f.type ≠ []
  classes : ∀ clause ∈ d.derivings, clause.classes ≠ []

/--
A declaration of which no part is without tokens.
-/
def Declaration.Filled : Declaration → Prop
  | .signature s => s.names ≠ [] ∧ s.type ≠ []
  | .data d => d.Filled
  | .clause _ _ | .importing _ | .pragma _ | .raw _ => True

section Reading

theorem Field.type_ofEntry? {entry : Entry} {f : Field} (h : ofEntry? entry = some f) : f.type ≠ [] := by
  simp only [Option.bind_eq_bind, ofEntry?] at h
  obtain ⟨⟨names, colons, type⟩, -, h⟩ := Option.bind_eq_some_iff.1 h
  dsimp only at h
  split at h
  · cases h
  · next hempty =>
    cases h
    intro hnil
    rw [show type = [] from hnil] at hempty
    simp at hempty

theorem Constructor.type_ofTokens? {ts : List Token} {c : Constructor} (h : ofTokens? ts = some c) :
    ∀ r ∈ c.record, ∀ f ∈ r.items, f.type ≠ [] := by
  unfold ofTokens? at h
  split at h
  · split at h
    · cases h
      exact fun r hr => absurd hr (Option.not_mem_none r)
    · cases h
  · cases h
  · simp only [Option.bind_eq_bind] at h
    obtain ⟨⟨list, after⟩, -, h⟩ := Option.bind_eq_some_iff.1 h
    obtain ⟨items, hitems, h⟩ := Option.bind_eq_some_iff.1 h
    split at h
    · cases h
    · cases h
      intro r hr
      cases hr
      intro f hf
      obtain ⟨entry, -, hread⟩ := mem_of_mapM hitems f hf
      exact Field.type_ofEntry? hread

theorem Deriving.classes_ofTokens? {keyword : Token} {ts : List Token} {clause : Deriving}
    (h : ofTokens? keyword ts = some clause) : clause.classes ≠ [] := by
  simp only [ofTokens?, Option.bind_eq_bind] at h
  obtain ⟨⟨classes, via⟩, hclasses, h⟩ := Option.bind_eq_some_iff.1 h
  dsimp only at h
  split at h
  · cases h
    unfold classes? at hclasses
    split at hclasses
    · cases hclasses
    · split at hclasses
      · obtain ⟨⟨inner, rest⟩, -, heq⟩ := Option.map_eq_some_iff.1 hclasses
        cases heq
        exact List.cons_ne_nil _ _
      · split at hclasses
        · cases hclasses
          exact List.cons_ne_nil _ _
        · cases hclasses
  · cases h

theorem DataDecl.filled_ofTokens? {keyword : Token} {ts : List Token} {d : DataDecl}
    (h : ofTokens? keyword ts = some d) : d.Filled := by
  simp only [ofTokens?, Option.bind_eq_bind] at h
  obtain ⟨⟨head, equals, rest⟩, -, h⟩ := Option.bind_eq_some_iff.1 h
  dsimp only at h
  split at h
  · cases h
  · next hempty =>
    obtain ⟨first, hfirst, h⟩ := Option.bind_eq_some_iff.1 h
    obtain ⟨others, hothers, h⟩ := Option.bind_eq_some_iff.1 h
    obtain ⟨derivings, hderivings, h⟩ := Option.bind_eq_some_iff.1 h
    cases h
    refine ⟨fun hnil => ?_, fun c hc => ?_, fun clause hclause => ?_⟩
    · rw [show head = [] from hnil] at hempty
      simp at hempty
    · rcases List.mem_cons.1 hc with rfl | hc
      · exact Constructor.type_ofTokens? hfirst
      · obtain ⟨⟨bar, _⟩, hmem, rfl⟩ := List.mem_map.1 hc
        obtain ⟨_, -, hread⟩ := mem_of_mapM hothers _ hmem
        obtain ⟨_, hc, heq⟩ := Option.map_eq_some_iff.1 hread
        cases heq
        exact Constructor.type_ofTokens? hc
    · obtain ⟨_, -, hread⟩ := mem_of_mapM hderivings clause hclause
      exact Deriving.classes_ofTokens? hread

theorem Signature.filled_ofTokens? {ts : List Token} {s : Signature} (h : ofTokens? ts = some s) :
    s.names ≠ [] ∧ s.type ≠ [] := by
  simp only [ofTokens?, Option.bind_eq_bind] at h
  obtain ⟨⟨names, colons, type⟩, -, h⟩ := Option.bind_eq_some_iff.1 h
  dsimp only at h
  split at h
  · cases h
  · next hempty =>
    cases h
    simp only [Bool.or_eq_true, Bool.not_eq_true', not_or] at hempty
    obtain ⟨⟨⟨-, hnames⟩, htype⟩, -⟩ := hempty
    refine ⟨?_, ?_⟩
    · rintro rfl
      exact hnames rfl
    · rintro rfl
      exact htype rfl

theorem Declaration.filled_ofBinding (run : Run Block) : (ofBinding run).Filled := by
  unfold ofBinding
  split
  · next s hs =>
    obtain ⟨ts, -, hs⟩ := Option.bind_eq_some_iff.1 hs
    exact Signature.filled_ofTokens? hs
  · split <;> trivial

theorem Declaration.filled_ofRun (run : Run Block) : (ofRun run).Filled := by
  unfold ofRun
  dsimp only
  split
  · split <;> trivial
  · split
    · trivial
    · split
      · split
        · next d hd =>
          obtain ⟨ts, -, hd⟩ := Option.bind_eq_some_iff.1 hd
          exact DataDecl.filled_ofTokens? hd
        · trivial
      · split
        · trivial
        · exact filled_ofBinding run

theorem Module.filled_of_read {text : List Char} {m : Module} (h : read text = .ok m) :
    ∀ d ∈ m.declarations, d.Filled := by
  obtain ⟨stream, header, rest, ds, -, -, hbody, rfl⟩ := read_eq_ok h
  intro d hd
  refine forall_of_readBody hbody (fun _ => trivial) Declaration.filled_ofRun d ?_
  rw [splitImports_eq ds]
  exact List.mem_append_right _ hd

end Reading

/--
Whether parts have tokens does not depend on the layout.
-/
theorem DataDecl.filled_unlaid {d : DataDecl} : d.unlaid.Filled ↔ d.Filled := by
  have hfields : (∀ c ∈ d.unlaid.constructors, ∀ r ∈ c.record, ∀ f ∈ r.items, f.type ≠ [])
      ↔ ∀ c ∈ d.constructors, ∀ r ∈ c.record, ∀ f ∈ r.items, f.type ≠ [] := by
    rw [DerivingFormat.constructors_unlaid, List.forall_mem_map]
    refine forall₂_congr fun c _ => ?_
    cases hrecord : c.record with
    | none => simp [Constructor.unlaid, hrecord]
    | some r => simp [Constructor.unlaid, Record.unlaid, hrecord]
  have hclasses : (∀ clause ∈ d.unlaid.derivings, clause.classes ≠ []) ↔ ∀ clause ∈ d.derivings, clause.classes ≠ [] :=
    List.forall_mem_map
  exact ⟨fun h => ⟨h.head, hfields.1 h.fields, hclasses.1 h.classes⟩,
    fun h => ⟨h.head, hfields.2 h.fields, hclasses.2 h.classes⟩⟩

theorem DataDecl.Filled.of_unlaid {d d' : DataDecl} (hd : d.Filled) (h : d'.unlaid = d.unlaid) : d'.Filled :=
  filled_unlaid.1 (h ▸ filled_unlaid.2 hd)

namespace Rhs

theorem ne_nil_of_cutBefore {cuts : Int → Token → Token → Bool} {depth : Int} {previous : Token} {ts : List Token} :
    ∀ part ∈ (cutBefore cuts depth previous ts).2, part ≠ [] := by
  intro part hpart
  obtain ⟨before, after, hsplit⟩ := List.append_of_mem hpart
  obtain ⟨op, rest, rfl, -⟩ := exists_of_cutBefore (Prod.ext rfl hsplit)
  exact List.cons_ne_nil _ _

theorem ne_nil_of_terms? {body : List Token} {terms : List (List Token)} (h : terms? body = some terms) :
    ∀ term ∈ terms, term ≠ [] := by
  cases body with
  | nil =>
    cases h
    exact fun term hterm => absurd hterm List.not_mem_nil
  | cons t ts =>
    rw [terms?] at h
    split at h
    · cases h
    · cases h
      exact List.forall_mem_cons.2 ⟨List.cons_ne_nil _ _, ne_nil_of_cutBefore⟩

theorem ne_nil_of_operatorLines {body : List Token} (h : body ≠ []) :
    ∀ line ∈ operatorLines settings body, line ≠ [] := by
  have hchunks : ∀ chunk ∈ chunks (cutOperators body) body, chunk ≠ [] := by
    obtain ⟨t, ts, rfl⟩ := List.exists_cons_of_ne_nil h
    rw [chunks]
    exact List.forall_mem_cons.2 ⟨List.cons_ne_nil _ _, ne_nil_of_cutBefore⟩
  unfold operatorLines
  split
  · next first second third more hsplit =>
    rw [hsplit] at hchunks
    split
    · rw [List.forall_mem_cons] at hchunks
      exact List.forall_mem_cons.2 ⟨List.append_ne_nil_of_left_ne_nil hchunks.1 _,
        fun line hline => hchunks.2 line (List.mem_cons_of_mem _ hline)⟩
    · exact hchunks
  · exact hchunks

end Rhs

namespace Align

/--
A list that is laid out has tokens of one line.
-/
theorem isMultiline_of_listLayout? {list : ItemList Entry} {column : Int} {suffix : String} {layout : ListLayout}
    (h : listLayout? settings list column suffix = some layout) : ∀ t ∈ tokens list, t.isMultiline = false := by
  unfold listLayout? at h
  split at h
  · next hwritable =>
    simp only [listWritable, Bool.and_eq_true, Bool.not_eq_true', List.any_eq_false, Bool.not_eq_true] at hwritable
    exact hwritable.1.1.2
  · cases h

theorem nonempty_of_rhsLayout {body : List Token} {column : Int} {head : String} {layout : RhsLayout}
    (h : rhsLayout settings body column head = .ok (some layout)) : body ≠ [] := by
  rintro rfl
  simp [rhsLayout, Outside.tokens, Rhs.terms?] at h

/--
A clause that is broken has tokens of one line, and each of its lines has tokens.
-/
theorem shaped_clause {c : Clause Block} {layout : RhsLayout} (h : clauseLayout settings c = .ok (some layout)) :
    (Declaration.clause c (some layout)).Shaped settings := by
  intro laid hlaid equals body hrhs
  cases hlaid
  unfold clauseLayout at h
  split at h
  · next _ lhs equals' body' _ _ hrhs' =>
    obtain ⟨rfl, rfl⟩ : equals' = equals ∧ body' = body := Rhs.plain.inj (hrhs'.symm.trans hrhs)
    split at h
    · cases h
    · next top htop =>
      dsimp only at h
      split at h
      · cases h
      · next hguard =>
        simp only [Bool.or_eq_true, not_or, Bool.not_eq_true', Bool.not_eq_false] at hguard
        rw [Printer.topTokens_of_flat? htop]
        refine ⟨fun t ht => ?_, ?_, ?_⟩
        · rw [← Printer.topTokens_of_flat? htop] at ht
          exact Token.isMultiline_of_cleanInside hguard.1.2 t (Clause.topTokens_subset hrhs ht)
        · cases hstyle : layout.style with
          | operators => exact Printer.operatorLines_ne_nil settings top
          | application =>
            obtain ⟨first, more, hterms⟩ := terms?_of_rhsLayout h hstyle
            rw [Rhs.lines, hterms]
            exact List.cons_ne_nil _ _
        · cases hstyle : layout.style with
          | operators => exact Rhs.ne_nil_of_operatorLines (nonempty_of_rhsLayout h)
          | application =>
            obtain ⟨first, more, hterms⟩ := terms?_of_rhsLayout h hstyle
            rw [Rhs.lines, hterms]
            exact Rhs.ne_nil_of_terms? hterms
  · cases h

/--
A signature that is laid out has tokens of one line, and on several lines each part of its type has tokens.
-/
theorem shaped_signature {s : Signature} (hlayout : s.layout = none) (hs : s.names ≠ [] ∧ s.type ≠ []) :
    (Declaration.signature (signature settings s)).Shaped settings := by
  intro layout hlaid
  unfold signature at hlaid ⊢
  dsimp only at hlaid ⊢
  split at hlaid
  · rw [hlayout] at hlaid
    cases hlaid
  · next hline =>
    rw [if_neg hline]
    have hline : ∀ t ∈ tokens s, t.isMultiline = false := by
      simpa only [List.any_eq_true, not_exists, not_and, Bool.not_eq_true] using hline
    split at hlaid
    · next hone =>
      cases hlaid
      rw [if_pos hone]
      exact ⟨hline, hs.1, hs.2, nofun⟩
    · next hone =>
      rw [if_neg hone]
      split at hlaid
      · next hwritable =>
        cases hlaid
        rw [if_pos hwritable]
        simp only [signatureWritable, Bool.and_eq_true, List.all_eq_true] at hwritable
        refine ⟨hline, hs.1, hs.2, fun _ part hpart hnil => ?_⟩
        have hhead := (hwritable.2 part hpart).2
        rw [hnil] at hhead
        cases hhead
      · rw [hlayout] at hlaid
        cases hlaid

/--
A data declaration that is laid out has tokens of one line.
-/
theorem shaped_dataDecl {d : DataDecl} (hlayout : d.layout = none) (hd : d.Filled) :
    (Declaration.data (dataDecl settings d)).Shaped settings := by
  intro hlaid
  have htokens : tokens (dataDecl settings d) = tokens d := congrArg Prod.fst (contents_dataDecl settings d)
  have hfilled := hd.of_unlaid (unlaid_dataDecl settings d)
  refine ⟨?_, hfilled.head, hfilled.fields, hfilled.classes⟩
  rw [htokens]
  unfold dataDecl at hlaid
  split at hlaid
  · next hwritable =>
    simp only [dataWritable, Bool.and_eq_true, Bool.not_eq_true', List.any_eq_false, Bool.not_eq_true] at hwritable
    exact hwritable.1.1.1.1
  · rw [hlayout] at hlaid
    cases hlaid

/--
A declaration that is laid out has the shape for it.
-/
theorem shaped_declaration {d e : Declaration} (h : declaration settings d = .ok e) (hfresh : d.IsFresh)
    (hd : d.Filled) :
    e.Shaped settings := by
  cases d with
  | importing _ | pragma _ | raw _ => cases h; trivial
  | signature s =>
    cases h
    exact shaped_signature (congrArg (·.layout) (Declaration.signature.inj hfresh.1)).symm hd
  | data decl =>
    cases h
    exact shaped_dataDecl (congrArg (·.layout) (Declaration.data.inj hfresh.1)).symm hd
  | clause c layout =>
    simp only [declaration, bind, Except.bind, pure, Except.pure] at h
    split at h
    · cases h
    · next hlayout =>
      split at h
      · cases h
        exact shaped_clause hlayout
      · cases h
        obtain ⟨-, rfl⟩ := Declaration.clause.inj hfresh.1
        intro layout hlayout
        cases hlayout

/--
A header that is laid out has tokens of one line.
-/
theorem shaped_header {h : Header} (hfresh : ∀ list ∈ h.exports, list.layout = none)
    (hwhere : h.whereKeyword.text = "where") :
    (header settings h).Shaped := by
  intro hlaid
  rw [tokens_header]
  unfold header at hlaid
  split at hlaid
  · next hexports =>
    rw [Header.isRewritten, hexports] at hlaid
    cases hlaid
  · next exports hexports =>
    have hkept : ¬h.isRewritten := by
      rw [Header.isRewritten, hexports]
      simp [hfresh exports hexports]
    dsimp only at hlaid
    split at hlaid
    · exact absurd hlaid hkept
    · next hguard =>
      split at hlaid
      · exact absurd hlaid hkept
      · next layout hlayout =>
        simp only [Bool.or_eq_true, not_or, Bool.not_eq_true', Bool.not_eq_false] at hguard
        have hhead := Token.isMultiline_of_cleanInside hguard.1.1.1
        have hlist := isMultiline_of_listLayout? hlayout
        intro t ht
        rcases List.mem_append.1 ht with ht | ht
        · rcases List.mem_append.1 ht with ht | ht
          · exact hhead t (List.mem_append_left _ ht)
          · rw [hexports] at ht
            exact hlist t ht
        · rw [List.mem_singleton.1 ht, Token.isMultiline, hwhere]
          decide

/--
An import that is spaced anew has tokens of one line.
-/
theorem shaped_importDecl {i : Import} (hfresh : i.unlaid = i) : (importDecl settings i).Shaped := by
  have hkept (hlist : i.list.isSome) : i.Shaped := by
    obtain ⟨list, hlist⟩ := Option.isSome_iff_exists.1 hlist
    have hlayout : list.layout = none := by
      rw [← hfresh, Import.unlaid] at hlist
      obtain ⟨list, -, rfl⟩ := Option.map_eq_some_iff.1 hlist
      rfl
    intro hlaid
    simp [Printer.isStructured, hlist, hlayout] at hlaid
  unfold importDecl
  split
  · next hlist =>
    intro hlaid
    simp only [Printer.isStructured, hlist, Bool.and_eq_true] at hlaid
    exact Token.isMultiline_of_cleanInside hlaid.2
  · next list hlist =>
    dsimp only
    split
    · exact hkept (hlist ▸ rfl)
    · next hguard =>
      split
      · exact hkept (hlist ▸ rfl)
      · next layout hlayout =>
        simp only [Bool.or_eq_true, not_or, Bool.not_eq_true', Bool.not_eq_false, Bool.and_eq_true, not_and] at hguard
        obtain ⟨⟨hhead, -⟩, htail⟩ := hguard
        intro _ t ht
        rcases List.mem_append.1 ht with ht | ht
        · rcases List.mem_append.1 ht with ht | ht
          · exact Token.isMultiline_of_cleanInside hhead t ht
          · exact isMultiline_of_listLayout? hlayout t ht
        · have hne : i.tail.isEmpty = false := List.isEmpty_eq_false_iff.2 (List.ne_nil_of_mem ht)
          exact Token.isMultiline_of_cleanInside (htail hne) t (List.mem_cons_of_mem _ ht)

end Align

theorem DerivingFormat.shaped_declaration {p : Printer} {d : Declaration} {notes : Notes} (h : d.Shaped settings) :
    (declaration settings p d notes).1.Shaped settings := by
  cases d with
  | data decl =>
    rw [declaration_data]
    rcases dataDecl_cases decl with heq | ⟨layout, hlayout, -, heq⟩
    · rw [heq]
      exact h
    · rw [heq]
      intro _
      obtain ⟨hline, hhead, hfields, hclasses⟩ := h (hlayout ▸ rfl)
      have htokens : tokens (normalize settings decl layout) = tokens decl :=
        congrArg Prod.fst (contents_normalize settings decl layout)
      exact ⟨htokens ▸ hline, hhead, hfields, List.forall_mem_map.2 hclasses⟩
  | _ => exact h

end HaskellStyle
