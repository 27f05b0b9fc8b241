import HaskellStyle.Proofs.Print.Chain
import HaskellStyle.Proofs.Rule.Failure
import HaskellStyle.Proofs.Rule.Part
import HaskellStyle.Proofs.Rule.Realised
import HaskellStyle.Proofs.Text.LineIndex

/-!
This module contains what becomes of equations that are laid out as operator chains. Rules keep the equations of a
module, and only the one for alignment gives them a layout. The columns of the layout are counted from the column of
the equation, in which it is written again if it begins a line.
-/

namespace HaskellStyle

variable {settings : Settings}

/--
A declaration that stays in its place stays the first one.
-/
theorem PragmaOrder.head?_pin {d : Declaration} {ds : List Declaration} (h : d.isPragma = false) :
    (pin (d :: ds)).head? = some d := by
  have hstays : moved? (d :: ds) d = none := by
    cases d with
    | pragma p => cases h
    | _ => rfl
  have hstaying : staying (d :: ds) = (d, 0) :: (ds.zipIdx 1).filter fun e => (moved? (d :: ds) e.1).isNone := by
    rw [staying, List.zipIdx_cons, List.filter_cons_of_pos (by simp [hstays])]
  rw [pin_eq, hstaying, List.flatMap_cons]
  rfl

namespace Module

/--
The equations of a module are equations of another one. Either none of them is laid out, or all are as the rule for
alignment lays them out. If nothing precedes the declarations nothing has come before them, and an equation that comes
first still does.
-/
structure KeepsClauses (settings : Settings) (m m' : Module) : Prop where
  placements : m'.placements = m.placements
  clauses : ∀ c layout, .clause c layout ∈ m'.declarations → ∃ layout, .clause c layout ∈ m.declarations
  layouts : (∀ c layout, .clause c layout ∈ m'.declarations → layout = none)
    ∨ ∀ c layout, .clause c layout ∈ m'.declarations → Align.clauseLayout settings c = .ok layout
  bare : m.headerPragmas = [] → m.header = none → m.imports = [] →
    m'.headerPragmas = [] ∧ m'.header = none ∧ m'.imports = []
  first : ∀ c layout, m.declarations.head? = some (.clause c layout) →
    ∃ layout, m'.declarations.head? = some (.clause c layout)

namespace KeepsClauses

variable {m m' m'' : Module}

theorem refl (h : ∀ c layout, .clause c layout ∈ m.declarations → layout = none) : m.KeepsClauses settings m where
  placements := rfl
  clauses _ layout hc := ⟨layout, hc⟩
  layouts := .inl h
  bare hpragmas hheader himports := ⟨hpragmas, hheader, himports⟩
  first _ layout hc := ⟨layout, hc⟩

/--
A rule that lays out no equation keeps the equations with their layouts.
-/
theorem of_subset (h : m.KeepsClauses settings m') (hplacements : m''.placements = m'.placements)
    (hclauses : ∀ c layout, .clause c layout ∈ m''.declarations → .clause c layout ∈ m'.declarations)
    (hbare : m'.headerPragmas = [] → m'.header = none → m'.imports = [] →
      m''.headerPragmas = [] ∧ m''.header = none ∧ m''.imports = [])
    (hfirst : ∀ c layout, m'.declarations.head? = some (.clause c layout) →
      m''.declarations.head? = some (.clause c layout)) : m.KeepsClauses settings m'' where
  placements := hplacements.trans h.placements
  clauses c layout hc := h.clauses c layout (hclauses c layout hc)
  layouts := h.layouts.imp (fun hnone c layout hc => hnone c layout (hclauses c layout hc))
    fun hlaid c layout hc => hlaid c layout (hclauses c layout hc)
  bare hpragmas hheader himports := by
    obtain ⟨hpragmas, hheader, himports⟩ := h.bare hpragmas hheader himports
    exact hbare hpragmas hheader himports
  first c layout hc := by
    obtain ⟨layout, hc⟩ := h.first c layout hc
    exact ⟨layout, hfirst c layout hc⟩

end KeepsClauses

end Module

/--
The chain as which a declaration is laid out.
-/
def Declaration.chain? (settings : Settings) : Declaration → Option OperatorChain
  | .clause c (some layout) =>
    match c.equation.rhs with
    | .plain equals body =>
      match Rhs.chunks (Rhs.cutOperators (Segment.topTokens body)) (Segment.topTokens body) with
      | first :: second :: others =>
        if layout.style = .operators ∧ settings.alignment.operatorChains = .aligned ∧ others ≠ [] then
          some ⟨c, layout, equals, first, second, others⟩
        else
          none
      | _ => none
    | .guarded _ _ => none
  | _ => none

theorem Declaration.isAligned_of_chain? {d : Declaration} {chain : OperatorChain} (h : d.chain? settings = some chain) :
    d = .clause chain.clause (some chain.layout) ∧ chain.IsAligned settings := by
  unfold chain? at h
  split at h
  · next c layout =>
    split at h
    · next equals body hrhs =>
      split at h
      · next first second others hparts =>
        split at h
        · next hlaid =>
          cases h
          exact ⟨rfl, hlaid.1, hlaid.2.1, hlaid.2.2, body, hrhs, hparts⟩
        · cases h
      · cases h
    · cases h
  · cases h

namespace Align

/--
What the rule makes of an equation without a layout, or with the one that it gives.
-/
theorem clause_of_declaration {c : Clause Block} {layout : Option RhsLayout} {d : Declaration}
    (h : declaration settings d = .ok (.clause c layout)) :
    ∃ old, d = .clause c old
      ∧ (old = none ∨ clauseLayout settings c = .ok old → clauseLayout settings c = .ok layout) := by
  cases d with
  | clause c old =>
    simp only [declaration, bind, Except.bind, pure, Except.pure] at h
    split at h
    · cases h
    · next new hnew =>
      cases new with
      | some new =>
        cases h
        exact ⟨old, rfl, fun _ => hnew⟩
      | none =>
        cases h
        refine ⟨layout, rfl, fun hold => ?_⟩
        rcases hold with rfl | hold
        · exact hnew
        · exact hold
  | _ => cases h

theorem keepsClauses {m m' : Module} {result : RuleResult} (h : apply settings m' = .ok result)
    (hkept : m.KeepsClauses settings m') : m.KeepsClauses settings result.module := by
  obtain ⟨ds, hds, hmodule⟩ := apply_ok h
  have hclause (c : Clause Block) (layout : Option RhsLayout) (hc : .clause c layout ∈ ds) :
      ∃ old, .clause c old ∈ m'.declarations ∧ clauseLayout settings c = .ok layout := by
    obtain ⟨d, hd, hlaid⟩ := exists_of_forall₂ hds _ hc
    obtain ⟨old, rfl, hlayout⟩ := clause_of_declaration hlaid
    exact ⟨old, hd, hlayout (hkept.layouts.imp (fun hnone => hnone c old hd) fun hold => hold c old hd)⟩
  rw [hmodule]
  constructor
  case placements => exact hkept.placements
  case clauses =>
    intro c layout hc
    obtain ⟨old, hold, -⟩ := hclause c layout hc
    exact hkept.clauses c old hold
  case layouts =>
    refine .inr fun c layout hc => ?_
    obtain ⟨old, -, hlayout⟩ := hclause c layout hc
    exact hlayout
  case bare =>
    intro hpragmas hheader himports
    obtain ⟨hpragmas, hheader, himports⟩ := hkept.bare hpragmas hheader himports
    refine ⟨hpragmas, ?_, ?_⟩
    · rw [hheader]
      rfl
    · rw [himports]
      rfl
  case first =>
    intro c layout hc
    obtain ⟨old, hold⟩ := hkept.first c layout hc
    generalize m'.declarations = olds at hds hold
    cases hds with
    | nil => cases hold
    | cons hd hmore =>
      cases hold
      obtain ⟨new, rfl⟩ := declaration_clause hd
      exact ⟨new, rfl⟩

/--
The lines of an aligned chain begin where the operator stands at which the body was cut first.
-/
theorem column_of_rhsLayout {body first second : List Token} {others : List (List Token)} {column : Int}
    {head : String} {layout : RhsLayout} (h : rhsLayout settings body column head = .ok (some layout))
    (hstyle : layout.style = .operators) (haligned : settings.alignment.operatorChains = .aligned)
    (hothers : others ≠ []) (hparts : Rhs.chunks (Rhs.cutOperators body) body = first :: second :: others) :
    layout.column = column + head.length + (Token.flat first).length + 2 := by
  have hspread : (decide (settings.alignment.operatorChains = .aligned) && !others.isEmpty) = true := by
    simp [haligned, hothers]
  unfold rhsLayout at h
  rw [hparts] at h
  dsimp only at h
  rw [if_pos hspread] at h
  split at h
  · cases h
  · split at h
    -- A body without operators is broken as a call.
    · split at h
      · cases h
      · split at h
        · cases h
        · split at h
          · cases h
          · cases h
            cases hstyle
    · split at h
      · cases h
      · cases h
        rfl

section Chain

variable {chain : OperatorChain} (h : clauseLayout settings chain.clause = .ok (some chain.layout))
  (hchain : chain.IsAligned settings)
include h hchain

/--
An equation that is laid out as a chain is a run of tokens without comments between them, and its lines begin where the
operator stands at which its body was cut first.
-/
theorem chain_of_clauseLayout :
    tokens chain.clause = chain.tokens ∧ Token.cleanInside chain.tokens ∧ chain.clause.blocks = []
      ∧ chain.layout.column = (firstToken chain.clause).column + chain.head.length := by
  obtain ⟨body, hrhs, hparts⟩ := hchain.parts
  have hflatten := Rhs.flatten_chunks (Rhs.cutOperators (Segment.topTokens body)) (Segment.topTokens body)
  rw [hparts, List.flatten_cons, List.flatten_cons, ← List.append_assoc] at hflatten
  unfold clauseLayout at h
  split at h
  · next lhs equals segments hlocals hlhs hrhs' =>
    rw [hrhs] at hrhs'
    cases hrhs'
    split at h
    · cases h
    · next ts hbody =>
      dsimp only at h
      split at h
      · cases h
      · next hbroken =>
        rw [Printer.topTokens_of_flat? hbody] at hparts hflatten
        have htokens : tokens chain.clause = chain.tokens := by
          show chain.clause.equation.tokensWith Block.tokens ++ _ = _
          rw [hlocals, Equation.tokensWith, hrhs, Rhs.tokensWith, Segment.tokensWith_of_flat? _ hlhs,
            Segment.tokensWith_of_flat? _ hbody, ← hflatten, List.append_nil, OperatorChain.tokens,
            Printer.topTokens_of_flat? hlhs]
        simp only [Bool.or_eq_true, not_or, Bool.not_eq_true', Bool.not_eq_false] at hbroken
        refine ⟨htokens, htokens ▸ hbroken.1.2, ?_, ?_⟩
        · rw [Clause.blocks, hlocals, Equation.blocks, hrhs, Segment.blocks_of_flat? hlhs]
          simp [Segment.blocks_of_flat? hbody]
        · rw [column_of_rhsLayout h hchain.style hchain.aligned hchain.spread hparts, OperatorChain.head,
            Printer.topTokens_of_flat? hlhs, String.length_toList]
          simp only [String.length_append]
          rw [show " ".length = 1 from rfl]
          push_cast
          omega
  · cases h

end Chain

end Align

theorem PragmaOrder.keepsClauses {m m' : Module} (h : m.KeepsClauses settings m') :
    m.KeepsClauses settings (apply settings m').module := by
  obtain ⟨pragmas, ds, normalized, hmodule, hpragmas, hds⟩ := module_apply settings m'
  rw [hmodule]
  refine h.of_subset rfl (fun c layout hc => ?_) (fun hnil hheader himports => ⟨?_, hheader, himports⟩)
    fun c layout hc => ?_
  · rcases hds with rfl | rfl
    · exact hc
    · exact (mem_pin hc).resolve_right fun ⟨_, hpragma⟩ => by cases hpragma
  · exact List.perm_nil.1 (hnil ▸ hpragmas)
  · rcases hds with rfl | rfl
    · exact hc
    · obtain ⟨more, hmore⟩ := List.head?_eq_some_iff.1 hc
      show (pin m'.declarations).head? = _
      rw [hmore]
      exact head?_pin rfl

theorem DerivingFormat.keepsClauses {m m' : Module} (h : m.KeepsClauses settings m') :
    m.KeepsClauses settings (apply settings m').module := by
  have hclause {p : Printer} {d : Declaration} {notes : Notes} {c : Clause Block} {layout : Option RhsLayout}
      (hd : .clause c layout = (declaration settings p d notes).1) : d = .clause c layout := by
    cases d with
    | data d =>
      rw [declaration_data] at hd
      cases hd
    | _ => exact hd.symm
  refine h.of_subset rfl (fun c layout hc => ?_) (fun hpragmas hheader himports => ⟨hpragmas, hheader, himports⟩)
    fun c layout hc => ?_
  · obtain ⟨d, hd, notes, heq⟩ := mem_declarations hc
    rwa [← hclause heq]
  · obtain ⟨more, hmore⟩ := List.head?_eq_some_iff.1 hc
    unfold apply
    dsimp only
    rw [hmore]
    rfl

namespace Module

theorem keepsClauses_apply {m m' : Module} {rule : Rule} {result : RuleResult} (hrule : rule ≠ .indentation)
    (h : rule.apply settings m' = .ok result) (hkept : m.KeepsClauses settings m') :
    m.KeepsClauses settings result.module := by
  cases rule with
  | indentation => exact absurd rfl hrule
  | alignment => exact Align.keepsClauses h hkept
  | importOrder =>
    cases h
    rw [ImportOrder.module_apply]
    split
    · next hregroups =>
      refine hkept.of_subset rfl (fun _ _ hc => hc) (fun hpragmas hheader himports => ?_) fun _ _ hc => hc
      rw [ImportOrder.regroups, importDecls, himports, List.flatten_nil, minBy, Option.any_none, Bool.and_false]
        at hregroups
      cases hregroups
    · exact hkept
  | pragmaPlacement =>
    cases h
    exact PragmaOrder.keepsClauses hkept
  | strictnessDeriving =>
    cases h
    exact DerivingFormat.keepsClauses hkept
  | naming =>
    rw [Names.module_apply h]
    exact hkept

theorem layout_of_read {text : List Char} {m : Module} (h : read text = .ok m) (c : Clause Block)
    (layout : Option RhsLayout) (hc : .clause c layout ∈ m.declarations) : layout = none := by
  have hfresh := ((isFresh_of_read h).declarations _ hc).1
  exact (Declaration.clause.inj hfresh).2.symm

/--
After the rules in their order, or some of them, the equations are those of the module that was read. Tokens of
declarations without blocks have no placements.
-/
theorem keepsClauses_afterRules {text : List Char} {m m' : Module} {rules : List Rule} (hparse : parse text = .ok m)
    (hrules : rules.Sublist Rule.all) (h : m.afterRules settings rules = .ok m') :
    ∃ placements, KeepsClauses settings { m with placements } m'
      ∧ ∀ d ∈ m.declarations, d.blocks = [] → ∀ t ∈ tokens d, placements.lookup t.offset = none := by
  have hread := read_of_parse hparse
  have hrun {placements : List (Nat × Placement)} {rules : List Rule}
      (hrules : rules.Sublist [.alignment, .importOrder, .pragmaPlacement, .strictnessDeriving, .naming])
      (h : afterRules settings { m with placements } rules = .ok m') :
      KeepsClauses settings { m with placements } m' := by
    have hself : KeepsClauses settings { m with placements } { m with placements } :=
      .refl fun c layout => layout_of_read hread c layout
    refine afterRules_induction (fun rule hrule m₁ result => keepsClauses_apply ?_) h hself
    rintro rfl
    exact absurd (hrules.subset hrule) (by decide)
  rcases List.sublist_cons_iff.1 hrules with hrest | ⟨more, rfl, hrest⟩
  · exact ⟨m.placements, hrun hrest h, fun d _ _ t _ => by rw [placements_of_read hread]; rfl⟩
  · rw [afterRules_cons] at h
    obtain ⟨placements, hmodule⟩ := Indent.module_apply settings m
    have h : afterRules settings (Indent.apply settings m).module more = .ok m' := h
    refine ⟨placements, ?_, fun d hd hflat t ht => ?_⟩
    · rw [hmodule] at h
      exact hrun hrest h
    · have hplaced := lookup_of_flat hparse settings hd hflat ht
      rwa [hmodule] at hplaced

/--
A token that begins a line and has no placement comes to stand in its column, if the token before which nothing is
written comes to stand at the beginning of a line.
-/
theorem column_leading {text : List Char} {m : Module} (h : read text = .ok m) {before after : List Token} {t : Token}
    (htokens : tokens m = before ++ t :: after ++ [m.eof]) (hline : t.lineStart) {p : Printer}
    (hplace : p.placements.lookup t.offset = none) {out : Output} (hsound : out.Sound)
    (hfirst : before = [] → out.column = 0) : (p.leading t out).column = t.column := by
  by_cases hnewline : t.leading.hasNewline
  · rw [Printer.column_leading hplace (Token.isEnd_of_sound (sound_of_read h htokens)) hnewline hsound,
      column_of_read h htokens hnewline]
  · have hlines := Printer.splitLines_of_not_hasNewline (Bool.eq_false_iff.2 hnewline)
    obtain ⟨stream, hstream, hstreamTokens, -⟩ := tokens_of_read h
    have hsplit : stream.tokens = before ++ t :: after :=
      List.append_inj_left' (hstreamTokens.symm.trans htokens) rfl
    obtain ⟨htake, hcolumn⟩ := TokenStream.take_offset (TokenStream.tiling_lexemes hstream) hsplit
    rw [Printer.leading_of_none hplace, hlines, hcolumn, htake, Text.visualWidth_append]
    refine (Printer.column_pieces _ _).trans ?_
    rcases List.eq_nil_or_concat' before with rfl | ⟨front, u, rfl⟩
    · rw [hfirst rfl]
      rfl
    -- There is a comment with a line end before the token.
    · have hneighbours : stream.tokens = front ++ u :: t :: after := by
        rw [hsplit, List.append_assoc]
        rfl
      exact Text.visualWidth_of_newline (TokenStream.newline_of_lineStart hstream hneighbours hline) _ _

section Written

variable {m : Module} {before after : List Declaration} {chain : OperatorChain}

/--
What is written before a declaration.
-/
def outputBefore (settings : Settings) (m : Module) (before : List Declaration) : Output :=
  let p := Printer.ofModule settings m
  before.foldl (fun out d => p.declaration d true out) (p.preamble m p.start)

theorem outputBefore_kept {P : Output → Prop} (hkept : Output.Kept (fun _ => True) P)
    (h : P (Printer.ofModule settings m).start) : P (outputBefore settings m before) :=
  Printer.declarations_kept hkept _ (Printer.preamble_kept hkept _ h fun t _ => t.over_true) fun t _ => t.over_true

variable (hdeclarations : m.declarations = before ++ .clause chain.clause (some chain.layout) :: after)
include hdeclarations

/--
Writing a module keeps what holds once an equation with a layout has been written.
-/
theorem moduleParts_kept_of_clause {P : Output → Prop} (hkept : Output.Kept (fun _ => True) P)
    {body : List (Segment Block)} (hrhs : chain.clause.equation.rhs = .plain chain.equals body) :
    let p := Printer.ofModule settings m
    P (p.brokenClause (Segment.topTokens chain.clause.equation.lhs) chain.equals (Segment.topTokens body) chain.layout
        (p.leading (firstToken chain.clause) (outputBefore settings m before)))
      → P (p.moduleParts m p.start) := by
  intro p h
  have hclause := Printer.trailing_kept hkept p h
    (lastToken (Declaration.clause chain.clause (some chain.layout))).over_true true
  rw [Printer.moduleParts_eq, hdeclarations, List.foldl_append, List.foldl_cons, Printer.declaration, hrhs]
  exact Printer.leading_kept hkept p (Printer.declarations_kept hkept p hclause fun t _ => t.over_true) m.eof.over_true

/--
An aligned chain stands on its lines in the text, behind what was written before it.
-/
theorem exists_text_chain (hlayout : Align.clauseLayout settings chain.clause = .ok (some chain.layout))
    (hchain : chain.IsAligned settings) (hsound : ∀ t ∈ chain.tokens, t.lexeme.Sound) :
    ∃ text behind, (m.render settings).text
        = text ++ chain.text m.newline.text.toList chain.layout.column.toNat ++ behind
      ∧ Text.visualWidth text 0 = ((Printer.ofModule settings m).leading (firstToken chain.clause)
        (outputBefore settings m before)).column := by
  obtain ⟨-, hclean, -, -⟩ := Align.chain_of_clauseLayout hlayout hchain
  obtain ⟨body, hrhs, -⟩ := hchain.parts
  have hline := Token.isMultiline_of_cleanInside hclean
  have hnewline := (Printer.ofModule settings m).sound_start.newline
  -- The output before the equation.
  have hkept {P : Output → Prop} (hP : Output.Kept (fun _ => True) P) (hstart : P (Printer.ofModule settings m).start) :
      P ((Printer.ofModule settings m).leading (firstToken chain.clause) (outputBefore settings m before)) :=
    Printer.leading_kept hP _ (outputBefore_kept hP hstart) (firstToken chain.clause).over_true
  have hcolumn := hkept Output.kept_column rfl
  have hsame := hkept (Output.kept_newline m.newline.text) rfl
  -- The lines of the equation, and what is written behind them.
  obtain ⟨hbroken, hmarked⟩ := Printer.marked_brokenClause (p := Printer.ofModule settings m) hchain hrhs
    (hkept Output.kept_sound (Printer.ofModule settings m).sound_start)
  obtain ⟨hend, x, hwritten⟩ := moduleParts_kept_of_clause hdeclarations (Output.kept_marked _) hrhs
    ⟨hbroken, [], (List.append_nil _).symm⟩
  rw [hmarked, hsame, List.append_assoc] at hwritten
  obtain ⟨c, hhead, hshown⟩ := OperatorChain.exists_head?_head hsound
  have hfirst : c ∈ (chain.head ++ (Token.flat chain.second).toList).head? := by
    rw [List.head?_append, Option.mem_def.1 hhead]
    rfl
  obtain ⟨text, behind, htext, hwidth⟩ := Output.exists_normalize_lines hend hnewline
    (OperatorChain.solid_line hchain hsound hline)
    (OperatorChain.solid_laterLines hchain hsound hline chain.layout.column.toNat) hfirst hshown hwritten
  exact ⟨text, behind, htext, hwidth.trans hcolumn.symm⟩

end Written

/--
Nothing is written before the declarations of a module without anything before them.
-/
theorem preamble_of_bare {m : Module} (hpragmas : m.headerPragmas = []) (hheader : m.header = none)
    (himports : m.imports = []) (p : Printer) (out : Output) : p.preamble m out = out := by
  have hdecls : m.importDecls = [] := by rw [importDecls, himports, List.flatten_nil]
  unfold Printer.preamble
  simp only [hpragmas, hheader, himports, hdecls]
  cases m.pragmasNormalized <;> cases m.importsNormalized <;> rfl

/--
Without tokens before the declarations nothing is before them.
-/
theorem bare_of_read {text : List Char} {m : Module} (h : read text = .ok m)
    (htokens : m.headerPragmas.map (·.token) ++ (m.header.map tokens).getD [] ++ m.importDecls.flatMap tokens = []) :
    m.headerPragmas = [] ∧ m.header = none ∧ m.imports = [] := by
  obtain ⟨⟨hpragmas, hheader⟩, himports⟩ := by simpa only [List.append_eq_nil_iff] using htokens
  refine ⟨List.map_eq_nil_iff.1 hpragmas, ?_, ?_⟩
  · cases hsome : m.header with
    | none => rfl
    | some header =>
      rw [hsome] at hheader
      cases hheader
  · refine List.eq_nil_iff_forall_not_mem.2 fun group hgroup => ?_
    obtain ⟨i, more, rfl⟩ := List.exists_cons_of_ne_nil ((printable_of_read h).groups group hgroup)
    have hnil := List.flatMap_eq_nil_iff.1 himports i (List.mem_flatten.2 ⟨_, hgroup, List.mem_cons_self⟩)
    cases hnil

section Chain

variable {text : List Char} {m m' : Module} {rules : List Rule} (hparse : parse text = .ok m)
  (hrules : rules.Sublist Rule.all) (hafter : m.afterRules settings rules = .ok m')
include hparse hrules hafter

/--
An equation with a layout was read. If it has no blocks its tokens have no placements, and if nothing came before it
nothing is written before it.
-/
theorem exists_of_laidOut {c : Clause Block} {layout : RhsLayout} (hmem : .clause c (some layout) ∈ m'.declarations) :
    Align.clauseLayout settings c = .ok (some layout)
      ∧ (c.blocks = [] → ∀ t ∈ tokens c, m'.placements.lookup t.offset = none) ∧ ∃ front back before after,
        tokens m = front ++ tokens c ++ back ++ [m.eof] ∧ m'.declarations = before ++ .clause c (some layout) :: after
          ∧ (front = [] → (outputBefore settings m' before).column = 0) := by
  obtain ⟨placements, hkept, hplaced⟩ := keepsClauses_afterRules hparse hrules hafter
  obtain ⟨old, hold⟩ := hkept.clauses c (some layout) hmem
  have hlaid : ∀ c layout, .clause c layout ∈ m'.declarations → Align.clauseLayout settings c = .ok layout :=
    hkept.layouts.resolve_left fun hnone => absurd (hnone c (some layout) hmem) (Option.some_ne_none layout)
  refine ⟨hlaid c (some layout) hmem, fun hflat => by rw [hkept.placements]; exact hplaced _ hold hflat, ?_⟩
  obtain ⟨ds, more, hds⟩ := List.append_of_mem hold
  obtain ⟨front, hfront⟩ : ∃ front, front = m.headerPragmas.map (·.token) ++ (m.header.map tokens).getD []
    ++ m.importDecls.flatMap tokens ++ ds.flatMap tokens := ⟨_, rfl⟩
  have htokens : tokens m = front ++ tokens c ++ more.flatMap tokens ++ [m.eof] := by
    rw [tokens_eq_append, show m.declarations = _ from hds, hfront, List.flatMap_append, List.flatMap_cons]
    simp only [List.append_assoc]
    rfl
  by_cases hnil : front = []
  · obtain ⟨hbefore, hnone⟩ := List.append_eq_nil_iff.1 (hfront.symm.trans hnil)
    obtain ⟨hpragmas, hheader, himports⟩ := bare_of_read (read_of_parse hparse) hbefore
    have hhead : m.declarations.head? = some (.clause c old) := by
      cases ds with
      | nil =>
        rw [show m.declarations = _ from hds]
        rfl
      | cons d ds => exact absurd (List.flatMap_eq_nil_iff.1 hnone d List.mem_cons_self) d.tokens_ne_nil
    obtain ⟨layout', hfirst⟩ := hkept.first c old hhead
    obtain ⟨after, hafter⟩ := List.head?_eq_some_iff.1 hfirst
    have hsame := (hlaid c layout' (by rw [hafter]; exact List.mem_cons_self)).symm.trans (hlaid c (some layout) hmem)
    obtain rfl := Except.ok.inj hsame
    refine ⟨front, more.flatMap tokens, [], after, htokens, hafter, fun _ => ?_⟩
    obtain ⟨hpragmas, hheader, himports⟩ := hkept.bare hpragmas hheader himports
    rw [outputBefore, preamble_of_bare hpragmas hheader himports]
    rfl
  · obtain ⟨before, after, hdeclarations⟩ := List.append_of_mem hmem
    exact ⟨front, more.flatMap tokens, before, after, htokens, hdeclarations, fun h => absurd h hnil⟩

/--
An aligned chain stands on its lines in the text that is written. The column of its lines is that of the equation, moved
by as many columns as there are characters before the operator at which its body was cut first. An equation that begins
a line stands in its column again.
-/
theorem exists_chain_of_afterRules {chain : OperatorChain}
    (hmem : .clause chain.clause (some chain.layout) ∈ m'.declarations) (hchain : chain.IsAligned settings) :
    ∃ (before behind : List Char) (width : Nat),
      (m'.render settings).text = before ++ chain.text m'.newline.text.toList width ++ behind
        ∧ '\n' ∉ chain.head ∧ (width : Int) = (firstToken chain.clause).column + chain.head.length
        ∧ ((firstToken chain.clause).lineStart → Text.visualWidth before 0 = (firstToken chain.clause).column) := by
  have hread := read_of_parse hparse
  obtain ⟨hlayout, hplaced, front, back, before, after, htokens, hdeclarations, hfirst⟩ :=
    exists_of_laidOut hparse hrules hafter hmem
  obtain ⟨hrun, hclean, hflat, hcolumn⟩ := Align.chain_of_clauseLayout hlayout hchain
  rw [hrun] at htokens
  have hsound : ∀ t ∈ chain.tokens, t.lexeme.Sound := by
    intro t ht
    obtain ⟨us, vs, hsplit⟩ := List.append_of_mem ht
    refine sound_of_read hread (show tokens m = (front ++ us) ++ t :: (vs ++ back) ++ [m.eof] from ?_)
    rw [htokens, hsplit]
    simp
  obtain ⟨written, behind, htext, hwidth⟩ := exists_text_chain hdeclarations hlayout hchain hsound
  obtain ⟨more, hc⟩ : ∃ more, tokens chain.clause = firstToken chain.clause :: more :=
    List.head?_eq_some_iff.1 (head?_tokens (Declaration.clause chain.clause none).tokens_ne_nil)
  have hmemFirst : firstToken chain.clause ∈ tokens chain.clause := by
    rw [hc]
    exact List.mem_cons_self
  have hsplit : tokens m = front ++ firstToken chain.clause :: (more ++ back) ++ [m.eof] := by
    rw [htokens, ← hrun, hc]
    simp
  obtain ⟨stream, hstream, hstreamTokens, -⟩ := tokens_of_read hread
  have hnonneg := TokenStream.column_nonneg hstream
    (show firstToken chain.clause ∈ stream.toList by rw [← hstreamTokens, hsplit]; simp)
  refine ⟨written, behind, chain.layout.column.toNat, htext, fun hnewline => ?_, ?_, fun hline => ?_⟩
  · exact (OperatorChain.solid_line hchain hsound (Token.isMultiline_of_cleanInside hclean)).1
      (List.mem_append_left _ hnewline)
  · rw [hcolumn]
    omega
  · rw [hwidth]
    exact column_leading hread hsplit hline (hplaced hflat _ hmemFirst)
      (outputBefore_kept Output.kept_sound (Printer.sound_start _)) hfirst

end Chain

/--
What is split over lines keeps its tokens: operator chains, right-hand sides, signatures, and calls, which cannot be
split only if a closing bracket comes first. Chains are cut before operators outside of brackets. The lines of an
aligned chain begin in the column of the operator at which the body was cut first, if the column of the equation is
kept, and if nothing before it on its line has a width of its own.
-/
theorem splits_exact :
    (∀ operators ts, (Rhs.chunks operators ts).flatten = ts)
      ∧ (∀ settings ts, (Rhs.operatorLines settings ts).flatten = ts)
      ∧ (∀ ts, (Rhs.terms? ts = none ↔ ∃ close rest, ts = close :: rest ∧ close.isClosing)
        ∧ ∀ terms ∈ Rhs.terms? ts, terms.flatten = ts)
      ∧ (∀ operators ts before chunk after, Rhs.chunks operators ts = before ++ chunk :: after → before ≠ [] →
        ∃ op rest, chunk = op :: rest ∧ op.isOperator ∧ op.text ∈ operators ∧ Rhs.depth before.flatten = 0
          ∧ ∃ previous ∈ before.flatten.getLast?, Token.hasGap previous op)
      ∧ (∀ s : Signature, (s.parts.flatMap fun part => part.1 :: part.2) = s.colons :: s.type)
      ∧ ∀ text m settings rules m', parse text = .ok m → rules.Sublist Rule.all → m.afterRules settings rules = .ok m' →
        ∀ chain : OperatorChain, .clause chain.clause (some chain.layout) ∈ m'.declarations → chain.IsAligned settings →
          ∃ (before behind : List Char) (width : Nat),
            (m'.render settings).text = before ++ chain.text m'.newline.text.toList width ++ behind
              ∧ '\n' ∉ chain.head ∧ (width : Int) = (firstToken chain.clause).column + chain.head.length
              ∧ ((firstToken chain.clause).lineStart → Text.visualWidth before 0 = (firstToken chain.clause).column)
              ∧ (Text.visualWidth before 0 = (firstToken chain.clause).column →
                (∀ c ∈ before.drop (LineIndex.lastStart before), c ≠ '\t' ∧ c ≠ '\r' ∧ c ≠ '\ufeff') →
                width = (before.drop (LineIndex.lastStart before)).length + chain.head.length) := by
  refine ⟨Rhs.flatten_chunks, Rhs.flatten_operatorLines, fun ts => ⟨Align.terms?_eq_none_iff, fun terms h => ?_⟩,
    fun operators ts before chunk after h hbefore => Rhs.exists_of_chunks h hbefore, Signature.flatten_parts, ?_⟩
  · exact Rhs.flatten_terms? h
  · intro text m settings rules m' hparse hrules hafter chain hmem hchain
    obtain ⟨before, behind, width, htext, hnewline, hwidth, hcolumn⟩ :=
      exists_chain_of_afterRules hparse hrules hafter hmem hchain
    refine ⟨before, behind, width, htext, hnewline, hwidth, hcolumn, fun hkept hplain => ?_⟩
    rw [LineIndex.visualWidth_eq_length hplain] at hkept
    omega

/--
A module with an equation that is laid out as an aligned chain of four parts.
-/
def chainLaidOut :
    { m // parse "f = aaaaaa <> bbbbbb <> ccccccc <> ddddd\n".toList = .ok m
      ∧ ∃ m' ∈ (m.afterRules { maxLineLength := 20 } Rule.all).toOption,
        ('\t' ∉ (m'.render { maxLineLength := 20 }).text ∧ '\r' ∉ (m'.render { maxLineLength := 20 }).text
          ∧ '\ufeff' ∉ (m'.render { maxLineLength := 20 }).text)
        ∧ ∃ d ∈ m'.declarations, ∃ chain ∈ d.chain? { maxLineLength := 20 },
          (firstToken chain.clause).lineStart ∧ ∃ terms ∈ Rhs.terms? chain.first, terms.length = 1 } :=
  sample _ _ (by decide +kernel)

theorem splits_exact_chain :
    ∃ m m', parse "f = aaaaaa <> bbbbbb <> ccccccc <> ddddd\n".toList = .ok m
      ∧ m.afterRules { maxLineLength := 20 } Rule.all = .ok m' ∧ ∃ chain : OperatorChain,
        .clause chain.clause (some chain.layout) ∈ m'.declarations ∧ chain.IsAligned { maxLineLength := 20 }
          ∧ (∃ terms ∈ Rhs.terms? chain.first, terms.flatten = chain.first)
          ∧ (∃ operators ts, Rhs.chunks operators ts = [chain.first] ++ chain.second :: chain.others
            ∧ ∃ op rest, chain.second = op :: rest ∧ op.isOperator ∧ op.text ∈ operators
              ∧ Rhs.depth [chain.first].flatten = 0
              ∧ ∃ previous ∈ [chain.first].flatten.getLast?, Token.hasGap previous op)
          ∧ ∃ (before behind : List Char) (width : Nat), (m'.render { maxLineLength := 20 }).text
              = before ++ chain.text m'.newline.text.toList width ++ behind
            ∧ '\n' ∉ chain.head
            ∧ width = (before.drop (LineIndex.lastStart before)).length + chain.head.length := by
  obtain ⟨m, hm, m', hafter, ⟨htab, hreturn, hmark⟩, d, hd, chain, hchain, hline, terms, hterms, -⟩ := chainLaidOut
  obtain ⟨rfl, haligned⟩ := d.isAligned_of_chain? hchain
  obtain ⟨-, -, hterm, hchunk, -, hlaid⟩ := splits_exact
  obtain ⟨body, hrhs, hchunks⟩ := haligned.parts
  have hrules := toOption_eq_some hafter
  obtain ⟨before, behind, width, htext, hnewline, -, hkept, hwidth⟩ :=
    hlaid _ _ _ _ _ hm (.refl _) hrules chain hd haligned
  refine ⟨m, m', hm, hrules, chain, hd, haligned, ⟨terms, hterms, (hterm chain.first).2 terms hterms⟩,
    ⟨_, _, hchunks, hchunk _ _ _ _ _ hchunks (List.cons_ne_nil _ _)⟩, before, behind, width, htext, hnewline,
    hwidth (hkept hline) fun c hc => ?_⟩
  have hmem : c ∈ (m'.render { maxLineLength := 20 }).text := by
    rw [htext]
    exact List.mem_append_left _ (List.mem_append_left _ (List.mem_of_mem_drop hc))
  exact ⟨fun h => htab (h ▸ hmem), fun h => hreturn (h ▸ hmem), fun h => hmark (h ▸ hmem)⟩

/--
A module with an equation behind a tab that is laid out as an aligned chain.
-/
def chainBehindTab :
    { m // parse "\tf = aaaaaa <> bbbbbb <> ccccccc <> ddddd\n".toList = .ok m
      ∧ ∃ m' ∈ (m.afterRules { maxLineLength := 20 } Rule.all).toOption,
        (m'.render { maxLineLength := 20 }).text
          = "\tf = aaaaaa <> bbbbbb\n                   <> ccccccc\n                   <> ddddd\n".toList
        ∧ m'.newline.text = "\n" ∧ ∃ d ∈ m'.declarations, ∃ chain ∈ d.chain? { maxLineLength := 20 },
          chain.head = "f = aaaaaa ".toList ∧ Token.flat chain.second = "<> bbbbbb"
          ∧ chain.others.map Token.flat = ["<> ccccccc", "<> ddddd"] } :=
  sample _ _ (by decide +kernel)

/--
The lines of an aligned chain do not always begin behind as many characters as the operator at which its body was cut
first.
-/
theorem not_splits_exact :
    ¬∀ text m settings rules m', parse text = .ok m → rules.Sublist Rule.all → m.afterRules settings rules = .ok m' →
      ∀ chain : OperatorChain, .clause chain.clause (some chain.layout) ∈ m'.declarations → chain.IsAligned settings →
        ∃ (before behind : List Char) (width : Nat),
          (m'.render settings).text = before ++ chain.text m'.newline.text.toList width ++ behind
            ∧ '\n' ∉ chain.head
            ∧ width = (before.drop (LineIndex.lastStart before)).length + chain.head.length := by
  intro h
  obtain ⟨m, hm, m', hafter, hrender, hnewline, d, hd, chain, hchain, hhead, hsecond, hothers⟩ := chainBehindTab
  obtain ⟨rfl, haligned⟩ := d.isAligned_of_chain? hchain
  obtain ⟨before, behind, width, htext, -, hwidth⟩ :=
    h _ _ _ _ _ hm (.refl _) (toOption_eq_some hafter) chain hd haligned
  have hlines : chain.text m'.newline.text.toList width
      = "f = aaaaaa <> bbbbbb".toList ++ ["<> ccccccc", "<> ddddd"].flatMap fun line =>
        '\n' :: (List.replicate width ' ' ++ line.toList) := by
    rw [OperatorChain.text, OperatorChain.laterLines, hhead, hsecond, hnewline, ← hothers, List.flatMap_map,
      List.flatMap_map]
    rfl
  -- Wherever the chain begins, the lines that follow are not as wide.
  have hwide : ∀ i ≤ 80,
      let text := "\tf = aaaaaa <> bbbbbb\n                   <> ccccccc\n                   <> ddddd\n".toList
      let width := ((text.take i).drop (LineIndex.lastStart (text.take i))).length + 11
      ¬text.take i ++ ("f = aaaaaa <> bbbbbb".toList ++ ["<> ccccccc", "<> ddddd"].flatMap fun line =>
        '\n' :: (List.replicate width ' ' ++ line.toList)) <+: text := by
    decide +kernel
  rw [hrender, hlines] at htext
  have hsize : 80 = _ := congrArg List.length htext
  have htake := congrArg (List.take before.length) htext
  simp only [List.length_append, List.append_assoc, List.take_left] at hsize htake
  have hnot := hwide before.length (by omega)
  simp only [htake] at hnot
  rw [hhead] at hwidth
  exact hnot ⟨behind, by rw [htext, hwidth]; rfl⟩

end Module

end HaskellStyle
