import HaskellStyle.Proofs.Newline.Render
import HaskellStyle.Proofs.Rule.PragmaOrder

/-!
This module contains the rule for pragmas on modules with carriage returns. Pragmas are compared by their words, which have
one line, so they get the same order and the same owners.
-/

namespace HaskellStyle

open Text (crlfString)

variable (σ : Nat → Nat)

theorem Signature.binders_crlf (s : Signature) : (mapTokens (Token.crlf σ) s).binders = s.binders.map crlfString := by
  show ((s.names.map (Token.crlf σ)).filter fun t => !t.isSpecial [",", "(", ")"]).map (·.text) = _
  rw [List.filter_map, List.map_map, binders, List.map_map]
  simp (disch := decide) only [Function.comp_def, Token.isSpecial_crlf, Token.text_crlf]

theorem Equation.isPatternMark_crlf (operator following : Token) :
    isPatternMark (operator.crlf σ) (following.crlf σ) = isPatternMark operator following := by
  simp (disch := decide) only [isPatternMark, Token.text_crlf, Token.leading_crlf, Token.trailing_crlf,
    Trivia.isEmpty_crlf, Text.contains_crlfString]

theorem Equation.binder_crlf {β γ : Type} (g : β → γ) (e : Equation β) :
    (e.bimap (Token.crlf σ) g).binder = e.binder.map (Token.crlf σ) := by
  have hlhs : (e.bimap (Token.crlf σ) g).lhs = e.lhs.map (Segment.bimap (Token.crlf σ) g) := rfl
  have hcolon (t : Token) : (crlfString t.text).startsWith ":" = t.text.startsWith ":" :=
    Text.startsWith_crlfString (by decide) t.text
  unfold binder
  rw [hlhs, Segment.flat?_bimap]
  match Segment.flat? e.lhs with
  | none => rfl
  | some [] => rfl
  | some [t] =>
    simp only [Option.map_some, List.map_cons, List.map_nil, Token.kind_crlf]
    cases t.kind <;> rfl
  | some (t :: u :: v :: ts) =>
    simp only [Option.map_some, List.map_cons, Token.kind_crlf]
    cases t.kind with
    | varId =>
      simp (disch := decide) only [Token.isSpecial_crlf, Token.isOperator_crlf, isPatternMark_crlf]
      split
      · rfl
      · split <;> rfl
    | _ =>
      simp (disch := decide) only [Token.isSpecial_crlf, Token.isOperator_crlf, Token.text_crlf, hcolon]
      split
      · rfl
      · split <;> rfl
  | some [t, u] =>
    simp only [Option.map_some, List.map_cons, List.map_nil, Token.kind_crlf]
    cases t.kind <;> rfl

/--
What a pragma is about has one line.
-/
theorem Pragma.crlfString_target (p : Pragma) : ∀ name ∈ p.target, crlfString name = name := by
  have hbefore (cs : List Char) : beforeColons cs <+: cs := by
    fun_induction beforeColons cs with
    | case1 => exact List.nil_prefix
    | case2 c cs _ ih => exact List.prefix_cons_inj c |>.2 ih
    | case3 => exact List.nil_prefix
  intro name hname
  unfold target at hname
  split at hname
  · dsimp only at hname
    generalize harguments : (if (p.words.drop 1).head?.any (·.startsWith "[") then (p.words.drop 1).drop 1
      else p.words.drop 1) = arguments at hname
    cases arguments with
    | nil => cases hname
    | cons argument more =>
      have hmem : argument ∈ p.words := by
        have hmem : argument ∈ argument :: more := List.mem_cons_self
        rw [← harguments] at hmem
        split at hmem
        · exact List.mem_of_mem_drop (List.mem_of_mem_drop hmem)
        · exact List.mem_of_mem_drop hmem
      have hword := Text.crlfString_eq_self_iff.1 (p.crlfString_word argument hmem)
      dsimp only at hname
      generalize hinside : (if argument.toList.head? = some '(' ∧ argument.toList.getLast? = some ')'
        ∧ 2 < argument.toList.length then argument.toList.dropLast.drop 1 else argument.toList) = cs at hname
      have hline : '\n' ∉ cs := by
        rw [← hinside]
        split
        · exact fun h => hword (List.dropLast_subset _ (List.mem_of_mem_drop h))
        · exact hword
      cases hcs : beforeColons cs with
      | nil =>
        rw [hcs] at hname
        cases hname
      | cons c more =>
        rw [hcs] at hname
        cases hname
        rw [Text.crlfString_eq_self_iff, String.toList_ofList, ← hcs]
        exact fun h => hline ((hbefore cs).subset h)
  · cases hname

namespace PragmaOrder

variable (settings : Settings)

theorem pragmaLe_crlf {a b : Pragma} (ha : a.IsDelimited) (hb : b.IsDelimited) :
    pragmaLe (mapTokens (Token.crlf σ) a) (mapTokens (Token.crlf σ) b) = pragmaLe a b := by
  have hkey {p : Pragma} (hp : p.IsDelimited) : sortKey (mapTokens (Token.crlf σ) p) = sortKey p := by
    rw [sortKey, Pragma.blockIndex_crlf σ hp, Pragma.extensions_crlf σ hp, sortKey]
  rw [pragmaLe, hkey ha, hkey hb, pragmaLe]

theorem bindersOf_crlf (d : Declaration) : bindersOf (mapTokens (Token.crlf σ) d) = (bindersOf d).map crlfString := by
  cases d with
  | signature s => exact Signature.binders_crlf σ s
  | clause c layout =>
    have hbinder : (mapTokens (Token.crlf σ) c).equation.binder = c.equation.binder.map (Token.crlf σ) :=
      Equation.binder_crlf σ _ c.equation
    simp only [Declaration.mapTokens_clause, bindersOf, hbinder]
    cases c.equation.binder with
    | none => rfl
    | some t => exact congrArg (fun s => [s]) (Token.text_crlf σ t)
  | importing _ | pragma _ | data _ | raw _ => rfl

theorem owner?_crlf (ds : List Declaration) {name : String} (hname : crlfString name = name) :
    owner? (ds.map (mapTokens (Token.crlf σ))) name = owner? ds name := by
  have hnamed (d : Declaration) : (bindersOf (mapTokens (Token.crlf σ) d)).contains name = (bindersOf d).contains name := by
    rw [bindersOf_crlf, ← Rhs.contains_map_crlf (bindersOf d) name, hname]
  unfold owner?
  simp only [List.map_map, Function.comp_def, hnamed, List.length_map]

theorem destination?_crlf (ds : List Declaration) {p : Pragma} (hp : p.IsDelimited) :
    destination? (ds.map (mapTokens (Token.crlf σ))) (mapTokens (Token.crlf σ) p) = destination? ds p := by
  have htoken : (mapTokens (Token.crlf σ) p).token = p.token.crlf σ := rfl
  have hline := p.crlfString_target
  unfold destination?
  rw [Pragma.target_crlf σ hp, htoken, Token.column_crlf, Token.leading_crlf, Trivia.hasDirective_crlf,
    Trivia.hasNewline_crlf]
  cases htarget : p.target with
  | none => rfl
  | some name => simp only [Option.bind_eq_bind, Option.bind_some, owner?_crlf σ ds (hline name htarget)]

theorem moved?_crlf (ds : List Declaration) {d : Declaration} (hd : d.IsPlain) :
    moved? (ds.map (mapTokens (Token.crlf σ))) (mapTokens (Token.crlf σ) d)
      = (moved? ds d).map fun (index, p) => (index, mapTokens (Token.crlf σ) p) := by
  cases d with
  | pragma p =>
    simp only [Declaration.mapTokens_pragma, moved?, destination?_crlf σ ds hd, Option.map_map]
    rfl
  | importing _ | signature _ | data _ | clause _ _ | raw _ => rfl

variable {ds : List Declaration} (hds : ∀ d ∈ ds, d.IsPlain)
include hds

theorem staying_crlf :
    staying (ds.map (mapTokens (Token.crlf σ))) = (staying ds).map fun (d, index) => (mapTokens (Token.crlf σ) d, index) := by
  have hzip : (ds.map (mapTokens (Token.crlf σ))).zipIdx
      = ds.zipIdx.map fun (d, index) => (mapTokens (Token.crlf σ) d, index) := List.zipIdx_map
  unfold staying
  rw [hzip, List.filter_map]
  refine congrArg _ (List.filter_congr fun (d, index) hmem => ?_)
  dsimp only [Function.comp_apply]
  rw [moved?_crlf σ ds (hds d (List.fst_mem_of_mem_zipIdx hmem)), Option.isNone_map]

theorem filterMap_moved?_crlf :
    (ds.map (mapTokens (Token.crlf σ))).filterMap (moved? (ds.map (mapTokens (Token.crlf σ))))
      = (ds.filterMap (moved? ds)).map fun (index, p) => (index, mapTokens (Token.crlf σ) p) := by
  rw [List.filterMap_map, List.map_filterMap]
  exact List.filterMap_congr fun d hd => moved?_crlf σ ds (hds d hd)

/--
The pragmas go behind their owners with carriage returns as they do without them.
-/
theorem pin_crlf : pin (ds.map (mapTokens (Token.crlf σ))) = (pin ds).map (mapTokens (Token.crlf σ)) := by
  rw [pin_eq, pin_eq, staying_crlf σ hds, filterMap_moved?_crlf σ hds, List.flatMap_map, List.map_flatMap]
  congr 1
  funext ⟨d, index⟩
  dsimp only
  rw [List.filter_map, List.map_map, List.map_cons, List.map_map]
  rfl

theorem all_moved?_crlf :
    ((ds.map (mapTokens (Token.crlf σ))).all fun d => (moved? (ds.map (mapTokens (Token.crlf σ))) d).isNone)
      = ds.all fun d => (moved? ds d).isNone := by
  rw [List.all_map, Bool.eq_iff_iff, List.all_eq_true, List.all_eq_true]
  refine forall₂_congr fun d hd => ?_
  rw [Function.comp_apply, moved?_crlf σ ds (hds d hd), Option.isNone_map]

theorem isPlain_pin : ∀ d ∈ pin ds, d.IsPlain := by
  intro d hd
  rcases List.mem_append.1 ((pin_perm ds).mem_iff.1 hd) with hd | hd
  · exact hds d (List.mem_of_mem_filter hd)
  · obtain ⟨moved, hmoved, rfl⟩ := List.mem_map.1 hd
    obtain ⟨d, hd, hmoved⟩ := List.mem_filterMap.1 hmoved
    obtain ⟨rfl, -⟩ := moved?_eq_some hmoved
    have hplain : moved.2.IsDelimited := hds _ hd
    exact hplain

omit hds

variable {σ} (hσ : StrictMono σ)
include hσ

theorem previousOffset_crlf (offset : Nat) (ds : List Declaration) :
    previousOffset (σ offset) (ds.map (mapTokens (Token.crlf σ))) = (previousOffset offset ds).map σ := by
  induction ds with
  | nil => rfl
  | cons d more ih =>
    cases more with
    | nil => rfl
    | cons e more =>
      rw [List.map_cons] at ih
      rw [List.map_cons, List.map_cons, previousOffset, previousOffset, ih]
      simp only [firstToken_mapTokens, Token.offset_crlf, hσ.injective.eq_iff]
      split <;> rfl

theorem changes_crlf {p : Printer} (hp : p.newline = .lf) (before after : List Declaration) {pragma : Pragma}
    (hpragma : pragma.IsDelimited) :
    changes (p.crlf σ) (before.map (mapTokens (Token.crlf σ))) (after.map (mapTokens (Token.crlf σ)))
        (mapTokens (Token.crlf σ) pragma)
      = changes p before after pragma := by
  have htoken : (mapTokens (Token.crlf σ) pragma).token = pragma.token.crlf σ := rfl
  have hpinned : (p.crlf σ).declarationText (.pragma (mapTokens (Token.crlf σ) pragma))
      = crlfString (p.declarationText (.pragma pragma)) :=
    Printer.declarationText_crlf hσ.injective hp (d := .pragma pragma) hpragma
  have hverbatim : (p.crlf σ).declarationText (.pragma ⟨pragma.token.crlf σ, false⟩)
      = crlfString (p.declarationText (.pragma ⟨pragma.token, false⟩)) :=
    Printer.declarationText_crlf hσ.injective hp (d := .pragma ⟨pragma.token, false⟩) hpragma
  unfold changes
  rw [htoken, Token.offset_crlf, Token.leading_crlf, Trivia.blankLines_crlf]
  dsimp only
  rw [previousOffset_crlf hσ, previousOffset_crlf hσ, hpinned, hverbatim, Text.crlfString_bne]
  simp only [ne_eq, (Option.map_injective hσ.injective).eq_iff]

variable {m : Module} (hnewline : m.newline = .lf)
include hnewline

theorem binders?_crlf (hds : ∀ d ∈ m.declarations, d.IsPlain) {notes notes' : Notes} (hfixes : notes'.fixes = notes.fixes) :
    (binders? settings (m.crlf σ) notes').map (fun r => (r.1, r.2.fixes))
      = (binders? settings m notes).map fun r => (r.1.crlf σ, r.2.fixes) := by
  have hdeclarations : (m.crlf σ).declarations = m.declarations.map (mapTokens (Token.crlf σ)) := rfl
  have hprinter : Printer.ofModule settings (m.crlf σ) = (Printer.ofModule settings m).crlf σ := rfl
  have hmargin : ((m.declarations.map (mapTokens (Token.crlf σ))).any fun d => (firstToken d).column ≠ 0)
      = m.declarations.any fun d => (firstToken d).column ≠ 0 := by
    simp only [List.any_map, Function.comp_def, firstToken_mapTokens, Token.column_crlf]
  unfold binders?
  dsimp only
  rw [hdeclarations, hprinter, hmargin, all_moved?_crlf σ hds, pin_crlf σ hds]
  split
  · rfl
  · refine congrArg (fun fixes => some ({ m with declarations := pin m.declarations : Module }.crlf σ, fixes)) ?_
    refine Notes.foldl_fixes (fun d hd notes notes' h => ?_) hfixes
    have hplain := isPlain_pin hds d hd
    cases d with
    | pragma pragma =>
      have hpinned : (mapTokens (Token.crlf σ) pragma).pinned = pragma.pinned := rfl
      simp only [Declaration.mapTokens_pragma, hpinned,
        changes_crlf hσ (p := Printer.ofModule settings m) hnewline m.declarations (pin m.declarations) hplain]
      split
      · rw [Notes.fixes_fixed, Notes.fixes_fixed, h]
      · exact h
    | importing _ | signature _ | data _ | clause _ _ | raw _ => exact h

theorem header?_crlf (hpragmas : ∀ p ∈ m.headerPragmas, p.IsDelimited) {notes notes' : Notes}
    (hfixes : notes'.fixes = notes.fixes) :
    (header? settings (m.crlf σ) notes').map (fun r => (r.1, r.2.fixes))
      = (header? settings m notes).map fun r => (r.1.crlf σ, r.2.fixes) := by
  have hheader : (m.crlf σ).headerPragmas = m.headerPragmas.map (mapTokens (Token.crlf σ)) := rfl
  have hnormalized : (m.crlf σ).pragmasNormalized = m.pragmasNormalized := rfl
  have hprinter : Printer.ofModule settings (m.crlf σ) = (Printer.ofModule settings m).crlf σ := rfl
  have hsorted : (m.headerPragmas.map (mapTokens (Token.crlf σ))).mergeSort pragmaLe
      = (m.headerPragmas.mergeSort pragmaLe).map (mapTokens (Token.crlf σ)) :=
    (List.map_mergeSort fun a ha b hb => (pragmaLe_crlf σ (hpragmas a ha) (hpragmas b hb)).symm).symm
  have hstart := Printer.mirrors_start σ (p := Printer.ofModule settings m) hnewline
  have hbefore := (Printer.verbatimInside_crlf hstart hσ.injective (Printer.ofModule settings m)
    (m.headerPragmas.map (·.token))).text
  have hafter := (Printer.headerPragmas_crlf hσ hstart (Printer.ofModule settings m)
    (fun p hp => hpragmas p ((List.mergeSort_perm _ pragmaLe).mem_iff.1 hp)) false).text
  have htokens : (m.headerPragmas.map (mapTokens (Token.crlf σ))).map (·.token)
      = (m.headerPragmas.map (·.token)).map (Token.crlf σ) := by
    rw [List.map_map, List.map_map]
    rfl
  unfold header?
  dsimp only
  rw [hnormalized, hprinter, hheader, hsorted, htokens, hbefore, hafter, Text.crlfString_injective.beq_eq]
  cases hall : m.headerPragmas with
  | nil => rfl
  | cons first more =>
    have hlines : (more.map (mapTokens (Token.crlf σ))).all (·.token.leading.ownLineOnly)
        = more.all (·.token.leading.ownLineOnly) := by
      have hleading (p : Pragma) : (mapTokens (Token.crlf σ) p).token.leading = Trivia.crlf σ p.token.leading :=
        Token.leading_crlf σ p.token
      simp only [List.all_map, Function.comp_def, hleading, Trivia.ownLineOnly_crlf]
    rw [List.map_cons (l := more)]
    dsimp only
    rw [hlines]
    split
    · rfl
    · rw [Option.map_some, Option.map_some]
      refine congrArg some (Prod.ext rfl ?_)
      dsimp only
      split
      · exact hfixes
      · rw [Notes.fixes_fixed, Notes.fixes_fixed, hfixes]

omit hnewline in
/--
What is made of a module whose header has been put in order, with carriage returns and without them.
-/
theorem pinned_crlf {headed : Module} (hnewline : headed.newline = .lf) (hds : ∀ d ∈ headed.declarations, d.IsPlain)
    (kept kept' : Bool) {notes notes' : Notes} (hfixes : notes'.fixes = notes.fixes) :
    (match binders? settings (headed.crlf σ) notes' with
      | some (module, notes) => (⟨module, false, notes⟩ : RuleResult)
      | none => ⟨headed.crlf σ, kept', notes'⟩).outcome
    = (match binders? settings headed notes with
      | some (module, notes) => (⟨module, false, notes⟩ : RuleResult)
      | none => ⟨headed, kept, notes⟩).crlfOutcome σ := by
  have hbinders := binders?_crlf settings hσ hnewline hds hfixes
  cases hwithout : binders? settings headed notes with
  | none =>
    rw [hwithout, Option.map_none, Option.map_eq_none_iff] at hbinders
    rw [hbinders]
    exact Prod.ext rfl hfixes
  | some result =>
    rw [hwithout, Option.map_some] at hbinders
    obtain ⟨result', hwith, houtcome⟩ := Option.map_eq_some_iff.1 hbinders
    rw [hwith]
    exact houtcome

/--
The rule orders and moves the pragmas of a module with carriage returns as it does without them.
-/
theorem apply_crlf (hpragmas : ∀ p ∈ m.headerPragmas, p.IsDelimited) (hds : ∀ d ∈ m.declarations, d.IsPlain) :
    (apply settings (m.crlf σ)).outcome = (apply settings m).crlfOutcome σ := by
  have hnotes : ({} : Notes).fixes = ({} : Notes).fixes := rfl
  have hheader := header?_crlf settings hσ hnewline hpragmas hnotes
  have hheaded := map_fst_header? settings m {}
  unfold apply
  cases hwithout : header? settings m {} with
  | none =>
    rw [hwithout, Option.map_none, Option.map_eq_none_iff] at hheader
    rw [hheader]
    exact pinned_crlf settings hσ hnewline hds true true rfl
  | some result =>
    rw [hwithout, Option.map_some] at hheader hheaded
    obtain ⟨⟨headed', notes'⟩, hwith, houtcome⟩ := Option.map_eq_some_iff.1 hheader
    obtain ⟨hmodule, hfixes⟩ := Prod.mk.inj houtcome
    dsimp only at hmodule hfixes
    subst hmodule
    rw [hwith]
    split at hheaded
    · have hresult := Option.some.inj hheaded
      refine pinned_crlf settings hσ ?_ ?_ false false hfixes
      · rw [hresult]
        exact hnewline
      · rw [hresult]
        exact hds
    · cases hheaded

end PragmaOrder

end HaskellStyle
