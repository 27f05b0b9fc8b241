import HaskellStyle.Proofs.Module.Retrace
import HaskellStyle.Proofs.Newline.Align
import HaskellStyle.Proofs.Newline.Deriving
import HaskellStyle.Proofs.Rule.Region
import HaskellStyle.Proofs.Rule.Shape
import HaskellStyle.Proofs.Rule.Silence

/-!
This module contains that the rules leave declarations told again if they note no change: what is laid out has the text
of its source, deriving clauses in normal form have theirs if nothing else is overlooked, and so do pragmas that are
pinned.
-/

namespace HaskellStyle

open Output (Yields)

namespace Declaration

theorem IsFresh.isRewritten {d : Declaration} (h : d.IsFresh) : d.isRewritten = false := by
  obtain ⟨hunlaid, hpinned⟩ := h
  cases d with
  | importing _ | raw _ => rfl
  | pragma p => exact hpinned p rfl
  | signature s => rw [← Declaration.signature.inj hunlaid]; rfl
  | data d => rw [← Declaration.data.inj hunlaid]; rfl
  | clause c layout => rw [← (Declaration.clause.inj hunlaid).2]; rfl

/--
A declaration that can be given back: it is as it was read, and its tokens are written as they stand.
-/
structure Retraceable (p : Printer) (d : Declaration) : Prop where
  fresh : d.IsFresh
  filled : d.Filled
  offsets : ((HaskellStyle.tokens d).map (·.offset)).Nodup
  tokens : ∀ t ∈ HaskellStyle.tokens d, t.Retraceable p.newline.text.toList ∧ t.keepsGap p.settings

/--
What is not written anew needs no shape for it.
-/
theorem shaped_of_isRewritten {settings : Settings} {d : Declaration} (h : d.isRewritten = false) :
    d.Shaped settings := by
  cases d with
  | importing _ | pragma _ | raw _ => trivial
  | signature s =>
    intro layout hlayout
    rw [isRewritten, Option.mem_def.1 hlayout] at h
    cases h
  | data d =>
    intro hlayout
    rw [isRewritten, hlayout] at h
    cases h
  | clause c layout =>
    intro laid hlaid equals body hrhs
    rw [isRewritten, Option.mem_def.1 hlaid, hrhs] at h
    cases h

theorem IsFresh.withoutDerivings {d : Declaration} (h : d.IsFresh) : (Align.withoutDerivings d).IsFresh := by
  cases d with
  | data d =>
    refine ⟨?_, nofun⟩
    have hunlaid := Declaration.data.inj h.1
    have hconstructor := congrArg (·.constructor) hunlaid
    have hothers := congrArg (·.others) hunlaid
    have hlayout := congrArg (·.layout) hunlaid
    have hderiving := congrArg (·.derivingLayout) hunlaid
    obtain ⟨keyword, head, equals, constructor, others, derivings, layout, derivingLayout⟩ := d
    exact congrArg Declaration.data (DataDecl.mk.injEq .. ▸ ⟨rfl, rfl, rfl, hconstructor, hothers, rfl, hlayout, hderiving⟩)
  | importing _ | pragma _ | signature _ | clause _ _ | raw _ => exact h

end Declaration

variable {p : Printer} (hplace : p.placements = [])

section Kept

variable {d : Declaration} (hts : ∀ t ∈ tokens d, t.Retraceable p.newline.text.toList ∧ t.keepsGap p.settings)
include hplace hts

theorem Printer.joinSource_declarationText (h : d.isRewritten = false) :
    (firstToken d).leading.text ++ p.declarationText d = Token.joinSource (tokens d) := by
  obtain ⟨t, ts, htokens⟩ := List.exists_cons_of_ne_nil d.tokens_ne_nil
  have htext : p.declarationText d = (p.verbatimInside (tokens d) p.start).text := by
    rw [declarationText, declaration_of_isRewritten h]
    rfl
  rw [htokens] at hts
  rw [htext, firstToken, htokens]
  exact Token.joinSource_verbatimInside hplace hts

/--
What is not written anew is told again.
-/
theorem Declaration.retold_of_isRewritten (h : d.isRewritten = false) : d.Retold p where
  shaped := shaped_of_isRewritten h
  tokens := hts
  source := Printer.joinSource_declarationText hplace hts h
  above pragma hd hpinned := by
    rw [hd, isRewritten, hpinned] at h
    cases h

end Kept

theorem Declaration.Shaped.withoutDerivings {settings : Settings} {d : Declaration} (h : d.Shaped settings) :
    (Align.withoutDerivings d).Shaped settings := by
  cases d with
  | data d =>
    intro hlayout
    obtain ⟨hline, hhead, hfields, -⟩ := h hlayout
    refine ⟨fun t ht => hline t ?_, hhead, hfields, fun clause hclause => absurd hclause List.not_mem_nil⟩
    exact List.mem_append_left _ (DataDecl.tokens_withoutDerivings d ▸ ht)
  | importing _ | pragma _ | signature _ | clause _ _ | raw _ => exact h

namespace Align

theorem tokens_withoutDerivings_subset (d : Declaration) : tokens (withoutDerivings d) ⊆ tokens d := by
  cases d with
  | data d => exact fun t ht => List.mem_append_left _ (DataDecl.tokens_withoutDerivings d ▸ ht)
  | importing _ | pragma _ | signature _ | clause _ _ | raw _ => exact fun _ ht => ht

theorem tokens_withoutDerivings {settings : Settings} {d e : Declaration} (h : declaration settings d = .ok e) :
    tokens (withoutDerivings e) = tokens (withoutDerivings d) := by
  cases d with
  | importing _ | pragma _ | raw _ => cases h; rfl
  | signature s => cases h; exact congrArg Prod.fst (contents_signature settings s)
  | clause c layout =>
    obtain ⟨layout, rfl⟩ := declaration_clause h
    rfl
  | data decl =>
    cases h
    rcases dataDecl_cases settings decl with heq | ⟨f, layout, hf, heq⟩
    · rw [heq]
    · rw [heq]
      exact congrArg Prod.fst (contents_mapConstructors hf layout { decl with derivings := [] })

section Keeps

variable {d e : Declaration} (h : Keeps p.settings p d e) (hd : d.Retraceable p)
include hplace h hd

omit hplace in
theorem Keeps.isPlain {decl : DataDecl} (he : e = .data decl) : decl.IsPlain := by
  subst he
  obtain ⟨h, -⟩ := h
  cases d with
  | data d₀ =>
    obtain ⟨⟨hunlaid, -⟩, -, hoffsets, -⟩ := hd
    have hlayout : d₀.layout = none := (congrArg DataDecl.layout (Declaration.data.inj hunlaid)).symm
    cases h
    exact isPlain_dataDecl ⟨hoffsets, by rw [hlayout]; nofun, by rw [hlayout]; nofun, by rw [hlayout]; nofun⟩
  | importing _ | pragma _ | raw _ | signature _ => cases h
  | clause c layout =>
    obtain ⟨layout, h⟩ := declaration_clause h
    cases h

omit hplace in
theorem Keeps.pinned {pragma : Pragma} (he : e = .pragma pragma) : pragma.pinned = false := by
  subst he
  obtain ⟨h, -⟩ := h
  cases d with
  | pragma _ => cases h; exact hd.fresh.2 _ rfl
  | importing _ | raw _ | signature _ | data _ => cases h
  | clause c layout =>
    obtain ⟨layout, h⟩ := declaration_clause h
    cases h

omit hplace in
theorem Keeps.tokens_retraceable :
    ∀ t ∈ tokens e, t.Retraceable p.newline.text.toList ∧ t.keepsGap p.settings :=
  (show tokens e = tokens d from congrArg Prod.fst (contents_declaration h.1)) ▸ hd.tokens

/--
A declaration that is laid out is told again up to its deriving clauses.
-/
theorem retold_withoutDerivings : (withoutDerivings e).Retold p := by
  have htokens := tokens_withoutDerivings h.1
  have hts : ∀ t ∈ tokens (withoutDerivings d), t.Retraceable p.newline.text.toList ∧ t.keepsGap p.settings :=
    fun t ht => hd.tokens t (tokens_withoutDerivings_subset d ht)
  have hbefore := Declaration.retold_of_isRewritten hplace hts hd.fresh.withoutDerivings.isRewritten
  refine ⟨(shaped_declaration h.1 hd.fresh hd.filled).withoutDerivings, htokens ▸ hts, ?_, fun pragma he hpinned => ?_⟩
  · have hsource := hbefore.source
    have hquiet := h.2
    obtain ⟨t, ts, hcons⟩ := List.exists_cons_of_ne_nil (withoutDerivings d).tokens_ne_nil
    rw [firstToken, hcons] at hsource
    rw [hcons] at hquiet hts
    rw [firstToken, htokens, hcons]
    refine Token.joinSource_of_rewritesSource ?_ hsource hquiet
    exact (hts _ (by rw [← List.getLastD_cons (a := t)]; exact Token.getLastD_mem (List.cons_ne_nil _ _) _)).1.rest
  · cases e with
    | pragma q =>
      rw [← Declaration.pragma.inj he, h.pinned hd rfl] at hpinned
      cases hpinned
    | importing _ | raw _ | signature _ | data _ | clause _ _ => cases he

theorem begins_declarationText : Text.Begins (p.declarationText e) := by
  have hretold := retold_withoutDerivings hplace h hd
  have hhead := Declaration.begins_of_joinSource hretold.tokens hretold.source
  cases e with
  | data decl =>
    by_cases hderivings : decl.derivings = []
    · rwa [withoutDerivings, show ({ decl with derivings := [] } : DataDecl) = decl by rw [← hderivings]] at hhead
    · cases hlayout : decl.layout with
      | none =>
        have hkept : (Declaration.data decl).isRewritten = false := by
          rw [Declaration.isRewritten, hlayout]
          rfl
        exact Declaration.begins_of_joinSource (h.tokens_retraceable hd)
          (Printer.joinSource_declarationText hplace (h.tokens_retraceable hd) hkept)
      | some layout => exact hhead.of_prefix (Printer.declarationText_begins (h.isPlain hd rfl) hderivings hlayout)
  | importing _ | pragma _ | signature _ | clause _ _ | raw _ => exact hhead

/--
A declaration that is laid out is written behind the trivia before it.
-/
theorem yields_laidOut (started : Bool) : Yields p.newline.text.toList started (p.declaration e true)
    ((Trivia.text (firstToken e).leading).toList ++ (p.declarationText e).toList) :=
  Printer.yields_declaration hplace (fun _ => h.pinned hd) (shaped_declaration h.1 hd.fresh hd.filled)
    (h.tokens_retraceable hd) (begins_declarationText hplace h hd) started

end Keeps

end Align

namespace DerivingFormat

/--
What a declaration is written as without its deriving clauses does not depend on how they would be laid out.
-/
theorem declarationText_withoutDerivings {d : DataDecl} {layout : ListLayout} (hlayout : d.layout = some layout)
    (derivingLayout : Option DerivingLayout) :
    p.declarationText (.data { d with derivings := [], derivingLayout })
      = p.declarationText (.data { d with derivings := [] }) := by
  have htext (d' : DataDecl) (hd' : d'.layout = some layout) (hnil : d'.derivings = []) :
      p.declarationText (.data d') = (p.trailing (lastToken d') true (p.dataBody d' layout p.start)).text := by
    have hform : p.declarationText (.data d') = (p.trailing (lastToken d') true (p.derivings d' layout
        (d'.keyword.column + p.indent) (p.dataBody d' layout p.start))).text := by
      unfold Printer.declarationText Printer.declaration
      dsimp only
      rw [hd']
      rfl
    rw [hform, Printer.derivings_nil hnil]
  exact (htext { d with derivings := [], derivingLayout } hlayout rfl).trans
    (htext { d with derivings := [] } hlayout rfl).symm

/--
The source of deriving clauses is that of their tokens.
-/
theorem clausesSource_eq {d : DataDecl} (hderivings : d.derivings ≠ [])
    (hrest : ∀ t ∈ d.derivings.flatMap tokens, Trivia.text t.trailing.remainder = "") :
    clausesSource d = Token.joinSource (d.derivings.flatMap tokens) := by
  obtain ⟨clause, more, hcons⟩ := List.exists_cons_of_ne_nil hderivings
  have htokens : d.derivings.flatMap tokens = clause.keyword
      :: (clause.strategy.toList ++ clause.classes ++ clause.via ++ more.flatMap tokens) := by
    rw [hcons]
    rfl
  have hsource : clausesSource d
      = clause.keyword.leading.text ++ Token.sourceThroughComments (d.derivings.flatMap tokens) := by
    rw [clausesSource, hcons]
    rfl
  rw [hsource, htokens]
  refine Token.sourceThroughComments_eq (hrest _ ?_)
  rw [htokens, ← List.getLastD_cons (a := clause.keyword)]
  exact Token.getLastD_mem (List.cons_ne_nil _ _) _

/--
The text of a declaration is that of its body and then that of its deriving clauses.
-/
theorem declarationText_eq_append {d : DataDecl} {layout : ListLayout} (hlayout : d.layout = some layout)
    (hderivings : d.derivings ≠ []) (hplain : d.IsPlain) :
    p.declarationText (.data d) = p.declarationText (.data { d with derivings := [] }) ++ clausesText p d := by
  obtain ⟨rest, hrest⟩ := Printer.declarationText_begins (p := p) hplain hderivings hlayout
  refine String.toList_injective ?_
  rw [clausesText, String.toList_append, String.toList_ofList, ← hrest, ← String.length_toList, List.drop_left]

/--
Deriving clauses in normal form are told again with the declaration if their text is their source.
-/
theorem retold_normalize {d : DataDecl} {layout : ListLayout} (hlayout : d.layout = some layout)
    (hderivings : d.derivings ≠ []) (hplain : d.IsPlain) (hbody : (Declaration.data { d with derivings := [] }).Retold p)
    (hshaped : (Declaration.data d).Shaped p.settings)
    (hts : ∀ t ∈ tokens d, t.Retraceable p.newline.text.toList ∧ t.keepsGap p.settings)
    (hsource : clausesText p (normalize p.settings d layout) = clausesSource (normalize p.settings d layout)) :
    (Declaration.data (normalize p.settings d layout)).Retold p := by
  have htokens : tokens (normalize p.settings d layout) = tokens d :=
    congrArg Prod.fst (contents_normalize p.settings d layout)
  have hderivings' : (normalize p.settings d layout).derivings ≠ [] := fun hnil => hderivings (List.map_eq_nil_iff.1 hnil)
  have hshaped' : (declaration p.settings p (.data d) {}).1.Shaped p.settings := shaped_declaration hshaped
  rw [declaration_data, dataDecl_of_layout hlayout hderivings] at hshaped'
  refine ⟨hshaped', fun t ht => hts t (htokens ▸ ht), ?_, nofun⟩
  have hclauses : (normalize p.settings d layout).derivings.flatMap tokens = d.derivings.flatMap tokens := by
    rw [normalize, List.flatMap_map]
    rfl
  have hclausesSource := clausesSource_eq hderivings' fun t ht =>
    (hts t (List.mem_append_right _ (hclauses ▸ ht))).1.rest
  have hbodyText : p.declarationText (.data { normalize p.settings d layout with derivings := [] })
      = p.declarationText (.data { d with derivings := [] }) := declarationText_withoutDerivings hlayout _
  have hbodySource := hbody.source
  rw [show tokens (Declaration.data { d with derivings := [] }) = d.bodyTokens from d.tokens_withoutDerivings]
    at hbodySource
  have hlayout' : (normalize p.settings d layout).layout = some layout := hlayout
  rw [declarationText_eq_append hlayout' hderivings' (isPlain_normalize p.settings hplain layout), hbodyText, hsource,
    hclausesSource, hclauses]
  rw [show tokens (Declaration.data (normalize p.settings d layout)) = d.bodyTokens ++ d.derivings.flatMap tokens
      from htokens,
    Token.joinSource_append, ← hbodySource, ← String.append_assoc]
  rfl

/--
What the rule makes of a declaration.
-/
def marked (settings : Settings) : Declaration → Declaration
  | .data d => .data (dataDecl settings d)
  | d@(.importing _) | d@(.pragma _) | d@(.signature _) | d@(.clause _ _) | d@(.raw _) => d

theorem fst_declaration {settings : Settings} (d : Declaration) (notes : Notes) :
    (declaration settings p d notes).1 = marked settings d := by
  cases d with
  | data d => exact declaration_data p d notes
  | importing _ | pragma _ | signature _ | clause _ _ | raw _ => rfl

theorem declarations_eq_map {settings : Settings} (ds : List Declaration) (notes : Notes) :
    (declarations settings p ds notes).1 = ds.map (marked settings) := by
  induction ds generalizing notes with
  | nil => rfl
  | cons d ds ih => exact congrArg₂ List.cons (fst_declaration d notes) (ih _)

theorem tokens_marked {settings : Settings} (d : Declaration) : tokens (marked settings d) = tokens d := by
  cases d with
  | data d =>
    rcases dataDecl_cases d with heq | ⟨layout, -, -, heq⟩
    · rw [marked, heq]
    · rw [marked, heq]
      exact congrArg Prod.fst (contents_normalize settings d layout)
  | importing _ | pragma _ | signature _ | clause _ _ | raw _ => rfl

include hplace in
/--
A declaration that was laid out is told again with its deriving clauses in normal form if their text is their source.
-/
theorem retold_marked {d e : Declaration} (h : Align.Keeps p.settings p d e) (hd : d.Retraceable p)
    (hsource : ∀ decl, e = .data decl → ∀ layout ∈ decl.layout, decl.derivings ≠ [] →
      clausesText p (normalize p.settings decl layout) = clausesSource (normalize p.settings decl layout)) :
    (marked p.settings e).Retold p := by
  have hbody := Align.retold_withoutDerivings hplace h hd
  cases e with
  | data decl =>
    by_cases hderivings : decl.derivings = []
    · have hbare : ({ decl with derivings := [] } : DataDecl) = decl := by rw [← hderivings]
      rw [Align.withoutDerivings, hbare] at hbody
      rcases dataDecl_cases decl with heq | ⟨layout, -, hne, -⟩
      · rwa [marked, heq]
      · exact absurd hderivings hne
    · cases hlayout : decl.layout with
      | none =>
        rcases dataDecl_cases decl with heq | ⟨layout, hlayout', -, -⟩
        · rw [marked, heq]
          refine Declaration.retold_of_isRewritten hplace (h.tokens_retraceable hd) ?_
          rw [Declaration.isRewritten, hlayout]
          rfl
        · rw [hlayout] at hlayout'
          cases hlayout'
      | some layout =>
        rw [marked, dataDecl_of_layout hlayout hderivings]
        exact retold_normalize hlayout hderivings (h.isPlain hd rfl) hbody
          (Align.shaped_declaration h.1 hd.fresh hd.filled) (h.tokens_retraceable hd)
          (hsource decl rfl layout hlayout hderivings)
  | importing _ | pragma _ | signature _ | clause _ _ | raw _ => exact hbody

end DerivingFormat

/--
A pragma that is pinned where it stands is told again if the lines above it are as they are written.
-/
theorem PragmaOrder.retold_pinned {pragma : Pragma} (h : (Declaration.pragma pragma).Retold p)
    (hsame : p.declarationText (.pragma { pragma with pinned := true }) = p.declarationText (.pragma pragma))
    (habove : pragma.token.leading.text = pragma.writtenAbove p.newline.text) :
    (Declaration.pragma { pragma with pinned := true }).Retold p where
  shaped := trivial
  tokens := h.tokens
  source := hsame ▸ h.source
  above := by
    rintro _ ⟨⟩ -
    exact habove

section Finished

/--
The declarations behind the rule for pragmas.
-/
def PragmaOrder.placed (ds : List Declaration) : List Declaration :=
  if pins ds then pin ds else ds

theorem PragmaOrder.mem_placed {es : List Declaration} {d : Declaration} (hd : d ∈ placed es) :
    d ∈ es ∨ pins es ∧ ∃ pragma, .pragma pragma ∈ es ∧ d = .pragma { pragma with pinned := true } := by
  unfold placed at hd
  split at hd
  · next hpins =>
    obtain ⟨e, he, rfl⟩ := List.mem_map.1 ((pin_perm_map es).mem_iff.1 hd)
    unfold markPinned
    split
    · next index pragma hmoved =>
      exact .inr ⟨hpins, pragma, (moved?_eq_some hmoved).1 ▸ he, rfl⟩
    · exact .inl he
  · exact .inl hd

variable {ds es : List Declaration} (hkeeps : List.Forall₂ (Align.Keeps p.settings p) ds es)
  (hds : ∀ d ∈ ds, d.Retraceable p)
  (hpins : PragmaOrder.pins es → ∀ pragma, .pragma pragma ∈ PragmaOrder.pin es → pragma.pinned →
    PragmaOrder.changes p es (PragmaOrder.pin es) pragma = false)
include hplace hkeeps hds hpins

/--
The declarations behind all rules are told again if no rule notes a change, and nothing else is overlooked: lines above
pinned pragmas that are written differently, and deriving clauses that were changed before the rule for them was applied.
-/
theorem PragmaOrder.retold_placed
    (habove : ∀ pragma, .pragma pragma ∈ placed es → pragma.pinned →
      pragma.token.leading.text = pragma.writtenAbove p.newline.text)
    (hsource : ∀ decl, .data decl ∈ placed es → ∀ layout ∈ decl.layout, decl.derivings ≠ [] →
      DerivingFormat.clausesText p (DerivingFormat.normalize p.settings decl layout)
        = DerivingFormat.clausesSource (DerivingFormat.normalize p.settings decl layout)) :
    ∀ d ∈ (placed es).map (DerivingFormat.marked p.settings), d.Retold p := by
  have hlaid : ∀ e ∈ es, ∃ d ∈ ds, Align.Keeps p.settings p d e := Align.exists_of_forall₂ hkeeps
  refine List.forall_mem_map.2 fun d hd => ?_
  rcases mem_placed hd with he | ⟨hpinned, pragma, he, rfl⟩
  · obtain ⟨d₀, hd₀, h⟩ := hlaid d he
    refine DerivingFormat.retold_marked hplace h (hds d₀ hd₀) fun decl heq => ?_
    subst heq
    exact hsource decl hd
  · obtain ⟨d₀, hd₀, h⟩ := hlaid _ he
    have hmem : Declaration.pragma { pragma with pinned := true } ∈ pin es := by
      rwa [placed, if_pos hpinned] at hd
    have hquiet := hpins hpinned _ hmem rfl
    simp only [changes, Bool.or_eq_false_iff, bne_eq_false_iff_eq] at hquiet
    obtain ⟨token, pinned⟩ := pragma
    obtain rfl : pinned = false := h.pinned (hds d₀ hd₀) rfl
    exact retold_pinned (Align.retold_withoutDerivings hplace h (hds d₀ hd₀)) hquiet.1.2
      (habove { token, pinned := true } hd rfl)

omit hplace hpins in
/--
A pragma that is pinned does not stand first.
-/
theorem PragmaOrder.pinned_head?_placed : ∀ d ∈ ((placed es).map (DerivingFormat.marked p.settings)).head?,
    ∀ pragma, d = .pragma pragma → pragma.pinned = false := by
  have hfresh (pragma : Pragma) (hmem : .pragma pragma ∈ es) : pragma.pinned = false := by
    obtain ⟨d, hd, h⟩ := Align.exists_of_forall₂ hkeeps _ hmem
    exact h.pinned (hds d hd) rfl
  have hhead : ∀ d ∈ (placed es).head?, d ∈ es := by
    intro d hd
    unfold placed at hd
    split at hd
    · rw [pin_eq] at hd
      cases hstaying : staying es with
      | nil => rw [hstaying] at hd; cases hd
      | cons first more =>
        rw [hstaying] at hd
        cases hd
        have hmem : first.1 ∈ (staying es).map Prod.fst := by rw [hstaying]; exact List.mem_cons_self
        rw [map_fst_staying] at hmem
        exact List.mem_of_mem_filter hmem
    · exact List.mem_of_mem_head? hd
  intro d hd pragma heq
  rw [List.head?_map, Option.mem_map] at hd
  obtain ⟨e, he, rfl⟩ := hd
  cases e with
  | pragma q => exact hfresh pragma (heq ▸ hhead _ he)
  | importing _ | signature _ | data _ | clause _ _ | raw _ => cases heq

omit hplace in
/--
The declarations keep their tokens and their order.
-/
theorem PragmaOrder.flatMap_tokens_placed (hplaces : (ds.map place).Nodup) :
    ((placed es).map (DerivingFormat.marked p.settings)).flatMap tokens = ds.flatMap tokens := by
  have hmarked : ((placed es).map (DerivingFormat.marked p.settings)).flatMap tokens = (placed es).flatMap tokens := by
    rw [List.flatMap_map]
    exact List.flatMap_congr fun d _ => DerivingFormat.tokens_marked d
  have hforall : List.Forall₂ (fun d e => Align.declaration p.settings d = .ok e) ds es := hkeeps.imp fun _ _ h => h.1
  have hcontents := congrArg (List.flatMap Prod.fst) (Align.contents_declarations hforall)
  rw [List.flatMap_map, List.flatMap_map] at hcontents
  have hkept : (placed es).flatMap tokens = es.flatMap tokens := by
    unfold placed
    split
    · next hpinned =>
      have hsame : ds.map place = es.map place := by
        rw [← List.forall₂_eq_eq_eq, List.forall₂_map_left_iff, List.forall₂_map_right_iff]
        exact hforall.imp fun d e h => by rw [place, place, Align.firstToken_declaration h]
      have hfresh : ∀ pragma, .pragma pragma ∈ es → pragma.pinned = false := fun pragma hmem => by
        obtain ⟨d, hd, h⟩ := Align.exists_of_forall₂ hkeeps _ hmem
        exact h.pinned (hds d hd) rfl
      rw [pin_eq_map hfresh (hsame ▸ hplaces) fun pragma hmem hpin => ?_, List.flatMap_map]
      · exact List.flatMap_congr fun d _ => tokens_markPinned d
      · have hquiet := hpins hpinned pragma hmem hpin
        simp only [changes, Bool.or_eq_false_iff, decide_eq_false_iff_not, not_not] at hquiet
        exact hquiet.1.1
    · rfl
  rw [hmarked, hkept]
  exact hcontents

end Finished

end HaskellStyle
