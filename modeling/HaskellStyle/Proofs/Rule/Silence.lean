import HaskellStyle.Proofs.Rule.Part
import HaskellStyle.Proofs.Rule.Quiet

/-!
This module contains what rules leave alone if they note no change. The text of a part that is laid out is the text of
its tokens as they stand, or its source; pragmas do not change their order; and imports are written as they were.
-/

namespace HaskellStyle

variable {settings : Settings}

theorem Notes.of_ite_fixed {notes : Notes} {fix : String} {d : Diagnostic} {c : Prop} [Decidable c]
    (hkind : d.kind.isMechanical) (hcheck : d.kind.check = none)
    (h : (if c then notes.fixed settings fix d else notes).hasChanges = false) : ¬c ∧ notes.hasChanges = false := by
  split at h
  · rw [hasChanges_fixed _ hkind hcheck] at h
    cases h
  · next hc => exact ⟨hc, h⟩

theorem Notes.hasChanges_count (notes : Notes) (key : String) (amount : Nat) :
    (notes.count key amount).hasChanges = notes.hasChanges := rfl

theorem Notes.foldl_quiet {α : Type} {step : Notes → α → Notes} {xs : List α}
    (hstep : ∀ notes x, (step notes x).hasChanges = false → notes.hasChanges = false) {notes : Notes}
    (h : (xs.foldl step notes).hasChanges = false) :
    notes.hasChanges = false ∧ ∀ x ∈ xs, ∃ notes, (step notes x).hasChanges = false := by
  induction xs generalizing notes with
  | nil => exact ⟨h, fun x hx => absurd hx List.not_mem_nil⟩
  | cons x xs ih =>
    obtain ⟨hfirst, hmore⟩ := ih h
    exact ⟨hstep _ _ hfirst, List.forall_mem_cons.2 ⟨⟨notes, hfirst⟩, hmore⟩⟩

namespace Align

/--
What laying out a declaration does if no change is noted. The deriving clauses are not compared.
-/
def Keeps (settings : Settings) (p : Printer) (d e : Declaration) : Prop :=
  declaration settings d = .ok e ∧ rewritesSource (tokens (withoutDerivings d))
    (p.declarationText (withoutDerivings d)) (p.declarationText (withoutDerivings e)) = false

theorem declarations_quiet {p : Printer} {ds es : List Declaration} {notes notes' : Notes}
    (h : declarations settings p ds notes = .ok (es, notes')) (hquiet : notes'.hasChanges = false) :
    notes.hasChanges = false ∧ List.Forall₂ (Keeps settings p) ds es := by
  induction ds generalizing es notes notes' with
  | nil =>
    cases h
    exact ⟨hquiet, .nil⟩
  | cons d more ih =>
    simp only [declarations, bind, Except.bind, pure, Except.pure] at h
    split at h
    · cases h
    · next laidOut hd =>
      split at h
      · cases h
      · next hmore =>
        cases h
        obtain ⟨hnotes, hothers⟩ := ih hmore hquiet
        obtain ⟨hsame, hnotes⟩ := Notes.of_ite_fixed rfl rfl hnotes
        exact ⟨hnotes, .cons ⟨hd, by simpa using hsame⟩ hothers⟩

theorem apply_quiet {m : Module} {result : RuleResult} (h : apply settings m = .ok result)
    (hquiet : result.notes.hasChanges = false) :
    (∀ head ∈ m.header, rewritesSource (tokens head) ((Printer.ofModule settings m).headerText head)
        ((Printer.ofModule settings m).headerText (header settings head)) = false)
      ∧ List.Forall₂ (Keeps settings (.ofModule settings m)) m.declarations result.module.declarations := by
  simp only [apply, bind, Except.bind, pure, Except.pure] at h
  split at h
  · cases h
  · next decls hdecls =>
    cases h
    obtain ⟨hnotes, hdecls⟩ := declarations_quiet hdecls hquiet
    refine ⟨fun head hhead => ?_, hdecls⟩
    rw [Option.mem_def] at hhead
    simp only [hhead] at hnotes
    split at hnotes
    · rw [Notes.hasChanges_fixed _ rfl rfl] at hnotes
      cases hnotes
    · next hsame => simpa using hsame

end Align

namespace ImportOrder

/--
Imports that are put in order are written as they were.
-/
theorem apply_quiet {m : Module} (hquiet : (apply settings m).notes.hasChanges = false) :
    (apply settings m).module = m
      ∨ (apply settings m).module = { m with imports := groups settings m, importsNormalized := true }
        ∧ (m.render settings).text = ((apply settings m).module.render settings).text := by
  revert hquiet
  unfold apply
  dsimp only
  split
  · next first more sourceFirst hdecls hfirst =>
    split
    · intro hquiet
      refine .inr ⟨rfl, ?_⟩
      dsimp only at hquiet ⊢
      split at hquiet
      · rw [Notes.hasChanges_count, Notes.hasChanges_fixed _ rfl rfl] at hquiet
        cases hquiet
      · exact not_not.1 (Notes.of_ite_fixed rfl rfl hquiet).1
    · exact fun _ => .inl rfl
  · exact fun _ => .inl rfl

end ImportOrder

namespace PragmaOrder

variable {m : Module}

theorem header?_quiet {notes notes' : Notes} {headed : Module} (h : header? settings m notes = some (headed, notes'))
    (hquiet : notes'.hasChanges = false) :
    ((Printer.ofModule settings m).verbatimInside (m.headerPragmas.map (·.token)) (Printer.ofModule settings m).start).text
      = ((Printer.ofModule settings m).headerPragmas (m.headerPragmas.mergeSort pragmaLe) false
        (Printer.ofModule settings m).start).text := by
  unfold header? at h
  split at h
  · cases h
  · split at h
    · cases h
    · dsimp only at h
      obtain ⟨-, rfl⟩ := Prod.mk.inj (Option.some.inj h)
      split at hquiet
      · next hsame => exact beq_iff_eq.1 hsame
      · rw [Notes.hasChanges_fixed _ rfl rfl] at hquiet
        cases hquiet

theorem binders?_quiet {notes notes' : Notes} {pinned : Module} (h : binders? settings m notes = some (pinned, notes'))
    (hquiet : notes'.hasChanges = false) :
    notes.hasChanges = false ∧ ∀ pragma, .pragma pragma ∈ pin m.declarations → pragma.pinned →
      changes (.ofModule settings m) m.declarations (pin m.declarations) pragma = false := by
  unfold binders? at h
  dsimp only at h
  split at h
  · cases h
  · obtain ⟨-, rfl⟩ := Prod.mk.inj (Option.some.inj h)
    refine (Notes.foldl_quiet (fun notes d hquiet => ?_) hquiet).imp_right fun hnoted pragma hmem hpinned => ?_
    · split at hquiet
      · exact (Notes.of_ite_fixed rfl rfl hquiet).2
      · exact hquiet
    · obtain ⟨notes, hnoted⟩ := hnoted _ hmem
      obtain ⟨hsame, -⟩ := Notes.of_ite_fixed rfl rfl hnoted
      simpa [hpinned] using hsame

/--
Header pragmas are written as they were, and no pragma is pinned that does not stand where it goes.
-/
theorem apply_quiet (hquiet : (apply settings m).notes.hasChanges = false) :
    (reorders m → ((Printer.ofModule settings m).verbatimInside (m.headerPragmas.map (·.token))
        (Printer.ofModule settings m).start).text
      = ((Printer.ofModule settings m).headerPragmas (m.headerPragmas.mergeSort pragmaLe) false
        (Printer.ofModule settings m).start).text)
      ∧ (pins m.declarations → ∀ pragma, .pragma pragma ∈ pin m.declarations → pragma.pinned →
        changes (.ofModule settings m) m.declarations (pin m.declarations) pragma = false) := by
  have hheader := map_fst_header? settings m {}
  have hbinders (headed : Module) (notes : Notes) := map_fst_binders? settings headed notes
  revert hquiet
  unfold apply
  cases hheaded : header? settings m {} with
  | none =>
    rw [hheaded] at hheader
    have hkept : ¬reorders m := fun h => by rw [if_pos h] at hheader; cases hheader
    dsimp only
    cases hpinned : binders? settings m {} with
    | none =>
      have hnone := hbinders m {}
      rw [hpinned] at hnone
      exact fun _ => ⟨fun h => absurd h hkept, fun h => by rw [if_pos h] at hnone; cases hnone⟩
    | some pinned =>
      obtain ⟨pinned, notes⟩ := pinned
      exact fun hquiet => ⟨fun h => absurd h hkept, fun _ => (binders?_quiet hpinned hquiet).2⟩
  | some headed =>
    obtain ⟨headed, notes⟩ := headed
    rw [hheaded] at hheader
    have hreorders : reorders m := by
      by_contra h
      rw [if_neg h] at hheader
      cases hheader
    rw [if_pos hreorders] at hheader
    obtain rfl : headed = _ := Option.some.inj hheader
    dsimp only
    cases hpinned : binders? settings { m with
        headerPragmas := m.headerPragmas.mergeSort pragmaLe, pragmasNormalized := true } notes with
    | none =>
      have hnone := hbinders { m with
        headerPragmas := m.headerPragmas.mergeSort pragmaLe, pragmasNormalized := true } notes
      rw [hpinned] at hnone
      exact fun hquiet => ⟨fun _ => header?_quiet hheaded hquiet, fun h => by rw [if_pos h] at hnone; cases hnone⟩
    | some pinned =>
      obtain ⟨pinned, notes'⟩ := pinned
      intro hquiet
      obtain ⟨hnotes, hkept⟩ := binders?_quiet hpinned hquiet
      exact ⟨fun _ => header?_quiet hheaded hnotes, fun _ => hkept⟩

section Previous

/--
The place at which a declaration begins.
-/
def place (d : Declaration) : Nat :=
  (firstToken d).offset

variable {ds before after : List Declaration} {d : Declaration}

theorem previousOffset_eq_none {offset : Nat} (h : offset ∉ ds.tail.map place) : previousOffset offset ds = none := by
  fun_induction previousOffset offset ds with
  | case1 d e more heq =>
    exact absurd heq fun heq => h (by rw [← heq]; exact List.mem_cons_self)
  | case2 d e more hne ih => exact ih fun hmem => h (List.mem_cons_of_mem _ hmem)
  | case3 => rfl

theorem previousOffset_append (h : ((before ++ d :: after).map place).Nodup) :
    previousOffset (place d) (before ++ d :: after) = before.getLast?.map place := by
  induction before with
  | nil => exact previousOffset_eq_none (List.nodup_cons.1 h).1
  | cons first more ih =>
    have hmore := ih (List.nodup_cons.1 h).2
    cases more with
    | nil => exact if_pos rfl
    | cons second rest =>
      have hne : place second ≠ place d := by
        rw [List.map_append, List.nodup_append] at h
        exact h.2.2 _ (by simp) _ (by simp)
      rw [List.getLast?_cons_cons]
      exact (if_neg hne).trans hmore

/--
A declaration with the same one before it in two lists stands behind what they have in common, if it does so in one.
-/
theorem eq_of_previous {front rest rest' : List Declaration} {e : Declaration}
    (h : ((front ++ d :: rest).map place).Nodup) (h' : ((front ++ e :: rest').map place).Nodup) (hd : d ∈ e :: rest')
    (hprevious : previousOffset (place d) (front ++ d :: rest) = previousOffset (place d) (front ++ e :: rest')) :
    d = e := by
  rcases List.mem_cons.1 hd with heq | hd
  · exact heq
  obtain ⟨before, after, rfl⟩ := List.append_of_mem hd
  rw [← List.cons_append, ← List.append_assoc] at h' hprevious
  rw [previousOffset_append h, previousOffset_append h',
    List.getLast?_append_of_ne_nil _ (List.cons_ne_nil _ _)] at hprevious
  have hlast := List.getLast?_eq_some_getLast (List.cons_ne_nil e before)
  generalize (e :: before).getLast _ = last at hlast
  rw [hlast, Option.map_some, Option.map_eq_some_iff] at hprevious
  obtain ⟨other, hother, hplace⟩ := hprevious
  rw [List.map_append, List.map_append, List.append_assoc, List.nodup_append] at h'
  exact absurd hplace (h'.2.2 _ (List.mem_map_of_mem (List.mem_of_getLast? hother)) _
    (List.mem_append_left _ (List.mem_map_of_mem (List.mem_of_getLast? hlast))))

/--
Declarations that do not change their order if some are taken out keep it if each of these has the same one before it.
-/
theorem eq_of_previousOffset {es : List Declaration} (hperm : es.Perm ds) (hnodup : (ds.map place).Nodup)
    {stays : Declaration → Bool} (hstays : es.filter stays = ds.filter stays)
    (hmoved : ∀ d ∈ ds, stays d = false → previousOffset (place d) ds = previousOffset (place d) es) : es = ds := by
  have hnodup' : (es.map place).Nodup := (hperm.map place).nodup_iff.2 hnodup
  -- The lists are compared from their starts on.
  suffices h : ∀ rest front rest', ds = front ++ rest → es = front ++ rest' → rest' = rest from h ds [] es rfl rfl
  intro rest
  induction rest with
  | nil =>
    rintro front rest' rfl rfl
    exact List.perm_nil.1 ((List.perm_append_left_iff front).1 hperm)
  | cons d rest ih =>
    rintro front rest' rfl rfl
    have hrest := (List.perm_append_left_iff front).1 hperm
    cases rest' with
    | nil => exact absurd hrest.symm (by simp)
    | cons e rest' =>
      have hd : d ∈ e :: rest' := hrest.mem_iff.2 List.mem_cons_self
      have he : e ∈ d :: rest := hrest.mem_iff.1 List.mem_cons_self
      have heq : d = e := by
        cases hstaysd : stays d with
        | false => exact eq_of_previous hnodup hnodup' hd (hmoved d (by simp) hstaysd)
        | true =>
          cases hstayse : stays e with
          | false => exact (eq_of_previous hnodup' hnodup he (hmoved e (List.mem_append_right _ he) hstayse).symm).symm
          | true =>
            simp only [List.filter_append, List.filter_cons, hstaysd, hstayse, if_true,
              List.append_cancel_left_eq] at hstays
            exact (List.cons.inj hstays).1.symm
      subst heq
      exact congrArg _ (ih (front ++ [d]) rest' (by simp) (by simp))

theorem previousOffset_congr {es : List Declaration} (h : es.map place = ds.map place) (offset : Nat) :
    previousOffset offset es = previousOffset offset ds := by
  induction ds generalizing es with
  | nil => rw [List.map_eq_nil_iff.1 h]
  | cons d ds ih =>
    obtain ⟨e, es, rfl, he, hes⟩ := List.map_eq_cons_iff.1 h
    have hmore := ih hes
    cases ds with
    | nil => rw [List.map_eq_nil_iff.1 hes]; rfl
    | cons d' ds =>
      obtain ⟨e', es, rfl, he', -⟩ := List.map_eq_cons_iff.1 hes
      show (if place e' = offset then some (place e) else previousOffset offset (e' :: es))
        = if place d' = offset then some (place d) else previousOffset offset (d' :: ds)
      rw [he, he', hmore]

end Previous

/--
A declaration with the mark of a pragma that has been pinned, if it goes behind another declaration.
-/
def markPinned (ds : List Declaration) (d : Declaration) : Declaration :=
  match moved? ds d with
  | some (_, p) => .pragma { p with pinned := true }
  | none => d

/--
Whether a declaration is no pragma that has been pinned.
-/
def isUnpinned : Declaration → Bool
  | .pragma p => !p.pinned
  | _ => true

section Pin

variable {ds : List Declaration} (hfresh : ∀ p, .pragma p ∈ ds → p.pinned = false)

theorem place_markPinned (d : Declaration) : place (markPinned ds d) = place d := by
  unfold markPinned
  split
  · next index p hmoved =>
    rw [(moved?_eq_some hmoved).1]
    rfl
  · rfl

theorem tokens_markPinned (d : Declaration) : tokens (markPinned ds d) = tokens d := by
  unfold markPinned
  split
  · next index p hmoved =>
    rw [(moved?_eq_some hmoved).1]
    rfl
  · rfl

theorem map_markPinned_filter (ds : List Declaration) :
    (ds.filter fun d => (moved? ds d).isNone).map (markPinned ds) = ds.filter fun d => (moved? ds d).isNone := by
  refine (List.map_congr_left fun d hd => ?_).trans (List.map_id _)
  rw [markPinned, Option.isNone_iff_eq_none.1 (List.mem_filter.1 hd).2]
  rfl

theorem pin_perm_map (ds : List Declaration) : (pin ds).Perm (ds.map (markPinned ds)) := by
  have hmoved (es : List Declaration) :
      (es.filterMap (moved? ds)).map (fun moved => Declaration.pragma { moved.2 with pinned := true })
        = (es.filter fun d => !(moved? ds d).isNone).map (markPinned ds) := by
    induction es with
    | nil => rfl
    | cons d es ih =>
      cases hd : moved? ds d with
      | none => simp [hd, ih]
      | some moved =>
        rw [List.filterMap_cons_some hd, List.map_cons, ih, List.filter_cons_of_pos (by simp [hd]), List.map_cons,
          markPinned, hd]
  have hsplit := (List.filter_append_perm (fun d => (moved? ds d).isNone) ds).map (markPinned ds)
  rw [List.map_append, map_markPinned_filter, ← hmoved] at hsplit
  exact (pin_perm ds).trans hsplit

include hfresh

theorem isUnpinned_of_mem {d : Declaration} (hd : d ∈ ds) : isUnpinned d := by
  unfold isUnpinned
  split
  · next p => rw [hfresh p hd]; rfl
  · rfl

theorem filter_isUnpinned : (pin ds).filter isUnpinned = (ds.map (markPinned ds)).filter isUnpinned := by
  have hmarked : (ds.map (markPinned ds)).filter isUnpinned = ds.filter fun d => (moved? ds d).isNone := by
    rw [List.filter_map, ← map_markPinned_filter]
    congr 1
    refine List.filter_congr fun d hd => ?_
    rw [Function.comp_apply, markPinned]
    cases moved? ds d with
    | none => exact isUnpinned_of_mem hfresh hd
    | some moved => rfl
  rw [hmarked, ← map_fst_staying, pin_eq, List.filter_flatMap, List.map_eq_flatMap]
  refine List.flatMap_congr fun ⟨d, index⟩ hmem => ?_
  have hd : d ∈ ds := List.mem_of_mem_filter (map_fst_staying ds ▸ List.mem_map_of_mem hmem)
  rw [List.filter_cons_of_pos (isUnpinned_of_mem hfresh hd), List.filter_eq_nil_iff.2]
  intro e he
  obtain ⟨⟨_, p⟩, -, rfl⟩ := List.mem_map.1 he
  simp [isUnpinned]

/--
Pragmas that have the same declaration before them when they are pinned have not been moved.
-/
theorem pin_eq_map (hnodup : (ds.map place).Nodup) (hquiet : ∀ pragma, .pragma pragma ∈ pin ds → pragma.pinned →
    previousOffset pragma.token.offset ds = previousOffset pragma.token.offset (pin ds)) :
    pin ds = ds.map (markPinned ds) := by
  have hplaces : (ds.map (markPinned ds)).map place = ds.map place := by
    rw [List.map_map]
    exact List.map_congr_left fun d _ => place_markPinned d
  refine eq_of_previousOffset (pin_perm_map ds) (hplaces ▸ hnodup) (filter_isUnpinned hfresh) fun d hd hpinned => ?_
  rw [previousOffset_congr hplaces]
  cases d with
  | pragma p => exact hquiet p ((pin_perm_map ds).mem_iff.2 hd) (by simpa [isUnpinned] using hpinned)
  | _ => cases hpinned

end Pin

end PragmaOrder

namespace DerivingFormat

theorem declaration_quiet {p : Printer} {d : Declaration} {notes : Notes}
    (hquiet : (declaration settings p d notes).2.hasChanges = false) : notes.hasChanges = false
      ∧ ∀ decl, d = .data decl → ∀ layout ∈ decl.layout, decl.derivings ≠ [] →
        clausesText p (normalize settings decl layout) = clausesText p decl
          ∨ clausesText p (normalize settings decl layout) = clausesSource decl := by
  unfold declaration at hquiet
  split at hquiet
  · next decl =>
    split at hquiet
    · next layout first more hlayout hderivings =>
      obtain ⟨hsame, hnotes⟩ := Notes.of_ite_fixed rfl rfl hquiet
      refine ⟨hnotes, fun decl' heq layout' hlayout' _ => ?_⟩
      cases heq
      rw [hlayout] at hlayout'
      cases hlayout'
      simp only [bne_iff_ne, ne_eq, Bool.and_eq_true, not_and, not_not] at hsame
      exact or_iff_not_imp_left.2 hsame
    · next hnone =>
      refine ⟨hquiet, fun decl' heq layout hlayout hne => ?_⟩
      cases heq
      obtain ⟨first, more, hderivings⟩ := List.exists_cons_of_ne_nil hne
      exact absurd hderivings (hnone layout first more hlayout)
  · next hdata => exact ⟨hquiet, fun decl heq => absurd heq (hdata decl)⟩

theorem declarations_quiet {p : Printer} {ds : List Declaration} {notes : Notes}
    (hquiet : (declarations settings p ds notes).2.hasChanges = false) : notes.hasChanges = false
      ∧ ∀ decl, .data decl ∈ ds → ∀ layout ∈ decl.layout, decl.derivings ≠ [] →
        clausesText p (normalize settings decl layout) = clausesText p decl
          ∨ clausesText p (normalize settings decl layout) = clausesSource decl := by
  induction ds generalizing notes with
  | nil => exact ⟨hquiet, fun decl hdecl => absurd hdecl List.not_mem_nil⟩
  | cons d more ih =>
    obtain ⟨hnotes, hmore⟩ := ih hquiet
    obtain ⟨hnotes, hfirst⟩ := declaration_quiet hnotes
    refine ⟨hnotes, fun decl hdecl => ?_⟩
    rcases List.mem_cons.1 hdecl with heq | hdecl
    · exact hfirst decl heq.symm
    · exact hmore decl hdecl

end DerivingFormat

/--
No rule notes a change if all rules together do not.
-/
theorem Module.applyRules_quiet {m : Module} {ruled : RuledModule} (h : m.applyRules settings = .ok ruled)
    (hquiet : ∀ d ∈ ruled.found, d.isMechanical = false) :
    (Indent.apply settings m).notes.hasChanges = false
      ∧ ∃ aligned, Align.apply settings (Indent.apply settings m).module = .ok aligned
        ∧ ruled.module = aligned.module.finished settings ∧ aligned.notes.hasChanges = false
        ∧ (ImportOrder.apply settings aligned.module).notes.hasChanges = false
        ∧ (PragmaOrder.apply settings (ImportOrder.apply settings aligned.module).module).notes.hasChanges = false
        ∧ (DerivingFormat.apply settings (PragmaOrder.apply settings
          (ImportOrder.apply settings aligned.module).module).module).notes.hasChanges = false := by
  have hnone {notes : Notes} (hsub : notes.found ⊆ ruled.found) : notes.hasChanges = false :=
    List.any_eq_false.2 fun d hd => by rw [hquiet d (hsub hd)]; exact Bool.false_ne_true
  obtain ⟨aligned, haligned, hmodule⟩ := applyRules_ok h
  have hfound : ruled.found = (Rule.applyAll settings m Rule.all).1.flatMap (·.2.notes.found) := by
    unfold Module.applyRules at h
    dsimp only at h
    split at h
    · cases h
    · cases h
      rfl
  have hmem (r : Rule × RuleResult) (hr : r ∈ (Rule.applyAll settings m Rule.all).1) : r.2.notes.hasChanges = false :=
    hnone fun d hd => hfound ▸ List.mem_flatMap.2 ⟨r, hr, hd⟩
  have hall : ∃ others, (Rule.applyAll settings m Rule.all).1
      = (.indentation, Indent.apply settings m) :: (.alignment, aligned)
        :: (.importOrder, ImportOrder.apply settings aligned.module)
        :: (.pragmaPlacement, PragmaOrder.apply settings (ImportOrder.apply settings aligned.module).module)
        :: (.strictnessDeriving, DerivingFormat.apply settings
          (PragmaOrder.apply settings (ImportOrder.apply settings aligned.module).module).module) :: others := by
    simp only [Rule.all, Rule.applyAll, Rule.apply, haligned]
    exact ⟨_, rfl⟩
  obtain ⟨others, hall⟩ := hall
  rw [hall] at hmem
  simp only [List.forall_mem_cons] at hmem
  exact ⟨hmem.1, aligned, haligned, hmodule, hmem.2.1, hmem.2.2.1, hmem.2.2.2.1, hmem.2.2.2.2.1⟩

end HaskellStyle
