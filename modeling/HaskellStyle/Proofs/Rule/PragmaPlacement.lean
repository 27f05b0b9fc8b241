import HaskellStyle.Proofs.Diagnostic.Sort
import HaskellStyle.Proofs.Rule.Unlaid
import HaskellStyle.Proofs.Rule.PragmaRun
import HaskellStyle.Proofs.Rule.Region
import Mathlib.Data.Prod.Lex
import Mathlib.Data.String.Basic

/-!
This module contains where the rule for pragmas puts them, whatever rules were applied before. Header pragmas come in
order, with ties as in the source; a pragma about a binder comes to the run of pragmas behind the last declaration of
the binder, in the order of the source; and nothing else changes its place.
-/

namespace HaskellStyle

variable {settings : Settings}

namespace Declaration

/--
A declaration as it was read, whether or not it was pinned since.
-/
def unpinned : Declaration → Declaration
  | .pragma p => .pragma { p with pinned := false }
  | d@(.importing _) | d@(.signature _) | d@(.data _) | d@(.clause _ _) | d@(.raw _) => d

/--
Whether a declaration is a pinned pragma.
-/
def isPinned : Declaration → Bool
  | .pragma p => p.pinned
  | .importing _ | .signature _ | .data _ | .clause _ _ | .raw _ => false

end Declaration

/--
Whether a header pragma belongs before another one: by their blocks, then by the first extension, and else as in the
source.
-/
def Pragma.Precedes (p q : Pragma) : Prop :=
  (PragmaOrder.sortKey p).1 < (PragmaOrder.sortKey q).1
    ∨ (PragmaOrder.sortKey p).1 = (PragmaOrder.sortKey q).1
      ∧ ((PragmaOrder.sortKey p).2 < (PragmaOrder.sortKey q).2
        ∨ (PragmaOrder.sortKey p).2 = (PragmaOrder.sortKey q).2 ∧ p.token.offset < q.token.offset)

namespace PragmaOrder

section Header

theorem pragmaLe_iff {p q : Pragma} : pragmaLe p q ↔ toLex (sortKey p) ≤ toLex (sortKey q) := by
  unfold pragmaLe
  rw [Prod.Lex.toLex_le_toLex]
  simp

theorem pragmaLe_trans (p q r : Pragma) : pragmaLe p q → pragmaLe q r → pragmaLe p r := by
  simp only [pragmaLe_iff]
  exact le_trans

theorem pragmaLe_total (p q : Pragma) : pragmaLe p q || pragmaLe q p := by
  rw [Bool.or_eq_true, pragmaLe_iff, pragmaLe_iff]
  exact le_total _ _

/--
Header pragmas are sorted stably.
-/
theorem pairwise_precedes {pragmas : List Pragma} (h : pragmas.Pairwise fun p q => p.token.offset < q.token.offset) :
    (pragmas.mergeSort pragmaLe).Pairwise Pragma.Precedes := by
  refine (pairwise_mergeSort_of_pairwise pragmaLe_trans pragmaLe_total h).imp fun {p q} hpq => ?_
  rw [pragmaLe_iff, pragmaLe_iff, Prod.Lex.toLex_le_toLex, Prod.Lex.toLex_le_toLex] at hpq
  rcases hpq.1 with hlt | ⟨heq, hle⟩
  · exact .inl hlt
  · rcases lt_or_eq_of_le hle with hlt | hsame
    · exact .inr ⟨heq, .inl hlt⟩
    · exact .inr ⟨heq, .inr ⟨hsame, hpq.2 (.inr ⟨heq.symm, le_of_eq hsame.symm⟩)⟩⟩

end Header

variable {ds es : List Declaration}

theorem pins_iff :
    pins ds ↔ (∀ d ∈ ds, (firstToken d).column = 0) ∧ ∃ move, move ∈ ds.filterMap (moved? ds) := by
  unfold pins
  rw [Bool.not_eq_true', Bool.or_eq_false_iff]
  refine and_congr (by simp) ?_
  simp only [List.mem_filterMap, ← Bool.not_eq_true, List.all_eq_true, Option.isNone_iff_eq_none, not_forall,
    Option.ne_none_iff_exists', exists_prop]
  exact ⟨fun ⟨d, hd, move, hmove⟩ => ⟨move, d, hd, hmove⟩, fun ⟨move, d, hd, hmove⟩ => ⟨d, hd, move, hmove⟩⟩

/--
What the rules keep about the pragmas among the declarations: a pinned one can still be moved, and those with one owner
stand in the order of the source.
-/
structure Ordered (ds : List Declaration) : Prop where
  pinned : ∀ p, .pragma p ∈ ds → p.pinned → pins ds ∧ (destination? ds p).isSome
  ordered : ∀ index, ((ds.filterMap (moved? ds)).filter (·.1 = index)).Pairwise
    fun a b => a.2.token.offset < b.2.token.offset

theorem Ordered.of_alike (h : List.Forall₂ Alike ds es) (hds : Ordered ds) : Ordered es where
  pinned p hp hpinned := by
    have hmem {ds es : List Declaration} (h : List.Forall₂ Alike ds es) : .pragma p ∈ es → .pragma p ∈ ds := by
      induction h with
      | nil => exact id
      | cons hde _ ih =>
        rintro (_ | ⟨_, hmem⟩)
        · rw [(hde.pragma_iff p).1 rfl]
          exact List.mem_cons_self
        · exact List.mem_cons_of_mem _ (ih hmem)
    rw [pins_eq h, destination?_eq h]
    exact hds.pinned p (hmem h hp) hpinned
  ordered index := by
    have hfilterMap (ds : List Declaration) : ds.filterMap (moved? ds) = (ds.map (moved? ds)).filterMap id := by
      rw [List.filterMap_map]
      rfl
    rw [hfilterMap, map_moved?_eq h, ← hfilterMap]
    exact hds.ordered index

theorem Ordered.of_fresh (hfresh : ∀ d ∈ ds, d.IsFresh)
    (hoffsets : (ds.flatMap tokens).Pairwise fun t u => t.offset < u.offset) : Ordered ds where
  pinned p hp hpinned := by
    rw [(hfresh _ hp).2 p rfl] at hpinned
    cases hpinned
  ordered index := by
    have hsublist : ((ds.filterMap (moved? ds)).map (·.2.token)).Sublist (ds.flatMap tokens) := by
      have htokens := (List.filter_sublist (p := fun d => !(moved? ds d).isNone) (l := ds)).flatMap tokens
      rw [← filterMap_moved?_map, List.flatMap_map] at htokens
      rw [List.map_eq_flatMap]
      exact htokens
    exact (List.pairwise_map.1 (hoffsets.sublist hsublist)).filter _

/--
In clusters, the pragmas with one owner stand in the order in which their cluster has them.
-/
theorem Settled.ordered {xs : List Cluster} (h : Settled ds xs)
    (hxs : ∀ x ∈ xs, x.pragmas.Pairwise fun p q => p.token.offset < q.token.offset) (index : Nat) :
    ((ds.filterMap (moved? ds)).filter (·.1 = index)).Pairwise fun a b => a.2.token.offset < b.2.token.offset := by
  by_cases hnil : (ds.filterMap (moved? ds)).filter (·.1 = index) = []
  · rw [hnil]
    exact .nil
  · obtain ⟨⟨index', p⟩, hmem⟩ := List.exists_mem_of_ne_nil _ hnil
    obtain ⟨hmove, hindex⟩ := List.mem_filter.1 hmem
    obtain rfl : index' = index := by simpa using hindex
    obtain ⟨d, hd, hmoved⟩ := List.mem_filterMap.1 hmove
    rw [h.eq] at hd
    obtain ⟨x, hx, hd⟩ := List.mem_flatMap.1 hd
    obtain ⟨before, after, hsplit⟩ := List.append_of_mem hx
    rcases List.mem_cons.1 hd with rfl | hd
    · rw [h.stays x hx] at hmoved
      cases hmoved
    · obtain ⟨q, hq, rfl⟩ := List.mem_map.1 hd
      rw [h.moved?_pragma hsplit hq] at hmoved
      cases hmoved
      rw [h.filter_moved? hsplit]
      exact List.pairwise_map.2 (hxs x hx)

theorem pairwise_pragmas (hds : Ordered ds) {x : Cluster} (hx : x ∈ Cluster.ofDeclarations ds) :
    x.pragmas.Pairwise fun p q => p.token.offset < q.token.offset := by
  obtain ⟨y, -, rfl⟩ := List.mem_map.1 hx
  exact List.pairwise_map.2 (hds.ordered y.2)

/--
A declaration that stays is not pinned.
-/
theorem isPinned_of_stays (hds : Ordered ds) {d : Declaration} (hd : d ∈ ds) (hstays : moved? ds d = none) :
    d.isPinned = false := by
  cases d with
  | pragma p =>
    refine Bool.eq_false_iff.2 fun hpinned => ?_
    have hsome := (hds.pinned p hd hpinned).2
    rw [moved?_eq_none_iff.1 hstays p rfl] at hsome
    cases hsome
  | importing | signature | data | clause | raw => rfl

theorem isPinned_owner (hds : Ordered ds) {x : Cluster} (hx : x ∈ Cluster.ofDeclarations ds) :
    x.owner.isPinned = false := by
  obtain ⟨y, hy, rfl⟩ := List.mem_map.1 hx
  obtain ⟨hmem, hstays⟩ := List.mem_filter.1 hy
  exact isPinned_of_stays hds (List.fst_mem_of_mem_zipIdx hmem) (Option.isNone_iff_eq_none.1 hstays)

/--
An element of lists one behind the other is an element of one of them.
-/
theorem exists_of_flatMap_eq {α β : Type} {f : α → List β} {xs : List α} {before after : List β} {y : β}
    (h : xs.flatMap f = before ++ y :: after) :
    ∃ earlier x later left right, xs = earlier ++ x :: later ∧ f x = left ++ y :: right
      ∧ before = earlier.flatMap f ++ left ∧ after = right ++ later.flatMap f := by
  induction xs generalizing before with
  | nil => simp at h
  | cons z zs ih =>
    rw [List.flatMap_cons] at h
    rcases List.append_eq_append_iff.1 h with ⟨more, hmore, hrest⟩ | ⟨more, hz, hrest⟩
    · obtain ⟨earlier, x, later, left, right, rfl, hx, rfl, rfl⟩ := ih hrest
      exact ⟨z :: earlier, x, later, left, right, rfl, hx, by simp [hmore], rfl⟩
    · cases more with
      | nil =>
        obtain ⟨earlier, x, later, left, right, rfl, hx, hleft, rfl⟩ := @ih [] hrest.symm
        obtain ⟨hearlier, rfl⟩ := List.append_eq_nil_iff.1 hleft.symm
        refine ⟨z :: earlier, x, later, [], right, rfl, hx, ?_, rfl⟩
        rw [List.flatMap_cons, hearlier, hz]
        simp
      | cons e more =>
        obtain ⟨rfl, rfl⟩ := List.cons.inj hrest
        exact ⟨[], z, zs, before, more, rfl, hz, rfl, rfl⟩

/--
A pinned pragma stands in a cluster.
-/
theorem exists_cluster (hds : Ordered ds) {before after : List Declaration} {p : Pragma} (hpinned : p.pinned)
    (h : pin ds = before ++ .pragma p :: after) :
    ∃ xs ys owner, ∃ run more : List Pragma, Cluster.ofDeclarations ds = xs ++ ⟨owner, run ++ p :: more⟩ :: ys
      ∧ before = xs.flatMap Cluster.declarations ++ owner :: run.map .pragma
      ∧ after = more.map .pragma ++ ys.flatMap Cluster.declarations := by
  rw [pin_eq_flatMap] at h
  obtain ⟨xs, ⟨owner, pragmas⟩, ys, left, right, hxs, hx, hbefore, hafter⟩ := exists_of_flatMap_eq h
  cases left with
  | nil =>
    -- Pinned pragmas own no others.
    have howner : (Declaration.pragma p).isPinned = false := by
      have hfirst : owner = .pragma p := (List.cons.inj hx).1
      rw [← hfirst]
      exact isPinned_owner hds (x := ⟨owner, pragmas⟩) (by simp [hxs])
    rw [show (Declaration.pragma p).isPinned = p.pinned from rfl, hpinned] at howner
    cases howner
  | cons e left =>
    obtain ⟨rfl, hpragmas⟩ := List.cons.inj hx
    obtain ⟨run, rest, rfl, rfl, hrest⟩ := List.map_eq_append_iff.1 hpragmas
    obtain ⟨q, more, rfl, hq, rfl⟩ := List.map_eq_cons_iff.1 hrest
    cases hq
    exact ⟨xs, ys, owner, run, more, hxs, hbefore, hafter⟩

theorem ordered_pin (hds : Ordered ds) (hpins : pins ds) : Ordered (pin ds) where
  pinned p hp hpinned := by
    obtain ⟨before, after, hsplit⟩ := List.append_of_mem hp
    obtain ⟨xs, ys, owner, run, more, hxs, -, -⟩ := exists_cluster hds hpinned hsplit
    have hmoved := ((settled_pin ds).moved xs _ ys hxs p (by simp)).2
    refine ⟨pins_iff.2 ⟨fun d hd => ?_, ?_⟩, Option.isSome_iff_exists.2 ⟨_, hmoved⟩⟩
    · have hcolumn := (pins_iff.1 hpins).1
      rw [(pin_perm ds).mem_iff, List.mem_append] at hd
      rcases hd with hd | hd
      · exact hcolumn d (List.mem_of_mem_filter hd)
      · obtain ⟨⟨index, q⟩, hq, rfl⟩ := List.mem_map.1 hd
        obtain ⟨e, he, hmove⟩ := List.mem_filterMap.1 hq
        have hq := hcolumn e he
        rw [(moved?_eq_some hmove).1] at hq
        exact hq
    · exact ⟨_, List.mem_filterMap.2 ⟨_, hp, (settled_pin ds).moved?_pragma hxs (by simp)⟩⟩
  ordered := (settled_pin ds).ordered fun _ => pairwise_pragmas hds

/--
A pinned pragma stands in the run of pinned pragmas behind the last declaration of its binder.
-/
theorem pinned_place (hds : Ordered ds) {before after : List Declaration} {p : Pragma} (hpinned : p.pinned)
    (h : pin ds = before ++ .pragma p :: after) :
    ∃ earlier owner, ∃ run : List Pragma, ∃ name, before = earlier ++ owner :: run.map .pragma
      ∧ (∀ q ∈ run, q.pinned ∧ q.token.offset < p.token.offset)
      ∧ p.target = some name ∧ name ∈ bindersOf owner ∧ ∀ d ∈ after, name ∉ bindersOf d := by
  obtain ⟨xs, ys, owner, run, more, hxs, rfl, rfl⟩ := exists_cluster hds hpinned h
  have hsettled := settled_pin ds
  have hplace (q : Pragma) (hq : q ∈ run ++ p :: more) := hsettled.moved xs _ ys hxs q hq
  obtain ⟨-, name, hname, howner⟩ := destination?_eq_some_iff.1 (hplace p (by simp)).2
  obtain ⟨before, d, after, hsplit, hlength, hd, hafter⟩ := owner?_eq_some_iff.1 howner
  rw [hsettled.eq, hxs, List.flatMap_append, List.flatMap_cons] at hsplit
  -- The index of the owner is the length of all clusters before its own.
  obtain ⟨-, hrest⟩ := List.append_inj hsplit hlength.symm
  obtain ⟨rfl, rfl⟩ := List.cons.inj hrest
  refine ⟨_, owner, run, name, rfl, fun q hq => ⟨(hplace q (by simp [hq])).1, ?_⟩, hname, hd, fun d hd => ?_⟩
  · have hsorted := pairwise_pragmas hds (x := ⟨owner, run ++ p :: more⟩) (by simp [hxs])
    exact (List.pairwise_append.1 hsorted).2.2 q hq p (by simp)
  · exact hafter d (by simpa using .inr (.inr (by simpa using hd)))

theorem map_unpinned_pin (ds : List Declaration) :
    ((pin ds).map Declaration.unpinned).Perm (ds.map Declaration.unpinned) := by
  have hsplit := (List.filter_append_perm (fun d => (moved? ds d).isNone) ds).map Declaration.unpinned
  refine ((pin_perm ds).map _).trans (.trans ?_ hsplit)
  rw [List.map_append, List.map_append, ← filterMap_moved?_map, List.map_map, List.map_map]
  exact .refl _

theorem filter_isPinned_pinned (moves : List (Nat × Pragma)) :
    List.filter (!·.isPinned) (moves.map fun (_, p) => Declaration.pragma { p with pinned := true }) = [] := by
  rw [List.filter_eq_nil_iff]
  intro e he
  obtain ⟨y, -, rfl⟩ := List.mem_map.1 he
  simp [Declaration.isPinned]

theorem filter_isPinned_pin (ds : List Declaration) : ((pin ds).filter (!·.isPinned)).Sublist ds := by
  have howners : (pin ds).filter (!·.isPinned) = ((staying ds).map Prod.fst).filter (!·.isPinned) := by
    rw [pin_eq, List.filter_flatMap, List.map_eq_flatMap, List.filter_flatMap]
    refine List.flatMap_congr fun x _ => ?_
    rw [List.filter_cons, List.filter_cons, filter_isPinned_pinned]
    rfl
  rw [howners, map_fst_staying]
  exact List.filter_sublist.trans List.filter_sublist

end PragmaOrder

namespace Module

/--
What the rules keep about the pragmas of the module that was read.
-/
structure KeepsPragmas (m₀ m : Module) : Prop where
  header : if m.pragmasNormalized then
      m.headerPragmas.Perm m₀.headerPragmas ∧ m.headerPragmas.Pairwise Pragma.Precedes
    else
      m.headerPragmas = m₀.headerPragmas
  declarations : PragmaOrder.Ordered m.declarations

theorem pairwise_headerPragmas {m : Module} (h : m.AsRead) :
    m.headerPragmas.Pairwise fun p q => p.token.offset < q.token.offset := by
  have hordered := h.ordered
  rw [tokens_eq_append, List.append_assoc, List.append_assoc, List.append_assoc, List.pairwise_append] at hordered
  have hpragmas := hordered.1
  rw [List.pairwise_map] at hpragmas
  exact hpragmas

theorem keepsPragmas_of_read {text : List Char} {m : Module} (h : read text = .ok m) : m.KeepsPragmas m where
  header := by
    rw [(asRead_of_read h).pragmasNormalized]
    rfl
  declarations := by
    refine .of_fresh (isFresh_of_read h).declarations ?_
    have hordered := (asRead_of_read h).ordered
    rw [tokens_eq_append, List.pairwise_append, List.pairwise_append] at hordered
    exact hordered.1.2.1

theorem keepsPragmas_pragmaOrder {m₀ m : Module} (hread : m₀.AsRead) (h : m₀.KeepsPragmas m) :
    m₀.KeepsPragmas (PragmaOrder.apply settings m).module := by
  rw [PragmaOrder.module_apply_eq]
  constructor
  case header =>
    have hheader := h.header
    dsimp only
    cases hnormalized : m.pragmasNormalized with
    | true =>
      rw [hnormalized] at hheader
      have hkept : PragmaOrder.reorders m = false := by simp [PragmaOrder.reorders, hnormalized]
      rw [hkept]
      exact hheader
    | false =>
      rw [hnormalized] at hheader
      have hheader : m.headerPragmas = m₀.headerPragmas := hheader
      cases PragmaOrder.reorders m with
      | false => exact hheader
      | true =>
        rw [hheader]
        exact ⟨List.mergeSort_perm _ _, PragmaOrder.pairwise_precedes (pairwise_headerPragmas hread)⟩
  case declarations =>
    dsimp only
    split
    · next hpins => exact PragmaOrder.ordered_pin h.declarations hpins
    · exact h.declarations

/--
One step: every rule keeps what is known about the pragmas.
-/
theorem keepsPragmas_apply {m₀ m : Module} (hread : m₀.AsRead) {rule : Rule} {result : RuleResult}
    (hrule : rule.apply settings m = .ok result) (h : m₀.KeepsPragmas m) : m₀.KeepsPragmas result.module := by
  cases rule with
  | indentation =>
    cases hrule
    obtain ⟨placements, hmodule⟩ := Indent.module_apply settings m
    rw [hmodule]
    exact ⟨h.header, h.declarations⟩
  | alignment =>
    obtain ⟨ds, hds, hmodule⟩ := Align.apply_ok hrule
    rw [hmodule]
    exact ⟨h.header, h.declarations.of_alike (Align.alike_declarations hds)⟩
  | importOrder =>
    cases hrule
    rw [ImportOrder.module_apply]
    split <;> exact ⟨h.header, h.declarations⟩
  | pragmaPlacement =>
    cases hrule
    exact keepsPragmas_pragmaOrder hread h
  | strictnessDeriving =>
    cases hrule
    have halike (p : Printer) (ds : List Declaration) (notes : Notes) :
        List.Forall₂ PragmaOrder.Alike ds (DerivingFormat.declarations settings p ds notes).1 := by
      induction ds generalizing notes with
      | nil => exact .nil
      | cons d ds ih =>
        refine .cons ?_ (ih _)
        show PragmaOrder.Alike d (DerivingFormat.declaration settings p d notes).1
        unfold DerivingFormat.declaration
        split
        · split
          · exact ⟨rfl, rfl, by simp⟩
          · exact .refl _
        · exact .refl _
    exact ⟨h.header, h.declarations.of_alike (halike _ _ _)⟩
  | naming =>
    rw [Names.module_apply hrule]
    exact h

/--
The run: the rules keep what is known about the pragmas of a module that was read.
-/
theorem keepsPragmas_afterRules {text : List Char} {m₀ m : Module} {rules : List Rule} (hparse : parse text = .ok m₀)
    (h : m₀.afterRules settings rules = .ok m) : m₀.KeepsPragmas m := by
  have hread := read_of_parse hparse
  exact afterRules_induction (fun rule _ m result => keepsPragmas_apply (asRead_of_read hread)) h
    (keepsPragmas_of_read hread)

/--
Whatever rules were applied before, the rule for pragmas changes the order of declarations and pins pragmas, and does
nothing else to them. What is not pinned keeps its order. A pinned pragma stands in the unbroken run of pinned pragmas
behind the last declaration of the binder that it names, in the order of the source. Header pragmas, once normalized,
are those of the source, by block, extension and place.
-/
theorem pragmas_placed {text : List Char} {m₀ m m' : Module} {rules : List Rule} (hparse : parse text = .ok m₀)
    (hrules : m₀.afterRules settings rules = .ok m) (hm' : (PragmaOrder.apply settings m).module = m') :
    (m'.declarations.map Declaration.unpinned).Perm (m.declarations.map Declaration.unpinned)
      ∧ (m'.declarations.filter (!·.isPinned)).Sublist m.declarations
      ∧ (∀ before p after, m'.declarations = before ++ .pragma p :: after → p.pinned →
          ∃ earlier owner, ∃ run : List Pragma, ∃ name, before = earlier ++ owner :: run.map .pragma
            ∧ (∀ q ∈ run, q.pinned ∧ q.token.offset < p.token.offset)
            ∧ p.target = some name ∧ name ∈ PragmaOrder.bindersOf owner
            ∧ ∀ d ∈ after, name ∉ PragmaOrder.bindersOf d)
      ∧ (m'.pragmasNormalized →
          m'.headerPragmas.Perm m₀.headerPragmas ∧ m'.headerPragmas.Pairwise Pragma.Precedes) := by
  have hkept := keepsPragmas_afterRules hparse hrules
  have hpragmas : m₀.KeepsPragmas (PragmaOrder.apply settings m).module :=
    keepsPragmas_pragmaOrder (asRead_of_read (read_of_parse hparse)) hkept
  have hheader := hpragmas.header
  rw [hm'] at hheader
  have hdeclarations : m'.declarations
      = if PragmaOrder.pins m.declarations then PragmaOrder.pin m.declarations else m.declarations := by
    rw [← hm', PragmaOrder.module_apply_eq]
  rw [hdeclarations]
  refine ⟨?_, ?_, fun before p after hsplit hpinned => ?_, fun hnormalized => ?_⟩
  · split
    · exact PragmaOrder.map_unpinned_pin _
    · exact .refl _
  · split
    · exact PragmaOrder.filter_isPinned_pin _
    · exact List.filter_sublist
  · split at hsplit
    · exact PragmaOrder.pinned_place hkept.declarations hpinned hsplit
    · next hkeeps =>
      exact absurd (hkept.declarations.pinned p (by simp [hsplit]) hpinned).1 hkeeps
  · rw [hnormalized] at hheader
    exact hheader

/--
Two pragmas about a binder, around the clause that they go behind, and header pragmas out of order.
-/
theorem pragmas_placed_binder :
    ∃ m₀ m m', parse ("\x7b-# LANGUAGE B #-\x7d\n\x7b-# LANGUAGE A #-\x7d\n\x7b-# INLINE f #-\x7d\ng = 2\nf = 1\n"
        ++ "h = 3\n\x7b-# SPECIALIZE f #-\x7d\n").toList = .ok m₀
      ∧ m₀.afterRules {} [.alignment, .indentation] = .ok m
      ∧ (PragmaOrder.apply {} m).module = m'
      ∧ m'.declarations.map (fun d => (d.kind, d.isPinned))
        = [(.functionClause, false), (.functionClause, false), (.pragma, true), (.pragma, true),
          (.functionClause, false)]
      ∧ m'.pragmasNormalized
      ∧ (m'.declarations.map Declaration.unpinned).Perm (m.declarations.map Declaration.unpinned)
      ∧ (m'.declarations.filter (!·.isPinned)).Sublist m.declarations
      ∧ (∀ before p after, m'.declarations = before ++ .pragma p :: after → p.pinned →
          ∃ earlier owner, ∃ run : List Pragma, ∃ name, before = earlier ++ owner :: run.map .pragma
            ∧ (∀ q ∈ run, q.pinned ∧ q.token.offset < p.token.offset)
            ∧ p.target = some name ∧ name ∈ PragmaOrder.bindersOf owner
            ∧ ∀ d ∈ after, name ∉ PragmaOrder.bindersOf d)
      ∧ (m'.pragmasNormalized →
          m'.headerPragmas.Perm m₀.headerPragmas ∧ m'.headerPragmas.Pairwise Pragma.Precedes) := by
  have hplaced : ((parse ("\x7b-# LANGUAGE B #-\x7d\n\x7b-# LANGUAGE A #-\x7d\n\x7b-# INLINE f #-\x7d\ng = 2\nf = 1\n"
      ++ "h = 3\n\x7b-# SPECIALIZE f #-\x7d\n").toList).toOption.bind
      fun m₀ => (m₀.afterRules {} [.alignment, .indentation]).toOption.map fun m =>
        let m' := (PragmaOrder.apply {} m).module
        (m'.declarations.map (fun d => (d.kind, d.isPinned))
          == [(.functionClause, false), (.functionClause, false), (.pragma, true), (.pragma, true),
            (.functionClause, false)])
          && m'.pragmasNormalized) = some true := by
    decide +kernel
  obtain ⟨m₀, hm₀, hplaced⟩ := Option.bind_eq_some_iff.1 hplaced
  obtain ⟨m, hm, hplaced⟩ := Option.map_eq_some_iff.1 hplaced
  obtain ⟨hkinds, hnormalized⟩ := Bool.and_eq_true_iff.1 hplaced
  have hparse := toOption_eq_some hm₀
  have hrules := toOption_eq_some hm
  exact ⟨m₀, m, _, hparse, hrules, rfl, beq_iff_eq.1 hkinds, hnormalized, pragmas_placed hparse hrules rfl⟩

end Module

end HaskellStyle
