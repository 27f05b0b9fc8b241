import HaskellStyle.Proofs.Rule.PragmaOrder
import Mathlib.Data.List.Induction

/-!
This module contains where pragmas about binders come to stand: in a run directly behind the last declaration of the
binder, in the order in which they stood. Declarations in which they stand like this are left as they are.
-/

namespace HaskellStyle

namespace PragmaOrder

variable {ds : List Declaration}

/--
The owner of a name is the last declaration about it.
-/
theorem owner?_eq_some_iff {name : String} {index : Nat} :
    owner? ds name = some index ↔ ∃ before d after, ds = before ++ d :: after ∧ before.length = index
      ∧ name ∈ bindersOf d ∧ ∀ e ∈ after, name ∉ bindersOf e := by
  induction ds using List.reverseRecOn generalizing index with
  | nil => simp [owner?]
  | append_singleton ds last ih =>
    have hlast : owner? (ds ++ [last]) name
        = if name ∈ bindersOf last then some ds.length else owner? ds name := by
      unfold owner?
      simp only [List.map_append, List.map_cons, List.map_nil, List.reverse_append, List.reverse_cons, List.reverse_nil,
        List.nil_append, List.singleton_append, List.findIdx?_cons, id_eq, List.contains_iff_mem, List.length_append,
        List.length_singleton]
      split
      · rfl
      · rw [Option.map_map]
        refine Option.map_congr fun index _ => ?_
        simp only [Function.comp_apply]
        omega
    rw [hlast]
    split
    · next hname =>
      constructor
      · intro h
        cases h
        exact ⟨ds, last, [], rfl, rfl, hname, by simp⟩
      · rintro ⟨before, d, after, heq, rfl, -, hafter⟩
        -- Nothing about the name stands behind the owner, so the owner is the last declaration.
        rcases List.eq_nil_or_concat after with rfl | ⟨rest, e, rfl⟩
        · rw [(List.append_inj' heq rfl).1]
        · rw [List.concat_eq_append, ← List.cons_append, ← List.append_assoc] at heq
          have hsame : last = e := by simpa using (List.append_inj' heq rfl).2
          exact absurd hname (hsame ▸ hafter e (by simp))
    · next hname =>
      rw [ih]
      constructor
      · rintro ⟨before, d, after, rfl, hlength, hd, hafter⟩
        refine ⟨before, d, after ++ [last], by simp, hlength, hd, fun e he => ?_⟩
        rcases List.mem_append.1 he with he | he
        · exact hafter e he
        · rwa [List.mem_singleton.1 he]
      · rintro ⟨before, d, after, heq, hlength, hd, hafter⟩
        rcases List.eq_nil_or_concat after with rfl | ⟨rest, e, rfl⟩
        · have hsame : last = d := by simpa using (List.append_inj' heq rfl).2
          exact absurd hd (hsame ▸ hname)
        · rw [List.concat_eq_append, ← List.cons_append, ← List.append_assoc] at heq
          refine ⟨before, d, rest, (List.append_inj' heq rfl).1, hlength, hd, fun e' he' => hafter e' ?_⟩
          rw [List.concat_eq_append]
          exact List.mem_append_left _ he'

theorem owner?_eq_none_iff {name : String} : owner? ds name = none ↔ ∀ d ∈ ds, name ∉ bindersOf d := by
  simp [owner?]

/--
Whether a pragma can be moved: it stands at the left margin on lines of its own, away from directives.
-/
def canMove (p : Pragma) : Bool :=
  p.token.column = 0 && !p.token.leading.hasDirective && p.token.leading.hasNewline

theorem destination?_eq_some_iff {p : Pragma} {index : Nat} :
    destination? ds p = some index
      ↔ canMove p ∧ ∃ name, p.target = some name ∧ owner? ds name = some index := by
  simp only [destination?, Option.bind_eq_bind, Option.bind_eq_some_iff]
  constructor
  · rintro ⟨name, hname, owner, howner, h⟩
    split at h
    · next hmove =>
      cases h
      exact ⟨hmove, name, hname, howner⟩
    · cases h
  · rintro ⟨hmove, name, hname, howner⟩
    exact ⟨name, hname, index, howner, if_pos hmove⟩

theorem moved?_eq_none_iff {d : Declaration} :
    moved? ds d = none ↔ ∀ p, d = .pragma p → destination? ds p = none := by
  cases d with
  | pragma p => simp [moved?]
  | _ => simp [moved?]

/--
A declaration that stays with the pragmas behind it.
-/
structure Cluster where
  owner : Declaration
  pragmas : List Pragma

namespace Cluster

/--
The declarations of a cluster.
-/
def declarations (x : Cluster) : List Declaration :=
  x.owner :: x.pragmas.map .pragma

/--
The cluster that pinning makes of a declaration and its index.
-/
def ofOwner (ds : List Declaration) (x : Declaration × Nat) : Cluster :=
  ⟨x.1, ((ds.filterMap (moved? ds)).filter (·.1 = x.2)).map fun (_, p) => { p with pinned := true }⟩

/--
The clusters that pinning makes of declarations.
-/
def ofDeclarations (ds : List Declaration) : List Cluster :=
  (staying ds).map (ofOwner ds)

end Cluster

open Cluster

theorem pin_eq_flatMap (ds : List Declaration) : pin ds = (ofDeclarations ds).flatMap declarations := by
  rw [pin_eq, ofDeclarations, List.flatMap_map]
  simp only [declarations, ofOwner, List.map_map]
  rfl

/--
Declarations in clusters: every pragma that would be moved is pinned behind its owner already.
-/
structure Settled (ds : List Declaration) (xs : List Cluster) : Prop where
  eq : ds = xs.flatMap declarations
  stays : ∀ x ∈ xs, moved? ds x.owner = none
  moved : ∀ before x after, xs = before ++ x :: after → ∀ p ∈ x.pragmas,
    p.pinned ∧ destination? ds p = some (before.flatMap declarations).length

namespace Settled

variable {xs : List Cluster} (h : Settled ds xs)
include h

theorem moved?_pragma {before after : List Cluster} {x : Cluster} (hxs : xs = before ++ x :: after) {p : Pragma}
    (hp : p ∈ x.pragmas) : moved? ds (.pragma p) = some ((before.flatMap declarations).length, p) := by
  rw [moved?, (h.moved before x after hxs p hp).2]
  rfl

theorem filterMap_moved? {before after : List Cluster} {x : Cluster} (hxs : xs = before ++ x :: after) :
    x.declarations.filterMap (moved? ds) = x.pragmas.map ((before.flatMap declarations).length, ·) := by
  rw [declarations, List.filterMap_cons_none (h.stays x (by simp [hxs])), List.filterMap_map]
  rw [← List.filterMap_eq_map']
  exact List.filterMap_congr fun p hp => h.moved?_pragma hxs hp

/--
The pragmas that go behind the owner of a cluster are those of the cluster.
-/
theorem filter_moved? {before after : List Cluster} {x : Cluster} (hxs : xs = before ++ x :: after) :
    (ds.filterMap (moved? ds)).filter (·.1 = (before.flatMap declarations).length)
      = x.pragmas.map ((before.flatMap declarations).length, ·) := by
  -- The pragmas of any other cluster have another owner.
  have hother {y : Cluster} (before' after' : List Cluster) (hy : xs = before' ++ y :: after')
      (hne : (before'.flatMap declarations).length ≠ (before.flatMap declarations).length) :
      (y.declarations.filterMap (moved? ds)).filter (·.1 = (before.flatMap declarations).length) = [] := by
    rw [h.filterMap_moved? hy, List.filter_eq_nil_iff]
    intro y hy
    obtain ⟨p, -, rfl⟩ := List.mem_map.1 hy
    simpa using hne
  have hbefore : ((before.flatMap declarations).filterMap (moved? ds)).filter
      (·.1 = (before.flatMap declarations).length) = [] := by
    rw [List.filterMap_flatMap, List.filter_flatMap, List.flatMap_eq_nil_iff]
    intro y hy
    obtain ⟨before', after', rfl⟩ := List.append_of_mem hy
    refine hother before' (after' ++ x :: after) (by rw [hxs, List.append_assoc, List.cons_append]) ?_
    simp [declarations]
  have hafter : ((after.flatMap declarations).filterMap (moved? ds)).filter
      (·.1 = (before.flatMap declarations).length) = [] := by
    rw [List.filterMap_flatMap, List.filter_flatMap, List.flatMap_eq_nil_iff]
    intro y hy
    obtain ⟨before', after', rfl⟩ := List.append_of_mem hy
    refine hother (before ++ x :: before') after' (by simp [hxs]) ?_
    simp [declarations]
  have hsplit : ds.filterMap (moved? ds) = (before.flatMap declarations).filterMap (moved? ds)
      ++ (x.pragmas.map ((before.flatMap declarations).length, ·)
        ++ (after.flatMap declarations).filterMap (moved? ds)) := by
    rw [← h.filterMap_moved? hxs, ← List.filterMap_append, ← List.filterMap_append, ← List.flatMap_cons,
      ← List.flatMap_append, ← hxs, ← h.eq]
  rw [hsplit, List.filter_append, List.filter_append, hbefore, hafter, List.nil_append, List.append_nil,
    List.filter_eq_self]
  intro y hy
  obtain ⟨p, -, rfl⟩ := List.mem_map.1 hy
  exact decide_eq_true rfl

/--
Pinning leaves declarations in clusters as they are.
-/
theorem pin_eq_self : pin ds = ds := by
  -- By induction on the clusters that are left, with the place at which they begin.
  have hrest (before after : List Cluster) (hxs : xs = before ++ after) :
      (((after.flatMap declarations).zipIdx (before.flatMap declarations).length).filter
          fun x => (moved? ds x.1).isNone).flatMap
        (fun x => x.1 :: ((ds.filterMap (moved? ds)).filter (·.1 = x.2)).map
          fun (_, p) => .pragma { p with pinned := true })
        = after.flatMap declarations := by
    induction after generalizing before with
    | nil => rfl
    | cons x after ih =>
      have ih := ih (before ++ [x]) (by simp [hxs])
      rw [List.flatMap_append, List.flatMap_singleton, List.length_append] at ih
      -- Of a cluster only the owner stays, and its pragmas come back behind it.
      have hpragmas (n : Nat) :
          ((x.pragmas.map Declaration.pragma).zipIdx n).filter (fun y => (moved? ds y.1).isNone) = [] := by
        rw [List.filter_eq_nil_iff]
        intro y hy
        obtain ⟨p, hp, heq⟩ := List.mem_map.1 (List.fst_mem_of_mem_zipIdx hy)
        simp [← heq, h.moved?_pragma hxs hp]
      have hpinned : (x.pragmas.map ((before.flatMap declarations).length, ·)).map
          (fun (_, p) => Declaration.pragma { p with pinned := true }) = x.pragmas.map .pragma := by
        rw [List.map_map]
        refine List.map_congr_left fun p hp => ?_
        rw [Function.comp_apply, ← (h.moved before x after hxs p hp).1]
      rw [List.flatMap_cons, List.zipIdx_append, List.filter_append, List.flatMap_append, ih]
      refine congrArg (· ++ after.flatMap declarations) ?_
      rw [declarations, List.zipIdx_cons,
        List.filter_cons_of_pos (p := fun y : Declaration × Nat => (moved? ds y.1).isNone)
          (by simp [h.stays x (by simp [hxs])]), hpragmas, List.flatMap_singleton, h.filter_moved? hxs, hpinned]
  have hall := hrest [] xs rfl
  rw [← h.eq] at hall
  exact hall

end Settled

theorem mem_pin {d : Declaration} (h : d ∈ pin ds) : d ∈ ds ∨ ∃ p, d = .pragma p := by
  rw [(pin_perm ds).mem_iff, List.mem_append] at h
  rcases h with h | h
  · exact .inl (List.mem_of_mem_filter h)
  · obtain ⟨y, -, rfl⟩ := List.mem_map.1 h
    exact .inr ⟨_, rfl⟩

/--
Of the declarations that stay, the owner of a name is the last one about it.
-/
theorem owner?_staying {before after : List (Declaration × Nat)} {d : Declaration} {index : Nat}
    (h : staying ds = before ++ (d, index) :: after) {name : String} (howner : owner? ds name = some index) :
    name ∈ bindersOf d ∧ ∀ x ∈ after, name ∉ bindersOf x.1 := by
  obtain ⟨left, owner, right, hds, hlength, hname, hright⟩ := owner?_eq_some_iff.1 howner
  have hsorted : ((staying ds).map Prod.snd).Pairwise (· < ·) := by
    have hsub : ((staying ds).map Prod.snd).Sublist (ds.zipIdx.map Prod.snd) := List.filter_sublist.map _
    rw [List.zipIdx_map_snd] at hsub
    exact List.Pairwise.sublist hsub List.pairwise_lt_range'
  have hplace (x : Declaration × Nat) (hx : x ∈ staying ds) : ds[x.2]? = some x.1 :=
    List.mem_zipIdx_iff_getElem?.1 (List.mem_filter.1 hx).1
  have hd := hplace (d, index) (by simp [h])
  dsimp only at hd
  rw [hds, ← hlength, List.getElem?_append_right (Nat.le_refl _), Nat.sub_self] at hd
  cases hd
  refine ⟨hname, fun x hx => ?_⟩
  have hlater : index < x.2 := by
    rw [h, List.map_append, List.map_cons, List.pairwise_append, List.pairwise_cons] at hsorted
    exact hsorted.2.1.1 x.2 (List.mem_map_of_mem hx)
  have hplace := hplace x (by simp [h, hx])
  rw [hds, List.getElem?_append_right (by omega),
    show x.2 - left.length = (x.2 - left.length - 1) + 1 by omega, List.getElem?_cons_succ] at hplace
  exact hright x.1 (List.mem_of_getElem? hplace)

/--
Pinning makes clusters.
-/
theorem settled_pin (ds : List Declaration) : Settled (pin ds) (ofDeclarations ds) where
  eq := pin_eq_flatMap ds
  stays x hx := by
    obtain ⟨y, hy, rfl⟩ := List.mem_map.1 hx
    have hstays : moved? ds y.1 = none := by simpa using (List.mem_filter.1 hy).2
    rw [moved?_eq_none_iff] at hstays ⊢
    intro p hp
    have hnone := hstays p hp
    rw [Option.eq_none_iff_forall_ne_some] at hnone ⊢
    intro index hindex
    obtain ⟨hmove, name, hname, howner⟩ := destination?_eq_some_iff.1 hindex
    obtain ⟨before, d, after, heq, -, hd, -⟩ := owner?_eq_some_iff.1 howner
    have hmem : d ∈ ds := by
      rcases mem_pin (show d ∈ pin ds by simp [heq]) with hmem | ⟨q, rfl⟩
      · exact hmem
      · cases hd
    -- Every owner was a declaration before, so what has none now had none then.
    cases howner' : owner? ds name with
    | none => exact owner?_eq_none_iff.1 howner' d hmem hd
    | some index' => exact hnone index' (destination?_eq_some_iff.2 ⟨hmove, name, hname, howner'⟩)
  moved before x after hxs p hp := by
    obtain ⟨before₀, rest₀, hsplit, rfl, hrest⟩ := List.map_eq_append_iff.1 hxs
    obtain ⟨⟨d, index⟩, after₀, rfl, rfl, rfl⟩ := List.map_eq_cons_iff.1 hrest
    obtain ⟨⟨index', q⟩, hq, rfl⟩ := List.mem_map.1 hp
    obtain ⟨hmem, hindex⟩ := List.mem_filter.1 hq
    obtain rfl : index' = index := by simpa using hindex
    obtain ⟨e, -, he⟩ := List.mem_filterMap.1 hmem
    obtain ⟨hmove, name, hname, howner⟩ := destination?_eq_some_iff.1 (moved?_eq_some he).2
    obtain ⟨hd, hlast⟩ := owner?_staying hsplit howner
    refine ⟨rfl, destination?_eq_some_iff.2 ⟨hmove, name, hname, owner?_eq_some_iff.2 ?_⟩⟩
    refine ⟨_, d, (ofOwner ds (d, index')).pragmas.map .pragma ++ (after₀.map (ofOwner ds)).flatMap declarations, ?_,
      rfl, hd, fun e he => ?_⟩
    · rw [pin_eq_flatMap, hxs, List.flatMap_append, List.flatMap_cons]
      rfl
    · -- What comes behind the owner is a pragma, or it came behind the owner before.
      have hpragma {x : Cluster} (he : e ∈ x.pragmas.map .pragma) : name ∉ bindersOf e := by
        obtain ⟨r, -, rfl⟩ := List.mem_map.1 he
        simp [bindersOf]
      rcases List.mem_append.1 he with he | he
      · exact hpragma he
      · obtain ⟨y, hy, he⟩ := List.mem_flatMap.1 he
        obtain ⟨z, hz, rfl⟩ := List.mem_map.1 hy
        rcases List.mem_cons.1 he with rfl | he
        · exact hlast z hz
        · exact hpragma he

theorem pin_pin (ds : List Declaration) : pin (pin ds) = pin ds :=
  (settled_pin ds).pin_eq_self

end PragmaOrder

end HaskellStyle
