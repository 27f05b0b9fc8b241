import HaskellStyle.Proofs.Module.Region
import HaskellStyle.Proofs.Rule.PragmaOrder
import Mathlib.Data.List.Flatten

/-!
This module contains what moving pragmas about binders does to the regions of a module. A pragma takes no directive
along, so all other tokens stay in their regions, and it leaves its own region exactly if a directive stands between
it and the place to which it is moved.
-/

namespace HaskellStyle

open Event

namespace PragmaOrder

/--
A pragma that is moved: the index at which it stands, the index of the declaration behind which it goes, and the pragma.
-/
structure Move where
  source : Nat
  owner : Nat
  pragma : Pragma

/--
The move of the declaration at an index.
-/
def move? (ds : List Declaration) (x : Declaration × Nat) : Option Move :=
  (moved? ds x.1).map fun y => ⟨x.2, y.1, y.2⟩

/--
The pragmas that are moved.
-/
def moves (ds : List Declaration) : List Move :=
  ds.zipIdx.filterMap (move? ds)

/--
The number of directives at the declarations before an index.
-/
def directivesBefore (ds : List Declaration) (index : Nat) : Nat :=
  (directives (ofTokens ((ds.take index).flatMap tokens))).length

/--
No directive stands between a pragma and the place to which it is moved.
-/
def KeepsRegions (ds : List Declaration) : Prop :=
  pins ds → ∀ move ∈ moves ds, directivesBefore ds move.source = directivesBefore ds (move.owner + 1)

/--
The tokens of the pragmas that the rule moves.
-/
def movedTokens (ds : List Declaration) : List Token :=
  if pins ds then (moves ds).map (·.pragma.token) else []

theorem directivesBefore_succ {before after : List Declaration} {d : Declaration} {ds : List Declaration}
    (h : ds = before ++ d :: after) :
    directivesBefore ds (before.length + 1)
      = directivesBefore ds before.length + (directives (ofTokens (tokens d))).length := by
  have htake : ds.take (before.length + 1) = ds.take before.length ++ [d] := by
    rw [h, List.take_left, List.append_cons, List.take_left' (by simp)]
  rw [directivesBefore, directivesBefore, htake, List.flatMap_append, ofTokens_append, directives_append,
    List.length_append, List.flatMap_singleton]

theorem regions_entries (ds : List Declaration) (keep : Declaration → Bool) (more : Nat → List Token)
    (hkeep : ∀ d ∈ ds, keep d = false → directives (ofTokens (tokens d)) = []) (n : Nat) :
    regions n ((ds.zipIdx.filter fun x => keep x.1).flatMap fun x =>
        ofTokens (tokens x.1) ++ (more x.2).map .token)
      = (ds.zipIdx.filter fun x => keep x.1).flatMap fun x =>
        regions (n + directivesBefore ds x.2) (ofTokens (tokens x.1))
          ++ (more x.2).map (n + directivesBefore ds (x.2 + 1), ·) := by
  -- By induction on what is left of the declarations: one that is left out does not change the count of directives.
  have hrest (before after : List Declaration) (hds : ds = before ++ after) :
      regions (n + directivesBefore ds before.length)
          (((after.zipIdx before.length).filter fun x => keep x.1).flatMap fun x =>
            ofTokens (tokens x.1) ++ (more x.2).map .token)
        = ((after.zipIdx before.length).filter fun x => keep x.1).flatMap fun x =>
          regions (n + directivesBefore ds x.2) (ofTokens (tokens x.1))
            ++ (more x.2).map (n + directivesBefore ds (x.2 + 1), ·) := by
    induction after generalizing before with
    | nil => rfl
    | cons d after ih =>
      have hnext := directivesBefore_succ hds
      have ih := ih (before ++ [d]) (by simp [hds])
      rw [List.length_append, List.length_singleton] at ih
      rw [List.zipIdx_cons]
      cases hd : keep d with
      | true =>
        rw [List.filter_cons_of_pos (p := fun x : Declaration × Nat => keep x.1) hd, List.flatMap_cons, List.flatMap_cons, regions_append, regions_append, ← ih]
        dsimp only
        rw [directives_append, directives_map_token, List.append_nil, regions_map_token, Nat.add_assoc, ← hnext]
      | false =>
        have hnone := hkeep d (by simp [hds]) hd
        simp only [hnone, List.length_nil, Nat.add_zero] at hnext
        rw [List.filter_cons_of_neg (p := fun x : Declaration × Nat => keep x.1) (by simp [hd]), ← ih, hnext]
  exact hrest [] ds rfl

theorem directives_entries (xs : List (Declaration × Nat)) (keep : Declaration → Bool) (more : Nat → List Token)
    (hkeep : ∀ x ∈ xs, keep x.1 = false → directives (ofTokens (tokens x.1)) = []) :
    directives ((xs.filter fun x => keep x.1).flatMap fun x => ofTokens (tokens x.1) ++ (more x.2).map .token)
      = directives (ofTokens ((xs.map Prod.fst).flatMap tokens)) := by
  induction xs with
  | nil => rfl
  | cons x xs ih =>
    have ih := ih fun y hy => hkeep y (List.mem_cons_of_mem _ hy)
    rw [List.map_cons, List.flatMap_cons, ofTokens_append, directives_append, ← ih]
    cases hx : keep x.1 with
    | true =>
      rw [List.filter_cons_of_pos (p := fun x : Declaration × Nat => keep x.1) hx, List.flatMap_cons, directives_append,
        directives_append, directives_map_token, List.append_nil]
    | false =>
      rw [List.filter_cons_of_neg (p := fun x : Declaration × Nat => keep x.1) (by simp [hx]),
        hkeep x List.mem_cons_self hx, List.nil_append]

section Pin

variable {ds : List Declaration}

theorem hasDirective_of_moved? {d : Declaration} {owner : Nat} {p : Pragma} (h : moved? ds d = some (owner, p)) :
    p.token.leading.hasDirective = false := by
  have hdestination := (moved?_eq_some h).2
  simp only [destination?, Option.bind_eq_bind, Option.bind_eq_some_iff] at hdestination
  obtain ⟨name, -, index, -, hplace⟩ := hdestination
  split at hplace
  · next hmovable =>
    simp only [Bool.and_eq_true, Bool.not_eq_true'] at hmovable
    exact hmovable.1.2
  · cases hplace

variable (htrailing : ∀ t ∈ ds.flatMap tokens, t.trailing.hasDirective = false)

include htrailing in
/--
A pragma that is moved takes no directives along.
-/
theorem ofTokens_of_moved? {d : Declaration} {owner : Nat} {p : Pragma} (hd : d ∈ ds)
    (h : moved? ds d = some (owner, p)) : ofTokens [p.token] = [.token p.token] := by
  have hmem : p.token ∈ ds.flatMap tokens := by
    rw [(moved?_eq_some h).1] at hd
    exact List.mem_flatMap.2 ⟨_, hd, List.mem_singleton_self _⟩
  exact ofTokens_eq (by simpa using hasDirective_of_moved? h) (by simpa using htrailing _ hmem)

include htrailing in
theorem directives_of_moved? {d : Declaration} (hd : d ∈ ds) (h : (moved? ds d).isNone = false) :
    directives (ofTokens (tokens d)) = [] := by
  obtain ⟨⟨owner, p⟩, hmoved⟩ := Option.isSome_iff_exists.1 (Option.isNone_eq_false_iff.1 h)
  rw [(moved?_eq_some hmoved).1]
  exact congrArg directives (ofTokens_of_moved? htrailing hd hmoved)

/--
The tokens of the pragmas that go behind the declaration at an index.
-/
def pinnedTokens (ds : List Declaration) (index : Nat) : List Token :=
  ((ds.filterMap (moved? ds)).filter (·.1 = index)).map (·.2.token)

include htrailing in
theorem ofTokens_pin :
    ofTokens ((pin ds).flatMap tokens)
      = (staying ds).flatMap fun x => ofTokens (tokens x.1) ++ (pinnedTokens ds x.2).map .token := by
  rw [pin_eq, List.flatMap_assoc, ofTokens_flatMap]
  refine List.flatMap_congr fun (d, index) _ => ?_
  rw [List.flatMap_cons, ofTokens_append, List.flatMap_map, ofTokens_flatMap, pinnedTokens, List.map_map,
    List.map_eq_flatMap]
  refine congrArg _ (List.flatMap_congr fun (owner, p) hp => ?_)
  obtain ⟨d, hd, hmoved⟩ := List.mem_filterMap.1 (List.mem_filter.1 hp).1
  exact ofTokens_of_moved? (p := p) htrailing hd hmoved

include htrailing in
theorem directives_pin :
    directives (ofTokens ((pin ds).flatMap tokens)) = directives (ofTokens (ds.flatMap tokens)) := by
  rw [ofTokens_pin htrailing]
  refine (directives_entries ds.zipIdx (fun d => (moved? ds d).isNone) (pinnedTokens ds) fun x hx => ?_).trans
    (by rw [List.zipIdx_map_fst])
  exact directives_of_moved? htrailing (List.fst_mem_of_mem_zipIdx hx)

/--
The regions of the declarations that stay.
-/
def stayingRegions (n : Nat) (ds : List Declaration) : List (Nat × Token) :=
  (staying ds).flatMap fun x => regions (n + directivesBefore ds x.2) (ofTokens (tokens x.1))

theorem map_moves (ds : List Declaration) :
    (moves ds).map (fun move => (move.owner, move.pragma)) = ds.filterMap (moved? ds) := by
  have hfst : (ds.zipIdx.map Prod.fst).filterMap (moved? ds) = ds.filterMap (moved? ds) := by
    rw [List.zipIdx_map_fst]
  rw [← hfst, moves, List.map_filterMap, List.filterMap_map]
  refine congrArg (List.filterMap · _) (funext fun x => ?_)
  rw [move?, Option.map_map]
  exact Option.map_id'

/--
Every pragma that is moved goes behind one declaration.
-/
theorem flatMap_pinnedTokens_perm (ds : List Declaration) (region : Nat → Nat) :
    ((staying ds).flatMap fun x => (pinnedTokens ds x.2).map (region x.2, ·)).Perm
      ((moves ds).map fun move => (region move.owner, move.pragma.token)) := by
  have hgather : (gather ((staying ds).map Prod.snd) Prod.fst (ds.filterMap (moved? ds))).Perm
      (ds.filterMap (moved? ds)) := Gather.gather_perm fun (_, _) h => count_staying h
  have hmoves := hgather.map fun x => (region x.1, x.2.token)
  rw [← map_moves, List.map_map, map_moves] at hmoves
  refine .trans (.of_eq ?_) hmoves
  rw [gather, List.map_flatMap, List.flatMap_map]
  refine List.flatMap_congr fun x _ => ?_
  rw [pinnedTokens, List.map_map]
  refine List.map_congr_left fun y hy => ?_
  rw [of_decide_eq_true (List.mem_filter.1 hy).2]
  rfl

include htrailing in
/--
A pragma that is moved comes to the region behind its owner.
-/
theorem regions_pin_perm (n : Nat) :
    (regions n (ofTokens ((pin ds).flatMap tokens))).Perm
      (stayingRegions n ds
        ++ (moves ds).map fun move => (n + directivesBefore ds (move.owner + 1), move.pragma.token)) := by
  have hregions := regions_entries ds (fun d => (moved? ds d).isNone) (pinnedTokens ds)
    (fun d => directives_of_moved? htrailing) n
  rw [ofTokens_pin htrailing]
  refine (List.Perm.of_eq hregions).trans ((List.flatMap_append_perm _ _ _).symm.trans (.append_left _ ?_))
  exact flatMap_pinnedTokens_perm ds fun index => n + directivesBefore ds (index + 1)

include htrailing in
theorem flatMap_regions_moved (xs : List (Declaration × Nat)) (hxs : ∀ x ∈ xs, x.1 ∈ ds) (region : Nat → Nat) :
    ((xs.filter fun x => !(moved? ds x.1).isNone).flatMap fun x => regions (region x.2) (ofTokens (tokens x.1)))
      = (xs.filterMap (move? ds)).map fun move => (region move.source, move.pragma.token) := by
  induction xs with
  | nil => rfl
  | cons x xs ih =>
    have ih := ih fun y hy => hxs y (List.mem_cons_of_mem _ hy)
    cases hx : moved? ds x.1 with
    | none =>
      rw [List.filterMap_cons_none (by rw [move?, hx]; rfl), List.filter_cons_of_neg (by simp [hx]), ih]
    | some moved =>
      have htokens : ofTokens (tokens x.1) = [.token moved.2.token] := by
        rw [(moved?_eq_some hx).1]
        exact ofTokens_of_moved? (p := moved.2) htrailing (hxs _ List.mem_cons_self) hx
      rw [List.filterMap_cons_some (by rw [move?, hx]; rfl), List.filter_cons_of_pos (by simp [hx]), List.flatMap_cons,
        ih, htokens]
      rfl

include htrailing in
/--
Before it was moved, a pragma was in the region of its place.
-/
theorem regions_moved_perm (n : Nat) :
    (regions n (ofTokens (ds.flatMap tokens))).Perm
      (stayingRegions n ds ++ (moves ds).map fun move => (n + directivesBefore ds move.source, move.pragma.token)) := by
  have hregions := regions_entries ds (fun _ => true) (fun _ => []) (by simp) n
  simp only [List.filter_true, List.map_nil, List.append_nil] at hregions
  rw [← ofTokens_flatMap, ← List.flatMap_map, List.zipIdx_map_fst] at hregions
  have hmoved := flatMap_regions_moved htrailing ds.zipIdx (fun x => List.fst_mem_of_mem_zipIdx)
    fun index => n + directivesBefore ds index
  have hsplit := List.filter_append_perm (fun x : Declaration × Nat => (moved? ds x.1).isNone) ds.zipIdx
  refine (List.Perm.of_eq hregions).trans ((hsplit.symm.flatMap_right _).trans ?_)
  rw [List.flatMap_append, hmoved]
  rfl

include htrailing in
/--
Nothing but the pragmas that are moved leaves its region.
-/
theorem rearranged_pin :
    Rearranged (without ((moves ds).map (·.pragma.token)) (ofTokens (ds.flatMap tokens)))
      (without ((moves ds).map (·.pragma.token)) (ofTokens ((pin ds).flatMap tokens))) where
  directives_eq := by rw [directives_without, directives_without, directives_pin htrailing]
  regions_perm n := by
    have hmoved (region : Move → Nat) :
        ((moves ds).map fun move => (region move, move.pragma.token)).filter
          (fun x => x.2 ∉ (moves ds).map (·.pragma.token)) = [] := by
      rw [List.filter_eq_nil_iff, List.forall_mem_map]
      intro move hmove
      simpa using ⟨move, hmove, rfl⟩
    have hpin := (regions_pin_perm htrailing n).filter fun x => x.2 ∉ (moves ds).map (·.pragma.token)
    have hplace := (regions_moved_perm htrailing n).filter fun x => x.2 ∉ (moves ds).map (·.pragma.token)
    rw [List.filter_append, hmoved] at hpin hplace
    rw [regions_without, regions_without]
    exact hpin.trans hplace.symm

theorem nodup_moves (hnodup : (ds.flatMap tokens).Nodup) : ((moves ds).map (·.pragma.token)).Nodup := by
  have hsub : (((ds.filterMap (moved? ds)).map fun x => Declaration.pragma x.2).flatMap tokens).Sublist
      (ds.flatMap tokens) := by
    have hfilter := filterMap_moved?_map ds ds
    rw [show _ = _ from hfilter]
    exact List.filter_sublist.flatMap tokens
  have hmoves : (moves ds).map (·.pragma.token)
      = ((ds.filterMap (moved? ds)).map fun x => Declaration.pragma x.2).flatMap tokens := by
    rw [List.flatMap_map, ← map_moves, List.flatMap_map, List.map_eq_flatMap]
    rfl
  rw [hmoves]
  exact hsub.nodup hnodup

include htrailing in
/--
All tokens stay in their regions exactly if every pragma that is moved does.
-/
theorem regions_pin_perm_iff (hnodup : (ds.flatMap tokens).Nodup) (n : Nat) :
    (regions n (ofTokens ((pin ds).flatMap tokens))).Perm (regions n (ofTokens (ds.flatMap tokens)))
      ↔ ∀ move ∈ moves ds, directivesBefore ds move.source = directivesBefore ds (move.owner + 1) := by
  have hpin := regions_pin_perm htrailing n
  have hmoved := regions_moved_perm htrailing n
  constructor
  · intro h move hmove
    -- What stays is the same on both sides, so the pragmas that are moved have the same regions together.
    have hmoves := (List.perm_append_left_iff _).1 ((hpin.symm.trans h).trans hmoved)
    obtain ⟨other, hother, heq⟩ := List.mem_map.1 (hmoves.mem_iff.1 (List.mem_map_of_mem hmove))
    obtain ⟨hregion, htoken⟩ := Prod.ext_iff.1 heq
    -- The token belongs to one pragma only.
    obtain rfl : other = move := List.inj_on_of_nodup_map (nodup_moves hnodup) hother hmove htoken
    exact Nat.add_left_cancel hregion
  · intro h
    refine (hpin.trans (.append_left _ (.of_eq ?_))).trans hmoved.symm
    exact List.map_congr_left fun move hmove => by rw [h move hmove]

end Pin

end PragmaOrder

end HaskellStyle
