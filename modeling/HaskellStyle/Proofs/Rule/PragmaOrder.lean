import HaskellStyle.Proofs.Rule.Align
import HaskellStyle.Proofs.Rule.ImportOrder
import HaskellStyle.Rule.PragmaOrder
import Mathlib.Data.List.Forall2
import Mathlib.Data.List.Nodup
import Mathlib.Data.List.Perm.Basic

/-!
This module contains what the rule for pragmas does to a module: the header pragmas are put in another order,
and pragmas about binders change place while everything else keeps its order.
-/

namespace HaskellStyle

/--
Whether a declaration is a pragma.
-/
def Declaration.isPragma (d : Declaration) : Bool :=
  d.kind = .pragma

/--
Whether an outline is that of a pragma.
-/
def Outline.isPragma : Outline → Bool
  | .node kind _ _ => kind = .pragma

theorem Declaration.isPragma_outline (d : Declaration) : (Outline.ofDeclaration d).isPragma = d.isPragma := by
  cases d <;> rfl

/--
The contents of declarations tell which of them are pragmas.
-/
theorem Declaration.map_contents_filter (ds : List Declaration) :
    (ds.filter (!·.isPragma)).map contents = (ds.map contents).filter (!·.2.isPragma) := by
  rw [List.filter_map]
  congr 1
  refine List.filter_congr fun d _ => ?_
  rw [← isPragma_outline]
  rfl

namespace PragmaOrder

variable (settings : Settings)

/--
Whether the header pragmas of a module are put in order: no comment or directive stands between them.
-/
def reorders (m : Module) : Bool :=
  !m.headerPragmas.isEmpty && !m.pragmasNormalized && m.headerPragmas.tail.all (·.token.leading.ownLineOnly)

theorem map_fst_header? (m : Module) (notes : Notes) :
    (header? settings m notes).map Prod.fst
      = if reorders m then
          some { m with headerPragmas := m.headerPragmas.mergeSort pragmaLe, pragmasNormalized := true }
        else
          none := by
  unfold header? reorders
  cases hpragmas : m.headerPragmas with
  | nil => rfl
  | cons first more =>
    dsimp only
    rw [List.isEmpty_cons, List.tail_cons]
    cases m.pragmasNormalized <;> cases more.all (·.token.leading.ownLineOnly) <;> rfl

/--
Whether pragmas have owners to go behind, in a module whose declarations are all at the left margin.
-/
def pins (ds : List Declaration) : Bool :=
  !(ds.any (fun d => (firstToken d).column ≠ 0) || ds.all fun d => (moved? ds d).isNone)

theorem map_fst_binders? (m : Module) (notes : Notes) :
    (binders? settings m notes).map Prod.fst
      = if pins m.declarations then some { m with declarations := pin m.declarations } else none := by
  unfold binders? pins
  dsimp only
  cases m.declarations.any (fun d => (firstToken d).column ≠ 0)
    || m.declarations.all fun d => (moved? m.declarations d).isNone <;> simp

/--
What the rule makes of a module.
-/
theorem module_apply_eq (m : Module) :
    (apply settings m).module = { m with
      headerPragmas := if reorders m then m.headerPragmas.mergeSort pragmaLe else m.headerPragmas
      pragmasNormalized := m.pragmasNormalized || reorders m
      declarations := if pins m.declarations then pin m.declarations else m.declarations } := by
  have hpin (headed : Module) (notes : Notes) : ((binders? settings headed notes).map Prod.fst).getD headed
      = { headed with
        declarations := if pins headed.declarations then pin headed.declarations else headed.declarations } := by
    rw [map_fst_binders?]
    split <;> rfl
  have hheader := map_fst_header? settings m {}
  unfold apply
  cases hresult : header? settings m {} with
  | none =>
    rw [hresult] at hheader
    split at hheader
    · cases hheader
    · next hreorders =>
      have hpinned := hpin m {}
      dsimp only
      cases hbinders : binders? settings m {} <;>
        · rw [hbinders] at hpinned
          refine .trans hpinned ?_
          simp [hreorders]
  | some result =>
    rw [hresult] at hheader
    split at hheader
    · next hreorders =>
      have hpinned := hpin result.1 result.2
      dsimp only
      cases hbinders : binders? settings result.1 result.2 <;>
        · rw [hbinders] at hpinned
          refine .trans hpinned ?_
          rw [Option.some.inj hheader, if_pos hreorders, hreorders, Bool.or_true]
    · cases hheader

theorem moved?_eq_some {ds : List Declaration} {d : Declaration} {index : Nat} {p : Pragma}
    (h : moved? ds d = some (index, p)) : d = .pragma p ∧ destination? ds p = some index := by
  cases d with
  | pragma q =>
    simp only [moved?, Option.map_eq_some_iff] at h
    obtain ⟨i, hi, heq⟩ := h
    cases heq
    exact ⟨rfl, hi⟩
  | _ => simp [moved?] at h

theorem owner?_eq_some {ds : List Declaration} {name : String} {index : Nat}
    (h : owner? ds name = some index) : ∃ d, ds[index]? = some d ∧ name ∈ bindersOf d := by
  simp only [owner?, Option.map_eq_some_iff, List.findIdx?_eq_some_iff_getElem] at h
  obtain ⟨i, ⟨hi, hnamed, -⟩, rfl⟩ := h
  simp only [List.length_reverse, List.length_map] at hi
  simp only [List.getElem_reverse, List.getElem_map, List.length_map, id_eq, List.contains_iff_mem] at hnamed
  exact ⟨_, List.getElem?_eq_getElem (by omega), hnamed⟩

/--
The declaration behind which a pragma goes is about a name, so it is no pragma and stays in its place.
-/
theorem destination?_eq_some {ds : List Declaration} {p : Pragma} {index : Nat}
    (h : destination? ds p = some index) : ∃ d, ds[index]? = some d ∧ moved? ds d = none := by
  simp only [destination?, Option.bind_eq_bind, Option.bind_eq_some_iff] at h
  obtain ⟨name, -, owner, howner, h⟩ := h
  split at h
  · cases h
    obtain ⟨d, hd, hname⟩ := owner?_eq_some howner
    refine ⟨d, hd, ?_⟩
    cases d with
    | pragma q => simp [bindersOf] at hname
    | _ => rfl
  · cases h

/--
The declarations that stay, with their indices.
-/
def staying (ds : List Declaration) : List (Declaration × Nat) :=
  ds.zipIdx.filter fun (d, _) => (moved? ds d).isNone

theorem pin_eq (ds : List Declaration) :
    pin ds = (staying ds).flatMap fun (d, index) =>
      d :: ((ds.filterMap (moved? ds)).filter (·.1 = index)).map fun (_, p) =>
        .pragma { p with pinned := true } := rfl

theorem map_fst_staying (ds : List Declaration) :
    (staying ds).map Prod.fst = ds.filter fun d => (moved? ds d).isNone := by
  have hfilter : (ds.zipIdx.map Prod.fst).filter (fun d => (moved? ds d).isNone) = _ := List.filter_map
  rw [List.zipIdx_map_fst] at hfilter
  exact hfilter.symm

theorem nodup_staying (ds : List Declaration) : ((staying ds).map Prod.snd).Nodup := by
  have hsub : ((staying ds).map Prod.snd).Sublist (ds.zipIdx.map Prod.snd) :=
    List.filter_sublist.map _
  refine hsub.nodup ?_
  rw [List.zipIdx_map_snd]
  exact List.nodup_range'

/--
The index to which a pragma goes is that of one declaration that stays.
-/
theorem count_staying {ds : List Declaration} {index : Nat} {p : Pragma}
    (h : (index, p) ∈ ds.filterMap (moved? ds)) : ((staying ds).map Prod.snd).count index = 1 := by
  obtain ⟨d, -, hd⟩ := List.mem_filterMap.1 h
  obtain ⟨owner, howner, hstays⟩ := destination?_eq_some (moved?_eq_some hd).2
  refine List.count_eq_one_of_mem (nodup_staying ds) (List.mem_map.2 ⟨(owner, index), ?_, rfl⟩)
  refine List.mem_filter.2 ⟨?_, by simp [hstays]⟩
  exact List.mem_zipIdx_iff_getElem?.2 howner

/--
Pinning takes pragmas from their places and puts each of them behind one declaration.
-/
theorem pin_perm (ds : List Declaration) :
    (pin ds).Perm (ds.filter (fun d => (moved? ds d).isNone)
      ++ (ds.filterMap (moved? ds)).map fun (_, p) => .pragma { p with pinned := true }) := by
  have hgather : (gather ((staying ds).map Prod.snd) Prod.fst (ds.filterMap (moved? ds))).Perm
      (ds.filterMap (moved? ds)) := Gather.gather_perm fun (index, p) h => count_staying h
  rw [pin_eq, ← map_fst_staying]
  refine (List.flatMap_append_perm (staying ds) (fun x => [x.1]) _).symm.trans (.append ?_ ?_)
  · exact .of_eq List.map_eq_flatMap.symm
  · refine .trans (.of_eq ?_) (hgather.map _)
    rw [gather, List.map_flatMap, List.flatMap_map]

theorem filterMap_moved?_map (ds es : List Declaration) :
    (es.filterMap (moved? ds)).map (fun (_, p) => Declaration.pragma p)
      = es.filter fun d => !(moved? ds d).isNone := by
  induction es with
  | nil => rfl
  | cons d more ih =>
    cases hd : moved? ds d with
    | none => simp [hd, ih]
    | some moved =>
      obtain ⟨index, p⟩ := moved
      rw [List.filterMap_cons_some hd, List.map_cons, ih, List.filter_cons_of_pos (by simp [hd])]
      exact congrArg (· :: _) (moved?_eq_some hd).1.symm

theorem contents_pin_perm (ds : List Declaration) :
    ((pin ds).map Declaration.contents).Perm (ds.map Declaration.contents) := by
  have hsplit := (List.filter_append_perm (fun d => (moved? ds d).isNone) ds).map Declaration.contents
  refine ((pin_perm ds).map _).trans (.trans ?_ hsplit)
  rw [List.map_append, List.map_append, ← filterMap_moved?_map, List.map_map, List.map_map]
  exact .refl _

theorem filter_pin (ds : List Declaration) :
    (pin ds).filter (!·.isPragma) = ds.filter (!·.isPragma) := by
  have hrest : ds.filter (!·.isPragma)
      = (ds.filter fun d => (moved? ds d).isNone).filter (!·.isPragma) := by
    rw [List.filter_filter]
    refine List.filter_congr fun d _ => ?_
    cases d <;> simp [Declaration.isPragma, Declaration.kind, moved?]
  rw [hrest, ← map_fst_staying, pin_eq, List.filter_flatMap, List.map_eq_flatMap, List.filter_flatMap]
  congr 1
  funext ⟨d, index⟩
  have hpinned : List.filter (!·.isPragma) (((ds.filterMap (moved? ds)).filter (·.1 = index)).map
      fun (_, p) => Declaration.pragma { p with pinned := true }) = [] := by
    rw [List.filter_eq_nil_iff]
    intro e he
    obtain ⟨⟨_, p⟩, -, rfl⟩ := List.mem_map.1 he
    simp [Declaration.isPragma, Declaration.kind]
  rw [List.filter_cons, List.filter_cons, hpinned]
  rfl

/--
The rule changes the order of the header pragmas and the places of pragmas about binders.
-/
theorem module_apply (m : Module) :
    ∃ pragmas ds normalized, (apply settings m).module
        = { m with headerPragmas := pragmas, declarations := ds, pragmasNormalized := normalized }
      ∧ pragmas.Perm m.headerPragmas ∧ (ds = m.declarations ∨ ds = pin m.declarations) := by
  refine ⟨_, _, _, module_apply_eq settings m, ?_, ?_⟩
  · split
    · exact List.mergeSort_perm _ pragmaLe
    · exact .refl _
  · split
    · exact .inr rfl
    · exact .inl rfl

section Alike

/--
Declarations that do not differ for the rule: they are about the same names, begin with the same token, and are the same
pragma if one of them is a pragma.
-/
structure Alike (d e : Declaration) : Prop where
  bindersOf_eq : bindersOf e = bindersOf d
  firstToken_eq : firstToken e = firstToken d
  pragma_iff : ∀ p, e = .pragma p ↔ d = .pragma p

theorem Alike.refl (d : Declaration) : Alike d d :=
  ⟨rfl, rfl, fun _ => .rfl⟩

theorem map_eq_of_forall₂ {α β γ : Type} {r : α → β → Prop} {f : α → γ} {g : β → γ} {xs : List α} {ys : List β}
    (h : List.Forall₂ r xs ys) (hr : ∀ x y, r x y → g y = f x) : ys.map g = xs.map f := by
  induction h with
  | nil => rfl
  | cons hxy _ ih => rw [List.map_cons, List.map_cons, hr _ _ hxy, ih]

variable {ds es : List Declaration} (h : List.Forall₂ Alike ds es)
include h

theorem destination?_eq (p : Pragma) : destination? es p = destination? ds p := by
  have hbinders := map_eq_of_forall₂ h fun _ _ hde => hde.bindersOf_eq
  have howner (name : String) : owner? es name = owner? ds name := by
    have hnamed := congrArg (List.map fun names : List String => names.contains name) hbinders
    rw [List.map_map, List.map_map] at hnamed
    unfold owner?
    rw [show es.map (fun d => (bindersOf d).contains name) = _ from hnamed, h.length_eq]
    rfl
  unfold destination?
  simp only [howner]

theorem map_moved?_eq : es.map (moved? es) = ds.map (moved? ds) := by
  refine map_eq_of_forall₂ h fun d e hde => ?_
  have hother {d : Declaration} (hd : ∀ p, d ≠ .pragma p) (ds : List Declaration) : moved? ds d = none := by
    cases d with
    | pragma p => exact absurd rfl (hd p)
    | _ => rfl
  by_cases hpragma : ∃ p, d = .pragma p
  · obtain ⟨p, rfl⟩ := hpragma
    rw [(hde.pragma_iff p).2 rfl]
    exact congrArg (Option.map (·, p)) (destination?_eq h p)
  · rw [hother (fun p hp => hpragma ⟨p, hp⟩), hother fun p hp => hpragma ⟨p, (hde.pragma_iff p).1 hp⟩]

theorem pins_eq : pins es = pins ds := by
  have hmoved := congrArg (·.all Option.isNone) (map_moved?_eq h)
  have hfirst := congrArg (·.any fun t : Token => decide (t.column ≠ 0))
    (map_eq_of_forall₂ h fun _ _ hde => hde.firstToken_eq)
  simp only [List.all_map, List.any_map] at hmoved hfirst
  unfold pins
  exact congrArg₂ (fun a b => !(a || b)) hfirst hmoved

end Alike

end PragmaOrder

end HaskellStyle
