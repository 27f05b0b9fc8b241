import HaskellStyle.Proofs.Fault
import HaskellStyle.Proofs.Module.Region
import HaskellStyle.Rule.ImportOrder
import Mathlib.Algebra.GroupWithZero.Nat
import Mathlib.Algebra.Order.BigOperators.Group.List
import Mathlib.Algebra.Order.Group.Nat
import Mathlib.Data.List.Nodup
import Mathlib.Data.Prod.Lex
import Mathlib.Data.String.Basic

/-!
This module contains what grouping does to the imports of a module. Every import goes to all groups of its origin, so none
is lost, and an import is copied exactly when the settings name its origin twice. A group is not empty, is sorted by a key
of the imports and has imports of one origin. Two groups have different origins unless the settings name an origin twice,
and the keys in the groups do not depend on the order in which the source has the imports.
-/

namespace HaskellStyle

variable {α κ : Type} [DecidableEq κ]

/--
The elements with the first key, those with the second, and so on.
-/
def gather (keys : List κ) (key : α → κ) (xs : List α) : List α :=
  keys.flatMap fun k => xs.filter fun x => key x = k

namespace Gather

/--
The elements of one key, and those of the others.
-/
theorem sum_filter_add (k : κ) (keys : List κ) (key : α → κ) (xs : List α) (size : α → Nat) :
    ((xs.filter fun x => key x = k).map size).sum + (xs.map fun x => keys.count (key x) * size x).sum
      = (xs.map fun x => (k :: keys).count (key x) * size x).sum := by
  induction xs with
  | nil => rfl
  | cons x more ih =>
    by_cases h : key x = k
    · simp only [List.filter_cons_of_pos (p := fun x => decide (key x = k)) (decide_eq_true h),
        List.map_cons, List.sum_cons, ← ih, h, List.count_cons_self, Nat.add_mul]
      omega
    · simp only [List.filter_cons_of_neg (p := fun x => decide (key x = k)) (by simpa using h),
        List.map_cons, List.sum_cons, ← ih, List.count_cons_of_ne (Ne.symm h)]
      omega

theorem sum_gather (keys : List κ) (key : α → κ) (xs : List α) (size : α → Nat) :
    ((gather keys key xs).map size).sum = (xs.map fun x => keys.count (key x) * size x).sum := by
  unfold gather
  induction keys with
  | nil => simp
  | cons k keys ih => rw [List.flatMap_cons, List.map_append, List.sum_append, ih, sum_filter_add]

theorem count_eq_sum [DecidableEq α] (x : α) (xs : List α) :
    xs.count x = (xs.map fun y => if y = x then 1 else 0).sum := by
  induction xs with
  | nil => rfl
  | cons y more ih => simp [List.count_cons, ih, Nat.add_comm]

/--
A list whose keys are all listed once is only put in another order.
-/
theorem gather_perm {keys : List κ} {key : α → κ} {xs : List α}
    (h : ∀ x ∈ xs, keys.count (key x) = 1) : (gather keys key xs).Perm xs := by
  classical
  refine List.perm_iff_count.2 fun x => ?_
  rw [count_eq_sum, count_eq_sum, sum_gather]
  congr 1
  refine List.map_congr_left fun y hy => ?_
  rw [h y hy, Nat.one_mul]

/--
A sum whose terms are all taken at least once is the plain sum exactly if each term is taken once.
-/
theorem sum_mul_eq_iff {xs : List α} {times size : α → Nat} (htimes : ∀ x ∈ xs, 1 ≤ times x)
    (hsize : ∀ x, 0 < size x) :
    (xs.map fun x => times x * size x).sum = (xs.map size).sum ↔ ∀ x ∈ xs, times x ≤ 1 := by
  induction xs with
  | nil => simp
  | cons x more ih =>
    have htail : (more.map size).sum ≤ (more.map fun x => times x * size x).sum :=
      List.sum_le_sum fun y hy => Nat.le_mul_of_pos_left _ (htimes y (List.mem_cons_of_mem _ hy))
    have hhead := htimes x List.mem_cons_self
    have hpos := hsize x
    specialize ih fun y hy => htimes y (List.mem_cons_of_mem _ hy)
    simp only [List.map_cons, List.sum_cons, List.forall_mem_cons]
    constructor
    · intro h
      have hx : times x ≤ 1 := by
        by_contra hx
        have : 2 * size x ≤ times x * size x := Nat.mul_le_mul_right _ (by omega)
        omega
      refine ⟨hx, ih.1 ?_⟩
      have : times x = 1 := by omega
      rw [this, Nat.one_mul] at h
      omega
    · rintro ⟨hx, hmore⟩
      have : times x = 1 := by omega
      rw [this, Nat.one_mul, ih.2 hmore]

end Gather

end HaskellStyle

namespace HaskellStyle.ImportOrder

variable {settings : Settings}

/--
The origin of an import of a module.
-/
def originOf (settings : Settings) (m : Module) (i : Import) : ImportOrigin :=
  if isLocal settings m.name? i then .internal else .external

/--
Whether the imports of a module are grouped anew.
-/
def regroups (m : Module) : Bool :=
  m.importsReorderable && (minBy (·.keyword.offset) m.importDecls).any isMovable

/--
No import that is grouped anew has an origin that the settings name twice.
-/
def NamedOnce (settings : Settings) (m : Module) : Prop :=
  regroups m → ∀ i ∈ m.importDecls, settings.importGroupOrder.count (originOf settings m i) ≤ 1

instance (m : Module) : Decidable (NamedOnce settings m) :=
  inferInstanceAs (Decidable (_ → _))

theorem module_apply (m : Module) :
    (apply settings m).module
      = if regroups m then { m with imports := groups settings m, importsNormalized := true } else m := by
  unfold apply regroups
  cases himports : m.importDecls with
  | nil => simp [minBy]
  | cons first more =>
    cases hfirst : minBy (·.keyword.offset) (first :: more) with
    | none => simp
    | some sourceFirst =>
      dsimp only [Option.any_some]
      split <;> rfl

/--
Each origin has a group, and one for each time the settings name it.
-/
theorem count_groupOrder (origin : ImportOrigin) :
    (groupOrder settings).count origin = max 1 (settings.importGroupOrder.count origin) := by
  unfold groupOrder
  rw [List.count_append]
  by_cases hnamed : origin ∈ settings.importGroupOrder
  · have hmissing : origin ∉ ([.external, .internal] : List ImportOrigin).filter
        fun o => !settings.importGroupOrder.contains o := by
      simp [hnamed]
    have := List.count_pos_iff.2 hnamed
    rw [List.count_eq_zero.2 hmissing]
    omega
  · have hall : ([.external, .internal] : List ImportOrigin).count origin = 1 := by
      cases origin <;> rfl
    rw [List.count_filter (by simpa using hnamed), List.count_eq_zero.2 hnamed, hall]
    rfl

theorem count_groupOrder_le_iff (origin : ImportOrigin) :
    (groupOrder settings).count origin ≤ 1 ↔ settings.importGroupOrder.count origin ≤ 1 := by
  rw [count_groupOrder]
  omega

theorem flatten_groups_perm (m : Module) :
    (groups settings m).flatten.Perm
      (gather (groupOrder settings) (originOf settings m) m.importDecls) := by
  unfold groups gather
  rw [List.partition_eq_filter_filter]
  dsimp only
  rw [List.flatten_filter_not_isEmpty, ← List.flatMap_def]
  refine List.Perm.flatMap_left _ fun origin _ => (List.mergeSort_perm _ _).trans (.of_eq ?_)
  cases origin with
  | external => exact List.filter_congr fun i _ => by simp [originOf]
  | internal => exact List.filter_congr fun i _ => by simp [originOf]

theorem groups_perm {m : Module}
    (h : ∀ i ∈ m.importDecls, settings.importGroupOrder.count (originOf settings m i) ≤ 1) :
    (groups settings m).flatten.Perm m.importDecls := by
  refine (flatten_groups_perm m).trans (Gather.gather_perm fun i hi => ?_)
  have := h i hi
  rw [count_groupOrder]
  omega

/--
Grouping keeps a positive measure of the imports exactly if it copies none of them.
-/
theorem sum_groups_eq_iff (m : Module) {size : Import → Nat} (hsize : ∀ i, 0 < size i) :
    ((groups settings m).flatten.map size).sum = (m.importDecls.map size).sum
      ↔ ∀ i ∈ m.importDecls, settings.importGroupOrder.count (originOf settings m i) ≤ 1 := by
  rw [((flatten_groups_perm m).map size).sum_eq, Gather.sum_gather, Gather.sum_mul_eq_iff _ hsize]
  · simp only [count_groupOrder_le_iff]
  · intro i _
    rw [count_groupOrder]
    omega

/--
The imports behind the rule measure as much as those before exactly if none is copied.
-/
theorem sum_apply_eq_iff (m : Module) {size : Import → Nat} (hsize : ∀ i, 0 < size i) :
    ((apply settings m).module.importDecls.map size).sum = (m.importDecls.map size).sum
      ↔ NamedOnce settings m := by
  rw [module_apply]
  unfold NamedOnce
  split
  · next h =>
    simp only [h, true_imp_iff]
    exact sum_groups_eq_iff m hsize
  · next h => simp only [h, Bool.false_eq_true, false_imp_iff]

/--
No import is lost when imports are grouped.
-/
theorem importDecls_subset (m : Module) : m.importDecls ⊆ (apply settings m).module.importDecls := by
  rw [module_apply]
  split
  · intro i hi
    refine (flatten_groups_perm m).mem_iff.2 (List.mem_flatMap.2 ⟨originOf settings m i, ?_, ?_⟩)
    · rw [← List.count_pos_iff, count_groupOrder]
      omega
    · exact List.mem_filter.2 ⟨hi, decide_eq_true rfl⟩
  · exact List.Subset.refl _

theorem importDecls_apply_perm {m : Module} (h : NamedOnce settings m) :
    (apply settings m).module.importDecls.Perm m.importDecls := by
  rw [module_apply]
  split
  · next hregroups => exact groups_perm (h hregroups)
  · exact .refl _

/--
What imports are sorted by: the module, then whether it is qualified, then the text.
-/
def importKey (i : Import) : String ×ₗ Bool ×ₗ String :=
  toLex (i.moduleName, toLex (i.isQualified, i.spacedText))

theorem importLe_iff {a b : Import} : importLe a b ↔ importKey a ≤ importKey b := by
  unfold importLe importKey
  rw [Prod.Lex.toLex_le_toLex, Prod.Lex.toLex_le_toLex]
  dsimp only
  by_cases hname : a.moduleName = b.moduleName
  · by_cases hqualified : a.isQualified = b.isQualified
    · simp [hname, hqualified]
    · cases ha : a.isQualified <;> cases hb : b.isQualified <;> simp_all
  · simp [hname]

theorem importLe_trans (a b c : Import) : importLe a b → importLe b c → importLe a c := by
  simp only [importLe_iff]
  exact le_trans

theorem importLe_total (a b : Import) : importLe a b || importLe b a := by
  rw [Bool.or_eq_true, importLe_iff, importLe_iff]
  exact le_total _ _

/--
Imports in the order of their keys.
-/
def Sorted (imports : List Import) : Prop :=
  imports.Pairwise fun a b => importKey a ≤ importKey b

theorem sorted_mergeSort (imports : List Import) : Sorted (imports.mergeSort importLe) :=
  (List.pairwise_mergeSort importLe_trans importLe_total imports).imp importLe_iff.1

/--
A list that is sorted has no other order of keys than that of its permutations.
-/
theorem map_importKey_mergeSort {imports imports' : List Import} (h : imports.Perm imports') :
    (imports.mergeSort importLe).map importKey = (imports'.mergeSort importLe).map importKey := by
  have hperm : (imports.mergeSort importLe).Perm (imports'.mergeSort importLe) :=
    ((List.mergeSort_perm _ _).trans h).trans (List.mergeSort_perm _ _).symm
  have hsorted (imports : List Import) : ((imports.mergeSort importLe).map importKey).Pairwise (· ≤ ·) :=
    List.pairwise_map.2 (sorted_mergeSort imports)
  exact (hperm.map importKey).eq_of_pairwise (fun _ _ _ _ => le_antisymm) (hsorted _) (hsorted _)

/--
The imports of one origin, sorted.
-/
def ofOrigin (settings : Settings) (m : Module) (origin : ImportOrigin) : List Import :=
  (m.importDecls.filter fun i => originOf settings m i = origin).mergeSort importLe

theorem groups_eq (m : Module) :
    groups settings m
      = ((groupOrder settings).map (ofOrigin settings m)).filter fun group => !group.isEmpty := by
  unfold groups ofOrigin
  rw [List.partition_eq_filter_filter]
  dsimp only
  congr 2
  funext origin
  cases origin with
  | external =>
    refine congrArg (List.mergeSort · importLe) (List.filter_congr fun i _ => ?_)
    simp [originOf]
  | internal =>
    refine congrArg (List.mergeSort · importLe) (List.filter_congr fun i _ => ?_)
    simp [originOf]

theorem mem_ofOrigin {m : Module} {origin : ImportOrigin} {i : Import} :
    i ∈ ofOrigin settings m origin ↔ i ∈ m.importDecls ∧ originOf settings m i = origin := by
  unfold ofOrigin
  rw [List.mem_mergeSort, List.mem_filter, decide_eq_true_iff]

theorem mem_groups {m : Module} {group : List Import} (h : group ∈ groups settings m) :
    group ≠ [] ∧ ∃ origin, group = ofOrigin settings m origin := by
  rw [groups_eq, List.mem_filter, List.mem_map] at h
  obtain ⟨⟨origin, -, rfl⟩, hgroup⟩ := h
  exact ⟨by simpa using hgroup, origin, rfl⟩

/--
Whether two groups of imports have no origin in common.
-/
def Apart (settings : Settings) (m : Module) (group group' : List Import) : Prop :=
  ∀ i ∈ group, ∀ j ∈ group', originOf settings m i ≠ originOf settings m j

theorem apart_ofOrigin_iff {m : Module} {origin origin' : ImportOrigin} (h : ofOrigin settings m origin ≠ [])
    (h' : ofOrigin settings m origin' ≠ []) :
    Apart settings m (ofOrigin settings m origin) (ofOrigin settings m origin') ↔ origin ≠ origin' := by
  constructor
  · rintro hapart rfl
    obtain ⟨i, hi⟩ := List.exists_mem_of_ne_nil _ h
    exact hapart i hi i hi rfl
  · intro hne i hi j hj
    rw [(mem_ofOrigin.1 hi).2, (mem_ofOrigin.1 hj).2]
    exact hne

/--
Whether an origin has imports, and so a group.
-/
def hasImports (settings : Settings) (m : Module) (origin : ImportOrigin) : Bool :=
  !(ofOrigin settings m origin).isEmpty

theorem hasImports_iff {m : Module} {origin : ImportOrigin} :
    hasImports settings m origin ↔ ∃ i ∈ m.importDecls, originOf settings m i = origin := by
  unfold hasImports
  rw [Bool.not_eq_true', List.isEmpty_eq_false_iff_exists_mem]
  simp only [mem_ofOrigin]

/--
No two groups have an origin in common exactly if no origin has two groups.
-/
theorem pairwise_apart_groups (m : Module) :
    (groups settings m).Pairwise (Apart settings m)
      ↔ ((groupOrder settings).filter (hasImports settings m)).Nodup := by
  rw [groups_eq, List.pairwise_filter, List.pairwise_map, List.Nodup, List.pairwise_filter]
  refine List.Pairwise.iff fun origin origin' => forall₂_congr fun h h' => ?_
  exact apart_ofOrigin_iff (by simpa using h) (by simpa using h')

/--
No two groups have an origin in common exactly if no import has an origin that the settings name twice.
-/
theorem pairwise_apart_groups_iff (m : Module) :
    (groups settings m).Pairwise (Apart settings m)
      ↔ ∀ i ∈ m.importDecls, settings.importGroupOrder.count (originOf settings m i) ≤ 1 := by
  rw [pairwise_apart_groups, List.nodup_iff_count_le_one]
  constructor
  · intro h i hi
    have hgroup : hasImports settings m (originOf settings m i) := hasImports_iff.2 ⟨i, hi, rfl⟩
    rw [← count_groupOrder_le_iff, ← List.count_filter hgroup]
    exact h _
  · intro h origin
    cases hgroup : hasImports settings m origin with
    | true =>
      obtain ⟨i, hi, rfl⟩ := hasImports_iff.1 hgroup
      rw [List.count_filter hgroup, count_groupOrder_le_iff]
      exact h i hi
    | false =>
      have habsent : origin ∉ (groupOrder settings).filter (hasImports settings m) := by simp [hgroup]
      rw [List.count_eq_zero.2 habsent]
      exact Nat.zero_le 1

/--
What grouping gives: groups that are not empty, each sorted and of one origin.
-/
theorem forall_mem_groups (m : Module) :
    ∀ group ∈ groups settings m, group ≠ [] ∧ Sorted group
      ∧ ∃ origin, ∀ i ∈ group, originOf settings m i = origin := by
  intro group hgroup
  obtain ⟨hne, origin, rfl⟩ := mem_groups hgroup
  exact ⟨hne, sorted_mergeSort _, origin, fun i hi => (mem_ofOrigin.1 hi).2⟩

theorem apply_perm_iff (m : Module) :
    (apply settings m).module.importDecls.Perm m.importDecls ↔ NamedOnce settings m := by
  constructor
  · -- A permutation keeps the number of imports, which copies make larger.
    intro h
    have hlength := (h.map fun _ => 1).sum_eq
    exact (sum_apply_eq_iff m fun _ => Nat.one_pos).1 hlength
  · exact importDecls_apply_perm

theorem importsNormalized_of_parse {text : List Char} {m : Module} (h : Module.parse text = .ok m) :
    m.importsNormalized = false := by
  obtain ⟨stream, header, rest, ds, -, -, -, rfl⟩ := Module.read_eq_ok (Module.read_of_parse h)
  rfl

/--
The rule keeps the imports of a module that was read, in some order, exactly if it copies none of them. The groups that
it makes are not empty, each is sorted and of one origin, and no two of them have an origin in common exactly if
none of the imports is copied.
-/
theorem grouped_of_parse {text : List Char} {m : Module} (h : Module.parse text = .ok m) :
    ((apply settings m).module.importDecls.Perm m.importDecls ↔ NamedOnce settings m)
      ∧ ((apply settings m).module.importsNormalized →
        (∀ group ∈ (apply settings m).module.imports,
          group ≠ [] ∧ Sorted group ∧ ∃ origin, ∀ i ∈ group, originOf settings m i = origin)
        ∧ ((apply settings m).module.imports.Pairwise (Apart settings m) ↔ NamedOnce settings m)) := by
  refine ⟨apply_perm_iff m, ?_⟩
  rw [module_apply]
  split
  · next hregroups =>
    intro
    refine ⟨forall_mem_groups m, ?_⟩
    simp only [NamedOnce, hregroups, true_imp_iff]
    exact pairwise_apart_groups_iff m
  · intro hnormalized
    rw [importsNormalized_of_parse h] at hnormalized
    cases hnormalized

/--
Settings that name the imports of other projects twice.
-/
def namedTwice : Settings := { importGroupOrder := [.external, .external] }

/--
A module with imports of both origins.
-/
def twoOrigins :
    { m // Module.parse "module A.B where\nimport C\nimport A.D\nimport B\n".toList = .ok m
      ∧ regroups m = true ∧ NamedOnce {} m
      ∧ m.importDecls.map (originOf {} m) = [.external, .internal, .external] } :=
  sample _ _ (by decide +kernel)

theorem grouped_of_parse_twoOrigins :
    ∃ m, Module.parse "module A.B where\nimport C\nimport A.D\nimport B\n".toList = .ok m
      ∧ m.importDecls.map (originOf {} m) = [.external, .internal, .external]
      ∧ (apply {} m).module.importDecls.Perm m.importDecls
      ∧ (∀ group ∈ (apply {} m).module.imports,
        group ≠ [] ∧ Sorted group ∧ ∃ origin, ∀ i ∈ group, originOf {} m i = origin)
      ∧ (apply {} m).module.imports.Pairwise (Apart {} m) := by
  obtain ⟨m, hm, hregroups, honce, horigins⟩ := twoOrigins
  have hnormalized : (apply {} m).module.importsNormalized = true := by rw [module_apply, if_pos hregroups]
  obtain ⟨hperm, hgroups⟩ := @grouped_of_parse {} _ _ hm
  exact ⟨m, hm, horigins, hperm.2 honce, (hgroups hnormalized).1, (hgroups hnormalized).2.2 honce⟩

/--
An import of a module whose settings name its origin twice is there twice.
-/
theorem not_grouped_of_parse :
    ¬ ∀ (settings : Settings) (text : List Char) (m : Module), Module.parse text = .ok m →
      (apply settings m).module.importDecls.Perm m.importDecls := by
  intro h
  obtain ⟨m, hm, htwice⟩ : { m // Module.parse "import A\n".toList = .ok m ∧ ¬ NamedOnce namedTwice m } :=
    sample _ _ (by decide +kernel)
  exact htwice ((apply_perm_iff m).1 (h namedTwice _ m hm))

/--
The keys in the groups of imports depend on the name of the module and on which imports there are, but not on the order
in which the source has them.
-/
theorem groups_map_importKey {m m' : Module} (hname : m'.name? = m.name?)
    (himports : m'.importDecls.Perm m.importDecls) :
    (groups settings m').map (·.map importKey) = (groups settings m).map (·.map importKey) := by
  have horigin : originOf settings m' = originOf settings m := by
    funext i
    unfold originOf
    rw [hname]
  have hkeys (origin : ImportOrigin) :
      (ofOrigin settings m' origin).map importKey = (ofOrigin settings m origin).map importKey := by
    unfold ofOrigin
    rw [horigin]
    exact map_importKey_mergeSort (himports.filter _)
  -- A group is empty exactly if it has no keys, so the same groups are left out on both sides.
  have hgroups (m : Module) : (groups settings m).map (·.map importKey)
      = ((groupOrder settings).map fun origin => (ofOrigin settings m origin).map importKey).filter
        fun keys => !keys.isEmpty := by
    rw [groups_eq, List.filter_map, List.map_map, List.filter_map]
    simp only [Function.comp_def, List.isEmpty_map]
  rw [hgroups, hgroups]
  simp only [hkeys]

theorem groups_map_importKey_reverse :
    ∃ m, Module.parse "module A.B where\nimport C\nimport A.D\nimport B\n".toList = .ok m
      ∧ (groups {} { m with imports := [m.importDecls.reverse] }).map (·.map importKey)
        = (groups {} m).map (·.map importKey) := by
  obtain ⟨m, hm, -⟩ := twoOrigins
  refine ⟨m, hm, groups_map_importKey rfl ?_⟩
  exact (List.Perm.of_eq (List.append_nil _)).trans (List.reverse_perm _)

end HaskellStyle.ImportOrder
