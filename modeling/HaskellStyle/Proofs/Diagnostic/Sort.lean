import HaskellStyle.Diagnostic

/-!
This module contains the order of reports. Main results: sorting findings and leaving out those that some predicate on
reports does not want can be done in either order; and the findings of a report are in order, of those that report the
same exactly the first one is there, findings at equal places stay as they stood, and sorting can be repeated.
-/

namespace HaskellStyle

section Stable

variable {α : Type} {le : α → α → Bool}

/--
Two ways to cut a list behind the elements that are not above `a` cut it at the same place.
-/
theorem append_inj_of_le {a : α} {l₁ l₂ r₁ r₂ : List α} (h : l₁ ++ l₂ = r₁ ++ r₂)
    (hl₁ : ∀ b ∈ l₁, (!le a b) = true) (hl₂ : ∀ b ∈ l₂, le a b)
    (hr₁ : ∀ b ∈ r₁, (!le a b) = true) (hr₂ : ∀ b ∈ r₂, le a b) : l₁ = r₁ ∧ l₂ = r₂ := by
  induction l₁ generalizing r₁ with
  | nil =>
    cases r₁ with
    | nil => exact ⟨rfl, h⟩
    | cons b r₁ =>
      have hb : b ∈ l₂ := by
        rw [show l₂ = b :: r₁ ++ r₂ from h]
        exact List.mem_append_left _ List.mem_cons_self
      simpa [hl₂ b hb] using hr₁ b List.mem_cons_self
  | cons b l₁ ih =>
    cases r₁ with
    | nil =>
      have hb : b ∈ r₂ := by
        rw [← show b :: l₁ ++ l₂ = r₂ from h]
        exact List.mem_append_left _ List.mem_cons_self
      simpa [hr₂ b hb] using hl₁ b List.mem_cons_self
    | cons c r₁ =>
      obtain ⟨rfl, htail⟩ := List.cons.inj h
      obtain ⟨rfl, rfl⟩ := ih htail (fun c hc => hl₁ c (List.mem_cons_of_mem _ hc))
        (fun c hc => hr₁ c (List.mem_cons_of_mem _ hc))
      exact ⟨rfl, rfl⟩

/--
A stable sort keeps the order of elements that a filter keeps.
-/
theorem mergeSort_filter (trans : ∀ a b c, le a b → le b c → le a c) (total : ∀ a b, le a b || le b a)
    (p : α → Bool) (l : List α) : (l.filter p).mergeSort le = (l.mergeSort le).filter p := by
  induction l with
  | nil => simp
  | cons a l ih =>
    obtain ⟨l₁, l₂, hsort, hrest, hless⟩ := List.mergeSort_cons trans total a l
    have hsorted : (l₁ ++ a :: l₂).Pairwise (le · ·) := hsort ▸ List.pairwise_mergeSort trans total (a :: l)
    have hmore : ∀ b ∈ l₂, le a b := (List.pairwise_cons.1 (List.pairwise_append.1 hsorted).2.1).1
    rw [hrest, List.filter_append] at ih
    rw [hsort, List.filter_append]
    cases ha : p a with
    | false => rw [List.filter_cons_of_neg (by simp [ha]), List.filter_cons_of_neg (by simp [ha]), ih]
    | true =>
      rw [List.filter_cons_of_pos ha, List.filter_cons_of_pos ha]
      obtain ⟨r₁, r₂, hsort', hrest', hless'⟩ := List.mergeSort_cons trans total a (l.filter p)
      have hsorted' : (r₁ ++ a :: r₂).Pairwise (le · ·) :=
        hsort' ▸ List.pairwise_mergeSort trans total (a :: l.filter p)
      have hmore' : ∀ b ∈ r₂, le a b := (List.pairwise_cons.1 (List.pairwise_append.1 hsorted').2.1).1
      obtain ⟨rfl, rfl⟩ := append_inj_of_le (hrest'.symm.trans ih) hless' hmore'
        (fun b hb => hless b (List.mem_filter.1 hb).1) (fun b hb => hmore b (List.mem_filter.1 hb).1)
      exact hsort'

/--
A stable sort keeps the order of elements of one rank.
-/
theorem pairwise_mergeSort_of_pairwise (trans : ∀ a b c, le a b → le b c → le a c)
    (total : ∀ a b, le a b || le b a) {r : α → α → Prop} {l : List α} (h : l.Pairwise r) :
    (l.mergeSort le).Pairwise fun a b => le a b ∧ (le b a → r a b) := by
  have hsorted := List.pairwise_mergeSort trans total l
  refine List.pairwise_iff_forall_sublist.2 fun {a b} hab => ?_
  have hle : le a b := List.pairwise_iff_forall_sublist.1 hsorted hab
  refine ⟨hle, fun hge => ?_⟩
  have hrefl (c : α) : le c c = true := by
    have := total c c
    rwa [Bool.or_self] at this
  -- The elements that are as high as `a` stand in the list as they stood before.
  have hrank : (l.mergeSort le).filter (fun c => le a c && le c a) = l.filter fun c => le a c && le c a := by
    rw [← mergeSort_filter trans total]
    refine List.mergeSort_of_pairwise (List.pairwise_iff_forall_sublist.2 fun {c d} hcd => ?_)
    have hc := (List.mem_filter.1 (hcd.subset List.mem_cons_self)).2
    have hd := (List.mem_filter.1 (hcd.subset (List.mem_cons_of_mem _ List.mem_cons_self))).2
    rw [Bool.and_eq_true] at hc hd
    exact trans _ _ _ hc.2 hd.1
  have hpair := hab.filter fun c => le a c && le c a
  rw [hrank, List.filter_cons_of_pos (by simp [hrefl]), List.filter_cons_of_pos (by simp [hle, hge]), List.filter_nil] at hpair
  exact List.pairwise_iff_forall_sublist.1 h (hpair.trans List.filter_sublist)

theorem mem_iff_of_filter_eq (total : ∀ a b, le a b || le b a) {l₁ l₂ : List α}
    (h : ∀ a, l₁.filter (fun b => le a b && le b a) = l₂.filter fun b => le a b && le b a) (a : α) :
    a ∈ l₁ ↔ a ∈ l₂ := by
  have hrefl : (le a a && le a a) = true := by
    have := total a a
    rwa [Bool.and_self, ← Bool.or_self (le a a)]
  have hrank (l : List α) : a ∈ l ↔ a ∈ l.filter fun b => le a b && le b a := by
    rw [List.mem_filter, and_iff_left hrefl]
  rw [hrank l₁, hrank l₂, h]

/--
Sorted lists are equal if they have the same elements of each rank, in the same order.
-/
theorem eq_of_filter_eq (total : ∀ a b, le a b || le b a) {l₁ l₂ : List α}
    (h₁ : l₁.Pairwise (le · ·)) (h₂ : l₂.Pairwise (le · ·))
    (h : ∀ a, l₁.filter (fun b => le a b && le b a) = l₂.filter fun b => le a b && le b a) : l₁ = l₂ := by
  have hrefl (a : α) : (le a a && le a a) = true := by
    have := total a a
    rwa [Bool.and_self, ← Bool.or_self (le a a)]
  induction l₁ generalizing l₂ with
  | nil =>
    refine (List.eq_nil_iff_forall_not_mem.2 fun a ha => ?_).symm
    exact List.not_mem_nil ((mem_iff_of_filter_eq total h a).2 ha)
  | cons a l₁ ih =>
    cases l₂ with
    | nil => exact absurd ((mem_iff_of_filter_eq total h a).1 List.mem_cons_self) List.not_mem_nil
    | cons b l₂ =>
      have hmem := mem_iff_of_filter_eq total h
      obtain ⟨hless₁, hsorted₁⟩ := List.pairwise_cons.1 h₁
      obtain ⟨hless₂, hsorted₂⟩ := List.pairwise_cons.1 h₂
      -- Each of the two first elements is found in the other list, so they have the same rank.
      have hab : le a b := by
        rcases List.mem_cons.1 ((hmem b).2 List.mem_cons_self) with rfl | hb
        · exact (Bool.and_eq_true_iff.1 (hrefl b)).1
        · exact hless₁ b hb
      have hba : le b a := by
        rcases List.mem_cons.1 ((hmem a).1 List.mem_cons_self) with rfl | ha
        · exact (Bool.and_eq_true_iff.1 (hrefl a)).1
        · exact hless₂ a ha
      have hsame := h a
      rw [List.filter_cons, List.filter_cons, if_pos (hrefl a), if_pos (by rw [hab, hba]; rfl)] at hsame
      obtain ⟨rfl, -⟩ := List.cons.inj hsame
      have hmore (c : α) : l₁.filter (fun b => le c b && le b c) = l₂.filter fun b => le c b && le b c := by
        have hc := h c
        rw [List.filter_cons, List.filter_cons] at hc
        split at hc
        · exact (List.cons.inj hc).2
        · exact hc
      exact congrArg (a :: ·) (ih hsorted₁ hsorted₂ hmore)

end Stable

namespace Diagnostic

theorem le_iff {a b : Diagnostic} :
    a.le b ↔ a.span.start < b.span.start ∨ (a.span.start = b.span.start
      ∧ (a.span.stop < b.span.stop ∨ (a.span.stop = b.span.stop ∧ a.kind.name ≤ b.kind.name))) := by
  unfold le
  split
  · grind
  · split <;> grind

theorem le_trans (a b c : Diagnostic) (hab : a.le b) (hbc : b.le c) : a.le c := by
  have hname : a.kind.name ≤ b.kind.name → b.kind.name ≤ c.kind.name → a.kind.name ≤ c.kind.name := String.le_trans
  rw [le_iff] at *
  grind

theorem le_total (a b : Diagnostic) : a.le b || b.le a := by
  have hname := String.le_total a.kind.name b.kind.name
  rw [Bool.or_eq_true, le_iff, le_iff]
  grind

/--
Leaving out reports before or after duplicates are removed is the same.
-/
theorem dedup_filter {p : Diagnostic → Bool} (hp : ∀ a b, a.sameReport b → p a = p b) (ds : List Diagnostic) :
    dedup (ds.filter p) = (dedup ds).filter p := by
  induction ds with
  | nil => rfl
  | cons d ds ih =>
    cases hd : p d with
    | true =>
      rw [List.filter_cons_of_pos hd, dedup, dedup, List.filter_cons_of_pos hd, ih, List.filter_filter,
        List.filter_filter]
      congr 2
      funext e
      exact Bool.and_comm _ _
    | false =>
      rw [List.filter_cons_of_neg (by simp [hd]), dedup, List.filter_cons_of_neg (by simp [hd]), ih,
        List.filter_filter]
      refine List.filter_congr fun e _ => ?_
      cases hsame : d.sameReport e with
      | false => simp
      | true => simp [← hp d e hsame, hd]

/--
Leaving out reports before or after sorting is the same.
-/
theorem sort_filter {p : Diagnostic → Bool} (hp : ∀ a b, a.sameReport b → p a = p b) (ds : List Diagnostic) :
    sort (ds.filter p) = (sort ds).filter p := by
  rw [sort, sort, mergeSort_filter le_trans le_total, dedup_filter hp]

/--
What is reported of each kind, and in which order, decides the whole report.
-/
theorem sort_congr {ds ds' : List Diagnostic}
    (h : ∀ kind, ds.filter (·.kind = kind) = ds'.filter (·.kind = kind)) : sort ds = sort ds' := by
  have hname (kind : DiagnosticKind) : DiagnosticKind.ofName? kind.name = some kind := by
    cases kind <;> decide
  have hrank (d : Diagnostic) (ds : List Diagnostic) : ds.filter (fun e => d.le e && e.le d)
      = (ds.filter (·.kind = d.kind)).filter fun e => d.le e && e.le d := by
    rw [List.filter_filter]
    refine List.filter_congr fun e _ => ?_
    cases hde : d.le e && e.le d with
    | false => rfl
    | true =>
      rw [Bool.and_eq_true, le_iff, le_iff] at hde
      have hsame : e.kind.name = d.kind.name := String.le_antisymm (by grind) (by grind)
      have hkind : e.kind = d.kind := Option.some.inj (by rw [← hname, hsame, hname])
      simp [hkind]
  have hsorted (ds : List Diagnostic) : (ds.mergeSort le).Pairwise (le · ·) :=
    List.pairwise_mergeSort le_trans le_total ds
  refine congrArg dedup (eq_of_filter_eq le_total (hsorted ds) (hsorted ds') fun d => ?_)
  rw [← mergeSort_filter le_trans le_total, ← mergeSort_filter le_trans le_total, hrank d ds, hrank d ds', h]

theorem sort_eq_nil_iff {ds : List Diagnostic} : sort ds = [] ↔ ds = [] := by
  constructor
  · intro h
    have hsorted : ds.mergeSort le = [] := by
      rw [sort] at h
      cases hds : ds.mergeSort le with
      | nil => rfl
      | cons d more => rw [hds] at h; cases h
    rw [← List.length_eq_zero_iff, ← List.length_mergeSort ds, hsorted]
    rfl
  · rintro rfl
    rw [sort, List.mergeSort_nil, dedup]

/--
Findings in the order of reports hold no change if none of them is one.
-/
theorem mechanical_sort_eq_nil_iff {ds : List Diagnostic} :
    mechanical (sort ds) = [] ↔ ∀ d ∈ ds, d.isMechanical = false := by
  have hkind (a b : Diagnostic) (h : a.sameReport b) : a.isMechanical = b.isMechanical := by
    simp only [sameReport, Bool.and_eq_true, decide_eq_true_eq] at h
    rw [isMechanical, isMechanical, h.1.1]
  rw [mechanical, ← sort_filter hkind, sort_eq_nil_iff, List.filter_eq_nil_iff]
  simp only [Bool.not_eq_true]

/--
What the place of a finding in a report depends on.
-/
def rank (d : Diagnostic) : Nat × Nat × String :=
  (d.span.start, d.span.stop, d.kind.name)

/--
A finding that may stand before another one: it starts before it, or there and ends before it, or there and the name of
its kind comes before that of the other one.
-/
def Precedes (a b : Diagnostic) : Prop :=
  a.span.start < b.span.start ∨ (a.span.start = b.span.start
    ∧ (a.span.stop < b.span.stop ∨ (a.span.stop = b.span.stop ∧ a.kind.name ≤ b.kind.name)))

theorem sameReport_iff {a b : Diagnostic} :
    a.sameReport b ↔ a.kind = b.kind ∧ a.span = b.span ∧ a.message = b.message := by
  simp [sameReport, and_assoc]

theorem le_of_rank_eq {a b : Diagnostic} (h : a.rank = b.rank) : a.le b := by
  simp only [rank, Prod.mk.injEq] at h
  exact le_iff.2 (.inr ⟨h.1, .inr ⟨h.2.1, h.2.2 ▸ String.le_refl _⟩⟩)

theorem dedup_sublist (ds : List Diagnostic) : (dedup ds).Sublist ds := by
  induction ds with
  | nil => exact .slnil
  | cons d ds ih => exact (List.filter_sublist.trans ih).cons_cons d

theorem pairwise_dedup (ds : List Diagnostic) : (dedup ds).Pairwise fun a b => a.sameReport b = false := by
  induction ds with
  | nil => exact .nil
  | cons d ds ih =>
    refine List.pairwise_cons.2 ⟨fun e he => ?_, ih.filter _⟩
    simpa using (List.mem_filter.1 he).2

theorem dedup_eq_self {ds : List Diagnostic} (h : ds.Pairwise fun a b => a.sameReport b = false) : dedup ds = ds := by
  induction ds with
  | nil => rfl
  | cons d ds ih =>
    obtain ⟨hd, hds⟩ := List.pairwise_cons.1 h
    rw [dedup, ih hds, List.filter_eq_self.2 fun e he => by simp [hd e he]]

/--
Of findings that all report the same, the first one is kept.
-/
theorem dedup_eq_head? {ds : List Diagnostic} (h : ∀ a ∈ ds, ∀ b ∈ ds, a.sameReport b) : dedup ds = ds.head?.toList := by
  cases ds with
  | nil => rfl
  | cons d ds =>
    have hnone : (dedup ds).filter (!d.sameReport ·) = [] := by
      refine List.filter_eq_nil_iff.2 fun e he => ?_
      have hsame := h d List.mem_cons_self e (List.mem_cons_of_mem _ ((dedup_sublist ds).subset he))
      simp [hsame]
    rw [dedup, hnone]
    rfl

/--
Findings at one place stay in order.
-/
theorem sort_eq_dedup {ds : List Diagnostic} (h : ∀ a ∈ ds, ∀ b ∈ ds, a.rank = b.rank) : sort ds = dedup ds := by
  have hsorted : ds.Pairwise (le · ·) :=
    List.pairwise_of_forall_mem_list fun a ha b hb => le_of_rank_eq (h a ha b hb)
  rw [sort, List.mergeSort_of_pairwise hsorted]

theorem pairwise_sort (ds : List Diagnostic) : (sort ds).Pairwise (le · ·) :=
  (List.pairwise_mergeSort le_trans le_total ds).sublist (dedup_sublist _)

theorem sort_sort (ds : List Diagnostic) : sort (sort ds) = sort ds := by
  rw [sort, List.mergeSort_of_pairwise (pairwise_sort ds), sort, dedup_eq_self (pairwise_dedup _)]

/--
Of the findings that report the same as `d`, a report has the first one.
-/
theorem filter_sameReport_sort (ds : List Diagnostic) (d : Diagnostic) :
    (sort ds).filter (·.sameReport d) = (ds.find? (·.sameReport d)).toList := by
  have hequal {a b : Diagnostic} (hab : a.sameReport b) : a.sameReport d = b.sameReport d := by
    obtain ⟨hkind, hspan, hmessage⟩ := sameReport_iff.1 hab
    rw [sameReport, sameReport, hkind, hspan, hmessage]
  have hsame : ∀ a ∈ ds.filter (·.sameReport d), ∀ b ∈ ds.filter (·.sameReport d), a.sameReport b := by
    intro a ha b hb
    obtain ⟨hkind, hspan, hmessage⟩ := sameReport_iff.1 (List.mem_filter.1 ha).2
    obtain ⟨hkind', hspan', hmessage'⟩ := sameReport_iff.1 (List.mem_filter.1 hb).2
    exact sameReport_iff.2 ⟨hkind.trans hkind'.symm, hspan.trans hspan'.symm, hmessage.trans hmessage'.symm⟩
  have hrank : ∀ a ∈ ds.filter (·.sameReport d), ∀ b ∈ ds.filter (·.sameReport d), a.rank = b.rank := by
    intro a ha b hb
    obtain ⟨hkind, hspan, -⟩ := sameReport_iff.1 (hsame a ha b hb)
    rw [rank, rank, hkind, hspan]
  rw [← sort_filter fun a b => hequal, sort_eq_dedup hrank, dedup_eq_head? hsame, List.head?_filter]

/--
Findings at equal places stand in a report as they stood before.
-/
theorem filter_rank_sort_sublist (ds : List Diagnostic) (place : Nat × Nat × String) :
    ((sort ds).filter (·.rank = place)).Sublist ds := by
  have hequal (a b : Diagnostic) (hab : a.sameReport b) : decide (a.rank = place) = decide (b.rank = place) := by
    obtain ⟨hkind, hspan, -⟩ := sameReport_iff.1 hab
    rw [rank, rank, hkind, hspan]
  have hrank : ∀ a ∈ ds.filter (·.rank = place), ∀ b ∈ ds.filter (·.rank = place), a.rank = b.rank := by
    intro a ha b hb
    exact (of_decide_eq_true (List.mem_filter.1 ha).2).trans (of_decide_eq_true (List.mem_filter.1 hb).2).symm
  rw [← sort_filter hequal, sort_eq_dedup hrank]
  exact (dedup_sublist _).trans List.filter_sublist

/--
A report is in order. For each kind, span and message it has the first finding with them and no other one. Findings
at equal places stand as they stood before. A report is a report of itself, and whatever is left out by kind, span and
message can be left out before or after.
-/
theorem sort_ordered (ds : List Diagnostic) :
    (sort ds).Pairwise Precedes
    ∧ (∀ kind span message,
      (sort ds).filter (fun d => d.kind = kind ∧ d.span = span ∧ d.message = message)
        = (ds.find? fun d => d.kind = kind ∧ d.span = span ∧ d.message = message).toList)
    ∧ (∀ place, ((sort ds).filter (·.rank = place)).Sublist ds)
    ∧ sort (sort ds) = sort ds
    ∧ ∀ p : DiagnosticKind → Span → String → Bool,
      sort (ds.filter fun d => p d.kind d.span d.message) = (sort ds).filter fun d => p d.kind d.span d.message := by
  refine ⟨(pairwise_sort ds).imp le_iff.1, fun kind span message => ?_, filter_rank_sort_sublist ds, sort_sort ds,
    fun p => sort_filter (fun a b hab => ?_) ds⟩
  · have hreport : (fun d : Diagnostic => decide (d.kind = kind ∧ d.span = span ∧ d.message = message))
        = (·.sameReport { kind, span, message }) := by
      funext d
      rw [Bool.eq_iff_iff, decide_eq_true_eq, sameReport_iff]
    rw [hreport]
    exact filter_sameReport_sort ds _
  · obtain ⟨hkind, hspan, hmessage⟩ := sameReport_iff.1 hab
    rw [hkind, hspan, hmessage]

end Diagnostic

end HaskellStyle
