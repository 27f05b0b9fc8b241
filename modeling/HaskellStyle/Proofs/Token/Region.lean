import HaskellStyle.Token.Basic
import Mathlib.Data.List.Perm.Basic

/-!
This module contains the regions into which preprocessor directives cut a text. Two sequences of directives and tokens
have the same regions if they have the same directives and the same tokens before each of them.
-/

namespace HaskellStyle

/--
What a preprocessor tells apart: its directives, and the tokens between them.
-/
inductive Event where
  | directive (piece : TriviaPiece)
  | token (t : Token)
  deriving DecidableEq

/--
The directives of trivia.
-/
def Trivia.directives (trivia : Trivia) : List TriviaPiece :=
  trivia.filter (·.kind = .directive)

@[simp]
theorem Trivia.directives_eq_nil_iff {trivia : Trivia} : trivia.directives = [] ↔ trivia.hasDirective = false := by
  simp [directives, hasDirective]

namespace Token

/--
A token and the directives behind it.
-/
def eventsInside (t : Token) : List Event :=
  .token t :: t.trailing.directives.map .directive

/--
A token and the directives around it.
-/
def events (t : Token) : List Event :=
  t.leading.directives.map .directive ++ t.eventsInside

end Token

namespace Event

/--
Tokens and the directives around them.
-/
def ofTokens (ts : List Token) : List Event :=
  ts.flatMap Token.events

/--
The directives among events.
-/
def directives : List Event → List TriviaPiece
  | [] => []
  | .directive piece :: more => piece :: directives more
  | .token _ :: more => directives more

/--
The tokens among events.
-/
def tokensOf : List Event → List Token
  | [] => []
  | .directive _ :: more => tokensOf more
  | .token t :: more => t :: tokensOf more

/--
The tokens before the directive that `k` others precede, or all of them if there is none.
-/
def tokensBefore : Nat → List Event → List Token
  | _, [] => []
  | 0, .directive _ :: _ => []
  | k + 1, .directive _ :: more => tokensBefore k more
  | k, .token t :: more => t :: tokensBefore k more

/--
The directives are the same, and before each of them there are the same tokens up to their order.
-/
structure SameRegions (old new : List Event) : Prop where
  directives_eq : directives new = directives old
  tokens_perm : ∀ k, (tokensBefore k new).Perm (tokensBefore k old)

/--
The tokens of events, each with the number of directives before it, of which there are `n` to begin with.
-/
def regions (n : Nat) : List Event → List (Nat × Token)
  | [] => []
  | .directive _ :: more => regions (n + 1) more
  | .token t :: more => (n, t) :: regions n more

@[simp]
theorem directives_append (es fs : List Event) : directives (es ++ fs) = directives es ++ directives fs := by
  induction es with
  | nil => rfl
  | cons e es ih => cases e <;> simp [directives, ih]

@[simp]
theorem tokensOf_append (es fs : List Event) : tokensOf (es ++ fs) = tokensOf es ++ tokensOf fs := by
  induction es with
  | nil => rfl
  | cons e es ih => cases e <;> simp [tokensOf, ih]

theorem regions_append (n : Nat) (es fs : List Event) :
    regions n (es ++ fs) = regions n es ++ regions (n + (directives es).length) fs := by
  induction es generalizing n with
  | nil => rfl
  | cons e es ih =>
    cases e with
    | directive piece =>
      simp only [List.cons_append, regions, directives, ih, List.length_cons]
      rw [Nat.add_right_comm, Nat.add_assoc]
    | token t => simp only [List.cons_append, regions, directives, ih]

@[simp]
theorem directives_map_directive (pieces : List TriviaPiece) : directives (pieces.map .directive) = pieces := by
  induction pieces with
  | nil => rfl
  | cons piece pieces ih => rw [List.map_cons, directives, ih]

@[simp]
theorem directives_map_token (ts : List Token) : directives (ts.map .token) = [] := by
  induction ts with
  | nil => rfl
  | cons t ts ih => rw [List.map_cons, directives, ih]

@[simp]
theorem tokensOf_map_directive (pieces : List TriviaPiece) : tokensOf (pieces.map .directive) = [] := by
  induction pieces with
  | nil => rfl
  | cons piece pieces ih => rw [List.map_cons, tokensOf, ih]

@[simp]
theorem regions_map_directive (n : Nat) (pieces : List TriviaPiece) : regions n (pieces.map .directive) = [] := by
  induction pieces generalizing n with
  | nil => rfl
  | cons piece pieces ih => rw [List.map_cons, regions, ih]

@[simp]
theorem regions_map_token (n : Nat) (ts : List Token) : regions n (ts.map .token) = ts.map (n, ·) := by
  induction ts with
  | nil => rfl
  | cons t ts ih => rw [List.map_cons, regions, ih, List.map_cons]

theorem map_snd_regions (n : Nat) (es : List Event) : (regions n es).map Prod.snd = tokensOf es := by
  induction es generalizing n with
  | nil => rfl
  | cons e es ih => cases e <;> simp [regions, tokensOf, ih]

theorem le_of_mem_regions {n : Nat} {es : List Event} {x : Nat × Token} (h : x ∈ regions n es) : n ≤ x.1 := by
  induction es generalizing n with
  | nil => cases h
  | cons e es ih =>
    cases e with
    | directive piece => exact Nat.le_of_succ_le (ih h)
    | token t =>
      rcases List.mem_cons.1 h with rfl | h
      · exact Nat.le_refl _
      · exact ih h

theorem tokensBefore_eq (k n : Nat) (es : List Event) :
    tokensBefore k es = ((regions n es).filter fun x => x.1 ≤ n + k).map Prod.snd := by
  induction es generalizing k n with
  | nil => cases k <;> rfl
  | cons e es ih =>
    cases e with
    | token t => simp [tokensBefore, regions, ih k n]
    | directive piece =>
      rw [regions]
      cases k with
      | zero =>
        -- Whatever stands behind a directive is in a later region.
        rw [tokensBefore, eq_comm, List.map_eq_nil_iff, List.filter_eq_nil_iff]
        intro x hx
        have hlater : n < x.1 := le_of_mem_regions hx
        simpa using hlater
      | succ k => rw [tokensBefore, ih k (n + 1), Nat.add_right_comm, Nat.add_assoc]

theorem count_tokensBefore (k : Nat) (t : Token) (es : List Event) :
    (tokensBefore k es).count t = (regions 0 es).countP fun x => x.1 ≤ k && x.2 = t := by
  rw [tokensBefore_eq k 0, Nat.zero_add, List.count, List.countP_map, List.countP_filter]
  exact List.countP_congr fun x _ => by simp [and_comm]

theorem countP_zero (t : Token) (xs : List (Nat × Token)) :
    (xs.countP fun x => x.1 ≤ 0 && x.2 = t) = xs.count (0, t) :=
  List.countP_congr fun x _ => by simp [Prod.ext_iff]

theorem countP_succ (k : Nat) (t : Token) (xs : List (Nat × Token)) :
    (xs.countP fun x => x.1 ≤ k + 1 && x.2 = t)
      = (xs.countP fun x => x.1 ≤ k && x.2 = t) + xs.count (k + 1, t) := by
  induction xs with
  | nil => rfl
  | cons x xs ih =>
    obtain ⟨i, u⟩ := x
    rw [List.countP_cons, List.countP_cons, List.count_cons, ih]
    by_cases hu : u = t
    · rcases Nat.lt_trichotomy i (k + 1) with hi | rfl | hi
      · simp [hu, Nat.le_of_lt hi, Nat.le_of_lt_succ hi, Nat.ne_of_lt hi, Nat.add_right_comm]
      · simp [hu, Nat.add_assoc]
      · have hk : ¬i ≤ k := by omega
        simp [hu, hk, Nat.not_le_of_lt hi, Nat.ne_of_gt hi]
    · simp [hu]

/--
The regions are the same exactly if every token has the same number of directives before it.
-/
theorem sameRegions_iff (old new : List Event) :
    SameRegions old new ↔ directives new = directives old ∧ (regions 0 new).Perm (regions 0 old) := by
  constructor
  · intro h
    refine ⟨h.directives_eq, List.perm_iff_count.2 fun (k, t) => ?_⟩
    have hcount (k : Nat) := (h.tokens_perm k).count_eq t
    simp only [count_tokensBefore] at hcount
    -- A region is what stands before one directive and not before the directive in front of it.
    cases k with
    | zero => rw [← countP_zero, ← countP_zero, hcount]
    | succ k =>
      have hnext := hcount (k + 1)
      rw [countP_succ, countP_succ, hcount k] at hnext
      exact Nat.add_left_cancel hnext
  · rintro ⟨hdirectives, hregions⟩
    refine ⟨hdirectives, fun k => ?_⟩
    rw [tokensBefore_eq k 0, tokensBefore_eq k 0]
    exact (hregions.filter _).map _

/--
The directives are the same, and every token has the same number of them before it, however many there were before.
-/
structure Rearranged (old new : List Event) : Prop where
  directives_eq : directives new = directives old
  regions_perm : ∀ n, (regions n new).Perm (regions n old)

theorem Rearranged.refl (es : List Event) : Rearranged es es :=
  ⟨rfl, fun _ => .refl _⟩

theorem Rearranged.append {old new old' new' : List Event} (h : Rearranged old new) (h' : Rearranged old' new') :
    Rearranged (old ++ old') (new ++ new') where
  directives_eq := by rw [directives_append, directives_append, h.directives_eq, h'.directives_eq]
  regions_perm n := by
    rw [regions_append, regions_append, h.directives_eq]
    exact (h.regions_perm n).append (h'.regions_perm _)

/--
Tokens among which no directive stands can be put in any order.
-/
theorem rearranged_of_perm {ts us : List Token} (h : us.Perm ts) : Rearranged (ts.map .token) (us.map .token) where
  directives_eq := by rw [directives_map_token, directives_map_token]
  regions_perm n := by
    rw [regions_map_token, regions_map_token]
    exact h.map _

/--
Events without the tokens `ts`.
-/
def without (ts : List Token) (es : List Event) : List Event :=
  es.filter fun
    | .directive _ => true
    | .token t => t ∉ ts

@[simp]
theorem without_append (ts : List Token) (es fs : List Event) :
    without ts (es ++ fs) = without ts es ++ without ts fs :=
  List.filter_append _ _

theorem directives_without (ts : List Token) (es : List Event) : directives (without ts es) = directives es := by
  induction es with
  | nil => rfl
  | cons e es ih =>
    cases e with
    | directive piece => exact congrArg (piece :: ·) ih
    | token t =>
      by_cases ht : t ∈ ts
      · simpa [without, directives, ht] using ih
      · simpa [without, directives, ht] using ih

theorem regions_without (ts : List Token) (n : Nat) (es : List Event) :
    regions n (without ts es) = (regions n es).filter fun x => x.2 ∉ ts := by
  induction es generalizing n with
  | nil => rfl
  | cons e es ih =>
    cases e with
    | directive piece => exact ih (n + 1)
    | token t =>
      by_cases ht : t ∈ ts
      · simpa [without, regions, ht] using ih n
      · simpa [without, regions, ht] using ih n

theorem Rearranged.without {old new : List Event} (h : Rearranged old new) (ts : List Token) :
    Rearranged (without ts old) (without ts new) where
  directives_eq := by rw [directives_without, directives_without, h.directives_eq]
  regions_perm n := by
    rw [regions_without, regions_without]
    exact (h.regions_perm n).filter _

theorem Rearranged.sameRegions {old new : List Event} (h : Rearranged old new) : SameRegions old new :=
  (sameRegions_iff old new).2 ⟨h.directives_eq, h.regions_perm 0⟩

/--
What stands between parts that are only rearranged decides.
-/
theorem sameRegions_append_iff {before before' mid mid' after : List Event} (hbefore : Rearranged before before')
    (hmid : directives mid' = directives mid) :
    SameRegions (before ++ mid ++ after) (before' ++ mid' ++ after)
      ↔ (regions (directives before).length mid').Perm (regions (directives before).length mid) := by
  have hregions := hbefore.regions_perm 0
  rw [sameRegions_iff]
  simp only [directives_append, regions_append, hbefore.directives_eq, hmid, Nat.zero_add, true_and,
    List.perm_append_right_iff]
  constructor
  · intro h
    exact (List.perm_append_left_iff _).1 ((hregions.symm.append_right _).trans h)
  · exact hregions.append

theorem SameRegions.tokensOf_perm {old new : List Event} (h : SameRegions old new) :
    (tokensOf new).Perm (tokensOf old) := by
  rw [← map_snd_regions 0, ← map_snd_regions 0]
  exact ((sameRegions_iff old new).1 h).2.map _

@[simp]
theorem ofTokens_append (ts us : List Token) : ofTokens (ts ++ us) = ofTokens ts ++ ofTokens us :=
  List.flatMap_append

theorem ofTokens_flatMap {α : Type} (f : α → List Token) (xs : List α) :
    ofTokens (xs.flatMap f) = xs.flatMap fun x => ofTokens (f x) :=
  List.flatMap_assoc

@[simp]
theorem tokensOf_eventsInside (t : Token) : tokensOf t.eventsInside = [t] := by
  rw [Token.eventsInside, tokensOf, tokensOf_map_directive]

@[simp]
theorem tokensOf_events (t : Token) : tokensOf t.events = [t] := by
  rw [Token.events, tokensOf_append, tokensOf_map_directive, tokensOf_eventsInside, List.nil_append]

@[simp]
theorem tokensOf_ofTokens (ts : List Token) : tokensOf (ofTokens ts) = ts := by
  induction ts with
  | nil => rfl
  | cons t ts ih =>
    rw [ofTokens, List.flatMap_cons, tokensOf_append, tokensOf_events]
    exact congrArg (t :: ·) ih

theorem eventsInside_eq {t : Token} (h : t.trailing.hasDirective = false) : t.eventsInside = [.token t] := by
  rw [Token.eventsInside, Trivia.directives_eq_nil_iff.2 h, List.map_nil]

theorem events_eq {t : Token} (hleading : t.leading.hasDirective = false) (htrailing : t.trailing.hasDirective = false) :
    t.events = [.token t] := by
  rw [Token.events, Trivia.directives_eq_nil_iff.2 hleading, eventsInside_eq htrailing, List.map_nil, List.nil_append]

theorem ofTokens_eq {ts : List Token} (hleading : ∀ t ∈ ts, t.leading.hasDirective = false)
    (htrailing : ∀ t ∈ ts, t.trailing.hasDirective = false) : ofTokens ts = ts.map .token := by
  rw [ofTokens, List.map_eq_flatMap]
  exact List.flatMap_congr fun t ht => events_eq (hleading t ht) (htrailing t ht)

end Event

end HaskellStyle
