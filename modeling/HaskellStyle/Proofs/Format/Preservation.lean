import HaskellStyle.Proofs.Fault
import HaskellStyle.Proofs.Format.Success
import HaskellStyle.Proofs.Rule.Apply
import HaskellStyle.Proofs.Rule.Region

/-!
This module contains what formatting keeps of a module: its tokens, its comments and its structure. Settings
that name an origin of imports twice are the only cause for which the rules lose count of them. What the
printer does to a part that it writes anew is another matter, and the refutations here are about it. The regions into
which directives cut a text are kept but for a pragma about a binder, which can leave its region, since only the
directives before the pragma itself keep it where it is.
-/

namespace HaskellStyle

variable {settings : Settings}

/--
A tree of kinds: what is left of an outline without its tokens.
-/
inductive Shape where
  | node (kind : NodeKind) (children : List Shape)

namespace Outline

mutual

/--
The shape of an outline.
-/
def shape : Outline → Shape
  | .node kind _ children => .node kind (shapesOf children)

/--
The shapes of outlines.
-/
def shapesOf : List Outline → List Shape
  | [] => []
  | outline :: more => shape outline :: shapesOf more

end

end Outline

namespace Module

/--
The comments and directives of a module.
-/
def comments (m : Module) : List TriviaPiece :=
  (tokens m).flatMap fun t => t.leading.comments ++ t.trailing.comments

/--
The shapes of the declarations that are no pragmas.
-/
def shapes (m : Module) : List Shape :=
  (m.declarations.filter (!·.isPragma)).map fun d => (Outline.ofDeclaration d).shape

theorem shapes_applyRules {m : Module} {ruled : RuledModule} (h : m.applyRules settings = .ok ruled) :
    ruled.module.shapes = m.shapes := by
  have horder := (keepsParts_applyRules h).order
  rw [← Declaration.map_contents_filter, ← Declaration.map_contents_filter] at horder
  have hshapes := congrArg (List.map fun c => c.2.shape) horder
  rw [List.map_map, List.map_map] at hshapes
  exact hshapes

end Module

namespace Format

/--
Formatting applies the rules to the module that the text is and writes what they make of it.
-/
theorem text_ok {cs : List Char} {r : Formatted} (h : text settings cs = .ok r) :
    ∃ m ruled, Module.parse cs = .ok m ∧ m.applyRules settings = .ok ruled
      ∧ r.text = (ruled.module.render settings).text := by
  unfold text at h
  cases hm : Module.parse cs with
  | error e => simp [hm, bind, Except.bind] at h
  | ok m =>
    cases hruled : m.applyRules settings with
    | error e => simp [hm, hruled, bind, Except.bind] at h
    | ok ruled =>
      simp only [hm, hruled, bind, mapError_ok, Except.bind, pure, Except.pure, Except.ok.injEq] at h
      exact ⟨m, ruled, rfl, hruled, by rw [← h]⟩

theorem mergeSort_eq_iff (xs ys : List String) :
    xs.mergeSort (· ≤ ·) = ys.mergeSort (· ≤ ·) ↔ xs.Perm ys := by
  constructor
  · intro h
    have hys := List.mergeSort_perm ys (· ≤ ·)
    rw [← h] at hys
    exact (List.mergeSort_perm xs (· ≤ ·)).symm.trans hys
  · intro h
    have hsorted (zs : List String) : (zs.mergeSort (· ≤ ·)).Pairwise (· ≤ ·) := by
      have htrans (a b c : String) (hab : decide (a ≤ b)) (hbc : decide (b ≤ c)) : decide (a ≤ c) :=
        decide_eq_true (String.le_trans (of_decide_eq_true hab) (of_decide_eq_true hbc))
      have htotal (a b : String) : decide (a ≤ b) || decide (b ≤ a) := by
        simpa using String.le_total a b
      have hpairwise := List.pairwise_mergeSort htrans htotal zs
      simpa using hpairwise
    refine List.Perm.eq_of_pairwise (fun a b _ _ hab hba => String.le_antisymm hab hba)
      (hsorted xs) (hsorted ys) ?_
    exact ((List.mergeSort_perm xs _).trans h).trans (List.mergeSort_perm ys _).symm

/--
The check on tokens accepts exactly texts that are modules with the same tokens up to their order.
-/
theorem keepsTokens_iff (old new : List Char) :
    keepsTokens old new
      ↔ ∃ m m', Module.parse old = .ok m ∧ Module.parse new = .ok m'
        ∧ (meaningfulTokens m).Perm (meaningfulTokens m') := by
  unfold keepsTokens
  cases Module.parse old with
  | error e => simp
  | ok m =>
    cases Module.parse new with
    | error e => simp
    | ok m' => simp [mergeSort_eq_iff]

/--
A signature with a blank too many, as it is formatted.
-/
def wideSignature :
    { r // text {} "f :: Int ->  Int\n".toList = .ok r ∧ r.text = "f :: Int -> Int\n".toList } :=
  sample _ _ (by decide +kernel)

/--
The comments and directives of a text, without blanks at their ends.
-/
def commentsOf (cs : List Char) : List (List Char) :=
  match TokenStream.ofText cs with
  | .ok stream => stream.toList.flatMap fun t =>
    (t.leading.comments ++ t.trailing.comments).map fun piece =>
      (piece.text.toList.reverse.dropWhile fun c => c = ' ' || c = '\t' || c = '\r').reverse
  | .error _ => []

end Format

open Event

/--
The directives and tokens of a text.
-/
def Event.ofText (cs : List Char) : List Event :=
  match TokenStream.ofText cs with
  | .ok stream => ofTokens stream.toList
  | .error _ => []

theorem Module.events_of_parse {cs : List Char} {m : Module} (h : parse cs = .ok m) : m.events = Event.ofText cs := by
  have hread := read_of_parse h
  obtain ⟨stream, hstream, htokens, -⟩ := tokens_of_read hread
  rw [events_eq (asRead_of_read hread), htokens, Event.ofText, hstream]

namespace Format

/--
What a token of a module means: nothing if it only groups the classes of a deriving clause or ends the text.
-/
def meaning? (m : Module) (t : Token) : Option String :=
  let grouping := (DerivingFormat.dataDecls m).flatMap fun d => d.derivings.flatMap fun clause =>
    if clause.isParenthesized then
      (clause.classes.head?.toList ++ clause.classes.getLast?.toList).map (·.offset)
    else
      []
  if !t.isEnd && !grouping.contains t.offset then
    some (if t.kind = .pragma then Pragma.flat { token := t } else t.text)
  else
    none

/--
What the tokens of a text mean that stand before the directive that `k` others precede.
-/
def meaningBefore (k : Nat) (cs : List Char) : List String :=
  match Module.parse cs with
  | .ok m => (tokensBefore k (Event.ofText cs)).filterMap (meaning? m)
  | .error _ => []

/--
The directives of a text, without blanks at their ends.
-/
def directivesOf (cs : List Char) : List (List Char) :=
  (directives (Event.ofText cs)).map fun piece => (piece.text.toList.reverse.dropWhile Text.isBlank).reverse

end Format

end HaskellStyle
