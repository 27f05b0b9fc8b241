import HaskellStyle.Proofs.Module.Verbatim
import HaskellStyle.Proofs.Print.Retrace

/-!
This module contains that the blanks before a comment behind code are not changed without a finding, as long as the part
with the comment is written as it was read: a finding that is made once is not lost, whatever is written behind it.
-/

namespace HaskellStyle

/--
Whether blanks stand before the comments behind a token, and not as many as are written there.
-/
def Token.isMisspaced (settings : Settings) (t : Token) : Bool :=
  t.trailing.hasComments && t.gap.all (· == ' ') && !t.keepsGap settings

/--
The tokens of the parts of a module that are written anew.
-/
def Module.rewritten (m : Module) : List Token :=
  (if m.pragmasNormalized then m.headerPragmas.map (·.token) else [])
    ++ (m.header.toList.filter (·.isRewritten)).flatMap tokens
    ++ (if m.importsNormalized then (m.importDecls.filter Printer.isStructured).flatMap tokens else [])
    ++ (m.declarations.filter (·.isRewritten)).flatMap tokens

/--
What holds from the step for one item on, and is kept by the others, holds after all steps.
-/
theorem foldl_of_mem {α β : Type} {P : β → Prop} {f : β → α → β} {xs : List α} {x : α} (hx : x ∈ xs)
    (hstep : ∀ b, P (f b x)) (hkeep : ∀ y ∈ xs, ∀ b, P b → P (f b y)) (b : β) : P (xs.foldl f b) := by
  obtain ⟨before, after, rfl⟩ := List.append_of_mem hx
  rw [List.foldl_append, List.foldl_cons]
  exact List.foldlRecOn after _ (hstep _) fun b hb y hy =>
    hkeep y (List.mem_append_right _ (List.mem_cons_of_mem _ hy)) b hb

namespace Output

/--
A finding about the blanks before a comment was made.
-/
def TellsOfGap (out : Output) : Prop :=
  ∃ d ∈ out.found, d.kind = .endOfLineCommentSpacing

theorem kept_tellsOfGap : Kept (fun _ => True) TellsOfGap where
  alphabet := ⟨trivial, fun _ => trivial⟩
  newline _ _ _ := trivial
  write _ _ h := h
  report d hd _ := ⟨d, List.mem_cons_self, hd⟩

theorem tellsOfGap_report {d : Diagnostic} (hd : d.kind = .endOfLineCommentSpacing) (out : Output) :
    TellsOfGap (out.report d) :=
  ⟨d, List.mem_cons_self, hd⟩

end Output

namespace Printer

open Output (TellsOfGap kept_tellsOfGap)

variable {p : Printer} {t : Token} (ht : t.isMisspaced p.settings)
include ht

theorem tells_trailing (out : Output) : TellsOfGap (p.trailing t false out) := by
  simp only [Token.isMisspaced, Token.keepsGap, Bool.and_eq_true, List.all_eq_true, beq_iff_eq, Bool.not_eq_true',
    Bool.or_eq_false_iff, Bool.and_eq_false_iff, Bool.not_eq_false'] at ht
  obtain ⟨⟨hhas, hblank⟩, -, hlength⟩ := ht
  have hlength := hlength.resolve_left (by simpa using hblank)
  have hwidth : Text.visualWidth (Trivia.text (splitComments t.trailing).1).toList out.column - out.column
      = t.gap.length := by
    rw [← Token.gap, List.eq_replicate_iff.2 ⟨rfl, hblank⟩, Text.visualWidth_blanks, List.length_replicate]
    omega
  have hspacing : (t.gap.length : Int) ≠ if false || !p.settings.preserveCommentAlignment then commentSpacing
      else max commentSpacing t.gap.length := by
    rw [beq_eq_false_iff_ne, decide_eq_false_iff_not] at hlength
    unfold commentSpacing
    cases hpreserve : p.settings.preserveCommentAlignment with
    | false => rw [Bool.not_false, Bool.or_true, if_pos rfl]; omega
    | true =>
      obtain ⟨-, hpreserve' | hshort⟩ := hlength
      · rw [hpreserve] at hpreserve'; cases hpreserve'
      · rw [Bool.not_true, Bool.or_false, if_neg Bool.false_ne_true]; omega
  unfold trailing
  dsimp only
  cases hcomments : (splitComments t.trailing).2 with
  | nil =>
    rw [splitComments_eq_nil_iff, hhas] at hcomments
    cases hcomments
  | cons comment more =>
    dsimp only
    have hguard := Bool.and_eq_true_iff.2 ⟨decide_eq_true hspacing, Bool.not_false⟩
    rw [hwidth, if_pos hguard]
    refine pieces_kept kept_tellsOfGap (kept_tellsOfGap.blanks (Output.tellsOfGap_report ?_ out) _) fun _ _ _ _ => trivial
    rfl

theorem tells_verbatim {ts : List Token} (hmem : t ∈ ts) (out : Output) : TellsOfGap (p.verbatim ts out) :=
  foldl_of_mem (f := fun out t => p.token (p.leading t out) t) hmem (fun _ => tells_trailing ht _)
    (fun u _ _ h => token_kept kept_tellsOfGap p (leading_kept kept_tellsOfGap p h u.over_true) u.over_true) out

theorem tells_verbatimInside {ts : List Token} (hmem : t ∈ ts) (out : Output) :
    TellsOfGap (p.verbatimInside ts out) := by
  cases ts with
  | nil => cases hmem
  | cons first more =>
    rcases List.mem_cons.1 hmem with rfl | hmem
    · exact verbatim_kept kept_tellsOfGap p (tells_trailing ht _) fun u _ => u.over_true
    · exact tells_verbatim ht hmem _

theorem tells_verbatimWith {ts : List Token} (hmem : t ∈ ts) (withLeading : Bool) (out : Output) :
    TellsOfGap (p.verbatimWith withLeading ts out) := by
  cases withLeading
  · exact tells_verbatimInside ht hmem out
  · exact tells_verbatim ht hmem out

theorem tells_importLine {i : Import} (hmem : t ∈ tokens i) (hkept : isStructured i = false) (blankLines : Nat)
    (out : Output) : TellsOfGap (p.importLine blankLines i out) := by
  unfold importLine importDecl
  rw [if_neg (by simp [hkept])]
  exact tells_verbatimInside ht hmem _

theorem tells_importGroup {group : List Import} {i : Import} (hi : i ∈ group) (hmem : t ∈ tokens i)
    (hkept : isStructured i = false) (blankLines : Nat) (out : Output) :
    TellsOfGap (p.importGroup blankLines group out) := by
  have hmore (i : Import) (out : Output) (h : TellsOfGap out) : TellsOfGap (p.importLine 0 i out) :=
    importLine_kept kept_tellsOfGap p h _ fun u _ => u.over_true
  cases group with
  | nil => cases hi
  | cons first more =>
    rcases List.mem_cons.1 hi with rfl | hi
    · exact List.foldlRecOn more _ (tells_importLine ht hmem hkept _ _) fun out h i _ => hmore i out h
    · exact foldl_of_mem hi (tells_importLine ht hmem hkept _) (fun i _ => hmore i) _

theorem tells_importBlock {groups : List (List Import)} {group : List Import} {i : Import} (hgroup : group ∈ groups)
    (hi : i ∈ group) (hmem : t ∈ tokens i) (hkept : isStructured i = false) (out : Output) :
    TellsOfGap (p.importBlock groups out) := by
  have hmore (group : List Import) (out : Output) (h : TellsOfGap out) : TellsOfGap (p.importGroup 1 group out) :=
    importGroup_kept kept_tellsOfGap p h _ fun _ _ u _ => u.over_true
  cases groups with
  | nil => cases hgroup
  | cons first more =>
    rcases List.mem_cons.1 hgroup with rfl | hgroup
    · exact List.foldlRecOn more _ (tells_importGroup ht hi hmem hkept _ _) fun out h group _ => hmore group out h
    · exact foldl_of_mem hgroup (tells_importGroup ht hi hmem hkept _) (fun group _ => hmore group) _

theorem tells_preamble {m : Module} (hmem : t ∈ m.headerPragmas.map (·.token) ++ (m.header.map tokens).getD []
    ++ m.imports.flatMap (·.flatMap tokens)) (hkept : t ∉ m.rewritten) (out : Output) :
    TellsOfGap (p.preamble m out) := by
  simp only [Module.rewritten, List.mem_append, not_or] at hkept
  obtain ⟨⟨⟨hpragmas, hheader⟩, himports⟩, -⟩ := hkept
  have hover (ts : List Token) : ∀ u ∈ ts, u.Over fun _ => True := fun u _ => u.over_true
  have hbehind {out : Output} (h : TellsOfGap out) :
      TellsOfGap (if m.importsNormalized then p.importBlock m.imports out
        else p.verbatim (m.importDecls.flatMap tokens) out) := by
    split
    · exact importBlock_kept kept_tellsOfGap p h fun _ _ u _ => hover _
    · exact verbatim_kept kept_tellsOfGap p h (hover _)
  unfold preamble
  dsimp only
  rcases List.mem_append.1 hmem with hmem | hmem
  · rcases List.mem_append.1 hmem with hmem | hmem
    · refine hbehind (optionalHeader_kept kept_tellsOfGap p ?_ m.header (hover _))
      split
      · next hnormalized => rw [if_pos hnormalized] at hpragmas; exact absurd hmem hpragmas
      · exact tells_verbatim ht hmem out
    · cases hhead : m.header with
      | none => rw [hhead] at hmem; cases hmem
      | some head =>
        rw [hhead] at hmem hheader
        have hanew : head.isRewritten = false := by
          rw [← Bool.not_eq_true]
          intro hanew
          exact hheader (List.mem_flatMap.2 ⟨head, List.mem_filter.2 ⟨List.mem_singleton.2 rfl, hanew⟩, hmem⟩)
        refine hbehind ?_
        dsimp only
        rw [header_of_isRewritten hanew]
        exact tells_verbatimWith ht hmem true _
  · obtain ⟨group, hgroup, hmem⟩ := List.mem_flatMap.1 hmem
    obtain ⟨i, hi, hmem⟩ := List.mem_flatMap.1 hmem
    have hdecl : i ∈ m.importDecls := List.mem_flatten.2 ⟨group, hgroup, hi⟩
    split
    · next hnormalized =>
      rw [if_pos hnormalized] at himports
      refine tells_importBlock ht hgroup hi hmem ?_ _
      rw [← Bool.not_eq_true]
      intro hanew
      exact himports (List.mem_flatMap.2 ⟨i, List.mem_filter.2 ⟨hdecl, hanew⟩, hmem⟩)
    · exact tells_verbatim ht (List.mem_flatMap.2 ⟨i, hdecl, hmem⟩) _

/--
Where the blanks before a comment are changed in a part that is written as it was read, a finding says so.
-/
theorem tells_moduleParts {m : Module} (hmem : t ∈ tokens m) (hend : t ≠ m.eof) (hkept : t ∉ m.rewritten)
    (out : Output) :
    TellsOfGap (p.moduleParts m out) := by
  rw [moduleParts_eq]
  refine leading_kept kept_tellsOfGap p ?_ m.eof.over_true
  rcases List.mem_append.1 hmem with hmem | hmem
  · rcases List.mem_append.1 hmem with hmem | hmem
    · exact declarations_kept kept_tellsOfGap p (tells_preamble ht hmem hkept out) fun u _ => u.over_true
    · obtain ⟨d, hd, hmem⟩ := List.mem_flatMap.1 hmem
      refine foldl_of_mem (P := TellsOfGap) (f := fun out d => p.declaration d true out) hd (fun out => ?_)
        (fun d _ _ h => declaration_kept kept_tellsOfGap p h (fun u _ => u.over_true) true) (p.preamble m out)
      rw [declaration_of_isRewritten]
      · exact tells_verbatimWith ht hmem true out
      · rw [← Bool.not_eq_true]
        intro hanew
        exact hkept (List.mem_append_right _ (List.mem_flatMap.2 ⟨d, List.mem_filter.2 ⟨hd, hanew⟩, hmem⟩))
  · exact absurd (List.mem_singleton.1 hmem) hend

end Printer

/--
A module that is written without a finding about comments keeps the blanks before them, if it does so in the parts that
are written anew.
-/
theorem Module.keepsGap_of_render {settings : Settings} {m : Module}
    (hfound : ∀ d ∈ (m.render settings).found, d.kind ≠ .endOfLineCommentSpacing)
    (hrewritten : ∀ t ∈ m.rewritten, t.keepsGap settings) {t : Token} (ht : t ∈ tokens m) (hend : t ≠ m.eof)
    (hgap : t.trailing.hasComments → t.gap.all (· == ' ')) : t.keepsGap settings := by
  by_contra hmoved
  have hcomments : t.trailing.hasComments := by
    by_contra hnone
    simp [Token.keepsGap, hnone] at hmoved
  have hmisspaced : t.isMisspaced settings := by
    rw [Token.isMisspaced, hcomments, hgap hcomments, Bool.eq_false_of_not_eq_true hmoved]
    rfl
  obtain ⟨d, hd, hkind⟩ := Printer.tells_moduleParts (p := .ofModule settings m) hmisspaced ht hend
    (fun hmem => hmoved (hrewritten t hmem)) (Printer.ofModule settings m).start
  exact hfound d (List.mem_append_left _ (List.mem_reverse.2 hd)) hkind

end HaskellStyle
