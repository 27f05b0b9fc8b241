import HaskellStyle.Proofs.Module.Verbatim
import HaskellStyle.Proofs.Rule.Alignment
import HaskellStyle.Proofs.Rule.Idempotent

/-!
This module contains what becomes of the columns that the rule for indentation plans. They are planned for tokens that
begin lines or go to new lines, and the printer brings those to their columns as far as the comments before them leave
room.
-/

namespace HaskellStyle

namespace Indent

theorem mem_insertAll {placements entries : List (Nat × Placement)} {x : Nat × Placement}
    (h : x ∈ insertAll placements entries) : x ∈ placements ∨ x ∈ entries := by
  induction entries generalizing placements with
  | nil => exact .inl h
  | cons y entries ih =>
    rcases ih h with hmem | hmem
    · rcases List.mem_cons.1 hmem with rfl | hmem
      · exact .inr List.mem_cons_self
      · exact .inl (List.mem_of_mem_filter hmem)
    · exact .inr (List.mem_cons_of_mem _ hmem)

/--
A placement is that of a token whose column is planned.
-/
theorem exists_of_mem_entries {g : Grid} {plan : Plan} {offset : Nat} {placement : Placement}
    (h : (offset, placement) ∈ entries g plan) :
    ∃ index, (g.get index).offset = offset ∧ plan.columns.lookup index = some placement.column
      ∧ placement.breakBefore = plan.breaks.contains index
      ∧ (placement.column ≠ (g.get index).column ∨ placement.breakBefore) := by
  obtain ⟨⟨index, column⟩, hmem, hentry⟩ := List.mem_filterMap.1 h
  obtain ⟨planned, hplanned⟩ : ∃ planned, plan.columns.lookup index = some planned := by
    rw [← Option.isSome_iff_exists, List.lookup_isSome_iff]
    exact ⟨_, List.mem_reverse.1 hmem, beq_self_eq_true _⟩
  dsimp only at hentry
  rw [hplanned, Option.getD_some] at hentry
  split at hentry
  · next hmoved =>
    cases hentry
    exact ⟨index, rfl, hplanned, rfl, by simpa using hmoved⟩
  · cases hentry

end Indent

namespace Module

open Indent

section Followed

variable {text : List Char} {m : Module} (h : parse text = .ok m) (settings : Settings)
include h

/--
Placements are those of tokens of declarations with blocks, in the columns planned for them, and the printer can follow
them.
-/
theorem movable_of_placed {t : Token} (ht : t ∈ tokens m) {placement : Placement}
    (hplaced : (Indent.apply settings m).module.placements.lookup t.offset = some placement) :
    t ∈ (blockDeclarations m).flatMap tokens ∧ placement.Movable t
      ∧ placement.column = plannedColumn settings m t := by
  have hg := Grid.ordered_ofModule h settings
  -- A module that was read has no placements, so all that there are were planned.
  have hentry : (t.offset, placement) ∈ entries (.ofModule settings m) (.ofModule settings m) := by
    obtain ⟨_, _, heq, -⟩ := List.lookup_eq_some_iff.1 hplaced
    have hmem : (t.offset, placement) ∈ (Indent.apply settings m).module.placements := by
      rw [heq]
      simp
    rw [module_apply_eq] at hmem
    dsimp only at hmem
    have hnone := placements_of_read (read_of_parse h)
    split at hmem
    · rw [hnone] at hmem
      cases hmem
    · rw [placements_eq, hnone] at hmem
      exact (mem_insertAll hmem).resolve_left List.not_mem_nil
  obtain ⟨index, hoffset, hlookup, hbreak, hmoved⟩ := exists_of_mem_entries hentry
  obtain ⟨hsame, -⟩ := Plan.ofModule_visited h settings
  obtain ⟨⟨hindex, hmem⟩, hmovable⟩ := (hsame.planned index (by rw [hlookup]; rfl)).resolve_left Bool.false_ne_true
  obtain ⟨hself, hget⟩ := hg.exists_index (List.mem_toArray.2 ht : t ∈ (Grid.ofModule settings m).tokens)
  have heq : index = (Grid.ofModule settings m).indexOf t := hg.index_eq hindex hself (by rw [hget, hoffset])
  rw [heq] at hmovable hlookup hbreak
  rw [heq, hget] at hmem hmoved
  rw [Plan.Movable, hget, ← List.contains_iff_mem, ← hbreak] at hmovable
  -- A token that gets a column begins a line, or goes to a new one.
  refine ⟨hmem, ?_, ?_⟩
  · by_cases hnew : placement.breakBefore
    · exact .inl hnew
    · exact .inr ⟨hmovable.resolve_right hnew, hmoved.resolve_right hnew⟩
  · have hbegins : (Plan.ofModule settings m).beginsLine (.ofModule settings m)
        ((Grid.ofModule settings m).indexOf t) := by
      rw [Plan.beginsLine, hget, ← hbreak, Bool.or_eq_true]
      exact hmovable.imp_left fun hreindentable => (Token.of_reindentable hreindentable).1
    have hhome : (Plan.ofModule settings m).homeFrom (.ofModule settings m) true ((Grid.ofModule settings m).indexOf t)
        = some _ := Plan.home_of_beginsLine hbegins
    rw [plannedColumn, Plan.newColumn, Plan.lineShiftFrom_eq, hhome, Option.map_some, Option.getD_some, Plan.shiftAt,
      hlookup, hget]
    exact (add_sub_cancel _ _).symm

/--
The tokens of a declaration without blocks have no placements.
-/
theorem lookup_of_flat {d : Declaration} (hd : d ∈ m.declarations) (hflat : d.blocks = []) {t : Token}
    (ht : t ∈ tokens d) : (Indent.apply settings m).module.placements.lookup t.offset = none := by
  have hwithin : m.declarations.flatMap tokens <:+: tokens m := by
    rw [tokens_eq_append]
    exact ⟨_, [m.eof], rfl⟩
  refine Option.eq_none_iff_forall_ne_some.2 fun placement hplaced => ?_
  obtain ⟨hmem, -⟩ := movable_of_placed h settings (hwithin.subset (List.mem_flatMap.2 ⟨d, hd, ht⟩)) hplaced
  obtain ⟨e, he, hte⟩ := List.mem_flatMap.1 hmem
  obtain ⟨he, hblocks⟩ := List.mem_filter.1 he
  -- No token is in two declarations.
  have hnodup : (m.declarations.flatMap tokens).Nodup :=
    hwithin.sublist.nodup (Grid.ordered_ofModule h settings).nodup
  have hsymm : Std.Symm (Function.onFun List.Disjoint (@tokens Declaration _)) :=
    ⟨fun _ _ hdisjoint _ ht hu => hdisjoint hu ht⟩
  by_cases heq : d = e
  · rw [← heq, hflat] at hblocks
    cases hblocks
  · exact (List.nodup_flatMap.1 hnodup).2.forall hd he heq ht hte

/--
A token with a placement comes to stand behind all that could be seen before it, first on its line but for blanks and
the comments that stood before it on its line. It stands in the column of its placement, which is the column planned
for it, if there is room for it, and if there is no tab in a comment before it.
-/
theorem placements_followed {t : Token} (ht : t ∈ tokens m) {placement : Placement}
    (hplaced : (Indent.apply settings m).module.placements.lookup t.offset = some placement) :
    placement.column = plannedColumn settings m t ∧ '\n' ∉ placement.lead t ∧ ∃ before behind,
      (render settings (Indent.apply settings m).module).text
          = before ++ '\n' :: (placement.lead t ++ t.text.toList) ++ behind
        ∧ Text.visible (before ++ placement.lead t) = Text.visible (text.take t.offset)
        ∧ ('\t' ∉ placement.lead t →
          (Text.visualWidth (placement.lead t) 0 = placement.column ↔ 0 ≤ placement.room t)) := by
  obtain ⟨hmem, hmovable, hcolumn⟩ := movable_of_placed h settings ht hplaced
  have hread := read_of_parse h
  obtain ⟨before, after, htokens⟩ : ∃ before after, tokens m = before ++ t :: after ++ [m.eof] := by
    have hdeclared := (List.filter_sublist.flatMap tokens).subset hmem
    obtain ⟨before, after, hsplit⟩ := List.append_of_mem hdeclared
    refine ⟨m.headerPragmas.map (·.token) ++ (m.header.map tokens).getD [] ++ m.importDecls.flatMap tokens ++ before,
      after, ?_⟩
    rw [tokens_eq_append, hsplit]
    simp
  obtain ⟨placements, hplacements⟩ : ∃ placements, (Indent.apply settings m).module = { m with placements } := by
    rw [module_apply_eq]
    dsimp only
    split
    · exact ⟨m.placements, rfl⟩
    · exact ⟨_, rfl⟩
  rw [hplacements] at hplaced ⊢
  obtain ⟨before', behind, hrender, hvisible⟩ := exists_text_render hread htokens hplaced hmovable settings
  exact ⟨hcolumn, Placement.newline_notMem_lead hmovable, before', behind, hrender, hvisible,
    Placement.width_lead (column_of_read hread htokens) hmovable⟩

end Followed

/--
A module with a token that has a comment before it on its line and is moved behind it.
-/
def commentMoved :
    { m // parse "f = do\n \x7b--\x7d x\n".toList = .ok m ∧ ∃ t ∈ tokens m, ∃ placement : Placement,
      (Indent.apply { indentWidth := 8 } m).module.placements.lookup t.offset = some placement
        ∧ '\t' ∉ placement.lead t ∧ 0 ≤ placement.room t } :=
  sample _ _ (by decide +kernel)

theorem placements_followed_comment :
    ∃ m, parse "f = do\n \x7b--\x7d x\n".toList = .ok m ∧ ∃ t ∈ tokens m, ∃ placement : Placement,
      (Indent.apply { indentWidth := 8 } m).module.placements.lookup t.offset = some placement
        ∧ ('\t' ∉ placement.lead t ∧ 0 ≤ placement.room t)
        ∧ placement.column = plannedColumn { indentWidth := 8 } m t ∧ '\n' ∉ placement.lead t ∧ ∃ before behind,
          (render { indentWidth := 8 } (Indent.apply { indentWidth := 8 } m).module).text
              = before ++ '\n' :: (placement.lead t ++ t.text.toList) ++ behind
            ∧ Text.visible (before ++ placement.lead t)
                = Text.visible ("f = do\n \x7b--\x7d x\n".toList.take t.offset)
            ∧ ('\t' ∉ placement.lead t →
              (Text.visualWidth (placement.lead t) 0 = placement.column ↔ 0 ≤ placement.room t)) := by
  obtain ⟨m, hm, t, ht, placement, hplaced, hroom⟩ := commentMoved
  exact ⟨m, hm, t, ht, placement, hplaced, hroom, placements_followed hm { indentWidth := 8 } ht hplaced⟩

/--
A module with a token that is to be moved back behind the comment with which its line begins, which is as far to the
left as it can be. The text is left as it is.
-/
def commentAtMargin :
    { m // parse "f = do\n\x7b--\x7d          x\n".toList = .ok m ∧ ∃ t ∈ tokens m,
      (Indent.apply { indentWidth := 8 } m).module.placements.lookup t.offset = some ⟨8, false⟩
        ∧ t.text.toList = ['x']
        ∧ (render { indentWidth := 8 } (Indent.apply { indentWidth := 8 } m).module).text
          = "f = do\n\x7b--\x7d          x\n".toList } :=
  sample _ _ (by decide +kernel)

/--
Not every token with a placement comes to stand in the column of its placement.
-/
theorem not_placements_followed :
    ¬∀ (text : List Char) (m : Module), parse text = .ok m → ∀ settings, ∀ t ∈ tokens m, ∀ placement,
      (Indent.apply settings m).module.placements.lookup t.offset = some placement → ∃ before lead behind,
        (render settings (Indent.apply settings m).module).text = before ++ '\n' :: (lead ++ t.text.toList) ++ behind
          ∧ '\n' ∉ lead ∧ Text.visible (before ++ lead) = Text.visible (text.take t.offset)
          ∧ Text.visualWidth lead 0 = placement.column := by
  intro h
  obtain ⟨m, hm, t, ht, hplaced, hx, hrender⟩ := commentAtMargin
  obtain ⟨before, lead, behind, hwritten, hlead, -, hwidth⟩ := h _ m hm { indentWidth := 8 } t ht _ hplaced
  rw [hrender, hx] at hwritten
  have hsize : 23 = _ := congrArg List.length hwritten
  have hdrop := congrArg (List.drop before.length) hwritten
  simp only [List.length_append, List.length_cons, List.drop_left, List.cons_append, List.append_assoc] at hsize hdrop
  -- wherever a line begins with `x`, but for what stands before it, that is not as wide as the placement says
  have hwide : ∀ i < 23, ∀ j < 23, let rest := "f = do\n\x7b--\x7d          x\n".toList.drop i
      rest.head? = some '\n' → (rest.tail.drop j).head? = some 'x' → Text.visualWidth (rest.tail.take j) 0 ≠ 8 := by
    decide +kernel
  have hnot := hwide before.length (by omega) lead.length (by omega)
  rw [hdrop] at hnot
  exact hnot rfl (by simp) (by simpa using hwidth)

end Module

end HaskellStyle
