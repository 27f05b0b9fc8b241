import HaskellStyle.Proofs.Module.Blocks
import HaskellStyle.Proofs.Rule.Columns
import Mathlib.Data.List.Flatten

/-!
This module contains what the rule for indentation plans for the blocks of a module. All items of a block go to one
column, but for a first item behind the end of a token that goes over a line end: that stays where it is.
-/

namespace HaskellStyle

namespace Indent

variable {g : Grid}

/--
A token that does not move stands on the line on which a token before it ends that goes over a line end.
-/
theorem Plan.exists_of_homeFrom_eq_none {plan : Plan} {isStart : Bool} {index : Nat}
    (hadjacent : ∀ i < index, (g.get i).Adjacent (g.get (i + 1))) (h : plan.homeFrom g isStart index = none) :
    isStart = false ∧ (g.get index).isMultiline
      ∨ ∃ i < index, (g.get i).isMultiline ∧ (g.get i).endLine = (g.get index).line := by
  induction index generalizing isStart with
  | zero =>
    unfold homeFrom at h
    split at h
    · next hmultiline => exact .inl (by simpa using hmultiline)
    · split at h <;> cases h
  | succ index ih =>
    rw [homeFrom_succ] at h
    split at h
    · next hmultiline => exact .inl (by simpa using hmultiline)
    · split at h
      · cases h
      · next hbegins =>
        rw [beginsLine, Bool.not_eq_true, Bool.or_eq_false_iff] at hbegins
        obtain ⟨hline, -⟩ := hadjacent index (Nat.lt_succ_self _) hbegins.1
        right
        -- The token before this one ends on the same line.
        by_cases hmultiline : (g.get index).isMultiline
        · exact ⟨index, Nat.lt_succ_self _, hmultiline, hline.symm⟩
        · obtain ⟨i, hi, hends, hsame⟩ := (ih (fun i hi => hadjacent i (Nat.lt_succ_of_lt hi)) h).resolve_left
            fun hself => hmultiline hself.2
          refine ⟨i, Nat.lt_succ_of_lt hi, hends, ?_⟩
          rw [hsame, hline, Token.endLine_of_not_isMultiline hmultiline]

/--
The column to which an item moves that moves by `d`. An item that does not move stands behind the end of a token.
-/
theorem Plan.MovesBy.newColumn_eq {plan : Plan} {index : Nat} {d : Int} (h : plan.MovesBy g index d)
    (hadjacent : ∀ i < index, (g.get i).Adjacent (g.get (i + 1))) :
    plan.newColumn g index = (g.get index).column + d
      ∨ plan.newColumn g index = (g.get index).column ∧ plan.beginsLine g index = false
        ∧ ∃ i < index, (g.get i).isMultiline ∧ (g.get i).endLine = (g.get index).line := by
  rw [newColumn, lineShiftFrom_eq]
  cases hhome : plan.homeFrom g true index with
  | some k =>
    rw [Option.map_some, Option.getD_some, h k hhome]
    exact .inl rfl
  | none =>
    rw [Option.map_none, Option.getD_none, Int.add_zero]
    refine .inr ⟨rfl, ?_, (exists_of_homeFrom_eq_none hadjacent hhome).resolve_left (by simp)⟩
    rw [Bool.eq_false_iff]
    intro hbegins
    have hself : plan.homeFrom g true index = some index := home_of_beginsLine hbegins
    rw [hself] at hhome
    cases hhome

/--
A declaration without blocks is left alone.
-/
theorem visitDeclaration_of_flat {d : Declaration} (h : d.blocks = []) (top : Option Int) (plan : Plan) :
    visitDeclaration g top plan d = plan := by
  cases d with
  | importing _ | pragma _ | signature _ | data _ => rfl
  | raw run =>
    rw [visitDeclaration, show run.blocks = [] from h]
    rfl
  | clause c layout =>
    have hblocks : (c.bimap id fun b => (b, visit g b)).blocks = [] := by
      rw [Clause.blocks_bimap, show c.blocks = [] from h]
      rfl
    obtain ⟨hequation, hlocals⟩ := List.append_eq_nil_iff.1 hblocks
    rw [Option.toList_eq_nil_iff, Option.map_eq_none_iff] at hlocals
    rw [visitDeclaration_clause, visitClause, hlocals, hequation]
    rfl

/--
The declarations of a module that have blocks.
-/
def blockDeclarations (m : Module) : List Declaration :=
  m.declarations.filter fun d => !d.blocks.isEmpty

theorem Plan.ofModule_eq_foldl (settings : Settings) (m : Module) :
    ofModule settings m
      = (blockDeclarations m).foldl (visitDeclaration (.ofModule settings m) (topColumn m)) {} := by
  rw [blockDeclarations, List.foldl_filter, ofModule]
  congr 1
  funext plan d
  split
  · rfl
  · next hflat => exact visitDeclaration_of_flat (by simpa using hflat) _ _

section Module

variable {text : List Char} {m : Module} (h : Module.parse text = .ok m) (settings : Settings)
include h

theorem Grid.ordered_ofModule : (ofModule settings m).Ordered where
  ordered := (Module.asRead_of_read (Module.read_of_parse h)).ordered
  ends t ht hend := by
    obtain ⟨stream, hstream, htokens, -⟩ := Module.tokens_of_read (Module.read_of_parse h)
    have hmem : t ∈ HasTokens.tokens m := List.mem_toArray.1 ht
    rw [htokens] at hmem
    rcases List.mem_append.1 hmem with hmem | hmem
    · rw [((TokenStream.lossless_of_ofTextWith hstream).token t hmem).1] at hend
      cases hend
    · obtain ⟨ls, -, -, heof⟩ := TokenStream.ofTextWith_eq hstream
      rw [List.mem_singleton.1 hmem, heof]

theorem Grid.adjacent_ofModule {i : Nat} (hi : i + 1 < (ofModule settings m).tokens.size) :
    ((ofModule settings m).get i).Adjacent ((ofModule settings m).get (i + 1)) := by
  obtain ⟨stream, hstream, htokens, -⟩ := Module.tokens_of_read (Module.read_of_parse h)
  have hchain : (HasTokens.tokens m).IsChain Token.Adjacent := by
    rw [htokens]
    refine (TokenStream.isChain_adjacent hstream).append (List.isChain_singleton _) fun t _ u hu hline => ?_
    obtain ⟨ls, -, -, heof⟩ := TokenStream.ofTextWith_eq hstream
    rw [List.head?_cons, Option.mem_some_iff] at hu
    rw [← hu, heof] at hline
    cases hline
  rw [get_eq_getElem hi, get_eq_getElem (Nat.lt_of_succ_lt hi)]
  exact hchain.getElem i (by simpa [ofModule] using hi)

/--
The visit of a module plans nothing outside of its declarations that have blocks, and gives the items of each of its
blocks one shift.
-/
theorem Plan.ofModule_visited :
    SameOutside (.ofModule settings m) ((blockDeclarations m).flatMap HasTokens.tokens) {} (.ofModule settings m)
      ∧ ∀ b ∈ m.blocks, (ofModule settings m).Aligns (.ofModule settings m) b := by
  obtain ⟨stream, -, -, hbody⟩ := Module.readBody_body (Module.read_of_parse h)
  have hruns := Module.exists_run_of_readBody hbody
  have hsuffix : m.declarations.flatMap HasTokens.tokens ++ [m.eof] <:+ HasTokens.tokens m :=
    ⟨_, (List.append_assoc ..).symm⟩
  have hwithin : m.declarations.flatMap HasTokens.tokens <:+: HasTokens.tokens m :=
    (List.prefix_append _ _).isInfix.trans hsuffix.isInfix
  have hg := Grid.ordered_ofModule h settings
  have hvisits : Visits (.ofModule settings m) ((blockDeclarations m).flatMap HasTokens.tokens)
      ((blockDeclarations m).flatMap Declaration.blocks) fun plan =>
        (blockDeclarations m).foldl (visitDeclaration (.ofModule settings m) (topColumn m)) plan :=
    .foldl hg (fun d hd => by
      have hmem : d ∈ m.declarations := List.mem_of_mem_filter hd
      obtain ⟨run, hkeeps, hlaid⟩ := hruns d (List.mem_append_right _ hmem)
      exact visitDeclaration_visits hg hkeeps ((infix_flatMap hmem).trans hwithin) hlaid _)
      ((List.filter_sublist.flatMap _).trans hwithin.sublist)
  -- Nothing is planned at the start, so all tokens have the shift zero.
  have hstart : Fresh {} (.ofModule settings m) ((blockDeclarations m).flatMap HasTokens.tokens) 0 := by
    refine fun index _ _ => ⟨fun k _ => ?_, List.not_mem_nil⟩
    exact Int.sub_self _
  obtain ⟨hsame, haligns⟩ := hvisits.visit {} 0 hstart
  rw [← ofModule_eq_foldl] at hsame haligns
  refine ⟨hsame, fun b hb => ?_⟩
  obtain ⟨d, hd, hb⟩ := List.mem_flatMap.1 hb
  obtain ⟨top, htop, hb⟩ := List.mem_flatMap.1 hb
  have hblocks : d ∈ blockDeclarations m := List.mem_filter.2 ⟨hd, by simpa using List.ne_nil_of_mem htop⟩
  exact haligns top (List.mem_flatMap.2 ⟨d, hblocks, htop⟩) b hb

end Module

end Indent

namespace Module

open Indent

variable {text : List Char} {m : Module}

/--
The column that is planned for a token of a module.
-/
def plannedColumn (settings : Settings) (m : Module) (t : Token) : Int :=
  (Plan.ofModule settings m).newColumn (.ofModule settings m) ((Grid.ofModule settings m).indexOf t)

theorem isInfix_body (m : Module) : m.body <:+: tokens m := by
  refine ⟨m.headerPragmas.map (·.token) ++ (m.header.map tokens).getD [], [m.eof], ?_⟩
  rw [tokens_eq_append, body, List.append_assoc (_ ++ _) (m.importDecls.flatMap tokens)]
  rfl

/--
An item moves with the other items of its block, unless it stands on the line on which a token before it ends that
goes over a line end.
-/
theorem plannedColumn_of_aligns (h : parse text = .ok m) {settings : Settings} {b : Block} (hb : b ∈ m.blocks) {d : Int}
    {run : Run Block} (hrun : run ∈ b.items)
    (hmoves : (Plan.ofModule settings m).MovesBy (.ofModule settings m)
      ((Grid.ofModule settings m).indexOf run.first) d) :
    plannedColumn settings m run.first = b.column + d
      ∨ plannedColumn settings m run.first = b.column ∧ run.first.lineStart = false
        ∧ ∃ t ∈ tokens m, t.offset < run.first.offset ∧ t.isMultiline ∧ t.endLine = run.first.line := by
  obtain ⟨hlaid, hwithin⟩ := laid_of_parse h hb
  have hmem : run.first ∈ (Grid.ofModule settings m).tokens :=
    List.mem_toArray.2 ((hwithin.trans (isInfix_body m)).subset (first_mem_tokens b.mem_nested_self hrun))
  have hg := Grid.ordered_ofModule h settings
  obtain ⟨hindex, hget⟩ := hg.exists_index hmem
  have hcolumn := hmoves.newColumn_eq fun i hi => Grid.adjacent_ofModule h settings (Nat.lt_of_le_of_lt hi hindex)
  rw [hget, (hlaid.begins run hrun).1] at hcolumn
  refine hcolumn.imp_right fun ⟨hstays, hline, i, hi, hends, hsame⟩ => ⟨hstays, ?_, _, ?_, ?_, hends, hsame⟩
  · rw [Plan.beginsLine, hget] at hline
    exact (Bool.or_eq_false_iff.1 hline).1
  · exact List.mem_toArray.1 (Grid.get_mem (Nat.lt_trans hi hindex))
  · have hlt := hg.offset_lt hi hindex
    rwa [hget] at hlt

/--
All items of a block are planned for one column, but for a first item on the line on which a token before it ends that
goes over a line end. That item stays in its column.
-/
theorem items_planned (h : parse text = .ok m) (settings : Settings) :
    ∀ b ∈ m.blocks, ∃ column, (∀ run ∈ b.items.tail, plannedColumn settings m run.first = column)
      ∧ (plannedColumn settings m b.firstToken = column
        ∨ plannedColumn settings m b.firstToken = b.column ∧ b.firstToken.lineStart = false
          ∧ ∃ t ∈ tokens m, t.offset < b.firstToken.offset ∧ t.isMultiline ∧ t.endLine = b.firstToken.line) := by
  intro b hb
  obtain ⟨hlaid, -⟩ := laid_of_parse h hb
  obtain ⟨d, haligns⟩ := (Plan.ofModule_visited h settings).2 b hb
  have hplanned (run : Run Block) (hrun : run ∈ b.items) := plannedColumn_of_aligns h hb hrun (haligns run hrun)
  obtain ⟨first, more, hitems, hfirst⟩ := hlaid.exists_items
  refine ⟨b.column + d, fun run hrun => ?_, ?_⟩
  · refine (hplanned run (List.mem_of_mem_tail hrun)).resolve_right fun hstays => ?_
    rw [(hlaid.separated run hrun).1] at hstays
    exact Bool.noConfusion hstays.2.1
  · rw [hfirst]
    exact hplanned first (by rw [hitems]; exact List.mem_cons_self)

/--
A module with a block that is moved, a `where` that is placed, and a block behind the end of a string.
-/
def blocksToMove :
    { m // parse "f = do\n      g \"a\\\n        \\b\" do x\n               y\n      z\n    where w = 1\n".toList
        = .ok m
      ∧ ∃ b ∈ m.blocks, b.items.length = 2 ∧ b.inner.length = 1 ∧ plannedColumn {} m b.firstToken ≠ b.column } :=
  sample _ _ (by decide +kernel)

theorem items_planned_do :
    ∃ m, parse "f = do\n      g \"a\\\n        \\b\" do x\n               y\n      z\n    where w = 1\n".toList = .ok m
      ∧ ∃ b ∈ m.blocks, (b.items.length = 2 ∧ b.inner.length = 1 ∧ plannedColumn {} m b.firstToken ≠ b.column)
        ∧ ∃ column, (∀ run ∈ b.items.tail, plannedColumn {} m run.first = column)
          ∧ (plannedColumn {} m b.firstToken = column
            ∨ plannedColumn {} m b.firstToken = b.column ∧ b.firstToken.lineStart = false
              ∧ ∃ t ∈ tokens m, t.offset < b.firstToken.offset ∧ t.isMultiline ∧ t.endLine = b.firstToken.line) := by
  obtain ⟨m, hm, b, hb, hblock⟩ := blocksToMove
  exact ⟨m, hm, b, hb, hblock, items_planned hm {} b hb⟩

/--
A module in which the items of a block come out of line: the first stands behind the end of a string and stays there,
the second one moves.
-/
def blockBehindString :
    { m // parse "f = do\n      g \"a\\\n        \\b\" do x\n               y\n".toList = .ok m
      ∧ ∃ b ∈ m.blocks, ∃ run ∈ b.items, plannedColumn {} m run.first ≠ plannedColumn {} m b.firstToken } :=
  sample _ _ (by decide +kernel)

/--
The items of a block do not always keep to one column.
-/
theorem not_items_planned :
    ¬∀ (text : List Char) (m : Module), parse text = .ok m → ∀ settings, ∀ b ∈ m.blocks, ∀ run ∈ b.items,
      plannedColumn settings m run.first = plannedColumn settings m b.firstToken := by
  intro h
  obtain ⟨m, hm, b, hb, run, hrun, hne⟩ := blockBehindString
  exact hne (h _ m hm {} b hb run hrun)

end Module

end HaskellStyle
