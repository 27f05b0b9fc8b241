import HaskellStyle.Proofs.Block.Map

/-!
This module contains what the layout rule makes of the columns, the keywords and the brackets of a text. The blocks
nested in a block, at any depth, have consecutive tokens of it, and every token of the block stands outside of further
blocks in an item of one of them. The items of a block begin at its column, their other lines lie right of it, a nested
block stands behind its keyword, and a closing bracket closes one of its own item. The open blocks have this property
after every token, and each of them is ready to become a block of the one around it.
-/

namespace HaskellStyle

theorem Segment.mem_tokensWith {β : Type} {f : β → List Token} {segments : List (Segment β)} {t : Token} :
    t ∈ tokensWith f segments ↔ .token t ∈ segments ∨ ∃ b ∈ blocks segments, t ∈ f b := by
  induction segments with
  | nil => simp
  | cons segment segments ih =>
    cases segment with
    | token u => simp [ih, or_assoc]
    | block b => simp [ih, or_left_comm]

namespace Block

/--
The blocks nested in a block, without the block itself.
-/
def inner (b : Block) : List Block :=
  b.items.flatMap fun run => run.blocks.flatMap nested

theorem nested_eq (b : Block) : b.nested = b :: b.inner := by
  obtain ⟨kind, opener, column, items⟩ := b
  unfold inner nested
  rw [fold, foldItems_eq, List.flatMap_map]
  simp only [Run.blocks, Segment.blocks_map, List.flatMap_map]
  rfl

theorem mem_inner {b c : Block} : c ∈ b.inner ↔ ∃ run ∈ b.items, ∃ d ∈ run.blocks, c ∈ d.nested := by
  simp only [inner, List.mem_flatMap]

theorem mem_nested_self (b : Block) : b ∈ b.nested := by
  rw [nested_eq]
  exact List.mem_cons_self

theorem mem_nested_of_mem_inner {b c : Block} (h : c ∈ b.inner) : c ∈ b.nested := by
  rw [nested_eq]
  exact List.mem_cons_of_mem _ h

/--
What is nested in the blocks of a block and holds of the block holds of all that is nested in it.
-/
theorem forall_mem_nested {P : Block → Prop} {b : Block} :
    (∀ c ∈ b.nested, P c) ↔ P b ∧ ∀ run ∈ b.items, ∀ d ∈ run.blocks, ∀ c ∈ d.nested, P c := by
  rw [nested_eq, List.forall_mem_cons]
  refine and_congr_right fun _ => ?_
  constructor
  · intro h run hrun d hd c hc
    exact h c (mem_inner.2 ⟨run, hrun, d, hd, hc⟩)
  · intro h c hc
    obtain ⟨run, hrun, d, hd, hc⟩ := mem_inner.1 hc
    exact h run hrun d hd c hc

theorem nested_subset {b c : Block} (h : c ∈ b.nested) : c.nested ⊆ b.nested := by
  induction b using forall_of_items with
  | h kind opener column items ih =>
    rw [nested_eq] at h
    rcases List.mem_cons.1 h with rfl | h
    · exact fun _ => id
    · obtain ⟨run, hrun, d, hd, hc⟩ := mem_inner.1 h
      intro e he
      exact mem_nested_of_mem_inner (mem_inner.2 ⟨run, hrun, d, hd, ih run hrun d hd hc he⟩)

theorem nested_subset_inner {b c : Block} (h : c ∈ b.inner) : c.nested ⊆ b.inner := by
  obtain ⟨run, hrun, d, hd, hc⟩ := mem_inner.1 h
  intro e he
  exact mem_inner.2 ⟨run, hrun, d, hd, nested_subset hc he⟩

theorem tokens_eq (b : Block) : b.tokens = b.items.flatMap HaskellStyle.tokens := by
  obtain ⟨kind, opener, column, items⟩ := b
  exact tokens_mk kind opener column items

theorem infix_of_mem_items {b : Block} {run : Run Block} (h : run ∈ b.items) :
    HaskellStyle.tokens run <:+: b.tokens := by
  obtain ⟨before, after, hitems⟩ := List.append_of_mem h
  rw [tokens_eq, hitems, List.flatMap_append, List.flatMap_cons, ← List.append_assoc]
  exact List.infix_append _ _ _

theorem infix_of_mem_blocks {run : Run Block} {b : Block} (h : b ∈ run.blocks) :
    b.tokens <:+: HaskellStyle.tokens run :=
  Segment.infix_tokensWith Block.tokens h

theorem infix_of_mem_nested {b c : Block} (h : c ∈ b.nested) : c.tokens <:+: b.tokens := by
  induction b using forall_of_items with
  | h kind opener column items ih =>
    rw [nested_eq] at h
    rcases List.mem_cons.1 h with rfl | h
    · exact List.infix_rfl
    · obtain ⟨run, hrun, d, hd, hc⟩ := mem_inner.1 h
      exact (ih run hrun d hd hc).trans ((infix_of_mem_blocks hd).trans (infix_of_mem_items hrun))

/--
A token of a block is a segment of an item of the block or of a block nested in it.
-/
theorem exists_item_of_mem_tokens {b : Block} {t : Token} (h : t ∈ b.tokens) :
    ∃ c ∈ b.nested, ∃ run ∈ c.items, .token t ∈ run.segments := by
  induction b using forall_of_items with
  | h kind opener column items ih =>
    rw [tokens_eq] at h
    obtain ⟨run, hrun, ht⟩ := List.mem_flatMap.1 h
    rcases Segment.mem_tokensWith.1 ht with ht | ⟨d, hd, ht⟩
    · exact ⟨_, mem_nested_self _, run, hrun, ht⟩
    · obtain ⟨c, hc, hitem⟩ := ih run hrun d hd ht
      exact ⟨c, mem_nested_of_mem_inner (mem_inner.2 ⟨run, hrun, d, hd, hc⟩), hitem⟩

end Block

theorem append_singleton_eq_append_cons {α : Type} {xs before after : List α} {x y : α}
    (h : xs ++ [x] = before ++ y :: after) :
    before = xs ∧ y = x ∨ ∃ after', xs = before ++ y :: after' := by
  rcases List.eq_nil_or_concat after with rfl | ⟨after', z, rfl⟩
  · obtain ⟨hxs, hx⟩ := List.append_inj' h rfl
    exact .inl ⟨hxs.symm, (List.cons.inj hx).1.symm⟩
  · rw [List.concat_eq_append, ← List.cons_append, ← List.append_assoc] at h
    exact .inr ⟨after', (List.append_inj' h rfl).1⟩

namespace Layout

/--
How many `if`s of an item still expect `keyword` if `following` comes next. The segments of the item are given the
newest first. An `if` before a bar expects nothing.
-/
def openIfs (keyword : String) (following : Token) : List (Segment Block) → Nat
  | [] => 0
  | .token t :: earlier =>
    let count := openIfs keyword t earlier
    if t.isKeyword ["if"] then
      if following.isReservedOp ["|"] then count else count + 1
    else if t.isKeyword [keyword] then
      count - 1
    else
      count
  | .block b :: earlier => openIfs keyword b.firstToken earlier

/--
Whether `t` is the `then` or the `else` of an `if` in the item, of which the segments `before` come before `t`.
-/
def ContinuesIf (before : List (Segment Block)) (t : Token) : Prop :=
  ∃ keyword ∈ ["then", "else"], t.isKeyword [keyword] ∧ openIfs keyword t before.reverse ≠ 0

/--
The brackets that are open behind segments, without those in their blocks.
-/
def openBrackets (segments : List (Segment Block)) : List Token :=
  (Segment.topTokens segments).foldl countBracket []

/--
The keyword `opener`, which is the last of the segments `before` in an item of a block at `column`, opens a block of the
given kind that begins with `first`.
-/
structure Opens (column : Int) (before : List (Segment Block)) (kind : BlockKind) (opener first : Token) : Prop where
  behind : before.getLast? = some (.token opener)
  keyword : ∃ previous start, openedKind opener previous start = some kind
  follows : opensNothing first column = false

/--
What is required of a segment that stands behind others in an item.
-/
def Follows (kind : BlockKind) (column : Int) (before : List (Segment Block)) : Segment Block → Prop
  | .token t =>
    (t.lineStart → column < t.column ∨ kind = .doBlock ∧ t.column = column ∧ ContinuesIf before t)
      ∧ (t.isClosing → openBrackets before ≠ [])
  | .block c => Opens column before c.kind c.opener c.firstToken

/--
The layout rule for the items of a block: where they begin, and what follows in them.
-/
structure Laid (kind : BlockKind) (column : Int) (items : List (Run Block)) : Prop where
  nonempty : items ≠ []
  begins : ∀ run ∈ items, run.first.column = column ∧ run.first.isClosing = false
  separated : ∀ run ∈ items.tail, run.first.lineStart ∧ endsBlock run.first = false
  follows : ∀ run ∈ items, ∀ before segment after, run.rest = before ++ segment :: after →
    Follows kind column (.token run.first :: before) segment

namespace Laid

variable {kind : BlockKind} {column : Int} {items : List (Run Block)} {run : Run Block} {t : Token}

theorem start (h : t.isClosing = false) : Laid kind t.column [⟨t, []⟩] where
  nonempty := List.cons_ne_nil _ _
  begins run hrun := by
    rw [List.mem_singleton.1 hrun]
    exact ⟨rfl, h⟩
  separated run hrun := by cases hrun
  follows run hrun before segment after hrest := by
    rw [List.mem_singleton.1 hrun] at hrest
    exact absurd hrest.symm (List.append_ne_nil_of_right_ne_nil _ (List.cons_ne_nil _ _))

theorem isClosing_of_endsBlock (h : endsBlock t = false) : t.isClosing = false := by
  simp only [endsBlock, Bool.or_eq_false_iff] at h
  exact h.1.2

/--
An item more, which begins on a line of its own.
-/
theorem next (h : Laid kind column items) (hline : t.lineStart) (hcolumn : t.column = column)
    (hends : endsBlock t = false) : Laid kind column (items ++ [⟨t, []⟩]) where
  nonempty := List.append_ne_nil_of_right_ne_nil _ (List.cons_ne_nil _ _)
  begins run hrun := by
    rcases List.mem_append.1 hrun with hrun | hrun
    · exact h.begins run hrun
    · rw [List.mem_singleton.1 hrun]
      exact ⟨hcolumn, isClosing_of_endsBlock hends⟩
  separated run hrun := by
    have hmem : run ∈ items.tail ∨ run = ⟨t, []⟩ := by
      cases items with
      | nil => cases hrun
      | cons first more =>
        rw [List.cons_append, List.tail_cons] at hrun
        exact (List.mem_append.1 hrun).imp_right List.mem_singleton.1
    rcases hmem with hmem | rfl
    · exact h.separated run hmem
    · exact ⟨hline, hends⟩
  follows run hrun before segment after hrest := by
    rcases List.mem_append.1 hrun with hrun | hrun
    · exact h.follows run hrun before segment after hrest
    · rw [List.mem_singleton.1 hrun] at hrest
      exact absurd hrest.symm (List.append_ne_nil_of_right_ne_nil _ (List.cons_ne_nil _ _))

/--
A segment more in the last item.
-/
theorem extend {segment : Segment Block} (h : Laid kind column (items ++ [run]))
    (hsegment : Follows kind column run.segments segment) :
    Laid kind column (items ++ [⟨run.first, run.rest ++ [segment]⟩]) where
  nonempty := List.append_ne_nil_of_right_ne_nil _ (List.cons_ne_nil _ _)
  begins run' hrun := by
    rcases List.mem_append.1 hrun with hrun | hrun
    · exact h.begins run' (List.mem_append_left _ hrun)
    · rw [List.mem_singleton.1 hrun]
      exact h.begins run (List.mem_append_right _ List.mem_cons_self)
  separated run' hrun := by
    cases items with
    | nil => cases hrun
    | cons first more =>
      rw [List.cons_append, List.tail_cons] at hrun
      rcases List.mem_append.1 hrun with hrun | hrun
      · exact h.separated run' (List.mem_append_left _ hrun)
      · rw [List.mem_singleton.1 hrun]
        exact h.separated run (List.mem_append_right _ List.mem_cons_self)
  follows run' hrun before segment' after hrest := by
    rcases List.mem_append.1 hrun with hrun | hrun
    · exact h.follows run' (List.mem_append_left _ hrun) before segment' after hrest
    · rw [List.mem_singleton.1 hrun] at hrest ⊢
      rcases append_singleton_eq_append_cons hrest with ⟨rfl, rfl⟩ | ⟨after', hrest⟩
      · exact hsegment
      · exact h.follows run (List.mem_append_right _ List.mem_cons_self) before segment' after' hrest

end Laid

end Layout

namespace Block

/--
A block that keeps to the layout rule.
-/
def Laid (b : Block) : Prop :=
  Layout.Laid b.kind b.column b.items

/--
The alignment of a block: all items begin in its column and all but the first on lines of their own. The other lines of
an item begin right of the column, except that the `then` and the `else` of an `if` may stand in the column of a `do`
block.
-/
structure Aligned (b : Block) : Prop where
  begins : ∀ run ∈ b.items, run.first.column = b.column
  separated : ∀ run ∈ b.items.tail, run.first.lineStart ∧ Layout.endsBlock run.first = false
  continued : ∀ run ∈ b.items, ∀ before t after, run.rest = before ++ .token t :: after → t.lineStart →
    b.column < t.column
      ∨ b.kind = .doBlock ∧ t.column = b.column ∧ Layout.ContinuesIf (.token run.first :: before) t

theorem Laid.aligned {b : Block} (h : b.Laid) : b.Aligned where
  begins run hrun := (h.begins run hrun).1
  separated := h.separated
  continued run hrun before _ after hrest := (h.follows run hrun before _ after hrest).1

/--
A block that keeps to the layout rule begins with the first token of its first item.
-/
theorem Laid.exists_items {b : Block} (h : b.Laid) : ∃ run more, b.items = run :: more ∧ b.firstToken = run.first := by
  obtain ⟨run, more, hitems⟩ := List.exists_cons_of_ne_nil h.nonempty
  refine ⟨run, more, hitems, ?_⟩
  rw [firstToken, tokens_eq, hitems, List.flatMap_cons]
  rfl

theorem Laid.firstToken_eq {b : Block} (h : b.Laid) :
    b.tokens.head? = some b.firstToken ∧ b.firstToken.column = b.column := by
  obtain ⟨run, more, hitems, hfirst⟩ := h.exists_items
  rw [hfirst, tokens_eq, hitems, List.flatMap_cons]
  exact ⟨rfl, (h.begins run (by rw [hitems]; exact List.mem_cons_self)).1⟩

end Block

end HaskellStyle
