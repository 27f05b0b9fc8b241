import HaskellStyle.Proofs.Block.Open
import HaskellStyle.Proofs.Block.Resume

/-!
This module contains the reading of an item of a body whose tokens, but for the first, are right of the body's column.
Whatever blocks they form, these blocks are right of it too, so the next token that begins a line in that column or left
of it ends them all. Brackets that are closed by the item's tokens are closed in every block.
-/

namespace HaskellStyle

/--
Whether a token can open a block.
-/
def Token.opensLayout (t : Token) : Bool :=
  t.isKeyword ["do", "of", "let", "where", "case"] || (t.kind = .varId && ["mdo", "cases"].contains t.text)

namespace Layout

variable {column : Int} {t following : Token} {block : OpenBlock} {outer : List OpenBlock} {seen : List Token}

theorem opensLayout_of_openedKind {previous : Option Token} {first : Token}
    (h : (openedKind t previous first).isSome) : t.opensLayout := by
  have hkeyword {word : String} (hword : word ∈ ["do", "of", "let", "where", "case"]) (h : t.isKeyword [word]) :
      t.opensLayout := by
    simp only [Token.isKeyword, List.contains_iff_mem, List.mem_singleton, Bool.and_eq_true, decide_eq_true_eq] at h
    simp [Token.opensLayout, Token.isKeyword, h.1, h.2, hword]
  have hname {word : String} (hword : word ∈ ["mdo", "cases"]) (h : t.kind = .varId ∧ t.text = word) :
      t.opensLayout := by
    simp [Token.opensLayout, h.1, h.2, hword]
  unfold openedKind at h
  dsimp only at h
  simp only [Bool.or_eq_true, Bool.and_eq_true, decide_eq_true_eq, beq_iff_eq] at h
  split at h
  · next hdo => exact hdo.elim (hkeyword (by simp)) (hname (by simp))
  · split at h
    · next hof => exact hkeyword (by simp) hof
    · split at h
      · next hlet => exact hkeyword (by simp) hlet
      · split at h
        · next hwhere => exact hkeyword (by simp) hwhere
        · split at h
          · next hcase => exact hcase.2.elim (hkeyword (by simp)) (hname (by simp))
          · cases h

theorem opensLayout_of_awaitedKind (h : (block.awaitedKind following).isSome) : block.item.last.opensLayout := by
  unfold OpenBlock.awaitedKind at h
  split at h
  · next hkind =>
    have hopened : (openedKind block.item.last block.item.previous block.item.first).isSome := by
      rw [hkind]
      rfl
    exact opensLayout_of_openedKind hopened
  · cases h

theorem countBracket_nil_append (h : t.isClosing = false) (brackets : List Token) :
    countBracket brackets t = countBracket [] t ++ brackets := by
  have hnone : t.isClosing → ([] : List Token) ≠ [] := by simp [h]
  exact countBracket_append hnone brackets

theorem countBracket_sublist {brackets others : List Token} (h : brackets.Sublist others) (t : Token) :
    (countBracket brackets t).Sublist (countBracket others t) := by
  unfold countBracket
  split
  · exact h.cons_cons t
  · split
    · exact h.drop 1
    · exact h

/--
The open brackets of all open blocks, those of the innermost first.
-/
def openBracketsOf (block : OpenBlock) (outer : List OpenBlock) : List Token :=
  (block :: outer).flatMap (·.item.brackets)

theorem openBracketsOf_close (block parent : OpenBlock) (outer : List OpenBlock) :
    openBracketsOf block (parent :: outer) = block.item.brackets ++ openBracketsOf (parent.close block) outer := by
  have hbrackets : (parent.close block).item.brackets = parent.item.brackets := by
    unfold OpenBlock.close
    split <;> rfl
  simp only [openBracketsOf, List.flatMap_cons, hbrackets]

/--
What is known of the open blocks of an item when its tokens `seen` are read, which are right of the body.
-/
structure Reading (column : Int) (seen : List Token) (block : OpenBlock) (outer : List OpenBlock) : Prop where
  inside : Inside (column < ·) column block outer
  stack : Stack seen block outer
  brackets : (openBracketsOf block outer).Sublist (seen.foldl countBracket [])
  depth : outer.length ≤ seen.countP (·.opensLayout)

theorem roleOf_right (h : block.opening = none) (hcolumn : block.column < t.column) :
    block.roleOf t = .ok .continues := by
  unfold OpenBlock.roleOf
  rw [h]
  dsimp only
  rw [if_neg fun hplace => absurd hplace.2 (Int.not_le.2 hcolumn)]

theorem roleOf_left (h : block.opening.isSome) (hline : t.lineStart) (hcolumn : t.column < block.column) :
    block.roleOf t = .ok .closesBlock := by
  obtain ⟨⟨kind, opener⟩, hopening⟩ := Option.isSome_iff_exists.1 h
  have hne : decide (t.column = block.column) = false := decide_eq_false (Int.ne_of_lt hcolumn)
  unfold OpenBlock.roleOf
  rw [hopening]
  dsimp only
  simp only [hline, Int.le_of_lt hcolumn, hne, hcolumn, Bool.and_false, Bool.false_and, Bool.not_false, and_self,
    if_true, decide_true, Bool.true_or]

/--
A token can close a bracket only in an item that has one, and begins no item.
-/
theorem roleOf_nested (h : block.opening.isSome) (t : Token) :
    block.roleOf t = .ok .closesBlock ∨ (block.roleOf t = .ok .continues ∧ (t.isClosing → block.item.brackets ≠ []))
      ∨ block.roleOf t = .ok .beginsItem ∧ t.isClosing = false := by
  obtain ⟨⟨kind, opener⟩, hopening⟩ := Option.isSome_iff_exists.1 h
  unfold OpenBlock.roleOf
  rw [hopening]
  dsimp only
  split
  · split
    · exact .inl rfl
    · next hends =>
      simp only [endsBlock, Bool.or_eq_true, not_or, Bool.not_eq_true] at hends
      exact .inr (.inr ⟨rfl, hends.2.1.2⟩)
  · split
    · exact .inl rfl
    · next hends =>
      refine .inr (.inl ⟨rfl, fun hclosing hbrackets => hends ?_⟩)
      rw [hbrackets, endsItem, hclosing]
      rfl

namespace Reading

theorem close {parent : OpenBlock} (h : Reading column seen block (parent :: outer)) :
    Reading column seen (parent.close block) outer where
  inside := h.inside.close
  stack := h.stack.close
  brackets := by
    have hbrackets := h.brackets
    rw [openBracketsOf_close] at hbrackets
    exact (List.sublist_append_right block.item.brackets _).trans hbrackets
  depth := Nat.le_trans (Nat.le_succ _) h.depth

theorem extend {block' : OpenBlock} (h : Reading column seen block outer)
    (hinside : Inside (column < ·) column block' outer) (hstack : Stack (seen ++ [t]) block' outer)
    (hbrackets : (openBracketsOf block' outer).Sublist (countBracket (openBracketsOf block outer) t)) :
    Reading column (seen ++ [t]) block' outer where
  inside := hinside
  stack := hstack
  brackets := by
    rw [List.foldl_append, List.foldl_cons, List.foldl_nil]
    exact hbrackets.trans (countBracket_sublist h.brackets t)
  depth := by
    rw [List.countP_append]
    exact Nat.le_trans h.depth (Nat.le_add_right _ _)

theorem push (h : Reading column seen block outer) (hclosing : outer ≠ [] → t.isClosing → block.item.brackets ≠ [])
    (following : Token) : Reading column (seen ++ [t]) (block.push t following) outer := by
  have hbrackets : openBracketsOf (block.push t following) outer = countBracket (openBracketsOf block outer) t := by
    cases outer with
    | nil => exact (List.append_nil _).trans (congrArg (countBracket · t) (List.append_nil _).symm)
    | cons parent outer => exact (countBracket_append (hclosing (List.cons_ne_nil _ _)) _).symm
  exact h.extend (h.inside.push t following) (h.stack.push t following) (hbrackets ▸ .refl _)

theorem nextItem {parent : OpenBlock} (h : Reading column seen block (parent :: outer)) (hclosing : t.isClosing = false)
    (following : Token) : Reading column (seen ++ [t]) (block.nextItem t following) (parent :: outer) := by
  have hinside := (h.inside.nextItem t following).resolve_right (by simp)
  refine h.extend hinside (h.stack.nextItem t following) ?_
  have hnext : openBracketsOf (block.nextItem t following) (parent :: outer)
      = countBracket (openBracketsOf parent outer) t := (countBracket_nil_append hclosing _).symm
  rw [hnext]
  exact countBracket_sublist (List.sublist_append_right block.item.brackets _) t

theorem column_le (h : Reading column seen block outer) : column ≤ block.column := by
  cases h.inside with
  | outermost item => exact Int.le_refl column
  | nested _ hcolumn _ => exact Int.le_of_lt hcolumn

end Reading

/--
Whether an item of a body has no blocks, neither finished nor open ones.
-/
def Unnested (block : OpenBlock) (outer : List OpenBlock) : Prop :=
  outer = [] ∧ Segment.isFlat block.item.rest

theorem isFlat_close {parent : OpenBlock} (h : block.opening.isSome) :
    Segment.isFlat (parent.close block).item.rest = false := by
  obtain ⟨⟨kind, opener⟩, hopening⟩ := Option.isSome_iff_exists.1 h
  rw [OpenBlock.close, hopening]
  rfl

/--
A token that is right of the body is taken by an item.
-/
theorem Reading.place (h : Reading column seen block outer) (hcolumn : column < t.column) (following : Token) :
    ∃ block' outer', Layout.place t following block outer = .ok (block', outer')
      ∧ Reading column (seen ++ [t]) block' outer' ∧ block'.item.last = t ∧ outer'.length ≤ outer.length
      ∧ (Unnested block' outer' ↔ Unnested block outer)
      ∧ (outer = [] → block' = block.push t following) := by
  obtain ⟨taker, others, ⟨htaker, hlength, hsame⟩, hcloses, hplace⟩ := place_eq
    (P := fun taker others => Reading column seen taker others ∧ others.length ≤ outer.length
      ∧ (taker = block ∧ others = outer ∨ outer ≠ [] ∧ Segment.isFlat taker.item.rest = false))
    (fun inner parent others h => by
      -- Blocks that have been left show in the item.
      refine ⟨h.1.close, Nat.le_of_succ_le h.2.1, .inr ⟨?_, isFlat_close h.1.inside.opening⟩⟩
      rcases h.2.2 with ⟨-, rfl⟩ | ⟨hne, -⟩
      · exact List.cons_ne_nil _ _
      · exact hne) t ⟨h, Nat.le_refl _, .inl ⟨rfl, rfl⟩⟩
  rw [hplace t following fun _ => rfl]
  cases others with
  | nil =>
    have hopening : taker.opening = none ∧ taker.column = column := by
      cases htaker.inside with
      | outermost item => exact ⟨rfl, rfl⟩
    rw [roleOf_right hopening.1 (hopening.2 ▸ hcolumn)]
    refine ⟨_, _, rfl, htaker.push (absurd rfl) following, rfl, hlength, ?_, ?_⟩
    · rcases hsame with ⟨rfl, rfl⟩ | ⟨hne, hflat⟩
      · exact Iff.rfl
      · exact ⟨fun h => absurd (hflat ▸ h.2 : false = true) Bool.false_ne_true, fun h => absurd h.1 hne⟩
    · rintro rfl
      rcases hsame with ⟨rfl, -⟩ | ⟨hne, -⟩
      · rfl
      · exact absurd rfl hne
  | cons parent others =>
    have houter : outer ≠ [] := by
      rcases hsame with ⟨-, rfl⟩ | ⟨hne, -⟩
      · exact List.cons_ne_nil _ _
      · exact hne
    have hunnested (block' : OpenBlock) : Unnested block' (parent :: others) ↔ Unnested block outer :=
      ⟨fun h => absurd h.1 (List.cons_ne_nil _ _), fun h => absurd h.1 houter⟩
    rcases roleOf_nested htaker.inside.opening t with hrole | ⟨hrole, hclosing⟩ | ⟨hrole, hclosing⟩
    · cases hcloses hrole
    · rw [hrole]
      exact ⟨_, _, rfl, htaker.push (fun _ => hclosing) following, rfl, hlength, hunnested _, fun h => absurd h houter⟩
    · rw [hrole]
      exact ⟨_, _, rfl, htaker.nextItem hclosing following, rfl, hlength, hunnested _, fun h => absurd h houter⟩

/--
A block is opened right of the body.
-/
theorem Reading.openBlock (h : Reading column seen block outer) (hroom : outer.length < seen.countP (·.opensLayout))
    (hcolumn : column < t.column) (hclosing : t.isClosing = false) (kind : BlockKind) (opener following : Token) :
    Reading column (seen ++ [t]) ⟨some (kind, opener), t.column, [], .start t following⟩ (block :: outer) where
  inside := .nested rfl hcolumn h.inside
  stack := stack_openBlock h.stack kind opener t following
  brackets := by
    have hopen : openBracketsOf ⟨some (kind, opener), t.column, [], .start t following⟩ (block :: outer)
        = countBracket (openBracketsOf block outer) t := (countBracket_nil_append hclosing _).symm
    rw [List.foldl_append, List.foldl_cons, List.foldl_nil, hopen]
    exact countBracket_sublist h.brackets t
  depth := by
    rw [List.countP_append]
    exact Nat.le_trans hroom (Nat.le_add_right _ _)

/--
Where no bracket is open, the blocks end with the text, and before a token that begins a line and is not right of the
body.
-/
theorem Reading.ends (h : Reading column seen block outer) (hclosed : openBracketsOf block outer = []) :
    ∃ run, tokens run = seen ∧ (Segment.isFlat run.rest ↔ Unnested block outer) ∧ finish block outer = .ok [run]
      ∧ ∀ u following, u.lineStart → u.column ≤ column →
        Layout.place u following block outer = .ok (⟨none, column, [run], .start u following⟩, []) := by
  induction outer generalizing block with
  | nil =>
    cases h.inside with
    | outermost item =>
      have hbrackets : item.brackets = [] := (List.append_nil _).symm.trans hclosed
      have htokens : tokens item.run = seen := by
        rw [← h.stack.tokens]
        exact ((List.append_nil _).trans (List.append_nil _)).symm
      have hrequire : item.requireClosed = .ok () := by rw [OpenItem.requireClosed, hbrackets]
      refine ⟨item.run, htokens, ?_, ?_, fun u following hline hcolumn => ?_⟩
      · simp [Unnested, OpenItem.run, Segment.isFlat]
      · rw [finish, hrequire]
        rfl
      · have hrole : OpenBlock.roleOf ⟨none, column, [], item⟩ u = .ok .beginsItem := by
          unfold OpenBlock.roleOf
          dsimp only
          rw [if_pos ⟨hline, hcolumn⟩, hrequire]
          rfl
        rw [Layout.place, hrole]
        rfl
  | cons parent outer ih =>
    rw [openBracketsOf_close, List.append_eq_nil_iff] at hclosed
    obtain ⟨run, htokens, hflat, hfinish, hplace⟩ := ih h.close hclosed.2
    have hnested : ¬Unnested (parent.close block) outer := by simp [Unnested, isFlat_close h.inside.opening]
    refine ⟨run, htokens, hflat.trans ⟨fun hnone => absurd hnone hnested, fun hnone => by cases hnone.1⟩, ?_,
      fun u following hline hcolumn => ?_⟩
    · rw [finish, OpenItem.requireClosed, hclosed.1]
      exact hfinish
    · rw [Layout.place, roleOf_left h.inside.opening hline (Int.lt_of_le_of_lt hcolumn h.inside.column_nests)]
      exact hplace u following hline hcolumn

/--
Whether no block is opened behind the tokens `previous` and `last` of an item that begins with `first` and goes on with
the given tokens.
-/
def opensNone (column : Int) (first : Token) : Option Token → Token → List Token → Bool
  | _, _, [] => true
  | previous, last, t :: ts =>
    ((openedKind last previous first).isNone || opensNothing t column) && opensNone column first (some last) t ts

theorem awaitedKind_eq_none : block.awaitedKind t = none
    ↔ (openedKind block.item.last block.item.previous block.item.first).isNone || opensNothing t block.column := by
  unfold OpenBlock.awaitedKind
  split
  · next kind hkind => simp [hkind]
  · next hkind => simp [hkind]

/--
Behind the tokens of an item the next item begins, or the body ends.
-/
theorem Reading.readRest_ends (eof : Token) {rest : List Token} (h : Reading column seen block outer)
    (hclosed : openBracketsOf block outer = []) (hrest : ∀ t ∈ rest.head?, t.lineStart ∧ t.column ≤ column) :
    ∃ run, tokens run = seen ∧ (Segment.isFlat run.rest ↔ Unnested block outer)
      ∧ readRest eof (block.awaitedKind (rest.headD eof)) block outer rest = readOn eof column [run] rest := by
  obtain ⟨run, htokens, hflat, hfinish, hplace⟩ := h.ends hclosed
  refine ⟨run, htokens, hflat, ?_⟩
  cases rest with
  | nil => exact hfinish
  | cons u more =>
    obtain ⟨hline, hcolumn⟩ := hrest u rfl
    have hawaited : block.awaitedKind u = none := by
      have hle := Int.le_trans hcolumn h.column_le
      rw [awaitedKind_eq_none]
      simp [opensNothing, hline, hle]
    rw [List.headD_cons, hawaited, readRest_cons]
    dsimp only
    rw [hplace u _ hline hcolumn]
    rfl

theorem lt_countP_concat {n : Nat} (h : n ≤ seen.countP (·.opensLayout)) (hopens : t.opensLayout) :
    n < (seen ++ [t]).countP (·.opensLayout) := by
  rw [List.countP_append, List.countP_singleton, hopens, if_pos rfl]
  exact Nat.lt_succ_of_le h

/--
Once the tokens of an item are read, the next item begins, or the body ends. It can happen that too many blocks are
nested before that.
-/
theorem readRest_indented (eof : Token) {ts rest : List Token} (h : Reading column seen block outer)
    (hroom : block.item.last.opensLayout → outer.length < seen.countP (·.opensLayout))
    (hindent : ∀ t ∈ ts, column < t.column) (hcloses : ClosesBrackets (seen ++ ts))
    (hrest : ∀ t ∈ rest.head?, t.lineStart ∧ t.column ≤ column) :
    (∃ run, tokens run = seen ++ ts
        ∧ (Segment.isFlat run.rest ↔ Unnested block outer
          ∧ opensNone block.column block.item.first block.item.previous block.item.last ts)
        ∧ readRest eof (block.awaitedKind ((ts ++ rest).headD eof)) block outer (ts ++ rest)
          = readOn eof column [run] rest)
      ∨ maxNesting ≤ (seen ++ ts).countP (·.opensLayout)
        ∧ readRest eof (block.awaitedKind ((ts ++ rest).headD eof)) block outer (ts ++ rest)
          = .error ⟨.nestingTooDeep, 0⟩ := by
  induction ts generalizing seen block outer with
  | nil =>
    rw [List.append_nil] at hcloses ⊢
    -- All brackets of the item are closed, so none is open in the blocks that are left.
    have hclosed : openBracketsOf block outer = [] := List.sublist_nil.1 (hcloses ▸ h.brackets)
    obtain ⟨run, htokens, hflat, hread⟩ := h.readRest_ends eof hclosed hrest
    exact .inl ⟨run, htokens, hflat.trans (and_iff_left rfl).symm, hread⟩
  | cons t ts ih =>
    have hcolumn := hindent t List.mem_cons_self
    have hseen : (seen ++ [t]) ++ ts = seen ++ t :: ts := by rw [List.append_assoc, List.singleton_append]
    rw [List.cons_append, List.headD_cons, readRest_cons]
    cases hawaited : block.awaitedKind t with
    | none =>
      obtain ⟨block', outer', hplace, hreading, hlast, hlength, hunnested, hpush⟩ :=
        h.place hcolumn ((ts ++ rest).headD eof)
      dsimp only
      rw [hplace]
      have hroom' : block'.item.last.opensLayout → outer'.length < (seen ++ [t]).countP (·.opensLayout) := by
        rw [hlast]
        exact lt_countP_concat (Nat.le_trans hlength h.depth)
      rcases ih hreading hroom' (fun u hu => hindent u (List.mem_cons_of_mem _ hu)) (hseen ▸ hcloses) with
        ⟨run, htokens, hflat, hread⟩ | ⟨hmany, hread⟩
      · refine .inl ⟨run, hseen ▸ htokens, hflat.trans ?_, hread⟩
        rw [hunnested]
        refine and_congr_right fun hnone => ?_
        rw [hpush hnone.1, opensNone, awaitedKind_eq_none.1 hawaited, Bool.true_and]
        rfl
      · exact .inr ⟨hseen ▸ hmany, hread⟩
    | some kind =>
      have hsome : (block.awaitedKind t).isSome := by
        rw [hawaited]
        rfl
      have hopens := opensLayout_of_awaitedKind hsome
      have hclosing : t.isClosing = false := by
        have hnothing : ¬opensNothing t block.column := by
          intro hnothing
          rw [awaitedKind_eq_none.2 (by rw [hnothing, Bool.or_true])] at hawaited
          cases hawaited
        exact isClosing_of_opensNothing (Bool.eq_false_iff.2 hnothing)
      dsimp only
      unfold openBlock
      split
      · next hmany =>
        -- Each block around this one was opened by a token of the item of its own.
        refine .inr ⟨?_, rfl⟩
        rw [List.countP_append]
        exact Nat.le_trans hmany (Nat.le_trans (hroom hopens) (Nat.le_add_right _ _))
      · have hroom' : t.opensLayout → (block :: outer).length < (seen ++ [t]).countP (·.opensLayout) :=
          lt_countP_concat (hroom hopens)
        rcases ih (h.openBlock (hroom hopens) hcolumn hclosing kind block.item.last ((ts ++ rest).headD eof)) hroom'
          (fun u hu => hindent u (List.mem_cons_of_mem _ hu)) (hseen ▸ hcloses) with
          ⟨run, htokens, hflat, hread⟩ | ⟨hmany, hread⟩
        · refine .inl ⟨run, hseen ▸ htokens, hflat.trans ⟨fun hnone => ?_, fun hnone => ?_⟩, hread⟩
          · cases hnone.1.1
          · rw [opensNone, Bool.and_eq_true, ← awaitedKind_eq_none, hawaited] at hnone
            cases hnone.2.1
        · exact .inr ⟨hseen ▸ hmany, hread⟩

/--
An item is read on its own if its tokens are right of the body: what it has of blocks ends with it.
-/
theorem resume_indented (eof : Token) {ts rest : List Token} (hindent : ∀ u ∈ ts, column < u.column)
    (hcloses : ClosesBrackets (t :: ts)) (hrest : ∀ u ∈ rest.head?, u.lineStart ∧ u.column ≤ column) :
    (∃ run, tokens run = t :: ts ∧ (Segment.isFlat run.rest ↔ opensNone column t none t ts)
        ∧ readOn eof column [] (t :: ts ++ rest) = readOn eof column [run] rest)
      ∨ maxNesting ≤ (t :: ts).countP (·.opensLayout)
        ∧ readOn eof column [] (t :: ts ++ rest) = .error ⟨.nestingTooDeep, 0⟩ := by
  have hreading : Reading column [t] ⟨none, column, [], .start t ((ts ++ rest).headD eof)⟩ [] := by
    constructor
    case inside => exact .outermost _
    case stack => exact stack_start column t _
    case brackets =>
      rw [openBracketsOf, List.flatMap_singleton]
      exact .refl _
    case depth => exact Nat.zero_le _
  have hroom : t.opensLayout → 0 < [t].countP (·.opensLayout) := by
    intro hopens
    rw [List.countP_singleton, hopens]
    exact Nat.zero_lt_one
  rcases readRest_indented eof hreading hroom hindent hcloses hrest with
    ⟨run, htokens, hflat, hread⟩ | ⟨hmany, hread⟩
  · refine .inl ⟨run, htokens, hflat.trans (and_iff_right ⟨rfl, rfl⟩), hread⟩
  · exact .inr ⟨hmany, hread⟩

end Layout

end HaskellStyle
