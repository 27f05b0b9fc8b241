import HaskellStyle.Proofs.Block.Laid
import Mathlib.Data.List.Induction

/-!
This module contains that reading keeps to the layout rule. An open block keeps to it with the items that it has so far,
knows the brackets and the `if`s that are open in its item, and is opened by the last token of the block around it. Ending
a block, beginning an item and adding a token keep this, so every block that is read keeps to the rule, and every item of
the body closes the brackets that its own tokens open. Where all nested items close their brackets, those that are open
behind an item of the body are those that its own tokens leave open, and there are none.
-/

namespace HaskellStyle

namespace Layout

/--
What an open item knows of its segments if `following` comes next.
-/
structure OpenItem.Tracks (following : Token) (item : OpenItem) : Prop where
  thens : item.pending.thens = openIfs "then" following item.run.segments.reverse
  elses : item.pending.elses = openIfs "else" following item.run.segments.reverse
  brackets : item.brackets = openBrackets item.run.segments

/--
What holds of an open block if `following` comes next. The items of the outermost block are not aligned, but closed.
-/
structure OpenBlock.Laid (following : Token) (block : OpenBlock) : Prop where
  tracks : block.item.Tracks following
  blocks : ∀ run ∈ block.items, ∀ b ∈ run.blocks, ∀ c ∈ b.nested, c.Laid
  items : ∀ kind opener, block.opening = some (kind, opener) → Layout.Laid kind block.column block.items
  closed : block.opening = none → ∀ run ∈ block.finished, openBrackets run.segments = []

/--
The first token of an open block.
-/
def OpenBlock.firstToken (block : OpenBlock) : Token :=
  (block.finished.map Run.first).getLastD block.item.first

/--
Open blocks, each of which is opened in the item of the block around it.
-/
inductive Nested : Token → OpenBlock → List OpenBlock → Prop where
  | outermost {following : Token} {block : OpenBlock} (hlaid : block.Laid following) (hopening : block.opening = none) :
    Nested following block []
  | inner {following opener : Token} {kind : BlockKind} {block parent : OpenBlock} {outer : List OpenBlock}
    (hlaid : block.Laid following) (hopening : block.opening = some (kind, opener))
    (hopens : Opens parent.column parent.item.run.segments kind opener block.firstToken)
    (hparent : Nested block.firstToken parent outer) : Nested following block (parent :: outer)

/--
The items of a body: their brackets are closed, and the blocks in them keep to the layout rule.
-/
def BodyLaid (items : List (Run Block)) : Prop :=
  ∀ run ∈ items, openBrackets run.segments = [] ∧ ∀ b ∈ run.blocks, ∀ c ∈ b.nested, c.Laid

theorem isKeyword_of_ne {t : Token} {a b : String} (h : t.isKeyword [a]) (hne : a ≠ b) : t.isKeyword [b] = false := by
  simp only [Token.isKeyword, List.contains_iff_mem, List.mem_singleton, Bool.and_eq_true, decide_eq_true_eq] at h
  simp [Token.isKeyword, h.2, hne]

theorem thens_count (pending : Pending) (previous : Option Token) (t following : Token) :
    (pending.count previous t following).thens =
      if t.isKeyword ["if"] then
        if following.isReservedOp ["|"] then pending.thens else pending.thens + 1
      else if t.isKeyword ["then"] then
        pending.thens - 1
      else
        pending.thens := by
  unfold Pending.count
  split
  · split <;> rfl
  · split
    · rfl
    · split
      · rfl
      · split
        · split <;> rfl
        · split
          · rfl
          · split <;> rfl

theorem elses_count (pending : Pending) (previous : Option Token) (t following : Token) :
    (pending.count previous t following).elses =
      if t.isKeyword ["if"] then
        if following.isReservedOp ["|"] then pending.elses else pending.elses + 1
      else if t.isKeyword ["else"] then
        pending.elses - 1
      else
        pending.elses := by
  unfold Pending.count
  split
  · split <;> rfl
  · split
    · next hthen =>
      rw [isKeyword_of_ne hthen (by decide)]
      rfl
    · split
      · rfl
      · split
        · split <;> rfl
        · split
          · rfl
          · split <;> rfl

theorem openBrackets_concat_token (before : List (Segment Block)) (t : Token) :
    openBrackets (before ++ [.token t]) = countBracket (openBrackets before) t := by
  rw [openBrackets, Segment.topTokens, List.filterMap_append, List.foldl_append]
  rfl

theorem openBrackets_concat_block (before : List (Segment Block)) (b : Block) :
    openBrackets (before ++ [.block b]) = openBrackets before := by
  rw [openBrackets, Segment.topTokens, List.filterMap_append, List.foldl_append]
  rfl

namespace OpenItem

variable {item : OpenItem} {t following : Token}

theorem run_push (item : OpenItem) (t following : Token) :
    (item.push t following).run = ⟨item.run.first, item.run.rest ++ [.token t]⟩ :=
  congrArg (Run.mk item.first) List.reverse_cons

theorem run_pushBlock (item : OpenItem) (b : Block) (last : Token) :
    (item.pushBlock b last).run = ⟨item.run.first, item.run.rest ++ [.block b]⟩ :=
  congrArg (Run.mk item.first) List.reverse_cons

theorem segments_push (item : OpenItem) (t following : Token) :
    (item.push t following).run.segments = item.run.segments ++ [.token t] := by
  rw [run_push, Run.segments, Run.segments, List.cons_append]

theorem segments_pushBlock (item : OpenItem) (b : Block) (last : Token) :
    (item.pushBlock b last).run.segments = item.run.segments ++ [.block b] := by
  rw [run_pushBlock, Run.segments, Run.segments, List.cons_append]

theorem tracks_start (t following : Token) : (start t following).Tracks following where
  thens := thens_count {} none t following
  elses := elses_count {} none t following
  brackets := rfl

theorem Tracks.push (h : item.Tracks t) (following : Token) : (item.push t following).Tracks following where
  thens := by
    rw [segments_push, List.reverse_append, List.reverse_singleton, List.singleton_append, openIfs, ← h.thens]
    exact thens_count _ _ t following
  elses := by
    rw [segments_push, List.reverse_append, List.reverse_singleton, List.singleton_append, openIfs, ← h.elses]
    exact elses_count _ _ t following
  brackets := by
    rw [segments_push, openBrackets_concat_token, ← h.brackets]
    rfl

theorem Tracks.pushBlock {b : Block} (h : item.Tracks b.firstToken) (last following : Token) :
    (item.pushBlock b last).Tracks following where
  thens := by
    rw [segments_pushBlock, List.reverse_append, List.reverse_singleton, List.singleton_append, openIfs, ← h.thens]
    unfold OpenItem.pushBlock
    dsimp only
    split <;> rfl
  elses := by
    rw [segments_pushBlock, List.reverse_append, List.reverse_singleton, List.singleton_append, openIfs, ← h.elses]
    unfold OpenItem.pushBlock
    dsimp only
    split <;> rfl
  brackets := by
    rw [segments_pushBlock, openBrackets_concat_block, ← h.brackets]
    rfl

theorem requireClosed_eq_ok (h : item.requireClosed = .ok ()) : item.brackets = [] := by
  unfold requireClosed at h
  split at h
  · next hbrackets => exact hbrackets
  · cases h

end OpenItem

namespace OpenBlock

variable {block : OpenBlock} {kind : BlockKind} {opener t following : Token}

theorem forall_mem_items {P : Run Block → Prop} :
    (∀ run ∈ block.items, P run) ↔ (∀ run ∈ block.finished, P run) ∧ P block.item.run := by
  rw [items_eq, List.forall_mem_append, List.forall_mem_singleton]
  simp only [List.mem_reverse]

theorem firstToken_nextItem (block : OpenBlock) (t following : Token) :
    (block.nextItem t following).firstToken = block.firstToken := by
  rw [firstToken, nextItem, List.map_cons, List.getLastD_cons]
  rfl

/--
A block that is finished begins with the first token of the open block.
-/
theorem firstToken_mk (block : OpenBlock) (kind : BlockKind) (opener : Token) (column : Int) :
    (Block.mk kind opener column block.items).firstToken = block.firstToken := by
  rw [Block.firstToken, Block.tokens_mk, items_eq, firstToken]
  rcases List.eq_nil_or_concat block.finished with hfinished | ⟨later, first, hfinished⟩
  · rw [hfinished]
    rfl
  · rw [hfinished, List.concat_eq_append, List.reverse_append, List.map_append, List.getLastD_eq_getLast?,
      List.map_singleton, List.getLast?_concat]
    rfl

theorem laid_start (hclosing : t.isClosing = false) (kind : BlockKind) (opener following : Token) :
    OpenBlock.Laid following ⟨some (kind, opener), t.column, [], .start t following⟩ where
  tracks := OpenItem.tracks_start t following
  blocks run hrun b hb := by
    rw [List.mem_singleton.1 hrun] at hb
    cases hb
  items kind' opener' hopening := by
    obtain ⟨rfl, -⟩ := Prod.mk.inj (Option.some.inj hopening)
    exact Layout.Laid.start hclosing
  closed hopening := by cases hopening

theorem Laid.push (h : block.Laid t) (following : Token)
    (hfollows : ∀ kind opener, block.opening = some (kind, opener) →
      Follows kind block.column block.item.run.segments (.token t)) : (block.push t following).Laid following where
  tracks := h.tracks.push following
  blocks := by
    obtain ⟨hfinished, hitem⟩ := forall_mem_items.1 h.blocks
    refine forall_mem_items.2 ⟨hfinished, ?_⟩
    rw [OpenBlock.push, OpenItem.blocks_push]
    exact hitem
  items kind opener hopening := by
    have hextend := h.items kind opener hopening
    rw [items_eq] at hextend ⊢
    rw [OpenBlock.push, OpenItem.run_push]
    exact hextend.extend (hfollows kind opener hopening)
  closed := h.closed

theorem Laid.nextItem (h : block.Laid t) (following : Token)
    (hnext : ∀ kind opener, block.opening = some (kind, opener) →
      t.lineStart ∧ t.column = block.column ∧ endsBlock t = false)
    (hclosed : block.opening = none → block.item.brackets = []) : (block.nextItem t following).Laid following where
  tracks := OpenItem.tracks_start t following
  blocks := by
    obtain ⟨hfinished, hitem⟩ := forall_mem_items.1 h.blocks
    refine forall_mem_items.2 ⟨List.forall_mem_cons.2 ⟨hitem, hfinished⟩, ?_⟩
    intro b hb
    cases hb
  items kind opener hopening := by
    obtain ⟨hline, hcolumn, hends⟩ := hnext kind opener hopening
    rw [items_eq]
    exact (h.items kind opener hopening).next hline hcolumn hends
  closed hopening := by
    refine List.forall_mem_cons.2 ⟨?_, h.closed hopening⟩
    rw [← h.tracks.brackets]
    exact hclosed hopening

/--
A block more in the current item.
-/
theorem Laid.pushBlock {b : Block} (h : block.Laid b.firstToken) (hnested : ∀ c ∈ b.nested, c.Laid)
    (hopens : Opens block.column block.item.run.segments b.kind b.opener b.firstToken) (last following : Token) :
    OpenBlock.Laid following { block with item := block.item.pushBlock b last } where
  tracks := h.tracks.pushBlock last following
  blocks := by
    obtain ⟨hfinished, hitem⟩ := forall_mem_items.1 h.blocks
    refine forall_mem_items.2 ⟨hfinished, ?_⟩
    rw [OpenItem.blocks_pushBlock, List.forall_mem_append, List.forall_mem_singleton]
    exact ⟨hitem, hnested⟩
  items kind opener hopening := by
    have hextend := h.items kind opener hopening
    rw [items_eq] at hextend ⊢
    rw [OpenItem.run_pushBlock]
    exact hextend.extend hopens
  closed := h.closed

/--
A block that is finished becomes a segment of the block around it.
-/
theorem Laid.close {outer inner : OpenBlock} (houter : outer.Laid inner.firstToken) (hinner : inner.Laid following)
    (hopening : inner.opening = some (kind, opener))
    (hopens : Opens outer.column outer.item.run.segments kind opener inner.firstToken) :
    (outer.close inner).Laid following := by
  rw [← firstToken_mk inner kind opener inner.column] at houter hopens
  rw [OpenBlock.close, hopening]
  exact houter.pushBlock (Block.forall_mem_nested.2 ⟨hinner.items kind opener hopening, hinner.blocks⟩) hopens _ _

/--
A token that continues an item of a nested block does so by the layout rule.
-/
theorem follows_of_roleOf (h : block.Laid t) (hopening : block.opening = some (kind, opener))
    (hrole : block.roleOf t = .ok .continues) : Follows kind block.column block.item.run.segments (.token t) := by
  unfold roleOf at hrole
  rw [hopening] at hrole
  dsimp only at hrole
  split at hrole
  · split at hrole <;> cases hrole
  · next hplace =>
    split at hrole
    · cases hrole
    · next hends =>
      constructor
      · intro hline
        by_cases hcolumn : t.column ≤ block.column
        · right
          simp only [hline, hcolumn, true_and, Bool.not_eq_true', Bool.not_eq_false, Bool.and_eq_true, Bool.or_eq_true,
            decide_eq_true_eq] at hplace
          obtain ⟨⟨hkind, hsame⟩, hif⟩ := hplace
          refine ⟨hkind, hsame, ?_⟩
          rcases hif with ⟨hthen, hpending⟩ | ⟨helse, hpending⟩
          · exact ⟨"then", by simp, hthen, h.tracks.thens ▸ hpending⟩
          · exact ⟨"else", by simp, helse, h.tracks.elses ▸ hpending⟩
        · exact .inl (Int.not_le.1 hcolumn)
      · intro hclosing hbrackets
        refine hends ?_
        rw [h.tracks.brackets, hbrackets, endsItem, hclosing]
        rfl

theorem next_of_roleOf (hopening : block.opening = some (kind, opener)) (hrole : block.roleOf t = .ok .beginsItem) :
    t.lineStart ∧ t.column = block.column ∧ endsBlock t = false := by
  unfold roleOf at hrole
  rw [hopening] at hrole
  dsimp only at hrole
  split at hrole
  · next hplace =>
    split at hrole
    · cases hrole
    · next hends =>
      simp only [Bool.or_eq_true, decide_eq_true_eq, not_or, Bool.not_eq_true] at hends
      exact ⟨hplace.1, Int.le_antisymm hplace.2.1 (Int.not_lt.1 hends.1), hends.2⟩
  · split at hrole <;> cases hrole

theorem brackets_of_roleOf (hopening : block.opening = none) (hrole : block.roleOf t = .ok .beginsItem) :
    block.item.brackets = [] := by
  unfold roleOf at hrole
  rw [hopening] at hrole
  dsimp only at hrole
  split at hrole
  · cases hclosed : block.item.requireClosed with
    | error failure =>
      rw [hclosed] at hrole
      cases hrole
    | ok u => exact OpenItem.requireClosed_eq_ok hclosed
  · cases hrole

theorem roleOf_outermost (hopening : block.opening = none) : block.roleOf t ≠ .ok .closesBlock := by
  unfold roleOf
  rw [hopening]
  dsimp only
  split
  · cases block.item.requireClosed <;> simp [bind, Except.bind, pure, Except.pure]
  · simp

end OpenBlock

namespace Nested

variable {block : OpenBlock} {outer : List OpenBlock} {t following : Token}

theorem laid (h : Nested t block outer) : block.Laid t := by
  cases h with
  | outermost hlaid _ => exact hlaid
  | inner hlaid _ _ _ => exact hlaid

/--
The innermost block may be replaced by one that was opened in the same way.
-/
theorem replace {block' : OpenBlock} (h : Nested t block outer) (hlaid : block'.Laid following)
    (hopening : block'.opening = block.opening) (hfirst : block'.firstToken = block.firstToken) :
    Nested following block' outer := by
  cases h with
  | outermost _ hopened => exact .outermost hlaid (hopening.trans hopened)
  | inner _ hopened hopens hparent =>
    rw [← hfirst] at hopens hparent
    exact .inner hlaid (hopening.trans hopened) hopens hparent

/--
Finishing the innermost block leaves the others nested.
-/
theorem close {parent : OpenBlock} (h : Nested t block (parent :: outer)) : Nested t (parent.close block) outer := by
  cases h with
  | inner hlaid hopening hopens hparent =>
    refine hparent.replace (hparent.laid.close hlaid hopening hopens) ?_ ?_
    · rw [OpenBlock.close, hopening]
    · rw [OpenBlock.close, hopening]
      rfl

theorem push (h : Nested t block outer) (hrole : block.roleOf t = .ok .continues) (following : Token) :
    Nested following (block.push t following) outer :=
  h.replace (h.laid.push following fun _ _ hopening => OpenBlock.follows_of_roleOf h.laid hopening hrole) rfl rfl

theorem nextItem (h : Nested t block outer) (hrole : block.roleOf t = .ok .beginsItem) (following : Token) :
    Nested following (block.nextItem t following) outer :=
  h.replace (h.laid.nextItem following (fun _ _ hopening => OpenBlock.next_of_roleOf hopening hrole)
    fun hopening => OpenBlock.brackets_of_roleOf hopening hrole) rfl (OpenBlock.firstToken_nextItem block t following)

end Nested

/--
The last segment of the current item is the token that was read last.
-/
def OpenBlock.EndsWithToken (block : OpenBlock) : Prop :=
  block.item.run.segments.getLast? = some (.token block.item.last)

theorem OpenBlock.endsWithToken_push (block : OpenBlock) (t following : Token) :
    (block.push t following).EndsWithToken := by
  rw [EndsWithToken, OpenBlock.push, OpenItem.segments_push, List.getLast?_concat]
  rfl

variable {block : OpenBlock} {outer : List OpenBlock}

/--
Placing a token keeps the open blocks nested, and ends with that token.
-/
theorem nested_place {t following : Token} {block' : OpenBlock} {outer' : List OpenBlock} (h : Nested t block outer)
    (hplace : place t following block outer = .ok (block', outer')) :
    Nested following block' outer' ∧ block'.EndsWithToken := by
  obtain ⟨taker, others, htaker, hcloses, heq⟩ := place_eq (fun _ _ _ => Nested.close) t h
  rw [heq t following fun _ => rfl] at hplace
  cases hrole : taker.roleOf t with
  | error failure =>
    rw [hrole] at hplace
    cases hplace
  | ok role =>
    rw [hrole] at hplace
    cases role with
    | continues =>
      cases hplace
      exact ⟨htaker.push hrole following, taker.endsWithToken_push t following⟩
    | beginsItem =>
      cases hplace
      exact ⟨htaker.nextItem hrole following, rfl⟩
    | closesBlock =>
      -- Only the outermost block could take the token now, and that one is never closed.
      rw [hcloses hrole] at htaker
      cases htaker with
      | outermost _ hopening => exact absurd hrole (OpenBlock.roleOf_outermost hopening)

theorem opens_of_awaitedKind {kind : BlockKind} {t : Token} (hends : block.EndsWithToken)
    (hawaited : block.awaitedKind t = some kind) :
    Opens block.column block.item.run.segments kind block.item.last t := by
  unfold OpenBlock.awaitedKind at hawaited
  split at hawaited
  · next hkind =>
    split at hawaited
    · cases hawaited
    · next hfollows =>
      cases hawaited
      exact ⟨hends, ⟨_, _, hkind⟩, Bool.eq_false_iff.2 hfollows⟩
  · cases hawaited

theorem isClosing_of_opensNothing {t : Token} {column : Int} (h : opensNothing t column = false) :
    t.isClosing = false := by
  simp only [opensNothing, Bool.or_eq_false_iff] at h
  exact h.1.1.2

theorem nested_openBlock {kind : BlockKind} {t : Token} (h : Nested t block outer) (hends : block.EndsWithToken)
    (hawaited : block.awaitedKind t = some kind) (following : Token) :
    Nested following ⟨some (kind, block.item.last), t.column, [], .start t following⟩ (block :: outer) := by
  have hopens := opens_of_awaitedKind hends hawaited
  have hclosing := isClosing_of_opensNothing hopens.follows
  exact .inner (OpenBlock.laid_start hclosing kind block.item.last following) rfl hopens h

theorem requireClosed_bind_eq_ok {α : Type} {item : OpenItem} {f : Unit → Except Failure α} {a : α}
    (h : item.requireClosed >>= f = .ok a) : item.brackets = [] ∧ f () = .ok a := by
  cases hclosed : item.requireClosed with
  | error failure =>
    rw [hclosed] at h
    cases h
  | ok u =>
    rw [hclosed] at h
    exact ⟨OpenItem.requireClosed_eq_ok hclosed, h⟩

theorem bodyLaid_finish {t : Token} {items : List (Run Block)} (h : Nested t block outer)
    (hfinish : finish block outer = .ok items) : BodyLaid items := by
  induction outer generalizing block with
  | nil =>
    rw [finish] at hfinish
    obtain ⟨hbrackets, hitems⟩ := requireClosed_bind_eq_ok hfinish
    cases hitems
    cases h with
    | outermost hlaid hopening =>
      obtain ⟨hfinished, hitem⟩ := OpenBlock.forall_mem_items.1 hlaid.blocks
      refine OpenBlock.forall_mem_items.2 ⟨?_, ?_, hitem⟩
      · exact fun run hrun => ⟨hlaid.closed hopening run hrun, hfinished run hrun⟩
      · rw [← hlaid.tracks.brackets, hbrackets]
  | cons parent others ih =>
    rw [finish] at hfinish
    exact ih h.close (requireClosed_bind_eq_ok hfinish).2

theorem bodyLaid_readRest {eof : Token} {ts : List Token} {items : List (Run Block)}
    (h : Nested (ts.headD eof) block outer) (hends : block.EndsWithToken)
    (hread : readRest eof (block.awaitedKind (ts.headD eof)) block outer ts = .ok items) : BodyLaid items := by
  induction ts generalizing block outer with
  | nil => exact bodyLaid_finish h hread
  | cons t more ih =>
    unfold readRest at hread
    cases hawaited : block.awaitedKind t with
    | some kind =>
      rw [List.headD_cons, hawaited] at hread
      dsimp only at hread
      unfold openBlock at hread
      split at hread
      · cases hread
      · exact ih (nested_openBlock h hends hawaited _) rfl hread
    | none =>
      rw [List.headD_cons, hawaited] at hread
      dsimp only at hread
      cases hplace : place t (more.headD eof) block outer with
      | error failure =>
        rw [hplace] at hread
        cases hread
      | ok placed =>
        rw [hplace] at hread
        obtain ⟨hnested, hplaced⟩ := nested_place h hplace
        exact ih hnested hplaced hread

/--
Whatever is read keeps to the layout rule.
-/
theorem bodyLaid_read {eof : Token} {ts : List Token} {items : List (Run Block)} (h : read eof ts = .ok items) :
    BodyLaid items := by
  cases ts with
  | nil =>
    cases h
    intro run hrun
    cases hrun
  | cons t more =>
    rw [read] at h
    have hends : OpenBlock.EndsWithToken ⟨none, t.column, [], .start t (more.headD eof)⟩ := rfl
    refine bodyLaid_readRest (.outermost ?_ rfl) hends h
    constructor
    case tracks => exact OpenItem.tracks_start t _
    case blocks =>
      intro run hrun b hb
      rw [List.mem_singleton.1 hrun] at hb
      cases hb
    case items =>
      intro kind opener hopening
      cases hopening
    case closed =>
      intro _ run hrun
      cases hrun

end Layout

/--
Tokens behind which no bracket is open that one of them opened. A closing bracket without an opening one is skipped.
-/
def ClosesBrackets (ts : List Token) : Prop :=
  ts.foldl Layout.countBracket [] = []

namespace Layout

/--
Tokens that leave the open brackets around them as they are.
-/
def KeepsBrackets (ts : List Token) : Prop :=
  ∀ brackets, ts.foldl countBracket brackets = brackets

theorem keepsBrackets_flatMap {α : Type} {f : α → List Token} {xs : List α} (h : ∀ x ∈ xs, KeepsBrackets (f x)) :
    KeepsBrackets (xs.flatMap f) := by
  intro brackets
  induction xs with
  | nil => rfl
  | cons x xs ih =>
    rw [List.forall_mem_cons] at h
    rw [List.flatMap_cons, List.foldl_append, h.1, ih h.2]

/--
A token that closes no bracket of those around it changes nothing about them.
-/
theorem countBracket_append {brackets : List Token} {t : Token} (h : t.isClosing → brackets ≠ [])
    (around : List Token) : countBracket (brackets ++ around) t = countBracket brackets t ++ around := by
  unfold countBracket
  split
  · rfl
  · split
    · next hclosing =>
      obtain ⟨bracket, more, rfl⟩ := List.exists_cons_of_ne_nil (h hclosing)
      rfl
    · rfl

/--
Blocks that keep the brackets do not count.
-/
theorem foldl_tokens (segments : List (Segment Block)) (h : ∀ b ∈ Segment.blocks segments, KeepsBrackets b.tokens)
    (brackets : List Token) : (Segment.tokens segments).foldl countBracket brackets
      = (Segment.topTokens segments).foldl countBracket brackets := by
  induction segments generalizing brackets with
  | nil => rfl
  | cons segment segments ih =>
    cases segment with
    | token t => exact ih h (countBracket brackets t)
    | block b =>
      rw [Segment.blocks_block, List.forall_mem_cons] at h
      rw [Segment.tokens, Segment.tokensWith_block, List.foldl_append, h.1]
      exact ih h.2 brackets

variable {kind : BlockKind} {column : Int} {items : List (Run Block)} {run : Run Block}

/--
From the beginning of an item of a nested block to any place in it, its own tokens leave the brackets around it as they
are.
-/
theorem Laid.foldl_topTokens (h : Laid kind column items) (hrun : run ∈ items) {before after : List (Segment Block)}
    (hsegments : run.segments = before ++ after) (around : List Token) :
    (Segment.topTokens before).foldl countBracket around = openBrackets before ++ around := by
  induction before using List.reverseRecOn generalizing after with
  | nil => rfl
  | append_singleton before segment ih =>
    rw [List.append_assoc, List.singleton_append] at hsegments
    have hbefore := ih hsegments
    cases segment with
    | token t =>
      have hclosing : t.isClosing → openBrackets before ≠ [] := by
        cases before with
        | nil =>
          intro hclosing
          obtain ⟨hfirst, -⟩ := List.cons.inj hsegments
          cases hfirst
          rw [(h.begins run hrun).2] at hclosing
          cases hclosing
        | cons first earlier =>
          obtain ⟨rfl, hrest⟩ := List.cons.inj hsegments
          exact (h.follows run hrun earlier _ after hrest).2
      rw [openBrackets_concat_token, Segment.topTokens, List.filterMap_append, List.foldl_append]
      exact (congrArg (countBracket · t) hbefore).trans (countBracket_append hclosing around)
    | block b =>
      rw [openBrackets_concat_block, Segment.topTokens, List.filterMap_append, List.foldl_append]
      exact hbefore

theorem Laid.keepsBrackets (h : Laid kind column items) (hrun : run ∈ items)
    (hblocks : ∀ b ∈ run.blocks, KeepsBrackets b.tokens) (hcloses : ClosesBrackets (tokens run)) :
    KeepsBrackets (tokens run) := by
  have htokens (around : List Token) : (tokens run).foldl countBracket around = openBrackets run.segments ++ around :=
    (foldl_tokens run.segments hblocks around).trans (h.foldl_topTokens hrun (List.append_nil _).symm around)
  intro around
  rw [ClosesBrackets, htokens, List.append_nil] at hcloses
  rw [htokens, hcloses, List.nil_append]

/--
A block whose items close their brackets, and in which the items of all blocks do, keeps the brackets around it.
-/
theorem keepsBrackets_block {b : Block} (hlaid : ∀ c ∈ b.nested, c.Laid)
    (hcloses : ∀ c ∈ b.nested, ∀ run ∈ c.items, ClosesBrackets (tokens run)) : KeepsBrackets b.tokens := by
  induction b using Block.forall_of_items with
  | h kind opener column items ih =>
    rw [Block.forall_mem_nested] at hlaid hcloses
    rw [Block.tokens_eq]
    refine keepsBrackets_flatMap fun run hrun => hlaid.1.keepsBrackets hrun ?_ (hcloses.1 run hrun)
    intro b hb
    exact ih run hrun b hb (hlaid.2 run hrun b hb) (hcloses.2 run hrun b hb)

/--
An item of a body closes its brackets if the items of the blocks in it do.
-/
theorem BodyLaid.closesBrackets (h : BodyLaid items) (hrun : run ∈ items)
    (hcloses : ∀ b ∈ run.blocks, ∀ c ∈ b.nested, ∀ inner ∈ c.items, ClosesBrackets (tokens inner)) :
    ClosesBrackets (tokens run) := by
  obtain ⟨hopen, hlaid⟩ := h run hrun
  have hblocks : ∀ b ∈ run.blocks, KeepsBrackets b.tokens :=
    fun b hb => keepsBrackets_block (hlaid b hb) (hcloses b hb)
  exact (foldl_tokens run.segments hblocks []).trans hopen

end Layout

end HaskellStyle
