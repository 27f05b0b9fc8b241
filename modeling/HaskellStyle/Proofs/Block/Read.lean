import HaskellStyle.Declaration.Top

/-!
This module contains what the layout rule keeps. The tokens of the open blocks, from the outermost to the innermost,
are the tokens read so far; every block that is finished has items; and a bracket that is never closed is one of the
tokens read. One token at a time keeps this, so the items of a body are made of its tokens, each once and in order.
-/

namespace HaskellStyle

namespace Segment

variable {β γ : Type}

@[simp]
theorem tokensWith_nil (f : β → List Token) : tokensWith f [] = [] :=
  rfl

@[simp]
theorem tokensWith_token (f : β → List Token) (t : Token) (segments : List (Segment β)) :
    tokensWith f (.token t :: segments) = t :: tokensWith f segments :=
  rfl

@[simp]
theorem tokensWith_block (f : β → List Token) (b : β) (segments : List (Segment β)) :
    tokensWith f (.block b :: segments) = f b ++ tokensWith f segments :=
  rfl

@[simp]
theorem tokensWith_append (f : β → List Token) (xs ys : List (Segment β)) :
    tokensWith f (xs ++ ys) = tokensWith f xs ++ tokensWith f ys :=
  List.flatMap_append

@[simp]
theorem blocks_nil : blocks ([] : List (Segment β)) = [] :=
  rfl

@[simp]
theorem blocks_token (t : Token) (segments : List (Segment β)) : blocks (.token t :: segments) = blocks segments :=
  rfl

@[simp]
theorem blocks_block (b : β) (segments : List (Segment β)) : blocks (.block b :: segments) = b :: blocks segments :=
  rfl

@[simp]
theorem blocks_append (xs ys : List (Segment β)) : blocks (xs ++ ys) = blocks xs ++ blocks ys :=
  List.filterMap_append

@[simp]
theorem tokensWith_map (f : γ → List Token) (g : β → γ) (segments : List (Segment β)) :
    tokensWith f (segments.map (Segment.map g)) = tokensWith (f ∘ g) segments := by
  induction segments with
  | nil => rfl
  | cons segment segments ih => cases segment <;> simp [Segment.map, ih]

@[simp]
theorem blocks_map (g : β → γ) (segments : List (Segment β)) :
    blocks (segments.map (Segment.map g)) = (blocks segments).map g := by
  induction segments with
  | nil => rfl
  | cons segment segments ih => cases segment <;> simp [Segment.map, ih]

theorem tokensWith_map_token (f : β → List Token) (ts : List Token) : tokensWith f (ts.map .token) = ts := by
  induction ts with
  | nil => rfl
  | cons t ts ih => rw [List.map_cons, tokensWith_token, ih]

theorem blocks_map_token (ts : List Token) : blocks (ts.map (.token : Token → Segment β)) = [] := by
  induction ts with
  | nil => rfl
  | cons t ts ih => rw [List.map_cons, blocks_token, ih]

theorem infix_tokensWith (f : β → List Token) {segments : List (Segment β)} {b : β} (hb : b ∈ blocks segments) :
    f b <:+: tokensWith f segments := by
  induction segments with
  | nil => cases hb
  | cons segment segments ih =>
    cases segment with
    | token t => exact (ih hb).trans (List.suffix_cons t _).isInfix
    | block b' =>
      rcases List.mem_cons.1 hb with rfl | hb
      · exact (List.prefix_append _ _).isInfix
      · exact (ih hb).trans (List.suffix_append _ _).isInfix

end Segment

namespace Block

theorem foldSegments_eq {α : Type} (f : Block → List (Run (Block × α)) → α) (segments : List (Segment Block)) :
    foldSegments f segments = segments.map (Segment.map fun b => (b, b.fold f)) := by
  induction segments with
  | nil => rfl
  | cons segment segments ih => cases segment <;> simp [foldSegments, Segment.map, ih]

theorem foldItems_eq {α : Type} (f : Block → List (Run (Block × α)) → α) (items : List (Run Block)) :
    foldItems f items = items.map fun run => ⟨run.first, run.rest.map (Segment.map fun b => (b, b.fold f))⟩ := by
  induction items with
  | nil => rfl
  | cons run items ih => simp [foldItems, foldSegments_eq, ih]

theorem tokens_mk (kind : BlockKind) (opener : Token) (column : Int) (items : List (Run Block)) :
    (Block.mk kind opener column items).tokens = items.flatMap HaskellStyle.tokens := by
  rw [Block.tokens, Block.fold, foldItems_eq, List.flatMap_map]
  refine congrArg (List.flatMap · items) (funext fun run => ?_)
  exact congrArg (run.first :: ·) (Segment.tokensWith_map Prod.snd _ run.rest)

/--
Blocks that have items, and in which all blocks have items.
-/
inductive Proper : Block → Prop where
  | mk {kind : BlockKind} {opener : Token} {column : Int} {items : List (Run Block)} (hitems : items ≠ [])
    (hblocks : ∀ run ∈ items, ∀ b ∈ run.blocks, b.Proper) : Proper (.mk kind opener column items)

end Block

/--
A failure found at one of several tokens, or at the start of the text.
-/
def Failure.FoundAt (ts : List Token) (failure : Failure) : Prop :=
  failure.offset = 0 ∨ ∃ t ∈ ts, failure.offset = t.offset

namespace Layout

/--
The tokens of an open block.
-/
def OpenBlock.tokens (block : OpenBlock) : List Token :=
  block.items.flatMap HaskellStyle.tokens

/--
What holds of an open block once the tokens `seen` are read: the blocks in it are proper, and its open brackets have
been read.
-/
structure OpenBlock.Sound (seen : List Token) (block : OpenBlock) : Prop where
  proper : ∀ run ∈ block.items, ∀ b ∈ run.blocks, b.Proper
  brackets : ∀ bracket ∈ block.item.brackets, bracket ∈ seen

/--
What holds of the open blocks once the tokens `seen` are read. All but the outermost belong to a keyword.
-/
structure Stack (seen : List Token) (block : OpenBlock) (outer : List OpenBlock) : Prop where
  tokens : (block :: outer).reverse.flatMap OpenBlock.tokens = seen
  opening : ∀ b ∈ (block :: outer).dropLast, b.opening.isSome
  sound : ∀ b ∈ block :: outer, b.Sound seen

/--
The items that reading `ts` gives are made of `ts`, and a failure is found at one of them.
-/
def Reads (ts : List Token) : Except Failure (List (Run Block)) → Prop
  | .ok items => items.flatMap tokens = ts ∧ ∀ run ∈ items, ∀ b ∈ run.blocks, b.Proper
  | .error failure => failure.FoundAt ts

theorem mem_countBracket {brackets : List Token} {t bracket : Token} (h : bracket ∈ countBracket brackets t) :
    bracket ∈ brackets ∨ bracket = t := by
  unfold countBracket at h
  split at h
  · exact (List.mem_cons.1 h).symm
  · split at h
    · exact .inl (List.mem_of_mem_drop h)
    · exact .inl h

theorem OpenBlock.items_eq (block : OpenBlock) : block.items = block.finished.reverse ++ [block.item.run] := by
  rw [items, List.reverse_cons]

theorem OpenBlock.tokens_eq (block : OpenBlock) :
    block.tokens = block.finished.reverse.flatMap HaskellStyle.tokens ++ HaskellStyle.tokens block.item.run := by
  rw [tokens, items_eq, List.flatMap_append, List.flatMap_singleton]

namespace OpenItem

theorem tokens_start (t following : Token) : tokens (start t following).run = [t] :=
  rfl

theorem tokens_push (item : OpenItem) (t following : Token) :
    tokens (item.push t following).run = tokens item.run ++ [t] := by
  simp [tokens, run, push, Run.segments, Segment.tokens]

theorem tokens_pushBlock (item : OpenItem) (block : Block) (last : Token) :
    tokens (item.pushBlock block last).run = tokens item.run ++ block.tokens := by
  simp [tokens, run, pushBlock, Run.segments, Segment.tokens]

theorem blocks_push (item : OpenItem) (t following : Token) : (item.push t following).run.blocks = item.run.blocks := by
  simp [Run.blocks, run, push]

theorem blocks_pushBlock (item : OpenItem) (block : Block) (last : Token) :
    (item.pushBlock block last).run.blocks = item.run.blocks ++ [block] := by
  simp [Run.blocks, run, pushBlock]

theorem requireClosed_eq_error {item : OpenItem} {failure : Failure} (h : item.requireClosed = .error failure) :
    ∃ bracket ∈ item.brackets, failure.offset = bracket.offset := by
  unfold requireClosed at h
  split at h
  · cases h
  · next bracket more hbrackets =>
    cases h
    exact ⟨bracket, by rw [hbrackets]; exact List.mem_cons_self, rfl⟩

end OpenItem

namespace OpenBlock

variable {seen : List Token} {block inner : OpenBlock}

theorem tokens_push (block : OpenBlock) (t following : Token) :
    (block.push t following).tokens = block.tokens ++ [t] := by
  rw [tokens_eq, tokens_eq, List.append_assoc, ← OpenItem.tokens_push]
  rfl

theorem tokens_nextItem (block : OpenBlock) (t following : Token) :
    (block.nextItem t following).tokens = block.tokens ++ [t] := by
  rw [tokens_eq, tokens, items, ← OpenItem.tokens_start t following]
  rfl

/--
A nested block that is finished leaves its tokens to the block around it.
-/
theorem tokens_close (outer : OpenBlock) (h : inner.opening.isSome) :
    (outer.close inner).tokens = outer.tokens ++ inner.tokens := by
  obtain ⟨⟨kind, opener⟩, hopening⟩ := Option.isSome_iff_exists.1 h
  have hclose : outer.close inner = { outer with
      item := outer.item.pushBlock (.mk kind opener inner.column inner.items) inner.item.last } := by
    rw [close, hopening]
  rw [hclose, tokens_eq, OpenItem.tokens_pushBlock, Block.tokens_mk, tokens_eq outer, List.append_assoc]
  rfl

theorem Sound.mono (h : block.Sound seen) (t : Token) : block.Sound (seen ++ [t]) where
  proper := h.proper
  brackets bracket hbracket := List.mem_append_left _ (h.brackets bracket hbracket)

theorem Sound.push (h : block.Sound seen) (t following : Token) : (block.push t following).Sound (seen ++ [t]) where
  proper run hrun := by
    rw [items_eq] at hrun
    rcases List.mem_append.1 hrun with hrun | hrun
    · apply h.proper run
      rw [items_eq]
      exact List.mem_append_left _ hrun
    · rw [List.mem_singleton.1 hrun, OpenBlock.push, OpenItem.blocks_push]
      apply h.proper
      rw [items_eq]
      exact List.mem_append_right _ List.mem_cons_self
  brackets bracket hbracket := by
    rcases mem_countBracket hbracket with hbracket | rfl
    · exact List.mem_append_left _ (h.brackets bracket hbracket)
    · exact List.mem_append_right _ List.mem_cons_self

theorem Sound.nextItem (h : block.Sound seen) (t following : Token) :
    (block.nextItem t following).Sound (seen ++ [t]) where
  proper run hrun := by
    rw [items_eq] at hrun
    rcases List.mem_append.1 hrun with hrun | hrun
    · exact h.proper run hrun
    · rw [List.mem_singleton.1 hrun]
      intro b hb
      cases hb
  brackets bracket hbracket := by
    rcases mem_countBracket hbracket with hbracket | rfl
    · cases hbracket
    · exact List.mem_append_right _ List.mem_cons_self

theorem Sound.close {outer : OpenBlock} (houter : outer.Sound seen) (hinner : inner.Sound seen) :
    (outer.close inner).Sound seen := by
  unfold OpenBlock.close
  split
  · next kind opener hopening =>
    have hblock : (Block.mk kind opener inner.column inner.items).Proper := by
      apply Block.Proper.mk
      · rw [items_eq]
        exact List.append_ne_nil_of_right_ne_nil _ (List.cons_ne_nil _ _)
      · exact hinner.proper
    refine ⟨?_, houter.brackets⟩
    intro run hrun
    rw [items_eq] at hrun
    rcases List.mem_append.1 hrun with hrun | hrun
    · apply houter.proper run
      rw [items_eq]
      exact List.mem_append_left _ hrun
    · intro b hb
      rw [List.mem_singleton.1 hrun, OpenItem.blocks_pushBlock] at hb
      rcases List.mem_append.1 hb with hb | hb
      · refine houter.proper outer.item.run ?_ b hb
        rw [items_eq]
        exact List.mem_append_right _ List.mem_cons_self
      · rw [List.mem_singleton.1 hb]
        exact hblock
  · exact houter

theorem roleOf_eq_error {t : Token} {failure : Failure} (h : block.roleOf t = .error failure) :
    ∃ bracket ∈ block.item.brackets, failure.offset = bracket.offset := by
  unfold roleOf at h
  dsimp only at h
  split at h
  · split at h
    · cases hclosed : block.item.requireClosed with
      | ok u =>
        rw [hclosed] at h
        cases h
      | error e =>
        rw [hclosed] at h
        cases h
        exact OpenItem.requireClosed_eq_error hclosed
    · cases h
  · split at h
    · cases h
    · split at h <;> cases h

end OpenBlock

namespace Stack

variable {seen : List Token} {block : OpenBlock} {outer : List OpenBlock}

/--
Finishing the innermost block changes nothing about what was read.
-/
theorem close {parent : OpenBlock} (h : Stack seen block (parent :: outer)) : Stack seen (parent.close block) outer := by
  have hopening : block.opening.isSome := h.opening block (by simp)
  constructor
  case tokens =>
    rw [← h.tokens]
    simp only [List.reverse_cons, List.flatMap_append, List.flatMap_singleton, List.append_assoc]
    rw [OpenBlock.tokens_close parent hopening]
  case opening =>
    intro b hb
    have hparent : (parent.close block).opening = parent.opening := by
      unfold OpenBlock.close
      split <;> rfl
    cases outer with
    | nil => cases hb
    | cons next others =>
      rw [List.dropLast_cons_cons] at hb
      rcases List.mem_cons.1 hb with rfl | hb
      · rw [hparent]
        exact h.opening parent (by simp)
      · exact h.opening b (by simp [hb])
  case sound =>
    intro b hb
    rcases List.mem_cons.1 hb with rfl | hb
    · exact (h.sound parent (by simp)).close (h.sound block (by simp))
    · exact h.sound b (by simp [hb])

theorem extend {block' : OpenBlock} {t : Token} (h : Stack seen block outer)
    (htokens : block'.tokens = block.tokens ++ [t]) (hopening : block'.opening = block.opening)
    (hsound : block'.Sound (seen ++ [t])) : Stack (seen ++ [t]) block' outer := by
  constructor
  case tokens =>
    rw [← h.tokens]
    simp only [List.reverse_cons, List.flatMap_append, List.flatMap_singleton, List.append_assoc]
    rw [htokens]
  case opening =>
    intro b hb
    cases outer with
    | nil => cases hb
    | cons next others =>
      rw [List.dropLast_cons_cons] at hb
      rcases List.mem_cons.1 hb with rfl | hb
      · rw [hopening]
        exact h.opening block (by simp)
      · exact h.opening b (by simp [hb])
  case sound =>
    intro b hb
    rcases List.mem_cons.1 hb with rfl | hb
    · exact hsound
    · exact (h.sound b (List.mem_cons_of_mem _ hb)).mono t

theorem push (h : Stack seen block outer) (t following : Token) :
    Stack (seen ++ [t]) (block.push t following) outer :=
  h.extend (block.tokens_push t following) rfl ((h.sound block List.mem_cons_self).push t following)

theorem nextItem (h : Stack seen block outer) (t following : Token) :
    Stack (seen ++ [t]) (block.nextItem t following) outer :=
  h.extend (block.tokens_nextItem t following) rfl ((h.sound block List.mem_cons_self).nextItem t following)

/--
A failure at an open bracket is a failure at a token that was read.
-/
theorem reads_error (h : Stack seen block outer) {failure : Failure} (more : List Token)
    (hbracket : ∃ bracket ∈ block.item.brackets, failure.offset = bracket.offset) :
    Reads (seen ++ more) (.error failure) := by
  obtain ⟨bracket, hmem, hoffset⟩ := hbracket
  have hseen := (h.sound block List.mem_cons_self).brackets bracket hmem
  exact .inr ⟨bracket, List.mem_append_left _ hseen, hoffset⟩

end Stack

variable {seen : List Token} {block : OpenBlock} {outer : List OpenBlock}

theorem place_cons (t following : Token) (block parent : OpenBlock) (others : List OpenBlock) :
    place t following block (parent :: others) = (block.roleOf t).bind fun
      | .continues => .ok (block.push t following, parent :: others)
      | .beginsItem => .ok (block.nextItem t following, parent :: others)
      | .closesBlock => place t following (parent.close block) others := by
  rw [place]
  rfl

/--
A token ends blocks until one of the others takes it, and so does every token that has the same roles. What ending a
block keeps holds of the one that takes it and those around that one.
-/
theorem place_eq {P : OpenBlock → List OpenBlock → Prop}
    (hclose : ∀ block parent outer, P block (parent :: outer) → P (parent.close block) outer) (t : Token)
    (h : P block outer) :
    ∃ taker others, P taker others ∧ (taker.roleOf t = .ok .closesBlock → others = [])
      ∧ ∀ u following, (∀ b : OpenBlock, b.roleOf u = b.roleOf t) → place u following block outer
        = (taker.roleOf t).map fun role =>
          (if role = .beginsItem then taker.nextItem u following else taker.push u following, others) := by
  induction outer generalizing block with
  | nil =>
    refine ⟨block, [], h, fun _ => rfl, fun u following hu => ?_⟩
    rw [place, hu]
    cases block.roleOf t with
    | error failure => rfl
    | ok role => cases role <;> rfl
  | cons parent others ih =>
    cases hrole : block.roleOf t with
    | error failure =>
      refine ⟨block, parent :: others, h, by simp [hrole], fun u following hu => ?_⟩
      rw [place_cons, hu, hrole]
      rfl
    | ok role =>
      cases role with
      | continues | beginsItem =>
        refine ⟨block, parent :: others, h, by simp [hrole], fun u following hu => ?_⟩
        rw [place_cons, hu, hrole]
        rfl
      | closesBlock =>
        obtain ⟨taker, rest, htaker, hcloses, heq⟩ := ih (hclose block parent others h)
        refine ⟨taker, rest, htaker, hcloses, fun u following hu => ?_⟩
        rw [place_cons, hu, hrole, ← heq u following hu]
        rfl

/--
Placing a token keeps what was read and adds the token behind it.
-/
theorem place_stack (t following : Token) (h : Stack seen block outer) :
    (∃ block' outer', place t following block outer = .ok (block', outer') ∧ Stack (seen ++ [t]) block' outer')
      ∨ ∃ failure, place t following block outer = .error failure ∧ ∀ more, Reads (seen ++ more) (.error failure) := by
  obtain ⟨taker, others, htaker, -, hplace⟩ := place_eq (fun _ _ _ => Stack.close) t h
  rw [hplace t following fun _ => rfl]
  cases hrole : taker.roleOf t with
  | error failure => exact .inr ⟨failure, rfl, fun more => htaker.reads_error more (OpenBlock.roleOf_eq_error hrole)⟩
  | ok role =>
    cases role with
    | continues => exact .inl ⟨_, _, rfl, htaker.push t following⟩
    | beginsItem => exact .inl ⟨_, _, rfl, htaker.nextItem t following⟩
    | closesBlock => exact .inl ⟨_, _, rfl, htaker.push t following⟩

theorem stack_start (column : Int) (t following : Token) : Stack [t] ⟨none, column, [], .start t following⟩ [] := by
  constructor
  case tokens => rfl
  case opening =>
    intro b hb
    cases hb
  case sound =>
    intro b hb
    cases List.mem_singleton.1 hb
    constructor
    · intro run hrun b hb
      cases List.mem_singleton.1 hrun
      cases hb
    · intro bracket hbracket
      rcases mem_countBracket hbracket with hbracket | rfl
      · cases hbracket
      · exact List.mem_cons_self

theorem stack_openBlock (h : Stack seen block outer) (kind : BlockKind) (opener t following : Token) :
    Stack (seen ++ [t]) ⟨some (kind, opener), t.column, [], .start t following⟩ (block :: outer) := by
  constructor
  case tokens =>
    rw [List.reverse_cons, List.flatMap_append, h.tokens]
    rfl
  case opening =>
    intro b hb
    rw [List.dropLast_cons_cons] at hb
    rcases List.mem_cons.1 hb with rfl | hb
    · rfl
    · exact h.opening b hb
  case sound =>
    intro b hb
    rcases List.mem_cons.1 hb with rfl | hb
    · constructor
      · intro run hrun b hb
        cases List.mem_singleton.1 hrun
        cases hb
      · intro bracket hbracket
        rcases mem_countBracket hbracket with hbracket | rfl
        · cases hbracket
        · exact List.mem_append_right _ List.mem_cons_self
    · exact (h.sound b hb).mono t

theorem reads_finish (h : Stack seen block outer) : Reads seen (finish block outer) := by
  induction outer generalizing block with
  | nil =>
    rw [finish]
    cases hclosed : block.item.requireClosed with
    | error failure =>
      rw [← List.append_nil seen]
      exact h.reads_error [] (OpenItem.requireClosed_eq_error hclosed)
    | ok u =>
      refine ⟨?_, (h.sound block List.mem_cons_self).proper⟩
      rw [← h.tokens]
      simp [OpenBlock.tokens]
  | cons parent others ih =>
    rw [finish]
    cases hclosed : block.item.requireClosed with
    | error failure =>
      rw [← List.append_nil seen]
      exact h.reads_error [] (OpenItem.requireClosed_eq_error hclosed)
    | ok u => exact ih h.close

/--
What the next token does to the open blocks.
-/
theorem readRest_cons (eof : Token) (awaited : Option BlockKind) (block : OpenBlock) (outer : List OpenBlock)
    (t : Token) (more : List Token) :
    readRest eof awaited block outer (t :: more) = (match awaited with
      | some kind => openBlock kind t (more.headD eof) block outer
      | none => place t (more.headD eof) block outer) >>= fun stack =>
        readRest eof (stack.1.awaitedKind (more.headD eof)) stack.1 stack.2 more := by
  cases awaited <;> rfl

theorem reads_readRest (eof : Token) (awaited : Option BlockKind) (ts : List Token) (h : Stack seen block outer) :
    Reads (seen ++ ts) (readRest eof awaited block outer ts) := by
  induction ts generalizing seen awaited block outer with
  | nil =>
    rw [List.append_nil]
    exact reads_finish h
  | cons t more ih =>
    have hseen : seen ++ t :: more = (seen ++ [t]) ++ more := by simp
    unfold readRest
    cases awaited with
    | some kind =>
      dsimp only
      unfold openBlock
      split
      · exact .inl rfl
      · rw [hseen]
        exact ih _ (stack_openBlock h kind block.item.last t _)
    | none =>
      dsimp only
      rcases place_stack t (more.headD eof) h with ⟨block', outer', hplace, hstack⟩ | ⟨failure, hplace, hreads⟩
      · rw [hplace, hseen]
        exact ih _ hstack
      · rw [hplace]
        exact hreads _

/--
The layout rule reads every list of tokens into items that are made of these tokens, in order, or fails at one of them.
-/
theorem reads_read (eof : Token) (ts : List Token) : Reads ts (read eof ts) := by
  cases ts with
  | nil =>
    refine ⟨rfl, ?_⟩
    intro run hrun
    cases hrun
  | cons t more =>
    rw [read]
    exact reads_readRest eof _ more (stack_start t.column t _)

end Layout

end HaskellStyle
