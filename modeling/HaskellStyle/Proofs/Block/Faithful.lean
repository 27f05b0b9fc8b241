import HaskellStyle.Proofs.Block.Resume
import HaskellStyle.Proofs.Declaration.Map
import HaskellStyle.Proofs.Token.Faithful

/-!
This module contains the layout rule for replaced tokens: it groups them as it groups the tokens themselves, because it
looks at lines, columns and words.
-/

namespace HaskellStyle

variable (f : Token → Token)

namespace Layout

/--
The item that is being read, with its tokens replaced.
-/
def OpenItem.map (item : OpenItem) : OpenItem where
  first := f item.first
  previous := item.previous.map f
  last := f item.last
  rest := item.rest.map (Segment.bimap f (Block.map f))
  pending := item.pending
  brackets := item.brackets.map f

/--
The block that is being read, with its tokens replaced.
-/
def OpenBlock.map (block : OpenBlock) : OpenBlock where
  opening := block.opening.map fun (kind, opener) => (kind, f opener)
  column := block.column
  finished := block.finished.map (mapTokens f)
  item := block.item.map f

/--
The open blocks, with their tokens replaced.
-/
def mapStack (stack : OpenBlock × List OpenBlock) : OpenBlock × List OpenBlock :=
  (stack.1.map f, stack.2.map (OpenBlock.map f))

namespace OpenItem

theorem pushBlock_map (item : OpenItem) (block : Block) (last : Token) :
    (item.map f).pushBlock (block.map f) (f last) = (item.pushBlock block last).map f := by
  simp only [pushBlock, Block.kind_map]
  rfl

theorem requireClosed_map (item : OpenItem) :
    (item.map f).requireClosed.toOption = item.requireClosed.toOption := by
  cases h : item.brackets <;> simp [requireClosed, map, h]

theorem run_map (item : OpenItem) : (item.map f).run = mapTokens f item.run :=
  congrArg (Run.mk _) List.map_reverse.symm

end OpenItem

namespace OpenBlock

theorem items_map (block : OpenBlock) : (block.map f).items = block.items.map (mapTokens f) := by
  rw [items, items, List.map_reverse, List.map_cons, ← OpenItem.run_map]
  rfl

theorem close_map (outer inner : OpenBlock) : (outer.map f).close (inner.map f) = (outer.close inner).map f := by
  obtain ⟨opening, column, finished, item⟩ := inner
  cases opening with
  | none => rfl
  | some opening =>
    have hitems := items_map f ⟨some opening, column, finished, item⟩
    have hpush := OpenItem.pushBlock_map f outer.item
      (.mk opening.1 opening.2 column (items ⟨some opening, column, finished, item⟩)) item.last
    rw [Block.map_mk] at hpush
    refine congrArg (OpenBlock.mk _ _ _) (Eq.trans ?_ hpush)
    exact congrArg (fun items => (outer.item.map f).pushBlock (.mk opening.1 (f opening.2) column items) _) hitems

end OpenBlock

theorem finish_map (block : OpenBlock) (outer : List OpenBlock) :
    (finish (block.map f) (outer.map (OpenBlock.map f))).toOption
      = (finish block outer).toOption.map (List.map (mapTokens f)) := by
  have hclosed (block : OpenBlock) : (block.map f).item.requireClosed.toOption = block.item.requireClosed.toOption :=
    OpenItem.requireClosed_map f block.item
  induction outer generalizing block with
  | nil =>
    rw [List.map_nil, finish, finish, toOption_bind, toOption_bind, hclosed]
    cases block.item.requireClosed.toOption with
    | none => rfl
    | some _ => simp [OpenBlock.items_map]
  | cons parent outer ih =>
    rw [List.map_cons, finish, finish, toOption_bind, toOption_bind, hclosed]
    cases block.item.requireClosed.toOption with
    | none => rfl
    | some _ => simp [OpenBlock.close_map, ih]

section

variable [Token.Faithful f]

theorem isReservedOp_previous_map {ops : List String} (h : Token.AreLines ops) (previous : Option Token) :
    (previous.map f).any (·.isReservedOp ops) = previous.any (·.isReservedOp ops) := by
  cases previous with
  | none => rfl
  | some t => exact Token.isReservedOp_map f t h

theorem openedKind_map (t : Token) (previous : Option Token) (first : Token) :
    openedKind (f t) (previous.map f) (f first) = openedKind t previous first := by
  simp (disch := decide) only [openedKind, isReservedOp_previous_map, Token.isKeyword_map, Token.kind_map,
    Token.text_map]

theorem endsBlock_map (t : Token) : endsBlock (f t) = endsBlock t := by
  simp (disch := decide) only [endsBlock, Token.isKeyword_map, Token.isReservedOp_map, Token.isClosing_map,
    Token.isSpecial_map]

theorem endsItem_map (t : Token) (kind : BlockKind) (pending : Pending) :
    endsItem (f t) kind pending = endsItem t kind pending := by
  simp (disch := decide) only [endsItem, Token.isKeyword_map, Token.isClosing_map, Token.isSpecial_map]

theorem Pending.count_map (pending : Pending) (previous : Option Token) (t following : Token) :
    pending.count (previous.map f) (f t) (f following) = pending.count previous t following := by
  simp (disch := decide) only [count, isReservedOp_previous_map, Token.isKeyword_map, Token.isReservedOp_map]

theorem countBracket_map (brackets : List Token) (t : Token) :
    countBracket (brackets.map f) (f t) = (countBracket brackets t).map f := by
  unfold countBracket
  rw [Token.isOpening_map, Token.isClosing_map]
  split
  · rfl
  · split
    · exact List.map_drop.symm
    · rfl

namespace OpenItem

theorem start_map (t following : Token) : start (f t) (f following) = (start t following).map f := by
  have hcount := Pending.count_map f {} none t following
  have hbrackets := countBracket_map f [] t
  simp only [Option.map_none, List.map_nil] at hcount hbrackets
  simp only [start, hcount, hbrackets]
  rfl

theorem push_map (item : OpenItem) (t following : Token) :
    (item.map f).push (f t) (f following) = (item.push t following).map f := by
  have hcount := Pending.count_map f item.pending (some item.last) t following
  rw [Option.map_some] at hcount
  simp only [push, map, hcount, countBracket_map]
  rfl

end OpenItem

end

variable [Token.KeepsColumns f]

theorem opensNothing_map (following : Token) (column : Int) :
    opensNothing (f following) column = opensNothing following column := by
  simp (disch := decide) only [opensNothing, Token.isEnd_map, Token.isSpecial_map, Token.isClosing_map,
    Token.isKeyword_map, Token.lineStart_map, Token.column_map]

namespace OpenBlock

theorem nextItem_map (block : OpenBlock) (t following : Token) :
    (block.map f).nextItem (f t) (f following) = (block.nextItem t following).map f := by
  simp only [nextItem, OpenItem.start_map]
  simp only [map, OpenItem.run_map, List.map_cons]

theorem push_map (block : OpenBlock) (t following : Token) :
    (block.map f).push (f t) (f following) = (block.push t following).map f :=
  congrArg (OpenBlock.mk _ _ _) (OpenItem.push_map f block.item t following)

theorem roleOf_map (block : OpenBlock) (t : Token) :
    ((block.map f).roleOf (f t)).toOption = (block.roleOf t).toOption := by
  obtain ⟨opening, column, finished, item⟩ := block
  cases opening with
  | none =>
    simp only [roleOf, map, Option.map_none, Token.lineStart_map, Token.column_map]
    split
    · rw [toOption_bind, toOption_bind, OpenItem.requireClosed_map]
    · rfl
  | some opening =>
    have hbrackets : (item.map f).brackets.isEmpty = item.brackets.isEmpty := List.isEmpty_map
    have hpending : (item.map f).pending = item.pending := rfl
    simp (disch := decide) only [roleOf, map, Option.map_some, Token.lineStart_map, Token.column_map,
      Token.isKeyword_map, endsBlock_map, endsItem_map, hbrackets, hpending]

theorem awaitedKind_map (block : OpenBlock) (following : Token) :
    (block.map f).awaitedKind (f following) = block.awaitedKind following := by
  have hkind := openedKind_map f block.item.last block.item.previous block.item.first
  simp only [awaitedKind, map, OpenItem.map, hkind, opensNothing_map]

end OpenBlock

theorem place_map (t following : Token) (block : OpenBlock) (outer : List OpenBlock) :
    (place (f t) (f following) (block.map f) (outer.map (OpenBlock.map f))).toOption
      = (place t following block outer).toOption.map (mapStack f) := by
  induction outer generalizing block with
  | nil =>
    rw [List.map_nil, place, place, toOption_bind, toOption_bind, OpenBlock.roleOf_map]
    cases (block.roleOf t).toOption with
    | none => rfl
    | some role => cases role <;> simp [mapStack, OpenBlock.push_map, OpenBlock.nextItem_map]
  | cons parent outer ih =>
    rw [List.map_cons, place, place, toOption_bind, toOption_bind, OpenBlock.roleOf_map]
    cases (block.roleOf t).toOption with
    | none => rfl
    | some role =>
      cases role with
      | continues => simp [mapStack, OpenBlock.push_map]
      | beginsItem => simp [mapStack, OpenBlock.nextItem_map]
      | closesBlock => simp [OpenBlock.close_map, ih]

theorem openBlock_map (kind : BlockKind) (t following : Token) (block : OpenBlock) (outer : List OpenBlock) :
    (openBlock kind (f t) (f following) (block.map f) (outer.map (OpenBlock.map f))).toOption
      = (openBlock kind t following block outer).toOption.map (mapStack f) := by
  unfold openBlock
  rw [List.length_map, OpenItem.start_map]
  split
  · rfl
  · simp only [toOption_ok, Option.map_some, Token.column_map]
    rfl

theorem readRest_map (eof : Token) (awaited : Option BlockKind) (block : OpenBlock) (outer : List OpenBlock)
    (ts : List Token) :
    (readRest (f eof) awaited (block.map f) (outer.map (OpenBlock.map f)) (ts.map f)).toOption
      = (readRest eof awaited block outer ts).toOption.map (List.map (mapTokens f)) := by
  induction ts generalizing awaited block outer with
  | nil => exact finish_map f block outer
  | cons t more ih =>
    have hrest (stack : OpenBlock × List OpenBlock) :
        (readRest (f eof) ((stack.1.map f).awaitedKind (f (more.headD eof))) (stack.1.map f)
          (stack.2.map (OpenBlock.map f)) (more.map f)).toOption
        = (readRest eof (stack.1.awaitedKind (more.headD eof)) stack.1 stack.2 more).toOption.map
          (List.map (mapTokens f)) := by
      rw [OpenBlock.awaitedKind_map, ih]
    have hstack {x y : Option (OpenBlock × List OpenBlock)} (h : x = y.map (mapStack f)) :
        (x.bind fun stack => (readRest (f eof) (stack.1.awaitedKind (f (more.headD eof))) stack.1 stack.2
          (more.map f)).toOption)
        = (y.bind fun stack => (readRest eof (stack.1.awaitedKind (more.headD eof)) stack.1 stack.2 more).toOption).map
          (List.map (mapTokens f)) := by
      subst h
      cases y with
      | none => rfl
      | some stack => exact hrest stack
    rw [List.map_cons, readRest_cons, readRest_cons, headD_map, toOption_bind, toOption_bind]
    cases awaited with
    | none => exact hstack (place_map f t _ block outer)
    | some kind => exact hstack (openBlock_map f kind t _ block outer)

theorem readOn_map (eof : Token) (column : Int) (ts : List Token) :
    (readOn (f eof) column [] (ts.map f)).toOption
      = (readOn eof column [] ts).toOption.map (List.map (mapTokens f)) := by
  cases ts with
  | nil => rfl
  | cons t more =>
    have hblock : (⟨none, column, [], .start (f t) (f (more.headD eof))⟩ : OpenBlock)
        = OpenBlock.map f ⟨none, column, [], .start t (more.headD eof)⟩ := by
      rw [OpenItem.start_map]
      rfl
    rw [List.map_cons, readOn, readOn, headD_map, List.reverse_nil, hblock, OpenBlock.awaitedKind_map]
    exact readRest_map f eof _ _ [] more

/--
The items of a body whose tokens are replaced are those of the body, with their tokens replaced.
-/
theorem read_map (eof : Token) (ts : List Token) :
    (read (f eof) (ts.map f)).toOption = (read eof ts).toOption.map (List.map (mapTokens f)) := by
  rw [read_eq_readOn, read_eq_readOn, headD_map, Token.column_map, readOn_map]

end Layout

end HaskellStyle
