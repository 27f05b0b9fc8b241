import HaskellStyle.Proofs.Block.Open
import HaskellStyle.Proofs.Fault

/-!
This module contains the reading of a body from one of its items on. What was read before an item matters only through
the items that are finished, and an item is read in the same way whatever comes behind the first token of the next one.
-/

namespace HaskellStyle

/--
Two tokens that the layout rule does not tell apart.
-/
structure Token.Alike (t u : Token) : Prop where
  kind : u.kind = t.kind
  text : u.text = t.text
  column : u.column = t.column
  lineStart : u.lineStart = t.lineStart

namespace Token.Alike

variable {t u : Token}

theorem refl (t : Token) : t.Alike t where
  kind := rfl
  text := rfl
  column := rfl
  lineStart := rfl

theorem eq_with (h : t.Alike u) : u = { t with
    position := ⟨u.position.offset, u.position.line, t.position.column⟩
    leading := u.leading
    trailing := u.trailing } := by
  obtain ⟨kind, text, ⟨offset, line, column⟩, leading, trailing, lineStart⟩ := u
  obtain ⟨rfl, rfl, rfl, rfl⟩ := h
  rfl

theorem isReservedOp_eq (h : t.Alike u) (ops : List String) : u.isReservedOp ops = t.isReservedOp ops := by
  rw [h.eq_with]
  rfl

end Token.Alike

namespace Layout

section

variable {t u : Token}

theorem headD_alike (h : t.Alike u) {eof eof' : Token} {before more more' : List Token} :
    ((before ++ t :: more).headD eof).Alike ((before ++ u :: more').headD eof') := by
  cases before with
  | nil => exact h
  | cons first before => exact .refl first

theorem roleOf_alike (h : t.Alike u) (block : OpenBlock) : block.roleOf u = block.roleOf t := by
  rw [h.eq_with]
  rfl

theorem awaitedKind_alike (h : t.Alike u) (block : OpenBlock) : block.awaitedKind u = block.awaitedKind t := by
  rw [h.eq_with]
  rfl

theorem count_following (h : ∀ ops, u.isReservedOp ops = t.isReservedOp ops) (pending : Pending)
    (previous : Option Token) (last : Token) : pending.count previous last u = pending.count previous last t := by
  simp only [Pending.count, h]

theorem start_following (h : ∀ ops, u.isReservedOp ops = t.isReservedOp ops) (last : Token) :
    OpenItem.start last u = OpenItem.start last t := by
  rw [OpenItem.start, OpenItem.start, count_following h]

theorem push_following (h : ∀ ops, u.isReservedOp ops = t.isReservedOp ops) (block : OpenBlock) (last : Token) :
    block.push last u = block.push last t := by
  rw [OpenBlock.push, OpenBlock.push, OpenItem.push, OpenItem.push, count_following h]

theorem nextItem_following (h : ∀ ops, u.isReservedOp ops = t.isReservedOp ops) (block : OpenBlock) (last : Token) :
    block.nextItem last u = block.nextItem last t := by
  rw [OpenBlock.nextItem, OpenBlock.nextItem, start_following h]

theorem begins_of_roleOf {block : OpenBlock} (hopening : block.opening = none)
    (hrole : block.roleOf t = .ok .beginsItem) : t.lineStart ∧ t.column ≤ block.column := by
  unfold OpenBlock.roleOf at hrole
  rw [hopening] at hrole
  dsimp only at hrole
  split at hrole
  · next hplace => exact hplace
  · cases hrole

end

/--
Open blocks of a body no item of which is finished. The columns of the nested ones are as told.
-/
inductive Inside (nests : Int → Prop) (column : Int) : OpenBlock → List OpenBlock → Prop where
  | outermost (item : OpenItem) : Inside nests column ⟨none, column, [], item⟩ []
  | nested {block parent : OpenBlock} {outer : List OpenBlock} (hopening : block.opening.isSome)
    (hcolumn : nests block.column) (hparent : Inside nests column parent outer) :
    Inside nests column block (parent :: outer)

namespace Inside

variable {nests : Int → Prop} {column : Int} {t following : Token} {block : OpenBlock} {outer : List OpenBlock}

theorem close {parent : OpenBlock} (h : Inside nests column block (parent :: outer)) :
    Inside nests column (parent.close block) outer := by
  cases h with
  | nested hopening _ hparent =>
    obtain ⟨⟨kind, opener⟩, hopening⟩ := Option.isSome_iff_exists.1 hopening
    rw [OpenBlock.close, hopening]
    cases hparent with
    | outermost item => exact .outermost _
    | nested hopening hcolumn hparent => exact .nested hopening hcolumn hparent

theorem opening {parent : OpenBlock} (h : Inside nests column block (parent :: outer)) : block.opening.isSome := by
  cases h with
  | nested hopening _ _ => exact hopening

theorem column_nests {parent : OpenBlock} (h : Inside nests column block (parent :: outer)) : nests block.column := by
  cases h with
  | nested _ hcolumn _ => exact hcolumn

theorem push (h : Inside nests column block outer) (t following : Token) :
    Inside nests column (block.push t following) outer := by
  cases h with
  | outermost item => exact .outermost _
  | nested hopening hcolumn hparent => exact .nested hopening hcolumn hparent

/--
Only the block around all others has items of the body.
-/
theorem nextItem (h : Inside nests column block outer) (t following : Token) :
    Inside nests column (block.nextItem t following) outer
      ∨ ∃ item, block = ⟨none, column, [], item⟩ ∧ outer = [] := by
  cases h with
  | outermost item => exact .inr ⟨item, rfl, rfl⟩
  | nested hopening hcolumn hparent => exact .inl (.nested hopening hcolumn hparent)

/--
The block around all others ends at no token.
-/
theorem roleOf_ne (h : Inside nests column block outer)
    (hcloses : block.roleOf t = .ok .closesBlock → outer = []) : block.roleOf t ≠ .ok .closesBlock := by
  intro hrole
  rw [hcloses hrole] at h
  cases h with
  | outermost => exact OpenBlock.roleOf_outermost rfl hrole

theorem finish (h : Inside nests column block outer) {items : List (Run Block)}
    (hfinish : Layout.finish block outer = .ok items) : ∃ run, items = [run] := by
  induction outer generalizing block with
  | nil =>
    rw [Layout.finish] at hfinish
    obtain ⟨-, hitems⟩ := requireClosed_bind_eq_ok hfinish
    cases hitems
    cases h with
    | outermost item => exact ⟨item.run, rfl⟩
  | cons parent others ih =>
    rw [Layout.finish] at hfinish
    exact ih h.close (requireClosed_bind_eq_ok hfinish).2

end Inside

/--
Reads what is left of a body behind the items `done`: nothing, or the items that begin with the next token.
-/
def readOn (eof : Token) (column : Int) (done : List (Run Block)) : List Token → Except Failure (List (Run Block))
  | [] => .ok done
  | t :: more =>
    let following := more.headD eof
    let block : OpenBlock := ⟨none, column, done.reverse, .start t following⟩
    readRest eof (block.awaitedKind following) block [] more

theorem read_eq_readOn (eof : Token) (ts : List Token) : read eof ts = readOn eof (ts.headD eof).column [] ts := by
  cases ts <;> rfl

variable {column : Int} {first : Token} {block : OpenBlock} {outer : List OpenBlock}

/--
The items of a body end with the one that is being read when its tokens do, or else another token begins the next one.
What the rest of the body is does not matter for this.
-/
theorem readRest_next {eof : Token} {seen ts : List Token} {items : List (Run Block)}
    (hinside : Inside (fun _ => True) column block outer) (hstack : Stack seen block outer)
    (hread : readRest eof (block.awaitedKind (ts.headD eof)) block outer ts = .ok items) :
    (∃ run, items = [run])
      ∨ ∃ run before t after, ts = before ++ t :: after
        ∧ tokens run = seen ++ before ∧ t.lineStart ∧ t.column ≤ column
        ∧ ∀ eof' u more, t.Alike u →
          readRest eof' (block.awaitedKind ((before ++ u :: more).headD eof')) block outer (before ++ u :: more)
            = readOn eof' column [run] (u :: more) := by
  -- By induction on the tokens that are left; a token that begins the next item ends it.
  induction ts generalizing seen block outer with
  | nil =>
    exact .inl (hinside.finish hread)
  | cons t ts ih =>
    -- Whatever block takes the token, the reading goes on in the same way for all that can come behind it.
    have hcontinue (next : Token → OpenBlock) {others : List OpenBlock} (hnext : ∀ u v, u.Alike v → next v = next u)
        (hinside : Inside (fun _ => True) column (next (ts.headD eof)) others)
        (hstack : Stack (seen ++ [t]) (next (ts.headD eof)) others)
        (hstep : ∀ eof' more, readRest eof' (block.awaitedKind t) block outer (t :: more)
          = readRest eof' ((next (more.headD eof')).awaitedKind (more.headD eof')) (next (more.headD eof'))
            others more) :
        (∃ run, items = [run])
          ∨ ∃ run before u after, t :: ts = before ++ u :: after
            ∧ tokens run = seen ++ before ∧ u.lineStart ∧ u.column ≤ column
            ∧ ∀ eof' v more, u.Alike v →
              readRest eof' (block.awaitedKind ((before ++ v :: more).headD eof')) block outer (before ++ v :: more)
                = readOn eof' column [run] (v :: more) := by
      rw [List.headD_cons, hstep] at hread
      rcases ih hinside hstack hread with hlast | ⟨run, before, u, after, rfl, htokens, hline, hcolumn, hrest⟩
      · exact .inl hlast
      · refine .inr ⟨run, t :: before, u, after, rfl, ?_, hline, hcolumn, fun eof' v more hv => ?_⟩
        · rw [htokens, List.append_assoc]
          rfl
        · rw [List.cons_append, List.headD_cons, hstep, hnext _ _ (headD_alike hv)]
          exact hrest eof' v more hv
    rw [List.headD_cons] at hread
    cases hawaited : block.awaitedKind t with
    | some kind =>
      rw [readRest_cons, hawaited] at hread
      dsimp only at hread
      unfold openBlock at hread
      split at hread
      · cases hread
      · next hnesting =>
        refine hcontinue (fun following => ⟨some (kind, block.item.last), t.column, [], .start t following⟩)
          (fun u v h => by rw [start_following h.isReservedOp_eq]) (.nested rfl trivial hinside)
          (stack_openBlock hstack kind block.item.last t _) fun eof' more => ?_
        rw [readRest_cons, hawaited]
        dsimp only
        rw [openBlock, if_neg hnesting]
        rfl
    | none =>
      -- The token goes to the innermost block that it does not end.
      obtain ⟨taker, others, ⟨htaker, hstacked⟩, hcloses, hplace⟩ := place_eq
        (P := fun block outer => Inside (fun _ => True) column block outer ∧ Stack seen block outer)
        (fun _ _ _ h => ⟨h.1.close, h.2.close⟩) t ⟨hinside, hstack⟩
      have hstep (eof' : Token) (more : List Token) : readRest eof' (block.awaitedKind t) block outer (t :: more) =
          ((taker.roleOf t).map fun role => (if role = .beginsItem then taker.nextItem t (more.headD eof') else
            taker.push t (more.headD eof'), others)) >>= fun stack =>
              readRest eof' (stack.1.awaitedKind (more.headD eof')) stack.1 stack.2 more := by
        rw [readRest_cons, hawaited, ← hplace t (more.headD eof') fun _ => rfl]
      rw [hstep] at hread
      cases hrole : taker.roleOf t with
      | error failure =>
        rw [hrole] at hread
        cases hread
      | ok role =>
        cases role with
        | continues =>
          refine hcontinue _ (fun u v h => push_following h.isReservedOp_eq taker t) (htaker.push t _)
            (hstacked.push t _) fun eof' more => ?_
          rw [hstep, hrole]
          rfl
        | beginsItem =>
          rcases htaker.nextItem t (ts.headD eof) with hnext | ⟨item, rfl, rfl⟩
          · refine hcontinue _ (fun u v h => nextItem_following h.isReservedOp_eq taker t) hnext
              (hstacked.nextItem t _) fun eof' more => ?_
            rw [hstep, hrole]
            rfl
          · refine .inr ⟨item.run, [], t, ts, rfl, ?_, ?_⟩
            · rw [← hstacked.tokens, List.reverse_singleton, List.flatMap_singleton, List.append_nil]
              exact (List.append_nil _).symm
            · obtain ⟨hline, hcolumn⟩ := begins_of_roleOf rfl hrole
              refine ⟨hline, hcolumn, fun eof' u more hu => ?_⟩
              rw [List.nil_append, List.headD_cons, awaitedKind_alike hu, hawaited, readRest_cons]
              dsimp only
              rw [hplace u _ (roleOf_alike hu), hrole]
              rfl
        | closesBlock => exact absurd hrole (htaker.roleOf_ne hcloses)

/--
Open blocks of a body behind the finished items `done`.
-/
def behind (done : List (Run Block)) : OpenBlock → List OpenBlock → OpenBlock × List OpenBlock
  | block, [] => ({ block with finished := block.finished ++ done.reverse }, [])
  | block, parent :: outer => (block, (behind done parent outer).1 :: (behind done parent outer).2)

theorem behind_close (done : List (Run Block)) (block parent : OpenBlock) (outer : List OpenBlock) :
    behind done (parent.close block) outer
      = ((behind done parent outer).1.close block, (behind done parent outer).2) := by
  cases outer with
  | nil =>
    obtain ⟨opening, column, finished, item⟩ := block
    cases opening <;> rfl
  | cons next outer => rfl

theorem place_behind (done : List (Run Block)) (t following : Token) (block : OpenBlock) (outer : List OpenBlock) :
    place t following (behind done block outer).1 (behind done block outer).2
      = (place t following block outer).map fun stack => behind done stack.1 stack.2 := by
  induction outer generalizing block with
  | nil =>
    have hrole : ({ block with finished := block.finished ++ done.reverse } : OpenBlock).roleOf t = block.roleOf t :=
      rfl
    rw [behind, place, place, hrole]
    cases block.roleOf t with
    | error failure => rfl
    | ok role => cases role <;> rfl
  | cons parent outer ih =>
    rw [behind, place, place]
    cases block.roleOf t with
    | error failure => rfl
    | ok role =>
      cases role with
      | continues | beginsItem => rfl
      | closesBlock =>
        have hrest := ih (parent.close block)
        rw [behind_close] at hrest
        exact hrest

theorem finish_behind (done : List (Run Block)) (block : OpenBlock) (outer : List OpenBlock) :
    finish (behind done block outer).1 (behind done block outer).2 = (finish block outer).map (done ++ ·) := by
  induction outer generalizing block with
  | nil =>
    rw [behind, finish, finish]
    dsimp only
    cases block.item.requireClosed with
    | error failure => rfl
    | ok u => exact congrArg Except.ok (by simp [OpenBlock.items])
  | cons parent outer ih =>
    rw [behind, finish, finish]
    cases block.item.requireClosed with
    | error failure => rfl
    | ok u =>
      have hrest := ih (parent.close block)
      rw [behind_close] at hrest
      exact hrest

theorem openBlock_behind (done : List (Run Block)) (kind : BlockKind) (t following : Token) (block : OpenBlock)
    (outer : List OpenBlock) :
    openBlock kind t following (behind done block outer).1 (behind done block outer).2
      = (openBlock kind t following block outer).map fun stack => behind done stack.1 stack.2 := by
  have hlength (block : OpenBlock) : (behind done block outer).2.length = outer.length := by
    induction outer generalizing block with
    | nil => rfl
    | cons parent outer ih => exact congrArg (· + 1) (ih parent)
  have hlast : (behind done block outer).1.item = block.item := by
    cases outer <;> rfl
  rw [openBlock, openBlock, hlength, hlast]
  split <;> rfl

theorem readRest_behind (eof : Token) (done : List (Run Block)) (awaited : Option BlockKind) (block : OpenBlock)
    (outer : List OpenBlock) (ts : List Token) :
    readRest eof awaited (behind done block outer).1 (behind done block outer).2 ts
      = (readRest eof awaited block outer ts).map (done ++ ·) := by
  induction ts generalizing awaited block outer with
  | nil => exact finish_behind done block outer
  | cons t ts ih =>
    have hawaited (block : OpenBlock) (outer : List OpenBlock) (following : Token) :
        (behind done block outer).1.awaitedKind following = block.awaitedKind following := by
      cases outer <;> rfl
    have hstack (x : Except Failure (OpenBlock × List OpenBlock)) :
        ((x.map fun stack => behind done stack.1 stack.2) >>= fun stack =>
            readRest eof (stack.1.awaitedKind (ts.headD eof)) stack.1 stack.2 ts)
          = (x >>= fun stack =>
              readRest eof (stack.1.awaitedKind (ts.headD eof)) stack.1 stack.2 ts).map (done ++ ·) := by
      cases x with
      | error failure => rfl
      | ok stack =>
        refine Eq.trans ?_ (ih _ stack.1 stack.2)
        rw [← hawaited stack.1 stack.2]
        rfl
    rw [readRest_cons, readRest_cons]
    cases awaited with
    | none =>
      dsimp only
      rw [place_behind, hstack]
    | some kind =>
      dsimp only
      rw [openBlock_behind, hstack]

/--
The finished items do not matter for those to come.
-/
theorem readOn_behind (eof : Token) (column : Int) (done : List (Run Block)) (ts : List Token) :
    readOn eof column done ts = (readOn eof column [] ts).map (done ++ ·) := by
  cases ts with
  | nil => exact congrArg Except.ok (List.append_nil done).symm
  | cons t more => exact readRest_behind eof done _ ⟨none, column, [], .start t (more.headD eof)⟩ [] more

theorem isReservedOp_eof {eof eof' : Token} (heof : eof.isEnd) (heof' : eof'.isEnd) (ops : List String) :
    eof'.isReservedOp ops = eof.isReservedOp ops := by
  simp only [Token.isEnd, decide_eq_true_eq] at heof heof'
  rw [Token.isReservedOp, Token.isReservedOp, heof, heof']
  rfl

/--
The mark of the end says nothing but that the text ends there.
-/
theorem readRest_eof {eof eof' : Token} (heof : eof.isEnd) (heof' : eof'.isEnd) (awaited : Option BlockKind)
    (block : OpenBlock) (outer : List OpenBlock) (ts : List Token) :
    readRest eof' awaited block outer ts = readRest eof awaited block outer ts := by
  have hop := isReservedOp_eof heof heof'
  have hplace (t : Token) (outer : List OpenBlock) : ∀ block, place t eof' block outer = place t eof block outer := by
    induction outer with
    | nil => intro block; rw [place, place, push_following hop, nextItem_following hop]
    | cons parent outer ih =>
      intro block
      rw [place, place, push_following hop, nextItem_following hop, ih]
  induction ts generalizing awaited block outer with
  | nil => rfl
  | cons t more ih =>
    rw [readRest_cons, readRest_cons]
    cases more with
    | cons next more =>
      simp only [List.headD_cons, ih]
    | nil =>
      have hopen (kind : BlockKind) : openBlock kind t eof' block outer = openBlock kind t eof block outer := by
        rw [openBlock, openBlock, start_following hop]
      simp only [List.headD_nil, hplace, hopen, readRest]

theorem readOn_eof {eof eof' : Token} (heof : eof.isEnd) (heof' : eof'.isEnd) (column : Int) (done : List (Run Block))
    (ts : List Token) : readOn eof' column done ts = readOn eof column done ts := by
  cases ts with
  | nil => rfl
  | cons t more =>
    rw [readOn, readOn, readRest_eof heof heof']
    cases more with
    | cons next more => rfl
    | nil => rw [List.headD_nil, List.headD_nil, start_following (isReservedOp_eof heof heof'), readRest, readRest]

theorem tokens_readOn {eof : Token} {ts : List Token} {items : List (Run Block)}
    (h : readOn eof column [] ts = .ok items) : items.flatMap tokens = ts := by
  cases ts with
  | nil =>
    cases h
    rfl
  | cons t more =>
    have hreads := reads_readRest eof
      (OpenBlock.awaitedKind ⟨none, column, [], .start t (more.headD eof)⟩ (more.headD eof)) more
      (stack_start column t (more.headD eof))
    change Reads _ (readOn eof column [] (t :: more)) at hreads
    rw [h] at hreads
    exact hreads.1

/--
The items behind the first one are read as if they were the whole body. The first of their tokens begins a line that is
not right of the body, and how the first item is read depends on no more than that token.
-/
theorem readOn_next {eof : Token} {ts : List Token} {run : Run Block} {later : List (Run Block)}
    (h : readOn eof column [] ts = .ok (run :: later)) :
    readOn eof column [] (later.flatMap tokens) = .ok later
      ∧ ∀ t ∈ (later.flatMap tokens).head?, t.lineStart ∧ t.column ≤ column
        ∧ ∀ eof' u more, t.Alike u →
          readOn eof' column [] (tokens run ++ u :: more) = (readOn eof' column [] (u :: more)).map (run :: ·) := by
  cases ts with
  | nil => cases h
  | cons first more =>
    rcases readRest_next (.outermost _) (stack_start column first (more.headD eof)) h with
      ⟨last, hlast⟩ | ⟨first', before, t, after, rfl, htokens, hline, hcolumn, hrest⟩
    · cases hlast
      exact ⟨rfl, by simp⟩
    · have hnext : readOn eof column [first'] (t :: after) = .ok (run :: later) := by
        rw [← hrest eof t after (.refl t)]
        exact h
      rw [readOn_behind] at hnext
      obtain ⟨items, hitems, hcons⟩ := map_eq_ok hnext
      obtain ⟨rfl, hlater⟩ := List.cons.inj hcons
      rw [← show items = later from hlater, tokens_readOn hitems]
      refine ⟨hitems, ?_⟩
      rintro _ ⟨⟩
      refine ⟨hline, hcolumn, fun eof' u more hu => ?_⟩
      have hfirst := readOn_behind eof' column [first'] (u :: more)
      rw [← hrest eof' u more hu, ← start_following (headD_alike hu).isReservedOp_eq] at hfirst
      rw [htokens]
      exact hfirst

/--
The items from one of them on are read as if they were the whole body, and how the items before it are read depends on
no more than its first token.
-/
theorem readOn_items {eof : Token} {ts : List Token} {earlier later : List (Run Block)} {run : Run Block}
    (h : readOn eof column [] ts = .ok (earlier ++ run :: later)) :
    readOn eof column [] ((run :: later).flatMap tokens) = .ok (run :: later)
      ∧ ∀ eof' u more, run.first.Alike u → readOn eof' column [] (earlier.flatMap tokens ++ u :: more)
        = (readOn eof' column [] (u :: more)).map (earlier ++ ·) := by
  induction earlier generalizing ts with
  | nil =>
    rw [List.nil_append] at h
    refine ⟨by rw [tokens_readOn h]; exact h, fun eof' u more _ => ?_⟩
    cases hread : readOn eof' column [] (u :: more) <;> simp [hread, Except.map]
  | cons first earlier ih =>
    obtain ⟨hrest, hhead⟩ := readOn_next h
    obtain ⟨hrun, hearlier⟩ := ih hrest
    refine ⟨hrun, fun eof' u more hu => ?_⟩
    have hfirst : readOn eof' column [] (tokens first ++ (earlier.flatMap tokens ++ u :: more))
        = (readOn eof' column [] (earlier.flatMap tokens ++ u :: more)).map (first :: ·) := by
      cases earlier with
      | nil => exact (hhead run.first rfl).2.2 eof' u more hu
      | cons next earlier => exact (hhead next.first rfl).2.2 eof' next.first _ (.refl _)
    rw [List.flatMap_cons, List.append_assoc, hfirst, hearlier eof' u more hu]
    cases readOn eof' column [] (u :: more) <;> rfl

end Layout

end HaskellStyle
