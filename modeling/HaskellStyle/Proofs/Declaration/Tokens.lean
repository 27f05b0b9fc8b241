import HaskellStyle.Declaration.Outside
import HaskellStyle.Proofs.Block.Read

/-!
This module contains what reading a part of a module off its tokens keeps: the tokens of every list, signature, equation
and declaration, put together again, are those it was read from, and its blocks are theirs. So are the parts of a run that
is cut outside of brackets, with the tokens at which it was cut.
-/

namespace HaskellStyle.Outside

variable {α : Type} {view : α → Option Token} {p : Token → Bool}

/--
A run is what precedes the token at which it is cut, the token, and what follows it.
-/
theorem split?_eq (embed : Token → α) (hview : ∀ x t, view x = some t → x = embed t) {depth : Int} {xs before after : List α}
    {hit : Token} (h : split? view p depth xs = some (before, hit, after)) :
    xs = before ++ embed hit :: after ∧ p hit := by
  induction xs generalizing depth before with
  | nil => cases h
  | cons x xs ih =>
    have hkeep {depth : Int} (h : (split? view p depth xs).map (fun y => (x :: y.1, y.2.1, y.2.2))
        = some (before, hit, after)) : x :: xs = before ++ embed hit :: after ∧ p hit := by
      obtain ⟨⟨before', hit', after'⟩, hsplit, heq⟩ := Option.map_eq_some_iff.1 h
      simp only [Prod.mk.injEq] at heq
      obtain ⟨rfl, rfl, rfl⟩ := heq
      obtain ⟨hxs, hp⟩ := ih hsplit
      exact ⟨by rw [hxs]; rfl, hp⟩
    rw [split?] at h
    dsimp only at h
    split at h
    · next t ht =>
      split at h
      · next hhit =>
        simp only [Option.some.injEq, Prod.mk.injEq] at h
        obtain ⟨rfl, rfl, rfl⟩ := h
        rw [hview x t ht]
        exact ⟨rfl, hhit.2.2⟩
      · exact hkeep h
    · exact hkeep h

/--
A run is what precedes the first token at which it is cut, and those tokens with what follows each.
-/
theorem splitAll_eq (embed : Token → α) (hview : ∀ x t, view x = some t → x = embed t) (depth : Int) (xs : List α) :
    (splitAll view p depth xs).1 ++ (splitAll view p depth xs).2.flatMap (fun group => embed group.1 :: group.2)
      = xs := by
  induction xs generalizing depth with
  | nil => rfl
  | cons x xs ih =>
    rw [splitAll]
    split
    · next t ht =>
      split
      · dsimp only
        rw [List.nil_append, List.flatMap_cons, List.cons_append, ih, ← hview x t ht]
      · dsimp only
        rw [List.cons_append, ih]
    · dsimp only
      rw [List.cons_append, ih]

theorem split?_tokens {depth : Int} {ts before after : List Token} {hit : Token}
    (h : split? some p depth ts = some (before, hit, after)) : ts = before ++ hit :: after ∧ p hit :=
  split?_eq id (fun _ _ h => Option.some.inj h) h

theorem splitAll_tokens (depth : Int) (ts : List Token) :
    (splitAll some p depth ts).1 ++ (splitAll some p depth ts).2.flatMap (fun group => group.1 :: group.2) = ts :=
  splitAll_eq id (fun _ _ h => Option.some.inj h) depth ts

theorem splitBracket?_eq {bracket : String} {depth : Int} {ts before after : List Token} {hit : Token}
    (h : splitBracket? bracket depth ts = some (before, hit, after)) :
    ts = before ++ hit :: after ∧ hit.isSpecial [bracket] := by
  induction ts generalizing depth before with
  | nil => cases h
  | cons t ts ih =>
    rw [splitBracket?] at h
    split at h
    · next hhit =>
      simp only [Option.some.injEq, Prod.mk.injEq] at h
      obtain ⟨rfl, rfl, rfl⟩ := h
      exact ⟨rfl, hhit.1⟩
    · obtain ⟨⟨before', hit', after'⟩, hsplit, heq⟩ := Option.map_eq_some_iff.1 h
      simp only [Prod.mk.injEq] at heq
      obtain ⟨rfl, rfl, rfl⟩ := heq
      obtain ⟨hts, hhit⟩ := ih hsplit
      exact ⟨by rw [hts]; rfl, hhit⟩

theorem splitClose?_eq {depth : Int} {ts before after : List Token}
    (h : splitClose? depth ts = some (before, after)) : ts = before ++ after := by
  induction ts generalizing depth before with
  | nil => cases h
  | cons t ts ih =>
    rw [splitClose?] at h
    split at h
    · simp only [Option.some.injEq, Prod.mk.injEq] at h
      obtain ⟨rfl, rfl⟩ := h
      rfl
    · obtain ⟨⟨before', after'⟩, hsplit, heq⟩ := Option.map_eq_some_iff.1 h
      simp only [Prod.mk.injEq] at heq
      obtain ⟨rfl, rfl⟩ := heq
      rw [ih hsplit]
      rfl

end HaskellStyle.Outside

namespace HaskellStyle

theorem infix_flatMap {α γ : Type} {f : α → List γ} {a : α} {as : List α} (h : a ∈ as) : f a <:+: as.flatMap f :=
  List.infix_of_mem_flatten (List.mem_map_of_mem h)

/--
Parts that are read one by one from groups consist of what the groups consist of.
-/
theorem flatMap_mapM {α ν γ : Type} {read : α → Option ν} {f : α → List γ} {g : ν → List γ}
    (hread : ∀ a node, read a = some node → g node = f a) {groups : List α} {nodes : List ν}
    (h : groups.mapM read = some nodes) : nodes.flatMap g = groups.flatMap f := by
  induction groups generalizing nodes with
  | nil =>
    cases h
    rfl
  | cons a groups ih =>
    rw [List.mapM_cons] at h
    obtain ⟨node, hnode, h⟩ := Option.bind_eq_some_iff.1 h
    obtain ⟨more, hmore, h⟩ := Option.bind_eq_some_iff.1 h
    cases h
    rw [List.flatMap_cons, List.flatMap_cons, hread a node hnode, ih hmore]

namespace ItemList

theorem infix_interleave {ι : Type} [HasTokens ι] {items : List ι} {item : ι} (h : item ∈ items)
    (commas : List Token) : tokens item <:+: interleave items commas := by
  induction items generalizing commas with
  | nil => cases h
  | cons first items ih =>
    cases commas with
    | nil =>
      rw [interleave]
      rcases List.mem_cons.1 h with rfl | h
      · exact (List.prefix_append _ _).isInfix
      · exact (ih h []).trans (List.suffix_append _ _).isInfix
    | cons comma commas =>
      rw [interleave]
      rcases List.mem_cons.1 h with rfl | h
      · exact (List.prefix_append _ _).isInfix
      · exact (ih h commas).trans ⟨tokens first ++ [comma], [], by simp⟩

theorem infix_tokens {ι : Type} [HasTokens ι] {list : ItemList ι} {item : ι} (h : item ∈ list.items) :
    tokens item <:+: tokens list :=
  (infix_interleave h list.commas).trans ⟨[list.opening], [list.closing], rfl⟩

theorem cut?_eq {depth : Nat} {ts part rest : List Token} {parts : List (Token × List Token)} {closing : Token}
    (h : cut? depth ts = some (part, parts, closing, rest)) :
    ts = part ++ (parts.flatMap fun p => p.1 :: p.2) ++ closing :: rest := by
  induction ts generalizing depth part parts with
  | nil => cases h
  | cons t ts ih =>
    have hkeep {depth : Nat} (h : (cut? depth ts).map
        (fun y => (t :: y.1, y.2.1, y.2.2.1, y.2.2.2)) = some (part, parts, closing, rest)) :
        t :: ts = part ++ (parts.flatMap fun p => p.1 :: p.2) ++ closing :: rest := by
      obtain ⟨⟨part', parts', closing', rest'⟩, hcut, heq⟩ := Option.map_eq_some_iff.1 h
      simp only [Prod.mk.injEq] at heq
      obtain ⟨rfl, rfl, rfl, rfl⟩ := heq
      rw [ih hcut]
      rfl
    unfold cut? at h
    dsimp only at h
    split at h
    · split at h
      · simp only [Option.some.injEq, Prod.mk.injEq] at h
        obtain ⟨rfl, rfl, rfl, rfl⟩ := h
        rfl
      · exact hkeep h
    · split at h
      · exact hkeep h
      · split at h
        · obtain ⟨⟨part', parts', closing', rest'⟩, hcut, heq⟩ := Option.map_eq_some_iff.1 h
          simp only [Prod.mk.injEq] at heq
          obtain ⟨rfl, rfl, rfl, rfl⟩ := heq
          rw [ih hcut]
          simp
        · exact hkeep h

/--
Entries with the commas between them are the parts that they were read from.
-/
theorem interleave_entries? {part : List Token} {parts : List (Token × List Token)} {items : List Entry}
    (h : entries? (part :: parts.map Prod.snd) = some items) :
    interleave items (parts.map Prod.fst) = part ++ parts.flatMap fun p => p.1 :: p.2 := by
  induction parts generalizing part items with
  | nil =>
    cases part with
    | nil =>
      cases h
      rfl
    | cons t ts =>
      cases h
      rfl
  | cons p parts ih =>
    cases part with
    | nil => cases h
    | cons t ts =>
      rw [List.map_cons, entries?] at h
      obtain ⟨more, hmore, rfl⟩ := Option.map_eq_some_iff.1 h
      rw [List.map_cons, interleave, ih hmore]
      rfl

/--
A list and what follows it are the tokens that the list was read from.
-/
theorem ofTokens?_eq {opening : Token} {ts rest : List Token} {list : ItemList Entry}
    (h : ofTokens? opening ts = some (list, rest)) : tokens list ++ rest = opening :: ts := by
  obtain ⟨⟨part, parts, closing, rest'⟩, hcut, h⟩ := Option.bind_eq_some_iff.1 h
  obtain ⟨items, hentries, h⟩ := Option.bind_eq_some_iff.1 h
  cases h
  show opening :: interleave items (parts.map Prod.fst) ++ [closing] ++ rest = opening :: ts
  rw [interleave_entries? hentries, cut?_eq hcut]
  simp

end ItemList

theorem Import.ofTokens?_eq {keyword : Token} {ts : List Token} {i : Import} (h : ofTokens? keyword ts = some i) :
    tokens i = keyword :: ts := by
  unfold ofTokens? at h
  dsimp only at h
  split at h
  · split at h
    · cases h
    · obtain ⟨-, heq⟩ := Option.ite_none_right_eq_some.1 h
      cases heq
      simp [tokens, head]
  · next words opening rest hsplit =>
    obtain ⟨⟨list, tail⟩, hlist, h⟩ := Option.bind_eq_some_iff.1 h
    obtain ⟨-, heq⟩ := Option.ite_none_right_eq_some.1 h
    cases heq
    have hts := (Outside.splitBracket?_eq hsplit).1
    have hrest := ItemList.ofTokens?_eq hlist
    show (keyword :: words) ++ tokens list ++ tail = keyword :: ts
    rw [List.append_assoc, hrest, hts]
    rfl

theorem Signature.ofTokens?_eq {ts : List Token} {s : Signature} (h : ofTokens? ts = some s) : tokens s = ts := by
  obtain ⟨⟨names, colons, type⟩, hsplit, h⟩ := Option.bind_eq_some_iff.1 h
  dsimp only at h
  split at h
  · cases h
  · cases h
    exact (Outside.split?_tokens hsplit).1.symm

theorem Field.ofEntry?_eq {entry : Entry} {f : Field} (h : ofEntry? entry = some f) : tokens f = tokens entry := by
  obtain ⟨⟨names, colons, type⟩, hsplit, h⟩ := Option.bind_eq_some_iff.1 h
  dsimp only at h
  split at h
  · cases h
  · cases h
    exact (Outside.split?_tokens hsplit).1.symm

namespace ItemList

theorem interleave_mapM {items : List Entry} {fields : List Field} (h : items.mapM Field.ofEntry? = some fields)
    (commas : List Token) : interleave fields commas = interleave items commas := by
  induction items generalizing fields commas with
  | nil =>
    cases h
    rfl
  | cons item items ih =>
    rw [List.mapM_cons] at h
    obtain ⟨field, hfield, h⟩ := Option.bind_eq_some_iff.1 h
    obtain ⟨more, hmore, h⟩ := Option.bind_eq_some_iff.1 h
    cases h
    cases commas with
    | nil => rw [interleave, interleave, Field.ofEntry?_eq hfield, ih hmore]
    | cons comma commas => rw [interleave, interleave, Field.ofEntry?_eq hfield, ih hmore]

end ItemList

theorem Constructor.ofTokens?_eq {ts : List Token} {c : Constructor} (h : ofTokens? ts = some c) : tokens c = ts := by
  unfold ofTokens? at h
  split at h
  · split at h
    · cases h
      simp [tokens, before]
    · cases h
  · cases h
  · next first more opening rest hsplit =>
    obtain ⟨⟨list, after⟩, hlist, h⟩ := Option.bind_eq_some_iff.1 h
    obtain ⟨items, hitems, h⟩ := Option.bind_eq_some_iff.1 h
    dsimp only at h
    split at h
    · cases h
    · cases h
      have hts := (Outside.splitBracket?_eq hsplit).1
      have hrest := ItemList.ofTokens?_eq hlist
      show (first :: more) ++ (opening :: ItemList.interleave items list.commas ++ [list.closing]) ++ after = ts
      have hopening : list.opening = opening := by
        have := congrArg List.head? hrest
        exact Option.some.inj this
      have hrecord : opening :: ItemList.interleave items list.commas ++ [list.closing] = tokens list := by
        rw [ItemList.interleave_mapM hitems, ← hopening]
        rfl
      rw [hrecord, List.append_assoc, hrest, hts]

namespace Deriving

theorem classes?_eq {ts classes rest : List Token} (h : classes? ts = some (classes, rest)) :
    classes ++ rest = ts := by
  unfold classes? at h
  split at h
  · cases h
  · split at h
    · obtain ⟨⟨inner, rest'⟩, hclose, heq⟩ := Option.map_eq_some_iff.1 h
      cases heq
      rw [Outside.splitClose?_eq hclose]
      rfl
    · split at h
      · cases h
        rfl
      · cases h

theorem splitStrategy_eq (ts : List Token) : (splitStrategy ts).1.toList ++ (splitStrategy ts).2 = ts := by
  unfold splitStrategy
  split
  · rfl
  · split <;> rfl

theorem ofTokens?_eq {keyword : Token} {ts : List Token} {d : Deriving} (h : ofTokens? keyword ts = some d) :
    tokens d = keyword :: ts := by
  unfold ofTokens? at h
  dsimp only at h
  obtain ⟨⟨classes, via⟩, hclasses, h⟩ := Option.bind_eq_some_iff.1 h
  dsimp only at h
  split at h
  · cases h
    have hrest := classes?_eq hclasses
    have hstrategy := splitStrategy_eq ts
    show keyword :: (splitStrategy ts).1.toList ++ classes ++ via = keyword :: ts
    rw [List.append_assoc, hrest, List.cons_append, hstrategy]
  · cases h

end Deriving

theorem DataDecl.ofTokens?_eq {keyword : Token} {ts : List Token} {d : DataDecl} (h : ofTokens? keyword ts = some d) :
    tokens d = keyword :: ts := by
  obtain ⟨⟨head, equals, rest⟩, hsplit, h⟩ := Option.bind_eq_some_iff.1 h
  dsimp only at h
  split at h
  · cases h
  · obtain ⟨constructor, hconstructor, h⟩ := Option.bind_eq_some_iff.1 h
    obtain ⟨others, hothers, h⟩ := Option.bind_eq_some_iff.1 h
    obtain ⟨derivings, hderivings, h⟩ := Option.bind_eq_some_iff.1 h
    cases h
    -- The tokens are cut at the equals sign, the deriving clauses and the bars, in this order.
    have hts := (Outside.split?_tokens hsplit).1
    have hclauses := Outside.splitAll_tokens (p := (·.isKeyword ["deriving"])) 0 rest
    have hgroups := Outside.splitAll_tokens (p := (·.isReservedOp ["|"])) 0
      (Outside.splitAll some (·.isKeyword ["deriving"]) 0 rest).1
    have hmore := flatMap_mapM (f := fun group : Token × List Token => group.1 :: group.2)
      (g := fun led : Token × Constructor => led.1 :: tokens led.2) (fun group led hled => by
        obtain ⟨c, hc, rfl⟩ := Option.map_eq_some_iff.1 hled
        rw [Constructor.ofTokens?_eq hc]) hothers
    have hderive := flatMap_mapM (f := fun group : Token × List Token => group.1 :: group.2) (g := tokens)
      (fun group d hd => Deriving.ofTokens?_eq hd) hderivings
    show keyword :: head ++ (equals :: tokens constructor ++ others.flatMap fun led => led.1 :: tokens led.2)
      ++ derivings.flatMap tokens = keyword :: ts
    rw [hmore, hderive, Constructor.ofTokens?_eq hconstructor, List.cons_append (a := equals), hgroups, hts,
      List.append_assoc, List.cons_append (a := equals), hclauses]
    rfl

namespace Segment

variable {β : Type}

theorem token?_eq_some (segment : Segment β) (t : Token) (h : segment.token? = some t) : segment = .token t := by
  cases segment with
  | token t' => exact congrArg Segment.token (Option.some.inj h)
  | block b => cases h

@[simp]
theorem flat?_nil : flat? ([] : List (Segment β)) = some [] :=
  rfl

@[simp]
theorem flat?_token (t : Token) (segments : List (Segment β)) :
    flat? (.token t :: segments) = (flat? segments).map (t :: ·) := by
  have hflat : isFlat (.token t :: segments) = isFlat segments := rfl
  have htop : topTokens (.token t :: segments) = t :: topTokens segments := rfl
  rw [flat?, flat?, hflat, htop]
  split <;> rfl

@[simp]
theorem flat?_block (b : β) (segments : List (Segment β)) : flat? (.block b :: segments) = none :=
  rfl

theorem flat?_eq_some_iff {segments : List (Segment β)} {ts : List Token} :
    flat? segments = some ts ↔ segments = ts.map .token := by
  induction segments generalizing ts with
  | nil => rw [flat?_nil, Option.some.injEq, eq_comm, eq_comm (a := []), List.map_eq_nil_iff]
  | cons segment segments ih =>
    cases segment with
    | token t =>
      rw [flat?_token, Option.map_eq_some_iff]
      constructor
      · rintro ⟨us, hus, rfl⟩
        rw [List.map_cons, ← ih.1 hus]
      · intro h
        cases ts with
        | nil => cases h
        | cons u us =>
          obtain ⟨ht, hus⟩ := List.cons.inj h
          cases ht
          exact ⟨us, ih.2 hus, rfl⟩
    | block b =>
      rw [flat?_block]
      constructor
      · intro h
        cases h
      · intro h
        cases ts <;> cases h

theorem tokensWith_of_flat? (f : β → List Token) {segments : List (Segment β)} {ts : List Token}
    (h : flat? segments = some ts) : tokensWith f segments = ts := by
  rw [flat?_eq_some_iff.1 h, tokensWith_map_token]

theorem blocks_of_flat? {segments : List (Segment β)} {ts : List Token} (h : flat? segments = some ts) :
    blocks segments = [] := by
  rw [flat?_eq_some_iff.1 h, blocks_map_token]

end Segment

section Clause

variable {β : Type} (f : β → List Token)

theorem Guard.ofSegments?_eq {separator : Token → Bool} {bar : Token} {segments : List (Segment β)} {g : Guard β}
    (h : ofSegments? separator bar segments = some g) :
    g.tokensWith f = bar :: Segment.tokensWith f segments ∧ g.blocks = Segment.blocks segments := by
  obtain ⟨⟨condition, equals, body⟩, hsplit, rfl⟩ := Option.map_eq_some_iff.1 h
  rw [(Outside.split?_eq Segment.token Segment.token?_eq_some hsplit).1]
  simp [tokensWith, blocks]

/--
Guards read from segments, the first behind `bar`, have their tokens and their blocks.
-/
theorem Guard.mapM_ofSegments?_eq {separator : Token → Bool} {bar : Token} {segments : List (Segment β)}
    {guard : Guard β} {more : List (Guard β)}
    (hguard : ofSegments? separator bar
      (Outside.splitAll Segment.token? (·.isReservedOp ["|"]) 0 segments).1 = some guard)
    (hmore : (Outside.splitAll Segment.token? (·.isReservedOp ["|"]) 0 segments).2.mapM
      (fun group => ofSegments? separator group.1 group.2) = some more) :
    (guard :: more).flatMap (tokensWith f) = bar :: Segment.tokensWith f segments
      ∧ (guard :: more).flatMap blocks = Segment.blocks segments := by
  have hsegments := Outside.splitAll_eq (p := (·.isReservedOp ["|"])) Segment.token Segment.token?_eq_some 0 segments
  obtain ⟨htokens, hblocks⟩ := ofSegments?_eq f hguard
  have hmoreTokens := flatMap_mapM (f := fun group : Token × List (Segment β) =>
    Segment.tokensWith f (.token group.1 :: group.2)) (fun _ _ h => (ofSegments?_eq f h).1) hmore
  have hmoreBlocks := flatMap_mapM (f := fun group : Token × List (Segment β) => Segment.blocks group.2) (fun _ _ h => (ofSegments?_eq f h).2) hmore
  constructor
  · rw [List.flatMap_cons, htokens, hmoreTokens, List.cons_append]
    conv => rhs; rw [← hsegments, Segment.tokensWith_append, Segment.tokensWith, Segment.tokensWith, List.flatMap_assoc]
    rfl
  · rw [List.flatMap_cons, hblocks, hmoreBlocks]
    conv => rhs; rw [← hsegments, Segment.blocks_append, Segment.blocks, Segment.blocks, List.filterMap_flatMap]
    rfl

theorem Equation.ofSegments?_eq {separator : Token → Bool} {segments : List (Segment β)} {e : Equation β}
    (h : ofSegments? separator segments = some e) :
    e.tokensWith f = Segment.tokensWith f segments ∧ e.blocks = Segment.blocks segments := by
  obtain ⟨⟨lhs, mark, rest⟩, hsplit, h⟩ := Option.bind_eq_some_iff.1 h
  rw [(Outside.split?_eq Segment.token Segment.token?_eq_some hsplit).1]
  dsimp only at h
  split at h
  · cases h
  · split at h
    · obtain ⟨guard, hguard, h⟩ := Option.bind_eq_some_iff.1 h
      obtain ⟨more, hmore, h⟩ := Option.bind_eq_some_iff.1 h
      cases h
      obtain ⟨htokens, hblocks⟩ := Guard.mapM_ofSegments?_eq f hguard hmore
      constructor
      · rw [tokensWith, Rhs.tokensWith, htokens, Segment.tokensWith_append, Segment.tokensWith_token]
      · rw [blocks, Segment.blocks_append, Segment.blocks_token, ← hblocks]
    · cases h
      simp [tokensWith, blocks, Rhs.tokensWith]

theorem WhereClause.split_eq (segments : List (Segment β)) :
    segments = (split segments).1 ++ (split segments).2.toList.flatMap fun w => [.token w.keyword, .block w.block] := by
  unfold split
  split
  · next block keyword before hreverse =>
    split
    · have hsegments := congrArg List.reverse hreverse
      rw [List.reverse_reverse] at hsegments
      rw [hsegments]
      simp
    · simp
  · simp

theorem Clause.ofSegments?_eq {separator : Token → Bool} {segments : List (Segment β)} {c : Clause β}
    (h : ofSegments? separator segments = some c) :
    c.tokensWith f = Segment.tokensWith f segments ∧ c.blocks = Segment.blocks segments := by
  have hsegments := WhereClause.split_eq segments
  change (Equation.ofSegments? separator (WhereClause.split segments).1).map (⟨·, (WhereClause.split segments).2⟩)
    = some c at h
  obtain ⟨e, he, rfl⟩ := Option.map_eq_some_iff.1 h
  obtain ⟨htokens, hblocks⟩ := Equation.ofSegments?_eq f he
  rw [tokensWith, blocks, htokens, hblocks]
  conv in Segment.tokensWith f segments => rw [hsegments]
  conv in Segment.blocks segments => rw [hsegments]
  cases (WhereClause.split segments).2 with
  | none => simp
  | some w => simp

end Clause

namespace Item

variable {β : Type} (f : β → List Token)

/--
The tokens of an item, given those of its blocks.
-/
def tokensWith : Item β → List Token
  | .pragma p => tokens p
  | .signature s => tokens s
  | .clause _ c => c.tokensWith f
  | .statement run | .raw run => Segment.tokensWith f run.segments

/--
An item read from a run has its tokens and its blocks.
-/
structure Keeps (run : Run β) (item : Item β) : Prop where
  tokens_eq : item.tokensWith f = Segment.tokensWith f run.segments
  blocks_eq : item.blocks = run.blocks

theorem keeps_clause {separator : Token → Bool} {run : Run β} {c : Clause β} (form : ClauseForm)
    (h : Clause.ofSegments? separator run.segments = some c) : Keeps f run (.clause form c) := by
  obtain ⟨htokens, hblocks⟩ := Clause.ofSegments?_eq f h
  exact ⟨htokens, hblocks⟩

theorem keeps_ofDeclaration (form : ClauseForm) {other : Run β → Item β} (hother : ∀ run, Keeps f run (other run))
    (run : Run β) : Keeps f run (ofDeclaration form other run) := by
  unfold ofDeclaration
  split
  · next hpragma =>
    rw [Bool.and_eq_true, List.isEmpty_iff] at hpragma
    constructor
    · rw [Run.segments, hpragma.2]
      rfl
    · rw [Run.blocks, hpragma.2]
      rfl
  · split
    · next s hs =>
      obtain ⟨ts, hflat, hs⟩ := Option.bind_eq_some_iff.1 hs
      constructor
      · rw [Segment.tokensWith_of_flat? f hflat, tokensWith, Signature.ofTokens?_eq hs]
      · exact (Segment.blocks_of_flat? hflat).symm
    · split
      · next c hc => exact keeps_clause f form hc
      · exact hother run

theorem keeps_ofRun (kind : BlockKind) (run : Run β) : Keeps f run (ofRun kind run) := by
  have hstatement (run : Run β) : Keeps f run (.statement run) := ⟨rfl, rfl⟩
  have hraw (run : Run β) : Keeps f run (.raw run) := ⟨rfl, rfl⟩
  have hcase : Keeps f run (ofRun .ofBlock run) := by
    rw [ofRun]
    split
    · next c hc => exact keeps_clause f _ hc
    · exact hstatement run
  cases kind with
  | doBlock => exact hstatement run
  | ofBlock => exact hcase
  | lambdaCase => exact hcase
  | letBlock => exact keeps_ofDeclaration f _ hstatement run
  | whereBlock => exact keeps_ofDeclaration f _ hraw run
  | declarations => exact keeps_ofDeclaration f _ hraw run

end Item

namespace Declaration

/--
The blocks of a declaration.
-/
def blocks : Declaration → List Block
  | .importing _ | .pragma _ | .signature _ | .data _ => []
  | .clause c _ => c.blocks
  | .raw run => run.blocks

theorem tokens_ne_nil (d : Declaration) : tokens d ≠ [] := by
  cases d with
  | importing i => exact List.cons_ne_nil _ _
  | pragma p => exact List.cons_ne_nil _ _
  | signature s => simp [tokens]
  | data d => exact List.cons_ne_nil _ _
  | clause c layout =>
    obtain ⟨⟨lhs, rhs⟩, locals⟩ := c
    cases rhs <;> simp [tokens, Clause.tokensWith, Equation.tokensWith, Rhs.tokensWith, Guard.tokensWith]
  | raw run => exact List.cons_ne_nil _ _

/--
A declaration read from a run has its tokens and its blocks.
-/
structure Keeps (run : Run Block) (d : Declaration) : Prop where
  tokens_eq : tokens d = tokens run
  blocks_eq : d.blocks = run.blocks

theorem keeps_raw (run : Run Block) : Keeps run (.raw run) :=
  ⟨rfl, rfl⟩

/--
A part without blocks is read from segments without blocks.
-/
theorem keeps_of_flat? {ν : Type} [HasTokens ν] {run : Run Block} {read : List Token → Option ν} {n : ν}
    (hread : ∀ ts, read ts = some n → tokens n = run.first :: ts)
    (h : (Segment.flat? run.rest).bind read = some n) : tokens n = tokens run ∧ [] = run.blocks := by
  obtain ⟨ts, hflat, hnode⟩ := Option.bind_eq_some_iff.1 h
  constructor
  · rw [hread ts hnode, ← Segment.tokensWith_of_flat? Block.tokens hflat]
    rfl
  · rw [Run.blocks, Segment.blocks_of_flat? hflat]

theorem keeps_ofBinding (run : Run Block) : Keeps run (ofBinding run) := by
  unfold ofBinding
  split
  · next s hs =>
    obtain ⟨ts, hflat, hs⟩ := Option.bind_eq_some_iff.1 hs
    constructor
    · show tokens s = Segment.tokensWith Block.tokens run.segments
      rw [Segment.tokensWith_of_flat? Block.tokens hflat, Signature.ofTokens?_eq hs]
    · exact (Segment.blocks_of_flat? hflat).symm
  · split
    · next c hc =>
      obtain ⟨htokens, hblocks⟩ := Clause.ofSegments?_eq Block.tokens hc
      exact ⟨htokens, hblocks⟩
    · exact keeps_raw run

theorem keeps_ofRun (run : Run Block) : Keeps run (ofRun run) := by
  unfold ofRun
  dsimp only
  split
  · split
    · next i hi =>
      obtain ⟨htokens, hblocks⟩ := keeps_of_flat? (n := i) (fun _ => Import.ofTokens?_eq) hi
      exact ⟨htokens, hblocks⟩
    · exact keeps_raw run
  · split
    · next hpragma =>
      rw [Bool.and_eq_true, List.isEmpty_iff] at hpragma
      constructor
      · show [run.first] = Segment.tokens (.token run.first :: run.rest)
        rw [hpragma.2]
        rfl
      · rw [Run.blocks, hpragma.2]
        rfl
    · split
      · split
        · next d hd =>
          obtain ⟨htokens, hblocks⟩ := keeps_of_flat? (n := d) (fun _ => DataDecl.ofTokens?_eq) hd
          exact ⟨htokens, hblocks⟩
        · exact keeps_raw run
      · split
        · exact keeps_raw run
        · exact keeps_ofBinding run

end Declaration

end HaskellStyle
