import HaskellStyle.Proofs.Block.Faithful
import HaskellStyle.Proofs.Declaration.Map
import HaskellStyle.Proofs.Module.Read
import HaskellStyle.Proofs.Token.Faithful

/-!
This module contains the parts, the header and the body that replaced tokens form: those that the tokens themselves form,
with their tokens replaced.
-/

namespace HaskellStyle

variable (f : Token → Token)

section

variable [Token.Faithful f]

namespace Outside

section

variable {α β : Type} {view : α → Option Token} {view' : β → Option Token} {h : α → β} {p : Token → Bool}

theorem split?_map (hview : ∀ x, view' (h x) = (view x).map f) (hp : ∀ t, p (f t) = p t)
    (depth : Int) (xs : List α) :
    split? view' p depth (xs.map h)
      = (split? view p depth xs).map fun (before, hit, after) => (before.map h, f hit, after.map h) := by
  induction xs generalizing depth with
  | nil => rfl
  | cons x xs ih =>
    rw [List.map_cons, split?, split?, hview]
    cases view x with
    | none => simp [ih, Function.comp_def]
    | some t =>
      simp only [Option.map_some, Token.bracketStep_map, hp, ih]
      split
      · rfl
      · simp [Function.comp_def]

theorem splitAll_map (hview : ∀ x, view' (h x) = (view x).map f) (hp : ∀ t, p (f t) = p t)
    (depth : Int) (xs : List α) :
    splitAll view' p depth (xs.map h)
      = ((splitAll view p depth xs).1.map h,
        (splitAll view p depth xs).2.map fun (hit, group) => (f hit, group.map h)) := by
  induction xs generalizing depth with
  | nil => rfl
  | cons x xs ih =>
    rw [List.map_cons, splitAll, splitAll, hview]
    cases view x with
    | none => simp [ih]
    | some t =>
      simp only [Option.map_some, Token.bracketStep_map, hp, ih]
      split <;> simp

end

theorem splitBracket?_map {bracket : String} (hbracket : Token.AreLines [bracket]) (depth : Int) (ts : List Token) :
    splitBracket? bracket depth (ts.map f)
      = (splitBracket? bracket depth ts).map fun (before, hit, after) =>
        (before.map f, f hit, after.map f) := by
  induction ts generalizing depth with
  | nil => rfl
  | cons t ts ih =>
    simp only [List.map_cons, splitBracket?, Token.isSpecial_map f t hbracket, Token.bracketStep_map, ih]
    split
    · rfl
    · simp [Function.comp_def]

theorem splitClose?_map (depth : Int) (ts : List Token) :
    splitClose? depth (ts.map f)
      = (splitClose? depth ts).map fun (before, after) =>
        (before.map f, after.map f) := by
  induction ts generalizing depth with
  | nil => rfl
  | cons t ts ih =>
    simp only [List.map_cons, splitClose?, Token.isClosing_map, Token.bracketStep_map, ih]
    split
    · rfl
    · simp [Function.comp_def]

@[simp] theorem tokens_map (depth : Int) (ts : List Token) :
    tokens depth (ts.map f) = (tokens depth ts).map f := by
  induction ts generalizing depth with
  | nil => rfl
  | cons t ts ih =>
    simp only [List.map_cons, tokens, Token.bracketStep_map, ih]
    split <;> rfl

end Outside

omit [Token.Faithful f] in
theorem some_map (t : Token) : some (f t) = (some t).map f := rfl

namespace ItemList

theorem cut?_map (depth : Nat) (ts : List Token) :
    cut? depth (ts.map f)
      = (cut? depth ts).map fun (part, parts, closing, rest) =>
        (part.map f, parts.map fun (comma, part) => (f comma, part.map f),
          f closing, rest.map f) := by
  induction ts generalizing depth with
  | nil => rfl
  | cons t ts ih =>
    simp (disch := decide) only [List.map_cons, cut?, Token.isClosing_map, Token.isOpening_map,
      Token.isSpecial_map, ih]
    split
    · split
      · rfl
      · simp [Function.comp_def]
    · repeat' split
      all_goals simp [Function.comp_def]

omit [Token.Faithful f] in
theorem entries?_map (parts : List (List Token)) :
    entries? (parts.map (·.map f)) = (entries? parts).map (·.map (mapTokens f)) := by
  induction parts with
  | nil => rfl
  | cons part parts ih =>
    match part, parts with
    | [], [] => rfl
    | [], _ :: _ => rfl
    | t :: ts, parts =>
      simp only [List.map_cons, entries?, ih, Option.map_map]
      rfl

theorem ofTokens?_map (opening : Token) (ts : List Token) :
    ofTokens? (f opening) (ts.map f)
      = (ofTokens? opening ts).map fun (list, rest) => (mapTokens f list, rest.map f) := by
  unfold ofTokens?
  rw [cut?_map]
  cases cut? 0 ts with
  | none => rfl
  | some cut =>
    obtain ⟨part, parts, closing, rest⟩ := cut
    have hparts : (part.map f
          :: (parts.map fun (comma, part) => (f comma, part.map f)).map Prod.snd)
        = (part :: parts.map Prod.snd).map (·.map f) := by
      simp
    simp only [Option.map_some, Option.bind_eq_bind, Option.bind_some, hparts, entries?_map]
    cases entries? (part :: parts.map Prod.snd) with
    | none => rfl
    | some items =>
      simp only [Option.map_some, Option.bind_some, Option.pure_def, List.map_map]
      exact congrArg some (Prod.ext (by simp [mapTokens, Function.comp_def]) rfl)

end ItemList

theorem Import.ofTokens?_map (keyword : Token) (ts : List Token) :
    ofTokens? (f keyword) (ts.map f) = (ofTokens? keyword ts).map (mapTokens f) := by
  have hname (i : Import) : (mapTokens f i).moduleName?.isSome = i.moduleName?.isSome := by
    simp [moduleName?, mapTokens, List.find?_map, Function.comp_def, Token.kind_map f]
  have hcheck (i : Import) : (if (mapTokens f i).moduleName?.isSome then some (mapTokens f i) else none)
      = (if i.moduleName?.isSome then some i else none).map (mapTokens f) := by
    rw [hname]
    split <;> rfl
  unfold ofTokens?
  rw [Outside.splitBracket?_map f (by decide)]
  cases Outside.splitBracket? "(" 0 ts with
  | none =>
    simp only [Option.map_none, List.any_map, Function.comp_def, Token.isOpening_map, Token.isClosing_map]
    split
    · rfl
    · exact hcheck { keyword, words := ts }
  | some split =>
    obtain ⟨words, opening, rest⟩ := split
    simp only [Option.map_some, ItemList.ofTokens?_map]
    cases ItemList.ofTokens? opening rest with
    | none => rfl
    | some read =>
      obtain ⟨list, tail⟩ := read
      exact hcheck { keyword, words, list := some list, tail }

/--
What a function makes of all elements, if it makes the same of the replaced elements.
-/
theorem mapM_map {α β γ δ : Type} {f : α → Option β} {k : γ → Option δ} {g : α → γ} {j : β → δ}
    (h : ∀ x, k (g x) = (f x).map j) (l : List α) : (l.map g).mapM k = (l.mapM f).map (List.map j) := by
  induction l with
  | nil => rfl
  | cons x l ih =>
    rw [List.map_cons, List.mapM_cons, List.mapM_cons, h, ih]
    cases f x with
    | none => rfl
    | some y => cases l.mapM f <;> rfl

theorem Field.ofEntry?_map (entry : Entry) :
    ofEntry? (mapTokens f entry) = ( ofEntry? entry).map (mapTokens f) := by
  unfold ofEntry?
  rw [tokens_mapTokens, Outside.split?_map f (some_map f) fun t => Token.isReservedOp_map f t (by decide)]
  cases Outside.split? some (·.isReservedOp ["::", "∷"]) 0 (tokens entry) with
  | none => rfl
  | some split =>
    obtain ⟨names, colons, type⟩ := split
    simp only [Option.map_some, Option.bind_eq_bind, Option.bind_some, List.isEmpty_map]
    split <;> rfl

theorem Constructor.ofTokens?_map (ts : List Token) :
    ofTokens? (ts.map f) = (ofTokens? ts).map (mapTokens f) := by
  unfold ofTokens?
  rw [Outside.splitBracket?_map f (by decide)]
  match Outside.splitBracket? "\x7b" 0 ts with
  | none => cases ts <;> rfl
  | some ([], _, _) => rfl
  | some (first :: more, opening, rest) =>
    simp only [Option.map_some, List.map_cons, ItemList.ofTokens?_map]
    cases ItemList.ofTokens? opening rest with
    | none => rfl
    | some read =>
      obtain ⟨list, after⟩ := read
      have hitems : (mapTokens f list).items = list.items.map (mapTokens f) := rfl
      have hcomma : (mapTokens f list).hasTrailingComma = list.hasTrailingComma := by
        simp [ItemList.hasTrailingComma, mapTokens]
      simp only [Option.map_some, Option.bind_eq_bind, Option.bind_some, hitems, hcomma,
        mapM_map (Field.ofEntry?_map f)]
      cases list.items.mapM Field.ofEntry? with
      | none => rfl
      | some fields =>
        simp only [Option.map_some, Option.bind_some]
        split <;> rfl

namespace Deriving

theorem classes?_map (ts : List Token) :
    classes? (ts.map f)
      = (classes? ts).map fun (classes, rest) => (classes.map f, rest.map f) := by
  cases ts with
  | nil => rfl
  | cons t ts =>
    simp (disch := decide) only [List.map_cons, classes?, Token.isSpecial_map, Token.kind_map,
      Outside.splitClose?_map]
    split
    · simp [Function.comp_def]
    · split <;> rfl

theorem splitStrategy_map (ts : List Token) :
    splitStrategy (ts.map f)
      = ((splitStrategy ts).1.map f, (splitStrategy ts).2.map f) := by
  cases ts with
  | nil => rfl
  | cons t ts =>
    have hwords := Token.contains_map f t (show Token.AreLines ["stock", "anyclass", "newtype"] by decide)
    rw [List.map_cons, splitStrategy, splitStrategy]
    simp only [Token.kind_map, hwords]
    split <;> rfl

theorem ofTokens?_map (keyword : Token) (ts : List Token) :
    ofTokens? (f keyword) (ts.map f) = (ofTokens? keyword ts).map (mapTokens f) := by
  unfold ofTokens?
  rw [splitStrategy_map]
  obtain ⟨strategy, rest⟩ := splitStrategy ts
  dsimp only
  rw [classes?_map]
  cases classes? rest with
  | none => rfl
  | some read =>
    obtain ⟨classes, via⟩ := read
    have hvia : (via.map f).head?.all (fun t => t.kind = .varId && t.text == "via")
        = via.head?.all fun t => t.kind = .varId && t.text == "via" := by
      cases via with
      | nil => rfl
      | cons t via =>
        simp only [List.map_cons, List.head?_cons, Option.all_some, Token.kind_map,
          Token.text_map f t (show Token.AreLines ["via"] by decide)]
    simp only [Option.map_some, Option.bind_eq_bind, Option.bind_some, hvia]
    split <;> rfl

end Deriving

theorem Constructor.mapM_ofTokens?_map (groups : List (Token × List Token)) :
    (groups.map fun (bar, group) => (f bar, group.map f)).mapM
        (fun (bar, group) => (Constructor.ofTokens? group).map (bar, ·))
      = Option.map (List.map fun (bar, c) => (f bar, mapTokens f c))
        (groups.mapM fun (bar, group) => (Constructor.ofTokens? group).map (bar, ·)) :=
  mapM_map (fun x => by simp [Constructor.ofTokens?_map, Function.comp_def]) groups

theorem Deriving.mapM_ofTokens?_map (clauses : List (Token × List Token)) :
    (clauses.map fun (keyword, ts) => (f keyword, ts.map f)).mapM (fun (keyword, ts) => Deriving.ofTokens? keyword ts)
      = (clauses.mapM fun (keyword, ts) => Deriving.ofTokens? keyword ts).map (List.map (mapTokens f)) :=
  mapM_map (fun x => Deriving.ofTokens?_map f x.1 x.2) clauses

theorem DataDecl.ofTokens?_map (keyword : Token) (ts : List Token) :
    ofTokens? (f keyword) (ts.map f) = (ofTokens? keyword ts).map (mapTokens f) := by
  unfold ofTokens?
  rw [Outside.split?_map f (some_map f) fun t => Token.isReservedOp_map f t (by decide)]
  cases Outside.split? some (·.isReservedOp ["="]) 0 ts with
  | none => rfl
  | some split =>
    obtain ⟨head, equals, rest⟩ := split
    simp (disch := decide) only [Option.map_some, Option.bind_eq_bind, Option.bind_some, List.isEmpty_map, List.any_map,
      Function.comp_def, Token.isKeyword_map]
    split
    · rfl
    · rw [Outside.splitAll_map f (some_map f) fun t => Token.isKeyword_map f t (by decide)]
      obtain ⟨body, clauses⟩ := Outside.splitAll some (·.isKeyword ["deriving"]) 0 rest
      dsimp only
      rw [Outside.splitAll_map f (some_map f) fun t => Token.isReservedOp_map f t (by decide)]
      obtain ⟨group, groups⟩ := Outside.splitAll some (·.isReservedOp ["|"]) 0 body
      dsimp only
      rw [Constructor.ofTokens?_map]
      cases Constructor.ofTokens? group with
      | none => rfl
      | some constructor =>
        simp only [Option.map_some, Option.bind_some, Constructor.mapM_ofTokens?_map, Deriving.mapM_ofTokens?_map,
          Option.bind_map, Option.map_bind, Function.comp_def]
        rfl

namespace Signature

theorem areBinders_map (ts : List Token) : areBinders (ts.map f) = areBinders ts := by
  match ts with
  | [] => rfl
  | t :: ts =>
    unfold areBinders
    simp only [List.map_cons, Token.kind_map, Token.isSpecial_map f t (show Token.AreLines ["("] by decide)]
    split
    · match ts with
      | [] => rfl
      | comma :: more =>
        simp only [List.map_cons, Token.isSpecial_map f comma (show Token.AreLines [","] by decide),
          areBinders_map more]
    · split
      · match ts with
        | [] => rfl
        | [op] => rfl
        | [op, close] =>
          simp only [List.map_cons, List.map_nil, Token.isOperator_map,
            Token.isSpecial_map f close (show Token.AreLines [")"] by decide)]
        | op :: close :: comma :: more =>
          simp only [List.map_cons, Token.isOperator_map,
            Token.isSpecial_map f close (show Token.AreLines [")"] by decide),
            Token.isSpecial_map f comma (show Token.AreLines [","] by decide), areBinders_map more]
      · rfl
termination_by ts.length

theorem ofTokens?_map (ts : List Token) :
    ofTokens? (ts.map f) = (ofTokens? ts).map (mapTokens f) := by
  have hsome (type : List Token) : (Outside.split? some (·.isReservedOp ["="]) 0 (type.map f)).isSome
      = (Outside.split? some (·.isReservedOp ["="]) 0 type).isSome := by
    rw [Outside.split?_map f (some_map f) fun t => Token.isReservedOp_map f t (by decide), Option.isSome_map]
  unfold ofTokens?
  rw [Outside.split?_map f (some_map f) fun t => Token.isReservedOp_map f t (by decide)]
  cases Outside.split? some (·.isReservedOp ["::", "∷", "="]) 0 ts with
  | none => rfl
  | some split =>
    obtain ⟨names, colons, type⟩ := split
    simp (disch := decide) only [Option.map_some, Option.bind_eq_bind, Option.bind_some, Token.isReservedOp_map,
      areBinders_map, List.isEmpty_map, hsome]
    split <;> rfl

end Signature

section

variable {β γ : Type} (g : β → γ)

theorem Guard.ofSegments?_map {separator : Token → Bool} (hseparator : ∀ t, separator (f t) = separator t)
    (bar : Token) (segments : List (Segment β)) :
    ofSegments? separator (f bar) (segments.map (Segment.bimap f g))
      = (ofSegments? separator bar segments).map (Guard.bimap f g) := by
  unfold ofSegments?
  rw [Outside.split?_map f (Segment.token?_bimap _ g) hseparator]
  simp only [Option.map_map]
  rfl

theorem Guard.mapM_ofSegments?_map {separator : Token → Bool} (hseparator : ∀ t, separator (f t) = separator t)
    (groups : List (Token × List (Segment β))) :
    (groups.map fun (bar, group) => (f bar, group.map (Segment.bimap f g))).mapM
        (fun (bar, group) => Guard.ofSegments? separator bar group)
      = Option.map (List.map (Guard.bimap f g)) (groups.mapM fun (bar, group) => Guard.ofSegments? separator bar group) :=
  mapM_map (fun x => ofSegments?_map f g hseparator x.1 x.2) groups

theorem Equation.ofSegments?_map {separator : Token → Bool} (hseparator : ∀ t, separator (f t) = separator t)
    (segments : List (Segment β)) :
    ofSegments? separator (segments.map (Segment.bimap f g))
      = (ofSegments? separator segments).map (Equation.bimap f g) := by
  unfold ofSegments?
  dsimp only
  have hsame (t : Token) : (separator (f t) || (f t).isReservedOp ["|", "::"])
      = (separator t || t.isReservedOp ["|", "::"]) := by
    rw [hseparator, Token.isReservedOp_map f t (by decide)]
  rw [Outside.split?_map f (Segment.token?_bimap _ g) hsame]
  cases Outside.split? Segment.token? (fun t => separator t || t.isReservedOp ["|", "::"]) 0 segments with
  | none => rfl
  | some split =>
    obtain ⟨lhs, mark, rest⟩ := split
    simp (disch := decide) only [Option.map_some, Option.bind_eq_bind, Option.bind_some, List.isEmpty_map,
      Token.isReservedOp_map]
    split
    · rfl
    · split
      · rw [Outside.splitAll_map f (Segment.token?_bimap _ g) fun t => Token.isReservedOp_map f t (by decide)]
        obtain ⟨first, others⟩ := Outside.splitAll Segment.token? (·.isReservedOp ["|"]) 0 rest
        dsimp only
        rw [Guard.ofSegments?_map f g hseparator]
        cases Guard.ofSegments? separator mark first with
        | none => rfl
        | some guard =>
          simp only [Option.map_some, Option.bind_some, Guard.mapM_ofSegments?_map f g hseparator, Option.bind_map,
            Option.map_bind]
          rfl
      · rfl

theorem WhereClause.split_map (segments : List (Segment β)) :
    split (segments.map (Segment.bimap f g))
      = ((split segments).1.map (Segment.bimap f g),
        (split segments).2.map (WhereClause.bimap f g)) := by
  unfold split
  rw [← List.map_reverse]
  match segments.reverse with
  | [] => rfl
  | .token t :: more => rfl
  | [.block b] => rfl
  | .block b :: .block b' :: more => rfl
  | .block b :: .token t :: more =>
    simp (disch := decide) only [List.map_cons, Segment.bimap_block, Segment.bimap_token, Token.isKeyword_map]
    split
    · simp [WhereClause.bimap]
    · rfl

theorem Clause.ofSegments?_map {separator : Token → Bool} (hseparator : ∀ t, separator (f t) = separator t)
    (segments : List (Segment β)) :
    ofSegments? separator (segments.map (Segment.bimap f g))
      = (ofSegments? separator segments).map (Clause.bimap f g) := by
  unfold ofSegments?
  rw [WhereClause.split_map]
  dsimp only
  rw [Equation.ofSegments?_map f g hseparator, Option.map_map, Option.map_map]
  rfl

end

theorem Item.isEquals_map (t : Token) : isEquals (f t) = isEquals t :=
  Token.isReservedOp_map f t (by decide)

theorem Item.isArrow_map (t : Token) : isArrow (f t) = isArrow t :=
  Token.isReservedOp_map f t (by decide)

theorem Run.signature?_map {β γ : Type} (g : β → γ) (run : Run β) :
    (Segment.flat? (run.bimap f g).segments).bind Signature.ofTokens?
      = ((Segment.flat? run.segments).bind Signature.ofTokens?).map (mapTokens f) := by
  rw [Run.segments_bimap, Segment.flat?_bimap]
  cases Segment.flat? run.segments with
  | none => rfl
  | some ts => exact Signature.ofTokens?_map f ts

namespace Item

variable {β γ : Type} (g : β → γ)

theorem ofDeclaration_map (form : ClauseForm) {other : Run β → Item β} {other' : Run γ → Item γ}
    (hother : ∀ run, other' (run.bimap f g) = (other run).bimap f g) (run : Run β) :
    ofDeclaration form other' (run.bimap f g)
      = (ofDeclaration form other run).bimap f g := by
  have hclause := Clause.ofSegments?_map f g (isEquals_map f) run.segments
  have hfirst : (run.bimap f g).first.kind = run.first.kind := Token.kind_map f run.first
  have hrest : (run.bimap f g).rest.isEmpty = run.rest.isEmpty := List.isEmpty_map
  unfold ofDeclaration
  rw [Run.signature?_map, Run.segments_bimap, hclause, hother, hfirst, hrest]
  split
  · rfl
  · cases (Segment.flat? run.segments).bind Signature.ofTokens? with
    | some s => rfl
    | none => cases Clause.ofSegments? isEquals run.segments <;> rfl

/--
An item whose tokens are replaced is read as the item is, whatever stands for its blocks.
-/
theorem ofRun_map (kind : BlockKind) (run : Run β) :
    ofRun kind (run.bimap f g) = (ofRun kind run).bimap f g := by
  have hcase : ofRun .ofBlock (run.bimap f g) = (ofRun .ofBlock run).bimap f g := by
    have hclause := Clause.ofSegments?_map f g (isArrow_map f) run.segments
    unfold ofRun
    dsimp only
    rw [Run.segments_bimap, hclause]
    cases Clause.ofSegments? isArrow run.segments <;> rfl
  cases kind with
  | doBlock => rfl
  | ofBlock => exact hcase
  | lambdaCase => exact hcase
  | letBlock => exact ofDeclaration_map f g _ (fun _ => rfl) run
  | whereBlock => exact ofDeclaration_map f g _ (fun _ => rfl) run
  | declarations => exact ofDeclaration_map f g _ (fun _ => rfl) run

end Item

namespace Declaration

theorem isPatternSynonym_map (run : Run Block) :
    isPatternSynonym (run.bimap f (Block.map f)) = isPatternSynonym run := by
  obtain ⟨first, rest⟩ := run
  have hrest : ((rest.map (Segment.bimap f (Block.map f))).head?.bind Segment.token?).any
      (·.kind = .conId) = (rest.head?.bind Segment.token?).any (·.kind = .conId) := by
    cases rest with
    | nil => rfl
    | cons segment rest => cases segment <;> simp [Segment.token?, Token.kind_map f]
  have htext := Token.text_map f first (show Token.AreLines ["pattern"] by decide)
  simp only [isPatternSynonym, Run.bimap, Token.kind_map, hrest, htext]

theorem ofBinding_map (run : Run Block) :
    ofBinding (run.bimap f (Block.map f)) = (ofBinding run).map f := by
  have hsignature := Run.signature?_map f (Block.map f) run
  have hclause := Clause.ofSegments?_map f (Block.map f) (Item.isEquals_map f) run.segments
  unfold ofBinding
  rw [Run.segments_bimap] at hsignature ⊢
  rw [hsignature, hclause]
  cases (Segment.flat? run.segments).bind Signature.ofTokens? with
  | some s => rfl
  | none => cases Clause.ofSegments? Item.isEquals run.segments <;> rfl

theorem ofRun_map (run : Run Block) :
    ofRun (run.bimap f (Block.map f)) = (ofRun run).map f := by
  have hsynonym := isPatternSynonym_map f run
  have hbinding := ofBinding_map f run
  have hflat := Segment.flat?_bimap f (Block.map f) run.rest
  have himport : (Segment.flat? (run.rest.map (Segment.bimap f (Block.map f)))).bind
        (Import.ofTokens? (f run.first))
      = ((Segment.flat? run.rest).bind (Import.ofTokens? run.first)).map (mapTokens f) := by
    rw [hflat]
    cases Segment.flat? run.rest with
    | none => rfl
    | some ts => exact Import.ofTokens?_map f run.first ts
  have hdata : (Segment.flat? (run.rest.map (Segment.bimap f (Block.map f)))).bind
        (DataDecl.ofTokens? (f run.first))
      = ((Segment.flat? run.rest).bind (DataDecl.ofTokens? run.first)).map (mapTokens f) := by
    rw [hflat]
    cases Segment.flat? run.rest with
    | none => rfl
    | some ts => exact DataDecl.ofTokens?_map f run.first ts
  have hfirst : (run.bimap f (Block.map f)).first = f run.first := rfl
  have hrest : (run.bimap f (Block.map f)).rest
      = run.rest.map (Segment.bimap f (Block.map f)) := rfl
  unfold ofRun
  dsimp only
  rw [hsynonym, hbinding, hfirst, hrest, himport, hdata, hflat]
  simp (disch := decide) only [Token.isKeyword_map, Token.kind_map, List.isEmpty_map, Option.isSome_map]
  split
  · cases (Segment.flat? run.rest).bind (Import.ofTokens? run.first) <;> rfl
  · split
    · rfl
    · split
      · cases (Segment.flat? run.rest).bind (DataDecl.ofTokens? run.first) <;> rfl
      · split <;> rfl

end Declaration

namespace Header

theorem exportsOf_map (ts : List Token) :
    (exportsOf (ts.map f)).toOption
      = (exportsOf ts).toOption.map fun (exports, rest) => (exports.map (mapTokens f), rest.map f) := by
  cases ts with
  | nil => rfl
  | cons opening inner =>
    rw [List.map_cons, exportsOf, exportsOf, Token.isSpecial_map f opening (by decide), ItemList.ofTokens?_map]
    split
    · cases ItemList.ofTokens? opening inner <;> rfl
    · rfl

theorem ofTokens_map (keyword eof : Token) (ts : List Token) :
    (ofTokens (f keyword) (f eof) (ts.map f)).toOption
      = (ofTokens keyword eof ts).toOption.map fun (header, rest) => (mapTokens f header, rest.map f) := by
  have hkind : (fun t : Token => decide ((f t).kind = .pragma)) = fun t => decide (t.kind = .pragma) := by
    funext t
    rw [Token.kind_map]
  have hpragmas : ((ts.map f).drop 1).takeWhile (·.kind = .pragma)
      = ((ts.drop 1).takeWhile (·.kind = .pragma)).map f := by
    rw [← List.map_drop, List.takeWhile_map, Function.comp_def, hkind]
  have hrest : ((ts.map f).drop 1).dropWhile (·.kind = .pragma)
      = ((ts.drop 1).dropWhile (·.kind = .pragma)).map f := by
    rw [← List.map_drop, List.dropWhile_map, Function.comp_def, hkind]
  rw [ofTokens_eq_bind, ofTokens_eq_bind, headD_map, hpragmas, hrest, Token.kind_map]
  split
  · rfl
  · show (exportsOf _ >>= _).toOption = (exportsOf _ >>= _).toOption.map _
    rw [toOption_bind, toOption_bind, exportsOf_map]
    cases (exportsOf ((ts.drop 1).dropWhile (·.kind = .pragma))).toOption with
    | none => rfl
    | some cut =>
      obtain ⟨exports, rest⟩ := cut
      simp only [Option.map_some, Option.bind_some, headD_map]
      rw [Token.isKeyword_map f _ (by decide), ← List.map_drop]
      split <;> rfl

end Header

theorem Module.headerOf_map (eof : Token) (ts : List Token) :
    (headerOf (f eof) (ts.map f)).toOption
      = (headerOf eof ts).toOption.map fun (header, rest) => (header.map (mapTokens f), rest.map f) := by
  cases ts with
  | nil => rfl
  | cons keyword more =>
    rw [List.map_cons, headerOf, headerOf, Token.isKeyword_map f keyword (by decide)]
    split
    · rw [toOption_map, toOption_map, Header.ofTokens_map]
      cases (Header.ofTokens keyword eof more).toOption <;> rfl
    · rfl

end

namespace Module

theorem splitImports_map (ds : List Declaration) :
    splitImports (ds.map (mapTokens f))
      = ((splitImports ds).1.map (mapTokens f), (splitImports ds).2.map (mapTokens f)) := by
  induction ds with
  | nil => rfl
  | cons d ds ih =>
    cases d with
    | importing i =>
      have himport : mapTokens f (Declaration.importing i) = .importing (mapTokens f i) := rfl
      rw [List.map_cons, himport, splitImports, splitImports, ih]
      rfl
    | _ => rfl

theorem readBody_map [Token.KeepsColumns f] (eof : Token) (ts : List Token) :
    (readBody (f eof) (ts.map f)).toOption
      = (readBody eof ts).toOption.map (List.map (mapTokens f)) := by
  cases ts with
  | nil => rfl
  | cons t more =>
    have hlayout := Layout.read_map f eof (t :: more)
    rw [List.map_cons] at hlayout ⊢
    rw [readBody, readBody, Token.isSpecial_map f t (by decide)]
    split
    · refine congrArg (fun rest => some [Declaration.raw ⟨f t, rest⟩]) ?_
      rw [List.map_map, List.map_map]
      rfl
    · rw [toOption_bind, toOption_bind, hlayout]
      cases (Layout.read eof (t :: more)).toOption with
      | none => rfl
      | some items =>
        simp only [Option.map_some, Option.bind_some, toOption_pure, List.map_map, Option.some.injEq]
        exact List.map_congr_left fun run _ => Declaration.ofRun_map f run

end Module

end HaskellStyle
