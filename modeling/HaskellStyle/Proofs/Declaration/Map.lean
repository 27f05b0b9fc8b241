import HaskellStyle.Module.Basic
import HaskellStyle.Proofs.Block.Map

/-!
This module contains the replacement of the tokens of all parts of a module. The tokens of a part whose tokens were
replaced are its tokens, each of them replaced.
-/

namespace HaskellStyle

/--
A kind of parts whose tokens can be replaced.
-/
class MapTokens (ν : Type) [HasTokens ν] where
  mapTokens : (Token → Token) → ν → ν
  tokens_map : ∀ f node, tokens (mapTokens f node) = (tokens node).map f
  anchor_map : ∀ f node, HasTokens.anchor (mapTokens f node) = f (HasTokens.anchor node)

export MapTokens (mapTokens)

variable (f : Token → Token)

section

variable {ν : Type} [HasTokens ν] [MapTokens ν] (node : ν)

@[simp] theorem tokens_mapTokens : tokens (mapTokens f node) = (tokens node).map f :=
  MapTokens.tokens_map f node

@[simp] theorem firstToken_mapTokens : firstToken (mapTokens f node) = f (firstToken node) := by
  unfold firstToken
  rw [tokens_mapTokens, MapTokens.anchor_map]
  cases tokens node <;> rfl

theorem List.getLastD_map {α β : Type} (g : α → β) (xs : List α) (x : α) :
    (xs.map g).getLastD (g x) = g (xs.getLastD x) := by
  rw [List.getLastD_eq_getLast?, List.getLastD_eq_getLast?, List.getLast?_map]
  cases xs.getLast? <;> rfl

@[simp] theorem lastToken_mapTokens : lastToken (mapTokens f node) = f (lastToken node) := by
  unfold lastToken
  rw [tokens_mapTokens, MapTokens.anchor_map, List.getLastD_map]

theorem flatMap_tokens_map (nodes : List ν) :
    (nodes.map (mapTokens f)).flatMap tokens = (nodes.flatMap tokens).map f := by
  rw [List.flatMap_map, List.map_flatMap]
  congr 1
  funext node
  exact tokens_mapTokens f node

theorem getD_map_tokens (node : Option ν) :
    ((node.map (mapTokens f)).map tokens).getD [] = ((node.map tokens).getD []).map f := by
  cases node with
  | none => rfl
  | some node => exact tokens_mapTokens f node

end

theorem Segment.tokensWith_bimap {β γ : Type} {g : β → γ} {h : γ → List Token} {h' : β → List Token}
    {segments : List (Segment β)} (hblocks : ∀ b ∈ blocks segments, h (g b) = (h' b).map f) :
    tokensWith h (segments.map (bimap f g)) = (tokensWith h' segments).map f := by
  induction segments with
  | nil => rfl
  | cons segment segments ih =>
    cases segment with
    | token t =>
      rw [List.map_cons, bimap_token, tokensWith_token, tokensWith_token, List.map_cons, ih hblocks]
    | block b =>
      rw [List.map_cons, bimap_block, tokensWith_block, tokensWith_block, List.map_append,
        hblocks b List.mem_cons_self, ih fun b hb => hblocks b (List.mem_cons_of_mem _ hb)]

namespace Block

/--
Replaces the tokens of a block and of the blocks in it.
-/
def map (b : Block) : Block :=
  b.fold fun b items => .mk b.kind (f b.opener) b.column (items.map (Run.bimap f Prod.snd))

theorem map_mk (kind : BlockKind) (opener : Token) (column : Int) (items : List (Run Block)) :
    (Block.mk kind opener column items).map f
      = .mk kind (f opener) column (items.map (Run.bimap f (Block.map f))) := by
  have hrun (run : Run Block) :
      Run.bimap f Prod.snd ⟨run.first, run.rest.map (Segment.map fun b => (b, b.map f))⟩ = run.bimap f (Block.map f) := by
    simp only [Run.bimap, List.map_map, Run.mk.injEq, true_and]
    refine List.map_congr_left fun segment _ => ?_
    cases segment <;> rfl
  rw [map, fold, foldItems_eq, List.map_map]
  exact congrArg (Block.mk kind (f opener) column) (List.map_congr_left fun run _ => hrun run)

@[simp] theorem kind_map (b : Block) : (b.map f).kind = b.kind := by
  cases b
  rw [map_mk]
  rfl

@[simp] theorem opener_map (b : Block) : (b.map f).opener = f b.opener := by
  cases b
  rw [map_mk]
  rfl

@[simp] theorem column_map (b : Block) : (b.map f).column = b.column := by
  cases b
  rw [map_mk]
  rfl

@[simp] theorem items_map (b : Block) : (b.map f).items = b.items.map (Run.bimap f (Block.map f)) := by
  cases b
  rw [map_mk]
  rfl

@[simp] theorem tokens_map (b : Block) : (b.map f).tokens = b.tokens.map f := by
  induction b using Block.forall_of_items with
  | h kind opener column items ih =>
    have hrun (run : Run Block) (hmem : run ∈ items) :
        HaskellStyle.tokens (run.bimap f (Block.map f)) = (HaskellStyle.tokens run).map f :=
      congrArg (f run.first :: ·) (Segment.tokensWith_bimap f (ih run hmem))
    rw [map_mk, tokens_mk, tokens_mk, List.flatMap_map, List.map_flatMap, List.flatMap_def, List.flatMap_def]
    exact congrArg _ (List.map_congr_left hrun)

@[simp] theorem firstToken_map (b : Block) : (b.map f).firstToken = f b.firstToken := by
  unfold firstToken
  rw [tokens_map, opener_map]
  cases b.tokens <;> rfl

@[simp] theorem lastToken_map (b : Block) : (b.map f).lastToken = f b.lastToken := by
  unfold lastToken
  rw [tokens_map, opener_map, List.getLastD_map]

end Block

instance : MapTokens (Run Block) where
  mapTokens f := Run.bimap f (Block.map f)
  tokens_map f run := congrArg (f run.first :: ·) (Segment.tokensWith_bimap f fun b _ => Block.tokens_map f b)
  anchor_map _ _ := rfl

theorem Rhs.anchor_bimap {β γ : Type} (g : β → γ) (rhs : Rhs β) : (rhs.bimap f g).anchor = f rhs.anchor := by
  cases rhs <;> rfl

section

variable {β γ : Type} {g : β → γ} {h : γ → List Token} {h' : β → List Token}

theorem Guard.tokensWith_bimap (hblocks : ∀ b, h (g b) = (h' b).map f) (x : Guard β) :
    (x.bimap f g).tokensWith h = (x.tokensWith h').map f := by
  simp only [tokensWith, bimap, Segment.tokensWith_bimap f fun b _ => hblocks b, List.map_cons, List.map_append]

theorem Rhs.tokensWith_bimap (hblocks : ∀ b, h (g b) = (h' b).map f) (rhs : Rhs β) :
    (rhs.bimap f g).tokensWith h = (rhs.tokensWith h').map f := by
  cases rhs with
  | plain equals body =>
    simp only [tokensWith, bimap, Segment.tokensWith_bimap f fun b _ => hblocks b, List.map_cons]
  | guarded first more =>
    simp only [tokensWith, bimap, ← List.map_cons, List.flatMap_map, List.map_flatMap,
      Guard.tokensWith_bimap f hblocks]

theorem Equation.tokensWith_bimap (hblocks : ∀ b, h (g b) = (h' b).map f) (e : Equation β) :
    (e.bimap f g).tokensWith h = (e.tokensWith h').map f := by
  simp only [tokensWith, bimap, Segment.tokensWith_bimap f fun b _ => hblocks b, Rhs.tokensWith_bimap f hblocks,
    List.map_append]

theorem Clause.tokensWith_bimap (hblocks : ∀ b, h (g b) = (h' b).map f) (c : Clause β) :
    (c.bimap f g).tokensWith h = (c.tokensWith h').map f := by
  obtain ⟨equation, locals⟩ := c
  cases locals <;>
    simp [tokensWith, bimap, Equation.tokensWith_bimap f hblocks, WhereClause.bimap, hblocks]

end

instance : MapTokens (Clause Block) where
  mapTokens f := Clause.bimap f (Block.map f)
  tokens_map f := Clause.tokensWith_bimap f (Block.tokens_map f)
  anchor_map f c := Rhs.anchor_bimap f _ c.equation.rhs

instance : MapTokens Pragma where
  mapTokens f p := { p with token := f p.token }
  tokens_map _ _ := rfl
  anchor_map _ _ := rfl

instance : MapTokens Signature where
  mapTokens f s := { s with names := s.names.map f, colons := f s.colons, type := s.type.map f }
  tokens_map f s := by simp [tokens]
  anchor_map _ _ := rfl

instance : MapTokens Entry where
  mapTokens f e := ⟨f e.first, e.rest.map f⟩
  tokens_map _ _ := rfl
  anchor_map _ _ := rfl

instance : MapTokens Field where
  mapTokens f x := ⟨x.names.map f, f x.colons, x.type.map f⟩
  tokens_map f x := by simp [tokens]
  anchor_map _ _ := rfl

theorem ItemList.interleave_map {ι : Type} [HasTokens ι] [MapTokens ι] (items : List ι) (commas : List Token) :
    interleave (items.map (mapTokens f)) (commas.map f) = (interleave items commas).map f := by
  induction items generalizing commas with
  | nil => rfl
  | cons item items ih =>
    have hnil := ih []
    cases commas with
    | nil => simp_all [interleave]
    | cons comma commas => simp [interleave, ih]

instance {ι : Type} [HasTokens ι] [MapTokens ι] : MapTokens (ItemList ι) where
  mapTokens f list :=
    { list with
      opening := f list.opening
      items := list.items.map (mapTokens f)
      commas := list.commas.map f
      closing := f list.closing }
  tokens_map f list := by simp [tokens, ItemList.interleave_map]
  anchor_map _ _ := rfl

instance : MapTokens Record where
  mapTokens f r := { mapTokens f r.toItemList with nameWidths := r.nameWidths }
  tokens_map f r := tokens_mapTokens f r.toItemList
  anchor_map _ _ := rfl

instance : MapTokens Import where
  mapTokens f i :=
    { keyword := f i.keyword
      words := i.words.map f
      list := i.list.map (mapTokens f)
      tail := i.tail.map f }
  tokens_map f i := by
    show f i.keyword :: i.words.map f ++ ((i.list.map (mapTokens f)).map tokens).getD [] ++ i.tail.map f
      = (i.keyword :: i.words ++ (i.list.map tokens).getD [] ++ i.tail).map f
    rw [getD_map_tokens, List.map_append, List.map_append, List.map_cons]
  anchor_map _ _ := rfl

instance : MapTokens Constructor where
  mapTokens f c :=
    { first := f c.first
      more := c.more.map f
      record := c.record.map (mapTokens f)
      after := c.after.map f }
  tokens_map f c := by
    show f c.first :: c.more.map f ++ ((c.record.map (mapTokens f)).map tokens).getD [] ++ c.after.map f
      = (c.first :: c.more ++ (c.record.map tokens).getD [] ++ c.after).map f
    rw [getD_map_tokens, List.map_append, List.map_append, List.map_cons]
  anchor_map _ _ := rfl

instance : MapTokens Deriving where
  mapTokens f d :=
    { d with
      keyword := f d.keyword
      strategy := d.strategy.map f
      classes := d.classes.map f
      via := d.via.map f }
  tokens_map f d := by
    obtain ⟨keyword, strategy, classes, via, parenthesize⟩ := d
    cases strategy <;> simp [tokens]
  anchor_map _ _ := rfl

instance : MapTokens DataDecl where
  mapTokens f d :=
    { d with
      keyword := f d.keyword
      head := d.head.map f
      equals := f d.equals
      constructor := mapTokens f d.constructor
      others := d.others.map fun (bar, c) => (f bar, mapTokens f c)
      derivings := d.derivings.map (mapTokens f) }
  tokens_map f d := by
    have hled (leader : Token) (c : Constructor) : f leader :: tokens (mapTokens f c) = (leader :: tokens c).map f := by
      rw [tokens_mapTokens, List.map_cons]
    show (f d.keyword :: d.head.map f
        ++ ((f d.equals, mapTokens f d.constructor) :: d.others.map fun (bar, c) => (f bar, mapTokens f c)).flatMap
          fun (leader, c) => leader :: tokens c)
        ++ (d.derivings.map (mapTokens f)).flatMap tokens
      = ((d.keyword :: d.head ++ ((d.equals, d.constructor) :: d.others).flatMap fun (leader, c) => leader :: tokens c)
        ++ d.derivings.flatMap tokens).map f
    rw [flatMap_tokens_map, List.map_append, List.map_append, List.map_cons, List.flatMap_cons, List.flatMap_cons,
      List.map_append, List.flatMap_map]
    simp only [hled, List.map_flatMap]
  anchor_map _ _ := rfl

/--
Replaces the tokens of a declaration.
-/
def Declaration.map : Declaration → Declaration
  | .importing i => .importing (mapTokens f i)
  | .pragma p => .pragma (mapTokens f p)
  | .signature s => .signature (mapTokens f s)
  | .data d => .data (mapTokens f d)
  | .clause c layout => .clause (mapTokens f c) layout
  | .raw run => .raw (mapTokens f run)

instance : MapTokens Declaration where
  mapTokens f := Declaration.map f
  tokens_map f
    | .importing i => tokens_mapTokens f i
    | .pragma p => tokens_mapTokens f p
    | .signature s => tokens_mapTokens f s
    | .data d => tokens_mapTokens f d
    | .clause c _ => tokens_mapTokens f c
    | .raw run => tokens_mapTokens f run
  anchor_map f
    | .importing i => MapTokens.anchor_map f i
    | .pragma p => MapTokens.anchor_map f p
    | .signature s => MapTokens.anchor_map f s
    | .data d => MapTokens.anchor_map f d
    | .clause c _ => MapTokens.anchor_map f c
    | .raw run => MapTokens.anchor_map f run

namespace Declaration

@[simp] theorem mapTokens_importing (i : Import) : mapTokens f (importing i) = importing (mapTokens f i) := rfl

@[simp] theorem mapTokens_pragma (p : Pragma) : mapTokens f (pragma p) = pragma (mapTokens f p) := rfl

@[simp] theorem mapTokens_signature (s : Signature) : mapTokens f (signature s) = signature (mapTokens f s) := rfl

@[simp] theorem mapTokens_data (d : DataDecl) : mapTokens f (data d) = data (mapTokens f d) := rfl

@[simp] theorem mapTokens_clause (c : Clause Block) (layout : Option RhsLayout) :
    mapTokens f (clause c layout) = clause (mapTokens f c) layout := rfl

@[simp] theorem mapTokens_raw (run : Run Block) : mapTokens f (raw run) = raw (mapTokens f run) := rfl

end Declaration

instance : MapTokens Header where
  mapTokens f h :=
    { keyword := f h.keyword
      name := f h.name
      pragmas := h.pragmas.map f
      exports := h.exports.map (mapTokens f)
      whereKeyword := f h.whereKeyword }
  tokens_map f h := by
    show f h.keyword :: f h.name :: h.pragmas.map f ++ ((h.exports.map (mapTokens f)).map tokens).getD []
        ++ [f h.whereKeyword]
      = (h.keyword :: h.name :: h.pragmas ++ (h.exports.map tokens).getD [] ++ [h.whereKeyword]).map f
    rw [getD_map_tokens, List.map_append, List.map_append, List.map_cons, List.map_cons]
    rfl
  anchor_map _ _ := rfl

/--
Replaces the tokens and the blocks of an item.
-/
def Item.bimap {β γ : Type} (f : Token → Token) (g : β → γ) : Item β → Item γ
  | .pragma p => .pragma (mapTokens f p)
  | .signature s => .signature (mapTokens f s)
  | .clause form c => .clause form (c.bimap f g)
  | .statement run => .statement (run.bimap f g)
  | .raw run => .raw (run.bimap f g)

end HaskellStyle
