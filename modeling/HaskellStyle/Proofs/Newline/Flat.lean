import HaskellStyle.Print.Flat
import HaskellStyle.Proofs.Newline.Pragma
import HaskellStyle.Proofs.Print.Alphabet

/-!
This module contains the texts of parts on one line, with carriage returns before the line feeds in them, and how these
parts are cut when they need several lines.
-/

namespace HaskellStyle

open Text (crlfString)

variable (σ : Nat → Nat)

theorem crlfString_line {s : String} (h : !s.toList.contains '\n') : crlfString s = s :=
  Text.crlfString_eq_self (by simpa using h)

theorem Text.alphabet_line : Alphabet (· ≠ '\n') where
  space := by decide
  visible h := by
    rintro rfl
    exact absurd h (by decide)

theorem crlfString_over {s : String} (h : Text.Over (· ≠ '\n') s) : crlfString s = s :=
  Text.crlfString_eq_self fun hmem => h _ hmem rfl

theorem filter_isEmpty_map {α β : Type} (f : α → β) (groups : List (List α)) :
    (groups.map (·.map f)).filter (fun group => !group.isEmpty)
      = (groups.filter fun group => !group.isEmpty).map (·.map f) := by
  simp [List.filter_map, Function.comp_def]

namespace Token

theorem crlfString_text {t : Token} (h : t.isMultiline = false) : crlfString t.text = t.text :=
  crlfString_line (by rw [← Token.isMultiline, h]; rfl)

@[simp] theorem hasGap_crlf (t next : Token) : hasGap (t.crlf σ) (next.crlf σ) = hasGap t next := by
  simp [hasGap]

theorem flatRest_crlf (previous : Token) (ts : List Token) :
    flatRest (previous.crlf σ) (ts.map (Token.crlf σ)) = crlfString (flatRest previous ts) := by
  induction ts generalizing previous with
  | nil => exact Text.crlfString_empty.symm
  | cons t ts ih =>
    have hblank : crlfString " " = " " := by decide
    rw [List.map_cons, flatRest, flatRest, ih, hasGap_crlf, isSpecial_crlf σ previous (by decide), text_crlf,
      Text.crlfString_append, Text.crlfString_append]
    split
    · rw [hblank]
    · rw [Text.crlfString_empty]

@[simp] theorem flat_crlf (ts : List Token) : flat (ts.map (Token.crlf σ)) = crlfString (flat ts) := by
  cases ts with
  | nil => exact Text.crlfString_empty.symm
  | cons t ts => rw [List.map_cons, flat, flat, flatRest_crlf, text_crlf, Text.crlfString_append]

theorem over_lines {ts : List Token} (h : ∀ t ∈ ts, t.isMultiline = false) :
    ∀ t ∈ ts, Text.Over (· ≠ '\n') t.text := by
  intro t ht c hc heq
  have hline := h t ht
  rw [isMultiline, ← Bool.not_eq_true, List.contains_iff_mem] at hline
  exact hline (heq ▸ hc)

theorem crlfString_flat {ts : List Token} (h : ∀ t ∈ ts, t.isMultiline = false) : crlfString (flat ts) = flat ts :=
  crlfString_over (over_flat Text.alphabet_line (over_lines h))

@[simp] theorem cleanInside_crlf (ts : List Token) : cleanInside (ts.map (Token.crlf σ)) = cleanInside ts := by
  fun_induction cleanInside ts <;> simp_all [cleanInside]

@[simp] theorem spansLines_crlf (ts : List Token) : spansLines (ts.map (Token.crlf σ)) = spansLines ts := by
  unfold spansLines
  rw [List.head?_map, List.getLast?_map]
  cases ts.head? with
  | none => rfl
  | some first =>
    cases ts.getLast? with
    | none => rfl
    | some last => simp

@[simp] theorem haveComments_crlf (ts : List Token) : haveComments (ts.map (Token.crlf σ)) = haveComments ts := by
  simp [haveComments, Function.comp_def]

@[simp] theorem any_isMultiline_crlf (ts : List Token) :
    (ts.map (Token.crlf σ)).any (·.isMultiline) = ts.any (·.isMultiline) := by
  simp [Function.comp_def]

end Token

namespace Trivia

variable (trivia : Trivia)

@[simp] theorem ownLineOnly_crlf : ownLineOnly (crlf σ trivia) = ownLineOnly trivia := by
  unfold ownLineOnly
  rw [splitLines_crlf, hasDirective_crlf]
  dsimp only
  rw [List.getLast?_map]
  cases trivia.splitLines.2.getLast? <;> simp

@[simp] theorem lineText_crlf (pieces : List TriviaPiece) :
    lineText (pieces.map (TriviaPiece.crlf σ)) = crlfString (lineText pieces) := by
  rw [lineText, lineText, Text.crlfString_intercalate (by decide), List.map_map, List.map_map]
  simp [Function.comp_def]

@[simp] theorem allCommentLines_crlf :
    allCommentLines (crlf σ trivia) = (allCommentLines trivia).map (·.map (TriviaPiece.crlf σ)) := by
  unfold allCommentLines
  rw [splitLines_crlf, commentLines_crlf]
  dsimp only
  rw [List.isEmpty_map, comments_crlf, ← filter_isEmpty_map, List.map_append]
  split <;> rfl

end Trivia

/--
A text that is padded has one line, or no padding.
-/
theorem padRight_crlf {s : String} {width : Nat} (h : width = 0 ∨ crlfString s = s) :
    padRight (crlfString s) width = crlfString (padRight s width) := by
  rcases h with rfl | h
  · simp [padRight]
  · rw [crlfString_padRight h, h]

theorem intercalate_crlf {α β : Type} {s : String} (hs : !s.toList.contains '\n') {f : α → String} {k : β → String}
    {g : α → β} (h : ∀ x, k (g x) = crlfString (f x)) (l : List α) :
    s.intercalate ((l.map g).map k) = crlfString (s.intercalate (l.map f)) := by
  rw [Text.crlfString_intercalate hs, List.map_map, List.map_map]
  exact congrArg _ (List.map_congr_left fun x _ => h x)

theorem intercalate_text_crlf (ts : List Token) :
    " ".intercalate ((ts.map (Token.crlf σ)).map (·.text)) = crlfString (" ".intercalate (ts.map (·.text))) :=
  intercalate_crlf (by decide) (Token.text_crlf σ) ts

theorem Entry.flat_crlf (e : Entry) : (mapTokens (Token.crlf σ) e).flat = crlfString e.flat := by
  rw [flat, tokens_mapTokens, Token.flat_crlf, flat]

@[simp] theorem ItemList.flat_crlf (list : ItemList Entry) :
    (mapTokens (Token.crlf σ) list).flat = crlfString list.flat := by
  have hitems := intercalate_crlf (s := ", ") (by decide) (Entry.flat_crlf σ) list.items
  simp only [flat, mapTokens, Token.text_crlf, Text.crlfString_append] at hitems ⊢
  rw [← hitems]

theorem Field.flat_crlf {f : Field} {width : Nat} (h : width = 0 ∨ ∀ t ∈ f.names, t.isMultiline = false) :
    (mapTokens (Token.crlf σ) f).flat width = crlfString (f.flat width) := by
  have hpad := padRight_crlf (h.imp_right Token.crlfString_flat)
  simp (disch := decide) only [flat, mapTokens, Token.flat_crlf, Text.crlfString_append, hpad, crlfString_line]

@[simp] theorem Record.flat_crlf (r : Record) : (mapTokens (Token.crlf σ) r).flat = crlfString r.flat := by
  have hitem (f : Field) : (mapTokens (Token.crlf σ) f).flat 0 = crlfString (f.flat 0) := Field.flat_crlf σ (.inl rfl)
  have hitems := intercalate_crlf (s := ", ") (f := (Field.flat · 0)) (k := (Field.flat · 0))
    (g := mapTokens (Token.crlf σ)) (by decide) hitem
  have hmap : (mapTokens (Token.crlf σ) r).items = r.items.map (mapTokens (Token.crlf σ)) := rfl
  unfold flat
  rw [hmap]
  cases r.items with
  | nil => rfl
  | cons item items =>
    have := hitems (item :: items)
    simp (disch := decide) only [List.map_cons, Text.crlfString_append, crlfString_line] at this ⊢
    rw [this]

@[simp] theorem Constructor.before_crlf (c : Constructor) :
    (mapTokens (Token.crlf σ) c).before = c.before.map (Token.crlf σ) := rfl

@[simp] theorem Constructor.flat_crlf (c : Constructor) : (mapTokens (Token.crlf σ) c).flat = crlfString c.flat := by
  have hrecord : (mapTokens (Token.crlf σ) c).record = c.record.map (mapTokens (Token.crlf σ)) := rfl
  have hafter : (mapTokens (Token.crlf σ) c).after = c.after.map (Token.crlf σ) := rfl
  unfold flat
  rw [before_crlf, hrecord, hafter, Token.flat_crlf, List.isEmpty_map, Text.crlfString_append, Text.crlfString_append]
  congr 1
  · congr 1
    cases c.record with
    | none => exact Text.crlfString_empty.symm
    | some r =>
      simp (disch := decide) only [Option.map_some, Record.flat_crlf, Text.crlfString_append, crlfString_line]
  · split
    · exact Text.crlfString_empty.symm
    · simp (disch := decide) only [Token.flat_crlf, Text.crlfString_append, crlfString_line]

namespace Deriving

variable (d : Deriving)

@[simp] theorem isParenthesized_crlf : (mapTokens (Token.crlf σ) d).isParenthesized = d.isParenthesized := by
  have hclasses : (mapTokens (Token.crlf σ) d).classes = d.classes.map (Token.crlf σ) := rfl
  unfold isParenthesized
  rw [hclasses, List.head?_map, List.getLast?_map, Option.any_map, Option.any_map]
  simp (disch := decide) only [Token.isSpecial_crlf]

@[simp] theorem flatKeyword_crlf : (mapTokens (Token.crlf σ) d).flatKeyword = crlfString d.flatKeyword := by
  obtain ⟨keyword, strategy, classes, via, parenthesize⟩ := d
  cases strategy <;> simp (disch := decide) [flatKeyword, mapTokens, crlfString_line]

variable {d} in
theorem flat_crlf {width : Nat} (h : width = 0 ∨ crlfString d.flatKeyword = d.flatKeyword) :
    (mapTokens (Token.crlf σ) d).flat width = crlfString (d.flat width) := by
  have hclasses : (mapTokens (Token.crlf σ) d).classes = d.classes.map (Token.crlf σ) := rfl
  have hvia : (mapTokens (Token.crlf σ) d).via = d.via.map (Token.crlf σ) := rfl
  have hparenthesize : (mapTokens (Token.crlf σ) d).parenthesize = d.parenthesize := rfl
  unfold flat
  have hblank : crlfString " " = " " := by decide
  simp only [hclasses, hvia, hparenthesize, flatKeyword_crlf, isParenthesized_crlf, Token.flat_crlf, padRight_crlf h,
    List.isEmpty_map, Text.crlfString_append, hblank]
  congr 1
  · congr 1
    split <;> simp (disch := decide) only [Text.crlfString_append, crlfString_line]
  · split <;> simp (disch := decide) only [Text.crlfString_append, crlfString_line]

end Deriving

namespace Signature

variable (s : Signature)

@[simp] theorem parts_crlf : (mapTokens (Token.crlf σ) s).parts
    = s.parts.map fun (leader, part) => (leader.crlf σ, part.map (Token.crlf σ)) := by
  have htype : (mapTokens (Token.crlf σ) s).type = s.type.map (Token.crlf σ) := rfl
  unfold parts
  rw [htype, Outside.splitAll_map (Token.crlf σ) (some_map (Token.crlf σ)) fun t => by simp (disch := decide)]
  rfl

@[simp] theorem flat_crlf : (mapTokens (Token.crlf σ) s).flat = crlfString s.flat := by
  simp (disch := decide) only [flat, mapTokens, Token.flat_crlf, Text.crlfString_append, crlfString_line]

end Signature

namespace DataDecl

variable (d : DataDecl)

@[simp] theorem constructors_crlf :
    (mapTokens (Token.crlf σ) d).constructors = d.constructors.map (mapTokens (Token.crlf σ)) := by
  simp [constructors, mapTokens, Function.comp_def]

@[simp] theorem ledConstructors_crlf : (mapTokens (Token.crlf σ) d).ledConstructors
    = d.ledConstructors.map fun (leader, c) => (leader.crlf σ, mapTokens (Token.crlf σ) c) := rfl

@[simp] theorem singleRecord?_crlf :
    (mapTokens (Token.crlf σ) d).singleRecord? = d.singleRecord?.map (mapTokens (Token.crlf σ)) := by
  have hothers : (mapTokens (Token.crlf σ) d).others.isEmpty = d.others.isEmpty := List.isEmpty_map
  unfold singleRecord?
  rw [hothers]
  split <;> rfl

@[simp] theorem flatHead_crlf : (mapTokens (Token.crlf σ) d).flatHead = crlfString d.flatHead := by
  simp (disch := decide) only [flatHead, mapTokens, Token.flat_crlf, Token.text_crlf, Text.crlfString_append,
    crlfString_line]

@[simp] theorem flat_crlf : (mapTokens (Token.crlf σ) d).flat = crlfString d.flat := by
  have hconstructors := intercalate_crlf (s := " | ") (by decide) (Constructor.flat_crlf σ) d.constructors
  rw [flat, constructors_crlf, hconstructors, flatHead_crlf, flat]
  simp (disch := decide) only [Text.crlfString_append, crlfString_line]

end DataDecl

namespace Rhs

theorem cutBefore_crlf {cuts cuts' : Int → Token → Token → Bool}
    (h : ∀ depth previous t, cuts' depth (previous.crlf σ) (t.crlf σ) = cuts depth previous t) (depth : Int)
    (previous : Token) (ts : List Token) :
    cutBefore cuts' depth (previous.crlf σ) (ts.map (Token.crlf σ))
      = ((cutBefore cuts depth previous ts).1.map (Token.crlf σ),
        (cutBefore cuts depth previous ts).2.map (·.map (Token.crlf σ))) := by
  induction ts generalizing depth previous with
  | nil => rfl
  | cons t ts ih =>
    rw [List.map_cons, cutBefore, cutBefore, Token.bracketStep_crlf, ih, h]
    dsimp only
    split <;> rfl

theorem terms?_crlf (ts : List Token) :
    terms? (ts.map (Token.crlf σ)) = (terms? ts).map (·.map (·.map (Token.crlf σ))) := by
  cases ts with
  | nil => rfl
  | cons t ts =>
    rw [List.map_cons, terms?, terms?, Token.isClosing_crlf, Token.bracketStep_crlf]
    split
    · rfl
    · dsimp only
      rw [cutBefore_crlf σ fun depth previous t => by rw [Token.hasGap_crlf, Token.isClosing_crlf]]
      rfl

theorem contains_map_crlf (operators : List String) (s : String) :
    (operators.map crlfString).contains (crlfString s) = operators.contains s := by
  rw [Bool.eq_iff_iff, List.contains_iff_mem, List.contains_iff_mem]
  exact List.mem_map_of_injective Text.crlfString_injective

theorem chunks_crlf (operators : List String) (ts : List Token) :
    chunks (operators.map crlfString) (ts.map (Token.crlf σ)) = (chunks operators ts).map (·.map (Token.crlf σ)) := by
  cases ts with
  | nil => rfl
  | cons t ts =>
    rw [List.map_cons, chunks, chunks, Token.bracketStep_crlf]
    dsimp only
    rw [cutBefore_crlf σ fun depth previous t => by
      rw [Token.hasGap_crlf, Token.isOperator_crlf, Token.text_crlf, contains_map_crlf]]
    rfl

theorem cutOperators_crlf (body : List Token) :
    cutOperators (body.map (Token.crlf σ)) = (cutOperators body).map crlfString := by
  have hoperators : (((Outside.tokens 0 body).map (Token.crlf σ)).filter (·.isOperator)).map (·.text)
      = (((Outside.tokens 0 body).filter (·.isOperator)).map (·.text)).map crlfString := by
    simp [List.filter_map, Function.comp_def]
  have hchain (operators : List String) : (operators.map crlfString).filter chainOperators.contains
      = (operators.filter chainOperators.contains).map crlfString := by
    have hlines : chainOperators.all fun w => !w.toList.contains '\n' := by decide
    simp only [List.filter_map, Function.comp_def, Text.contains_crlfString hlines]
  unfold cutOperators
  dsimp only
  rw [Outside.tokens_map (Token.crlf σ), hoperators, hchain, List.isEmpty_map]
  split <;> rfl

theorem operatorLines_crlf (settings : Settings) (body : List Token) :
    operatorLines settings (body.map (Token.crlf σ)) = (operatorLines settings body).map (·.map (Token.crlf σ)) := by
  unfold operatorLines
  rw [cutOperators_crlf, chunks_crlf]
  match chunks (cutOperators body) body with
  | [] => rfl
  | [_] => rfl
  | [_, _] => rfl
  | first :: second :: third :: more =>
    simp only [List.map_cons]
    split <;> simp

end Rhs

theorem Pragma.blocks_crlf {pragmas : List Pragma} (h : ∀ p ∈ pragmas, p.IsDelimited) :
    blocks (pragmas.map (mapTokens (Token.crlf σ))) = (blocks pragmas).map (·.map (mapTokens (Token.crlf σ))) := by
  have hblock (index : Nat) : (pragmas.map (mapTokens (Token.crlf σ))).filter (·.blockIndex = index)
      = (pragmas.filter (·.blockIndex = index)).map (mapTokens (Token.crlf σ)) := by
    rw [List.filter_map]
    refine congrArg _ (List.filter_congr fun p hp => ?_)
    rw [Function.comp_apply, blockIndex_crlf σ (h p hp)]
  rw [blocks, blocks, ← filter_isEmpty_map, List.map_map]
  exact congrArg _ (List.map_congr_left fun index _ => hblock index)

end HaskellStyle
