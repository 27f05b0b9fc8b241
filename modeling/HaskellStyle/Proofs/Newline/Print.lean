import HaskellStyle.Print.Module
import HaskellStyle.Proofs.Newline.Flat
import HaskellStyle.Proofs.Newline.Output
import HaskellStyle.Proofs.Print.Declaration

/-!
This module contains the writing of modules with carriage returns before their line feeds: what is written is the text
that is written without them, with carriage returns.
-/

namespace HaskellStyle

open Text (crlfString crlfOffset)
open Function (Injective)

variable (σ : Nat → Nat)

/--
A declaration of which no token has several lines.
-/
def DataDecl.IsOneLine (d : DataDecl) : Prop :=
  ∀ t ∈ tokens d, t.isMultiline = false

namespace DataDecl.IsOneLine

variable {d : DataDecl} (h : d.IsOneLine)
include h

theorem names (row : Token × Constructor) (hrow : row ∈ d.ledConstructors) :
    ∀ r ∈ row.2.record, ∀ f ∈ r.items, ∀ t ∈ f.names, t.isMultiline = false := by
  intro r hr f hf t ht
  have hfield : t ∈ tokens r := (ItemList.infix_tokens hf).subset (List.mem_append_left _ ht)
  have hconstructor : t ∈ tokens row.2 := by
    refine List.mem_append_left _ (List.mem_append_right _ ?_)
    rw [Option.mem_def.1 hr]
    exact hfield
  refine h t (List.mem_append_left _ (List.mem_append_right _ ?_))
  exact List.mem_flatMap.2 ⟨row, hrow, List.mem_cons_of_mem _ hconstructor⟩

theorem flatKeyword {clause : Deriving} (hclause : clause ∈ d.derivings) :
    crlfString clause.flatKeyword = clause.flatKeyword := by
  have hline {t : Token} (ht : t ∈ tokens clause) : crlfString t.text = t.text :=
    Token.crlfString_text (h t (List.mem_append_right _ (List.mem_flatMap.2 ⟨clause, hclause, ht⟩)))
  obtain ⟨keyword, strategy, classes, via, parenthesize⟩ := clause
  cases strategy with
  | none => exact hline (by simp [tokens])
  | some strategy =>
    have hkeyword : crlfString keyword.text = keyword.text := hline (by simp [tokens])
    have hstrategy : crlfString strategy.text = strategy.text := hline (by simp [tokens])
    simp (disch := decide) only [Deriving.flatKeyword, Text.crlfString_append, crlfString_line, hkeyword, hstrategy]

end DataDecl.IsOneLine

/--
A data declaration whose tokens stand at different places. In normal form none of them has several lines; a declaration
on one line has no comments in it, and nothing follows the braces of a record on several lines.
-/
structure DataDecl.IsPlain (d : DataDecl) : Prop where
  offsets : ((tokens d).map (·.offset)).Nodup
  oneLine : d.layout.isSome → d.IsOneLine
  clean : d.layout = some .singleLine → Token.cleanInside (tokens d)
  record : d.layout = some .multiLine → d.singleRecord?.isSome → d.constructor.after = []

theorem DataDecl.tokens_withoutDerivings (d : DataDecl) : tokens { d with derivings := [] : DataDecl } = d.bodyTokens :=
  List.append_nil _

theorem DataDecl.IsPlain.withoutDerivings {d : DataDecl} (h : d.IsPlain) :
    { d with derivings := [] : DataDecl }.IsPlain where
  offsets := by
    rw [tokens_withoutDerivings]
    exact h.offsets.sublist ((List.sublist_append_left _ _).map _)
  oneLine hlayout t ht := by
    rw [tokens_withoutDerivings] at ht
    exact h.oneLine hlayout t (List.mem_append_left _ ht)
  clean hlayout := by
    rw [tokens_withoutDerivings]
    exact (Token.cleanInside_append (h.clean hlayout)).1
  record := h.record

/--
A declaration that can be written with carriage returns as it is written without them.
-/
def Declaration.IsPlain : Declaration → Prop
  | .pragma p => p.IsDelimited
  | .data d => d.IsPlain
  | .importing _ | .signature _ | .clause _ _ | .raw _ => True

/--
The printer for a module with carriage returns.
-/
def Printer.crlf (p : Printer) : Printer where
  settings := p.settings
  newline := .crlf
  placements := p.placements.map fun (offset, placement) => (σ offset, placement)

theorem lookup_crlf {σ : Nat → Nat} (hσ : Injective σ) (placements : List (Nat × Placement)) (offset : Nat) :
    (placements.map fun (offset, placement) => (σ offset, placement)).lookup (σ offset) = placements.lookup offset := by
  induction placements with
  | nil => rfl
  | cons entry more ih =>
    have hbeq : (σ offset == σ entry.1) = (offset == entry.1) := by
      rw [Bool.eq_iff_iff, beq_iff_eq, beq_iff_eq, hσ.eq_iff]
    rw [List.map_cons, List.lookup_cons, List.lookup_cons, hbeq, ih]

namespace Printer

theorem mirrors_start {p : Printer} (h : p.newline = .lf) : p.start.Mirrors (p.crlf σ).start := by
  unfold start
  rw [h]
  exact Output.Mirrors.start

variable {out out' : Output} (h : out.Mirrors out')
include h

theorem pieces_crlf (pieces : List TriviaPiece) :
    (pieces.foldl piece out).Mirrors ((pieces.map (TriviaPiece.crlf σ)).foldl piece out') :=
  h.foldl fun x _ _ _ hout => by
    unfold piece
    rw [TriviaPiece.isMultiline_crlf]
    exact hout.write_of_eq (TriviaPiece.text_crlf σ x) _

theorem triviaLine_crlf (line : List TriviaPiece) (delta : Int) (isTokenLine : Bool) :
    (triviaLine line delta isTokenLine out).Mirrors
      (triviaLine (line.map (TriviaPiece.crlf σ)) delta isTokenLine out') := by
  have hcontent : Trivia.lineContent (line.map (TriviaPiece.crlf σ))
      = Trivia.crlf σ (Trivia.lineContent line) := Trivia.lineContent_crlf σ line
  unfold triviaLine
  rw [hcontent, Trivia.isEmpty_crlf]
  split
  · exact h
  · cases line with
    | nil => exact h.blanks delta
    | cons first more =>
      simp only [List.map_cons, TriviaPiece.kind_crlf, TriviaPiece.text_crlf, Text.toList_crlfString,
        Text.visualWidth_crlf]
      split
      · split
        · exact pieces_crlf σ (h.put rfl) more
        · exact pieces_crlf σ (h.blanks _) more
      · exact pieces_crlf σ (h.blanks delta) (first :: more)

theorem commentsBehind_crlf (comments : List TriviaPiece) :
    (commentsBehind out comments).Mirrors (commentsBehind out' (comments.map (TriviaPiece.crlf σ))) :=
  h.foldl fun x _ _ _ hout => by
    refine hout.write_of_eq ?_ true
    simp (disch := decide) only [TriviaPiece.text_crlf, Text.crlfString_append, crlfString_line]

variable {σ} in
theorem leading_crlf (hσ : Injective σ) (p : Printer) (t : Token) :
    (p.leading t out).Mirrors ((p.crlf σ).leading (t.crlf σ) out') := by
  have hlookup : (p.crlf σ).placements.lookup (t.crlf σ).offset = p.placements.lookup t.offset := by
    rw [Token.offset_crlf]
    exact lookup_crlf hσ _ _
  have hline (delta : Int) (line : List TriviaPiece) {out out' : Output} (hout : out.Mirrors out') :
      (triviaLine line delta false out.endLine).Mirrors
        (triviaLine (Trivia.crlf σ line) delta false out'.endLine) :=
    triviaLine_crlf σ hout.endLine line delta false
  unfold leading
  dsimp only
  rw [hlookup, Token.leading_crlf, Trivia.comments_crlf, Trivia.splitLines_crlf, Token.column_crlf, Token.isEnd_crlf]
  split
  · exact (commentsBehind_crlf σ h _).endLine.blanks _
  · dsimp only
    rw [List.getLast?_map]
    cases t.leading.splitLines.2.getLast? with
    | none => exact pieces_crlf σ h _
    | some last =>
      dsimp only [Option.map_some]
      rw [← List.map_dropLast]
      exact triviaLine_crlf σ ((pieces_crlf σ h _).foldl fun line _ _ _ hout => hline _ line hout).endLine last _ _

theorem trailing_crlf (p : Printer) (t : Token) (structured : Bool) :
    (p.trailing t structured out).Mirrors ((p.crlf σ).trailing (t.crlf σ) structured out') := by
  have hsplit : splitComments (Trivia.crlf σ t.trailing)
      = (Trivia.crlf σ (splitComments t.trailing).1, Trivia.crlf σ (splitComments t.trailing).2) := by
    simp only [splitComments, Trivia.crlf, List.takeWhile_map, List.dropWhile_map, ← List.map_reverse,
      Function.comp_def, TriviaPiece.isComment_crlf]
  have hwidth : Text.visualWidth (Trivia.text (Trivia.crlf σ (splitComments t.trailing).1)).toList out'.column
      = Text.visualWidth (Trivia.text (splitComments t.trailing).1).toList out.column := by
    rw [Trivia.text_crlf, Text.toList_crlfString, Text.visualWidth_crlf, h.column]
  have hsettings : (p.crlf σ).settings = p.settings := rfl
  unfold trailing
  rw [Token.trailing_crlf, hsplit]
  dsimp only
  rw [hwidth, hsettings, h.column]
  cases hcomments : (splitComments t.trailing).2 with
  | nil => exact h
  | cons comment comments =>
    have hreport (b : Prop) [Decidable b] (d d' : Diagnostic) :
        (if b then out.report d else out).Mirrors (if b then out'.report d' else out') := by
      split
      · exact h.report d d'
      · exact h
    exact pieces_crlf σ ((hreport _ _ _).blanks _) (comment :: comments)

theorem commentLine_crlf (indent : Int) (line : List TriviaPiece) :
    (commentLine indent out line).Mirrors (commentLine indent out' (line.map (TriviaPiece.crlf σ))) :=
  (h.endLine.blanks indent).write_of_eq (Trivia.lineText_crlf σ line) true

theorem commentLines_crlf (trivia : Trivia) (indent : Int) (keepBlank : Bool) :
    (commentLines trivia indent keepBlank out).Mirrors (commentLines (Trivia.crlf σ trivia) indent keepBlank out') := by
  have hblank (blank : Bool) {out out' : Output} (hout : out.Mirrors out') :
      (if blank then out.endLine else out).Mirrors (if blank then out'.endLine else out') := by
    split
    · exact hout.endLine
    · exact hout
  have hfrom (blank : Bool) (lines : List (List TriviaPiece)) {out out' : Output} (hout : out.Mirrors out') :
      (commentLinesFrom indent keepBlank blank lines out).Mirrors
        (commentLinesFrom indent keepBlank blank (lines.map (·.map (TriviaPiece.crlf σ))) out') := by
    induction lines generalizing blank out out' with
    | nil => exact hblank blank hout
    | cons line more ih =>
      cases line with
      | nil => exact ih _ hout
      | cons piece pieces => exact ih _ (commentLine_crlf σ (hblank blank hout) indent (piece :: pieces))
  unfold commentLines
  rw [Trivia.commentLines_crlf]
  exact hfrom _ _ h

theorem ledText_crlf (leader first : Token) (indent : Int) {text text' : String} (htext : text' = crlfString text)
    (ownComments : Bool) :
    (ledText leader first indent text ownComments out).Mirrors
      (ledText (leader.crlf σ) (first.crlf σ) indent text' ownComments out') := by
  have hbehind : (if ownComments then (leader.crlf σ).trailing.comments else [])
      = (if ownComments then leader.trailing.comments else []).map (TriviaPiece.crlf σ) := by
    split
    · rw [Token.trailing_crlf, Trivia.comments_crlf]
    · rfl
  have hbefore : (first.crlf σ).leading.commentLines.filter (fun line => !line.isEmpty)
      = (first.leading.commentLines.filter fun line => !line.isEmpty).map (Trivia.crlf σ) := by
    simp [List.filter_map, Function.comp_def]
  unfold ledText
  rw [hbehind, hbefore]
  generalize (if ownComments then leader.trailing.comments else []) = behind
  dsimp only
  rw [List.isEmpty_map, List.isEmpty_map]
  split
  · exact h.put (by simp (disch := decide) only [htext, Text.crlfString_append, crlfString_line])
  · exact ((commentsBehind_crlf σ h _).foldl fun line _ _ _ hout => commentLine_crlf σ hout _ line).newLine _ htext

theorem movedComments_crlf (last comma : Token) :
    (movedComments last comma out).Mirrors (movedComments (last.crlf σ) (comma.crlf σ) out') := by
  unfold movedComments
  rw [Token.trailing_crlf, Trivia.comments_crlf, Token.trailing_crlf, Trivia.hasComments_crlf]
  cases comma.trailing.comments with
  | nil => exact h
  | cons comment comments =>
    refine commentsBehind_crlf σ ?_ (comment :: comments)
    split
    · exact h
    · exact h.blanks _

theorem itemList_crlf {ι : Type} [HasTokens ι] [MapTokens ι] (p : Printer) (list : ItemList ι)
    {texts texts' : List String} (htexts : texts' = texts.map crlfString) (indent : Int) :
    (p.itemList list texts indent out).Mirrors
      ((p.crlf σ).itemList (mapTokens (Token.crlf σ) list) texts' indent out') := by
  have hitems (isFirst : Bool) (rows : List ((Token × ι) × String)) {out out' : Output} (hout : out.Mirrors out') :
      (p.ledItems indent isFirst rows out).Mirrors ((p.crlf σ).ledItems indent isFirst
        (rows.map fun row => ((row.1.1.crlf σ, mapTokens (Token.crlf σ) row.1.2), crlfString row.2)) out') := by
    induction rows generalizing isFirst out out' with
    | nil => exact hout
    | cons row more ih =>
      obtain ⟨⟨leader, item⟩, text⟩ := row
      have hleader := (commentLines_crlf σ hout leader.leading indent (!isFirst)).newLine indent
        (Token.text_crlf σ leader)
      have htext := trailing_crlf σ (ledText_crlf σ hleader leader (firstToken item) indent
        (rfl : crlfString text = crlfString text) isFirst) p (lastToken item) true
      rw [← Token.leading_crlf, ← firstToken_mapTokens (Token.crlf σ), ← lastToken_mapTokens (Token.crlf σ)] at htext
      refine ih false ?_
      cases more with
      | nil => exact htext
      | cons next more =>
        have hmoved := movedComments_crlf σ htext (lastToken item) next.1.1
        rw [← lastToken_mapTokens (Token.crlf σ)] at hmoved
        exact hmoved
  have hrows : (mapTokens (Token.crlf σ) list).ledItems.zip texts'
      = (list.ledItems.zip texts).map fun row =>
        ((row.1.1.crlf σ, mapTokens (Token.crlf σ) row.1.2), crlfString row.2) := by
    have hled : (mapTokens (Token.crlf σ) list).ledItems
        = list.ledItems.map fun row => (row.1.crlf σ, mapTokens (Token.crlf σ) row.2) := by
      simp only [ItemList.ledItems, mapTokens, ← List.map_cons, List.zip_map]
      rfl
    rw [hled, htexts, List.zip_map]
    rfl
  have hclosing : (mapTokens (Token.crlf σ) list).closing = list.closing.crlf σ := rfl
  unfold itemList
  rw [hrows, hclosing, Token.leading_crlf, Token.text_crlf]
  exact (commentLines_crlf σ (hitems true _ h) _ _ _).newLine _ rfl

theorem token_crlf (p : Printer) (t : Token) : (p.token out t).Mirrors ((p.crlf σ).token out' (t.crlf σ)) := by
  unfold token
  rw [Token.isMultiline_crlf]
  exact trailing_crlf σ (h.write_of_eq (Token.text_crlf σ t) _) p t false

theorem record_crlf (p : Printer) {r : Record} (hr : ∀ f ∈ r.items, ∀ t ∈ f.names, t.isMultiline = false) (indent : Int) :
    (p.record r indent out).Mirrors ((p.crlf σ).record (mapTokens (Token.crlf σ) r) indent out') := by
  have hflat (widths : List Nat) {items : List Field} (hitems : ∀ f ∈ items, ∀ t ∈ f.names, t.isMultiline = false) :
      (items.map (mapTokens (Token.crlf σ))).zipWith Field.flat widths = (items.zipWith Field.flat widths).map crlfString := by
    induction items generalizing widths with
    | nil => rfl
    | cons f items ih =>
      cases widths with
      | nil => rfl
      | cons width widths =>
        rw [List.map_cons, List.zipWith_cons_cons, List.zipWith_cons_cons, List.map_cons,
          Field.flat_crlf σ (.inr (hitems f List.mem_cons_self)),
          ih widths fun g hg => hitems g (List.mem_cons_of_mem f hg)]
  have hitems : (mapTokens (Token.crlf σ) r).items = r.items.map (mapTokens (Token.crlf σ)) := rfl
  have hwidths : (mapTokens (Token.crlf σ) r).nameWidths = r.nameWidths := rfl
  unfold record
  rw [hitems, hwidths, List.length_map]
  exact itemList_crlf σ h p r.toItemList (hflat _ hr) indent

theorem brokenClause_crlf (p : Printer) (lhs : List Token) (equals : Token) (body : List Token) (layout : RhsLayout) :
    (p.brokenClause lhs equals body layout out).Mirrors
      ((p.crlf σ).brokenClause (lhs.map (Token.crlf σ)) (equals.crlf σ) (body.map (Token.crlf σ)) layout out') := by
  have hstart : lhs.map (Token.crlf σ) ++ [equals.crlf σ] = (lhs ++ [equals]).map (Token.crlf σ) := by simp
  have hhead (lines : List (List Token)) :
      Token.flat ((lines.map (List.map (Token.crlf σ))).headD []) = crlfString (Token.flat (lines.headD [])) := by
    cases lines with
    | nil => exact Text.crlfString_empty.symm
    | cons line lines => exact Token.flat_crlf σ line
  have hlines (lines : List (List Token)) (column : Int) :
      ((lines.drop 1).foldl (fun out line => (out.endLine.blanks column).put (Token.flat line))
          (out.put (Token.flat (lhs ++ [equals]) ++ " " ++ Token.flat (lines.headD [])))).Mirrors
        (((lines.map (List.map (Token.crlf σ))).drop 1).foldl
          (fun out line => (out.endLine.blanks column).put (Token.flat line))
          (out'.put (Token.flat (lhs.map (Token.crlf σ) ++ [equals.crlf σ]) ++ " "
            ++ Token.flat ((lines.map (List.map (Token.crlf σ))).headD [])))) := by
    rw [← List.map_drop, hhead, hstart, Token.flat_crlf]
    refine (h.put ?_).foldl fun line _ _ _ hout => hout.newLine _ (Token.flat_crlf σ line)
    simp (disch := decide) only [Text.crlfString_append, crlfString_line]
  obtain ⟨style, column⟩ := layout
  cases style with
  | application =>
    have hterms : (Rhs.terms? (body.map (Token.crlf σ))).getD [body.map (Token.crlf σ)]
        = ((Rhs.terms? body).getD [body]).map (List.map (Token.crlf σ)) := by
      rw [Rhs.terms?_crlf]
      cases Rhs.terms? body <;> rfl
    unfold brokenClause
    dsimp only
    rw [hterms]
    exact hlines _ column
  | operators =>
    unfold brokenClause
    dsimp only
    rw [Rhs.operatorLines_crlf]
    exact hlines _ column

theorem commentBlock_crlf (lines : List (List TriviaPiece)) :
    (lines.foldl (fun out line => out.endLineIfStarted.write (Trivia.lineText line) true) out).Mirrors
      ((lines.map (List.map (TriviaPiece.crlf σ))).foldl
        (fun out line => out.endLineIfStarted.write (Trivia.lineText line) true) out') :=
  h.foldl fun line _ _ _ hout => hout.endLineIfStarted.write_of_eq (Trivia.lineText_crlf σ line) true

theorem pinnedPragma_crlf (p : Printer) {pragma : Pragma} (hpragma : pragma.IsDelimited) (withLeading : Bool) :
    (p.pinnedPragma pragma withLeading out).Mirrors
      ((p.crlf σ).pinnedPragma (mapTokens (Token.crlf σ) pragma) withLeading out') := by
  have htoken : (mapTokens (Token.crlf σ) pragma).token = pragma.token.crlf σ := rfl
  have hleading := (commentBlock_crlf σ h (Trivia.allCommentLines pragma.token.leading)).endLineIfStarted
  unfold pinnedPragma
  rw [htoken, Token.leading_crlf, Trivia.allCommentLines_crlf, Token.isMultiline_crlf]
  refine trailing_crlf σ (Output.Mirrors.write_of_eq ?_ (Pragma.flat_crlf σ hpragma) _) p pragma.token true
  split
  · exact hleading
  · exact h

variable {σ} (hσ : Injective σ) (p : Printer)
include hσ

theorem verbatim_crlf (ts : List Token) :
    (p.verbatim ts out).Mirrors ((p.crlf σ).verbatim (ts.map (Token.crlf σ)) out') :=
  h.foldl fun t _ _ _ hout => token_crlf σ (leading_crlf hout hσ p t) p t

theorem verbatimInside_crlf (ts : List Token) :
    (p.verbatimInside ts out).Mirrors ((p.crlf σ).verbatimInside (ts.map (Token.crlf σ)) out') := by
  cases ts with
  | nil => exact h
  | cons t more => exact verbatim_crlf (token_crlf σ h p t) hσ p more

theorem verbatimWith_crlf (withLeading : Bool) (ts : List Token) :
    (p.verbatimWith withLeading ts out).Mirrors ((p.crlf σ).verbatimWith withLeading (ts.map (Token.crlf σ)) out') := by
  unfold verbatimWith
  split
  · exact verbatim_crlf h hσ p ts
  · exact verbatimInside_crlf h hσ p ts

theorem trailingInside_crlf (last end_ : Token) :
    (p.trailingInside last end_ out).Mirrors ((p.crlf σ).trailingInside (last.crlf σ) (end_.crlf σ) out') := by
  unfold trailingInside
  simp only [Token.offset_crlf, hσ.eq_iff]
  split
  · exact h
  · exact trailing_crlf σ h p last true

theorem signature_crlf (s : Signature) (layout : ListLayout) :
    (p.signature s layout out).Mirrors ((p.crlf σ).signature (mapTokens (Token.crlf σ) s) layout out') := by
  cases layout with
  | singleLine => exact h.put (Signature.flat_crlf σ s)
  | multiLine =>
    have hnames : (mapTokens (Token.crlf σ) s).names = s.names.map (Token.crlf σ) := rfl
    unfold signature
    dsimp only
    rw [Signature.parts_crlf, firstToken_mapTokens, lastToken_mapTokens, Token.column_crlf, hnames]
    refine (h.put (Token.flat_crlf σ s.names)).foldl fun part _ out out' hout => ?_
    obtain ⟨leader, part⟩ := part
    dsimp only
    rw [Token.leading_crlf, List.getLast?_map]
    have htext : (leader.crlf σ).text ++ " " ++ Token.flat (part.map (Token.crlf σ))
        = crlfString (leader.text ++ " " ++ Token.flat part) := by
      simp (disch := decide) only [Token.text_crlf, Token.flat_crlf, Text.crlfString_append, crlfString_line]
    have hpart := (commentLines_crlf σ hout leader.leading ((firstToken s).column + p.indent) false).newLine
      ((firstToken s).column + p.indent) htext
    cases part.getLast? with
    | none => exact hpart
    | some last => exact trailingInside_crlf hpart hσ p last (lastToken s)

theorem constructor_crlf {c : Constructor}
    (hc : ∀ r ∈ c.record, ∀ f ∈ r.items, ∀ t ∈ f.names, t.isMultiline = false) (indent : Int) (end_ leader : Token) :
    (p.constructor indent end_ out (leader, c)).Mirrors
      ((p.crlf σ).constructor indent (end_.crlf σ) out' (leader.crlf σ, mapTokens (Token.crlf σ) c)) := by
  have hrecord : (mapTokens (Token.crlf σ) c).record.filter (·.layout ≠ some .singleLine)
      = (c.record.filter (·.layout ≠ some .singleLine)).map (mapTokens (Token.crlf σ)) := by
    have hmap : (mapTokens (Token.crlf σ) c).record = c.record.map (mapTokens (Token.crlf σ)) := rfl
    rw [hmap]
    cases c.record with
    | none => rfl
    | some r =>
      have hlayout : (mapTokens (Token.crlf σ) r).layout = r.layout := rfl
      rw [Option.map_some, Option.filter_some, Option.filter_some, hlayout]
      split <;> rfl
  have hleader := (commentLines_crlf σ h leader.leading indent false).newLine indent (Token.text_crlf σ leader)
  unfold constructor
  dsimp only
  rw [hrecord, firstToken_mapTokens, lastToken_mapTokens, Token.leading_crlf]
  refine trailingInside_crlf ?_ hσ p _ _
  cases hr : c.record.filter (·.layout ≠ some .singleLine) with
  | none => exact ledText_crlf σ hleader leader (firstToken c) indent (Constructor.flat_crlf σ c) true
  | some r =>
    have hbefore := ledText_crlf σ hleader leader (firstToken c) indent (Token.flat_crlf σ c.before) true
    exact record_crlf σ hbefore p (hc r (Option.filter_eq_some_iff.1 hr).1) _

theorem derivings_crlf {d : DataDecl} (hd : d.IsOneLine) (layout : ListLayout) (indent : Int) :
    (p.derivings d layout indent out).Mirrors
      ((p.crlf σ).derivings (mapTokens (Token.crlf σ) d) layout indent out') := by
  have hderivings : (mapTokens (Token.crlf σ) d).derivings = d.derivings.map (mapTokens (Token.crlf σ)) := rfl
  have hplaced : (mapTokens (Token.crlf σ) d).derivingLayout = d.derivingLayout := rfl
  unfold derivings
  rw [hderivings, hplaced, lastToken_mapTokens]
  dsimp only
  split
  · refine h.foldl fun clause _ _ _ hout => hout.put ?_
    rw [Deriving.flat_crlf σ (.inl rfl)]
    simp (disch := decide) only [Text.crlfString_append, crlfString_line]
  · refine h.foldl fun clause hclause out out' hout => ?_
    have hkeyword : (mapTokens (Token.crlf σ) clause).keyword = clause.keyword.crlf σ := rfl
    rw [hkeyword, Token.leading_crlf, lastToken_mapTokens]
    exact trailingInside_crlf ((commentLines_crlf σ hout _ _ _).newLine _
      (Deriving.flat_crlf σ (.inr (hd.flatKeyword hclause)))) hσ p _ _

theorem dataDecl_crlf {d : DataDecl} (hd : d.IsOneLine) (layout : ListLayout) :
    (p.dataDecl d layout out).Mirrors ((p.crlf σ).dataDecl (mapTokens (Token.crlf σ) d) layout out') := by
  have hcolumn : (mapTokens (Token.crlf σ) d).keyword.column = d.keyword.column := Token.column_crlf σ d.keyword
  unfold dataDecl
  dsimp only
  rw [hcolumn, lastToken_mapTokens, DataDecl.singleRecord?_crlf, DataDecl.ledConstructors_crlf, DataDecl.flat_crlf,
    DataDecl.flatHead_crlf]
  refine derivings_crlf ?_ hσ p hd layout _
  cases layout with
  | singleLine => exact h.put rfl
  | multiLine =>
    cases hrecord : d.singleRecord? with
    | none => exact (h.put rfl).foldl fun row hrow _ _ hout => constructor_crlf hout hσ p (hd.names row hrow) _ _ row.1
    | some r =>
      have hconstructor : (mapTokens (Token.crlf σ) d).constructor = mapTokens (Token.crlf σ) d.constructor := rfl
      have hr : r ∈ d.constructor.record := by
        unfold DataDecl.singleRecord? at hrecord
        split at hrecord
        · exact hrecord
        · cases hrecord
      have hnames := hd.names (d.equals, d.constructor) List.mem_cons_self r hr
      refine trailingInside_crlf (record_crlf σ (h.put ?_) p hnames _) hσ p r.closing (lastToken d)
      rw [hconstructor, Constructor.before_crlf, Token.flat_crlf]
      simp (disch := decide) only [Text.crlfString_append, crlfString_line]

theorem structured_crlf (d : Declaration) (withLeading : Bool) {body body' : Output → Output}
    (hbody : ∀ {out out' : Output}, out.Mirrors out' → (body out).Mirrors (body' out')) :
    (p.structured d withLeading body out).Mirrors
      ((p.crlf σ).structured (mapTokens (Token.crlf σ) d) withLeading body' out') := by
  unfold structured
  dsimp only
  rw [firstToken_mapTokens, lastToken_mapTokens]
  refine trailing_crlf σ (hbody ?_) p _ _
  split
  · exact leading_crlf h hσ p _
  · exact h

theorem declaration_crlf {d : Declaration} (hd : d.IsPlain) (withLeading : Bool) :
    (p.declaration d withLeading out).Mirrors
      ((p.crlf σ).declaration (mapTokens (Token.crlf σ) d) withLeading out') := by
  have hverbatim := verbatimWith_crlf h hσ p withLeading (tokens d)
  rw [← tokens_mapTokens] at hverbatim
  cases d with
  | importing i => exact hverbatim
  | raw run => exact hverbatim
  | pragma pragma =>
    have hpinned : (mapTokens (Token.crlf σ) pragma).pinned = pragma.pinned := rfl
    simp only [Declaration.mapTokens_pragma, declaration, hpinned] at hverbatim ⊢
    split
    · exact pinnedPragma_crlf σ h p hd withLeading
    · exact hverbatim
  | signature s =>
    have hmap : (mapTokens (Token.crlf σ) s).layout = s.layout := rfl
    simp only [Declaration.mapTokens_signature, declaration, hmap] at hverbatim ⊢
    cases s.layout with
    | none => exact hverbatim
    | some layout =>
      exact structured_crlf h hσ p (.signature s) withLeading fun hout => signature_crlf hout hσ p s layout
  | data decl =>
    have hmap : (mapTokens (Token.crlf σ) decl).layout = decl.layout := rfl
    simp only [Declaration.mapTokens_data, declaration, hmap] at hverbatim ⊢
    cases hlayout : decl.layout with
    | none => exact hverbatim
    | some layout =>
      have hline : decl.IsOneLine := hd.oneLine (by rw [hlayout]; rfl)
      exact structured_crlf h hσ p (.data decl) withLeading fun hout => dataDecl_crlf hout hσ p hline layout
  | clause c layout =>
    cases layout with
    | none => exact hverbatim
    | some layout =>
      obtain ⟨⟨lhs, rhs⟩, locals⟩ := c
      cases rhs with
      | guarded guard more => exact hverbatim
      | plain equals body =>
        have htop (segments : List (Segment Block)) :
            Segment.topTokens (segments.map (Segment.bimap (Token.crlf σ) (Block.map (Token.crlf σ))))
              = (Segment.topTokens segments).map (Token.crlf σ) := Segment.topTokens_bimap _ _ segments
        refine structured_crlf h hσ p (.clause ⟨⟨lhs, .plain equals body⟩, locals⟩ (some layout)) withLeading
          fun {out out'} hout => ?_
        have hbroken := brokenClause_crlf σ hout p (Segment.topTokens lhs) equals (Segment.topTokens body) layout
        rw [← htop, ← htop] at hbroken
        exact hbroken

end Printer

end HaskellStyle
