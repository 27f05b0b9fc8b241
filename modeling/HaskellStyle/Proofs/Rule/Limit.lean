import HaskellStyle.Proofs.Newline.Flat
import HaskellStyle.Proofs.Print.Parts
import HaskellStyle.Proofs.Print.Placed
import HaskellStyle.Proofs.Rule.Idempotent
import HaskellStyle.Proofs.Rule.Part

/-!
This module contains that layouts agree with what is written. A part that is laid out on one line is written as the line
that was measured, to the character, and the line is within the limit. A part is laid out on several lines only if it has
comments, was spread over lines before, or does not fit on one.
-/

namespace HaskellStyle

namespace Token

/--
Whether a comment stands between tokens or behind the last of them.
-/
def commentInside (ts : List Token) : Bool :=
  ts.any (·.trailing.hasComments) || ts.tail.any (·.leading.hasComments)

/--
The comments behind a token as they are written behind a part on one line.
-/
def commentBehind (t : Token) : String :=
  match (Printer.splitComments t.trailing).2 with
  | [] => ""
  | comments => "  " ++ Trivia.text comments

theorem commentInside_of_haveComments {t : Token} {before ts after : List Token} (h : haveComments ts) :
    commentInside (t :: before ++ ts ++ after) := by
  obtain ⟨u, hu, hcomments⟩ := List.any_eq_true.1 h
  rw [List.cons_append, List.cons_append]
  have hmem : u ∈ before ++ ts ++ after := List.mem_append_left _ (List.mem_append_right _ hu)
  rcases Bool.or_eq_true_iff.1 hcomments with hleading | htrailing
  · exact Bool.or_eq_true_iff.2 (.inr (List.any_eq_true.2 ⟨u, hmem, hleading⟩))
  · exact Bool.or_eq_true_iff.2 (.inl (List.any_eq_true.2 ⟨u, List.mem_cons_of_mem _ hmem, htrailing⟩))

theorem commentInside_of_not_cleanInside {ts : List Token} (hlines : ∀ t ∈ ts, t.isMultiline = false)
    (h : cleanInside ts = false) : commentInside ts := by
  induction ts with
  | nil => cases h
  | cons t ts ih =>
    obtain ⟨ht, hlines⟩ := List.forall_mem_cons.1 hlines
    cases ts with
    | nil =>
      rw [cleanInside, ht] at h
      cases h
    | cons u more =>
      rw [cleanInside, ht] at h
      by_cases hclean : cleanInside (u :: more)
      · simp only [commentInside, List.any_cons, List.tail_cons]
        revert h
        cases t.trailing.hasComments <;> cases u.leading.hasComments <;> simp [hclean]
      · have hmore := ih hlines (Bool.not_eq_true _ ▸ hclean)
        simp only [commentInside, List.any_cons, List.tail_cons] at hmore ⊢
        revert hmore
        cases t.trailing.hasComments <;> cases u.leading.hasComments <;> simp

end Token

theorem Printer.text_trailing (p : Printer) (t : Token) (out : Output) :
    (p.trailing t true out).text = out.text ++ t.commentBehind := by
  unfold trailing Token.commentBehind
  cases hsplit : splitComments t.trailing with
  | mk gap rest =>
    cases rest with
    | nil => simp
    | cons comment more =>
      simp only [Bool.true_or, if_true, Bool.not_true, Bool.and_false, Bool.false_eq_true, if_false]
      refine String.toList_injective ?_
      rw [text_pieces, Output.text_blanks]
      simp [commentSpacing]

/--
How the layout of a part agrees with what is written of it. The line that is measured is the part on one line, without
the comments behind its last token. Of a part on several lines, `items` and `spread` tell how many things go on lines of
their own, and which tokens had to be on one line in the source.
-/
def MeetsLimit (settings : Settings) {ν : Type} [HasTokens ν] (part : ν) (layout : ListLayout) (items : Nat)
    (spread : List Token) (written onOneLine : String) : Prop :=
  ∃ line : String, onOneLine = line ++ (lastToken part).commentBehind ∧ '\n' ∉ line.toList ∧
    match layout with
    | .singleLine =>
      written = onOneLine ∧ (firstToken part).column + line.length ≤ settings.maxLineLength
    | .multiLine =>
      Token.commentInside (tokens part) ∨ (1 < items ∧ Token.spansLines spread)
        ∨ settings.maxLineLength < (firstToken part).column + line.length

variable {settings : Settings} {p : Printer}

/--
Why something is not laid out on one line.
-/
theorem Align.of_not_oneLine {clean spans : Bool} {items : Nat} {column : Int} {text : String}
    (h : ¬(clean && !(spans && decide (1 < items)) && fits settings column text) = true) :
    clean = false ∨ (1 < items ∧ spans) ∨ settings.maxLineLength < column + text.length := by
  rw [Bool.and_eq_true, Bool.and_eq_true, not_and_or, not_and_or] at h
  rcases h with (hcomments | hspread) | hfits
  · exact .inl (Bool.not_eq_true _ ▸ hcomments)
  · rw [Bool.not_eq_true', Bool.not_eq_false, Bool.and_eq_true] at hspread
    exact .inr (.inl ⟨of_decide_eq_true hspread.2, hspread.1⟩)
  · exact .inr (.inr (by simpa [fits] using hfits))

section Lists

/--
What the layout of a list that has items says about it.
-/
theorem Align.of_listLayout? {list : ItemList Entry} {column : Int} {suffix : String} {layout : ListLayout}
    (h : listLayout? settings list column suffix = some layout) (hitems : list.items ≠ []) :
    (∀ t ∈ tokens list, t.isMultiline = false) ∧
      match layout with
      | .singleLine => column + (list.flat ++ suffix).length ≤ settings.maxLineLength
      | .multiLine => Token.haveComments (tokens list) ∨ (1 < list.items.length ∧ Token.spansLines (tokens list))
        ∨ settings.maxLineLength < column + (list.flat ++ suffix).length := by
  have hnonempty : list.items.isEmpty = false := List.isEmpty_eq_false_iff.2 hitems
  unfold listLayout? at h
  split at h
  · next hwritable =>
    rw [listWritable, Bool.and_eq_true, Bool.and_eq_true, Bool.and_eq_true] at hwritable
    refine ⟨by simpa using hwritable.1.1.2, ?_⟩
    rw [hnonempty, if_neg Bool.false_ne_true] at h
    split at h
    · next hone =>
      cases h
      rw [Bool.and_eq_true] at hone
      exact of_decide_eq_true hone.2
    · next hmany =>
      cases h
      exact (of_not_oneLine hmany).imp_left fun hcomments => by simpa using hcomments
  · cases h

/--
A part around a list, written as `start`, the list and `suffix`, keeps to the limit if the layout of the list does.
-/
theorem meetsLimit_list {ν : Type} [HasTokens ν] {part : ν} (t : Token) (before after : List Token)
    {list : ItemList Entry} {layout : ListLayout} (start suffix : String) {written onOneLine : String}
    (htokens : tokens part = t :: before ++ tokens list ++ after) (hitems : list.items ≠ [])
    (hlayout : Align.listLayout? settings list (t.column + start.length) suffix = some layout)
    (hline : onOneLine = start ++ list.flat ++ suffix ++ (lastToken part).commentBehind)
    (hstart : Text.Over (· ≠ '\n') start) (hsuffix : Text.Over (· ≠ '\n') suffix)
    (hwritten : layout = .singleLine → written = onOneLine) :
    MeetsLimit settings part layout list.items.length (tokens list) written onOneLine := by
  obtain ⟨hlines, hchosen⟩ := Align.of_listLayout? hlayout hitems
  have hcolumn : (firstToken part).column = t.column := by
    rw [firstToken, htokens]
    rfl
  have hover : Text.Over (· ≠ '\n') (start ++ list.flat ++ suffix) :=
    (hstart.append (ItemList.over_flat Text.alphabet_line (Token.over_lines hlines))).append hsuffix
  have hlength : ((start ++ list.flat ++ suffix).length : Int) = start.length + (list.flat ++ suffix).length := by
    rw [String.append_assoc, String.length_append, Nat.cast_add]
  refine ⟨start ++ list.flat ++ suffix, hline, fun hmem => hover _ hmem rfl, ?_⟩
  rw [hcolumn, hlength, ← Int.add_assoc]
  cases layout with
  | singleLine => exact ⟨hwritten rfl, hchosen⟩
  | multiLine =>
    rcases hchosen with hcomments | hspread
    · exact .inl (htokens ▸ Token.commentInside_of_haveComments hcomments)
    · exact .inr hspread

end Lists

section Headers

theorem Header.lastToken_eq (h : Header) : lastToken h = h.whereKeyword :=
  List.getLastD_concat

theorem Header.whereKeyword_ofTokens {keyword eof : Token} {ts rest : List Token} {h : Header}
    (hread : ofTokens keyword eof ts = .ok (h, rest)) : h.whereKeyword.text = "where" := by
  rw [ofTokens_eq_bind] at hread
  split at hread
  · cases hread
  · cases hexports : exportsOf ((ts.drop 1).dropWhile (·.kind = .pragma)) with
    | error e =>
      rw [hexports] at hread
      cases hread
    | ok result =>
      rw [hexports] at hread
      simp only [Except.bind] at hread
      split at hread
      · cases hread
      · next hwhere =>
        cases hread
        simp only [Token.isKeyword, Bool.not_eq_true', Bool.not_eq_false, Bool.and_eq_true] at hwhere
        simpa using hwhere.2

/--
A header with its exports on one line.
-/
def Header.onOneLine (h : Header) : Header :=
  { h with exports := h.exports.map fun list => { list with layout := some .singleLine } }

/--
A header that ends in its keyword and whose layout keeps to the limit.
-/
structure Header.InLimit (settings : Settings) (p : Printer) (h : Header) : Prop where
  whereKeyword : h.whereKeyword.text = "where"
  exports : ∀ list ∈ h.exports, list.items ≠ [] → ∀ layout ∈ list.layout,
    MeetsLimit settings h layout list.items.length (tokens list) (p.headerText h) (p.headerText h.onOneLine)

theorem Printer.headerText_onOneLine {h : Header} {list : ItemList Entry} (hlist : h.exports = some list) :
    p.headerText h.onOneLine
      = " ".intercalate (h.head.map (·.text)) ++ " " ++ list.flat ++ (" " ++ h.whereKeyword.text)
        ++ h.whereKeyword.commentBehind := by
  have hexports : h.onOneLine.exports = some { list with layout := some .singleLine } := by
    rw [Header.onOneLine, hlist]
    rfl
  unfold headerText header
  rw [hexports]
  simp only [Option.bind_some, Option.map_some]
  rw [text_trailing]
  simp only [Output.put, Output.write, start, String.append_assoc]
  exact String.empty_append

theorem Align.inLimit_header {h : Header} (hh : h.InLimit settings p) : (header settings h).InLimit settings p := by
  unfold header
  split
  · exact hh
  · next list hlist =>
    dsimp only
    split
    · exact hh
    · next hguard =>
      split
      · exact hh
      · next layout hlayout =>
        refine ⟨hh.whereKeyword, fun list' hlist' hitems layout' hlayout' => ?_⟩
        cases hlist'
        cases hlayout'
        simp only [Bool.or_eq_true, not_or, Bool.not_eq_true', Bool.not_eq_false] at hguard
        have hhead : ∀ t ∈ h.head, t.isMultiline = false := fun t ht =>
          Token.isMultiline_of_cleanInside hguard.1.1.1 t (List.mem_append_left _ ht)
        refine meetsLimit_list h.keyword (h.name :: h.pragmas) [h.whereKeyword]
          (" ".intercalate (h.head.map (·.text)) ++ " ") " where" rfl hitems hlayout ?_ ?_ ?_ ?_
        · rw [Printer.headerText_onOneLine rfl, hh.whereKeyword]
          rw [Header.lastToken_eq]
          rfl
        · exact (Token.over_words Text.alphabet_line (Token.over_lines hhead)).append (.literal Text.alphabet_line (by decide))
        · exact .literal Text.alphabet_line (by decide)
        · rintro rfl
          rfl

end Headers

section Imports

/--
The text of an import without the trivia before it.
-/
def Printer.importText (p : Printer) (i : Import) : String :=
  (p.importDecl i p.start).text

/--
An import with its list on one line.
-/
def Import.onOneLine (i : Import) : Import :=
  { i with list := i.list.map fun list => { list with layout := some .singleLine } }

/--
An import whose layout keeps to the limit.
-/
def Import.InLimit (settings : Settings) (p : Printer) (i : Import) : Prop :=
  ∀ list ∈ i.list, list.items ≠ [] → ∀ layout ∈ list.layout,
    MeetsLimit settings i layout list.items.length (tokens list) (p.importText i) (p.importText i.onOneLine)

theorem Printer.importText_onOneLine {i : Import} {list : ItemList Entry} (hlist : i.list = some list)
    (hstructured : isStructured i.onOneLine) :
    p.importText i.onOneLine
      = " ".intercalate (i.head.map (·.text)) ++ " " ++ list.flat
        ++ (if i.tail.isEmpty then "" else " " ++ Token.flat i.tail) ++ (lastToken i).commentBehind := by
  have hlist' : i.onOneLine.list = some { list with layout := some .singleLine } := by
    rw [Import.onOneLine, hlist]
    rfl
  have hlast : lastToken i.onOneLine = lastToken i := by
    simp only [lastToken, tokens, hlist, hlist']
    rfl
  unfold importText importDecl
  rw [if_pos hstructured, hlist']
  simp only [Bool.true_or, decide_true, if_true]
  rw [text_trailing, hlast]
  have htail : i.onOneLine.tail = i.tail := rfl
  rw [htail]
  split <;>
    · simp only [Output.put, Output.write, start, String.append_assoc, String.append_empty]
      exact String.empty_append

theorem Align.inLimit_importDecl {i : Import} (hi : i.InLimit settings p) :
    (importDecl settings i).InLimit settings p := by
  unfold importDecl
  split
  · exact hi
  · next list hlist =>
    dsimp only
    split
    · exact hi
    · next hguard =>
      split
      · exact hi
      · next layout hlayout =>
        intro list' hlist' hitems layout' hlayout'
        cases hlist'
        cases hlayout'
        simp only [Bool.or_eq_true, not_or, Bool.not_eq_true', Bool.not_eq_false, Bool.and_eq_true, not_and_or,
          Bool.not_eq_true] at hguard
        obtain ⟨⟨hhead, hbehind⟩, htail⟩ := hguard
        have hsuffix : Text.Over (· ≠ '\n') (if i.tail.isEmpty then "" else " " ++ Token.flat i.tail) := by
          split
          · exact .empty
          · next hnonempty =>
            have hclean := htail.resolve_left (by simpa using hnonempty)
            have hlines := Token.isMultiline_of_cleanInside hclean
            refine (Text.Over.literal Text.alphabet_line (by decide)).append (Token.over_flat Text.alphabet_line ?_)
            exact Token.over_lines fun t ht => hlines t (List.mem_cons_of_mem _ ht)
        refine meetsLimit_list i.keyword i.words i.tail (" ".intercalate (i.head.map (·.text)) ++ " ") _
          rfl hitems hlayout ?_ ?_ hsuffix ?_
        · rw [Printer.importText_onOneLine rfl]
          · rfl
          · refine Bool.and_eq_true_iff.2 ⟨hhead, ?_⟩
            have htail' : (i.tail.isEmpty || Token.cleanInside (list.closing :: i.tail)) = true := by
              simpa [Bool.or_eq_true] using htail
            show ((i.tail.isEmpty || Token.cleanInside (list.closing :: i.tail))
              && !i.lastOfHead.trailing.hasComments && true) = true
            rw [htail', hbehind]
            rfl
        · refine (Token.over_words Text.alphabet_line ?_).append (.literal Text.alphabet_line (by decide))
          exact Token.over_lines (Token.isMultiline_of_cleanInside hhead)
        · rintro rfl
          rfl

end Imports

section Signatures

/--
A signature on one line.
-/
def Signature.onOneLine (s : Signature) : Signature :=
  { s with layout := some .singleLine }

/--
A signature whose layout keeps to the limit.
-/
def Signature.InLimit (settings : Settings) (p : Printer) (s : Signature) : Prop :=
  ∀ layout ∈ s.layout, MeetsLimit settings s layout s.parts.length (tokens s) (p.declarationText (.signature s))
    (p.declarationText (.signature s.onOneLine))

theorem Printer.declarationText_signature (s : Signature) :
    p.declarationText (.signature s.onOneLine) = s.flat ++ (lastToken s).commentBehind := by
  show (p.trailing (lastToken s) true (p.start.put s.flat)).text = _
  rw [text_trailing]
  exact congrArg (· ++ (lastToken s).commentBehind) String.empty_append

theorem Align.inLimit_signature {s : Signature} (hs : s.InLimit settings p) :
    (signature settings s).InLimit settings p := by
  unfold signature
  dsimp only
  split
  · exact hs
  · next hmultiline =>
    have hlines : ∀ t ∈ tokens s, t.isMultiline = false := by
      simpa using hmultiline
    have hover : Text.Over (· ≠ '\n') s.flat := Signature.over_flat Text.alphabet_line (Token.over_lines hlines)
    split
    · next hone =>
      intro layout hlayout
      cases hlayout
      rw [Bool.and_eq_true] at hone
      exact ⟨s.flat, Printer.declarationText_signature s, fun hmem => hover _ hmem rfl, rfl, of_decide_eq_true hone.2⟩
    · next hmany =>
      split
      · intro layout hlayout
        cases hlayout
        refine ⟨s.flat, Printer.declarationText_signature s, fun hmem => hover _ hmem rfl, ?_⟩
        exact (of_not_oneLine hmany).imp_left (Token.commentInside_of_not_cleanInside hlines)
      · exact hs

end Signatures

section Data

/--
The layout that a data declaration gets.
-/
def Align.dataLayout (settings : Settings) (d : DataDecl) : Option ListLayout :=
  (dataLayout? settings d).map Prod.snd

/--
A data declaration on one line.
-/
def DataDecl.onOneLine (d : DataDecl) : DataDecl :=
  { d with layout := some .singleLine, derivingLayout := some ⟨false, 0⟩ }

/--
How many fields a data declaration with a single record has, or how many constructors any other.
-/
def DataDecl.itemCount (d : DataDecl) : Nat :=
  match d.singleRecord? with
  | some r => r.items.length
  | none => d.constructors.length

/--
The tokens of the single record of a data declaration, or of all constructors with the equals sign before them.
-/
def DataDecl.itemTokens (d : DataDecl) : List Token :=
  match d.singleRecord? with
  | some r => tokens r
  | none => d.equals :: d.constructors.flatMap tokens

theorem Align.dataLayout_eq (d : DataDecl) :
    dataLayout settings d
      = if dataWritable d then
          if !(!Token.cleanInside (tokens d) || (lastToken d).trailing.hasComments)
              && !(Token.spansLines d.itemTokens && decide (1 < d.itemCount))
              && fits settings d.keyword.column (d.flat ++ inlineDerivings d) then
            some .singleLine
          else if d.singleRecord?.any (·.items.isEmpty) then none else some .multiLine
        else none := by
  unfold dataLayout dataLayout? DataDecl.itemTokens DataDecl.itemCount
  split
  · cases d.singleRecord? with
    | none =>
      dsimp only
      split <;> rfl
    | some r =>
      dsimp only [Option.any_some]
      split
      · rfl
      · split <;> rfl
  · rfl

/--
What the layout of a data declaration says about it.
-/
theorem Align.of_dataLayout {d : DataDecl} {layout : ListLayout} (h : dataLayout settings d = some layout) :
    (∀ t ∈ tokens d, t.isMultiline = false) ∧
      match layout with
      | .singleLine => d.keyword.column + (d.flat ++ inlineDerivings d).length ≤ settings.maxLineLength
      | .multiLine => Token.commentInside (tokens d) ∨ (1 < d.itemCount ∧ Token.spansLines d.itemTokens)
        ∨ settings.maxLineLength < d.keyword.column + (d.flat ++ inlineDerivings d).length := by
  rw [dataLayout_eq] at h
  split at h
  · next hwritable =>
    simp only [dataWritable, Bool.and_eq_true] at hwritable
    have hlines : ∀ t ∈ tokens d, t.isMultiline = false := by
      simpa using hwritable.1.1.1.1
    refine ⟨hlines, ?_⟩
    split at h
    · next hone =>
      cases h
      rw [Bool.and_eq_true] at hone
      exact of_decide_eq_true hone.2
    · next hmany =>
      split at h
      · cases h
      · cases h
        refine (of_not_oneLine hmany).imp_left fun hcomments => ?_
        rw [Bool.not_eq_false', Bool.or_eq_true, Bool.not_eq_true'] at hcomments
        refine hcomments.elim (Token.commentInside_of_not_cleanInside hlines) fun hlast => ?_
        have hmem : lastToken d ∈ tokens d := ItemList.lastToken_mem (List.cons_ne_nil _ _)
        exact Bool.or_eq_true_iff.2 (.inl (List.any_eq_true.2 ⟨lastToken d, hmem, hlast⟩))
  · cases h

theorem Align.dataLayout_of_unlaid {d e : DataDecl} (h : e.unlaid = d.unlaid) :
    dataLayout settings e = dataLayout settings d := by
  rw [dataLayout, dataLayout, ← dataLayout?_unlaid, h, dataLayout?_unlaid]

theorem Align.layout_dataDecl (d : DataDecl) :
    (dataDecl settings d).layout = (dataLayout settings d).or d.layout := by
  rw [dataDecl_eq, dataLayout]
  cases dataLayout? settings d <;> rfl

namespace DerivingFormat

theorem dataDecl_cases (d : DataDecl) :
    dataDecl settings d = d
      ∨ ∃ layout, d.layout = some layout ∧ d.derivings ≠ [] ∧ dataDecl settings d = normalize settings d layout := by
  unfold dataDecl
  split
  · next layout clause more hlayout hderivings =>
    exact .inr ⟨layout, hlayout, hderivings ▸ List.cons_ne_nil _ _, rfl⟩
  · exact .inl rfl

theorem layout_dataDecl (d : DataDecl) : (dataDecl settings d).layout = d.layout := by
  rcases dataDecl_cases d with h | ⟨layout, -, -, h⟩ <;> rw [h]
  rfl

theorem unlaid_dataDecl (d : DataDecl) : (dataDecl settings d).unlaid = d.unlaid := by
  rcases dataDecl_cases d with h | ⟨layout, -, -, h⟩ <;> rw [h]
  exact unlaid_normalize settings d layout

theorem dataDecl_of_layout {d : DataDecl} {layout : ListLayout} (hlayout : d.layout = some layout)
    (hderivings : d.derivings ≠ []) : dataDecl settings d = normalize settings d layout := by
  obtain ⟨clause, more, hcons⟩ := List.exists_cons_of_ne_nil hderivings
  unfold dataDecl
  rw [hlayout, hcons]

theorem dataDecl_dataDecl (d : DataDecl) : dataDecl settings (dataDecl settings d) = dataDecl settings d := by
  rcases dataDecl_cases d with h | ⟨layout, hlayout, hderivings, h⟩
  · rw [h, h]
  · have hderivings' : (normalize settings d layout).derivings ≠ [] := by
      simpa [normalize] using hderivings
    rw [h, dataDecl_of_layout (d := normalize settings d layout) hlayout hderivings', normalize_normalize]

/--
Laying a declaration out leaves its deriving clauses as they are.
-/
theorem dataDecl_align {d : DataDecl} (hlayout : (Align.dataDecl settings d).layout = d.layout)
    (h : dataDecl settings d = d) : dataDecl settings (Align.dataDecl settings d) = Align.dataDecl settings d := by
  rcases Align.dataDecl_cases settings d with heq | ⟨f, layout, -, heq⟩
  · rw [heq, h]
  · rw [heq] at hlayout ⊢
    by_cases hderivings : d.derivings = []
    · unfold dataDecl Align.mapConstructors
      simp only [hderivings]
    · have hd : normalize settings d layout = d := (dataDecl_of_layout hlayout.symm hderivings).symm.trans h
      rw [dataDecl_of_layout (d := Align.mapConstructors f layout d) rfl hderivings]
      exact congrArg (Align.mapConstructors f layout) hd

end DerivingFormat

/--
A data declaration without a layout, or with the one that it gets.
-/
def DataDecl.MayBeLaid (settings : Settings) (d : DataDecl) : Prop :=
  ∀ layout ∈ d.layout, Align.dataLayout settings d = some layout

/--
A data declaration that has been laid out.
-/
def DataDecl.IsLaid (settings : Settings) (d : DataDecl) : Prop :=
  d.layout = Align.dataLayout settings d

/--
A data declaration that has been laid out and then got its deriving clauses in normal form.
-/
structure DataDecl.IsMarked (settings : Settings) (d : DataDecl) : Prop where
  isLaid : d.IsLaid settings
  derivings : DerivingFormat.dataDecl settings d = d

namespace DataDecl

theorem mayBeLaid_onData {d : DataDecl} (hd : d.MayBeLaid settings) (rule : Rule) :
    (rule.onData settings d).MayBeLaid settings := by
  cases rule with
  | alignment =>
    intro layout hlayout
    rw [show Rule.onData settings d .alignment = Align.dataDecl settings d from rfl] at hlayout ⊢
    rw [Align.dataLayout_of_unlaid (Align.unlaid_dataDecl settings d)]
    rw [Align.layout_dataDecl] at hlayout
    cases hchosen : Align.dataLayout settings d with
    | none =>
      rw [hchosen, Option.none_or] at hlayout
      exact hchosen.symm.trans (hd layout hlayout)
    | some chosen =>
      rw [hchosen] at hlayout
      exact hlayout
  | strictnessDeriving =>
    intro layout hlayout
    rw [show Rule.onData settings d .strictnessDeriving = DerivingFormat.dataDecl settings d from rfl] at hlayout ⊢
    rw [Align.dataLayout_of_unlaid (DerivingFormat.unlaid_dataDecl d)]
    exact hd layout (DerivingFormat.layout_dataDecl d ▸ hlayout)
  | _ => exact hd

theorem isLaid_alignment {d : DataDecl} (hd : d.MayBeLaid settings) : (Align.dataDecl settings d).IsLaid settings := by
  unfold IsLaid
  rw [Align.dataLayout_of_unlaid (Align.unlaid_dataDecl settings d), Align.layout_dataDecl]
  cases hchosen : Align.dataLayout settings d with
  | some chosen => rfl
  | none =>
    cases hlayout : d.layout with
    | none => rfl
    | some layout => exact absurd (hchosen.symm.trans (hd layout hlayout)) nofun

theorem IsLaid.mayBeLaid {d : DataDecl} (hd : d.IsLaid settings) : d.MayBeLaid settings :=
  fun _ hlayout => hd.symm.trans hlayout

theorem isLaid_deriving {d : DataDecl} (hd : d.IsLaid settings) : (DerivingFormat.dataDecl settings d).IsLaid settings := by
  unfold IsLaid
  rw [Align.dataLayout_of_unlaid (DerivingFormat.unlaid_dataDecl d), DerivingFormat.layout_dataDecl]
  exact hd

theorem isLaid_onData {d : DataDecl} (hd : d.IsLaid settings) (rule : Rule) :
    (rule.onData settings d).IsLaid settings := by
  cases rule with
  | alignment => exact isLaid_alignment hd.mayBeLaid
  | strictnessDeriving => exact isLaid_deriving hd
  | _ => exact hd

theorem isMarked_onData {d : DataDecl} (hd : d.IsMarked settings) (rule : Rule) :
    (rule.onData settings d).IsMarked settings := by
  cases rule with
  | alignment =>
    have hlaid := isLaid_alignment hd.isLaid.mayBeLaid
    refine ⟨hlaid, DerivingFormat.dataDecl_align ?_ hd.derivings⟩
    rw [hlaid, Align.dataLayout_of_unlaid (Align.unlaid_dataDecl settings d), hd.isLaid]
  | strictnessDeriving => exact ⟨isLaid_deriving hd.isLaid, DerivingFormat.dataDecl_dataDecl d⟩
  | _ => exact hd

end DataDecl

/--
What is written of a data declaration that is laid out on one line, with one deriving clause at most.
-/
theorem Printer.declarationText_data {d : DataDecl} (hlayout : d.layout = some .singleLine)
    (howns : d.derivings ≠ [] → (d.derivingLayout.getD ⟨false, 0⟩).ownLines = false) (hone : d.derivings.length ≤ 1)
    (hmarked : ∀ clause ∈ d.derivings, clause.parenthesize = true) :
    p.declarationText (.data d) = d.flat ++ Align.inlineDerivings d ++ (lastToken d).commentBehind := by
  have hdata (out : Output) : (p.dataDecl d .singleLine out).text = out.text ++ (d.flat ++ Align.inlineDerivings d) := by
    unfold dataDecl derivings Align.inlineDerivings
    dsimp only
    rcases hderivings : d.derivings with _ | ⟨clause, _ | ⟨second, more⟩⟩
    · rw [List.foldl_nil, List.foldl_nil, ite_self]
      exact congrArg (out.text ++ ·) String.append_empty.symm
    · have hclause : { clause with parenthesize := true } = clause := by
        rw [← hmarked clause (hderivings ▸ List.mem_singleton.2 rfl)]
      rw [howns (hderivings ▸ List.cons_ne_nil _ _), if_pos (by decide)]
      dsimp only
      rw [hclause]
      exact String.append_assoc
    · rw [hderivings] at hone
      simp at hone
  have htext : p.declarationText (.data d) = (p.trailing (lastToken d) true (p.dataDecl d .singleLine p.start)).text := by
    unfold declarationText declaration
    dsimp only
    rw [hlayout]
    rfl
  rw [htext, text_trailing, hdata]
  exact congrArg (· ++ (lastToken d).commentBehind) String.empty_append

/--
A data declaration with one deriving clause at most keeps to the limit once it has been laid out and marked.
-/
theorem DataDecl.IsMarked.meetsLimit {d : DataDecl} (hd : d.IsMarked settings) (hone : d.derivings.length ≤ 1)
    (p : Printer) {layout : ListLayout} (hlayout : d.layout = some layout) :
    MeetsLimit settings d layout d.itemCount d.itemTokens (p.declarationText (.data d))
      (p.declarationText (.data d.onOneLine)) := by
  have hnormal (hderivings : d.derivings ≠ []) : DerivingFormat.normalize settings d layout = d :=
    (DerivingFormat.dataDecl_of_layout hlayout hderivings).symm.trans hd.derivings
  have hmarked : ∀ clause ∈ d.derivings, clause.parenthesize = true := by
    intro clause hclause
    rw [← hnormal (List.ne_nil_of_mem hclause)] at hclause
    obtain ⟨clause, -, rfl⟩ := List.mem_map.1 hclause
    rfl
  obtain ⟨hlines, hchosen⟩ := Align.of_dataLayout (hd.isLaid.symm.trans hlayout)
  have hline : p.declarationText (.data d.onOneLine)
      = d.flat ++ Align.inlineDerivings d ++ (lastToken d).commentBehind :=
    Printer.declarationText_data (d := d.onOneLine) rfl (fun _ => rfl) hone hmarked
  have hover : Text.Over (· ≠ '\n') (d.flat ++ Align.inlineDerivings d) := by
    refine (DataDecl.over_flat Text.alphabet_line (Token.over_lines hlines)).append ?_
    unfold Align.inlineDerivings
    split
    · next clause hclause =>
      refine (Text.Over.literal Text.alphabet_line (by decide)).append (Deriving.over_flat Text.alphabet_line ?_ 0)
      have hmem : clause ∈ d.derivings := hclause ▸ List.mem_singleton.2 rfl
      exact Token.over_lines fun t ht => forall_derivings hlines clause hmem t ht
    · exact .empty
  refine ⟨_, hline, fun hmem => hover _ hmem rfl, ?_⟩
  cases layout with
  | multiLine => exact hchosen
  | singleLine =>
    refine ⟨?_, hchosen⟩
    rw [hline]
    refine Printer.declarationText_data hlayout (fun hderivings => ?_) hone hmarked
    rw [← hnormal hderivings]
    simpa [DerivingFormat.normalize] using hone

end Data

/--
A module all of whose layouts agree with what is written: those of its header, its imports, its signatures and its
data declarations with one deriving clause at most.
-/
structure Module.InLimit (settings : Settings) (m : Module) : Prop where
  header : ∀ h ∈ m.header, ∀ list ∈ h.exports, list.items ≠ [] → ∀ layout ∈ list.layout,
    MeetsLimit settings h layout list.items.length (tokens list) ((Printer.ofModule settings m).headerText h)
      ((Printer.ofModule settings m).headerText h.onOneLine)
  imports : ∀ i, i ∈ m.importDecls ∨ .importing i ∈ m.declarations → ∀ list ∈ i.list, list.items ≠ [] →
    ∀ layout ∈ list.layout,
      MeetsLimit settings i layout list.items.length (tokens list) ((Printer.ofModule settings m).importText i)
        ((Printer.ofModule settings m).importText i.onOneLine)
  signatures : ∀ s, .signature s ∈ m.declarations → ∀ layout ∈ s.layout,
    MeetsLimit settings s layout s.parts.length (tokens s)
      ((Printer.ofModule settings m).declarationText (.signature s))
      ((Printer.ofModule settings m).declarationText (.signature s.onOneLine))
  data : ∀ d, .data d ∈ m.declarations → d.derivings.length ≤ 1 → ∀ layout ∈ d.layout,
    MeetsLimit settings d layout d.itemCount d.itemTokens ((Printer.ofModule settings m).declarationText (.data d))
      ((Printer.ofModule settings m).declarationText (.data d.onOneLine))

/--
What each step keeps and one of them brings about holds in the end.
-/
theorem List.foldl_of_mem {α β : Type} {step : α → β → α} {P Q : α → Prop} (hP : ∀ x y, P x → P (step x y))
    (hQ : ∀ x y, Q x → Q (step x y)) {y : β} (hstep : ∀ x, P x → Q (step x y)) {ys : List β} (hy : y ∈ ys) {x : α}
    (hx : P x) : Q (ys.foldl step x) := by
  induction ys generalizing x with
  | nil => cases hy
  | cons first more ih =>
    rcases List.mem_cons.1 hy with rfl | hy
    · exact List.foldlRecOn more step (hstep x hx) fun x hx y _ => hQ x y hx
    · exact ih hy (hP x first hx)

theorem DataDecl.isMarked_foldl {rules : List Rule} (hrules : [.alignment, .strictnessDeriving].Sublist rules)
    {d : DataDecl} (hd : d.layout = none) : (rules.foldl (Rule.onData settings) d).IsMarked settings := by
  have halign (d : DataDecl) (hd : d.MayBeLaid settings) : (Rule.onData settings d .alignment).IsLaid settings :=
    isLaid_alignment hd
  have hderiving (d : DataDecl) (hd : d.IsLaid settings) :
      (Rule.onData settings d .strictnessDeriving).IsMarked settings :=
    ⟨isLaid_deriving hd, DerivingFormat.dataDecl_dataDecl d⟩
  obtain ⟨before, after, rfl, hbefore, hafter⟩ := List.cons_sublist_iff.1 hrules
  have hunlaid : d.MayBeLaid settings := fun layout hlayout => by
    rw [hd] at hlayout
    cases hlayout
  have hlaid : (before.foldl (Rule.onData settings) d).IsLaid settings :=
    List.foldl_of_mem (P := MayBeLaid settings) (Q := IsLaid settings) (fun _ rule hd => mayBeLaid_onData hd rule)
      (fun _ rule hd => isLaid_onData hd rule) halign hbefore hunlaid
  rw [List.foldl_append]
  exact List.foldl_of_mem (P := IsLaid settings) (Q := IsMarked settings) (fun _ rule hd => isLaid_onData hd rule)
    (fun _ rule hd => isMarked_onData hd rule) hderiving (List.singleton_sublist.1 hafter) hlaid

/--
The signature that a declaration is, if it is one.
-/
def Declaration.signature? : Declaration → Option Signature
  | .signature s => some s
  | _ => none

/--
The data declaration that a declaration is, if it is one.
-/
def Declaration.data? : Declaration → Option DataDecl
  | .data d => some d
  | _ => none

namespace Module

theorem whereKeyword_of_read {text : List Char} {m : Module} (h : read text = .ok m) :
    ∀ head ∈ m.header, head.whereKeyword.text = "where" := by
  obtain ⟨stream, header, rest, ds, -, hheader, -, rfl⟩ := read_eq_ok h
  intro head hhead
  change header = some head at hhead
  subst hhead
  unfold headerOf at hheader
  split at hheader
  · cases hheader
  · split at hheader
    · obtain ⟨⟨h', after⟩, hread, heq⟩ := map_eq_ok hheader
      cases heq
      exact Header.whereKeyword_ofTokens hread
    · cases hheader

/--
After the rule for layouts and then the one for deriving clauses, among whatever other rules, all layouts agree with what
is written.
-/
theorem inLimit_afterRules {text : List Char} {m m' : Module} {rules : List Rule} (hparse : parse text = .ok m)
    (hrules : [.alignment, .strictnessDeriving].Sublist rules) (h : m.afterRules settings rules = .ok m') :
    m'.InLimit settings := by
  have hread := read_of_parse hparse
  have hfresh := isFresh_of_read hread
  have hparts := partsAfter_afterRules h
  refine ⟨fun head hhead => ?_, fun i hi => ?_, fun s hs => ?_, fun d hd hone layout hlayout => ?_⟩
  · rw [hparts.header] at hhead
    obtain ⟨h₀, hh₀, rfl⟩ := Option.mem_map.1 hhead
    refine Header.InLimit.exports (List.foldlRecOn rules _ ?_ fun h hh rule _ => ?_)
    · refine ⟨whereKeyword_of_read hread h₀ hh₀, fun list hlist _ layout hlayout => ?_⟩
      rw [hfresh.header h₀ hh₀ list hlist] at hlayout
      cases hlayout
    · cases rule with
      | alignment => exact Align.inLimit_header hh
      | _ => exact hh
  · have hunlaid (i : Import) (hi : i ∈ m.importDecls ∨ .importing i ∈ m.declarations) :
        i.InLimit settings (Printer.ofModule settings m') := by
      intro list hlist _ layout hlayout
      have hi' := unlaid_imports_of_read hread i hi
      rw [← hi', Import.unlaid] at hlist
      obtain ⟨list, -, rfl⟩ := Option.mem_map.1 hlist
      cases hlayout
    rcases hi with hi | hi
    · obtain ⟨i₀, hi₀, rfl⟩ := hparts.imports i hi
      refine List.foldlRecOn rules _ (hunlaid i₀ (.inl hi₀)) fun i hi rule _ => ?_
      cases rule with
      | alignment => exact Align.inLimit_importDecl hi
      | _ => exact hi
    · exact hunlaid i (.inr (hparts.importings i hi))
  · obtain ⟨s₀, hs₀, rfl⟩ := hparts.signatures s hs
    refine List.foldlRecOn (motive := Signature.InLimit settings (Printer.ofModule settings m')) rules _ ?_
      fun s hs rule _ => ?_
    · intro layout hlayout
      have hunlaid := Declaration.signature.inj (hfresh.declarations _ hs₀).1
      rw [← hunlaid] at hlayout
      cases hlayout
    · cases rule with
      | alignment => exact Align.inLimit_signature hs
      | _ => exact hs
  · obtain ⟨d₀, hd₀, rfl⟩ := hparts.data d hd
    have hunlaid := Declaration.data.inj (hfresh.declarations _ hd₀).1
    exact (DataDecl.isMarked_foldl hrules (hunlaid ▸ rfl)).meetsLimit hone _ hlayout

/--
A header and a data declaration that are one character too long, and an import and a signature that fit.
-/
theorem inLimit_afterRules_short :
    ∃ m m', parse "module A (b, c) where\nimport D (e, f)\ng :: Int -> Int\ndata T = T Int Int\n  deriving Eq\n".toList
        = .ok m
      ∧ [Rule.alignment, .strictnessDeriving].Sublist Rule.all
      ∧ m.afterRules { maxLineLength := 20 } Rule.all = .ok m'
      ∧ (m'.header.bind fun h => h.exports.bind (·.layout)) = some .multiLine
      ∧ (m'.importDecls.map fun i => i.list.bind (·.layout)) = [some .singleLine]
      ∧ m'.InLimit { maxLineLength := 20 } := by
  have hrun : ((parse ("module A (b, c) where\nimport D (e, f)\ng :: Int -> Int\n"
      ++ "data T = T Int Int\n  deriving Eq\n").toList).toOption.bind fun m =>
        (m.afterRules { maxLineLength := 20 } Rule.all).toOption.map fun m' =>
          decide ((m'.header.bind fun h => h.exports.bind (·.layout)) = some .multiLine
            ∧ (m'.importDecls.map fun i => i.list.bind (·.layout)) = [some .singleLine])) = some true := by
    decide +kernel
  obtain ⟨m, hm, hrun⟩ := Option.bind_eq_some_iff.1 hrun
  obtain ⟨m', hm', hlayouts⟩ := Option.map_eq_some_iff.1 hrun
  have hlayouts := of_decide_eq_true hlayouts
  have hrules : [Rule.alignment, .strictnessDeriving].Sublist Rule.all := by decide
  exact ⟨m, m', toOption_eq_some hm, hrules, toOption_eq_some hm', hlayouts.1, hlayouts.2,
    inLimit_afterRules (toOption_eq_some hm) hrules (toOption_eq_some hm')⟩

/--
What is spread over lines need not be what goes on lines of its own. A signature is laid out on several lines although
its type is on one and would fit, if its names are on another line, and so is a data declaration whose constructors are
on one line and its equals sign on another.
-/
theorem multiLine_of_spread_head :
    (∃ m m' s, parse "f\n  :: Int -> Int\n".toList = .ok m
      ∧ m.afterRules {} [.alignment, .strictnessDeriving] = .ok m' ∧ .signature s ∈ m'.declarations
      ∧ s.layout = some .multiLine ∧ Token.commentInside (tokens s) = false
      ∧ Token.spansLines (s.parts.flatMap fun (leader, part) => leader :: part) = false
      ∧ (firstToken s).column = 0
      ∧ (Printer.ofModule {} m').declarationText (.signature s.onOneLine) = "f :: Int -> Int")
    ∧ ∃ m m' d, parse "data T =\n  A | B\n".toList = .ok m
      ∧ m.afterRules {} [.alignment, .strictnessDeriving] = .ok m' ∧ .data d ∈ m'.declarations
      ∧ d.layout = some .multiLine ∧ Token.commentInside (tokens d) = false
      ∧ Token.spansLines (d.constructors.flatMap tokens) = false
      ∧ (firstToken d).column = 0
      ∧ (Printer.ofModule {} m').declarationText (.data d.onOneLine) = "data T = A | B" := by
  constructor
  · have hrun : ((parse "f\n  :: Int -> Int\n".toList).toOption.bind fun m =>
        (m.afterRules {} [.alignment, .strictnessDeriving]).toOption.map fun m' => m'.declarations.any fun d =>
          d.signature?.any fun s => s.layout = some .multiLine ∧ Token.commentInside (tokens s) = false
            ∧ Token.spansLines (s.parts.flatMap fun part => part.1 :: part.2) = false ∧ (firstToken s).column = 0
            ∧ (Printer.ofModule {} m').declarationText (.signature s.onOneLine) = "f :: Int -> Int") = some true := by
      decide +kernel
    obtain ⟨m, hm, hrun⟩ := Option.bind_eq_some_iff.1 hrun
    obtain ⟨m', hm', hrun⟩ := Option.map_eq_some_iff.1 hrun
    obtain ⟨d, hd, hspread⟩ := List.any_eq_true.1 hrun
    cases d with
    | signature s => exact ⟨m, m', s, toOption_eq_some hm, toOption_eq_some hm', hd, of_decide_eq_true hspread⟩
    | _ => cases hspread
  · have hrun : ((parse "data T =\n  A | B\n".toList).toOption.bind fun m =>
        (m.afterRules {} [.alignment, .strictnessDeriving]).toOption.map fun m' => m'.declarations.any fun d =>
          d.data?.any fun d => d.layout = some .multiLine ∧ Token.commentInside (tokens d) = false
            ∧ Token.spansLines (d.constructors.flatMap tokens) = false ∧ (firstToken d).column = 0
            ∧ (Printer.ofModule {} m').declarationText (.data d.onOneLine) = "data T = A | B") = some true := by
      decide +kernel
    obtain ⟨m, hm, hrun⟩ := Option.bind_eq_some_iff.1 hrun
    obtain ⟨m', hm', hrun⟩ := Option.map_eq_some_iff.1 hrun
    obtain ⟨d, hd, hspread⟩ := List.any_eq_true.1 hrun
    cases d with
    | data d => exact ⟨m, m', d, toOption_eq_some hm, toOption_eq_some hm', hd, of_decide_eq_true hspread⟩
    | _ => cases hspread

end Module

end HaskellStyle
