import HaskellStyle.Print.Module
import HaskellStyle.Proofs.Print.Alphabet

/-!
This module contains the induction over the steps of writing. Whatever is written is made of texts that are added and
of findings about the blanks before comments; what these steps keep, the written module has. The texts have no
characters but those of the tokens, blanks and visible characters.
-/

namespace HaskellStyle

/--
A property of output that every step of writing keeps that adds a text of characters in `C`.
-/
structure Output.Kept (C : Char → Prop) (P : Output → Prop) : Prop where
  alphabet : Alphabet C
  newline : ∀ {out : Output}, P out → Text.Over C out.newline
  write : ∀ {out : Output} {text : String} shield, Text.Over C text → P out → P (out.write text shield)
  report : ∀ {out : Output} (d : Diagnostic), d.kind = .endOfLineCommentSpacing → P out → P (out.report d)

theorem mem_of_minBy {α : Type} {key : α → Nat} {xs : List α} {x : α} (h : minBy key xs = some x) : x ∈ xs := by
  induction xs generalizing x with
  | nil => cases h
  | cons first more ih =>
    rw [minBy] at h
    split at h
    · next y hmin =>
      split at h
      · exact List.mem_cons_of_mem first (ih (h ▸ hmin))
      · exact Option.some.inj h ▸ List.mem_cons_self
    · exact Option.some.inj h ▸ List.mem_cons_self

namespace Printer

/--
Writes what precedes the declarations of a module.
-/
def preamble (p : Printer) (m : Module) (out : Output) : Output :=
  let out :=
    if m.pragmasNormalized then
      p.headerPragmas m.headerPragmas true out
    else
      p.verbatim (m.headerPragmas.map (·.token)) out
  let out :=
    match m.header with
    | some h => p.header h true out
    | none => out
  if m.importsNormalized then
    p.importBlock m.imports out
  else
    p.verbatim (m.importDecls.flatMap tokens) out

theorem moduleParts_eq (p : Printer) (m : Module) (out : Output) : p.moduleParts m out
    = p.leading m.eof (m.declarations.foldl (fun out d => p.declaration d true out) (p.preamble m out)) := rfl

end Printer

theorem Segment.topTokens_subset (segments : List (Segment Block)) : topTokens segments ⊆ Segment.tokens segments := by
  induction segments with
  | nil => exact List.nil_subset _
  | cons segment segments ih =>
    cases segment with
    | token t => exact List.cons_subset_cons t ih
    | block b => exact fun t ht => List.mem_append_right _ (ih ht)

/--
The tokens of a clause that is broken are tokens of the clause.
-/
theorem Clause.topTokens_subset {c : Clause Block} {equals : Token} {body : List (Segment Block)}
    (hrhs : c.equation.rhs = .plain equals body) :
    Segment.topTokens c.equation.lhs ++ equals :: Segment.topTokens body ⊆ tokens c := by
  intro t ht
  refine List.mem_append_left _ ?_
  show t ∈ Segment.tokensWith Block.tokens c.equation.lhs ++ c.equation.rhs.tokensWith Block.tokens
  rw [hrhs]
  rcases List.mem_append.1 ht with ht | ht
  · exact List.mem_append_left _ (Segment.topTokens_subset _ ht)
  · exact List.mem_append_right _ (List.cons_subset_cons _ (Segment.topTokens_subset body) ht)

variable {C : Char → Prop} {P : Output → Prop} (hkept : Output.Kept C P)
include hkept

namespace Output.Kept

variable {out : Output} (h : P out)
include h

theorem put {text : String} (htext : Text.Over C text) : P (out.put text) :=
  hkept.write false htext h

theorem endLine : P out.endLine :=
  hkept.put h (hkept.newline h)

theorem blanks (count : Int) : P (out.blanks count) :=
  hkept.put h (.blanks hkept.alphabet _)

theorem newLine (indent : Int) {text : String} (htext : Text.Over C text) :
    P ((out.endLine.blanks indent).put text) :=
  hkept.put (hkept.blanks (hkept.endLine h) indent) htext

theorem endLineIfStarted : P out.endLineIfStarted := by
  unfold Output.endLineIfStarted
  split
  · exact h
  · exact hkept.endLine h

omit h in
theorem literal {s : String} (h : s.toList.all fun c => c == ' ' || !Text.isBlank c) : Text.Over C s :=
  .literal hkept.alphabet h

end Output.Kept

namespace Printer

theorem pieces_kept {out : Output} (h : P out) {pieces : List TriviaPiece} (hpieces : Trivia.Over C pieces) :
    P (pieces.foldl piece out) :=
  List.foldlRecOn pieces _ h fun _ hout piece hpiece => hkept.write _ (hpieces piece hpiece) hout

theorem triviaLine_kept {out : Output} (h : P out) {line : List TriviaPiece} (hline : Trivia.Over C line) (delta : Int)
    (isTokenLine : Bool) : P (triviaLine line delta isTokenLine out) := by
  unfold triviaLine
  split
  · exact h
  · split
    · next first more =>
      obtain ⟨hfirst, hmore⟩ := List.forall_mem_cons.1 hline
      split
      · dsimp only
        split
        · exact pieces_kept hkept (hkept.put h hfirst) hmore
        · exact pieces_kept hkept (hkept.blanks h _) hmore
      · exact pieces_kept hkept (hkept.blanks h _) hline
    · exact hkept.blanks h _

theorem commentsBehind_kept {out : Output} (h : P out) {comments : List TriviaPiece} (hcomments : Trivia.Over C comments) :
    P (commentsBehind out comments) :=
  List.foldlRecOn comments _ h fun _ hout comment hcomment =>
    hkept.write true ((hkept.literal (by decide)).append (hcomments comment hcomment)) hout

theorem leading_kept (p : Printer) {out : Output} (h : P out) {t : Token} (ht : t.Over C) : P (p.leading t out) := by
  obtain ⟨hfirst, hothers⟩ := ht.leading.splitLines
  unfold leading
  dsimp only
  split
  · exact hkept.blanks (hkept.endLine (commentsBehind_kept hkept h ht.leading.comments)) _
  · split
    · exact pieces_kept hkept h hfirst
    · next last hlast =>
      refine triviaLine_kept hkept (hkept.endLine ?_) (hothers last (List.mem_of_getLast? hlast)) _ _
      exact List.foldlRecOn _ _ (pieces_kept hkept h hfirst) fun _ hout line hline =>
        triviaLine_kept hkept (hkept.endLine hout) (hothers line (List.dropLast_subset _ hline)) _ _

theorem trailing_kept (p : Printer) {out : Output} (h : P out) {t : Token} (ht : t.Over C) (structured : Bool) :
    P (p.trailing t structured out) := by
  unfold trailing
  dsimp only
  split
  · exact h
  · next comment comments hcomments =>
    refine pieces_kept hkept (hkept.blanks ?_ _) fun piece hpiece => ?_
    · refine iteInduction (motive := P) (fun _ => ?_) fun _ => h
      exact hkept.report _ rfl h
    · have hmem : piece ∈ (splitComments t.trailing).2 := hcomments ▸ hpiece
      have hrest := (List.dropWhile_suffix _).subset (List.mem_reverse.1 hmem)
      exact ht.trailing piece ((List.dropWhile_suffix _).subset (List.mem_reverse.1 hrest))

theorem token_kept (p : Printer) {out : Output} (h : P out) {t : Token} (ht : t.Over C) : P (p.token out t) :=
  trailing_kept hkept p (hkept.write _ ht.text h) ht false

theorem verbatim_kept (p : Printer) {out : Output} (h : P out) {ts : List Token} (hts : ∀ t ∈ ts, t.Over C) :
    P (p.verbatim ts out) :=
  List.foldlRecOn ts _ h fun _ hout t ht => token_kept hkept p (leading_kept hkept p hout (hts t ht)) (hts t ht)

theorem verbatimInside_kept (p : Printer) {out : Output} (h : P out) {ts : List Token} (hts : ∀ t ∈ ts, t.Over C) :
    P (p.verbatimInside ts out) := by
  cases ts with
  | nil => exact h
  | cons t more =>
    rw [List.forall_mem_cons] at hts
    exact verbatim_kept hkept p (token_kept hkept p h hts.1) hts.2

theorem verbatimWith_kept (p : Printer) {out : Output} (h : P out) (withLeading : Bool) {ts : List Token}
    (hts : ∀ t ∈ ts, t.Over C) : P (p.verbatimWith withLeading ts out) := by
  unfold verbatimWith
  split
  · exact verbatim_kept hkept p h hts
  · exact verbatimInside_kept hkept p h hts

theorem commentLine_kept {out : Output} (h : P out) (indent : Int) {line : List TriviaPiece}
    (hline : Trivia.Over C line) : P (commentLine indent out line) :=
  hkept.write true (hline.lineText hkept.alphabet) (hkept.blanks (hkept.endLine h) indent)

theorem commentLines_kept {out : Output} (h : P out) {trivia : Trivia} (htrivia : trivia.Over C) (indent : Int)
    (keepBlank : Bool) : P (commentLines trivia indent keepBlank out) := by
  have hfrom (blank : Bool) (lines : List (List TriviaPiece)) (hlines : ∀ line ∈ lines, Trivia.Over C line)
      {out : Output} (h : P out) : P (commentLinesFrom indent keepBlank blank lines out) := by
    induction lines generalizing blank out with
    | nil =>
      unfold commentLinesFrom
      split
      · exact hkept.endLine h
      · exact h
    | cons line more ih =>
      obtain ⟨hline, hmore⟩ := List.forall_mem_cons.1 hlines
      cases line with
      | nil => exact ih _ hmore h
      | cons piece pieces =>
        refine ih _ hmore (commentLine_kept hkept ?_ indent hline)
        split
        · exact hkept.endLine h
        · exact h
  exact hfrom _ _ htrivia.commentLines h

theorem ledText_kept {out : Output} (h : P out) {leader first : Token} (hleader : leader.Over C) (hfirst : first.Over C)
    (indent : Int) {text : String} (htext : Text.Over C text) (ownComments : Bool) :
    P (ledText leader first indent text ownComments out) := by
  refine iteInduction (motive := P) (fun _ => hkept.put h ((hkept.literal (by decide)).append htext)) fun _ =>
    hkept.newLine ?_ _ htext
  refine List.foldlRecOn _ _ (commentsBehind_kept hkept h ?_) fun _ hout line hline =>
    commentLine_kept hkept hout _ (hfirst.leading.commentLines line (List.mem_of_mem_filter hline))
  split
  · exact hleader.trailing.comments
  · exact fun _ hpiece => absurd hpiece List.not_mem_nil

theorem movedComments_kept {out : Output} (h : P out) (last : Token) {comma : Token} (hcomma : comma.Over C) :
    P (movedComments last comma out) := by
  unfold movedComments
  split
  · exact h
  · refine commentsBehind_kept hkept ?_ hcomma.trailing.comments
    split
    · exact h
    · exact hkept.blanks h _

theorem itemList_kept {ι : Type} [HasTokens ι] (p : Printer) {out : Output} (h : P out) {list : ItemList ι}
    (hlist : ∀ t ∈ tokens list, t.Over C) (hitems : ∀ item ∈ list.items, tokens item ≠ []) {texts : List String}
    (htexts : ∀ text ∈ texts, Text.Over C text) (indent : Int) : P (p.itemList list texts indent out) := by
  have hrows (isFirst : Bool) (rows : List ((Token × ι) × String))
      (hrows : ∀ row ∈ rows, row.1.1.Over C ∧ (firstToken row.1.2).Over C ∧ (lastToken row.1.2).Over C
        ∧ Text.Over C row.2) {out : Output} (h : P out) : P (p.ledItems indent isFirst rows out) := by
    induction rows generalizing isFirst out with
    | nil => exact h
    | cons row more ih =>
      obtain ⟨⟨hleader, hfirst, hlast, htext⟩, hmore⟩ := List.forall_mem_cons.1 hrows
      have hled := trailing_kept hkept p (ledText_kept hkept (hkept.newLine
        (commentLines_kept hkept h hleader.leading indent (!isFirst)) indent hleader.text) hleader hfirst indent htext
        isFirst) hlast true
      refine ih false hmore ?_
      split
      · exact movedComments_kept hkept hled _ (hmore _ List.mem_cons_self).1
      · exact hled
  have hclosing := ItemList.forall_closing hlist
  refine hkept.newLine (commentLines_kept hkept (hrows true _ (fun row hrow => ?_) h) hclosing.leading _ _) _
    hclosing.text
  obtain ⟨hled, htext⟩ := List.of_mem_zip hrow
  obtain ⟨hleader, hitem⟩ := ItemList.forall_ledItems hlist row.1 hled
  have hne := hitems _ (List.of_mem_zip hled).2
  exact ⟨hleader, hitem _ (ItemList.firstToken_mem hne), hitem _ (ItemList.lastToken_mem hne), htexts _ htext⟩

theorem entries_kept (p : Printer) {out : Output} (h : P out) {list : ItemList Entry}
    (hlist : ∀ t ∈ tokens list, t.Over C) (indent : Int) :
    P (p.itemList list (list.items.map Entry.flat) indent out) := by
  refine itemList_kept hkept p h hlist (fun _ _ => List.cons_ne_nil _ _) (fun text htext => ?_) indent
  obtain ⟨entry, hentry, rfl⟩ := List.mem_map.1 htext
  exact Entry.over_flat hkept.alphabet (Token.over_texts (ItemList.forall_items hlist entry hentry))

theorem record_kept (p : Printer) {out : Output} (h : P out) {r : Record} (hr : ∀ t ∈ tokens r, t.Over C)
    (indent : Int) : P (p.record r indent out) := by
  refine itemList_kept hkept p h hr (fun f _ => by simp [tokens]) (fun text htext => ?_) indent
  rw [← List.map_uncurry_zip_eq_zipWith] at htext
  obtain ⟨⟨f, width⟩, hrow, rfl⟩ := List.mem_map.1 htext
  exact Field.over_flat hkept.alphabet (Token.over_texts (ItemList.forall_items hr f (List.of_mem_zip hrow).1)) width

theorem trailingInside_kept (p : Printer) {out : Output} (h : P out) {last : Token} (hlast : last.Over C) (end_ : Token) :
    P (p.trailingInside last end_ out) := by
  unfold trailingInside
  split
  · exact h
  · exact trailing_kept hkept p h hlast _

theorem signature_kept (p : Printer) {out : Output} (h : P out) {s : Signature} (hs : ∀ t ∈ tokens s, t.Over C)
    (layout : ListLayout) : P (p.signature s layout out) := by
  rw [Signature.tokens_eq, List.forall_mem_append] at hs
  cases layout with
  | singleLine => exact hkept.put h (Signature.over_flat hkept.alphabet (Token.over_texts (by rwa [Signature.tokens_eq, List.forall_mem_append])))
  | multiLine =>
    refine List.foldlRecOn _ _ (hkept.put h (Token.over_flat hkept.alphabet (Token.over_texts hs.1))) fun _ hout part hmem => ?_
    obtain ⟨hleader, hpart⟩ := List.forall_mem_cons.1 fun t ht => hs.2 t (List.mem_flatMap.2 ⟨part, hmem, ht⟩)
    have hline := hkept.newLine (commentLines_kept hkept hout hleader.leading ((firstToken s).column + p.indent) false)
      ((firstToken s).column + p.indent)
      ((hleader.text.append (hkept.literal (s := " ") (by decide))).append (Token.over_flat hkept.alphabet (Token.over_texts hpart)))
    dsimp only
    split
    · next last hlast => exact trailingInside_kept hkept p hline (hpart last (List.mem_of_getLast? hlast)) _
    · exact hline

theorem constructor_kept (p : Printer) {out : Output} (h : P out) (indent : Int) (end_ : Token)
    {row : Token × Constructor} (hleader : row.1.Over C) (hrow : ∀ t ∈ tokens row.2, t.Over C) :
    P (p.constructor indent end_ out row) := by
  have hne : tokens row.2 ≠ [] := List.cons_ne_nil _ _
  have hfirst := hrow _ (ItemList.firstToken_mem hne)
  have hbefore := (List.forall_mem_append.1 (List.forall_mem_append.1 hrow).1).1
  have hline := hkept.newLine (commentLines_kept hkept h hleader.leading indent false) indent hleader.text
  refine trailingInside_kept hkept p ?_ (hrow _ (ItemList.lastToken_mem hne)) _
  split
  · exact ledText_kept hkept hline hleader hfirst _ (Constructor.over_flat hkept.alphabet (Token.over_texts hrow)) _
  · next r hr =>
    have hr := Constructor.forall_record hrow r (Option.filter_eq_some_iff.1 hr).1
    exact record_kept hkept p (ledText_kept hkept hline hleader hfirst _ (Token.over_flat hkept.alphabet (Token.over_texts hbefore)) _) hr _

theorem derivings_kept (p : Printer) {out : Output} (h : P out) {d : DataDecl} (hd : ∀ t ∈ tokens d, t.Over C)
    (layout : ListLayout) (indent : Int) : P (p.derivings d layout indent out) := by
  have hclauses := DataDecl.forall_derivings hd
  unfold derivings
  dsimp only
  split
  · exact List.foldlRecOn _ _ h fun _ hout clause hclause =>
      hkept.put hout ((hkept.literal (by decide)).append (Deriving.over_flat hkept.alphabet (Token.over_texts (hclauses clause hclause)) 0))
  · refine List.foldlRecOn _ _ h fun _ hout clause hclause => ?_
    have hkeyword : clause.keyword.Over C := hclauses clause hclause _ List.mem_cons_self
    have hline := hkept.newLine (commentLines_kept hkept hout hkeyword.leading indent false) indent
      (Deriving.over_flat hkept.alphabet (Token.over_texts (hclauses clause hclause)) (d.derivingLayout.getD ⟨false, 0⟩).strategyWidth)
    exact trailingInside_kept hkept p hline
      (hclauses clause hclause _ (ItemList.lastToken_mem (List.cons_ne_nil _ _))) _

theorem dataDecl_kept (p : Printer) {out : Output} (h : P out) {d : DataDecl} (hd : ∀ t ∈ tokens d, t.Over C)
    (layout : ListLayout) : P (p.dataDecl d layout out) := by
  have hhead := DataDecl.over_flatHead hkept.alphabet (Token.over_texts hd)
  have hrows := DataDecl.forall_ledConstructors hd
  refine derivings_kept hkept p ?_ hd layout _
  split
  · exact hkept.put h (DataDecl.over_flat hkept.alphabet (Token.over_texts hd))
  · next r hr =>
    have hrecord : d.constructor.record = some r := by
      unfold DataDecl.singleRecord? at hr
      split at hr
      · exact hr
      · cases hr
    have hconstructor := (hrows _ List.mem_cons_self).2
    have hr := Constructor.forall_record hconstructor r hrecord
    have hbefore := (List.forall_mem_append.1 (List.forall_mem_append.1 hconstructor).1).1
    refine trailingInside_kept hkept p (record_kept hkept p (hkept.put h ?_) hr _) (ItemList.forall_closing hr) _
    exact (hhead.append (hkept.literal (by decide))).append (Token.over_flat hkept.alphabet (Token.over_texts hbefore))
  · exact List.foldlRecOn _ _ (hkept.put h hhead) fun _ hout row hrow =>
      constructor_kept hkept p hout _ _ (hrows row hrow).1 (hrows row hrow).2

theorem brokenClause_kept (p : Printer) {out : Output} (h : P out) {lhs : List Token} {equals : Token}
    {body : List Token} (hts : ∀ t ∈ lhs ++ equals :: body, t.Over C) (layout : RhsLayout) :
    P (p.brokenClause lhs equals body layout out) := by
  obtain ⟨hlhs, hequals⟩ := List.forall_mem_append.1 hts
  obtain ⟨hequals, hbody⟩ := List.forall_mem_cons.1 hequals
  have hlines : ∀ line ∈ Rhs.lines p.settings body layout.style, Text.Over C (Token.flat line) := fun line hline =>
    Token.over_flat hkept.alphabet fun t ht =>
      (hbody t (Rhs.flatten_lines p.settings body layout.style ▸ List.mem_flatten.2 ⟨line, hline, ht⟩)).text
  have hform : p.brokenClause lhs equals body layout out
      = ((Rhs.lines p.settings body layout.style).drop 1).foldl
        (fun out line => (out.endLine.blanks layout.column).put (Token.flat line))
        (out.put (Token.flat (lhs ++ [equals]) ++ " " ++ Token.flat ((Rhs.lines p.settings body layout.style).headD []))) := by
    unfold brokenClause Rhs.lines
    cases layout.style <;> rfl
  rw [hform]
  refine List.foldlRecOn _ _ (hkept.put h ((Text.Over.append ?_ (hkept.literal (by decide))).append ?_))
    fun _ hout line hline => hkept.newLine hout _ (hlines line (List.mem_of_mem_drop hline))
  · exact Token.over_flat hkept.alphabet (Token.over_texts
      (List.forall_mem_append.2 ⟨hlhs, List.forall_mem_cons.2 ⟨hequals, fun _ ht => absurd ht List.not_mem_nil⟩⟩))
  · generalize Rhs.lines p.settings body layout.style = lines at hlines
    cases lines with
    | nil => exact .empty
    | cons line lines => exact hlines line List.mem_cons_self

theorem commentBlock_kept {out : Output} (h : P out) {lines : List (List TriviaPiece)}
    (hlines : ∀ line ∈ lines, Trivia.Over C line) :
    P (lines.foldl (fun out line => out.endLineIfStarted.write (Trivia.lineText line) true) out) :=
  List.foldlRecOn lines _ h fun _ hout line hline =>
    hkept.write true ((hlines line hline).lineText hkept.alphabet) (hkept.endLineIfStarted hout)

theorem pinnedPragma_kept (p : Printer) {out : Output} (h : P out) {pragma : Pragma} (hpragma : pragma.token.Over C)
    (withLeading : Bool) : P (p.pinnedPragma pragma withLeading out) := by
  refine trailing_kept hkept p (hkept.write _ (Pragma.over_flat hkept.alphabet hpragma.text) ?_) hpragma _
  split
  · exact hkept.endLineIfStarted (commentBlock_kept hkept h hpragma.leading.allCommentLines)
  · exact h

theorem structured_kept (p : Printer) {out : Output} (h : P out) {d : Declaration} (hd : ∀ t ∈ tokens d, t.Over C)
    (withLeading : Bool) {body : Output → Output} (hbody : ∀ {out : Output}, P out → P (body out)) :
    P (p.structured d withLeading body out) := by
  have hne := Declaration.tokens_ne_nil d
  refine trailing_kept hkept p (hbody ?_) (hd _ (ItemList.lastToken_mem hne)) _
  split
  · exact leading_kept hkept p h (hd _ (ItemList.firstToken_mem hne))
  · exact h

/--
Writing a declaration keeps what every step keeps.
-/
theorem declaration_kept (p : Printer) {out : Output} (h : P out) {d : Declaration} (hd : ∀ t ∈ tokens d, t.Over C)
    (withLeading : Bool) : P (p.declaration d withLeading out) := by
  have hverbatim := verbatimWith_kept hkept p h withLeading hd
  unfold declaration
  split
  · split
    · exact pinnedPragma_kept hkept p h (hd _ (List.mem_singleton.2 rfl)) _
    · exact hverbatim
  · split
    · exact structured_kept hkept p h hd _ fun hout => signature_kept hkept p hout hd _
    · exact hverbatim
  · split
    · exact structured_kept hkept p h hd _ fun hout => dataDecl_kept hkept p hout hd _
    · exact hverbatim
  · next c layout =>
    split
    · next equals body hrhs =>
      exact structured_kept hkept p h hd _ fun hout =>
        brokenClause_kept hkept p hout (fun t ht => hd t (Clause.topTokens_subset hrhs ht)) _
    · exact hverbatim
  all_goals exact hverbatim

theorem headerPragma_kept (p : Printer) {out : Output} (h : P out) (sourceFirst : Option Nat) (width : Nat)
    {pragma : Pragma} (hpragma : pragma.token.Over C) : P (p.headerPragma sourceFirst width pragma out) := by
  refine trailing_kept hkept p (hkept.write _ (.ite (Pragma.over_languageText hkept.alphabet pragma width)
    (Pragma.over_flat hkept.alphabet hpragma.text)) ?_) hpragma _
  split
  · exact h
  · exact List.foldlRecOn _ _ h fun _ hout line hline => hkept.endLine
      (hkept.write true ((hpragma.leading.allCommentLines line hline).lineText hkept.alphabet) hout)

theorem headerPragmas_kept (p : Printer) {out : Output} (h : P out) {pragmas : List Pragma}
    (hpragmas : ∀ pragma ∈ pragmas, pragma.token.Over C) (withLeading : Bool) :
    P (p.headerPragmas pragmas withLeading out) := by
  have hblock (sourceFirst : Option Nat) (block : List Pragma) (hblock : ∀ pragma ∈ block, pragma.token.Over C)
      {out : Output} (h : P out) : P (p.pragmaBlock sourceFirst block out) := by
    unfold pragmaBlock
    dsimp only
    split
    · exact h
    · rw [List.forall_mem_cons] at hblock
      exact List.foldlRecOn _ _ (headerPragma_kept hkept p h _ _ hblock.1) fun _ hout pragma hpragma =>
        headerPragma_kept hkept p (hkept.endLine hout) _ _ (hblock.2 pragma hpragma)
  have hblocks (sourceFirst : Option Nat) (blocks : List (List Pragma))
      (hblocks : ∀ block ∈ blocks, ∀ pragma ∈ block, pragma.token.Over C) {out : Output} (h : P out) :
      P (p.pragmaBlocks sourceFirst blocks out) := by
    cases blocks with
    | nil => exact h
    | cons block more =>
      rw [List.forall_mem_cons] at hblocks
      exact List.foldlRecOn more _ (hblock _ block hblocks.1 h) fun _ hout block hmem =>
        hblock _ _ (hblocks.2 block hmem) (hkept.endLine (hkept.endLine hout))
  refine hblocks _ _ (fun block hmem pragma hpragma => ?_) ?_
  · obtain ⟨index, -, rfl⟩ := List.mem_map.1 (List.mem_of_mem_filter hmem)
    exact hpragmas pragma (List.mem_of_mem_filter hpragma)
  · split
    · next first hfirst =>
      split
      · exact leading_kept hkept p h (hpragmas first (mem_of_minBy hfirst))
      · exact h
    · exact h

theorem header_kept (p : Printer) {out : Output} (h : P out) {header : Header} (hheader : ∀ t ∈ tokens header, t.Over C)
    (withLeading : Bool) : P (p.header header withLeading out) := by
  have hbefore := (List.forall_mem_append.1 hheader).1
  have hhead := (List.forall_mem_append.1 hbefore).1
  have hwhere : header.whereKeyword.Over C := hheader _ (List.mem_append_right _ (List.mem_singleton.2 rfl))
  unfold Printer.header
  split
  · exact verbatimWith_kept hkept p h _ hheader
  · next exports layout hexports =>
    have hlist : ∀ t ∈ tokens exports, t.Over C := by
      obtain ⟨list, hlist, hlayout⟩ := Option.bind_eq_some_iff.1 hexports
      obtain ⟨_, -, heq⟩ := Option.map_eq_some_iff.1 hlayout
      cases heq
      have := (List.forall_mem_append.1 hbefore).2
      rwa [hlist] at this
    have hstart : P (if withLeading then p.leading header.keyword out else out) := by
      split
      · exact leading_kept hkept p h (hhead _ List.mem_cons_self)
      · exact h
    have hline := hkept.put hstart (Token.over_words hkept.alphabet (Token.over_texts hhead))
    refine trailing_kept hkept p (hkept.put ?_ ((hkept.literal (by decide)).append hwhere.text)) hwhere _
    split
    · exact hkept.put hline ((hkept.literal (by decide)).append (ItemList.over_flat hkept.alphabet (Token.over_texts hlist)))
    · exact entries_kept hkept p hline hlist _

theorem importList_kept (p : Printer) {out : Output} (h : P out) {i : Import} (hi : ∀ t ∈ tokens i, t.Over C) :
    P (match i.list with
      | none => out.put (" ".intercalate (i.head.map (·.text)))
      | some list =>
        if list.layout = some .singleLine || list.items.isEmpty then
          (out.put (" ".intercalate (i.head.map (·.text)))).put (" " ++ list.flat)
        else
          p.itemList list (list.items.map Entry.flat) p.indent (out.put (" ".intercalate (i.head.map (·.text))))) := by
  obtain ⟨hhead, hlists⟩ := List.forall_mem_append.1 (List.forall_mem_append.1 hi).1
  have hline := hkept.put h (Token.over_words hkept.alphabet (Token.over_texts hhead))
  split
  · exact hline
  · next list hlist =>
    have hlist : ∀ t ∈ tokens list, t.Over C := by rwa [hlist] at hlists
    split
    · exact hkept.put hline ((hkept.literal (by decide)).append (ItemList.over_flat hkept.alphabet (Token.over_texts hlist)))
    · exact entries_kept hkept p hline hlist _

theorem importDecl_kept (p : Printer) {out : Output} (h : P out) {i : Import} (hi : ∀ t ∈ tokens i, t.Over C) :
    P (p.importDecl i out) := by
  have htail := (List.forall_mem_append.1 hi).2
  unfold importDecl
  split
  · have hlist := importList_kept hkept p h hi
    refine trailing_kept hkept p ?_ (hi _ (ItemList.lastToken_mem (List.cons_ne_nil _ _))) _
    split
    · exact hlist
    · exact hkept.put hlist ((hkept.literal (by decide)).append (Token.over_flat hkept.alphabet (Token.over_texts htail)))
  · exact verbatimInside_kept hkept p h hi

theorem importLine_kept (p : Printer) {out : Output} (h : P out) (blankLines : Nat) {i : Import}
    (hi : ∀ t ∈ tokens i, t.Over C) : P (p.importLine blankLines i out) :=
  importDecl_kept hkept p (hkept.endLineIfStarted (commentBlock_kept hkept
    (List.foldlRecOn _ _ h fun _ hout _ _ => hkept.endLine hout) (hi _ List.mem_cons_self).leading.allCommentLines)) hi

theorem importGroup_kept (p : Printer) {out : Output} (h : P out) (blankLines : Nat) {group : List Import}
    (hgroup : ∀ i ∈ group, ∀ t ∈ tokens i, t.Over C) : P (p.importGroup blankLines group out) := by
  cases group with
  | nil => exact h
  | cons i more =>
    rw [List.forall_mem_cons] at hgroup
    exact List.foldlRecOn more _ (importLine_kept hkept p h _ hgroup.1) fun _ hout i hi =>
      importLine_kept hkept p hout _ (hgroup.2 i hi)

theorem importBlock_kept (p : Printer) {out : Output} (h : P out) {groups : List (List Import)}
    (hgroups : ∀ group ∈ groups, ∀ i ∈ group, ∀ t ∈ tokens i, t.Over C) : P (p.importBlock groups out) := by
  cases groups with
  | nil => exact h
  | cons group more =>
    rw [List.forall_mem_cons] at hgroups
    exact List.foldlRecOn more _ (importGroup_kept hkept p h _ hgroups.1) fun _ hout group hmem =>
      importGroup_kept hkept p hout _ (hgroups.2 group hmem)

theorem optionalHeader_kept (p : Printer) {out : Output} (h : P out) (header : Option Header) :
    (∀ t ∈ (header.map tokens).getD [], t.Over C) →
      P (match header with
        | some h => p.header h true out
        | none => out) := by
  intro hheader
  cases header with
  | none => exact h
  | some header => exact header_kept hkept p h hheader true

theorem preamble_kept (p : Printer) {out : Output} (h : P out) {m : Module}
    (hm : ∀ t ∈ m.headerPragmas.map (·.token) ++ (m.header.map tokens).getD [] ++ m.imports.flatMap (·.flatMap tokens),
      t.Over C) : P (p.preamble m out) := by
  obtain ⟨hm, himports⟩ := List.forall_mem_append.1 hm
  obtain ⟨hpragmaTokens, hheaderTokens⟩ := List.forall_mem_append.1 hm
  have hpragmas : P (if m.pragmasNormalized then p.headerPragmas m.headerPragmas true out
      else p.verbatim (m.headerPragmas.map (·.token)) out) := by
    split
    · exact headerPragmas_kept hkept p h (fun pragma hmem => hpragmaTokens _ (List.mem_map_of_mem hmem)) _
    · exact verbatim_kept hkept p h hpragmaTokens
  have hheader := optionalHeader_kept hkept p hpragmas m.header hheaderTokens
  unfold preamble
  dsimp only
  split
  · refine importBlock_kept hkept p hheader fun group hgroup i hi t ht => himports t ?_
    exact List.mem_flatMap.2 ⟨group, hgroup, List.mem_flatMap.2 ⟨i, hi, ht⟩⟩
  · refine verbatim_kept hkept p hheader fun t ht => himports t ?_
    obtain ⟨i, hi, ht⟩ := List.mem_flatMap.1 ht
    obtain ⟨group, hgroup, hi⟩ := List.mem_flatten.1 hi
    exact List.mem_flatMap.2 ⟨group, hgroup, List.mem_flatMap.2 ⟨i, hi, ht⟩⟩

/--
Writing declarations keeps what every step keeps.
-/
theorem declarations_kept (p : Printer) {out : Output} (h : P out) {ds : List Declaration}
    (hds : ∀ t ∈ ds.flatMap tokens, t.Over C) : P (ds.foldl (fun out d => p.declaration d true out) out) :=
  List.foldlRecOn _ _ h fun _ hout d hd =>
    declaration_kept hkept p hout (fun t ht => hds t (List.mem_flatMap.2 ⟨d, hd, ht⟩)) true

/--
Writing a module keeps what every step keeps.
-/
theorem moduleParts_kept (p : Printer) {out : Output} (h : P out) {m : Module} (hm : ∀ t ∈ tokens m, t.Over C) :
    P (p.moduleParts m out) := by
  obtain ⟨hm, heof⟩ := List.forall_mem_append.1 hm
  obtain ⟨hm, hdeclarations⟩ := List.forall_mem_append.1 hm
  rw [moduleParts_eq]
  exact leading_kept hkept p (declarations_kept hkept p (preamble_kept hkept p h hm) hdeclarations)
    (heof _ (List.mem_singleton.2 rfl))

end Printer

end HaskellStyle
