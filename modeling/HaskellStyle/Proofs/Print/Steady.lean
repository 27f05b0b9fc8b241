import HaskellStyle.Proofs.Newline.Flat
import HaskellStyle.Proofs.Print.Adds

/-!
This module contains that parts in normal form are written in the same way wherever they stand, and that nothing is
trimmed from their lines: a line of a part ends in the last character of a token or of a comment.
-/

namespace HaskellStyle

/--
A text that ends in something else than a blank.
-/
def Text.Ends (s : String) : Prop :=
  ∃ c ∈ s.toList.getLast?, LineEdit.isEndBlank c = false

namespace Text.Ends

theorem append (a : String) {b : String} (h : Ends b) : Ends (a ++ b) := by
  obtain ⟨c, hc, hshown⟩ := h
  refine ⟨c, ?_, hshown⟩
  rw [String.toList_append, List.getLast?_append, hc]
  rfl

theorem append_ite {p : Prop} [Decidable p] {a b : String} (ha : Ends a) (hb : ¬p → Ends b) :
    Ends (a ++ if p then "" else b) := by
  split
  · rwa [String.append_empty]
  · next h => exact (hb h).append a

theorem intercalate (s : String) {texts : List String} (hne : texts ≠ []) (h : ∀ text ∈ texts, Ends text) :
    Ends (s.intercalate texts) := by
  induction texts with
  | nil => exact absurd rfl hne
  | cons text texts ih =>
    rw [List.forall_mem_cons] at h
    cases texts with
    | nil =>
      rw [String.intercalate_singleton]
      exact h.1
    | cons next more =>
      rw [String.intercalate_cons_cons]
      exact (ih (List.cons_ne_nil _ _) h.2).append _

end Text.Ends

namespace Token

variable {ts : List Token}

theorem ends_flat (hne : ts ≠ []) (h : ∀ t ∈ ts, Text.Ends t.text) : Text.Ends (flat ts) := by
  have hrest {start : String} (hstart : Text.Ends start) (previous : Token) (ts : List Token)
      (h : ∀ t ∈ ts, Text.Ends t.text) : Text.Ends (start ++ flatRest previous ts) := by
    induction ts generalizing start previous with
    | nil => rwa [flatRest, String.append_empty]
    | cons t ts ih =>
      rw [List.forall_mem_cons] at h
      rw [flatRest, ← String.append_assoc]
      exact ih ((h.1.append _).append _) t h.2
  cases ts with
  | nil => exact absurd rfl hne
  | cons t ts =>
    rw [List.forall_mem_cons] at h
    exact hrest h.1 t ts h.2

theorem ends_words (hne : ts ≠ []) (h : ∀ t ∈ ts, Text.Ends t.text) : Text.Ends (" ".intercalate (ts.map (·.text))) :=
  .intercalate _ (by simpa using hne) fun text htext => by
    obtain ⟨t, ht, rfl⟩ := List.mem_map.1 htext
    exact h t ht

end Token

theorem ItemList.ends_flat {list : ItemList Entry} (h : ∀ t ∈ tokens list, Text.Ends t.text) : Text.Ends list.flat :=
  (forall_closing h).append _

theorem Field.ends_flat {f : Field} (hne : f.type ≠ []) (h : ∀ t ∈ tokens f, Text.Ends t.text) (width : Nat) :
    Text.Ends (f.flat width) :=
  (Token.ends_flat hne (List.forall_mem_cons.1 (List.forall_mem_append.1 h).2).2).append _

theorem Record.ends_flat (r : Record) : Text.Ends r.flat := by
  have hbrace : Text.Ends " \x7d" := ⟨'\x7d', rfl, rfl⟩
  unfold flat
  split
  · exact ⟨'\x7d', rfl, rfl⟩
  · exact hbrace.append _

theorem Constructor.ends_flat {c : Constructor} (h : ∀ t ∈ tokens c, Text.Ends t.text) : Text.Ends c.flat := by
  obtain ⟨hbefore, hafter⟩ := List.forall_mem_append.1 h
  have hflat := Token.ends_flat (List.cons_ne_nil _ _) (List.forall_mem_append.1 hbefore).1
  refine Text.Ends.append_ite ?_ fun hne => (Token.ends_flat (by simpa using hne) hafter).append _
  cases c.record with
  | none => rwa [String.append_empty]
  | some r => exact (r.ends_flat.append _).append _

theorem Deriving.ends_flat {d : Deriving} (hne : d.classes ≠ []) (h : ∀ t ∈ tokens d, Text.Ends t.text) (width : Nat) :
    Text.Ends (d.flat width) := by
  obtain ⟨hbefore, hvia⟩ := List.forall_mem_append.1 h
  have hclasses := Token.ends_flat hne (List.forall_mem_append.1 hbefore).2
  have hparenthesis : Text.Ends ")" := ⟨')', rfl, rfl⟩
  refine Text.Ends.append_ite (Text.Ends.append _ ?_) fun hne => (Token.ends_flat (by simpa using hne) hvia).append _
  split
  · exact hparenthesis.append _
  · exact hclasses

theorem Signature.ends_flat {s : Signature} (hne : s.type ≠ []) (h : ∀ t ∈ tokens s, Text.Ends t.text) :
    Text.Ends s.flat :=
  (Token.ends_flat hne (List.forall_mem_cons.1 (List.forall_mem_append.1 h).2).2).append _

theorem DataDecl.ends_flat {d : DataDecl} (h : ∀ t ∈ tokens d, Text.Ends t.text) : Text.Ends d.flat := by
  refine (Text.Ends.intercalate _ (by simp [constructors]) fun text htext => ?_).append _
  obtain ⟨c, hc, rfl⟩ := List.mem_map.1 htext
  exact Constructor.ends_flat (forall_constructors h c hc)

theorem Pragma.ends_languageText (p : Pragma) (width : Nat) : Text.Ends (p.languageText width) := by
  have hclosing : Text.Ends " #-\x7d" := ⟨'\x7d', rfl, rfl⟩
  exact hclosing.append _

theorem Pragma.ends_flat {p : Pragma} (h : Text.Ends p.token.text) : Text.Ends p.flat := by
  have hclosing : Text.Ends " #-\x7d" := ⟨'\x7d', rfl, rfl⟩
  unfold flat
  split
  · exact h
  · split
    · exact p.ends_languageText 0
    · exact hclosing.append _

/--
A comment with nothing to trim from its lines.
-/
structure TriviaPiece.IsNeat (newline : List Char) (piece : TriviaPiece) : Prop where
  lines : piece.marks.Lines newline
  head : ∃ c ∈ piece.text.toList.head?, c ≠ '\n' ∧ c ≠ '\r'

/--
A token that ends in something else than a blank, with comments around it that have nothing to trim from their lines.
-/
structure Token.IsNeat (newline : List Char) (t : Token) : Prop where
  ends : Text.Ends t.text
  pieces : ∀ piece ∈ t.leading ++ t.trailing, piece.kind ≠ .blanks → piece.kind ≠ .newline → piece.IsNeat newline
  behind : (Trivia.marks (Printer.splitComments t.trailing).2).Lines newline

/--
A token on one line that is neat.
-/
structure Token.IsWord (newline : List Char) (t : Token) : Prop extends t.IsNeat newline where
  line : t.isMultiline = false

namespace Output

/--
A step of writing that adds the same lines wherever it is done, with nothing to trim.
-/
def Steady (newline : List Char) (f : Output → Output) : Prop :=
  ∃ x, Shielded.Lines newline x ∧ ∀ started, Adds newline started f x

variable {newline : List Char} (hnewline : newline = ['\n'] ∨ newline = ['\r', '\n']) {f g : Output → Output}

namespace Steady

include hnewline

theorem id : Steady newline fun out => out :=
  ⟨[], .nil hnewline, fun _ => .id⟩

theorem comp (hf : Steady newline f) (hg : Steady newline g) : Steady newline fun out => g (f out) := by
  obtain ⟨x, hx, hf⟩ := hf
  obtain ⟨y, hy, hg⟩ := hg
  exact ⟨x ++ y, hx.append hnewline hy, fun _ => (hf _).comp (hg _)⟩

theorem foldl {α : Type} {step : Output → α → Output} {items : List α}
    (h : ∀ item ∈ items, Steady newline fun out => step out item) :
    Steady newline fun out => items.foldl step out := by
  induction items with
  | nil => exact id hnewline
  | cons item items ih =>
    rw [List.forall_mem_cons] at h
    exact comp hnewline h.1 (ih h.2)

theorem endLine : Steady newline Output.endLine :=
  ⟨_, .lineEnd hnewline, fun _ => .endLine⟩

theorem lines_word {s : String} (hline : Text.Over (· ≠ '\n') s) (hends : Text.Ends s) (shield : Bool) :
    Shielded.Lines newline (.ofText shield s.toList) :=
  .word hnewline (fun hmem => hline _ hmem rfl) hends shield

theorem put {s : String} (hline : Text.Over (· ≠ '\n') s) (hends : Text.Ends s) : Steady newline (·.put s) :=
  ⟨_, lines_word hnewline hline hends false, fun _ => .put s⟩

/--
A word at the given column of a new line.
-/
theorem newLine (indent : Int) {s : String} (hline : Text.Over (· ≠ '\n') s) (hends : Text.Ends s) :
    Steady newline fun out => (out.endLine.blanks indent).put s := by
  have hblanks : Text.Over (· ≠ '\n') (String.ofList (List.replicate indent.toNat ' ')) :=
    .blanks Text.alphabet_line _
  have hword := lines_word hnewline (hblanks.append hline) (hends.append _) false
  rw [String.toList_append, String.toList_ofList, Shielded.ofText_append] at hword
  exact comp hnewline (g := fun out => (out.blanks indent).put s) (endLine hnewline)
    ⟨_, hword, fun _ => (Adds.blanks indent).comp (.put s)⟩

theorem ite {p : Prop} [Decidable p] (hf : Steady newline f) : Steady newline fun out => if p then f out else out := by
  split
  · exact hf
  · exact id hnewline

omit hnewline

theorem congr (hf : Steady newline f) (h : ∀ out, g out = f out) : Steady newline g := by
  rwa [funext h]

/--
Blanks with something behind them on the line.
-/
theorem blanks (n : Int) {x : Shielded} (hx : x.Lines newline) (hhead : ∃ c ∈ x.chars.head?, c ≠ '\n' ∧ c ≠ '\r')
    (hf : ∀ started, Adds newline started f x) : Steady newline fun out => f (out.blanks n) :=
  ⟨_, hx.blanks n.toNat hhead, fun _ => (Adds.blanks n).comp (hf _)⟩

end Steady

end Output

namespace Trivia

variable {newline : List Char} (hnewline : newline = ['\n'] ∨ newline = ['\r', '\n']) {line : Trivia}

theorem head_lineText (hne : line ≠ []) (h : ∀ piece ∈ line, piece.IsNeat newline) :
    ∃ c ∈ (lineText line).toList.head?, c ≠ '\n' ∧ c ≠ '\r' := by
  cases line with
  | nil => exact absurd rfl hne
  | cons piece more =>
    obtain ⟨c, hc, hne⟩ := (h piece List.mem_cons_self).head
    refine ⟨c, ?_, hne⟩
    unfold lineText
    cases more with
    | nil => rwa [List.map_singleton, String.intercalate_singleton]
    | cons next more =>
      rw [List.map_cons, List.map_cons, String.intercalate_cons_cons, String.toList_append, String.toList_append,
        List.append_assoc, List.head?_append, hc]
      rfl

include hnewline in
theorem lines_lineText (hne : line ≠ []) (h : ∀ piece ∈ line, piece.IsNeat newline) :
    Shielded.Lines newline (.ofText (true && (lineText line).toList.contains '\n') (lineText line).toList) := by
  rw [Bool.true_and]
  by_cases hmem : '\n' ∈ (lineText line).toList
  · rw [List.contains_iff_mem.2 hmem]
    obtain ⟨c, hc, hshown⟩ := head_lineText hne h
    refine .ofShielded hnewline fun d hd => ?_
    rw [Option.mem_def.1 hc] at hd
    cases hd
    exact hshown.1
  · rw [Bool.eq_false_iff.2 (mt List.contains_iff_mem.1 hmem)]
    -- All pieces are on one line, and the last one ends it.
    induction line with
    | nil => exact absurd rfl hne
    | cons piece more ih =>
      rw [List.forall_mem_cons] at h
      cases more with
      | nil =>
        rw [lineText, List.map_singleton, String.intercalate_singleton] at hmem ⊢
        have hlines := h.1.lines
        rw [TriviaPiece.marks, TriviaPiece.isMultiline, Bool.eq_false_iff.2 (mt List.contains_iff_mem.1 hmem),
          Bool.and_false] at hlines
        exact hlines
      | cons next more =>
        have hsplit : (lineText (piece :: next :: more)).toList
            = (piece.text ++ " ").toList ++ (lineText (next :: more)).toList := by
          rw [lineText, List.map_cons, List.map_cons, String.intercalate_cons_cons, String.toList_append]
          rfl
        rw [hsplit, List.mem_append, not_or] at hmem
        rw [hsplit, Shielded.ofText_append]
        have hhead := head_lineText (List.cons_ne_nil _ _) h.2
        refine .behind ?_ (fun h => ?_) (ih (List.cons_ne_nil _ _) h.2 hmem.2) (by rwa [Shielded.chars_ofText])
        · have hneat := Shielded.Neat.behind (y := []) hmem.1 trivial (fun c hc => by cases hc) false
          rwa [List.append_nil] at hneat
        · rw [Shielded.chars_ofText] at h
          exact absurd (h.subset List.mem_cons_self) hmem.1

end Trivia

namespace Token.IsNeat

variable {newline : List Char} {t : Token} (h : t.IsNeat newline)
include h

theorem comments_of_subset {trivia : Trivia} (hsub : trivia ⊆ t.leading ++ t.trailing) :
    ∀ piece ∈ trivia.comments, piece.IsNeat newline := by
  intro piece hpiece
  obtain ⟨hmem, hcomment⟩ := List.mem_filter.1 hpiece
  rw [TriviaPiece.isComment] at hcomment
  refine h.pieces piece (hsub hmem) ?_ ?_
  all_goals
    intro hkind
    rw [hkind] at hcomment
    cases hcomment

theorem commentLines : ∀ line ∈ t.leading.commentLines, ∀ piece ∈ line, piece.IsNeat newline := by
  intro line hline piece hpiece
  obtain ⟨whole, hwhole, rfl⟩ := List.mem_map.1 hline
  obtain ⟨hmem, hblanks⟩ := List.mem_filter.1 hpiece
  obtain ⟨hleading, hkind⟩ := t.leading.mem_splitLines.2 whole (List.dropLast_subset _ hwhole) piece hmem
  exact h.pieces piece (List.mem_append_left _ hleading) (by simpa using hblanks) hkind

theorem allCommentLines : ∀ line ∈ t.leading.allCommentLines, line ≠ [] ∧ ∀ piece ∈ line, piece.IsNeat newline := by
  intro line hline
  obtain ⟨hmem, hne⟩ := List.mem_filter.1 hline
  refine ⟨by simpa using hne, ?_⟩
  rcases List.mem_append.1 hmem with hopening | hline
  · split at hopening
    · cases hopening
    · rw [List.mem_singleton.1 hopening]
      refine h.comments_of_subset fun piece hpiece => ?_
      exact List.mem_append_left _ (t.leading.mem_splitLines.1 piece hpiece).1
  · exact h.commentLines line hline

end Token.IsNeat

namespace Printer

open Output (Adds Steady)

variable {newline : List Char} (hnewline : newline = ['\n'] ∨ newline = ['\r', '\n']) {p : Printer} {t : Token}
include hnewline

theorem steady_note {line : Trivia} (hne : line ≠ []) (h : ∀ piece ∈ line, piece.IsNeat newline) :
    Steady newline (·.write (Trivia.lineText line) true) :=
  ⟨_, Trivia.lines_lineText hnewline hne h, fun _ => .write _ _⟩

theorem steady_commentLine (indent : Int) {line : Trivia} (hne : line ≠ [])
    (h : ∀ piece ∈ line, piece.IsNeat newline) : Steady newline (commentLine indent · line) :=
  .comp hnewline (g := fun out => (out.blanks indent).write (Trivia.lineText line) true) (.endLine hnewline)
    (.blanks indent (Trivia.lines_lineText hnewline hne h) (by
      rw [Shielded.chars_ofText]
      exact Trivia.head_lineText hne h) fun _ => .write _ _)

theorem steady_commentLines {trivia : Trivia} (h : ∀ line ∈ trivia.commentLines, ∀ piece ∈ line, piece.IsNeat newline)
    (indent : Int) (keepBlank : Bool) : Steady newline (commentLines trivia indent keepBlank) := by
  have hfrom (lines : List Trivia) (hlines : ∀ line ∈ lines, ∀ piece ∈ line, piece.IsNeat newline) (blank : Bool) :
      Steady newline (commentLinesFrom indent keepBlank blank lines) := by
    induction lines generalizing blank with
    | nil => exact .ite hnewline (.endLine hnewline)
    | cons line more ih =>
      rw [List.forall_mem_cons] at hlines
      cases line with
      | nil => exact ih hlines.2 keepBlank
      | cons piece pieces =>
        have hblank : Steady newline fun out => if blank then out.endLine else out := .ite hnewline (.endLine hnewline)
        exact (hblank.comp hnewline (steady_commentLine hnewline indent (List.cons_ne_nil _ _) hlines.1)).comp hnewline
          (ih hlines.2 false)
  exact hfrom _ h false

theorem lines_commentBehind {comment : TriviaPiece} (h : comment.IsNeat newline) : Shielded.Lines newline
    (.ofText (true && (" " ++ comment.text).toList.contains '\n') (" " ++ comment.text).toList) := by
  obtain ⟨hlines, hhead⟩ := h
  rw [Bool.true_and, String.toList_append]
  by_cases hmem : '\n' ∈ comment.text.toList
  · rw [List.contains_iff_mem.2 (List.mem_append_right _ hmem)]
    refine .ofShielded hnewline fun c hc => ?_
    cases hc
    decide
  · have hnone : '\n' ∉ " ".toList ++ comment.text.toList := by
      rw [List.mem_append, not_or]
      exact ⟨by decide, hmem⟩
    rw [Bool.eq_false_iff.2 (mt List.contains_iff_mem.1 hnone), Shielded.ofText_append]
    rw [TriviaPiece.marks, TriviaPiece.isMultiline, Bool.eq_false_iff.2 (mt List.contains_iff_mem.1 hmem),
      Bool.and_false] at hlines
    refine .behind ⟨fun _ _ => ?_, trivial⟩ (fun h => ?_) hlines (by rwa [Shielded.chars_ofText])
    · exact fun hstop => absurd hstop.mem List.not_mem_nil
    · rw [Shielded.chars_ofText] at h
      exact absurd (h.subset List.mem_cons_self) (by decide)

theorem steady_commentsBehind {comments : Trivia} (h : ∀ piece ∈ comments, piece.IsNeat newline) :
    Steady newline (commentsBehind · comments) :=
  .foldl hnewline fun comment hcomment => ⟨_, lines_commentBehind hnewline (h comment hcomment), fun _ => .write _ _⟩

omit hnewline in
theorem head_splitComments (ht : t.IsNeat newline) (hne : (splitComments t.trailing).2 ≠ []) :
    ∃ c ∈ (Trivia.marks (splitComments t.trailing).2).chars.head?, c ≠ '\n' ∧ c ≠ '\r' := by
  have hhead := isComment_head?_splitComments t.trailing
  obtain ⟨tail, hsplit, -⟩ := splitComments_cases t.trailing
  generalize (splitComments t.trailing).2 = rest at *
  obtain ⟨comment, more, rfl⟩ := List.exists_cons_of_ne_nil hne
  have hcomment : comment.IsNeat newline := by
    refine ht.comments_of_subset (List.subset_append_right _ t.trailing) comment ?_
    exact List.mem_filter.2 ⟨by rw [hsplit]; simp, hhead comment rfl⟩
  obtain ⟨c, hc, hshown⟩ := hcomment.head
  refine ⟨c, ?_, hshown⟩
  rw [Trivia.chars_marks, Trivia.toList_text_cons, List.head?_append, hc]
  rfl

theorem steady_trailing (p : Printer) (ht : t.IsNeat newline) : Steady newline (p.trailing t true) := by
  have hlines := ht.behind
  have hhead := head_splitComments ht
  have hpieces : ∀ started, Adds newline started _ _ := adds_pieces (splitComments t.trailing).2
  unfold trailing
  dsimp only
  generalize (splitComments t.trailing).2 = rest at *
  cases rest with
  | nil => exact .id hnewline
  | cons comment more =>
    refine (Steady.blanks commentSpacing hlines (hhead (List.cons_ne_nil _ _)) hpieces).congr fun out => ?_
    rw [Bool.true_or, if_pos rfl, Bool.not_true, Bool.and_false]
    rfl

omit hnewline in
theorem over_word (ht : t.IsWord newline) : Text.Over (· ≠ '\n') t.text :=
  Token.over_lines (by simpa using ht.line) t (List.mem_singleton.2 rfl)

theorem steady_ledText {leader first : Token} (hleader : leader.IsNeat newline) (hfirst : first.IsNeat newline)
    (indent : Int) {text : String} (hline : Text.Over (· ≠ '\n') text) (hends : Text.Ends text) (ownComments : Bool) :
    Steady newline (ledText leader first indent text ownComments) := by
  have hbehind : Steady newline (commentsBehind · (if ownComments then leader.trailing.comments else [])) := by
    refine steady_commentsBehind hnewline ?_
    split
    · exact hleader.comments_of_subset (List.subset_append_right _ _)
    · exact fun _ h => absurd h List.not_mem_nil
  have hbefore : Steady newline fun out => (first.leading.commentLines.filter fun line => !line.isEmpty).foldl
      (commentLine (indent + 2)) out :=
    .foldl hnewline fun line hmem => steady_commentLine hnewline _ (by simpa using (List.mem_filter.1 hmem).2)
      (hfirst.commentLines line (List.mem_of_mem_filter hmem))
  have hspace : Text.Over (· ≠ '\n') " " := .literal Text.alphabet_line (by decide)
  unfold ledText
  dsimp only
  generalize (if ownComments then leader.trailing.comments else []) = behind at *
  split
  · exact .put hnewline (hspace.append hline) (hends.append _)
  · exact (hbehind.comp hnewline hbefore).comp hnewline (.newLine hnewline _ hline hends)

theorem steady_movedComments (last : Token) {comma : Token} (hcomma : comma.IsNeat newline) :
    Steady newline (movedComments last comma) := by
  have hcomments := hcomma.comments_of_subset (List.subset_append_right _ _)
  unfold movedComments
  cases hsplit : comma.trailing.comments with
  | nil => exact .id hnewline
  | cons comment more =>
    rw [hsplit] at hcomments
    dsimp only
    split
    · exact steady_commentsBehind hnewline hcomments
    · rw [List.forall_mem_cons] at hcomments
      have hfirst : Steady newline fun out => (out.blanks (commentSpacing - 1)).write (" " ++ comment.text) true := by
        refine .blanks _ (lines_commentBehind hnewline hcomments.1) ⟨' ', ?_, by decide⟩ fun _ => .write _ _
        rw [Shielded.chars_ofText, String.toList_append]
        rfl
      exact hfirst.comp hnewline (steady_commentsBehind hnewline hcomments.2)

variable {ι : Type} [HasTokens ι]

/--
A list with one item per line.
-/
theorem steady_itemList (p : Printer) {list : ItemList ι} (hlist : ∀ t ∈ tokens list, t.IsWord newline)
    (hitems : ∀ item ∈ list.items, tokens item ≠ []) {texts : List String}
    (htexts : ∀ text ∈ texts, Text.Over (· ≠ '\n') text ∧ Text.Ends text) (indent : Int) :
    Steady newline (p.itemList list texts indent) := by
  have hrows (rows : List ((Token × ι) × String)) (hrows : ∀ row ∈ rows, row.1.1.IsWord newline
      ∧ (firstToken row.1.2).IsNeat newline ∧ (lastToken row.1.2).IsNeat newline
      ∧ Text.Over (· ≠ '\n') row.2 ∧ Text.Ends row.2) (isFirst : Bool) :
      Steady newline (p.ledItems indent isFirst rows) := by
    induction rows generalizing isFirst with
    | nil => exact .id hnewline
    | cons row more ih =>
      obtain ⟨⟨hleader, hfirst, hlast, hline, hends⟩, hmore⟩ := List.forall_mem_cons.1 hrows
      have hled := (((steady_commentLines hnewline hleader.commentLines indent (!isFirst)).comp hnewline
        (.newLine hnewline indent (over_word hleader) hleader.ends)).comp hnewline
        (steady_ledText hnewline hleader.toIsNeat hfirst indent hline hends isFirst)).comp hnewline
        (steady_trailing hnewline p hlast)
      have hrest := ih hmore false
      obtain ⟨⟨leader, item⟩, text⟩ := row
      cases more with
      | nil => exact hled.comp hnewline hrest
      | cons next more =>
        obtain ⟨⟨comma, _⟩, _⟩ := next
        have hcomma := steady_movedComments hnewline (lastToken item) (hmore _ List.mem_cons_self).1.toIsNeat
        exact (hled.comp hnewline hcomma).comp hnewline hrest
  have hclosing := ItemList.forall_closing hlist
  refine ((hrows _ (fun row hrow => ?_) true).comp hnewline
    (steady_commentLines hnewline hclosing.commentLines (indent + 2) false)).comp hnewline
    (.newLine hnewline indent (over_word hclosing) hclosing.ends)
  obtain ⟨hled, htext⟩ := List.of_mem_zip hrow
  obtain ⟨hleader, hitem⟩ := ItemList.forall_ledItems hlist row.1 hled
  have hne := hitems _ (List.of_mem_zip hled).2
  exact ⟨hleader, (hitem _ (ItemList.firstToken_mem hne)).toIsNeat, (hitem _ (ItemList.lastToken_mem hne)).toIsNeat,
    htexts _ htext⟩

omit hnewline in
theorem words_over {ts : List Token} (h : ∀ t ∈ ts, t.IsWord newline) :
    (∀ t ∈ ts, Text.Over (· ≠ '\n') t.text) ∧ ∀ t ∈ ts, Text.Ends t.text :=
  ⟨fun t ht => over_word (h t ht), fun t ht => (h t ht).ends⟩

theorem steady_entries (p : Printer) {list : ItemList Entry} (hlist : ∀ t ∈ tokens list, t.IsWord newline)
    (indent : Int) :
    Steady newline (p.itemList list (list.items.map Entry.flat) indent) := by
  refine steady_itemList hnewline p hlist (fun _ _ => List.cons_ne_nil _ _) (fun text htext => ?_) indent
  obtain ⟨entry, hentry, rfl⟩ := List.mem_map.1 htext
  obtain ⟨hover, hends⟩ := words_over (ItemList.forall_items hlist entry hentry)
  exact ⟨Entry.over_flat Text.alphabet_line hover, Token.ends_flat (List.cons_ne_nil _ _) hends⟩

theorem steady_record (p : Printer) {r : Record} (hr : ∀ t ∈ tokens r, t.IsWord newline)
    (hfields : ∀ f ∈ r.items, f.type ≠ []) (indent : Int) : Steady newline (p.record r indent) := by
  refine steady_itemList hnewline p hr (fun f _ => by simp [tokens]) (fun text htext => ?_) indent
  rw [← List.map_uncurry_zip_eq_zipWith] at htext
  obtain ⟨⟨f, width⟩, hrow, rfl⟩ := List.mem_map.1 htext
  have hf := (List.of_mem_zip hrow).1
  obtain ⟨hover, hends⟩ := words_over (ItemList.forall_items hr f hf)
  exact ⟨Field.over_flat Text.alphabet_line hover width, Field.ends_flat (hfields f hf) hends width⟩

theorem steady_trailingInside (p : Printer) {last : Token} (hlast : last.IsNeat newline) (end_ : Token) :
    Steady newline (p.trailingInside last end_) := by
  unfold trailingInside
  split
  · exact .id hnewline
  · exact steady_trailing hnewline p hlast

omit hnewline in
theorem over_literal {s : String} (h : s.toList.all fun c => c == ' ' || !Text.isBlank c) : Text.Over (· ≠ '\n') s :=
  .literal Text.alphabet_line h

theorem steady_flat {ts : List Token} (hne : ts ≠ []) (h : ∀ t ∈ ts, t.IsWord newline) :
    Steady newline (·.put (Token.flat ts)) :=
  .put hnewline (Token.over_flat Text.alphabet_line (words_over h).1) (Token.ends_flat hne (words_over h).2)

theorem steady_signature (p : Printer) {s : Signature} (hs : ∀ t ∈ tokens s, t.IsWord newline) (hnames : s.names ≠ [])
    (htype : s.type ≠ []) {layout : ListLayout} (hparts : layout = .multiLine → ∀ part ∈ s.parts, part.2 ≠ []) :
    Steady newline (p.signature s layout) := by
  cases layout with
  | singleLine =>
    exact .put hnewline (Signature.over_flat Text.alphabet_line (words_over hs).1)
      (Signature.ends_flat htype (words_over hs).2)
  | multiLine =>
    rw [Signature.tokens_eq, List.forall_mem_append] at hs
    refine (steady_flat hnewline hnames hs.1).comp hnewline (.foldl hnewline fun part hmem => ?_)
    obtain ⟨hleader, hpart⟩ := List.forall_mem_cons.1 fun t ht => hs.2 t (List.mem_flatMap.2 ⟨part, hmem, ht⟩)
    have hne := hparts rfl part hmem
    obtain ⟨leader, part⟩ := part
    have hline := (steady_commentLines hnewline hleader.commentLines ((firstToken s).column + p.indent) false).comp
      hnewline (.newLine hnewline ((firstToken s).column + p.indent) (s := leader.text ++ " " ++ Token.flat part)
        (((over_word hleader).append (over_literal (by decide))).append
          (Token.over_flat Text.alphabet_line (words_over hpart).1))
        ((Token.ends_flat hne (words_over hpart).2).append _))
    cases hlast : part.getLast? with
    | none => exact absurd (List.getLast?_eq_none_iff.1 hlast) hne
    | some last =>
      have hend := (hpart last (List.mem_of_getLast? hlast)).toIsNeat
      refine (hline.comp hnewline (steady_trailingInside hnewline p hend (lastToken s))).congr fun out => ?_
      dsimp only
      rw [hlast]

theorem steady_constructor (p : Printer) (indent : Int) (end_ : Token) {row : Token × Constructor}
    (hleader : row.1.IsWord newline) (hrow : ∀ t ∈ tokens row.2, t.IsWord newline)
    (hfields : ∀ r ∈ row.2.record, ∀ f ∈ r.items, f.type ≠ []) :
    Steady newline fun out => p.constructor indent end_ out row := by
  have hne : tokens row.2 ≠ [] := List.cons_ne_nil _ _
  obtain ⟨leader, c⟩ := row
  have hfirst := (hrow _ (ItemList.firstToken_mem hne)).toIsNeat
  have hbefore := words_over (List.forall_mem_append.1 (List.forall_mem_append.1 hrow).1).1
  have hline := (steady_commentLines hnewline hleader.commentLines indent false).comp hnewline
    (.newLine hnewline indent (over_word hleader) hleader.ends)
  have hlast := steady_trailingInside hnewline p (hrow _ (ItemList.lastToken_mem hne)).toIsNeat end_
  unfold constructor
  dsimp only
  cases hrecord : c.record.filter (·.layout ≠ some .singleLine) with
  | none =>
    exact (hline.comp hnewline (steady_ledText hnewline hleader.toIsNeat hfirst indent
      (Constructor.over_flat Text.alphabet_line (words_over hrow).1) (Constructor.ends_flat (words_over hrow).2) true)).comp
      hnewline hlast
  | some r =>
    have hmem := (Option.filter_eq_some_iff.1 hrecord).1
    exact ((hline.comp hnewline (steady_ledText hnewline hleader.toIsNeat hfirst indent
      (Token.over_flat Text.alphabet_line hbefore.1) (Token.ends_flat (List.cons_ne_nil _ _) hbefore.2) true)).comp hnewline
      (steady_record hnewline p (Constructor.forall_record hrow r hmem) (hfields r hmem) (indent + 4))).comp hnewline hlast

theorem steady_derivings (p : Printer) {d : DataDecl} (hd : ∀ t ∈ tokens d, t.IsWord newline)
    (hclasses : ∀ clause ∈ d.derivings, clause.classes ≠ []) (layout : ListLayout) (indent : Int) :
    Steady newline (p.derivings d layout indent) := by
  have hclauses := DataDecl.forall_derivings hd
  have hflat (clause : Deriving) (hmem : clause ∈ d.derivings) (width : Nat) :
      Text.Over (· ≠ '\n') (clause.flat width) ∧ Text.Ends (clause.flat width) := by
    obtain ⟨hover, hends⟩ := words_over (hclauses clause hmem)
    exact ⟨Deriving.over_flat Text.alphabet_line hover width, Deriving.ends_flat (hclasses clause hmem) hends width⟩
  unfold derivings
  dsimp only
  split
  · exact .foldl hnewline fun clause hmem => .put hnewline ((over_literal (by decide)).append (hflat clause hmem 0).1)
      ((hflat clause hmem 0).2.append _)
  · refine .foldl hnewline fun clause hmem => ?_
    have hkeyword := hclauses clause hmem clause.keyword List.mem_cons_self
    have hlast := (hclauses clause hmem _ (ItemList.lastToken_mem (List.cons_ne_nil _ _))).toIsNeat
    have hline := hflat clause hmem (d.derivingLayout.getD ⟨false, 0⟩).strategyWidth
    exact ((steady_commentLines hnewline hkeyword.commentLines indent false).comp hnewline
      (.newLine hnewline indent hline.1 hline.2)).comp hnewline (steady_trailingInside hnewline p hlast (lastToken d))

/--
A data declaration up to its deriving clauses.
-/
theorem steady_dataBody (p : Printer) {d : DataDecl} (hd : ∀ t ∈ tokens d, t.IsWord newline) (hhead : d.head ≠ [])
    (hfields : ∀ c ∈ d.constructors, ∀ r ∈ c.record, ∀ f ∈ r.items, f.type ≠ []) (layout : ListLayout) :
    Steady newline (p.dataBody d layout) := by
  have hrows := DataDecl.forall_ledConstructors hd
  have hkeyword := (words_over hd)
  have hstart := DataDecl.over_flatHead Text.alphabet_line hkeyword.1
  unfold dataBody
  dsimp only
  split
  · exact .put hnewline (DataDecl.over_flat Text.alphabet_line hkeyword.1) (DataDecl.ends_flat hkeyword.2)
  · next r hr =>
    have hrecord : d.constructor.record = some r := by
      unfold DataDecl.singleRecord? at hr
      split at hr
      · exact hr
      · cases hr
    have hconstructor := (hrows _ List.mem_cons_self).2
    have hr := Constructor.forall_record hconstructor r hrecord
    have hbefore := words_over (List.forall_mem_append.1 (List.forall_mem_append.1 hconstructor).1).1
    have hput := Steady.put hnewline (s := d.flatHead ++ " = " ++ Token.flat d.constructor.before)
      ((hstart.append (over_literal (by decide))).append (Token.over_flat Text.alphabet_line hbefore.1))
      ((Token.ends_flat (List.cons_ne_nil _ _) hbefore.2).append _)
    exact (hput.comp hnewline (steady_record hnewline p hr (hfields _ List.mem_cons_self r hrecord) _)).comp hnewline
      (steady_trailingInside hnewline p (ItemList.forall_closing hr).toIsNeat (lastToken d))
  · have hheadWords : ∀ t ∈ d.head, t.IsWord newline := fun t ht =>
      (List.forall_mem_cons.1 (List.forall_mem_append.1 (List.forall_mem_append.1 hd).1).1).2 t ht
    have hput := Steady.put hnewline hstart ((Token.ends_flat hhead (words_over hheadWords).2).append _)
    exact hput.comp hnewline (.foldl hnewline fun row hmem => steady_constructor hnewline p _ _ (hrows row hmem).1
      (hrows row hmem).2 (hfields row.2 (List.mem_map_of_mem (f := Prod.snd) hmem)))

theorem steady_dataDecl (p : Printer) {d : DataDecl} (hd : ∀ t ∈ tokens d, t.IsWord newline) (hhead : d.head ≠ [])
    (hfields : ∀ c ∈ d.constructors, ∀ r ∈ c.record, ∀ f ∈ r.items, f.type ≠ [])
    (hclasses : ∀ clause ∈ d.derivings, clause.classes ≠ []) (layout : ListLayout) :
    Steady newline (p.dataDecl d layout) :=
  (steady_dataBody hnewline p hd hhead hfields layout).comp hnewline
    (steady_derivings hnewline p hd hclasses layout (d.keyword.column + p.indent))

theorem steady_brokenClause (p : Printer) {lhs : List Token} {equals : Token} {body : List Token}
    (hts : ∀ t ∈ lhs ++ equals :: body, t.IsWord newline) {layout : RhsLayout}
    (hlines : Rhs.lines p.settings body layout.style ≠ [])
    (hline : ∀ line ∈ Rhs.lines p.settings body layout.style, line ≠ []) :
    Steady newline (p.brokenClause lhs equals body layout) := by
  obtain ⟨hlhs, hbody⟩ := List.forall_mem_append.1 hts
  obtain ⟨hequals, hbody⟩ := List.forall_mem_cons.1 hbody
  have hwords : ∀ line ∈ Rhs.lines p.settings body layout.style, ∀ t ∈ line, t.IsWord newline := fun line hmem t ht =>
    hbody t (Rhs.flatten_lines p.settings body layout.style ▸ List.mem_flatten.2 ⟨line, hmem, ht⟩)
  have hhead : ∀ t ∈ lhs ++ [equals], t.IsWord newline :=
    List.forall_mem_append.2 ⟨hlhs, List.forall_mem_singleton.2 hequals⟩
  have hform : p.brokenClause lhs equals body layout = fun out =>
      ((Rhs.lines p.settings body layout.style).drop 1).foldl
        (fun out line => (out.endLine.blanks layout.column).put (Token.flat line))
        (out.put (Token.flat (lhs ++ [equals]) ++ " " ++ Token.flat ((Rhs.lines p.settings body layout.style).headD []))) := by
    unfold brokenClause Rhs.lines
    cases layout.style <;> rfl
  rw [hform]
  generalize Rhs.lines p.settings body layout.style = lines at *
  cases lines with
  | nil => exact absurd rfl hlines
  | cons first more =>
    rw [List.forall_mem_cons] at hwords hline
    have hstart := Steady.put hnewline (s := Token.flat (lhs ++ [equals]) ++ " " ++ Token.flat first)
      (((Token.over_flat Text.alphabet_line (words_over hhead).1).append (over_literal (by decide))).append
        (Token.over_flat Text.alphabet_line (words_over hwords.1).1))
      ((Token.ends_flat hline.1 (words_over hwords.1).2).append _)
    exact hstart.comp hnewline (.foldl hnewline fun line hmem =>
      .newLine hnewline _ (Token.over_flat Text.alphabet_line (words_over (hwords.2 line hmem)).1)
        (Token.ends_flat (hline.2 line hmem) (words_over (hwords.2 line hmem)).2))

/--
The text of a pragma, which may have several lines.
-/
theorem steady_pragmaText {pragma : Pragma} (hpragma : pragma.token.IsNeat newline)
    (hstart : ∀ c ∈ pragma.token.text.toList.head?, c ≠ '\n')
    {text : String} (htext : text = pragma.flat ∨ pragma.isLanguage ∧ ∃ width, text = pragma.languageText width) :
    Steady newline (·.write text pragma.token.isMultiline) := by
  refine ⟨_, ?_, fun _ => .write _ _⟩
  cases hline : pragma.token.isMultiline with
  | true =>
    have hflat : text = pragma.token.text := by
      rcases htext with rfl | ⟨hlanguage, -⟩
      · rw [Pragma.flat, if_pos hline]
      · simp [Pragma.isLanguage, hline] at hlanguage
    rw [hflat, Bool.true_and, ← Token.isMultiline, hline]
    exact .ofShielded hnewline hstart
  | false =>
    have hover : Text.Over (· ≠ '\n') pragma.token.text :=
      Token.over_lines (by simpa using hline) _ (List.mem_singleton.2 rfl)
    rw [Bool.false_and]
    rcases htext with rfl | ⟨-, width, rfl⟩
    · exact Steady.lines_word hnewline (Pragma.over_flat Text.alphabet_line hover) (Pragma.ends_flat hpragma.ends) _
    · exact Steady.lines_word hnewline (Pragma.over_languageText Text.alphabet_line pragma width)
        (pragma.ends_languageText width) _

/--
A pragma that is pinned, without the trivia before it.
-/
theorem steady_pinnedPragma (p : Printer) {pragma : Pragma} (hpragma : pragma.token.IsNeat newline)
    (hstart : ∀ c ∈ pragma.token.text.toList.head?, c ≠ '\n') : Steady newline (p.pinnedPragma pragma false) :=
  (steady_pragmaText hnewline hpragma hstart (.inl rfl)).comp hnewline (steady_trailing hnewline p hpragma)

theorem steady_headerPragma (p : Printer) (sourceFirst : Option Nat) (width : Nat) {pragma : Pragma}
    (hpragma : pragma.token.IsNeat newline) (hstart : ∀ c ∈ pragma.token.text.toList.head?, c ≠ '\n') :
    Steady newline (p.headerPragma sourceFirst width pragma) := by
  have habove : Steady newline fun out => if some pragma.token.offset = sourceFirst then out
      else linesAbove out pragma.token.leading.allCommentLines := by
    split
    · exact .id hnewline
    · refine .foldl hnewline fun line hline => ?_
      obtain ⟨hne, hpieces⟩ := hpragma.allCommentLines line hline
      exact (steady_note hnewline hne hpieces).comp hnewline (.endLine hnewline)
  have htext : Steady newline (·.write (if pragma.isLanguage then pragma.languageText width else pragma.flat)
      pragma.token.isMultiline) := by
    refine steady_pragmaText hnewline hpragma hstart ?_
    split
    · next hlanguage => exact .inr ⟨hlanguage, width, rfl⟩
    · exact .inl rfl
  exact (habove.comp hnewline htext).comp hnewline (steady_trailing hnewline p hpragma)

/--
Header pragmas in normal form, without the trivia before the first of them.
-/
theorem steady_pragmaBlock (p : Printer) (sourceFirst : Option Nat) {block : List Pragma}
    (hblock : ∀ pragma ∈ block, pragma.token.IsNeat newline ∧ ∀ c ∈ pragma.token.text.toList.head?, c ≠ '\n') :
    Steady newline (p.pragmaBlock sourceFirst block) := by
  have hpragma (width : Nat) : ∀ pragma ∈ block, Steady newline (p.headerPragma sourceFirst width pragma) :=
    fun pragma hmem => steady_headerPragma hnewline p _ _ (hblock _ hmem).1 (hblock _ hmem).2
  unfold pragmaBlock
  dsimp only
  generalize ((block.filter (·.isLanguage)).map (·.flatLanguage.length)).foldl max 0 = width
  cases block with
  | nil => exact .id hnewline
  | cons pragma more =>
    specialize hpragma width
    rw [List.forall_mem_cons] at hpragma
    exact hpragma.1.comp hnewline (.foldl hnewline fun pragma hmem =>
      (Steady.endLine hnewline).comp hnewline (hpragma.2 pragma hmem))

theorem steady_pragmaBlocks (p : Printer) (sourceFirst : Option Nat) {blocks : List (List Pragma)}
    (hblocks : ∀ block ∈ blocks, Steady newline (p.pragmaBlock sourceFirst block)) :
    Steady newline (p.pragmaBlocks sourceFirst blocks) := by
  cases blocks with
  | nil => exact .id hnewline
  | cons block more =>
    rw [List.forall_mem_cons] at hblocks
    exact hblocks.1.comp hnewline (.foldl hnewline fun block hmem =>
      ((Steady.endLine hnewline).comp hnewline (.endLine hnewline)).comp hnewline (hblocks.2 block hmem))

theorem steady_headerPragmas (p : Printer) {pragmas : List Pragma}
    (hpragmas : ∀ pragma ∈ pragmas, pragma.token.IsNeat newline ∧ ∀ c ∈ pragma.token.text.toList.head?, c ≠ '\n') :
    Steady newline (p.headerPragmas pragmas false) := by
  have hsubset (block : List Pragma) (hblock : block ∈ Pragma.blocks pragmas) : ∀ pragma ∈ block, pragma ∈ pragmas := by
    obtain ⟨index, -, rfl⟩ := List.mem_map.1 (List.mem_of_mem_filter hblock)
    exact fun pragma hpragma => List.mem_of_mem_filter hpragma
  have hblocks (sourceFirst : Option Nat) : Steady newline (p.pragmaBlocks sourceFirst (Pragma.blocks pragmas)) :=
    steady_pragmaBlocks hnewline p sourceFirst fun block hblock =>
      steady_pragmaBlock hnewline p sourceFirst fun pragma hmem => hpragmas pragma (hsubset block hblock pragma hmem)
  unfold headerPragmas
  dsimp only
  cases minBy (·.token.offset) pragmas <;> exact hblocks _

theorem steady_words {ts : List Token} (hne : ts ≠ []) (h : ∀ t ∈ ts, t.IsWord newline) :
    Steady newline (·.put (" ".intercalate (ts.map (·.text)))) :=
  .put hnewline (Token.over_words Text.alphabet_line (words_over h).1) (Token.ends_words hne (words_over h).2)

/--
A list behind the words before it.
-/
theorem steady_list (p : Printer) {list : ItemList Entry} (hlist : ∀ t ∈ tokens list, t.IsWord newline)
    (layout : ListLayout) :
    Steady newline fun out => match layout with
      | .singleLine => out.put (" " ++ list.flat)
      | .multiLine => p.itemList list (list.items.map Entry.flat) p.indent out := by
  cases layout with
  | singleLine =>
    exact .put hnewline ((over_literal (by decide)).append (ItemList.over_flat Text.alphabet_line (words_over hlist).1))
      ((ItemList.ends_flat (words_over hlist).2).append _)
  | multiLine => exact steady_entries hnewline p hlist _

/--
A header with an export list in normal form, without the trivia before it.
-/
theorem steady_header (p : Printer) {h : Header} {exports : ItemList Entry} {layout : ListLayout}
    (hexports : h.exports = some exports) (hlayout : exports.layout = some layout)
    (hh : ∀ t ∈ tokens h, t.IsWord newline) : Steady newline (p.header h false) := by
  have hwhere : h.whereKeyword.IsWord newline := hh _ (List.mem_append_right _ (List.mem_singleton.2 rfl))
  obtain ⟨hhead, hlist⟩ := List.forall_mem_append.1 (List.forall_mem_append.1 hh).1
  rw [hexports] at hlist
  have hbind : (h.exports.bind fun exports => exports.layout.map (exports, ·)) = some (exports, layout) := by
    rw [hexports, Option.bind_some, hlayout, Option.map_some]
  unfold header
  rw [hbind]
  have hput : Steady newline (·.put (" " ++ h.whereKeyword.text)) :=
    .put hnewline ((over_literal (by decide)).append (over_word hwhere)) (hwhere.ends.append _)
  exact (((steady_words hnewline (List.cons_ne_nil _ _) hhead).comp hnewline
    (steady_list hnewline p hlist layout)).comp hnewline hput).comp hnewline (steady_trailing hnewline p hwhere.toIsNeat)

/--
An import in normal form.
-/
theorem steady_importList (p : Printer) {i : Import} (hlist : ∀ t ∈ (i.list.map tokens).getD [], t.IsWord newline) :
    Steady newline fun out =>
      match i.list with
      | none => out
      | some list =>
        if list.layout = some .singleLine || list.items.isEmpty then
          out.put (" " ++ list.flat)
        else
          p.itemList list (list.items.map Entry.flat) p.indent out := by
  cases hsome : i.list with
  | none => exact .id hnewline
  | some list =>
    rw [hsome] at hlist
    dsimp only
    split
    · exact steady_list hnewline p hlist .singleLine
    · exact steady_list hnewline p hlist .multiLine

theorem steady_importDecl (p : Printer) {i : Import} (hstructured : isStructured i)
    (hi : ∀ t ∈ tokens i, t.IsWord newline) : Steady newline (p.importDecl i) := by
  obtain ⟨hbefore, htail⟩ := List.forall_mem_append.1 hi
  obtain ⟨hhead, hlist⟩ := List.forall_mem_append.1 hbefore
  have hlast := (hi _ (ItemList.lastToken_mem (List.cons_ne_nil _ _))).toIsNeat
  have hend : Steady newline fun out => if i.tail.isEmpty then out else out.put (" " ++ Token.flat i.tail) := by
    split
    · exact .id hnewline
    · next hne =>
      exact .put hnewline ((over_literal (by decide)).append (Token.over_flat Text.alphabet_line (words_over htail).1))
        ((Token.ends_flat (by simpa using hne) (words_over htail).2).append _)
  unfold importDecl
  simp only [if_pos hstructured]
  exact (((steady_words hnewline (List.cons_ne_nil _ _) hhead).comp hnewline (steady_importList hnewline p hlist)).comp
    hnewline hend).comp hnewline (steady_trailing hnewline p hlast)

end Printer

end HaskellStyle
