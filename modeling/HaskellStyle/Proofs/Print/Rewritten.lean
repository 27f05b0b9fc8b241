import HaskellStyle.Proofs.Print.Visible
import HaskellStyle.Proofs.Print.Written

/-!
This module contains that tokens without placements are written as they were read, but for what can be left out: every
lexeme is written, or it is made of blanks before a line end or before a comment behind code.
-/

namespace HaskellStyle

/--
The kinds and the texts of the pieces of trivia.
-/
def Trivia.spellings (trivia : Trivia) : List (LexemeKind × List Char) :=
  trivia.lexemes.map Lexeme.spelling

/--
The kinds and the texts of a token and the trivia around it.
-/
def Token.spellings (t : Token) : List (LexemeKind × List Char) :=
  t.lexemes.map Lexeme.spelling

namespace Trivia

@[simp] theorem spellings_nil : spellings [] = [] := rfl

@[simp] theorem spellings_cons (piece : TriviaPiece) (trivia : Trivia) :
    spellings (piece :: trivia) = (.trivia piece.kind, piece.text.toList) :: spellings trivia := rfl

@[simp] theorem spellings_append (trivia more : Trivia) :
    spellings (trivia ++ more) = spellings trivia ++ spellings more := by
  rw [spellings, lexemes, List.map_append, List.map_append]
  rfl

theorem mem_spellings {trivia : Trivia} {b : LexemeKind × List Char} (h : b ∈ trivia.spellings) :
    ∃ piece ∈ trivia, b = (.trivia piece.kind, piece.text.toList) := by
  obtain ⟨l, hl, rfl⟩ := List.mem_map.1 h
  obtain ⟨piece, hpiece, rfl⟩ := List.mem_map.1 hl
  exact ⟨piece, hpiece, rfl⟩

/--
Each line of trivia stands behind its line end.
-/
theorem exists_lines (trivia : Trivia) : ∃ lines : List (TriviaPiece × Trivia),
    trivia = trivia.splitLines.1 ++ lines.flatMap (fun r => r.1 :: r.2) ∧ trivia.splitLines.2 = lines.map Prod.snd
      ∧ ∀ r ∈ lines, r.1.kind = .newline := by
  induction trivia with
  | nil => exact ⟨[], rfl, rfl, nofun⟩
  | cons piece trivia ih =>
    obtain ⟨lines, htrivia, hlines, hkinds⟩ := ih
    by_cases hkind : piece.kind = .newline
    · refine ⟨(piece, (splitLines trivia).1) :: lines, ?_, ?_, List.forall_mem_cons.2 ⟨hkind, hkinds⟩⟩
      · rw [splitLines_newline hkind, List.nil_append, List.flatMap_cons, List.cons_append, ← htrivia]
      · rw [splitLines_newline hkind, hlines]
        rfl
    · refine ⟨lines, ?_, ?_, hkinds⟩
      · rw [splitLines_piece hkind, List.cons_append, ← htrivia]
      · rw [splitLines_piece hkind, hlines]

end Trivia

theorem Token.spellings_eq (t : Token) :
    t.spellings = t.leading.spellings ++ (.token t.kind, t.text.toList) :: t.trailing.spellings := by
  rw [spellings, lexemes, List.map_append, List.map_cons]
  rfl

namespace Output

/--
The output is what is written for the lexemes `before`, if it goes on with what is written for the lexemes `after`.
-/
structure Rewrites (out : Output) (before after : List (LexemeKind × List Char)) : Prop where
  sound : out.Sound
  written : ∀ y, Lexeme.Written out.newline.toList after y →
    Lexeme.Written out.newline.toList (before ++ after) (out.marked ++ y)

namespace Rewrites

variable {out : Output} {before after : List (LexemeKind × List Char)}

theorem marked_put_empty (h : out.Sound) : (out.put "").marked = out.marked := by
  rw [put, marked_write h]
  exact List.append_nil _

theorem blanks_zero (h : out.Rewrites before after) : (out.blanks 0).Rewrites before after where
  sound := h.sound.write _ _
  written y hy := by
    rw [blanks, show String.ofList (List.replicate (Int.toNat 0) ' ') = "" from rfl, marked_put_empty h.sound]
    exact h.written y hy

theorem report (h : out.Rewrites before after) (d : Diagnostic) : (out.report d).Rewrites before after where
  sound := ⟨h.sound.size, h.sound.newline, h.sound.disjoint, h.sound.bounded⟩
  written := h.written

/--
A lexeme is written.
-/
theorem write {x : LexemeKind × List Char} (h : out.Rewrites before (x :: after)) {text : String} {shield : Bool}
    (hx : ∀ y, Lexeme.Written out.newline.toList after y → Lexeme.Written out.newline.toList (x :: after)
      (.ofText (shield && text.toList.contains '\n') text.toList ++ y)) :
    (out.write text shield).Rewrites (before ++ [x]) after where
  sound := h.sound.write text shield
  written y hy := by
    rw [marked_write h.sound, List.append_assoc, List.append_assoc]
    exact h.written _ (hx y hy)

/--
Blanks before a line end are left out.
-/
theorem skip {bs : List (LexemeKind × List Char)} (h : out.Rewrites before (bs ++ after))
    (hbs : ∀ b ∈ bs, b.1 = .trivia .blanks) (hafter : Lexeme.EndsLine after) : out.Rewrites (before ++ bs) after where
  sound := h.sound
  written y hy := by
    rw [List.append_assoc]
    exact h.written y (hy.dropped hbs hafter)

end Rewrites

end Output

namespace Printer

open Output (Rewrites)

variable {out : Output} {before after : List (LexemeKind × List Char)}

theorem rewrites_piece {first : TriviaPiece} (hkind : first.kind ≠ .newline)
    (h : out.Rewrites before ((.trivia first.kind, first.text.toList) :: after)) :
    (piece out first).Rewrites (before ++ [(.trivia first.kind, first.text.toList)]) after := by
  refine h.write fun y hy => ?_
  rw [TriviaPiece.isMultiline, decide_eq_true hkind, Bool.true_and, Bool.and_self]
  exact hy.piece hkind

theorem rewrites_pieces {pieces : Trivia} (hkinds : ∀ piece ∈ pieces, piece.kind ≠ .newline)
    (h : out.Rewrites before (pieces.spellings ++ after)) :
    (pieces.foldl piece out).Rewrites (before ++ pieces.spellings) after := by
  induction pieces generalizing out before with
  | nil => rwa [Trivia.spellings_nil, List.append_nil]
  | cons first pieces ih =>
    obtain ⟨hfirst, hkinds⟩ := List.forall_mem_cons.1 hkinds
    rw [Trivia.spellings_cons, List.append_cons]
    exact ih hkinds (rewrites_piece hfirst h)

/--
A line of trivia is written, unless it is empty and no token follows on it.
-/
theorem rewrites_triviaLine {line : Trivia} (isTokenLine : Bool)
    (hline : ∀ piece ∈ line, piece.kind ≠ .newline ∧ piece.lexeme.Sound) (hafter : isTokenLine ∨ Lexeme.EndsLine after)
    (h : out.Rewrites before (line.spellings ++ after)) :
    (triviaLine line 0 isTokenLine out).Rewrites (before ++ line.spellings) after := by
  unfold triviaLine
  split
  · next hempty =>
    rw [Bool.and_eq_true, List.isEmpty_iff, Trivia.lineContent, List.filter_eq_nil_iff] at hempty
    refine h.skip (fun b hb => ?_) (hafter.resolve_left fun htoken => by simp [htoken] at hempty)
    obtain ⟨piece, hpiece, rfl⟩ := Trivia.mem_spellings hb
    have hkind := hempty.1 piece hpiece
    simp only [ne_eq, decide_not, Bool.not_eq_true', decide_eq_false_iff_not, not_not] at hkind
    exact congrArg LexemeKind.trivia hkind
  · split
    · next first more _ =>
      obtain ⟨⟨hfirst, hsound⟩, hmore⟩ := List.forall_mem_cons.1 hline
      split
      · next hkind =>
        rw [if_pos rfl, Trivia.spellings_cons, List.append_cons]
        refine rewrites_pieces (fun piece hpiece => (hmore piece hpiece).1) (Rewrites.write h fun y hy => ?_)
        -- Blanks have no line end in them, so nothing is to be shielded.
        have hnewline : first.text.toList.contains '\n' = false := by
          have hadmits := hsound.trivia .blanks (congrArg LexemeKind.trivia hkind)
          rw [← Bool.not_eq_true, List.contains_iff_mem]
          exact fun hmem => (hadmits _ hmem).2 rfl
        have hpiece := hy.piece (w := first.text.toList) hfirst
        rw [hnewline] at hpiece
        exact hpiece
      · exact rewrites_pieces (fun piece hpiece => (hline piece hpiece).1) h.blanks_zero
    · rw [Trivia.spellings_nil, List.append_nil]
      exact h.blanks_zero

theorem rewrites_endLine {first : TriviaPiece} (hkind : first.kind = .newline)
    (h : out.Rewrites before ((.trivia first.kind, first.text.toList) :: after)) :
    out.endLine.Rewrites (before ++ [(.trivia first.kind, first.text.toList)]) after := by
  refine Rewrites.write h fun y hy => ?_
  rw [hkind]
  exact hy.newline

theorem endsLine_lines {lines : List (TriviaPiece × Trivia)} (hkinds : ∀ r ∈ lines, r.1.kind = .newline)
    (hsound : ∀ r ∈ lines, r.1.lexeme.Sound) (hafter : Lexeme.EndsLine after) :
    Lexeme.EndsLine (Trivia.spellings (lines.flatMap fun r => r.1 :: r.2) ++ after) := by
  cases lines with
  | nil => exact hafter
  | cons r lines =>
    rintro x ⟨⟩
    have hkind := congrArg LexemeKind.trivia (hkinds r List.mem_cons_self)
    exact ⟨hkind, (hsound r List.mem_cons_self).trivia .newline hkind⟩

/--
Lines of trivia are written, each behind its line end.
-/
theorem rewrites_lines {lines : List (TriviaPiece × Trivia)} (hkinds : ∀ r ∈ lines, r.1.kind = .newline)
    (hsound : ∀ r ∈ lines, r.1.lexeme.Sound)
    (hlines : ∀ r ∈ lines, ∀ piece ∈ r.2, piece.kind ≠ .newline ∧ piece.lexeme.Sound) (hafter : Lexeme.EndsLine after)
    (h : out.Rewrites before (Trivia.spellings (lines.flatMap fun r => r.1 :: r.2) ++ after)) :
    ((lines.map Prod.snd).foldl (fun out line => triviaLine line 0 false out.endLine) out).Rewrites
      (before ++ Trivia.spellings (lines.flatMap fun r => r.1 :: r.2)) after := by
  induction lines generalizing out before with
  | nil => rwa [List.flatMap_nil, Trivia.spellings_nil, List.append_nil]
  | cons r lines ih =>
    obtain ⟨hkind, hkinds⟩ := List.forall_mem_cons.1 hkinds
    obtain ⟨-, hsound⟩ := List.forall_mem_cons.1 hsound
    obtain ⟨hline, hlines⟩ := List.forall_mem_cons.1 hlines
    rw [List.flatMap_cons, Trivia.spellings_append, Trivia.spellings_cons] at h ⊢
    rw [List.append_assoc, List.cons_append] at h
    have hrest := endsLine_lines hkinds hsound hafter
    have hfirst := rewrites_triviaLine false hline (.inr hrest) (rewrites_endLine hkind h)
    rw [← List.append_assoc, List.append_cons]
    exact ih hkinds hsound hlines hfirst

theorem leading_of_none {p : Printer} {t : Token} (h : p.placements.lookup t.offset = none) (out : Output) :
    p.leading t out =
      match t.leading.splitLines.2.getLast? with
      | none => t.leading.splitLines.1.foldl piece out
      | some last =>
        triviaLine last 0 (!t.isEnd)
          (t.leading.splitLines.2.dropLast.foldl (fun out line => triviaLine line 0 false out.endLine)
            (t.leading.splitLines.1.foldl piece out)).endLine := by
  unfold leading
  rw [h]
  rfl

/--
The trivia before a token without a placement is written. Behind the mark of the end of a text the line ends.
-/
theorem rewrites_leading {p : Printer} {t : Token} (hplace : p.placements.lookup t.offset = none)
    (hsound : ∀ piece ∈ t.leading, piece.lexeme.Sound) (hafter : t.isEnd → Lexeme.EndsLine after)
    (h : out.Rewrites before (t.leading.spellings ++ after)) :
    (p.leading t out).Rewrites (before ++ t.leading.spellings) after := by
  obtain ⟨lines, htrivia, hlines, hkinds⟩ := Trivia.exists_lines t.leading
  obtain ⟨hfirst, hothers⟩ := t.leading.mem_splitLines
  have hpieces : ∀ r ∈ lines, ∀ piece ∈ r.2, piece.kind ≠ .newline ∧ piece.lexeme.Sound := by
    intro r hr piece hpiece
    obtain ⟨hmem, hkind⟩ := hothers r.2 (hlines ▸ List.mem_map_of_mem hr) piece hpiece
    exact ⟨hkind, hsound piece hmem⟩
  have hends : ∀ r ∈ lines, r.1.lexeme.Sound := by
    intro r hr
    refine hsound r.1 (htrivia ▸ List.mem_append_right _ ?_)
    exact List.mem_flatMap.2 ⟨r, hr, List.mem_cons_self⟩
  rw [leading_of_none hplace, hlines]
  generalize t.leading.splitLines.1 = first at *
  rw [htrivia] at h ⊢
  rw [Trivia.spellings_append] at h ⊢
  rw [List.append_assoc] at h
  have hstart := rewrites_pieces (fun piece hpiece => (hfirst piece hpiece).2) h
  rw [← List.append_assoc]
  rcases List.eq_nil_or_concat' lines with rfl | ⟨others, r, rfl⟩
  · rw [List.flatMap_nil, Trivia.spellings_nil, List.append_nil]
    exact hstart
  · simp only [List.forall_mem_append, List.forall_mem_singleton] at hkinds hends hpieces
    rw [List.flatMap_append, List.flatMap_singleton, Trivia.spellings_append, List.append_assoc] at hstart
    rw [List.map_append, List.map_singleton, List.getLast?_concat, List.dropLast_concat, List.flatMap_append,
      List.flatMap_singleton, Trivia.spellings_append, Trivia.spellings_cons, ← List.append_assoc, List.append_cons]
    have hend : Lexeme.EndsLine (Trivia.spellings (r.1 :: r.2) ++ after) := by
      rintro x ⟨⟩
      have hkind := congrArg LexemeKind.trivia hkinds.2
      exact ⟨hkind, hends.2.trivia .newline hkind⟩
    have hbefore := rewrites_lines hkinds.1 hends.1 hpieces.1 hend hstart
    refine rewrites_triviaLine _ hpieces.2 ?_ (rewrites_endLine hkinds.2 hbefore)
    cases hisEnd : t.isEnd with
    | true => exact .inr (hafter hisEnd)
    | false => exact .inl rfl

theorem isComment_head?_splitComments (trivia : Trivia) :
    ∀ piece ∈ (splitComments trivia).2.head?, piece.isComment := by
  intro piece hpiece
  have hprefix : (splitComments trivia).2 <+: trivia.dropWhile (!·.isComment) := by
    rw [← List.reverse_suffix, splitComments, List.reverse_reverse]
    exact List.dropWhile_suffix _
  obtain ⟨more, hmore⟩ := hprefix
  have hhead := List.head?_dropWhile_not (fun piece : TriviaPiece => !piece.isComment) trivia
  rw [← hmore, List.head?_append, Option.mem_def.1 hpiece] at hhead
  simpa using hhead

/--
Before a comment behind code the blanks are changed.
-/
theorem rewrites_respaced {bs : List (LexemeKind × List Char)} {comment : TriviaPiece} {width : Int}
    (hbs : ∀ b ∈ bs, b.1 = .trivia .blanks) (hkind : comment.kind = .lineComment ∨ comment.kind = .blockComment)
    (hsettled : Lexeme.Settled ((.trivia comment.kind, comment.text.toList) :: after)) (hwidth : 0 < width)
    (h : out.Rewrites before (bs ++ (.trivia comment.kind, comment.text.toList) :: after)) :
    (piece (out.blanks width) comment).Rewrites (before ++ bs ++ [(.trivia comment.kind, comment.text.toList)])
      after where
  sound := (h.sound.write _ _).write _ _
  written y hy := by
    have hv : ∀ c ∈ List.replicate width.toNat ' ', LineEdit.isLineBlank c := by
      intro c hc
      rw [List.eq_of_mem_replicate hc]
      rfl
    have hne : List.replicate width.toNat ' ' ≠ [] := by
      rw [ne_eq, List.replicate_eq_nil_iff]
      omega
    have hnewline : comment.kind ≠ .newline := by
      rcases hkind with hkind | hkind <;> rw [hkind] <;> decide
    have hblanks : (out.blanks width).Sound := h.sound.write _ _
    rw [piece, Output.marked_write hblanks, Output.blanks, Output.put, Output.marked_write h.sound,
      TriviaPiece.isMultiline, decide_eq_true hnewline, Bool.true_and, Bool.and_self, Bool.false_and, String.toList_ofList]
    simp only [List.append_assoc, List.singleton_append]
    exact h.written _ (hy.respaced hbs hkind hsettled hv hne)

/--
The comments behind a token are written, and the blanks around them are left out or changed.
-/
theorem rewrites_trailing (p : Printer) {t : Token} (structured : Bool)
    (hkinds : ∀ piece ∈ t.trailing, piece.kind = .blanks ∨ piece.kind = .lineComment ∨ piece.kind = .blockComment)
    (hafter : t.trailing ≠ [] → Lexeme.EndsLine after) (h : out.Rewrites before (t.trailing.spellings ++ after)) :
    (p.trailing t structured out).Rewrites (before ++ t.trailing.spellings) after := by
  obtain ⟨tail, heq, hgap, htail, -⟩ := splitComments_cases t.trailing
  have hhead := isComment_head?_splitComments t.trailing
  have hblank {pieces : Trivia} (hpieces : pieces ⊆ t.trailing) (hnone : ∀ piece ∈ pieces, piece.isComment = false) :
      ∀ b ∈ pieces.spellings, b.1 = .trivia .blanks := by
    intro b hb
    obtain ⟨piece, hpiece, rfl⟩ := Trivia.mem_spellings hb
    have hcomment := hnone piece hpiece
    rw [TriviaPiece.isComment] at hcomment
    rcases hkinds piece (hpieces hpiece) with hkind | hkind | hkind
    · exact congrArg LexemeKind.trivia hkind
    · rw [hkind] at hcomment
      cases hcomment
    · rw [hkind] at hcomment
      cases hcomment
  unfold trailing
  dsimp only
  generalize (splitComments t.trailing).1 = gap at *
  cases hrest : (splitComments t.trailing).2 with
  | nil =>
    dsimp only
    by_cases hnil : t.trailing = []
    · rw [hnil, Trivia.spellings_nil, List.append_nil]
      rwa [hnil] at h
    · rw [hrest, List.nil_append] at heq
      refine h.skip (hblank (List.Subset.refl _) ?_) (hafter hnil)
      rw [heq]
      exact List.forall_mem_append.2 ⟨hgap, htail⟩
  | cons comment more =>
    dsimp only
    rw [hrest] at heq hhead
    specialize hafter (by rw [heq]; simp)
    rw [heq] at hkinds hblank h ⊢
    have hcomment : comment.kind = .lineComment ∨ comment.kind = .blockComment := by
      refine (hkinds comment (by simp)).resolve_left fun hkind => ?_
      have hshown := hhead comment rfl
      rw [TriviaPiece.isComment, hkind] at hshown
      cases hshown
    have hmore : ∀ piece ∈ more, piece.kind ≠ .newline := by
      intro piece hpiece hnewline
      rcases hkinds piece (by simp [hpiece]) with hkind | hkind | hkind <;> cases hkind.symm.trans hnewline
    simp only [Trivia.spellings_append, Trivia.spellings_cons, List.append_assoc, List.cons_append] at h
    have hsettled : Lexeme.Settled ((.trivia comment.kind, comment.text.toList)
        :: (Trivia.spellings more ++ (Trivia.spellings tail ++ after))) := by
      have htrivia : ∀ x ∈ Trivia.spellings (comment :: more ++ tail), ∃ kind, x.1 = .trivia kind := fun x hx => by
        obtain ⟨piece, -, rfl⟩ := Trivia.mem_spellings hx
        exact ⟨_, rfl⟩
      simpa using hafter.settled.append htrivia
    have hgap' := hblank (List.subset_append_left _ _) hgap
    have htail' := hblank (fun piece hpiece => List.mem_append_right _ (List.mem_append_right _ hpiece)) htail
    have hwritten {out : Output} {width : Int} (hwidth : 0 < width)
        (h : out.Rewrites before (Trivia.spellings gap ++ (.trivia comment.kind, comment.text.toList)
          :: (Trivia.spellings more ++ (Trivia.spellings tail ++ after)))) :
        (more.foldl piece (piece (out.blanks width) comment)).Rewrites
          (before ++ Trivia.spellings (gap ++ (comment :: more ++ tail))) after := by
      have hall := (rewrites_pieces hmore (rewrites_respaced hgap' hcomment hsettled hwidth h)).skip htail' hafter
      simpa using hall
    rw [List.foldl_cons]
    refine hwritten ?_ ?_
    · split
      · decide
      · exact Int.lt_of_lt_of_le (by decide) (Int.le_max_left _ _)
    · exact iteInduction (motive := fun out : Output => out.Rewrites _ _) (fun _ => h.report _) fun _ => h

/--
A token is written with the comments behind it.
-/
theorem rewrites_token (p : Printer) {t : Token}
    (hkinds : ∀ piece ∈ t.trailing, piece.kind = .blanks ∨ piece.kind = .lineComment ∨ piece.kind = .blockComment)
    (hafter : t.trailing ≠ [] → Lexeme.EndsLine after)
    (h : out.Rewrites before ((.token t.kind, t.text.toList) :: (t.trailing.spellings ++ after))) :
    (p.token out t).Rewrites (before ++ (.token t.kind, t.text.toList) :: t.trailing.spellings) after := by
  have hwritten : (out.write t.text t.isMultiline).Rewrites (before ++ [(.token t.kind, t.text.toList)])
      (t.trailing.spellings ++ after) := by
    refine h.write fun y hy => ?_
    rw [Token.isMultiline, Bool.and_self]
    exact hy.token
  have hall := rewrites_trailing p false hkinds hafter hwritten
  rwa [List.append_assoc, List.singleton_append] at hall

/--
Tokens without placements are written as they were read.
-/
theorem rewrites_verbatim {p : Printer} {ts : List Token} (hplace : ∀ t ∈ ts, p.placements.lookup t.offset = none)
    (hend : ∀ t ∈ ts, t.isEnd = false) (hsound : ∀ t ∈ ts, ∀ piece ∈ t.leading, piece.lexeme.Sound)
    (hkinds : ∀ t ∈ ts, ∀ piece ∈ t.trailing,
      piece.kind = .blanks ∨ piece.kind = .lineComment ∨ piece.kind = .blockComment)
    (hafter : ∀ us t vs, ts = us ++ t :: vs → t.trailing ≠ [] → Lexeme.EndsLine (vs.flatMap Token.spellings ++ after))
    (h : out.Rewrites before (ts.flatMap Token.spellings ++ after)) :
    (p.verbatim ts out).Rewrites (before ++ ts.flatMap Token.spellings) after := by
  induction ts generalizing out before with
  | nil => rwa [List.flatMap_nil, List.append_nil]
  | cons t ts ih =>
    obtain ⟨hplaceFirst, hplace⟩ := List.forall_mem_cons.1 hplace
    obtain ⟨hendFirst, hend⟩ := List.forall_mem_cons.1 hend
    obtain ⟨hsoundFirst, hsound⟩ := List.forall_mem_cons.1 hsound
    obtain ⟨hkindsFirst, hkinds⟩ := List.forall_mem_cons.1 hkinds
    rw [List.flatMap_cons, Token.spellings_eq, List.append_assoc, List.append_assoc] at h
    have hleading := rewrites_leading hplaceFirst hsoundFirst (fun hisEnd => by simp [hendFirst] at hisEnd) h
    rw [List.cons_append] at hleading
    have htoken := rewrites_token p hkindsFirst (hafter [] t ts rfl) hleading
    have hrest := ih hplace hend hsound hkinds (fun us u vs heq => hafter (t :: us) u vs (congrArg (t :: ·) heq)) htoken
    rwa [List.flatMap_cons, Token.spellings_eq, ← List.append_assoc, ← List.append_assoc]

end Printer

end HaskellStyle
