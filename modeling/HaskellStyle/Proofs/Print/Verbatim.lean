import HaskellStyle.Proofs.Print.Trivia

/-!
This module contains what the writing of tokens as they are shows: the tokens and all their comments.
-/

namespace HaskellStyle

variable {μ : Type} {v : View μ} {q : Bool}

namespace Token

/--
A token whose trivia is sound. No line comment runs into it.
-/
structure IsSound (t : Token) : Prop where
  leading : t.leading.IsSound
  trailing : Trivia.IsLine t.trailing
  lead : ∀ piece ∈ t.leading.lastLine.getLast?, piece.kind ≠ .lineComment

/--
How the trivia between neighbours is shared: if a line ends in it, the second token owns what begins with the
line end, and no line comment begins directly behind a token.
-/
structure Follows (t next : Token) : Prop where
  newline : t.trailing ≠ [] ∨ next.leading.hasNewline → ∃ piece ∈ next.leading.head?, piece.kind = .newline
  start : ∀ piece ∈ next.leading.head?, piece.kind ≠ .lineComment

/--
Neighbours in a text.
-/
structure IsRun (q : Bool) (ts : List Token) : Prop where
  sound : ∀ t ∈ ts, t.IsSound
  follows : ts.IsChain Follows
  linked : Linked q ts
  ordered : ts.Pairwise fun t u => t.offset < u.offset

theorem IsRun.of_infix {ts us : List Token} (h : IsRun q ts) (hus : us <:+: ts) : IsRun q us where
  sound t ht := h.sound t (hus.mem ht)
  follows := h.follows.infix hus
  linked := h.linked.of_infix hus
  ordered := h.ordered.sublist hus.sublist

/--
What is seen of a token with its trivia.
-/
def shown (v : View μ) (t : Token) : Multiset μ :=
  t.leading.seen v + t.seen v + Trivia.seen v t.trailing

/--
What is seen of tokens with their trivia.
-/
def allShown (v : View μ) (ts : List Token) : Multiset μ :=
  (ts.map (shown v)).sum

@[simp]
theorem allShown_nil : allShown v [] = 0 := rfl

@[simp]
theorem allShown_cons (t : Token) (ts : List Token) : allShown v (t :: ts) = t.shown v + allShown v ts := by
  simp [allShown]

@[simp]
theorem allShown_append (ts us : List Token) : allShown v (ts ++ us) = allShown v ts + allShown v us := by
  simp [allShown]

theorem IsSound.after {t : Token} (h : t.IsSound) : Trivia.After t.leading.lastLine = Calm := by
  unfold Trivia.After
  rw [if_neg]
  cases hlast : t.leading.lastLine.getLast? with
  | none => simp
  | some piece => simpa using h.lead piece hlast

theorem Tail.mono {t : Token} {A B : List Char → Prop} (h : ∀ y, A y → B y) {y : List Char}
    (hy : t.Tail A y) : t.Tail B y := by
  unfold Tail at hy ⊢
  split
  · next hcomments => rwa [if_pos hcomments] at hy
  · next hcomments =>
    rw [if_neg hcomments] at hy
    exact h y hy

end Token

namespace Printer

variable {out : Output} {ms : Multiset μ} {A : List Char → Prop} {p : Printer} {t : Token}

open Output (Shows)

theorem lastLine_eq (trivia : Trivia) :
    trivia.lastLine = trivia.splitLines.2.getLast?.getD trivia.splitLines.1 := rfl

/--
The trivia before a token, written line by line, behind its first line.
-/
theorem shows_leading_lines (ht : t.leading.IsSound)
    (hplace : ∀ column, p.placements.lookup t.offset ≠ some ⟨column, true⟩)
    (h : (t.leading.splitLines.1.foldl piece out).Shows v q (ms + Trivia.seen v t.leading.splitLines.1) A)
    (hA : ∀ y, LineEnd y → A y) :
    (p.leading t out).Shows v q (ms + t.leading.seen v)
      ((t.leading.splitLines.2.getLast?.map Trivia.After).getD A) := by
  obtain ⟨delta, heq⟩ := leading_eq hplace out
  have := shows_others ht.others delta (!t.isEnd) h hA
  rw [heq, Trivia.seen_splitLines, ← add_assoc]
  exact this

/--
The trivia before the first token of a text is written.
-/
theorem shows_leading_of_calm (ht : t.leading.IsSound)
    (hplace : ∀ column, p.placements.lookup t.offset ≠ some ⟨column, true⟩) (h : out.Shows v q ms Calm) :
    (p.leading t out).Shows v q (ms + t.leading.seen v) (Trivia.After t.leading.lastLine) := by
  have := shows_leading_lines ht hplace (shows_pieces h ht.first) fun _ => Trivia.after_of_lineEnd
  rw [lastLine_eq]
  cases hlast : t.leading.splitLines.2.getLast? with
  | none => simpa [hlast] using this
  | some last => simpa [hlast] using this

/--
Trivia that begins with a line end can be written behind everything.
-/
theorem shows_leading_of_newline (ht : t.leading.IsSound)
    (hplace : ∀ column, p.placements.lookup t.offset ≠ some ⟨column, true⟩)
    (hnewline : ∃ piece ∈ t.leading.head?, piece.kind = .newline) (h : out.Shows v q ms LineEnd) :
    (p.leading t out).Shows v q (ms + t.leading.seen v) (Trivia.After t.leading.lastLine) := by
  obtain ⟨piece, hpiece, hkind⟩ := hnewline
  obtain ⟨more, hmore⟩ := List.head?_eq_some_iff.1 hpiece
  have hsplit := Trivia.splitLines_newline hkind more
  rw [← hmore] at hsplit
  have hfirst : (t.leading.splitLines.1.foldl Printer.piece out).Shows v q
      (ms + Trivia.seen v t.leading.splitLines.1) LineEnd := by
    rw [hsplit]
    simpa using h
  have := shows_leading_lines ht hplace hfirst fun _ => id
  rw [lastLine_eq]
  rw [hsplit] at this ⊢
  cases hlast : ((Trivia.splitLines more).1 :: (Trivia.splitLines more).2).getLast? with
  | none => simp at hlast
  | some last => simpa [hlast] using this

/--
Trivia that does not begin with a line comment can be written directly behind a token.
-/
theorem shows_leading_of_soft (ht : t.leading.IsSound)
    (hplace : ∀ column, p.placements.lookup t.offset ≠ some ⟨column, true⟩) (hne : t.leading ≠ [])
    (hstart : ∀ piece ∈ t.leading.head?, piece.kind ≠ .lineComment) (h : out.Shows v q ms Lexeme.Soft) :
    (p.leading t out).Shows v q (ms + t.leading.seen v) (Trivia.After t.leading.lastLine) := by
  cases hleading : t.leading with
  | nil => exact absurd hleading hne
  | cons piece more =>
    by_cases hkind : piece.kind = .newline
    · rw [← hleading]
      exact shows_leading_of_newline ht hplace ⟨piece, by rw [hleading]; rfl, hkind⟩
        (h.mono fun _ h => h.soft)
    · have hsplit := Trivia.splitLines_piece hkind more
      rw [← hleading] at hsplit ⊢
      have hline := ht.first
      have hfirst := shows_pieces_of_soft h hline (by rw [hsplit]; simp) (by
        intro other hother
        rw [hsplit] at hother
        cases hother
        exact hstart piece (by rw [hleading]; rfl))
      have := shows_leading_lines ht hplace hfirst fun _ => Trivia.after_of_lineEnd
      rw [lastLine_eq]
      cases hlast : t.leading.splitLines.2.getLast? with
      | none => simpa [hlast] using this
      | some last => simpa [hlast] using this

theorem splitLines_of_not_hasNewline {trivia : Trivia} (h : trivia.hasNewline = false) :
    trivia.splitLines = (trivia, []) := by
  induction trivia with
  | nil => rfl
  | cons piece more ih =>
    rw [Trivia.hasNewline, List.any_cons, Bool.or_eq_false_iff, decide_eq_false_iff_not] at h
    rw [Trivia.splitLines_piece h.1, ih h.2]

/--
A token that is put on a line of its own takes the comments before it to the line before.
-/
theorem shows_leading_of_break (ht : t.leading.IsSound) (hnewline : t.leading.hasNewline = false) {column : Int}
    (hplace : p.placements.lookup t.offset = some ⟨column, true⟩) (h : out.Shows v q ms Lexeme.Soft) :
    (p.leading t out).Shows v q (ms + t.leading.seen v) Calm := by
  have hline : Trivia.IsLine t.leading := by
    have := ht.first
    rwa [splitLines_of_not_hasNewline hnewline] at this
  have hsub : List.Sublist t.leading.comments t.leading := List.filter_sublist
  have hcomments := shows_commentsBehind (hline.sublist hsub) h
  rw [leading_eq_break hplace, ← Trivia.seen_comments hline]
  refine Shows.blanks (Shows.endLine (Shows.mono hcomments fun y hy => ?_)) column
  split
  · exact hy.soft
  · exact Trivia.after_of_lineEnd hy

/--
No token that is put on a line of its own begins a line already.
-/
def BreaksLines (p : Printer) (ts : List Token) : Prop :=
  ∀ t ∈ ts, ∀ column, p.placements.lookup t.offset = some ⟨column, true⟩ → t.leading.hasNewline = false

/--
A token is written behind those that it follows without a gap, with the comments behind it.
-/
theorem shows_token {before : List Token} (ht : t.IsSound) (hlinked : Token.Linked q (before ++ [t]))
    (hgapless : Token.Gapless (before ++ [t])) (h : out.Shows v q ms (Token.Behind q before)) :
    (p.token out t).Shows v q (ms + t.seen v + Trivia.seen v t.trailing)
      (t.Tail (Token.Behind q (before ++ [t]))) := by
  have hshield : (t.isMultiline && t.text.toList.contains '\n') ∨ t.isMultiline = false := by
    unfold Token.isMultiline
    cases t.text.toList.contains '\n' <;> simp
  have hwritten := h.write (Token.fits (v := v) _ hshield)
  exact shows_trailing p ht.trailing false hwritten (hlinked _ (List.infix_refl _) hgapless)

theorem leading_nil (hplace : ∀ column, p.placements.lookup t.offset ≠ some ⟨column, true⟩)
    (hnil : t.leading = []) : p.leading t out = out := by
  obtain ⟨delta, heq⟩ := leading_eq hplace out
  rw [heq, hnil]
  rfl

/--
The trivia before a token is written behind its neighbour. If there is none, the token goes on with the tokens
before it, and else it stands alone.
-/
theorem shows_leading_behind {before : List Token} {previous : Token} (ht : t.IsSound)
    (hfollows : previous.Follows t) (hgapless : Token.Gapless (before ++ [previous]))
    (hbehind : ∀ y, Lexeme.Soft y → Token.Behind q (before ++ [previous]) y)
    (hbreak : BreaksLines p [t]) (h : out.Shows v q ms (previous.Tail (Token.Behind q (before ++ [previous])))) :
    (p.leading t out).Shows v q (ms + t.leading.seen v) Calm
      ∨ (Token.Gapless (before ++ [previous, t])
        ∧ (p.leading t out).Shows v q (ms + t.leading.seen v) (Token.Behind q (before ++ [previous]))) := by
  have htail (htrailing : previous.trailing.hasComments = false) :
      previous.Tail (Token.Behind q (before ++ [previous])) = Token.Behind q (before ++ [previous]) := by
    unfold Token.Tail
    rw [htrailing]
    rfl
  by_cases hplace : ∀ column, p.placements.lookup t.offset ≠ some ⟨column, true⟩
  · by_cases hnewline : ∃ piece ∈ t.leading.head?, piece.kind = .newline
    · left
      have := shows_leading_of_newline ht.leading hplace hnewline
        (h.mono fun y hy => Token.tail_of_lineEnd (fun y hy => hbehind y hy.soft) hy)
      rwa [ht.after] at this
    · -- The trivia between the two is all before the second.
      have hnil : previous.trailing = [] := Classical.byContradiction fun hne => hnewline (hfollows.newline (.inl hne))
      rw [htail (by rw [hnil]; rfl)] at h
      by_cases hleading : t.leading = []
      · right
        refine ⟨?_, ?_⟩
        · rw [Token.Gapless, List.isChain_append_cons_cons]
          refine ⟨hgapless, ?_, by simp⟩
          rw [Token.hasGap, hnil, hleading]
          rfl
        · rw [leading_nil hplace hleading, hleading]
          simpa using h
      · left
        have := shows_leading_of_soft ht.leading hplace hleading hfollows.start (h.mono hbehind)
        rwa [ht.after] at this
  · left
    obtain ⟨column, hcolumn⟩ : ∃ column, p.placements.lookup t.offset = some ⟨column, true⟩ := by
      simpa using hplace
    have hnewline := hbreak t List.mem_cons_self column hcolumn
    have hnil : previous.trailing = [] := by
      refine Classical.byContradiction fun hne => ?_
      obtain ⟨piece, hpiece, hkind⟩ := hfollows.newline (.inl hne)
      rw [Trivia.hasNewline, List.any_eq_false] at hnewline
      exact hnewline piece (List.mem_of_head? hpiece) (by simp [hkind])
    rw [htail (by rw [hnil]; rfl)] at h
    exact shows_leading_of_break ht.leading hnewline hcolumn (h.mono hbehind)

/--
Tokens are written as they are behind a neighbour.
-/
theorem shows_verbatim_rest {before : List Token} {previous : Token} {ts : List Token}
    (hrun : Token.IsRun q (before ++ previous :: ts)) (hgapless : Token.Gapless (before ++ [previous]))
    (hbreak : BreaksLines p ts)
    (h : out.Shows v q ms (previous.Tail (Token.Behind q (before ++ [previous])))) :
    (p.verbatim ts out).Shows v q (ms + Token.allShown v ts)
      ((ts.getLastD previous).Tail Lexeme.Soft) := by
  induction ts generalizing before previous out ms with
  | nil =>
    have hbehind := hrun.linked _ (List.infix_refl _) hgapless
    have := h.mono fun y (hy : previous.Tail Lexeme.Soft y) => Token.Tail.mono hbehind hy
    simpa [verbatim] using this
  | cons t ts ih =>
    have ht := hrun.sound t (by simp)
    have hfollows : previous.Follows t := by
      have hpair : [previous, t] <:+: before ++ previous :: t :: ts := ⟨before, ts, by simp⟩
      simpa using hrun.follows.infix hpair
    have hbehind := hrun.linked (before ++ [previous]) ⟨[], t :: ts, by simp⟩ hgapless
    have hbreak' : BreaksLines p ts := fun u hu => hbreak u (List.mem_cons_of_mem t hu)
    have hleading := shows_leading_behind ht hfollows hgapless hbehind
      (fun u hu => hbreak u (by simp at hu; simp [hu])) h
    have hlast : (t :: ts).getLastD previous = ts.getLastD t := by
      cases ts <;> rfl
    have hsum : ms + Token.allShown v (t :: ts)
        = ms + t.leading.seen v + t.seen v + Trivia.seen v t.trailing + Token.allShown v ts := by
      rw [Token.allShown_cons, Token.shown]
      simp only [add_assoc]
    rw [hlast, hsum]
    rcases hleading with hleading | ⟨hgapless', hleading⟩
    · have hrun' : Token.IsRun q ([] ++ t :: ts) := hrun.of_infix ⟨before ++ [previous], [], by simp⟩
      have hsingle : Token.Gapless ([] ++ [t]) := by simp
      refine ih hrun' hsingle hbreak' (shows_token ht (hrun'.linked.of_infix ⟨[], ts, by simp⟩) hsingle ?_)
      exact hleading.mono fun y => Token.behind_nil.1
    · have hrun' : Token.IsRun q ((before ++ [previous]) ++ t :: ts) := by simpa using hrun
      have hgapless'' : Token.Gapless ((before ++ [previous]) ++ [t]) := by simpa using hgapless'
      exact ih hrun' hgapless'' hbreak'
        (shows_token ht (hrun'.linked.of_infix ⟨[], ts, by simp⟩) hgapless'' hleading)

/--
Tokens are written as they are, without the trivia before the first of them.
-/
theorem shows_verbatimInside {ts : List Token} (hrun : Token.IsRun q (t :: ts)) (hbreak : BreaksLines p ts)
    (h : out.Shows v q ms Calm) :
    (p.verbatimInside (t :: ts) out).Shows v q
      (ms + t.seen v + Trivia.seen v t.trailing + Token.allShown v ts) ((ts.getLastD t).Tail Lexeme.Soft) := by
  have hrun' : Token.IsRun q ([] ++ t :: ts) := hrun
  have hsingle : Token.Gapless ([] ++ [t]) := by simp
  have hlinked : Token.Linked q ([] ++ [t]) := hrun.linked.of_infix ⟨[], ts, by simp⟩
  refine shows_verbatim_rest hrun' hsingle hbreak (shows_token (hrun.sound t List.mem_cons_self) hlinked hsingle ?_)
  exact h.mono fun y => Token.behind_nil.1

end Printer

/--
The output is ready for a part that begins with the token `t`: anything calm can be written, or anything at
all if the part begins a line.
-/
def Output.Ready (v : View μ) (q : Bool) (out : Output) (ms : Multiset μ) (t : Token) : Prop :=
  out.Shows v q ms Calm ∨ (out.Shows v q ms LineEnd ∧ ∃ piece ∈ t.leading.head?, piece.kind = .newline)

namespace Printer

variable {out : Output} {ms : Multiset μ} {p : Printer} {t : Token}

open Output (Shows Ready)

/--
The trivia before the first token of a part is written.
-/
theorem shows_leading_of_ready (ht : t.IsSound) (h : out.Ready v q ms t)
    (hplace : ∀ column, p.placements.lookup t.offset ≠ some ⟨column, true⟩) :
    (p.leading t out).Shows v q (ms + t.leading.seen v) Calm := by
  rw [← ht.after]
  rcases h with h | ⟨h, hnewline⟩
  · exact shows_leading_of_calm ht.leading hplace h
  · exact shows_leading_of_newline ht.leading hplace hnewline h

/--
Tokens are written as they are, with the trivia before them.
-/
theorem shows_verbatim {ts : List Token} (hrun : Token.IsRun q (t :: ts)) (hbreak : BreaksLines p ts)
    (hplace : ∀ column, p.placements.lookup t.offset ≠ some ⟨column, true⟩) (h : out.Ready v q ms t) :
    (p.verbatim (t :: ts) out).Shows v q (ms + Token.allShown v (t :: ts))
      ((ts.getLastD t).Tail Lexeme.Soft) := by
  have := shows_verbatimInside hrun hbreak
    (shows_leading_of_ready (hrun.sound t List.mem_cons_self) h hplace)
  rw [Token.allShown_cons, Token.shown]
  simp only [← add_assoc]
  exact this

end Printer

end HaskellStyle
