import HaskellStyle.Proofs.Print.Trimmed
import HaskellStyle.Proofs.Token.Reread

/-!
This module contains lexemes that are written as they were read, but for line ends, the blanks before comments behind
code, and blanks at the ends of lines. What is left when the line ends are normalized can be read in their place.
-/

namespace HaskellStyle

namespace Trims

variable {cs : List Char} {shield : Bool} {t' t : List Char}

/--
A blank that is kept does not begin the end of the text.
-/
theorem not_finalEnd_of_keep {c : Char} (hc : LineEdit.isEndBlank c → ¬FinalEnd t) : ¬FinalEnd (c :: t) := by
  intro hend
  refine hc (hend.isEndBlank List.mem_cons_self) ?_
  obtain hnil | hnewline | hreturn := hend
  · cases hnil
  · exact .inl (List.cons.inj hnewline).2
  · exact .inr (.inl (List.cons.inj hreturn).2)

/--
A line end is kept or, at the end of the text, dropped.
-/
theorem newline (h : Trims (.ofText false cs) t' t) (hcs : cs = ['\n'] ∨ cs = ['\r', '\n']) :
    t = cs ++ t' ∨ t = t' ∧ FinalEnd t' := by
  have hlast {t : List Char} (h : Trims (.ofText false ['\n']) t' t) :
      t = '\n' :: t' ∧ ¬FinalEnd t ∨ t = t' ∧ FinalEnd t' := by
    cases h with
    | keep h hc =>
      cases h
      exact .inl ⟨rfl, not_finalEnd_of_keep hc⟩
    | drop h hc hend =>
      cases h
      exact .inr ⟨rfl, hend.resolve_right fun h => absurd h.1 (by decide)⟩
  rcases hcs with rfl | rfl
  · exact (hlast h).imp_left And.left
  · cases h with
    | keep h hc =>
      rcases hlast h with ⟨rfl, -⟩ | ⟨rfl, hend⟩
      · exact .inl rfl
      · exact absurd hend (hc (by decide))
    | drop h hc hend =>
      refine .inr ((hlast h).resolve_left fun hkept => hkept.2 ?_)
      exact hend.resolve_right fun h => absurd h.1 (by decide)

/--
On a line that goes on all is kept.
-/
theorem of_not_lineEnd (h : Trims (.ofText shield cs) t' t) (hcs : '\n' ∉ cs) (ht' : ¬LineEnd t') : t = cs ++ t' := by
  induction cs generalizing t with
  | nil =>
    cases h
    rfl
  | cons c cs ih =>
    have hcs' : '\n' ∉ cs := fun hmem => hcs (List.mem_cons_of_mem c hmem)
    cases h with
    | keep h hc => rw [ih h hcs', List.cons_append]
    | drop h hc hend =>
      exfalso
      have heq := ih h hcs'
      subst heq
      have hend : LineEnd (cs ++ t') := hend.elim FinalEnd.lineEnd fun h => h.2.2
      match cs with
      | [] => exact ht' hend
      | d :: cs =>
        obtain hnil | ⟨r, hr⟩ | ⟨r, hr⟩ := hend
        · cases hnil
        · cases hr
          exact hcs' List.mem_cons_self
        · obtain ⟨-, hr⟩ := List.cons.inj hr
          match cs with
          | [] => exact ht' (.inr (.inl ⟨r, hr⟩))
          | e :: cs =>
            cases hr
            exact hcs' (List.mem_cons_of_mem _ List.mem_cons_self)

/--
Of what is shielded blanks are dropped at the end of the text only.
-/
theorem of_shielded (h : Trims (.ofText true cs) t' t) :
    ∃ u d, cs = u ++ d ∧ t = u ++ t' ∧ (∀ e ∈ d, LineEdit.isEndBlank e) ∧ (u ≠ [] → ¬FinalEnd t) := by
  induction cs generalizing t with
  | nil =>
    cases h
    exact ⟨[], [], rfl, rfl, nofun, fun hne => absurd rfl hne⟩
  | cons c cs ih =>
    cases h with
    | keep h hc =>
      obtain ⟨u, d, rfl, rfl, hd, -⟩ := ih h
      exact ⟨c :: u, d, rfl, rfl, hd, fun _ => not_finalEnd_of_keep hc⟩
    | drop h hc hend =>
      obtain ⟨u, d, rfl, rfl, hd, hu⟩ := ih h
      have hend := hend.resolve_right fun h => Bool.noConfusion h.2.1
      obtain rfl : u = [] := by
        by_contra hne
        exact hu hne hend
      exact ⟨[], c :: d, rfl, rfl, List.forall_mem_cons.2 ⟨hc, hd⟩, fun hne => absurd rfl hne⟩

/--
Before a line end blanks are dropped at the end. A carriage return can stay there.
-/
theorem of_piece (h : Trims (.ofText shield cs) t' t) (hshield : shield ∨ '\n' ∉ cs) (ht' : LineEnd t') :
    ∃ u d v, cs = u ++ d ∧ t = u ++ (v ++ t') ∧ (∀ e ∈ d, LineEdit.isEndBlank e) ∧ (v = [] ∨ v = ['\r'])
      ∧ LineEnd (v ++ t') := by
  by_cases hnewline : '\n' ∈ cs
  · obtain rfl := hshield.resolve_right fun hnot => hnot hnewline
    obtain ⟨u, d, rfl, rfl, hd, -⟩ := h.of_shielded
    exact ⟨u, d, [], rfl, rfl, hd, .inl rfl, ht'⟩
  · obtain ⟨u, d, s, rfl, rfl, hd, hs, rfl | rfl⟩ := h.of_lineEnd hnewline ht'
    · exact ⟨u, d, [], rfl, rfl, List.all_eq_true.1 hd, .inl rfl, hs⟩
    · exact ⟨u, d, ['\r'], rfl, rfl, List.all_eq_true.1 hd, .inr rfl, hs⟩

/--
A character that is not blank is kept.
-/
theorem keep_first {c : Char} (h : Trims (.ofText shield (c :: cs)) t' t) (hc : LineEdit.isEndBlank c = false) :
    ∃ r, t = c :: r ∧ Trims (.ofText shield cs) t' r := by
  cases h with
  | keep h => exact ⟨_, rfl, h⟩
  | drop h hblank =>
    rw [hc] at hblank
    cases hblank

end Trims

namespace Lexeme

/--
Whether only blanks stand behind a last backslash. Without them the backslash would go before the line end.
-/
def isLoose (w : List Char) : Bool :=
  w.getLast?.any LineEdit.isEndBlank && (LineEdit.dropEnd LineEdit.isEndBlank w).getLast? == some '\\'

theorem isLoose_of_blanks {x b : List Char} (hb : ∀ e ∈ b, LineEdit.isEndBlank e) (hne : b ≠ []) :
    isLoose (x ++ '\\' :: b) := by
  have hdrop : LineEdit.dropEnd LineEdit.isEndBlank (x ++ '\\' :: b) = x ++ ['\\'] := by
    rw [LineEdit.dropEnd, List.reverse_append, List.reverse_cons, List.append_assoc,
      List.dropWhile_append_of_pos fun e he => hb e (List.mem_reverse.1 he), List.singleton_append,
      List.dropWhile_cons_of_neg (by decide), List.reverse_cons, List.reverse_reverse]
  rw [isLoose, hdrop, List.getLast?_append, List.getLast?_cons, List.getLast?_eq_some_getLast hne, Option.getD_some,
    Option.some_or, Option.any_some, hb _ (List.getLast_mem hne), List.getLast?_concat]
  decide

/--
A directive that is not loose has no backslash before blanks at its end, unless it is the last thing in the text.
-/
theorem firm_of_not_isLoose {u d : List Char} (h : ¬isLoose (u ++ d)) (hd : ∀ e ∈ d, LineEdit.isEndBlank e)
    (hlast : (u ++ d).getLast? ≠ some '\\') (x b : List Char) (heq : u = x ++ '\\' :: b) :
    ¬∀ e ∈ b, LineEdit.isEndBlank e := by
  intro hb
  subst heq
  rw [List.append_assoc, List.cons_append] at h hlast
  by_cases hne : b ++ d = []
  · rw [hne, List.getLast?_concat] at hlast
    exact hlast rfl
  · exact h (isLoose_of_blanks (List.forall_mem_append.2 ⟨hb, hd⟩) hne)

section

variable {q : Bool} {p : Option Char} {cs : List Char} {bs ps : List (LexemeKind × List Char)}

theorem contains_or_notMem (w : List Char) : w.contains '\n' ∨ '\n' ∉ w := by
  rw [← List.contains_iff_mem]
  exact em _

/--
The first lexeme of a text is what is read where it begins, and the others are those of the rest.
-/
theorem spell_first {k : LexemeKind} {w : List Char}
    (h : spell q p (((k, w) :: ps).flatMap Prod.snd) = some ((k, w) :: ps)) :
    ∃ c u, w = c :: u ∧ measure q p 0 c (u ++ ps.flatMap Prod.snd) = .ok (k, u.length)
      ∧ spell q w.getLast? (ps.flatMap Prod.snd) = some ps := by
  cases hcs : ((k, w) :: ps).flatMap Prod.snd with
  | nil =>
    rw [hcs, spell_nil] at h
    cases h
  | cons c cs =>
    rw [hcs] at h
    obtain ⟨k', u, y, rest, rfl, hmeasure, heq, hrest⟩ := spell_cons_eq_some h
    obtain ⟨hfirst, rfl⟩ := List.cons.inj heq
    obtain ⟨rfl, rfl⟩ := Prod.mk.inj hfirst
    rw [flatMap_of_spell hrest]
    exact ⟨c, u, rfl, hmeasure, hrest⟩

/--
The last lexemes of a text are those of its end.
-/
theorem spell_suffix (h : spell q p cs = some (bs ++ ps)) : ∃ p', spell q p' (ps.flatMap Prod.snd) = some ps := by
  cases ps with
  | nil => exact ⟨none, spell_nil q none⟩
  | cons x ps =>
    obtain ⟨k, w⟩ := x
    obtain ⟨p', c, u, rfl, hmeasure, hrest⟩ := spell_split h
    refine ⟨p', ?_⟩
    rw [List.flatMap_cons]
    show spell q p' (c :: (u ++ ps.flatMap Prod.snd)) = _
    rw [spell_append hmeasure, hrest]
    rfl

theorem isRoom_of_spell (h : spell q p cs = some (bs ++ ps)) (hbs : ∀ b ∈ bs, b.1 = .trivia .blanks) : IsRoom bs := by
  intro b hb
  refine ⟨⟨_, hbs b hb⟩, ?_⟩
  obtain ⟨before, after, rfl⟩ := List.append_of_mem hb
  obtain ⟨k, w⟩ := b
  obtain rfl : k = .trivia .blanks := hbs _ hb
  rw [List.append_assoc, List.cons_append] at h
  obtain ⟨p', c, u, rfl, hmeasure, -⟩ := spell_split h
  have hadmits := (measured_iff.2 hmeasure).admits
  rw [List.take_left] at hadmits
  exact fun e he => (hadmits e he).1

theorem flatMap_ne_nil_of_spell (h : spell q p cs = some (bs ++ ps)) (hne : bs ≠ []) : bs.flatMap Prod.snd ≠ [] := by
  obtain ⟨⟨k, w⟩, bs, rfl⟩ := List.exists_cons_of_ne_nil hne
  obtain ⟨p', c, u, rfl, -, -⟩ := spell_split (show spell q p cs = some ([] ++ (k, w) :: (bs ++ ps)) from h)
  exact List.cons_ne_nil c _

/--
A comment is left with the mark it begins with.
-/
theorem comment_start {kind : TriviaKind} {c : Char} {u s s' : List Char} {shield : Bool}
    (hkind : kind = .lineComment ∨ kind = .blockComment)
    (hmeasure : measure q p 0 c (u ++ ps.flatMap Prod.snd) = .ok (.trivia kind, u.length))
    (hs : Trims (.ofText shield (c :: u)) s' s) :
    ((∃ r, s = '-' :: '-' :: r) ∨ ∃ r, s = '\x7b' :: r) ∧ (c = '-' ∨ c = '\x7b') := by
  rcases hkind with rfl | rfl
  · obtain ⟨⟨w, hw, hdashes, -⟩, -⟩ := isLineComment_of_measure hmeasure
    obtain ⟨rfl, rfl⟩ := List.cons.inj hw
    rw [isDashes, Bool.and_eq_true, decide_eq_true_eq] at hdashes
    cases u with
    | nil => exact absurd hdashes.1 (by simp)
    | cons d u =>
      obtain ⟨r, rfl, hrest⟩ := hs.keep_first (by decide)
      obtain rfl : d = '-' := by
        rw [runLength, List.takeWhile_cons] at hdashes
        split at hdashes
        · exact beq_iff_eq.1 (List.all_eq_true.1 hdashes.2 d (by simp))
        · exact absurd hdashes.1 (by simp)
      obtain ⟨r, rfl, -⟩ := hrest.keep_first (by decide)
      exact ⟨.inl ⟨r, rfl⟩, .inl rfl⟩
  · obtain ⟨w, hw, -⟩ := isBlockComment_of_measure hmeasure
    obtain ⟨rfl, rfl⟩ := List.cons.inj hw
    obtain ⟨r, rfl, -⟩ := hs.keep_first (by decide)
    exact ⟨.inr ⟨r, rfl⟩, .inr rfl⟩

end

/--
Lexemes written as they were read: line ends become those of the module, blanks are dropped at the ends of lines and
changed before a comment that no token follows on its line.
-/
inductive Written (newline : List Char) : List (LexemeKind × List Char) → Shielded → Prop where
  | nil : Written newline [] []
  | token {kind : TokenKind} {w : List Char} {ps : List (LexemeKind × List Char)} {x : Shielded}
    (h : Written newline ps x) : Written newline ((.token kind, w) :: ps) (.ofText (w.contains '\n') w ++ x)
  | newline {w : List Char} {ps : List (LexemeKind × List Char)} {x : Shielded} (h : Written newline ps x) :
    Written newline ((.trivia .newline, w) :: ps) (.ofText false newline ++ x)
  | piece {kind : TriviaKind} {w : List Char} {ps : List (LexemeKind × List Char)} {x : Shielded}
    (h : Written newline ps x) (hkind : kind ≠ .newline) :
    Written newline ((.trivia kind, w) :: ps) (.ofText (w.contains '\n') w ++ x)
  | dropped {bs ps : List (LexemeKind × List Char)} {x : Shielded} (h : Written newline ps x)
    (hbs : ∀ b ∈ bs, b.1 = .trivia .blanks) (hps : EndsLine ps) : Written newline (bs ++ ps) x
  | respaced {bs ps : List (LexemeKind × List Char)} {kind : TriviaKind} {w v : List Char} {x : Shielded}
    (h : Written newline ps x) (hbs : ∀ b ∈ bs, b.1 = .trivia .blanks)
    (hkind : kind = .lineComment ∨ kind = .blockComment) (hsettled : Settled ((.trivia kind, w) :: ps))
    (hv : ∀ c ∈ v, LineEdit.isLineBlank c) (hne : v ≠ []) :
    Written newline (bs ++ (.trivia kind, w) :: ps) (.ofText false v ++ (.ofText (w.contains '\n') w ++ x))

namespace Written

variable {newline : List Char} {ps : List (LexemeKind × List Char)} {x : Shielded} {t' n : List Char}

theorem of_nil (h : Written newline ps x) (hps : ps = []) : x = [] := by
  induction h with
  | nil => rfl
  | token | newline | piece => cases hps
  | dropped _ _ _ ih => exact ih (List.append_eq_nil_iff.1 hps).2
  | respaced => cases (List.append_eq_nil_iff.1 hps).2

/--
A line end is left where a line ends.
-/
theorem lineEnd (h : Written newline ps x) (hnewline : newline = ['\n'] ∨ newline = ['\r', '\n']) (hps : EndsLine ps)
    (ht' : FinalEnd t') (hn : Trims x t' n) : LineEnd n := by
  induction h generalizing n with
  | nil =>
    cases hn
    exact ht'.lineEnd
  | token => cases (hps _ rfl).1
  | newline h ih =>
    obtain ⟨s, -, hs⟩ := Trims.append_iff.1 hn
    rcases hs.newline hnewline with rfl | ⟨rfl, hs⟩
    · rcases hnewline with rfl | rfl
      · exact .inr (.inl ⟨s, rfl⟩)
      · exact .inr (.inr ⟨s, rfl⟩)
    · exact hs.lineEnd
  | piece h hkind ih => exact absurd (LexemeKind.trivia.inj (hps _ rfl).1) hkind
  | @dropped bs ps x h hbs hend ih => exact ih hend hn
  | @respaced bs ps kind w v x h hbs hkind _ _ _ ih =>
    cases bs with
    | nil => rcases hkind with rfl | rfl <;> cases (hps _ rfl).1
    | cons b bs => cases (hbs b List.mem_cons_self).symm.trans (hps b rfl).1

end Written

namespace ReadsAs

variable {q : Bool} {p : Option Char} {ps : List (LexemeKind × List Char)} {n n' : List Char}

/--
What is left of a directive that is not loose: all of it but blanks at its end. A line ends behind it.
-/
theorem directive_left (before : List Char) {previous : Char} {u : List Char}
    (hspell : spell q p (ps.flatMap Prod.snd) = some ps)
    (hlength : directiveLength previous (u ++ ps.flatMap Prod.snd) = u.length)
    (hshown : ∀ e ∈ before ++ [previous], LineEdit.isEndBlank e = false) (hloose : ¬isLoose (before ++ previous :: u))
    (hend : EndsLine ps → LineEnd n) (hfinal : ps = [] → FinalEnd n)
    (hn : Trims (.ofText ((before ++ previous :: u).contains '\n') (before ++ previous :: u)) n n') :
    ∃ w d v, u = w ++ d ∧ n' = before ++ previous :: (w ++ (v ++ n)) ∧ (∀ e ∈ d, Text.isBlank e)
      ∧ (∀ e ∈ v, Text.isBlank e) ∧ LineEnd (v ++ n) ∧ LineEnd n ∧ LineEnd (ps.flatMap Prod.snd)
      ∧ (ps = [] ∧ FinalEnd (v ++ n) ∨ ∀ x b, previous :: w = x ++ '\\' :: b → ¬∀ e ∈ b, LineEdit.isEndBlank e) := by
  have hold : LineEnd (ps.flatMap Prod.snd) := (directiveLength_stop hlength).elim .inl And.left
  have hline : LineEnd n := hend (endsLine_of_lineEnd hold hspell)
  obtain ⟨w, d, v, hsplit, rfl, hd, hv, hafter⟩ := hn.of_piece (contains_or_notMem _) hline
  -- What stands before the end is kept.
  obtain ⟨w, rfl, rfl⟩ : ∃ w', w = before ++ previous :: w' ∧ u = w' ++ d := by
    rw [List.append_cons] at hsplit
    rcases List.append_eq_append_iff.1 hsplit with ⟨w', rfl, rfl⟩ | ⟨e, hbefore, rfl⟩
    · exact ⟨w', List.append_cons _ _ _ ▸ rfl, rfl⟩
    · cases e with
      | nil => exact ⟨[], by rw [List.append_nil] at hbefore; exact hbefore.symm, rfl⟩
      | cons e es =>
        have hmem : e ∈ before ++ [previous] := by rw [hbefore]; simp
        have := hd e List.mem_cons_self
        rw [hshown e hmem] at this
        cases this
  refine ⟨w, d, v, rfl, by simp, fun e he => isBlank_of_isEndBlank (hd e he), ?_, hafter, hline, hold, ?_⟩
  · rcases hv with rfl | rfl <;> exact List.all_eq_true.1 (by decide)
  · by_cases hps : ps = []
    · refine .inl ⟨hps, ?_⟩
      rcases hv with rfl | rfl
      · exact hfinal hps
      · obtain rfl | rfl | rfl := hfinal hps
        · obtain hnil | ⟨r, hr⟩ | ⟨r, hr⟩ := hafter <;> cases ‹_›
        · exact .inr (.inr rfl)
        · obtain hnil | ⟨r, hr⟩ | ⟨r, hr⟩ := hafter <;> cases ‹_›
    · refine .inr fun x b heq => ?_
      rw [← List.cons_append, ← List.append_assoc] at hloose
      refine firm_of_not_isLoose hloose hd ?_ (before ++ x) b (by rw [heq, List.append_assoc])
      rcases directiveLength_stop hlength with hnil | ⟨-, hlast⟩
      · rw [hnil, spell_nil] at hspell
        exact absurd (Option.some.inj hspell).symm hps
      · rwa [List.append_assoc, List.cons_append, List.getLast?_append_of_ne_nil _ (List.cons_ne_nil _ _)]

/--
Trivia that is written as it was read is read again. A directive must not be loose.
-/
theorem piece {kind : TriviaKind} {c : Char} {u : List Char} (h : ReadsAs q (c :: u).getLast? ps n)
    (hmeasure : measure q p 0 c (u ++ ps.flatMap Prod.snd) = .ok (.trivia kind, u.length))
    (hspell : spell q (c :: u).getLast? (ps.flatMap Prod.snd) = some ps) (hkind : kind ≠ .newline)
    (hloose : kind = .directive → ¬isLoose (c :: u)) (hend : EndsLine ps → LineEnd n) (hfinal : ps = [] → FinalEnd n)
    (hn : Trims (.ofText ((c :: u).contains '\n') (c :: u)) n n') : ReadsAs q p ((.trivia kind, c :: u) :: ps) n' := by
  have hblank {d : List Char} (hd : ∀ e ∈ d, LineEdit.isEndBlank e) : ∀ e ∈ d, Text.isBlank e :=
    fun e he => isBlank_of_isEndBlank (hd e he)
  have hreturn {v : List Char} (hv : v = [] ∨ v = ['\r']) : ∀ e ∈ v, Text.isBlank e := by
    rcases hv with rfl | rfl <;> exact List.all_eq_true.1 (by decide)
  cases kind with
  | newline => exact absurd rfl hkind
  | byteOrderMark => exact absurd hmeasure not_byteOrderMark_of_measure
  | blanks =>
    have hadmits := (measured_iff.2 hmeasure).admits
    rw [List.take_left] at hadmits
    have hblanks : ∀ e ∈ c :: u, Text.isBlank e := fun e he => (hadmits e he).1
    by_cases hline : LineEnd n
    · obtain ⟨v, rfl, hv, -⟩ := hn.of_isBlank hblanks
      rw [← List.singleton_append]
      refine h.trimmed hline (List.forall_mem_singleton.2 ⟨⟨_, rfl⟩, hblanks⟩) ?_ hv p
      exact List.cons_ne_nil c _
    · obtain rfl := hn.of_not_lineEnd (fun hmem => (hadmits _ hmem).2 rfl) hline
      exact h.blanks (List.cons_ne_nil c u) hblanks
  | lineComment =>
    obtain ⟨hw, hold⟩ := isLineComment_of_measure hmeasure
    have hline := hend (endsLine_of_lineEnd hold hspell)
    obtain ⟨w, d, v, hsplit, rfl, hd, hv, hafter⟩ := hn.of_piece (contains_or_notMem _) hline
    rw [hsplit] at hw ⊢
    exact h.lineComment hline hold (hw.of_append (List.all_eq_true.2 hd)) (hblank hd) (hreturn hv) hafter
  | blockComment =>
    have hw := isBlockComment_of_measure hmeasure
    obtain rfl := hn.eq_append (contains_or_notMem _) hw.last
    exact h.blockComment hw
  | directive =>
    obtain ⟨rfl, -⟩ := measure_directive hmeasure
    have hlength := (startsDirective_of_measure hmeasure).2.symm
    obtain ⟨w, d, v, rfl, rfl, hd, hv, hafter, hline, hold, hfirm⟩ := directive_left [] hspell hlength
      (List.forall_mem_singleton.2 (by decide)) (hloose rfl) hend hfinal hn
    rw [List.append_assoc, List.length_append] at hmeasure
    exact h.directive hline hold hmeasure hfirm hd hv hafter

end ReadsAs

namespace Written

variable {newline : List Char} {ps : List (LexemeKind × List Char)} {x : Shielded} {q : Bool} {p : Option Char}
  {t' n : List Char}

/--
What is left of written lexemes when line ends are normalized is read again, if no directive is loose.
-/
theorem readsAs (h : Written newline ps x) (hnewline : newline = ['\n'] ∨ newline = ['\r', '\n'])
    (hspell : spell q p (ps.flatMap Prod.snd) = some ps) (hloose : ∀ w, (.trivia .directive, w) ∈ ps → ¬isLoose w)
    (ht' : FinalEnd t') (hn : Trims x t' n) : ReadsAs q p ps n := by
  induction h generalizing p n with
  | nil =>
    cases hn
    exact .nil ht'.lineEnd fun e he => isBlank_of_isEndBlank (ht'.isEndBlank he)
  | @token kind w ps x h ih =>
    obtain ⟨s, hs, hn⟩ := Trims.append_iff.1 hn
    obtain ⟨c, u, rfl, hmeasure, hrest⟩ := spell_first hspell
    have hlast : ∀ e ∈ (c :: u).getLast?, LineEdit.isEndBlank e = false := by
      intro e he
      have hshown := (measured_iff.2 hmeasure).last (d := e) (by rwa [List.take_left])
      rw [← Bool.not_eq_true]
      intro hblank
      rw [isBlank_of_isEndBlank hblank] at hshown
      cases hshown
    obtain rfl := hn.eq_append (contains_or_notMem _) hlast
    exact (ih hrest (fun w hw => hloose w (List.mem_cons_of_mem _ hw)) hs).token hmeasure
  | @newline w ps x h ih =>
    obtain ⟨s, hs, hn⟩ := Trims.append_iff.1 hn
    obtain ⟨c, u, rfl, hmeasure, hrest⟩ := spell_first hspell
    have hw : c :: u = ['\n'] ∨ c :: u = ['\r', '\n'] := by
      have hadmits := (measured_iff.2 hmeasure).admits
      rwa [List.take_left] at hadmits
    have hlast : (c :: u).getLast? = some '\n' := by
      rcases hw with hw | hw <;> rw [hw] <;> rfl
    rw [hlast] at hrest
    have hread := ih hrest (fun w hw => hloose w (List.mem_cons_of_mem _ hw)) hs
    rcases hn.newline hnewline with rfl | ⟨rfl, hfinal⟩
    · exact hread.newline hw hnewline
    · have hblank : ∀ e ∈ c :: u, Text.isBlank e := by
        rcases hw with hw | hw <;> rw [hw] <;> exact List.all_eq_true.1 (by decide)
      rw [← List.singleton_append, ← List.nil_append n]
      refine hread.trimmed hfinal.lineEnd (List.forall_mem_singleton.2 ⟨⟨_, rfl⟩, hblank⟩) ?_ (by simp) p
      exact List.cons_ne_nil c _
  | @piece kind w ps x h hkind ih =>
    obtain ⟨s, hs, hn⟩ := Trims.append_iff.1 hn
    obtain ⟨c, u, rfl, hmeasure, hrest⟩ := spell_first hspell
    refine (ih hrest (fun w hw => hloose w (List.mem_cons_of_mem _ hw)) hs).piece hmeasure hrest hkind ?_
      (fun hps => h.lineEnd hnewline hps ht' hs) (fun hps => ?_) hn
    · rintro rfl
      exact hloose _ List.mem_cons_self
    · rw [h.of_nil hps] at hs
      cases hs
      exact ht'
  | @dropped bs ps x h hbs hps ih =>
    obtain ⟨p', hrest⟩ := spell_suffix hspell
    have hread := ih hrest (fun w hw => hloose w (List.mem_append_right _ hw)) hn
    by_cases hne : bs = []
    · rw [hne] at hspell ⊢
      exact ih hspell (fun w hw => hloose w (List.mem_append_right _ hw)) hn
    · rw [← List.nil_append n]
      exact hread.trimmed (h.lineEnd hnewline hps ht' hn) (isRoom_of_spell hspell hbs)
        (flatMap_ne_nil_of_spell hspell hne) (by simp) p
  | @respaced bs ps kind w v x h hbs hkind hsettled hv hne ih =>
    obtain ⟨s, hcomment, hgap⟩ := Trims.append_iff.1 hn
    obtain ⟨s', hs', hs⟩ := Trims.append_iff.1 hcomment
    obtain ⟨p', hafter⟩ := spell_suffix hspell
    obtain ⟨c, u, rfl, hmeasure, hrest⟩ := spell_first hafter
    have hread : ReadsAs q p' ((.trivia kind, c :: u) :: ps) s := by
      refine (ih hrest (fun w hw => hloose w ?_) hs').piece hmeasure hrest ?_ ?_
        (fun hps => h.lineEnd hnewline hps ht' hs') (fun hps => ?_) hs
      · exact List.mem_append_right _ (List.mem_cons_of_mem _ hw)
      · rcases hkind with rfl | rfl <;> decide
      · rcases hkind with rfl | rfl <;> nofun
      · rw [h.of_nil hps] at hs'
        cases hs'
        exact ht'
    obtain ⟨hstart, hc⟩ := comment_start hkind hmeasure hs
    have hdull : Dull (((.trivia kind, c :: u) :: ps).flatMap Prod.snd) := by
      rintro e ⟨⟩
      rcases hc with rfl | rfl
      · exact .inr rfl
      · exact .inl (by decide)
    have hgoes : ¬LineEnd s := by
      rcases hstart with ⟨r, rfl⟩ | ⟨r, rfl⟩ <;> rintro (hnil | ⟨r, hr⟩ | ⟨r, hr⟩) <;> cases ‹_ = _›
    have hnewline : '\n' ∉ v := fun hmem => absurd (hv _ hmem) (by decide)
    obtain rfl := hgap.of_not_lineEnd hnewline hgoes
    refine hread.respaced hstart hdull hsettled (isRoom_of_spell hspell hbs) (fun e he => ?_) hne p
    exact isBlank_of_isEndBlank (Bool.or_eq_true_iff.2 (.inl (Bool.or_eq_true_iff.2 (.inl (hv e he)))))

end Written

end Lexeme

end HaskellStyle
