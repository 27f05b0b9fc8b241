import HaskellStyle.Proofs.Text.Trim

/-!
This module contains when a piece of text can be written behind another one. Every piece asks something of
what follows it: a token asks for a character that does not go on with it, a line comment for a line end.
-/

namespace HaskellStyle

variable {μ : Type} {v : View μ} {q : Bool}

/--
A text that does not begin with a number sign, so that no line that begins with it is a directive.
-/
def Calm (t : List Char) : Prop :=
  t.head? ≠ some '#'

theorem Lexeme.Soft.calm {t : List Char} (h : Lexeme.Soft t) : Calm t :=
  h.head?_ne

theorem LineEnd.calm {t : List Char} (h : LineEnd t) : Calm t :=
  h.soft.calm

/--
The text `x` meets what `A` asks, shows `ms`, and asks `B` of what follows it, however it is trimmed.
-/
def Fits (v : View μ) (q : Bool) (A : List Char → Prop) (x : Shielded) (ms : Multiset μ)
    (B : List Char → Prop) : Prop :=
  ∀ t' t, Trims x t' t → B t' → A t ∧ v.marks q t = (v.marks q t').map (ms + ·)

namespace Fits

variable {A B C : List Char → Prop} {x y : Shielded} {ms ms' : Multiset μ}

theorem nil (h : ∀ t, B t → A t) : Fits v q A [] 0 B := by
  intro t' t hxt ht'
  cases hxt
  exact ⟨h _ ht', by rw [View.zero_add_map]⟩

theorem append (hx : Fits v q A x ms B) (hy : Fits v q B y ms' C) : Fits v q A (x ++ y) (ms + ms') C := by
  intro t'' t h ht''
  obtain ⟨t', hyt, hxt⟩ := Trims.append_iff.1 h
  obtain ⟨hB, hmarks'⟩ := hy t'' t' hyt ht''
  obtain ⟨hA, hmarks⟩ := hx t' t hxt hB
  refine ⟨hA, ?_⟩
  rw [hmarks, hmarks', Option.map_map]
  congr 1
  funext rest
  exact (add_assoc ms ms' rest).symm

theorem mono {A' B' : List Char → Prop} (h : Fits v q A x ms B) (hA : ∀ t, A t → A' t)
    (hB : ∀ t, B' t → B t) : Fits v q A' x ms B' := by
  intro t' t hxt ht'
  obtain ⟨ht, hmarks⟩ := h t' t hxt (hB t' ht')
  exact ⟨hA t ht, hmarks⟩

end Fits

/--
What is left of blanks are blanks, and a line end follows them if nothing is left.
-/
theorem Trims.of_isBlank {cs : List Char} {shield : Bool} {t' t : List Char}
    (h : Trims (.ofText shield cs) t' t) (hcs : ∀ c ∈ cs, Text.isBlank c) :
    ∃ u, t = u ++ t' ∧ (∀ c ∈ u, Text.isBlank c) ∧ (u = [] → cs = [] ∨ LineEnd t') := by
  induction cs generalizing t with
  | nil =>
    cases h
    exact ⟨[], rfl, by simp, fun _ => .inl rfl⟩
  | cons c cs ih =>
    have hcs' : ∀ c ∈ cs, Text.isBlank c := fun d hd => hcs d (List.mem_cons_of_mem c hd)
    cases h with
    | keep h hc =>
      obtain ⟨u, rfl, hu, -⟩ := ih h hcs'
      refine ⟨c :: u, rfl, ?_, fun h => by cases h⟩
      intro d hd
      rcases List.mem_cons.1 hd with rfl | hd
      · exact hcs d List.mem_cons_self
      · exact hu d hd
    | drop h hc hend =>
      obtain ⟨u, rfl, hu, -⟩ := ih h hcs'
      refine ⟨u, rfl, hu, ?_⟩
      rintro rfl
      right
      rcases hend with hend | ⟨-, -, hend⟩
      · exact hend.lineEnd
      · exact hend

theorem Lexeme.IsBlockComment.last {w : List Char} (hw : IsBlockComment w) :
    ∀ c ∈ w.getLast?, LineEdit.isEndBlank c = false := by
  obtain ⟨u, rfl, -, hu⟩ := hw
  intro c hc
  have hends := (endsIn_of_blockCommentLength hu).getLast?
  rw [List.take_length] at hends
  rw [List.getLast?_cons, List.getLast?_cons, hends] at hc
  cases hc
  decide

namespace Fits

theorem soft_of_isBlank {u t : List Char} (hu : ∀ c ∈ u, Text.isBlank c) (h : u = [] → Lexeme.Soft t) :
    Lexeme.Soft (u ++ t) := by
  cases u with
  | nil => exact h rfl
  | cons c u => exact Lexeme.soft_cons (Bool.or_eq_true_iff.2 (.inl (hu c List.mem_cons_self)))

theorem calm_of_isBlank {u t : List Char} (hu : ∀ c ∈ u, Text.isBlank c) (h : Calm t) : Calm (u ++ t) := by
  cases u with
  | nil => exact h
  | cons c u =>
    intro hc
    cases hc
    exact absurd (hu '#' List.mem_cons_self) (by decide)

/--
Blanks can be written where anything calm can.
-/
theorem blanks {cs : List Char} (hcs : ∀ c ∈ cs, Text.isBlank c) (shield : Bool) :
    Fits v q Calm (.ofText shield cs) 0 Calm := by
  intro t' t h ht'
  obtain ⟨u, rfl, hu, -⟩ := h.of_isBlank hcs
  refine ⟨calm_of_isBlank hu ht', ?_⟩
  rw [View.marks_append_of_isBlank hu ht', View.zero_add_map]

/--
Blanks behind a token are followed by anything soft.
-/
theorem softBlanks {cs : List Char} (hcs : ∀ c ∈ cs, Text.isBlank c) (shield : Bool) :
    Fits v q Lexeme.Soft (.ofText shield cs) 0 Lexeme.Soft := by
  intro t' t h ht'
  obtain ⟨u, rfl, hu, -⟩ := h.of_isBlank hcs
  refine ⟨soft_of_isBlank hu fun _ => ht', ?_⟩
  rw [View.marks_append_of_isBlank hu ht'.calm, View.zero_add_map]

/--
At least one blank separates a token from anything calm.
-/
theorem separator {cs : List Char} (hcs : ∀ c ∈ cs, Text.isBlank c) (hne : cs ≠ []) (shield : Bool) :
    Fits v q Lexeme.Soft (.ofText shield cs) 0 Calm := by
  intro t' t h ht'
  obtain ⟨u, rfl, hu, hempty⟩ := h.of_isBlank hcs
  refine ⟨soft_of_isBlank hu fun hnil => ((hempty hnil).resolve_left hne).soft, ?_⟩
  rw [View.marks_append_of_isBlank hu ht', View.zero_add_map]

/--
A line end can be written behind anything.
-/
theorem newline {cs : List Char} (hcs : cs = ['\n'] ∨ cs = ['\r', '\n']) (shield : Bool) :
    Fits v q LineEnd (.ofText shield cs) 0 Calm := by
  have hblank : ∀ c ∈ cs, Text.isBlank c := by
    rcases hcs with rfl | rfl <;> exact List.all_eq_true.1 (by decide)
  intro t' t h ht'
  refine ⟨?_, ?_⟩
  · have hlast {t : List Char} (h : Trims (.ofText shield ['\n']) t' t) : LineEnd t ∧ (FinalEnd t ∨ t = '\n' :: t') := by
      cases h with
      | keep h hc =>
        cases h
        exact ⟨.inr (.inl ⟨_, rfl⟩), .inr rfl⟩
      | drop h hc hend =>
        cases h
        have hend : FinalEnd t' := hend.resolve_right fun h => absurd h.1 (by decide)
        exact ⟨hend.lineEnd, .inl hend⟩
    rcases hcs with rfl | rfl
    · exact (hlast h).1
    · cases h with
      | keep h hc =>
        have hnot := hc (by decide)
        rcases (hlast h).2 with hend | rfl
        · exact absurd hend hnot
        · exact .inr (.inr ⟨_, rfl⟩)
      | drop h hc hend => exact (hlast h).1
  · obtain ⟨u, rfl, hu, -⟩ := h.of_isBlank hblank
    rw [View.marks_append_of_isBlank hu ht', View.zero_add_map]

theorem soft_brace (t : List Char) : Lexeme.Soft ('\x7b' :: t) :=
  Lexeme.soft_cons (by decide)

/--
A block comment can be written behind a token, and anything calm behind it.
-/
theorem blockComment {w : List Char} (hw : Lexeme.IsBlockComment w) {shield : Bool}
    (hshield : shield ∨ '\n' ∉ w) :
    Fits v q Lexeme.Soft (.ofText shield w) (v.see (.trivia .blockComment) w) Calm := by
  intro t' t h ht'
  have heq := h.eq_append hshield hw.last
  subst heq
  refine ⟨?_, View.marks_blockComment hw ht'⟩
  obtain ⟨u, rfl, -, -⟩ := hw
  exact soft_brace _

end Fits

/--
Before a line end, the blanks at the end of a line can be dropped. A carriage return at the end can stay when
blanks before it go.
-/
theorem Trims.of_lineEnd {cs : List Char} {shield : Bool} {t' t : List Char}
    (h : Trims (.ofText shield cs) t' t) (hcs : '\n' ∉ cs) (ht' : LineEnd t') :
    ∃ u blanks s, cs = u ++ blanks ∧ t = u ++ s ∧ blanks.all LineEdit.isEndBlank ∧ LineEnd s
      ∧ (s = t' ∨ s = '\r' :: t') := by
  induction cs generalizing t with
  | nil =>
    cases h
    exact ⟨[], [], t', rfl, rfl, rfl, ht', .inl rfl⟩
  | cons c cs ih =>
    have hcs' : '\n' ∉ cs := fun h => hcs (List.mem_cons_of_mem c h)
    cases h with
    | keep h hc =>
      obtain ⟨u, blanks, s, rfl, rfl, hblanks, hs, hst⟩ := ih h hcs'
      exact ⟨c :: u, blanks, s, rfl, rfl, hblanks, hs, hst⟩
    | drop h hc hend =>
      obtain ⟨u, blanks, s, rfl, rfl, hblanks, hs, hst⟩ := ih h hcs'
      have hend : LineEnd (u ++ s) := hend.elim FinalEnd.lineEnd fun h => h.2.2
      match u with
      | [] =>
        refine ⟨[], c :: blanks, s, rfl, rfl, ?_, hs, hst⟩
        rw [List.all_cons, hc, hblanks]
        rfl
      | d :: u =>
        -- The line end behind the blank begins with a carriage return that was kept.
        have hd : d ≠ '\n' := fun hd => hcs' (hd ▸ List.mem_cons_self)
        obtain hnil | ⟨r, hr⟩ | ⟨r, hr⟩ := hend
        · cases hnil
        · exact absurd (List.cons.inj hr).1 hd
        · simp only [List.cons_append, List.cons.injEq] at hr
          obtain ⟨rfl, hr⟩ := hr
          cases u with
          | cons e u =>
            simp only [List.cons_append, List.cons.injEq] at hr
            exact absurd (by simp [hr.1]) hcs'
          | nil =>
            rw [List.nil_append] at hr
            subst hr
            have heq : t' = '\n' :: r := by
              rcases hst with h | h
              · exact h.symm
              · cases h
            refine ⟨[], c :: '\r' :: blanks, '\r' :: '\n' :: r, rfl, rfl, ?_, .inr (.inr ⟨r, rfl⟩), .inr ?_⟩
            · rw [List.all_cons, List.all_cons, hc, hblanks]
              decide
            · rw [heq]

/--
A line comment without blanks at its end is a line comment.
-/
theorem Lexeme.IsLineComment.of_append {u blanks : List Char} (h : IsLineComment (u ++ blanks))
    (hblanks : blanks.all LineEdit.isEndBlank) : IsLineComment u := by
  obtain ⟨w, heq, hdashes, hw⟩ := h
  cases u with
  | nil =>
    rw [List.nil_append] at heq
    subst heq
    exact absurd hblanks (by simp [LineEdit.isEndBlank, LineEdit.isLineBlank])
  | cons c u =>
    simp only [List.cons_append, List.cons.injEq] at heq
    obtain ⟨rfl, rfl⟩ := heq
    have hsoft : Soft blanks := by
      intro d hd
      have hmem := List.mem_of_head? hd
      exact Bool.or_eq_true_iff.2 (.inl (isBlank_of_isEndBlank (List.all_eq_true.1 hblanks d hmem)))
    have hrun : runLength Text.isSymbol (u ++ blanks) = runLength Text.isSymbol u := by
      unfold runLength
      rw [takeWhile_of_soft isHard_isSymbol hsoft]
    rw [hrun, List.take_append_of_le_length (runLength_le _ u)] at hdashes
    exact ⟨u, rfl, hdashes, fun hmem => hw (List.mem_append_left _ hmem)⟩

namespace Fits

/--
A line comment asks for a line end.
-/
theorem lineComment {w : List Char} (hw : Lexeme.IsLineComment w) (shield : Bool) :
    Fits v q Calm (.ofText shield w) (v.see (.trivia .lineComment) w) LineEnd := by
  intro t' t h ht'
  have hnewline : '\n' ∉ w := by
    obtain ⟨u, rfl, -, hu⟩ := hw
    intro hmem
    rcases List.mem_cons.1 hmem with h | h
    · exact absurd h (by decide)
    · exact hu h
  obtain ⟨u, blanks, s, rfl, rfl, hblanks, hs, hst⟩ := h.of_lineEnd hnewline ht'
  have hu := hw.of_append hblanks
  have hmarks : v.marks q s = v.marks q t' := by
    rcases hst with rfl | rfl
    · rfl
    · exact View.marks_blank (by decide) ht'.calm
  refine ⟨?_, ?_⟩
  · obtain ⟨w, rfl, -, -⟩ := hu
    intro h
    exact absurd (Option.some.inj h) (by decide)
  · rw [View.marks_lineComment hu hs, hmarks, v.see_lineComment u blanks hblanks]

end Fits

end HaskellStyle
