import HaskellStyle.Proofs.Text.Trim
import HaskellStyle.Proofs.Token.Agree

/-!
This module contains line comments and directives, which reach up to the end of their line. They still do when blanks at
their end are dropped, unless that brings a backslash to the end of a directive, which then goes on on the next line.
-/

namespace HaskellStyle

namespace Lexeme

theorem lineEnd_of_lineCommentLength {u rest : List Char} (h : lineCommentLength (u ++ rest) = u.length) :
    LineEnd rest := by
  induction u with
  | nil =>
    cases rest with
    | nil => exact .inl rfl
    | cons c rest =>
      rw [List.nil_append, lineCommentLength_eq] at h
      split at h
      · next hreturn =>
        obtain ⟨rfl, hhead⟩ := hreturn
        obtain ⟨rest, rfl⟩ := List.head?_eq_some_iff.1 hhead
        exact .inr (.inr ⟨rest, rfl⟩)
      · split at h
        · next hnewline => exact .inr (.inl ⟨rest, by rw [hnewline]⟩)
        · cases h
  | cons c u ih =>
    rw [List.cons_append, lineCommentLength_eq, List.length_cons] at h
    repeat' split at h
    · cases h
    · cases h
    · exact ih (Nat.succ.inj h)

section

variable {q : Bool} {p : Option Char} {o : Nat} {c : Char} {u rest : List Char}

theorem isLineComment_of_measure (h : measure q p o c (u ++ rest) = .ok (.trivia .lineComment, u.length)) :
    IsLineComment (c :: u) ∧ LineEnd rest := by
  rw [← measured_iff] at h
  generalize hkind : LexemeKind.trivia .lineComment = k at h
  generalize hlength : u.length = n at h
  cases h with
  | symbol =>
    have hsymbol : symbolLength c (u ++ rest) = (.trivia .lineComment, u.length) := Prod.ext hkind.symm hlength.symm
    have hcomment := (symbolLength_lineComment hsymbol).2
    have hnewline := newline_notMem_lineComment (u ++ rest)
    rw [← hcomment, List.take_left] at hnewline
    refine ⟨?_, lineEnd_of_lineCommentLength hcomment.symm⟩
    have hdashes : isDashes (c :: (u ++ rest).take (runLength Text.isSymbol (u ++ rest))) := by
      unfold symbolLength at hsymbol
      dsimp only at hsymbol
      repeat' split at hsymbol
      all_goals first | assumption | cases hsymbol
    have hrun : runLength Text.isSymbol (u ++ rest) ≤ u.length :=
      hcomment ▸ runLength_le_lineCommentLength (u ++ rest)
    have hsame : u.take (runLength Text.isSymbol u) = (u ++ rest).take (runLength Text.isSymbol (u ++ rest)) := by
      have hcut := runLength_of_soft isHard_isSymbol soft_nil hrun
      rw [List.append_nil] at hcut
      rw [hcut, List.take_append_of_le_length hrun]
    obtain rfl : c = '-' := by
      have hall := (Bool.and_eq_true_iff.1 hdashes).2
      rw [List.all_cons, Bool.and_eq_true, beq_iff_eq] at hall
      exact hall.1
    exact ⟨u, rfl, hsame ▸ hdashes, hnewline⟩
  | _ => cases hkind

theorem isBlockComment_of_measure (h : measure q p o c (u ++ rest) = .ok (.trivia .blockComment, u.length)) :
    IsBlockComment (c :: u) := by
  rw [← measured_iff] at h
  generalize hkind : LexemeKind.trivia .blockComment = k at h
  generalize hlength : u.length = n at h
  cases h with
  | @blockComment n hc hcs hpragma hn =>
    subst hc
    have htwo := two_le_blockCommentLength hn
    obtain ⟨d, u, rfl⟩ := List.exists_cons_of_ne_nil (List.ne_nil_of_length_pos (by omega : 0 < u.length))
    obtain rfl : d = '-' := Option.some.inj hcs
    rw [List.cons_append, List.drop_succ_cons, List.drop_zero] at hn
    rw [List.length_cons, Nat.add_right_cancel_iff] at hlength
    refine ⟨u, rfl, fun hhead => hpragma ?_, ?_⟩
    · obtain ⟨r, rfl⟩ := List.head?_eq_some_iff.1 hhead
      rfl
    · have happend := blockCommentLength_append hn (Nat.le_of_eq hlength.symm) []
      rwa [List.append_nil, ← hlength] at happend
  | symbol => cases (symbolLength_lineComment (Prod.ext hkind.symm rfl)).1
  | _ => cases hkind

theorem startsDirective_of_measure {n : Nat} (h : measure q p o c rest = .ok (.trivia .directive, n)) :
    startsDirective rest ∧ n = directiveLength c rest := by
  rw [← measured_iff] at h
  generalize hkind : LexemeKind.trivia .directive = k at h
  cases h with
  | directive hc hp hcs => exact ⟨hcs, rfl⟩
  | symbol => cases (symbolLength_lineComment (Prod.ext hkind.symm rfl)).1
  | _ => cases hkind

end

/--
A directive ends at a line end that no backslash stands before, or at the end of the text.
-/
theorem directiveLength_stop {previous : Char} {u rest : List Char}
    (h : directiveLength previous (u ++ rest) = u.length) :
    rest = [] ∨ LineEnd rest ∧ (previous :: u).getLast? ≠ some '\\' := by
  match u with
  | [] =>
    cases rest with
    | nil => exact .inl rfl
    | cons c rest =>
      rw [List.nil_append, directiveLength_eq, List.length_nil] at h
      refine .inr ?_
      have hlast (hne : previous ≠ '\\') : [previous].getLast? ≠ some '\\' := by simpa using hne
      split at h
      · next hreturn =>
        obtain ⟨rfl, hhead⟩ := hreturn
        obtain ⟨rest, rfl⟩ := List.head?_eq_some_iff.1 hhead
        split at h
        · cases h
        · next hne => exact ⟨.inr (.inr ⟨rest, rfl⟩), hlast hne⟩
      · split at h
        · next hnewline =>
          subst hnewline
          split at h
          · cases h
          · next hne => exact ⟨.inr (.inl ⟨rest, rfl⟩), hlast hne⟩
        · cases h
  | c :: u =>
    rw [List.cons_append, directiveLength_eq, List.length_cons] at h
    rw [List.getLast?_cons_cons]
    split at h
    · next hreturn =>
      split at h
      · obtain ⟨d, u, rfl⟩ : ∃ d v, u = d :: v := by
          refine List.exists_cons_of_ne_nil fun hnil => ?_
          rw [hnil, List.length_nil] at h
          omega
        obtain rfl : d = '\n' := Option.some.inj hreturn.2
        rw [List.cons_append, List.drop_one, List.tail_cons, List.length_cons] at h
        rw [List.getLast?_cons_cons]
        exact directiveLength_stop (by omega)
      · cases h
    · split at h
      · next hnewline =>
        subst hnewline
        split at h
        · exact directiveLength_stop (Nat.succ.inj h)
        · cases h
      · exact directiveLength_stop (Nat.succ.inj h)
termination_by u.length

/--
A directive with no backslash before the blanks at its end reaches up to the first line end behind it. A carriage return
at its end can become part of the line end.
-/
theorem directiveLength_trim {previous : Char} {u d rest s : List Char}
    (h : directiveLength previous (u ++ (d ++ rest)) = u.length + d.length)
    (hfirm : ∀ x b, previous :: u = x ++ '\\' :: b → ¬∀ e ∈ b, LineEdit.isEndBlank e) (hs : LineEnd s) :
    ∃ x b, u = x ++ b ∧ (∀ e ∈ b, Text.isBlank e) ∧ directiveLength previous (u ++ s) = x.length := by
  have hne : previous ≠ '\\' ∨ u ≠ [] := by
    by_contra hnot
    simp only [not_or, not_not] at hnot
    obtain ⟨rfl, rfl⟩ := hnot
    exact hfirm [] [] rfl (by simp)
  match u with
  | [] =>
    refine ⟨[], [], rfl, by simp, ?_⟩
    have hne := hne.resolve_right fun h => h rfl
    obtain rfl | ⟨r, rfl⟩ | ⟨r, rfl⟩ := hs
    · rfl
    · rw [List.nil_append, directiveLength_eq, if_neg (by simp), if_pos rfl, if_neg hne]
      rfl
    · rw [List.nil_append, directiveLength_eq, if_pos ⟨rfl, rfl⟩, if_neg hne]
      rfl
  | c :: u =>
    have hfirm' : ∀ x b, c :: u = x ++ '\\' :: b → ¬∀ e ∈ b, LineEdit.isEndBlank e := fun x b heq =>
      hfirm (previous :: x) b (by rw [heq]; rfl)
    rw [List.cons_append, directiveLength_eq, List.length_cons] at h
    rw [List.cons_append, directiveLength_eq]
    by_cases hreturn : c = '\r' ∧ (u ++ (d ++ rest)).head? = some '\n'
    · rw [if_pos hreturn] at h
      split at h
      · next hbackslash =>
        obtain ⟨rfl, hhead⟩ := hreturn
        obtain ⟨e, u, rfl⟩ : ∃ e v, u = e :: v := by
          refine List.exists_cons_of_ne_nil fun hnil => ?_
          exact hfirm [] ['\r'] (by rw [hbackslash, hnil]; rfl) (List.forall_mem_singleton.2 (by decide))
        obtain rfl : e = '\n' := Option.some.inj hhead
        rw [List.cons_append, List.drop_one, List.tail_cons, List.length_cons] at h
        have hrest : directiveLength '\n' (u ++ (d ++ rest)) = u.length + d.length := by omega
        obtain ⟨x, b, rfl, hb, hlength⟩ := directiveLength_trim hrest
          (fun x b heq => hfirm' ('\r' :: x) b (by rw [heq]; rfl)) hs
        refine ⟨'\r' :: '\n' :: x, b, rfl, hb, ?_⟩
        rw [if_pos ⟨rfl, rfl⟩, if_pos hbackslash, List.cons_append, List.drop_one, List.tail_cons, hlength]
        rfl
      · omega
    · rw [if_neg hreturn] at h
      by_cases hnewline : c = '\n'
      · subst hnewline
        rw [if_pos rfl] at h
        split at h
        · next hbackslash =>
          have hrest : directiveLength '\n' (u ++ (d ++ rest)) = u.length + d.length := by omega
          obtain ⟨x, b, rfl, hb, hlength⟩ := directiveLength_trim hrest hfirm' hs
          refine ⟨'\n' :: x, b, rfl, hb, ?_⟩
          rw [if_neg (by simp), if_pos rfl, if_pos hbackslash, hlength]
          rfl
        · omega
      · rw [if_neg hnewline] at h
        by_cases hnew : c = '\r' ∧ (u ++ s).head? = some '\n'
        · obtain ⟨rfl, hhead⟩ := hnew
          obtain rfl : u = [] := by
            cases u with
            | nil => rfl
            | cons e u => exact absurd ⟨rfl, hhead⟩ hreturn
          have hne : previous ≠ '\\' := fun hbackslash =>
            hfirm [] ['\r'] (by rw [hbackslash]; rfl) (List.forall_mem_singleton.2 (by decide))
          refine ⟨[], ['\r'], rfl, List.forall_mem_singleton.2 (by decide), ?_⟩
          rw [if_pos ⟨rfl, hhead⟩, if_neg hne]
          rfl
        · have hrest : directiveLength c (u ++ (d ++ rest)) = u.length + d.length := by omega
          obtain ⟨x, b, rfl, hb, hlength⟩ := directiveLength_trim hrest hfirm' hs
          exact ⟨c :: x, b, rfl, hb, by rw [if_neg hnew, if_neg hnewline, hlength]; rfl⟩
termination_by u.length

/--
Of a directive at the end of a text, and a line end behind it, only blanks are left.
-/
theorem directiveLength_final {previous : Char} {u d s : List Char}
    (h : directiveLength previous (u ++ d) = u.length + d.length) (hs : FinalEnd s) :
    ∃ x b, u ++ s = x ++ b ∧ (∀ e ∈ b, Text.isBlank e) ∧ directiveLength previous (u ++ s) = x.length := by
  have hblank {s : List Char} (hs : FinalEnd s) : ∀ e ∈ s, Text.isBlank e :=
    fun e he => isBlank_of_isEndBlank (hs.isEndBlank he)
  match u with
  | [] =>
    by_cases hbackslash : previous = '\\'
    · refine ⟨s, [], (List.append_nil s).symm, by simp, ?_⟩
      obtain rfl | rfl | rfl := hs <;> rw [hbackslash] <;> rfl
    · refine ⟨[], s, rfl, hblank hs, ?_⟩
      obtain rfl | rfl | rfl := hs
      · rfl
      · rw [List.nil_append, directiveLength_eq, if_neg (by simp), if_pos rfl, if_neg hbackslash]
        rfl
      · rw [List.nil_append, directiveLength_eq, if_pos ⟨rfl, rfl⟩, if_neg hbackslash]
        rfl
  | c :: u =>
    have hcons {x b : List Char} (hx : u ++ s = x ++ b) (hb : ∀ e ∈ b, Text.isBlank e)
        (hlength : directiveLength previous (c :: (u ++ s)) = x.length + 1) :
        ∃ x b, c :: u ++ s = x ++ b ∧ (∀ e ∈ b, Text.isBlank e) ∧ directiveLength previous (c :: u ++ s) = x.length :=
      ⟨c :: x, b, congrArg (c :: ·) hx, hb, hlength⟩
    rw [List.cons_append, directiveLength_eq, List.length_cons] at h
    by_cases hreturn : c = '\r' ∧ (u ++ s).head? = some '\n'
    · obtain ⟨rfl, hhead⟩ := hreturn
      have hstep := directiveLength_eq previous '\r' (u ++ s)
      rw [if_pos ⟨rfl, hhead⟩] at hstep
      cases u with
      | nil =>
        obtain rfl : s = ['\n'] := by
          obtain rfl | rfl | rfl := hs
          · cases hhead
          · rfl
          · exact absurd (Option.some.inj hhead) (by decide)
        by_cases hbackslash : previous = '\\'
        · exact hcons (x := ['\n']) (b := []) rfl (by simp) (hstep.trans (by rw [if_pos hbackslash]; rfl))
        · exact ⟨[], ['\r', '\n'], rfl, List.all_eq_true.1 (by decide), hstep.trans (by rw [if_neg hbackslash]; rfl)⟩
      | cons e u =>
        obtain rfl : e = '\n' := Option.some.inj hhead
        rw [if_pos ⟨rfl, rfl⟩] at h
        split at h
        · next hbackslash =>
          rw [List.cons_append, List.drop_one, List.tail_cons, List.length_cons] at h
          have hrest : directiveLength '\n' (u ++ d) = u.length + d.length := by omega
          obtain ⟨x, b, hx, hb, hlength⟩ := directiveLength_final hrest hs
          refine hcons (x := '\n' :: x) (congrArg ('\n' :: ·) hx) hb (hstep.trans ?_)
          rw [if_pos hbackslash, List.cons_append, List.drop_one, List.tail_cons, hlength]
          rfl
        · omega
    · have hstep := directiveLength_eq previous c (u ++ s)
      rw [if_neg hreturn] at hstep
      by_cases hnewline : c = '\n'
      · subst hnewline
        rw [if_neg (by simp), if_pos rfl] at h
        rw [if_pos rfl] at hstep
        split at h
        · next hbackslash =>
          have hrest : directiveLength '\n' (u ++ d) = u.length + d.length := by omega
          obtain ⟨x, b, hx, hb, hlength⟩ := directiveLength_final hrest hs
          exact hcons hx hb (hstep.trans (by rw [if_pos hbackslash, hlength]))
        · omega
      · rw [if_neg hnewline] at h hstep
        split at h
        · next hold =>
          -- What was a line end in the directive is one no more.
          obtain ⟨rfl, hhead⟩ := hold
          obtain rfl : u = [] := by
            cases u with
            | nil => rfl
            | cons e u => exact absurd ⟨rfl, hhead⟩ hreturn
          refine hcons (x := []) (b := s) rfl (hblank hs) (hstep.trans ?_)
          obtain rfl | rfl | rfl := hs
          · rfl
          · exact absurd ⟨rfl, rfl⟩ hreturn
          · rfl
        · have hrest : directiveLength c (u ++ d) = u.length + d.length := by omega
          obtain ⟨x, b, hx, hb, hlength⟩ := directiveLength_final hrest hs
          exact hcons hx hb (hstep.trans (by rw [hlength]))
termination_by u.length

/--
The word of a directive is left if blanks are dropped at its end.
-/
theorem startsDirective_trim {u d rest s : List Char} (h : startsDirective (u ++ (d ++ rest)))
    (hd : ∀ e ∈ d, Text.isBlank e) (hrest : LineEnd rest) (hs : LineEnd s) : startsDirective (u ++ s) := by
  by_cases hshown : ∃ e ∈ u, e ≠ ' ' ∧ e ≠ '\t'
  · have hsoft : Soft (d ++ rest) := by
      cases d with
      | nil => exact hrest.soft
      | cons e d => exact soft_cons (Bool.or_eq_true_iff.2 (.inl (hd e List.mem_cons_self)))
    rwa [startsDirective_append hshown hsoft hs.soft]
  · -- Behind blanks alone there is no word.
    have hblank : ∀ e ∈ u ++ d, Text.isBlank e := by
      refine List.forall_mem_append.2 ⟨fun e he => ?_, hd⟩
      by_contra hnot
      refine hshown ⟨e, he, ?_, ?_⟩ <;> rintro rfl <;> exact hnot (by decide)
    rw [← List.append_assoc, startsDirective_blank hblank] at h
    · cases h
    · obtain rfl | ⟨r, rfl⟩ | ⟨r, rfl⟩ := hrest <;> rintro e ⟨⟩ <;> decide

end Lexeme

end HaskellStyle
