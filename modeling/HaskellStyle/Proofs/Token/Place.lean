import HaskellStyle.Proofs.Text.LineIndex
import HaskellStyle.Proofs.Token.Spell

/-!
This module contains where lexemes stand. They follow each other without gaps from the beginning of the text to
its end, and where a text cannot be cut into lexemes, something stands that is opened and not closed.
-/

namespace HaskellStyle

/--
The mark that a fault of lexing finds open.
-/
def Fault.opening : Fault → List Char
  | .unterminatedPragma => ['\x7b', '-', '#']
  | .unterminatedComment => ['\x7b', '-']
  | .unterminatedString => ['"']
  | .malformedGap => ['\\']
  | .unterminatedQuasiQuote => ['[']
  | _ => []

/--
The fault was found at a mark of the text that is opened and not closed.
-/
def Failure.Opens (f : Failure) (text : List Char) : Prop :=
  f.fault.opening ≠ [] ∧ f.fault.opening <+: text.drop f.offset

theorem Failure.Opens.lt {f : Failure} {text : List Char} (h : f.Opens text) : f.offset < text.length := by
  have hle := h.2.length_le
  have hpos := List.length_pos_iff.2 h.1
  rw [List.length_drop] at hle
  omega

/--
The spellings of the kinds of trivia. Comments and directives can be anything.
-/
def TriviaKind.Admits : TriviaKind → List Char → Prop
  | .blanks, cs => ∀ c ∈ cs, Text.isBlank c ∧ c ≠ '\n'
  | .newline, cs => cs = ['\n'] ∨ cs = ['\r', '\n']
  | .byteOrderMark, cs => cs = ['\ufeff']
  | .lineComment, _ | .blockComment, _ | .directive, _ => True

namespace Lexeme

/--
The characters of lexemes.
-/
def join (ls : List Lexeme) : List Char :=
  ls.flatMap (·.text.toList)

@[simp]
theorem join_nil : join [] = [] := rfl

@[simp]
theorem join_cons (l : Lexeme) (ls : List Lexeme) : join (l :: ls) = l.text.toList ++ join ls := rfl

@[simp]
theorem join_append (a b : List Lexeme) : join (a ++ b) = join a ++ join b :=
  List.flatMap_append

/--
What holds of every lexeme that is read: it is not empty, it is not the end of the text, a token does not begin or
end in a blank, and trivia is spelled as its kind says.
-/
structure Sound (l : Lexeme) : Prop where
  nonempty : l.text ≠ ""
  kind : l.kind ≠ .token .endOfText
  first : ∀ k, l.kind = .token k → ∀ c ∈ l.text.toList.head?, Text.isBlank c = false
  last : ∀ k, l.kind = .token k → ∀ c ∈ l.text.toList.getLast?, Text.isBlank c = false
  trivia : ∀ k, l.kind = .trivia k → k.Admits l.text.toList

/--
Each lexeme stands where the one before it ends, the first of them at `start`.
-/
def Tiled (start : Position) : List Lexeme → Prop
  | [] => True
  | l :: ls => l.position = start ∧ Tiled (start.after l.text.toList) ls

theorem Tiled.split {start : Position} {before after : List Lexeme} {l : Lexeme}
    (h : Tiled start (before ++ l :: after)) : l.position = start.after (join before) := by
  induction before generalizing start with
  | nil => exact h.1
  | cons first before ih => rw [ih h.2, join_cons, Position.after_append]

/--
The lexemes `ls` of a text `cs` that begins at `start`.
-/
structure Tiling (start : Position) (cs : List Char) (ls : List Lexeme) : Prop where
  join_eq : join ls = cs
  tiled : Tiled start ls
  sound : ∀ l ∈ ls, l.Sound

theorem Tiling.nil (start : Position) : Tiling start [] [] where
  join_eq := rfl
  tiled := trivial
  sound := by simp

theorem Tiling.cons {l : Lexeme} {w cs : List Char} {ls : List Lexeme} (hsound : l.Sound)
    (hw : l.text.toList = w) (h : Tiling (l.position.after w) cs ls) : Tiling l.position (w ++ cs) (l :: ls) where
  join_eq := by rw [join_cons, h.join_eq, hw]
  tiled := ⟨rfl, by rw [hw]; exact h.tiled⟩
  sound := List.forall_mem_cons.2 ⟨hsound, h.sound⟩

theorem Measured.ne_endOfText {q : Bool} {p : Option Char} {o : Nat} {c : Char} {cs : List Char} {n : Nat} :
    ¬Measured q p o c cs (.ok (.token .endOfText, n)) := by
  generalize hk : LexemeKind.token .endOfText = k
  intro h
  cases h with
  | number =>
    have hplain := isPlain_numberLength c cs
    rw [← LexemeKind.token.inj hk] at hplain
    cases hplain
  | identifier =>
    have hplain := isPlain_identifierLength c cs
    rw [← LexemeKind.token.inj hk] at hplain
    cases hplain
  | symbol => cases isPlain_symbolLength hk.symm
  | _ => cases hk

theorem ofList_cons_ne (c : Char) (cs : List Char) : String.ofList (c :: cs) ≠ "" := by
  intro h
  have := congrArg String.toList h
  rw [String.toList_ofList] at this
  cases this

theorem Measured.admits {q : Bool} {p : Option Char} {o : Nat} {c : Char} {cs : List Char} {k : TriviaKind} {n : Nat}
    (h : Measured q p o c cs (.ok (.trivia k, n))) : k.Admits (c :: cs.take n) := by
  generalize hkind : LexemeKind.trivia k = kind at h
  cases h with
  | newline hc =>
    cases hkind
    exact .inl (by rw [hc, List.take_zero])
  | carriageReturn hc hcs =>
    cases hkind
    obtain ⟨more, rfl⟩ := List.head?_eq_some_iff.1 hcs
    exact .inr (by rw [hc]; rfl)
  | blanks hc hnewline =>
    cases hkind
    exact List.forall_mem_cons.2 ⟨⟨hc, hnewline⟩, fun d => mem_take_blanksLength⟩
  | symbol =>
    obtain ⟨rfl, -⟩ := symbolLength_lineComment (Prod.ext hkind.symm rfl)
    exact trivial
  | directive | blockComment =>
    cases hkind
    exact trivial
  | _ => cases hkind

theorem Measured.sound {q : Bool} {p : Option Char} {o : Nat} {c : Char} {cs : List Char} {k : LexemeKind} {n : Nat}
    (h : Measured q p o c cs (.ok (k, n))) (position : Position) :
    Sound ⟨k, String.ofList (c :: cs.take n), position⟩ where
  nonempty := ofList_cons_ne c _
  kind := by
    rintro rfl
    exact ne_endOfText h
  first := by
    rintro k rfl d hd
    rw [String.toList_ofList, List.head?_cons, Option.mem_some_iff] at hd
    exact hd ▸ h.first
  last := by
    rintro k rfl d hd
    rw [String.toList_ofList] at hd
    exact h.last hd
  trivia := by
    rintro k rfl
    rw [String.toList_ofList]
    exact h.admits

theorem tiling_of_scan {q : Bool} {p : Option Char} {position : Position} {cs : List Char} {ls : List Lexeme}
    (h : scan q p position cs = .ok ls) : Tiling position cs ls := by
  match cs with
  | [] =>
    rw [scan] at h
    cases h
    exact Tiling.nil position
  | c :: cs =>
    cases hmeasure : measure q p position.offset c cs with
    | error e =>
      rw [scan] at h
      simp only [hmeasure, bind, Except.bind] at h
      cases h
    | ok r =>
      obtain ⟨k, n⟩ := r
      rw [scan_cons hmeasure] at h
      obtain ⟨others, hothers, rfl⟩ := map_eq_ok h
      have htiling := Tiling.cons ((measured_iff.2 hmeasure).sound position) String.toList_ofList
        (tiling_of_scan hothers)
      rwa [List.cons_append, List.take_append_drop] at htiling
termination_by cs.length
decreasing_by simp only [List.length_drop, List.length_cons]; omega

/--
The lexemes of the text behind a byte order mark, which can begin with an interpreter line.
-/
def ofRest (q : Bool) (previous : Option Char) (start : Position) (rest : List Char) :
    Except Failure (List Lexeme) :=
  match rest with
  | '#' :: '!' :: more =>
    let n := directiveLength '!' more + 1
    let line := rest.take (n + 1)
    (scan q line.getLast? (start.after line) (rest.drop (n + 1))).map
      (⟨.trivia .directive, String.ofList line, start⟩ :: ·)
  | _ => scan q previous start rest

theorem ofText_eq (q : Bool) (text : List Char) :
    ofText q text =
      if text.head? = some '\ufeff' then
        (ofRest q (some '\ufeff') (Position.origin.after ['\ufeff']) (text.drop 1)).map
          (⟨.trivia .byteOrderMark, String.singleton '\ufeff', .origin⟩ :: ·)
      else
        ofRest q none .origin text := by
  have hmap (x : Except Failure (List Lexeme)) (f : List Lexeme → List Lexeme) :
      (x >>= fun ls => pure (f ls)) = x.map f := by
    cases x <;> rfl
  have hmaps (x : Except Failure (List Lexeme)) (f g : List Lexeme → List Lexeme) :
      (x.map f).map g = x.map fun ls => g (f ls) := by
    cases x <;> rfl
  have hid (x : Except Failure (List Lexeme)) : (x.map fun ls => [] ++ ls) = x := by
    cases x <;> rfl
  unfold ofText
  by_cases hmark : text.head? = some '\ufeff'
  · obtain ⟨rest, rfl⟩ := List.head?_eq_some_iff.1 hmark
    simp only [List.head?_cons, if_true, List.take_succ_cons, List.take_zero, List.drop_succ_cons, List.drop_zero]
    split
    · rw [ofRest]
      exact (hmap _ _).trans (hmaps _ _ _).symm
    · next hne =>
      rw [ofRest]
      · exact hmap _ _
      · exact hne
  · simp only [hmark, if_false]
    split
    · rw [ofRest]
      exact hmap _ _
    · next hne =>
      rw [ofRest]
      · exact (hmap _ _).trans (hid _)
      · exact hne

theorem trivia_sound {k : TriviaKind} {text : String} (h : text ≠ "") (hadmits : k.Admits text.toList)
    (position : Position) : Sound ⟨.trivia k, text, position⟩ where
  nonempty := h
  kind := by simp
  first := by simp
  last := by simp
  trivia := by
    rintro k ⟨⟩
    exact hadmits

theorem tiling_of_ofRest {q : Bool} {p : Option Char} {start : Position} {rest : List Char} {ls : List Lexeme}
    (h : ofRest q p start rest = .ok ls) : Tiling start rest ls := by
  unfold ofRest at h
  split at h
  · obtain ⟨others, hothers, rfl⟩ := map_eq_ok h
    have htiling := Tiling.cons (trivia_sound (k := .directive) (ofList_cons_ne '#' _) trivial start) String.toList_ofList
      (tiling_of_scan hothers)
    rwa [List.cons_append, List.drop_succ_cons, List.take_append_drop] at htiling
  · exact tiling_of_scan h

theorem tiling_of_ofText {q : Bool} {text : List Char} {ls : List Lexeme} (h : ofText q text = .ok ls) :
    Tiling .origin text ls := by
  rw [ofText_eq] at h
  split at h
  · next hmark =>
    obtain ⟨rest, rfl⟩ := List.head?_eq_some_iff.1 hmark
    obtain ⟨others, hothers, rfl⟩ := map_eq_ok h
    have hadmits : TriviaKind.byteOrderMark.Admits (String.singleton '\ufeff').toList := String.toList_singleton _
    exact Tiling.cons (w := ['\ufeff']) (trivia_sound (by decide) hadmits .origin) (by decide)
      (tiling_of_ofRest hothers)
  · exact tiling_of_ofRest h

/--
The place of the backslash that a state knows.
-/
def StringState.backslash? : StringState → Option Nat
  | .plain => none
  | .escape backslash | .gap backslash => some backslash

theorem map_eq_error {ε α β : Type} {x : Except ε α} {f : α → β} {e : ε} (h : x.map f = .error e) :
    x = .error e := by
  cases x with
  | error e => cases h; rfl
  | ok a => cases h

theorem stringLength_eq_error {start offset : Nat} {state : StringState} {cs : List Char} {f : Failure}
    (h : stringLength start offset state cs = .error f) :
    f = ⟨.unterminatedString, start⟩ ∨ f.fault = .malformedGap
      ∧ (state.backslash? = some f.offset ∨ ∃ n, f.offset = offset + n ∧ ['\\'] <+: cs.drop n) := by
  -- A backslash behind the first character is one of the whole text, one place further on.
  have hlater {c : Char} {offset : Nat} {cs : List Char}
      (h : ∃ n, f.offset = offset + 1 + n ∧ ['\\'] <+: cs.drop n) :
      ∃ n, f.offset = offset + n ∧ ['\\'] <+: (c :: cs).drop n := by
    obtain ⟨n, hn, hcs⟩ := h
    exact ⟨n + 1, by omega, hcs⟩
  fun_induction stringLength start offset state cs with
  | case1 offset backslash =>
    cases h
    exact .inr ⟨rfl, .inl rfl⟩
  | case2 =>
    cases h
    exact .inl rfl
  | case3 => cases h
  | case4 =>
    cases h
    exact .inl rfl
  | case5 offset c cs hquote hline state ih =>
    rcases ih (map_eq_error h) with hs | ⟨hfault, hbackslash | hcs⟩
    · exact .inl hs
    · refine .inr ⟨hfault, .inr ⟨0, ?_, ?_⟩⟩
      all_goals
        simp only [state] at hbackslash
        split at hbackslash
        · next hc =>
          cases hbackslash
          simp [hc]
        · cases hbackslash
    · exact .inr ⟨hfault, .inr (hlater hcs)⟩
  | case6 offset backslash c cs state ih =>
    rcases ih (map_eq_error h) with hs | ⟨hfault, hbackslash | hcs⟩
    · exact .inl hs
    · refine .inr ⟨hfault, .inl ?_⟩
      simp only [state] at hbackslash
      split at hbackslash
      · exact hbackslash
      · cases hbackslash
    · exact .inr ⟨hfault, .inr (hlater hcs)⟩
  | case7 offset backslash c cs hgap ih =>
    rcases ih (map_eq_error h) with hs | ⟨hfault, hbackslash | hcs⟩
    · exact .inl hs
    · exact .inr ⟨hfault, .inl hbackslash⟩
    · exact .inr ⟨hfault, .inr (hlater hcs)⟩
  | case8 offset backslash cs hgap ih =>
    rcases ih (map_eq_error h) with hs | ⟨hfault, hbackslash | hcs⟩
    · exact .inl hs
    · cases hbackslash
    · exact .inr ⟨hfault, .inr (hlater hcs)⟩
  | case9 =>
    cases h
    exact .inr ⟨rfl, .inl rfl⟩

/--
What cannot be measured begins at an open mark or has one in it.
-/
theorem measure_eq_error {q : Bool} {p : Option Char} {offset : Nat} {c : Char} {cs : List Char} {f : Failure}
    (h : measure q p offset c cs = .error f) :
    ∃ n, f.offset = offset + n ∧ f.fault.opening ≠ [] ∧ f.fault.opening <+: (c :: cs).drop n := by
  rw [← measured_iff] at h
  cases h with
  | openPragma hc hcs =>
    obtain ⟨rest, rfl⟩ := List.isPrefixOf_iff_prefix.1 hcs
    exact ⟨0, rfl, by simp [Fault.opening], rest, by rw [hc]; rfl⟩
  | openComment hc hcs =>
    obtain ⟨rest, rfl⟩ := List.head?_eq_some_iff.1 hcs
    exact ⟨0, rfl, by simp [Fault.opening], rest, by rw [hc]; rfl⟩
  | openString hc hf =>
    rcases stringLength_eq_error hf with rfl | ⟨hfault, hbackslash | ⟨n, hn, hcs⟩⟩
    · exact ⟨0, rfl, by simp [Fault.opening], cs, by rw [hc]; rfl⟩
    · cases hbackslash
    · exact ⟨n + 1, by omega, by simp [hfault, Fault.opening], by rw [hfault]; exact hcs⟩
  | openQuasiQuote hc => exact ⟨0, rfl, by simp [Fault.opening], cs, by rw [hc]; rfl⟩

theorem scan_eq_error {q : Bool} {p : Option Char} {position : Position} {cs : List Char} {f : Failure}
    (h : scan q p position cs = .error f) :
    ∃ n, f.offset = position.offset + n ∧ f.fault.opening ≠ [] ∧ f.fault.opening <+: cs.drop n := by
  match cs with
  | [] =>
    rw [scan] at h
    cases h
  | c :: cs =>
    cases hmeasure : measure q p position.offset c cs with
    | error e =>
      rw [scan] at h
      simp only [hmeasure, bind, Except.bind] at h
      cases h
      exact measure_eq_error hmeasure
    | ok r =>
      obtain ⟨k, n⟩ := r
      rw [scan_cons hmeasure] at h
      obtain ⟨m, hm, hne, hprefix⟩ := scan_eq_error (map_eq_error h)
      have hle := (measured_iff.2 hmeasure).le
      refine ⟨n + 1 + m, ?_, hne, ?_⟩
      · rw [hm, Position.offset_after, List.length_cons, List.length_take]
        omega
      · rw [List.drop_drop] at hprefix
        rwa [show n + 1 + m = n + m + 1 by omega, List.drop_succ_cons]
termination_by cs.length
decreasing_by simp only [List.length_drop, List.length_cons]; omega

theorem ofRest_eq_error {q : Bool} {p : Option Char} {start : Position} {rest : List Char} {f : Failure}
    (h : ofRest q p start rest = .error f) :
    ∃ n, f.offset = start.offset + n ∧ f.fault.opening ≠ [] ∧ f.fault.opening <+: rest.drop n := by
  unfold ofRest at h
  split at h
  · next more =>
    obtain ⟨m, hm, hne, hprefix⟩ := scan_eq_error (map_eq_error h)
    have hle := directiveLength_le '!' more
    refine ⟨directiveLength '!' more + 1 + 1 + m, ?_, hne, ?_⟩
    · rw [hm, Position.offset_after, List.length_take, List.length_cons, List.length_cons]
      omega
    · rwa [List.drop_drop] at hprefix
  · exact scan_eq_error h

/--
A text that cannot be cut into lexemes has an open mark where it fails.
-/
theorem opens_of_ofText {q : Bool} {text : List Char} {f : Failure} (h : ofText q text = .error f) :
    f.Opens text := by
  rw [ofText_eq] at h
  split at h
  · obtain ⟨n, hn, hne, hprefix⟩ := ofRest_eq_error (map_eq_error h)
    rw [List.drop_drop] at hprefix
    exact ⟨hne, hn ▸ hprefix⟩
  · obtain ⟨n, hn, hne, hprefix⟩ := ofRest_eq_error h
    rw [show n = f.offset by rw [hn]; exact (Nat.zero_add n).symm] at hprefix
    exact ⟨hne, hprefix⟩

end Lexeme

end HaskellStyle
