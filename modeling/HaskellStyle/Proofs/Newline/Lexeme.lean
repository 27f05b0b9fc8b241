import HaskellStyle.Proofs.Fault
import HaskellStyle.Proofs.Newline.Text
import HaskellStyle.Proofs.Token.Cases
import HaskellStyle.Proofs.Token.Directive
import HaskellStyle.Proofs.Token.Marks
import HaskellStyle.Proofs.Token.Spell

/-!
This module contains the lexemes of a text with carriage returns before its line feeds. Names, numbers and operators
end before a line end of either form; what goes over line ends holds their carriage returns, too.
-/

namespace HaskellStyle

open Text (crlf crlfOffset)

namespace Lexeme

/--
A text up to its first line end, and the rest with a line end of either form.
-/
theorem exists_line (cs : List Char) :
    ∃ v s, cs = v ++ s ∧ crlf cs = v ++ crlf s ∧ '\n' ∉ v ∧ LineEnd s ∧ LineEnd (crlf s) := by
  have hline : '\n' ∉ cs.takeWhile (· ≠ '\n') := fun h => by simpa using List.all_eq_true.1 List.all_takeWhile _ h
  have hsplit : cs = cs.takeWhile (· ≠ '\n') ++ cs.dropWhile (· ≠ '\n') := List.takeWhile_append_dropWhile.symm
  refine ⟨cs.takeWhile (· ≠ '\n'), cs.dropWhile (· ≠ '\n'), hsplit, ?_, hline, ?_⟩
  · conv => lhs; rw [hsplit]
    rw [Text.crlf_append, Text.crlf_eq_self hline]
  · cases hdrop : cs.dropWhile (· ≠ '\n') with
    | nil => exact ⟨.inl rfl, .inl rfl⟩
    | cons d more =>
      have hhead := List.head?_dropWhile_not (· ≠ '\n') cs
      rw [hdrop] at hhead
      have hnewline : d = '\n' := by simpa using hhead
      subst hnewline
      exact ⟨.inr (.inl ⟨more, rfl⟩), .inr (.inr ⟨crlf more, rfl⟩)⟩

/--
What has no line end in it and does not end in a carriage return ends before the line end.
-/
theorem le_of_lineEnd {v s : List Char} {n : Nat} (hs : LineEnd s) (hn : n ≤ (v ++ s).length)
    (hnewline : '\n' ∉ (v ++ s).take n) (hreturn : ((v ++ s).take n).getLast? ≠ some '\r') : n ≤ v.length := by
  by_contra hlt
  obtain ⟨m, rfl⟩ : ∃ m, n = v.length + (m + 1) := ⟨n - v.length - 1, by omega⟩
  rw [List.take_length_add_append] at hnewline hreturn
  rcases hs with rfl | ⟨more, rfl⟩ | ⟨more, rfl⟩
  · simp at hn
  · simp at hnewline
  · cases m with
    | zero => simp at hreturn
    | succ m => simp at hnewline

theorem newline_notMem_take {v s : List Char} (hv : '\n' ∉ v) {n : Nat} (hn : n ≤ v.length) :
    '\n' ∉ (v ++ s).take n := by
  rw [List.take_append_of_le_length hn]
  exact fun h => hv (List.mem_of_mem_take h)

theorem crlfOffset_line {v s : List Char} (hv : '\n' ∉ v) {n : Nat} (hn : n ≤ v.length) :
    crlfOffset (v ++ s) n = n :=
  Text.crlfOffset_eq_self (newline_notMem_take hv hn)

theorem blanksLength_crlf {cs : List Char} (h : '\r' ∉ cs) : blanksLength (crlf cs) = blanksLength cs := by
  induction cs with
  | nil => rfl
  | cons c cs ih =>
    rw [List.mem_cons, not_or] at h
    by_cases hc : c = '\n'
    · subst hc
      rfl
    · have hother {cs : List Char} : blanksLength (c :: cs) = if c ≠ '\n' && Text.isBlank c then blanksLength cs + 1 else 0 := by
        rw [blanksLength]
        rintro cs rfl
        exact absurd rfl h.1
      rw [Text.crlf_cons hc, hother, hother, ih h.2]

theorem lineCommentLength_crlf {cs : List Char} (h : '\r' ∉ cs) :
    lineCommentLength (crlf cs) = lineCommentLength cs := by
  induction cs with
  | nil => rfl
  | cons c cs ih =>
    rw [List.mem_cons, not_or] at h
    by_cases hc : c = '\n'
    · subst hc
      rfl
    · have hother {cs : List Char} : lineCommentLength (c :: cs) = lineCommentLength cs + 1 := by
        rw [lineCommentLength]
        · rintro cs rfl
          exact absurd rfl h.1
        · rintro rfl
          exact absurd rfl hc
      rw [Text.crlf_cons hc, hother, hother, ih h.2]

theorem directiveLength_crlf {previous : Char} {cs : List Char} (h : '\r' ∉ cs) :
    directiveLength previous (crlf cs) = crlfOffset cs (directiveLength previous cs) := by
  induction cs generalizing previous with
  | nil => simp [directiveLength]
  | cons c cs ih =>
    rw [List.mem_cons, not_or] at h
    by_cases hc : c = '\n'
    · subst hc
      rw [Text.crlf_newline, directiveLength, directiveLength, ih h.2]
      split <;> simp
    · have hother {cs : List Char} : directiveLength previous (c :: cs) = directiveLength c cs + 1 := by
        rw [directiveLength]
        · rintro cs rfl
          exact absurd rfl h.1
        · rintro rfl
          exact absurd rfl hc
      rw [Text.crlf_cons hc, hother, hother, ih h.2, Text.crlfOffset_cons hc]

theorem startsDirective_crlf (cs : List Char) : startsDirective (crlf cs) = startsDirective cs := by
  unfold startsDirective
  dsimp only
  rw [Text.dropWhile_crlf (by decide), Text.takeWhile_crlf (by decide +kernel), Text.crlf_eq_self]
  intro h
  have hword := List.all_eq_true.1 List.all_takeWhile _ h
  revert hword
  decide +kernel

theorem find_crlf {part : List Char} (hnewline : '\n' ∉ part) (hreturn : '\r' ∉ part) (hpart : part ≠ [])
    (cs : List Char) : find part (crlf cs) = (find part cs).map (crlfOffset cs) := by
  have hskip (c : Char) (hc : c ∉ part) (cs : List Char) : find part (c :: cs) = (find part cs).map (· + 1) := by
    rw [find, if_neg]
    rw [List.isPrefixOf_iff_prefix]
    intro h
    obtain ⟨d, more, rfl⟩ := List.exists_cons_of_ne_nil hpart
    rw [List.cons_prefix_cons] at h
    exact hc (h.1 ▸ List.mem_cons_self)
  induction cs with
  | nil =>
    rw [Text.crlf_nil, find, if_neg (by simpa using hpart)]
    rfl
  | cons c cs ih =>
    by_cases hc : c = '\n'
    · subst hc
      rw [Text.crlf_newline, hskip _ hreturn, hskip _ hnewline, hskip _ hnewline, ih]
      cases find part cs <;> simp
    · rw [find, ← Text.isPrefixOf_crlf hnewline hreturn, Text.crlf_cons hc, find, ih]
      split
      · simp
      · cases find part cs <;> simp [Text.crlfOffset_cons hc]

theorem crlfOffset_find {part cs : List Char} {n : Nat} (hnewline : '\n' ∉ part) (h : find part cs = some n) :
    crlfOffset cs (n + part.length) = crlfOffset cs n + part.length := by
  obtain ⟨before, after, rfl, rfl⟩ := find_eq_some h
  rw [Text.crlfOffset_add, List.drop_left, crlfOffset_line hnewline (Nat.le_refl _)]

theorem blockCommentLength_cons {c : Char} (hopen : c ≠ '\x7b') (hclose : c ≠ '-') (depth : Nat) (cs : List Char) :
    blockCommentLength depth (c :: cs) = (blockCommentLength depth cs).map (· + 1) := by
  rw [blockCommentLength]
  · rintro cs rfl
    exact absurd rfl hopen
  · rintro cs rfl
    exact absurd rfl hclose

theorem blockCommentLength_crlf (depth : Nat) (cs : List Char) :
    blockCommentLength depth (crlf cs) = (blockCommentLength depth cs).map (crlfOffset cs) := by
  have hmap {cs : List Char} {n : Nat} (x : Option Nat) (f : Nat → Nat) (h : ∀ m, f (m + n) = crlfOffset cs m + n) :
      (x.map (crlfOffset cs)).map (· + n) = (x.map (· + n)).map f := by
    cases x <;> simp [h]
  fun_induction blockCommentLength depth cs with
  | case1 => rfl
  | case2 depth cs ih =>
    rw [Text.crlf_cons (by decide), Text.crlf_cons (by decide), blockCommentLength, ih]
    exact hmap _ _ fun m => by rw [Text.crlfOffset_cons (by decide), Text.crlfOffset_cons (by decide)]
  | case3 cs =>
    rw [Text.crlf_cons (by decide), Text.crlf_cons (by decide), blockCommentLength]
    simp [Text.crlfOffset_cons]
  | case4 cs depth ih =>
    rw [Text.crlf_cons (by decide), Text.crlf_cons (by decide), blockCommentLength, ih]
    exact hmap _ _ fun m => by rw [Text.crlfOffset_cons (by decide), Text.crlfOffset_cons (by decide)]
  | case5 depth c cs hopen hclose ih =>
    by_cases hc : c = '\n'
    · subst hc
      rw [Text.crlf_newline, blockCommentLength_cons (by decide) (by decide),
        blockCommentLength_cons (by decide) (by decide), ih]
      cases blockCommentLength depth cs <;> simp
    · -- What follows `c` begins with the same character, so `c` still begins no mark of a comment.
      have hhead {d : Char} {more : List Char} (hd : d ≠ '\r') (h : crlf cs = d :: more) : ∃ more, cs = d :: more := by
        cases cs with
        | nil => cases h
        | cons e cs =>
          by_cases he : e = '\n'
          · subst he
            rw [Text.crlf_newline, List.cons.injEq] at h
            exact absurd h.1.symm hd
          · rw [Text.crlf_cons he, List.cons.injEq] at h
            exact ⟨cs, by rw [h.1]⟩
      rw [Text.crlf_cons hc, blockCommentLength, ih]
      · exact hmap _ _ fun m => Text.crlfOffset_cons hc cs m
      · intro more hc' hmore
        obtain ⟨more, hmore⟩ := hhead (by decide) hmore
        exact hopen more hc' hmore
      · intro more hc' hmore
        obtain ⟨more, hmore⟩ := hhead (by decide) hmore
        exact hclose more hc' hmore

theorem stringLength_crlf (start offset : Nat) {state : StringState} (cs : List Char) (start' offset' : Nat)
    {state' : StringState} (hstate : state.Same state') :
    (stringLength start' offset' state' (crlf cs)).toOption
      = (stringLength start offset state cs).toOption.map (crlfOffset cs) := by
  have hnext {c : Char} (hc : c ≠ '\n') {cs : List Char} {x y : Except Failure Nat}
      (h : x.toOption = y.toOption.map (crlfOffset cs)) :
      (x.map (· + 1)).toOption = ((y.map (· + 1)).toOption).map (crlfOffset (c :: cs)) := by
    rw [toOption_map, toOption_map, h]
    cases y.toOption <;> simp [Text.crlfOffset_cons hc]
  have hskip {cs : List Char} {x y : Except Failure Nat} (h : x.toOption = y.toOption.map (crlfOffset cs)) :
      ((x.map (· + 1)).map (· + 1)).toOption = ((y.map (· + 1)).toOption).map (crlfOffset ('\n' :: cs)) := by
    rw [toOption_map, toOption_map, toOption_map, h]
    cases y.toOption <;> simp
  induction cs generalizing start offset state start' offset' state' with
  | nil => cases hstate <;> rfl
  | cons c cs ih =>
    by_cases hc : c = '\n'
    · -- A line end is an error among plain characters and belongs to a gap elsewhere.
      subst hc
      rw [Text.crlf_newline]
      cases hstate with
      | plain => rfl
      | escape b b' | gap b b' => exact hskip (ih _ _ _ _ (.gap b b'))
    · rw [Text.crlf_cons hc]
      cases hstate with
      | plain =>
        simp only [stringLength, hc, if_false]
        split
        · next hquote =>
          subst hquote
          simp [Text.crlfOffset_cons]
        · refine hnext hc (ih _ _ _ _ ?_)
          split
          · exact .escape _ _
          · exact .plain
      | escape b b' =>
        simp only [stringLength]
        refine hnext hc (ih _ _ _ _ ?_)
        split
        · exact .gap b b'
        · exact .plain
      | gap b b' =>
        simp only [stringLength]
        split
        · exact hnext hc (ih _ _ _ _ (.gap b b'))
        · split
          · exact hnext hc (ih _ _ _ _ .plain)
          · rfl

theorem newline_notMem_run {p : Char → Bool} (hp : p '\n' = false) (cs : List Char) :
    '\n' ∉ cs.take (runLength p cs) := by
  intro h
  rw [runLength, ← List.prefix_iff_eq_take.1 (List.takeWhile_prefix p)] at h
  rw [List.all_eq_true.1 List.all_takeWhile _ h] at hp
  cases hp

theorem newline_notMem_digitRun {p : Char → Bool} (hp : p '\n' = false) {cs : List Char} {n : Nat}
    (h : n ∈ digitRun p cs) : '\n' ∉ cs.take n := by
  unfold digitRun at h
  split at h
  · cases h
  · rw [List.mem_singleton.1 h]
    exact newline_notMem_run hp cs

/--
No escape goes over a line end.
-/
theorem newline_notMem_escape {cs : List Char} {n : Nat} (h : n ∈ escapeLengths cs) : '\n' ∉ cs.take n := by
  rw [escapeLengths_eq, List.mem_append, List.mem_append, List.mem_append] at h
  rcases h with ((h | h) | h) | h
  · unfold controlEscape at h
    split at h
    · split at h
      · cases h
      · next hc =>
        rw [List.mem_singleton.1 h]
        simpa using Ne.symm hc
    · cases h
  · unfold namedEscape at h
    split at h
    · rw [List.mem_singleton.1 h]
      exact newline_notMem_run (by decide) cs
    · cases h
  · unfold numberedEscape at h
    split at h
    · obtain ⟨m, hm, rfl⟩ := List.mem_map.1 h
      simpa using newline_notMem_digitRun (by decide) hm
    · obtain ⟨m, hm, rfl⟩ := List.mem_map.1 h
      simpa using newline_notMem_digitRun (by decide) hm
    · exact newline_notMem_digitRun (by decide) h
  · unfold singleEscape at h
    split at h
    · split at h
      · cases h
      · next hc =>
        rw [List.mem_singleton.1 h]
        simpa using Ne.symm hc
    · cases h

theorem newline_notMem_char {cs : List Char} {n : Nat} (h : charLength cs = some n) : '\n' ∉ cs.take n := by
  unfold charLength at h
  split at h
  · next cs =>
    obtain ⟨m, hm, rfl⟩ := Option.map_eq_some_iff.1 h
    have hescape := newline_notMem_escape (List.mem_of_find?_eq_some hm)
    have hquote := List.find?_some hm
    rw [decide_eq_true_eq] at hquote
    obtain ⟨after, hafter⟩ := List.head?_eq_some_iff.1 hquote
    have htake : cs.take (m + 1) = cs.take m ++ ['\''] := by
      rw [List.take_add, hafter]
      rfl
    rw [List.take_succ_cons, htake]
    simp [hescape]
  · split at h
    · cases h
    · next hor =>
      cases h
      have hne := (not_or.1 hor).2
      simp [Ne.symm hne]
  · cases h

theorem charLength_le_of_lineEnd {v s : List Char} {n : Nat} (hs : LineEnd s) (h : charLength (v ++ s) = some n) :
    n ≤ v.length := by
  have hends := endsIn_of_charLength h
  refine le_of_lineEnd hs hends.le (newline_notMem_char h) ?_
  rw [hends.getLast?]
  decide

theorem charLength_crlf (cs : List Char) : charLength (crlf cs) = charLength cs := by
  obtain ⟨v, s, rfl, hcrlf, -, hs, hs'⟩ := exists_line cs
  rw [hcrlf]
  ext n
  exact ⟨fun h => charLength_append h (charLength_le_of_lineEnd hs' h) hs.soft,
    fun h => charLength_append h (charLength_le_of_lineEnd hs h) hs'.soft⟩

theorem numberLength_crlf (c : Char) (cs : List Char) :
    numberLength c (crlf cs) = numberLength c cs ∧ '\n' ∉ cs.take (numberLength c cs).2 := by
  obtain ⟨v, s, rfl, hcrlf, hv, hs, hs'⟩ := exists_line cs
  have hle := numberLength_le_of_soft hs.soft c v
  rw [hcrlf]
  exact ⟨numberLength_of_soft hs'.soft hle, newline_notMem_take hv hle⟩

/--
The parts of a name are the same whatever soft text follows it.
-/
theorem qualifiedLength_of_soft {s y : List Char} (hs : Soft s) (hy : Soft y) ( qualified : Bool) (v : List Char) :
    qualifiedLength qualified (v ++ y) = qualifiedLength qualified (v ++ s) := by
  match v with
  | [] => rw [List.nil_append, List.nil_append, qualifiedLength_soft _ hs, qualifiedLength_soft _ hy]
  | [d] =>
    by_cases hd : d = '.'
    · subst hd
      rw [List.singleton_append, List.singleton_append, qualifiedLength_dot_soft _ hs, qualifiedLength_dot_soft _ hy]
    · rw [qualifiedLength_stop (by simp [hd]), qualifiedLength_stop (by simp [hd])]
  | d :: c :: v =>
    by_cases hd : d = '.'
    · subst hd
      have hident := runLength_le_of_soft isHard_isIdentChar hs v
      have hsymbol := runLength_le_of_soft isHard_isSymbol hs v
      rw [List.cons_append, List.cons_append, List.cons_append, List.cons_append, qualifiedLength_dot,
        qualifiedLength_dot, runLength_of_soft isHard_isIdentChar hy hident,
        runLength_of_soft isHard_isSymbol hy hsymbol]
      dsimp only
      rw [take_append_eq hident, take_append_eq hsymbol, List.drop_append_of_le_length hident,
        List.drop_append_of_le_length hident, qualifiedLength_of_soft hs hy]
    · rw [qualifiedLength_stop (by simp [hd]), qualifiedLength_stop (by simp [hd])]
termination_by v.length
decreasing_by simp only [List.length_drop, List.length_cons]; omega

theorem identifierLength_crlf (c : Char) (cs : List Char) :
    identifierLength c (crlf cs) = identifierLength c cs ∧ '\n' ∉ cs.take (identifierLength c cs).2 := by
  obtain ⟨v, s, rfl, hcrlf, hv, hs, hs'⟩ := exists_line cs
  have hle := identifierLength_le_of_soft hs.soft c v
  have hident := runLength_le_of_soft isHard_isIdentChar hs.soft v
  rw [hcrlf]
  refine ⟨?_, newline_notMem_take hv hle⟩
  unfold identifierLength
  rw [runLength_of_soft isHard_isIdentChar hs'.soft hident]
  dsimp only
  rw [take_append_eq hident, List.drop_append_of_le_length hident, List.drop_append_of_le_length hident,
    qualifiedLength_of_soft hs.soft hs'.soft]

theorem symbolLength_crlf (c : Char) {cs : List Char} (h : '\r' ∉ cs) :
    symbolLength c (crlf cs) = symbolLength c cs ∧ '\n' ∉ cs.take (symbolLength c cs).2 := by
  obtain ⟨v, s, rfl, hcrlf, hv, hs, hs'⟩ := exists_line cs
  have hsymbol := runLength_le_of_soft isHard_isSymbol hs.soft v
  constructor
  · unfold symbolLength
    dsimp only
    rw [lineCommentLength_crlf h, hcrlf, runLength_of_soft isHard_isSymbol hs'.soft hsymbol, take_append_eq hsymbol]
  · unfold symbolLength
    dsimp only
    split
    · exact newline_notMem_lineComment _
    · repeat' split
      all_goals exact newline_notMem_take hv hsymbol

theorem quoterLength_crlf (cs : List Char) :
    quoterLength (crlf cs) = quoterLength cs ∧ ∀ n ∈ quoterLength cs, '\n' ∉ cs.take n := by
  obtain ⟨v, s, rfl, hcrlf, hv, hs, hs'⟩ := exists_line cs
  rw [hcrlf]
  constructor
  · ext n
    exact ⟨fun h => quoterLength_append h (quoterLength_le_of_soft hs'.soft h) s,
      fun h => quoterLength_append h (quoterLength_le_of_soft hs.soft h) _⟩
  · exact fun n h => newline_notMem_take hv (quoterLength_le_of_soft hs.soft h)

theorem head?_crlf {d : Char} (hnewline : d ≠ '\n') (hreturn : d ≠ '\r') (cs : List Char) :
    (crlf cs).head? = some d ↔ cs.head? = some d := by
  cases cs with
  | nil => rfl
  | cons c cs =>
    by_cases hc : c = '\n'
    · subst hc
      simp [hnewline.symm, hreturn.symm]
    · simp [Text.crlf_cons hc]

/--
A lexeme other than a line end is the same, with carriage returns before its line feeds.
-/
theorem measure_crlf (q : Bool) (p : Option Char) (o o' : Nat) {c : Char} {cs : List Char} (hnewline : c ≠ '\n')
    (hreturn : c ≠ '\r') (hcs : '\r' ∉ cs) :
    (measure q p o' c (crlf cs)).toOption = (measure q p o c cs).toOption.map fun r => (r.1, crlfOffset cs r.2) := by
  have hmark := Text.isPrefixOf_crlf (show '\n' ∉ ['-', '#'] by decide) (by decide)
  have hhead : (crlf cs).head? = some '-' ↔ cs.head? = some '-' := head?_crlf (by decide) (by decide) cs
  have hdrop (n : Nat) (hn : '\n' ∉ cs.take n) : (crlf cs).drop n = crlf (cs.drop n) := by
    rw [← Text.drop_crlf, Text.crlfOffset_eq_self hn]
  have hfirst {d : Char} (hd : d ≠ '\n') (h : cs.head? = some d) : '\n' ∉ cs.take 1 := by
    obtain ⟨rest, rfl⟩ := List.head?_eq_some_iff.1 h
    simpa using hd.symm
  have hopen (h : ['-', '#'].isPrefixOf cs) : '\n' ∉ cs.take 2 := by
    obtain ⟨rest, rfl⟩ := List.isPrefixOf_iff_prefix.1 h
    simp
  generalize hr : measure q p o c cs = r
  rw [← measured_iff] at hr
  cases hr with
  | newline hc => exact absurd hc hnewline
  | carriageReturn hc => exact absurd hc hreturn
  | blanks hc =>
    rw [measured_iff.1 (.blanks hc hnewline fun h => hreturn h.1), blanksLength_crlf hcs]
    simp [Text.crlfOffset_eq_self (newline_notMem_blanks cs)]
  | directive hc hp hdirective =>
    rw [measured_iff.1 (.directive hc hp (by rwa [startsDirective_crlf])), directiveLength_crlf hcs]
    rfl
  | @pragma n hc hpragma hn =>
    have hn' := find_crlf (show '\n' ∉ ['#', '-', '\x7d'] by decide) (by decide) (by decide) (cs.drop 2)
    rw [← hdrop 2 (hopen hpragma), hn] at hn'
    rw [measured_iff.1 (.pragma hc (by rwa [hmark]) hn')]
    have hclose : crlfOffset (cs.drop 2) (n + 3) = crlfOffset (cs.drop 2) n + 3 := crlfOffset_find (by decide) hn
    have hlength : n + 5 = 2 + (n + 3) := by omega
    rw [hlength, toOption_ok, toOption_ok, Option.map_some, Text.crlfOffset_add,
      Text.crlfOffset_eq_self (hopen hpragma), hclose]
    simp only [Option.some.injEq, Prod.mk.injEq, true_and]
    omega
  | openPragma hc hpragma hn =>
    have hn' := find_crlf (show '\n' ∉ ['#', '-', '\x7d'] by decide) (by decide) (by decide) (cs.drop 2)
    rw [← hdrop 2 (hopen hpragma), hn] at hn'
    rw [measured_iff.1 (.openPragma hc (by rwa [hmark]) hn')]
    rfl
  | blockComment hc hcomment hpragma hn =>
    have hn' := blockCommentLength_crlf 0 (cs.drop 1)
    rw [← hdrop 1 (hfirst (by decide) hcomment), hn] at hn'
    rw [measured_iff.1 (.blockComment hc (by rwa [hhead]) (by rwa [hmark]) hn')]
    simp only [toOption_ok, Option.map_some, Nat.add_comm _ 1]
    rw [Text.crlfOffset_add, Text.crlfOffset_eq_self (hfirst (by decide) hcomment)]
  | openComment hc hcomment hpragma hn =>
    have hn' := blockCommentLength_crlf 0 (cs.drop 1)
    rw [← hdrop 1 (hfirst (by decide) hcomment), hn] at hn'
    rw [measured_iff.1 (.openComment hc (by rwa [hhead]) (by rwa [hmark]) hn')]
    rfl
  | string hc hn =>
    have hn' := stringLength_crlf o (o + 1) cs o' (o' + 1) .plain
    rw [hn] at hn'
    rw [measured_iff.1 (.string hc (toOption_eq_some hn'))]
    rfl
  | openString hc hf =>
    have hf' := stringLength_crlf o (o + 1) cs o' (o' + 1) .plain
    rw [hf] at hf'
    obtain ⟨f, hf'⟩ := toOption_eq_none.1 hf'
    rw [measured_iff.1 (.openString hc hf')]
    rfl
  | char hc hn =>
    rw [measured_iff.1 (.char hc (by rwa [charLength_crlf]))]
    simp [Text.crlfOffset_eq_self (newline_notMem_char hn)]
  | tick hc hn =>
    have hquote : (crlf cs).head? = some '\'' ↔ cs.head? = some '\'' := head?_crlf (by decide) (by decide) cs
    rw [measured_iff.1 (.tick hc (by rwa [charLength_crlf]))]
    simp only [hquote, toOption_ok, Option.map_some]
    split
    · next hquote => rw [Text.crlfOffset_eq_self (hfirst (by decide) hquote)]
    · rw [Text.crlfOffset_zero]
  | number hc =>
    obtain ⟨hlength, hline⟩ := numberLength_crlf c cs
    rw [measured_iff.1 (.number hc), hlength]
    simp [Text.crlfOffset_eq_self hline]
  | identifier hc hdigit =>
    obtain ⟨hlength, hline⟩ := identifierLength_crlf c cs
    rw [measured_iff.1 (.identifier hc hdigit), hlength]
    simp [Text.crlfOffset_eq_self hline]
  | @quasiQuote n m hc hq hn hm =>
    obtain ⟨hlength, hline⟩ := quoterLength_crlf cs
    have hm' := find_crlf (show '\n' ∉ ['|', ']'] by decide) (by decide) (by decide) (cs.drop n)
    rw [← hdrop n (hline n hn), hm] at hm'
    rw [measured_iff.1 (.quasiQuote hc hq (hlength.trans hn) hm')]
    have hclose : crlfOffset (cs.drop n) (m + 2) = crlfOffset (cs.drop n) m + 2 := crlfOffset_find (by decide) hm
    rw [toOption_ok, toOption_ok, Option.map_some, Nat.add_assoc, Nat.add_assoc, Text.crlfOffset_add,
      Text.crlfOffset_eq_self (hline n hn), hclose]
  | @openQuasiQuote n hc hq hn hm =>
    obtain ⟨hlength, hline⟩ := quoterLength_crlf cs
    have hm' := find_crlf (show '\n' ∉ ['|', ']'] by decide) (by decide) (by decide) (cs.drop n)
    rw [← hdrop n (hline n hn), hm] at hm'
    rw [measured_iff.1 (.openQuasiQuote hc hq (hlength.trans hn) hm')]
    rfl
  | special hc hcomment hquasi =>
    rw [measured_iff.1 (.special hc (by rwa [head?_crlf (by decide) (by decide)])
      fun hbracket hq => by rw [(quoterLength_crlf cs).1, hquasi hbracket hq])]
    simp
  | symbol hc hdigit hident hdirective =>
    obtain ⟨hlength, hline⟩ := symbolLength_crlf c hcs
    rw [measured_iff.1 (.symbol hc hdigit hident (by rwa [startsDirective_crlf])), hlength]
    simp [Text.crlfOffset_eq_self hline]
  | other hblank hstring hquote hdigit hident hspecial hsymbol =>
    rw [measured_iff.1 (.other hblank hstring hquote hdigit hident hspecial hsymbol)]
    simp

end Lexeme

/--
A position in a text with carriage returns: lines and columns are the same, and offsets are moved by `σ`.
-/
def Position.crlf (σ : Nat → Nat) (p : Position) : Position :=
  ⟨σ p.offset, p.line, p.column⟩

theorem Position.after_crlf {before : List Char} {σ : Nat → Nat} (h : σ before.length = (Text.crlf before).length) :
    Position.origin.after (Text.crlf before) = (Position.origin.after before).crlf σ := by
  have hoffset : (Position.origin.after (Text.crlf before)).offset = σ (Position.origin.after before).offset := by
    rw [offset_after, offset_after, Position.origin, Nat.zero_add, Nat.zero_add, h]
  have hline : (Position.origin.after (Text.crlf before)).line = (Position.origin.after before).line := by
    rw [line_after, line_after, Text.count_newline_crlf]
  have hcolumn : (Position.origin.after (Text.crlf before)).column = (Position.origin.after before).column := by
    rw [column_after, column_after, Text.visualWidth_crlf]
  exact Position.mk.injEq .. ▸ ⟨hoffset, hline, hcolumn⟩

namespace Lexeme

/--
A lexeme of a text with carriage returns.
-/
def crlf (σ : Nat → Nat) (l : Lexeme) : Lexeme :=
  ⟨l.kind, Text.crlfString l.text, l.position.crlf σ⟩

theorem scan_eq_none {q : Bool} {p : Option Char} {position : Position} {c : Char} {cs : List Char}
    (h : (measure q p position.offset c cs).toOption = none) : (scan q p position (c :: cs)).toOption = none := by
  obtain ⟨e, he⟩ := toOption_eq_none.1 h
  rw [scan, toOption_bind, he]
  rfl

/--
The lexemes of a text with carriage returns are those of the text without them. `before` is what stands before the
text.
-/
theorem scan_crlf (q : Bool) (p : Option Char) (before : List Char) {cs : List Char} (h : '\r' ∉ cs) :
    (scan q p (Position.origin.after (Text.crlf before)) (Text.crlf cs)).toOption
      = (scan q p (Position.origin.after before) cs).toOption.map
        (·.map (Lexeme.crlf (crlfOffset (before ++ cs)))) := by
  have hposition (rest : List Char) := Position.after_crlf (Text.crlfOffset_length before rest)
  match cs with
  | [] =>
    rw [Text.crlf_nil, scan, scan]
    rfl
  | c :: cs =>
    rw [List.mem_cons, not_or] at h
    by_cases hc : c = '\n'
    · subst hc
      have hnewline (o : Nat) : measure q p o '\n' cs = .ok (.trivia .newline, 0) := rfl
      have hreturn (o : Nat) : measure q p o '\r' ('\n' :: Text.crlf cs) = .ok (.trivia .newline, 1) := rfl
      have ih := scan_crlf q (some '\n') (before ++ ['\n']) h.2
      rw [Text.crlf_append, Position.after_append, Position.after_append, List.append_assoc] at ih
      rw [Text.crlf_newline, scan_cons (hreturn _), scan_cons (hnewline _), toOption_map, toOption_map]
      refine (congrArg _ ih).trans ?_
      rw [hposition ('\n' :: cs), Option.map_map, Option.map_map]
      congr 1
      funext ls
      simp [Lexeme.crlf]
    · have hmeasure := measure_crlf q p (Position.origin.after before).offset
        (Position.origin.after (Text.crlf before)).offset hc (Ne.symm h.1) h.2
      rw [Text.crlf_cons hc]
      cases hm : measure q p (Position.origin.after before).offset c cs with
      | error e =>
        rw [hm] at hmeasure
        rw [scan_eq_none hmeasure, scan_eq_none (by rw [hm]; rfl)]
        rfl
      | ok r =>
        obtain ⟨k, n⟩ := r
        rw [hm] at hmeasure
        have ih := scan_crlf q (c :: cs.take n).getLast? (before ++ c :: cs.take n)
          (show '\r' ∉ cs.drop n from fun hmem => h.2 (List.mem_of_mem_drop hmem))
        rw [Text.crlf_append, Position.after_append, Position.after_append, List.append_assoc, Text.crlf_cons hc,
          List.cons_append, List.take_append_drop] at ih
        have hlast : (c :: Text.crlf (cs.take n)).getLast? = (c :: cs.take n).getLast? := by
          rw [← Text.crlf_cons hc, Text.getLast?_crlf]
        rw [scan_cons (toOption_eq_some hmeasure), scan_cons hm, toOption_map, toOption_map]
        dsimp only
        rw [Text.take_crlf, Text.drop_crlf, hlast, ih, hposition]
        simp only [Option.map_map, ← Text.crlf_cons hc, ← Text.crlfString_ofList]
        congr 1
termination_by cs.length
decreasing_by all_goals simp only [List.length_drop, List.length_cons]; omega

theorem ofRest_other {q : Bool} {p : Option Char} {start : Position} {rest : List Char} (h : ¬['#', '!'] <+: rest) :
    ofRest q p start rest = scan q p start rest := by
  unfold ofRest
  split
  · exact absurd ⟨_, rfl⟩ h
  · rfl

/--
The interpreter line that a text begins with, up to its line end.
-/
def interpreterLine (more : List Char) : List Char :=
  '#' :: '!' :: more.take (directiveLength '!' more)

theorem ofRest_interpreter (q : Bool) (p : Option Char) (start : Position) (more : List Char) :
    ofRest q p start ('#' :: '!' :: more)
      = (scan q (interpreterLine more).getLast? (start.after (interpreterLine more))
          (more.drop (directiveLength '!' more))).map
        (⟨.trivia .directive, String.ofList (interpreterLine more), start⟩ :: ·) := rfl

theorem interpreterLine_crlf {more : List Char} (h : '\r' ∉ more) :
    interpreterLine (Text.crlf more) = Text.crlf (interpreterLine more) := by
  rw [interpreterLine, directiveLength_crlf h, Text.take_crlf]
  rfl

theorem ofRest_crlf (q : Bool) (p : Option Char) (before : List Char) {rest : List Char} (h : '\r' ∉ rest) :
    (ofRest q p (Position.origin.after (Text.crlf before)) (Text.crlf rest)).toOption
      = (ofRest q p (Position.origin.after before) rest).toOption.map
        (·.map (Lexeme.crlf (crlfOffset (before ++ rest)))) := by
  by_cases hbang : ['#', '!'] <+: rest
  · obtain ⟨more, rfl⟩ : ∃ more, rest = '#' :: '!' :: more := hbang.imp fun _ h => h.symm
    have hmore : '\r' ∉ more := fun hmem => h (by simp [hmem])
    have hrest : interpreterLine more ++ more.drop (directiveLength '!' more) = '#' :: '!' :: more := by
      simp [interpreterLine]
    have hcrlf : Text.crlf ('#' :: '!' :: more) = '#' :: '!' :: Text.crlf more := rfl
    have ih := scan_crlf q (interpreterLine more).getLast? (before ++ interpreterLine more)
      (show '\r' ∉ more.drop (directiveLength '!' more) from fun hmem => hmore (List.mem_of_mem_drop hmem))
    rw [Text.crlf_append, Position.after_append, Position.after_append, List.append_assoc, hrest,
      ← interpreterLine_crlf hmore, ← Text.drop_crlf, ← directiveLength_crlf hmore, ← Text.getLast?_crlf,
      ← interpreterLine_crlf hmore] at ih
    rw [hcrlf, ofRest_interpreter, ofRest_interpreter, toOption_map, toOption_map, ih,
      Position.after_crlf (Text.crlfOffset_length before ('#' :: '!' :: more)), Option.map_map, Option.map_map,
      interpreterLine_crlf hmore, Text.getLast?_crlf]
    congr 1
    funext ls
    simp [Lexeme.crlf, Text.crlfString_ofList]
  · rw [ofRest_other hbang, ofRest_other (by rwa [Text.prefix_crlf (by decide) (by decide)]), scan_crlf q p before h]

/--
The lexemes of a source text with carriage returns before its line feeds are those of the text without them.
-/
theorem ofText_crlf (q : Bool) {text : List Char} (h : '\r' ∉ text) :
    (ofText q (Text.crlf text)).toOption = (ofText q text).toOption.map (·.map (Lexeme.crlf (crlfOffset text))) := by
  have hmark : (Text.crlf text).head? = some '\ufeff' ↔ text.head? = some '\ufeff' :=
    head?_crlf (by decide) (by decide) text
  rw [ofText_eq, ofText_eq]
  simp only [hmark]
  split
  · next hhead =>
    obtain ⟨rest, rfl⟩ := List.head?_eq_some_iff.1 hhead
    have hrest := ofRest_crlf q (some '\ufeff') ['\ufeff'] (show '\r' ∉ rest from fun hmem => h (List.mem_cons_of_mem _ hmem))
    have hfirst : Text.crlf ['\ufeff'] = ['\ufeff'] := rfl
    rw [hfirst] at hrest
    rw [Text.crlf_cons (by decide), toOption_map, toOption_map]
    refine (congrArg _ hrest).trans ?_
    rw [Option.map_map, Option.map_map]
    congr 1
  · exact ofRest_crlf q none [] h

end Lexeme

end HaskellStyle
