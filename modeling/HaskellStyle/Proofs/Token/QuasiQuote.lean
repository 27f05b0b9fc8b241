import HaskellStyle.Proofs.Text.Words
import HaskellStyle.Proofs.Token.Gap
import HaskellStyle.Token.Attach

/-!
This module contains that quasi-quotes are turned on or not however wide the blanks of the text are.
-/

namespace HaskellStyle

namespace Text

/--
How many characters stand between two fields does not matter where empty fields do not count.
-/
theorem any_fields_gap {p : Char → Bool} {f : List Char → Bool} (hf : f [] = false) {gap : List Char}
    (hgap : ∀ c ∈ gap, p c) (hne : gap ≠ []) (cs ds : List Char) :
    (fields p (cs ++ (gap ++ ds))).any f = ((fields p cs).any f || (fields p ds).any f) := by
  have hblank (gap : List Char) (hgap : ∀ c ∈ gap, p c) : (fields p (gap ++ ds)).any f = (fields p ds).any f := by
    induction gap with
    | nil => rfl
    | cons c gap ih =>
      rw [List.forall_mem_cons] at hgap
      rw [List.cons_append, fields, if_pos hgap.1, List.any_cons, hf, Bool.false_or, ih hgap.2]
  obtain ⟨c, gap, rfl⟩ := List.exists_cons_of_ne_nil hne
  rw [List.forall_mem_cons] at hgap
  rw [List.cons_append, fields_append_cons hgap.1, List.any_append, hblank gap hgap.2]

end Text

/--
Blanks that are not empty.
-/
structure Text.IsGap (gap : List Char) : Prop where
  isBlank : ∀ c ∈ gap, Text.isBlank c
  nonempty : gap ≠ []

namespace Text.IsGap

variable {gap : List Char}

theorem of_all (hne : gap ≠ []) (hblank : gap.all Text.isBlank) : IsGap gap :=
  ⟨List.all_eq_true.1 hblank, hne⟩

theorem isSoft (h : IsGap gap) {c : Char} (hc : c ∈ gap) : Lexeme.isSoft c := by
  rw [Lexeme.isSoft, h.isBlank c hc, Bool.true_or]

theorem soft (h : IsGap gap) (cs : List Char) : Lexeme.Soft (gap ++ cs) := by
  obtain ⟨c, gap, rfl⟩ := List.exists_cons_of_ne_nil h.nonempty
  exact Lexeme.soft_cons (h.isSoft List.mem_cons_self)

theorem not_isWordChar (h : IsGap gap) {c : Char} (hc : c ∈ gap) : isWordChar c = false :=
  Lexeme.isHard_isWordChar c (h.isSoft hc)

/--
Characters without a blank end before a gap.
-/
theorem ne_take (h : IsGap gap) {word : List Char} (hword : ∀ c ∈ word, Text.isBlank c = false) {cs : List Char}
    {n : Nat} (hn : cs.length < n) (ds : List Char) : (cs ++ (gap ++ ds)).take n ≠ word := by
  rintro rfl
  obtain ⟨c, gap, rfl⟩ := List.exists_cons_of_ne_nil h.nonempty
  obtain ⟨k, rfl⟩ := Nat.exists_eq_add_of_lt hn
  rw [Nat.add_assoc, List.take_length_add_append, List.cons_append, List.take_succ_cons] at hword
  have hblank := hword c (List.mem_append_right _ List.mem_cons_self)
  rw [h.isBlank c List.mem_cons_self] at hblank
  cases hblank

end Text.IsGap

namespace TokenStream

/--
Whether a list of extensions, which ends at a number sign, has the one for quasi-quotes.
-/
def listsQuasiQuotes (cs : List Char) : Bool :=
  (Text.fields (fun c => !Text.isWordChar c) (cs.takeWhile (· ≠ '#'))).any namesQuasiQuotes

variable {gap gap' : List Char}

/--
A list of extensions ends at its number sign.
-/
theorem listsQuasiQuotes_append_of_mem {cs : List Char} (hcs : '#' ∈ cs) (ds : List Char) :
    listsQuasiQuotes (cs ++ ds) = listsQuasiQuotes cs := by
  have hstop : (cs ++ ds).takeWhile (· ≠ '#') = cs.takeWhile (· ≠ '#') := by
    rw [List.takeWhile_append, if_neg]
    intro hlength
    have hall := (List.takeWhile_prefix (· ≠ '#')).eq_of_length hlength
    exact of_decide_eq_true (List.takeWhile_eq_self_iff.1 hall '#' hcs) rfl
  rw [listsQuasiQuotes, listsQuasiQuotes, hstop]

theorem forall_ne_of_notMem {cs : List Char} (hcs : '#' ∉ cs) : ∀ c ∈ cs, decide (c ≠ '#') :=
  fun _ hc => decide_eq_true fun heq => hcs (heq ▸ hc)

/--
No word goes over a gap.
-/
theorem listsQuasiQuotes_append_gap (h : Text.IsGap gap) {cs : List Char} (hcs : '#' ∉ cs) (ds : List Char) :
    listsQuasiQuotes (cs ++ (gap ++ ds))
      = ((Text.fields (fun c => !Text.isWordChar c) cs).any namesQuasiQuotes || listsQuasiQuotes ds) := by
  rw [listsQuasiQuotes, List.takeWhile_append_of_pos (forall_ne_of_notMem hcs), List.takeWhile_append_of_pos]
  · exact Text.any_fields_gap (by decide) (fun c hc => by rw [h.not_isWordChar hc]; rfl) h.nonempty cs _
  · exact forall_ne_of_notMem fun hmem => absurd (h.isBlank _ hmem) (by decide)

theorem listsQuasiQuotes_gap (h : Text.IsGap gap) (h' : Text.IsGap gap') (cs ds : List Char) :
    listsQuasiQuotes (cs ++ (gap ++ ds)) = listsQuasiQuotes (cs ++ (gap' ++ ds)) := by
  by_cases hcs : '#' ∈ cs
  · rw [listsQuasiQuotes_append_of_mem hcs, listsQuasiQuotes_append_of_mem hcs]
  · rw [listsQuasiQuotes_append_gap h hcs, listsQuasiQuotes_append_gap h' hcs]

/--
A text that begins with a comment or is empty, so that no word and no mark in front of it goes on in it.
-/
def Parts (ds : List Char) : Prop :=
  ds = [] ∨ (∃ r, ds = '-' :: '-' :: r) ∨ ∃ r, ds = '\x7b' :: r

/--
A gap can be put before a comment.
-/
theorem listsQuasiQuotes_insert (h : Text.IsGap gap) {ds : List Char} (hds : Parts ds) (cs : List Char) :
    listsQuasiQuotes (cs ++ (gap ++ ds)) = listsQuasiQuotes (cs ++ ds) := by
  by_cases hcs : '#' ∈ cs
  · rw [listsQuasiQuotes_append_of_mem hcs, listsQuasiQuotes_append_of_mem hcs]
  · have hmark {d : Char} (hd : Text.isWordChar d = false) (hne : d ≠ '#') (r : List Char) :
        listsQuasiQuotes (cs ++ d :: r)
          = ((Text.fields (fun c => !Text.isWordChar c) cs).any namesQuasiQuotes || listsQuasiQuotes (d :: r)) := by
      have htake : (d :: r).takeWhile (· ≠ '#') = d :: r.takeWhile (· ≠ '#') :=
        List.takeWhile_cons_of_pos (decide_eq_true hne)
      rw [listsQuasiQuotes, listsQuasiQuotes, List.takeWhile_append_of_pos (forall_ne_of_notMem hcs), htake,
        Text.fields_append_cons (by rw [hd]; rfl), List.any_append, Text.fields, if_pos (by rw [hd]; rfl)]
      rfl
    rw [listsQuasiQuotes_append_gap h hcs]
    obtain rfl | ⟨r, rfl⟩ | ⟨r, rfl⟩ := hds
    · have htake : cs.takeWhile (· ≠ '#') = cs := List.takeWhile_eq_self_iff.2 (forall_ne_of_notMem hcs)
      rw [List.append_nil, show listsQuasiQuotes [] = false from rfl, Bool.or_false, listsQuasiQuotes, htake]
    · exact (hmark (by decide) (by decide) _).symm
    · exact (hmark (by decide) (by decide) _).symm

theorem opensWithQuasiQuotes_eq (text : List Char) :
    opensWithQuasiQuotes text =
      if ['\x7b', '-', '#'].isPrefixOf text then
        let rest := (text.drop 3).dropWhile Text.isBlank
        (rest.take 8).map Char.toLower == "language".toList && !((rest.drop 8).head?.any Text.isWordChar)
          && listsQuasiQuotes (rest.drop 8)
      else
        false := rfl

/--
A text in which no word in front of it goes on.
-/
def Stops (a : List Char) : Prop :=
  ∀ c ∈ a.head?, Text.isWordChar c = false ∧ c.toLower ∉ "language".toList

theorem stops_of_soft {a : List Char} (h : Lexeme.Soft a) : Stops a := by
  intro c hc
  have hletters : Lexeme.softChars.all fun c => c.toLower ∉ "language".toList := by decide +kernel
  exact ⟨Lexeme.isHard_isWordChar c (h c hc),
    of_decide_eq_true (List.all_eq_true.1 hletters c (Lexeme.mem_softChars (h c hc)))⟩

theorem Parts.stops {ds : List Char} (h : Parts ds) : Stops ds := by
  obtain rfl | ⟨r, rfl⟩ | ⟨r, rfl⟩ := h
  · exact stops_of_soft Lexeme.soft_nil
  · rintro c ⟨⟩
    decide
  · exact stops_of_soft (Lexeme.soft_cons (by decide))

theorem Stops.any_head? {a : List Char} (h : Stops a) (cs : List Char) :
    (cs ++ a).head?.any Text.isWordChar = cs.head?.any Text.isWordChar := by
  cases cs with
  | nil =>
    cases a with
    | nil => rfl
    | cons c a => exact (h c rfl).1
  | cons c cs => rfl

theorem Stops.ne_language {a : List Char} (h : Stops a) {cs : List Char} (hshort : cs.length < 8) :
    (((cs ++ a).take 8).map Char.toLower == "language".toList) = false := by
  rw [beq_eq_false_iff_ne]
  intro hword
  cases a with
  | nil =>
    have hlength := congrArg List.length hword
    rw [List.append_nil, List.length_map, List.length_take, show "language".toList.length = 8 from rfl] at hlength
    omega
  | cons c a =>
    refine (h c rfl).2 (hword ▸ List.mem_map_of_mem ?_)
    obtain ⟨n, hn⟩ := Nat.exists_eq_add_of_lt hshort
    rw [hn, Nat.add_assoc, List.take_length_add_append, List.take_succ_cons]
    exact List.mem_append_right _ List.mem_cons_self

/--
Whether a text opens with a pragma for quasi-quotes is the same behind two texts that show the same up to words.
-/
theorem opensWithQuasiQuotes_congr {cs a b : List Char} (ha : Stops a) (hb : Stops b)
    (hopen : cs.length < 3 → ¬['\x7b', '-', '#'].isPrefixOf (cs ++ a) ∧ ¬['\x7b', '-', '#'].isPrefixOf (cs ++ b))
    (hblank : a.dropWhile Text.isBlank = b.dropWhile Text.isBlank)
    (hlists : ∀ cs, listsQuasiQuotes (cs ++ a) = listsQuasiQuotes (cs ++ b)) :
    opensWithQuasiQuotes (cs ++ a) = opensWithQuasiQuotes (cs ++ b) := by
  rw [opensWithQuasiQuotes_eq, opensWithQuasiQuotes_eq]
  by_cases hshort : cs.length < 3
  · rw [if_neg (hopen hshort).1, if_neg (hopen hshort).2]
  rw [Lexeme.isPrefixOf_append (Nat.not_lt.1 hshort), Lexeme.isPrefixOf_append (Nat.not_lt.1 hshort),
    List.drop_append_of_le_length (Nat.not_lt.1 hshort), List.drop_append_of_le_length (Nat.not_lt.1 hshort)]
  split
  · dsimp only
    rw [List.dropWhile_append, List.dropWhile_append, hblank]
    split
    · rfl
    · generalize (cs.drop 3).dropWhile Text.isBlank = cs
      by_cases hshort : cs.length < 8
      · rw [ha.ne_language hshort, hb.ne_language hshort, Bool.false_and, Bool.false_and, Bool.false_and, Bool.false_and]
      · rw [List.take_append_of_le_length (Nat.not_lt.1 hshort), List.take_append_of_le_length (Nat.not_lt.1 hshort),
          List.drop_append_of_le_length (Nat.not_lt.1 hshort), List.drop_append_of_le_length (Nat.not_lt.1 hshort),
          ha.any_head?, hb.any_head?, hlists]
  · rfl

/--
A gap cannot stand inside of the opening of a pragma.
-/
theorem not_isPrefixOf_gap (h : Text.IsGap gap) {cs : List Char} (hshort : cs.length < 3) (ds : List Char) :
    ¬['\x7b', '-', '#'].isPrefixOf (cs ++ (gap ++ ds)) := by
  rw [List.isPrefixOf_iff_prefix, List.prefix_iff_eq_take]
  have hmarks : ['\x7b', '-', '#'].all fun c => !Text.isBlank c := by decide +kernel
  exact (h.ne_take (fun c hc => by simpa using List.all_eq_true.1 hmarks c hc) hshort ds).symm

/--
Whether a text opens with a pragma for quasi-quotes does not depend on the width of blanks in it.
-/
theorem opensWithQuasiQuotes_gap (h : Text.IsGap gap) (h' : Text.IsGap gap') (cs ds : List Char) :
    opensWithQuasiQuotes (cs ++ (gap ++ ds)) = opensWithQuasiQuotes (cs ++ (gap' ++ ds)) := by
  refine opensWithQuasiQuotes_congr (stops_of_soft (h.soft ds)) (stops_of_soft (h'.soft ds))
    (fun hshort => ⟨not_isPrefixOf_gap h hshort ds, not_isPrefixOf_gap h' hshort ds⟩) ?_
    fun cs => listsQuasiQuotes_gap h h' cs ds
  rw [List.dropWhile_append_of_pos h.isBlank, List.dropWhile_append_of_pos h'.isBlank]

/--
A gap can be put before a comment that something stands before.
-/
theorem opensWithQuasiQuotes_insert (h : Text.IsGap gap) {ds : List Char} (hds : Parts ds) {cs : List Char}
    (hne : cs ≠ []) : opensWithQuasiQuotes (cs ++ (gap ++ ds)) = opensWithQuasiQuotes (cs ++ ds) := by
  have hopens (hshort : cs.length < 3) : ¬['\x7b', '-', '#'].isPrefixOf (cs ++ ds) := by
    rw [List.isPrefixOf_iff_prefix]
    rintro ⟨r, hr⟩
    match cs with
    | [c] => obtain rfl | ⟨r, rfl⟩ | ⟨r, rfl⟩ := hds <;> cases hr
    | [c, d] => obtain rfl | ⟨r, rfl⟩ | ⟨r, rfl⟩ := hds <;> cases hr
  refine opensWithQuasiQuotes_congr (stops_of_soft (h.soft ds)) hds.stops
    (fun hshort => ⟨not_isPrefixOf_gap h hshort ds, hopens hshort⟩) ?_ fun cs => listsQuasiQuotes_insert h hds cs
  rw [List.dropWhile_append_of_pos h.isBlank]

/--
No pragma begins with a blank.
-/
theorem quasiQuotesEnabled_blank {gap : List Char} (hblank : ∀ c ∈ gap, Text.isBlank c) (ds : List Char) :
    quasiQuotesEnabled (gap ++ ds) = quasiQuotesEnabled ds := by
  induction gap with
  | nil => rfl
  | cons c gap ih =>
    rw [List.forall_mem_cons] at hblank
    have hopens : opensWithQuasiQuotes (c :: (gap ++ ds)) = false := by
      rw [opensWithQuasiQuotes, if_neg]
      intro hopen
      obtain ⟨rest, hrest⟩ := List.isPrefixOf_iff_prefix.1 hopen
      rw [← (List.cons.inj hrest).1] at hblank
      exact absurd hblank.1 (by decide)
    rw [List.cons_append, quasiQuotesEnabled, hopens, ih hblank.2, Bool.false_or]

/--
Whether a text turns quasi-quotes on does not depend on the width of blanks in it.
-/
theorem quasiQuotesEnabled_gap (h : Text.IsGap gap) (h' : Text.IsGap gap') (cs ds : List Char) :
    quasiQuotesEnabled (cs ++ (gap ++ ds)) = quasiQuotesEnabled (cs ++ (gap' ++ ds)) := by
  induction cs with
  | nil => rw [List.nil_append, List.nil_append, quasiQuotesEnabled_blank h.isBlank, quasiQuotesEnabled_blank h'.isBlank]
  | cons c cs ih =>
    rw [List.cons_append, List.cons_append, quasiQuotesEnabled, quasiQuotesEnabled, ih, ← List.cons_append,
      opensWithQuasiQuotes_gap h h', List.cons_append]

/--
Whether a text turns quasi-quotes on does not depend on a gap before a comment or at the end.
-/
theorem quasiQuotesEnabled_insert (h : Text.IsGap gap) {ds : List Char} (hds : Parts ds) (cs : List Char) :
    quasiQuotesEnabled (cs ++ (gap ++ ds)) = quasiQuotesEnabled (cs ++ ds) := by
  induction cs with
  | nil => exact quasiQuotesEnabled_blank h.isBlank ds
  | cons c cs ih =>
    rw [List.cons_append, List.cons_append, quasiQuotesEnabled, quasiQuotesEnabled, ih, ← List.cons_append,
      opensWithQuasiQuotes_insert h hds (List.cons_ne_nil c cs), List.cons_append]

end TokenStream

end HaskellStyle
