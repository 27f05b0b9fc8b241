import HaskellStyle.Text.Blank
import Mathlib.Data.List.Chain
import Mathlib.Data.List.TakeWhile

/-!
This module contains the pieces of a text between marks and its words. Main results: words with one blank between them
are the words of what they make up, and a text with one blank between its words is made up of them.
-/

namespace HaskellStyle.Text

theorem fields_eq_splitOnP (p : Char → Bool) (cs : List Char) : fields p cs = cs.splitOnP p := by
  induction cs with
  | nil => rw [List.splitOnP_nil, fields]
  | cons c cs ih =>
    rw [fields, List.splitOnP_cons_eq_if_modifyHead, ih]
    split
    · rfl
    · cases hpieces : cs.splitOnP p with
      | nil => exact absurd hpieces (List.splitOnP_ne_nil p cs)
      | cons piece more => rfl

theorem fields_ne_nil (p : Char → Bool) (cs : List Char) : fields p cs ≠ [] := by
  rw [fields_eq_splitOnP]
  exact List.splitOnP_ne_nil p cs

theorem fields_append_cons {p : Char → Bool} {c : Char} (hc : p c) (cs ds : List Char) :
    fields p (cs ++ c :: ds) = fields p cs ++ fields p ds := by
  rw [fields_eq_splitOnP, List.splitOnP_append_cons cs ds hc, fields_eq_splitOnP, fields_eq_splitOnP]

/--
A text without the characters at which texts are cut is one piece.
-/
theorem fields_eq_singleton {p : Char → Bool} {cs : List Char} (h : ∀ c ∈ cs, p c = false) : fields p cs = [cs] := by
  rw [fields_eq_splitOnP, List.splitOnP_eq_singleton h]

/--
Pieces with the character between them at which a text is cut are its pieces.
-/
theorem fields_intercalate {c : Char} {pieces : List (List Char)} (h : ∀ piece ∈ pieces, c ∉ piece) (hne : pieces ≠ []) :
    fields (· == c) ([c].intercalate pieces) = pieces := by
  rw [fields_eq_splitOnP]
  exact List.splitOn_intercalate c h hne

/--
The first piece of a text begins it, the others are parts of it, and no piece has a character at which the text
is cut.
-/
theorem fields_cases (p : Char → Bool) (cs : List Char) :
    ∃ first more, fields p cs = first :: more ∧ first <+: cs ∧ (∀ field ∈ more, field <:+: cs)
      ∧ ∀ field ∈ first :: more, ∀ c ∈ field, p c = false := by
  induction cs with
  | nil => exact ⟨[], [], rfl, List.nil_prefix, by simp, by simp⟩
  | cons c cs ih =>
    obtain ⟨first, more, heq, hfirst, hmore, hnone⟩ := ih
    have hinfix {field : List Char} (h : field <:+: cs) : field <:+: c :: cs := h.trans (List.suffix_cons c cs).isInfix
    rw [fields, heq]
    split
    · refine ⟨[], first :: more, rfl, List.nil_prefix, ?_, ?_⟩
      · intro field hfield
        rcases List.mem_cons.1 hfield with rfl | hfield
        · exact hinfix hfirst.isInfix
        · exact hinfix (hmore field hfield)
      · intro field hfield d hd
        rcases List.mem_cons.1 hfield with rfl | hfield
        · cases hd
        · exact hnone field hfield d hd
    · next hc =>
      refine ⟨c :: first, more, rfl, (List.cons_prefix_cons).2 ⟨rfl, hfirst⟩, fun field hfield => hinfix (hmore field hfield), ?_⟩
      intro field hfield d hd
      rcases List.mem_cons.1 hfield with rfl | hfield
      · rcases List.mem_cons.1 hd with rfl | hd
        · simpa using hc
        · exact hnone first List.mem_cons_self d hd
      · exact hnone field (List.mem_cons_of_mem first hfield) d hd

theorem infix_of_mem_fields {p : Char → Bool} {cs field : List Char} (h : field ∈ fields p cs) : field <:+: cs := by
  obtain ⟨first, more, heq, hfirst, hmore, -⟩ := fields_cases p cs
  rw [heq] at h
  rcases List.mem_cons.1 h with rfl | h
  · exact hfirst.isInfix
  · exact hmore field h

theorem not_of_mem_fields {p : Char → Bool} {cs field : List Char} (h : field ∈ fields p cs) :
    ∀ c ∈ field, p c = false := by
  obtain ⟨first, more, heq, -, -, hnone⟩ := fields_cases p cs
  rw [heq] at h
  exact hnone field h

theorem infix_trimBlanks (cs : List Char) : trimBlanks cs <:+: cs := by
  have hsuffix : cs.dropWhile isBlank <:+ cs := List.dropWhile_suffix _
  have hprefix : ((cs.dropWhile isBlank).reverse.dropWhile isBlank).reverse <+: cs.dropWhile isBlank := by
    rw [← List.reverse_suffix, List.reverse_reverse]
    exact List.dropWhile_suffix _
  exact hprefix.isInfix.trans hsuffix.isInfix

/--
The pieces of texts with a comma and a blank between them: the texts, all but the first behind a blank.
-/
theorem fields_intercalate_comma {first : List Char} {more : List (List Char)} (hfirst : ',' ∉ first)
    (hmore : ∀ cs ∈ more, ',' ∉ cs) :
    fields (· == ',') ([',', ' '].intercalate (first :: more)) = first :: more.map (' ' :: ·) := by
  have hone {cs : List Char} (h : ',' ∉ cs) : fields (· == ',') cs = [cs] :=
    fields_eq_singleton fun c hc => beq_eq_false_iff_ne.2 fun heq => h (heq ▸ hc)
  induction more generalizing first with
  | nil => rw [List.intercalate_singleton, hone hfirst, List.map_nil]
  | cons next more ih =>
    rw [List.forall_mem_cons] at hmore
    have hrest := ih hmore.1 hmore.2
    rw [List.intercalate_cons_cons, List.append_assoc, List.cons_append, List.singleton_append,
      fields_append_cons (by decide), hone hfirst, fields, if_neg (by decide), hrest]
    rfl

/--
A text that is one word.
-/
def IsWord (cs : List Char) : Prop :=
  cs ≠ [] ∧ ∀ c ∈ cs, isBlank c = false

theorem isWord_of_mem_words {cs word : List Char} (h : word ∈ words cs) : IsWord word := by
  obtain ⟨hmem, hne⟩ := List.mem_filter.1 h
  exact ⟨by simpa using hne, not_of_mem_fields hmem⟩

theorem words_of_isWord {cs : List Char} (h : IsWord cs) : words cs = [cs] := by
  rw [words, fields_eq_singleton h.2, List.filter_cons_of_pos (by simp [h.1]), List.filter_nil]

theorem words_append_cons {c : Char} (hc : isBlank c) (cs ds : List Char) :
    words (cs ++ c :: ds) = words cs ++ words ds := by
  rw [words, fields_append_cons hc, List.filter_append, words, words]

theorem words_cons {c : Char} (hc : isBlank c) (cs : List Char) : words (c :: cs) = words cs :=
  words_append_cons hc [] cs

theorem words_append_blanks (cs : List Char) {blanks : List Char} (h : ∀ c ∈ blanks, isBlank c) :
    words (cs ++ blanks) = words cs := by
  have hblanks : words blanks = [] := by
    induction blanks with
    | nil => rfl
    | cons c blanks ih =>
      rw [List.forall_mem_cons] at h
      rw [words_cons h.1, ih h.2]
  cases blanks with
  | nil => rw [List.append_nil]
  | cons c blanks =>
    rw [List.forall_mem_cons] at h
    rw [words_cons h.1] at hblanks
    rw [words_append_cons h.1, hblanks, List.append_nil]

/--
Words with a blank between them are read again.
-/
theorem words_intercalate {ws : List (List Char)} (h : ∀ w ∈ ws, IsWord w) : words ([' '].intercalate ws) = ws := by
  induction ws with
  | nil => rfl
  | cons w ws ih =>
    rw [List.forall_mem_cons] at h
    cases ws with
    | nil => rw [List.intercalate_singleton, words_of_isWord h.1]
    | cons next ws =>
      rw [List.intercalate_cons_cons, List.append_assoc, List.singleton_append, words_append_cons (by decide),
        words_of_isWord h.1, ih h.2]
      rfl

/--
A text whose only blanks are single spaces.
-/
structure IsSingleSpaced (cs : List Char) : Prop where
  blank : ∀ c ∈ cs, isBlank c → c = ' '
  apart : cs.IsChain fun c d => isBlank c → isBlank d = false

/--
A text with one space between its words and no blank around them.
-/
structure IsSpaced (cs : List Char) : Prop extends IsSingleSpaced cs where
  head : ∀ c ∈ cs.head?, isBlank c = false
  last : ∀ c ∈ cs.getLast?, isBlank c = false

theorem IsSingleSpaced.part {cs part : List Char} (h : IsSingleSpaced cs) (hpart : part <:+: cs) :
    IsSingleSpaced part :=
  ⟨fun c hc => h.blank c (hpart.mem hc), h.apart.infix hpart⟩

theorem isBlank_head?_dropWhile (cs : List Char) : ∀ c ∈ (cs.dropWhile isBlank).head?, isBlank c = false := by
  intro c hc
  have h := List.head?_dropWhile_not isBlank cs
  rw [Option.mem_def.1 hc] at h
  exact h

theorem IsSingleSpaced.trimBlanks {cs : List Char} (h : IsSingleSpaced cs) : IsSpaced (trimBlanks cs) where
  toIsSingleSpaced := h.part (infix_trimBlanks cs)
  head := by
    intro c hc
    have hprefix : Text.trimBlanks cs <+: cs.dropWhile isBlank := by
      rw [← List.reverse_suffix, Text.trimBlanks, List.reverse_reverse]
      exact List.dropWhile_suffix _
    obtain ⟨rest, hrest⟩ := List.head?_eq_some_iff.1 hc
    obtain ⟨dropped, hdropped⟩ := hprefix
    refine isBlank_head?_dropWhile cs c ?_
    rw [← hdropped, hrest]
    rfl
  last := by
    intro c hc
    rw [Text.trimBlanks, List.getLast?_reverse] at hc
    exact isBlank_head?_dropWhile _ c hc

/--
A text without blanks around it is not trimmed.
-/
theorem IsSpaced.trimBlanks_cons {cs : List Char} (h : IsSpaced cs) {c : Char} (hc : isBlank c) :
    Text.trimBlanks (c :: cs) = cs ∧ Text.trimBlanks cs = cs := by
  have hkeep {cs : List Char} (h : ∀ c ∈ cs.head?, isBlank c = false) : cs.dropWhile isBlank = cs := by
    cases cs with
    | nil => rfl
    | cons c cs => rw [List.dropWhile_cons_of_neg (by simp [h c rfl])]
  have hlast : cs.reverse.dropWhile isBlank = cs.reverse := hkeep fun c hc => h.last c (by rwa [List.head?_reverse] at hc)
  rw [Text.trimBlanks, Text.trimBlanks, List.dropWhile_cons_of_pos hc, hkeep h.head, hlast, List.reverse_reverse]
  exact ⟨rfl, rfl⟩

theorem IsWord.isSpaced {cs : List Char} (h : IsWord cs) : IsSpaced cs where
  blank c hc hblank := by
    rw [h.2 c hc] at hblank
    cases hblank
  apart := List.Pairwise.isChain (List.pairwise_of_forall_mem_list fun c _ d hd _ => h.2 d hd)
  head c hc := h.2 c (List.mem_of_head? hc)
  last c hc := h.2 c (List.mem_of_getLast? hc)

theorem IsSpaced.append_cons {a b : List Char} (ha : IsSpaced a) (hane : a ≠ []) (hb : IsSpaced b) (hbne : b ≠ []) :
    IsSpaced (a ++ ' ' :: b) where
  blank c hc := by
    rcases List.mem_append.1 hc with hc | hc
    · exact ha.blank c hc
    · rcases List.mem_cons.1 hc with rfl | hc
      · exact fun _ => rfl
      · exact hb.blank c hc
  apart := by
    refine List.isChain_append.2 ⟨ha.apart, List.isChain_cons.2 ⟨fun d hd _ => hb.head d hd, hb.apart⟩, ?_⟩
    intro c hc d hd hblank
    rw [ha.last c hc] at hblank
    cases hblank
  head := by
    rw [List.head?_append_of_ne_nil _ hane]
    exact ha.head
  last := by
    rw [List.getLast?_append_of_ne_nil _ (List.cons_ne_nil _ _), List.getLast?_cons_of_ne_nil hbne]
    exact hb.last

theorem IsSpaced.append {a b : List Char} (ha : IsSpaced a) (hb : ∀ c ∈ b, isBlank c = false) : IsSpaced (a ++ b) where
  blank c hc hblank := by
    rcases List.mem_append.1 hc with hc | hc
    · exact ha.blank c hc hblank
    · rw [hb c hc] at hblank
      cases hblank
  apart := by
    refine List.isChain_append.2 ⟨ha.apart, ?_, fun c _ d hd _ => hb d (List.mem_of_head? hd)⟩
    exact List.Pairwise.isChain (List.pairwise_of_forall_mem_list fun c _ d hd _ => hb d hd)
  head c hc := by
    rw [List.head?_append] at hc
    rcases Option.or_eq_some_iff.1 hc with hc | ⟨-, hc⟩
    · exact ha.head c hc
    · exact hb c (List.mem_of_head? hc)
  last c hc := by
    rw [List.getLast?_append] at hc
    rcases Option.or_eq_some_iff.1 hc with hc | ⟨-, hc⟩
    · exact hb c (List.mem_of_getLast? hc)
    · exact ha.last c hc

theorem intercalate_ne_nil {sep : List Char} {texts : List (List Char)} (hne : texts ≠ []) (h : ∀ cs ∈ texts, cs ≠ []) :
    sep.intercalate texts ≠ [] := by
  obtain ⟨first, more, rfl⟩ := List.exists_cons_of_ne_nil hne
  have hfirst := h first List.mem_cons_self
  cases more with
  | nil => rwa [List.intercalate_singleton]
  | cons next more =>
    rw [List.intercalate_cons_cons, List.append_assoc]
    exact List.append_ne_nil_of_left_ne_nil hfirst _

/--
Texts with one space between their words make up such a text, whether a comma stands before each of the spaces that
join them or not.
-/
theorem isSpaced_intercalate (comma : List Char) (hcomma : ∀ c ∈ comma, isBlank c = false) {texts : List (List Char)}
    (h : ∀ cs ∈ texts, IsSpaced cs ∧ cs ≠ []) : IsSpaced ((comma ++ [' ']).intercalate texts) := by
  induction texts with
  | nil => exact ⟨⟨by simp, .nil⟩, by simp, by simp⟩
  | cons first more ih =>
    rw [List.forall_mem_cons] at h
    obtain ⟨⟨hfirst, hne⟩, hmore⟩ := h
    cases more with
    | nil => rwa [List.intercalate_singleton]
    | cons next more =>
      rw [List.intercalate_cons_cons, List.append_assoc, List.append_assoc, List.singleton_append, ← List.append_assoc]
      exact (hfirst.append hcomma).append_cons (List.append_ne_nil_of_left_ne_nil hne _) (ih hmore)
        (intercalate_ne_nil (List.cons_ne_nil _ _) fun cs hcs => (hmore cs hcs).2)

/--
A text that does not begin with a blank begins with a word.
-/
theorem exists_word {cs : List Char} (hne : cs ≠ []) (h : ∀ c ∈ cs.head?, isBlank c = false) :
    ∃ w rest, cs = w ++ rest ∧ IsWord w ∧ ∀ c ∈ rest.head?, isBlank c := by
  obtain ⟨c, more, rfl⟩ := List.exists_cons_of_ne_nil hne
  refine ⟨(c :: more).takeWhile (!isBlank ·), (c :: more).dropWhile (!isBlank ·),
    List.takeWhile_append_dropWhile.symm, ⟨?_, fun d hd => ?_⟩, ?_⟩
  · rw [List.takeWhile_cons_of_pos (by simp [h c rfl])]
    exact List.cons_ne_nil _ _
  · simpa using List.mem_takeWhile_imp hd
  · intro d hd
    have hstop := List.head?_dropWhile_not (!isBlank ·) (c :: more)
    rw [Option.mem_def.1 hd] at hstop
    simpa using hstop

/--
A text with one space between its words is made up of them.
-/
theorem IsSpaced.intercalate_words {cs : List Char} (h : IsSpaced cs) : [' '].intercalate (words cs) = cs := by
  by_cases hne : cs = []
  · rw [hne]
    rfl
  · obtain ⟨w, rest, rfl, hword, hblank⟩ := exists_word hne h.head
    cases rest with
    | nil => rw [List.append_nil, words_of_isWord hword, List.intercalate_singleton]
    | cons c rest =>
      have hc := hblank c rfl
      have hrestne : rest ≠ [] := by
        rintro rfl
        have hlast := h.last c List.getLast?_concat
        rw [hc] at hlast
        cases hlast
      have hrest : IsSpaced rest := by
        refine ⟨h.part ⟨w ++ [c], [], by simp⟩, fun d hd => ?_, fun d hd => h.last d ?_⟩
        · exact (List.isChain_cons.1 (List.isChain_append.1 h.apart).2.1).1 d hd hc
        · rwa [List.getLast?_append_of_ne_nil _ (List.cons_ne_nil _ _), List.getLast?_cons_of_ne_nil hrestne]
      have ih := hrest.intercalate_words
      have hwords : words rest ≠ [] := by
        intro hnil
        rw [hnil] at ih
        exact hrestne ih.symm
      rw [words_append_cons hc, words_of_isWord hword, List.singleton_append, List.intercalate_cons_of_ne_nil hwords,
        ih, List.append_assoc, h.blank c (by simp) hc]
      rfl
termination_by cs.length
decreasing_by
  simp only [*, List.length_append, List.length_cons]
  omega

end HaskellStyle.Text
