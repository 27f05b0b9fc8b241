import HaskellStyle.Proofs.Print.Flat
import HaskellStyle.Proofs.Text.Words

/-!
This module contains the normal form of pragmas. The words of a pragma do not hold its closing delimiter, so that
a pragma with other blanks between its words is still read as one.
-/

namespace HaskellStyle

variable {μ : Type} {v : View μ} {q : Bool}

namespace Lexeme

/--
What is part of a text is found in it.
-/
theorem find_of_infix {part w : List Char} (h : part <:+: w) (y : List Char) :
    ∃ n, find part (w ++ y) = some n ∧ n + part.length ≤ w.length := by
  induction w with
  | nil =>
    rw [List.infix_nil] at h
    subst h
    exact ⟨0, by cases y <;> rfl, Nat.le_refl 0⟩
  | cons c w ih =>
    by_cases hprefix : part.isPrefixOf (c :: (w ++ y))
    · refine ⟨0, by rw [List.cons_append, find, if_pos hprefix], ?_⟩
      rw [Nat.zero_add]
      exact h.length_le
    · rcases List.infix_cons_iff.1 h with hp | hinfix
      · refine absurd (List.isPrefixOf_iff_prefix.2 ?_) hprefix
        exact hp.trans (List.prefix_append (c :: w) y)
      · obtain ⟨n, hn, hle⟩ := ih hinfix
        refine ⟨n + 1, by rw [List.cons_append, find, if_neg hprefix, hn]; rfl, ?_⟩
        rw [List.length_cons]
        omega

/--
A part without the character `sep` that a text begins with lies before it.
-/
theorem prefix_of_not_mem {part a b : List Char} {sep : Char} (hsep : sep ∉ part) (h : part <+: a ++ sep :: b) :
    part <+: a := by
  induction a generalizing part with
  | nil =>
    cases part with
    | nil => exact List.nil_prefix
    | cons c part =>
      rw [List.nil_append, List.cons_prefix_cons] at h
      exact absurd (h.1 ▸ List.mem_cons_self) hsep
  | cons d a ih =>
    cases part with
    | nil => exact List.nil_prefix
    | cons c part =>
      rw [List.cons_append, List.cons_prefix_cons] at h
      rw [List.cons_prefix_cons]
      exact ⟨h.1, ih (fun hmem => hsep (List.mem_cons_of_mem c hmem)) h.2⟩

theorem not_infix_append {part a b : List Char} {sep : Char} (hsep : sep ∉ part) (ha : ¬part <:+: a)
    (hb : ¬part <:+: b) : ¬part <:+: a ++ sep :: b := by
  induction a with
  | nil =>
    intro h
    rcases List.infix_cons_iff.1 h with hp | hinfix
    · exact ha (prefix_of_not_mem (a := []) hsep hp).isInfix
    · exact hb hinfix
  | cons c a ih =>
    intro h
    rcases List.infix_cons_iff.1 h with hp | hinfix
    · exact ha (prefix_of_not_mem (a := c :: a) hsep hp).isInfix
    · exact ih (fun h => ha (h.trans (List.suffix_cons c a).isInfix)) hinfix

/--
A part is found behind a text that does not hold it and a character that it does not hold.
-/
theorem find_behind {part w : List Char} {sep : Char} (hsep : sep ∉ part) (hw : ¬part <:+: w) (y : List Char) :
    find part (w ++ sep :: (part ++ y)) = some (w.length + 1) := by
  induction w with
  | nil =>
    have hprefix : ¬part.isPrefixOf (sep :: (part ++ y)) := fun h =>
      hw (prefix_of_not_mem (a := []) hsep (List.isPrefixOf_iff_prefix.1 h)).isInfix
    have hfind : find part (part ++ y) = some 0 := by
      cases part with
      | nil => exact absurd List.nil_infix hw
      | cons c part =>
        have hself : (c :: part).isPrefixOf (c :: (part ++ y)) :=
          List.isPrefixOf_iff_prefix.2 (List.prefix_append (c :: part) y)
        rw [List.cons_append, find, if_pos hself]
    rw [List.nil_append, find, if_neg hprefix, hfind]
    rfl
  | cons c w ih =>
    have hprefix : ¬part.isPrefixOf (c :: (w ++ sep :: (part ++ y))) := fun h =>
      hw (prefix_of_not_mem (a := c :: w) hsep (List.isPrefixOf_iff_prefix.1 h)).isInfix
    rw [List.cons_append, find, if_neg hprefix, ih fun h => hw (h.trans (List.suffix_cons c w).isInfix)]
    rfl

/--
A pragma is what stands between its delimiters, up to the first closing one.
-/
theorem Measured.pragma_inv {p : Option Char} {o : Nat} {c : Char} {cs : List Char} {n : Nat}
    (h : Measured q p o c cs (.ok (.token .pragma, n))) :
    c = '\x7b' ∧ ['-', '#'].isPrefixOf cs ∧ find ['#', '-', '\x7d'] (cs.drop 2) = some (n - 5) ∧ 5 ≤ n := by
  generalize hk : LexemeKind.token .pragma = k at h
  cases h with
  | pragma hc hcs hn => exact ⟨hc, hcs, by simpa using hn, by omega⟩
  | number hc =>
    have hplain := isPlain_numberLength c cs
    rw [← LexemeKind.token.inj hk] at hplain
    cases hplain
  | identifier hc =>
    have hplain := isPlain_identifierLength c cs
    rw [← LexemeKind.token.inj hk] at hplain
    cases hplain
  | symbol hc => cases isPlain_symbolLength hk.symm
  | newline | carriageReturn | blanks | directive | blockComment | string | char | tick | quasiQuote | special
  | other => cases hk

end Lexeme

namespace Pragma

/--
A text that can stand between the delimiters of a pragma on one line.
-/
def IsInside (w : List Char) : Prop :=
  ¬['#', '-', '\x7d'] <:+: w ∧ '\n' ∉ w

namespace IsInside

variable {a b : List Char}

theorem of_not_mem (hmark : '#' ∉ a) (hline : '\n' ∉ a) : IsInside a :=
  ⟨fun h => hmark (h.mem List.mem_cons_self), hline⟩

theorem nil : IsInside [] :=
  of_not_mem List.not_mem_nil List.not_mem_nil

theorem of_infix (h : IsInside a) (hb : b <:+: a) : IsInside b :=
  ⟨fun hclose => h.1 (hclose.trans hb), fun hmem => h.2 (hb.mem hmem)⟩

theorem append (ha : IsInside a) {sep : Char} (hsep : sep ∉ ['#', '-', '\x7d', '\n']) (hb : IsInside b) :
    IsInside (a ++ sep :: b) := by
  simp only [List.mem_cons, List.not_mem_nil, or_false, not_or] at hsep
  refine ⟨Lexeme.not_infix_append ?_ ha.1 hb.1, ?_⟩
  · simp [hsep]
  · simp [ha.2, hb.2, Ne.symm hsep.2.2.2]

theorem append_blanks (ha : IsInside a) (n : Nat) : IsInside (a ++ List.replicate n ' ') := by
  induction n generalizing a with
  | zero => simpa using ha
  | succ n ih =>
    rw [List.replicate_succ]
    refine ha.append (by decide) ?_
    simpa using ih nil

theorem intercalate {sep : List Char} (hsep : ∀ c ∈ sep, c ∉ ['#', '-', '\x7d', '\n']) (hne : sep ≠ [])
    {texts : List (List Char)} (h : ∀ text ∈ texts, IsInside text) : IsInside (sep.intercalate texts) := by
  have hjoin {sep : List Char} (hsep : ∀ c ∈ sep, c ∉ ['#', '-', '\x7d', '\n']) (hne : sep ≠ []) {a b : List Char}
      (ha : IsInside a) (hb : IsInside b) : IsInside (a ++ (sep ++ b)) := by
    induction sep generalizing a with
    | nil => exact absurd rfl hne
    | cons c sep ih =>
      rw [List.cons_append]
      refine ha.append (hsep c List.mem_cons_self) ?_
      cases sep with
      | nil => exact hb
      | cons d sep =>
        have := ih (fun c hc => hsep c (List.mem_cons_of_mem _ hc)) (List.cons_ne_nil _ _) nil
        rwa [List.nil_append] at this
  induction texts with
  | nil => exact nil
  | cons text texts ih =>
    cases texts with
    | nil =>
      rw [List.intercalate_singleton]
      exact h text List.mem_cons_self
    | cons next more =>
      rw [List.intercalate_cons_cons, List.append_assoc]
      exact hjoin hsep hne (h text List.mem_cons_self) (ih fun other hother => h other (List.mem_cons_of_mem _ hother))

end IsInside

theorem toList_normal (w : List Char) : ("\x7b-# " ++ String.ofList w ++ " #-\x7d").toList
    = '\x7b' :: ('-' :: '#' :: ' ' :: (w ++ [' ', '#', '-', '\x7d'])) := by
  simp [String.toList_append]

/--
A pragma in normal form ends at its closing delimiter.
-/
theorem measure_normal {w : List Char} (hw : IsInside w) (p : Option Char) (o : Nat) (y : List Char) :
    Lexeme.measure q p o '\x7b' (('-' :: '#' :: ' ' :: (w ++ [' ', '#', '-', '\x7d'])) ++ y)
      = .ok (.token .pragma, ('-' :: '#' :: ' ' :: (w ++ [' ', '#', '-', '\x7d'])).length) := by
  have hinside : ¬['#', '-', '\x7d'] <:+: ' ' :: w :=
    Lexeme.not_infix_append (a := []) (by decide) (by decide) hw.1
  have hblank : ' ' ∉ ['#', '-', '\x7d'] := by decide
  have hfind := Lexeme.find_behind hblank hinside y
  have hother {P : Prop} {d : Char} (hd : '\x7b' ≠ d) : ¬('\x7b' = d ∧ P) := fun h => hd h.1
  have hdrop : List.drop 2 (('-' :: '#' :: ' ' :: (w ++ [' ', '#', '-', '\x7d'])) ++ y)
      = (' ' :: w) ++ ' ' :: (['#', '-', '\x7d'] ++ y) := by simp
  unfold Lexeme.measure
  rw [if_neg (by decide), if_neg (hother (by decide)), if_neg (by decide), if_neg (hother (by decide)),
    if_pos ⟨rfl, rfl⟩, hdrop, hfind]
  simp

/--
A pragma is read in normal form.
-/
theorem quiet {w : List Char} (hv : v.IgnoresTokens) (hw : IsInside w) :
    Quiet v q ("\x7b-# " ++ String.ofList w ++ " #-\x7d") := by
  unfold Quiet
  rw [toList_normal]
  refine (Fits.lexeme hv (fun y _ => measure_normal hw (some ' ') 0 y) (fun _ (hy : Lexeme.Soft _) => hy.calm) ?_
    ?_).mono ?_ fun _ => id
  · simp [hw.2]
  · intro d hd
    have hlast : ('\x7b' :: '-' :: '#' :: ' ' :: (w ++ [' ', '#', '-', '\x7d'])).getLast? = some '\x7d' := by
      rw [show '\x7b' :: '-' :: '#' :: ' ' :: (w ++ [' ', '#', '-', '\x7d'])
        = ('\x7b' :: '-' :: '#' :: ' ' :: (w ++ [' ', '#', '-'])) ++ ['\x7d'] by simp]
      exact List.getLast?_concat
    rw [hlast] at hd
    cases hd
    decide
  · intro t ht hhash
    rw [ht] at hhash
    exact absurd (Option.some.inj hhash) (by decide)

/--
A pragma that ends at the first closing delimiter.
-/
def IsClosed (p : Pragma) : Prop :=
  ∃ body, p.token.text.toList = ['\x7b', '-', '#'] ++ body ++ ['#', '-', '\x7d'] ∧ ¬['#', '-', '\x7d'] <:+: body

/--
What is read as a pragma ends at the first closing delimiter.
-/
theorem exists_body_of_measure {p : Option Char} {o : Nat} {c : Char} {u y : List Char}
    (h : Lexeme.measure q p o c (u ++ y) = .ok (.token .pragma, u.length)) :
    ∃ body, c :: u = ['\x7b', '-', '#'] ++ body ++ ['#', '-', '\x7d'] ∧ ¬['#', '-', '\x7d'] <:+: body := by
  obtain ⟨rfl, hprefix, hfind, hle⟩ := (Lexeme.measured_iff.2 h).pragma_inv
  obtain ⟨w, hw⟩ := List.isPrefixOf_iff_prefix.1 hprefix
  have hdrop : (u ++ y).drop 2 = w := hw ▸ rfl
  rw [hdrop] at hfind
  obtain ⟨body, after, rfl, hlength⟩ := Lexeme.find_eq_some hfind
  have hu : u = ['-', '#'] ++ (body ++ ['#', '-', '\x7d']) := by
    refine (@List.append_inj _ _ _ y after ?_ ?_).1
    · rw [← hw]
      simp
    · simp only [List.length_append, List.length_cons, List.length_nil]
      omega
  refine ⟨body, by rw [hu]; simp, fun hinfix => ?_⟩
  obtain ⟨n, hn, hnle⟩ := Lexeme.find_of_infix hinfix (['#', '-', '\x7d'] ++ after)
  rw [hn, Option.some.injEq] at hfind
  simp only [List.length_cons, List.length_nil] at hnle
  omega

theorem isClosed_of_linked {p : Pragma} (hkind : p.token.kind = .pragma) (hlinked : Token.Linked q [p.token]) :
    p.IsClosed := by
  have hbehind := hlinked [p.token] (List.infix_refl _) (by simp) [] Lexeme.soft_nil
  obtain ⟨c, u, htext, -, hmeasure⟩ := hbehind.2 [] p.token [] rfl
  rw [hkind] at hmeasure
  rw [IsClosed, htext]
  exact exists_body_of_measure hmeasure

theorem words_eq {p : Pragma} {body : List Char}
    (h : p.token.text.toList = ['\x7b', '-', '#'] ++ body ++ ['#', '-', '\x7d']) :
    p.words = (Text.words body).map String.ofList := by
  have hbody : (p.token.text.toList.take (p.token.text.toList.length - 3)).drop 3 = body := by
    rw [h, List.take_left' (by simp)]
    rfl
  rw [words, hbody]

section Closed

variable {p : Pragma} (hclosed : p.IsClosed)
include hclosed

theorem isInside_words : ∀ word ∈ p.words, IsInside word.toList := by
  intro word hword
  obtain ⟨body, hbody, hclose⟩ := hclosed
  rw [words_eq hbody] at hword
  obtain ⟨cs, hcs, rfl⟩ := List.mem_map.1 hword
  have hfield := (List.mem_filter.1 hcs).1
  rw [String.toList_ofList]
  refine ⟨fun h => hclose (h.trans (Text.infix_of_mem_fields hfield)), fun hmem => ?_⟩
  exact absurd (Text.not_of_mem_fields hfield '\n' hmem) (by decide)

theorem isInside_intercalate_words {words : List String} (h : words ⊆ p.words) :
    IsInside (" ".intercalate words).toList := by
  rw [String.toList_intercalate]
  refine IsInside.intercalate (by simp) (by decide) fun text htext => ?_
  obtain ⟨word, hword, rfl⟩ := List.mem_map.1 htext
  exact isInside_words hclosed word (h hword)

theorem isInside_extensions : ∀ extension ∈ p.extensions, IsInside extension.toList := by
  intro extension hextension
  have hbody : IsInside p.body.toList := isInside_intercalate_words hclosed (List.drop_subset 1 p.words)
  unfold extensions at hextension
  split at hextension
  · obtain ⟨part, hpart, rfl⟩ := List.mem_map.1 hextension
    obtain ⟨field, hfield, rfl⟩ := List.mem_map.1 (List.mem_filter.1 hpart).1
    rw [String.toList_ofList]
    exact hbody.of_infix ((Text.infix_trimBlanks field).trans (Text.infix_of_mem_fields hfield))
  · cases hextension

/--
What stands between the delimiters of a language pragma in normal form.
-/
theorem isInside_languageText (width : Nat) : IsInside ((p.words.headD "LANGUAGE").toList
    ++ ' ' :: (", ".intercalate p.extensions).toList ++ List.replicate (width - p.flatLanguage.length) ' ') := by
  have hname : IsInside (p.words.headD "LANGUAGE").toList := by
    cases hwords : p.words with
    | nil =>
      exact IsInside.of_not_mem (by decide +kernel) (by decide +kernel)
    | cons word words =>
      exact isInside_words hclosed word (by rw [hwords]; exact List.mem_cons_self)
  have hextensions : IsInside (", ".intercalate p.extensions).toList := by
    rw [String.toList_intercalate]
    refine IsInside.intercalate (by simp) (by decide) fun text htext => ?_
    obtain ⟨extension, hextension, rfl⟩ := List.mem_map.1 htext
    exact isInside_extensions hclosed extension hextension
  have hblank : ' ' ∉ ['#', '-', '\x7d', '\n'] := by decide
  exact (hname.append hblank hextensions).append_blanks (width - p.flatLanguage.length)

end Closed

theorem languageText_eq (p : Pragma) (width : Nat) : p.languageText width = "\x7b-# " ++ String.ofList
    ((p.words.headD "LANGUAGE").toList ++ ' ' :: (", ".intercalate p.extensions).toList
      ++ List.replicate (width - p.flatLanguage.length) ' ') ++ " #-\x7d" := by
  apply String.toList_inj.1
  simp [languageText, padRight, flatLanguage, String.toList_append]

/--
The normal form of a pragma on one line.
-/
theorem quiet_flat (hv : v.IgnoresTokens) {p : Pragma} (hkind : p.token.kind = .pragma)
    (hlinked : Token.Linked q [p.token]) (hline : p.token.isMultiline = false) : Quiet v q p.flat := by
  have hclosed := isClosed_of_linked hkind hlinked
  unfold flat
  rw [if_neg (by simp [hline])]
  split
  · rw [languageText_eq]
    exact quiet hv (isInside_languageText hclosed 0)
  · have := quiet (q := q) hv (isInside_intercalate_words hclosed (List.Subset.refl _))
    rwa [String.ofList_toList] at this

end Pragma

end HaskellStyle
