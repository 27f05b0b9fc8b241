import HaskellStyle.Proofs.Print.Pragma
import HaskellStyle.Proofs.Token.Kind

/-!
This module contains what is read of a pragma in normal form. Main result: the normal form of a pragma on one line is
read as one pragma with the same name, extensions and target, and its normal form is the same.
-/

namespace HaskellStyle

namespace Text

/--
An entry of a list with commas: a text that is not empty, has one space between its words and no comma.
-/
def IsEntry (cs : List Char) : Prop :=
  IsSpaced cs ∧ cs ≠ [] ∧ ',' ∉ cs

theorem isEntry_of_mem_fields {cs field : List Char} (h : IsSpaced cs)
    (hfield : field ∈ ((fields (· == ',') cs).map trimBlanks).filter (!·.isEmpty)) : IsEntry field := by
  obtain ⟨hmem, hne⟩ := List.mem_filter.1 hfield
  obtain ⟨piece, hpiece, rfl⟩ := List.mem_map.1 hmem
  refine ⟨(h.part (infix_of_mem_fields hpiece)).trimBlanks, by simpa using hne, fun hcomma => ?_⟩
  have hnone := not_of_mem_fields hpiece ',' ((infix_trimBlanks piece).mem hcomma)
  cases hnone

/--
The entries of a list with commas are read again.
-/
theorem fields_intercalate_entries {entries : List (List Char)} (h : ∀ cs ∈ entries, IsEntry cs) :
    ((fields (· == ',') ([',', ' '].intercalate entries)).map trimBlanks).filter (!·.isEmpty) = entries := by
  cases entries with
  | nil => decide
  | cons first more =>
    have htrim {cs : List Char} (hcs : IsEntry cs) : trimBlanks (' ' :: cs) = cs ∧ trimBlanks cs = cs :=
      hcs.1.trimBlanks_cons (by decide)
    have hmore : ∀ cs ∈ more, IsEntry cs := fun cs hcs => h cs (List.mem_cons_of_mem _ hcs)
    have hmap : (more.map (' ' :: ·)).map trimBlanks = more := by
      rw [List.map_map]
      exact (List.map_congr_left fun cs hcs => (htrim (hmore cs hcs)).1).trans (List.map_id _)
    rw [fields_intercalate_comma (h first List.mem_cons_self).2.2 fun cs hcs => (hmore cs hcs).2.2, List.map_cons, hmap,
      (htrim (h first List.mem_cons_self)).2]
    exact List.filter_eq_self.2 fun cs hcs => by simp [(h cs hcs).2.1]

end Text

namespace Pragma

section Words

variable {p r : Pragma} (h : r.words = p.words)
include h

theorem name_congr : r.name = p.name := by
  rw [name, h, name]

theorem extensions_congr : r.extensions = p.extensions := by
  rw [extensions, name_congr h, body, h, extensions, body]

theorem target_congr : r.target = p.target := by
  rw [target, name_congr h, h, target]

end Words

theorem isWord_of_mem_words {p : Pragma} {word : String} (h : word ∈ p.words) : Text.IsWord word.toList := by
  obtain ⟨cs, hcs, rfl⟩ := List.mem_map.1 h
  rw [String.toList_ofList]
  exact Text.isWord_of_mem_words hcs

theorem words_intercalate {words : List String} {p : Pragma} (h : words ⊆ p.words) :
    (Text.words (" ".intercalate words).toList).map String.ofList = words := by
  have hwords : ∀ w ∈ words.map String.toList, Text.IsWord w := by
    intro w hw
    obtain ⟨word, hword, rfl⟩ := List.mem_map.1 hw
    exact isWord_of_mem_words (h hword)
  rw [String.toList_intercalate, show " ".toList = [' '] from rfl, Text.words_intercalate hwords, List.map_map]
  exact (List.map_congr_left fun word _ => String.ofList_toList).trans (List.map_id _)

theorem isSpaced_body (p : Pragma) : Text.IsSpaced p.body.toList := by
  rw [body, String.toList_intercalate]
  refine Text.isSpaced_intercalate [] (by simp) fun cs hcs => ?_
  obtain ⟨word, hword, rfl⟩ := List.mem_map.1 hcs
  have hword := isWord_of_mem_words (List.mem_of_mem_drop hword)
  exact ⟨hword.isSpaced, hword.1⟩

theorem isEntry_of_mem_extensions {p : Pragma} {extension : String} (h : extension ∈ p.extensions) :
    Text.IsEntry extension.toList := by
  unfold extensions at h
  split at h
  · obtain ⟨part, hpart, rfl⟩ := List.mem_map.1 h
    rw [String.toList_ofList]
    exact Text.isEntry_of_mem_fields p.isSpaced_body hpart
  · cases h

/--
The words of a pragma in normal form are those between its delimiters.
-/
theorem words_normal {r : Pragma} {w : List Char} (h : r.token.text = "\x7b-# " ++ String.ofList w ++ " #-\x7d") :
    r.words = (Text.words w).map String.ofList := by
  have hbody : r.token.text.toList = ['\x7b', '-', '#'] ++ ' ' :: (w ++ [' ']) ++ ['#', '-', '\x7d'] := by
    rw [h, toList_normal]
    simp
  rw [words_eq hbody, Text.words_cons (by decide), Text.words_append_blanks w (List.forall_mem_singleton.2 (by decide))]

theorem words_languageText {p r : Pragma} {width : Nat} {word : String} {more : List String}
    (hwords : p.words = word :: more) (h : r.token.text = p.languageText width) :
    r.words = word :: (Text.words (", ".intercalate p.extensions).toList).map String.ofList := by
  have hword : Text.IsWord word.toList := isWord_of_mem_words (hwords ▸ List.mem_cons_self)
  have hblanks : ∀ c ∈ List.replicate (width - p.flatLanguage.length) ' ', Text.isBlank c := by
    intro c hc
    rw [(List.mem_replicate.1 hc).2]
    decide
  rw [languageText_eq] at h
  rw [words_normal h, Text.words_append_blanks _ hblanks, Text.words_append_cons (by decide), hwords, List.headD_cons,
    Text.words_of_isWord hword, List.map_append, List.map_singleton, String.ofList_toList, List.singleton_append]

theorem exists_words {p : Pragma} (h : p.name = "LANGUAGE") : ∃ word more, p.words = word :: more := by
  cases hwords : p.words with
  | nil =>
    rw [name, hwords] at h
    exact absurd h (by decide)
  | cons word more => exact ⟨word, more, rfl⟩

/--
A language pragma in normal form lists the same extensions.
-/
theorem extensions_languageText {p r : Pragma} {width : Nat} (hname : p.name = "LANGUAGE")
    (h : r.token.text = p.languageText width) : r.name = p.name ∧ r.extensions = p.extensions := by
  obtain ⟨word, more, hwords⟩ := exists_words hname
  have hread := words_languageText hwords h
  have hnamed : r.name = p.name := by rw [name, name, hread, hwords]
  have hlist : (", ".intercalate p.extensions).toList = [',', ' '].intercalate (p.extensions.map String.toList) :=
    String.toList_intercalate
  have hentries : ∀ cs ∈ p.extensions.map String.toList, Text.IsEntry cs := by
    intro cs hcs
    obtain ⟨extension, hextension, rfl⟩ := List.mem_map.1 hcs
    exact isEntry_of_mem_extensions hextension
  have hspaced : Text.IsSpaced (", ".intercalate p.extensions).toList := by
    rw [hlist]
    exact Text.isSpaced_intercalate [','] (List.forall_mem_singleton.2 (by decide)) fun cs hcs =>
      ⟨(hentries cs hcs).1, (hentries cs hcs).2.1⟩
  have hbody : r.body.toList = (", ".intercalate p.extensions).toList := by
    rw [body, hread, List.drop_one, List.tail_cons, String.toList_intercalate, List.map_map]
    have hid : (Text.words (", ".intercalate p.extensions).toList).map (String.toList ∘ String.ofList)
        = Text.words (", ".intercalate p.extensions).toList :=
      (List.map_congr_left fun cs _ => String.toList_ofList).trans (List.map_id _)
    rw [hid]
    exact hspaced.intercalate_words
  refine ⟨hnamed, ?_⟩
  rw [extensions, hnamed, hname, if_pos (by rfl), hbody, hlist]
  dsimp only
  rw [Text.fields_intercalate_entries hentries, List.map_map]
  exact (List.map_congr_left fun extension _ => String.ofList_toList).trans (List.map_id _)

/--
A pragma in normal form is a text of one token.
-/
theorem ofTextWith_normal (q : Bool) {w : List Char} (hw : IsInside w) :
    ∃ stream, TokenStream.ofTextWith q ("\x7b-# " ++ String.ofList w ++ " #-\x7d").toList = .ok stream
      ∧ stream.tokens = [⟨.pragma, "\x7b-# " ++ String.ofList w ++ " #-\x7d", .origin, [], [], true⟩]
      ∧ stream.eof.leading = [] := by
  have hmeasure := measure_normal (q := q) hw none Position.origin.offset []
  rw [List.append_nil] at hmeasure
  have hscan : Lexeme.ofText q ("\x7b-# " ++ String.ofList w ++ " #-\x7d").toList
      = .ok [⟨.token .pragma, "\x7b-# " ++ String.ofList w ++ " #-\x7d", .origin⟩] := by
    have htext : String.ofList ('\x7b' :: ('-' :: '#' :: ' ' :: (w ++ [' ', '#', '-', '\x7d'])))
        = "\x7b-# " ++ String.ofList w ++ " #-\x7d" := by rw [← toList_normal, String.ofList_toList]
    rw [toList_normal, Lexeme.ofText_eq, if_neg (by simp)]
    unfold Lexeme.ofRest
    rw [Lexeme.scan_cons hmeasure, List.drop_length, List.take_length, Lexeme.scan, htext]
    rfl
  unfold TokenStream.ofTextWith
  rw [hscan]
  exact ⟨_, rfl, rfl, rfl⟩

/--
The texts in normal form of a pragma: the one with one blank between its words, and for a pragma that lists extensions
those with its closing delimiter moved to the right.
-/
def IsNormalText (p : Pragma) (text : String) : Prop :=
  text = p.flat ∨ (p.name = "LANGUAGE" ∧ p.extensions ≠ []) ∧ ∃ width, text = p.languageText width

/--
A pragma says the same as another one: it has the same name, extensions and target, the same words unless these are
extensions, and the same normal form.
-/
structure SaysSame (r p : Pragma) : Prop where
  name : r.name = p.name
  extensions : r.extensions = p.extensions
  target : r.target = p.target
  words : ¬(p.name = "LANGUAGE" ∧ p.extensions ≠ []) → r.words = p.words
  flat : r.flat = p.flat

theorem flat_eq_languageText {p : Pragma} (hlanguage : p.name = "LANGUAGE" ∧ p.extensions ≠ [])
    (hline : p.token.isMultiline = false) : p.flat = p.languageText 0 := by
  rw [flat, if_neg (by simp [hline]), if_pos (by simp [hlanguage])]

theorem flat_eq_words {p : Pragma} (hother : ¬(p.name = "LANGUAGE" ∧ p.extensions ≠ []))
    (hline : p.token.isMultiline = false) : p.flat = "\x7b-# " ++ " ".intercalate p.words ++ " #-\x7d" := by
  rw [flat, if_neg (by simp [hline]), if_neg (by simpa using hother)]

section Says

variable {p r : Pragma} (hline : p.token.isMultiline = false) (hline' : r.token.isMultiline = false)
include hline hline'

theorem saysSame_of_languageText (hlanguage : p.name = "LANGUAGE" ∧ p.extensions ≠ []) {width : Nat}
    (h : r.token.text = p.languageText width) : r.SaysSame p := by
  obtain ⟨hname, hextensions⟩ := extensions_languageText hlanguage.1 h
  obtain ⟨word, more, hwords⟩ := exists_words hlanguage.1
  have htarget {s : Pragma} (hs : s.name = "LANGUAGE") : s.target = none := by
    rw [target, hs, if_neg (by decide)]
  refine ⟨hname, hextensions, ?_, fun hother => absurd hlanguage hother, ?_⟩
  · rw [htarget hlanguage.1, htarget (hname.trans hlanguage.1)]
  · rw [flat_eq_languageText hlanguage hline,
      flat_eq_languageText ⟨hname.trans hlanguage.1, hextensions ▸ hlanguage.2⟩ hline', languageText, languageText,
      flatLanguage, flatLanguage, hextensions, words_languageText hwords h, hwords, List.headD_cons, List.headD_cons]

theorem saysSame_of_words (hother : ¬(p.name = "LANGUAGE" ∧ p.extensions ≠ []))
    (h : r.token.text = "\x7b-# " ++ " ".intercalate p.words ++ " #-\x7d") : r.SaysSame p := by
  have hwords : r.words = p.words := by
    rw [← String.ofList_toList (s := " ".intercalate p.words)] at h
    rw [words_normal h, words_intercalate (List.Subset.refl _)]
  have hother' : ¬(r.name = "LANGUAGE" ∧ r.extensions ≠ []) := by
    rwa [name_congr hwords, extensions_congr hwords]
  refine ⟨name_congr hwords, extensions_congr hwords, target_congr hwords, fun _ => hwords, ?_⟩
  rw [flat_eq_words hother hline, flat_eq_words hother' hline', hwords]

end Says

/--
A pragma of one line in normal form is read as one pragma that says the same, and as nothing else.
-/
theorem normal_reread {q : Bool} {source : List Char} {stream : TokenStream}
    (hstream : TokenStream.ofTextWith q source = .ok stream) {p : Pragma} (hp : p.token ∈ stream.tokens)
    (hkind : p.token.kind = .pragma) (hline : '\n' ∉ p.token.text.toList) {text : String} (htext : p.IsNormalText text)
    (q' : Bool) :
    ∃ again, TokenStream.ofTextWith q' text.toList = .ok again
      ∧ ∃ r : Pragma, again.tokens = [r.token] ∧ r.token.kind = .pragma ∧ r.token.text = text ∧ r.SaysSame p := by
  have hclosed : p.IsClosed := by
    obtain ⟨previous, c, u, s, hcs, hmeasure⟩ := TokenStream.exists_measure hstream hp
    rw [hkind] at hmeasure
    rw [IsClosed, hcs]
    exact exists_body_of_measure hmeasure
  have hline : p.token.isMultiline = false := by simpa [Token.isMultiline] using hline
  have hread {w : List Char} (hw : IsInside w) (heq : text = "\x7b-# " ++ String.ofList w ++ " #-\x7d")
      (hsame : ∀ r : Pragma, r.token.isMultiline = false → r.token.text = text → r.SaysSame p) :
      ∃ again, TokenStream.ofTextWith q' text.toList = .ok again
        ∧ ∃ r : Pragma, again.tokens = [r.token] ∧ r.token.kind = .pragma ∧ r.token.text = text ∧ r.SaysSame p := by
    obtain ⟨again, hagain, htokens, -⟩ := ofTextWith_normal q' hw
    rw [← heq] at hagain htokens
    refine ⟨again, hagain, ⟨⟨.pragma, text, .origin, [], [], true⟩, false⟩, htokens, rfl, rfl, hsame _ ?_ rfl⟩
    rw [Token.isMultiline, heq, toList_normal]
    simp [hw.2]
  by_cases hlanguage : p.name = "LANGUAGE" ∧ p.extensions ≠ []
  · obtain ⟨width, rfl⟩ : ∃ width, text = p.languageText width := by
      rcases htext with rfl | ⟨-, hwidth⟩
      · exact ⟨0, flat_eq_languageText hlanguage hline⟩
      · exact hwidth
    exact hread (isInside_languageText hclosed width) (languageText_eq p width)
      fun r hline' h => saysSame_of_languageText hline hline' hlanguage h
  · obtain rfl := htext.resolve_right fun h => hlanguage h.1
    have hflat := flat_eq_words hlanguage hline
    refine hread (isInside_intercalate_words hclosed (List.Subset.refl _)) (by rw [hflat, String.ofList_toList])
      fun r hline' h => saysSame_of_words hline hline' hlanguage (h.trans hflat)

/--
A language pragma with blanks at random and an entry that is empty.
-/
def languagePragma :
    { stream // TokenStream.ofTextWith false "\x7b-#language\tGADTs,,Rank2\u3000Types #-\x7d".toList = .ok stream
      ∧ ∃ t ∈ stream.tokens, t.kind = .pragma ∧ '\n' ∉ t.text.toList
        ∧ Pragma.name ⟨t, false⟩ = "LANGUAGE" ∧ Pragma.extensions ⟨t, false⟩ = ["GADTs", "Rank2 Types"] } :=
  sample _ _ (by decide +kernel)

/--
The closing delimiter of a language pragma can be moved.
-/
theorem normal_reread_language :
    ∃ stream p, TokenStream.ofTextWith false "\x7b-#language\tGADTs,,Rank2\u3000Types #-\x7d".toList = .ok stream
      ∧ p.token ∈ stream.tokens ∧ p.token.kind = .pragma ∧ '\n' ∉ p.token.text.toList
      ∧ p.IsNormalText (p.languageText 40)
      ∧ ∃ again, TokenStream.ofTextWith true (p.languageText 40).toList = .ok again
        ∧ ∃ r : Pragma, again.tokens = [r.token] ∧ r.token.kind = .pragma ∧ r.token.text = p.languageText 40
          ∧ r.SaysSame p := by
  obtain ⟨stream, hstream, t, ht, hkind, hline, hname, hextensions⟩ := languagePragma
  have htext : IsNormalText ⟨t, false⟩ (languageText ⟨t, false⟩ 40) :=
    .inr ⟨⟨hname, by rw [hextensions]; exact List.cons_ne_nil _ _⟩, 40, rfl⟩
  exact ⟨stream, ⟨t, false⟩, hstream, ht, hkind, hline, htext, normal_reread hstream ht hkind hline htext true⟩

end Pragma

end HaskellStyle
