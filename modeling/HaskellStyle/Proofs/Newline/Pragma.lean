import HaskellStyle.Proofs.Declaration.Map
import HaskellStyle.Proofs.Module.Faithful
import HaskellStyle.Proofs.Newline.Lexeme
import HaskellStyle.Proofs.Newline.Token
import HaskellStyle.Proofs.Print.Alphabet
import HaskellStyle.Proofs.Print.Pragma

/-!
This module contains pragmas with carriage returns before the line feeds in them, and the module of a text with such line
ends. Pragmas have the same words, so what is read off the words is the same. The tokens of a plain text are plain,
pragmas have their delimiters, and only strings, pragmas and quasi-quotes can have several lines. The module is that of
the text without carriage returns, with carriage returns in its tokens and at the ends of its lines.
-/

namespace HaskellStyle

namespace Lexeme

/--
Whether the text of a lexeme is one that its kind can have: a pragma has its delimiters, and of the other tokens only
strings and quasi-quotes have line ends.
-/
structure Spelled (l : Lexeme) : Prop where
  pragma : l.kind = .token .pragma → ∃ body, l.text.toList = ['\x7b', '-', '#'] ++ body ++ ['#', '-', '\x7d']
  line : ∀ k, l.kind = .token k → '\n' ∈ l.text.toList → k = .string ∨ k = .pragma ∨ k = .quasiQuote

theorem spelled_trivia (k : TriviaKind) (text : String) (position : Position) : Spelled ⟨.trivia k, text, position⟩ where
  pragma h := nomatch h
  line _ h := nomatch h

theorem numberLength_ne_pragma (c : Char) (cs : List Char) : (numberLength c cs).1 ≠ .pragma := by
  unfold numberLength
  dsimp only
  repeat' split
  all_goals exact nofun

theorem qualifiedLength_ne_pragma ( qualified : Bool) (cs : List Char) : (qualifiedLength qualified cs).1 ≠ .pragma := by
  have hstop ( qualified : Bool) : (if qualified then TokenKind.qualifiedConId else .conId) ≠ .pragma := by
    cases qualified <;> decide
  have hsymbol (c : Char) : (if c = ':' then TokenKind.qualifiedConSym else .qualifiedVarSym) ≠ .pragma := by
    split <;> decide
  fun_induction qualifiedLength qualified cs with
  | case1 _ _ _ _ _ _ _ _ hmore ih => rwa [hmore] at ih
  | case2 | case4 => intro h; cases h
  | case6 => exact hsymbol _
  | case3 | case5 | case7 | case8 => exact hstop _

theorem identifierLength_ne_pragma (c : Char) (cs : List Char) : (identifierLength c cs).1 ≠ .pragma := by
  unfold identifierLength
  dsimp only
  split
  · exact qualifiedLength_ne_pragma _ _
  · split <;> exact nofun

theorem symbolLength_ne_pragma (c : Char) (cs : List Char) : (symbolLength c cs).1 ≠ .token .pragma := by
  unfold symbolLength
  dsimp only
  repeat' split
  all_goals exact nofun

/--
A lexeme of a text without carriage returns is spelled as its kind wants it.
-/
theorem Measured.spelled {q : Bool} {p : Option Char} {o : Nat} {c : Char} {cs : List Char} {k : LexemeKind} {n : Nat}
    (h : Measured q p o c cs (.ok (k, n))) (hreturn : '\r' ∉ cs) (position : Position) :
    Spelled ⟨k, String.ofList (c :: cs.take n), position⟩ := by
  have hline {k : TokenKind} {n : Nat} (hkind : k ≠ .pragma) (hc : c ≠ '\n') (hcs : '\n' ∉ cs.take n) :
      Spelled ⟨.token k, String.ofList (c :: cs.take n), position⟩ := by
    refine ⟨fun h => absurd (LexemeKind.token.inj h) hkind, fun _ _ h => ?_⟩
    rw [String.toList_ofList] at h
    rcases List.mem_cons.1 h with h | h
    · exact absurd h.symm hc
    · exact absurd h hcs
  have hlines {k : TokenKind} {n : Nat} (hk : k = .string ∨ k = .quasiQuote) :
      Spelled ⟨.token k, String.ofList (c :: cs.take n), position⟩ := by
    refine ⟨fun h => ?_, fun _ h _ => ?_⟩
    · cases LexemeKind.token.inj h
      simp at hk
    · cases LexemeKind.token.inj h
      exact hk.imp_right .inr
  cases h with
  | newline | carriageReturn | blanks | directive | blockComment => exact spelled_trivia _ _ _
  | @pragma n hc hpragma hn =>
    obtain ⟨rest, rfl⟩ := List.isPrefixOf_iff_prefix.1 hpragma
    obtain ⟨body, after, hrest, rfl⟩ := find_eq_some hn
    refine ⟨fun _ => ⟨body, ?_⟩, fun _ h _ => .inr (.inl (LexemeKind.token.inj h).symm)⟩
    have hdrop : (['-', '#'] ++ rest).drop 2 = rest := rfl
    rw [hdrop] at hrest
    subst hrest hc
    simp [List.take_append]
  | string => exact hlines (.inl rfl)
  | quasiQuote => exact hlines (.inr rfl)
  | char hc hn => exact hline (by decide) (by simp [hc]) (newline_notMem_char hn)
  | tick hc hn =>
    refine hline (by decide) (by simp [hc]) ?_
    split
    · next hquote =>
      obtain ⟨rest, rfl⟩ := List.head?_eq_some_iff.1 hquote
      simp
    · simp
  | number hc =>
    exact hline (numberLength_ne_pragma c cs) (ne_of_class hc (by decide)) (numberLength_crlf c cs).2
  | identifier hc =>
    exact hline (identifierLength_ne_pragma c cs) (ne_of_class hc (by decide +kernel)) (identifierLength_crlf c cs).2
  | special hc => exact hline (by decide) (ne_of_class hc (by decide)) (by simp)
  | symbol hc =>
    have hkind := symbolLength_ne_pragma c cs
    have hcs := (symbolLength_crlf c hreturn).2
    generalize symbolLength c cs = r at hkind hcs
    obtain ⟨k, n⟩ := r
    cases k with
    | trivia k => exact spelled_trivia _ _ _
    | token k => exact hline (fun h => hkind (congrArg _ h)) (ne_of_class hc (by decide +kernel)) hcs
  | other hblank => exact hline (by decide) (fun hc => by subst hc; cases hblank) (by simp)

theorem spelled_of_scan {q : Bool} {p : Option Char} {position : Position} {cs : List Char} {ls : List Lexeme}
    (hreturn : '\r' ∉ cs) (h : scan q p position cs = .ok ls) : ∀ l ∈ ls, l.Spelled := by
  match cs with
  | [] =>
    rw [scan] at h
    cases h
    exact fun _ hl => absurd hl List.not_mem_nil
  | c :: cs =>
    cases hmeasure : measure q p position.offset c cs with
    | error e =>
      rw [scan] at h
      simp only [hmeasure, bind, Except.bind] at h
      cases h
    | ok r =>
      obtain ⟨k, n⟩ := r
      rw [scan_cons hmeasure] at h
      obtain ⟨others, hothers, rfl⟩ := map_eq_ok h
      have hcs : '\r' ∉ cs := fun h => hreturn (List.mem_cons_of_mem _ h)
      exact List.forall_mem_cons.2 ⟨(measured_iff.2 hmeasure).spelled hcs position,
        spelled_of_scan (fun h => hcs (List.mem_of_mem_drop h)) hothers⟩
termination_by cs.length
decreasing_by simp only [List.length_drop, List.length_cons]; omega

theorem spelled_of_ofText {q : Bool} {text : List Char} {ls : List Lexeme} (hreturn : '\r' ∉ text)
    (h : ofText q text = .ok ls) : ∀ l ∈ ls, l.Spelled := by
  have hofRest {p : Option Char} {start : Position} {rest : List Char} {ls : List Lexeme} (hreturn : '\r' ∉ rest)
      (h : ofRest q p start rest = .ok ls) : ∀ l ∈ ls, l.Spelled := by
    unfold ofRest at h
    split at h
    · obtain ⟨others, hothers, rfl⟩ := map_eq_ok h
      refine List.forall_mem_cons.2 ⟨spelled_trivia _ _ _, spelled_of_scan (fun h => hreturn ?_) hothers⟩
      exact List.mem_of_mem_drop h
    · exact spelled_of_scan hreturn h
  rw [ofText_eq] at h
  split at h
  · next hmark =>
    obtain ⟨rest, rfl⟩ := List.head?_eq_some_iff.1 hmark
    obtain ⟨others, hothers, rfl⟩ := map_eq_ok h
    exact List.forall_mem_cons.2 ⟨spelled_trivia _ _ _,
      hofRest (fun h => hreturn (List.mem_cons_of_mem _ h)) hothers⟩
  · exact hofRest hreturn h

end Lexeme

theorem Text.alphabet_isPlainChar : Alphabet Text.IsPlainChar where
  space := by decide
  visible {c} h := by
    refine ⟨?_, ?_, ?_⟩ <;> rintro rfl <;> revert h <;> decide

/--
What is known of a token of a plain text.
-/
structure Token.IsPlain (t : Token) : Prop where
  characters : t.Over Text.IsPlainChar
  spelled : t.lexeme.Spelled

namespace Token.IsPlain

variable {t : Token} (h : t.IsPlain)
include h

theorem return_notMem : '\r' ∉ t.text.toList := fun hmem => (h.characters.text _ hmem).2.2 rfl

theorem isMultiline_eq_false (hstring : t.kind ≠ .string) (hpragma : t.kind ≠ .pragma)
    (hquote : t.kind ≠ .quasiQuote) : t.isMultiline = false := by
  rw [Token.isMultiline, ← Bool.not_eq_true, List.contains_iff_mem]
  intro hmem
  rcases h.spelled.line _ rfl hmem with hk | hk | hk
  · exact hstring hk
  · exact hpragma hk
  · exact hquote hk

end Token.IsPlain

/--
The tokens of a plain text are plain.
-/
theorem TokenStream.isPlain_of_ofText {text : List Char} {stream : TokenStream} (hplain : Text.IsPlain text)
    (h : ofText text = .ok stream) : ∀ t ∈ stream.toList, t.IsPlain := by
  have hreturn : '\r' ∉ text := fun hmem => (hplain _ hmem).2.2 rfl
  have hjoin := (tiling_lexemes h).join_eq
  obtain ⟨ls, hls, htokens, heof⟩ := ofTextWith_eq h
  have hlexemes : stream.lexemes = ls := by
    rw [lexemes, htokens, heof, Token.lexemes_attach, Token.groupLexemes_eq]
  have hplainOf {l : Lexeme} (hl : l ∈ stream.lexemes) : Text.Over Text.IsPlainChar l.text := by
    intro c hc
    refine hplain c ?_
    obtain ⟨before, after, hsplit⟩ := List.append_of_mem hl
    rw [← hjoin, hsplit, Lexeme.join_append, Lexeme.join_cons]
    exact List.mem_append_right _ (List.mem_append_left _ hc)
  have htrailing : stream.eof.trailing = [] := by rw [heof]
  intro t hmem
  have hpiece (piece : TriviaPiece) (hpiece : piece ∈ t.leading ++ t.trailing) :
      Text.Over Text.IsPlainChar piece.text :=
    hplainOf (piece_mem_lexemes htrailing hmem hpiece)
  have hover (htext : Text.Over Text.IsPlainChar t.text) : t.Over Text.IsPlainChar :=
    ⟨htext, fun piece h => hpiece piece (List.mem_append_left _ h),
      fun piece h => hpiece piece (List.mem_append_right _ h)⟩
  rcases List.mem_append.1 hmem with ht | ht
  · exact ⟨hover (hplainOf (mem_lexemes ht)), Lexeme.spelled_of_ofText hreturn hls _ (hlexemes ▸ mem_lexemes ht)⟩
  · have htext : t.text = "" := by rw [List.mem_singleton.1 ht, heof]
    have hkind : t.lexeme.kind = .token .endOfText := by
      rw [List.mem_singleton.1 ht, heof]
      rfl
    refine ⟨hover (htext ▸ .empty), fun h => absurd (hkind.symm.trans h) (by decide), fun _ _ h => ?_⟩
    have : t.lexeme.text = "" := htext
    simp [this] at h

open Text (crlfString)

variable (σ : Nat → Nat)

namespace Pragma

/--
A pragma that stands between its delimiters.
-/
def IsDelimited (p : Pragma) : Prop :=
  ∃ body, p.token.text.toList = ['\x7b', '-', '#'] ++ body ++ ['#', '-', '\x7d']

theorem isDelimited_of_isPlain {t : Token} (h : t.IsPlain) (hkind : t.kind = .pragma) ( pinned : Bool) :
    IsDelimited ⟨t, pinned⟩ :=
  h.spelled.pragma (congrArg _ hkind)

variable {p : Pragma} (h : p.IsDelimited)
include h

@[simp] theorem words_crlf : (mapTokens (Token.crlf σ) p).words = p.words := by
  obtain ⟨body, hbody⟩ := h
  have hcrlf : (mapTokens (Token.crlf σ) p).token.text.toList
      = ['\x7b', '-', '#'] ++ Text.crlf body ++ ['#', '-', '\x7d'] := by
    show (p.token.crlf σ).text.toList = _
    rw [Token.text_crlf, Text.toList_crlfString, hbody, Text.crlf_append, Text.crlf_append]
    rfl
  rw [words_eq hcrlf, words_eq hbody, Text.words_crlf]

@[simp] theorem name_crlf : (mapTokens (Token.crlf σ) p).name = p.name := by
  rw [name, words_crlf σ h, name]

@[simp] theorem body_crlf : (mapTokens (Token.crlf σ) p).body = p.body := by
  rw [body, words_crlf σ h, body]

@[simp] theorem extensions_crlf : (mapTokens (Token.crlf σ) p).extensions = p.extensions := by
  rw [extensions, name_crlf σ h, body_crlf σ h, extensions]

@[simp] theorem isHeader_crlf : (mapTokens (Token.crlf σ) p).isHeader = p.isHeader := by
  rw [isHeader, name_crlf σ h, isHeader]

@[simp] theorem target_crlf : (mapTokens (Token.crlf σ) p).target = p.target := by
  rw [target, name_crlf σ h, words_crlf σ h, target]

@[simp] theorem blockIndex_crlf : (mapTokens (Token.crlf σ) p).blockIndex = p.blockIndex := by
  rw [blockIndex, name_crlf σ h, blockIndex]

@[simp] theorem isLanguage_crlf : (mapTokens (Token.crlf σ) p).isLanguage = p.isLanguage := by
  have hmultiline : (mapTokens (Token.crlf σ) p).token.isMultiline = p.token.isMultiline :=
    Token.isMultiline_crlf σ p.token
  rw [isLanguage, name_crlf σ h, extensions_crlf σ h, hmultiline, isLanguage]

@[simp] theorem flatLanguage_crlf : (mapTokens (Token.crlf σ) p).flatLanguage = p.flatLanguage := by
  rw [flatLanguage, words_crlf σ h, extensions_crlf σ h, flatLanguage]

@[simp] theorem languageText_crlf (width : Nat) : (mapTokens (Token.crlf σ) p).languageText width = p.languageText width := by
  rw [languageText, flatLanguage_crlf σ h, languageText]

end Pragma

@[simp] theorem crlfString_padRight {s : String} (h : crlfString s = s) (width : Nat) :
    crlfString (padRight s width) = padRight s width := by
  rw [Text.crlfString_eq_self_iff] at h ⊢
  simp [padRight, h]

namespace Pragma

variable (p : Pragma)

theorem crlfString_word : ∀ word ∈ p.words, crlfString word = word := by
  intro word hword
  obtain ⟨cs, hcs, rfl⟩ := List.mem_map.1 hword
  rw [Text.crlfString_eq_self_iff, String.toList_ofList]
  exact fun hmem => absurd (Text.not_of_mem_fields (List.mem_filter.1 hcs).1 '\n' hmem) (by decide)

theorem crlfString_intercalate_words {words : List String} (h : words ⊆ p.words) :
    crlfString (" ".intercalate words) = " ".intercalate words :=
  Text.crlfString_intercalate_eq_self (by decide) fun word hword => p.crlfString_word word (h hword)

theorem crlfString_extension : ∀ extension ∈ p.extensions, crlfString extension = extension := by
  intro extension hextension
  have hbody := Text.crlfString_eq_self_iff.1 (p.crlfString_intercalate_words (List.drop_subset 1 p.words))
  unfold extensions at hextension
  split at hextension
  · obtain ⟨part, hpart, rfl⟩ := List.mem_map.1 hextension
    obtain ⟨field, hfield, rfl⟩ := List.mem_map.1 (List.mem_filter.1 hpart).1
    rw [Text.crlfString_eq_self_iff, String.toList_ofList]
    have hwithin := (Text.infix_trimBlanks field).trans (Text.infix_of_mem_fields hfield)
    exact fun hmem => hbody (hwithin.subset hmem)
  · cases hextension

@[simp] theorem crlfString_languageText (width : Nat) : crlfString (p.languageText width) = p.languageText width := by
  have hname : crlfString (p.words.headD "LANGUAGE") = p.words.headD "LANGUAGE" := by
    cases hwords : p.words with
    | nil => decide
    | cons word words => exact p.crlfString_word word (hwords ▸ List.mem_cons_self)
  have hlanguage : crlfString p.flatLanguage = p.flatLanguage := by
    have hopening : crlfString "\x7b-# " = "\x7b-# " := by decide
    have hblank : crlfString " " = " " := by decide
    rw [flatLanguage, Text.crlfString_append, Text.crlfString_append, Text.crlfString_append, hopening, hname, hblank,
      Text.crlfString_intercalate_eq_self (by decide) p.crlfString_extension]
  have hclosing : crlfString " #-\x7d" = " #-\x7d" := by decide
  rw [languageText, Text.crlfString_append, crlfString_padRight hlanguage, hclosing]

/--
A pragma on one line, or on the lines that it has, with carriage returns.
-/
@[simp] theorem flat_crlf {p : Pragma} (h : p.IsDelimited) :
    (mapTokens (Token.crlf σ) p).flat = crlfString p.flat := by
  have htoken : (mapTokens (Token.crlf σ) p).token = p.token.crlf σ := rfl
  unfold flat
  rw [htoken, Token.isMultiline_crlf, Token.text_crlf, name_crlf σ h, extensions_crlf σ h, languageText_crlf σ h,
    words_crlf σ h]
  split
  · rfl
  · split
    · exact (p.crlfString_languageText 0).symm
    · have hopening : crlfString "\x7b-# " = "\x7b-# " := by decide
      have hclosing : crlfString " #-\x7d" = " #-\x7d" := by decide
      rw [Text.crlfString_append, Text.crlfString_append, hopening, hclosing,
        p.crlfString_intercalate_words (List.Subset.refl _)]

end Pragma

open Text (crlfOffset)

/--
A module with carriage returns before its line feeds.
-/
def Module.crlf (m : Module) : Module where
  headerPragmas := m.headerPragmas.map (mapTokens (Token.crlf σ))
  header := m.header.map (mapTokens (Token.crlf σ))
  imports := m.imports.map (·.map (mapTokens (Token.crlf σ)))
  declarations := m.declarations.map (mapTokens (Token.crlf σ))
  eof := m.eof.crlf σ
  newline := .crlf
  placements := m.placements.map fun (offset, placement) => (σ offset, placement)
  pragmasNormalized := m.pragmasNormalized
  importsNormalized := m.importsNormalized
  importsReorderable := m.importsReorderable

namespace Module

variable (m : Module)

theorem importDecls_crlf : (m.crlf σ).importDecls = m.importDecls.map (mapTokens (Token.crlf σ)) :=
  List.map_flatten.symm

@[simp] theorem tokens_crlf : tokens (m.crlf σ) = (tokens m).map (Token.crlf σ) := by
  have hpragmas : (m.headerPragmas.map (mapTokens (Token.crlf σ))).map (·.token)
      = (m.headerPragmas.map (·.token)).map (Token.crlf σ) := by
    rw [List.map_map, List.map_map]
    rfl
  have himports : (m.imports.map (·.map (mapTokens (Token.crlf σ)))).flatMap (·.flatMap tokens)
      = (m.imports.flatMap (·.flatMap tokens)).map (Token.crlf σ) := by
    simp only [List.flatMap_map, List.map_flatMap, tokens_mapTokens]
  show (m.headerPragmas.map (mapTokens (Token.crlf σ))).map (·.token)
      ++ ((m.header.map (mapTokens (Token.crlf σ))).map tokens).getD []
      ++ (m.imports.map (·.map (mapTokens (Token.crlf σ)))).flatMap (·.flatMap tokens)
      ++ (m.declarations.map (mapTokens (Token.crlf σ))).flatMap tokens ++ [m.eof.crlf σ]
    = (m.headerPragmas.map (·.token) ++ (m.header.map tokens).getD [] ++ m.imports.flatMap (·.flatMap tokens)
      ++ m.declarations.flatMap tokens ++ [m.eof]).map (Token.crlf σ)
  rw [hpragmas, getD_map_tokens, himports, flatMap_tokens_map]
  simp only [List.map_append, List.map_cons, List.map_nil]

end Module

namespace Module

theorem isHeaderPragma_crlf {t : Token} (h : t.IsPlain) : isHeaderPragma (t.crlf σ) = isHeaderPragma t := by
  unfold isHeaderPragma
  rw [Token.kind_crlf]
  by_cases hkind : t.kind = .pragma
  · have hheader := Pragma.isHeader_crlf σ (Pragma.isDelimited_of_isPlain h hkind false)
    rw [← hheader]
    rfl
  · simp [hkind]

theorem groupImports_crlf (imports : List Import) :
    groupImports (imports.map (mapTokens (Token.crlf σ)))
      = (groupImports imports).map (·.map (mapTokens (Token.crlf σ))) := by
  have hblank (group : List Import) :
      ((group.map (mapTokens (Token.crlf σ))).head?.any fun next => 0 < next.keyword.leading.blankLines)
        = group.head?.any fun next => 0 < next.keyword.leading.blankLines := by
    cases group with
    | nil => rfl
    | cons i group =>
      have hleading : (mapTokens (Token.crlf σ) i).keyword.leading = Trivia.crlf σ i.keyword.leading :=
        Token.leading_crlf σ i.keyword
      simp only [List.map_cons, List.head?_cons, Option.any_some, hleading, Trivia.blankLines_crlf]
  induction imports with
  | nil => rfl
  | cons i more ih =>
    rw [List.map_cons, groupImports, groupImports, ih]
    cases groupImports more with
    | nil => rfl
    | cons group groups =>
      simp only [List.map_cons, hblank]
      split <;> rfl

@[simp] theorem hasDirective_crlf (t : Token) : hasDirective (t.crlf σ) = hasDirective t := by
  simp [hasDirective]

theorem newlineOf_of_isPlain {text : List Char} (h : Text.IsPlain text) : newlineOf text = .lf := by
  unfold newlineOf
  rw [if_neg]
  rintro ⟨hlast, -⟩
  exact (h _ ((List.takeWhile_prefix _).subset (List.mem_of_getLast? hlast))).2.2 rfl

theorem newlineOf_crlf {text : List Char} (h : '\n' ∈ text) : newlineOf (Text.crlf text) = .crlf := by
  have hcontains : (Text.crlf text).contains '\n' := by
    rwa [Text.contains_newline_crlf, List.contains_iff_mem]
  have hlast : ((Text.crlf text).takeWhile (· ≠ '\n')).getLast? = some '\r' := by
    clear hcontains
    induction text with
    | nil => cases h
    | cons c cs ih =>
      by_cases hc : c = '\n'
      · subst hc
        rfl
      · have hcs := ih ((List.mem_cons.1 h).resolve_left (Ne.symm hc))
        rw [Text.crlf_cons hc, List.takeWhile_cons_of_pos (by simpa using hc), List.getLast?_cons, hcs]
        rfl
  exact if_pos ⟨hlast, hcontains⟩

theorem headerPragmas_crlf {ts : List Token} (h : ∀ t ∈ ts, t.IsPlain) :
    (ts.map (Token.crlf σ)).takeWhile isHeaderPragma = (ts.takeWhile isHeaderPragma).map (Token.crlf σ)
      ∧ (ts.map (Token.crlf σ)).dropWhile isHeaderPragma = (ts.dropWhile isHeaderPragma).map (Token.crlf σ) := by
  induction ts with
  | nil => exact ⟨rfl, rfl⟩
  | cons t ts ih =>
    obtain ⟨htake, hdrop⟩ := ih fun u hu => h u (List.mem_cons_of_mem t hu)
    have ht := isHeaderPragma_crlf σ (h t List.mem_cons_self)
    simp only [List.map_cons, List.takeWhile_cons, List.dropWhile_cons, ht]
    split
    · exact ⟨congrArg (t.crlf σ :: ·) htake, hdrop⟩
    · exact ⟨rfl, rfl⟩

theorem assemble_crlf {text : List Char} (hnewline : '\n' ∈ text) {stream : TokenStream}
    (hstream : ∀ t ∈ stream.tokens, t.IsPlain) (header : Option Header) (ds : List Declaration) :
    assemble (Text.crlf text) (stream.crlf σ) (header.map (mapTokens (Token.crlf σ))) (ds.map (mapTokens (Token.crlf σ)))
      = (assemble text stream header ds).crlf σ := by
  have hpragmas : (stream.crlf σ).tokens.takeWhile isHeaderPragma
      = (stream.tokens.takeWhile isHeaderPragma).map (Token.crlf σ) := (headerPragmas_crlf σ hstream).1
  have heof : (stream.crlf σ).eof = stream.eof.crlf σ := rfl
  have hdirectives (imports : List Import) :
      ((imports.map (mapTokens (Token.crlf σ))).any fun i => (tokens i).any hasDirective)
        = imports.any fun i => (tokens i).any hasDirective := by
    simp [Function.comp_def]
  have hfollowing (ds : List Declaration) :
      (((ds.map (mapTokens (Token.crlf σ))).head?.map firstToken).getD (stream.eof.crlf σ)).leading.hasDirective
        = ((ds.head?.map firstToken).getD stream.eof).leading.hasDirective := by
    cases ds with
    | nil => exact (Trivia.hasDirective_crlf σ _)
    | cons d ds =>
      simp only [List.map_cons, List.head?_cons, Option.map_some, Option.getD_some, firstToken_mapTokens,
        Token.leading_crlf, Trivia.hasDirective_crlf]
  unfold assemble crlf
  simp only [newlineOf_crlf hnewline, hpragmas, heof, splitImports_map (Token.crlf σ), groupImports_crlf, hdirectives, hfollowing,
    List.isEmpty_map, List.map_map]
  rfl

/--
The module of a plain text with carriage returns before its line feeds is that of the text without them.
-/
theorem read_crlf {text : List Char} (hnewline : '\n' ∈ text) (hplain : Text.IsPlain text) :
    (read (Text.crlf text)).toOption = (read text).toOption.map (crlf (crlfOffset text)) := by
  have hreturn : '\r' ∉ text := fun hmem => (hplain _ hmem).2.2 rfl
  rw [read_eq_bind, read_eq_bind]
  show (TokenStream.ofText _ >>= _).toOption = (TokenStream.ofText _ >>= _).toOption.map _
  rw [toOption_bind, toOption_bind, TokenStream.ofText_crlf hreturn]
  cases hstream : TokenStream.ofText text with
  | error failure => rfl
  | ok stream =>
    have htokens : ∀ t ∈ stream.tokens, t.IsPlain := fun t ht =>
      TokenStream.isPlain_of_ofText hplain hstream t (List.mem_append_left _ ht)
    generalize crlfOffset text = σ
    have hrest : (stream.crlf σ).tokens.dropWhile isHeaderPragma
        = (stream.tokens.dropWhile isHeaderPragma).map (Token.crlf σ) := (headerPragmas_crlf σ htokens).2
    have heof : (stream.crlf σ).eof = stream.eof.crlf σ := rfl
    simp only [toOption_ok, Option.map_some, Option.bind_some, hrest, heof]
    show (headerOf _ _ >>= _).toOption = (headerOf _ _ >>= _).toOption.map _
    rw [toOption_bind, toOption_bind, headerOf_map (Token.crlf σ)]
    cases (headerOf stream.eof (stream.tokens.dropWhile isHeaderPragma)).toOption with
    | none => rfl
    | some cut =>
      simp only [Option.map_some, Option.bind_some, toOption_map, readBody_map (Token.crlf σ)]
      cases (readBody stream.eof cut.2).toOption with
      | none => rfl
      | some ds => exact congrArg some (assemble_crlf σ hnewline htokens cut.1 ds)

theorem parse_crlf {text : List Char} (hnewline : '\n' ∈ text) (hplain : Text.IsPlain text) :
    (parse (Text.crlf text)).toOption = (parse text).toOption.map (crlf (crlfOffset text)) := by
  rw [parse, parse, toOption_mapError, toOption_mapError, read_crlf hnewline hplain]

end Module

end HaskellStyle
