import HaskellStyle.Proofs.Module.Verbatim
import HaskellStyle.Proofs.Print.Rewritten

/-!
This module contains that a module that has just been read is written so that it is read again: the layout rule sees the
same tokens in the text written as in the one read. Only a directive that ends in a backslash and blanks is in the way,
since its blanks are trimmed and then the line behind it belongs to it.
-/

namespace HaskellStyle

namespace Lexeme

variable {newline : List Char} {ls : List Lexeme} {ps : List (LexemeKind × List Char)} {x : Shielded} {q : Bool}
  {p : Option Char} {start : Position} {cs t' n : List Char}

/--
Directives and byte order marks are written as they were read.
-/
theorem Written.of_cons {kind : TriviaKind} {w : List Char} (h : Written newline ((.trivia kind, w) :: ps) x)
    (hkind : kind = .directive ∨ kind = .byteOrderMark) :
    ∃ y, x = .ofText (w.contains '\n') w ++ y ∧ Written newline ps y := by
  generalize hps : (LexemeKind.trivia kind, w) :: ps = ps' at h
  cases h with
  | nil => cases hps
  | token => cases hps
  | newline =>
    obtain ⟨hfirst, -⟩ := List.cons.inj hps
    obtain ⟨hk, -⟩ := Prod.mk.inj hfirst
    rcases hkind with rfl | rfl <;> cases hk
  | piece h hk =>
    obtain ⟨hfirst, rfl⟩ := List.cons.inj hps
    obtain ⟨hk, rfl⟩ := Prod.mk.inj hfirst
    exact ⟨_, rfl, h⟩
  | @dropped bs _ _ h hbs hend =>
    cases bs with
    | nil =>
      rw [List.nil_append] at hps
      subst hps
      have := (hend _ rfl).1
      rcases hkind with rfl | rfl <;> cases this
    | cons b bs =>
      have hb := hbs b List.mem_cons_self
      rw [← (List.cons.inj hps).1] at hb
      rcases hkind with rfl | rfl <;> cases hb
  | @respaced bs _ k _ _ _ h hbs hk =>
    cases bs with
    | nil =>
      obtain ⟨hfirst, -⟩ := List.cons.inj hps
      obtain ⟨heq, -⟩ := Prod.mk.inj hfirst
      rcases hkind with rfl | rfl <;> rcases hk with rfl | rfl <;> cases heq
    | cons b bs =>
      have hb := hbs b List.mem_cons_self
      rw [← (List.cons.inj hps).1] at hb
      rcases hkind with rfl | rfl <;> cases hb

/--
What is left of a written text, which can begin with an interpreter line, is read again.
-/
theorem exists_ofRest (h : ofRest q p start cs = .ok ls) (hwritten : Written newline (ls.map spelling) x)
    (hnewline : newline = ['\n'] ∨ newline = ['\r', '\n'])
    (hloose : ∀ l ∈ ls, l.kind = .trivia .directive → ¬isLoose l.text.toList) (ht' : FinalEnd t') (hn : Trims x t' n) :
    (∃ ls', ofRest q p start n = .ok ls' ∧ ∀ fresh column,
        bareTokens fresh column (ls'.map spelling) = bareTokens fresh column (ls.map spelling))
      ∧ (∀ c, isSoft c = false → n.head? = some c → cs.head? = some c)
      ∧ ∀ before, TokenStream.quasiQuotesEnabled (before ++ n) = TokenStream.quasiQuotesEnabled (before ++ cs) := by
  have hloose' {others : List Lexeme} (hothers : others ⊆ ls) (w : List Char)
      (hw : (.trivia .directive, w) ∈ others.map spelling) : ¬isLoose w := by
    obtain ⟨l, hl, heq⟩ := List.mem_map.1 hw
    obtain ⟨hkind, rfl⟩ := Prod.mk.inj heq
    exact hloose l (hothers hl) hkind
  by_cases hline : ∃ more, cs = '#' :: '!' :: more
  · obtain ⟨more, rfl⟩ := hline
    obtain ⟨u, rest, rfl, hlength⟩ : ∃ u rest, more = u ++ rest ∧ directiveLength '!' (u ++ rest) = u.length := by
      refine ⟨_, _, (List.take_append_drop (directiveLength '!' more) more).symm, ?_⟩
      rw [List.take_append_drop, List.length_take_of_le (directiveLength_le '!' more)]
    rw [ofRest_interpreter_append hlength] at h
    obtain ⟨others, hothers, rfl⟩ := map_eq_ok h
    have hspell := spell_of_scan hothers
    have hrest := flatMap_of_spell hspell
    subst hrest
    obtain ⟨y, rfl, hothersWritten⟩ := hwritten.of_cons (.inl rfl)
    obtain ⟨s, hy, hs⟩ := Trims.append_iff.1 hn
    have hread := hothersWritten.readsAs hnewline hspell (hloose' (List.subset_cons_self _ _)) ht' hy
    have hfirst := hloose _ List.mem_cons_self rfl
    rw [String.toList_ofList] at hs hfirst
    have hmark : ∀ e ∈ ['#'] ++ ['!'], LineEdit.isEndBlank e = false :=
      List.forall_mem_cons.2 ⟨rfl, List.forall_mem_singleton.2 rfl⟩
    obtain ⟨w, d, v, rfl, rfl, hd, hv, hafter, hends, hold, hfirm⟩ := ReadsAs.directive_left ['#'] hspell hlength
      hmark hfirst (fun hps => hothersWritten.lineEnd hnewline hps ht' hy)
      (fun hps => by
        rw [hothersWritten.of_nil hps] at hy
        cases hy
        exact ht') hs
    rw [List.append_assoc, List.length_append] at hlength
    obtain ⟨a, b, hsplit, hkept, hbehind⟩ := hread.spell_directive hends hlength hfirm hv hafter
    obtain ⟨ps', hps', hbare⟩ := hbehind ('#' :: '!' :: a).getLast?
    refine ⟨?_, fun c _ hc => hc, fun before => ?_⟩
    · obtain ⟨ls', hls', rfl⟩ := scan_of_spell (start.after ('#' :: '!' :: a)) hps'
      rw [hsplit] at hkept ⊢
      refine ⟨⟨.trivia .directive, String.ofList ('#' :: '!' :: a), start⟩ :: ls', ?_, fun fresh column => ?_⟩
      · show ofRest q p start ('#' :: '!' :: (a ++ b)) = _
        rw [ofRest_interpreter_append hkept, hls']
        rfl
      · rw [List.map_cons, List.map_cons, spelling, spelling, bareTokens_trivia, bareTokens_trivia]
        exact hbare _ _ _ _
    · have hquasi := hread.quasiQuotes_lineEnd hends hold hd hv (before ++ '#' :: '!' :: w)
      simpa only [List.append_assoc, List.cons_append, List.nil_append] using hquasi
  · rw [not_exists] at hline
    rw [ofRest_of_ne hline] at h
    have hspell := spell_of_scan h
    have hcs := flatMap_of_spell hspell
    have hread := hwritten.readsAs hnewline (hcs.symm ▸ hspell) (hloose' (List.Subset.refl _)) ht' hn
    obtain ⟨ps', hps', hbare⟩ := hread.tokens
    obtain ⟨ls', hls', rfl⟩ := scan_of_spell start hps'
    have hagrees := hread.agrees
    have hquasi := hread.quasiQuotes
    rw [hcs] at hagrees hquasi
    refine ⟨⟨ls', ?_, hbare⟩, fun c => hagrees.head?_eq, hquasi⟩
    rw [ofRest_of_ne (hagrees.ne_interpreter hline), hls']

end Lexeme

namespace TokenStream

variable {newline : List Char} {text t' n : List Char} {stream : TokenStream} {x : Shielded} {q : Bool}

/--
What is left of the written lexemes of a text is read again.
-/
theorem exists_ofText (h : ofText text = .ok stream)
    (hwritten : Lexeme.Written newline (stream.lexemes.map Lexeme.spelling) x)
    (hnewline : newline = ['\n'] ∨ newline = ['\r', '\n'])
    (hloose : ∀ l ∈ stream.lexemes, l.kind = .trivia .directive → ¬Lexeme.isLoose l.text.toList) (ht' : FinalEnd t')
    (hn : Trims x t' n) :
    ∃ stream', ofText n = .ok stream' ∧ stream'.tokens.map Token.bare = stream.tokens.map Token.bare := by
  obtain ⟨ls, hls, htokens, heof⟩ := ofTextWith_eq h
  have hlexemes : stream.lexemes = ls := by
    rw [lexemes, htokens, heof, Token.lexemes_attach, Token.groupLexemes_eq]
  rw [hlexemes] at hwritten hloose
  -- The text left has the lexemes of the one read, up to what the layout rule sees.
  have hread : ∃ ls', Lexeme.ofText (quasiQuotesEnabled text) n = .ok ls'
      ∧ Lexeme.bareTokens true 0 (ls'.map Lexeme.spelling) = Lexeme.bareTokens true 0 (ls.map Lexeme.spelling)
      ∧ quasiQuotesEnabled n = quasiQuotesEnabled text := by
    have hmark : Lexeme.isSoft '\ufeff' = false := by decide
    rw [Lexeme.ofText_eq] at hls ⊢
    split at hls
    · next hhead =>
      obtain ⟨cs, rfl⟩ := List.head?_eq_some_iff.1 hhead
      obtain ⟨others, hothers, rfl⟩ := map_eq_ok hls
      obtain ⟨y, rfl, hothersWritten⟩ := hwritten.of_cons (.inr rfl)
      obtain ⟨s, hy, hs⟩ := Trims.append_iff.1 hn
      rw [String.toList_singleton] at hs
      obtain ⟨r, rfl, hr⟩ := hs.keep_first (by decide)
      cases hr
      obtain ⟨⟨ls', hls', hbare⟩, -, hquasi⟩ := Lexeme.exists_ofRest hothers hothersWritten hnewline
        (fun l hl => hloose l (List.mem_cons_of_mem _ hl)) ht' hy
      rw [List.head?_cons, if_pos rfl, List.drop_one, List.tail_cons, hls']
      refine ⟨_, rfl, ?_, hquasi ['\ufeff']⟩
      rw [List.map_cons, List.map_cons, Lexeme.spelling, Lexeme.bareTokens_trivia, Lexeme.bareTokens_trivia, hbare]
    · next hhead =>
      obtain ⟨⟨ls', hls', hbare⟩, hfirst, hquasi⟩ := Lexeme.exists_ofRest hls hwritten hnewline hloose ht' hn
      rw [if_neg fun hc => hhead (hfirst _ hmark hc)]
      exact ⟨ls', hls', hbare true 0, hquasi []⟩
  obtain ⟨ls', hls', hbare, hquasi⟩ := hread
  have hstream' : ∃ stream', ofText n = .ok stream' ∧ stream'.lexemes = ls' := by
    rw [ofText, hquasi]
    refine ⟨_, by rw [ofTextWith, hls']; rfl, ?_⟩
    rw [lexemes, Token.lexemes_attach, Token.groupLexemes_eq]
  obtain ⟨stream', hstream', rfl⟩ := hstream'
  refine ⟨stream', hstream', ?_⟩
  rw [map_bare_tokens hstream', map_bare_tokens h, hbare, hlexemes]

/--
Directives and line ends stand before tokens only.
-/
theorem exists_piece_of_kind (h : ofTextWith q text = .ok stream) {l : Lexeme} (hl : l ∈ stream.lexemes) {kind : TriviaKind}
    (hkind : l.kind = .trivia kind) (hleading : kind = .directive ∨ kind = .newline) :
    ∃ t ∈ stream.toList, ∃ piece ∈ t.leading, piece.lexeme = l := by
  rcases List.mem_append.1 hl with hl | hl
  · obtain ⟨t, ht, hl⟩ := List.mem_flatMap.1 hl
    rcases List.mem_append.1 hl with hl | hl
    · exact ⟨t, List.mem_append_left _ ht, List.mem_map.1 hl⟩
    · exfalso
      rcases List.mem_cons.1 hl with rfl | hl
      · cases hkind
      · obtain ⟨piece, hpiece, rfl⟩ := List.mem_map.1 hl
        have htrailing := kind_trailing h ht hpiece
        rw [LexemeKind.trivia.inj hkind] at htrailing
        rcases hleading with rfl | rfl <;> simp at htrailing
  · exact ⟨stream.eof, List.mem_append_right _ List.mem_cons_self, List.mem_map.1 hl⟩

end TokenStream

theorem Trims.suffix {x : Shielded} {t' t : List Char} (h : Trims x t' t) : t' <:+ t := by
  induction h with
  | nil => exact List.suffix_refl _
  | keep _ _ ih => exact ih.trans (List.suffix_cons _ _)
  | drop _ _ _ ih => exact ih

namespace Module

variable {text : List Char} {m : Module}

/--
A module that has just been read is written as it was read.
-/
theorem written_of_read (h : read text = .ok m) (settings : Settings) :
    ∃ stream : TokenStream, TokenStream.ofText text = .ok stream ∧ tokens m = stream.toList
      ∧ Lexeme.Written ((Printer.ofModule settings m).moduleParts m (Printer.ofModule settings m).start).newline.toList
        (stream.lexemes.map Lexeme.spelling)
        ((Printer.ofModule settings m).moduleParts m (Printer.ofModule settings m).start).marked := by
  obtain ⟨stream, hstream, htokens, -⟩ := tokens_of_read h
  refine ⟨stream, hstream, htokens, ?_⟩
  obtain ⟨ls, -, hattach, heof⟩ := TokenStream.ofTextWith_eq hstream
  have hsound := (TokenStream.tiling_lexemes hstream).sound
  have hleading {t : Token} (ht : t ∈ stream.toList) : ∀ piece ∈ t.leading, piece.lexeme.Sound := fun piece hpiece =>
    hsound _ (TokenStream.piece_mem_lexemes (by rw [heof]) ht (List.mem_append_left _ hpiece))
  obtain ⟨hbody, hend⟩ := List.append_inj' ((tokens_eq_append m).symm.trans htokens) rfl
  have hplace (t : Token) : (Printer.ofModule settings m).placements.lookup t.offset = none := by
    rw [Printer.ofModule, placements_of_read h]
    rfl
  rw [(isFresh_of_read h).moduleParts_eq, hbody, List.singleton_inj.1 hend]
  have hspellings : stream.lexemes.map Lexeme.spelling
      = stream.tokens.flatMap Token.spellings ++ stream.eof.leading.spellings := by
    rw [TokenStream.lexemes, List.map_append, List.map_flatMap]
    rfl
  have hstart : (Printer.ofModule settings m).start.Rewrites []
      (stream.tokens.flatMap Token.spellings ++ (stream.eof.leading.spellings ++ [])) :=
    ⟨Printer.sound_start _, fun y hy => hy⟩
  have hverbatim := Printer.rewrites_verbatim (fun t _ => hplace t)
    (fun t ht => ((TokenStream.lossless_of_ofTextWith hstream).token t ht).1)
    (fun t ht => hleading (List.mem_append_left _ ht)) (fun t ht piece => TokenStream.kind_trailing hstream ht)
    (fun us t vs hsplit ht => by
      have hends := TokenStream.endsLine_behind hstream hsplit ht
      rw [List.map_append, List.map_flatMap] at hends
      rw [List.append_nil]
      exact hends) hstart
  have hwritten := Printer.rewrites_leading (hplace stream.eof) (hleading (List.mem_append_right _ List.mem_cons_self))
    (fun _ x hx => by cases hx) hverbatim
  have hall := hwritten.written [] .nil
  rw [List.append_nil, List.append_nil, List.nil_append, ← hspellings] at hall
  exact hall

/--
A module that has just been read is written so that the same tokens are read again, with the same columns and the same
line starts, and the mark of the end of the text is in column zero. No directive must end in a backslash and blanks.
-/
theorem ofText_render (h : parse text = .ok m) (hfirm : ∀ t ∈ tokens m, ∀ piece ∈ t.leading,
      piece.kind = .directive → ¬Lexeme.isLoose piece.text.toList) (settings : Settings) :
    ∃ stream stream', TokenStream.ofText text = .ok stream ∧ TokenStream.ofText (m.render settings).text = .ok stream'
      ∧ stream'.tokens.map Token.bare = stream.tokens.map Token.bare
      ∧ stream'.eof.bare = Token.bare { stream.eof with position := .origin } := by
  have hread := read_of_parse h
  obtain ⟨stream, hstream, htokens, hwritten⟩ := written_of_read hread settings
  have hsound : ((Printer.ofModule settings m).moduleParts m (Printer.ofModule settings m).start).Sound :=
    sound_moduleParts _
  have hnewline : m.newline.text.toList = ['\n'] ∨ m.newline.text.toList = ['\r', '\n'] :=
    (Printer.sound_start (.ofModule settings m)).newline
  obtain ⟨t', ht', hnil, htrims⟩ := hsound.trims hnewline
  have hloose : ∀ l ∈ stream.lexemes, l.kind = .trivia .directive → ¬Lexeme.isLoose l.text.toList := by
    intro l hl hkind
    obtain ⟨t, ht, piece, hpiece, rfl⟩ := TokenStream.exists_piece_of_kind hstream hl hkind (.inl rfl)
    exact hfirm t (htokens ▸ ht) piece hpiece (LexemeKind.trivia.inj hkind)
  obtain ⟨stream', hstream', hbare⟩ := TokenStream.exists_ofText hstream hwritten hsound.newline hloose ht' htrims
  refine ⟨stream, stream', hstream, hstream', hbare, ?_⟩
  obtain ⟨_, _, _, heof⟩ := TokenStream.ofTextWith_eq hstream
  obtain ⟨_, _, _, heof'⟩ := TokenStream.ofTextWith_eq hstream'
  -- What is written is empty or ends in a line end.
  have hcolumn : Text.visualWidth (m.render settings).text 0 = 0 := by
    obtain ⟨w, hw⟩ := htrims.suffix
    obtain rfl | rfl | rfl := ht'
    · rw [show (m.render settings).text = [] from hnil rfl]
      rfl
    all_goals
      rw [show (m.render settings).text = _ from hw.symm, Text.visualWidth_append]
      rfl
  have hend : (Position.origin.after (m.render settings).text).column = 0 :=
    (Position.column_after _ _).trans hcolumn
  rw [heof, heof', Token.bare, Token.column]
  exact congrArg (fun column => (⟨.endOfText, "", ⟨0, 0, column⟩, [], [], true⟩ : Token)) hend

/--
A module with directives, one of which goes on on the next line, and with blanks and comments that are written anew.
-/
def directives :
    { m // parse "#if A \\\n  && B\r\n\n   \nf = 1-- c  \n#endif \n g".toList = .ok m
      ∧ ∀ t ∈ tokens m, ∀ piece ∈ t.leading, piece.kind = .directive → ¬Lexeme.isLoose piece.text.toList } :=
  sample _ _ (by decide +kernel)

theorem ofText_render_directives :
    ∃ m, parse "#if A \\\n  && B\r\n\n   \nf = 1-- c  \n#endif \n g".toList = .ok m
      ∧ (∀ t ∈ tokens m, ∀ piece ∈ t.leading, piece.kind = .directive → ¬Lexeme.isLoose piece.text.toList)
      ∧ ∃ stream stream', TokenStream.ofText "#if A \\\n  && B\r\n\n   \nf = 1-- c  \n#endif \n g".toList = .ok stream
        ∧ TokenStream.ofText (m.render {}).text = .ok stream'
        ∧ stream'.tokens.map Token.bare = stream.tokens.map Token.bare
        ∧ stream'.eof.bare = Token.bare { stream.eof with position := .origin } := by
  obtain ⟨m, hm, hfirm⟩ := directives
  exact ⟨m, hm, hfirm, ofText_render hm hfirm {}⟩

/--
A module with a directive that ends in a backslash and a blank. Without the blank the line behind it belongs to it.
-/
def looseDirective :
    { m // parse "#define X \\ \nf = 1\n".toList = .ok m
      ∧ (TokenStream.ofText (m.render {}).text).toOption.map (·.tokens.length)
        ≠ (TokenStream.ofText "#define X \\ \nf = 1\n".toList).toOption.map (·.tokens.length) } :=
  sample _ _ (by decide +kernel)

/--
Not every module that has just been read is written so that the same tokens are read again.
-/
theorem not_ofText_render :
    ¬∀ (text : List Char) (m : Module), parse text = .ok m → ∀ settings, ∃ stream stream',
      TokenStream.ofText text = .ok stream ∧ TokenStream.ofText (m.render settings).text = .ok stream'
        ∧ stream'.tokens.map Token.bare = stream.tokens.map Token.bare := by
  intro h
  obtain ⟨m, hm, hne⟩ := looseDirective
  obtain ⟨stream, stream', hstream, hstream', hbare⟩ := h _ m hm {}
  refine hne ?_
  have hlength := congrArg List.length hbare
  rw [List.length_map, List.length_map] at hlength
  rw [hstream, hstream', toOption_ok, toOption_ok, Option.map_some, Option.map_some, hlength]

end Module

end HaskellStyle
