import HaskellStyle.Proofs.Block.Reflow
import HaskellStyle.Proofs.Module.Blocks
import HaskellStyle.Proofs.Module.Faithful
import HaskellStyle.Proofs.Token.Kind
import HaskellStyle.Proofs.Token.Respace

/-!
This module contains the reading of a module whose blanks between two tokens of a declaration are replaced by other
blanks.
-/

namespace HaskellStyle

/--
The texts of the tokens of a part.
-/
def texts {ν : Type} [HasTokens ν] (part : ν) : List String :=
  (tokens part).map (·.text)

theorem texts_of_spelled {ν : Type} [HasTokens ν] {part part' : ν}
    (h : (tokens part').map Token.spelled = (tokens part).map Token.spelled) : texts part' = texts part := by
  have htexts := congrArg (List.map (·.text)) h
  rwa [List.map_map, List.map_map] at htexts

namespace Declaration

/--
Whether a declaration is an import.
-/
def isImport : Declaration → Bool
  | .importing _ => true
  | _ => false

theorem isImport_ofRun (run : Run Block) :
    (ofRun run).isImport
      = (run.first.isKeyword ["import"] && ((Segment.flat? run.rest).bind (Import.ofTokens? run.first)).isSome) := by
  unfold ofRun
  dsimp only
  split
  · next himport =>
    rw [Bool.and_eq_true] at himport
    rw [himport.1, Bool.true_and]
    split
    · next hi => rw [hi]; rfl
    · next hi => rw [hi]; rfl
  · next himport =>
    have hnone : (run.first.isKeyword ["import"]
        && ((Segment.flat? run.rest).bind (Import.ofTokens? run.first)).isSome) = false := by
      rw [Bool.not_eq_true, Bool.and_eq_false_iff] at himport
      rcases himport with hkeyword | hflat
      · rw [hkeyword, Bool.false_and]
      · rw [Option.isSome_eq_false_iff, Option.isNone_iff_eq_none] at hflat
        rw [hflat]
        exact Bool.and_false _
    rw [hnone]
    unfold ofBinding
    repeat' split
    all_goals rfl

/--
Declarations that are both imports or both others, and have the same texts.
-/
structure Same (d d' : Declaration) : Prop where
  isImport_eq : d'.isImport = d.isImport
  texts_eq : texts d' = texts d

theorem same_ofRun {run run' : Run Block} (h : run.Reflowed run') : (ofRun run).Same (ofRun run') where
  isImport_eq := by
    have htokens (run : Run Block) : tokens run = run.first :: Segment.tokensWith Block.tokens run.rest := rfl
    have hspelled := h.spelled_eq
    rw [htokens, htokens] at hspelled
    obtain ⟨hfirst, hrest⟩ := List.cons.inj hspelled
    have hkeyword : run'.first.isKeyword ["import"] = run.first.isKeyword ["import"] := by
      rw [← Token.isKeyword_map Token.spelled run'.first (by decide), hfirst, Token.isKeyword_map _ _ (by decide)]
    have himport (keyword : Token) (ts : List Token) : (Import.ofTokens? keyword ts).isSome
        = (Import.ofTokens? keyword.spelled (ts.map Token.spelled)).isSome := by
      rw [Import.ofTokens?_map, Option.isSome_map]
    rw [isImport_ofRun, isImport_ofRun, hkeyword]
    by_cases hflat : Segment.isFlat run.rest
    · have hsome : Segment.flat? run.rest = some (Segment.topTokens run.rest) := if_pos hflat
      have hsome' : Segment.flat? run'.rest = some (Segment.topTokens run'.rest) := if_pos (h.isFlat_eq.trans hflat)
      rw [Segment.tokensWith_of_flat? _ hsome, Segment.tokensWith_of_flat? _ hsome'] at hrest
      rw [hsome, hsome', Option.bind_some, Option.bind_some, himport run'.first, himport run.first, hfirst, hrest]
    · have hnone : Segment.flat? run.rest = none := if_neg hflat
      have hnone' : Segment.flat? run'.rest = none := if_neg (h.isFlat_eq ▸ hflat)
      rw [hnone, hnone', Option.bind_none, Option.bind_none]
  texts_eq := by
    refine texts_of_spelled ?_
    rw [(keeps_ofRun run').tokens_eq, (keeps_ofRun run).tokens_eq, h.spelled_eq]

theorem map_texts_of_same {ds ds' : List Declaration} (h : List.Forall₂ Same ds ds') :
    ds'.map texts = ds.map texts := by
  induction h with
  | nil => rfl
  | cons hd _ ih => rw [List.map_cons, List.map_cons, hd.texts_eq, ih]

end Declaration

namespace Module

/--
Modules with the same texts of their imports and of their other declarations.
-/
structure SameTexts (m m' : Module) : Prop where
  imports_eq : m'.imports.flatten.map texts = m.imports.flatten.map texts
  declarations_eq : m'.declarations.map texts = m.declarations.map texts

theorem splitImports_same {ds ds' : List Declaration} (h : List.Forall₂ Declaration.Same ds ds') :
    (splitImports ds').1.map texts = (splitImports ds).1.map texts
      ∧ (splitImports ds').2.map texts = (splitImports ds).2.map texts := by
  induction h with
  | nil => exact ⟨rfl, rfl⟩
  | @cons d d' ds ds' hd hds ih =>
    have hothers {d : Declaration} (hd : d.isImport = false) (ds : List Declaration) :
        splitImports (d :: ds) = ([], d :: ds) := by
      cases d with
      | importing i => cases hd
      | _ => rfl
    cases himport : d.isImport with
    | false =>
      rw [hothers himport, hothers (hd.isImport_eq.trans himport)]
      exact ⟨rfl, Declaration.map_texts_of_same (.cons hd hds)⟩
    | true =>
      have himport' : d'.isImport := hd.isImport_eq.trans himport
      cases d with
      | importing i =>
        cases d' with
        | importing i' =>
          simp only [splitImports, List.map_cons]
          exact ⟨List.cons_eq_cons.2 ⟨hd.texts_eq, ih.1⟩, ih.2⟩
        | _ => cases himport'
      | _ => cases himport

theorem sameTexts_assemble {ds ds' : List Declaration} (h : List.Forall₂ Declaration.Same ds ds')
    (text text' : List Char) (stream stream' : TokenStream) (header header' : Option Header) :
    (assemble text stream header ds).SameTexts (assemble text' stream' header' ds') where
  imports_eq := by
    rw [flatten_assemble, flatten_assemble]
    exact (splitImports_same h).1
  declarations_eq := (splitImports_same h).2

/--
Where tokens that are spelled alike have a header, the tokens behind it are spelled alike.
-/
theorem headerOf_spelled {eof eof' : Token} {ts ts' rest : List Token} {header : Option Header}
    (h : headerOf eof ts = .ok (header, rest)) (heof : eof'.spelled = eof.spelled)
    (hspelled : ts'.map Token.spelled = ts.map Token.spelled) :
    ∃ header' rest', headerOf eof' ts' = .ok (header', rest') ∧ rest'.map Token.spelled = rest.map Token.spelled := by
  have hmap := headerOf_map Token.spelled eof' ts'
  rw [heof, hspelled, headerOf_map, h, toOption_ok, Option.map_some] at hmap
  obtain ⟨⟨header', rest'⟩, hread, heq⟩ := Option.map_eq_some_iff.1 hmap.symm
  exact ⟨header', rest', toOption_eq_some hread, (Prod.mk.inj heq).2⟩

/--
A text with the tokens of a module has the same header, and a body with the same tokens.
-/
theorem exists_body_of_spelled {text text' : List Char} {m : Module} {stream stream' : TokenStream}
    (h : read text = .ok m) (hstream : TokenStream.ofText text = .ok stream)
    (hstream' : TokenStream.ofText text' = .ok stream')
    (hspelled : stream'.tokens.map Token.spelled = stream.tokens.map Token.spelled) :
    ∃ header header' ds body', readBody stream.eof m.body = .ok ds ∧ m = assemble text stream header ds
      ∧ m.body <:+ stream.tokens ∧ body' <:+ stream'.tokens ∧ body'.map Token.spelled = m.body.map Token.spelled
      ∧ read text' = (readBody stream'.eof body').map (assemble text' stream' header') := by
  obtain ⟨stream, header, rest, ds, hstream'', hheader, hbody, rfl⟩ := read_eq_ok h
  obtain rfl := Except.ok.inj (hstream''.symm.trans hstream)
  have hdrop (ts : List Token) : (ts.dropWhile isHeaderPragma).map Token.spelled
      = (ts.map Token.spelled).dropWhile isHeaderPragma := by
    rw [List.dropWhile_map]
    rfl
  have heof {text : List Char} {stream : TokenStream} (h : TokenStream.ofText text = .ok stream) :
      stream.eof.spelled = ⟨.endOfText, "", .origin, [], [], false⟩ := by
    obtain ⟨ls, -, -, heof⟩ := TokenStream.ofTextWith_eq h
    rw [heof]
    rfl
  obtain ⟨header', rest', hheader', hrest⟩ := headerOf_spelled hheader ((heof hstream').trans (heof hstream).symm)
    (by rw [hdrop, hspelled, ← hdrop] : (stream'.tokens.dropWhile isHeaderPragma).map Token.spelled = _)
  have hsuffix {stream : TokenStream} {text : List Char} (hstream : TokenStream.ofText text = .ok stream)
      {header : Option Header} {rest : List Token}
      (hheader : headerOf stream.eof (stream.tokens.dropWhile isHeaderPragma) = .ok (header, rest)) :
      rest <:+ stream.tokens := by
    have hcuts := cuts_headerOf (TokenStream.kind_eof hstream) (stream.tokens.dropWhile isHeaderPragma)
    rw [hheader] at hcuts
    exact List.IsSuffix.trans ⟨_, hcuts⟩ (List.dropWhile_suffix _)
  rw [body_assemble hbody]
  refine ⟨header, header', ds, rest', hbody, rfl, hsuffix hstream hheader, hsuffix hstream' hheader', hrest, ?_⟩
  rw [read_eq_bind, hstream']
  change (headerOf stream'.eof (stream'.tokens.dropWhile isHeaderPragma)).bind _ = _
  rw [hheader']
  rfl

/--
The column of the declarations of a module.
-/
def bodyColumn (m : Module) : Int :=
  (m.body.headD m.eof).column

/--
A body in braces is one declaration, however it is laid out.
-/
theorem readBody_braced {eof eof' : Token} {body body' : List Token} {ds : List Declaration}
    (h : readBody eof body = .ok ds) (hbraced : body.head?.any (·.isSpecial ["\x7b"]))
    (hspelled : body'.map Token.spelled = body.map Token.spelled) :
    ∃ ds', readBody eof' body' = .ok ds' ∧ List.Forall₂ Declaration.Same ds ds' := by
  cases body with
  | nil => cases hbraced
  | cons t more =>
    obtain ⟨t', more', rfl, ht, hmore⟩ := List.map_eq_cons_iff.1 hspelled
    have hopening : t.isSpecial ["\x7b"] := hbraced
    have hopening' : t'.isSpecial ["\x7b"] := by
      rw [← Token.isSpecial_map Token.spelled t' (by decide), ht, Token.isSpecial_map _ _ (by decide)]
      exact hopening
    rw [readBody, if_pos hopening] at h
    cases h
    rw [readBody, if_pos hopening']
    refine ⟨_, rfl, .cons ⟨rfl, texts_of_spelled ?_⟩ .nil⟩
    have htokens (t : Token) (more : List Token) : tokens (Declaration.raw ⟨t, more.map .token⟩) = t :: more :=
      congrArg (t :: ·) (Segment.tokensWith_map_token _ _)
    rw [htokens, htokens, hspelled]

theorem readBody_laid {eof : Token} {ts : List Token} (hbraced : ts.head?.any (·.isSpecial ["\x7b"]) = false) :
    readBody eof ts = (Layout.read eof ts).map (List.map Declaration.ofRun) := by
  cases ts with
  | nil => rfl
  | cons t more =>
    have hopening : ¬t.isSpecial ["\x7b"] := by
      rw [Bool.not_eq_true]
      exact hbraced
    rw [readBody, if_neg hopening]
    rfl

theorem any_head?_spelled (ts : List Token) :
    (ts.map Token.spelled).head?.any (·.isSpecial ["\x7b"]) = ts.head?.any (·.isSpecial ["\x7b"]) := by
  cases ts with
  | nil => rfl
  | cons t ts => exact Token.isSpecial_map Token.spelled t (by decide)

/--
The declarations of a body are read again if the blanks between two tokens of one of them are replaced by other ones
behind which its tokens are still right of the body. Only the number of nested blocks can be in the way.
-/
theorem readBody_respace {q : Bool} {text gap : List Char} {stream stream' : TokenStream}
    {body body' us vs : List Token} {ds : List Declaration} {d : Declaration} {a b : Token}
    (h : readBody stream.eof body = .ok ds) (hbraced : body.head?.any (·.isSpecial ["\x7b"]) = false)
    (hstream : TokenStream.ofTextWith q text = .ok stream)
    (hstream' : TokenStream.ofTextWith q (Text.respace text a b gap) = .ok stream')
    (htexts : stream'.tokens.map (·.text) = stream.tokens.map (·.text)) (hsuffix : body <:+ stream.tokens)
    (hsuffix' : body' <:+ stream'.tokens) (hspelled : body'.map Token.spelled = body.map Token.spelled) (hd : d ∈ ds)
    (htokens : tokens d = us ++ a :: b :: vs) (hopen : ∃ o ∈ us ++ [a], o.isSpecial ["\x7b"])
    (hold : Text.IsGap ((text.take b.offset).drop a.stop)) (hgap : Text.IsGap gap) (hcloses : ClosesBrackets (tokens d))
    (hindent : ∀ t ∈ (tokens d).tail, (body.headD stream.eof).column < t.column)
    (hcolumn : (body.headD stream.eof).column < (Position.origin.after (text.take a.stop ++ gap)).column) :
    (∃ ds', readBody stream'.eof body' = .ok ds' ∧ List.Forall₂ Declaration.Same ds ds')
      ∨ Layout.maxNesting ≤ (tokens d).countP (·.opensLayout)
        ∧ readBody stream'.eof body' = .error ⟨.nestingTooDeep, 0⟩ := by
  rw [readBody_laid hbraced] at h
  obtain ⟨items, hitems, rfl⟩ := map_eq_ok h
  obtain ⟨run, hrun, rfl⟩ := List.mem_map.1 hd
  obtain ⟨earlier, later, rfl⟩ := List.append_of_mem hrun
  rw [(Declaration.keeps_ofRun run).tokens_eq] at htokens hcloses hindent ⊢
  have hread := hitems
  rw [Layout.read_eq_readOn] at hread
  have hbody := Layout.tokens_readOn hread
  obtain ⟨front, hfront⟩ := hsuffix
  obtain ⟨front', hfront'⟩ := hsuffix'
  have hsplit : stream.tokens
      = (front ++ earlier.flatMap tokens ++ us) ++ a :: b :: (vs ++ later.flatMap tokens) := by
    rw [← hfront, ← hbody, List.flatMap_append, List.flatMap_cons, htokens]
    simp
  -- A number sign at the margin could begin a directive, but all tokens are right of the body.
  have hnonneg : 0 ≤ (body.headD stream.eof).column := by
    refine TokenStream.column_nonneg hstream ?_
    rw [TokenStream.toList, ← hfront, List.append_assoc]
    exact List.mem_append_right _ (headD_mem body stream.eof)
  have hmark : a.text.toList = ['#'] → a.column ≠ 0 := by
    intro ha
    have hright : (body.headD stream.eof).column < a.column := by
      refine hindent a ?_
      rw [htokens]
      cases us with
      | nil =>
        -- A number sign is no brace.
        obtain ⟨o, ho, hbrace⟩ := hopen
        rw [List.mem_singleton.1 ho, Token.isSpecial, Bool.and_eq_true, List.contains_iff_mem,
          List.mem_singleton] at hbrace
        rw [hbrace.2] at ha
        cases ha
      | cons u us => exact List.mem_append_right _ List.mem_cons_self
    omega
  have hmark' : b.text.toList.head? = some '#' → (Position.origin.after (text.take a.stop ++ gap)).column ≠ 0 :=
    fun _ => by omega
  have htexts' : stream'.tokens.map (·.text.toList) = stream.tokens.map (·.text.toList) := by
    have hlists := congrArg (List.map String.toList) htexts
    rwa [List.map_map, List.map_map] at hlists
  obtain ⟨a', b', back', hsplit', ha', hb', hplace, hback⟩ :=
    TokenStream.exists_of_respace hstream hsplit hold hgap hstream' htexts' hmark hmark'
  -- The new body has as many tokens as the old one, so it begins behind the same token.
  have hbody' : body' = earlier.flatMap tokens ++ us ++ a' :: b' :: back' := by
    have hlength := congrArg List.length hspelled
    rw [List.length_map, List.length_map, ← hbody, List.flatMap_append, List.flatMap_cons, htokens] at hlength
    have hback := hback.length_eq
    rw [List.append_assoc, List.append_assoc, ← List.append_assoc _ us, ← hfront'] at hsplit'
    refine (List.append_inj' hsplit' ?_).2
    simp only [List.length_append, List.length_cons] at hlength hback ⊢
    omega
  have hline : ∀ t ∈ later.flatMap tokens, b.line < t.line := by
    have hfirst :
        stream.tokens = (front ++ earlier.flatMap tokens ++ us ++ [a]) ++ b :: vs ++ later.flatMap tokens := by
      rw [hsplit]
      simp
    exact Layout.line_lt_of_later hstream (Layout.readOn_items hread).1 hfirst
  have hbraced' : body'.head?.any (·.isSpecial ["\x7b"]) = false := by
    rw [← any_head?_spelled, hspelled, any_head?_spelled]
    exact hbraced
  have hcolumn' : (body.headD stream.eof).column < b'.column := by
    rw [← hplace] at hcolumn
    exact hcolumn
  have heof {text : List Char} {stream : TokenStream} (h : TokenStream.ofTextWith q text = .ok stream) :
      stream.eof.isEnd := decide_eq_true (TokenStream.kind_eof h)
  rw [readBody_laid hbraced', hbody']
  rcases Layout.read_moved (heof hstream) (heof hstream') hitems htokens ha' hb' hback hline hcloses hindent
    hcolumn' with ⟨run', later', hread', hreflowed, hlater⟩ | ⟨hmany, herror⟩
  · refine .inl ⟨_, congrArg (Except.map _) hread', ?_⟩
    have hruns : List.Forall₂ Run.Reflowed (earlier ++ run :: later) (earlier ++ run' :: later') :=
      List.rel_append (List.forall₂_same.2 fun _ _ => ⟨rfl, rfl⟩) (.cons hreflowed hlater)
    rw [List.forall₂_map_left_iff, List.forall₂_map_right_iff]
    exact hruns.imp fun _ _ => Declaration.same_ofRun
  · exact .inr ⟨hmany, congrArg (Except.map _) herror⟩

/--
Blanks between two tokens behind an opening brace of a declaration may be replaced by other blanks that leave the tokens
spelled as before: the module has the same imports and declarations. Where the brace does not open the body of the
module, all tokens of the declaration have to be right of the body, before and behind the change, and it has to close
its brackets; then only the number of nested blocks can be in the way.
-/
theorem parse_respace {text gap : List Char} {m : Module} {d : Declaration} {us vs : List Token} {a b : Token}
    (h : parse text = .ok m) (hd : d ∈ m.imports.flatten.map .importing ++ m.declarations)
    (htokens : tokens d = us ++ a :: b :: vs) (hopen : ∃ o ∈ us ++ [a], o.isSpecial ["\x7b"])
    (hold : Text.IsGap ((text.take b.offset).drop a.stop)) (hgap : Text.IsGap gap)
    (htexts : (TokenStream.ofText (Text.respace text a b gap)).map (·.toList.map (·.text)) = .ok (texts m))
    (hlaid : m.isBraced = false → ClosesBrackets (tokens d) ∧ (∀ t ∈ (tokens d).tail, m.bodyColumn < t.column)
      ∧ m.bodyColumn < (Position.origin.after (text.take a.stop ++ gap)).column) :
    (∃ m', parse (Text.respace text a b gap) = .ok m' ∧ m.SameTexts m')
      ∨ Layout.maxNesting ≤ (tokens d).countP (·.opensLayout)
        ∧ ∃ e, parse (Text.respace text a b gap) = .error e ∧ e.fault = .nestingTooDeep := by
  have hread := read_of_parse h
  obtain ⟨stream, hstream, hm, -⟩ := tokens_of_read hread
  obtain ⟨stream', hstream', htexts⟩ := map_eq_ok htexts
  have htexts' : stream'.tokens.map (·.text) = stream.tokens.map (·.text) := by
    rw [texts, hm, TokenStream.toList, TokenStream.toList, List.map_append, List.map_append] at htexts
    exact (List.append_inj' htexts rfl).1
  have hwith :
      TokenStream.ofTextWith (TokenStream.quasiQuotesEnabled text) (Text.respace text a b gap) = .ok stream' := by
    rw [← TokenStream.quasiQuotesEnabled_respace hold hgap]
    exact hstream'
  have hspelled := TokenStream.map_spelled_of_text hstream hwith htexts'
  obtain ⟨header, header', ds, body', hbody, hds, hsuffix, hsuffix', hspelledBody, hread'⟩ :=
    exists_body_of_spelled hread hstream hstream' hspelled
  have hsame {ds' : List Declaration} (hds' : readBody stream'.eof body' = .ok ds')
      (hsame : List.Forall₂ Declaration.Same ds ds') :
      ∃ m', parse (Text.respace text a b gap) = .ok m' ∧ m.SameTexts m' := by
    refine ⟨_, ?_, hds ▸ sameTexts_assemble hsame text (Text.respace text a b gap) stream stream' header header'⟩
    rw [parse, hread', hds']
    rfl
  cases hbraced : m.isBraced with
  | true =>
    obtain ⟨ds', hds', hforall⟩ := readBody_braced hbody hbraced hspelledBody
    exact .inl (hsame hds' hforall)
  | false =>
    obtain ⟨hcloses, hindent, hcolumn⟩ := hlaid hbraced
    have heof : m.eof = stream.eof := by rw [hds]; rfl
    have hmem : d ∈ ds := by
      rw [hds, flatten_assemble, show (assemble text stream header ds).declarations = (splitImports ds).2 from rfl,
        ← splitImports_eq] at hd
      exact hd
    rw [bodyColumn, heof] at hindent hcolumn
    rcases readBody_respace hbody hbraced hstream hwith htexts' hsuffix hsuffix' hspelledBody hmem htokens hopen hold
      hgap hcloses hindent hcolumn with ⟨ds', hds', hforall⟩ | ⟨hmany, herror⟩
    · exact .inl (hsame hds' hforall)
    · refine .inr ⟨hmany, ParseError.ofFailure (Text.respace text a b gap) ⟨.nestingTooDeep, 0⟩, ?_, rfl⟩
      rw [parse, hread', herror]
      rfl

/--
A module with a record in braces in a block.
-/
def bracesInBlock :
    { m // parse "f = do\n  let r = A \x7b x = 1 \x7d\n  g r\n".toList = .ok m ∧ m.isBraced = false
      ∧ texts m = ["f", "=", "do", "let", "r", "=", "A", "\x7b", "x", "=", "1", "\x7d", "g", "r", ""]
      ∧ ∃ d ∈ m.declarations, ClosesBrackets (tokens d)
        ∧ (∀ t ∈ (tokens d).tail, m.bodyColumn < t.column) ∧ m.bodyColumn = 0
        ∧ (tokens d).countP (·.opensLayout) < Layout.maxNesting ∧ (∃ o ∈ (tokens d).take 10, o.isSpecial ["\x7b"])
        ∧ ((tokens d).drop 10).map (fun t => (t.text, t.offset)) = [("1", 25), ("\x7d", 27), ("g", 31), ("r", 33)] } :=
  sample _ _ (by decide +kernel)

theorem parse_respace_block :
    ∃ m m', parse "f = do\n  let r = A \x7b x = 1 \x7d\n  g r\n".toList = .ok m ∧ m.isBraced = false
      ∧ parse "f = do\n  let r = A \x7b x = 1\n \x7d\n  g r\n".toList = .ok m' ∧ m.SameTexts m' := by
  obtain ⟨m, hm, hbraced, htexts, d, hd, hcloses, hindent, hcolumn, hfew, ⟨o, ho, hopen⟩, hdrop⟩ := bracesInBlock
  obtain ⟨a, more, hmore, ha, hb⟩ := List.map_eq_cons_iff.1 hdrop
  obtain ⟨b, vs, rfl, hb, -⟩ := List.map_eq_cons_iff.1 hb
  have hstop : a.stop = 26 := by
    rw [Token.stop, (Prod.mk.inj ha).1, (Prod.mk.inj ha).2]
    decide
  have hoffset : b.offset = 27 := (Prod.mk.inj hb).2
  have htext : Text.respace "f = do\n  let r = A \x7b x = 1 \x7d\n  g r\n".toList a b ['\n', ' ']
      = "f = do\n  let r = A \x7b x = 1\n \x7d\n  g r\n".toList := by
    rw [Text.respace, hstop, hoffset]
    decide +kernel
  have htokens : tokens d = (tokens d).take 10 ++ a :: b :: vs := by rw [← hmore, List.take_append_drop]
  have hold : Text.IsGap (("f = do\n  let r = A \x7b x = 1 \x7d\n  g r\n".toList.take b.offset).drop a.stop) := by
    rw [hstop, hoffset]
    exact .of_all (by decide +kernel) (by decide +kernel)
  have hsame := @parse_respace _ ['\n', ' '] m d _ vs a b hm (List.mem_append_right _ hd) htokens
    ⟨o, List.mem_append_left _ ho, hopen⟩ hold (.of_all (by decide) (by decide))
    (by rw [htext, htexts]; decide +kernel)
    fun _ => ⟨hcloses, hindent, by rw [hcolumn, hstop]; decide +kernel⟩
  rw [htext] at hsame
  rcases hsame with ⟨m', hm', hsame⟩ | ⟨hmany, -⟩
  · exact ⟨m, m', hm, hbraced, hm', hsame⟩
  · exact absurd hfew (Nat.not_lt.2 hmany)

/--
A module with a block in braces.
-/
def bracesOnLine :
    { m // parse "f = do \x7b x \x7d\n".toList = .ok m ∧ texts m = ["f", "=", "do", "\x7b", "x", "\x7d", ""]
      ∧ ∃ d ∈ m.declarations, ClosesBrackets (((tokens d).drop 4).take 1)
        ∧ ((tokens d).drop 3).map (fun t => (t.kind, t.text, t.offset))
          = [(.special, "\x7b", 7), (.varId, "x", 9), (.special, "\x7d", 11)] } :=
  sample _ _ (by decide +kernel)

/--
Between braces in a declaration the layout rule is not off: not all blanks can be replaced there, even where all tokens
are spelled as before.
-/
theorem not_parse_respace :
    ¬∀ (text gap : List Char) (m : Module) (d : Declaration) (xs ys zs us vs : List Token) (o c a b : Token),
      parse text = .ok m → d ∈ m.imports.flatten.map .importing ++ m.declarations →
      tokens d = xs ++ (o :: ys ++ [c]) ++ zs → o.isSpecial ["\x7b"] → c.isSpecial ["\x7d"] → ClosesBrackets ys →
      o :: ys ++ [c] = us ++ a :: b :: vs → Text.IsGap ((text.take b.offset).drop a.stop) →
      gap ≠ [] → (∀ c ∈ gap, c = ' ' ∨ c = '\n') →
      (TokenStream.ofText (Text.respace text a b gap)).map (·.toList.map (·.text)) = .ok (texts m) →
      ∃ m', parse (Text.respace text a b gap) = .ok m' ∧ m.SameTexts m' := by
  intro h
  obtain ⟨m, hm, htexts, d, hd, hcloses, hdrop⟩ := bracesOnLine
  obtain ⟨o, more, hmore, ho, hrest⟩ := List.map_eq_cons_iff.1 hdrop
  obtain ⟨a, more, rfl, ha, hrest⟩ := List.map_eq_cons_iff.1 hrest
  obtain ⟨b, more, rfl, hb, hrest⟩ := List.map_eq_cons_iff.1 hrest
  obtain rfl := List.map_eq_nil_iff.1 hrest
  simp only [Prod.mk.injEq] at ho ha hb
  have hinner : ((tokens d).drop 4).take 1 = [a] := by
    rw [show 4 = 3 + 1 from rfl, ← List.drop_drop, hmore]
    rfl
  have hstop : a.stop = 10 := by
    rw [Token.stop, ha.2.1, ha.2.2]
    decide
  have htext : Text.respace "f = do \x7b x \x7d\n".toList a b ['\n'] = "f = do \x7b x\n\x7d\n".toList := by
    rw [Text.respace, hstop, hb.2.2]
    decide +kernel
  have hold : Text.IsGap (("f = do \x7b x \x7d\n".toList.take b.offset).drop a.stop) := by
    rw [hstop, hb.2.2]
    exact .of_all (by decide +kernel) (by decide +kernel)
  have htokens : tokens d = (tokens d).take 3 ++ (o :: [a] ++ [b]) ++ [] := by
    rw [List.append_nil]
    exact (List.take_append_drop 3 (tokens d)).symm.trans (congrArg _ hmore)
  have hspecial (t : Token) (w : String) (hkind : t.kind = .special) (hw : t.text = w) : t.isSpecial [w] := by
    simp [Token.isSpecial, hkind, hw]
  obtain ⟨m', hm', -⟩ := h _ ['\n'] m d _ [a] [] [o] [] o b a b hm (List.mem_append_right _ hd) htokens
    (hspecial o _ ho.1 ho.2.1) (hspecial b _ hb.1 hb.2.1) (hinner ▸ hcloses) rfl hold (by decide) (by simp)
    (by rw [htext, htexts]; decide +kernel)
  rw [htext] at hm'
  have hnone : (parse "f = do \x7b x\n\x7d\n".toList).toOption = none := by decide +kernel
  rw [hm'] at hnone
  cases hnone

end Module

end HaskellStyle
