import HaskellStyle.Module.Read
import HaskellStyle.Proofs.Module.Outline
import HaskellStyle.Proofs.Token.Slice

/-!
This module contains that nothing is lost when a text is read into a module. The module has the tokens of the text,
each once and in order; every part of it has tokens, and they are consecutive tokens of the text, so a part is found
in the text at its place. A text that is no module has its fault at a place of the text.
-/

namespace HaskellStyle

theorem Failure.FoundAt.mono {ts us : List Token} {failure : Failure} (h : failure.FoundAt ts) (hts : ts ⊆ us) :
    failure.FoundAt us := by
  rcases h with h | ⟨t, ht, h⟩
  · exact .inl h
  · exact .inr ⟨t, hts ht, h⟩

theorem headD_mem (ts : List Token) (eof : Token) : ts.headD eof ∈ ts ++ [eof] := by
  cases ts <;> simp

namespace Header

/--
The export list that tokens begin with, if any, and the tokens behind it.
-/
def exportsOf : List Token → Except Failure (Option (ItemList Entry) × List Token)
  | [] => .ok (none, [])
  | opening :: inner =>
    if opening.isSpecial ["("] then
      match ItemList.ofTokens? opening inner with
      | some (list, after) => .ok (some list, after)
      | none => .error ⟨.malformedExports, opening.offset⟩
    else
      .ok (none, opening :: inner)

/--
A part read from the beginning of `ts` and what is left, or a failure found in `ts`.
-/
def Cuts {α : Type} (eof : Token) (ts : List Token) (f : α → List Token) : Except Failure (α × List Token) → Prop
  | .ok (part, rest) => f part ++ rest = ts
  | .error failure => failure.FoundAt (ts ++ [eof])

theorem cuts_exportsOf (eof : Token) (ts : List Token) :
    Cuts eof ts (fun exports => (exports.map tokens).getD []) (exportsOf ts) := by
  cases ts with
  | nil => rfl
  | cons opening inner =>
    rw [exportsOf]
    split
    · split
      · next list after hlist => exact ItemList.ofTokens?_eq hlist
      · exact .inr ⟨opening, List.mem_cons_self, rfl⟩
    · rfl

theorem ofTokens_eq_bind (keyword eof : Token) (ts : List Token) :
    ofTokens keyword eof ts =
      if (ts.headD eof).kind ≠ .conId ∧ (ts.headD eof).kind ≠ .qualifiedConId then
        .error ⟨.missingModuleName, (ts.headD eof).offset⟩
      else
        (exportsOf ((ts.drop 1).dropWhile (·.kind = .pragma))).bind fun (exports, rest) =>
          if !(rest.headD eof).isKeyword ["where"] then
            .error ⟨.missingWhere, (rest.headD eof).offset⟩
          else
            .ok (⟨keyword, ts.headD eof, (ts.drop 1).takeWhile (·.kind = .pragma), exports, rest.headD eof⟩,
              rest.drop 1) := by
  unfold ofTokens
  dsimp only
  split
  · rfl
  · generalize (ts.drop 1).dropWhile (·.kind = .pragma) = rest
    cases rest with
    | nil =>
      show (if _ then _ else _) = (if _ then _ else _)
      split <;> rfl
    | cons opening inner =>
      rw [exportsOf]
      dsimp only
      by_cases hopening : opening.isSpecial ["("]
      · rw [if_pos hopening, if_pos hopening]
        cases ItemList.ofTokens? opening inner with
        | none => rfl
        | some cut =>
          show (if _ then _ else _) = (if _ then _ else _)
          split <;> rfl
      · rw [if_neg hopening, if_neg hopening]
        show (if _ then _ else _) = (if _ then _ else _)
        split <;> rfl

theorem cuts_ofTokens {eof : Token} (heof : eof.kind = .endOfText) (keyword : Token) (ts : List Token) :
    Cuts eof (keyword :: ts) tokens (ofTokens keyword eof ts) := by
  have hsubset {us : List Token} (h : us ⊆ ts) : us ++ [eof] ⊆ (keyword :: ts) ++ [eof] := by
    intro t ht
    rcases List.mem_append.1 ht with ht | ht
    · exact List.mem_append_left _ (List.mem_cons_of_mem _ (h ht))
    · exact List.mem_append_right _ ht
  rw [ofTokens_eq_bind]
  split
  · exact .inr ⟨_, hsubset (fun _ => id) (headD_mem ts eof), rfl⟩
  · next hname =>
    -- Neither the name nor the keyword at the end can be the mark of the end.
    obtain ⟨name, more, rfl⟩ : ∃ name more, ts = name :: more := by
      cases ts with
      | nil => simp [heof] at hname
      | cons name more => exact ⟨name, more, rfl⟩
    have hpragmas : more.takeWhile (·.kind = .pragma) ++ more.dropWhile (·.kind = .pragma) = more :=
      List.takeWhile_append_dropWhile
    have hexports := cuts_exportsOf eof (more.dropWhile (·.kind = .pragma))
    rw [List.drop_one, List.tail_cons]
    cases hcut : exportsOf (more.dropWhile (·.kind = .pragma)) with
    | error failure =>
      rw [hcut] at hexports
      refine Failure.FoundAt.mono hexports (hsubset fun t ht => ?_)
      exact List.mem_cons_of_mem _ ((List.dropWhile_sublist _).subset ht)
    | ok cut =>
      obtain ⟨exports, rest⟩ := cut
      rw [hcut] at hexports
      change (exports.map tokens).getD [] ++ rest = _ at hexports
      show Cuts _ _ _ (if _ then _ else _)
      split
      · refine .inr ⟨_, hsubset (fun t ht => ?_) (headD_mem rest eof), rfl⟩
        rw [← hpragmas, ← hexports]
        simp [ht]
      · next hwhere =>
        obtain ⟨whereKeyword, after, rfl⟩ : ∃ whereKeyword after, rest = whereKeyword :: after := by
          cases rest with
          | nil => simp [Token.isKeyword, heof] at hwhere
          | cons whereKeyword after => exact ⟨whereKeyword, after, rfl⟩
        show keyword :: name :: more.takeWhile (·.kind = .pragma) ++ (exports.map tokens).getD [] ++ [whereKeyword]
          ++ after = keyword :: name :: more
        rw [← hpragmas]
        conv => rhs; rw [← hexports]
        simp

end Header

namespace Module

theorem splitImports_eq (ds : List Declaration) :
    ds = (splitImports ds).1.map .importing ++ (splitImports ds).2 := by
  fun_induction splitImports ds with
  | case1 i more imports others hsplit ih =>
    rw [hsplit] at ih
    rw [List.map_cons, List.cons_append, ← ih]
  | case2 ds _ => rfl

theorem flatten_groupImports (imports : List Import) : (groupImports imports).flatten = imports := by
  induction imports with
  | nil => rfl
  | cons i more ih =>
    rw [groupImports]
    split
    · next hgroups =>
      rw [hgroups] at ih
      rw [← ih]
      rfl
    · next group groups hgroups =>
      rw [hgroups] at ih
      split
      · rw [List.flatten_cons, ih]
        rfl
      · rw [List.flatten_cons, List.cons_append, ← List.flatten_cons, ih]

theorem groupImports_ne_nil {imports group : List Import} (h : group ∈ groupImports imports) : group ≠ [] := by
  induction imports generalizing group with
  | nil => cases h
  | cons i more ih =>
    rw [groupImports] at h
    split at h
    · rw [List.mem_singleton.1 h]
      exact List.cons_ne_nil _ _
    · next first groups hgroups =>
      rw [hgroups] at ih
      split at h
      · rcases List.mem_cons.1 h with rfl | h
        · exact List.cons_ne_nil _ _
        · exact ih h
      · rcases List.mem_cons.1 h with rfl | h
        · exact List.cons_ne_nil _ _
        · exact ih (List.mem_cons_of_mem _ h)

/--
The declarations of a body have its tokens and proper blocks; a failure is found in it.
-/
def ReadsBody (ts : List Token) : Except Failure (List Declaration) → Prop
  | .ok ds => ds.flatMap tokens = ts ∧ ∀ d ∈ ds, ∀ b ∈ d.blocks, b.Proper
  | .error failure => failure.FoundAt ts

theorem readsBody_readBody (eof : Token) (ts : List Token) : ReadsBody ts (readBody eof ts) := by
  unfold readBody
  split
  · exact ⟨rfl, by simp⟩
  · next t more =>
    split
    · constructor
      · show t :: Segment.tokensWith Block.tokens (more.map Segment.token) ++ [] = t :: more
        rw [Segment.tokensWith_map_token, List.append_nil]
      · intro d hd b hb
        rw [List.mem_singleton.1 hd, Declaration.blocks, Run.blocks, Segment.blocks_map_token] at hb
        cases hb
    · have hreads := Layout.reads_read eof (t :: more)
      cases hread : Layout.read eof (t :: more) with
      | error failure =>
        rw [hread] at hreads
        exact hreads
      | ok items =>
        rw [hread] at hreads
        obtain ⟨htokens, hproper⟩ := hreads
        constructor
        · rw [← htokens, List.flatMap_map]
          exact congrArg (List.flatMap · items) (funext fun run => (Declaration.keeps_ofRun run).tokens_eq)
        · rw [List.forall_mem_map]
          intro run hrun b hb
          rw [(Declaration.keeps_ofRun run).blocks_eq] at hb
          exact hproper run hrun b hb

/--
What every run and every declaration of unread tokens has, the declarations of a module have.
-/
theorem forall_of_readBody {eof : Token} {ts : List Token} {ds : List Declaration} (h : readBody eof ts = .ok ds)
    {P : Declaration → Prop} (hraw : ∀ run, P (.raw run)) (hrun : ∀ run, P (.ofRun run)) : ∀ d ∈ ds, P d := by
  unfold readBody at h
  split at h
  · cases h
    exact fun d hd => absurd hd List.not_mem_nil
  · split at h
    · cases h
      exact List.forall_mem_singleton.2 (hraw _)
    · obtain ⟨runs, -, rfl⟩ := map_eq_ok h
      exact List.forall_mem_map.2 fun run _ => hrun run

/--
The tokens that belong before the module header.
-/
def isHeaderPragma (t : Token) : Bool :=
  t.kind = .pragma && Pragma.isHeader { token := t }

/--
The header that tokens begin with, if any, and the tokens behind it.
-/
def headerOf (eof : Token) : List Token → Except Failure (Option Header × List Token)
  | [] => .ok (none, [])
  | keyword :: more =>
    if keyword.isKeyword ["module"] then
      (Header.ofTokens keyword eof more).map fun (header, rest) => (some header, rest)
    else
      .ok (none, keyword :: more)

/--
The module with the given header and declarations.
-/
def assemble (text : List Char) (stream : TokenStream) (header : Option Header) (ds : List Declaration) : Module where
  headerPragmas := (stream.tokens.takeWhile isHeaderPragma).map ({ token := · })
  header := header
  imports := groupImports (splitImports ds).1
  declarations := (splitImports ds).2
  eof := stream.eof
  newline := newlineOf text
  importsReorderable := !(splitImports ds).1.any (fun i => (tokens i).any hasDirective)
    && ((splitImports ds).1.isEmpty
      || !(((splitImports ds).2.head?.map firstToken).getD stream.eof).leading.hasDirective)

theorem read_eq_bind (text : List Char) :
    read text = (TokenStream.ofText text).bind fun stream =>
      (headerOf stream.eof (stream.tokens.dropWhile isHeaderPragma)).bind fun (header, rest) =>
        (readBody stream.eof rest).map (assemble text stream header) := by
  unfold read
  cases TokenStream.ofText text with
  | error failure => rfl
  | ok stream =>
    have hpragmas : (fun t : Token => decide (t.kind = .pragma) && Pragma.isHeader { token := t }) = isHeaderPragma := rfl
    dsimp only [bind, Except.bind]
    rw [hpragmas]
    cases stream.tokens.dropWhile isHeaderPragma with
    | nil =>
      rw [headerOf]
      dsimp only [pure, Except.pure]
      cases readBody stream.eof [] <;> rfl
    | cons keyword more =>
      rw [headerOf]
      dsimp only
      by_cases hmodule : keyword.isKeyword ["module"]
      · rw [if_pos hmodule, if_pos hmodule]
        cases Header.ofTokens keyword stream.eof more with
        | error failure => rfl
        | ok cut =>
          dsimp only [pure, Except.pure, Except.map]
          cases readBody stream.eof cut.2 <;> rfl
      · rw [if_neg hmodule, if_neg hmodule]
        dsimp only [pure, Except.pure]
        cases readBody stream.eof (keyword :: more) <;> rfl

theorem cuts_headerOf {eof : Token} (heof : eof.kind = .endOfText) (ts : List Token) :
    Header.Cuts eof ts (fun header => (header.map tokens).getD []) (headerOf eof ts) := by
  cases ts with
  | nil => rfl
  | cons keyword more =>
    rw [headerOf]
    split
    · have hcuts := Header.cuts_ofTokens heof keyword more
      cases hheader : Header.ofTokens keyword eof more with
      | error failure =>
        rw [hheader] at hcuts
        exact hcuts
      | ok cut =>
        rw [hheader] at hcuts
        exact hcuts
    · rfl

/--
What is known of a module that was read: the stream of its text, its header and its declarations.
-/
theorem read_eq_ok {text : List Char} {m : Module} (h : read text = .ok m) :
    ∃ stream header rest ds, TokenStream.ofText text = .ok stream
      ∧ headerOf stream.eof (stream.tokens.dropWhile isHeaderPragma) = .ok (header, rest)
      ∧ readBody stream.eof rest = .ok ds ∧ m = assemble text stream header ds := by
  rw [read_eq_bind] at h
  cases hstream : TokenStream.ofText text with
  | error failure =>
    rw [hstream] at h
    cases h
  | ok stream =>
    rw [hstream] at h
    change (headerOf _ _).bind _ = _ at h
    cases hheader : headerOf stream.eof (stream.tokens.dropWhile isHeaderPragma) with
    | error failure =>
      rw [hheader] at h
      cases h
    | ok cut =>
      rw [hheader] at h
      change (readBody _ _).map _ = _ at h
      obtain ⟨ds, hds, rfl⟩ := map_eq_ok h
      exact ⟨stream, cut.1, cut.2, ds, rfl, hheader, hds, rfl⟩

theorem tokens_assemble (text : List Char) (stream : TokenStream) (header : Option Header) (ds : List Declaration) :
    tokens (assemble text stream header ds)
      = stream.tokens.takeWhile isHeaderPragma ++ (header.map tokens).getD [] ++ ds.flatMap tokens ++ [stream.eof] := by
  have hpragmas : ((stream.tokens.takeWhile isHeaderPragma).map ({ token := · : Pragma })).map (·.token)
      = stream.tokens.takeWhile isHeaderPragma := by
    rw [List.map_map]
    exact List.map_id _
  have himports : (groupImports (splitImports ds).1).flatMap (·.flatMap tokens) = (splitImports ds).1.flatMap tokens := by
    conv => rhs; rw [← flatten_groupImports (splitImports ds).1]
    rw [List.flatten_eq_flatMap, List.flatMap_assoc]
    rfl
  have hds : ds.flatMap tokens = (splitImports ds).1.flatMap tokens ++ (splitImports ds).2.flatMap tokens := by
    conv => lhs; rw [splitImports_eq ds]
    rw [List.flatMap_append, List.flatMap_map]
    rfl
  show _ ++ _ ++ (groupImports (splitImports ds).1).flatMap _ ++ (splitImports ds).2.flatMap tokens ++ [stream.eof] = _
  rw [himports, hds, ← List.append_assoc]
  show List.map _ (List.map _ _) ++ _ ++ _ ++ _ ++ _ = _
  rw [hpragmas]
  rfl

/--
A part of a text: it has tokens, they are consecutive among the tokens `ts` of the text, and the characters from the
first to the last are the part as written.
-/
structure StandsIn (text : List Char) (ts : List Token) (part : Outline) : Prop where
  nonempty : part.tokens ≠ []
  consecutive : part.tokens <:+: ts
  slice : ∃ span, Token.spanOf? part.tokens = some span
    ∧ Text.slice text span.start span.stop = (Token.textBetween part.tokens).toList

/--
A module in which nothing of a text is lost: it has the tokens of the text, each once and in order, and all parts of
it stand in the text.
-/
structure Lossless (text : List Char) (stream : TokenStream) (m : Module) : Prop where
  tokens_eq : tokens m = stream.toList
  sourceText_eq : m.sourceText = String.ofList text
  parts : ∀ part ∈ (Outline.ofModule m).nodes, StandsIn text stream.toList part

theorem tokens_of_read {text : List Char} {m : Module} (h : read text = .ok m) :
    ∃ stream, TokenStream.ofText text = .ok stream ∧ tokens m = stream.toList ∧ (Outline.ofModule m).Proper := by
  obtain ⟨stream, header, rest, ds, hstream, hheader, hbody, rfl⟩ := read_eq_ok h
  have hcuts := cuts_headerOf (TokenStream.kind_eof hstream) (stream.tokens.dropWhile isHeaderPragma)
  have hreads := readsBody_readBody stream.eof rest
  rw [hheader] at hcuts
  rw [hbody] at hreads
  obtain ⟨htokens, hproper⟩ := hreads
  refine ⟨stream, hstream, ?_, Outline.proper_ofModule (fun group => groupImports_ne_nil) ?_⟩
  · change (header.map tokens).getD [] ++ rest = _ at hcuts
    rw [tokens_assemble, htokens, List.append_assoc (List.takeWhile _ _), hcuts, List.takeWhile_append_dropWhile]
    rfl
  · intro d hd
    apply hproper
    rw [splitImports_eq ds]
    exact List.mem_append_right _ hd

theorem offset_le_of_foundAt {text : List Char} {stream : TokenStream} {ts : List Token} {failure : Failure}
    (hstream : TokenStream.ofText text = .ok stream) (hts : ts ⊆ stream.toList) (h : failure.FoundAt ts) :
    failure.offset ≤ text.length := by
  rcases h with h | ⟨t, ht, h⟩
  · rw [h]
    exact Nat.zero_le _
  · rw [h]
    exact TokenStream.offset_le hstream (hts ht)

theorem offset_le_of_read {text : List Char} {failure : Failure} (h : read text = .error failure) :
    failure.offset ≤ text.length := by
  rw [read_eq_bind] at h
  cases hstream : TokenStream.ofText text with
  | error e =>
    rw [hstream] at h
    cases h
    exact Nat.le_of_lt (TokenStream.opens_of_ofTextWith hstream).lt
  | ok stream =>
    rw [hstream] at h
    change (headerOf _ _).bind _ = _ at h
    have hrest : stream.tokens.dropWhile isHeaderPragma ++ [stream.eof] ⊆ stream.toList :=
      List.append_subset.2 ⟨List.Subset.trans (List.dropWhile_sublist _).subset (List.subset_append_left _ _),
        List.subset_append_right _ _⟩
    have hcuts := cuts_headerOf (TokenStream.kind_eof hstream) (stream.tokens.dropWhile isHeaderPragma)
    cases hheader : headerOf stream.eof (stream.tokens.dropWhile isHeaderPragma) with
    | error e =>
      rw [hheader] at h hcuts
      cases h
      exact offset_le_of_foundAt hstream hrest hcuts
    | ok cut =>
      rw [hheader] at h hcuts
      have hreads := readsBody_readBody stream.eof cut.2
      change (readBody _ _).map _ = _ at h
      cases hbody : readBody stream.eof cut.2 with
      | ok ds =>
        rw [hbody] at h
        cases h
      | error e =>
        rw [hbody] at h hreads
        cases h
        refine offset_le_of_foundAt hstream (fun t ht => hrest (List.mem_append_left _ ?_)) hreads
        rw [← show _ = stream.tokens.dropWhile isHeaderPragma from hcuts]
        exact List.mem_append_right _ ht

/--
A text is read into a module without loss, or else its fault is found at a place in it.
-/
theorem parse_lossless (text : List Char) :
    (∃ failure : Failure, failure.offset ≤ text.length ∧ parse text = .error (ParseError.ofFailure text failure))
      ∨ ∃ m stream, parse text = .ok m ∧ TokenStream.ofText text = .ok stream ∧ m.Lossless text stream := by
  rw [parse]
  cases hread : read text with
  | error failure => exact .inl ⟨failure, offset_le_of_read hread, rfl⟩
  | ok m =>
    obtain ⟨stream, hstream, htokens, hproper⟩ := tokens_of_read hread
    refine .inr ⟨m, stream, rfl, hstream, htokens, ?_, ?_⟩
    · rw [sourceText, htokens]
      exact (TokenStream.lossless_of_ofTextWith hstream).sourceText
    · intro part hpart
      obtain ⟨hne, hwithin⟩ := hproper.of_mem_nodes hpart
      change part.tokens <:+: tokens m at hwithin
      rw [htokens] at hwithin
      exact ⟨hne, hwithin, TokenStream.slice_span hstream hne hwithin⟩

end Module

end HaskellStyle
