import HaskellStyle.Proofs.Block.Open
import HaskellStyle.Proofs.Block.Depth
import HaskellStyle.Proofs.Fault
import HaskellStyle.Proofs.Module.Region

/-!
This module contains what is known of the blocks in a module that was read. Their items are aligned. Nested blocks are
deeper than the blocks around them unless they begin behind a token that goes over a line end, and the brackets of a
declaration are closed unless an item of a nested block leaves one open.
-/

namespace HaskellStyle

namespace Module

/--
All layout blocks of a module, the nested ones included.
-/
def blocks (m : Module) : List Block :=
  m.declarations.flatMap fun d => d.blocks.flatMap Block.nested

/--
The tokens of a module behind its header.
-/
def body (m : Module) : List Token :=
  m.imports.flatten.flatMap tokens ++ m.declarations.flatMap tokens

/--
Whether the body of a module is a block in braces.
-/
def isBraced (m : Module) : Bool :=
  m.body.head?.any (·.isSpecial ["\x7b"])

/--
The declarations of a body, imports included, that is no block in braces: they are items that keep to the layout rule.
-/
theorem exists_items_of_readBody {eof : Token} {ts : List Token} {ds : List Declaration}
    (h : readBody eof ts = .ok ds) (hbraced : ts.head?.any (·.isSpecial ["\x7b"]) = false) :
    ∃ items, ds = items.map .ofRun ∧ Layout.BodyLaid items := by
  unfold readBody at h
  split at h
  · cases h
    exact ⟨[], rfl, by simp [Layout.BodyLaid]⟩
  · split at h
    · next hopening =>
      rw [List.head?_cons, Option.any_some, hopening] at hbraced
      cases hbraced
    · cases hread : Layout.read eof _ with
      | error failure =>
        rw [hread] at h
        cases h
      | ok items =>
        rw [hread] at h
        cases h
        exact ⟨items, rfl, Layout.bodyLaid_read hread⟩

/--
Every declaration of a body is read from a run whose blocks keep to the layout rule.
-/
theorem exists_run_of_readBody {eof : Token} {ts : List Token} {ds : List Declaration} (h : readBody eof ts = .ok ds) :
    ∀ d ∈ ds, ∃ run, d.Keeps run ∧ ∀ b ∈ run.blocks, ∀ c ∈ b.nested, c.Laid := by
  cases hbraced : ts.head?.any (·.isSpecial ["\x7b"]) with
  | false =>
    obtain ⟨items, rfl, hitems⟩ := exists_items_of_readBody h hbraced
    rw [List.forall_mem_map]
    exact fun run hrun => ⟨run, Declaration.keeps_ofRun run, (hitems run hrun).2⟩
  | true =>
    -- A block in braces is kept as one declaration without blocks.
    obtain ⟨t, more, rfl⟩ : ∃ t more, ts = t :: more := by
      cases ts with
      | nil => cases hbraced
      | cons t more => exact ⟨t, more, rfl⟩
    rw [List.head?_cons, Option.any_some] at hbraced
    rw [readBody, if_pos hbraced] at h
    cases h
    rw [List.forall_mem_singleton]
    refine ⟨_, Declaration.keeps_raw _, fun b hb => ?_⟩
    rw [Run.blocks, Segment.blocks_map_token] at hb
    cases hb

theorem flatten_assemble (text : List Char) (stream : TokenStream) (header : Option Header) (ds : List Declaration) :
    (assemble text stream header ds).imports.flatten = (splitImports ds).1 :=
  flatten_groupImports _

theorem body_assemble {eof : Token} {ts : List Token} {ds : List Declaration} (h : readBody eof ts = .ok ds)
    (text : List Char) (stream : TokenStream) (header : Option Header) :
    (assemble text stream header ds).body = ts := by
  have hreads := readsBody_readBody eof ts
  rw [h] at hreads
  rw [body, flatten_assemble, ← hreads.1]
  conv => rhs; rw [splitImports_eq ds]
  rw [List.flatMap_append, List.flatMap_map]
  rfl

/--
The body of a module that was read: its tokens are consecutive, and they are read into its imports and declarations.
-/
theorem readBody_body {text : List Char} {m : Module} (h : read text = .ok m) :
    ∃ stream, TokenStream.ofText text = .ok stream ∧ m.body <:+: stream.tokens
      ∧ readBody stream.eof m.body = .ok (m.imports.flatten.map .importing ++ m.declarations) := by
  obtain ⟨stream, header, rest, ds, hstream, hheader, hbody, rfl⟩ := read_eq_ok h
  have hcuts := cuts_headerOf (TokenStream.kind_eof hstream) (stream.tokens.dropWhile isHeaderPragma)
  rw [hheader] at hcuts
  rw [body_assemble hbody, flatten_assemble]
  refine ⟨stream, hstream, ?_, hbody.trans (congrArg Except.ok (splitImports_eq ds))⟩
  have hsuffix : rest <:+ stream.tokens.dropWhile isHeaderPragma := ⟨_, hcuts⟩
  exact (hsuffix.trans (List.dropWhile_suffix _)).isInfix

variable {text : List Char} {m : Module}

/--
A block of a module that was read keeps to the layout rule, and its tokens are consecutive tokens of the body.
-/
theorem laid_of_parse (h : parse text = .ok m) {b : Block} (hb : b ∈ m.blocks) : b.Laid ∧ b.tokens <:+: m.body := by
  obtain ⟨stream, -, -, hbody⟩ := readBody_body (read_of_parse h)
  obtain ⟨d, hd, hb⟩ := List.mem_flatMap.1 hb
  obtain ⟨top, htop, hb⟩ := List.mem_flatMap.1 hb
  obtain ⟨run, hkeeps, hlaid⟩ := exists_run_of_readBody hbody d (List.mem_append_right _ hd)
  rw [hkeeps.blocks_eq] at htop
  refine ⟨hlaid top htop b hb, ?_⟩
  have hrun : top.tokens <:+: tokens d := by
    rw [hkeeps.tokens_eq]
    exact Segment.infix_tokensWith Block.tokens htop
  have hdeclaration : tokens d <:+: m.body := by
    obtain ⟨before, after, hsplit⟩ := List.append_of_mem hd
    rw [body, hsplit, List.flatMap_append, List.flatMap_cons, ← List.append_assoc, ← List.append_assoc]
    exact List.infix_append_of_infix_left (List.suffix_append _ _).isInfix
  exact ((Block.infix_of_mem_nested hb).trans hrun).trans hdeclaration

theorem nested_subset_blocks {b : Block} (hb : b ∈ m.blocks) : b.nested ⊆ m.blocks := by
  obtain ⟨d, hd, hb⟩ := List.mem_flatMap.1 hb
  obtain ⟨top, htop, hb⟩ := List.mem_flatMap.1 hb
  intro c hc
  exact List.mem_flatMap.2 ⟨d, hd, List.mem_flatMap.2 ⟨top, htop, Block.nested_subset hb hc⟩⟩

/--
The blocks of every text that is a module are aligned.
-/
theorem blocks_aligned (h : parse text = .ok m) : ∀ b ∈ m.blocks, b.Aligned :=
  fun _ hb => (laid_of_parse h hb).1.aligned

/--
A module with a `do` block of two items, the first of which goes on with `then` and `else` in the column of the items.
-/
def ifBlock :
    { m // parse "f = do\n  if a\n  then b\n  else case c of\n    D -> e\n  g\n".toList = .ok m
      ∧ ∃ b ∈ m.blocks, b.kind = .doBlock ∧ b.items.length = 2 ∧ b.inner.length = 1 } :=
  sample _ _ (by decide +kernel)

theorem blocks_aligned_if :
    ∃ m, parse "f = do\n  if a\n  then b\n  else case c of\n    D -> e\n  g\n".toList = .ok m
      ∧ ∃ b ∈ m.blocks, (b.kind = .doBlock ∧ b.items.length = 2 ∧ b.inner.length = 1) ∧ b.Aligned := by
  obtain ⟨m, hm, b, hb, hblock⟩ := ifBlock
  exact ⟨m, hm, b, hb, hblock, blocks_aligned hm b hb⟩

/--
The blocks nested in a block are deeper than the block, and so are their lines, unless one of them begins on a line on
which a token of the block ends that goes over a line end.
-/
theorem nested_deeper (h : parse text = .ok m) {b : Block} (hb : b ∈ m.blocks)
    (hlines : ∀ c ∈ b.inner, ∀ t ∈ b.tokens, t.isMultiline → t.endLine ≠ c.firstToken.line) :
    ∀ c ∈ b.inner, b.column < c.column ∧ ∀ t ∈ c.tokens, t.lineStart → b.column < t.column := by
  obtain ⟨stream, hstream, hbody, -⟩ := readBody_body (read_of_parse h)
  have hclear : b.Clear fun line => ∃ t ∈ b.tokens, t.isMultiline ∧ t.endLine = line := by
    constructor
    case laid => exact fun c hc => (laid_of_parse h (nested_subset_blocks hb hc)).1
    case adjacent =>
      have hchain := TokenStream.isChain_adjacent hstream
      exact hchain.infix ((laid_of_parse h hb).2.trans hbody)
    case multiline => exact fun t ht hends => ⟨t, ht, hends, rfl⟩
    case begins =>
      rintro c hc ⟨t, ht, hends, hline⟩
      exact hlines c hc t ht hends hline
  have hdeep := (hclear.deep (Int.le_refl b.column)).lt
  intro c hc
  refine ⟨hdeep c hc, fun t ht hline => ?_⟩
  have hnested := Block.nested_subset_inner hc
  obtain ⟨d, hd, hle⟩ := Block.exists_column_le_of_mem_tokens
    (fun d hd => hclear.laid d (Block.mem_nested_of_mem_inner (hnested hd))) ht hline
  exact Int.lt_of_lt_of_le (hdeep d (hnested hd)) hle

/--
A module with a `let` block behind a string that goes over a line end.
-/
def letBehindString :
    { m // parse "f = do\n  x \"a\\\n    \\b\"\n  let y = 1\n      z = 2\n  w\n".toList = .ok m ∧ ∃ b ∈ m.blocks,
      (∀ c ∈ b.inner, ∀ t ∈ b.tokens, t.isMultiline → t.endLine ≠ c.firstToken.line)
        ∧ b.inner.length = 1 ∧ b.tokens.any (·.isMultiline) } :=
  sample _ _ (by decide +kernel)

theorem nested_deeper_let :
    ∃ m, parse "f = do\n  x \"a\\\n    \\b\"\n  let y = 1\n      z = 2\n  w\n".toList = .ok m ∧ ∃ b ∈ m.blocks,
      ((∀ c ∈ b.inner, ∀ t ∈ b.tokens, t.isMultiline → t.endLine ≠ c.firstToken.line)
          ∧ b.inner.length = 1 ∧ b.tokens.any (·.isMultiline))
        ∧ ∀ c ∈ b.inner, b.column < c.column ∧ ∀ t ∈ c.tokens, t.lineStart → b.column < t.column := by
  obtain ⟨m, hm, b, hb, hblock⟩ := letBehindString
  exact ⟨m, hm, b, hb, hblock, nested_deeper hm hb hblock.1⟩

/--
A module in which a block begins left of the block around it, behind the end of a string that goes over a line end. It
has the next line, although that begins in the column of the outer items.
-/
def doBehindString :
    { m // parse "f = do\n         x \"abc\\\n\\\" do y\n         z\n".toList = .ok m ∧ ∃ b ∈ m.blocks,
      ∃ c ∈ b.inner, c.column < b.column ∧ ∃ t ∈ c.tokens, t.lineStart ∧ t.column = b.column } :=
  sample _ _ (by decide +kernel)

/--
Nested blocks are not always deeper than the blocks around them.
-/
theorem not_nested_deeper :
    ¬∀ (text : List Char) (m : Module), parse text = .ok m → ∀ b ∈ m.blocks, ∀ c ∈ b.inner,
      b.column < c.column ∧ ∀ t ∈ c.tokens, t.lineStart → b.column < t.column := by
  intro h
  obtain ⟨m, hm, b, hb, c, hc, hlt, -⟩ := doBehindString
  exact absurd (h _ m hm b hb c hc).1 (Int.not_lt.2 (Int.le_of_lt hlt))

instance (ts : List Token) : Decidable (ClosesBrackets ts) :=
  inferInstanceAs (Decidable (ts.foldl Layout.countBracket [] = []))

/--
In a module whose body is no block in braces, the imports close their brackets, and so does every declaration unless an
item of a block nested in it leaves a bracket open.
-/
theorem brackets_closed (h : parse text = .ok m) (hbraced : m.isBraced = false) :
    (∀ i ∈ m.imports.flatten, ClosesBrackets (tokens i))
      ∧ ∀ d ∈ m.declarations, (∀ b ∈ d.blocks, ∀ c ∈ b.nested, ∀ run ∈ c.items, ClosesBrackets (tokens run)) →
          ClosesBrackets (tokens d) := by
  obtain ⟨stream, -, -, hbody⟩ := readBody_body (read_of_parse h)
  obtain ⟨items, hitems, hlaid⟩ := exists_items_of_readBody hbody hbraced
  have hdeclaration (d : Declaration) (hd : d ∈ items.map .ofRun)
      (hcloses : ∀ b ∈ d.blocks, ∀ c ∈ b.nested, ∀ run ∈ c.items, ClosesBrackets (tokens run)) :
      ClosesBrackets (tokens d) := by
    obtain ⟨run, hrun, rfl⟩ := List.mem_map.1 hd
    rw [(Declaration.keeps_ofRun run).blocks_eq] at hcloses
    rw [(Declaration.keeps_ofRun run).tokens_eq]
    exact hlaid.closesBrackets hrun hcloses
  rw [← hitems] at hdeclaration
  constructor
  · intro i hi
    refine hdeclaration (.importing i) (List.mem_append_left _ (List.mem_map_of_mem hi)) ?_
    intro b hb
    cases hb
  · exact fun d hd => hdeclaration d (List.mem_append_right _ hd)

/--
A module with brackets in an import, in a nested block and around it.
-/
def bracketsAroundBlock :
    { m // parse "import A (b)\nf = (do\n  x (a)\n  y) [1]\n".toList = .ok m ∧ m.isBraced = false
      ∧ (∃ i ∈ m.imports.flatten, (tokens i).length = 5)
      ∧ ∃ d ∈ m.declarations, (∀ b ∈ d.blocks, ∀ c ∈ b.nested, ∀ run ∈ c.items, ClosesBrackets (tokens run))
        ∧ d.blocks.length = 1 } :=
  sample _ _ (by decide +kernel)

theorem brackets_closed_do :
    ∃ m, parse "import A (b)\nf = (do\n  x (a)\n  y) [1]\n".toList = .ok m ∧ m.isBraced = false
      ∧ (∃ i ∈ m.imports.flatten, (tokens i).length = 5 ∧ ClosesBrackets (tokens i))
      ∧ ∃ d ∈ m.declarations, ((∀ b ∈ d.blocks, ∀ c ∈ b.nested, ∀ run ∈ c.items, ClosesBrackets (tokens run))
        ∧ d.blocks.length = 1) ∧ ClosesBrackets (tokens d) := by
  obtain ⟨m, hm, hbraced, ⟨i, hi, himport⟩, d, hd, hcloses, hlength⟩ := bracketsAroundBlock
  obtain ⟨himports, hdeclarations⟩ := brackets_closed hm hbraced
  exact ⟨m, hm, hbraced, ⟨i, hi, himport, himports i hi⟩, d, hd, ⟨hcloses, hlength⟩, hdeclarations d hd hcloses⟩

/--
A module in which a bracket stays open that an item of a nested block opens.
-/
def openBracketInBlock :
    { m // parse "f = do\n  x (\ng = 1\n".toList = .ok m ∧ m.isBraced = false
      ∧ ∃ d ∈ m.declarations, ¬ClosesBrackets (tokens d) } :=
  sample _ _ (by decide +kernel)

/--
Not every declaration of a module closes its brackets.
-/
theorem not_brackets_closed :
    ¬∀ (text : List Char) (m : Module), parse text = .ok m → m.isBraced = false →
      ∀ d ∈ m.declarations, ClosesBrackets (tokens d) := by
  intro h
  obtain ⟨m, hm, hbraced, d, hd, hopen⟩ := openBracketInBlock
  exact hopen (h _ m hm hbraced d hd)

end Module

end HaskellStyle
