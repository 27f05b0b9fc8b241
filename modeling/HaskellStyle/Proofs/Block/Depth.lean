import HaskellStyle.Proofs.Block.Laid
import HaskellStyle.Proofs.Token.Lossless

/-!
This module contains how deep nested blocks are. Along a line the columns grow, and a block begins behind its keyword
or, on a line of its own, right of the block around it. So the blocks nested in a block are deeper than the block,
except behind a token that goes over a line end: what stands behind it on its last line can be anywhere.
-/

namespace HaskellStyle

theorem Segment.getLast?_tokens {segments : List (Segment Block)} {t : Token}
    (h : segments.getLast? = some (.token t)) : (Segment.tokens segments).getLast? = some t := by
  obtain ⟨before, rfl⟩ := List.getLast?_eq_some_iff.1 h
  rw [tokens, tokensWith_append, tokensWith_token, tokensWith_nil, List.getLast?_concat]

namespace Token

variable {k : Int} {bad : Nat → Prop} {t u : Token}

/--
A token that is not left of a column, or that stands on one of the lines `bad`.
-/
def Within (k : Int) (bad : Nat → Prop) (t : Token) : Prop :=
  k ≤ t.column ∨ bad t.line

theorem notMem_of_not_isMultiline (h : ¬t.isMultiline) : '\n' ∉ t.text.toList := by
  simpa [isMultiline] using h

theorem endLine_of_not_isMultiline (h : ¬t.isMultiline) : t.endLine = t.line := by
  rw [endLine, List.count_eq_zero.2 (notMem_of_not_isMultiline h), Nat.add_zero]

/--
What follows a token on a line is within the column if the token is.
-/
theorem Adjacent.within (h : t.Adjacent u) (hline : u.lineStart = false) (ht : t.Within k bad)
    (hmultiline : t.isMultiline → bad t.endLine) : u.Within k bad := by
  obtain ⟨hsame, hcolumn⟩ := h hline
  rw [Within, hsame]
  by_cases hends : t.isMultiline
  · exact .inr (hmultiline hends)
  · rw [endLine_of_not_isMultiline hends]
    refine ht.imp_left fun hk => ?_
    exact Int.le_trans hk (Int.le_trans (Text.le_visualWidth (notMem_of_not_isMultiline hends) _) hcolumn)

end Token

namespace Layout

variable {k column : Int} {bad : Nat → Prop} {before : List (Segment Block)} {kind : BlockKind}
  {t opener first : Token}

/--
Layout keywords take room and stand on one line.
-/
theorem lt_visualWidth_of_openedKind {previous : Option Token} {start : Token}
    (h : openedKind opener previous start = some kind) :
    ¬opener.isMultiline ∧ opener.column < Text.visualWidth opener.text.toList opener.column := by
  have hword : opener.text ∈ ["do", "mdo", "of", "let", "where", "case", "cases"] := by
    unfold openedKind Token.isKeyword at h
    grind
  simp only [List.mem_cons, List.not_mem_nil, or_false] at hword
  rw [Token.isMultiline]
  generalize opener.column = start
  rcases hword with h | h | h | h | h | h | h
  all_goals
    rw [h]
    constructor
    · decide
    · exact Text.lt_visualWidth rfl (by decide)

/--
A token that continues an item is within the column of the block if the token before it is.
-/
theorem Follows.within (h : Follows kind column before (.token t)) (hcolumn : k ≤ column) {last : Token}
    (hadjacent : last.Adjacent t) (hlast : last.Within k bad) (hmultiline : last.isMultiline → bad last.endLine) :
    t.Within k bad := by
  cases hline : t.lineStart with
  | false => exact hadjacent.within hline hlast hmultiline
  | true =>
    rcases h.1 hline with hlt | ⟨-, heq, -⟩
    · exact .inl (Int.le_trans hcolumn (Int.le_of_lt hlt))
    · exact .inl (Int.le_trans hcolumn (Int.le_of_eq heq.symm))

/--
A block is deeper than the block around it unless it begins on one of the lines `bad`.
-/
theorem Opens.lt (h : Opens column before kind opener first) (hcolumn : k ≤ column) (hadjacent : opener.Adjacent first)
    (hopener : opener.Within k bad) (hfirst : ¬bad first.line) : k < first.column := by
  cases hline : first.lineStart with
  | true =>
    have hfollows := h.follows
    simp only [opensNothing, Bool.or_eq_false_iff, hline, Bool.true_and, decide_eq_false_iff_not] at hfollows
    exact Int.lt_of_le_of_lt hcolumn (Int.not_le.1 hfollows.2)
  | false =>
    obtain ⟨previous, start, hkind⟩ := h.keyword
    obtain ⟨hends, hlt⟩ := lt_visualWidth_of_openedKind hkind
    obtain ⟨hsame, hle⟩ := hadjacent hline
    rw [Token.endLine_of_not_isMultiline hends] at hsame
    rcases hopener with hk | hbad
    · exact Int.lt_of_le_of_lt hk (Int.lt_of_lt_of_le hlt hle)
    · rw [hsame] at hfirst
      exact absurd hbad hfirst

end Layout

namespace Block

/--
A block of a text whose tokens go over line ends only into the lines `bad`, in which no nested block begins on one
of these lines.
-/
structure Clear (bad : Nat → Prop) (b : Block) : Prop where
  laid : ∀ c ∈ b.nested, c.Laid
  adjacent : b.tokens.IsChain Token.Adjacent
  multiline : ∀ t ∈ b.tokens, t.isMultiline → bad t.endLine
  begins : ∀ c ∈ b.inner, ¬bad c.firstToken.line

variable {k : Int} {bad : Nat → Prop} {b c : Block}

theorem Clear.nested (h : b.Clear bad) (hc : c ∈ b.nested) : c.Clear bad where
  laid d hd := h.laid d (nested_subset hc hd)
  adjacent := h.adjacent.infix (infix_of_mem_nested hc)
  multiline t ht := h.multiline t ((infix_of_mem_nested hc).subset ht)
  begins d hd := by
    refine h.begins d ?_
    rw [nested_eq] at hc
    rcases List.mem_cons.1 hc with rfl | hc
    · exact hd
    · exact nested_subset_inner hc (mem_nested_of_mem_inner hd)

/--
A block whose tokens are within a column, and in which the nested blocks are right of it.
-/
structure Deep (k : Int) (bad : Nat → Prop) (b : Block) : Prop where
  within : ∀ t ∈ b.tokens, t.Within k bad
  lt : ∀ c ∈ b.inner, k < c.column

end Block

namespace Layout

variable {k column : Int} {bad : Nat → Prop} {kind : BlockKind} {items : List (Run Block)} {run : Run Block}

/--
Segments whose tokens are within a column, and whose blocks are right of it.
-/
structure Reaches (k : Int) (bad : Nat → Prop) (segments : List (Segment Block)) : Prop where
  within : ∀ t ∈ Segment.tokens segments, t.Within k bad
  lt : ∀ b ∈ Segment.blocks segments, ∀ c ∈ b.nested, k < c.column

theorem Reaches.token {before : List (Segment Block)} {t : Token} (h : Reaches k bad before) (ht : t.Within k bad) :
    Reaches k bad (before ++ [.token t]) where
  within := by
    rw [Segment.tokens, Segment.tokensWith_append, List.forall_mem_append]
    exact ⟨h.within, List.forall_mem_singleton.2 ht⟩
  lt := by
    rw [Segment.blocks_append, Segment.blocks_token, Segment.blocks_nil, List.append_nil]
    exact h.lt

theorem Reaches.block {before : List (Segment Block)} {b : Block} (h : Reaches k bad before) (hb : b.Deep k bad)
    (hlt : k < b.column) : Reaches k bad (before ++ [.block b]) where
  within := by
    rw [Segment.tokens, Segment.tokensWith_append, List.forall_mem_append, Segment.tokensWith_block,
      Segment.tokensWith_nil, List.append_nil]
    exact ⟨h.within, hb.within⟩
  lt := by
    rw [Segment.blocks_append, Segment.blocks_block, Segment.blocks_nil, List.forall_mem_append,
      List.forall_mem_singleton, Block.nested_eq, List.forall_mem_cons]
    exact ⟨h.lt, hlt, hb.lt⟩

/--
From the beginning of an item to any place in it, the tokens are within the column of the block.
-/
theorem Laid.reaches (h : Laid kind column items) (hrun : run ∈ items) (hcolumn : k ≤ column)
    (hadjacent : (tokens run).IsChain Token.Adjacent)
    (hmultiline : ∀ t ∈ tokens run, t.isMultiline → bad t.endLine)
    (hblocks : ∀ b ∈ run.blocks, b.Laid ∧ ¬bad b.firstToken.line ∧ (k ≤ b.column → b.Deep k bad))
    {before after : List (Segment Block)} (hsegments : run.segments = before ++ after) : Reaches k bad before := by
  induction before using List.reverseRecOn generalizing after with
  | nil => exact ⟨fun _ ht => absurd ht List.not_mem_nil, fun _ hb => absurd hb List.not_mem_nil⟩
  | append_singleton before segment ih =>
    rw [List.append_assoc, List.singleton_append] at hsegments
    have hbefore := ih hsegments
    cases before with
    | nil =>
      obtain ⟨rfl, -⟩ := List.cons.inj hsegments
      exact hbefore.token (.inl (Int.le_trans hcolumn (Int.le_of_eq (h.begins run hrun).1.symm)))
    | cons first earlier =>
      obtain ⟨rfl, (hrest : run.rest = earlier ++ segment :: after)⟩ := List.cons.inj hsegments
      have hfollows := h.follows run hrun earlier segment after hrest
      have htokens : tokens run = Segment.tokens (.token run.first :: earlier) ++ Segment.tokens (segment :: after) := by
        rw [Segment.tokens, Segment.tokens, ← Segment.tokensWith_append, ← hsegments]
        rfl
      rw [htokens] at hadjacent hmultiline
      have hnext := (List.isChain_append.1 hadjacent).2.2
      cases segment with
      | token t =>
        obtain ⟨last, hlast⟩ : ∃ last, (Segment.tokens (.token run.first :: earlier)).getLast? = some last :=
          ⟨_, List.getLast?_cons⟩
        have hmem := List.mem_of_getLast? hlast
        exact hbefore.token (hfollows.within hcolumn (hnext last hlast t rfl) (hbefore.within last hmem)
          (hmultiline last (List.mem_append_left _ hmem)))
      | block b =>
        have hmem : b ∈ run.blocks := by
          rw [Run.blocks, hrest, Segment.blocks_append]
          exact List.mem_append_right _ List.mem_cons_self
        obtain ⟨hlaid, hbegins, hdeep⟩ := hblocks b hmem
        have hopener := Segment.getLast?_tokens hfollows.behind
        have hfirst : (Segment.tokens (.block b :: after)).head? = some b.firstToken := by
          rw [Segment.tokens, Segment.tokensWith_block, List.head?_append, hlaid.firstToken_eq.1]
          rfl
        have hlt := hfollows.lt hcolumn (hnext b.opener hopener b.firstToken hfirst)
          (hbefore.within b.opener (List.mem_of_getLast? hopener)) hbegins
        rw [hlaid.firstToken_eq.2] at hlt
        exact hbefore.block (hdeep (Int.le_of_lt hlt)) hlt

end Layout

namespace Block

variable {k : Int} {bad : Nat → Prop} {b : Block}

theorem Clear.deep (h : b.Clear bad) (hcolumn : k ≤ b.column) : b.Deep k bad := by
  induction b using forall_of_items with
  | h kind opener column items ih =>
    have hreaches (run : Run Block) (hrun : run ∈ items) : Layout.Reaches k bad run.segments := by
      have hwithin := infix_of_mem_items (b := .mk kind opener column items) hrun
      have hadjacent := h.adjacent.infix hwithin
      refine (h.laid _ (mem_nested_self _)).reaches hrun hcolumn hadjacent
        (fun t ht => h.multiline t (hwithin.subset ht)) (fun b hb => ?_) (List.append_nil _).symm
      have hinner : b ∈ (Block.mk kind opener column items).inner :=
        mem_inner.2 ⟨run, hrun, b, hb, mem_nested_self b⟩
      have hnested := mem_nested_of_mem_inner hinner
      exact ⟨h.laid b hnested, h.begins b hinner, ih run hrun b hb (h.nested hnested)⟩
    constructor
    case within =>
      intro t ht
      rw [tokens_eq] at ht
      obtain ⟨run, hrun, ht⟩ := List.mem_flatMap.1 ht
      exact (hreaches run hrun).within t ht
    case lt =>
      intro c hc
      obtain ⟨run, hrun, d, hd, hc⟩ := mem_inner.1 hc
      exact (hreaches run hrun).lt d hd c hc

/--
A token of a block that begins a line is not left of the items of the block nested in it that has the token.
-/
theorem exists_column_le_of_mem_tokens (h : ∀ c ∈ b.nested, c.Laid) {t : Token} (ht : t ∈ b.tokens)
    (hline : t.lineStart) : ∃ c ∈ b.nested, c.column ≤ t.column := by
  obtain ⟨c, hc, run, hrun, hsegment⟩ := exists_item_of_mem_tokens ht
  refine ⟨c, hc, ?_⟩
  rcases List.mem_cons.1 hsegment with hfirst | hrest
  · cases hfirst
    exact Int.le_of_eq ((h c hc).begins run hrun).1.symm
  · obtain ⟨before, after, hrest⟩ := List.append_of_mem hrest
    rcases ((h c hc).follows run hrun before _ after hrest).1 hline with hlt | ⟨-, heq, -⟩
    · exact Int.le_of_lt hlt
    · exact Int.le_of_eq heq.symm

end Block

end HaskellStyle
