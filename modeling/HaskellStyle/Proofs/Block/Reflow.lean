import HaskellStyle.Proofs.Block.Faithful
import HaskellStyle.Proofs.Block.Indented
import HaskellStyle.Proofs.Token.Respace
import Mathlib.Data.List.Forall2

/-!
This module contains the reading of a body one of whose items is laid out in another way. As long as its tokens stay
right of the body's column, they are an item again, and all other items are what they were.
-/

namespace HaskellStyle

theorem Token.alike_of_bare {t u : Token} (h : u.bare = t.bare) : t.Alike u := by
  simp only [bare, mk.injEq, Position.mk.injEq, true_and] at h
  exact ⟨h.1, h.2.1, h.2.2.1, h.2.2.2⟩

theorem Token.opensLayout_map (f : Token → Token) [Faithful f] (t : Token) : (f t).opensLayout = t.opensLayout := by
  simp (disch := decide) only [opensLayout, isKeyword_map, kind_map, contains_map]

theorem closesBrackets_map (f : Token → Token) [Token.Faithful f] (ts : List Token) :
    ClosesBrackets (ts.map f) ↔ ClosesBrackets ts := by
  have hfold (brackets : List Token) :
      (ts.map f).foldl Layout.countBracket (brackets.map f) = (ts.foldl Layout.countBracket brackets).map f := by
    induction ts generalizing brackets with
    | nil => rfl
    | cons t ts ih => rw [List.map_cons, List.foldl_cons, List.foldl_cons, Layout.countBracket_map, ih]
  have hnil := hfold []
  rw [List.map_nil] at hnil
  rw [ClosesBrackets, ClosesBrackets, hnil, List.map_eq_nil_iff]

/--
Items with the same words, of which both have blocks or none has.
-/
structure Run.Reflowed (run run' : Run Block) : Prop where
  spelled_eq : (tokens run').map Token.spelled = (tokens run).map Token.spelled
  isFlat_eq : Segment.isFlat run'.rest = Segment.isFlat run.rest

theorem Run.reflowed_of_bare {run run' : Run Block} (h : mapTokens Token.bare run' = mapTokens Token.bare run) :
    run.Reflowed run' where
  spelled_eq := by
    refine Token.map_spelled_of_bare ?_
    rw [← tokens_mapTokens, ← tokens_mapTokens, h]
  isFlat_eq := by
    have hflat := congrArg (fun run => Segment.isFlat run.rest) h
    exact (Segment.isFlat_bimap _ _ _).symm.trans (hflat.trans (Segment.isFlat_bimap _ _ _))

namespace Layout

/--
Right of a column only the words decide which blocks are opened.
-/
theorem opensNone_spelled {column : Int} {ts : List Token} (h : ∀ t ∈ ts, column < t.column) (first : Token)
    (previous : Option Token) (last : Token) :
    opensNone column first.spelled (previous.map Token.spelled) last.spelled (ts.map Token.spelled)
      = opensNone column first previous last ts := by
  induction ts generalizing previous last with
  | nil => rfl
  | cons t ts ih =>
    have hnothing : opensNothing t.spelled column = opensNothing t column := by
      have hcolumn : ¬t.column ≤ column := Int.not_le.2 (h t List.mem_cons_self)
      have hline : t.spelled.lineStart = false := rfl
      simp (disch := decide) only [opensNothing, Token.isEnd_map, Token.isSpecial_map, Token.isClosing_map,
        Token.isKeyword_map, hline, hcolumn, decide_false, Bool.false_and, Bool.and_false]
    rw [List.map_cons, opensNone, opensNone, openedKind_map, hnothing,
      ← ih (fun u hu => h u (List.mem_cons_of_mem _ hu)) (some last) t]
    rfl

theorem countP_opensLayout {ts us : List Token} (h : us.map Token.spelled = ts.map Token.spelled) :
    us.countP (·.opensLayout) = ts.countP (·.opensLayout) := by
  have hcount (ts : List Token) : (ts.map Token.spelled).countP (·.opensLayout) = ts.countP (·.opensLayout) := by
    rw [List.countP_map]
    exact List.countP_congr fun t _ => by rw [Function.comp_apply, Token.opensLayout_map]
  rw [← hcount, h, hcount]

variable {eof eof' : Token} {column : Int} {run : Run Block} {later : List (Run Block)} {ts us : List Token}

/--
Whether an item whose tokens are right of the body has blocks.
-/
theorem isFlat_iff_opensNone (h : readOn eof column [] ts = .ok (run :: later))
    (hindent : ∀ t ∈ (tokens run).tail, column < t.column) (hcloses : ClosesBrackets (tokens run)) :
    Segment.isFlat run.rest ↔ opensNone column run.first none run.first (tokens run).tail := by
  obtain ⟨hlater, hhead⟩ := readOn_next h
  have htokens := tokens_readOn h
  rw [List.flatMap_cons] at htokens
  rcases resume_indented eof hindent hcloses (fun t ht => ⟨(hhead t ht).1, (hhead t ht).2.1⟩) with
    ⟨own, -, hflat, hown⟩ | ⟨-, hnesting⟩
  · change readOn eof column [] (tokens run ++ later.flatMap tokens) = _ at hown
    rw [htokens, h, readOn_behind, hlater] at hown
    obtain ⟨rfl, -⟩ := List.cons.inj (Except.ok.inj hown)
    exact hflat
  · change readOn eof column [] (tokens run ++ later.flatMap tokens) = _ at hnesting
    rw [htokens] at hnesting
    cases h.symm.trans hnesting

/--
Tokens that the layout rule does not tell apart are the same items.
-/
theorem readOn_bare (heof : eof.isEnd) (heof' : eof'.isEnd) (h : us.map Token.bare = ts.map Token.bare)
    {items : List (Run Block)} (hread : readOn eof column [] ts = .ok items) :
    ∃ items', readOn eof' column [] us = .ok items' ∧ List.Forall₂ Run.Reflowed items items' := by
  have hmap := readOn_map Token.bare eof column us
  rw [h, readOn_map, hread] at hmap
  obtain ⟨items', hitems, hbare⟩ := Option.map_eq_some_iff.1 hmap.symm
  have hforall : List.Forall₂ (· = ·) (items'.map (mapTokens Token.bare)) (items.map (mapTokens Token.bare)) := by
    rw [hbare, List.forall₂_eq_eq_eq]
  rw [List.forall₂_map_left_iff, List.forall₂_map_right_iff] at hforall
  exact ⟨items', (readOn_eof heof heof' column [] us).trans (toOption_eq_some hitems),
    hforall.flip.imp fun _ _ => Run.reflowed_of_bare⟩

/--
A body is read again if the tokens of one of its items are laid out in another way that keeps them right of the body.
Only the number of nested blocks can be in the way.
-/
theorem read_reflow (heof : eof.isEnd) (heof' : eof'.isEnd) {item behind : List Token} {earlier : List (Run Block)}
    (hread : read eof ts = .ok (earlier ++ run :: later))
    (hspelled : item.map Token.spelled = (tokens run).map Token.spelled)
    (hfirst : item.head?.map Token.bare = some run.first.bare)
    (hbehind : behind.map Token.bare = (later.flatMap tokens).map Token.bare) (hcloses : ClosesBrackets (tokens run))
    (hindent : ∀ t ∈ (tokens run).tail ++ item.tail, (ts.headD eof).column < t.column) :
    (∃ run' later', read eof' (earlier.flatMap tokens ++ (item ++ behind)) = .ok (earlier ++ run' :: later')
        ∧ run.Reflowed run' ∧ List.Forall₂ Run.Reflowed later later')
      ∨ maxNesting ≤ (tokens run).countP (·.opensLayout)
        ∧ read eof' (earlier.flatMap tokens ++ (item ++ behind)) = .error ⟨.nestingTooDeep, 0⟩ := by
  obtain ⟨u, more, rfl⟩ : ∃ u more, item = u :: more := by
    cases item with
    | nil => cases hfirst
    | cons u more => exact ⟨u, more, rfl⟩
  have halike : run.first.Alike u := Token.alike_of_bare (Option.some.inj hfirst)
  rw [read_eq_readOn] at hread
  have hcolumn : ((earlier.flatMap tokens ++ (u :: more ++ behind)).headD eof').column = (ts.headD eof).column := by
    rw [← tokens_readOn hread]
    cases earlier with
    | nil => exact halike.column
    | cons first earlier => rfl
  generalize (ts.headD eof).column = column at *
  obtain ⟨hrun, hearlier⟩ := readOn_items hread
  obtain ⟨hlater, hhead⟩ := readOn_next hrun
  rw [List.forall_mem_append, List.tail_cons] at hindent
  have hread' : read eof' (earlier.flatMap tokens ++ (u :: more ++ behind))
      = (readOn eof' column [] (u :: more ++ behind)).map (earlier ++ ·) := by
    rw [read_eq_readOn, hcolumn]
    exact hearlier eof' u (more ++ behind) halike
  have hcloses' : ClosesBrackets (u :: more) := by
    rw [← closesBrackets_map Token.spelled, hspelled, closesBrackets_map]
    exact hcloses
  -- The next item begins as before, since its first token stands as before but for the line.
  have hhead' : ∀ t ∈ behind.head?, t.lineStart ∧ t.column ≤ column := by
    intro t ht
    have hbare : (behind.map Token.bare).head? = ((later.flatMap tokens).map Token.bare).head? := by rw [hbehind]
    rw [List.head?_map, List.head?_map, Option.mem_def.1 ht] at hbare
    obtain ⟨s, hs, hbare⟩ := Option.map_eq_some_iff.1 hbare.symm
    have hst := Token.alike_of_bare hbare.symm
    rw [hst.lineStart, hst.column]
    exact ⟨(hhead s hs).1, (hhead s hs).2.1⟩
  rw [hread']
  rcases resume_indented eof' hindent.2 hcloses' hhead' with
    ⟨run', htokens, hflat, hown⟩ | ⟨hmany, hnesting⟩
  · obtain ⟨later', hlater', hreflowed⟩ := readOn_bare heof heof' hbehind hlater
    refine .inl ⟨run', later', ?_, ⟨(congrArg (List.map Token.spelled) htokens).trans hspelled, ?_⟩, hreflowed⟩
    · rw [hown, readOn_behind, hlater']
      rfl
    · rw [Bool.eq_iff_iff, hflat, isFlat_iff_opensNone hrun hindent.1 hcloses, ← opensNone_spelled hindent.2,
        ← opensNone_spelled hindent.1]
      obtain ⟨hu, hmore⟩ := List.cons.inj hspelled
      rw [hu, hmore]
      rfl
  · rw [countP_opensLayout hspelled] at hmany
    exact .inr ⟨hmany, by rw [hnesting]; rfl⟩

variable {a b a' b' : Token} {vs back : List Token} {earlier : List (Run Block)}

/--
An item is read again if its tokens from `b` on are moved and stay right of the body.
-/
theorem read_moved (heof : eof.isEnd) (heof' : eof'.isEnd) (hread : read eof ts = .ok (earlier ++ run :: later))
    (htokens : tokens run = us ++ a :: b :: vs) (ha : a'.bare = a.bare) (hb : b'.spelled = b.spelled)
    (hback : List.Forall₂ (Token.Moved b.position b'.position) (vs ++ later.flatMap tokens) back)
    (hline : ∀ t ∈ later.flatMap tokens, b.line < t.line) (hcloses : ClosesBrackets (tokens run))
    (hindent : ∀ t ∈ (tokens run).tail, (ts.headD eof).column < t.column)
    (hcolumn : (ts.headD eof).column < b'.column) :
    (∃ run' later', read eof' (earlier.flatMap tokens ++ us ++ a' :: b' :: back) = .ok (earlier ++ run' :: later')
        ∧ run.Reflowed run' ∧ List.Forall₂ Run.Reflowed later later')
      ∨ maxNesting ≤ (tokens run).countP (·.opensLayout)
        ∧ read eof' (earlier.flatMap tokens ++ us ++ a' :: b' :: back) = .error ⟨.nestingTooDeep, 0⟩ := by
  obtain ⟨vs', behind, rfl, hvs, hbehind⟩ : ∃ vs' behind, back = vs' ++ behind
      ∧ List.Forall₂ (Token.Moved b.position b'.position) vs vs'
      ∧ List.Forall₂ (Token.Moved b.position b'.position) (later.flatMap tokens) behind := by
    have htake := List.forall₂_take_append _ _ _ hback.flip
    have hdrop := List.forall₂_drop_append _ _ _ hback.flip
    exact ⟨_, _, (List.take_append_drop _ _).symm, htake.flip, hdrop.flip⟩
  have hspelled : (us ++ a' :: b' :: vs').map Token.spelled = (tokens run).map Token.spelled := by
    have hspell (t : Token) : t.spelled = t.bare.spelled := rfl
    rw [htokens, List.map_append, List.map_append, List.map_cons, List.map_cons, List.map_cons, List.map_cons,
      hspell a', ha, ← hspell, hb, Token.map_spelled_of_moved hvs]
  have hfirst : (us ++ a' :: b' :: vs').head?.map Token.bare = some run.first.bare := by
    have hhead : (tokens run).head? = some run.first := rfl
    rw [htokens] at hhead
    cases us with
    | nil =>
      rw [← Option.some.inj hhead]
      exact congrArg some ha
    | cons u us => exact congrArg (Option.map Token.bare) hhead
  have hindent' : ∀ t ∈ (tokens run).tail ++ (us ++ a' :: b' :: vs').tail, (ts.headD eof).column < t.column := by
    refine List.forall_mem_append.2 ⟨hindent, ?_⟩
    rw [htokens] at hindent
    -- The tokens behind `b` move with it on its line and stay where they are on later ones.
    have hmoved (hvs' : ∀ t ∈ vs, (ts.headD eof).column < t.column) :
        ∀ t ∈ b' :: vs', (ts.headD eof).column < t.column :=
      List.forall_mem_cons.2 ⟨hcolumn, Token.lt_column_of_moved hvs hvs' hcolumn⟩
    cases us with
    | nil => exact hmoved (List.forall_mem_cons.1 hindent).2
    | cons u us =>
      rw [List.cons_append, List.tail_cons, List.forall_mem_append, List.forall_mem_cons,
        List.forall_mem_cons] at hindent
      rw [List.cons_append, List.tail_cons, List.forall_mem_append, List.forall_mem_cons,
        (Token.alike_of_bare ha).column]
      exact ⟨hindent.1, hindent.2.1, hmoved hindent.2.2.2⟩
  have hsplit : earlier.flatMap tokens ++ us ++ a' :: b' :: (vs' ++ behind)
      = earlier.flatMap tokens ++ ((us ++ a' :: b' :: vs') ++ behind) := by simp
  rw [hsplit]
  exact read_reflow heof heof' hread hspelled hfirst (Token.map_bare_of_moved hbehind hline) hcloses hindent'

/--
The items behind an item begin on later lines.
-/
theorem line_lt_of_later {q : Bool} {text : List Char} {stream : TokenStream} {front between : List Token}
    {column : Int} (h : TokenStream.ofTextWith q text = .ok stream)
    (hread : readOn eof column [] ts = .ok (run :: later))
    (htokens : stream.tokens = front ++ b :: between ++ later.flatMap tokens) :
    ∀ t ∈ later.flatMap tokens, b.line < t.line := by
  obtain ⟨-, hhead⟩ := readOn_next hread
  cases hlater : later.flatMap tokens with
  | nil => exact List.forall_mem_nil _
  | cons first more =>
    rw [hlater] at htokens hhead
    have hfirst := TokenStream.line_lt_of_lineStart h htokens (hhead first rfl).1
    refine List.forall_mem_cons.2 ⟨hfirst, fun t ht => ?_⟩
    obtain ⟨before, after, rfl⟩ := List.append_of_mem ht
    have hsplit : stream.tokens = (front ++ b :: between) ++ first :: before ++ t :: after := by simpa using htokens
    have hle := TokenStream.endLine_le_line (TokenStream.tiling_lexemes h) hsplit
    exact Nat.lt_of_lt_of_le hfirst (Nat.le_trans (Nat.le_add_right _ _) hle)

end Layout

end HaskellStyle
