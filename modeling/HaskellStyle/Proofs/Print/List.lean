import HaskellStyle.Proofs.Print.Comments

/-!
This module contains what the writing of lists with one item per line shows: all comments in them, wherever they
stand. Only a comment behind a comma has to find room on the line of the item before it.
-/

namespace HaskellStyle

variable {μ : Type} {v : View μ} {q : Bool}

theorem Trivia.IsSound.tail {piece : TriviaPiece} {more : Trivia} (h : IsSound (piece :: more)) : IsSound more := by
  obtain ⟨hfirst, hothers⟩ := h
  by_cases hkind : piece.kind = .newline
  · rw [splitLines_newline hkind] at hothers
    exact ⟨hothers _ List.mem_cons_self, fun line hline => hothers line (List.mem_cons_of_mem _ hline)⟩
  · rw [splitLines_piece hkind] at hfirst hothers
    exact ⟨hfirst.sublist (List.sublist_cons_self _ _), hothers⟩

/--
Trivia without comments is not seen.
-/
theorem Trivia.IsSound.seen_eq_zero {trivia : Trivia} (h : trivia.IsSound) (hnone : trivia.hasComments = false) :
    trivia.seen v = 0 := by
  induction trivia with
  | nil => rfl
  | cons piece more ih =>
    rw [hasComments, List.any_cons, Bool.or_eq_false_iff] at hnone
    have hpiece : piece.seen v = 0 := by
      by_cases hkind : piece.kind = .newline
      · rw [TriviaPiece.seen, hkind]
        exact v.see_newline _
      · have hfirst := h.first
        rw [splitLines_piece hkind] at hfirst
        exact seen_of_not_isComment (hfirst.sound piece List.mem_cons_self) hnone.1
    rw [seen_cons, hpiece, ih h.tail hnone.2, add_zero]

namespace Token

theorem shown_eq (hv : v.IgnoresTokens) (t : Token) :
    t.shown v = t.leading.seen v + Trivia.seen v t.trailing := by
  rw [shown, seen, hv, add_zero]

/--
Of tokens without comments between them, only the comments around them are seen.
-/
theorem allShown_of_cleanInside (hv : v.IgnoresTokens) {ts : List Token} (hsound : ∀ t ∈ ts, t.IsSound)
    (hclean : cleanInside ts) (hne : ts ≠ []) (default : Token) :
    allShown v ts = (ts.headD default).leading.seen v + Trivia.seen v (ts.getLastD default).trailing := by
  induction ts with
  | nil => exact absurd rfl hne
  | cons t ts ih =>
    cases ts with
    | nil => simp [shown_eq hv]
    | cons u more =>
      simp only [cleanInside, Bool.and_eq_true, Bool.not_eq_true'] at hclean
      obtain ⟨⟨⟨-, htrailing⟩, hleading⟩, hclean⟩ := hclean
      have ih := ih (fun s hs => hsound s (List.mem_cons_of_mem t hs)) hclean (List.cons_ne_nil _ _)
      have hu := (hsound u (by simp)).leading.seen_eq_zero (v := v) hleading
      have ht := Trivia.seen_of_not_hasComments (v := v) (hsound t (by simp)).trailing htrailing
      rw [List.headD_cons, hu, zero_add] at ih
      rw [allShown_cons, shown_eq hv, ht, add_zero, ih]
      rfl

theorem getLastD_mem {ts : List Token} (h : ts ≠ []) (default : Token) : ts.getLastD default ∈ ts := by
  rw [List.getLastD_eq_getLast?, List.getLast?_eq_some_getLast h, Option.getD_some]
  exact List.getLast_mem h

theorem getLastD_eq {ts : List Token} (h : ts ≠ []) (t u : Token) : ts.getLastD t = ts.getLastD u := by
  rw [List.getLastD_eq_getLast?, List.getLastD_eq_getLast?, List.getLast?_eq_some_getLast h]
  rfl

theorem getLastD_append {ts us : List Token} (h : us ≠ []) (t : Token) :
    (ts ++ us).getLastD t = us.getLastD t := by
  rw [List.getLastD_eq_getLast?, List.getLast?_append_of_ne_nil _ h, List.getLastD_eq_getLast?]

/--
No line comment stands behind the token.
-/
def EndsOpen (t : Token) : Prop :=
  ∀ piece ∈ t.trailing.comments.getLast?, piece.kind ≠ .lineComment

theorem EndsOpen.tail {t : Token} (h : t.EndsOpen) {y : List Char} (hy : Lexeme.Soft y) :
    t.Tail Lexeme.Soft y := by
  unfold Tail
  split
  · unfold Trivia.After
    rw [if_neg]
    · exact hy.calm
    · cases hlast : t.trailing.comments.getLast? with
      | none => simp
      | some piece => simpa using h piece hlast
  · exact hy

end Token

namespace Printer

variable {out : Output} {ms : Multiset μ} {p : Printer}

open Output (Shows)

theorem shows_put {text : String} (htext : Quiet v q text) (h : out.Shows v q ms Calm) :
    (out.put text).Shows v q ms Lexeme.Soft := by
  have := h.put htext
  rwa [add_zero] at this

theorem shows_put_blank {text : String} (htext : Quiet v q text) (h : out.Shows v q ms Lexeme.Soft) :
    (out.put (" " ++ text)).Shows v q ms Lexeme.Soft := by
  have := h.put (Fits.string_append Joins.blank htext)
  rwa [add_zero] at this

theorem shows_commentLine_foldl {lines : List (List TriviaPiece)} (hlines : ∀ line ∈ lines, Trivia.IsLine line)
    (indent : Int) (h : out.Shows v q ms LineEnd) :
    (lines.foldl (commentLine indent) out).Shows v q (ms + (lines.map (Trivia.seen v)).sum) LineEnd := by
  induction lines generalizing out ms with
  | nil => simpa using h
  | cons line lines ih =>
    rw [List.foldl_cons, List.map_cons, List.sum_cons, ← add_assoc]
    exact ih (fun other hother => hlines other (List.mem_cons_of_mem line hother))
      (shows_commentLine (hlines line List.mem_cons_self) indent h)

/--
The text of an item is written with the comments between it and its leader.
-/
theorem shows_ledText {leader first : Token} (hleader : Trivia.IsLine leader.trailing)
    (hfirst : first.leading.IsSound) (hlines : first.leading.InLines) (indent : Int) {text : String}
    (htext : Quiet v q text) (ownComments : Bool) (h : out.Shows v q ms Lexeme.Soft) :
    (ledText leader first indent text ownComments out).Shows v q
      (ms + (if ownComments then Trivia.seen v leader.trailing else 0) + first.leading.seen v) Lexeme.Soft := by
  have hbehind : Trivia.seen v (if ownComments then leader.trailing.comments else [])
      = if ownComments then Trivia.seen v leader.trailing else 0 := by
    split
    · exact Trivia.seen_comments hleader
    · rfl
  have hbehindLine : Trivia.IsLine (if ownComments then leader.trailing.comments else []) := by
    split
    · exact hleader.sublist List.filter_sublist
    · exact hleader.sublist (List.nil_sublist _)
  have hbefore : ((first.leading.commentLines.filter fun line => !line.isEmpty).map (Trivia.seen v)).sum
      = first.leading.seen v := by
    rw [Trivia.sum_filter_isEmpty, Trivia.sum_commentLines_of_inLines hfirst hlines]
  have hbeforeLine : ∀ line ∈ first.leading.commentLines.filter fun line => !line.isEmpty, Trivia.IsLine line :=
    fun line hline => hfirst.isLine_commentLines line (List.mem_filter.1 hline).1
  unfold ledText
  dsimp only
  generalize (if ownComments then leader.trailing.comments else []) = behind at *
  generalize first.leading.commentLines.filter (fun line => !line.isEmpty) = before at *
  rw [← hbehind, ← hbefore]
  split
  · next hnone =>
    rw [Bool.and_eq_true_iff, List.isEmpty_iff, List.isEmpty_iff] at hnone
    rw [hnone.1, hnone.2]
    simpa using shows_put_blank htext h
  · have hcomments := shows_commentsBehind hbehindLine h
    have hlines := shows_commentLine_foldl hbeforeLine (indent + 2) (hcomments.mono fun y hy => by
      split
      · exact hy.soft
      · exact Trivia.after_of_lineEnd hy)
    exact shows_put htext (hlines.endLine.blanks _)

/--
The comments behind a comma are written behind the item before it, unless a line comment stands there.
-/
theorem shows_movedComments {last comma : Token} (hcomma : Trivia.IsLine comma.trailing)
    (hlast : comma.trailing.hasComments → last.EndsOpen) (h : out.Shows v q ms (last.Tail Lexeme.Soft)) :
    (movedComments last comma out).Shows v q (ms + Trivia.seen v comma.trailing) LineEnd := by
  have hline : Trivia.IsLine comma.trailing.comments := hcomma.sublist List.filter_sublist
  rw [← Trivia.seen_comments hcomma]
  unfold movedComments
  cases hcomments : comma.trailing.comments with
  | nil =>
    rw [Trivia.seen_nil, add_zero]
    exact h.mono fun y hy => Token.tail_of_lineEnd (fun _ hy => hy.soft) hy
  | cons comment more =>
    have hhas : comma.trailing.hasComments := by
      rw [Trivia.hasComments, List.any_eq_true]
      have hmem : comment ∈ comma.trailing.comments := by
        rw [hcomments]
        exact List.mem_cons_self
      exact ⟨comment, List.mem_filter.1 hmem⟩
    have hsoft : (if last.trailing.hasComments then out else out.blanks (commentSpacing - 1)).Shows v q ms
        Lexeme.Soft := by
      have hout := h.mono fun y hy => (hlast hhas).tail hy
      split
      · exact hout
      · exact hout.softBlanks _
    rw [hcomments] at hline
    refine (shows_commentsBehind hline hsoft).mono fun y hy => ?_
    rw [if_neg (List.cons_ne_nil _ _)]
    exact Trivia.after_of_lineEnd hy

end Printer

variable {ι : Type} [HasTokens ι]

namespace ItemList

/--
An item that can be written on a line of its own behind its leader.
-/
structure IsLed (q : Bool) (leader : Token) (item : ι) : Prop where
  soundLeader : leader.IsSound
  flat : Token.IsFlat q [leader]
  lines : leader.leading.InLines
  nonempty : tokens item ≠ []
  sound : ∀ t ∈ tokens item, t.IsSound
  clean : Token.cleanInside (tokens item)
  first : (firstToken item).leading.InLines

/--
The comments behind the comma `leader` have room behind the item before it.
-/
def HasRoom (item : ι) (leader : Token) : Prop :=
  leader.trailing.hasComments → (lastToken item).EndsOpen

theorem IsLed.allShown {leader : Token} {item : ι} (h : IsLed q leader item) (hv : v.IgnoresTokens) :
    Token.allShown v (leader :: tokens item) = leader.leading.seen v + Trivia.seen v leader.trailing
      + ((firstToken item).leading.seen v + Trivia.seen v (lastToken item).trailing) := by
  rw [Token.allShown_cons, Token.shown_eq hv, Token.allShown_of_cleanInside hv h.sound h.clean h.nonempty]
  rfl

theorem firstToken_mem {item : ι} (h : tokens item ≠ []) : firstToken item ∈ tokens item := by
  unfold firstToken
  cases htokens : tokens item with
  | nil => exact absurd htokens h
  | cons t ts => exact List.mem_cons_self

theorem lastToken_mem {item : ι} (h : tokens item ≠ []) : lastToken item ∈ tokens item :=
  Token.getLastD_mem h _

end ItemList

namespace Printer

variable {out : Output} {ms : Multiset μ} {p : Printer}

open Output (Shows)

/--
What is seen of items with their leaders.
-/
def allLedShown (v : View μ) (entries : List ((Token × ι) × String)) : Multiset μ :=
  (entries.map fun entry => Token.allShown v (entry.1.1 :: tokens entry.1.2)).sum

/--
What is seen behind the first leader, if it is a comma: these comments are written with the item before it.
-/
def seenAhead (v : View μ) (isFirst : Bool) (entries : List ((Token × ι) × String)) : Multiset μ :=
  if isFirst then 0 else ((entries.head?.map fun entry => Trivia.seen v entry.1.1.trailing).getD 0)

/--
Items are written with all their comments.
-/
theorem shows_ledItems (hv : v.IgnoresTokens) {entries : List ((Token × ι) × String)}
    (hled : ∀ entry ∈ entries, ItemList.IsLed q entry.1.1 entry.1.2 ∧ Quiet v q entry.2)
    (hroom : entries.IsChain fun entry next => ItemList.HasRoom entry.1.2 next.1.1)
    (indent : Int) (isFirst : Bool) (h : out.Shows v q (ms + seenAhead v isFirst entries) LineEnd) :
    (ledItems p indent isFirst entries out).Shows v q (ms + allLedShown v entries) LineEnd := by
  induction entries generalizing out ms isFirst with
  | nil =>
    have hnone : seenAhead v isFirst ([] : List ((Token × ι) × String)) = 0 := by
      cases isFirst <;> rfl
    rw [hnone] at h
    simpa [ledItems, allLedShown] using h
  | cons entry more ih =>
    obtain ⟨⟨leader, item⟩, text⟩ := entry
    obtain ⟨hentry, htext⟩ := hled _ List.mem_cons_self
    have hfirst := hentry.sound _ (ItemList.firstToken_mem hentry.nonempty)
    have hlast := hentry.sound _ (ItemList.lastToken_mem hentry.nonempty)
    have hlines := shows_commentLines hentry.soundLeader.leading hentry.lines indent (!isFirst) h
    have hleader := shows_put (Quiet.token hv hentry.flat) (hlines.endLine.blanks indent)
    have htexts := shows_ledText hentry.soundLeader.trailing hfirst.leading hentry.first indent htext isFirst hleader
    have htrailing := shows_trailing p hlast.trailing true htexts fun _ => id
    -- What was seen ahead and what is seen behind the first leader make up for each other.
    have hsum (rest : Multiset μ) : ms + seenAhead v isFirst (((leader, item), text) :: more)
          + leader.leading.seen v + (if isFirst then Trivia.seen v leader.trailing else 0)
          + (firstToken item).leading.seen v + Trivia.seen v (lastToken item).trailing + rest
        = ms + Token.allShown v (leader :: tokens item) + rest := by
      rw [hentry.allShown hv]
      unfold seenAhead
      cases isFirst
      · simp only [Bool.false_eq_true, if_false, List.head?_cons, Option.map_some, Option.getD_some]
        abel
      · simp only [if_true]
        abel
    have htotal : ms + allLedShown v (((leader, item), text) :: more)
        = ms + Token.allShown v (leader :: tokens item) + allLedShown v more := by
      simp [allLedShown, add_assoc]
    rw [ledItems.eq_def, htotal]
    dsimp only
    refine ih (fun other hother => hled other (List.mem_cons_of_mem _ hother)) hroom.tail false ?_
    cases more with
    | nil =>
      have hnone : seenAhead v false ([] : List ((Token × ι) × String)) = 0 := rfl
      rw [hnone, ← hsum, add_zero]
      exact htrailing.mono fun y hy => Token.tail_of_lineEnd (fun _ hy => hy.soft) hy
    | cons next rest =>
      have hnext := (hled next (by simp)).1
      have hroom' : ItemList.HasRoom item next.1.1 := (List.isChain_cons_cons.1 hroom).1
      have hmoved := shows_movedComments hnext.soundLeader.trailing hroom' htrailing
      have hahead : seenAhead v false (next :: rest) = Trivia.seen v next.1.1.trailing := rfl
      rw [hahead, ← hsum]
      exact hmoved

end Printer

namespace ItemList

/--
A list that can be written with one item per line.
-/
structure IsLaidOut (q : Bool) (list : ItemList ι) : Prop where
  count : list.items.length = list.commas.length + 1
  led : ∀ entry ∈ list.ledItems, IsLed q entry.1 entry.2
  room : list.ledItems.IsChain fun entry next => HasRoom entry.2 next.1
  closing : list.closing.IsSound
  flatClosing : Token.IsFlat q [list.closing]
  closingLines : list.closing.leading.InLines

theorem interleave_eq {items : List ι} {commas : List Token} (h : items.length = commas.length + 1)
    (opening : Token) :
    opening :: interleave items commas
      = ((opening :: commas).zip items).flatMap fun entry => entry.1 :: tokens entry.2 := by
  induction items generalizing opening commas with
  | nil => simp at h
  | cons item items ih =>
    cases commas with
    | nil =>
      cases items with
      | nil => simp [interleave]
      | cons => simp at h
    | cons comma commas =>
      have ih := ih (by simpa using h) comma
      rw [interleave, List.zip_cons_cons, List.flatMap_cons, ← ih]
      rfl

theorem tokens_eq {list : ItemList ι} (h : list.items.length = list.commas.length + 1) :
    tokens list = (list.ledItems.flatMap fun entry => entry.1 :: tokens entry.2) ++ [list.closing] := by
  have := interleave_eq h list.opening
  show list.opening :: interleave list.items list.commas ++ [list.closing] = _
  rw [this]
  rfl

end ItemList

namespace Printer

variable {out : Output} {ms : Multiset μ} {p : Printer}

open Output (Shows)

theorem allLedShown_zip {leds : List (Token × ι)} {texts : List String} (h : leds.length = texts.length) :
    allLedShown v (leds.zip texts) = Token.allShown v (leds.flatMap fun entry => entry.1 :: tokens entry.2) := by
  induction leds generalizing texts with
  | nil => rfl
  | cons led leds ih =>
    cases texts with
    | nil => simp at h
    | cons text texts =>
      have ih : allLedShown v (leds.zip texts) = _ := ih (by simpa using h)
      rw [List.flatMap_cons, Token.allShown_append, ← ih, List.zip_cons_cons]
      rfl

/--
A list is written with all comments but those behind it.
-/
theorem shows_itemList (hv : v.IgnoresTokens) {list : ItemList ι} (hlist : list.IsLaidOut q)
    {texts : List String} (hlength : texts.length = list.items.length) (htexts : ∀ text ∈ texts, Quiet v q text)
    (indent : Int) (h : out.Shows v q ms LineEnd) :
    ∃ inner, (p.itemList list texts indent out).Shows v q (ms + inner) Lexeme.Soft
      ∧ Token.allShown v (tokens list) = inner + Trivia.seen v list.closing.trailing := by
  have hledLength : list.ledItems.length = texts.length := by
    simp [ItemList.ledItems, hlength, hlist.count]
  have hmem {entry : (Token × ι) × String} (hentry : entry ∈ list.ledItems.zip texts) :
      entry.1 ∈ list.ledItems ∧ entry.2 ∈ texts := by
    obtain ⟨led, text⟩ := entry
    exact List.of_mem_zip hentry
  have hroom : (list.ledItems.zip texts).IsChain fun entry next => ItemList.HasRoom entry.1.2 next.1.1 := by
    have hmap : (list.ledItems.zip texts).map Prod.fst = list.ledItems :=
      List.map_fst_zip (by omega)
    have hchain := hlist.room
    rw [← hmap, List.isChain_map] at hchain
    exact hchain
  have hstart : out.Shows v q (ms + seenAhead v true (list.ledItems.zip texts)) LineEnd := by
    simpa [seenAhead] using h
  have hitems := shows_ledItems (p := p) hv
    (fun entry hentry => ⟨hlist.led _ (hmem hentry).1, htexts _ (hmem hentry).2⟩) hroom indent true hstart
  have hclosing := shows_commentLines hlist.closing.leading hlist.closingLines (indent + 2) false hitems
  refine ⟨allLedShown v (list.ledItems.zip texts) + list.closing.leading.seen v, ?_, ?_⟩
  · rw [← add_assoc]
    exact shows_put (Quiet.token hv hlist.flatClosing) (hclosing.endLine.blanks indent)
  · rw [ItemList.tokens_eq hlist.count, Token.allShown_append, allLedShown_zip hledLength, Token.allShown_cons,
      Token.allShown_nil, Token.shown_eq hv, add_zero, add_assoc]

end Printer

end HaskellStyle
