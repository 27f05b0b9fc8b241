import HaskellStyle.Proofs.Print.Verbatim
import HaskellStyle.Proofs.Declaration.Tokens

/-!
This module contains the texts of parts on one line. A view that sees comments only sees nothing in them, and
what matters is that each can be written where anything calm can and anything soft behind it.
-/

namespace HaskellStyle

variable {μ : Type} {v : View μ} {q : Bool}

/--
A view that sees no tokens.
-/
def View.IgnoresTokens (v : View μ) : Prop :=
  ∀ kind w, v.see (.token kind) w = 0

/--
A text of tokens on one line.
-/
def Quiet (v : View μ) (q : Bool) (text : String) : Prop :=
  Fits v q Calm (.ofText false text.toList) 0 Lexeme.Soft

/--
A text that separates tokens on a line.
-/
def Joins (v : View μ) (q : Bool) (text : String) : Prop :=
  Fits v q Lexeme.Soft (.ofText false text.toList) 0 Calm

namespace Fits

variable {A B C : List Char → Prop}

theorem string_append {a b : String} (ha : Fits v q A (.ofText false a.toList) 0 B)
    (hb : Fits v q B (.ofText false b.toList) 0 C) : Fits v q A (.ofText false (a ++ b).toList) 0 C := by
  have := ha.append hb
  rwa [add_zero, ← Shielded.ofText_append, ← String.toList_append] at this

/--
A lexeme that is read as itself before anything that meets `B`.
-/
theorem lexeme {c : Char} {u : List Char} {k : TokenKind} (hv : v.IgnoresTokens)
    (hmeasure : ∀ y, B y → Lexeme.measure q (some ' ') 0 c (u ++ y) = .ok (.token k, u.length))
    (hB : ∀ y, B y → Calm y) (hline : '\n' ∉ c :: u)
    (hlast : ∀ d ∈ (c :: u).getLast?, LineEdit.isEndBlank d = false) :
    Fits v q (fun t => t.head? = some c) (.ofText false (c :: u)) 0 B := by
  intro y t htrims hy
  have heq := htrims.eq_append (.inr hline) hlast
  subst heq
  refine ⟨rfl, ?_⟩
  rw [List.cons_append, View.marks_lexeme (hmeasure y hy) (hB y hy), hv]

end Fits

theorem Lexeme.measure_bracket {c : Char} (hc : c ∈ ['(', ')', ',', ']', '\x7d']) (p : Option Char) (o : Nat)
    (cs : List Char) : measure q p o c cs = .ok (.token .special, 0) := by
  have hopening : c ≠ '\x7b' ∧ c ≠ '[' ∧ isSpecial c := by
    simp only [List.mem_cons, List.not_mem_nil, or_false] at hc
    rcases hc with rfl | rfl | rfl | rfl | rfl <;> decide
  exact (Measured.special hopening.2.2 (fun h => hopening.1 h.1) fun h => absurd h hopening.2.1).measure_eq

theorem Lexeme.measure_brace (p : Option Char) (o : Nat) {cs : List Char} (h : Soft cs) :
    measure q p o '\x7b' cs = .ok (.token .special, 0) := by
  have hhead : cs.head? ≠ some '-' := not_mem_head?_of_soft h (by decide)
  exact (Measured.special (by decide) (fun h => hhead h.2) fun h => absurd h (by decide)).measure_eq

/--
A run of symbols is an operator before anything soft, unless it is a comment.
-/
theorem Lexeme.measure_symbol {c : Char} {u : List Char} (hc : c ∈ [':', '=', '|'])
    (hu : ∀ d ∈ u, Text.isSymbol d) (p : Option Char) (o : Nat) {y : List Char} (hy : Soft y) :
    ∃ k, measure q p o c (u ++ y) = .ok (.token k, u.length) := by
  have hrun : runLength Text.isSymbol (u ++ y) = u.length := by
    have hsoft := runLength_soft isHard_isSymbol hy
    unfold runLength at hsoft ⊢
    rw [List.takeWhile_append_of_pos hu, List.length_append, hsoft, Nat.add_zero]
  have hdashes (w : List Char) : isDashes (c :: w) = false := by
    have hc : (c == '-') = false := by
      simp only [List.mem_cons, List.not_mem_nil, or_false] at hc
      rcases hc with rfl | rfl | rfl <;> decide
    simp [isDashes, hc]
  have hsymbol : ∃ k, symbolLength c (u ++ y) = (.token k, u.length) := by
    unfold symbolLength
    dsimp only
    rw [hrun, hdashes, if_neg (by decide)]
    split
    · exact ⟨_, rfl⟩
    · split
      · exact ⟨_, rfl⟩
      · exact ⟨_, rfl⟩
  obtain ⟨k, hsymbol⟩ := hsymbol
  refine ⟨k, ?_⟩
  have hclass : Text.isSymbol c ∧ Text.isDigit c = false ∧ isIdentStart c = false ∧ c ≠ '#' := by
    simp only [List.mem_cons, List.not_mem_nil, or_false] at hc
    rcases hc with rfl | rfl | rfl <;> decide
  obtain ⟨hsym, hdigit, hident, hhash⟩ := hclass
  have hmeasured : Measured q p o c (u ++ y) _ := .symbol hsym hdigit hident fun h => hhash h.1
  rw [hsymbol] at hmeasured
  exact hmeasured.measure_eq

namespace Fits

/--
A bracket or a comma can be written behind everything, and everything behind it.
-/
theorem bracket (hv : v.IgnoresTokens) {c : Char} (hc : c ∈ ['(', ')', ',', ']', '\x7d']) :
    Fits v q Lexeme.Soft (.ofText false [c]) 0 Calm := by
  have hline : '\n' ∉ [c] := by
    simp only [List.mem_cons, List.not_mem_nil, or_false] at hc
    rcases hc with rfl | rfl | rfl | rfl | rfl <;> decide
  have hlast : ∀ d ∈ [c].getLast?, LineEdit.isEndBlank d = false := by
    rintro d ⟨⟩
    simp only [List.mem_cons, List.not_mem_nil, or_false] at hc
    rcases hc with rfl | rfl | rfl | rfl | rfl <;> decide
  have hsoft : Lexeme.isSoft c := by
    simp only [List.mem_cons, List.not_mem_nil, or_false] at hc
    rcases hc with rfl | rfl | rfl | rfl | rfl <;> decide
  refine (lexeme hv (fun y _ => Lexeme.measure_bracket hc _ _ y) (fun _ => id) hline hlast).mono ?_ fun _ => id
  intro t ht
  obtain ⟨t, rfl⟩ := List.head?_eq_some_iff.1 ht
  exact Lexeme.soft_cons hsoft

/--
An opening brace begins a comment before a dash.
-/
theorem brace (hv : v.IgnoresTokens) : Fits v q Lexeme.Soft (.ofText false ['\x7b']) 0 Lexeme.Soft := by
  refine (lexeme hv (fun y hy => Lexeme.measure_brace _ _ hy) (fun _ hy => hy.calm) (by decide) ?_).mono ?_
    fun _ => id
  · rintro d ⟨⟩
    decide
  · intro t ht
    obtain ⟨t, rfl⟩ := List.head?_eq_some_iff.1 ht
    exact soft_brace t

/--
A literal operator.
-/
theorem symbol (hv : v.IgnoresTokens) {c : Char} {u : List Char} (hc : c ∈ [':', '=', '|'])
    (hu : u = [] ∨ u = [':']) : Fits v q Calm (.ofText false (c :: u)) 0 Lexeme.Soft := by
  have hsymbols : ∀ d ∈ u, Text.isSymbol d := by
    rcases hu with rfl | rfl <;> exact List.all_eq_true.1 (by decide +kernel)
  have hne : c ≠ '\n' ∧ c ≠ '#' ∧ LineEdit.isEndBlank c = false := by
    simp only [List.mem_cons, List.not_mem_nil, or_false] at hc
    rcases hc with rfl | rfl | rfl <;> decide
  intro y t htrims hy
  obtain ⟨k, hmeasure⟩ := Lexeme.measure_symbol (q := q) hc hsymbols (some ' ') 0 hy
  have heq := htrims.eq_append (.inr ?_) ?_
  · subst heq
    refine ⟨fun h => hne.2.1 (Option.some.inj h), ?_⟩
    rw [List.cons_append, View.marks_lexeme hmeasure hy.calm, hv]
  · rcases hu with rfl | rfl <;> simp [hne.1.symm]
  · rcases hu with rfl | rfl
    · simpa using hne.2.2
    · intro d hd
      have hd : some ':' = some d := hd
      cases hd
      decide

end Fits

namespace Joins

theorem blank : Joins v q " " :=
  Token.fits_blank false

theorem comma (hv : v.IgnoresTokens) : Joins v q ", " := by
  have hcomma : Fits v q Lexeme.Soft (.ofText false ",".toList) 0 Lexeme.Soft :=
    (Fits.bracket hv (by decide)).mono (fun _ => id) fun _ h => h.calm
  exact hcomma.string_append (b := " ") blank

theorem symbol (hv : v.IgnoresTokens) {c : Char} {u : List Char} (hc : c ∈ [':', '=', '|'])
    (hu : u = [] ∨ u = [':']) : Joins v q (" " ++ String.ofList (c :: u) ++ " ") := by
  have hsymbol : Quiet v q (String.ofList (c :: u)) := by
    have := Fits.symbol (q := q) hv hc hu
    rwa [← String.toList_ofList (l := c :: u)] at this
  exact (Fits.string_append blank hsymbol).string_append blank

end Joins

namespace Quiet

variable {a b : String}

theorem empty : Quiet v q "" :=
  Fits.nil fun _ h => h.calm

theorem join {s : String} (ha : Quiet v q a) (hs : Joins v q s) (hb : Quiet v q b) : Quiet v q (a ++ s ++ b) :=
  (Fits.string_append ha hs).string_append hb

theorem padRight (ha : Quiet v q a) (width : Nat) : Quiet v q (padRight a width) := by
  refine Fits.string_append ha (Fits.softBlanks ?_ false)
  exact fun c => Output.Shows.isBlank_of_mem_replicate

theorem parenthesize (hv : v.IgnoresTokens) {c d : Char} (hc : c ∈ ['(', ')', ',', ']', '\x7d'])
    (hd : d ∈ ['(', ')', ',', ']', '\x7d']) (ha : Quiet v q a) :
    Quiet v q (String.singleton c ++ a ++ String.singleton d) := by
  have hopen : Fits v q Calm (.ofText false (String.singleton c).toList) 0 Calm := by
    rw [String.toList_singleton]
    exact (Fits.bracket hv hc).mono (fun _ h => h.calm) fun _ => id
  have hclose : Fits v q Lexeme.Soft (.ofText false (String.singleton d).toList) 0 Lexeme.Soft := by
    rw [String.toList_singleton]
    exact (Fits.bracket hv hd).mono (fun _ => id) fun _ h => h.calm
  exact (Fits.string_append hopen ha).string_append hclose

theorem intercalate {s : String} (hs : Joins v q s) {texts : List String} (h : ∀ text ∈ texts, Quiet v q text) :
    Quiet v q (s.intercalate texts) := by
  induction texts with
  | nil => exact empty
  | cons text texts ih =>
    cases texts with
    | nil => simpa using h
    | cons next more =>
      rw [String.intercalate_cons_cons]
      exact join (h text List.mem_cons_self) hs (ih fun other hother => h other (List.mem_cons_of_mem text hother))

end Quiet

/--
Tokens that can be written on one line.
-/
structure Token.IsFlat (q : Bool) (ts : List Token) : Prop where
  linked : Linked q ts
  line : ∀ t ∈ ts, t.isMultiline = false

theorem Token.IsFlat.of_infix {ts us : List Token} (h : IsFlat q ts) (hus : us <:+: ts) : IsFlat q us :=
  ⟨h.linked.of_infix hus, fun t ht => h.line t (hus.mem ht)⟩

theorem Token.IsFlat.of_mem {ts : List Token} (h : IsFlat q ts) {t : Token} (ht : t ∈ ts) : IsFlat q [t] := by
  obtain ⟨before, after, rfl⟩ := List.append_of_mem ht
  exact h.of_infix ⟨before, after, by simp⟩

namespace Quiet

theorem flat (hv : v.IgnoresTokens) {ts : List Token} (h : Token.IsFlat q ts) : Quiet v q (Token.flat ts) := by
  have hseen : Token.allSeen v ts = 0 := by
    induction ts with
    | nil => rfl
    | cons t ts ih =>
      rw [Token.allSeen_cons, Token.seen, hv, zero_add, ih (h.of_infix (List.suffix_cons t ts).isInfix)]
  have := Token.fits_flat (v := v) h.linked h.line
  rwa [hseen] at this

theorem token (hv : v.IgnoresTokens) {t : Token} (h : Token.IsFlat q [t]) : Quiet v q t.text := by
  have := flat hv h
  rwa [Token.flat, Token.flatRest, String.append_empty] at this

theorem colons (hv : v.IgnoresTokens) : Joins v q " :: " :=
  Joins.symbol hv (c := ':') (u := [':']) (by decide) (.inr rfl)

theorem field (hv : v.IgnoresTokens) {f : Field} (h : Token.IsFlat q (tokens f)) (width : Nat) :
    Quiet v q (f.flat width) := by
  have hnames : Token.IsFlat q f.names := h.of_infix (List.prefix_append _ _).isInfix
  have htype : Token.IsFlat q f.type := h.of_infix ⟨f.names ++ [f.colons], [], by simp [HasTokens.tokens, tokens]⟩
  exact join ((flat hv hnames).padRight width) (colons hv) (flat hv htype)

end Quiet

namespace Quiet

theorem fields (hv : v.IgnoresTokens) {record : Record} (h : Token.IsFlat q (tokens record)) (f : Field → Nat) :
    ∀ text ∈ record.items.map fun field => field.flat (f field), Quiet v q text := by
  intro text htext
  obtain ⟨item, hitem, rfl⟩ := List.mem_map.1 htext
  exact field hv (h.of_infix (ItemList.infix_tokens hitem)) _

theorem record (hv : v.IgnoresTokens) {r : Record} (h : Token.IsFlat q (tokens r)) : Quiet v q r.flat := by
  have hopen : Fits v q Calm (.ofText false "\x7b".toList) 0 Lexeme.Soft :=
    (Fits.brace hv).mono (fun _ h => h.calm) fun _ => id
  have hclose : Fits v q Lexeme.Soft (.ofText false "\x7d".toList) 0 Lexeme.Soft :=
    (Fits.bracket hv (by decide)).mono (fun _ => id) fun _ h => h.calm
  have hfields := fields hv h fun _ => 0
  unfold Record.flat
  cases hitems : r.items with
  | nil => exact hopen.string_append hclose
  | cons item items =>
    rw [hitems] at hfields
    have hinner := intercalate (Joins.comma hv) hfields
    have hleft : Fits v q Calm (.ofText false "\x7b ".toList) 0 Calm := hopen.string_append (b := " ") Joins.blank
    have hright : Fits v q Lexeme.Soft (.ofText false " \x7d".toList) 0 Lexeme.Soft :=
      Fits.string_append (a := " ") Joins.blank (hclose.mono (fun _ h => h.calm) fun _ => id)
    exact (hleft.string_append hinner).string_append hright

/--
Tokens behind a text, if there are any.
-/
theorem more (hv : v.IgnoresTokens) {a : String} (ha : Quiet v q a) {ts : List Token} (hts : Token.IsFlat q ts) :
    Quiet v q (a ++ if ts.isEmpty then "" else " " ++ Token.flat ts) := by
  split
  · rw [String.append_empty]
    exact ha
  · rw [← String.append_assoc]
    exact ha.join Joins.blank (flat hv hts)

theorem constructor (hv : v.IgnoresTokens) {c : Constructor} (h : Token.IsFlat q (tokens c)) :
    Quiet v q c.flat := by
  have hbefore : Token.IsFlat q c.before :=
    h.of_infix ⟨[], (c.record.map tokens).getD [] ++ c.after, by simp [tokens]⟩
  have hafter : Token.IsFlat q c.after := h.of_infix (List.suffix_append _ _).isInfix
  unfold Constructor.flat
  refine more hv ?_ hafter
  cases hrecord : c.record with
  | none =>
    dsimp only
    rw [String.append_empty]
    exact flat hv hbefore
  | some r =>
    have hr : Token.IsFlat q (tokens r) := h.of_infix ⟨c.before, c.after, by simp [tokens, hrecord]⟩
    have := (flat hv hbefore).join Joins.blank (record hv hr)
    rwa [String.append_assoc] at this

theorem derivingClause (hv : v.IgnoresTokens) {d : Deriving} (h : Token.IsFlat q (tokens d)) (width : Nat) :
    Quiet v q (d.flat width) := by
  have htokens : tokens d = d.keyword :: (d.strategy.toList ++ d.classes ++ d.via) := rfl
  have hkeyword : Quiet v q d.keyword.text := token hv (h.of_mem (by rw [htokens]; exact List.mem_cons_self))
  have hclasses : Token.IsFlat q d.classes :=
    h.of_infix ⟨d.keyword :: d.strategy.toList, d.via, by simp [htokens]⟩
  have hvia : Token.IsFlat q d.via :=
    h.of_infix ⟨d.keyword :: d.strategy.toList ++ d.classes, [], by simp [htokens]⟩
  have hhead : Quiet v q d.flatKeyword := by
    unfold Deriving.flatKeyword
    cases hstrategy : d.strategy with
    | none => exact hkeyword
    | some strategy =>
      exact hkeyword.join Joins.blank (token hv (h.of_mem (by simp [htokens, hstrategy])))
  have hinner : Quiet v q (if d.parenthesize && !d.isParenthesized then "(" ++ Token.flat d.classes ++ ")"
      else Token.flat d.classes) := by
    split
    · exact parenthesize hv (c := '(') (d := ')') (by decide) (by decide) (flat hv hclasses)
    · exact flat hv hclasses
  exact more hv ((hhead.padRight width).join Joins.blank hinner) hvia

theorem signature (hv : v.IgnoresTokens) {s : Signature} (h : Token.IsFlat q (tokens s)) :
    Quiet v q s.flat := by
  have hnames : Token.IsFlat q s.names := h.of_infix (List.prefix_append _ _).isInfix
  have htype : Token.IsFlat q s.type := h.of_infix ⟨s.names ++ [s.colons], [], by simp [tokens]⟩
  exact (flat hv hnames).join (colons hv) (flat hv htype)

/--
An export or import list in brackets.
-/
theorem itemList (hv : v.IgnoresTokens) {list : ItemList Entry} (h : Token.IsFlat q (tokens list))
    (hopening : list.opening.text = "(") (hclosing : list.closing.isClosing) : Quiet v q list.flat := by
  have hentries : Quiet v q (", ".intercalate (list.items.map Entry.flat)) := by
    refine intercalate (Joins.comma hv) fun text htext => ?_
    obtain ⟨item, hitem, rfl⟩ := List.mem_map.1 htext
    exact flat hv (h.of_infix (ItemList.infix_tokens hitem))
  obtain ⟨d, hd, hmem⟩ : ∃ d, list.closing.text = String.singleton d ∧ d ∈ ['(', ')', ',', ']', '\x7d'] := by
    simp only [Token.isClosing, Token.isSpecial, Bool.and_eq_true, List.contains_iff_mem, List.mem_cons,
      List.not_mem_nil, or_false] at hclosing
    rcases hclosing.2 with h | h | h
    · exact ⟨')', h, by decide⟩
    · exact ⟨']', h, by decide⟩
    · exact ⟨'\x7d', h, by decide⟩
  unfold ItemList.flat
  rw [hopening, hd]
  exact parenthesize hv (c := '(') (by decide) hmem hentries

theorem dataHead (hv : v.IgnoresTokens) {d : DataDecl} (h : Token.IsFlat q (d.keyword :: d.head)) :
    Quiet v q d.flatHead :=
  (token hv (h.of_mem List.mem_cons_self)).join Joins.blank
    (flat hv (h.of_infix (List.suffix_cons _ _).isInfix))

theorem dataDecl (hv : v.IgnoresTokens) {d : DataDecl} (h : Token.IsFlat q d.bodyTokens) : Quiet v q d.flat := by
  have hhead := dataHead hv (h.of_infix (List.prefix_append (d.keyword :: d.head) _).isInfix)
  have hequals : Joins v q " = " := Joins.symbol hv (c := '=') (u := []) (by decide) (.inl rfl)
  have hbar : Joins v q " | " := Joins.symbol hv (c := '|') (u := []) (by decide) (.inl rfl)
  have hled {leader : Token} {c : Constructor} (hmem : (leader, c) ∈ d.ledConstructors) :
      Token.IsFlat q (tokens c) := by
    refine h.of_infix ?_
    have hgroup : leader :: tokens c <:+: d.ledConstructors.flatMap fun x => x.1 :: tokens x.2 := by
      rw [List.flatMap_def]
      exact List.infix_of_mem_flatten (List.mem_map.2 ⟨(leader, c), hmem, rfl⟩)
    exact ((List.suffix_cons leader (tokens c)).isInfix.trans hgroup).trans (List.suffix_append _ _).isInfix
  refine hhead.join hequals (intercalate hbar fun text htext => ?_)
  obtain ⟨c, hc, rfl⟩ := List.mem_map.1 htext
  rcases List.mem_cons.1 hc with rfl | hc
  · exact constructor hv (hled List.mem_cons_self)
  · obtain ⟨⟨bar, c⟩, hmem, rfl⟩ := List.mem_map.1 hc
    exact constructor hv (hled (List.mem_cons_of_mem _ hmem))

end Quiet

end HaskellStyle
