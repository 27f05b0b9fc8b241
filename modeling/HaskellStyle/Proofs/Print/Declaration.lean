import HaskellStyle.Proofs.Declaration.Tokens
import HaskellStyle.Proofs.Print.List
import HaskellStyle.Print.Declaration

/-!
This module contains what the writing of declarations in normal form shows. Such a declaration is written row
by row, and each row shows the comments of its tokens but those behind the last one, which the row or, for the
last row, the declaration itself writes.
-/

namespace HaskellStyle

variable {μ : Type} {v : View μ} {q : Bool}

namespace Printer

variable {out : Output} {ms : Multiset μ} {p : Printer}

open Output (Shows)

/--
A way to write tokens on rows of their own, with all comments but those behind the last token.
-/
def Writes (v : View μ) (q : Bool) (ts : List Token) (write : Output → Output) : Prop :=
  ∀ out ms, Output.Shows v q out ms LineEnd → ∃ inner, (write out).Shows v q (ms + inner) Lexeme.Soft
    ∧ ∀ default, Token.allShown v ts = inner + Trivia.seen v (ts.getLastD default).trailing

/--
Rows before the end of a declaration are written with all their comments.
-/
theorem shows_rows {ρ : Type} {rows : List ρ} (toks : ρ → List Token) (write : ρ → Output → Output) {end_ : Token}
    (hwrite : ∀ row ∈ rows, Writes v q (toks row) (write row))
    (hsound : ∀ row ∈ rows, Trivia.IsLine ((toks row).getLastD end_).trailing)
    (hend : ∀ row ∈ rows, ((toks row).getLastD end_).offset ≠ end_.offset) (h : out.Shows v q ms LineEnd) :
    (rows.foldl (fun out row => p.trailingInside ((toks row).getLastD end_) end_ (write row out)) out).Shows v q
      (ms + Token.allShown v (rows.flatMap toks)) LineEnd := by
  induction rows generalizing out ms with
  | nil => simpa using h
  | cons row rows ih =>
    obtain ⟨inner, hrow, hinner⟩ := hwrite row List.mem_cons_self out ms h
    have htrailing := shows_trailing p (hsound row List.mem_cons_self) true hrow fun _ => id
    rw [List.foldl_cons, List.flatMap_cons, Token.allShown_append, hinner end_, ← add_assoc, ← add_assoc]
    refine ih (fun other hother => hwrite other (List.mem_cons_of_mem row hother))
      (fun other hother => hsound other (List.mem_cons_of_mem row hother))
      (fun other hother => hend other (List.mem_cons_of_mem row hother)) ?_
    rw [trailingInside, if_neg (hend row List.mem_cons_self)]
    exact htrailing.mono fun _ hy => Token.tail_of_lineEnd (fun _ hy => hy.soft) hy

/--
The last row leaves the comments behind its last token to the declaration.
-/
theorem shows_rows_last {ρ : Type} {rows : List ρ} (toks : ρ → List Token) (write : ρ → Output → Output)
    {end_ : Token} (hwrite : ∀ row ∈ rows, Writes v q (toks row) (write row))
    (hsound : ∀ row ∈ rows, Trivia.IsLine ((toks row).getLastD end_).trailing)
    (hne : rows ≠ []) (htoks : ∀ row ∈ rows, toks row ≠ [])
    (hordered : (rows.flatMap toks).Pairwise fun t u => t.offset < u.offset)
    (hend : (rows.flatMap toks).getLast? = some end_) (h : out.Shows v q ms LineEnd) :
    ∃ inner, (rows.foldl (fun out row => p.trailingInside ((toks row).getLastD end_) end_ (write row out))
        out).Shows v q (ms + inner) Lexeme.Soft
      ∧ Token.allShown v (rows.flatMap toks) = inner + Trivia.seen v end_.trailing := by
  obtain ⟨init, last, rfl⟩ := (List.eq_nil_or_concat rows).resolve_left hne
  have hmem : last ∈ init ++ [last] := by simp
  rw [List.concat_eq_append] at *
  have hlast : (toks last).getLastD end_ = end_ := by
    rw [List.flatMap_append, List.flatMap_cons, List.flatMap_nil, List.append_nil,
      List.getLast?_append_of_ne_nil _ (htoks last hmem)] at hend
    rw [List.getLastD_eq_getLast?, hend, Option.getD_some]
  have hinit : ∀ row ∈ init, ((toks row).getLastD end_).offset ≠ end_.offset := by
    intro row hrow
    rw [List.flatMap_append, List.pairwise_append] at hordered
    refine Nat.ne_of_lt (hordered.2.2 _ ?_ _ ?_)
    · have hrowne := htoks row (List.mem_append_left _ hrow)
      rw [List.getLastD_eq_getLast?, List.getLast?_eq_some_getLast hrowne, Option.getD_some]
      exact List.mem_flatMap.2 ⟨row, hrow, List.getLast_mem hrowne⟩
    · rw [List.flatMap_append, List.flatMap_cons, List.flatMap_nil, List.append_nil,
        List.getLast?_append_of_ne_nil _ (htoks last hmem)] at hend
      simpa using List.mem_of_getLast? hend
  have hbefore := shows_rows (p := p) toks write (fun row hrow => hwrite row (List.mem_append_left _ hrow))
    (fun row hrow => hsound row (List.mem_append_left _ hrow)) hinit h
  obtain ⟨inner, hrow, hinner⟩ := hwrite last hmem _ _ hbefore
  refine ⟨Token.allShown v (init.flatMap toks) + inner, ?_, ?_⟩
  · rw [List.foldl_append, List.foldl_cons, List.foldl_nil, trailingInside, if_pos (by rw [hlast]), ← add_assoc]
    exact hrow
  · rw [List.flatMap_append, List.flatMap_cons, List.flatMap_nil, List.append_nil, Token.allShown_append,
      hinner end_, hlast, add_assoc]

/--
A way to write the tokens of a declaration with all comments but those around it.
-/
def Covers (v : View μ) (q : Bool) (ts : List Token) (write : Output → Output) : Prop :=
  ∀ out ms, Output.Shows v q out ms Calm → ∃ inner, (write out).Shows v q (ms + inner) Lexeme.Soft
    ∧ ∀ default, Token.allShown v ts
      = (ts.headD default).leading.seen v + inner + Trivia.seen v (ts.getLastD default).trailing

theorem covers_put (hv : v.IgnoresTokens) {ts : List Token} (hsound : ∀ t ∈ ts, t.IsSound)
    (hclean : Token.cleanInside ts) (hne : ts ≠ []) {text : String} (htext : Quiet v q text) :
    Covers v q ts (·.put text) := by
  intro out ms h
  refine ⟨0, ?_, fun default => ?_⟩
  · rw [add_zero]
    exact shows_put htext h
  · rw [add_zero, Token.allShown_of_cleanInside hv hsound hclean hne]

end Printer

theorem Record.getLastD_tokens (r : Record) (default : Token) : (tokens r).getLastD default = r.closing := by
  show (r.opening :: ItemList.interleave r.items r.commas ++ [r.closing]).getLastD default = _
  rw [Token.getLastD_append (List.cons_ne_nil _ _)]
  rfl

namespace Signature

/--
A signature that can be written in the given layout.
-/
def IsLaidOut (s : Signature) : ListLayout → Prop
  | .singleLine => Token.cleanInside (tokens s)
  | .multiLine => Token.cleanInside s.names ∧ s.names ≠ []
    ∧ (∀ last ∈ s.names.getLast?, last.trailing.hasComments = false)
    ∧ ∀ leader part, (leader, part) ∈ s.parts → leader.leading.InLines ∧ leader.trailing.hasComments = false
      ∧ Token.cleanInside part ∧ ∃ first ∈ part.head?, first.leading.hasComments = false

theorem tokens_eq (s : Signature) : tokens s = s.names ++ s.parts.flatMap fun part => part.1 :: part.2 := by
  have hsplit := Outside.splitAll_tokens (p := (·.isReservedOp ["->", "→", "=>", "⇒"])) 0 s.type
  show s.names ++ s.colons :: s.type = _
  conv => lhs; rw [← hsplit]
  rfl

end Signature

namespace Printer

variable {out : Output} {ms : Multiset μ} {p : Printer}

open Output (Shows)

/--
A part of a signature on a row of its own.
-/
theorem writes_signaturePart (hv : v.IgnoresTokens) {leader : Token} {part : List Token}
    (hrun : Token.IsRun q (leader :: part)) (hline : ∀ t ∈ leader :: part, t.isMultiline = false)
    (hlines : leader.leading.InLines) (htrailing : leader.trailing.hasComments = false)
    (hclean : Token.cleanInside part) {first : Token} (hfirst : first ∈ part.head?)
    (hleading : first.leading.hasComments = false) (indent : Int) :
    Writes v q (leader :: part) fun out =>
      ((commentLines leader.leading indent false out).endLine.blanks indent).put
        (leader.text ++ " " ++ Token.flat part) := by
  intro out ms h
  have hflat : Token.IsFlat q (leader :: part) := ⟨hrun.linked, hline⟩
  have hsound := hrun.sound leader List.mem_cons_self
  have htext : Quiet v q (leader.text ++ " " ++ Token.flat part) :=
    (Quiet.token hv (hflat.of_mem List.mem_cons_self)).join Joins.blank
      (Quiet.flat hv (hflat.of_infix (List.suffix_cons _ _).isInfix))
  have hcomments := shows_commentLines hsound.leading hlines indent false h
  refine ⟨leader.leading.seen v, shows_put htext (hcomments.endLine.blanks indent), fun default => ?_⟩
  obtain ⟨more, rfl⟩ := List.head?_eq_some_iff.1 hfirst
  have hfirstSound := hrun.sound first (by simp)
  rw [Token.allShown_cons, Token.shown_eq hv, Trivia.seen_of_not_hasComments hsound.trailing htrailing,
    Token.allShown_of_cleanInside hv (fun t ht => hrun.sound t (List.mem_cons_of_mem _ ht)) hclean
      (List.cons_ne_nil _ _) default, List.headD_cons, hfirstSound.leading.seen_eq_zero hleading, add_zero, zero_add]
  rfl

/--
A signature is written with all comments in it.
-/
theorem covers_signature (hv : v.IgnoresTokens) {s : Signature} (hrun : Token.IsRun q (tokens s))
    (hline : ∀ t ∈ tokens s, t.isMultiline = false) {layout : ListLayout} (hlayout : s.IsLaidOut layout) :
    Covers v q (tokens s) (p.signature s layout) := by
  have hflat : Token.IsFlat q (tokens s) := ⟨hrun.linked, hline⟩
  have hne : tokens s ≠ [] := by simp [tokens]
  cases layout with
  | singleLine => exact covers_put hv hrun.sound hlayout hne (Quiet.signature hv hflat)
  | multiLine =>
    obtain ⟨hnames, hnamesNe, hnamesLast, hparts⟩ := hlayout
    intro out ms h
    have htokens := s.tokens_eq
    have hnamesRun : Token.IsRun q s.names := hrun.of_infix (by rw [htokens]; exact (List.prefix_append _ _).isInfix)
    have hpartsRun : Token.IsRun q (s.parts.flatMap fun part => part.1 :: part.2) :=
      hrun.of_infix (by rw [htokens]; exact (List.suffix_append _ _).isInfix)
    have hrow {part : Token × List Token} (hpart : part ∈ s.parts) :
        part.1 :: part.2 <:+: s.parts.flatMap fun part => part.1 :: part.2 := by
      rw [List.flatMap_def]
      exact List.infix_of_mem_flatten (List.mem_map.2 ⟨part, hpart, rfl⟩)
    have hpartsNe : s.parts ≠ [] := List.cons_ne_nil _ _
    have hflatNe : (s.parts.flatMap fun part => part.1 :: part.2) ≠ [] := List.cons_ne_nil _ _
    have hend : (s.parts.flatMap fun part => part.1 :: part.2).getLast? = some (lastToken s) := by
      rw [lastToken, List.getLastD_eq_getLast?, htokens, List.getLast?_append_of_ne_nil _ hflatNe,
        List.getLast?_eq_some_getLast hflatNe]
      rfl
    have hstart := (shows_put (Quiet.flat hv ⟨hnamesRun.linked, fun t ht => hline t (by
      rw [htokens]; exact List.mem_append_left _ ht)⟩) h).mono fun _ (hy : LineEnd _) => hy.soft
    obtain ⟨inner, hrows, hinner⟩ := shows_rows_last (p := p) (fun part : Token × List Token => part.1 :: part.2)
      (fun part out =>
        ((commentLines part.1.leading ((firstToken s).column + p.indent) false out).endLine.blanks
          ((firstToken s).column + p.indent)).put (part.1.text ++ " " ++ Token.flat part.2))
      (fun part hpart => by
        obtain ⟨hlines, htrailing, hclean, first, hfirst, hleading⟩ := hparts part.1 part.2 hpart
        exact writes_signaturePart hv (hpartsRun.of_infix (hrow hpart))
          (fun t ht => hline t (by rw [htokens]; exact List.mem_append_right _ ((hrow hpart).mem ht)))
          hlines htrailing hclean hfirst hleading _)
      (fun part hpart => (hpartsRun.sound _ ((hrow hpart).mem (Token.getLastD_mem (List.cons_ne_nil _ _) _))).trailing)
      hpartsNe (fun part _ => List.cons_ne_nil _ _) hpartsRun.ordered hend hstart
    refine ⟨inner, ?_, fun default => ?_⟩
    · convert hrows using 1
      refine List.foldl_ext _ _ _ fun out part hpart => ?_
      obtain ⟨leader, part⟩ := part
      obtain ⟨-, -, -, first, hfirst, -⟩ := hparts leader part hpart
      obtain ⟨more, rfl⟩ := List.head?_eq_some_iff.1 hfirst
      have hlast : (first :: more).getLast? = some ((leader :: first :: more).getLastD (lastToken s)) := by
        rw [List.getLastD_eq_getLast?, List.getLast?_cons_cons, List.getLast?_eq_some_getLast (List.cons_ne_nil _ _)]
        rfl
      dsimp only
      rw [hlast]
    · have hnamesShown := Token.allShown_of_cleanInside hv hnamesRun.sound hnames hnamesNe default
      have hnamesTrailing : Trivia.seen v (s.names.getLastD default).trailing = 0 := by
        refine Trivia.seen_of_not_hasComments (hnamesRun.sound _ (Token.getLastD_mem hnamesNe _)).trailing ?_
        refine hnamesLast _ ?_
        rw [List.getLastD_eq_getLast?, List.getLast?_eq_some_getLast hnamesNe]
        rfl
      have hhead : (tokens s).headD default = s.names.headD default := by
        rw [htokens]
        cases hs : s.names with
        | nil => exact absurd hs hnamesNe
        | cons => rfl
      have hlast : (tokens s).getLastD default = lastToken s := Token.getLastD_eq hne _ _
      conv => lhs; rw [htokens]
      rw [Token.allShown_append, hinner, hnamesShown, hnamesTrailing, hhead, hlast, add_zero, add_assoc]

/--
A record is written with all comments in it.
-/
theorem writes_record (hv : v.IgnoresTokens) {r : Record} (hflat : Token.IsFlat q (tokens r))
    (hlist : r.toItemList.IsLaidOut q) (indent : Int) : Writes v q (tokens r) (p.record r indent) := by
  intro out ms h
  have hlength : (r.items.zipWith Field.flat
      (r.nameWidths ++ List.replicate (r.items.length - r.nameWidths.length) 0)).length = r.items.length := by
    simp only [List.length_zipWith, List.length_append, List.length_replicate]
    omega
  have htexts : ∀ text ∈ r.items.zipWith Field.flat
      (r.nameWidths ++ List.replicate (r.items.length - r.nameWidths.length) 0), Quiet v q text := by
    intro text htext
    rw [← List.map_uncurry_zip_eq_zipWith] at htext
    obtain ⟨⟨item, width⟩, hpair, rfl⟩ := List.mem_map.1 htext
    exact Quiet.field hv (hflat.of_infix (ItemList.infix_tokens (List.of_mem_zip hpair).1)) width
  obtain ⟨inner, hshows, hinner⟩ := shows_itemList (p := p) hv hlist hlength htexts indent h
  refine ⟨inner, hshows, fun default => ?_⟩
  rw [r.getLastD_tokens]
  exact hinner

end Printer

theorem Constructor.tokens_of_record {c : Constructor} {r : Record} (hrecord : c.record = some r)
    (hafter : c.after = []) : tokens c = c.before ++ tokens r := by
  show c.before ++ (c.record.map tokens).getD [] ++ c.after = _
  rw [hrecord, hafter, List.append_nil]
  rfl

theorem Constructor.allShown_before (hv : v.IgnoresTokens) {c : Constructor} (hsound : ∀ t ∈ c.before, t.IsSound)
    (hclean : Token.cleanInside c.before) (htrailing : (c.more.getLastD c.first).trailing.hasComments = false) :
    Token.allShown v c.before = c.first.leading.seen v := by
  have hlast : c.before.getLastD c.first = c.more.getLastD c.first := List.getLastD_cons
  rw [Token.allShown_of_cleanInside hv hsound hclean (List.cons_ne_nil _ _) c.first, hlast,
    Trivia.seen_of_not_hasComments (hsound _ (hlast ▸ Token.getLastD_mem (List.cons_ne_nil _ _) _)).trailing
      htrailing, add_zero]
  rfl

/--
A constructor that can be written on a row of its own.
-/
structure Constructor.IsLaidOut (q : Bool) (c : Constructor) : Prop where
  lines : c.first.leading.InLines
  flat : c.record.filter (·.layout ≠ some .singleLine) = none → Token.cleanInside (tokens c)
  spread : ∀ r, c.record.filter (·.layout ≠ some .singleLine) = some r → c.after = []
    ∧ Token.cleanInside c.before ∧ (c.more.getLastD c.first).trailing.hasComments = false
    ∧ r.toItemList.IsLaidOut q

namespace Printer

variable {out : Output} {ms : Multiset μ} {p : Printer}

open Output (Shows)

/--
A constructor of a sum type behind its leader, without the comments behind it.
-/
def constructorRow (p : Printer) (indent : Int) : Token × Constructor → Output → Output
  | (leader, c), out =>
    let out := commentLines leader.leading indent false out
    let out := (out.endLine.blanks indent).put leader.text
    match c.record.filter (·.layout ≠ some .singleLine) with
    | none => ledText leader (firstToken c) indent c.flat true out
    | some r =>
      p.record r (indent + 4) (ledText leader (firstToken c) indent (Token.flat c.before) true out)

/--
A constructor is written on its row with all comments in it.
-/
theorem writes_constructor (hv : v.IgnoresTokens) {leader : Token} {c : Constructor}
    (hrun : Token.IsRun q (leader :: tokens c)) (hline : ∀ t ∈ leader :: tokens c, t.isMultiline = false)
    (hleader : leader.leading.InLines) (hc : c.IsLaidOut q) (indent : Int) :
    Writes v q (leader :: tokens c) (p.constructorRow indent (leader, c)) := by
  intro out ms h
  have hflat : Token.IsFlat q (leader :: tokens c) := ⟨hrun.linked, hline⟩
  have hsound := hrun.sound leader List.mem_cons_self
  have hne : tokens c ≠ [] := List.cons_ne_nil _ _
  have hfirst : firstToken c = c.first := rfl
  have hfirstSound := hrun.sound c.first (List.mem_cons_of_mem _ List.mem_cons_self)
  have hcSound : ∀ t ∈ tokens c, t.IsSound := fun t ht => hrun.sound t (List.mem_cons_of_mem _ ht)
  have hcFlat : Token.IsFlat q (tokens c) := hflat.of_infix (List.suffix_cons _ _).isInfix
  have hcomments := shows_commentLines hsound.leading hleader indent false h
  have hput := shows_put (Quiet.token hv (hflat.of_mem List.mem_cons_self)) (hcomments.endLine.blanks indent)
  have hled {text : String} (htext : Quiet v q text) :=
    shows_ledText hsound.trailing hfirstSound.leading hc.lines indent htext true hput
  unfold constructorRow
  dsimp only
  cases hrecord : c.record.filter (·.layout ≠ some .singleLine) with
  | none =>
    refine ⟨leader.leading.seen v + Trivia.seen v leader.trailing + c.first.leading.seen v, ?_, fun default => ?_⟩
    · rw [← add_assoc, ← add_assoc]
      exact hled (Quiet.constructor hv hcFlat)
    · have hlast : (leader :: tokens c).getLastD default = (tokens c).getLastD default := by
        rw [List.getLastD_cons, Token.getLastD_eq hne]
      rw [Token.allShown_cons, Token.shown_eq hv,
        Token.allShown_of_cleanInside hv hcSound (hc.flat hrecord) hne default, hlast, ← add_assoc]
      rfl
  | some r =>
    obtain ⟨hafter, hclean, htrailing, hlist⟩ := hc.spread r hrecord
    have hr : c.record = some r := (Option.filter_eq_some_iff.1 hrecord).1
    have htokens := Constructor.tokens_of_record hr hafter
    have hrNe : tokens r ≠ [] := List.cons_ne_nil _ _
    have hbeforeFlat : Token.IsFlat q c.before :=
      hcFlat.of_infix (by rw [htokens]; exact (List.prefix_append _ _).isInfix)
    have hrFlat : Token.IsFlat q (tokens r) :=
      hcFlat.of_infix (by rw [htokens]; exact (List.suffix_append _ _).isInfix)
    have hbefore := (hled (Quiet.flat hv hbeforeFlat)).mono fun _ (hy : LineEnd _) => hy.soft
    obtain ⟨inner, hrow, hinner⟩ := writes_record (p := p) hv hrFlat hlist (indent + 4) _ _ hbefore
    refine ⟨leader.leading.seen v + Trivia.seen v leader.trailing + c.first.leading.seen v + inner, ?_,
      fun default => ?_⟩
    · rw [← add_assoc, ← add_assoc, ← add_assoc]
      exact hrow
    · have hbeforeSound : ∀ t ∈ c.before, t.IsSound := fun t ht =>
        hcSound t (by rw [htokens]; exact List.mem_append_left _ ht)
      have hbeforeShown := Constructor.allShown_before hv hbeforeSound hclean htrailing
      have hlast : (leader :: tokens c).getLastD default = (tokens r).getLastD default := by
        rw [htokens, ← List.cons_append, Token.getLastD_append hrNe]
      rw [Token.allShown_cons, Token.shown_eq hv, htokens, Token.allShown_append, hbeforeShown, hinner default,
        ← htokens, hlast]
      abel

end Printer

namespace Token

/--
Tokens without comments between them fall into parts without comments between them.
-/
theorem cleanInside_append {ts us : List Token} (h : cleanInside (ts ++ us)) :
    cleanInside ts ∧ cleanInside us
      ∧ (ts ≠ [] → us ≠ [] → ∀ t, (ts.getLastD t).trailing.hasComments = false) := by
  induction ts with
  | nil => exact ⟨rfl, h, fun hne => absurd rfl hne⟩
  | cons t ts ih =>
    cases ts with
    | nil =>
      cases us with
      | nil => exact ⟨h, rfl, fun _ hne => absurd rfl hne⟩
      | cons u us =>
        simp only [List.cons_append, List.nil_append, cleanInside, Bool.and_eq_true, Bool.not_eq_true'] at h
        refine ⟨by simp [cleanInside, h.1.1.1], h.2, fun _ _ _ => h.1.1.2⟩
    | cons next ts =>
      simp only [List.cons_append, cleanInside, Bool.and_eq_true, Bool.not_eq_true'] at h
      obtain ⟨hts, hus, hlast⟩ := ih h.2
      refine ⟨?_, hus, fun _ hne u => ?_⟩
      · simp only [cleanInside, Bool.and_eq_true, Bool.not_eq_true']
        exact ⟨h.1, hts⟩
      · rw [List.getLastD_cons, getLastD_eq (List.cons_ne_nil _ _) t u]
        exact hlast (List.cons_ne_nil _ _) hne u

end Token

/--
A data declaration that can be written in the given layout. In a record on several lines there is no place for
comments at the equals sign and before the constructor.
-/
structure DataDecl.IsLaidOut (q : Bool) (d : DataDecl) (layout : ListLayout) : Prop where
  head : Token.cleanInside (d.keyword :: d.head)
  headTrailing : (d.head.getLastD d.keyword).trailing.hasComments = false
  derivings : ∀ clause ∈ d.derivings, Token.cleanInside (tokens clause) ∧ clause.keyword.leading.InLines
  single : layout = .singleLine → Token.cleanInside (tokens d)
  spread : layout = .multiLine → ∀ entry ∈ d.ledConstructors,
    entry.1.leading.InLines ∧ entry.2.IsLaidOut q
  record : layout = .multiLine → ∀ r, d.singleRecord? = some r → r.layout ≠ some .singleLine
    ∧ d.equals.leading.hasComments = false ∧ d.equals.trailing.hasComments = false
    ∧ d.constructor.first.leading.hasComments = false

namespace Printer

variable {out : Output} {ms : Multiset μ} {p : Printer}

open Output (Shows)

/--
A data declaration up to its deriving clauses.
-/
def dataBody (p : Printer) (d : DataDecl) (layout : ListLayout) (out : Output) : Output :=
  let indent := d.keyword.column + p.indent
  match layout, d.singleRecord? with
  | .singleLine, _ => out.put d.flat
  | .multiLine, some r =>
    let out := out.put (d.flatHead ++ " = " ++ Token.flat d.constructor.before)
    p.trailingInside r.closing (lastToken d) (p.record r indent out)
  | .multiLine, none =>
    d.ledConstructors.foldl (p.constructor indent (lastToken d)) (out.put d.flatHead)

/--
A deriving clause on a row of its own.
-/
theorem writes_deriving (hv : v.IgnoresTokens) {clause : Deriving} (hrun : Token.IsRun q (tokens clause))
    (hline : ∀ t ∈ tokens clause, t.isMultiline = false) (hclean : Token.cleanInside (tokens clause))
    (hlines : clause.keyword.leading.InLines) (indent : Int) (width : Nat) :
    Writes v q (tokens clause) fun out =>
      ((commentLines clause.keyword.leading indent false out).endLine.blanks indent).put (clause.flat width) := by
  intro out ms h
  have hne : tokens clause ≠ [] := List.cons_ne_nil _ _
  have hsound := hrun.sound clause.keyword List.mem_cons_self
  have hcomments := shows_commentLines hsound.leading hlines indent false h
  refine ⟨clause.keyword.leading.seen v,
    shows_put (Quiet.derivingClause hv ⟨hrun.linked, hline⟩ width) (hcomments.endLine.blanks indent),
    fun default => ?_⟩
  rw [Token.allShown_of_cleanInside hv hrun.sound hclean hne default]
  rfl

/--
Deriving clauses on rows of their own are written with all comments in them.
-/
theorem shows_derivings (hv : v.IgnoresTokens) {d : DataDecl} (hrun : Token.IsRun q (tokens d))
    (hline : ∀ t ∈ tokens d, t.isMultiline = false)
    (hclauses : ∀ clause ∈ d.derivings, Token.cleanInside (tokens clause) ∧ clause.keyword.leading.InLines)
    (hne : d.derivings ≠ []) {layout : ListLayout}
    (hrows : ¬(!(d.derivingLayout.getD ⟨false, 0⟩).ownLines && layout ≠ .multiLine)) (indent : Int)
    (h : out.Shows v q ms LineEnd) :
    ∃ inner, (p.derivings d layout indent out).Shows v q (ms + inner) Lexeme.Soft
      ∧ Token.allShown v (d.derivings.flatMap tokens) = inner + Trivia.seen v (lastToken d).trailing := by
  have htokens : tokens d = d.bodyTokens ++ d.derivings.flatMap tokens := rfl
  have hderivingsRun : Token.IsRun q (d.derivings.flatMap tokens) :=
    hrun.of_infix (List.suffix_append d.bodyTokens _).isInfix
  have hrow {clause : Deriving} (hclause : clause ∈ d.derivings) :
      tokens clause <:+: d.derivings.flatMap tokens := by
    rw [List.flatMap_def]
    exact List.infix_of_mem_flatten (List.mem_map.2 ⟨clause, hclause, rfl⟩)
  have hflatNe : d.derivings.flatMap tokens ≠ [] := by
    obtain ⟨clause, hclause⟩ := List.exists_mem_of_ne_nil _ hne
    exact List.ne_nil_of_mem ((hrow hclause).mem (List.mem_cons_self : clause.keyword ∈ tokens clause))
  have hend : (d.derivings.flatMap tokens).getLast? = some (lastToken d) := by
    rw [lastToken, htokens, List.getLastD_eq_getLast?, List.getLast?_append_of_ne_nil _ hflatNe,
      List.getLast?_eq_some_getLast hflatNe]
    rfl
  have hresult := shows_rows_last (p := p) tokens
    (fun clause out => ((commentLines clause.keyword.leading indent false out).endLine.blanks indent).put
      (clause.flat (d.derivingLayout.getD ⟨false, 0⟩).strategyWidth))
    (fun clause hclause => writes_deriving hv (hderivingsRun.of_infix (hrow hclause))
      (fun t ht => hline t (List.mem_append_right _ ((hrow hclause).mem ht))) (hclauses clause hclause).1
      (hclauses clause hclause).2 indent _)
    (fun clause hclause =>
      (hderivingsRun.sound _ ((hrow hclause).mem (Token.getLastD_mem (List.cons_ne_nil _ _) _))).trailing)
    hne (fun clause _ => List.cons_ne_nil _ _) hderivingsRun.ordered hend h
  unfold derivings
  dsimp only
  rw [if_neg hrows]
  exact hresult

/--
What is seen of a data declaration up to its deriving clauses and behind the keyword. The comments at its end
belong to what follows.
-/
def seenInBody (v : View μ) (d : DataDecl) (inner : Multiset μ) : Prop :=
  Token.allShown v d.bodyTokens = d.keyword.leading.seen v + inner
    + if d.derivings = [] then Trivia.seen v (lastToken d).trailing else 0

theorem lastToken_of_derivings {d : DataDecl} (h : d.derivings = []) (default : Token) :
    lastToken d = d.bodyTokens.getLastD default := by
  have htokens : tokens d = d.bodyTokens := by
    show d.bodyTokens ++ d.derivings.flatMap tokens = _
    rw [h, List.flatMap_nil, List.append_nil]
  rw [lastToken, htokens]
  exact Token.getLastD_eq (List.cons_ne_nil _ _) _ _

theorem flatMap_ne_nil {d : DataDecl} (h : d.derivings ≠ []) : d.derivings.flatMap tokens ≠ [] := by
  obtain ⟨clause, hclause⟩ := List.exists_mem_of_ne_nil _ h
  exact List.ne_nil_of_mem (List.mem_flatMap.2 ⟨clause, hclause, (List.mem_cons_self : clause.keyword ∈ tokens clause)⟩)

/--
A token of the body of a declaration with deriving clauses is not its last one.
-/
theorem offset_ne_lastToken {d : DataDecl} (hrun : Token.IsRun q (tokens d)) (h : d.derivings ≠ []) {t : Token}
    (ht : t ∈ d.bodyTokens) : t.offset ≠ (lastToken d).offset := by
  have hordered : (d.bodyTokens ++ d.derivings.flatMap tokens).Pairwise fun t u => t.offset < u.offset :=
    hrun.ordered
  refine Nat.ne_of_lt ((List.pairwise_append.1 hordered).2.2 t ht _ ?_)
  have hlast : lastToken d = (d.derivings.flatMap tokens).getLastD d.keyword :=
    Token.getLastD_append (flatMap_ne_nil h) _
  rw [hlast]
  exact Token.getLastD_mem (flatMap_ne_nil h) _

theorem allShown_dataHead (hv : v.IgnoresTokens) {d : DataDecl} (hrun : Token.IsRun q (tokens d))
    (hhead : Token.cleanInside (d.keyword :: d.head))
    (htrailing : (d.head.getLastD d.keyword).trailing.hasComments = false) :
    Token.allShown v (d.keyword :: d.head) = d.keyword.leading.seen v := by
  have hsound : ∀ t ∈ d.keyword :: d.head, t.IsSound := fun t ht =>
    hrun.sound t (List.mem_append_left _ (List.mem_append_left _ ht))
  rw [Token.allShown_of_cleanInside hv hsound hhead (List.cons_ne_nil _ _) d.keyword, List.getLastD_cons,
    Trivia.seen_of_not_hasComments (hsound _ (by
      rw [← List.getLastD_cons (a := d.keyword)]
      exact Token.getLastD_mem (List.cons_ne_nil _ _) _)).trailing htrailing, add_zero]
  rfl

/--
Rows up to the deriving clauses are written with all comments in them.
-/
theorem shows_dataRows {d : DataDecl} (hrun : Token.IsRun q (tokens d)) {ρ : Type} {rows : List ρ}
    (toks : ρ → List Token) (write : ρ → Output → Output) {front : List Token}
    (hbody : d.bodyTokens = front ++ rows.flatMap toks) (hne : rows ≠ []) (htoks : ∀ row ∈ rows, toks row ≠ [])
    (hwrite : ∀ row ∈ rows, Writes v q (toks row) (write row)) (h : out.Shows v q ms LineEnd) :
    ∃ inner, (rows.foldl (fun out row =>
          p.trailingInside ((toks row).getLastD (lastToken d)) (lastToken d) (write row out)) out).Shows v q
        (ms + inner) (if d.derivings = [] then Lexeme.Soft else LineEnd)
      ∧ Token.allShown v (rows.flatMap toks)
        = inner + if d.derivings = [] then Trivia.seen v (lastToken d).trailing else 0 := by
  have hmem {row : ρ} (hrow : row ∈ rows) : (toks row).getLastD (lastToken d) ∈ d.bodyTokens := by
    rw [hbody]
    exact List.mem_append_right _ (List.mem_flatMap.2 ⟨row, hrow, Token.getLastD_mem (htoks row hrow) _⟩)
  have hsound : ∀ row ∈ rows, Trivia.IsLine ((toks row).getLastD (lastToken d)).trailing := fun row hrow =>
    (hrun.sound _ (List.mem_append_left _ (hmem hrow))).trailing
  by_cases hnil : d.derivings = []
  · have hflatNe : rows.flatMap toks ≠ [] := by
      obtain ⟨row, hrow⟩ := List.exists_mem_of_ne_nil _ hne
      exact List.ne_nil_of_mem (List.mem_flatMap.2 ⟨row, hrow, Token.getLastD_mem (htoks row hrow) (lastToken d)⟩)
    have hordered : (rows.flatMap toks).Pairwise fun t u => t.offset < u.offset := by
      refine hrun.ordered.sublist ?_
      have hbodySublist : d.bodyTokens.Sublist (tokens d) := List.sublist_append_left _ _
      rw [hbody] at hbodySublist
      exact (List.sublist_append_right _ _).trans hbodySublist
    have hend : (rows.flatMap toks).getLast? = some (lastToken d) := by
      rw [lastToken_of_derivings hnil d.keyword, hbody, Token.getLastD_append hflatNe,
        List.getLastD_eq_getLast?, List.getLast?_eq_some_getLast hflatNe]
      rfl
    rw [if_pos hnil, if_pos hnil]
    exact shows_rows_last toks write hwrite hsound hne htoks hordered hend h
  · rw [if_neg hnil, if_neg hnil]
    refine ⟨_, shows_rows toks write hwrite hsound ?_ h, (add_zero _).symm⟩
    exact fun row hrow => offset_ne_lastToken hrun hnil (hmem hrow)

/--
A record on several lines is written with all comments in it.
-/
theorem shows_dataBody_record (hv : v.IgnoresTokens) {d : DataDecl} (hrun : Token.IsRun q (tokens d))
    (hline : ∀ t ∈ tokens d, t.isMultiline = false) (hd : d.IsLaidOut q .multiLine) {r : Record}
    (hr : d.singleRecord? = some r) (h : out.Shows v q ms Calm) :
    ∃ inner, (p.dataBody d .multiLine out).Shows v q (ms + inner)
        (if d.derivings = [] then Lexeme.Soft else LineEnd) ∧ seenInBody v d inner := by
  obtain ⟨hlayout, hleading, htrailing, hfirst⟩ := hd.record rfl r hr
  obtain ⟨hothers, hrecord⟩ : d.others = [] ∧ d.constructor.record = some r := by
    unfold DataDecl.singleRecord? at hr
    split at hr
    · next hothers => exact ⟨List.isEmpty_iff.1 hothers, hr⟩
    · cases hr
  have hfilter : d.constructor.record.filter (·.layout ≠ some .singleLine) = some r := by
    rw [hrecord, Option.filter_some, if_pos (by simpa using hlayout)]
  have hconstructor : d.constructor.IsLaidOut q := (hd.spread rfl (d.equals, d.constructor) List.mem_cons_self).2
  obtain ⟨hafter, hclean, hbeforeTrailing, hlist⟩ := hconstructor.spread r hfilter
  have hbody : d.bodyTokens = (d.keyword :: d.head ++ d.equals :: d.constructor.before) ++ [r].flatMap tokens := by
    simp [DataDecl.bodyTokens, DataDecl.ledConstructors, hothers, Constructor.tokens_of_record hrecord hafter]
  have hsound {t : Token} (ht : t ∈ d.bodyTokens) : t.IsSound := hrun.sound t (List.mem_append_left _ ht)
  have hflat : Token.IsFlat q d.bodyTokens :=
    ⟨hrun.linked.of_infix (List.prefix_append _ _).isInfix, fun t ht => hline t (List.mem_append_left _ ht)⟩
  have hheadFlat : Token.IsFlat q (d.keyword :: d.head) :=
    hflat.of_infix (List.prefix_append (d.keyword :: d.head) _).isInfix
  have hbeforeFlat : Token.IsFlat q d.constructor.before :=
    hflat.of_infix ⟨d.keyword :: d.head ++ [d.equals], tokens r, by simp [hbody]⟩
  have hrFlat : Token.IsFlat q (tokens r) :=
    hflat.of_infix ⟨d.keyword :: d.head ++ d.equals :: d.constructor.before, [], by simp [hbody]⟩
  have hequals : Joins v q " = " := Joins.symbol hv (c := '=') (u := []) (by decide) (.inl rfl)
  have hput := (shows_put ((Quiet.dataHead hv hheadFlat).join hequals (Quiet.flat hv hbeforeFlat)) h).mono
    fun _ (hy : LineEnd _) => hy.soft
  obtain ⟨inner, hshows, hinner⟩ := shows_dataRows (p := p) hrun tokens
    (fun r => p.record r (d.keyword.column + p.indent)) hbody (List.cons_ne_nil _ _)
    (fun r _ => List.cons_ne_nil _ _)
    (fun row hrow => by
      rw [List.mem_singleton.1 hrow]
      exact writes_record hv hrFlat hlist _) hput
  refine ⟨inner, ?_, ?_⟩
  · convert hshows using 1
    unfold dataBody
    rw [hr]
    dsimp only
    rw [List.foldl_cons, List.foldl_nil, r.getLastD_tokens]
  · have hequalsSound := hsound (t := d.equals) (by simp [hbody])
    have hbeforeSound : ∀ t ∈ d.constructor.before, t.IsSound := fun t ht => hsound (by simp [hbody, ht])
    have hfirstSeen : d.constructor.first.leading.seen v = 0 :=
      (hbeforeSound d.constructor.first List.mem_cons_self).leading.seen_eq_zero hfirst
    rw [seenInBody, hbody, Token.allShown_append, Token.allShown_append,
      allShown_dataHead hv hrun hd.head hd.headTrailing, Token.allShown_cons, Token.shown_eq hv,
      hequalsSound.leading.seen_eq_zero hleading,
      Trivia.seen_of_not_hasComments hequalsSound.trailing htrailing,
      Constructor.allShown_before hv hbeforeSound hclean hbeforeTrailing, hfirstSeen, hinner]
    simp only [add_zero, add_assoc]

/--
Constructors on several lines are written with all comments in them.
-/
theorem shows_dataBody_sum (hv : v.IgnoresTokens) {d : DataDecl} (hrun : Token.IsRun q (tokens d))
    (hline : ∀ t ∈ tokens d, t.isMultiline = false) (hd : d.IsLaidOut q .multiLine)
    (hr : d.singleRecord? = none) (h : out.Shows v q ms Calm) :
    ∃ inner, (p.dataBody d .multiLine out).Shows v q (ms + inner)
        (if d.derivings = [] then Lexeme.Soft else LineEnd) ∧ seenInBody v d inner := by
  have hbody : d.bodyTokens
      = (d.keyword :: d.head) ++ d.ledConstructors.flatMap fun entry => entry.1 :: tokens entry.2 := rfl
  have hbodyInfix : d.bodyTokens <:+: tokens d := (List.prefix_append _ _).isInfix
  have hrow {entry : Token × Constructor} (hentry : entry ∈ d.ledConstructors) :
      entry.1 :: tokens entry.2 <:+: tokens d := by
    have hgroup : entry.1 :: tokens entry.2
        <:+: d.ledConstructors.flatMap fun entry => entry.1 :: tokens entry.2 := by
      rw [List.flatMap_def]
      exact List.infix_of_mem_flatten (List.mem_map.2 ⟨entry, hentry, rfl⟩)
    exact (hgroup.trans (List.suffix_append _ _).isInfix).trans hbodyInfix
  have hheadFlat : Token.IsFlat q (d.keyword :: d.head) :=
    ⟨hrun.linked.of_infix ((List.prefix_append (d.keyword :: d.head) _).isInfix.trans hbodyInfix),
      fun t ht => hline t (List.mem_append_left _ (List.mem_append_left _ ht))⟩
  have hput := (shows_put (Quiet.dataHead hv hheadFlat) h).mono fun _ (hy : LineEnd _) => hy.soft
  obtain ⟨inner, hshows, hinner⟩ := shows_dataRows (p := p) hrun (fun entry => entry.1 :: tokens entry.2)
    (p.constructorRow (d.keyword.column + p.indent)) hbody (List.cons_ne_nil _ _)
    (fun entry _ => List.cons_ne_nil _ _)
    (fun entry hentry => writes_constructor hv (hrun.of_infix (hrow hentry))
      (fun t ht => hline t ((hrow hentry).mem ht)) (hd.spread rfl entry hentry).1 (hd.spread rfl entry hentry).2 _)
    hput
  refine ⟨inner, ?_, ?_⟩
  · convert hshows using 1
    unfold dataBody
    rw [hr]
    rfl
  · rw [seenInBody, hbody, Token.allShown_append, allShown_dataHead hv hrun hd.head hd.headTrailing, hinner,
      add_assoc]

theorem derivings_nil {d : DataDecl} (h : d.derivings = []) (layout : ListLayout) (indent : Int) :
    p.derivings d layout indent out = out := by
  unfold derivings
  rw [h]
  dsimp only
  split <;> rfl

theorem shows_derivings_inline (hv : v.IgnoresTokens) {clauses : List Deriving}
    (hflat : ∀ clause ∈ clauses, Token.IsFlat q (tokens clause)) (h : out.Shows v q ms Lexeme.Soft) :
    (clauses.foldl (fun out clause => out.put (" " ++ clause.flat 0)) out).Shows v q ms Lexeme.Soft := by
  induction clauses generalizing out with
  | nil => exact h
  | cons clause clauses ih =>
    exact ih (fun other hother => hflat other (List.mem_cons_of_mem clause hother))
      (shows_put_blank (Quiet.derivingClause hv (hflat clause List.mem_cons_self) 0) h)

/--
The body of a data declaration is written with all comments in it.
-/
theorem shows_dataBody (hv : v.IgnoresTokens) {d : DataDecl} (hrun : Token.IsRun q (tokens d))
    (hline : ∀ t ∈ tokens d, t.isMultiline = false) {layout : ListLayout} (hd : d.IsLaidOut q layout)
    (h : out.Shows v q ms Calm) :
    ∃ inner, (p.dataBody d layout out).Shows v q (ms + inner)
        (if d.derivings = [] ∨ layout = .singleLine then Lexeme.Soft else LineEnd) ∧ seenInBody v d inner := by
  cases layout with
  | singleLine =>
    have hbodyInfix : d.bodyTokens <:+: tokens d := (List.prefix_append _ _).isInfix
    have hbodySound : ∀ t ∈ d.bodyTokens, t.IsSound := fun t ht => hrun.sound t (hbodyInfix.mem ht)
    have hbodyNe : d.bodyTokens ≠ [] := List.cons_ne_nil _ _
    have hflat : Token.IsFlat q d.bodyTokens :=
      ⟨hrun.linked.of_infix hbodyInfix, fun t ht => hline t (hbodyInfix.mem ht)⟩
    obtain ⟨hclean, -, hlast⟩ := Token.cleanInside_append (hd.single rfl)
    refine ⟨0, ?_, ?_⟩
    · rw [if_pos (.inr rfl), add_zero]
      exact shows_put (Quiet.dataDecl hv hflat) h
    · rw [seenInBody, Token.allShown_of_cleanInside hv hbodySound hclean hbodyNe d.keyword, add_zero]
      congr 1
      split
      · next hnil => rw [lastToken_of_derivings hnil d.keyword]
      · next hne =>
        exact Trivia.seen_of_not_hasComments (hbodySound _ (Token.getLastD_mem hbodyNe _)).trailing
          (hlast hbodyNe (flatMap_ne_nil hne) _)
  | multiLine =>
    have hbody : ∃ inner, (p.dataBody d .multiLine out).Shows v q (ms + inner)
        (if d.derivings = [] then Lexeme.Soft else LineEnd) ∧ seenInBody v d inner := by
      cases hr : d.singleRecord? with
      | some r => exact shows_dataBody_record hv hrun hline hd hr h
      | none => exact shows_dataBody_sum hv hrun hline hd hr h
    simpa using hbody

/--
A data declaration is written with all comments in it.
-/
theorem covers_dataDecl (hv : v.IgnoresTokens) {d : DataDecl} (hrun : Token.IsRun q (tokens d))
    (hline : ∀ t ∈ tokens d, t.isMultiline = false) {layout : ListLayout} (hd : d.IsLaidOut q layout) :
    Covers v q (tokens d) (p.dataDecl d layout) := by
  intro out ms h
  obtain ⟨inner, hbody, hinner⟩ := shows_dataBody (p := p) hv hrun hline hd h
  have hne : tokens d ≠ [] := List.cons_ne_nil _ _
  have hdecl : p.dataDecl d layout out
      = p.derivings d layout (d.keyword.column + p.indent) (p.dataBody d layout out) := rfl
  have htokens : Token.allShown v (tokens d)
      = Token.allShown v d.bodyTokens + Token.allShown v (d.derivings.flatMap tokens) :=
    Token.allShown_append _ _
  have hlast (default : Token) : (tokens d).getLastD default = lastToken d := Token.getLastD_eq hne _ _
  rw [hdecl]
  unfold seenInBody at hinner
  by_cases hnil : d.derivings = []
  · refine ⟨inner, ?_, fun default => ?_⟩
    · rw [derivings_nil hnil]
      rwa [if_pos (.inl hnil)] at hbody
    · rw [htokens, hinner, if_pos hnil, hlast, hnil]
      exact add_zero _
  · rw [if_neg hnil, add_zero] at hinner
    by_cases hrows : !(d.derivingLayout.getD ⟨false, 0⟩).ownLines && layout ≠ .multiLine
    · -- All clauses go on the line of a declaration that has no comments in it.
      have hsingle : layout = .singleLine := by
        cases layout with
        | singleLine => rfl
        | multiLine => simp at hrows
      have hclause {clause : Deriving} (hclause : clause ∈ d.derivings) : tokens clause <:+: tokens d := by
        refine List.IsInfix.trans ?_ (List.suffix_append d.bodyTokens _).isInfix
        rw [List.flatMap_def]
        exact List.infix_of_mem_flatten (List.mem_map.2 ⟨clause, hclause, rfl⟩)
      refine ⟨inner, ?_, fun default => ?_⟩
      · unfold derivings
        dsimp only
        rw [if_pos hrows]
        rw [if_pos (.inr hsingle)] at hbody
        refine shows_derivings_inline hv (fun clause hmem => ?_) hbody
        exact ⟨hrun.linked.of_infix (hclause hmem), fun t ht => hline t ((hclause hmem).mem ht)⟩
      · have hclean := Token.allShown_of_cleanInside hv hrun.sound (hd.single hsingle) hne default
        obtain ⟨hbodyClean, -, hbodyLast⟩ := Token.cleanInside_append (hd.single hsingle)
        have hbodyNe : d.bodyTokens ≠ [] := List.cons_ne_nil _ _
        have hbodySound : ∀ t ∈ d.bodyTokens, t.IsSound := fun t ht => hrun.sound t (List.mem_append_left _ ht)
        rw [Token.allShown_of_cleanInside hv hbodySound hbodyClean hbodyNe d.keyword,
          Trivia.seen_of_not_hasComments (hbodySound _ (Token.getLastD_mem hbodyNe _)).trailing
            (hbodyLast hbodyNe (flatMap_ne_nil hnil) _)] at hinner
        have hhead : d.bodyTokens.headD d.keyword = d.keyword := rfl
        have hzero : inner = 0 := by
          rw [hhead] at hinner
          simpa using hinner
        rw [hclean, hzero, add_zero]
    · have hbody' : (p.dataBody d layout out).Shows v q (ms + inner) LineEnd := by
        refine hbody.mono fun y hy => ?_
        split
        · exact hy.soft
        · exact hy
      obtain ⟨rest, hshows, hrest⟩ :=
        shows_derivings (p := p) hv hrun hline hd.derivings hnil hrows (d.keyword.column + p.indent) hbody'
      refine ⟨inner + rest, ?_, fun default => ?_⟩
      · rw [← add_assoc]
        exact hshows
      · rw [htokens, hinner, hrest, hlast]
        simp only [add_assoc]
        rfl

end Printer

end HaskellStyle
