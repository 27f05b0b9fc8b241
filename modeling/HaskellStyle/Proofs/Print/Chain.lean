import HaskellStyle.Proofs.Module.Verbatim
import HaskellStyle.Proofs.Print.Parts
import HaskellStyle.Proofs.Print.Rewritten

/-!
This module contains how tokens are cut into parts, and the lines on which an operator chain is written. The parts are
the tokens again, and every part but the first begins at a cut. The lines of a chain stay as they are when line ends
are normalized, and what stands before them keeps its width.
-/

namespace HaskellStyle

namespace Rhs

/--
The number of brackets that tokens open, less those that they close.
-/
def depth (ts : List Token) : Int :=
  (ts.map Token.bracketStep).sum

@[simp]
theorem depth_nil : depth [] = 0 := rfl

@[simp]
theorem depth_cons (t : Token) (ts : List Token) : depth (t :: ts) = t.bracketStep + depth ts := by
  simp [depth]

/--
Every part but the first begins with a token before which the tokens are cut.
-/
theorem exists_of_cutBefore {cuts : Int → Token → Token → Bool} {d : Int} {previous : Token}
    {ts first chunk : List Token} {before after : List (List Token)}
    (h : cutBefore cuts d previous ts = (first, before ++ chunk :: after)) :
    ∃ op rest, chunk = op :: rest
      ∧ cuts (d + depth (first ++ before.flatten)) ((first ++ before.flatten).getLastD previous) op := by
  induction ts generalizing d previous first before with
  | nil => simp [cutBefore] at h
  | cons t ts ih =>
    have hstep (us : List Token) : d + depth (t :: us) = d + t.bracketStep + depth us := by
      rw [depth_cons]
      omega
    rw [cutBefore] at h
    generalize hrest : cutBefore cuts (d + t.bracketStep) t ts = rest at h
    obtain ⟨group, groups⟩ := rest
    dsimp only at h
    split at h
    · next hcut =>
      obtain ⟨rfl, hgroups⟩ := Prod.mk.inj h
      cases before with
      | nil =>
        obtain ⟨rfl, -⟩ := List.cons.inj hgroups
        exact ⟨t, group, rfl, by simpa using hcut⟩
      | cons part before =>
        obtain ⟨rfl, rfl⟩ := List.cons.inj hgroups
        rw [List.nil_append, List.flatten_cons, List.cons_append, hstep, List.getLastD_cons]
        exact ih hrest
    · obtain ⟨rfl, rfl⟩ := Prod.mk.inj h
      rw [List.cons_append, hstep, List.getLastD_cons]
      exact ih hrest

/--
Every part of a chain but the first begins with one of the operators, outside of brackets and behind a gap.
-/
theorem exists_of_chunks {operators : List String} {body chunk : List Token} {before after : List (List Token)}
    (h : chunks operators body = before ++ chunk :: after) (hbefore : before ≠ []) :
    ∃ op rest, chunk = op :: rest ∧ op.isOperator ∧ op.text ∈ operators ∧ depth before.flatten = 0
      ∧ ∃ previous ∈ before.flatten.getLast?, Token.hasGap previous op := by
  obtain ⟨first, before, rfl⟩ := List.exists_cons_of_ne_nil hbefore
  cases body with
  | nil =>
    rw [chunks, List.cons_append] at h
    have hnil := (List.cons.inj h).2
    simp at hnil
  | cons t ts =>
    rw [chunks] at h
    dsimp only at h
    obtain ⟨rfl, hgroups⟩ := List.cons.inj h
    obtain ⟨op, rest, rfl, hcuts⟩ := exists_of_cutBefore (Prod.ext rfl hgroups)
    simp only [Bool.and_eq_true, decide_eq_true_eq, List.contains_iff_mem] at hcuts
    obtain ⟨⟨⟨hdepth, hmem⟩, hop⟩, hgap⟩ := hcuts
    refine ⟨op, rest, rfl, hop, hmem, ?_, _, ?_, hgap⟩
    · rwa [List.flatten_cons, List.cons_append, depth_cons]
    · rw [List.flatten_cons, List.cons_append, List.getLast?_cons, List.getLastD_eq_getLast?]
      rfl

end Rhs

theorem Signature.flatten_parts (s : Signature) : (s.parts.flatMap fun part => part.1 :: part.2) = s.colons :: s.type :=
  List.append_cancel_left (tokens_eq s).symm

namespace Token

theorem flatRest_append (previous : Token) (ts us : List Token) :
    flatRest previous (ts ++ us) = flatRest previous ts ++ flatRest (ts.getLastD previous) us := by
  induction ts generalizing previous with
  | nil => simp [flatRest]
  | cons t ts ih =>
    rw [List.cons_append, flatRest, ih, flatRest, List.getLastD_cons]
    simp only [String.append_assoc]

theorem exists_flat_concat (front : List Token) (t : Token) :
    ∃ before, (flat (front ++ [t])).toList = before ++ t.text.toList := by
  cases front with
  | nil => exact ⟨[], by simp [flat, flatRest]⟩
  | cons u front =>
    rw [List.cons_append, flat, flatRest_append, flatRest, flatRest, String.append_empty]
    simp only [String.toList_append, ← List.append_assoc]
    exact ⟨_, rfl⟩

/--
A gap between two runs becomes one blank.
-/
theorem flat_append {ts us : List Token} {previous next : Token} (hprevious : previous ∈ ts.getLast?)
    (hnext : next ∈ us.head?) (hgap : hasGap previous next) : flat (ts ++ us) = flat ts ++ " " ++ flat us := by
  cases ts with
  | nil => cases hprevious
  | cons t ts =>
    cases us with
    | nil => cases hnext
    | cons u us =>
      cases hnext
      rw [List.getLast?_cons, Option.mem_some_iff, ← List.getLastD_eq_getLast?] at hprevious
      rw [List.cons_append, flat, flatRest_append, hprevious, flatRest, hgap, Bool.true_or, if_pos rfl, flat, flat]
      simp only [String.append_assoc]

end Token

theorem LineEnd.newline_mem {before behind : List Char} {c : Char} (h : LineEnd (before ++ c :: behind))
    (hc : LineEdit.isEndBlank c = false) : '\n' ∈ before := by
  rcases h with hnil | ⟨r, hr⟩ | ⟨r, hr⟩
  · simp at hnil
  · obtain ⟨-, hr⟩ | ⟨before, rfl, -⟩ := List.append_eq_cons_iff.1 hr
    · cases hr
      cases hc
    · exact List.mem_cons_self
  · obtain ⟨-, hr⟩ | ⟨before, rfl, hnext⟩ := List.append_eq_cons_iff.1 hr
    · cases hr
      cases hc
    · obtain ⟨-, hnext⟩ | ⟨before, rfl, -⟩ := List.append_eq_cons_iff.1 hnext.symm
      · cases hnext
        cases hc
      · exact List.mem_cons_of_mem _ List.mem_cons_self

/--
An equation with a layout, and the parts into which its body is cut.
-/
structure OperatorChain where
  clause : Clause Block
  layout : RhsLayout
  equals : Token
  first : List Token
  second : List Token
  others : List (List Token)

namespace OperatorChain

/--
The layout is that of an aligned chain: two parts of the body go on the line of the left-hand side, and each other part
has a line of its own.
-/
structure IsAligned (settings : Settings) (chain : OperatorChain) : Prop where
  style : chain.layout.style = .operators
  aligned : settings.alignment.operatorChains = .aligned
  spread : chain.others ≠ []
  parts : ∃ body, chain.clause.equation.rhs = .plain chain.equals body
    ∧ Rhs.chunks (Rhs.cutOperators (Segment.topTokens body)) (Segment.topTokens body)
      = chain.first :: chain.second :: chain.others

/--
The tokens of the equation.
-/
def tokens (chain : OperatorChain) : List Token :=
  Segment.topTokens chain.clause.equation.lhs
    ++ chain.equals :: (chain.first ++ chain.second ++ chain.others.flatten)

/--
The first line up to the operator at which the body was cut first.
-/
def head (chain : OperatorChain) : List Char :=
  (Token.flat (Segment.topTokens chain.clause.equation.lhs ++ [chain.equals]) ++ " " ++ Token.flat chain.first
    ++ " ").toList

/--
The lines behind the first, in the column `width`.
-/
def laterLines (chain : OperatorChain) (width : Nat) : List (List Char) :=
  chain.others.map fun part => List.replicate width ' ' ++ (Token.flat part).toList

/--
All lines, those behind the first in the column `width`.
-/
def text (chain : OperatorChain) (newline : List Char) (width : Nat) : List Char :=
  chain.head ++ (Token.flat chain.second).toList ++ (chain.laterLines width).flatMap (newline ++ ·)

end OperatorChain

namespace Trims

variable {x : Shielded} {cs newline t' t : List Char}

/--
A line that ends in a character that can be seen.
-/
def Solid (line : List Char) : Prop :=
  '\n' ∉ line ∧ ∃ c ∈ line.getLast?, LineEdit.isEndBlank c = false

theorem Solid.append {front line : List Char} (h : Solid line) (hfront : '\n' ∉ front) : Solid (front ++ line) := by
  obtain ⟨hline, c, hc, hshown⟩ := h
  refine ⟨fun hmem => (List.mem_append.1 hmem).elim hfront hline, c, ?_, hshown⟩
  rw [List.getLast?_append, Option.mem_def.1 hc]
  rfl

theorem not_finalEnd_of_mem {c : Char} (hmem : c ∈ t) (hc : LineEdit.isEndBlank c = false) : ¬FinalEnd t := by
  intro hend
  rw [hend.isEndBlank hmem] at hc
  cases hc

/--
Lines that end in characters that can be seen are kept, and so are the line ends between them.
-/
theorem eq_append_lines (hnewline : newline = ['\n'] ∨ newline = ['\r', '\n']) {line : List Char}
    {lines : List (List Char)} (hline : Solid line) (hlines : ∀ l ∈ lines, Solid l)
    (h : Trims (.ofText false (line ++ lines.flatMap (newline ++ ·))) t' t) :
    t = line ++ lines.flatMap (newline ++ ·) ++ t' := by
  have hlast {line : List Char} (hline : Solid line) : ∀ c ∈ line.getLast?, LineEdit.isEndBlank c = false := by
    obtain ⟨-, d, hd, hblank⟩ := hline
    intro c hc
    rwa [Option.mem_unique hc hd]
  induction lines generalizing line t with
  | nil =>
    rw [List.flatMap_nil, List.append_nil] at h ⊢
    exact eq_append h (.inr hline.1) (hlast hline)
  | cons next lines ih =>
    rw [List.flatMap_cons, List.append_assoc, Shielded.ofText_append, append_iff, Shielded.ofText_append] at h
    obtain ⟨behind, hbehind, hfirst⟩ := h
    obtain ⟨rest, hrest, hend⟩ := append_iff.1 hbehind
    obtain ⟨hnext, hlines⟩ := List.forall_mem_cons.1 hlines
    have heq := ih hnext hlines hrest
    -- The line end does not end the text, since the next line has something to be seen.
    obtain ⟨-, c, hc, hshown⟩ := hnext
    have hnot : ¬FinalEnd rest := by
      refine not_finalEnd_of_mem ?_ hshown
      rw [heq]
      simp [List.mem_of_mem_getLast? hc]
    have hkept := (hend.newline hnewline).resolve_right fun hdropped => hnot hdropped.2
    rw [eq_append hfirst (.inr hline.1) (hlast hline), hkept, heq, List.flatMap_cons]
    simp

/--
Before a character that can be seen, what is trimmed keeps its width.
-/
theorem exists_visualWidth (h : Trims x t' t) {c : Char} (hc : c ∈ t'.head?) (hshown : LineEdit.isEndBlank c = false) :
    ∃ before, t = before ++ t' ∧ ∀ start, Text.visualWidth before start = Text.visualWidth (x.map Prod.fst) start := by
  induction h with
  | nil t => exact ⟨[], rfl, fun _ => rfl⟩
  | @keep x t' t d shield h hd ih =>
    obtain ⟨before, rfl, hwidth⟩ := ih hc
    exact ⟨d :: before, rfl, fun start => hwidth _⟩
  | @drop x t' t d shield h hd hend ih =>
    obtain ⟨before, rfl, hwidth⟩ := ih hc
    obtain ⟨behind, rfl⟩ : ∃ behind, t' = c :: behind := ⟨t'.tail, List.eq_cons_of_mem_head? hc⟩
    have hline : LineEnd (before ++ c :: behind) :=
      (hend.resolve_left (not_finalEnd_of_mem (by simp) hshown)).2.2
    -- What is dropped stands before a line end, behind which the width does not depend on it.
    have hnewline := hline.newline_mem hshown
    refine ⟨before, rfl, fun start => ?_⟩
    rw [List.map_cons, Text.visualWidth_cons, ← hwidth]
    exact Text.visualWidth_of_newline hnewline _ _

end Trims

namespace Token

variable {ts : List Token} (hsound : ∀ t ∈ ts, t.lexeme.Sound) (hline : ∀ t ∈ ts, t.isMultiline = false)
include hsound

/--
Tokens on one line begin with a character that can be seen.
-/
theorem exists_head?_flat (hne : ts ≠ []) : ∃ c ∈ (flat ts).toList.head?, LineEdit.isEndBlank c = false := by
  obtain ⟨t, ts, rfl⟩ := List.exists_cons_of_ne_nil hne
  have ht := hsound t List.mem_cons_self
  obtain ⟨c, cs, htext⟩ := List.exists_cons_of_ne_nil fun hnil => ht.nonempty (String.toList_eq_nil_iff.1 hnil)
  have hshown := ht.first t.kind rfl c (by rw [htext]; rfl)
  refine ⟨c, ?_, Bool.eq_false_iff.2 fun hblank => ?_⟩
  · rw [flat, String.toList_append, show t.text.toList = _ from htext]
    rfl
  · rw [isBlank_of_isEndBlank hblank] at hshown
    cases hshown

include hline

theorem solid_flat (hne : ts ≠ []) : Trims.Solid (flat ts).toList := by
  have hC : Alphabet (· ≠ '\n') := ⟨by decide, fun hblank heq => by rw [heq] at hblank; cases hblank⟩
  have hover := over_flat hC fun t ht c hc heq => by
    have hnone := hline t ht
    rw [isMultiline, List.contains_iff_mem.2 (heq ▸ hc)] at hnone
    cases hnone
  obtain ⟨front, t, rfl⟩ := (List.eq_nil_or_concat' ts).resolve_left hne
  obtain ⟨before, hflat⟩ := exists_flat_concat front t
  have ht := hsound t (by simp)
  obtain ⟨cs, c, htext⟩ := (List.eq_nil_or_concat' t.text.toList).resolve_left
    fun hnil => ht.nonempty (String.toList_eq_nil_iff.1 hnil)
  have hshown := ht.last t.kind rfl c (by rw [show t.lexeme.text.toList = _ from htext]; simp)
  refine ⟨fun hmem => hover _ hmem rfl, c, ?_, Bool.eq_false_iff.2 fun hblank => ?_⟩
  · rw [hflat, htext, ← List.append_assoc]
    simp
  · rw [isBlank_of_isEndBlank hblank] at hshown
    cases hshown

end Token

namespace OperatorChain

variable {settings : Settings} {chain : OperatorChain}

section Sound

variable (hsound : ∀ t ∈ chain.tokens, t.lexeme.Sound)
include hsound

/--
The first line begins with a character that can be seen.
-/
theorem exists_head?_head : ∃ c ∈ chain.head.head?, LineEdit.isEndBlank c = false := by
  have hlhs : ∀ t ∈ Segment.topTokens chain.clause.equation.lhs ++ [chain.equals], t.lexeme.Sound :=
    fun t ht => hsound t (by simp only [tokens, List.mem_append, List.mem_cons] at ht ⊢; tauto)
  obtain ⟨c, hc, hshown⟩ := Token.exists_head?_flat hlhs (by simp)
  refine ⟨c, ?_, hshown⟩
  rw [head]
  simp only [String.toList_append, List.append_assoc, List.head?_append, Option.mem_def.1 hc]
  rfl

end Sound

section Lines

variable (h : chain.IsAligned settings)
include h

/--
Every part but the first begins with an operator.
-/
theorem part_ne_nil : ∀ part ∈ chain.second :: chain.others, part ≠ [] := by
  obtain ⟨body, -, hparts⟩ := h.parts
  intro part hpart
  obtain ⟨before, after, hsplit⟩ := List.append_of_mem hpart
  rw [hsplit, ← List.cons_append] at hparts
  obtain ⟨op, rest, rfl, -⟩ := Rhs.exists_of_chunks hparts (List.cons_ne_nil _ _)
  exact List.cons_ne_nil _ _

/--
The first operator stands behind a blank.
-/
theorem head_append : chain.head ++ (Token.flat chain.second).toList
    = (Token.flat (Segment.topTokens chain.clause.equation.lhs ++ [chain.equals]) ++ " "
      ++ Token.flat (chain.first ++ chain.second)).toList := by
  obtain ⟨body, -, hparts⟩ := h.parts
  have hsplit : Rhs.chunks _ _ = [chain.first] ++ chain.second :: chain.others := hparts
  obtain ⟨op, rest, hsecond, -, -, -, previous, hprevious, hgap⟩ := Rhs.exists_of_chunks hsplit (List.cons_ne_nil _ _)
  rw [List.flatten_singleton] at hprevious
  rw [head, Token.flat_append hprevious (by rw [hsecond]; rfl) hgap]
  simp only [String.toList_append, List.append_assoc]

variable (hsound : ∀ t ∈ chain.tokens, t.lexeme.Sound) (hline : ∀ t ∈ chain.tokens, t.isMultiline = false)
include hsound hline

theorem solid_line : Trims.Solid (chain.head ++ (Token.flat chain.second).toList) := by
  have hlhs : ∀ t ∈ Segment.topTokens chain.clause.equation.lhs ++ [chain.equals], t ∈ chain.tokens := by
    intro t ht
    simp only [tokens, List.mem_append, List.mem_cons] at ht ⊢
    tauto
  have hbody : ∀ t ∈ chain.first ++ chain.second, t ∈ chain.tokens := fun t ht =>
    List.mem_append_right _ (List.mem_cons_of_mem _ (List.mem_append_left _ ht))
  have hhead := Token.solid_flat (fun t ht => hsound t (hlhs t ht)) (fun t ht => hline t (hlhs t ht)) (by simp)
  have hparts := Token.solid_flat (fun t ht => hsound t (hbody t ht)) (fun t ht => hline t (hbody t ht))
    (List.append_ne_nil_of_right_ne_nil _ (part_ne_nil h chain.second List.mem_cons_self))
  rw [head_append h, String.toList_append, String.toList_append]
  refine hparts.append fun hmem => ?_
  rcases List.mem_append.1 hmem with hmem | hmem
  · exact hhead.1 hmem
  · exact absurd hmem (by decide)

theorem solid_laterLines (width : Nat) : ∀ line ∈ chain.laterLines width, Trims.Solid line := by
  rw [laterLines, List.forall_mem_map]
  intro part hpart
  have hmem : ∀ t ∈ part, t ∈ chain.tokens := fun t ht => List.mem_append_right _ (List.mem_cons_of_mem _
    (List.mem_append_right _ (List.mem_flatten.2 ⟨part, hpart, ht⟩)))
  refine (Token.solid_flat (fun t ht => hsound t (hmem t ht)) (fun t ht => hline t (hmem t ht))
    (part_ne_nil h part (List.mem_cons_of_mem _ hpart))).append fun hnewline => ?_
  exact absurd (List.eq_of_mem_replicate hnewline) (by decide)

end Lines

end OperatorChain

namespace Output

theorem kept_column : Kept (fun _ => True) fun out => out.column = Text.visualWidth out.text.toList 0 where
  alphabet := ⟨trivial, fun _ => trivial⟩
  newline _ _ _ := trivial
  write shield _ h := by
    rw [write, String.toList_append, Text.visualWidth_append, ← h]
  report _ _ h := h

theorem kept_newline (newline : String) : Kept (fun _ => True) fun out => out.newline = newline where
  alphabet := ⟨trivial, fun _ => trivial⟩
  newline _ _ _ := trivial
  write _ _ h := h
  report _ _ h := h

/--
What has been written stays, with its marks, when more is written.
-/
theorem kept_marked (out : Output) :
    Kept (fun _ => True) fun out' => out'.Sound ∧ ∃ x, out'.marked = out.marked ++ x where
  alphabet := ⟨trivial, fun _ => trivial⟩
  newline _ _ _ := trivial
  write shield _ h := by
    obtain ⟨hsound, x, hx⟩ := h
    rw [marked_write hsound, hx, List.append_assoc]
    exact ⟨hsound.write _ shield, _, rfl⟩
  report _ _ h := ⟨⟨h.1.size, h.1.newline, h.1.disjoint, h.1.bounded⟩, h.2⟩

variable {out out' : Output}

theorem column_endLine (h : out.Sound) : out.endLine.column = 0 := by
  rcases h.newline with heq | heq
  all_goals
    rw [endLine, put, write, heq]
    rfl

theorem marked_put (h : out.Sound) (text : String) :
    (out.put text).marked = out.marked ++ .ofText false text.toList := by
  rw [put, marked_write h, Bool.false_and]

/--
Lines that end in characters that can be seen stay as they are when line ends are normalized, and what was written
before them keeps its width.
-/
theorem exists_normalize_lines (h : out'.Sound) {newline : List Char}
    (hnewline : newline = ['\n'] ∨ newline = ['\r', '\n']) {line : List Char} {lines : List (List Char)}
    (hline : Trims.Solid line) (hlines : ∀ l ∈ lines, Trims.Solid l) {c : Char} (hc : c ∈ line.head?)
    (hshown : LineEdit.isEndBlank c = false) {x : Shielded}
    (hmarked : out'.marked = out.marked ++ (.ofText false (line ++ lines.flatMap (newline ++ ·)) ++ x)) :
    ∃ before behind, LineEdit.normalize newline out'.text.toList out'.shielded.reverse
        = before ++ (line ++ lines.flatMap (newline ++ ·)) ++ behind
      ∧ Text.visualWidth before 0 = Text.visualWidth out.text.toList 0 := by
  obtain ⟨t', -, -, htrims⟩ := h.trims hnewline
  rw [hmarked] at htrims
  obtain ⟨t, hlater, hbefore⟩ := Trims.append_iff.1 htrims
  obtain ⟨behind, -, hkept⟩ := Trims.append_iff.1 hlater
  rw [Trims.eq_append_lines hnewline hline hlines hkept] at hbefore
  have hfirst : c ∈ (line ++ lines.flatMap (newline ++ ·) ++ behind).head? := by
    rw [List.append_assoc, List.head?_append, Option.mem_def.1 hc]
    rfl
  obtain ⟨before, heq, hwidth⟩ := hbefore.exists_visualWidth hfirst hshown
  refine ⟨before, behind, heq.trans (List.append_assoc _ _ _).symm, ?_⟩
  rw [hwidth, marked, LineEdit.map_fst_mapIdx]

end Output

namespace Printer

variable {p : Printer} {out : Output}

/--
Parts that are written on lines of their own, each behind the same blanks.
-/
theorem marked_lines (h : out.Sound) (column : Int) (parts : List (List Token)) :
    let out' := parts.foldl (fun out part => (out.endLine.blanks column).put (Token.flat part)) out
    out'.Sound ∧ out'.marked = out.marked ++ .ofText false ((parts.map fun part =>
      List.replicate column.toNat ' ' ++ (Token.flat part).toList).flatMap (out.newline.toList ++ ·)) := by
  induction parts generalizing out with
  | nil => exact ⟨h, (List.append_nil _).symm⟩
  | cons part parts ih =>
    have hend : out.endLine.Sound := h.write _ _
    have hblanks : (out.endLine.blanks column).Sound := hend.write _ _
    obtain ⟨hsound, hmarked⟩ := ih (hblanks.write (Token.flat part) false)
    refine ⟨hsound, hmarked.trans ?_⟩
    rw [← Output.put, Output.marked_put hblanks, Output.blanks, Output.marked_put hend, Output.endLine,
      Output.marked_put h, String.toList_ofList, List.map_cons, List.flatMap_cons, Shielded.ofText_append,
      Shielded.ofText_append, Shielded.ofText_append]
    simp only [List.append_assoc]
    rfl

section Chain

variable {chain : OperatorChain} (hchain : chain.IsAligned p.settings) {body : List (Segment Block)}
  (hrhs : chain.clause.equation.rhs = .plain chain.equals body)
include hchain hrhs

/--
The first line of an aligned chain holds two parts, and each other part has a line of its own.
-/
theorem brokenClause_eq :
    p.brokenClause (Segment.topTokens chain.clause.equation.lhs) chain.equals (Segment.topTokens body) chain.layout out
      = chain.others.foldl (fun out part => (out.endLine.blanks chain.layout.column).put (Token.flat part))
        (out.put (Token.flat (Segment.topTokens chain.clause.equation.lhs ++ [chain.equals]) ++ " "
          ++ Token.flat (chain.first ++ chain.second))) := by
  obtain ⟨_, hbody, hparts⟩ := hchain.parts
  rw [hrhs] at hbody
  cases hbody
  obtain ⟨third, more, hothers⟩ := List.exists_cons_of_ne_nil hchain.spread
  unfold brokenClause Rhs.operatorLines
  rw [hchain.style, hparts, hothers]
  dsimp only
  rw [if_pos hchain.aligned]
  rfl

/--
An aligned chain is written on its lines.
-/
theorem marked_brokenClause (h : out.Sound) :
    let out' := p.brokenClause (Segment.topTokens chain.clause.equation.lhs) chain.equals (Segment.topTokens body)
      chain.layout out
    out'.Sound ∧ out'.marked
      = out.marked ++ .ofText false (chain.text out.newline.toList chain.layout.column.toNat) := by
  obtain ⟨hsound, hmarked⟩ := marked_lines (h.write (Token.flat (Segment.topTokens chain.clause.equation.lhs
    ++ [chain.equals]) ++ " " ++ Token.flat (chain.first ++ chain.second)) false) chain.layout.column chain.others
  rw [brokenClause_eq hchain hrhs, OperatorChain.text, OperatorChain.head_append hchain, Shielded.ofText_append,
    ← List.append_assoc]
  refine ⟨hsound, hmarked.trans ?_⟩
  rw [← Output.put, Output.marked_put h]
  rfl

end Chain

theorem column_pieces (pieces : List TriviaPiece) (out : Output) :
    (pieces.foldl piece out).column = Text.visualWidth (Trivia.text pieces).toList out.column := by
  induction pieces generalizing out with
  | nil => rfl
  | cons first more ih =>
    rw [List.foldl_cons, ih, Trivia.toList_text_cons, Text.visualWidth_append]
    rfl

theorem column_triviaLine (line : List TriviaPiece) (out : Output) :
    (triviaLine line 0 true out).column = Text.visualWidth (Trivia.text line).toList out.column := by
  unfold triviaLine
  rw [Bool.not_true, Bool.and_false, if_neg Bool.false_ne_true]
  cases line with
  | nil => rfl
  | cons first more =>
    dsimp only
    split
    · rw [if_pos rfl, column_pieces, Trivia.toList_text_cons, Text.visualWidth_append]
      rfl
    · rw [column_pieces]
      rfl

/--
Behind the line ends before a token without a placement, its line is written as it was read.
-/
theorem column_leading {t : Token} (hplace : p.placements.lookup t.offset = none) (hend : t.isEnd = false)
    (hnewline : t.leading.hasNewline) (h : out.Sound) :
    (p.leading t out).column = Text.visualWidth (Trivia.text t.leading.lastLine).toList 0 := by
  obtain ⟨hlast, -⟩ := Trivia.exists_lastLine hnewline
  obtain ⟨hfirst, hothers⟩ := t.over_true.leading.splitLines
  have hlines := List.foldlRecOn (motive := Output.Sound) t.leading.splitLines.2.dropLast
    (fun out line => triviaLine line 0 false out.endLine) (pieces_kept Output.kept_sound h hfirst)
    fun _ hout line hline => triviaLine_kept Output.kept_sound (Output.kept_sound.endLine hout)
      (hothers line (List.dropLast_subset _ hline)) 0 false
  rw [leading_of_none hplace, hlast]
  dsimp only
  rw [hend, Bool.not_false, column_triviaLine, Output.column_endLine hlines]

end Printer

end HaskellStyle
