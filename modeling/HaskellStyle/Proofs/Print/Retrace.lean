import HaskellStyle.Proofs.Print.Steady
import HaskellStyle.Proofs.Module.Verbatim

/-!
This module contains parts that are written with known characters, none of which is trimmed. Main results: tokens that
are written as they are give their source back if the blanks before comments are kept, and a part gives the same text
wherever it stands.
-/

namespace HaskellStyle

namespace Output

/--
A step that writes the characters `cs` so that no line of them ends in blanks.
-/
def Yields (newline : List Char) (started : Bool) (f : Output → Output) (cs : List Char) : Prop :=
  ∃ x : Shielded, x.Lines newline ∧ x.chars = cs ∧ Adds newline started f x

variable {newline : List Char} (hnewline : newline = ['\n'] ∨ newline = ['\r', '\n']) {started : Bool}
  {f g : Output → Output} {cs ds : List Char}

namespace Yields

include hnewline

theorem id : Yields newline started (fun out => out) [] :=
  ⟨[], .nil hnewline, rfl, .id⟩

theorem comp (hf : Yields newline started f cs) (hg : Yields newline (started || !cs.isEmpty) g ds) :
    Yields newline started (fun out => g (f out)) (cs ++ ds) := by
  obtain ⟨x, hx, rfl, hf⟩ := hf
  obtain ⟨y, hy, rfl, hg⟩ := hg
  have hempty : x.chars.isEmpty = x.isEmpty := List.isEmpty_map
  rw [hempty] at hg
  exact ⟨x ++ y, hx.append hnewline hy, Shielded.chars_append x y, hf.comp hg⟩

theorem foldl {α : Type} {step : Output → α → Output} {seen : α → List Char} {items : List α}
    (h : ∀ item ∈ items, ∀ started, Yields newline started (fun out => step out item) (seen item)) (started : Bool) :
    Yields newline started (fun out => items.foldl step out) (items.flatMap seen) := by
  induction items generalizing started with
  | nil => exact .id hnewline
  | cons item items ih =>
    rw [List.forall_mem_cons] at h
    exact (h.1 started).comp hnewline (ih h.2 _)

omit hnewline

theorem congr (hf : Yields newline started f cs) (h : ∀ out, g out = f out) : Yields newline started g cs := by
  obtain ⟨x, hx, hchars, hadds⟩ := hf
  exact ⟨x, hx, hchars, hadds.congr fun out _ _ => h out⟩

theorem text_start {p : Printer} (hf : Yields p.newline.text.toList false f cs) : (f p.start).text.toList = cs := by
  obtain ⟨x, -, rfl, hadds⟩ := hf
  exact hadds.text_start

end Yields

section LineEnd

include hnewline

theorem yields_endLine (started : Bool) : Yields newline started endLine newline :=
  ⟨_, .lineEnd hnewline, Shielded.chars_ofText _ _, .endLine⟩

theorem yields_endLineIfStarted : Yields newline true endLineIfStarted newline := by
  obtain ⟨x, hx, hchars, hadds⟩ := yields_endLine hnewline true
  refine ⟨x, hx, hchars, hadds.congr fun out _ hstarted => ?_⟩
  rw [isStarted, decide_eq_true_eq] at hstarted
  exact if_neg (Nat.ne_of_gt hstarted)

end LineEnd

/--
A step of which no line is trimmed, whatever it writes.
-/
def Draws (newline : List Char) (f : Output → Output) : Prop :=
  ∀ started, ∃ cs, Yields newline started f cs

namespace Draws

include hnewline

theorem id : Draws newline fun out => out :=
  fun _ => ⟨[], .id hnewline⟩

theorem comp (hf : Draws newline f) (hg : Draws newline g) : Draws newline fun out => g (f out) := by
  intro started
  obtain ⟨cs, hf⟩ := hf started
  obtain ⟨ds, hg⟩ := hg (started || !cs.isEmpty)
  exact ⟨cs ++ ds, hf.comp hnewline hg⟩

theorem foldl {α : Type} {step : Output → α → Output} {items : List α}
    (h : ∀ item ∈ items, Draws newline fun out => step out item) : Draws newline fun out => items.foldl step out := by
  induction items with
  | nil => exact .id hnewline
  | cons item items ih =>
    rw [List.forall_mem_cons] at h
    exact h.1.comp hnewline (ih h.2)

theorem endLineIfStarted : Draws newline endLineIfStarted := by
  intro started
  cases started with
  | true => exact ⟨newline, yields_endLineIfStarted hnewline⟩
  | false =>
    refine ⟨[], [], .nil hnewline, rfl, Adds.id.congr fun out _ hstarted => ?_⟩
    rw [isStarted, decide_eq_false_iff_not, Nat.not_lt, Nat.le_zero] at hstarted
    exact if_pos hstarted

end Draws

theorem Steady.draws (hf : Steady newline f) : Draws newline f := by
  obtain ⟨x, hx, hadds⟩ := hf
  exact fun started => ⟨x.chars, x, hx, rfl, hadds started⟩

/--
A part that is written in the same way everywhere is written as it would be written alone.
-/
theorem Steady.yields {p : Printer} (hf : Steady p.newline.text.toList f) (started : Bool) :
    Yields p.newline.text.toList started f (f p.start).text.toList := by
  obtain ⟨x, hx, hadds⟩ := hf
  exact ⟨x, hx, (hadds false).text_start.symm, hadds started⟩

end Output

open Output (Yields Draws Adds Steady)

/--
A text that begins with something else than a blank.
-/
def Text.Begins (s : String) : Prop :=
  ∃ c ∈ s.toList.head?, LineEdit.isEndBlank c = false

namespace Text.Begins

theorem head_ne {s : String} (h : Begins s) : ∃ c ∈ s.toList.head?, c ≠ '\n' ∧ c ≠ '\r' := by
  obtain ⟨c, hc, hshown⟩ := h
  refine ⟨c, hc, ?_, ?_⟩ <;>
    · rintro rfl
      cases hshown

theorem of_prefix {a b : String} (h : Begins a) (hstarts : a.toList <+: b.toList) : Begins b := by
  obtain ⟨c, hc, hshown⟩ := h
  obtain ⟨rest, hrest⟩ := hstarts
  refine ⟨c, ?_, hshown⟩
  rw [← hrest, List.head?_append, Option.mem_def.1 hc]
  rfl

theorem mem {s : String} (h : Begins s) : ∃ c ∈ s.toList, LineEdit.isEndBlank c = false := by
  obtain ⟨c, hc, hshown⟩ := h
  exact ⟨c, List.mem_of_mem_head? hc, hshown⟩

end Text.Begins

namespace Token

/--
A token whose source can be given back: its trivia are as they are written, and so are the ends of its lines.
-/
structure Retraceable (ending : List Char) (t : Token) : Prop extends t.IsNeat ending, t.IsTidy ending where
  head : Text.Begins t.text
  above : Shielded.Neat t.leading.marks
  begins : ['\n'] <+: (Trivia.marks t.leading).chars → ending = ['\n']

theorem Retraceable.head_ne {newline : List Char} {t : Token} (ht : t.Retraceable newline) :
    ∀ c ∈ t.text.toList.head?, c ≠ '\n' := by
  intro c hc
  obtain ⟨c', hc', hne⟩ := ht.head.head_ne
  rw [Option.mem_unique hc hc']
  exact hne.1

theorem chars_marks (ts : List Token) : Shielded.chars (ts.flatMap marks) = (joinSource ts).toList := by
  induction ts with
  | nil => rfl
  | cons t ts ih =>
    have hmark : t.mark.chars = t.text.toList := Shielded.chars_ofText _ _
    rw [List.flatMap_cons, Shielded.chars_append, ih]
    simp [marks, hmark, joinSource, sourceText, String.join_cons]

section Lines

variable {newline : List Char} (hnewline : newline = ['\n'] ∨ newline = ['\r', '\n']) {t : Token}
  (ht : t.Retraceable newline) {settings : Settings}
include ht

theorem Retraceable.behind_leading {y : Shielded} (hy : y.Lines newline)
    (hhead : ∃ c ∈ y.chars.head?, c ≠ '\n' ∧ c ≠ '\r') : (t.leading.marks ++ y).Lines newline :=
  .behind ht.above ht.begins hy hhead

include hnewline

theorem Retraceable.lines_trailing (hgap : t.keepsGap settings) : (Trivia.marks t.trailing).Lines newline := by
  cases hcomments : t.trailing.hasComments with
  | false =>
    have hempty : Trivia.text t.trailing = "" := by
      rw [← Printer.remainder_of_not_hasComments hcomments]
      exact ht.rest
    rw [Trivia.marks_eq_nil_iff.2 hempty]
    exact .nil hnewline
  | true =>
    have hcomments : (Printer.splitComments t.trailing).2 ≠ [] := by
      rw [ne_eq, Printer.splitComments_eq_nil_iff, hcomments]
      simp
    rw [(Printer.marks_trailing ht.rest hgap hcomments).2]
    exact ht.toIsNeat.behind.blanks _ (Printer.head_splitComments ht.toIsNeat hcomments)

theorem Retraceable.lines_inside (hgap : t.keepsGap settings) :
    (t.mark ++ Trivia.marks t.trailing).Lines newline := by
  refine Shielded.Lines.append hnewline ?_ (ht.lines_trailing hnewline hgap)
  rw [mark]
  cases hline : t.isMultiline with
  | false => exact .word hnewline (by simpa [isMultiline] using hline) ht.ends _
  | true => exact .ofShielded hnewline ht.head_ne

omit hnewline in
theorem Retraceable.head_inside :
    ∃ c ∈ (t.mark ++ Trivia.marks t.trailing).chars.head?, c ≠ '\n' ∧ c ≠ '\r' := by
  obtain ⟨c, hc, hne⟩ := ht.head.head_ne
  refine ⟨c, ?_, hne⟩
  rw [Shielded.chars_append, mark, Shielded.chars_ofText, List.head?_append, hc]
  rfl

theorem Retraceable.lines (hgap : t.keepsGap settings) : t.marks.Lines newline :=
  ht.behind_leading (ht.lines_inside hnewline hgap) ht.head_inside

end Lines

end Token

namespace Printer

variable {p : Printer}

theorem newline_cases (p : Printer) : p.newline.text.toList = ['\n'] ∨ p.newline.text.toList = ['\r', '\n'] := by
  cases p.newline
  · exact .inl rfl
  · exact .inr rfl

/--
What is written behind the trivia before a token.
-/
theorem yields_leading {t : Token} (ht : t.Retraceable p.newline.text.toList) (hplace : p.placements = [])
    {f : Output → Output} {cs : List Char} (hf : ∀ started, Yields p.newline.text.toList started f cs)
    (hhead : ∃ c ∈ cs.head?, c ≠ '\n' ∧ c ≠ '\r') (started : Bool) :
    Yields p.newline.text.toList started (fun out => f (p.leading t out)) ((Trivia.text t.leading).toList ++ cs) := by
  obtain ⟨x, hx, rfl, hadds⟩ := hf (started || !(Trivia.marks t.leading).isEmpty)
  refine ⟨t.leading.marks ++ x, ht.behind_leading hx hhead, ?_, ?_⟩
  · rw [Shielded.chars_append, Trivia.chars_marks]
  · exact (adds_leading (by rw [hplace]; rfl) ht.toIsTidy started).comp hadds

section Verbatim

variable {ts : List Token} (hplace : p.placements = [])
  (hts : ∀ t ∈ ts, t.Retraceable p.newline.text.toList ∧ t.keepsGap p.settings)
include hplace hts

omit hplace in
theorem lines_marks : Shielded.Lines p.newline.text.toList (ts.flatMap Token.marks) := by
  induction ts with
  | nil => exact .nil p.newline_cases
  | cons t ts ih =>
    rw [List.forall_mem_cons] at hts
    exact (hts.1.1.lines p.newline_cases hts.1.2).append p.newline_cases (ih hts.2)

/--
Tokens are written as they stand.
-/
theorem yields_verbatim (started : Bool) :
    Yields p.newline.text.toList started (p.verbatim ts) (Token.joinSource ts).toList :=
  ⟨_, lines_marks hts, Token.chars_marks ts, adds_verbatim (fun t _ => by rw [hplace]; rfl)
    (fun t ht => (hts t ht).1.toIsTidy) (fun t ht => (hts t ht).2) started⟩

theorem steady_verbatimInside : Steady p.newline.text.toList (p.verbatimInside ts) := by
  refine ⟨_, ?_, adds_verbatimInside (fun t _ => by rw [hplace]; rfl) (fun t ht => (hts t ht).1.toIsTidy)
    fun t ht => (hts t ht).2⟩
  cases ts with
  | nil => exact .nil p.newline_cases
  | cons t ts =>
    rw [List.forall_mem_cons] at hts
    exact (hts.1.1.lines_inside p.newline_cases hts.1.2).append p.newline_cases (lines_marks hts.2)

end Verbatim

end Printer

namespace Declaration

/--
Whether a declaration is written anew.
-/
def isRewritten : Declaration → Bool
  | .pragma p => p.pinned
  | .signature s => s.layout.isSome
  | .data d => d.layout.isSome
  | .clause c layout => layout.isSome && (match c.equation.rhs with
    | .plain _ _ => true
    | .guarded _ _ => false)
  | .importing _ | .raw _ => false

/--
What a declaration has if it is written anew: tokens of one line, and no part without tokens.
-/
def Shaped (settings : Settings) : Declaration → Prop
  | .signature s => ∀ layout ∈ s.layout, (∀ t ∈ tokens s, t.isMultiline = false) ∧ s.names ≠ [] ∧ s.type ≠ []
    ∧ (layout = .multiLine → ∀ part ∈ s.parts, part.2 ≠ [])
  | .data d => d.layout.isSome → (∀ t ∈ tokens d, t.isMultiline = false) ∧ d.head ≠ []
    ∧ (∀ c ∈ d.constructors, ∀ r ∈ c.record, ∀ f ∈ r.items, f.type ≠ [])
    ∧ ∀ clause ∈ d.derivings, clause.classes ≠ []
  | .clause c layout => ∀ laid ∈ layout, ∀ equals body, c.equation.rhs = .plain equals body →
    (∀ t ∈ Segment.topTokens c.equation.lhs ++ equals :: Segment.topTokens body, t.isMultiline = false)
      ∧ Rhs.lines settings (Segment.topTokens body) laid.style ≠ []
      ∧ ∀ line ∈ Rhs.lines settings (Segment.topTokens body) laid.style, line ≠ []
  | .importing _ | .pragma _ | .raw _ => True

end Declaration

namespace Printer

variable {p : Printer} {d : Declaration}

theorem declaration_of_isRewritten (h : d.isRewritten = false) (withLeading : Bool) (out : Output) :
    p.declaration d withLeading out = p.verbatimWith withLeading (tokens d) out := by
  cases d with
  | importing _ | raw _ => rfl
  | pragma pragma =>
    rw [Declaration.isRewritten] at h
    rw [declaration, if_neg (by simp [h])]
  | signature s =>
    rw [Declaration.isRewritten, Option.isSome_eq_false_iff, Option.isNone_iff_eq_none] at h
    simp only [declaration, h]
  | data d =>
    rw [Declaration.isRewritten, Option.isSome_eq_false_iff, Option.isNone_iff_eq_none] at h
    simp only [declaration, h]
  | clause c layout =>
    cases layout with
    | none => rfl
    | some layout =>
      unfold declaration
      dsimp only
      split
      · next hrhs => simp [Declaration.isRewritten, hrhs] at h
      · rfl

theorem verbatimWith_leading {ν : Type} [HasTokens ν] {node : ν} (h : tokens node ≠ []) (out : Output) :
    p.verbatimWith true (tokens node) out = p.verbatimWith false (tokens node) (p.leading (firstToken node) out) := by
  rw [firstToken]
  cases hts : tokens node with
  | nil => exact absurd hts h
  | cons t ts => rfl

/--
A declaration that is not pinned is written behind the trivia before it.
-/
theorem declaration_leading (hpinned : ∀ pragma, d = .pragma pragma → pragma.pinned = false) (out : Output) :
    p.declaration d true out = p.declaration d false (p.leading (firstToken d) out) := by
  have hverbatim := verbatimWith_leading (p := p) d.tokens_ne_nil out
  unfold declaration
  split
  · next pragma => rwa [hpinned pragma rfl, if_neg (by simp), if_neg (by simp)]
  · split
    · rfl
    · exact hverbatim
  · split
    · rfl
    · exact hverbatim
  · split
    · rfl
    · exact hverbatim
  all_goals exact hverbatim

/--
A declaration is written in the same way everywhere, apart from the trivia before it.
-/
theorem steady_declaration (hplace : p.placements = []) (hd : d.Shaped p.settings)
    (hts : ∀ t ∈ tokens d, t.Retraceable p.newline.text.toList ∧ t.keepsGap p.settings) :
    Steady p.newline.text.toList (p.declaration d false) := by
  have hverbatim : Steady p.newline.text.toList (p.verbatimWith false (tokens d)) := steady_verbatimInside hplace hts
  have hword {ts : List Token} (hsub : ts ⊆ tokens d) (hline : ∀ t ∈ ts, t.isMultiline = false) :
      ∀ t ∈ ts, t.IsWord p.newline.text.toList := fun t ht => ⟨(hts t (hsub ht)).1.toIsNeat, hline t ht⟩
  have hstructured {body : Output → Output} (hbody : Steady p.newline.text.toList body) :
      Steady p.newline.text.toList (p.structured d false body) :=
    hbody.comp p.newline_cases
      (steady_trailing p.newline_cases p (hts _ (ItemList.lastToken_mem d.tokens_ne_nil)).1.toIsNeat)
  cases d with
  | importing _ | raw _ => exact hverbatim
  | pragma pragma =>
    unfold declaration
    dsimp only
    split
    · obtain ⟨ht, -⟩ := hts pragma.token (List.mem_singleton.2 rfl)
      exact steady_pinnedPragma p.newline_cases p ht.toIsNeat ht.head_ne
    · exact hverbatim
  | signature s =>
    unfold declaration
    dsimp only
    split
    · next layout hlayout =>
      obtain ⟨hline, hnames, htype, hparts⟩ := hd layout hlayout
      exact hstructured (steady_signature p.newline_cases p (hword (List.Subset.refl _) hline) hnames htype hparts)
    · exact hverbatim
  | data decl =>
    unfold declaration
    dsimp only
    split
    · next layout hlayout =>
      obtain ⟨hline, hhead, hfields, hclasses⟩ := hd (by rw [hlayout]; rfl)
      exact hstructured
        (steady_dataDecl p.newline_cases p (hword (List.Subset.refl _) hline) hhead hfields hclasses layout)
    · exact hverbatim
  | clause c layout =>
    cases layout with
    | none => exact hverbatim
    | some layout =>
      unfold declaration
      dsimp only
      split
      · next equals body hrhs =>
        obtain ⟨hline, hlines, hparts⟩ := hd layout rfl equals body hrhs
        exact hstructured
          (steady_brokenClause p.newline_cases p (hword (Clause.topTokens_subset hrhs) hline) hlines hparts)
      · exact hverbatim

theorem yields_declaration (hplace : p.placements = []) (hpinned : ∀ pragma, d = .pragma pragma → pragma.pinned = false)
    (hd : d.Shaped p.settings) (hts : ∀ t ∈ tokens d, t.Retraceable p.newline.text.toList ∧ t.keepsGap p.settings)
    (hhead : Text.Begins (p.declarationText d)) (started : Bool) :
    Yields p.newline.text.toList started (p.declaration d true)
      ((Trivia.text (firstToken d).leading).toList ++ (p.declarationText d).toList) :=
  (yields_leading (hts _ (ItemList.firstToken_mem d.tokens_ne_nil)).1 hplace
    (steady_declaration hplace hd hts).yields hhead.head_ne started).congr (declaration_leading hpinned)

end Printer

/--
What is written above a pragma that is pinned: its comment lines, each on a line of its own.
-/
def Pragma.writtenAbove (newline : String) (p : Pragma) : String :=
  String.join (p.token.leading.allCommentLines.map fun line => newline ++ Trivia.lineText line) ++ newline

namespace Printer

variable {p : Printer} {pragma : Pragma}

theorem yields_note {newline : List Char} (hnewline : newline = ['\n'] ∨ newline = ['\r', '\n']) {line : Trivia}
    (hne : line ≠ []) (h : ∀ piece ∈ line, piece.IsNeat newline) (started : Bool) :
    Yields newline started (·.write (Trivia.lineText line) true) (Trivia.lineText line).toList :=
  ⟨_, Trivia.lines_lineText hnewline hne h, Shielded.chars_ofText _ _, .write _ _⟩

/--
A pragma is pinned where it stands if the lines above it are as they are written.
-/
theorem yields_pinnedPragma (hpragma : pragma.token.Retraceable p.newline.text.toList) (hpinned : pragma.pinned)
    (habove : Trivia.text pragma.token.leading = pragma.writtenAbove p.newline.text) :
    Yields p.newline.text.toList true (p.declaration (.pragma pragma) true)
      ((Trivia.text pragma.token.leading).toList ++ (p.declarationText (.pragma pragma)).toList) := by
  have hlines (lines : List (List TriviaPiece))
      (h : ∀ line ∈ lines, line ≠ [] ∧ ∀ piece ∈ line, piece.IsNeat p.newline.text.toList) :
      Yields p.newline.text.toList true
        (fun out => lines.foldl (fun out line => out.endLineIfStarted.write (Trivia.lineText line) true) out)
        (String.join (lines.map fun line => p.newline.text ++ Trivia.lineText line)).toList := by
    induction lines with
    | nil => exact .id p.newline_cases
    | cons line lines ih =>
      rw [List.forall_mem_cons] at h
      rw [List.map_cons, String.join_cons, String.toList_append, String.toList_append]
      exact ((Output.yields_endLineIfStarted p.newline_cases).comp p.newline_cases
        (yields_note p.newline_cases h.1.1 h.1.2 _)).comp p.newline_cases (ih h.2)
  have hform (withLeading : Bool) (out : Output) :
      p.declaration (.pragma pragma) withLeading out = p.pinnedPragma pragma withLeading out := by
    rw [declaration, if_pos hpinned]
  have hbody : Steady p.newline.text.toList (p.declaration (.pragma pragma) false) :=
    (steady_pinnedPragma p.newline_cases p hpragma.toIsNeat hpragma.head_ne).congr (hform false)
  have habove' := (hlines _ hpragma.toIsNeat.allCommentLines).comp p.newline_cases
    (Output.yields_endLineIfStarted p.newline_cases)
  rw [← String.toList_append] at habove'
  rw [habove]
  refine (habove'.comp p.newline_cases (hbody.yields _)).congr fun out => ?_
  rw [hform, hform]
  rfl

end Printer

/--
Whether a header is written anew.
-/
def Header.isRewritten (h : Header) : Bool :=
  (h.exports.bind (·.layout)).isSome

/--
A header that is written anew has tokens of one line.
-/
def Header.Shaped (h : Header) : Prop :=
  h.isRewritten → ∀ t ∈ tokens h, t.isMultiline = false

/--
An import that is spaced anew has tokens of one line.
-/
def Import.Shaped (i : Import) : Prop :=
  Printer.isStructured i → ∀ t ∈ tokens i, t.isMultiline = false

namespace Printer

variable {p : Printer}

section Header

variable {h : Header}

theorem header_of_isRewritten (hkept : h.isRewritten = false) (withLeading : Bool) (out : Output) :
    p.header h withLeading out = p.verbatimWith withLeading (tokens h) out := by
  have hnone : h.exports.bind (fun exports => exports.layout.map (exports, ·)) = none := by
    rw [Header.isRewritten, Option.isSome_eq_false_iff, Option.isNone_iff_eq_none, Option.bind_eq_none_iff] at hkept
    rw [Option.bind_eq_none_iff]
    exact fun exports hexports => by rw [hkept exports hexports, Option.map_none]
  unfold header
  rw [hnone]

theorem header_leading (h : Header) (out : Output) :
    p.header h true out = p.header h false (p.leading h.keyword out) := by
  unfold header
  split
  · exact verbatimWith_leading (List.cons_ne_nil _ _) out
  · rfl

variable (hplace : p.placements = []) (hshape : h.Shaped)
  (hts : ∀ t ∈ tokens h, t.Retraceable p.newline.text.toList ∧ t.keepsGap p.settings)
include hplace hshape hts

theorem steady_header_false : Steady p.newline.text.toList (p.header h false) := by
  cases hanew : h.isRewritten with
  | false =>
    have hverbatim : Steady p.newline.text.toList (p.verbatimWith false (tokens h)) := steady_verbatimInside hplace hts
    exact hverbatim.congr (header_of_isRewritten hanew false)
  | true =>
    obtain ⟨layout, hlayout⟩ := Option.isSome_iff_exists.1 hanew
    obtain ⟨exports, hexports, hlayout⟩ := Option.bind_eq_some_iff.1 hlayout
    exact steady_header p.newline_cases p hexports hlayout fun t ht => ⟨(hts t ht).1.toIsNeat, hshape hanew t ht⟩

theorem yields_header (hhead : Text.Begins (p.headerText h)) (started : Bool) :
    Yields p.newline.text.toList started (p.header h true)
      ((Trivia.text h.keyword.leading).toList ++ (p.headerText h).toList) :=
  (yields_leading (hts _ List.mem_cons_self).1 hplace (steady_header_false hplace hshape hts).yields hhead.head_ne
    started).congr
    (header_leading h)

end Header

/--
The header pragmas in normal form behind the trivia before the one that stands first.
-/
theorem yields_headerPragmas {pragmas : List Pragma} {first : Pragma} (hplace : p.placements = [])
    (hfirst : minBy (·.token.offset) pragmas = some first)
    (hpragmas : ∀ pragma ∈ pragmas, pragma.token.Retraceable p.newline.text.toList)
    (hhead : Text.Begins (p.headerPragmas pragmas false p.start).text) (started : Bool) :
    Yields p.newline.text.toList started (p.headerPragmas pragmas true)
      ((Trivia.text first.token.leading).toList ++ (p.headerPragmas pragmas false p.start).text.toList) := by
  have hinside : Steady p.newline.text.toList (p.headerPragmas pragmas false) :=
    steady_headerPragmas p.newline_cases p fun pragma hmem =>
      ⟨(hpragmas pragma hmem).toIsNeat, (hpragmas pragma hmem).head_ne⟩
  refine (yields_leading (hpragmas _ (mem_of_minBy hfirst)) hplace hinside.yields hhead.head_ne started).congr
    fun out => ?_
  unfold headerPragmas
  rw [hfirst]
  rfl

section Imports

variable (hplace : p.placements = [])
include hplace

theorem steady_importDecl_of_shaped {i : Import} (hshape : i.Shaped)
    (hts : ∀ t ∈ tokens i, t.Retraceable p.newline.text.toList ∧ t.keepsGap p.settings) :
    Steady p.newline.text.toList (p.importDecl i) := by
  cases hanew : isStructured i with
  | true => exact steady_importDecl p.newline_cases p hanew fun t ht => ⟨(hts t ht).1.toIsNeat, hshape hanew t ht⟩
  | false =>
    refine (steady_verbatimInside hplace hts).congr fun out => ?_
    rw [importDecl, if_neg (by simp [hanew])]

theorem draws_importLine (blankLines : Nat) {i : Import} (hshape : i.Shaped)
    (hts : ∀ t ∈ tokens i, t.Retraceable p.newline.text.toList ∧ t.keepsGap p.settings) :
    Draws p.newline.text.toList (p.importLine blankLines i) := by
  have hkeyword := (hts i.keyword List.mem_cons_self).1.toIsNeat
  have hblank : Draws p.newline.text.toList fun out =>
      (List.replicate blankLines ()).foldl (fun out _ => out.endLine) out :=
    .foldl p.newline_cases fun _ _ => (Steady.endLine p.newline_cases).draws
  have hnotes : Draws p.newline.text.toList fun out => i.keyword.leading.allCommentLines.foldl
      (fun out line => out.endLineIfStarted.write (Trivia.lineText line) true) out := by
    refine .foldl p.newline_cases fun line hline => ?_
    obtain ⟨hne, hpieces⟩ := hkeyword.allCommentLines line hline
    exact (Draws.endLineIfStarted p.newline_cases).comp p.newline_cases (steady_note p.newline_cases hne hpieces).draws
  exact ((hblank.comp p.newline_cases hnotes).comp p.newline_cases (.endLineIfStarted p.newline_cases)).comp
    p.newline_cases (steady_importDecl_of_shaped hplace hshape hts).draws

theorem draws_importBlock {groups : List (List Import)}
    (hgroups : ∀ i ∈ groups.flatten, i.Shaped
      ∧ ∀ t ∈ tokens i, t.Retraceable p.newline.text.toList ∧ t.keepsGap p.settings) :
    Draws p.newline.text.toList (p.importBlock groups) := by
  have hgroup (blankLines : Nat) {group : List Import} (hgroup : group ∈ groups) :
      Draws p.newline.text.toList (p.importGroup blankLines group) := by
    have hline (blankLines : Nat) : ∀ i ∈ group, Draws p.newline.text.toList (p.importLine blankLines i) := fun i hi => by
      obtain ⟨hshape, hts⟩ := hgroups i (List.mem_flatten.2 ⟨group, hgroup, hi⟩)
      exact draws_importLine hplace blankLines hshape hts
    unfold importGroup
    cases group with
    | nil => exact .id p.newline_cases
    | cons i more =>
      exact (hline blankLines i List.mem_cons_self).comp p.newline_cases
        (.foldl p.newline_cases fun i hi => hline 0 i (List.mem_cons_of_mem _ hi))
  unfold importBlock
  cases groups with
  | nil => exact .id p.newline_cases
  | cons group more =>
    exact (hgroup _ List.mem_cons_self).comp p.newline_cases
      (.foldl p.newline_cases fun group hmem => hgroup 1 (List.mem_cons_of_mem _ hmem))

end Imports

end Printer

end HaskellStyle
