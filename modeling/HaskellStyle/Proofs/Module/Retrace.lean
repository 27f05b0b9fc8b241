import HaskellStyle.Proofs.Module.Neat
import HaskellStyle.Proofs.Print.Retrace
import HaskellStyle.Proofs.Token.Slice

/-!
This module contains modules that are written as they were read. Each part is told again if its text is its source
behind the trivia before it; then so is the module, up to the line end at its end.
-/

namespace HaskellStyle

open Output (Yields Draws Steady)

namespace LineEdit

variable {newline front behind : List Char}

theorem closed_append (h : ∃ c ∈ behind, isEndBlank c = false) :
    closed newline (front ++ behind) = front ++ closed newline behind := by
  have hne : dropEnd isEndBlank behind ≠ [] := by
    obtain ⟨c, hc, hshown⟩ := h
    intro hnil
    obtain ⟨dropped, hsplit, hdropped⟩ := exists_dropEnd isEndBlank behind
    rw [hnil, List.nil_append] at hsplit
    rw [hdropped c (hsplit ▸ hc)] at hshown
    cases hshown
  have hlength := List.length_pos_of_ne_nil hne
  rw [closed, closed, dropEnd_append_of_exists h, List.append_assoc, if_neg, if_neg]
  · omega
  · rw [List.length_append]
    omega

end LineEdit

/--
A token at which no characters are changed silently: its lines end as they do in the output, and no blanks that are left
out end in an odd one.
-/
structure Token.IsEven (newline : List Char) (t : Token) : Prop where
  newline : ∀ piece ∈ t.leading, piece.kind = .newline → piece.text.toList = newline
  blank : ∀ line ∈ t.emptyLines, ¬Trivia.EndsOdd line
  rest : ¬Trivia.EndsOdd t.trailing.remainder

namespace TokenStream

variable {q : Bool} {text newline : List Char} {stream : TokenStream} (h : ofTextWith q text = .ok stream)
  (hnewline : newline = ['\n'] ∨ newline = ['\r', '\n'])
  (hedits : LineEdit.ofText newline text (Token.shieldedRanges stream.toList) = [])
include h hnewline hedits

theorem neat_leading {t : Token} (ht : t ∈ stream.toList) : Shielded.Neat t.leading.marks := by
  refine Shielded.Neat.of_infix (neat_of_ofText h hnewline hedits).1 ?_
  obtain ⟨before, after, hts⟩ := List.append_of_mem ht
  rw [← flatMap_marks h, hts, List.flatMap_append, List.flatMap_cons, Token.marks, List.append_assoc]
  exact List.infix_append' _ _ _

variable (heven : ∀ t ∈ stream.toList, t.IsEven newline)
include heven

theorem begins_leading {t : Token} (ht : t ∈ stream.toList) (hbegins : ['\n'] <+: (Trivia.marks t.leading).chars) :
    newline = ['\n'] := by
  obtain ⟨hneat, hlast⟩ := neat_of_ofText h hnewline hedits
  cases hleading : t.leading with
  | nil => rw [hleading] at hbegins; exact absurd hbegins.length_le (by simp)
  | cons piece more =>
    have hpiece : piece ∈ t.leading := hleading ▸ List.mem_cons_self
    have hsound := sound_piece h ht (List.mem_append_left _ hpiece)
    have hhead : piece.text.toList.head? = some '\n' := by
      obtain ⟨c, cs, htext⟩ := List.exists_cons_of_ne_nil fun hnil =>
        hsound.nonempty (String.toList_eq_nil_iff.1 hnil)
      rw [hleading, Trivia.chars_marks, Trivia.toList_text_cons, show piece.text.toList = c :: cs from htext] at hbegins
      rw [show piece.text.toList = c :: cs from htext, ← (List.cons_prefix_cons.1 hbegins).1]
      rfl
    have hmem : '\n' ∈ piece.text.toList := List.mem_of_mem_head? hhead
    by_cases hkind : piece.kind = .newline
    · have hsame := (heven t ht).newline piece hpiece hkind
      rw [hsame] at hhead
      rcases hnewline with rfl | rfl
      · rfl
      · cases hhead
    · by_cases hblanks : piece.kind = .blanks
      · exact absurd rfl (hsound.trivia .blanks (congrArg LexemeKind.trivia hblanks) '\n' hmem).2
      · obtain ⟨c, hc, hne, -⟩ := (isNeat_piece h hneat hlast hnewline (fun t ht => (heven t ht).newline) ht
          (List.mem_append_left _ hpiece) hblanks hkind).head
        exact absurd (Option.mem_unique hc hhead) hne

theorem isTidy_of_even {t : Token} (ht : t ∈ stream.toList) : t.IsTidy newline := by
  obtain ⟨hneat, hlast⟩ := neat_of_ofText h hnewline hedits
  obtain ⟨hsame, hblank, hrest⟩ := heven t ht
  exact isTidy_token h hneat hlast ht hsame hblank hrest

/--
Tokens of a text of which nothing is trimmed can be given back.
-/
theorem retraceable {t : Token} (ht : t ∈ stream.tokens) : t.Retraceable newline := by
  obtain ⟨hneat, hlast⟩ := neat_of_ofText h hnewline hedits
  have hmem : t ∈ stream.toList := List.mem_append_left _ ht
  refine ⟨isNeat_token h hneat hlast hnewline (fun t ht => (heven t ht).newline) ht,
    isTidy_of_even h hnewline hedits heven hmem, ?_, neat_leading h hnewline hedits hmem,
    begins_leading h hnewline hedits heven hmem⟩
  have hsound : t.lexeme.Sound := (tiling_lexemes h).sound _ (mem_lexemes ht)
  obtain ⟨c, cs, htext⟩ := List.exists_cons_of_ne_nil fun hnil => hsound.nonempty (String.toList_eq_nil_iff.1 hnil)
  have hc : c ∈ t.text.toList.head? := by rw [show t.text.toList = c :: cs from htext]; rfl
  exact ⟨c, hc, Lexeme.isEndBlank_of_isBlank (hsound.first _ rfl c hc)⟩

end TokenStream

namespace Token

variable {t : Token} {ts : List Token}

/--
The text up to the last comment is all of the source if nothing follows the comment.
-/
theorem sourceThroughComments_eq (hrest : Trivia.text (ts.getLastD t).trailing.remainder = "") :
    t.leading.text ++ sourceThroughComments (t :: ts) = joinSource (t :: ts) := by
  have hlast : (t :: ts).getLast? = some (ts.getLastD t) := by
    rw [List.getLast?_cons, List.getLastD_eq_getLast?]
  have hbehind (trivia : Trivia) (h : Trivia.text trivia.remainder = "") :
      Trivia.text (trivia.reverse.dropWhile (!·.isComment)).reverse = trivia.text := by
    have hsplit : trivia = (trivia.reverse.dropWhile (!·.isComment)).reverse ++ trivia.remainder := by
      rw [Trivia.remainder, ← List.reverse_append, List.takeWhile_append_dropWhile, List.reverse_reverse]
    rw [Trivia.text] at h
    conv => rhs; rw [hsplit, Trivia.text, List.map_append, String.join_append, h, String.append_empty]
    rfl
  rw [joinSource_eq, sourceThroughComments, hlast]
  dsimp only
  rw [hbehind _ hrest, String.append_assoc]

/--
A part that is not reported to be written anew is written as its source, if it was before.
-/
theorem joinSource_of_rewritesSource {old new : String} (hrest : Trivia.text (ts.getLastD t).trailing.remainder = "")
    (hold : t.leading.text ++ old = joinSource (t :: ts)) (hquiet : rewritesSource (t :: ts) old new = false) :
    t.leading.text ++ new = joinSource (t :: ts) := by
  rw [rewritesSource, Bool.and_eq_false_iff, bne_eq_false_iff_eq, bne_eq_false_iff_eq] at hquiet
  rcases hquiet with rfl | rfl
  · exact hold
  · exact sourceThroughComments_eq hrest

theorem joinSource_verbatimInside {p : Printer} (hplace : p.placements = [])
    (hts : ∀ u ∈ t :: ts, u.Retraceable p.newline.text.toList ∧ u.keepsGap p.settings) :
    t.leading.text ++ (p.verbatimInside (t :: ts) p.start).text = joinSource (t :: ts) := by
  have hadds : Output.Adds p.newline.text.toList false (p.verbatimInside (t :: ts)) (marksInside (t :: ts)) :=
    Printer.adds_verbatimInside (fun u _ => by rw [hplace]; rfl) (fun u hu => (hts u hu).1.toIsTidy)
      (fun u hu => (hts u hu).2) false
  refine String.toList_injective ?_
  rw [String.toList_append, hadds.text_start, ← chars_marks, ← Trivia.chars_marks, ← Shielded.chars_append]
  congr 1
  rw [marksInside, List.flatMap_cons, marks, List.append_assoc, List.append_assoc, List.append_assoc]

theorem joinSource_flatMap {α : Type} (f : α → List Token) (xs : List α) :
    (joinSource (xs.flatMap f)).toList = xs.flatMap fun x => (joinSource (f x)).toList := by
  induction xs with
  | nil => rfl
  | cons x xs ih => rw [List.flatMap_cons, joinSource_append, String.toList_append, ih, List.flatMap_cons]

/--
What is told again begins with its first token.
-/
theorem begins_of_joinSource {newline : List Char} {s : String} (ht : t.Retraceable newline)
    (h : t.leading.text ++ s = joinSource (t :: ts)) : Text.Begins s := by
  rw [joinSource_cons, sourceText, String.append_assoc, String.append_assoc, String.append_right_inj] at h
  refine ht.head.of_prefix ?_
  rw [h, String.toList_append]
  exact List.prefix_append _ _

end Token

/--
A declaration that is told again: behind the trivia before it, its text is its source.
-/
structure Declaration.Retold (p : Printer) (d : Declaration) : Prop where
  shaped : d.Shaped p.settings
  tokens : ∀ t ∈ tokens d, t.Retraceable p.newline.text.toList ∧ t.keepsGap p.settings
  source : (firstToken d).leading.text ++ p.declarationText d = Token.joinSource (HaskellStyle.tokens d)
  above : ∀ pragma, d = .pragma pragma → pragma.pinned →
    pragma.token.leading.text = pragma.writtenAbove p.newline.text

namespace Output

variable {newline : List Char} (hnewline : newline = ['\n'] ∨ newline = ['\r', '\n'])
include hnewline

/--
Steps that are taken when something has been written already.
-/
theorem Yields.foldl_started {α : Type} {step : Output → α → Output} {seen : α → List Char} {items : List α}
    (h : ∀ item ∈ items, Yields newline true (fun out => step out item) (seen item)) :
    Yields newline true (fun out => items.foldl step out) (items.flatMap seen) := by
  induction items with
  | nil => exact .id hnewline
  | cons item items ih =>
    rw [List.forall_mem_cons] at h
    exact h.1.comp hnewline (ih h.2)

end Output

section Declarations

theorem Declaration.begins_of_joinSource {p : Printer} {d : Declaration}
    (hts : ∀ t ∈ HaskellStyle.tokens d, t.Retraceable p.newline.text.toList ∧ t.keepsGap p.settings) {s : String}
    (h : (firstToken d).leading.text ++ s = Token.joinSource (HaskellStyle.tokens d)) :
    Text.Begins s := by
  obtain ⟨t, ts, htokens⟩ := List.exists_cons_of_ne_nil d.tokens_ne_nil
  rw [firstToken, htokens] at h
  exact Token.begins_of_joinSource (hts t (htokens ▸ List.mem_cons_self)).1 h

variable {p : Printer} (hplace : p.placements = [])
include hplace

theorem Declaration.Retold.yields {d : Declaration} (h : d.Retold p) {started : Bool}
    (hstarted : started = false → ∀ pragma, d = .pragma pragma → pragma.pinned = false) :
    Yields p.newline.text.toList started (p.declaration d true) (Token.joinSource (HaskellStyle.tokens d)).toList := by
  rw [← h.source, String.toList_append]
  by_cases hpinned : ∃ pragma, d = .pragma pragma ∧ pragma.pinned
  · obtain ⟨pragma, rfl, hpinned⟩ := hpinned
    cases started with
    | false => rw [hstarted rfl pragma rfl] at hpinned; cases hpinned
    | true =>
      exact Printer.yields_pinnedPragma (h.tokens _ (List.mem_singleton.2 rfl)).1 hpinned (h.above pragma rfl hpinned)
  · refine Printer.yields_declaration hplace (fun pragma hd => ?_) h.shaped h.tokens
      (begins_of_joinSource h.tokens h.source) started
    rw [← Bool.not_eq_true]
    exact fun hpin => hpinned ⟨pragma, hd, hpin⟩

theorem Printer.yields_declarations {ds : List Declaration} (hds : ∀ d ∈ ds, d.Retold p)
    (hfirst : ∀ d ∈ ds.head?, ∀ pragma, d = .pragma pragma → pragma.pinned = false) (started : Bool) :
    Yields p.newline.text.toList started (fun out => ds.foldl (fun out d => p.declaration d true out) out)
      (Token.joinSource (ds.flatMap HaskellStyle.tokens)).toList := by
  cases ds with
  | nil => exact .id p.newline_cases
  | cons d ds =>
    rw [List.forall_mem_cons] at hds
    have hne : (Token.joinSource (HaskellStyle.tokens d)).toList ≠ [] := by
      obtain ⟨t, ts, hts⟩ := List.exists_cons_of_ne_nil d.tokens_ne_nil
      obtain ⟨c, hc, -⟩ := (hds.1.tokens t (hts ▸ List.mem_cons_self)).1.head
      intro hnil
      rw [hts, Token.joinSource_cons, Token.sourceText, String.toList_append, String.toList_append,
          String.toList_append] at hnil
      simp only [List.append_eq_nil_iff] at hnil
      rw [hnil.1.1.2] at hc
      cases hc
    have hrest : Yields p.newline.text.toList (started || !(Token.joinSource (HaskellStyle.tokens d)).toList.isEmpty)
        (fun out => ds.foldl (fun out d => p.declaration d true out) out)
        (Token.joinSource (ds.flatMap HaskellStyle.tokens)).toList := by
      rw [List.isEmpty_eq_false_iff.2 hne, Bool.not_false, Bool.or_true, Token.joinSource_flatMap]
      exact Output.Yields.foldl_started p.newline_cases fun d hd =>
        (hds.2 d hd).yields hplace fun hstarted => absurd hstarted (by decide)
    rw [List.flatMap_cons, Token.joinSource_append, String.toList_append]
    exact (hds.1.yields hplace fun _ => hfirst d rfl).comp p.newline_cases hrest

end Declarations

namespace Printer

variable {p : Printer} {m : Module} {cs ds es : List Char}

/--
What precedes the declarations is written part by part.
-/
theorem yields_preamble
    (hpragmas : Yields p.newline.text.toList false (fun out =>
      if m.pragmasNormalized then p.headerPragmas m.headerPragmas true out
      else p.verbatim (m.headerPragmas.map (·.token)) out) cs)
    (hheader : ∀ started, Yields p.newline.text.toList started (fun out =>
      match m.header with
      | some h => p.header h true out
      | none => out) ds)
    (himports : Yields p.newline.text.toList (!(cs ++ ds).isEmpty) (fun out =>
      if m.importsNormalized then p.importBlock m.imports out
      else p.verbatim (m.importDecls.flatMap tokens) out) es) :
    Yields p.newline.text.toList false (p.preamble m) (cs ++ ds ++ es) :=
  (hpragmas.comp p.newline_cases (hheader _)).comp p.newline_cases himports

end Printer

namespace Module

variable {settings : Settings} {m : Module} {cs : List Char}

/--
A module of which no line is trimmed is written up to the line end at its end.
-/
theorem text_render_of_yields
    (hparts : Yields m.newline.text.toList false (fun out => m.declarations.foldl
      (fun out d => (Printer.ofModule settings m).declaration d true out) ((Printer.ofModule settings m).preamble m out)) cs)
    (hplace : m.placements = []) (heof : m.eof.IsTidy m.newline.text.toList)
    (hneat : Shielded.Neat m.eof.leading.marks)
    (hbegins : ['\n'] <+: (Trivia.marks m.eof.leading).chars → m.newline.text.toList = ['\n']) :
    (m.render settings).text = LineEdit.closed m.newline.text.toList (cs ++ m.eof.leading.text.toList) := by
  obtain ⟨x, hx, rfl, hadds⟩ := hparts
  have hleading := hadds.comp (Printer.adds_leading (p := Printer.ofModule settings m) (t := m.eof)
    (by rw [Printer.ofModule, hplace]; rfl) heof _)
  obtain ⟨hsound, -, hmarked⟩ := hleading (Printer.ofModule settings m).start (Printer.sound_start _) rfl rfl
  have hout : (Printer.ofModule settings m).leading m.eof (m.declarations.foldl
      (fun out d => (Printer.ofModule settings m).declaration d true out)
      ((Printer.ofModule settings m).preamble m (Printer.ofModule settings m).start))
    = (Printer.ofModule settings m).moduleParts m (Printer.ofModule settings m).start := (Printer.moduleParts_eq _ _ _).symm
  dsimp only at hsound hmarked
  rw [hout] at hsound hmarked
  have hrender : (m.render settings).text = LineEdit.normalize m.newline.text.toList
      ((Printer.ofModule settings m).moduleParts m (Printer.ofModule settings m).start).text.toList
      ((Printer.ofModule settings m).moduleParts m (Printer.ofModule settings m).start).shielded.reverse := rfl
  rw [hrender]
  clear hout hleading hrender
  generalize (Printer.ofModule settings m).moduleParts m (Printer.ofModule settings m).start = out at hsound hmarked ⊢
  have hmarked : Shielded.ofRanges out.shielded.reverse out.text.toList = x ++ m.eof.leading.marks := by
    rw [Shielded.ofRanges_congr (fun r => List.mem_reverse)]
    exact hmarked
  have htext : out.text.toList = x.chars ++ m.eof.leading.text.toList := by
    rw [← Trivia.chars_marks, ← Shielded.chars_append, ← hmarked, Shielded.chars_ofRanges]
  rw [LineEdit.normalize_of_neat, htext]
  · exact fun r hr => (hsound.bounded r (List.mem_reverse.1 hr)).1
  · exact List.pairwise_reverse.2 (hsound.disjoint.imp fun h => .inl h)
  · rw [hmarked]
    refine hx.neat.append hneat (fun _ => ?_) fun h => ?_
    · rw [Shielded.chars_ofText, ← List.append_nil m.newline.text.toList]
      exact .of_newline (Printer.newline_cases (.ofModule settings m)) []
    · rw [Shielded.chars_ofText, hbegins h]

end Module

end HaskellStyle
