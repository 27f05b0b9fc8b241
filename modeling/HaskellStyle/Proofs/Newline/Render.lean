import HaskellStyle.Proofs.Newline.Output
import HaskellStyle.Proofs.Newline.Print
import HaskellStyle.Proofs.Print.Kept
import HaskellStyle.Rule.Basic

/-!
This module contains the writing of what precedes the declarations of a module with carriage returns, and of the module
as a whole. A rule compares the texts that are written, so a part is rewritten with carriage returns if it is rewritten
without them, and the same fixes are noted.
-/

namespace HaskellStyle

open Text (crlfString crlfOffset)
open Function (Injective)

variable (σ : Nat → Nat)

theorem minBy_crlf {α β : Type} {σ : Nat → Nat} (hσ : StrictMono σ) {k : α → Nat} {j : β → Nat} {g : α → β}
    (h : ∀ x, j (g x) = σ (k x)) (l : List α) : minBy j (l.map g) = (minBy k l).map g := by
  induction l with
  | nil => rfl
  | cons x l ih =>
    rw [List.map_cons, minBy, minBy, ih]
    cases minBy k l with
    | none => rfl
    | some y =>
      simp only [Option.map_some, h, hσ.lt_iff_lt]
      split <;> rfl

namespace Printer

theorem isStructured_crlf (i : Import) : isStructured (mapTokens (Token.crlf σ) i) = isStructured i := by
  have hhead : (mapTokens (Token.crlf σ) i).head = i.head.map (Token.crlf σ) := rfl
  have htail : (mapTokens (Token.crlf σ) i).tail = i.tail.map (Token.crlf σ) := rfl
  have hlist : (mapTokens (Token.crlf σ) i).list = i.list.map (mapTokens (Token.crlf σ)) := rfl
  have hlast : (mapTokens (Token.crlf σ) i).lastOfHead = i.lastOfHead.crlf σ := List.getLastD_map _ i.words i.keyword
  unfold isStructured
  rw [hhead, htail, hlist, hlast, tokens_mapTokens, Token.cleanInside_crlf, Token.cleanInside_crlf, List.isEmpty_map,
    Token.trailing_crlf, Trivia.hasComments_crlf]
  cases i.list with
  | none => rfl
  | some list =>
    have hclosing : (mapTokens (Token.crlf σ) list).closing = list.closing.crlf σ := rfl
    have hlayout : (mapTokens (Token.crlf σ) list).layout = list.layout := rfl
    simp only [Option.map_some, hclosing, hlayout, ← List.map_cons, Token.cleanInside_crlf]

variable {out out' : Output} (h : out.Mirrors out')
include h

theorem linesAbove_crlf (lines : List (List TriviaPiece)) :
    (linesAbove out lines).Mirrors (linesAbove out' (lines.map (List.map (TriviaPiece.crlf σ)))) :=
  h.foldl fun line _ _ _ hout => (hout.write_of_eq (Trivia.lineText_crlf σ line) true).endLine

variable {σ} (hσ : Injective σ) (p : Printer)
include hσ

theorem headerPragma_crlf {pragma : Pragma} (hpragma : pragma.IsDelimited) (sourceFirst : Option Nat) (width : Nat) :
    (p.headerPragma sourceFirst width pragma out).Mirrors
      ((p.crlf σ).headerPragma (sourceFirst.map σ) width (mapTokens (Token.crlf σ) pragma) out') := by
  have htoken : (mapTokens (Token.crlf σ) pragma).token = pragma.token.crlf σ := rfl
  have hfirst : some (σ pragma.token.offset) = sourceFirst.map σ ↔ some pragma.token.offset = sourceFirst := by
    rw [← Option.map_some, (Option.map_injective hσ).eq_iff]
  have htext : (if (mapTokens (Token.crlf σ) pragma).isLanguage then (mapTokens (Token.crlf σ) pragma).languageText width
        else (mapTokens (Token.crlf σ) pragma).flat)
      = crlfString (if pragma.isLanguage then pragma.languageText width else pragma.flat) := by
    rw [Pragma.isLanguage_crlf σ hpragma, Pragma.languageText_crlf σ hpragma, Pragma.flat_crlf σ hpragma]
    split
    · rw [Pragma.crlfString_languageText]
    · rfl
  unfold headerPragma
  dsimp only
  rw [htoken, Token.offset_crlf, Token.leading_crlf, Trivia.allCommentLines_crlf, Token.isMultiline_crlf]
  simp only [hfirst]
  refine trailing_crlf σ (Output.Mirrors.write_of_eq ?_ htext _) p pragma.token true
  split
  · exact h
  · exact linesAbove_crlf σ h _

theorem pragmaBlock_crlf {block : List Pragma} (hblock : ∀ p ∈ block, p.IsDelimited) (sourceFirst : Option Nat) :
    (p.pragmaBlock sourceFirst block out).Mirrors
      ((p.crlf σ).pragmaBlock (sourceFirst.map σ) (block.map (mapTokens (Token.crlf σ))) out') := by
  have hwidths : ((block.map (mapTokens (Token.crlf σ))).filter (·.isLanguage)).map (·.flatLanguage.length)
      = (block.filter (·.isLanguage)).map (·.flatLanguage.length) := by
    have hfilter : block.filter (fun pragma => (mapTokens (Token.crlf σ) pragma).isLanguage)
        = block.filter (·.isLanguage) :=
      List.filter_congr fun pragma hpragma => by rw [Pragma.isLanguage_crlf σ (hblock pragma hpragma)]
    rw [List.filter_map, List.map_map]
    simp only [Function.comp_def, hfilter]
    refine List.map_congr_left fun pragma hpragma => ?_
    rw [Pragma.flatLanguage_crlf σ (hblock pragma (List.mem_of_mem_filter hpragma))]
  unfold pragmaBlock
  rw [hwidths]
  dsimp only
  generalize (((block.filter (·.isLanguage)).map (·.flatLanguage.length)).foldl max 0) = width
  cases block with
  | nil => exact h
  | cons pragma more =>
    refine (headerPragma_crlf h hσ p (hblock pragma List.mem_cons_self) sourceFirst width).foldl
      fun pragma hmem _ _ hout => ?_
    exact headerPragma_crlf hout.endLine hσ p (hblock pragma (List.mem_cons_of_mem _ hmem)) sourceFirst width

theorem pragmaBlocks_crlf {blocks : List (List Pragma)} (hblocks : ∀ block ∈ blocks, ∀ p ∈ block, p.IsDelimited)
    (sourceFirst : Option Nat) :
    (p.pragmaBlocks sourceFirst blocks out).Mirrors
      ((p.crlf σ).pragmaBlocks (sourceFirst.map σ) (blocks.map (List.map (mapTokens (Token.crlf σ)))) out') := by
  cases blocks with
  | nil => exact h
  | cons block more =>
    refine (pragmaBlock_crlf h hσ p (hblocks block List.mem_cons_self) sourceFirst).foldl fun block hmem _ _ hout => ?_
    exact pragmaBlock_crlf hout.endLine.endLine hσ p (hblocks block (List.mem_cons_of_mem _ hmem)) sourceFirst

theorem header_crlf (header : Header) (withLeading : Bool) :
    (p.header header withLeading out).Mirrors
      ((p.crlf σ).header (mapTokens (Token.crlf σ) header) withLeading out') := by
  have hverbatim := verbatimWith_crlf h hσ p withLeading (tokens header)
  rw [← tokens_mapTokens] at hverbatim
  have hstart : (if withLeading then p.leading header.keyword out else out).Mirrors
      (if withLeading then (p.crlf σ).leading (header.keyword.crlf σ) out' else out') := by
    split
    · exact leading_crlf h hσ p _
    · exact h
  have hexports : (mapTokens (Token.crlf σ) header).exports = header.exports.map (mapTokens (Token.crlf σ)) := rfl
  have hhead : (mapTokens (Token.crlf σ) header).head = header.head.map (Token.crlf σ) := rfl
  have hkeyword : (mapTokens (Token.crlf σ) header).keyword = header.keyword.crlf σ := rfl
  have hwhere : (mapTokens (Token.crlf σ) header).whereKeyword = header.whereKeyword.crlf σ := rfl
  unfold Printer.header
  rw [hexports, hhead, hkeyword, hwhere]
  cases header.exports with
  | none => exact hverbatim
  | some exports =>
    have hlayout : (mapTokens (Token.crlf σ) exports).layout = exports.layout := rfl
    have hitems : (mapTokens (Token.crlf σ) exports).items = exports.items.map (mapTokens (Token.crlf σ)) := rfl
    simp only [Option.map_some, Option.bind_some, hlayout]
    cases exports.layout with
    | none => exact hverbatim
    | some layout =>
      have hline := hstart.put (intercalate_text_crlf σ header.head)
      dsimp only [Option.map_some]
      refine trailing_crlf σ (Output.Mirrors.put ?_ ?_) p header.whereKeyword true
      · cases layout with
        | singleLine =>
          refine hline.put ?_
          simp (disch := decide) only [ItemList.flat_crlf, Text.crlfString_append, crlfString_line]
        | multiLine =>
          refine itemList_crlf σ hline p exports ?_ p.indent
          rw [hitems, List.map_map, List.map_map]
          exact List.map_congr_left fun entry _ => Entry.flat_crlf σ entry
      · simp (disch := decide) only [Token.text_crlf, Text.crlfString_append, crlfString_line]

theorem importDecl_crlf (i : Import) :
    (p.importDecl i out).Mirrors ((p.crlf σ).importDecl (mapTokens (Token.crlf σ) i) out') := by
  have hverbatim := verbatimInside_crlf h hσ p (tokens i)
  rw [← tokens_mapTokens] at hverbatim
  have hhead : (mapTokens (Token.crlf σ) i).head = i.head.map (Token.crlf σ) := rfl
  have htail : (mapTokens (Token.crlf σ) i).tail = i.tail.map (Token.crlf σ) := rfl
  have hlist : (mapTokens (Token.crlf σ) i).list = i.list.map (mapTokens (Token.crlf σ)) := rfl
  have hline := h.put (intercalate_text_crlf σ i.head)
  have hbehind {out out' : Output} (hout : out.Mirrors out') :
      (if i.tail.isEmpty then out else out.put (" " ++ Token.flat i.tail)).Mirrors
        (if (i.tail.map (Token.crlf σ)).isEmpty then out'
          else out'.put (" " ++ Token.flat (i.tail.map (Token.crlf σ)))) := by
    rw [List.isEmpty_map]
    split
    · exact hout
    · exact hout.put (by simp (disch := decide) only [Token.flat_crlf, Text.crlfString_append, crlfString_line])
  unfold importDecl
  rw [isStructured_crlf, hhead, htail, hlist, lastToken_mapTokens]
  split
  · refine trailing_crlf σ (hbehind ?_) p (lastToken i) true
    cases i.list with
    | none => exact hline
    | some list =>
      have hlayout : (mapTokens (Token.crlf σ) list).layout = list.layout := rfl
      have hitems : (mapTokens (Token.crlf σ) list).items = list.items.map (mapTokens (Token.crlf σ)) := rfl
      dsimp only [Option.map_some]
      rw [hlayout, hitems, List.isEmpty_map]
      split
      · refine hline.put ?_
        simp (disch := decide) only [ItemList.flat_crlf, Text.crlfString_append, crlfString_line]
      · refine itemList_crlf σ hline p list ?_ p.indent
        rw [List.map_map, List.map_map]
        exact List.map_congr_left fun entry _ => Entry.flat_crlf σ entry
  · exact hverbatim

theorem importLine_crlf (blankLines : Nat) (i : Import) :
    (p.importLine blankLines i out).Mirrors ((p.crlf σ).importLine blankLines (mapTokens (Token.crlf σ) i) out') := by
  have hblank : ((List.replicate blankLines ()).foldl (fun out _ => out.endLine) out).Mirrors
      ((List.replicate blankLines ()).foldl (fun out _ => out.endLine) out') := by
    have := h.foldl (l := List.replicate blankLines ()) (f := fun out _ => out.endLine) (k := fun out _ => out.endLine)
      (g := id) fun _ _ _ _ hout => hout.endLine
    rwa [List.map_id] at this
  have hkeyword : (mapTokens (Token.crlf σ) i).keyword = i.keyword.crlf σ := rfl
  unfold importLine
  rw [hkeyword, Token.leading_crlf, Trivia.allCommentLines_crlf]
  exact importDecl_crlf (commentBlock_crlf σ hblank _).endLineIfStarted hσ p i

theorem importGroup_crlf (blankLines : Nat) (group : List Import) :
    (p.importGroup blankLines group out).Mirrors
      ((p.crlf σ).importGroup blankLines (group.map (mapTokens (Token.crlf σ))) out') := by
  cases group with
  | nil => exact h
  | cons i more =>
    exact (importLine_crlf h hσ p blankLines i).foldl fun i _ _ _ hout => importLine_crlf hout hσ p 0 i

end Printer

variable {σ} (hσ : StrictMono σ)
include hσ

theorem minBy_import_crlf (imports : List Import) :
    minBy (fun i : Import => i.keyword.offset) (imports.map (mapTokens (Token.crlf σ)))
      = (minBy (·.keyword.offset) imports).map (mapTokens (Token.crlf σ)) :=
  minBy_crlf hσ (j := fun i : Import => i.keyword.offset) (k := fun i : Import => i.keyword.offset) (g := mapTokens (Token.crlf σ))
    (fun i => Token.offset_crlf σ i.keyword) imports

theorem minBy_pragma_crlf (pragmas : List Pragma) :
    minBy (fun p : Pragma => p.token.offset) (pragmas.map (mapTokens (Token.crlf σ)))
      = (minBy (·.token.offset) pragmas).map (mapTokens (Token.crlf σ)) :=
  minBy_crlf hσ (j := fun p : Pragma => p.token.offset) (k := fun p : Pragma => p.token.offset) (g := mapTokens (Token.crlf σ))
    (fun p => Token.offset_crlf σ p.token) pragmas

namespace Printer

theorem blankLinesBefore_crlf (imports : List Import) :
    blankLinesBefore (imports.map (mapTokens (Token.crlf σ))) = blankLinesBefore imports := by
  unfold blankLinesBefore
  rw [minBy_import_crlf hσ]
  cases minBy (·.keyword.offset) imports with
  | none => rfl
  | some i =>
    have hleading : (mapTokens (Token.crlf σ) i).keyword.leading = Trivia.crlf σ i.keyword.leading :=
      Token.leading_crlf σ i.keyword
    simp only [Option.map_some, hleading, Trivia.commentLines_crlf, List.takeWhile_map, List.length_map,
      Function.comp_def, Trivia.isEmpty_crlf]

variable {out out' : Output} (h : out.Mirrors out') (p : Printer)
include h

theorem headerPragmas_crlf {pragmas : List Pragma} (hpragmas : ∀ p ∈ pragmas, p.IsDelimited) (withLeading : Bool) :
    (p.headerPragmas pragmas withLeading out).Mirrors
      ((p.crlf σ).headerPragmas (pragmas.map (mapTokens (Token.crlf σ))) withLeading out') := by
  have hblocks : ∀ block ∈ Pragma.blocks pragmas, ∀ p ∈ block, p.IsDelimited := by
    intro block hblock p hp
    obtain ⟨index, -, rfl⟩ := List.mem_map.1 (List.mem_of_mem_filter hblock)
    exact hpragmas p (List.mem_of_mem_filter hp)
  unfold headerPragmas
  rw [minBy_pragma_crlf hσ, Pragma.blocks_crlf σ hpragmas]
  dsimp only
  cases minBy (·.token.offset) pragmas with
  | none => exact pragmaBlocks_crlf h hσ.injective p hblocks none
  | some first =>
    have hfirst : ((some first).map (mapTokens (Token.crlf σ))).map (·.token.offset) = (some first.token.offset).map σ :=
      congrArg some (Token.offset_crlf σ first.token)
    rw [hfirst]
    refine pragmaBlocks_crlf ?_ hσ.injective p hblocks (some first.token.offset)
    dsimp only [Option.map_some]
    split
    · exact leading_crlf h hσ.injective p first.token
    · exact h

theorem importBlock_crlf (groups : List (List Import)) :
    (p.importBlock groups out).Mirrors
      ((p.crlf σ).importBlock (groups.map (List.map (mapTokens (Token.crlf σ)))) out') := by
  cases groups with
  | nil => exact h
  | cons group more =>
    have hflatten : ((group :: more).map (List.map (mapTokens (Token.crlf σ)))).flatten
        = (group :: more).flatten.map (mapTokens (Token.crlf σ)) := List.map_flatten.symm
    rw [List.map_cons] at hflatten ⊢
    rw [importBlock, importBlock, hflatten, blankLinesBefore_crlf hσ]
    exact (importGroup_crlf h hσ.injective p _ group).foldl fun group _ _ _ hout =>
      importGroup_crlf hout hσ.injective p 1 group

theorem optionalHeader_crlf (header : Option Header) :
    (match header with
      | some h => p.header h true out
      | none => out).Mirrors
    (match header.map (mapTokens (Token.crlf σ)) with
      | some h => (p.crlf σ).header h true out'
      | none => out') := by
  cases header with
  | none => exact h
  | some header => exact header_crlf h hσ.injective p header true

/--
The parts of a module are written with carriage returns as they are written without them.
-/
theorem moduleParts_crlf {m : Module} (hpragmas : ∀ p ∈ m.headerPragmas, p.IsDelimited)
    (hdeclarations : ∀ d ∈ m.declarations, d.IsPlain) :
    (p.moduleParts m out).Mirrors ((p.crlf σ).moduleParts (m.crlf σ) out') := by
  have hpragmaTokens : (m.headerPragmas.map (mapTokens (Token.crlf σ))).map (·.token)
      = (m.headerPragmas.map (·.token)).map (Token.crlf σ) := by
    rw [List.map_map, List.map_map]
    rfl
  have himportTokens : (m.crlf σ).importDecls.flatMap tokens = (m.importDecls.flatMap tokens).map (Token.crlf σ) := by
    have himports : (m.crlf σ).importDecls = m.importDecls.map (mapTokens (Token.crlf σ)) := List.map_flatten.symm
    rw [himports, flatMap_tokens_map]
  unfold moduleParts
  dsimp only
  rw [himportTokens]
  refine leading_crlf (Output.Mirrors.foldl ?_ fun d hd _ _ hout =>
    declaration_crlf hout hσ.injective p (hdeclarations d hd) true) hσ.injective p m.eof
  have hstart : (if m.pragmasNormalized then p.headerPragmas m.headerPragmas true out
        else p.verbatim (m.headerPragmas.map (·.token)) out).Mirrors
      (if m.pragmasNormalized then (p.crlf σ).headerPragmas (m.headerPragmas.map (mapTokens (Token.crlf σ))) true out'
        else (p.crlf σ).verbatim ((m.headerPragmas.map (mapTokens (Token.crlf σ))).map (·.token)) out') := by
    split
    · exact headerPragmas_crlf hσ h p hpragmas true
    · rw [hpragmaTokens]
      exact verbatim_crlf h hσ.injective p _
  have hnormalized : (m.crlf σ).importsNormalized = m.importsNormalized := rfl
  rw [hnormalized]
  split
  · exact importBlock_crlf hσ (optionalHeader_crlf hσ hstart p m.header) p m.imports
  · exact verbatim_crlf (optionalHeader_crlf hσ hstart p m.header) hσ.injective p _

end Printer

/--
A module of plain tokens that can be written with carriage returns as it is written without them.
-/
structure Module.IsPlain (m : Module) : Prop where
  newline : m.newline = .lf
  tokens : ∀ t ∈ tokens m, t.IsPlain
  pragmas : ∀ p ∈ m.headerPragmas, p.IsDelimited
  declarations : ∀ d ∈ m.declarations, d.IsPlain

omit hσ in
/--
No carriage return is written for a module of plain tokens.
-/
theorem Module.IsPlain.return_notMem {m : Module} (h : m.IsPlain) (settings : Settings) :
    '\r' ∉ ((Printer.ofModule settings m).moduleParts m (Printer.ofModule settings m).start).text.toList := by
  have hkept : Output.Kept Text.IsPlainChar fun out => out.newline = "\n" ∧ Text.Over Text.IsPlainChar out.text := by
    refine ⟨Text.alphabet_isPlainChar, fun hout => hout.1 ▸ ?_, fun _ htext hout => ⟨hout.1, hout.2.append htext⟩,
      fun _ _ hout => hout⟩
    decide
  have hstart : (Printer.ofModule settings m).start.newline = "\n" := by
    unfold Printer.start Printer.ofModule
    rw [h.newline]
    rfl
  have hout := Printer.moduleParts_kept hkept (Printer.ofModule settings m) ⟨hstart, .empty⟩ fun t ht =>
    (h.tokens t ht).characters
  exact fun hmem => (hout.2 _ hmem).2.2 rfl

/--
A module with carriage returns is written as the text that is written without them, with carriage returns.
-/
theorem Module.render_crlf {m : Module} (h : m.IsPlain) (settings : Settings) :
    ((m.crlf σ).render settings).text = Text.crlf (m.render settings).text := by
  have hprinter : Printer.ofModule settings (m.crlf σ) = (Printer.ofModule settings m).crlf σ := rfl
  have hmirrors := Printer.moduleParts_crlf hσ (Printer.mirrors_start σ (p := Printer.ofModule settings m) h.newline)
    (Printer.ofModule settings m) h.pragmas h.declarations
  have hnormalize := LineEdit.normalize_crlf (h.return_notMem settings)
    ((Printer.ofModule settings m).moduleParts m (Printer.ofModule settings m).start).shielded.reverse
  have hnewline : (m.crlf σ).newline = .crlf := rfl
  have hreturns : Newline.crlf.text.toList = ['\r', '\n'] := by decide
  have hfeed : Newline.lf.text.toList = ['\n'] := by decide
  rw [List.map_reverse] at hnormalize
  unfold render
  dsimp only
  rw [hprinter, hmirrors.text, hmirrors.shielded, Text.toList_crlfString, h.newline, hnewline, hreturns, hfeed]
  exact hnormalize

end HaskellStyle

namespace HaskellStyle

open Text (crlfString)

variable (σ : Nat → Nat)

theorem Token.textBetween_crlf (ts : List Token) : textBetween (ts.map (Token.crlf σ)) = crlfString (textBetween ts) := by
  fun_induction textBetween ts with
  | case1 => exact Text.crlfString_empty.symm
  | case2 t => exact Token.text_crlf σ t
  | case3 t u more ih =>
    rw [List.map_cons] at ih
    rw [List.map_cons, List.map_cons, textBetween, ih]
    simp only [Token.text_crlf, Token.trailing_crlf, Token.leading_crlf, Trivia.text_crlf, Text.crlfString_append]

theorem Token.sourceThroughComments_crlf (ts : List Token) :
    sourceThroughComments (ts.map (Token.crlf σ)) = crlfString (sourceThroughComments ts) := by
  unfold sourceThroughComments
  rw [List.getLast?_map]
  cases ts.getLast? with
  | none => exact Text.crlfString_empty.symm
  | some last =>
    have hbehind : ((Trivia.crlf σ last.trailing).reverse.dropWhile (!·.isComment)).reverse
        = Trivia.crlf σ (last.trailing.reverse.dropWhile (!·.isComment)).reverse := by
      simp only [Trivia.crlf, ← List.map_reverse, List.dropWhile_map, Function.comp_def, TriviaPiece.isComment_crlf]
    dsimp only [Option.map_some]
    rw [Token.trailing_crlf, hbehind, textBetween_crlf, Trivia.text_crlf, Text.crlfString_append]

theorem rewritesSource_crlf (before : List Token) (oldText newText : String) :
    rewritesSource (before.map (Token.crlf σ)) (crlfString oldText) (crlfString newText)
      = rewritesSource before oldText newText := by
  rw [rewritesSource, Token.sourceThroughComments_crlf, Text.crlfString_bne, Text.crlfString_bne, rewritesSource]

namespace Printer

variable {σ} (hσ : Function.Injective σ) {p : Printer} (hp : p.newline = .lf)
include hσ hp

theorem headerText_crlf (h : Header) :
    (p.crlf σ).headerText (mapTokens (Token.crlf σ) h) = crlfString (p.headerText h) :=
  (header_crlf (mirrors_start σ hp) hσ p h false).text

theorem declarationText_crlf {d : Declaration} (hd : d.IsPlain) :
    (p.crlf σ).declarationText (mapTokens (Token.crlf σ) d) = crlfString (p.declarationText d) :=
  (declaration_crlf (mirrors_start σ hp) hσ p hd false).text

end Printer

namespace Notes

theorem fixes_count (key : String) (amount : Nat) (notes : Notes) : (notes.count key amount).fixes = notes.fixes :=
  rfl

theorem fixes_fixed (settings : Settings) (fix : String) (d : Diagnostic) (notes : Notes) :
    (notes.fixed settings fix d).fixes = if notes.fixes.contains fix then notes.fixes else notes.fixes ++ [fix] := by
  unfold fixed report count
  dsimp only
  split <;> rfl

/--
Steps that each note the same fixes note the same fixes together.
-/
theorem foldl_fixes {α β : Type} {note : Notes → α → Notes} {note' : Notes → β → Notes} {g : α → β} {l : List α}
    (hstep : ∀ x ∈ l, ∀ {notes notes' : Notes}, notes'.fixes = notes.fixes → (note' notes' (g x)).fixes = (note notes x).fixes)
    {notes notes' : Notes} (h : notes'.fixes = notes.fixes) :
    ((l.map g).foldl note' notes').fixes = (l.foldl note notes).fixes := by
  induction l generalizing notes notes' with
  | nil => exact h
  | cons x l ih =>
    exact ih (fun y hy => hstep y (List.mem_cons_of_mem x hy)) (hstep x List.mem_cons_self h)

end Notes

/--
What is compared of the results of a rule: the module and the names of the fixes.
-/
def RuleResult.outcome (r : RuleResult) : Module × List String :=
  (r.module, r.notes.fixes)

/--
The outcome with carriage returns in the module.
-/
def RuleResult.crlfOutcome (r : RuleResult) : Module × List String :=
  (r.module.crlf σ, r.notes.fixes)

end HaskellStyle
