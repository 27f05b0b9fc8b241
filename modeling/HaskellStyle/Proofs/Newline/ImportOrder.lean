import HaskellStyle.Proofs.Newline.Render
import HaskellStyle.Proofs.Rule.Printable

/-!
This module contains the rule for imports on modules with carriage returns. Imports are compared by names, which have one
line, and by texts, whose order carriage returns keep.
-/

namespace HaskellStyle

open Text (crlfString)

variable (σ : Nat → Nat)

/--
An import of plain tokens.
-/
def Import.IsPlain (i : Import) : Prop :=
  ∀ t ∈ tokens i, t.IsPlain

namespace Import

variable (i : Import)

theorem words_crlf : (mapTokens (Token.crlf σ) i).words = i.words.map (Token.crlf σ) := rfl

theorem head_crlf : (mapTokens (Token.crlf σ) i).head = i.head.map (Token.crlf σ) := rfl

@[simp] theorem isQualified_crlf : (mapTokens (Token.crlf σ) i).isQualified = i.isQualified := by
  unfold isQualified
  rw [head_crlf, List.any_map]
  simp only [Function.comp_def, Token.text_crlf, Text.crlfString_beq (w := "qualified") (by decide)]

theorem spacedText_crlf : (mapTokens (Token.crlf σ) i).spacedText = crlfString i.spacedText := by
  rw [spacedText, tokens_mapTokens, intercalate_text_crlf, spacedText]

theorem moduleName_crlf : (mapTokens (Token.crlf σ) i).moduleName = crlfString i.moduleName := by
  unfold moduleName moduleName?
  rw [words_crlf, List.find?_map]
  simp only [Function.comp_def, Token.kind_crlf]
  cases i.words.find? fun t => t.kind = .conId || t.kind = .qualifiedConId with
  | none => exact Text.crlfString_empty.symm
  | some t => exact Token.text_crlf σ t

variable {i} (h : i.IsPlain)
include h

/--
The name of a module has one line.
-/
theorem crlfString_moduleName : crlfString i.moduleName = i.moduleName := by
  unfold moduleName moduleName?
  cases hname : i.words.find? fun t => t.kind = .conId || t.kind = .qualifiedConId with
  | none => exact Text.crlfString_empty
  | some t =>
    have hkind : t.kind = .conId ∨ t.kind = .qualifiedConId := by
      simpa using List.find?_some hname
    have hmem : t ∈ tokens i :=
      List.mem_append_left _ (List.mem_append_left _ (List.mem_cons_of_mem _ (List.mem_of_find?_eq_some hname)))
    exact Token.crlfString_text ((h t hmem).isMultiline_eq_false (by grind) (by grind) (by grind))

theorem over_spacedText : Text.IsPlain i.spacedText.toList :=
  Token.over_words Text.alphabet_isPlainChar fun t ht => (h t ht).characters.text

end Import

namespace ImportOrder

theorem moduleRoot_crlf (name : String) : moduleRoot (crlfString name) = Text.crlf (moduleRoot name) := by
  rw [moduleRoot, Text.toList_crlfString, Text.takeWhile_crlf (by decide), moduleRoot]

theorem isLocal_crlf (settings : Settings) (current : Option String) {i : Import} (h : i.IsPlain) :
    isLocal settings (current.map crlfString) (mapTokens (Token.crlf σ) i) = isLocal settings current i := by
  have hname := Import.crlfString_moduleName h
  have hroot (current : String) : (moduleRoot i.moduleName == moduleRoot (crlfString current))
      = (moduleRoot i.moduleName == moduleRoot current) := by
    conv => lhs; rw [← hname]
    rw [moduleRoot_crlf, moduleRoot_crlf, Text.crlf_injective.beq_eq]
  unfold isLocal
  rw [Import.moduleName_crlf, hname]
  dsimp only
  congr 1
  cases current with
  | none => rfl
  | some current =>
    have hempty : (crlfString current != "") = (current != "") := congrArg (!·) (Text.crlfString_beq (by decide))
    have hmain : (crlfString current != "Main") = (current != "Main") := congrArg (!·) (Text.crlfString_beq (by decide))
    simp only [Option.map_some, Option.any_some, hempty, hmain, hroot]

theorem importLe_crlf {a b : Import} (ha : a.IsPlain) (hb : b.IsPlain) :
    importLe (mapTokens (Token.crlf σ) a) (mapTokens (Token.crlf σ) b) = importLe a b := by
  unfold importLe
  simp only [Import.moduleName_crlf, Import.crlfString_moduleName ha, Import.crlfString_moduleName hb,
    Import.isQualified_crlf, Import.spacedText_crlf,
    Text.crlfString_le (Import.over_spacedText ha) (Import.over_spacedText hb)]

theorem isMovable_crlf (i : Import) : isMovable (mapTokens (Token.crlf σ) i) = isMovable i := by
  have hkeyword : (mapTokens (Token.crlf σ) i).keyword = i.keyword.crlf σ := rfl
  have hmark : (Trivia.crlf σ i.keyword.leading).any (·.kind = .byteOrderMark)
      = i.keyword.leading.any (·.kind = .byteOrderMark) := by
    simp only [Trivia.crlf, List.any_map, Function.comp_def, TriviaPiece.kind_crlf]
  unfold isMovable
  rw [hkeyword, Token.leading_crlf]
  dsimp only
  rw [hmark, Trivia.splitLines_crlf]
  dsimp only
  rw [Trivia.hasComments_crlf]

variable (settings : Settings)

theorem groups_crlf {m : Module} (hm : ∀ i ∈ m.importDecls, i.IsPlain) :
    groups settings (m.crlf σ) = (groups settings m).map (·.map (mapTokens (Token.crlf σ))) := by
  have hname : (m.crlf σ).name? = m.name?.map crlfString := by
    show (m.header.map (mapTokens (Token.crlf σ))).map (·.name.text) = (m.header.map (·.name.text)).map crlfString
    rw [Option.map_map, Option.map_map]
    exact congrArg (Option.map · m.header) (funext fun h => Token.text_crlf σ h.name)
  have hlocal {p : Bool → Bool} : (m.crlf σ).importDecls.filter (fun i => p (isLocal settings (m.crlf σ).name? i))
      = (m.importDecls.filter fun i => p (isLocal settings m.name? i)).map (mapTokens (Token.crlf σ)) := by
    rw [Module.importDecls_crlf, List.filter_map, hname]
    exact congrArg _ (List.filter_congr fun i hi => congrArg p (isLocal_crlf σ settings _ (hm i hi)))
  have hsort {p : Import → Bool} : ((m.importDecls.filter p).map (mapTokens (Token.crlf σ))).mergeSort importLe
      = ((m.importDecls.filter p).mergeSort importLe).map (mapTokens (Token.crlf σ)) :=
    (List.map_mergeSort fun a ha b hb => (importLe_crlf σ (hm a (List.mem_of_mem_filter ha))
      (hm b (List.mem_of_mem_filter hb))).symm).symm
  unfold groups
  rw [List.partition_eq_filter_filter, List.partition_eq_filter_filter]
  dsimp only
  rw [← filter_isEmpty_map, List.map_map]
  congr 1
  refine List.map_congr_left fun origin _ => ?_
  cases origin with
  | external =>
    have := hlocal (p := not)
    exact (congrArg (·.mergeSort importLe) this).trans hsort
  | internal =>
    have := hlocal (p := id)
    exact (congrArg (·.mergeSort importLe) this).trans hsort

theorem offsets_crlf (groups : List (List Import)) :
    offsets (groups.map (·.map (mapTokens (Token.crlf σ)))) = (offsets groups).map (·.map σ) := by
  have hoffset (i : Import) : (mapTokens (Token.crlf σ) i).keyword.offset = σ i.keyword.offset :=
    Token.offset_crlf σ i.keyword
  simp only [offsets, List.map_map, Function.comp_def, hoffset]

variable {settings}

theorem isPlain_importDecls {m : Module} (hm : m.IsPlain) : ∀ i ∈ m.importDecls, i.IsPlain := by
  intro i hi t ht
  obtain ⟨hparts, -⟩ := List.forall_mem_append.1 hm.tokens
  obtain ⟨hparts, -⟩ := List.forall_mem_append.1 hparts
  obtain ⟨-, himports⟩ := List.forall_mem_append.1 hparts
  obtain ⟨group, hgroup, hi⟩ := List.mem_flatten.1 hi
  exact himports t (List.mem_flatMap.2 ⟨group, hgroup, List.mem_flatMap.2 ⟨i, hi, ht⟩⟩)

theorem isPlain_regrouped {m : Module} (hm : m.IsPlain) :
    { m with imports := groups settings m, importsNormalized := true : Module }.IsPlain where
  newline := hm.newline
  pragmas := hm.pragmas
  declarations := hm.declarations
  tokens := by
    obtain ⟨hparts, heof⟩ := List.forall_mem_append.1 hm.tokens
    obtain ⟨hparts, hdeclarations⟩ := List.forall_mem_append.1 hparts
    obtain ⟨hbefore, -⟩ := List.forall_mem_append.1 hparts
    have himports : ∀ t ∈ (groups settings m).flatMap (·.flatMap tokens), t.IsPlain := by
      intro t ht
      obtain ⟨group, hgroup, ht⟩ := List.mem_flatMap.1 ht
      obtain ⟨i, hi, ht⟩ := List.mem_flatMap.1 ht
      exact isPlain_importDecls hm i (mem_importDecls_of_mem_groups hgroup hi) t ht
    exact List.forall_mem_append.2 ⟨List.forall_mem_append.2 ⟨List.forall_mem_append.2
      ⟨hbefore, himports⟩, hdeclarations⟩, heof⟩

/--
The rule regroups the imports of a module with carriage returns as it does without them.
-/
theorem apply_crlf {σ : Nat → Nat} (hσ : StrictMono σ) {m : Module} (hm : m.IsPlain) :
    (apply settings (m.crlf σ)).outcome = (apply settings m).crlfOutcome σ := by
  have hgroups := groups_crlf σ settings (isPlain_importDecls hm)
  have hreorderable : (m.crlf σ).importsReorderable = m.importsReorderable := rfl
  have hnormalized : (m.crlf σ).importsNormalized = m.importsNormalized := rfl
  have hoffsets : offsets (m.crlf σ).imports ≠ offsets (groups settings (m.crlf σ))
      ↔ offsets m.imports ≠ offsets (groups settings m) := by
    have himports : (m.crlf σ).imports = m.imports.map (·.map (mapTokens (Token.crlf σ))) := rfl
    rw [hgroups, himports, offsets_crlf, offsets_crlf, Ne,
      (List.map_injective_iff.2 (List.map_injective_iff.2 hσ.injective)).eq_iff]
  have hmodule : { m.crlf σ with imports := groups settings (m.crlf σ), importsNormalized := true : Module }
      = Module.crlf σ { m with imports := groups settings m, importsNormalized := true } := by
    rw [hgroups]
    rfl
  have hrender : ((m.crlf σ).render settings).text
        ≠ (Module.render settings { m.crlf σ with imports := groups settings (m.crlf σ), importsNormalized := true }).text
      ↔ (m.render settings).text
        ≠ (Module.render settings { m with imports := groups settings m, importsNormalized := true }).text := by
    rw [hmodule, Module.render_crlf hσ hm, Module.render_crlf hσ (isPlain_regrouped hm), Ne, Text.crlf_inj]
  simp only [hreorderable] at hrender
  unfold apply
  dsimp only
  rw [Module.importDecls_crlf, minBy_import_crlf hσ]
  cases m.importDecls with
  | nil => rfl
  | cons first more =>
    cases minBy (fun i : Import => i.keyword.offset) (first :: more) with
    | none => rfl
    | some sourceFirst =>
      simp only [Option.map_some, List.map_cons, hreorderable, isMovable_crlf]
      split
      · refine Prod.ext hmodule ?_
        simp only [RuleResult.outcome, RuleResult.crlfOutcome, hrender, hnormalized, hoffsets]
        split
        · rw [Notes.fixes_count, Notes.fixes_count, Notes.fixes_fixed, Notes.fixes_fixed]
        · split
          · rw [Notes.fixes_fixed, Notes.fixes_fixed]
          · rfl
      · rfl

end ImportOrder

end HaskellStyle
