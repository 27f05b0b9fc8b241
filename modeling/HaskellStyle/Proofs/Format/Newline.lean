import HaskellStyle.Format
import HaskellStyle.Proofs.Newline.Align
import HaskellStyle.Proofs.Newline.Deriving
import HaskellStyle.Proofs.Newline.ImportOrder
import HaskellStyle.Proofs.Newline.Indent
import HaskellStyle.Proofs.Newline.Pragma
import HaskellStyle.Proofs.Newline.PragmaOrder
import HaskellStyle.Proofs.Newline.Source

/-!
This module contains that line ends do not matter for the formatter. The module of a plain text is plain, every rule
leaves it plain, and makes of it with carriage returns what it makes of it without them. So a text with carriage returns
before its line feeds is formatted exactly if the text without them is, into the same text with carriage returns and with
the same fixes. Only the control characters that sort between the two are left out, since imports and pragmas are sorted
by their texts.
-/

namespace HaskellStyle

namespace Declaration

/--
What holds of a declaration before it is laid out: pragmas are tokens of their kind, and data declarations have no
layout.
-/
def IsUnlaid : Declaration → Prop
  | .pragma p => p.token.kind = .pragma
  | .data d => d.layout = none
  | .importing _ | .signature _ | .clause _ _ | .raw _ => True

theorem isUnlaid_ofRun (run : Run Block) : (ofRun run).IsUnlaid := by
  unfold ofRun ofBinding
  dsimp only
  split
  · split <;> exact trivial
  · split
    · next hpragma =>
      have hkind : run.first.kind = .pragma := of_decide_eq_true (Bool.and_eq_true_iff.1 hpragma).1
      exact hkind
    · split
      · split
        · next d hd =>
          obtain ⟨ts, -, hd⟩ := Option.bind_eq_some_iff.1 hd
          simp only [DataDecl.ofTokens?, Option.bind_eq_bind] at hd
          obtain ⟨⟨head, equals, rest⟩, -, hd⟩ := Option.bind_eq_some_iff.1 hd
          split at hd
          · cases hd
          · obtain ⟨first, -, hd⟩ := Option.bind_eq_some_iff.1 hd
            obtain ⟨others, -, hd⟩ := Option.bind_eq_some_iff.1 hd
            obtain ⟨derivings, -, hd⟩ := Option.bind_eq_some_iff.1 hd
            cases hd
            rfl
        · exact trivial
      · split
        · exact trivial
        · split
          · exact trivial
          · split <;> exact trivial

theorem IsUnlaid.isPlain {d : Declaration} (h : d.IsUnlaid) (hplain : ∀ t ∈ tokens d, t.IsPlain)
    (hoffsets : ((tokens d).map (·.offset)).Nodup) : d.IsPlain := by
  cases d with
  | pragma p => exact Pragma.isDelimited_of_isPlain (hplain p.token List.mem_cons_self) h p.pinned
  | data d =>
    have hlayout : d.layout = none := h
    exact ⟨hoffsets, by simp [hlayout], by simp [hlayout], by simp [hlayout]⟩
  | importing | signature | clause | raw => exact trivial

end Declaration

namespace Module

variable {settings : Settings}

/--
The module of a plain text is plain.
-/
theorem isPlain_of_read {text : List Char} {m : Module} (hplain : Text.IsPlain text) (h : read text = .ok m) :
    m.IsPlain := by
  have hordered := (asRead_of_read h).ordered
  have htokens : ∀ t ∈ tokens m, t.IsPlain := by
    obtain ⟨stream, hstream, htokens, -⟩ := tokens_of_read h
    rw [htokens]
    exact TokenStream.isPlain_of_ofText hplain hstream
  refine ⟨?_, htokens, ?_, ?_⟩ <;> obtain ⟨stream, header, rest, ds, -, -, hbody, rfl⟩ := read_eq_ok h
  · exact newlineOf_of_isPlain hplain
  · intro p hp
    obtain ⟨hparts, -⟩ := List.forall_mem_append.1 htokens
    obtain ⟨hparts, -⟩ := List.forall_mem_append.1 hparts
    obtain ⟨hparts, -⟩ := List.forall_mem_append.1 hparts
    obtain ⟨hpragmas, -⟩ := List.forall_mem_append.1 hparts
    have htoken := hpragmas p.token (List.mem_map_of_mem hp)
    obtain ⟨t, ht, rfl⟩ := List.mem_map.1 hp
    have hheader := List.all_eq_true.1 List.all_takeWhile t ht
    exact Pragma.isDelimited_of_isPlain htoken (by simpa using (Bool.and_eq_true_iff.1 hheader).1) false
  · intro d hd
    have hmem : d ∈ ds := by
      rw [splitImports_eq ds]
      exact List.mem_append_right _ hd
    have hunlaid : d.IsUnlaid := by
      unfold readBody at hbody
      split at hbody
      · cases hbody
        cases hmem
      · split at hbody
        · cases hbody
          rw [List.mem_singleton.1 hmem]
          exact trivial
        · obtain ⟨runs, -, rfl⟩ := map_eq_ok hbody
          obtain ⟨run, -, rfl⟩ := List.mem_map.1 hmem
          exact Declaration.isUnlaid_ofRun run
    have hsublist : (HasTokens.tokens d).Sublist (HasTokens.tokens (assemble text stream header ds)) :=
      ((List.sublist_flatten_of_mem (List.mem_map_of_mem hd)).trans (List.sublist_append_right _ _)).trans
        (List.sublist_append_left _ _)
    refine hunlaid.isPlain (fun t ht => htokens t (hsublist.subset ht)) ?_
    exact (List.pairwise_map.2 (hordered.sublist hsublist)).imp Nat.ne_of_lt

/--
Every rule leaves a module plain.
-/
theorem isPlain_apply {m : Module} {rule : Rule} {result : RuleResult} (h : rule.apply settings m = .ok result)
    (hm : m.IsPlain) : result.module.IsPlain := by
  have htokens (hrule : rule ≠ .importOrder) : ∀ t ∈ tokens result.module, t.IsPlain := fun t ht =>
    hm.tokens t ((keepsTokens_apply hrule h).tokens_perm.subset ht)
  cases rule with
  | indentation =>
    cases h
    obtain ⟨placements, hmodule⟩ := Indent.module_apply settings m
    rw [hmodule]
    exact ⟨hm.newline, hm.tokens, hm.pragmas, hm.declarations⟩
  | alignment =>
    have hds := Align.isPlain_apply h hm.declarations
    obtain ⟨ds, -, hmodule⟩ := Align.apply_ok h
    refine ⟨?_, htokens (by decide), ?_, hds⟩
    · rw [hmodule]
      exact hm.newline
    · rw [hmodule]
      exact hm.pragmas
  | importOrder =>
    cases h
    rw [ImportOrder.module_apply]
    split
    · exact ImportOrder.isPlain_regrouped hm
    · exact hm
  | pragmaPlacement =>
    cases h
    obtain ⟨pragmas, ds, normalized, hmodule, hpragmas, hds⟩ := PragmaOrder.module_apply settings m
    rw [hmodule] at htokens ⊢
    refine ⟨hm.newline, htokens (by decide), fun p hp => hm.pragmas p (hpragmas.subset hp), ?_⟩
    rcases hds with rfl | rfl
    · exact hm.declarations
    · exact PragmaOrder.isPlain_pin hm.declarations
  | strictnessDeriving =>
    cases h
    exact ⟨hm.newline, htokens (by decide), hm.pragmas,
      DerivingFormat.isPlain_declarations settings _ hm.declarations _⟩
  | naming =>
    rw [Names.module_apply h]
    exact hm

theorem isPlain_applyRules {m : Module} {ruled : RuledModule} (h : applyRules settings m = .ok ruled)
    (hm : m.IsPlain) : ruled.module.IsPlain := by
  have hafter : m.afterRules settings Rule.all = .ok ruled.module := by
    unfold applyRules at h
    unfold afterRules
    split at h
    next results failure hrun =>
    rw [hrun]
    cases failure with
    | some e => cases h
    | none =>
      cases h
      rfl
  exact afterRules_induction (fun rule _ m₁ result => isPlain_apply) hafter hm

end Module

namespace Rule

variable (settings : Settings) {σ : Nat → Nat} (hσ : StrictMono σ)
include hσ

theorem apply_crlf (rule : Rule) {m : Module} (hm : m.IsPlain) :
    (rule.apply settings (m.crlf σ)).map RuleResult.outcome = (rule.apply settings m).map (RuleResult.crlfOutcome σ) := by
  cases rule with
  | indentation =>
    obtain ⟨hmodule, hfixes⟩ := Indent.apply_crlf hσ.injective settings m
    exact congrArg Except.ok (Prod.ext hmodule hfixes)
  | alignment => exact Align.apply_crlf hσ.injective settings hm
  | importOrder => exact congrArg Except.ok (ImportOrder.apply_crlf hσ hm)
  | pragmaPlacement =>
    exact congrArg Except.ok (PragmaOrder.apply_crlf settings hσ hm.newline hm.pragmas hm.declarations)
  | strictnessDeriving => exact congrArg Except.ok (DerivingFormat.apply_crlf settings hσ.injective hm)
  | naming =>
    -- Whether the patterns can be read does not depend on the module.
    simp only [apply, Names.apply, Names.advice]
    cases Names.patterns settings.naming <;> rfl

/--
Rules applied one after the other to a module with carriage returns have the outcomes that they have without them, and
the first failure.
-/
theorem applyAll_crlf (rules : List Rule) {m : Module} (hm : m.IsPlain) :
    (applyAll settings (m.crlf σ) rules).1.map (fun r => r.2.outcome)
        = (applyAll settings m rules).1.map (fun r => r.2.crlfOutcome σ)
      ∧ (applyAll settings (m.crlf σ) rules).2 = (applyAll settings m rules).2 := by
  induction rules generalizing m with
  | nil => exact ⟨rfl, rfl⟩
  | cons rule more ih =>
    have hrule := apply_crlf settings hσ rule hm
    unfold applyAll
    cases hwithout : rule.apply settings m with
    | error e =>
      rw [hwithout] at hrule
      cases hwith : rule.apply settings (m.crlf σ) with
      | error e' =>
        rw [hwith] at hrule
        cases hrule
        exact ⟨rfl, rfl⟩
      | ok result' =>
        rw [hwith] at hrule
        cases hrule
    | ok result =>
      rw [hwithout] at hrule
      cases hwith : rule.apply settings (m.crlf σ) with
      | error e' =>
        rw [hwith] at hrule
        cases hrule
      | ok result' =>
        rw [hwith] at hrule
        have houtcome : result'.outcome = result.crlfOutcome σ := Except.ok.inj hrule
        have hmodule : result'.module = result.module.crlf σ := congrArg Prod.fst houtcome
        obtain ⟨hothers, hfailure⟩ := ih (Module.isPlain_apply hwithout hm)
        dsimp only
        rw [hmodule]
        exact ⟨congrArg₂ List.cons houtcome hothers, hfailure⟩

end Rule

namespace Module

variable (settings : Settings) {σ : Nat → Nat} {m : Module} (hm : m.IsPlain)
include hm

/--
All rules together make of a module with carriage returns what they make of it without them, and note the same fixes.
-/
theorem applyRules_crlf (hσ : StrictMono σ) :
    (applyRules settings (m.crlf σ)).map (fun r => (r.module, r.fixes))
      = (applyRules settings m).map fun r => (r.module.crlf σ, r.fixes) := by
  obtain ⟨hresults, hfailure⟩ := Rule.applyAll_crlf settings hσ Rule.all hm
  unfold applyRules
  generalize Rule.applyAll settings (m.crlf σ) Rule.all = run' at hresults hfailure
  generalize Rule.applyAll settings m Rule.all = run at hresults hfailure
  obtain ⟨results', failure'⟩ := run'
  obtain ⟨results, failure⟩ := run
  dsimp only at hresults hfailure ⊢
  subst hfailure
  cases failure' with
  | some e => rfl
  | none =>
    have hlast := congrArg List.getLast? hresults
    have hfixes := congrArg (fun outcomes => (List.flatMap Prod.snd outcomes).eraseDups) hresults
    rw [List.getLast?_map, List.getLast?_map] at hlast
    simp only [List.flatMap_map] at hfixes
    refine congrArg Except.ok (Prod.ext ?_ hfixes)
    cases hwith : results'.getLast? <;> cases hwithout : results.getLast? <;> rw [hwith, hwithout] at hlast
    · rfl
    · cases hlast
    · cases hlast
    · rw [Option.map_some, Option.map_some] at hlast
      have hmodule := congrArg Prod.fst (Option.some.inj hlast)
      exact hmodule

end Module

end HaskellStyle

namespace HaskellStyle.Format

variable (settings : Settings)

theorem text_crlf {cs : List Char} (hnewline : '\n' ∈ cs) (hplain : Text.IsPlain cs) :
    (text settings (Text.crlf cs)).toOption.map (fun f => (f.text, f.fixes))
      = (text settings cs).toOption.map fun f => (Text.crlf f.text, f.fixes) := by
  have hσ := Text.strictMono_crlfOffset cs
  unfold text
  rw [toOption_bind, toOption_bind, toOption_mapError, toOption_mapError, Module.parse_crlf hnewline hplain]
  cases hparse : (Module.parse cs).toOption with
  | none => rfl
  | some m =>
    have hm : m.IsPlain := Module.isPlain_of_read hplain (Module.read_of_parse (toOption_eq_some hparse))
    have hruled := congrArg Except.toOption (Module.applyRules_crlf settings hm hσ)
    rw [toOption_map, toOption_map] at hruled
    rw [Option.map_some, Option.bind_some, Option.bind_some, toOption_bind, toOption_bind, toOption_mapError,
      toOption_mapError]
    cases hwithout : (m.applyRules settings).toOption with
    | none =>
      rw [hwithout, Option.map_none, Option.map_eq_none_iff] at hruled
      rw [hruled]
      rfl
    | some ruled =>
      rw [hwithout, Option.map_some] at hruled
      obtain ⟨ruled', hwith, houtcome⟩ := Option.map_eq_some_iff.1 hruled
      obtain ⟨hmodule, hfixes⟩ := Prod.mk.inj houtcome
      have hplained := Module.isPlain_applyRules (toOption_eq_some hwithout) hm
      have hrender := Module.render_crlf hσ hplained settings
      rw [hwith]
      simp only [Option.bind_some, toOption_pure, Option.map_some, hmodule, hfixes, hrender]

/--
A source that has line feeds, but no carriage return, vertical tab or form feed, is formatted with a carriage return
before every line feed exactly if it is without, into the text with carriage returns and with the same fixes.
-/
theorem source_crlf (path : Option String) {s : Source}
    (h : ∀ cs, s.decode = .ok cs → '\n' ∈ cs ∧ Text.IsPlain cs) :
    (source settings false path s.crlf).toOption.map (fun f => (f.text, f.fixes))
      = (source settings false path s).toOption.map fun f => (Text.crlf f.text, f.fixes) := by
  have hsource (s : Source) : (source settings false path s).toOption
      = s.decode.toOption.bind fun cs => (text settings cs).toOption := by
    unfold source
    rw [toOption_bind, toOption_mapError]
    refine congrArg _ (funext fun cs => ?_)
    cases text settings cs <;> rfl
  rw [hsource, hsource, Source.decode_crlf]
  cases hdecode : s.decode with
  | error e => rfl
  | ok cs =>
    obtain ⟨hnewline, hplain⟩ := h cs hdecode
    exact text_crlf settings hnewline hplain

/--
A module whose imports are sorted, with a comment and a string of several lines and a blank line too many.
-/
theorem source_crlf_imports :
    (∀ cs, (Source.text "import B\nimport A -- c\n\n\n\nf = \"a\\\n  \\b\"\n".toList).decode = .ok cs
        → '\n' ∈ cs ∧ Text.IsPlain cs)
      ∧ (source {} false none (Source.text "import B\nimport A -- c\n\n\n\nf = \"a\\\n  \\b\"\n".toList).crlf).toOption.map
          (fun f => (f.text, f.fixes))
        = (source {} false none (Source.text "import B\nimport A -- c\n\n\n\nf = \"a\\\n  \\b\"\n".toList)).toOption.map
          fun f => (Text.crlf f.text, f.fixes) := by
  have h : ∀ cs, (Source.text "import B\nimport A -- c\n\n\n\nf = \"a\\\n  \\b\"\n".toList).decode = .ok cs
      → '\n' ∈ cs ∧ Text.IsPlain cs := by
    intro cs hcs
    cases hcs
    decide
  exact ⟨h, source_crlf {} none h⟩

end HaskellStyle.Format
