import HaskellStyle.Print.Header
import HaskellStyle.Proofs.Module.Read
import HaskellStyle.Proofs.Token.Directive
import HaskellStyle.Proofs.Token.Region

/-!
This module contains the directives and tokens of a module in the order in which they are written. A module that was
just read has them in the order of its text.
-/

namespace HaskellStyle

namespace Module

/--
The directives and tokens of header pragmas. In normal form the trivia before the pragma that comes first in the source
stay before all of them.
-/
def pragmaEvents (normalized : Bool) (pragmas : List Pragma) : List Event :=
  if normalized then
    match minBy (·.token.offset) pragmas with
    | none => []
    | some first =>
      first.token.leading.directives.map .directive
        ++ pragmas.flatMap fun p =>
          if p.token.offset = first.token.offset then p.token.eventsInside else p.token.events
  else
    Event.ofTokens (pragmas.map (·.token))

/--
The directives and tokens of a module as they are written.
-/
def events (m : Module) : List Event :=
  pragmaEvents m.pragmasNormalized m.headerPragmas ++ Event.ofTokens ((m.header.map tokens).getD [])
    ++ Event.ofTokens (m.importDecls.flatMap tokens) ++ Event.ofTokens (m.declarations.flatMap tokens)
    ++ Event.ofTokens [m.eof]

theorem minBy_eq_none {α : Type} {key : α → Nat} {xs : List α} (h : minBy key xs = none) : xs = [] := by
  cases xs with
  | nil => rfl
  | cons x xs =>
    rw [minBy] at h
    cases hmin : minBy key xs with
    | none =>
      rw [hmin] at h
      cases h
    | some y =>
      rw [hmin] at h
      dsimp only at h
      split at h <;> cases h

theorem tokensOf_pragmaEvents (normalized : Bool) (pragmas : List Pragma) :
    Event.tokensOf (pragmaEvents normalized pragmas) = pragmas.map (·.token) := by
  cases normalized with
  | false => exact Event.tokensOf_ofTokens _
  | true =>
    rw [pragmaEvents, if_pos rfl]
    split
    · next hmin =>
      rw [minBy_eq_none hmin]
      rfl
    · next first hmin =>
      clear hmin
      rw [Event.tokensOf_append, Event.tokensOf_map_directive, List.nil_append]
      induction pragmas with
      | nil => rfl
      | cons p pragmas ih =>
        rw [List.flatMap_cons, Event.tokensOf_append, ih, List.map_cons]
        split
        · rw [Event.tokensOf_eventsInside]
          rfl
        · rw [Event.tokensOf_events]
          rfl

theorem tokens_eq_append (m : Module) :
    tokens m = m.headerPragmas.map (·.token) ++ (m.header.map tokens).getD [] ++ m.importDecls.flatMap tokens
      ++ m.declarations.flatMap tokens ++ [m.eof] := by
  rw [importDecls, List.flatten_eq_flatMap, List.flatMap_assoc]
  rfl

/--
A module has the tokens that it is written with.
-/
theorem tokensOf_events (m : Module) : Event.tokensOf m.events = tokens m := by
  simp only [events, Event.tokensOf_append, tokensOf_pragmaEvents, Event.tokensOf_ofTokens, tokens_eq_append]

/--
What reading makes sure of: the tokens stand one behind the other, no directive stands behind a token on its line,
and imports with directives are not to be reordered.
-/
structure AsRead (m : Module) : Prop where
  pragmasNormalized : m.pragmasNormalized = false
  ordered : (tokens m).Pairwise fun t u => t.offset < u.offset
  trailing : ∀ t ∈ tokens m, t.trailing.hasDirective = false
  imports : m.importsReorderable → ∀ t ∈ m.importDecls.flatMap tokens, t.leading.hasDirective = false

theorem asRead_of_read {text : List Char} {m : Module} (h : read text = .ok m) : m.AsRead := by
  obtain ⟨stream, hstream, htokens, -⟩ := tokens_of_read h
  constructor
  case ordered =>
    rw [htokens]
    exact TokenStream.pairwise_offset hstream
  case trailing =>
    rw [htokens]
    exact fun t => TokenStream.hasDirective_trailing hstream
  all_goals
    obtain ⟨stream, header, rest, ds, -, -, -, rfl⟩ := read_eq_ok h
  case pragmasNormalized => rfl
  case imports =>
    intro hreorderable t ht
    have hnone := (Bool.and_eq_true_iff.1 hreorderable).1
    rw [importDecls, show (assemble text stream header ds).imports = groupImports (splitImports ds).1 from rfl,
      flatten_groupImports] at ht
    obtain ⟨i, hi, ht⟩ := List.mem_flatMap.1 ht
    rw [Bool.not_eq_true', List.any_eq_false] at hnone
    have hclean := hnone i hi
    rw [Bool.not_eq_true, List.any_eq_false] at hclean
    exact (Bool.or_eq_false_iff.1 (Bool.not_eq_true _ ▸ hclean t ht)).1

theorem read_of_parse {text : List Char} {m : Module} (h : parse text = .ok m) : read text = .ok m := by
  rw [parse] at h
  cases hread : read text with
  | error failure =>
    rw [hread] at h
    cases h
  | ok m' =>
    rw [hread] at h
    cases h
    rfl

/--
A module that was read is written in the order of its tokens.
-/
theorem events_eq {m : Module} (h : m.AsRead) : m.events = Event.ofTokens (tokens m) := by
  rw [events, h.pragmasNormalized, tokens_eq_append]
  simp only [pragmaEvents, Bool.false_eq_true, if_false, Event.ofTokens_append]

end Module

end HaskellStyle
