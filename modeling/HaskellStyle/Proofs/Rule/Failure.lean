import HaskellStyle.Proofs.Declaration.Tokens
import HaskellStyle.Proofs.Rule.Apply

/-!
This module contains exactly when a rule fails. Laying out fails at an equation that is too long for its line and
that begins its right-hand side with a closing bracket, and the rule for names fails if one of its patterns is none;
all other rules succeed on every module.
-/

namespace HaskellStyle

variable {settings : Settings}

namespace Align

/--
A token outside of brackets that keeps a body a mere call: no reserved word, no operator and no back quote.
-/
structure IsOperand (t : Token) : Prop where
  kind : t.kind ≠ .reservedId ∧ t.kind ≠ .reservedOp
  operator : ¬t.isOperator
  quote : ¬t.isSpecial ["\x60"]

/--
A long equation that cannot be broken: it is on one line without comments, does not fit, and begins its body with a
closing bracket; outside of brackets the body has operands only.
-/
structure Unbreakable (settings : Settings) (c : Clause Block) : Prop where
  shape : ∃ (lhs : List Token) (equals close : Token) (rest : List Token),
    c = ⟨⟨lhs.map .token, .plain equals ((close :: rest).map .token)⟩, none⟩
      ∧ close.isClosing ∧ ∀ t ∈ Outside.tokens 0 (close :: rest), IsOperand t
  oneLine : ¬Token.spansLines (tokens c)
  clean : Token.cleanInside (tokens c)
  long : ¬fits settings (firstToken c).column (Token.flat (tokens c))

theorem terms?_eq_none_iff {body : List Token} :
    Rhs.terms? body = none ↔ ∃ close rest, body = close :: rest ∧ close.isClosing := by
  cases body with
  | nil => simp [Rhs.terms?]
  | cons t ts =>
    rw [Rhs.terms?]
    split <;> simp_all

theorem rhsLayout_eq_error_iff {body : List Token} {column : Int} {head : String} {e : RuleError} :
    rhsLayout settings body column head = .error e
      ↔ e = .unopenedBracket ∧ (∃ close rest, body = close :: rest ∧ close.isClosing)
        ∧ ∀ t ∈ Outside.tokens 0 body, IsOperand t := by
  unfold rhsLayout
  dsimp only
  split
  · next hreserved =>
    obtain ⟨t, ht, hkind⟩ := List.any_eq_true.1 hreserved
    simp only [Bool.or_eq_true, decide_eq_true_eq] at hkind
    refine iff_of_false (by simp) fun h => ?_
    have := (h.2.2 t ht).kind
    tauto
  · next hreserved =>
    rw [Bool.not_eq_true, List.any_eq_false] at hreserved
    split
    · next hoperator =>
      rw [Bool.not_eq_true', List.any_eq_false] at hoperator
      split
      · next hquote =>
        obtain ⟨t, ht, hspecial⟩ := List.any_eq_true.1 hquote
        exact iff_of_false (by simp) fun h => (h.2.2 t ht).quote hspecial
      · next hquote =>
        rw [Bool.not_eq_true, List.any_eq_false] at hquote
        have hoperands : ∀ t ∈ Outside.tokens 0 body, IsOperand t := fun t ht => by
          have := hreserved t ht
          simp only [Bool.or_eq_true, decide_eq_true_eq, not_or] at this
          exact ⟨this, hoperator t ht, hquote t ht⟩
        cases hterms : Rhs.terms? body with
        | none =>
          have hclosing := terms?_eq_none_iff.1 hterms
          simp only [Except.error.injEq]
          exact ⟨fun h => ⟨h.symm, hclosing, hoperands⟩, fun h => h.1.symm⟩
        | some terms =>
          refine iff_of_false (by simp) fun h => ?_
          rw [terms?_eq_none_iff.2 h.2.1] at hterms
          cases hterms
    · next hoperator =>
      rw [Bool.not_eq_true', Bool.not_eq_false] at hoperator
      obtain ⟨t, ht, hop⟩ := List.any_eq_true.1 hoperator
      refine iff_of_false ?_ fun h => (h.2.2 t ht).operator hop
      split
      · simp
      · split
        · split <;> simp
        · simp

theorem clauseLayout_eq_error_iff {c : Clause Block} {e : RuleError} :
    clauseLayout settings c = .error e ↔ e = .unopenedBracket ∧ Unbreakable settings c := by
  constructor
  · intro h
    unfold clauseLayout at h
    split at h
    · next lhs equals body hlocals hlhs hrhs =>
      split at h
      · cases h
      · next body hbody =>
        dsimp only at h
        split at h
        · cases h
        · next hlong =>
          simp only [Bool.or_eq_true, not_or, Bool.not_eq_true', Bool.not_eq_true, Bool.not_eq_false] at hlong
          obtain ⟨⟨hline, hclean⟩, hfits⟩ := hlong
          obtain ⟨rfl, ⟨close, rest, rfl, hclose⟩, hoperands⟩ := rhsLayout_eq_error_iff.1 h
          refine ⟨rfl, ⟨lhs, equals, close, rest, ?_, hclose, hoperands⟩, by simp [hline], hclean, by simp [hfits]⟩
          obtain ⟨⟨lhs', rhs⟩, locals⟩ := c
          cases hlocals
          cases hrhs
          cases Segment.flat?_eq_some_iff.1 hlhs
          cases Segment.flat?_eq_some_iff.1 hbody
          rfl
    · cases h
  · rintro ⟨rfl, ⟨lhs, equals, close, rest, rfl, hclose, hoperands⟩, hline, hclean, hlong⟩
    have hlhs : Segment.flat? (lhs.map (Segment.token : Token → Segment Block)) = some lhs :=
      Segment.flat?_eq_some_iff.2 rfl
    have hbody : Segment.flat? ((close :: rest).map (Segment.token : Token → Segment Block)) = some (close :: rest) :=
      Segment.flat?_eq_some_iff.2 rfl
    unfold clauseLayout
    simp only [hlhs, hbody]
    rw [if_neg]
    · exact rhsLayout_eq_error_iff.2 ⟨rfl, ⟨close, rest, rfl, hclose⟩, hoperands⟩
    · simp only [Bool.or_eq_true, Bool.not_eq_true', not_or]
      exact ⟨⟨hline, by rw [Bool.not_eq_false]; exact hclean⟩, hlong⟩

theorem declaration_eq_error_iff {d : Declaration} {e : RuleError} :
    declaration settings d = .error e
      ↔ e = .unopenedBracket ∧ ∃ c layout, d = .clause c layout ∧ Unbreakable settings c := by
  cases d with
  | clause c layout =>
    have hclause : declaration settings (.clause c layout) = .error e ↔ clauseLayout settings c = .error e := by
      simp only [declaration, bind, Except.bind, pure, Except.pure]
      cases clauseLayout settings c with
      | error e' => simp
      | ok layout' => cases layout' <;> simp
    rw [hclause, clauseLayout_eq_error_iff]
    simp
  | _ => simp [declaration]

/--
Declarations are laid out one after the other, and the first that cannot be makes the rule fail.
-/
theorem declarations_eq_error_iff {p : Printer} {ds : List Declaration} {notes : Notes} {e : RuleError} :
    declarations settings p ds notes = .error e
      ↔ e = .unopenedBracket ∧ ∃ c layout, Declaration.clause c layout ∈ ds ∧ Unbreakable settings c := by
  induction ds generalizing notes with
  | nil => simp [declarations]
  | cons d more ih =>
    simp only [declarations, bind, Except.bind, pure, Except.pure]
    cases hd : declaration settings d with
    | error e' =>
      obtain ⟨rfl, c, layout, rfl, hc⟩ := declaration_eq_error_iff.1 hd
      simp only [Except.error.injEq]
      constructor
      · rintro rfl
        exact ⟨rfl, c, layout, List.mem_cons_self, hc⟩
      · rintro ⟨rfl, -⟩
        rfl
    | ok laidOut =>
      have hbreakable (c : Clause Block) (layout : Option RhsLayout) (hc : Unbreakable settings c) :
          Declaration.clause c layout ≠ d := by
        rintro rfl
        rw [declaration_eq_error_iff.2 ⟨rfl, c, layout, rfl, hc⟩] at hd
        cases hd
      have hmore : (∃ c layout, Declaration.clause c layout ∈ d :: more ∧ Unbreakable settings c)
          ↔ ∃ c layout, Declaration.clause c layout ∈ more ∧ Unbreakable settings c := by
        constructor
        · rintro ⟨c, layout, hmem, hc⟩
          exact ⟨c, layout, (List.mem_cons.1 hmem).resolve_left (hbreakable c layout hc), hc⟩
        · rintro ⟨c, layout, hmem, hc⟩
          exact ⟨c, layout, List.mem_cons_of_mem _ hmem, hc⟩
      rw [hmore, ← ih]
      dsimp only
      split
      · next heq => rw [heq]
      · next heq => rw [heq]; simp

end Align

/--
A module with an equation that cannot be broken.
-/
def Module.HasUnbreakable (settings : Settings) (m : Module) : Prop :=
  ∃ c layout, Declaration.clause c layout ∈ m.declarations ∧ Align.Unbreakable settings c

/--
Every pattern for names is one.
-/
def NamingRules.Compile (rules : NamingRules) : Prop :=
  ∀ text ∈ [rules.function, rules.type, rules.constructor, rules.field], (Pattern.parse? text).isSome

theorem NamingRules.compile_default : ({} : NamingRules).Compile := by
  unfold NamingRules.Compile
  decide +kernel

theorem Align.apply_eq_error_iff {m : Module} {e : RuleError} :
    apply settings m = .error e ↔ e = .unopenedBracket ∧ m.HasUnbreakable settings := by
  simp only [apply, bind, Except.bind, pure, Except.pure]
  split
  · next e' hdecls =>
    obtain ⟨rfl, hstuck⟩ := declarations_eq_error_iff.1 hdecls
    rw [Except.error.injEq, eq_comm]
    exact ⟨fun he => ⟨he, hstuck⟩, And.left⟩
  · next hdecls =>
    refine iff_of_false (by simp) ?_
    rintro ⟨rfl, hstuck⟩
    rw [declarations_eq_error_iff.2 ⟨rfl, hstuck⟩] at hdecls
    cases hdecls

namespace Names

theorem patterns_eq_error_iff {rules : NamingRules} {e : RuleError} :
    patterns rules = .error e ↔ e = .invalidPattern ∧ ¬rules.Compile := by
  unfold patterns NamingRules.Compile
  simp only [List.forall_mem_cons, List.not_mem_nil, false_imp_iff, implies_true, and_true, bind, Except.bind, pure,
    Except.pure]
  cases Pattern.parse? rules.function <;> cases Pattern.parse? rules.type <;>
    cases Pattern.parse? rules.constructor <;> cases Pattern.parse? rules.field <;> simp [eq_comm]

theorem apply_eq_error_iff {m : Module} {e : RuleError} :
    apply settings m = .error e ↔ e = .invalidPattern ∧ ¬settings.naming.Compile := by
  rw [← patterns_eq_error_iff]
  simp only [apply, advice, bind, Except.bind, pure, Except.pure]
  cases patterns settings.naming <;> simp

end Names

/--
The rules fail at an equation that cannot be broken, or else at a pattern for names.
-/
theorem Module.applyRules_eq_error_iff {m : Module} {e : RuleError} :
    m.applyRules settings = .error e
      ↔ e = .unopenedBracket ∧ m.HasUnbreakable settings
        ∨ e = .invalidPattern ∧ ¬m.HasUnbreakable settings ∧ ¬settings.naming.Compile := by
  have hindent : (Indent.apply settings m).module.HasUnbreakable settings ↔ m.HasUnbreakable settings := by
    obtain ⟨placements, h⟩ := Indent.module_apply settings m
    rw [h]
    rfl
  unfold Module.applyRules Rule.all
  simp only [Rule.applyAll, Rule.apply]
  cases haligned : Align.apply settings (Indent.apply settings m).module with
  | error e' =>
    obtain ⟨rfl, hstuck⟩ := Align.apply_eq_error_iff.1 haligned
    rw [hindent] at hstuck
    simp [hstuck, eq_comm]
  | ok aligned =>
    have hfree : ¬m.HasUnbreakable settings := by
      intro hstuck
      rw [Align.apply_eq_error_iff.2 ⟨rfl, hindent.2 hstuck⟩] at haligned
      cases haligned
    simp only [hfree, and_false, false_or, not_false_eq_true, true_and, ← Names.apply_eq_error_iff
      (m := aligned.module.finished settings)]
    unfold Module.finished
    generalize Names.apply settings _ = named
    cases named <;> simp

end HaskellStyle
