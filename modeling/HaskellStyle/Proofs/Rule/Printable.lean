import HaskellStyle.Proofs.Print.Checked
import HaskellStyle.Proofs.Rule.Apply

/-!
This module contains that every module can be written, whatever rules were applied to it before: reading gives each
item of a list its bracket or comma, and no rule takes one away, leaves a group of imports empty or asks for lines
that the body of an equation does not have.
-/

namespace HaskellStyle

section Reading

/--
Between the parts of a list there is one comma less than parts, and an empty part is no item.
-/
theorem length_entries? {parts : List (List Token)} {entries : List Entry}
    (h : ItemList.entries? parts = some entries) : entries.length ≤ parts.length := by
  fun_induction ItemList.entries? parts generalizing entries with
  | case1 => cases h; rfl
  | case2 => cases h; exact Nat.zero_le _
  | case3 => cases h
  | case4 t ts parts ih =>
    obtain ⟨more, hmore, rfl⟩ := Option.map_eq_some_iff.1 h
    exact Nat.succ_le_succ (ih hmore)

theorem allLed_ofTokens? {opening : Token} {ts rest : List Token} {list : ItemList Entry}
    (h : ItemList.ofTokens? opening ts = some (list, rest)) : list.AllLed := by
  simp only [ItemList.ofTokens?, Option.bind_eq_bind] at h
  obtain ⟨⟨part, parts, closing, after⟩, -, h⟩ := Option.bind_eq_some_iff.1 h
  obtain ⟨items, hitems, h⟩ := Option.bind_eq_some_iff.1 h
  cases h
  have hlength := length_entries? hitems
  simp only [ItemList.AllLed, List.length_cons, List.length_map] at hlength ⊢
  exact hlength

theorem allLed_import {keyword : Token} {ts : List Token} {i : Import} (h : Import.ofTokens? keyword ts = some i) :
    ∀ list ∈ i.list, list.AllLed := by
  unfold Import.ofTokens? at h
  dsimp only at h
  split at h
  · split at h
    · cases h
    · obtain ⟨-, heq⟩ := Option.ite_none_right_eq_some.1 h
      cases heq
      exact fun list hlist => absurd hlist (Option.not_mem_none list)
  · obtain ⟨⟨list, tail⟩, hlist, h⟩ := Option.bind_eq_some_iff.1 h
    obtain ⟨-, heq⟩ := Option.ite_none_right_eq_some.1 h
    cases heq
    intro list' hlist'
    cases hlist'
    exact allLed_ofTokens? hlist

theorem length_mapM {α β : Type} {f : α → Option β} {xs : List α} {ys : List β} (h : xs.mapM f = some ys) :
    ys.length = xs.length := by
  induction xs generalizing ys with
  | nil =>
    cases h
    rfl
  | cons x more ih =>
    simp only [List.mapM_cons, Option.bind_eq_bind] at h
    obtain ⟨y, -, h⟩ := Option.bind_eq_some_iff.1 h
    obtain ⟨rest, hrest, h⟩ := Option.bind_eq_some_iff.1 h
    cases h
    exact congrArg Nat.succ (ih hrest)

theorem mem_of_mapM {α β : Type} {f : α → Option β} {xs : List α} {ys : List β} (h : xs.mapM f = some ys) :
    ∀ y ∈ ys, ∃ x ∈ xs, f x = some y := by
  induction xs generalizing ys with
  | nil =>
    cases h
    exact fun y hy => absurd hy List.not_mem_nil
  | cons x more ih =>
    simp only [List.mapM_cons, Option.bind_eq_bind] at h
    obtain ⟨y, hy, h⟩ := Option.bind_eq_some_iff.1 h
    obtain ⟨rest, hrest, h⟩ := Option.bind_eq_some_iff.1 h
    cases h
    intro z hz
    rcases List.mem_cons.1 hz with rfl | hz
    · exact ⟨x, List.mem_cons_self, hy⟩
    · obtain ⟨w, hw, hwz⟩ := ih hrest z hz
      exact ⟨w, List.mem_cons_of_mem _ hw, hwz⟩

theorem allLed_constructor {ts : List Token} {c : Constructor} (h : Constructor.ofTokens? ts = some c) :
    ∀ r ∈ c.record, r.toItemList.AllLed := by
  unfold Constructor.ofTokens? at h
  split at h
  · split at h
    · cases h
      exact fun r hr => absurd hr (Option.not_mem_none r)
    · cases h
  · cases h
  · simp only [Option.bind_eq_bind] at h
    obtain ⟨⟨list, after⟩, hlist, h⟩ := Option.bind_eq_some_iff.1 h
    obtain ⟨items, hitems, h⟩ := Option.bind_eq_some_iff.1 h
    split at h
    · cases h
    · cases h
      intro r hr
      cases hr
      have hled := allLed_ofTokens? hlist
      unfold ItemList.AllLed at hled ⊢
      rwa [length_mapM hitems]

theorem allLed_data {keyword : Token} {ts : List Token} {d : DataDecl} (h : DataDecl.ofTokens? keyword ts = some d) :
    ∀ c ∈ d.constructors, ∀ r ∈ c.record, r.toItemList.AllLed := by
  simp only [DataDecl.ofTokens?, Option.bind_eq_bind] at h
  obtain ⟨⟨head, equals, rest⟩, -, h⟩ := Option.bind_eq_some_iff.1 h
  split at h
  · cases h
  · obtain ⟨first, hfirst, h⟩ := Option.bind_eq_some_iff.1 h
    obtain ⟨others, hothers, h⟩ := Option.bind_eq_some_iff.1 h
    obtain ⟨derivings, -, h⟩ := Option.bind_eq_some_iff.1 h
    cases h
    intro c hc
    rcases List.mem_cons.1 hc with rfl | hc
    · exact allLed_constructor hfirst
    · obtain ⟨⟨bar, _⟩, hmem, rfl⟩ := List.mem_map.1 hc
      obtain ⟨_, -, hread⟩ := mem_of_mapM hothers _ hmem
      obtain ⟨_, hc, heq⟩ := Option.map_eq_some_iff.1 hread
      cases heq
      exact allLed_constructor hc

/--
What a run of segments is read as can be printed, and an import has leaders for all items of its list.
-/
theorem printable_ofRun (run : Run Block) :
    (Declaration.ofRun run).Printable ∧ ∀ i, Declaration.ofRun run = .importing i → ∀ list ∈ i.list, list.AllLed := by
  unfold Declaration.ofRun Declaration.ofBinding
  dsimp only
  repeat' split
  case h_1 i h =>
    obtain ⟨ts, -, hi⟩ := Option.bind_eq_some_iff.1 h
    refine ⟨trivial, fun j hj => ?_⟩
    cases hj
    exact allLed_import hi
  case h_1 d h =>
    obtain ⟨ts, -, hd⟩ := Option.bind_eq_some_iff.1 h
    exact ⟨allLed_data hd, fun _ heq => by cases heq⟩
  all_goals exact ⟨trivial, fun _ heq => by cases heq⟩

/--
The export list of a header was read as a list of entries.
-/
theorem exists_exports {keyword eof : Token} {ts rest : List Token} {h : Header}
    (hread : Header.ofTokens keyword eof ts = .ok (h, rest)) :
    ∀ list ∈ h.exports, ∃ opening inner after, ItemList.ofTokens? opening inner = some (list, after) := by
  rw [Header.ofTokens_eq_bind] at hread
  split at hread
  · cases hread
  · cases hexports : Header.exportsOf ((ts.drop 1).dropWhile (·.kind = .pragma)) with
    | error e =>
      rw [hexports] at hread
      cases hread
    | ok result =>
      obtain ⟨exports, after⟩ := result
      rw [hexports] at hread
      simp only [Except.bind] at hread
      split at hread
      · cases hread
      · cases hread
        intro list hlist
        cases hlist
        unfold Header.exportsOf at hexports
        split at hexports
        · cases hexports
        · split at hexports
          · split at hexports
            · next hlist =>
              cases hexports
              exact ⟨_, _, _, hlist⟩
            · cases hexports
          · cases hexports

end Reading

namespace Module

theorem exports_of_read {text : List Char} {m : Module} (h : read text = .ok m) : ∀ head ∈ m.header,
    ∀ list ∈ head.exports, ∃ opening inner after, ItemList.ofTokens? opening inner = some (list, after) := by
  obtain ⟨stream, header, rest, ds, -, hheader, -, rfl⟩ := read_eq_ok h
  intro head hhead
  change header = some head at hhead
  subst hhead
  unfold headerOf at hheader
  split at hheader
  · cases hheader
  · split at hheader
    · obtain ⟨⟨h', after⟩, hread, heq⟩ := map_eq_ok hheader
      cases heq
      exact exists_exports hread
    · cases hheader

theorem printable_of_read {text : List Char} {m : Module} (h : read text = .ok m) : m.Printable := by
  have hexports := exports_of_read h
  obtain ⟨stream, header, rest, ds, -, -, hbody, rfl⟩ := read_eq_ok h
  have hds : ∀ d ∈ ds, d.Printable ∧ ∀ i, d = .importing i → ∀ list ∈ i.list, list.AllLed :=
    forall_of_readBody hbody (fun run => ⟨trivial, fun _ heq => by cases heq⟩) printable_ofRun
  have hsplit := splitImports_eq ds
  constructor
  case exports =>
    intro head hhead list hlist
    obtain ⟨opening, inner, after, hread⟩ := hexports head hhead list hlist
    exact allLed_ofTokens? hread
  case imports =>
    intro i hi
    rw [importDecls, show (assemble text stream header ds).imports = groupImports (splitImports ds).1 from rfl,
      flatten_groupImports] at hi
    refine (hds (.importing i) ?_).2 i rfl
    rw [hsplit]
    exact List.mem_append_left _ (List.mem_map_of_mem hi)
  case groups => exact fun group hgroup => groupImports_ne_nil hgroup
  case declarations =>
    intro d hd
    refine (hds d ?_).1
    rw [hsplit]
    exact List.mem_append_right _ hd

end Module

namespace Align

variable {settings : Settings}

/--
A body is only broken as a call if it is one.
-/
theorem terms?_of_rhsLayout {body : List Token} {column : Int} {head : String} {layout : RhsLayout}
    (h : rhsLayout settings body column head = .ok (some layout)) (hstyle : layout.style = .application) :
    ∃ first more, Rhs.terms? body = some (first :: more) := by
  unfold rhsLayout at h
  dsimp only at h
  split at h
  · cases h
  · split at h
    · split at h
      · cases h
      · split at h
        · cases h
        · next terms hterms =>
          split at h
          · cases h
          · next hlength =>
            cases terms with
            | nil => exact absurd Nat.zero_lt_two hlength
            | cons first more => exact ⟨first, more, hterms⟩
    · split at h
      · cases h
      · split at h
        · split at h <;> cases h <;> cases hstyle
        · cases h

theorem breakable_of_clauseLayout {c : Clause Block} {layout : RhsLayout}
    (h : clauseLayout settings c = .ok (some layout)) : c.Breakable layout := by
  unfold clauseLayout at h
  split at h
  · next lhs equals segments _ hlhs hrhs =>
    split at h
    · cases h
    · next body hbody =>
      dsimp only at h
      split at h
      · cases h
      · exact ⟨lhs, equals, segments, body, hlhs, hrhs, hbody, terms?_of_rhsLayout h⟩
  · cases h

/--
A constructor of a declaration that is laid out is one of those before, apart from the layout of its record.
-/
theorem mem_constructors_mapConstructors {f : Constructor → Constructor} {layout : ListLayout} {d : DataDecl}
    {c : Constructor} (h : c ∈ (mapConstructors f layout d).constructors) : ∃ c' ∈ d.constructors, c = f c' := by
  rcases List.mem_cons.1 h with rfl | h
  · exact ⟨_, List.mem_cons_self, rfl⟩
  · obtain ⟨row, hrow, rfl⟩ := List.mem_map.1 h
    obtain ⟨⟨bar, c'⟩, hmem, rfl⟩ := List.mem_map.1 hrow
    exact ⟨c', List.mem_cons_of_mem _ (List.mem_map_of_mem hmem), rfl⟩

theorem allLed_record {layout : ListLayout} {c : Constructor} (h : ∀ r ∈ c.record, r.toItemList.AllLed) :
    ∀ r ∈ (constructor settings layout c).record, r.toItemList.AllLed := by
  intro r hr
  obtain ⟨r', hr', rfl⟩ := Option.map_eq_some_iff.1 hr
  cases layout <;> exact h r' hr'

theorem allLed_sumConstructor {column : Int} {c : Constructor} (h : ∀ r ∈ c.record, r.toItemList.AllLed) :
    ∀ r ∈ (sumConstructor settings column c).record, r.toItemList.AllLed := by
  unfold sumConstructor
  split
  · exact h
  · exact allLed_record h

theorem allLed_dataDecl {d : DataDecl} (h : ∀ c ∈ d.constructors, ∀ r ∈ c.record, r.toItemList.AllLed) :
    ∀ c ∈ (dataDecl settings d).constructors, ∀ r ∈ c.record, r.toItemList.AllLed := by
  have hmap {f : Constructor → Constructor} {layout : ListLayout}
      (hf : ∀ c, (∀ r ∈ c.record, r.toItemList.AllLed) → ∀ r ∈ (f c).record, r.toItemList.AllLed) :
      ∀ c ∈ (mapConstructors f layout d).constructors, ∀ r ∈ c.record, r.toItemList.AllLed := by
    intro c hc
    obtain ⟨c', hc', rfl⟩ := mem_constructors_mapConstructors hc
    exact hf c' (h c' hc')
  unfold dataDecl
  split
  · dsimp only
    cases d.singleRecord? with
    | some r =>
      dsimp only
      split
      · exact hmap fun c => allLed_record
      · split
        · exact h
        · exact hmap fun c => allLed_record
    | none =>
      dsimp only
      split
      · exact hmap fun c => allLed_record
      · exact hmap fun c => allLed_sumConstructor
  · exact h

theorem printable_declaration {d e : Declaration} (h : declaration settings d = .ok e) (hd : d.Printable) :
    e.Printable := by
  cases d with
  | importing i => cases h; exact hd
  | pragma p => cases h; exact hd
  | raw run => cases h; exact hd
  | signature s => cases h; exact trivial
  | data decl => cases h; exact allLed_dataDecl hd
  | clause c layout =>
    simp only [declaration, bind, Except.bind, pure, Except.pure] at h
    split at h
    · cases h
    · next hlayout =>
      split at h
      · cases h
        exact breakable_of_clauseLayout hlayout
      · cases h
        exact hd

theorem exists_of_forall₂ {α β : Type} {r : α → β → Prop} {xs : List α} {ys : List β} (h : List.Forall₂ r xs ys) :
    ∀ y ∈ ys, ∃ x ∈ xs, r x y := by
  induction h with
  | nil => exact fun y hy => absurd hy List.not_mem_nil
  | cons hr _ ih =>
    intro z hz
    rcases List.mem_cons.1 hz with rfl | hz
    · exact ⟨_, List.mem_cons_self, hr⟩
    · obtain ⟨x, hx, hxz⟩ := ih z hz
      exact ⟨x, List.mem_cons_of_mem _ hx, hxz⟩

theorem printable {m : Module} {result : RuleResult} (h : apply settings m = .ok result) (hm : m.Printable) :
    result.module.Printable := by
  have himports := importDecls_eq h
  obtain ⟨ds, hds, hmodule⟩ := apply_ok h
  constructor
  case exports =>
    rw [hmodule]
    intro head hhead
    obtain ⟨h', hh', rfl⟩ := Option.map_eq_some_iff.1 hhead
    rcases header_cases settings h' with heq | ⟨exports, layout, hexports, heq⟩
    · rw [heq]
      exact hm.exports h' hh'
    · rw [heq]
      intro list hlist
      cases hlist
      exact hm.exports h' hh' exports hexports
  case imports =>
    rw [himports]
    intro i hi
    obtain ⟨i', hi', rfl⟩ := List.mem_map.1 hi
    rcases importDecl_cases settings i' with heq | ⟨list, layout, hlist, heq⟩
    · rw [heq]
      exact hm.imports i' hi'
    · rw [heq]
      intro list' hlist'
      cases hlist'
      exact hm.imports i' hi' list hlist
  case groups =>
    rw [hmodule]
    intro group hgroup
    obtain ⟨group', hgroup', rfl⟩ := List.mem_map.1 hgroup
    exact fun hnil => hm.groups group' hgroup' (List.map_eq_nil_iff.1 hnil)
  case declarations =>
    rw [hmodule]
    intro e he
    obtain ⟨d, hd, hde⟩ := exists_of_forall₂ hds e he
    exact printable_declaration hde (hm.declarations d hd)

end Align

variable {settings : Settings}

/--
The groups hold imports of the module only.
-/
theorem ImportOrder.mem_importDecls_of_mem_groups {m : Module} {group : List Import} {i : Import}
    (hgroup : group ∈ groups settings m) (hi : i ∈ group) : i ∈ m.importDecls := by
  unfold groups at hgroup
  rw [List.partition_eq_filter_filter] at hgroup
  obtain ⟨origin, -, rfl⟩ := List.mem_map.1 (List.mem_filter.1 hgroup).1
  rw [List.mem_mergeSort] at hi
  cases origin with
  | external => exact (List.mem_filter.1 hi).1
  | internal => exact (List.mem_filter.1 hi).1

theorem ImportOrder.printable {m : Module} (hm : m.Printable) : (apply settings m).module.Printable := by
  rw [module_apply]
  split
  · refine ⟨hm.exports, ?_, ?_, hm.declarations⟩
    · intro i hi
      obtain ⟨group, hgroup, hi⟩ := List.mem_flatten.1 hi
      exact hm.imports i (mem_importDecls_of_mem_groups hgroup hi)
    · intro group hgroup hnil
      have := (List.mem_filter.1 hgroup).2
      rw [hnil] at this
      cases this
  · exact hm

theorem PragmaOrder.printable {m : Module} (hm : m.Printable) : (apply settings m).module.Printable := by
  obtain ⟨pragmas, ds, normalized, hmodule, -, hds⟩ := module_apply settings m
  rw [hmodule]
  refine ⟨hm.exports, hm.imports, hm.groups, fun d hd => ?_⟩
  rcases hds with rfl | rfl
  · exact hm.declarations d hd
  · rcases List.mem_append.1 ((pin_perm m.declarations).mem_iff.1 hd) with hd | hd
    · exact hm.declarations d (List.mem_filter.1 hd).1
    · obtain ⟨_, -, rfl⟩ := List.mem_map.1 hd
      exact trivial

theorem DerivingFormat.printable_declaration {p : Printer} {d : Declaration} {notes : Notes} (hd : d.Printable) :
    (declaration settings p d notes).1.Printable := by
  unfold declaration
  split
  · split
    · exact hd
    · exact hd
  · exact hd

theorem DerivingFormat.printable_declarations {p : Printer} {ds : List Declaration} {notes : Notes}
    (hds : ∀ d ∈ ds, d.Printable) : ∀ d ∈ (declarations settings p ds notes).1, d.Printable := by
  induction ds generalizing notes with
  | nil => exact hds
  | cons d more ih =>
    intro e he
    rcases List.mem_cons.1 he with rfl | he
    · exact printable_declaration (hds d List.mem_cons_self)
    · exact ih (fun d' hd' => hds d' (List.mem_cons_of_mem _ hd')) e he

namespace Module

theorem printable_apply {m : Module} {rule : Rule} {result : RuleResult} (h : rule.apply settings m = .ok result)
    (hm : m.Printable) : result.module.Printable := by
  cases rule with
  | indentation =>
    cases h
    obtain ⟨placements, hmodule⟩ := Indent.module_apply settings m
    rw [hmodule]
    exact ⟨hm.exports, hm.imports, hm.groups, hm.declarations⟩
  | alignment => exact Align.printable h hm
  | importOrder => cases h; exact ImportOrder.printable hm
  | pragmaPlacement => cases h; exact PragmaOrder.printable hm
  | strictnessDeriving =>
    cases h
    exact ⟨hm.exports, hm.imports, hm.groups, DerivingFormat.printable_declarations hm.declarations⟩
  | naming =>
    rw [Names.module_apply h]
    exact hm

/--
Writing never fails: whatever rules were applied to a text that was read, every access of the writing with checks
finds what it looks for, and the result is what is written without checks.
-/
theorem render?_afterRules {text : List Char} {m m' : Module} {rules : List Rule} (hparse : parse text = .ok m)
    (h : m.afterRules settings rules = .ok m') : m'.render? settings = some (m'.render settings) := by
  have hprintable := printable_of_read (read_of_parse hparse)
  exact render?_eq settings (afterRules_induction (fun rule _ m₁ result => printable_apply) h hprintable)

/--
A sum type with a record on several lines, laid out before and after its deriving clause.
-/
theorem render?_afterRules_record :
    ∃ m m', parse "data A = B \x7b x :: Int\n , y :: Int \x7d | C deriving Eq\nf = 1\n".toList = .ok m
      ∧ m.afterRules {} [.strictnessDeriving, .alignment, .strictnessDeriving, .naming] = .ok m'
      ∧ m'.render? {} = some (m'.render {}) := by
  have hread : ((parse "data A = B \x7b x :: Int\n , y :: Int \x7d | C deriving Eq\nf = 1\n".toList).toOption.bind
      fun m => (m.afterRules {} [.strictnessDeriving, .alignment, .strictnessDeriving, .naming]).toOption).isSome := by
    decide +kernel
  obtain ⟨m', hm'⟩ := Option.isSome_iff_exists.1 hread
  obtain ⟨m, hm, hm'⟩ := Option.bind_eq_some_iff.1 hm'
  have hparse := toOption_eq_some hm
  have hafter := toOption_eq_some hm'
  exact ⟨m, m', hparse, hafter, render?_afterRules hparse hafter⟩

end Module

end HaskellStyle
