import HaskellStyle.Print.Checked
import HaskellStyle.Proofs.Declaration.Tokens
import HaskellStyle.Proofs.Module.Region

/-!
This module contains when writing with checked accesses succeeds: if every item of a list has a bracket or a comma
before it, no group of imports is empty, and an equation is broken only where its body has the lines for it. The
output is then that of the writing without checks.
-/

namespace HaskellStyle

/--
Whether every item of a list has a leader.
-/
def ItemList.AllLed {ι : Type} (list : ItemList ι) : Prop :=
  list.items.length ≤ list.commas.length + 1

/--
Whether a clause can be broken in the given way: it has one right-hand side and no blocks, and its body is a call
if it is to be broken between arguments.
-/
def Clause.Breakable (c : Clause Block) (layout : RhsLayout) : Prop :=
  ∃ lhs equals segments body, Segment.flat? c.equation.lhs = some lhs
    ∧ c.equation.rhs = .plain equals segments ∧ Segment.flat? segments = some body
    ∧ (layout.style = .application → ∃ first more, Rhs.terms? body = some (first :: more))

/--
Whether every access in the writing of a declaration finds something.
-/
def Declaration.Printable : Declaration → Prop
  | .data d => ∀ c ∈ d.constructors, ∀ r ∈ c.record, r.toItemList.AllLed
  | .clause c (some layout) => c.Breakable layout
  | .clause _ none | .importing _ | .pragma _ | .signature _ | .raw _ => True

/--
Whether every access in the writing of a module finds something.
-/
structure Module.Printable (m : Module) : Prop where
  exports : ∀ h ∈ m.header, ∀ list ∈ h.exports, list.AllLed
  imports : ∀ i ∈ m.importDecls, ∀ list ∈ i.list, list.AllLed
  groups : ∀ group ∈ m.imports, group ≠ []
  declarations : ∀ d ∈ m.declarations, d.Printable

theorem head?_tokens {ν : Type} [HasTokens ν] {node : ν} (h : tokens node ≠ []) :
    (tokens node).head? = some (firstToken node) := by
  obtain ⟨t, ts, heq⟩ := List.exists_cons_of_ne_nil h
  rw [firstToken, heq]
  rfl

theorem getLast?_tokens {ν : Type} [HasTokens ν] {node : ν} (h : tokens node ≠ []) :
    (tokens node).getLast? = some (lastToken node) := by
  rw [lastToken, List.getLastD_eq_getLast?, List.getLast?_eq_some_getLast h]
  rfl

/--
A loop of steps that all succeed.
-/
theorem foldlM_eq_some {α β : Type} {step? : β → α → Option β} {step : β → α → β} {xs : List α}
    (h : ∀ x ∈ xs, ∀ state, step? state x = some (step state x)) (state : β) :
    xs.foldlM step? state = some (xs.foldl step state) := by
  induction xs generalizing state with
  | nil => rfl
  | cons x more ih =>
    rw [List.foldlM_cons, h x List.mem_cons_self]
    exact ih (fun y hy => h y (List.mem_cons_of_mem _ hy)) (step state x)

namespace Printer

section Lists

variable {ι : Type} [HasTokens ι]

/--
The items from `index` on are written as if they were paired with their leaders beforehand.
-/
theorem ledItems?_eq (p : Printer) {leaders : List Token} (indent : Int) {rows : List (ι × String)} (index : Nat)
    (hlength : index + rows.length ≤ leaders.length) (hrows : ∀ row ∈ rows, tokens row.1 ≠ []) (out : Output) :
    p.ledItems? leaders indent index rows out
      = some (p.ledItems indent (index = 0)
          (((leaders.drop index).zip (rows.map Prod.fst)).zip (rows.map Prod.snd)) out) := by
  induction rows generalizing index out with
  | nil => simp [ledItems?, ledItems]
  | cons row more ih =>
    obtain ⟨item, text⟩ := row
    rw [List.length_cons] at hlength
    have hindex : index < leaders.length := by omega
    have hitem := hrows (item, text) List.mem_cons_self
    have hmore := fun out => ih (index + 1) (by omega) (fun row hrow => hrows row (List.mem_cons_of_mem _ hrow)) out
    rw [List.drop_eq_getElem_cons hindex]
    simp only [ledItems?, List.getElem?_eq_getElem hindex, head?_tokens hitem, getLast?_tokens hitem,
      List.map_cons, List.zip_cons_cons, ledItems, Option.bind_eq_bind, Option.bind_some, hmore]
    cases more with
    | nil => simp [ledItems]
    | cons next rest =>
      have hnext : index + 1 < leaders.length := by
        rw [List.length_cons] at hlength
        omega
      have hlater : decide (index + 1 = 0) = false := by simp
      rw [List.drop_eq_getElem_cons hnext]
      simp only [List.isEmpty_cons, Bool.false_eq_true, if_false, List.getElem?_eq_getElem hnext, Option.map_some,
        Option.bind_some, List.map_cons, List.zip_cons_cons, decide_not, hlater]

theorem itemList?_eq (p : Printer) {list : ItemList ι} {texts : List String} (indent : Int) (hled : list.AllLed)
    (htexts : texts.length = list.items.length) (hitems : ∀ item ∈ list.items, tokens item ≠ []) (out : Output) :
    p.itemList? list texts indent out = some (p.itemList list texts indent out) := by
  have hlength : list.leaders.length = max 1 list.items.length := by
    unfold ItemList.AllLed at hled
    simp only [ItemList.leaders, List.length_cons, List.length_take]
    omega
  have hrows (row : ι × String) (hrow : row ∈ list.items.zip texts) : tokens row.1 ≠ [] :=
    hitems _ (List.of_mem_zip hrow).1
  have hleaders : list.leaders.zip list.items = list.ledItems := by
    unfold ItemList.leaders ItemList.ledItems
    cases list.items with
    | nil => rfl
    | cons item more =>
      have htake : (list.commas.take more.length).zip (more.take more.length) = list.commas.zip more := by
        rw [List.zip, ← List.take_zipWith]
        exact List.take_of_length_le (by simp only [List.length_zipWith]; omega)
      rw [List.take_length] at htake
      rw [List.zip_cons_cons, List.zip_cons_cons, List.length_cons, Nat.add_sub_cancel, htake]
  unfold itemList? itemList
  rw [ledItems?_eq p indent 0 (by simp only [List.length_zip, hlength]; omega) hrows]
  rw [List.drop_zero, List.map_fst_zip (Nat.le_of_eq htexts.symm), List.map_snd_zip (Nat.le_of_eq htexts), hleaders]
  rfl

end Lists

theorem headerPragmas?_eq (p : Printer) {pragmas : List Pragma} (h : pragmas ≠ []) (out : Output) :
    p.headerPragmas? pragmas out = some (p.headerPragmas pragmas true out) := by
  unfold headerPragmas? headerPragmas
  cases hmin : minBy (·.token.offset) pragmas with
  | none => exact absurd (Module.minBy_eq_none hmin) h
  | some first => rfl

theorem header?_eq (p : Printer) {h : Header} (hled : ∀ list ∈ h.exports, list.AllLed) (out : Output) :
    p.header? h out = some (p.header h true out) := by
  unfold header? header
  cases hexports : h.exports.bind fun exports => exports.layout.map (exports, ·) with
  | none => rfl
  | some laidOut =>
    obtain ⟨exports, layout⟩ := laidOut
    obtain ⟨list, hlist, hlayout⟩ := Option.bind_eq_some_iff.1 hexports
    obtain ⟨_, -, heq⟩ := Option.map_eq_some_iff.1 hlayout
    cases heq
    cases layout with
    | singleLine => rfl
    | multiLine =>
      have hitems (e : Entry) (_ : e ∈ exports.items) : tokens e ≠ [] := List.cons_ne_nil _ _
      simp only [itemList?_eq p p.indent (hled exports hlist) (List.length_map _) hitems, Option.bind_eq_bind,
        Option.bind_some, if_true]
      rfl

theorem importDecl?_eq (p : Printer) {i : Import} (hled : ∀ list ∈ i.list, list.AllLed) (out : Output) :
    p.importDecl? i out = some (p.importDecl i out) := by
  have hlast : (tokens i).getLast? = some (lastToken i) := getLast?_tokens (List.cons_ne_nil _ _)
  unfold importDecl? importDecl
  split
  · cases hlist : i.list with
    | none => simp only [hlast, Option.bind_eq_bind, Option.bind_some]; rfl
    | some list =>
      have hitems (e : Entry) (_ : e ∈ list.items) : tokens e ≠ [] := List.cons_ne_nil _ _
      dsimp only
      split
      · simp only [hlast, Option.bind_eq_bind, Option.bind_some]
        rfl
      · simp only [itemList?_eq p p.indent (hled list hlist) (List.length_map _) hitems, hlast,
          Option.bind_eq_bind, Option.bind_some]
        rfl
  · rfl

theorem importLine?_eq (p : Printer) (blankLines : Nat) {i : Import} (hled : ∀ list ∈ i.list, list.AllLed)
    (out : Output) : p.importLine? blankLines i out = some (p.importLine blankLines i out) := by
  have hhead : (tokens i).head? = some i.keyword := rfl
  unfold importLine? importLine
  simp only [hhead, Option.bind_eq_bind, Option.bind_some, importDecl?_eq p hled]

theorem importGroup?_eq (p : Printer) (blankLines : Nat) {group : List Import}
    (hled : ∀ i ∈ group, ∀ list ∈ i.list, list.AllLed) (out : Output) :
    p.importGroup? blankLines group out = some (p.importGroup blankLines group out) := by
  cases group with
  | nil => rfl
  | cons i more =>
    unfold importGroup? importGroup
    simp only [importLine?_eq p blankLines (hled i List.mem_cons_self), Option.bind_eq_bind, Option.bind_some]
    exact foldlM_eq_some (fun j hj => importLine?_eq p 0 (hled j (List.mem_cons_of_mem _ hj))) _

theorem importBlock?_eq (p : Printer) {groups : List (List Import)} (hne : groups ≠ [])
    (hgroups : ∀ group ∈ groups, group ≠ []) (hled : ∀ i ∈ groups.flatten, ∀ list ∈ i.list, list.AllLed)
    (out : Output) : p.importBlock? groups out = some (p.importBlock groups out) := by
  have hgroup (group : List Import) (hgroup : group ∈ groups) (i : Import) (hi : i ∈ group) :=
    hled i (List.mem_flatten.2 ⟨group, hgroup, hi⟩)
  cases groups with
  | nil => exact absurd rfl hne
  | cons group more =>
    have hflatten : (group :: more).flatten ≠ [] := by
      rw [List.flatten_cons]
      exact List.append_ne_nil_of_left_ne_nil (hgroups group List.mem_cons_self) _
    unfold importBlock? importBlock blankLinesBefore
    cases hmin : minBy (·.keyword.offset) (group :: more).flatten with
    | none => exact absurd (Module.minBy_eq_none hmin) hflatten
    | some first =>
      simp only [Option.bind_eq_bind, Option.bind_some,
        importGroup?_eq p _ (hgroup group List.mem_cons_self)]
      exact foldlM_eq_some (fun g hg => importGroup?_eq p 1 (hgroup g (List.mem_cons_of_mem _ hg))) _

theorem signature?_eq (p : Printer) (s : Signature) (layout : ListLayout) (out : Output) :
    p.signature? s layout out = some (p.signature s layout out) := by
  have hne : tokens s ≠ [] := List.append_ne_nil_of_right_ne_nil _ (List.cons_ne_nil _ _)
  cases layout with
  | singleLine => rfl
  | multiLine =>
    unfold signature? signature
    simp only [head?_tokens hne, getLast?_tokens hne, Option.bind_eq_bind, Option.bind_some]
    rfl

theorem record?_eq (p : Printer) {r : Record} (hled : r.toItemList.AllLed) (indent : Int) (out : Output) :
    p.record? r indent out = some (p.record r indent out) := by
  have hitems (f : Field) (_ : f ∈ r.items) : tokens f ≠ [] :=
    List.append_ne_nil_of_right_ne_nil _ (List.cons_ne_nil _ _)
  refine itemList?_eq p indent hled ?_ hitems out
  simp only [List.length_zipWith, List.length_append, List.length_replicate]
  omega

theorem constructor?_eq (p : Printer) (indent : Int) (end_ : Token) {row : Token × Constructor}
    (hled : ∀ r ∈ row.2.record, r.toItemList.AllLed) (out : Output) :
    p.constructor? indent end_ out row = some (p.constructor indent end_ out row) := by
  obtain ⟨leader, c⟩ := row
  have hne : tokens c ≠ [] := List.cons_ne_nil _ _
  unfold constructor? constructor
  simp only [head?_tokens hne, getLast?_tokens hne, Option.bind_eq_bind, Option.bind_some]
  cases hrecord : c.record.filter (·.layout ≠ some .singleLine) with
  | none => rfl
  | some r =>
    have hr : r ∈ c.record := (Option.filter_eq_some_iff.1 hrecord).1
    simp only [record?_eq p (hled r hr), Option.bind_some]
    rfl

theorem derivings?_eq (p : Printer) (d : DataDecl) (layout : ListLayout) (indent : Int) (out : Output) :
    p.derivings? d layout indent out = some (p.derivings d layout indent out) := by
  have hlast : (tokens d).getLast? = some (lastToken d) := getLast?_tokens (List.cons_ne_nil _ _)
  unfold derivings? derivings
  dsimp only
  split
  · rfl
  · simp only [hlast, Option.bind_eq_bind, Option.bind_some]
    refine foldlM_eq_some (fun clause _ state => ?_) out
    have hclause : (tokens clause).getLast? = some (lastToken clause) := getLast?_tokens (List.cons_ne_nil _ _)
    simp only [hclause, Option.bind_some]
    rfl

theorem dataDecl?_eq (p : Printer) {d : DataDecl} (hled : ∀ c ∈ d.constructors, ∀ r ∈ c.record, r.toItemList.AllLed)
    (layout : ListLayout) (out : Output) : p.dataDecl? d layout out = some (p.dataDecl d layout out) := by
  have hlast : (tokens d).getLast? = some (lastToken d) := getLast?_tokens (List.cons_ne_nil _ _)
  unfold dataDecl? dataBody? dataDecl
  simp only [hlast, Option.bind_eq_bind, Option.bind_some]
  cases layout with
  | singleLine => exact derivings?_eq p d .singleLine _ _
  | multiLine =>
    cases hsingle : d.singleRecord? with
    | some r =>
      have hr : r ∈ d.constructor.record := by
        unfold DataDecl.singleRecord? at hsingle
        split at hsingle
        · exact hsingle
        · cases hsingle
      simp only [record?_eq p (hled d.constructor List.mem_cons_self r hr), Option.map_some, Option.bind_some]
      exact derivings?_eq p d .multiLine _ _
    | none =>
      have hrows (row : Token × Constructor) (hrow : row ∈ d.ledConstructors) :
          ∀ r ∈ row.2.record, r.toItemList.AllLed := by
        refine hled row.2 ?_
        rcases List.mem_cons.1 hrow with rfl | hrow
        · exact List.mem_cons_self
        · exact List.mem_cons_of_mem _ (List.mem_map_of_mem hrow)
      simp only [foldlM_eq_some fun row hrow out => constructor?_eq p _ _ (hrows row hrow) out, Option.bind_some]
      exact derivings?_eq p d .multiLine _ _

theorem chunks_ne_nil (operators : List String) (body : List Token) : Rhs.chunks operators body ≠ [] := by
  cases body with
  | nil => exact List.cons_ne_nil _ _
  | cons t ts => exact List.cons_ne_nil _ _

theorem operatorLines_ne_nil (settings : Settings) (body : List Token) : Rhs.operatorLines settings body ≠ [] := by
  unfold Rhs.operatorLines
  split
  · split <;> exact List.cons_ne_nil _ _
  · exact chunks_ne_nil _ _

theorem topTokens_of_flat? {segments : List (Segment Block)} {ts : List Token} (h : Segment.flat? segments = some ts) :
    Segment.topTokens segments = ts := by
  unfold Segment.flat? at h
  split at h
  · exact Option.some.inj h
  · cases h

theorem brokenClause?_eq (p : Printer) {lhs : List Token} {equals : Token} {body : List Token} {layout : RhsLayout}
    (hcall : layout.style = .application → ∃ first more, Rhs.terms? body = some (first :: more)) (out : Output) :
    p.brokenClause? lhs equals body layout out = some (p.brokenClause lhs equals body layout out) := by
  unfold brokenClause? brokenClause
  cases hstyle : layout.style with
  | application =>
    obtain ⟨first, more, hterms⟩ := hcall hstyle
    simp only [hterms]
    rfl
  | operators =>
    obtain ⟨first, more, hlines⟩ := List.exists_cons_of_ne_nil (operatorLines_ne_nil p.settings body)
    simp only [hlines]
    rfl

theorem structured?_eq (p : Printer) (d : Declaration) {body? : Output → Option Output} {body : Output → Output}
    (hbody : ∀ out, body? out = some (body out)) (out : Output) :
    p.structured? d body? out = some (p.structured d true body out) := by
  unfold structured? structured
  simp only [head?_tokens d.tokens_ne_nil, getLast?_tokens d.tokens_ne_nil, hbody, Option.bind_eq_bind,
    Option.bind_some, if_true]
  rfl

theorem declaration?_eq (p : Printer) {d : Declaration} (h : d.Printable) (out : Output) :
    p.declaration? d out = some (p.declaration d true out) := by
  cases d with
  | pragma pragma =>
    unfold declaration? declaration
    dsimp only
    split <;> rfl
  | signature s =>
    unfold declaration? declaration
    dsimp only
    cases s.layout with
    | none => rfl
    | some layout => exact structured?_eq p _ (signature?_eq p s layout) out
  | data decl =>
    unfold declaration? declaration
    dsimp only
    cases decl.layout with
    | none => rfl
    | some layout => exact structured?_eq p _ (dataDecl?_eq p h layout) out
  | clause c layout =>
    cases layout with
    | none => rfl
    | some layout =>
      obtain ⟨lhs, equals, segments, body, hlhs, hrhs, hbody, hcall⟩ := h
      unfold declaration? declaration
      simp only [hrhs, hlhs, hbody, Option.bind_eq_bind, Option.bind_some]
      rw [topTokens_of_flat? hlhs, topTokens_of_flat? hbody]
      exact structured?_eq p _ (brokenClause?_eq p hcall) out
  | importing i => rfl
  | raw run => rfl

theorem pragmaRegion?_eq (p : Printer) (m : Module) (out : Output) :
    p.pragmaRegion? m out = some (if m.pragmasNormalized then p.headerPragmas m.headerPragmas true out
      else p.verbatim (m.headerPragmas.map (·.token)) out) := by
  unfold pragmaRegion?
  cases m.headerPragmas with
  | nil => cases m.pragmasNormalized <;> rfl
  | cons first more =>
    rw [headerPragmas?_eq p (List.cons_ne_nil first more)]
    cases m.pragmasNormalized <;> rfl

theorem headerRegion?_eq (p : Printer) {m : Module} (h : m.Printable) (out : Output) :
    p.headerRegion? m out = some (match m.header with
      | some h => p.header h true out
      | none => out) := by
  unfold headerRegion?
  cases hm : m.header with
  | none => rfl
  | some head => exact header?_eq p (h.exports head hm) out

theorem importRegion?_eq (p : Printer) {m : Module} (h : m.Printable) (out : Output) :
    p.importRegion? m out = some (if m.importsNormalized then p.importBlock m.imports out
      else p.verbatim (m.importDecls.flatMap tokens) out) := by
  unfold importRegion?
  by_cases hm : m.imports = []
  · unfold Module.importDecls
    rw [hm]
    cases m.importsNormalized <;> rfl
  · rw [importBlock?_eq p hm h.groups h.imports, if_neg (by rwa [List.isEmpty_iff])]
    split <;> rfl

theorem moduleParts?_eq (p : Printer) {m : Module} (h : m.Printable) (out : Output) :
    p.moduleParts? m out = some (p.moduleParts m out) := by
  unfold moduleParts? moduleParts
  simp only [pragmaRegion?_eq, headerRegion?_eq p h, importRegion?_eq p h, Option.bind_eq_bind, Option.bind_some,
    foldlM_eq_some fun d hd => declaration?_eq p (h.declarations d hd)]
  rfl

end Printer

theorem Module.render?_eq (settings : Settings) {m : Module} (h : m.Printable) :
    m.render? settings = some (m.render settings) := by
  unfold render? render
  simp only [Printer.moduleParts?_eq _ h]
  rfl

end HaskellStyle
