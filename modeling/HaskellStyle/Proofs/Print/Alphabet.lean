import HaskellStyle.Proofs.Print.List
import HaskellStyle.Proofs.Print.Parts
import HaskellStyle.Proofs.Print.Pragma

/-!
This module contains the characters that parts on one line are made of. Besides those of their tokens there are only
blanks and visible characters.
-/

namespace HaskellStyle

/--
A class of characters with all those that are put between the texts of tokens: the blank and whatever is not blank.
-/
structure Alphabet (C : Char → Prop) : Prop where
  space : C ' '
  visible : ∀ {c : Char}, Text.isBlank c = false → C c

variable {C : Char → Prop}

/--
A string whose characters are in a class.
-/
def Text.Over (C : Char → Prop) (s : String) : Prop :=
  ∀ c ∈ s.toList, C c

instance (C : Char → Prop) [DecidablePred C] (s : String) : Decidable (Text.Over C s) :=
  List.decidableBAll C s.toList

namespace Text.Over

theorem empty : Over C "" :=
  fun _ hc => absurd hc (by simp)

theorem append {a b : String} (ha : Over C a) (hb : Over C b) : Over C (a ++ b) := by
  intro c hc
  rw [String.toList_append] at hc
  exact (List.mem_append.1 hc).elim (ha c) (hb c)

theorem ite {p : Prop} [Decidable p] {a b : String} (ha : Over C a) (hb : Over C b) : Over C (if p then a else b) := by
  split
  · exact ha
  · exact hb

theorem intercalate {s : String} (hs : Over C s) {texts : List String} (h : ∀ text ∈ texts, Over C text) :
    Over C (s.intercalate texts) := by
  induction texts with
  | nil => exact empty
  | cons text texts ih =>
    rw [List.forall_mem_cons] at h
    cases texts with
    | nil => simpa using h.1
    | cons next texts =>
      rw [String.intercalate_cons_cons]
      exact (h.1.append hs).append (ih h.2)

theorem literal (hC : Alphabet C) {s : String} (h : s.toList.all fun c => c == ' ' || !Text.isBlank c) : Over C s := by
  intro c hc
  have := List.all_eq_true.1 h c hc
  rw [Bool.or_eq_true, beq_iff_eq, Bool.not_eq_true'] at this
  exact this.elim (fun heq => heq ▸ hC.space) hC.visible

theorem blanks (hC : Alphabet C) (n : Nat) : Over C (String.ofList (List.replicate n ' ')) := by
  intro c hc
  rw [String.toList_ofList] at hc
  exact List.eq_of_mem_replicate hc ▸ hC.space

theorem padRight (hC : Alphabet C) {s : String} (h : Over C s) (width : Nat) : Over C (padRight s width) :=
  h.append (blanks hC _)

end Text.Over

/--
Trivia whose characters are in a class.
-/
def Trivia.Over (C : Char → Prop) (trivia : Trivia) : Prop :=
  ∀ piece ∈ trivia, Text.Over C piece.text

/--
A token that has, with the trivia around it, only characters of a class.
-/
structure Token.Over (C : Char → Prop) (t : Token) : Prop where
  text : Text.Over C t.text
  leading : t.leading.Over C
  trailing : t.trailing.Over C

namespace Trivia.Over

variable {trivia : Trivia} (h : trivia.Over C)
include h

theorem splitLines : Trivia.Over C trivia.splitLines.1 ∧ ∀ line ∈ trivia.splitLines.2, Trivia.Over C line := by
  induction trivia with
  | nil => exact ⟨h, fun _ hline => absurd hline List.not_mem_nil⟩
  | cons piece more ih =>
    obtain ⟨hpiece, hmore⟩ := List.forall_mem_cons.1 h
    obtain ⟨hfirst, hothers⟩ := ih hmore
    unfold Trivia.splitLines
    dsimp only
    split
    · exact ⟨fun _ hpiece => absurd hpiece List.not_mem_nil, List.forall_mem_cons.2 ⟨hfirst, hothers⟩⟩
    · exact ⟨List.forall_mem_cons.2 ⟨hpiece, hfirst⟩, hothers⟩

theorem comments : Trivia.Over C trivia.comments :=
  fun piece hpiece => h piece (List.mem_of_mem_filter hpiece)

theorem commentLines : ∀ line ∈ trivia.commentLines, Trivia.Over C line := by
  intro line hline piece hpiece
  obtain ⟨whole, hwhole, rfl⟩ := List.mem_map.1 hline
  exact h.splitLines.2 whole ((List.dropLast_subset _) hwhole) piece (List.mem_of_mem_filter hpiece)

theorem allCommentLines : ∀ line ∈ trivia.allCommentLines, Trivia.Over C line := by
  intro line hline
  rcases List.mem_append.1 (List.mem_of_mem_filter hline) with hopening | hline
  · split at hopening
    · cases hopening
    · rw [List.mem_singleton.1 hopening]
      exact comments h.splitLines.1
  · exact h.commentLines line hline

theorem lineText (hC : Alphabet C) : Text.Over C (Trivia.lineText trivia) :=
  .intercalate (.literal hC (by decide)) fun text htext => by
    obtain ⟨piece, hpiece, rfl⟩ := List.mem_map.1 htext
    exact h piece hpiece

end Trivia.Over

/--
The texts of tokens.
-/
theorem Token.over_texts {ts : List Token} (h : ∀ t ∈ ts, t.Over C) : ∀ t ∈ ts, Text.Over C t.text :=
  fun t ht => (h t ht).text

section Members

variable {P : Token → Prop}

namespace ItemList

variable {ι : Type} [HasTokens ι] {list : ItemList ι} (h : ∀ t ∈ tokens list, P t)
include h

theorem forall_items : ∀ item ∈ list.items, ∀ t ∈ tokens item, P t :=
  fun _ hitem t ht => h t ((infix_tokens hitem).subset ht)

theorem forall_opening : P list.opening :=
  h _ (List.mem_append_left _ List.mem_cons_self)

theorem forall_closing : P list.closing :=
  h _ (List.mem_append_right _ (List.mem_singleton.2 rfl))

/--
The leaders of items are the bracket and the commas between the items.
-/
theorem forall_ledItems : ∀ led ∈ list.ledItems, P led.1 ∧ ∀ t ∈ tokens led.2, P t := by
  have hinterleave (leader : Token) (items : List ι) (commas : List Token) (hleader : P leader)
      (h : ∀ t ∈ interleave items commas, P t) :
      ∀ led ∈ (leader :: commas).zip items, P led.1 ∧ ∀ t ∈ tokens led.2, P t := by
    induction items generalizing leader commas with
    | nil => exact fun led hled => absurd hled (by simp)
    | cons item items ih =>
      rw [List.zip_cons_cons, List.forall_mem_cons]
      cases commas with
      | nil =>
        rw [interleave, List.forall_mem_append] at h
        exact ⟨⟨hleader, h.1⟩, fun led hled => absurd hled (by simp)⟩
      | cons comma commas =>
        rw [interleave, List.forall_mem_append, List.forall_mem_cons] at h
        exact ⟨⟨hleader, h.1⟩, ih comma commas h.2.1 h.2.2⟩
  exact hinterleave _ _ _ (forall_opening h) fun t ht => h t (List.mem_append_left _ (List.mem_cons_of_mem _ ht))

end ItemList

theorem Constructor.forall_record {c : Constructor} (h : ∀ t ∈ tokens c, P t) : ∀ r ∈ c.record, ∀ t ∈ tokens r, P t := by
  intro r hr t ht
  refine h t (List.mem_append_left _ (List.mem_append_right _ ?_))
  rw [Option.mem_def.1 hr]
  exact ht

namespace DataDecl

variable {d : DataDecl} (h : ∀ t ∈ tokens d, P t)
include h

theorem forall_ledConstructors : ∀ row ∈ d.ledConstructors, P row.1 ∧ ∀ t ∈ tokens row.2, P t := by
  intro row hrow
  refine List.forall_mem_cons.1 fun t ht => h t (List.mem_append_left _ (List.mem_append_right _ ?_))
  exact List.mem_flatMap.2 ⟨row, hrow, ht⟩

theorem forall_constructors : ∀ c ∈ d.constructors, ∀ t ∈ tokens c, P t := by
  intro c hc
  rcases List.mem_cons.1 hc with rfl | hc
  · exact (forall_ledConstructors h (d.equals, d.constructor) List.mem_cons_self).2
  · obtain ⟨row, hrow, rfl⟩ := List.mem_map.1 hc
    exact (forall_ledConstructors h row (List.mem_cons_of_mem _ hrow)).2

theorem forall_derivings : ∀ clause ∈ d.derivings, ∀ t ∈ tokens clause, P t :=
  fun clause hclause t ht => h t (List.mem_append_right _ (List.mem_flatMap.2 ⟨clause, hclause, ht⟩))

end DataDecl

end Members

section Flat

variable (hC : Alphabet C)
include hC

namespace Token

variable {ts : List Token} (h : ∀ t ∈ ts, Text.Over C t.text)
include h

theorem over_flat : Text.Over C (flat ts) := by
  have hrest (previous : Token) (ts : List Token) (h : ∀ t ∈ ts, Text.Over C t.text) :
      Text.Over C (flatRest previous ts) := by
    induction ts generalizing previous with
    | nil => exact .empty
    | cons t ts ih =>
      rw [List.forall_mem_cons] at h
      exact ((Text.Over.ite (.literal hC (by decide)) .empty).append h.1).append (ih t h.2)
  cases ts with
  | nil => exact .empty
  | cons t ts =>
    rw [List.forall_mem_cons] at h
    exact h.1.append (hrest t ts h.2)

theorem over_words : Text.Over C (" ".intercalate (ts.map (·.text))) :=
  .intercalate (.literal hC (by decide)) fun text htext => by
    obtain ⟨t, ht, rfl⟩ := List.mem_map.1 htext
    exact h t ht

end Token

theorem Entry.over_flat {e : Entry} (h : ∀ t ∈ tokens e, Text.Over C t.text) : Text.Over C e.flat :=
  Token.over_flat hC h

theorem ItemList.over_flat {list : ItemList Entry} (h : ∀ t ∈ tokens list, Text.Over C t.text) : Text.Over C list.flat := by
  refine ((forall_opening h).append (.intercalate (.literal hC (by decide)) ?_)).append (forall_closing h)
  intro text htext
  obtain ⟨entry, hentry, rfl⟩ := List.mem_map.1 htext
  exact Entry.over_flat hC (forall_items h entry hentry)

theorem Field.over_flat {f : Field} (h : ∀ t ∈ tokens f, Text.Over C t.text) (width : Nat) : Text.Over C (f.flat width) := by
  obtain ⟨hnames, htype⟩ := List.forall_mem_append.1 h
  exact ((Token.over_flat hC hnames).padRight hC width |>.append (.literal hC (by decide))).append
    (Token.over_flat hC (List.forall_mem_cons.1 htype).2)

theorem Record.over_flat {r : Record} (h : ∀ t ∈ tokens r, Text.Over C t.text) : Text.Over C r.flat := by
  unfold flat
  split
  · exact .literal hC (by decide)
  · refine ((Text.Over.literal hC (by decide)).append (.intercalate (.literal hC (by decide)) ?_)).append
      (.literal hC (by decide))
    intro text htext
    obtain ⟨f, hf, rfl⟩ := List.mem_map.1 htext
    exact Field.over_flat hC (ItemList.forall_items h f hf) 0

theorem Constructor.over_flat {c : Constructor} (h : ∀ t ∈ tokens c, Text.Over C t.text) : Text.Over C c.flat := by
  have hrecord := forall_record h
  obtain ⟨hbefore, hafter⟩ := List.forall_mem_append.1 h
  refine ((Token.over_flat hC (List.forall_mem_append.1 hbefore).1).append ?_).append (Text.Over.ite .empty ?_)
  · cases hr : c.record with
    | none => exact .empty
    | some r => exact (Text.Over.literal hC (by decide)).append (Record.over_flat hC (hrecord r hr))
  · exact (Text.Over.literal hC (by decide)).append (Token.over_flat hC hafter)

theorem Deriving.over_flat {d : Deriving} (h : ∀ t ∈ tokens d, Text.Over C t.text) (width : Nat) : Text.Over C (d.flat width) := by
  obtain ⟨hbefore, hvia⟩ := List.forall_mem_append.1 h
  obtain ⟨hkeyword, hclasses⟩ := List.forall_mem_append.1 hbefore
  obtain ⟨hkeyword, hstrategy⟩ := List.forall_mem_cons.1 hkeyword
  have hflat : Text.Over C d.flatKeyword := by
    unfold flatKeyword
    split
    · next strategy hsome =>
      have hmem : strategy ∈ d.strategy.toList := by rw [hsome]; exact List.mem_singleton.2 rfl
      exact (hkeyword.append (.literal hC (by decide))).append (hstrategy strategy hmem)
    · exact hkeyword
  refine (((hflat.padRight hC width).append (.literal hC (by decide))).append (Text.Over.ite ?_ ?_)).append
    (Text.Over.ite .empty ?_)
  · exact ((Text.Over.literal hC (by decide)).append (Token.over_flat hC hclasses)).append (.literal hC (by decide))
  · exact Token.over_flat hC hclasses
  · exact (Text.Over.literal hC (by decide)).append (Token.over_flat hC hvia)

theorem Signature.over_flat {s : Signature} (h : ∀ t ∈ tokens s, Text.Over C t.text) : Text.Over C s.flat := by
  obtain ⟨hnames, htype⟩ := List.forall_mem_append.1 h
  exact ((Token.over_flat hC hnames).append (.literal hC (by decide))).append
    (Token.over_flat hC (List.forall_mem_cons.1 htype).2)

namespace DataDecl

variable {d : DataDecl} (h : ∀ t ∈ tokens d, Text.Over C t.text)
include h

theorem over_flatHead : Text.Over C d.flatHead := by
  obtain ⟨hkeyword, hhead⟩ := List.forall_mem_cons.1
    (List.forall_mem_append.1 (List.forall_mem_append.1 h).1).1
  exact (hkeyword.append (.literal hC (by decide))).append (Token.over_flat hC hhead)

theorem over_flat : Text.Over C d.flat := by
  refine ((over_flatHead hC h).append (.literal hC (by decide))).append (.intercalate (.literal hC (by decide)) ?_)
  intro text htext
  obtain ⟨c, hc, rfl⟩ := List.mem_map.1 htext
  exact Constructor.over_flat hC (forall_constructors h c hc)

end DataDecl

namespace Pragma

variable (p : Pragma)

theorem over_word : ∀ word ∈ p.words, Text.Over C word := by
  intro word hword c hc
  obtain ⟨cs, hcs, rfl⟩ := List.mem_map.1 hword
  rw [String.toList_ofList] at hc
  exact hC.visible (Text.not_of_mem_fields (List.mem_of_mem_filter hcs) c hc)

theorem over_extension : ∀ extension ∈ p.extensions, Text.Over C extension := by
  intro extension hextension c hc
  have hbody : Text.Over C p.body :=
    .intercalate (.literal hC (by decide)) fun word hword => over_word hC p word (List.mem_of_mem_drop hword)
  unfold extensions at hextension
  dsimp only at hextension
  split at hextension
  · obtain ⟨part, hpart, rfl⟩ := List.mem_map.1 hextension
    obtain ⟨field, hfield, rfl⟩ := List.mem_map.1 (List.mem_of_mem_filter hpart)
    rw [String.toList_ofList] at hc
    exact hbody c (((Text.infix_trimBlanks field).trans (Text.infix_of_mem_fields hfield)).subset hc)
  · cases hextension

theorem over_languageText (width : Nat) : Text.Over C (p.languageText width) := by
  have hname : Text.Over C (p.words.headD "LANGUAGE") := by
    cases hwords : p.words with
    | nil => exact .literal hC (by decide)
    | cons word words => exact over_word hC p word (hwords ▸ List.mem_cons_self)
  have hlist : Text.Over C (", ".intercalate p.extensions) :=
    .intercalate (.literal hC (by decide)) (over_extension hC p)
  have hlanguage : Text.Over C p.flatLanguage :=
    (((Text.Over.literal hC (by decide)).append hname).append (.literal hC (by decide))).append hlist
  exact (hlanguage.padRight hC width).append (.literal hC (by decide))

variable {p} in
theorem over_flat (h : Text.Over C p.token.text) : Text.Over C p.flat := by
  refine .ite h (.ite (over_languageText hC p 0) ?_)
  exact ((Text.Over.literal hC (by decide)).append
    (.intercalate (.literal hC (by decide)) (over_word hC p))).append (.literal hC (by decide))

end Pragma

end Flat

end HaskellStyle
