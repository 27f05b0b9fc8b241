import HaskellStyle.Proofs.Token.Faithful
import HaskellStyle.Proofs.Token.Lossless
import HaskellStyle.Proofs.Token.QuasiQuote
import Mathlib.Data.List.Forall2

/-!
This module contains the tokens of a text in which the blanks between two tokens are replaced by other blanks. The
tokens in front stay where they are, and all others keep their distance from the first token behind the blanks.
-/

namespace HaskellStyle

namespace Lexeme

theorem tiled_append {start : Position} {a b : List Lexeme} :
    Tiled start (a ++ b) ↔ Tiled start a ∧ Tiled (start.after (join a)) b := by
  induction a generalizing start with
  | nil => simp [Tiled]
  | cons l a ih => rw [List.cons_append, Tiled, Tiled, ih, join_cons, Position.after_append, and_assoc]

theorem join_eq_flatMap (ls : List Lexeme) : (ls.map spelling).flatMap Prod.snd = join ls :=
  List.flatMap_map ..

theorem Tiling.offset {text : List Char} {before after : List Lexeme} {l : Lexeme}
    (h : Tiling .origin text (before ++ l :: after)) : l.position.offset = (join before).length := by
  rw [h.tiled.split, Position.offset_after]
  exact Nat.zero_add _

/--
Lexemes that are spelled alike and begin at the same place are the same.
-/
theorem eq_of_tiled {start : Position} {ls ls' : List Lexeme} (h : Tiled start ls) (h' : Tiled start ls')
    (hspelling : ls'.map spelling = ls.map spelling) : ls' = ls := by
  induction ls generalizing start ls' with
  | nil => exact List.map_eq_nil_iff.1 hspelling
  | cons l ls ih =>
    obtain ⟨l', ls', rfl, hl, hls⟩ := List.map_eq_cons_iff.1 hspelling
    obtain ⟨hkind, htext⟩ := Prod.mk.inj hl
    have htext := String.toList_inj.1 htext
    obtain rfl : l' = l := by
      have hposition := h'.1.trans h.1.symm
      cases l
      cases l'
      simp only at hkind htext hposition
      rw [hkind, htext, hposition]
    rw [ih h.2 h'.2 hls]

section

variable {q : Bool} {p : Option Char} {start : Position} {before rest : List Lexeme} {l : Lexeme} {kind : TokenKind}
  {s : List Char}

theorem Sound.endsHard_join (h : l.Sound) (hl : l.kind = .token kind) (before : List Lexeme) :
    join (before ++ [l]) ≠ [] ∧ EndsHard (join (before ++ [l])) := by
  have hne : l.text.toList ≠ [] := fun hnil => h.nonempty (String.toList_eq_nil_iff.1 hnil)
  rw [join_append, join_cons, join_nil, List.append_nil]
  refine ⟨fun hnil => hne (List.append_eq_nil_iff.1 hnil).2, fun c hc => ?_⟩
  rw [List.getLast?_append_of_ne_nil _ hne] at hc
  exact h.last kind hl c hc

theorem ofRest_of_ne {cs : List Char} (h : ∀ more, cs ≠ '#' :: '!' :: more) :
    ofRest q p start cs = scan q p start cs := by
  rw [ofRest]
  exact h

theorem ofRest_interpreter_append {u v : List Char} (h : directiveLength '!' (u ++ v) = u.length) :
    ofRest q p start ('#' :: '!' :: (u ++ v))
      = (scan q ('#' :: '!' :: u).getLast? (start.after ('#' :: '!' :: u)) v).map
        (⟨.trivia .directive, String.ofList ('#' :: '!' :: u), start⟩ :: ·) := by
  rw [ofRest, h]
  simp only [List.take_succ_cons, List.drop_succ_cons, List.take_left, List.drop_left]

/--
An interpreter line ends before the first token.
-/
theorem ofRest_front (h : ofRest q p start (join (before ++ [l]) ++ s) = .ok (before ++ l :: rest))
    (hl : l.kind = .token kind) :
    ∃ marks between, before = marks ++ between ∧ ∀ y, Soft y →
      ofRest q p start (join (before ++ [l]) ++ y)
        = (scan q ((join marks).getLast?.or p) (start.after (join marks)) (join (between ++ [l]) ++ y)).map
          (marks ++ ·) := by
  have hsound : l.Sound := (tiling_of_ofRest h).sound l (List.mem_append_right _ List.mem_cons_self)
  by_cases hline : ∃ more, join (before ++ [l]) ++ s = '#' :: '!' :: more
  · obtain ⟨more, hmore⟩ := hline
    obtain ⟨u, v, rfl, hlength⟩ : ∃ u v, more = u ++ v ∧ directiveLength '!' (u ++ v) = u.length := by
      refine ⟨_, _, (List.take_append_drop (directiveLength '!' more) more).symm, ?_⟩
      rw [List.take_append_drop, List.length_take_of_le (directiveLength_le '!' more)]
    rw [hmore, ofRest_interpreter_append hlength] at h
    obtain ⟨others, -, heq⟩ := map_eq_ok h
    cases before with
    | nil =>
      rw [← (List.cons.inj heq).1] at hl
      cases hl
    | cons first between =>
      obtain ⟨rfl, rfl⟩ := List.cons.inj heq
      obtain ⟨hne, hlast⟩ := hsound.endsHard_join hl between
      rw [List.cons_append, join_cons, String.toList_ofList, List.append_assoc, List.cons_append, List.cons_append,
        List.cons.injEq, List.cons.injEq, List.append_cancel_left_eq] at hmore
      generalize hw : join (between ++ [l]) = w at *
      obtain rfl := hmore.2.2
      refine ⟨[_], between, rfl, fun y hy => ?_⟩
      -- The line ends before the token.
      have hlength' : directiveLength '!' (u ++ (w ++ y)) = u.length := by
        rw [← List.append_assoc] at hlength ⊢
        rw [directiveLength_append _ _ y, hlength]
        · rw [hlength, List.length_append]
          exact Nat.lt_add_of_pos_right (List.length_pos_iff.2 hne)
        · rw [List.getLast?_append_of_ne_nil _ hne]
          exact hlast.ne_return
      have hcs : join (⟨.trivia .directive, String.ofList ('#' :: '!' :: u), start⟩ :: between ++ [l]) ++ y
          = '#' :: '!' :: (u ++ (w ++ y)) := by
        rw [List.cons_append, join_cons, String.toList_ofList, hw]
        simp
      rw [hcs, ofRest_interpreter_append hlength', join_cons, join_nil, String.toList_ofList, List.append_nil, hw,
        List.getLast?_cons, Option.some_or]
      rfl
  -- What stands behind the token does not make an interpreter line.
  · have hnone (y : List Char) (hy : Soft y) : ∀ more, join (before ++ [l]) ++ y ≠ '#' :: '!' :: more := by
      intro more hmore
      refine hline ?_
      have hne := (hsound.endsHard_join hl before).1
      generalize join (before ++ [l]) = w at *
      match w, hmore with
      | [_], hmore =>
        rw [List.singleton_append, List.cons.injEq] at hmore
        exact absurd (congrArg List.head? hmore.2) (not_mem_head?_of_soft hy (by decide))
      | _ :: _ :: w, hmore =>
        simp only [List.cons_append, List.cons.injEq] at hmore
        exact ⟨w ++ s, by rw [hmore.1, hmore.2.1]; rfl⟩
    refine ⟨[], before, rfl, fun y hy => ?_⟩
    rw [ofRest_of_ne (hnone y hy)]
    exact (congrFun Except.map_id _).symm

theorem map_append_map (x : Except Failure (List Lexeme)) (a b : List Lexeme) :
    (x.map (b ++ ·)).map (a ++ ·) = x.map (a ++ b ++ ·) := by
  cases x with
  | error e => rfl
  | ok ls => exact congrArg Except.ok (List.append_assoc a b ls).symm

/--
A byte order mark and an interpreter line end before the first token.
-/
theorem ofText_front (h : ofText q (join (before ++ [l]) ++ s) = .ok (before ++ l :: rest))
    (hl : l.kind = .token kind) :
    ∃ marks between, before = marks ++ between ∧ ∀ y, Soft y →
      ofText q (join (before ++ [l]) ++ y)
        = (scan q (join marks).getLast? (Position.origin.after (join marks)) (join (between ++ [l]) ++ y)).map
          (marks ++ ·) := by
  have hsound : l.Sound := (tiling_of_ofText h).sound l (List.mem_append_right _ List.mem_cons_self)
  have hhead (y : List Char) : (join (before ++ [l]) ++ y).head? = (join (before ++ [l])).head? :=
    List.head?_append_of_ne_nil _ (hsound.endsHard_join hl before).1
  simp only [ofText_eq, hhead] at h ⊢
  split at h
  · next hmark =>
    simp only [if_pos hmark]
    obtain ⟨others, hothers, heq⟩ := map_eq_ok h
    cases before with
    | nil =>
      rw [← (List.cons.inj heq).1] at hl
      cases hl
    | cons first before =>
      obtain ⟨rfl, rfl⟩ := List.cons.inj heq
      have hdrop (y : List Char) :
          (join (⟨.trivia .byteOrderMark, String.singleton '\ufeff', .origin⟩ :: before ++ [l]) ++ y).drop 1
            = join (before ++ [l]) ++ y := rfl
      simp only [hdrop] at hothers ⊢
      obtain ⟨marks, between, rfl, hscan⟩ := ofRest_front hothers hl
      refine ⟨_ :: marks, between, rfl, fun y hy => ?_⟩
      rw [hscan y hy, join_cons, show (String.singleton '\ufeff').toList = ['\ufeff'] from by decide,
        List.getLast?_append, Position.after_append]
      exact map_append_map _ [_] marks
  · next hmark =>
    simp only [if_neg hmark]
    simpa only [Option.or_none] using ofRest_front h hl

theorem column_of_startsLine {cs : List Char} (h : startsLine cs.getLast?) : (Position.origin.after cs).column = 0 := by
  rcases h with h | h
  · rw [List.getLast?_eq_none_iff.1 h]
    rfl
  · obtain ⟨ds, rfl⟩ := List.getLast?_eq_some_iff.1 h
    rw [Position.after_append]
    rfl

theorem tokenTexts_append (a b : List (LexemeKind × List Char)) : tokenTexts (a ++ b) = tokenTexts a ++ tokenTexts b :=
  List.filterMap_append

/--
The lexemes up to a token in front of blanks are the same whatever these blanks are, if all tokens are spelled as
before.
-/
theorem ofText_gap {ls : List Lexeme} {y : List Char}
    (h : ofText q (join (before ++ [l]) ++ s) = .ok (before ++ l :: rest))
    (h' : ofText q (join (before ++ [l]) ++ y) = .ok ls) (hl : l.kind = .token kind) (hs : Soft s) (hy : Soft y)
    (hmark : l.text.toList = ['#'] → l.position.column ≠ 0)
    (htexts : tokenTexts (ls.map spelling) = tokenTexts ((before ++ l :: rest).map spelling)) :
    ∃ rest', ls = before ++ l :: rest' ∧ spell q none y = some (rest'.map spelling) := by
  have htiling := tiling_of_ofText h
  have htiling' := tiling_of_ofText h'
  have hsound : l.Sound := htiling.sound l (List.mem_append_right _ List.mem_cons_self)
  obtain ⟨marks, between, rfl, hscan⟩ := ofText_front h hl
  rw [hscan s hs] at h
  rw [hscan y hy] at h'
  obtain ⟨others, hothers, heq⟩ := map_eq_ok h
  obtain ⟨others', hothers', rfl⟩ := map_eq_ok h'
  rw [List.append_assoc, List.append_cancel_left_eq] at heq
  subst heq
  have hfront : ((between ++ [l]).map spelling).flatMap Prod.snd = join (between ++ [l]) := join_eq_flatMap _
  -- Only a number sign at the margin could begin a directive.
  have hmark' : ∀ ps k, (between ++ [l]).map spelling = ps ++ [(k, ['#'])] →
      ¬startsLine ((ps.flatMap Prod.snd).getLast?.or (join marks).getLast?) := by
    intro ps k hps hstart
    rw [List.map_append] at hps
    obtain ⟨rfl, hl⟩ := List.append_inj' hps rfl
    rw [join_eq_flatMap, ← List.getLast?_append, ← join_append] at hstart
    refine hmark (Prod.mk.inj (List.cons.inj hl).1).2 ?_
    rw [htiling.tiled.split]
    exact column_of_startsLine hstart
  have hsplit : marks ++ between ++ l :: rest = marks ++ ((between ++ [l]) ++ rest) := by simp
  have htexts' :
      tokenTexts (others'.map spelling) = tokenTexts ((between ++ [l]).map spelling ++ rest.map spelling) := by
    rw [hsplit, List.map_append, List.map_append, List.map_append, tokenTexts_append, tokenTexts_append] at htexts
    exact List.append_cancel_left htexts
  have hspell : spell q (join marks).getLast? (((between ++ [l]).map spelling).flatMap Prod.snd ++ s)
      = some ((between ++ [l]).map spelling ++ rest.map spelling) := by
    rw [hfront, ← List.map_append, List.append_assoc]
    exact spell_of_scan hothers
  have hspell' : spell q (join marks).getLast? (((between ++ [l]).map spelling).flatMap Prod.snd ++ y)
      = some (others'.map spelling) := by
    rw [hfront]
    exact spell_of_scan hothers'
  obtain ⟨ps, hps, hrest⟩ := spell_gap hspell hspell' hs hy (by rw [hfront]; exact (hsound.endsHard_join hl between).2)
    (by simp [spelling, hl]) hmark' htexts'
  obtain ⟨front, rest', rfl, hfronts, rfl⟩ := List.map_eq_append_iff.1 hps
  have htiled := htiling.tiled
  have htiled' := htiling'.tiled
  rw [hsplit, tiled_append, tiled_append] at htiled
  rw [tiled_append, tiled_append] at htiled'
  obtain rfl := eq_of_tiled htiled.2.1 htiled'.2.1 hfronts
  exact ⟨rest', by simp, hrest⟩

/--
Lexemes that are spelled alike and keep their distance from the places `p` and `p'`.
-/
structure Moved (p p' : Position) (l l' : Lexeme) : Prop where
  spelling_eq : l'.spelling = l.spelling
  place : ∃ cs, l.position = p.after cs ∧ l'.position = p'.after cs

theorem forall₂_moved {p p' : Position} {cs : List Char} {ls ls' : List Lexeme} (h : Tiled (p.after cs) ls)
    (h' : Tiled (p'.after cs) ls') (hspelling : ls'.map spelling = ls.map spelling) :
    List.Forall₂ (Moved p p') ls ls' := by
  induction ls generalizing cs ls' with
  | nil =>
    rw [List.map_eq_nil_iff.1 hspelling]
    exact .nil
  | cons l ls ih =>
    obtain ⟨l', ls', rfl, hl, hls⟩ := List.map_eq_cons_iff.1 hspelling
    have htext : l'.text.toList = l.text.toList := (Prod.mk.inj hl).2
    refine .cons ⟨hl, cs, h.1, h'.1⟩ (@ih (cs ++ l.text.toList) ls' ?_ ?_ hls)
    · rw [Position.after_append]
      exact h.2
    · rw [Position.after_append, ← htext]
      exact h'.2

/--
A token is what is read where it begins, also on another line unless that makes its number sign the mark of a directive.
-/
theorem spell_token {p p' : Option Char} {cs : List Char} {between behind : List Lexeme} {b : Lexeme}
    (h : spell q p cs = some ((between ++ b :: behind).map spelling)) (hb : b.kind = .token kind)
    (hp : b.text.toList.head? = some '#' → ¬startsLine p') :
    (∀ c ∈ (join (b :: behind)).head?, Text.isBlank c = false)
      ∧ spell q p' (join (b :: behind)) = some ((b :: behind).map spelling) := by
  rw [List.map_append, List.map_cons] at h
  obtain ⟨p, c, u, htext, hmeasure, hrest⟩ := spell_split h
  rw [join_eq_flatMap] at hmeasure hrest
  rw [hb] at hmeasure
  rw [htext] at hp
  have hjoin : join (b :: behind) = c :: (u ++ join behind) := by
    rw [join_cons, htext]
    rfl
  rw [hjoin]
  refine ⟨?_, ?_⟩
  · rintro _ ⟨⟩
    refine Bool.eq_false_iff.2 fun hblank => ?_
    obtain ⟨k, n, htrivia, -⟩ := @measure_blank q p 0 c (u ++ join behind) hblank
    cases hmeasure.symm.trans htrivia
  · rw [spell_append (measure_midline hmeasure fun hc => hp (congrArg some hc)), ← htext, hrest, List.map_cons,
      spelling, hb, htext]
    rfl

/--
The lexemes behind the blanks keep their distance from the first of them.
-/
theorem ofText_respace {between behind ls : List Lexeme} {b : Lexeme} {kind' : TokenKind} {gap : List Char}
    (h : ofText q (join (before ++ [l]) ++ (join between ++ join (b :: behind)))
      = .ok (before ++ l :: (between ++ b :: behind)))
    (h' : ofText q (join (before ++ [l]) ++ (gap ++ join (b :: behind))) = .ok ls) (hl : l.kind = .token kind)
    (hb : b.kind = .token kind') (hbetween : Text.IsGap (join between)) (hgap : Text.IsGap gap)
    (hmark : l.text.toList = ['#'] → l.position.column ≠ 0)
    (hmark' : b.text.toList.head? = some '#' → (Position.origin.after (join (before ++ [l]) ++ gap)).column ≠ 0)
    (htexts : tokenTexts (ls.map spelling) = tokenTexts ((before ++ l :: (between ++ b :: behind)).map spelling)) :
    ∃ between' b' behind', ls = before ++ l :: (between' ++ b' :: behind')
      ∧ (∀ g ∈ between', ∃ k, g.kind = .trivia k) ∧ b'.spelling = b.spelling
      ∧ b'.position = Position.origin.after (join (before ++ [l]) ++ gap)
      ∧ List.Forall₂ (Moved b.position b'.position) behind behind' := by
  obtain ⟨rest, rfl, hrest⟩ := ofText_gap h h' hl (hbetween.soft _) (hgap.soft _) hmark htexts
  -- The same text twice tells how what follows the token was read.
  obtain ⟨_, hsame, hspell⟩ := ofText_gap h h hl (hbetween.soft _) (hbetween.soft _) hmark rfl
  obtain rfl := (List.cons.inj (List.append_cancel_left hsame)).2
  obtain ⟨hhard, hspell⟩ := spell_token hspell hb fun hhead hstart => hmark' hhead (column_of_startsLine (by
    rw [List.getLast?_append_of_ne_nil _ hgap.nonempty]
    exact hstart))
  obtain ⟨pieces, more, hpieces, htrivia, hjoin, hmore⟩ := spell_blank hrest hgap.isBlank hhard
  rw [Option.or_none, hspell] at hmore
  obtain rfl := Option.some.inj hmore
  obtain ⟨between', rest, rfl, rfl, hbehind⟩ := List.map_eq_append_iff.1 hpieces
  obtain ⟨b', behind', rfl, hb', hbehind⟩ := List.map_eq_cons_iff.1 hbehind
  have htiled := (tiling_of_ofText h).tiled
  have htiled' := (tiling_of_ofText h').tiled
  have hsplit (between behind : List Lexeme) (b : Lexeme) :
      before ++ l :: (between ++ b :: behind) = (before ++ [l] ++ between) ++ b :: behind := by simp
  rw [hsplit, tiled_append] at htiled htiled'
  have hplace : b'.position = Position.origin.after (join (before ++ [l]) ++ gap) := by
    rw [htiled'.2.1, join_append, ← hjoin, join_eq_flatMap]
  refine ⟨between', b', behind', rfl, ?_, hb', hplace, ?_⟩
  · intro g hg
    exact htrivia _ (List.mem_map_of_mem hg)
  · have htext : b'.text.toList = b.text.toList := (Prod.mk.inj hb').2
    refine @forall₂_moved _ _ b.text.toList _ _ ?_ ?_ hbehind
    · rw [htiled.2.1]
      exact htiled.2.2
    · rw [htiled'.2.1, ← htext]
      exact htiled'.2.2

end

end Lexeme

namespace Token

/--
The token of a group as the lexeme that it was.
-/
def groupLexeme (group : (TokenKind × String × Position) × Trivia) : Lexeme :=
  ⟨.token group.1.1, group.1.2.1, group.1.2.2⟩

/--
The groups up to a token do not depend on what stands behind it.
-/
theorem exists_of_groupLexemes {ls : List Lexeme} {before after : List ((TokenKind × String × Position) × Trivia)}
    {group : (TokenKind × String × Position) × Trivia} (h : (groupLexemes ls).2 = before ++ group :: after) :
    ∃ front behind, ls = front ++ groupLexeme group :: behind ∧ groupLexemes behind = (group.2, after) ∧
      ∀ rest, groupLexemes (front ++ groupLexeme group :: rest)
        = ((groupLexemes ls).1, before ++ (group.1, (groupLexemes rest).1) :: (groupLexemes rest).2) := by
  induction ls generalizing before with
  | nil => simp [groupLexemes] at h
  | cons l ls ih =>
    rw [groupLexemes] at h ⊢
    cases hkind : l.kind with
    | trivia kind =>
      simp only [hkind] at h ⊢
      obtain ⟨front, behind, rfl, hbehind, hrest⟩ := ih h
      refine ⟨l :: front, behind, rfl, hbehind, fun rest => ?_⟩
      rw [List.cons_append, groupLexemes, hrest]
      simp only [hkind]
    | token kind =>
      simp only [hkind] at h ⊢
      cases before with
      | nil =>
        obtain ⟨rfl, rfl⟩ := List.cons.inj h
        refine ⟨[], ls, ?_, rfl, fun rest => rfl⟩
        rw [groupLexeme, ← hkind]
        rfl
      | cons first before =>
        obtain ⟨rfl, hmore⟩ := List.cons.inj h
        obtain ⟨front, behind, rfl, hbehind, hrest⟩ := ih hmore
        refine ⟨l :: front, behind, rfl, hbehind, fun rest => ?_⟩
        rw [List.cons_append, groupLexemes, hrest]
        simp only [hkind]
        rfl

/--
The tokens up to a group do not depend on what stands behind it.
-/
theorem exists_of_attach {leading : Trivia} {endLine : Option Nat}
    {groups : List ((TokenKind × String × Position) × Trivia)} {front behind : List Token} {t : Token}
    (h : (attach leading endLine groups).1 = front ++ t :: behind) :
    ∃ before group after next, groups = before ++ group :: after
      ∧ t.lexeme = groupLexeme group
      ∧ behind = (attach next (some t.endLine) after).1
      ∧ ∀ following rest, ∃ t' next', t'.bare = t.bare ∧ t'.position = t.position
        ∧ (attach leading endLine (before ++ (group.1, following) :: rest)).1
          = front ++ t' :: (attach next' (some t.endLine) rest).1 := by
  induction groups generalizing leading endLine front with
  | nil => simp [attach] at h
  | cons group groups ih =>
    rw [attach_cons] at h
    cases front with
    | nil =>
      obtain ⟨rfl, rfl⟩ := List.cons.inj h
      exact ⟨[], group, groups, _, rfl, rfl, rfl, fun following rest =>
        ⟨attached leading endLine (group.1, following) rest.isEmpty, (splitTrivia following rest.isEmpty).2,
          rfl, rfl, rfl⟩⟩
    | cons first front =>
      obtain ⟨rfl, hmore⟩ := List.cons.inj h
      obtain ⟨before, hit, after, next, rfl, hlexeme, hbehind, hattach⟩ := ih hmore
      refine ⟨group :: before, hit, after, next, rfl, hlexeme, hbehind, fun following rest => ?_⟩
      obtain ⟨t', next', hbare, hposition, hrest⟩ := hattach following rest
      have hempty (group : (TokenKind × String × Position) × Trivia)
          (after : List ((TokenKind × String × Position) × Trivia)) : (before ++ group :: after).isEmpty = false := by
        cases before <;> rfl
      refine ⟨t', next', hbare, hposition, ?_⟩
      rw [hempty] at hrest ⊢
      rw [List.cons_append, attach_cons, hempty]
      exact congrArg _ hrest

/--
Tokens that are spelled alike and keep their distance from the places `p` and `p'`.
-/
structure Moved (p p' : Position) (t t' : Token) : Prop where
  spelled_eq : t'.spelled = t.spelled
  lineStart_eq : t'.lineStart = t.lineStart
  place : ∃ cs, t.position = p.after cs ∧ t'.position = p'.after cs

theorem spelled_of_spelling {t t' : Token} (h : t'.lexeme.spelling = t.lexeme.spelling) : t'.spelled = t.spelled := by
  obtain ⟨hkind, htext⟩ := Prod.mk.inj h
  rw [spelled, spelled, show t'.kind = t.kind from LexemeKind.token.inj hkind,
    show t'.text = t.text from String.toList_inj.1 htext]

variable {p p' : Position}

/--
Behind a line end a token keeps its column.
-/
theorem Moved.column_eq {t t' : Token} (h : Moved p p' t t') (hline : p.line < t.line) : t'.column = t.column := by
  obtain ⟨cs, hplace, hplace'⟩ := h.place
  rw [line, hplace, Position.line_after] at hline
  rw [column, column, hplace, hplace', Position.column_after, Position.column_after]
  exact Text.visualWidth_of_newline (List.count_pos_iff.1 (by omega)) _ _

theorem Moved.bare_eq {t t' : Token} (h : Moved p p' t t') (hline : p.line < t.line) : t'.bare = t.bare := by
  have hspelled := h.spelled_eq
  simp only [spelled, mk.injEq, and_true] at hspelled
  rw [bare, bare, h.column_eq hline, h.lineStart_eq, hspelled.1, hspelled.2]

theorem Moved.lt_column {t t' : Token} (h : Moved p p' t t') {column : Int} (ht : column < t.column)
    (hp : column < p'.column) : column < t'.column := by
  obtain ⟨cs, hplace, hplace'⟩ := h.place
  rw [Token.column, hplace, Position.column_after] at ht
  rw [Token.column, hplace', Position.column_after]
  by_cases hcs : '\n' ∈ cs
  · rwa [Text.visualWidth_of_newline hcs _ p.column]
  · exact Int.lt_of_lt_of_le hp (Text.le_visualWidth hcs _)

theorem map_spelled_of_moved {ts ts' : List Token} (h : List.Forall₂ (Moved p p') ts ts') :
    ts'.map spelled = ts.map spelled := by
  induction h with
  | nil => rfl
  | cons ht _ ih => rw [List.map_cons, List.map_cons, ht.spelled_eq, ih]

theorem map_bare_of_moved {ts ts' : List Token} (h : List.Forall₂ (Moved p p') ts ts')
    (hline : ∀ t ∈ ts, p.line < t.line) : ts'.map bare = ts.map bare := by
  induction h with
  | nil => rfl
  | cons ht _ ih =>
    rw [List.forall_mem_cons] at hline
    rw [List.map_cons, List.map_cons, ht.bare_eq hline.1, ih hline.2]

theorem lt_column_of_moved {ts ts' : List Token} (h : List.Forall₂ (Moved p p') ts ts') {column : Int}
    (hts : ∀ t ∈ ts, column < t.column) (hp : column < p'.column) : ∀ t ∈ ts', column < t.column := by
  induction h with
  | nil => exact List.forall_mem_nil _
  | cons ht _ ih =>
    rw [List.forall_mem_cons] at hts ⊢
    exact ⟨ht.lt_column hts.1 hp, ih hts.2⟩

theorem forall₂_groupLexemes {ls ls' : List Lexeme} (h : List.Forall₂ (Lexeme.Moved p p') ls ls') :
    List.Forall₂ (fun g g' => Lexeme.Moved p p' (groupLexeme g) (groupLexeme g')) (groupLexemes ls).2
      (groupLexemes ls').2 := by
  induction h with
  | nil => exact .nil
  | @cons l l' ls ls' hl _ ih =>
    have hkind : l'.kind = l.kind := (Prod.mk.inj hl.spelling_eq).1
    rw [groupLexemes, groupLexemes, hkind]
    cases hk : l.kind with
    | trivia kind => exact ih
    | token kind =>
      refine .cons ⟨?_, hl.place⟩ ih
      exact congrArg (Prod.mk _) (Prod.mk.inj hl.spelling_eq).2

/--
Where a token begins a line depends on the distance to the token before it.
-/
theorem forall₂_attach {groups groups' : List ((TokenKind × String × Position) × Trivia)}
    (h : List.Forall₂ (fun g g' => Lexeme.Moved p p' (groupLexeme g) (groupLexeme g')) groups groups')
    (leading leading' : Trivia) (n : Nat) :
    List.Forall₂ (Moved p p') (attach leading (some (p.line + n)) groups).1
      (attach leading' (some (p'.line + n)) groups').1 := by
  induction h generalizing leading leading' n with
  | nil => exact .nil
  | @cons g g' groups groups' hg _ ih =>
    obtain ⟨cs, hplace, hplace'⟩ := hg.place
    obtain ⟨hkind, htext⟩ := Prod.mk.inj hg.spelling_eq
    have hline : g.1.2.2.line = p.line + cs.count '\n' := by
      rw [show g.1.2.2 = _ from hplace, Position.line_after]
    have hline' : g'.1.2.2.line = p'.line + cs.count '\n' := by
      rw [show g'.1.2.2 = _ from hplace', Position.line_after]
    have htext : g'.1.2.1 = g.1.2.1 := String.toList_inj.1 htext
    rw [attach_cons, attach_cons]
    refine .cons ⟨?_, ?_, cs, hplace, hplace'⟩ ?_
    · exact spelled_of_spelling hg.spelling_eq
    · simp only [attached, Option.all_some, hline, hline', Nat.add_lt_add_iff_left]
    · have hend := ih (splitTrivia g.2 groups.isEmpty).2 (splitTrivia g'.2 groups'.isEmpty).2
        (cs.count '\n' + g.1.2.1.toList.count '\n')
      rw [← Nat.add_assoc, ← Nat.add_assoc, ← hline, ← hline'] at hend
      have hstop : (attached leading' (some (p'.line + n)) g' groups'.isEmpty).endLine
          = g'.1.2.2.line + g.1.2.1.toList.count '\n' := by
        rw [← htext]
        rfl
      rw [hstop]
      exact hend

theorem tokenTexts_groupLexemes (ls : List Lexeme) :
    Lexeme.tokenTexts (ls.map Lexeme.spelling) = (groupLexemes ls).2.map (·.1.2.1.toList) := by
  induction ls with
  | nil => rfl
  | cons l ls ih =>
    obtain ⟨kind | kind, text, position⟩ := l
    · exact congrArg _ ih
    · exact ih

theorem map_text_attach (leading : Trivia) (endLine : Option Nat)
    (groups : List ((TokenKind × String × Position) × Trivia)) :
    (attach leading endLine groups).1.map (·.text.toList) = groups.map (·.1.2.1.toList) := by
  induction groups generalizing leading endLine with
  | nil => rfl
  | cons group groups ih =>
    rw [attach_cons, List.map_cons]
    exact congrArg _ (ih _ _)

/--
The tokens of lexemes.
-/
def ofLexemes (ls : List Lexeme) : List Token :=
  (attach (groupLexemes ls).1 none (groupLexemes ls).2).1

theorem map_text_ofLexemes (ls : List Lexeme) :
    (ofLexemes ls).map (·.text.toList) = Lexeme.tokenTexts (ls.map Lexeme.spelling) := by
  rw [ofLexemes, map_text_attach, tokenTexts_groupLexemes]

/--
Lexemes that move move their tokens, behind other trivia and a token that stays.
-/
theorem exists_of_ofLexemes {ls : List Lexeme} {front back : List Token} {a b : Token}
    (h : ofLexemes ls = front ++ a :: b :: back) :
    ∃ first between behind, ls = first ++ a.lexeme :: (between ++ b.lexeme :: behind) ∧
      ∀ between' b' behind', (∀ l ∈ between', ∃ k, l.kind = .trivia k) → b'.spelling = b.lexeme.spelling →
        List.Forall₂ (Lexeme.Moved b.position b'.position) behind behind' →
        ∃ a' t back', ofLexemes (first ++ a.lexeme :: (between' ++ b' :: behind')) = front ++ a' :: t :: back'
          ∧ a'.bare = a.bare ∧ t.lexeme = b' ∧ List.Forall₂ (Moved b.position b'.position) back back' := by
  obtain ⟨before, group, after, next, hgroups, ha, hback, hfront⟩ := exists_of_attach h
  cases after with
  | nil => cases hback
  | cons group' after =>
  rw [attach_cons] at hback
  obtain ⟨hb, rfl⟩ := List.cons.inj hback
  rw [← hb]
  have hb : b.lexeme = groupLexeme group' := by rw [hb]; rfl
  obtain ⟨first, rest, rfl, hrest, hfirst⟩ := exists_of_groupLexemes hgroups
  have hgroup : (groupLexemes rest).2 = [] ++ group' :: after := by rw [hrest]; rfl
  obtain ⟨between, behind, rfl, hbehind, -⟩ := exists_of_groupLexemes hgroup
  rw [← ha, ← hb]
  refine ⟨first, between, behind, rfl, fun between' b' behind' htrivia hspelling hmoved => ?_⟩
  obtain ⟨kind', text', position'⟩ := b'
  obtain ⟨rfl, htext⟩ := Prod.mk.inj hspelling
  obtain rfl := String.toList_inj.1 htext
  rw [ofLexemes, ha, hfirst, groups_append htrivia]
  obtain ⟨a', next', hbare, -, hrest'⟩ :=
    hfront (groupLexemes (between' ++ ⟨.token b.kind, b.text, position'⟩ :: behind')).1
      (groupLexemes (⟨.token b.kind, b.text, position'⟩ :: behind')).2
  have hmore := forall₂_attach (forall₂_groupLexemes hmoved)
  simp only [hbehind] at hmore
  exact ⟨a', _, _, hrest', hbare, rfl, hmore _ _ (b.text.toList.count '\n')⟩

end Token

/--
The text in which the blanks between two tokens are replaced by other ones.
-/
def Text.respace (text : List Char) (a b : Token) (gap : List Char) : List Char :=
  text.take a.stop ++ (gap ++ text.drop b.offset)

theorem Text.respace_self {text : List Char} {a b : Token} (h : Text.IsGap ((text.take b.offset).drop a.stop)) :
    text = respace text a b ((text.take b.offset).drop a.stop) := by
  have hstop : a.stop ≤ b.offset := by
    by_contra hlt
    refine h.nonempty (List.drop_eq_nil_of_le ?_)
    rw [List.length_take]
    omega
  have htake : text.take a.stop = (text.take b.offset).take a.stop := by rw [List.take_take, Nat.min_eq_left hstop]
  rw [respace, htake, ← List.append_assoc, List.take_append_drop, List.take_append_drop]

namespace TokenStream

variable {q : Bool} {text gap : List Char} {stream stream' : TokenStream} {front back : List Token} {a b : Token}

theorem quasiQuotesEnabled_respace (hold : Text.IsGap ((text.take b.offset).drop a.stop)) (hgap : Text.IsGap gap) :
    quasiQuotesEnabled (Text.respace text a b gap) = quasiQuotesEnabled text := by
  conv => rhs; rw [Text.respace_self hold]
  exact quasiQuotesEnabled_gap hgap hold _ _

/--
Other blanks between two tokens keep the tokens in front and move those behind, if all tokens are spelled as before.
-/
theorem exists_of_respace (h : ofTextWith q text = .ok stream) (htokens : stream.tokens = front ++ a :: b :: back)
    (hold : Text.IsGap ((text.take b.offset).drop a.stop)) (hgap : Text.IsGap gap)
    (h' : ofTextWith q (Text.respace text a b gap) = .ok stream')
    (htexts : stream'.tokens.map (·.text.toList) = stream.tokens.map (·.text.toList))
    (hmark : a.text.toList = ['#'] → a.column ≠ 0)
    (hmark' : b.text.toList.head? = some '#' → (Position.origin.after (text.take a.stop ++ gap)).column ≠ 0) :
    ∃ a' b' back', stream'.tokens = front ++ a' :: b' :: back' ∧ a'.bare = a.bare ∧ b'.spelled = b.spelled
      ∧ b'.position = Position.origin.after (text.take a.stop ++ gap)
      ∧ List.Forall₂ (Token.Moved b.position b'.position) back back' := by
  obtain ⟨ls, hls, hattach, -⟩ := ofTextWith_eq h
  obtain ⟨ls', hls', hattach', -⟩ := ofTextWith_eq h'
  change stream.tokens = Token.ofLexemes ls at hattach
  change stream'.tokens = Token.ofLexemes ls' at hattach'
  rw [hattach, hattach', Token.map_text_ofLexemes, Token.map_text_ofLexemes] at htexts
  rw [hattach] at htokens
  obtain ⟨first, between, behind, rfl, hmoved⟩ := Token.exists_of_ofLexemes htokens
  have htiling := Lexeme.tiling_of_ofText hls
  have htext : text = Lexeme.join (first ++ [a.lexeme])
      ++ (Lexeme.join between ++ Lexeme.join (b.lexeme :: behind)) := by
    rw [← htiling.join_eq]
    simp
  have hstop : a.stop = (Lexeme.join (first ++ [a.lexeme])).length := by
    rw [Lexeme.join_append, List.length_append, ← htiling.offset, Lexeme.join_cons, Lexeme.join_nil, List.append_nil,
      String.length_toList]
    rfl
  have hoffset : b.offset = (Lexeme.join (first ++ [a.lexeme]) ++ Lexeme.join between).length := by
    rw [← Lexeme.join_append]
    have hsplit : first ++ a.lexeme :: (between ++ b.lexeme :: behind)
        = (first ++ [a.lexeme] ++ between) ++ b.lexeme :: behind := by simp
    rw [hsplit] at htiling
    exact htiling.offset
  have htake : text.take a.stop = Lexeme.join (first ++ [a.lexeme]) := by
    rw [hstop, htext, List.take_left]
  have hold : Text.IsGap (Lexeme.join between) := by
    rw [hoffset, htext, ← List.append_assoc, List.take_left, hstop, List.drop_left] at hold
    exact hold
  have hdrop : text.drop b.offset = Lexeme.join (b.lexeme :: behind) := by
    rw [hoffset, htext, ← List.append_assoc, List.drop_left]
  rw [Text.respace, htake, hdrop] at hls'
  rw [htake] at hmark' ⊢
  rw [htext] at hls
  obtain ⟨between', b', behind', rfl, htrivia, hb', hplace, hbehind⟩ :=
    Lexeme.ofText_respace hls hls' rfl rfl hold hgap hmark hmark' htexts
  obtain ⟨a', t, back', htokens', hbare, rfl, hback⟩ := hmoved between' b' behind' htrivia hb' hbehind
  exact ⟨a', t, back', hattach'.trans htokens', hbare, Token.spelled_of_spelling hb', hplace, hback⟩

end TokenStream

end HaskellStyle
