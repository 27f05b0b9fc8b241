import HaskellStyle.Print.Flat
import HaskellStyle.Print.Output
import HaskellStyle.Proofs.Print.Fits
import Mathlib.Data.List.Chain

/-!
This module contains what an output shows. Writing a piece adds what the piece shows, if the piece meets what
the output asks of it. Tokens between which nothing stood are written without a gap again, and then they are read as they
were, since they were read that way before.
-/

namespace HaskellStyle

variable {μ : Type} {v : View μ} {q : Bool}

namespace Token

/--
The token is read before `y`.
-/
def Reads (q : Bool) (t : Token) (y : List Char) : Prop :=
  ∃ c u, t.text.toList = c :: u ∧ c ≠ '#'
    ∧ Lexeme.measure q (some ' ') 0 c (u ++ y) = .ok (.token t.kind, u.length)

/--
The texts of tokens without gaps.
-/
def joinTexts (ts : List Token) : List Char :=
  ts.flatMap (·.text.toList)

/--
Each of the tokens, written without gaps, is read before `y`.
-/
def Behind (q : Bool) (ts : List Token) (y : List Char) : Prop :=
  Calm y ∧ ∀ before t after, ts = before ++ t :: after → t.Reads q (joinTexts after ++ y)

/--
Neighbours without trivia between them.
-/
abbrev Gapless (ts : List Token) : Prop :=
  ts.IsChain fun t u => hasGap t u = false

/--
Tokens that can be written one behind the other: those that stand without a gap are read before anything soft.
-/
def Linked (q : Bool) (ts : List Token) : Prop :=
  ∀ run, run <:+: ts → Gapless run → ∀ y, Lexeme.Soft y → Behind q run y

/--
What is seen of a token without its trivia.
-/
def seen (v : View μ) (t : Token) : Multiset μ :=
  v.see (.token t.kind) t.text.toList

/--
What is seen of tokens without their trivia.
-/
def allSeen (v : View μ) (ts : List Token) : Multiset μ :=
  (ts.map (seen v)).sum

@[simp]
theorem allSeen_nil : allSeen v [] = 0 := rfl

@[simp]
theorem allSeen_cons (t : Token) (ts : List Token) : allSeen v (t :: ts) = t.seen v + allSeen v ts := by
  simp [allSeen]

@[simp]
theorem allSeen_append (ts us : List Token) : allSeen v (ts ++ us) = allSeen v ts + allSeen v us := by
  simp [allSeen]

theorem Linked.of_infix {ts us : List Token} (h : Linked q ts) (hus : us <:+: ts) : Linked q us :=
  fun run hrun => h run (hrun.trans hus)

@[simp]
theorem joinTexts_nil : joinTexts [] = [] := rfl

@[simp]
theorem joinTexts_append (ts us : List Token) : joinTexts (ts ++ us) = joinTexts ts ++ joinTexts us :=
  List.flatMap_append

@[simp]
theorem joinTexts_singleton (t : Token) : joinTexts [t] = t.text.toList := by
  simp [joinTexts]

theorem behind_nil {y : List Char} : Behind q [] y ↔ Calm y := by
  constructor
  · exact fun h => h.1
  · refine fun h => ⟨h, ?_⟩
    intro before t after heq
    cases before <;> cases heq

theorem Reads.last {t : Token} {y : List Char} (h : t.Reads q y) :
    ∀ c ∈ t.text.toList.getLast?, LineEdit.isEndBlank c = false := by
  obtain ⟨c, u, htext, -, hmeasure⟩ := h
  intro d hd
  have hlast : (c :: (u ++ y).take u.length).getLast? = some d := by
    rwa [List.take_left, ← htext]
  have hblank := (Lexeme.measured_iff.2 hmeasure).last hlast
  cases hend : LineEdit.isEndBlank d with
  | false => rfl
  | true =>
    rw [isBlank_of_isEndBlank hend] at hblank
    cases hblank

/--
A token can be written behind others without a gap if it is read there.
-/
theorem fits {ts : List Token} {t : Token} (shield : Bool) (hshield : shield ∨ t.isMultiline = false) :
    Fits v q (Behind q ts) (.ofText shield t.text.toList) (t.seen v) (Behind q (ts ++ [t])) := by
  intro y z htrims hy
  have hreads : t.Reads q y := by simpa using hy.2 ts t [] rfl
  have hline : shield ∨ '\n' ∉ t.text.toList := by
    refine hshield.imp_right fun h hmem => ?_
    rw [isMultiline, List.contains_iff_mem.2 hmem] at h
    cases h
  have heq := htrims.eq_append hline hreads.last
  subst heq
  obtain ⟨c, u, htext, hc, hmeasure⟩ := hreads
  refine ⟨⟨?_, ?_⟩, ?_⟩
  · rw [htext]
    intro h
    exact hc (Option.some.inj h)
  · rintro before s after rfl
    have := hy.2 before s (after ++ [t]) (by simp)
    rwa [joinTexts_append, joinTexts_singleton, List.append_assoc] at this
  · rw [htext, List.cons_append, View.marks_lexeme hmeasure hy.1, seen, htext]

/--
A token that stands alone can be written where anything calm can, and anything soft behind it.
-/
theorem Linked.fits_singleton {t : Token} (h : Linked q [t]) (shield : Bool)
    (hshield : shield ∨ t.isMultiline = false) :
    Fits v q Calm (.ofText shield t.text.toList) (t.seen v) Lexeme.Soft :=
  (Token.fits shield hshield).mono (fun _ => behind_nil.1)
    fun y hy => h [t] (List.infix_refl _) (by simp) y hy

/--
One blank.
-/
theorem fits_blank (shield : Bool) : Fits v q Lexeme.Soft (.ofText shield [' ']) 0 Calm :=
  Fits.separator (List.all_eq_true.1 (by decide)) (by decide) shield

theorem fits_flatRest {before : List Token} {previous : Token} {ts : List Token}
    (hlinked : Linked q (before ++ previous :: ts)) (hgapless : Gapless (before ++ [previous]))
    (hline : ∀ t ∈ ts, t.isMultiline = false) :
    Fits v q (Behind q (before ++ [previous])) (.ofText false (flatRest previous ts).toList) (allSeen v ts)
      Lexeme.Soft := by
  have hrun : ∀ y, Lexeme.Soft y → Behind q (before ++ [previous]) y :=
    hlinked _ ⟨[], ts, by simp⟩ hgapless
  induction ts generalizing before previous with
  | nil =>
    rw [flatRest]
    exact Fits.nil hrun
  | cons t ts ih =>
    have htline : t.isMultiline = false := hline t List.mem_cons_self
    have hline' : ∀ t ∈ ts, t.isMultiline = false := fun u hu => hline u (List.mem_cons_of_mem t hu)
    rw [flatRest, allSeen_cons]
    split
    · next hgap =>
      have hlinked' : Linked q ([] ++ t :: ts) := hlinked.of_infix ⟨before ++ [previous], [], by simp⟩
      have hsingle : Gapless ([] ++ [t]) := by simp
      have hrest := ih hlinked' hsingle hline' (hlinked' _ ⟨[], ts, by simp⟩ hsingle)
      have htoken : Fits v q (Behind q []) _ _ _ := Token.fits false (.inr htline)
      have hblank : Fits v q (Behind q (before ++ [previous])) (.ofText false [' ']) 0 (Behind q []) :=
        (fits_blank false).mono hrun fun y => behind_nil.1
      rw [String.toList_append, String.toList_append, Shielded.ofText_append, Shielded.ofText_append,
        ← zero_add (t.seen v + _), ← add_assoc]
      exact (hblank.append htoken).append hrest
    · next hgap =>
      have hgap : hasGap previous t = false := by
        cases h : hasGap previous t with
        | false => rfl
        | true => simp [h] at hgap
      have hlinked' : Linked q ((before ++ [previous]) ++ t :: ts) := by simpa using hlinked
      have hgapless' : Gapless ((before ++ [previous]) ++ [t]) := by
        rw [List.append_assoc, List.singleton_append, Gapless, List.isChain_append_cons_cons]
        exact ⟨hgapless, hgap, by simp⟩
      have hrest := ih hlinked' hgapless' hline' (hlinked' _ ⟨[], ts, by simp⟩ hgapless')
      have htoken : Fits v q (Behind q (before ++ [previous])) _ _ _ :=
        Token.fits false (.inr htline)
      rw [String.toList_append, String.toList_append, Shielded.ofText_append, Shielded.ofText_append]
      exact htoken.append hrest

/--
Tokens on one line can be written where anything calm can, and anything soft behind them.
-/
theorem fits_flat {ts : List Token} (hlinked : Linked q ts) (hline : ∀ t ∈ ts, t.isMultiline = false) :
    Fits v q Calm (.ofText false (flat ts).toList) (allSeen v ts) Lexeme.Soft := by
  cases ts with
  | nil => exact Fits.nil fun _ h => h.calm
  | cons t ts =>
    have hsingle : Gapless ([] ++ [t]) := by simp
    have hrest : Fits v q (Behind q ([] ++ [t])) _ _ _ :=
      fits_flatRest hlinked hsingle fun u hu => hline u (List.mem_cons_of_mem t hu)
    have htoken : Fits v q (Behind q []) _ _ _ := Token.fits false (.inr (hline t List.mem_cons_self))
    rw [flat, String.toList_append, Shielded.ofText_append, allSeen_cons]
    exact (htoken.append hrest).mono (fun _ => behind_nil.1) fun _ h => h

end Token

end HaskellStyle

namespace HaskellStyle

namespace Output

/--
Whether the character at a place is shielded.
-/
def isShielded (out : Output) (place : Nat) : Bool :=
  out.shielded.any fun range => range.1 ≤ place && place < range.2

/--
The text that has been written, with the mark of what is shielded.
-/
def marked (out : Output) : Shielded :=
  out.text.toList.mapIdx fun place c => (c, out.isShielded place)

/--
An output as it comes about by writing. The shielded ranges are not empty and lie in the text, each behind
the ones that follow it in the list.
-/
structure Sound (out : Output) : Prop where
  size : out.size = out.text.toList.length
  newline : out.newline.toList = ['\n'] ∨ out.newline.toList = ['\r', '\n']
  disjoint : out.shielded.Pairwise fun range older => older.2 ≤ range.1
  bounded : ∀ range ∈ out.shielded, range.1 < range.2 ∧ range.2 ≤ out.size

theorem Sound.write {out : Output} (h : out.Sound) (text : String) (shield : Bool) :
    (out.write text shield).Sound where
  size := by
    simp only [Output.write, String.toList_append, List.length_append, h.size]
  newline := h.newline
  disjoint := by
    simp only [Output.write]
    split
    · rw [List.pairwise_cons]
      exact ⟨fun range hrange => (h.bounded range hrange).2, h.disjoint⟩
    · exact h.disjoint
  bounded := by
    simp only [Output.write]
    intro range hrange
    have hold (hrange : range ∈ out.shielded) :
        range.1 < range.2 ∧ range.2 ≤ out.size + text.toList.length := by
      have := h.bounded range hrange
      omega
    split at hrange
    · next hshield =>
      rcases List.mem_cons.1 hrange with rfl | hrange
      · have hmem : '\n' ∈ text.toList := by simpa using (Bool.and_eq_true_iff.1 hshield).2
        have := List.length_pos_of_mem hmem
        dsimp only
        omega
      · exact hold hrange
    · exact hold hrange

theorem isShielded_eq_false {out : Output} (h : out.Sound) {place : Nat} (hplace : out.size ≤ place) :
    out.isShielded place = false := by
  unfold isShielded
  rw [List.any_eq_false]
  intro range hrange
  have := h.bounded range hrange
  simp only [Bool.and_eq_true, decide_eq_true_eq, not_and]
  omega

/--
Writing keeps the marks of the text before and marks all that is written alike.
-/
theorem marked_write {out : Output} (h : out.Sound) (text : String) (shield : Bool) :
    (out.write text shield).marked
      = out.marked ++ .ofText (shield && text.toList.contains '\n') text.toList := by
  have hold {place : Nat} (hplace : place < out.size) :
      (out.write text shield).isShielded place = out.isShielded place := by
    simp only [Output.write, isShielded]
    split
    · rw [List.any_cons, Bool.or_eq_right_iff_imp]
      intro hrange
      simp only [Bool.and_eq_true, decide_eq_true_eq] at hrange
      omega
    · rfl
  have hnew {place : Nat} (hplace : place < text.toList.length) :
      (out.write text shield).isShielded (place + out.text.toList.length)
        = (shield && text.toList.contains '\n') := by
    have hsize := h.size
    have hbehind : out.size ≤ place + out.text.toList.length := by omega
    have hout := isShielded_eq_false h hbehind
    simp only [isShielded] at hout
    simp only [Output.write, isShielded]
    split
    · next hshield =>
      rw [List.any_cons, hout, hshield, Bool.or_false, Bool.and_eq_true_iff, decide_eq_true_eq,
        decide_eq_true_eq]
      omega
    · next hshield =>
      rw [hout]
      simpa using hshield
  have htext : (out.write text shield).text.toList = out.text.toList ++ text.toList :=
    String.toList_append
  rw [marked, htext, List.mapIdx_append]
  congr 1
  · refine List.ext_getElem (by simp [marked]) fun i hi hi' => ?_
    simp only [List.length_mapIdx] at hi
    simp only [List.getElem_mapIdx, hold (h.size ▸ hi), marked]
  · refine List.ext_getElem (by simp [Shielded.ofText]) fun i hi hi' => ?_
    simp only [List.length_mapIdx] at hi
    simp only [List.getElem_mapIdx, hnew hi, Shielded.ofText, List.getElem_map]

variable {μ : Type} (v : View μ) (q : Bool)

/--
The output shows `ms` and asks `A` of what is written next.
-/
structure Shows (out : Output) (ms : Multiset μ) (A : List Char → Prop) : Prop where
  sound : out.Sound
  fits : Fits v q Calm out.marked ms A

variable {v q} {out : Output} {ms ms' : Multiset μ} {A B : List Char → Prop}

namespace Shows

theorem mono (h : out.Shows v q ms A) (hA : ∀ t, B t → A t) : out.Shows v q ms B :=
  ⟨h.sound, h.fits.mono (fun _ => id) hA⟩

theorem write (h : out.Shows v q ms A) {text : String} {shield : Bool}
    (htext : Fits v q A (.ofText (shield && text.toList.contains '\n') text.toList) ms' B) :
    (out.write text shield).Shows v q (ms + ms') B := by
  refine ⟨h.sound.write text shield, ?_⟩
  rw [marked_write h.sound]
  exact h.fits.append htext

theorem put (h : out.Shows v q ms A) {text : String} (htext : Fits v q A (.ofText false text.toList) ms' B) :
    (out.put text).Shows v q (ms + ms') B :=
  h.write htext

theorem report (h : out.Shows v q ms A) (d : Diagnostic) : (out.report d).Shows v q ms A :=
  ⟨⟨h.sound.size, h.sound.newline, h.sound.disjoint, h.sound.bounded⟩, h.fits⟩

/--
A line can be ended behind everything.
-/
theorem endLine (h : out.Shows v q ms LineEnd) : out.endLine.Shows v q ms Calm := by
  have := h.put (Fits.newline h.sound.newline false)
  rwa [add_zero] at this

theorem isBlank_of_mem_replicate {n : Nat} {c : Char} (h : c ∈ (String.ofList (List.replicate n ' ')).toList) :
    Text.isBlank c := by
  rw [String.toList_ofList] at h
  rw [List.eq_of_mem_replicate h]
  decide

theorem blanks (h : out.Shows v q ms Calm) (n : Int) : (out.blanks n).Shows v q ms Calm := by
  have := h.put (Fits.blanks (fun c => isBlank_of_mem_replicate (n := n.toNat)) false)
  rwa [add_zero] at this

theorem softBlanks (h : out.Shows v q ms Lexeme.Soft) (n : Int) :
    (out.blanks n).Shows v q ms Lexeme.Soft := by
  have := h.put (Fits.softBlanks (fun c => isBlank_of_mem_replicate (n := n.toNat)) false)
  rwa [add_zero] at this

/--
Blanks separate what is written from anything else.
-/
theorem separate (h : out.Shows v q ms Lexeme.Soft) {n : Int} (hn : 0 < n) :
    (out.blanks n).Shows v q ms Calm := by
  have hne : (String.ofList (List.replicate n.toNat ' ')).toList ≠ [] := by
    rw [String.toList_ofList, Ne, List.replicate_eq_nil_iff]
    omega
  have := h.put (Fits.separator (fun c => isBlank_of_mem_replicate (n := n.toNat)) hne false)
  rwa [add_zero] at this

/--
A part that begins on a line of its own can also begin the text.
-/
theorem endLineIfStarted (h : out.Shows v q ms LineEnd) : out.endLineIfStarted.Shows v q ms Calm := by
  unfold Output.endLineIfStarted
  split
  · next hsize =>
    have hnil : out.marked = [] := by
      rw [h.sound.size, List.length_eq_zero_iff] at hsize
      rw [marked, hsize]
      rfl
    refine ⟨h.sound, ?_⟩
    -- Nothing has been written, so nothing has been asked for or shown.
    have hzero : ms = 0 := by
      have hfits := (h.fits [] [] (hnil ▸ .nil []) (.inl rfl)).2
      simpa using hfits.symm
    rw [hnil, hzero]
    exact Fits.nil fun _ => id
  · exact h.endLine

end Shows

end Output

end HaskellStyle
