import HaskellStyle.Print.Output
import HaskellStyle.Proofs.Newline.Text
import HaskellStyle.Proofs.Text.Trim

/-!
This module contains the output of texts with carriage returns before their line feeds. It is the output of the texts
without them, with carriage returns, and every step of writing keeps it so. The same blanks are trimmed from its lines as
from lines without carriage returns.
-/

namespace HaskellStyle

namespace Text

theorem length_crlf_eq_crlfOffset {a text : List Char} (h : a <+: text) :
    (crlf a).length = crlfOffset text a.length := by
  obtain ⟨b, rfl⟩ := h
  exact (crlfOffset_length a b).symm

end Text

namespace LineEdit

open Text (crlf crlfOffset)

theorem dropEnd_crlf (text : List Char) : dropEnd isEndBlank (crlf text) = crlf (dropEnd isEndBlank text) :=
  Text.dropWhile_reverse_crlf (by decide) text

/--
The edit of the text with carriage returns that does what an edit does to the text without them.
-/
def withReturns (f : Nat → Nat) (e : LineEdit) : LineEdit where
  start := f e.start
  stop := f e.stop
  replacement := crlf e.replacement
  kind := e.kind

theorem finalEdits_crlf (text : List Char) :
    finalEdits ['\r', '\n'] (crlf text) = (finalEdits ['\n'] text).map (withReturns (crlfOffset text)) := by
  have hend := Text.length_crlf_eq_crlfOffset (prefix_dropEnd isEndBlank text)
  have hzero : (crlf (dropEnd isEndBlank text)).length = 0 ↔ (dropEnd isEndBlank text).length = 0 := by
    rw [List.length_eq_zero_iff, List.length_eq_zero_iff, ← List.isEmpty_iff, Text.isEmpty_crlf, List.isEmpty_iff]
  have hreplacement : (if (crlf (dropEnd isEndBlank text)).length = 0 then [] else ['\r', '\n'])
      = crlf (if (dropEnd isEndBlank text).length = 0 then [] else ['\n']) := by
    simp only [hzero]
    split <;> rfl
  unfold finalEdits
  dsimp only
  rw [dropEnd_crlf, hreplacement, hend, Text.drop_crlf, Text.length_crlf_eq_crlfOffset (List.prefix_refl text)]
  simp only [Text.crlf_inj]
  generalize (if (dropEnd isEndBlank text).length = 0 then [] else ['\n']) = replacement
  split <;> rfl

section Shield

variable {f : Nat → Nat} (hf : StrictMono f)
include hf

theorem meetsShield_map (start stop : Nat) (ranges : List (Nat × Nat)) :
    meetsShield (f start) (f stop) (ranges.map (Prod.map f f)) = meetsShield start stop ranges := by
  induction ranges with
  | nil => rfl
  | cons range ranges ih =>
    rw [List.map_cons, Prod.map, meetsShield, meetsShield, ih]
    simp only [hf.lt_iff_lt, hf.le_iff_le]

theorem isShielded_map (start stop : Nat) (ranges : List (Nat × Nat)) :
    isShielded (ranges.map (Prod.map f f)) (f start) (f stop) = isShielded ranges start stop := by
  unfold isShielded
  rw [List.takeWhile_map, ← List.map_reverse, meetsShield_map hf]
  simp only [Function.comp_def, Prod.map, hf.le_iff_le]

theorem mergeSort_map (ranges : List (Nat × Nat)) :
    (ranges.map (Prod.map f f)).mergeSort rangeLe = (ranges.mergeSort rangeLe).map (Prod.map f f) := by
  refine (List.map_mergeSort fun a _ b _ => ?_).symm
  simp only [rangeLe, Prod.map, hf.lt_iff_lt, hf.le_iff_le, hf.injective.eq_iff, beq_eq_decide]

/--
Offsets inside of a line are moved as its start is.
-/
theorem lineEdits_map {offset : Nat} {line : List Char} (hline : ∀ n ≤ line.length, f (offset + n) = f offset + n)
    (shielded : List (Nat × Nat)) (contentEnd : Nat) :
    lineEdits (shielded.map (Prod.map f f)) (f contentEnd) (f offset) line
      = (lineEdits shielded contentEnd offset line).map (withReturns f) := by
  have hstart := hline _ (prefix_dropEnd isLineBlank line).length_le
  have hstop := hline _ (Nat.le_refl _)
  unfold lineEdits
  dsimp only
  rw [← hstart, ← hstop]
  simp only [hf.lt_iff_lt, hf.le_iff_le, isShielded_map hf]
  split <;> rfl

end Shield

/--
The lines of a text without carriage returns are trimmed alike with them.
-/
theorem trimLines_crlf (shielded : List (Nat × Nat)) (contentEnd : Nat) {text before rest : List Char}
    (htext : text = before ++ rest) (hreturn : '\r' ∉ rest) :
    trimLines (shielded.map (Prod.map (crlfOffset text) (crlfOffset text))) (crlfOffset text contentEnd)
        (crlfOffset text before.length) (Text.fields (· == '\n') (crlf rest))
      = (trimLines shielded contentEnd before.length (Text.fields (· == '\n') rest)).map
        (withReturns (crlfOffset text)) := by
  have hmono := Text.strictMono_crlfOffset text
  have hlast {line : List Char} (h : '\r' ∉ line) : line.getLast? ≠ some '\r' :=
    fun hlast => h (List.mem_of_getLast? hlast)
  have hinside {line more : List Char} (hline : '\n' ∉ line) (hrest : rest = line ++ more) :
      ∀ n ≤ line.length, crlfOffset text (before.length + n) = crlfOffset text before.length + n := by
    intro n hn
    rw [htext, Text.crlfOffset_append, Text.crlfOffset_length, Text.crlfOffset_eq_self]
    rw [hrest, List.take_append_of_le_length hn]
    exact fun hmem => hline (List.mem_of_mem_take hmem)
  rcases Text.line_cases rest with hline | ⟨line, more, hline, hrest⟩
  · rw [Text.crlf_eq_self hline, Text.fields_line hline, trimLines_cons, trimLines_cons, if_neg (hlast hreturn),
      lineEdits_map hmono (hinside hline (List.append_nil rest).symm), List.map_append]
    rfl
  · have hreturns : '\r' ∉ line ∧ '\r' ∉ more := by simpa [hrest] using hreturn
    have hnext : crlfOffset text (before ++ line ++ ['\n']).length = crlfOffset text before.length + line.length + 2 := by
      rw [htext, hrest, List.append_assoc, List.length_append, Text.crlfOffset_append, Text.crlfOffset_length,
        List.length_append, Text.crlfOffset_append, Text.crlf_eq_self hline, List.length_singleton,
        Text.crlfOffset_newline, Text.crlfOffset_zero]
      omega
    have hlength : before.length + line.length + 1 = (before ++ line ++ ['\n']).length := by
      simp [Nat.add_assoc]
    have hcrlf : crlf rest = (line ++ ['\r']) ++ '\n' :: crlf more := by
      rw [hrest, Text.crlf_append, Text.crlf_newline, Text.crlf_eq_self hline]
      simp
    have hsplit : text = (before ++ line ++ ['\n']) ++ more := by rw [htext, hrest]; simp
    have hothers := trimLines_crlf shielded contentEnd hsplit hreturns.2
    rw [hnext] at hothers
    rw [hcrlf, Text.fields_line_append (by simp [hline]), trimLines_cons, if_pos (by simp), List.dropLast_concat,
      List.length_append, List.length_singleton, ← Nat.add_assoc, hothers,
      lineEdits_map hmono (hinside hline hrest), ← List.map_append]
    rw [hrest, Text.fields_line_append hline, trimLines_cons, if_neg (hlast hreturns.1), hlength]
termination_by rest.length
decreasing_by simp [hrest]; omega

/--
Edits that are carried out one behind the other leave the text before them as it is, so they give the same text with
carriage returns.
-/
theorem foldl_crlf {f : Nat → Nat} {edits : List LineEdit} {text : List Char}
    (hf : ∀ e ∈ edits, f e.start = crlfOffset text e.start ∧ f e.stop = crlfOffset text e.stop)
    (hdescending : edits.Pairwise Descending) (hbounded : ∀ e ∈ edits, e.start ≤ text.length) :
    (edits.map (withReturns f)).foldl
        (fun text edit => text.take edit.start ++ edit.replacement ++ text.drop edit.stop) (crlf text)
      = crlf (edits.foldl
        (fun text edit => text.take edit.start ++ edit.replacement ++ text.drop edit.stop) text) := by
  induction edits generalizing text with
  | nil => rfl
  | cons e edits ih =>
    obtain ⟨⟨hstart, hstop⟩, hf⟩ := List.forall_mem_cons.1 hf
    obtain ⟨hbehind, hdescending⟩ := List.pairwise_cons.1 hdescending
    obtain ⟨hbound, hbounded⟩ := List.forall_mem_cons.1 hbounded
    have hedit : (crlf text).take (withReturns f e).start ++ (withReturns f e).replacement
        ++ (crlf text).drop (withReturns f e).stop
        = crlf (text.take e.start ++ e.replacement ++ text.drop e.stop) := by
      rw [Text.crlf_append, Text.crlf_append, ← Text.take_crlf, ← Text.drop_crlf, ← hstart, ← hstop]
      rfl
    have hkept {n : Nat} (hn : n ≤ e.start) :
        crlfOffset (text.take e.start ++ e.replacement ++ text.drop e.stop) n = crlfOffset text n := by
      rw [crlfOffset, crlfOffset, List.append_assoc, List.take_append_of_le_length (by rw [List.length_take]; omega),
        List.take_take, Nat.min_eq_left hn]
    rw [List.map_cons, List.foldl_cons, List.foldl_cons, hedit]
    refine ih (fun b hb => ?_) hdescending fun b hb => ?_
    · obtain ⟨hle, hle'⟩ := hbehind b hb
      rw [hkept (hle'.trans hle), hkept hle]
      exact hf b hb
    · obtain ⟨hle, hle'⟩ := hbehind b hb
      simp only [List.length_append, List.length_take]
      omega

/--
A text without carriage returns of its own is normalized alike with a carriage return before every line feed.
-/
theorem normalize_crlf {text : List Char} (hreturn : '\r' ∉ text) (shielded : List (Nat × Nat)) :
    normalize ['\r', '\n'] (crlf text) (shielded.map (Prod.map (crlfOffset text) (crlfOffset text)))
      = crlf (normalize ['\n'] text shielded) := by
  have hmono := Text.strictMono_crlfOffset text
  have hedits : ofText ['\r', '\n'] (crlf text) (shielded.map (Prod.map (crlfOffset text) (crlfOffset text)))
      = (ofText ['\n'] text shielded).map (withReturns (crlfOffset text)) := by
    have hend := Text.length_crlf_eq_crlfOffset (prefix_dropEnd isEndBlank text)
    have htrim := trimLines_crlf (shielded.mergeSort rangeLe) (dropEnd isEndBlank text).length
      (List.nil_append text).symm hreturn
    rw [List.length_nil, Text.crlfOffset_zero] at htrim
    unfold ofText
    dsimp only
    rw [List.map_append, finalEdits_crlf, dropEnd_crlf, hend, mergeSort_map hmono, htrim]
  have hsort := List.map_mergeSort (r := fun a b : LineEdit => decide (b.start ≤ a.start))
    (s := fun a b : LineEdit => decide (b.start ≤ a.start)) (f := withReturns (crlfOffset text))
    (l := ofText ['\n'] text shielded) fun a _ b _ => by simp only [withReturns, hmono.le_iff_le]
  have hmem {e : LineEdit} (h : e ∈ (ofText ['\n'] text shielded).mergeSort fun a b => b.start ≤ a.start) :=
    bounded_ofText (List.mem_mergeSort.1 h)
  unfold normalize apply
  rw [hedits, ← hsort]
  exact foldl_crlf (fun _ _ => ⟨rfl, rfl⟩)
    (pairwise_mergeSort (pairwise_ofText _ _ _) fun e he => (bounded_ofText he).1)
    fun e he => (hmem he).1.trans (hmem he).2

end LineEdit

open Text (crlfString crlfOffset)

/--
Output with a carriage return before every line feed: the column is the same, and the shielded ranges are moved.
-/
structure Output.Mirrors (out out' : Output) : Prop where
  newline : out.newline = "\n"
  newline' : out'.newline = "\r\n"
  text : out'.text = crlfString out.text
  size : out.size = out.text.length
  size' : out'.size = out'.text.length
  column : out'.column = out.column
  within : ∀ range ∈ out.shielded, range.1 ≤ range.2 ∧ range.2 ≤ out.text.length
  shielded : out'.shielded
    = out.shielded.map fun range => (crlfOffset out.text.toList range.1, crlfOffset out.text.toList range.2)

namespace Text

theorem crlfOffset_append_of_le {a : List Char} {n : Nat} (h : n ≤ a.length) (b : List Char) :
    crlfOffset (a ++ b) n = crlfOffset a n := by
  rw [crlfOffset, crlfOffset, List.take_append_of_le_length h]

theorem length_crlfString (s : String) : (crlfString s).length = crlfOffset s.toList s.length := by
  rw [← String.length_toList, ← String.length_toList, toList_crlfString, length_crlf, crlfOffset, List.take_length]

end Text

namespace Output.Mirrors

variable {out out' : Output}

theorem start : Mirrors { newline := "\n" } { newline := "\r\n" } where
  newline := rfl
  newline' := rfl
  text := Text.crlfString_empty.symm
  size := rfl
  size' := rfl
  column := rfl
  within := by simp
  shielded := rfl

variable (h : out.Mirrors out')
include h

theorem write (text : String) (shield : Bool) : (out.write text shield).Mirrors (out'.write (crlfString text) shield) where
  newline := h.newline
  newline' := h.newline'
  text := by
    simp only [Output.write, h.text, Text.crlfString_append]
  size := by
    simp only [Output.write, h.size, String.length_append, String.length_toList]
  size' := by
    simp only [Output.write, h.size', String.length_append, String.length_toList]
  column := by
    simp only [Output.write, Text.toList_crlfString, Text.visualWidth_crlf, h.column]
  within := by
    have hold : ∀ range ∈ out.shielded, range.1 ≤ range.2 ∧ range.2 ≤ (out.text ++ text).length := fun range hrange =>
      ⟨(h.within range hrange).1, (h.within range hrange).2.trans (by rw [String.length_append]; omega)⟩
    simp only [Output.write]
    split
    · refine List.forall_mem_cons.2 ⟨⟨by omega, ?_⟩, hold⟩
      rw [h.size, String.length_append, String.length_toList]
    · exact hold
  shielded := by
    have hold : out.shielded.map (fun range => (crlfOffset out.text.toList range.1, crlfOffset out.text.toList range.2))
        = out.shielded.map fun range =>
          (crlfOffset (out.text ++ text).toList range.1, crlfOffset (out.text ++ text).toList range.2) := by
      refine List.map_congr_left fun range hrange => ?_
      obtain ⟨hle, hlength⟩ := h.within range hrange
      rw [← String.length_toList] at hlength
      rw [String.toList_append, Text.crlfOffset_append_of_le hlength,
        Text.crlfOffset_append_of_le (hle.trans hlength)]
    have hstart : out'.size = crlfOffset (out.text ++ text).toList out.size := by
      rw [h.size', h.text, Text.length_crlfString, String.toList_append, h.size,
        Text.crlfOffset_append_of_le (by rw [String.length_toList])]
    have hstop : out'.size + (Text.crlf text.toList).length
        = crlfOffset (out.text ++ text).toList (out.size + text.toList.length) := by
      rw [h.size', h.text, h.size, ← String.length_toList, ← String.length_toList, Text.toList_crlfString,
        String.toList_append, Text.crlfOffset_append, Text.length_crlf text.toList, crlfOffset, List.take_length]
    simp only [Output.write, Text.toList_crlfString, Text.contains_newline_crlf, h.shielded, hold]
    split
    · rw [List.map_cons, hstop, hstart]
    · rfl

theorem write_of_eq {text text' : String} (htext : text' = crlfString text) (shield : Bool) :
    (out.write text shield).Mirrors (out'.write text' shield) :=
  htext ▸ h.write text shield

theorem put {text text' : String} (htext : text' = crlfString text) : (out.put text).Mirrors (out'.put text') :=
  h.write_of_eq htext false

theorem endLine : out.endLine.Mirrors out'.endLine :=
  h.put (by rw [h.newline, h.newline']; decide)

theorem endLineIfStarted : out.endLineIfStarted.Mirrors out'.endLineIfStarted := by
  have hsize : out'.size = 0 ↔ out.size = 0 := by
    rw [h.size', h.size, h.text, ← String.length_toList, ← String.length_toList, Text.toList_crlfString,
      List.length_eq_zero_iff, List.length_eq_zero_iff, ← List.isEmpty_iff, Text.isEmpty_crlf, List.isEmpty_iff]
  unfold Output.endLineIfStarted
  simp only [hsize]
  split
  · exact h
  · exact h.endLine

theorem blanks (count : Int) : (out.blanks count).Mirrors (out'.blanks count) :=
  h.put (Text.crlfString_eq_self (by simp)).symm

theorem report (d d' : Diagnostic) : (out.report d).Mirrors (out'.report d') where
  newline := h.newline
  newline' := h.newline'
  text := h.text
  size := h.size
  size' := h.size'
  column := h.column
  within := h.within
  shielded := h.shielded

theorem newLine (indent : Int) {text text' : String} (htext : text' = crlfString text) :
    ((out.endLine.blanks indent).put text).Mirrors ((out'.endLine.blanks indent).put text') :=
  (h.endLine.blanks indent).put htext

/--
Steps that each write the same write the same together.
-/
theorem foldl {α β : Type} {f : Output → α → Output} {k : Output → β → Output} {g : α → β} {l : List α}
    (hstep : ∀ x ∈ l, ∀ {out out' : Output}, out.Mirrors out' → (f out x).Mirrors (k out' (g x))) :
    (l.foldl f out).Mirrors ((l.map g).foldl k out') := by
  induction l generalizing out out' with
  | nil => exact h
  | cons x l ih =>
    exact ih (hstep x List.mem_cons_self h) fun y hy => hstep y (List.mem_cons_of_mem x hy)

end Output.Mirrors

end HaskellStyle
