import HaskellStyle.Proofs.Text.Lines
import HaskellStyle.Text.LineIndex
import Mathlib.Data.List.GetD
import Mathlib.Data.List.Induction

/-!
This module contains that the index of the lines of a text gives exact positions and exact lines. The line of an offset is
the number of line feeds before it, its column is reached by writing what stands between the start of the line and the
offset, and the lines of the index cover every character once, except for those that end lines.
-/

namespace HaskellStyle

namespace Position

@[simp]
theorem offset_after (p : Position) (cs : List Char) : (p.after cs).offset = p.offset + cs.length := by
  induction cs generalizing p with
  | nil => rfl
  | cons c cs ih =>
    rw [after_cons, ih, List.length_cons]
    simp only [advance]
    omega

@[simp]
theorem line_after (p : Position) (cs : List Char) : (p.after cs).line = p.line + cs.count '\n' := by
  induction cs generalizing p with
  | nil => rfl
  | cons c cs ih =>
    rw [after_cons, ih, advance]
    by_cases hc : c = '\n'
    · rw [hc, List.count_cons_self]
      simp only [if_true]
      omega
    · rw [List.count_cons_of_ne hc]
      simp only [hc, if_false]

theorem column_after (p : Position) (cs : List Char) :
    (p.after cs).column = Text.visualWidth cs p.column := by
  induction cs generalizing p with
  | nil => rfl
  | cons c cs ih => rw [after_cons, ih, Text.visualWidth_cons, advance]

end Position

/--
The bisection finds the place from which on the entries are beyond the offset.
-/
theorem Text.bisect_eq {starts : Array Nat} {offset : Int} {n : Nat}
    (hbefore : ∀ i < n, (starts.getD i 0 : Int) ≤ offset)
    (hbehind : ∀ i, n ≤ i → i < starts.size → offset < starts.getD i 0) {lo hi : Nat} (hlo : lo ≤ n)
    (hhi : n ≤ hi) (hsize : hi ≤ starts.size) : bisect starts offset lo hi = n := by
  fun_induction bisect starts offset lo hi with
  | case1 lo hi hlt mid hmid ih =>
    refine ih hlo ?_ (by omega)
    -- An entry beyond the offset cannot stand before the place.
    rcases Nat.lt_or_ge mid n with h | h
    · have := hbefore mid h
      omega
    · exact h
  | case2 lo hi hlt mid hmid ih =>
    refine ih ?_ hhi hsize
    rcases Nat.lt_or_ge mid n with h | h
    · exact h
    · have := hbehind mid h (by omega)
      omega
  | case3 lo hi hle => omega

namespace LineIndex

theorem lineStarts_append (offset : Nat) (a b : List Char) :
    lineStarts offset (a ++ b) = lineStarts offset a ++ lineStarts (offset + a.length) b := by
  induction a generalizing offset with
  | nil => rfl
  | cons c a ih =>
    have hoffset : offset + (c :: a).length = offset + 1 + a.length := by
      rw [List.length_cons]
      omega
    rw [List.cons_append, lineStarts, lineStarts, hoffset]
    split <;> rw [ih]
    rfl

theorem length_lineStarts (offset : Nat) (cs : List Char) : (lineStarts offset cs).length = cs.count '\n' := by
  induction cs generalizing offset with
  | nil => rfl
  | cons c cs ih =>
    rw [lineStarts]
    split
    · next hc => rw [hc, List.count_cons_self, List.length_cons, ih]
    · next hc => rw [List.count_cons_of_ne hc, ih]

theorem mem_lineStarts {offset : Nat} {cs : List Char} {start : Nat} (h : start ∈ lineStarts offset cs) :
    offset < start ∧ start ≤ offset + cs.length := by
  induction cs generalizing offset with
  | nil => cases h
  | cons c cs ih =>
    rw [List.length_cons]
    rw [lineStarts] at h
    split at h
    · rcases List.mem_cons.1 h with rfl | h
      · omega
      · have := ih h
        omega
    · have := ih h
      omega

/--
Where the last line of a text starts.
-/
def lastStart (cs : List Char) : Nat :=
  (lineStarts 0 cs).getLastD 0

theorem lastStart_le (cs : List Char) : lastStart cs ≤ cs.length := by
  unfold lastStart
  cases h : (lineStarts 0 cs).getLast? with
  | none =>
    rw [List.getLastD_eq_getLast?, h]
    exact Nat.zero_le _
  | some start =>
    have := mem_lineStarts (List.mem_of_getLast? h)
    rw [List.getLastD_eq_getLast?, h]
    simpa using this.2

theorem lastStart_concat (cs : List Char) (c : Char) :
    lastStart (cs ++ [c]) = if c = '\n' then cs.length + 1 else lastStart cs := by
  unfold lastStart
  rw [lineStarts_append, lineStarts, lineStarts, Nat.zero_add]
  split
  · rw [List.getLastD_eq_getLast?, List.getLast?_concat]
    rfl
  · rw [List.append_nil]

/--
The column behind a text is reached by writing its last line alone.
-/
theorem visualWidth_lastLine (cs : List Char) :
    Text.visualWidth (cs.drop (lastStart cs)) 0 = (Position.origin.after cs).column := by
  induction cs using List.reverseRecOn with
  | nil => rfl
  | append_singleton cs c ih =>
    rw [Position.after_append, Position.column_after, ← ih, Text.visualWidth_cons, Text.visualWidth_nil,
      lastStart_concat]
    by_cases hc : c = '\n'
    · rw [if_pos hc, List.drop_of_length_le (by simp), hc]
      rfl
    · rw [if_neg hc, List.drop_append_of_le_length (lastStart_le cs), Text.visualWidth_append]
      rfl

/--
Where nothing on the last line has a width of its own, its width is the number of its characters.
-/
theorem visualWidth_eq_length {cs : List Char}
    (h : ∀ c ∈ cs.drop (lastStart cs), c ≠ '\t' ∧ c ≠ '\r' ∧ c ≠ '\ufeff') :
    Text.visualWidth cs 0 = (cs.drop (lastStart cs)).length := by
  induction cs using List.reverseRecOn with
  | nil => rfl
  | append_singleton cs c ih =>
    rw [Text.visualWidth_append, Text.visualWidth_cons, Text.visualWidth_nil, lastStart_concat]
    rw [lastStart_concat] at h
    by_cases hc : c = '\n'
    · rw [if_pos hc, List.drop_of_length_le (by simp), hc]
      rfl
    · rw [if_neg hc, List.drop_append_of_le_length (lastStart_le cs)] at h ⊢
      obtain ⟨hcs, hlast⟩ := List.forall_mem_append.1 h
      obtain ⟨htab, hreturn, hmark⟩ := hlast c List.mem_cons_self
      rw [ih hcs, Text.advanceColumn, if_neg hc, if_neg htab, if_neg (by tauto)]
      simp

theorem getD_starts (before behind : List Char) (i : Nat) :
    (ofText (before ++ behind)).starts.getD i 0
      = ((0 :: lineStarts 0 before) ++ lineStarts before.length behind).getD i 0 := by
  rw [ofText, lineStarts_append, Nat.zero_add, ← List.cons_append, Array.getD_eq_getD_getElem?,
    List.getElem?_toArray, List.getD_eq_getElem?_getD]

/--
The line of an offset is the number of line feeds before it.
-/
theorem lineOf_ofText (before behind : List Char) :
    (ofText (before ++ behind)).lineOf before.length = (Position.origin.after before).line := by
  have hlength : (0 :: lineStarts 0 before).length = before.count '\n' + 1 := by
    rw [List.length_cons, length_lineStarts]
  have hsize : (ofText (before ++ behind)).starts.size
      = before.count '\n' + 1 + (lineStarts before.length behind).length := by
    rw [← hlength, ofText, lineStarts_append, Nat.zero_add]
    simp only [List.size_toArray, List.length_cons, List.length_append]
    omega
  have hbisect : Text.bisect (ofText (before ++ behind)).starts before.length 0
      (ofText (before ++ behind)).starts.size = before.count '\n' + 1 := by
    apply Text.bisect_eq
    · intro i hi
      rw [getD_starts, List.getD_append _ _ _ _ (by omega)]
      have hmem : (0 :: lineStarts 0 before).getD i 0 ∈ 0 :: lineStarts 0 before := by
        rw [List.getD_eq_getElem _ _ (by omega)]
        exact List.getElem_mem _
      rcases List.mem_cons.1 hmem with h | h
      · omega
      · have := mem_lineStarts h
        omega
    · intro i hi hisize
      rw [getD_starts, List.getD_append_right _ _ _ _ (by omega)]
      have hmem : (lineStarts before.length behind).getD (i - (0 :: lineStarts 0 before).length) 0
          ∈ lineStarts before.length behind := by
        rw [List.getD_eq_getElem _ _ (by omega)]
        exact List.getElem_mem _
      have := mem_lineStarts hmem
      omega
    · omega
    · omega
    · exact Nat.le_refl _
  rw [lineOf, hbisect, Position.line_after]
  simp only [Position.origin]
  omega

theorem getD_length (start : Nat) (starts : List Nat) :
    (start :: starts).getD starts.length 0 = starts.getLastD start := by
  induction starts generalizing start with
  | nil => rfl
  | cons next starts ih => rw [List.length_cons, List.getD_cons_succ, ih, List.getLastD_cons]

theorem startOf_ofText (before behind : List Char) :
    (ofText (before ++ behind)).startOf (Position.origin.after before).line = lastStart before := by
  have hline : (Position.origin.after before).line = (lineStarts 0 before).length := by
    rw [Position.line_after, length_lineStarts]
    exact Nat.zero_add _
  rw [startOf, if_neg (by omega), Int.toNat_natCast, getD_starts, hline,
    List.getD_append _ _ _ _ (by rw [List.length_cons]; omega), getD_length]
  rfl

/--
The line and the column of an offset are those that counting from the beginning of the text gives.
-/
theorem lineColumn_ofText (before behind : List Char) :
    (ofText (before ++ behind)).lineColumn before.length
      = (((Position.origin.after before).line : Int), (Position.origin.after before).column) := by
  have hslice : Text.slice (before ++ behind) (lastStart before) before.length
      = before.drop (lastStart before) := by
    have hle := lastStart_le before
    simp only [Text.slice, Int.natCast_nonneg, Int.not_lt.2, if_false, Int.toNat_natCast]
    rw [List.drop_append_of_le_length hle, List.take_left' (by rw [List.length_drop])]
  unfold lineColumn
  dsimp only
  rw [lineOf_ofText, startOf_ofText, show (ofText (before ++ behind)).text = before ++ behind from rfl, hslice,
    visualWidth_lastLine]

end LineIndex

/--
What holds of single lines and, given the rest of a text, of a line with its line end before it, holds of every text.
-/
theorem Text.lines_induction {P : List Char → Prop} (last : ∀ line, '\n' ∉ line → P line)
    (first : ∀ line rest, '\n' ∉ line → P rest → P (line ++ '\n' :: rest)) (text : List Char) : P text := by
  rcases line_cases text with hnone | ⟨line, rest, hnone, htext⟩
  · exact last text hnone
  · rw [htext]
    exact first line rest hnone (lines_induction last first rest)
termination_by text.length
decreasing_by simp [htext]; omega

/--
Whether the character at an offset ends a line: a line feed, or a carriage return before a line feed or at the end of
the text.
-/
def Text.endsLine (text : List Char) (offset : Nat) : Bool :=
  text[offset]? == some '\n' || (text[offset]? == some '\r' && text[offset + 1]?.all (· == '\n'))

namespace LineIndex

open LineEdit (IsLine)

/--
The lines of a text that begins at `offset`, each with the offset at which it starts.
-/
def rows (offset : Nat) (text : List Char) : List (Nat × List Char) :=
  (offset :: lineStarts offset text).zip (Text.fields (· == '\n') text)

theorem lines_eq (text : List Char) :
    (ofText text).lines = (rows 0 text).mapIdx fun number row => (number, row.1, withoutReturn row.2) :=
  rfl

theorem lineStarts_line {line : List Char} (h : '\n' ∉ line) (offset : Nat) : lineStarts offset line = [] := by
  rw [← List.length_eq_zero_iff, length_lineStarts, List.count_eq_zero]
  exact h

theorem rows_line {line : List Char} (h : '\n' ∉ line) (offset : Nat) : rows offset line = [(offset, line)] := by
  rw [rows, lineStarts_line h, Text.fields_line h]
  rfl

theorem rows_line_append {line : List Char} (h : '\n' ∉ line) (offset : Nat) (rest : List Char) :
    rows offset (line ++ '\n' :: rest) = (offset, line) :: rows (offset + line.length + 1) rest := by
  rw [rows, lineStarts_append, lineStarts_line h, Text.fields_line_append h, lineStarts, if_pos rfl]
  rfl

theorem length_rows (offset : Nat) (text : List Char) : (rows offset text).length = text.count '\n' + 1 := by
  induction text using Text.lines_induction generalizing offset with
  | last line h =>
    rw [rows_line h, List.count_eq_zero.2 h]
    rfl
  | first line rest h ih =>
    rw [rows_line_append h, List.length_cons, ih, List.count_append, List.count_eq_zero.2 h, List.count_cons_self,
      Nat.zero_add]

/--
Each line is that of the text between two line ends, and starts behind as many line feeds as lines precede it.
-/
theorem getElem?_rows (offset : Nat) {text : List Char} {number : Nat} (hnumber : number ≤ text.count '\n') :
    ∃ before line behind, text = before ++ (line ++ behind) ∧ IsLine before line behind
      ∧ before.count '\n' = number ∧ (rows offset text)[number]? = some (offset + before.length, line) := by
  induction text using Text.lines_induction generalizing offset number with
  | last line h =>
    rw [List.count_eq_zero.2 h, Nat.le_zero] at hnumber
    refine ⟨[], line, [], by simp, ⟨by simp, h, by simp⟩, hnumber.symm, ?_⟩
    rw [rows_line h, hnumber]
    rfl
  | first line rest h ih =>
    cases number with
    | zero =>
      refine ⟨[], line, '\n' :: rest, rfl, ⟨by simp, h, by simp⟩, rfl, ?_⟩
      rw [rows_line_append h]
      rfl
    | succ number =>
      rw [List.count_append, List.count_eq_zero.2 h, List.count_cons_self, Nat.zero_add, Nat.succ_le_succ_iff] at hnumber
      obtain ⟨before, line', behind, rfl, hline, hcount, hrow⟩ := ih (offset + line.length + 1) hnumber
      refine ⟨line ++ '\n' :: before, line', behind, by simp, ⟨fun c hc => ?_, hline.line, hline.behind⟩, ?_, ?_⟩
      · rw [List.getLast?_append_of_ne_nil _ (List.cons_ne_nil _ _)] at hc
        cases before with
        | nil => exact (Option.some.inj hc).symm
        | cons d before => exact hline.before c hc
      · rw [List.count_append, List.count_eq_zero.2 h, List.count_cons_self, hcount, Nat.zero_add]
      · rw [rows_line_append h, List.getElem?_cons_succ, hrow, List.length_append, List.length_cons]
        congr 2
        omega

theorem le_of_mem_rows {offset : Nat} {text : List Char} {row : Nat × List Char} (h : row ∈ rows offset text) :
    offset ≤ row.1 := by
  obtain ⟨number, hnumber⟩ := List.getElem?_of_mem h
  have hlength := (List.getElem?_eq_some_iff.1 hnumber).1
  rw [length_rows] at hlength
  obtain ⟨before, line, behind, -, -, -, hrow⟩ := getElem?_rows offset (Nat.le_of_lt_succ hlength)
  obtain rfl : (offset + before.length, line) = row := Option.some.inj (hrow.symm.trans hnumber)
  exact Nat.le_add_right _ _

/--
A line covers the characters on it, except for a carriage return at its end.
-/
theorem endsLine_append {cs tail : List Char} (hcs : '\n' ∉ cs) (htail : ∀ c ∈ tail.head?, c = '\n') {place : Nat}
    (hplace : place < cs.length) :
    Text.endsLine (cs ++ tail) place = !decide (place < (withoutReturn cs).length) := by
  have hnewline {i : Nat} (hi : i < cs.length) : cs[i] ≠ '\n' := fun h => hcs (h ▸ List.getElem_mem hi)
  have hnext : (cs ++ tail)[place + 1]?.all (· == '\n') = decide (place + 1 = cs.length) := by
    rcases Nat.lt_or_eq_of_le hplace with hlt | heq
    · rw [List.getElem?_append_left hlt, List.getElem?_eq_getElem hlt, Option.all_some,
        beq_eq_false_iff_ne.2 (hnewline hlt), eq_comm, decide_eq_false_iff_not]
      omega
    · rw [List.getElem?_append_right (by omega), show place + 1 - cs.length = 0 by omega, ← List.head?_eq_getElem?,
        decide_eq_true heq]
      cases hhead : tail.head? with
      | none => rfl
      | some c => exact beq_iff_eq.2 (htail c hhead)
  rw [Text.endsLine, hnext, List.getElem?_append_left hplace, List.getElem?_eq_getElem hplace, withoutReturn]
  simp only [Option.some_beq_some, beq_eq_false_iff_ne.2 (hnewline hplace), Bool.false_or]
  split
  · next hreturn =>
    obtain ⟨body, rfl⟩ := List.getLast?_eq_some_iff.1 hreturn
    rw [List.dropLast_concat, List.length_append, List.length_singleton]
    by_cases hlast : place = body.length
    · simp [hlast]
    · have hlt : place < body.length := by
        simp only [List.length_append, List.length_singleton] at hplace
        omega
      simp [hlast, hlt]
  · next hreturn =>
    rw [decide_eq_true hplace, Bool.not_true, Bool.and_eq_false_iff, or_iff_not_imp_right, Bool.not_eq_false]
    intro hlast
    -- The last character of the line is not a carriage return.
    rw [List.getLast?_eq_getElem?, ← of_decide_eq_true hlast, Nat.add_sub_cancel, List.getElem?_eq_getElem hplace,
      Option.some_inj] at hreturn
    exact beq_eq_false_iff_ne.2 hreturn

/--
Whether the text of a line covers an offset.
-/
def covers (offset : Nat) (line : Nat × Nat × List Char) : Bool :=
  line.2.1 ≤ offset && offset < line.2.1 + line.2.2.length

/--
The number of lines that cover an offset.
-/
def coverage (rows : List (Nat × List Char)) (offset : Nat) : Nat :=
  rows.countP fun row => row.1 ≤ offset && offset < row.1 + (withoutReturn row.2).length

theorem countP_covers (text : List Char) (offset : Nat) :
    (ofText text).lines.countP (covers offset) = coverage (rows 0 text) offset := by
  rw [lines_eq, List.mapIdx_eq_zipIdx_map, List.countP_map, coverage]
  conv => rhs; rw [← List.zipIdx_map_fst 0 (rows 0 text), List.countP_map]
  rfl

theorem coverage_of_lt {start offset : Nat} (h : offset < start) (text : List Char) :
    coverage (rows start text) offset = 0 := by
  refine List.countP_eq_zero.2 fun row hrow => ?_
  have hle := le_of_mem_rows hrow
  simp only [Bool.and_eq_true, decide_eq_true_eq, not_and_or]
  omega

/--
Every character is covered once, unless it ends a line.
-/
theorem coverage_eq (start : Nat) {text : List Char} {place : Nat} (hplace : place < text.length) :
    coverage (rows start text) (start + place) = if Text.endsLine text place then 0 else 1 := by
  induction text using Text.lines_induction generalizing start place with
  | last line h =>
    have hends : Text.endsLine (line ++ []) place = _ := endsLine_append h (by simp) hplace
    rw [List.append_nil] at hends
    rw [rows_line h, hends, coverage, List.countP_singleton]
    by_cases hcovers : place < (withoutReturn line).length <;> simp [hcovers]
  | first line rest h ih =>
    rw [rows_line_append h, coverage, List.countP_cons]
    have hwithout : (withoutReturn line).length ≤ line.length := by
      rw [withoutReturn]
      split
      · exact (List.dropLast_prefix line).length_le
      · exact Nat.le_refl _
    rcases Nat.lt_trichotomy place line.length with hlt | rfl | hgt
    -- On the line only the line itself can cover the place.
    · have hrest : coverage (rows (start + line.length + 1) rest) (start + place) = 0 :=
        coverage_of_lt (by omega) rest
      rw [coverage] at hrest
      rw [hrest, endsLine_append h (by simp) hlt]
      by_cases hcovers : place < (withoutReturn line).length <;> simp [hcovers]
    · have hrest : coverage (rows (start + line.length + 1) rest) (start + line.length) = 0 :=
        coverage_of_lt (by omega) rest
      rw [coverage] at hrest
      rw [hrest, Text.endsLine, List.getElem?_append_right (Nat.le_refl _), Nat.sub_self, List.getElem?_cons_zero]
      simpa using hwithout
    · obtain ⟨behind, rfl⟩ := Nat.exists_eq_add_of_lt hgt
      have hbehind : behind < rest.length := by
        simp only [List.length_append, List.length_cons] at hplace
        omega
      have hrest := ih (start + line.length + 1) hbehind
      rw [coverage, show start + line.length + 1 + behind = start + (line.length + behind + 1) by omega] at hrest
      have hends : Text.endsLine (line ++ '\n' :: rest) (line.length + behind + 1) = Text.endsLine rest behind := by
        have hget (i : Nat) : (line ++ '\n' :: rest)[line.length + i + 1]? = rest[i]? := by
          rw [List.getElem?_append_right (by omega), show line.length + i + 1 - line.length = i + 1 by omega,
            List.getElem?_cons_succ]
        rw [Text.endsLine, Text.endsLine, hget, Nat.add_assoc line.length behind 1, hget]
      rw [hrest, hends, Nat.add_eq_left, ite_eq_right_iff]
      simp only [Bool.and_eq_true, decide_eq_true_eq]
      omega

/--
The position of an offset is the one that counting from the beginning of the text gives, whereby columns can be counted
part by part. The lines of the index are those between the line feeds, without carriage returns at their ends, and they
cover every character once, except for those that end lines.
-/
theorem positions_exact (text : List Char) :
    (∀ offset ≤ text.length,
        (ofText text).lineColumn offset = (((text.take offset).count '\n' : Int), Text.visualWidth (text.take offset) 0))
      ∧ (∀ (a b : List Char) (column : Int),
        Text.visualWidth (a ++ b) column = Text.visualWidth b (Text.visualWidth a column))
      ∧ (ofText text).lines.length = (ofText text).lineCount
      ∧ (∀ number < (ofText text).lineCount, ∃ before line behind, text = before ++ (line ++ behind)
        ∧ IsLine before line behind ∧ before.count '\n' = number
        ∧ (ofText text).lines[number]? = some (number, before.length, withoutReturn line))
      ∧ ∀ offset < text.length,
        (ofText text).lines.countP (covers offset) = if Text.endsLine text offset then 0 else 1 := by
  have hcount : (ofText text).lineCount = text.count '\n' + 1 := by
    rw [lineCount, ofText, List.size_toArray, List.length_cons, length_lineStarts]
  refine ⟨fun offset hoffset => ?_, Text.visualWidth_append, ?_, fun number hnumber => ?_, fun offset hoffset => ?_⟩
  · have hposition := lineColumn_ofText (text.take offset) (text.drop offset)
    rw [List.take_append_drop, List.length_take_of_le hoffset, Position.line_after, Position.column_after] at hposition
    rw [hposition]
    simp [Position.origin]
  · rw [lines_eq, List.length_mapIdx, length_rows, hcount]
  · rw [hcount, Nat.lt_succ_iff] at hnumber
    obtain ⟨before, line, behind, htext, hline, hbefore, hrow⟩ := getElem?_rows 0 hnumber
    refine ⟨before, line, behind, htext, hline, hbefore, ?_⟩
    rw [lines_eq, List.getElem?_mapIdx, hrow, Nat.zero_add]
    rfl
  · have hcoverage := coverage_eq 0 hoffset
    rw [Nat.zero_add] at hcoverage
    rw [countP_covers, hcoverage]

/--
A text with a tab, a carriage return on its own and one before a line feed, and no line end behind its last line.
-/
theorem positions_exact_tab :
    let text := ['a', '\t', 'b', '\r', '\n', '\r', 'c']
    3 ≤ text.length ∧ (ofText text).lineColumn 3 = (((text.take 3).count '\n' : Int), Text.visualWidth (text.take 3) 0)
      ∧ Text.visualWidth (text.take 3) 0 = 9
      ∧ 1 < (ofText text).lineCount
      ∧ (∃ before line behind, text = before ++ (line ++ behind) ∧ IsLine before line behind ∧ before.count '\n' = 1
        ∧ (ofText text).lines[1]? = some (1, before.length, withoutReturn line))
      ∧ 3 < text.length ∧ (ofText text).lines.countP (covers 3) = 0
      ∧ 5 < text.length ∧ (ofText text).lines.countP (covers 5) = 1 := by
  intro text
  obtain ⟨hposition, -, -, hline, hcovers⟩ := positions_exact text
  exact ⟨by decide, hposition 3 (by decide), by decide, by decide, hline 1 (by decide), by decide,
    (hcovers 3 (by decide)).trans (by decide), by decide, (hcovers 5 (by decide)).trans (by decide)⟩

end LineIndex

end HaskellStyle
