import HaskellStyle.Text.Blank
import HaskellStyle.Text.Position
import Mathlib.Data.List.Infix
import Mathlib.Data.String.Basic
import Mathlib.Order.Monotone.Basic

/-!
This module contains texts with a carriage return before every line feed, and how they relate to the texts with bare
line feeds: what is read off a text is the same or the same with carriage returns.
-/

namespace HaskellStyle

namespace Text

/--
A text with a carriage return before every line feed.
-/
def crlf (cs : List Char) : List Char :=
  cs.flatMap fun c => if c = '\n' then ['\r', '\n'] else [c]

/--
A character other than the control characters from the vertical tab to the carriage return, the ones that sort between
a line feed and the carriage return before it.
-/
def IsPlainChar (c : Char) : Prop :=
  c ≠ '\u000b' ∧ c ≠ '\u000c' ∧ c ≠ '\r'

instance : DecidablePred IsPlainChar :=
  fun c => inferInstanceAs (Decidable (c ≠ '\u000b' ∧ c ≠ '\u000c' ∧ c ≠ '\r'))

/--
A text of plain characters.
-/
def IsPlain (cs : List Char) : Prop :=
  ∀ c ∈ cs, IsPlainChar c

instance (cs : List Char) : Decidable (IsPlain cs) :=
  List.decidableBAll IsPlainChar cs

@[simp] theorem crlf_nil : crlf [] = [] := rfl

@[simp] theorem crlf_newline (cs : List Char) : crlf ('\n' :: cs) = '\r' :: '\n' :: crlf cs := rfl

theorem crlf_cons {c : Char} (h : c ≠ '\n') (cs : List Char) : crlf (c :: cs) = c :: crlf cs := by
  simp [crlf, h]

@[simp] theorem crlf_append (a b : List Char) : crlf (a ++ b) = crlf a ++ crlf b := by
  simp [crlf]

theorem crlf_flatten (css : List (List Char)) : crlf css.flatten = (css.map crlf).flatten := by
  induction css with
  | nil => rfl
  | cons cs css ih => simp [ih]

theorem crlf_eq_self {cs : List Char} (h : '\n' ∉ cs) : crlf cs = cs := by
  induction cs with
  | nil => rfl
  | cons c cs ih =>
    rw [List.mem_cons, not_or] at h
    rw [crlf_cons (Ne.symm h.1), ih h.2]

theorem length_crlf (cs : List Char) : (crlf cs).length = cs.length + cs.count '\n' := by
  induction cs with
  | nil => rfl
  | cons c cs ih =>
    by_cases hc : c = '\n'
    · subst hc
      simp [ih]
      omega
    · rw [crlf_cons hc, List.length_cons, ih, List.length_cons, List.count_cons_of_ne hc]
      omega

theorem crlf_eq_self_iff {cs : List Char} : crlf cs = cs ↔ '\n' ∉ cs := by
  refine ⟨fun h => ?_, crlf_eq_self⟩
  have hlength := length_crlf cs
  rw [h] at hlength
  exact List.count_eq_zero.1 (by omega)

theorem mem_crlf {d : Char} (hd : d ≠ '\r') (cs : List Char) : d ∈ crlf cs ↔ d ∈ cs := by
  induction cs with
  | nil => rfl
  | cons c cs ih =>
    by_cases hc : c = '\n'
    · subst hc
      simp [ih, hd]
    · rw [crlf_cons hc, List.mem_cons, List.mem_cons, ih]

@[simp] theorem count_newline_crlf (cs : List Char) : (crlf cs).count '\n' = cs.count '\n' := by
  induction cs with
  | nil => rfl
  | cons c cs ih =>
    by_cases hc : c = '\n'
    · subst hc
      simp [ih]
    · rw [crlf_cons hc, List.count_cons, List.count_cons, ih]

@[simp] theorem contains_newline_crlf (cs : List Char) : (crlf cs).contains '\n' = cs.contains '\n' := by
  rw [Bool.eq_iff_iff, List.contains_iff_mem, List.contains_iff_mem, mem_crlf (by decide)]

theorem contains_crlf {d : Char} (hd : d ≠ '\r') (cs : List Char) : (crlf cs).contains d = cs.contains d := by
  rw [Bool.eq_iff_iff, List.contains_iff_mem, List.contains_iff_mem, mem_crlf hd]

theorem head?_crlf_ne (cs : List Char) : (crlf cs).head? ≠ some '\n' := by
  cases cs with
  | nil => simp
  | cons c cs =>
    by_cases hc : c = '\n'
    · subst hc
      simp
    · simp [crlf_cons hc, hc]

@[simp] theorem isEmpty_crlf (cs : List Char) : (crlf cs).isEmpty = cs.isEmpty := by
  cases cs with
  | nil => rfl
  | cons c cs =>
    by_cases hc : c = '\n'
    · subst hc
      rfl
    · rw [crlf_cons hc]
      rfl

@[simp] theorem getLast?_crlf (cs : List Char) : (crlf cs).getLast? = cs.getLast? := by
  rcases List.eq_nil_or_concat cs with rfl | ⟨cs, c, rfl⟩
  · rfl
  · by_cases hc : c = '\n'
    · subst hc
      simp
    · simp [crlf_cons hc]

theorem crlf_injective : Function.Injective crlf := by
  intro a b h
  induction a generalizing b with
  | nil =>
    rw [crlf_nil, eq_comm, ← List.isEmpty_iff, isEmpty_crlf, List.isEmpty_iff] at h
    exact h.symm
  | cons c a ih =>
    cases b with
    | nil =>
      rw [crlf_nil, ← List.isEmpty_iff, isEmpty_crlf] at h
      cases h
    | cons d b =>
      by_cases hc : c = '\n' <;> by_cases hd : d = '\n'
      · subst hc hd
        rw [crlf_newline, crlf_newline, List.cons.injEq, List.cons.injEq] at h
        rw [ih h.2.2]
      · -- Behind a carriage return of `b` itself there would be a bare line feed.
        subst hc
        rw [crlf_newline, crlf_cons hd, List.cons.injEq] at h
        exact absurd (congrArg List.head? h.2.symm) (head?_crlf_ne b)
      · subst hd
        rw [crlf_newline, crlf_cons hc, List.cons.injEq] at h
        exact absurd (congrArg List.head? h.2) (head?_crlf_ne a)
      · rw [crlf_cons hc, crlf_cons hd, List.cons.injEq] at h
        rw [h.1, ih h.2]

@[simp] theorem crlf_inj {a b : List Char} : crlf a = crlf b ↔ a = b :=
  crlf_injective.eq_iff

theorem takeWhile_crlf {p : Char → Bool} (hp : p '\r' = p '\n') (cs : List Char) :
    (crlf cs).takeWhile p = crlf (cs.takeWhile p) := by
  induction cs with
  | nil => rfl
  | cons c cs ih =>
    by_cases hc : c = '\n'
    · subst hc
      rw [crlf_newline, List.takeWhile_cons, List.takeWhile_cons, List.takeWhile_cons, hp, ih]
      split <;> simp_all
    · rw [crlf_cons hc, List.takeWhile_cons, List.takeWhile_cons, ih]
      split
      · rw [crlf_cons hc]
      · rfl

theorem dropWhile_crlf {p : Char → Bool} (hp : p '\r' = p '\n') (cs : List Char) :
    (crlf cs).dropWhile p = crlf (cs.dropWhile p) := by
  have h := congrArg crlf (List.takeWhile_append_dropWhile (p := p) (l := cs))
  rw [crlf_append, ← takeWhile_crlf hp] at h
  exact List.append_cancel_left ((List.takeWhile_append_dropWhile).trans h.symm)

theorem dropWhile_reverse_crlf {p : Char → Bool} (hp : p '\r' = p '\n') (cs : List Char) :
    ((crlf cs).reverse.dropWhile p).reverse = crlf (cs.reverse.dropWhile p).reverse := by
  induction cs using List.reverseRecOn with
  | nil => rfl
  | append_singleton cs c ih =>
    by_cases hc : c = '\n'
    · subst hc
      have hpair : crlf ['\n'] = ['\r', '\n'] := rfl
      simp only [crlf_append, hpair, List.reverse_append, List.reverse_cons, List.reverse_nil, List.nil_append,
        List.cons_append, List.dropWhile_cons, hp]
      split
      · exact ih
      · simp [hpair]
    · have hsingle : crlf [c] = [c] := crlf_cons hc []
      simp only [crlf_append, hsingle, List.reverse_append, List.reverse_cons, List.reverse_nil, List.nil_append,
        List.cons_append, List.dropWhile_cons]
      split
      · exact ih
      · simp [hsingle]

theorem return_mem_take_crlf {cs : List Char} {n : Nat} (h : '\n' ∈ cs.take n) : '\r' ∈ (crlf cs).take n := by
  induction cs generalizing n with
  | nil => simp at h
  | cons c cs ih =>
    cases n with
    | zero => simp at h
    | succ n =>
      by_cases hc : c = '\n'
      · subst hc
        simp
      · rw [List.take_succ_cons, List.mem_cons] at h
        rw [crlf_cons hc, List.take_succ_cons]
        exact List.mem_cons_of_mem _ (ih (h.resolve_left (Ne.symm hc)))

theorem any_head?_crlf {p : Char → Bool} (hp : p '\r' = p '\n') (cs : List Char) :
    (crlf cs).head?.any p = cs.head?.any p := by
  cases cs with
  | nil => rfl
  | cons c cs =>
    by_cases hc : c = '\n'
    · subst hc
      exact hp
    · rw [crlf_cons hc]
      rfl

/--
A part without line ends begins a text with carriage returns as it begins the text without them.
-/
theorem prefix_crlf {part : List Char} (hnewline : '\n' ∉ part) (hreturn : '\r' ∉ part) (cs : List Char) :
    part <+: crlf cs ↔ part <+: cs := by
  induction part generalizing cs with
  | nil => simp
  | cons d part ih =>
    rw [List.mem_cons, not_or] at hnewline hreturn
    cases cs with
    | nil => rfl
    | cons c cs =>
      by_cases hc : c = '\n'
      · subst hc
        rw [crlf_newline, List.cons_prefix_cons, List.cons_prefix_cons]
        exact ⟨fun h => absurd h.1.symm hreturn.1, fun h => absurd h.1.symm hnewline.1⟩
      · rw [crlf_cons hc, List.cons_prefix_cons, List.cons_prefix_cons, ih hnewline.2 hreturn.2]

theorem isPrefixOf_crlf {part : List Char} (hnewline : '\n' ∉ part) (hreturn : '\r' ∉ part) (cs : List Char) :
    part.isPrefixOf (crlf cs) = part.isPrefixOf cs := by
  rw [Bool.eq_iff_iff, List.isPrefixOf_iff_prefix, List.isPrefixOf_iff_prefix, prefix_crlf hnewline hreturn]

@[simp] theorem visualWidth_crlf (cs : List Char) (start : Int) : visualWidth (crlf cs) start = visualWidth cs start := by
  induction cs generalizing start with
  | nil => rfl
  | cons c cs ih =>
    by_cases hc : c = '\n'
    · subst hc
      simp [ih, advanceColumn]
    · rw [crlf_cons hc, visualWidth_cons, visualWidth_cons, ih]

theorem filter_fields_crlf {p : Char → Bool} (hnewline : p '\n') (hreturn : p '\r') (cs : List Char) :
    (fields p (crlf cs)).filter (!·.isEmpty) = (fields p cs).filter (!·.isEmpty)
      ∧ (fields p (crlf cs)).head? = (fields p cs).head? := by
  induction cs with
  | nil => exact ⟨rfl, rfl⟩
  | cons c cs ih =>
    by_cases hc : c = '\n'
    · subst hc
      simp [fields, hnewline, hreturn, ih.1]
    · rw [crlf_cons hc]
      unfold fields
      split
      · exact ⟨by simp [ih.1], rfl⟩
      · -- The first field grows by `c`; the fields behind it are those behind the first of the rest.
        obtain ⟨hfilter, hhead⟩ := ih
        cases hlf : fields p cs with
        | nil =>
          rw [hlf, List.head?_nil, List.head?_eq_none_iff] at hhead
          simp [hhead]
        | cons field more =>
          rw [hlf, List.head?_cons, List.head?_eq_some_iff] at hhead
          obtain ⟨more', hmore⟩ := hhead
          rw [hlf, hmore, List.filter_cons, List.filter_cons] at hfilter
          have hrest : more'.filter (!·.isEmpty) = more.filter (!·.isEmpty) := by
            split at hfilter
            · exact List.tail_eq_of_cons_eq hfilter
            · exact hfilter
          simp [hmore, hrest]

theorem any_fields_crlf {p : Char → Bool} (hnewline : p '\n') (hreturn : p '\r') {f : List Char → Bool}
    (hf : f [] = false) (cs : List Char) : (fields p (crlf cs)).any f = (fields p cs).any f := by
  have hfilter (fs : List (List Char)) : fs.any f = (fs.filter (!·.isEmpty)).any f := by
    rw [List.any_filter]
    congr 1
    funext field
    cases field <;> simp [hf]
  rw [hfilter, (filter_fields_crlf hnewline hreturn cs).1, ← hfilter]

@[simp] theorem words_crlf (cs : List Char) : words (crlf cs) = words cs :=
  (filter_fields_crlf (by decide) (by decide) cs).1

/--
Texts with carriage returns are in the order of the texts without them: a carriage return stands for a line feed, and
nothing sorts between them.
-/
theorem crlf_lt_crlf {a b : List Char} (ha : IsPlain a) (hb : IsPlain b) : crlf a < crlf b ↔ a < b := by
  induction a generalizing b with
  | nil =>
    cases b with
    | nil => rfl
    | cons d b =>
      by_cases hd : d = '\n'
      · subst hd
        simp
      · simp [crlf_cons hd]
  | cons c a ih =>
    cases b with
    | nil => simp
    | cons d b =>
      have hrest := ih (fun x hx => ha x (List.mem_cons_of_mem _ hx)) fun x hx => hb x (List.mem_cons_of_mem _ hx)
      have hnext {x : Char} (hx : x ≠ '\n') (hplain : IsPlainChar x) :
          ('\r' < x ↔ '\n' < x) ∧ (x < '\r' ↔ x < '\n') ∧ x ≠ '\r' := by
        have hne {y : Char} (h : x ≠ y) : x.toNat ≠ y.toNat := fun heq => h (Char.ext (UInt32.toNat_inj.1 heq))
        have h0 := hne hx
        have h1 := hne hplain.1
        have h2 := hne hplain.2.1
        have h3 := hne hplain.2.2
        simp only [Char.lt_def, UInt32.lt_iff_toNat_lt]
        exact ⟨by simp at *; omega, by simp at *; omega, hplain.2.2⟩
      have hc' := ha c List.mem_cons_self
      have hd' := hb d List.mem_cons_self
      by_cases hc : c = '\n' <;> by_cases hd : d = '\n'
      · subst hc hd
        simp [hrest]
      · subst hc
        obtain ⟨hlt, -, hne⟩ := hnext hd hd'
        simp [crlf_cons hd, List.cons_lt_cons_iff, hlt, hne.symm, Ne.symm hd]
      · subst hd
        obtain ⟨-, hlt, hne⟩ := hnext hc hc'
        simp [crlf_cons hc, List.cons_lt_cons_iff, hlt, hne, hc]
      · rw [crlf_cons hc, crlf_cons hd, List.cons_lt_cons_iff, List.cons_lt_cons_iff, hrest]

/--
Where the character at an offset of a text stands once the text has carriage returns.
-/
def crlfOffset (text : List Char) (offset : Nat) : Nat :=
  offset + (text.take offset).count '\n'

theorem strictMono_crlfOffset (text : List Char) : StrictMono (crlfOffset text) := by
  intro a b h
  have hprefix : text.take a <+: text.take b := List.take_prefix_take_left (by omega)
  have hcount := hprefix.sublist.count_le '\n'
  unfold crlfOffset
  omega

@[simp] theorem crlfOffset_zero (text : List Char) : crlfOffset text 0 = 0 := by
  simp [crlfOffset]

@[simp] theorem crlfOffset_newline (text : List Char) (n : Nat) :
    crlfOffset ('\n' :: text) (n + 1) = crlfOffset text n + 2 := by
  simp [crlfOffset]
  omega

theorem crlfOffset_cons {c : Char} (h : c ≠ '\n') (text : List Char) (n : Nat) :
    crlfOffset (c :: text) (n + 1) = crlfOffset text n + 1 := by
  simp [crlfOffset, h]
  omega

theorem crlfOffset_append (a b : List Char) (n : Nat) :
    crlfOffset (a ++ b) (a.length + n) = (crlf a).length + crlfOffset b n := by
  rw [crlfOffset, List.take_length_add_append, List.count_append, length_crlf, crlfOffset]
  omega

theorem crlfOffset_add (text : List Char) (n k : Nat) :
    crlfOffset text (n + k) = crlfOffset text n + crlfOffset (text.drop n) k := by
  rw [crlfOffset, List.take_add, List.count_append, crlfOffset, crlfOffset]
  omega

theorem crlfOffset_length (a b : List Char) : crlfOffset (a ++ b) a.length = (crlf a).length := by
  rw [← Nat.add_zero a.length, crlfOffset_append, crlfOffset_zero, Nat.add_zero]

theorem crlfOffset_eq_self {text : List Char} {n : Nat} (h : '\n' ∉ text.take n) : crlfOffset text n = n := by
  rw [crlfOffset, List.count_eq_zero.2 h, Nat.add_zero]

theorem take_crlf (cs : List Char) (n : Nat) : (crlf cs).take (crlfOffset cs n) = crlf (cs.take n) := by
  induction cs generalizing n with
  | nil => simp
  | cons c cs ih =>
    cases n with
    | zero => simp
    | succ n =>
      by_cases hc : c = '\n'
      · subst hc
        simp [ih]
      · rw [crlfOffset_cons hc, crlf_cons hc, List.take_succ_cons, List.take_succ_cons, crlf_cons hc, ih]

theorem drop_crlf (cs : List Char) (n : Nat) : (crlf cs).drop (crlfOffset cs n) = crlf (cs.drop n) := by
  have h := congrArg crlf (List.take_append_drop n cs)
  rw [crlf_append, ← take_crlf] at h
  exact List.append_cancel_left ((List.take_append_drop _ _).trans h.symm)

/--
A string with a carriage return before every line feed.
-/
def crlfString (s : String) : String :=
  String.ofList (crlf s.toList)

@[simp] theorem toList_crlfString (s : String) : (crlfString s).toList = crlf s.toList := by
  rw [crlfString, String.toList_ofList]

theorem crlfString_ofList (cs : List Char) : crlfString (String.ofList cs) = String.ofList (crlf cs) := by
  rw [crlfString, String.toList_ofList]

@[simp] theorem crlfString_empty : crlfString "" = "" := by decide

@[simp] theorem crlfString_newline : crlfString "\n" = "\r\n" := by decide

@[simp] theorem crlfString_append (a b : String) : crlfString (a ++ b) = crlfString a ++ crlfString b := by
  simp [← String.toList_inj]

theorem crlfString_injective : Function.Injective crlfString := by
  intro a b h
  rw [← String.toList_inj, toList_crlfString, toList_crlfString, crlf_inj, String.toList_inj] at h
  exact h

@[simp] theorem crlfString_inj {a b : String} : crlfString a = crlfString b ↔ a = b :=
  crlfString_injective.eq_iff

theorem crlfString_bne (a b : String) : (crlfString a != crlfString b) = (a != b) := by
  rw [bne, bne, crlfString_injective.beq_eq]

theorem crlfString_eq_self {s : String} (h : '\n' ∉ s.toList) : crlfString s = s := by
  rw [crlfString, crlf_eq_self h, String.ofList_toList]

theorem crlfString_eq_self_iff {s : String} : crlfString s = s ↔ '\n' ∉ s.toList := by
  rw [← String.toList_inj, toList_crlfString, crlf_eq_self_iff]

theorem newline_mem_crlfString {s : String} : '\n' ∈ (crlfString s).toList ↔ '\n' ∈ s.toList := by
  rw [toList_crlfString, mem_crlf (by decide)]

/--
A string with carriage returns is a string of one line only if it is the same without them.
-/
theorem crlfString_eq_iff {s w : String} (hw : '\n' ∉ w.toList) : crlfString s = w ↔ s = w := by
  constructor
  · rintro rfl
    rw [crlfString_eq_self fun h => hw (newline_mem_crlfString.2 h)]
  · rintro rfl
    exact crlfString_eq_self hw

theorem crlfString_beq {s w : String} (hw : !w.toList.contains '\n') : (crlfString s == w) = (s == w) := by
  rw [Bool.eq_iff_iff, beq_iff_eq, beq_iff_eq, crlfString_eq_iff (by simpa using hw)]

theorem contains_crlfString {ws : List String} (hws : ws.all fun w => !w.toList.contains '\n') (s : String) :
    ws.contains (crlfString s) = ws.contains s := by
  rw [Bool.eq_iff_iff, List.contains_iff_mem, List.contains_iff_mem]
  constructor
  · intro h
    have hs := List.all_eq_true.1 hws _ h
    rw [toList_crlfString, contains_newline_crlf] at hs
    rwa [crlfString_eq_self (by simpa using hs)] at h
  · intro h
    have hs := List.all_eq_true.1 hws _ h
    rwa [crlfString_eq_self (by simpa using hs)]

theorem startsWith_crlfString {w : String} (hw : !w.toList.contains '\n' && !w.toList.contains '\r') (s : String) :
    (crlfString s).startsWith w = s.startsWith w := by
  rw [Bool.and_eq_true] at hw
  rw [Bool.eq_iff_iff, String.startsWith_string_iff, String.startsWith_string_iff, toList_crlfString,
    prefix_crlf (by simpa using hw.1) (by simpa using hw.2)]

theorem crlfString_join (ss : List String) : crlfString (String.join ss) = String.join (ss.map crlfString) := by
  rw [← String.toList_inj]
  simp only [toList_crlfString, String.toList_join, List.flatMap_def, crlf_flatten, List.map_map, Function.comp_def]

theorem crlfString_intercalate {s : String} (hs : !s.toList.contains '\n') (ss : List String) :
    crlfString (s.intercalate ss) = s.intercalate (ss.map crlfString) := by
  have hcrlf : crlf s.toList = s.toList := crlf_eq_self (by simpa using hs)
  rw [← String.toList_inj, toList_crlfString, String.toList_intercalate, String.toList_intercalate, List.intercalate,
    List.intercalate, crlf_flatten, List.map_map]
  congr 1
  induction ss with
  | nil => rfl
  | cons a ss ih =>
    cases ss with
    | nil => simp
    | cons b ss => simpa [hcrlf] using ih

theorem crlfString_intercalate_eq_self {s : String} (hs : !s.toList.contains '\n') {ss : List String}
    (hss : ∀ t ∈ ss, crlfString t = t) : crlfString (s.intercalate ss) = s.intercalate ss := by
  have hid : ss.map crlfString = ss.map id := List.map_congr_left hss
  rw [crlfString_intercalate hs, hid, List.map_id]

theorem crlfString_lt {a b : String} (ha : IsPlain a.toList) (hb : IsPlain b.toList) :
    crlfString a < crlfString b ↔ a < b := by
  rw [String.lt_iff, String.lt_iff, toList_crlfString, toList_crlfString, crlf_lt_crlf ha hb]

theorem crlfString_le {a b : String} (ha : IsPlain a.toList) (hb : IsPlain b.toList) :
    crlfString a ≤ crlfString b ↔ a ≤ b := by
  rw [← String.not_lt, ← String.not_lt, crlfString_lt hb ha]

end Text

end HaskellStyle
