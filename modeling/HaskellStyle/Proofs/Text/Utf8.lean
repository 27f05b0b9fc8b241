import HaskellStyle.Text.Utf8

/-!
This module contains the correctness of the UTF-8 decoder. The sequences it takes are those of characters, of which there
is one for each character, so exactly the encodings of texts are decoded. Main result: the offset at which bytes are
refused is the length of their longest beginning that can be decoded.
-/

namespace HaskellStyle.Utf8

/--
A byte that continues a sequence.
-/
def Continues (b : UInt8) : Prop :=
  0x80 ≤ b.toNat ∧ b.toNat ≤ 0xBF

/--
The sequences of bytes and their values. A value has no shorter sequence, is no surrogate and is not beyond Unicode.
-/
inductive Sequence : List UInt8 → Nat → Prop where
  | one {a : UInt8} {n : Nat} (hn : n = a.toNat) (hlong : n < 0x80) : Sequence [a] n
  | two {a b : UInt8} {n : Nat} (ha : 0xC0 ≤ a.toNat ∧ a.toNat < 0xE0) (hb : Continues b)
    (hn : n = (a.toNat - 0xC0) * 64 + (b.toNat - 0x80)) (hshort : 0x80 ≤ n) : Sequence [a, b] n
  | three {a b c : UInt8} {n : Nat} (ha : 0xE0 ≤ a.toNat ∧ a.toNat < 0xF0) (hb : Continues b) (hc : Continues c)
    (hn : n = ((a.toNat - 0xE0) * 64 + (b.toNat - 0x80)) * 64 + (c.toNat - 0x80)) (hshort : 0x800 ≤ n)
    (hvalid : n.isValidChar) : Sequence [a, b, c] n
  | four {a b c d : UInt8} {n : Nat} (ha : 0xF0 ≤ a.toNat ∧ a.toNat < 0xF8) (hb : Continues b) (hc : Continues c)
    (hd : Continues d)
    (hn : n = (((a.toNat - 0xF0) * 64 + (b.toNat - 0x80)) * 64 + (c.toNat - 0x80)) * 64 + (d.toNat - 0x80))
    (hshort : 0x10000 ≤ n) (hvalid : n.isValidChar) : Sequence [a, b, c, d] n

theorem Sequence.ne_nil {bs : List UInt8} {n : Nat} (h : Sequence bs n) : bs ≠ [] := by
  cases h <;> exact List.cons_ne_nil _ _

theorem Sequence.isValidChar {bs : List UInt8} {n : Nat} (h : Sequence bs n) : n.isValidChar := by
  cases h with
  | one hn hlong => exact .inl (by omega)
  | two ha hb hn hshort =>
    obtain ⟨-, hb⟩ := hb
    exact .inl (by omega)
  | three ha hb hc hn hshort hvalid => exact hvalid
  | four ha hb hc hd hn hshort hvalid => exact hvalid

/--
A sequence is the encoding of its value.
-/
theorem Sequence.encode_eq {bs : List UInt8} {n : Nat} (h : Sequence bs n) :
    String.utf8EncodeChar (Char.ofNat n) = bs := by
  have hvalue : (Char.ofNat n).val.toNat = n := by
    rw [Char.ofNat, dif_pos h.isValidChar]
    rfl
  have hmax : n < 0x110000 := by
    rcases h.isValidChar with h | h
    · omega
    · exact h.2
  have hbyte {a : UInt8} {m : Nat} (hm : m = a.toNat) : UInt8.ofNat m = a := by
    rw [hm, UInt8.ofNat_toNat]
  unfold String.utf8EncodeChar
  simp only [hvalue]
  cases h with
  | one hn hlong => rw [if_pos (by omega), hbyte hn]
  | two ha hb hn hshort =>
    obtain ⟨hb, hb'⟩ := hb
    rw [if_neg (by omega), if_pos (by omega)]
    simp only [List.cons.injEq, and_true]
    exact ⟨hbyte (by omega), hbyte (by omega)⟩
  | three ha hb hc hn hshort hvalid =>
    obtain ⟨hb, hb'⟩ := hb
    obtain ⟨hc, hc'⟩ := hc
    rw [if_neg (by omega), if_neg (by omega), if_pos (by omega)]
    simp only [List.cons.injEq, and_true]
    exact ⟨hbyte (by omega), hbyte (by omega), hbyte (by omega)⟩
  | four ha hb hc hd hn hshort hvalid =>
    obtain ⟨hb, hb'⟩ := hb
    obtain ⟨hc, hc'⟩ := hc
    obtain ⟨hd, hd'⟩ := hd
    rw [if_neg (by omega), if_neg (by omega), if_neg (by omega)]
    simp only [List.cons.injEq, and_true]
    exact ⟨hbyte (by omega), hbyte (by omega), hbyte (by omega), hbyte (by omega)⟩

/--
The encoding of a character is a sequence.
-/
theorem sequence_encode (c : Char) : Sequence (String.utf8EncodeChar c) c.toNat := by
  have hvalid : c.toNat.isValidChar := c.valid
  have hmax : c.toNat < 0x110000 := by
    rcases hvalid with h | h
    · omega
    · exact h.2
  have hbyte {m : Nat} (hm : m < 256) : (UInt8.ofNat m).toNat = m := by
    rw [UInt8.toNat_ofNat', Nat.mod_eq_of_lt hm]
  have htail (m : Nat) : (UInt8.ofNat (m % 64 + 0x80)).toNat = m % 64 + 0x80 := hbyte (by omega)
  have hcontinues (m : Nat) : Continues (UInt8.ofNat (m % 64 + 0x80)) := by
    rw [Continues, htail]
    omega
  unfold String.utf8EncodeChar
  dsimp only
  rw [show c.val.toNat = c.toNat from rfl]
  generalize c.toNat = v at hvalid hmax
  split
  · exact .one (hbyte (by omega)).symm (by omega)
  · split
    · have hlead : (UInt8.ofNat (v / 64 % 32 + 0xC0)).toNat = v / 64 % 32 + 0xC0 := hbyte (by omega)
      exact .two (by omega) (hcontinues _) (by rw [hlead, htail]; omega) (by omega)
    · split
      · have hlead : (UInt8.ofNat (v / 4096 % 16 + 0xE0)).toNat = v / 4096 % 16 + 0xE0 := hbyte (by omega)
        exact .three (by omega) (hcontinues _) (hcontinues _) (by rw [hlead, htail, htail]; omega) (by omega) hvalid
      · have hlead : (UInt8.ofNat (v / 262144 % 8 + 0xF0)).toNat = v / 262144 % 8 + 0xF0 := hbyte (by omega)
        exact .four (by omega) (hcontinues _) (hcontinues _) (hcontinues _) (by rw [hlead, htail, htail, htail]; omega)
          (by omega) hvalid

/--
What a byte announces as the first of a sequence, by its value.
-/
theorem lead?_eq (a : UInt8) : lead? a =
    if a.toNat < 0x80 then
      some ⟨0, 0x80, 0xBF, a.toNat⟩
    else if a.toNat < 0xC2 then
      none
    else if a.toNat < 0xE0 then
      some ⟨1, 0x80, 0xBF, a.toNat - 0xC0⟩
    else if a.toNat < 0xF0 then
      some ⟨2, if a.toNat = 0xE0 then 0xA0 else 0x80, if a.toNat = 0xED then 0x9F else 0xBF, a.toNat - 0xE0⟩
    else if a.toNat < 0xF5 then
      some ⟨3, if a.toNat = 0xF0 then 0x90 else 0x80, if a.toNat = 0xF4 then 0x8F else 0xBF, a.toNat - 0xF0⟩
    else
      none := by
  simp only [lead?, UInt8.lt_iff_toNat_lt, ← UInt8.toNat_inj, UInt8.reduceToNat]

theorem ite_le_iff {p : Prop} [Decidable p] {low low' b : UInt8} :
    (if p then low else low').toNat ≤ b.toNat ↔ (p → low.toNat ≤ b.toNat) ∧ (¬p → low'.toNat ≤ b.toNat) := by
  split <;> simp [*]

theorem le_ite_iff {p : Prop} [Decidable p] {high high' b : UInt8} :
    b.toNat ≤ (if p then high else high').toNat ↔ (p → b.toNat ≤ high.toNat) ∧ (¬p → b.toNat ≤ high'.toNat) := by
  split <;> simp [*]

theorem checkTail_succ_iff {low high : UInt8} {n : Nat} {bs : List UInt8} :
    checkTail low high (n + 1) bs = none ↔ ∃ b rest, bs = b :: rest ∧ low.toNat ≤ b.toNat ∧ b.toNat ≤ high.toNat
      ∧ checkTail 0x80 0xBF n rest = none := by
  cases bs with
  | nil => simp [checkTail]
  | cons b rest =>
    rw [checkTail]
    simp only [UInt8.le_iff_toNat_le]
    split
    · next hbounds =>
      constructor
      · exact fun h => ⟨b, rest, rfl, hbounds.1, hbounds.2, h⟩
      · rintro ⟨b, rest, ⟨⟩, -, -, h⟩
        exact h
    · next hbounds =>
      constructor
      · exact fun h => nomatch h
      · rintro ⟨b, rest, ⟨⟩, hlow, hhigh, -⟩
        exact absurd ⟨hlow, hhigh⟩ hbounds

/--
What the decoder takes is a sequence.
-/
theorem sequence_of_checkTail {a : UInt8} {more : List UInt8} {lead : Lead} (hlead : lead? a = some lead)
    (htail : checkTail lead.low lead.high lead.tail more = none) :
    Sequence (a :: more.take lead.tail)
      ((more.take lead.tail).foldl (fun n b => n * 64 + (b.toNat - 0x80)) lead.value) := by
  rw [lead?_eq] at hlead
  split at hlead
  · cases hlead
    exact .one rfl ‹_›
  split at hlead
  · cases hlead
  split at hlead
  · cases hlead
    obtain ⟨b, rest, rfl, hb, hb', -⟩ := checkTail_succ_iff.1 htail
    simp only [UInt8.reduceToNat] at hb hb'
    simp only [List.take_succ_cons, List.take_zero, List.foldl_cons, List.foldl_nil]
    exact .two (by omega) ⟨hb, hb'⟩ rfl (by omega)
  split at hlead
  · cases hlead
    obtain ⟨b, rest, rfl, hb, hb', htail⟩ := checkTail_succ_iff.1 htail
    obtain ⟨c, rest, rfl, hc, hc', -⟩ := checkTail_succ_iff.1 htail
    simp only [ite_le_iff, le_ite_iff, UInt8.reduceToNat] at hb hb' hc hc'
    simp only [List.take_succ_cons, List.take_zero, List.foldl_cons, List.foldl_nil]
    exact .three (by omega) ⟨by omega, by omega⟩ ⟨hc, hc'⟩ rfl (by omega) (by rw [Nat.isValidChar]; omega)
  split at hlead
  · cases hlead
    obtain ⟨b, rest, rfl, hb, hb', htail⟩ := checkTail_succ_iff.1 htail
    obtain ⟨c, rest, rfl, hc, hc', htail⟩ := checkTail_succ_iff.1 htail
    obtain ⟨d, rest, rfl, hd, hd', -⟩ := checkTail_succ_iff.1 htail
    simp only [ite_le_iff, le_ite_iff, UInt8.reduceToNat] at hb hb' hc hc' hd hd'
    simp only [List.take_succ_cons, List.take_zero, List.foldl_cons, List.foldl_nil]
    exact .four (by omega) ⟨by omega, by omega⟩ ⟨hc, hc'⟩ ⟨hd, hd'⟩ rfl (by omega) (by rw [Nat.isValidChar]; omega)
  · cases hlead

/--
A sequence is taken by the decoder, whatever follows it.
-/
theorem Sequence.exists_lead {bs : List UInt8} {n : Nat} (h : Sequence bs n) :
    ∃ a tail lead, bs = a :: tail ∧ lead? a = some lead ∧ lead.tail = tail.length
      ∧ tail.foldl (fun n b => n * 64 + (b.toNat - 0x80)) lead.value = n
      ∧ ∀ rest, checkTail lead.low lead.high lead.tail (tail ++ rest) = none := by
  have hvalid := h.isValidChar
  rw [Nat.isValidChar] at hvalid
  cases h with
  | @one a n hn hlong =>
    exact ⟨a, [], ⟨0, 0x80, 0xBF, a.toNat⟩, rfl, by rw [lead?_eq, if_pos (by omega)], rfl, hn.symm, fun rest => rfl⟩
  | @two a b n ha hb hn hshort =>
    obtain ⟨hb, hb'⟩ := hb
    refine ⟨a, [b], ⟨1, 0x80, 0xBF, a.toNat - 0xC0⟩, rfl, ?_, rfl, hn.symm, fun rest => ?_⟩
    · rw [lead?_eq, if_neg (by omega), if_neg (by omega), if_pos (by omega)]
    · exact checkTail_succ_iff.2 ⟨b, rest, rfl, hb, hb', rfl⟩
  | @three a b c n ha hb hc hn hshort =>
    obtain ⟨hb, hb'⟩ := hb
    obtain ⟨hc, hc'⟩ := hc
    refine ⟨a, [b, c], ⟨2, if a.toNat = 0xE0 then 0xA0 else 0x80, if a.toNat = 0xED then 0x9F else 0xBF,
      a.toNat - 0xE0⟩, rfl, ?_, rfl, hn.symm, fun rest => ?_⟩
    · rw [lead?_eq, if_neg (by omega), if_neg (by omega), if_neg (by omega), if_pos (by omega)]
    · refine checkTail_succ_iff.2 ⟨b, c :: rest, rfl, ?_, ?_, checkTail_succ_iff.2 ⟨c, rest, rfl, hc, hc', rfl⟩⟩
      · simp only [ite_le_iff, UInt8.reduceToNat]
        omega
      · simp only [le_ite_iff, UInt8.reduceToNat]
        omega
  | @four a b c d n ha hb hc hd hn hshort =>
    obtain ⟨hb, hb'⟩ := hb
    obtain ⟨hc, hc'⟩ := hc
    obtain ⟨hd, hd'⟩ := hd
    refine ⟨a, [b, c, d], ⟨3, if a.toNat = 0xF0 then 0x90 else 0x80, if a.toNat = 0xF4 then 0x8F else 0xBF,
      a.toNat - 0xF0⟩, rfl, ?_, rfl, hn.symm, fun rest => ?_⟩
    · rw [lead?_eq, if_neg (by omega), if_neg (by omega), if_neg (by omega), if_neg (by omega), if_pos (by omega)]
    · refine checkTail_succ_iff.2 ⟨b, c :: d :: rest, rfl, ?_, ?_, checkTail_succ_iff.2 ⟨c, d :: rest, rfl, hc, hc',
        checkTail_succ_iff.2 ⟨d, rest, rfl, hd, hd', rfl⟩⟩⟩
      · simp only [ite_le_iff, UInt8.reduceToNat]
        omega
      · simp only [le_ite_iff, UInt8.reduceToNat]
        omega

theorem decodeFrom_nil (offset : Nat) : decodeFrom offset [] = .ok [] := by
  rw [decodeFrom]

/--
A character that stands at the beginning is decoded.
-/
theorem decodeFrom_append (offset : Nat) (c : Char) (rest : List UInt8) :
    decodeFrom offset (String.utf8EncodeChar c ++ rest)
      = (decodeFrom (offset + (String.utf8EncodeChar c).length) rest).map (c :: ·) := by
  obtain ⟨a, tail, lead, hbytes, hlead, hlength, hvalue, htail⟩ := (sequence_encode c).exists_lead
  rw [hbytes, List.cons_append, decodeFrom, hlead]
  dsimp only
  rw [htail, hlength, List.take_left, List.drop_left, hvalue, Char.ofNat_toNat]
  cases decodeFrom (offset + tail.length + 1) rest <;> rfl

/--
Bytes that are not decoded: neither they nor any beginning of them is read beyond the first byte.
-/
def IsRefused (bs : List UInt8) : Prop :=
  ∀ n, 0 < n → ∀ offset, ∃ reason, decodeFrom offset (bs.take n) = .error (offset, reason)

theorem checkTail_take {low high : UInt8} {n : Nat} {bs : List UInt8} {reason : Reason}
    (h : checkTail low high n bs = some reason) (m : Nat) : ∃ reason, checkTail low high n (bs.take m) = some reason := by
  induction n generalizing low high bs m with
  | zero => cases h
  | succ n ih =>
    match bs, m with
    | [], m => exact ⟨.unexpectedEnd, by rw [List.take_nil, checkTail]⟩
    | b :: bs, 0 => exact ⟨.unexpectedEnd, rfl⟩
    | b :: bs, m + 1 =>
      rw [checkTail] at h
      rw [List.take_succ_cons, checkTail]
      split at h
      · next hbounds =>
        rw [if_pos hbounds]
        exact ih h m
      · next hbounds => exact ⟨.invalidContinuation, if_neg hbounds⟩

/--
Bytes begin with a character, or they are refused at once.
-/
theorem encode_or_isRefused {bs : List UInt8} (h : bs ≠ []) :
    (∃ c rest, bs = String.utf8EncodeChar c ++ rest) ∨ IsRefused bs := by
  obtain ⟨a, more, rfl⟩ := List.exists_cons_of_ne_nil h
  cases hlead : lead? a with
  | none =>
    refine .inr fun n hn offset => ⟨.invalidStart, ?_⟩
    obtain ⟨n, rfl⟩ := Nat.exists_eq_add_one.2 hn
    rw [List.take_succ_cons, decodeFrom, hlead]
  | some lead =>
    cases htail : checkTail lead.low lead.high lead.tail more with
    | none =>
      obtain ⟨c, hc⟩ : ∃ c, String.utf8EncodeChar c = a :: more.take lead.tail :=
        ⟨_, (sequence_of_checkTail hlead htail).encode_eq⟩
      exact .inl ⟨c, more.drop lead.tail, by rw [hc, List.cons_append, List.take_append_drop]⟩
    | some reason =>
      refine .inr fun n hn offset => ?_
      obtain ⟨n, rfl⟩ := Nat.exists_eq_add_one.2 hn
      obtain ⟨reason, hreason⟩ := checkTail_take htail n
      refine ⟨reason, ?_⟩
      rw [List.take_succ_cons, decodeFrom, hlead]
      dsimp only
      rw [hreason]

/--
Bytes are the encoding of a text, followed by bytes that are refused if there are any.
-/
theorem exists_encode_append (bs : List UInt8) :
    ∃ cs rest, bs = encode cs ++ rest ∧ (rest = [] ∨ IsRefused rest) := by
  by_cases hne : bs = []
  · exact ⟨[], [], by simp [hne, encode], .inl rfl⟩
  · rcases encode_or_isRefused hne with ⟨c, rest, hbytes⟩ | hrefused
    · have hlength : rest.length < bs.length := by
        have hpos := List.length_pos_iff.2 (sequence_encode c).ne_nil
        rw [hbytes, List.length_append]
        omega
      obtain ⟨cs, last, hrest, hlast⟩ := exists_encode_append rest
      exact ⟨c :: cs, last, by rw [hbytes, hrest, encode, encode, List.flatMap_cons, List.append_assoc], hlast⟩
    · exact ⟨[], bs, rfl, .inr hrefused⟩
termination_by bs.length

theorem decodeFrom_encode_append (offset : Nat) (cs : List Char) (rest : List UInt8) :
    decodeFrom offset (encode cs ++ rest) = (decodeFrom (offset + (encode cs).length) rest).map (cs ++ ·) := by
  induction cs generalizing offset with
  | nil =>
    rw [encode, List.flatMap_nil, List.nil_append]
    cases decodeFrom offset rest <;> simp [Except.map]
  | cons c cs ih =>
    rw [encode, List.flatMap_cons, List.append_assoc, decodeFrom_append, ← encode, ih, List.length_append,
      Nat.add_assoc]
    cases decodeFrom (offset + ((String.utf8EncodeChar c).length + (encode cs).length)) rest <;> rfl

theorem decode_encode (cs : List Char) : decode (encode cs) = .ok cs := by
  have h := decodeFrom_encode_append 0 cs []
  rwa [List.append_nil, decodeFrom_nil, Except.map, List.append_nil] at h

/--
The bytes that are decoded are the encodings of texts.
-/
theorem decode_eq_ok_iff {bs : List UInt8} {cs : List Char} : decode bs = .ok cs ↔ bs = encode cs := by
  constructor
  · intro h
    obtain ⟨cs', rest, rfl, rfl | hrefused⟩ := exists_encode_append bs
    · rw [List.append_nil, decode_encode] at h
      rw [List.append_nil, Except.ok.inj h]
    · by_cases hne : rest = []
      · rw [hne, List.append_nil, decode_encode] at h
        rw [hne, List.append_nil, Except.ok.inj h]
      · obtain ⟨reason, hreason⟩ := hrefused rest.length (List.length_pos_iff.2 hne) (0 + (encode cs').length)
        rw [decode, decodeFrom_encode_append, ← List.take_length (l := rest), hreason] at h
        cases h
  · rintro rfl
    exact decode_encode cs

/--
Bytes are refused at the first byte behind their longest beginning that is decoded.
-/
theorem longest_of_decode_eq_error {bs : List UInt8} {offset : Nat} {reason : Reason}
    (h : decode bs = .error (offset, reason)) :
    (∃ cs, decode (bs.take offset) = .ok cs) ∧ ∀ n, offset < n → ∀ cs, decode (bs.take n) ≠ .ok cs := by
  obtain ⟨cs, rest, rfl, hlast⟩ := exists_encode_append bs
  have hne : rest ≠ [] := by
    rintro rfl
    rw [List.append_nil, decode_encode] at h
    cases h
  have hrefused := hlast.resolve_left hne
  obtain ⟨reason', hreason⟩ := hrefused rest.length (List.length_pos_iff.2 hne) (0 + (encode cs).length)
  rw [decode, decodeFrom_encode_append, ← List.take_length (l := rest), hreason] at h
  obtain ⟨rfl, -⟩ : 0 + (encode cs).length = offset ∧ reason' = reason := by simpa [Except.map] using h
  rw [Nat.zero_add]
  refine ⟨⟨cs, by rw [List.take_left, decode_encode]⟩, fun n hn cs' hok => ?_⟩
  obtain ⟨reason, hreason⟩ := hrefused (n - (encode cs).length) (by omega) (0 + (encode cs).length)
  rw [decode, List.take_append, List.take_of_length_le (by omega), decodeFrom_encode_append, hreason] at hok
  cases hok

end HaskellStyle.Utf8
