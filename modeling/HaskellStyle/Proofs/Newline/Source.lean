import HaskellStyle.Proofs.Fault
import HaskellStyle.Proofs.Newline.Text
import HaskellStyle.Source

/-!
This module contains sources with a carriage return before every line feed. A source is decoded into its text with
carriage returns, in whichever form it is given: in UTF-8 a line feed is a byte of its own, which is found at no other
place.
-/

namespace HaskellStyle

/--
Units of a text with a carriage return before every line feed.
-/
def Text.crlfUnits {α : Type} [DecidableEq α] (carriageReturn lineFeed : α) (units : List α) : List α :=
  units.flatMap fun u => if u = lineFeed then [carriageReturn, lineFeed] else [u]

/--
A source with a carriage return before every line feed.
-/
def Source.crlf : Source → Source
  | .text cs => .text (Text.crlf cs)
  | .codePoints codes => .codePoints (Text.crlfUnits 13 10 codes)
  | .bytes bs => .bytes (Text.crlfUnits 13 10 bs)

section Units

variable {α : Type} [DecidableEq α] {carriageReturn lineFeed : α}

theorem Text.crlfUnits_lineFeed (units : List α) :
    crlfUnits carriageReturn lineFeed (lineFeed :: units)
      = carriageReturn :: lineFeed :: crlfUnits carriageReturn lineFeed units := by
  simp [crlfUnits]

theorem Text.crlfUnits_cons {u : α} (h : u ≠ lineFeed) (units : List α) :
    crlfUnits carriageReturn lineFeed (u :: units) = u :: crlfUnits carriageReturn lineFeed units := by
  simp [crlfUnits, h]

end Units

theorem eq_of_ofNat_eq_newline {n : Nat} (h : Char.ofNat n = '\n') : n = 10 := by
  by_cases hvalid : n.isValidChar
  · exact congrArg Char.toNat ((dif_pos hvalid).symm.trans h)
  · cases congrArg Char.toNat ((dif_neg hvalid).symm.trans h)

namespace Utf8

/--
What the first byte of a sequence announces: no byte that continues the sequence is an ASCII character, and neither is
the value of a sequence of several bytes.
-/
theorem lead?_eq_some {b : UInt8} {lead : Lead} (h : lead? b = some lead) :
    0x80 ≤ lead.low ∧ (lead.tail = 0 ∧ lead.value = b.toNat
      ∨ 0 < lead.tail ∧ ∀ c, lead.low ≤ c → 10 < lead.value * 64 + (c.toNat - 0x80)) := by
  have hmulti {tail value : Nat} {low : UInt8} (hlow : 0x80 ≤ low) (htail : 0 < tail)
      (hvalue : 10 < value * 64 + (low.toNat - 0x80)) :
      0x80 ≤ low ∧ (tail = 0 ∧ value = b.toNat
        ∨ 0 < tail ∧ ∀ c, low ≤ c → 10 < value * 64 + (c.toNat - 0x80)) := by
    refine ⟨hlow, .inr ⟨htail, fun c hc => ?_⟩⟩
    have := UInt8.le_iff_toNat_le.1 hc
    omega
  have hbound {n : UInt8} (h : ¬b < n) : n.toNat ≤ b.toNat := Nat.le_of_not_lt h
  unfold lead? at h
  split at h
  · cases h
    exact ⟨UInt8.le_refl _, .inl ⟨rfl, rfl⟩⟩
  · split at h
    · cases h
    · next hb =>
      have hb : 0xC2 ≤ b.toNat := hbound hb
      split at h
      · cases h
        have hvalue : 10 < (b.toNat - 0xC0) * 64 + ((0x80 : UInt8).toNat - 0x80) := by omega
        exact hmulti (UInt8.le_refl _) Nat.one_pos hvalue
      · next hb =>
        have hb : 0xE0 ≤ b.toNat := hbound hb
        split at h
        · cases h
          by_cases hfirst : b = 0xE0
          · simp only [if_pos hfirst]
            exact hmulti (by decide) Nat.two_pos (Nat.lt_of_lt_of_le (by decide) (Nat.le_add_left _ _))
          · have : b.toNat ≠ 0xE0 := fun h => hfirst (UInt8.toNat_inj.1 h)
            simp only [if_neg hfirst]
            exact hmulti (by decide) Nat.two_pos (by omega)
        · next hb =>
          have hb : 0xF0 ≤ b.toNat := hbound hb
          split at h
          · cases h
            by_cases hfirst : b = 0xF0
            · simp only [if_pos hfirst]
              exact hmulti (by decide) (by decide) (Nat.lt_of_lt_of_le (by decide) (Nat.le_add_left _ _))
            · have : b.toNat ≠ 0xF0 := fun h => hfirst (UInt8.toNat_inj.1 h)
              simp only [if_neg hfirst]
              exact hmulti (by decide) (by decide) (by omega)
          · cases h

theorem lt_foldl {bs : List UInt8} {n : Nat} (h : 10 < n) : 10 < bs.foldl (fun n b => n * 64 + (b.toNat - 0x80)) n := by
  induction bs generalizing n with
  | nil => exact h
  | cons b bs ih =>
    have hnext : 10 < n * 64 + (b.toNat - 0x80) := by omega
    rw [List.foldl_cons]
    exact ih hnext

theorem checkTail_crlf {low : UInt8} (hlow : 0x80 ≤ low) (high : UInt8) (n : Nat) (bs : List UInt8) :
    checkTail low high n (Text.crlfUnits 13 10 bs) = checkTail low high n bs := by
  induction n generalizing low high bs with
  | zero => rfl
  | succ n ih =>
    cases bs with
    | nil => rfl
    | cons b bs =>
      by_cases hb : b = 10
      · have hfeed : ¬low ≤ (10 : UInt8) := fun h => absurd (UInt8.le_trans hlow h) (by decide)
        have hreturn : ¬low ≤ (13 : UInt8) := fun h => absurd (UInt8.le_trans hlow h) (by decide)
        subst hb
        rw [Text.crlfUnits_lineFeed, checkTail, checkTail, if_neg fun h => hreturn h.1, if_neg fun h => hfeed h.1]
      · rw [Text.crlfUnits_cons hb, checkTail, checkTail, ih (by decide)]

theorem take_drop_crlf {low high : UInt8} (hlow : 0x80 ≤ low) {n : Nat} {bs : List UInt8}
    (h : checkTail low high n bs = none) :
    (Text.crlfUnits 13 10 bs).take n = bs.take n
      ∧ (Text.crlfUnits 13 10 bs).drop n = Text.crlfUnits 13 10 (bs.drop n) := by
  induction n generalizing low high bs with
  | zero => exact ⟨rfl, rfl⟩
  | succ n ih =>
    cases bs with
    | nil => exact ⟨rfl, rfl⟩
    | cons b bs =>
      rw [checkTail] at h
      split at h
      · next hbounds =>
        have hb : b ≠ 10 := fun hb => absurd (UInt8.le_trans hlow (hb ▸ hbounds.1)) (by decide)
        obtain ⟨htake, hdrop⟩ := ih (by decide) h
        rw [Text.crlfUnits_cons hb]
        exact ⟨congrArg (b :: ·) htake, hdrop⟩
      · cases h

/--
No sequence but the byte itself is a line feed.
-/
theorem ofNat_ne_newline {b : UInt8} (hb : b ≠ 10) {lead : Lead} (hlead : lead? b = some lead) {more : List UInt8}
    (htail : checkTail lead.low lead.high lead.tail more = none) :
    Char.ofNat ((more.take lead.tail).foldl (fun n b => n * 64 + (b.toNat - 0x80)) lead.value) ≠ '\n' := by
  intro hnewline
  have hten := eq_of_ofNat_eq_newline hnewline
  rcases (lead?_eq_some hlead).2 with ⟨hzero, hvalue⟩ | ⟨hpos, hvalue⟩
  · rw [hzero, List.take_zero, List.foldl_nil, hvalue] at hten
    exact hb (UInt8.toNat_inj.1 hten)
  · obtain ⟨n, hn⟩ := Nat.exists_eq_add_one.2 hpos
    rw [hn] at htail hten
    cases more with
    | nil => cases htail
    | cons c cs =>
      rw [checkTail] at htail
      split at htail
      · next hbounds =>
        rw [List.take_succ_cons, List.foldl_cons] at hten
        exact absurd hten (Nat.ne_of_gt (lt_foldl (hvalue c hbounds.1)))
      · cases htail

/--
Bytes with carriage returns are decoded into the text with carriage returns, and refused if they are refused without
them.
-/
theorem decodeFrom_crlf (offset offset' : Nat) (bs : List UInt8) :
    (decodeFrom offset' (Text.crlfUnits 13 10 bs)).toOption = (decodeFrom offset bs).toOption.map Text.crlf := by
  match bs with
  | [] =>
    rw [decodeFrom]
    show (decodeFrom offset' []).toOption = _
    rw [decodeFrom]
    rfl
  | b :: more =>
    by_cases hb : b = 10
    · subst hb
      have hreturn : lead? 13 = some ⟨0, 0x80, 0xBF, 13⟩ := rfl
      have hfeed : lead? 10 = some ⟨0, 0x80, 0xBF, 10⟩ := rfl
      have hmore := decodeFrom_crlf (offset + 1) (offset' + 1 + 1) more
      rw [Text.crlfUnits_lineFeed, decodeFrom, decodeFrom.eq_def offset (10 :: more)]
      simp only [hreturn, hfeed, checkTail, List.take_zero, List.drop_zero, List.foldl_nil, Nat.add_zero]
      rw [decodeFrom]
      simp only [hfeed, checkTail, List.take_zero, List.drop_zero, List.foldl_nil, Nat.add_zero, toOption_bind, hmore]
      cases (decodeFrom (offset + 1) more).toOption <;> rfl
    · rw [Text.crlfUnits_cons hb, decodeFrom, decodeFrom]
      cases hlead : lead? b with
      | none => rfl
      | some lead =>
        have hlow := (lead?_eq_some hlead).1
        dsimp only
        rw [checkTail_crlf hlow]
        cases htail : checkTail lead.low lead.high lead.tail more with
        | some reason => rfl
        | none =>
          obtain ⟨htake, hdrop⟩ := take_drop_crlf hlow htail
          have hmore := decodeFrom_crlf (offset + lead.tail + 1) (offset' + lead.tail + 1) (more.drop lead.tail)
          have hchar := ofNat_ne_newline hb hlead htail
          dsimp only
          rw [htake, hdrop, toOption_bind, toOption_bind, hmore]
          cases (decodeFrom (offset + lead.tail + 1) (more.drop lead.tail)).toOption with
          | none => rfl
          | some rest => exact congrArg some (Text.crlf_cons hchar rest).symm
termination_by bs.length
decreasing_by
  · simp
  · simp only [List.length_drop, List.length_cons]
    omega

end Utf8

namespace Source

theorem ofCodePoints_crlf (offset offset' : Nat) (codes : List Nat) :
    (ofCodePoints offset' (Text.crlfUnits 13 10 codes)).toOption
      = (ofCodePoints offset codes).toOption.map Text.crlf := by
  induction codes generalizing offset offset' with
  | nil => rfl
  | cons code codes ih =>
    by_cases hcode : code = 10
    · subst hcode
      rw [Text.crlfUnits_lineFeed, ofCodePoints, ofCodePoints, ofCodePoints, if_pos (by decide), if_pos (by decide),
        if_pos (by decide), toOption_map, toOption_map, toOption_map, ih (offset + 1)]
      cases (ofCodePoints (offset + 1) codes).toOption <;> rfl
    · rw [Text.crlfUnits_cons hcode, ofCodePoints, ofCodePoints]
      split
      · rw [toOption_map, toOption_map, ih (offset + 1)]
        cases (ofCodePoints (offset + 1) codes).toOption with
        | none => rfl
        | some cs =>
          exact congrArg some (Text.crlf_cons (fun h => hcode (eq_of_ofNat_eq_newline h)) cs).symm
      · rfl

theorem decode_crlf (s : Source) : s.crlf.decode.toOption = s.decode.toOption.map Text.crlf := by
  cases s with
  | text cs => rfl
  | codePoints codes => exact ofCodePoints_crlf 0 0 codes
  | bytes bs =>
    show ((Utf8.decode _).mapError _).toOption = ((Utf8.decode bs).mapError _).toOption.map _
    rw [toOption_mapError, toOption_mapError]
    exact Utf8.decodeFrom_crlf 0 0 bs

end Source

end HaskellStyle
