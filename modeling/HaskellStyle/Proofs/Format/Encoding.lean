import HaskellStyle.Format
import HaskellStyle.Proofs.Fault
import HaskellStyle.Proofs.Text.Utf8

/-!
This module contains sources that are given as bytes. Main result: a text and its bytes are formatted and linted alike,
the bytes that are taken are those of texts, and bytes that are not are refused behind their longest beginning that is
the bytes of a text.
-/

namespace HaskellStyle.Source

/--
Code points without surrogates are the text of their characters.
-/
theorem ofCodePoints_map_toNat (offset : Nat) (cs : List Char) :
    ofCodePoints offset (cs.map Char.toNat) = .ok cs := by
  induction cs generalizing offset with
  | nil => rfl
  | cons c cs ih =>
    have hvalid : c.toNat.isValidChar := c.valid
    rw [List.map_cons, ofCodePoints, if_pos hvalid, ih, Char.ofNat_toNat]
    rfl

theorem decode_bytes_encode (cs : List Char) : (bytes (Utf8.encode cs)).decode = .ok cs := by
  rw [decode, Utf8.decode_encode]
  rfl

theorem decode_bytes_eq_ok_iff {bs : List UInt8} {cs : List Char} :
    (bytes bs).decode = .ok cs ↔ Utf8.encode cs = bs := by
  rw [eq_comm (a := Utf8.encode cs), ← Utf8.decode_eq_ok_iff, decode]
  refine ⟨mapError_eq_ok, fun h => ?_⟩
  rw [h]
  rfl

section Decoded

variable {s s' : Source} (h : s.decode = s'.decode) (settings : Settings)
include h

/--
Formatting depends on nothing but the text of a source.
-/
theorem format_congr (selfCheck : Bool) (path : Option String) :
    Format.source settings selfCheck path s = Format.source settings selfCheck path s' := by
  unfold Format.source
  rw [h]

theorem lint_congr : lint settings s = lint settings s' := by
  unfold lint
  rw [h]

end Decoded

/--
A text, as characters or as code points, and its bytes have the same outcome. The bytes that are taken are those of the
text that they give. Where others are refused, the bytes before the offset are taken, and no longer beginning is.
-/
theorem bytes_agree :
    (∀ cs settings selfCheck path,
      Format.source settings selfCheck path (bytes (Utf8.encode cs)) = Format.source settings selfCheck path (text cs)
      ∧ Format.source settings selfCheck path (bytes (Utf8.encode cs))
        = Format.source settings selfCheck path (codePoints (cs.map Char.toNat)))
    ∧ (∀ cs settings, lint settings (bytes (Utf8.encode cs)) = lint settings (text cs)
      ∧ lint settings (bytes (Utf8.encode cs)) = lint settings (codePoints (cs.map Char.toNat)))
    ∧ (∀ bs cs, (bytes bs).decode = .ok cs ↔ Utf8.encode cs = bs)
    ∧ ∀ bs e, (bytes bs).decode = .error e →
      (∃ cs, (bytes (bs.take e.offset)).decode = .ok cs)
      ∧ ∀ n, e.offset < n → ∀ cs, (bytes (bs.take n)).decode ≠ .ok cs := by
  have htext (cs : List Char) : (bytes (Utf8.encode cs)).decode = (text cs).decode := decode_bytes_encode cs
  have hcodes (cs : List Char) : (bytes (Utf8.encode cs)).decode = (codePoints (cs.map Char.toNat)).decode :=
    (decode_bytes_encode cs).trans (ofCodePoints_map_toNat 0 cs).symm
  refine ⟨fun cs settings selfCheck path => ?_, fun cs settings => ?_, fun bs cs => decode_bytes_eq_ok_iff,
    fun bs e he => ?_⟩
  · exact ⟨format_congr (htext cs) settings selfCheck path, format_congr (hcodes cs) settings selfCheck path⟩
  · exact ⟨lint_congr (htext cs) settings, lint_congr (hcodes cs) settings⟩
  · rw [decode] at he
    cases hbytes : Utf8.decode bs with
    | ok cs =>
      rw [hbytes] at he
      cases he
    | error failure =>
      obtain ⟨offset, reason⟩ := failure
      rw [hbytes] at he
      cases he
      obtain ⟨⟨cs, hcs⟩, hlonger⟩ := Utf8.longest_of_decode_eq_error hbytes
      refine ⟨⟨cs, ?_⟩, fun n hn cs hok => hlonger n hn cs ?_⟩
      · rw [decode_bytes_eq_ok_iff, ← Utf8.decode_eq_ok_iff.1 hcs]
        rfl
      · rw [Utf8.decode_eq_ok_iff, decode_bytes_eq_ok_iff.1 hok]

/--
A sign of three bytes that is cut short behind a letter: the letter is taken and nothing more.
-/
theorem bytes_agree_cut :
    (bytes [0x66, 0xE2, 0x82]).decode = .error (.invalidByte 1 .unexpectedEnd)
      ∧ (∃ cs, (bytes [0x66]).decode = .ok cs)
      ∧ ∀ n, 1 < n → ∀ cs, (bytes ([0x66, 0xE2, 0x82].take n)).decode ≠ .ok cs := by
  have hbytes : Utf8.decode [0x66, 0xE2, 0x82] = .error (1, .unexpectedEnd) := by cbv
  have h : (bytes [0x66, 0xE2, 0x82]).decode = .error (.invalidByte 1 .unexpectedEnd) := by
    rw [decode, hbytes, mapError_error]
  exact ⟨h, bytes_agree.2.2.2 _ _ h⟩

end HaskellStyle.Source
