/-!
This module contains UTF-8. A sequence is refused at its first byte, for one of three reasons: no sequence
begins so, a byte cannot continue it, or the bytes end within it. Overlong forms, surrogates and values
beyond Unicode are refused by the bounds on the second byte.
-/

namespace HaskellStyle.Utf8

/--
Why bytes are not a sequence.
-/
inductive Reason where
  | invalidStart
  | invalidContinuation
  | unexpectedEnd
  deriving DecidableEq

/--
The wording of a reason.
-/
def Reason.message : Reason → String
  | .invalidStart => "invalid start byte"
  | .invalidContinuation => "invalid continuation byte"
  | .unexpectedEnd => "unexpected end of data"

/--
What a first byte announces: the number of bytes that follow it, the bounds of the second byte and the
part of the value that it holds.
-/
structure Lead where
  tail : Nat
  low : UInt8
  high : UInt8
  value : Nat

/--
What a byte announces as the first of a sequence.
-/
def lead? (b : UInt8) : Option Lead :=
  if b < 0x80 then
    some ⟨0, 0x80, 0xBF, b.toNat⟩
  else if b < 0xC2 then
    none
  else if b < 0xE0 then
    some ⟨1, 0x80, 0xBF, b.toNat - 0xC0⟩
  else if b < 0xF0 then
    some ⟨2, if b = 0xE0 then 0xA0 else 0x80, if b = 0xED then 0x9F else 0xBF, b.toNat - 0xE0⟩
  else if b < 0xF5 then
    some ⟨3, if b = 0xF0 then 0x90 else 0x80, if b = 0xF4 then 0x8F else 0xBF, b.toNat - 0xF0⟩
  else
    none

/--
What is wrong with the `n` bytes that continue a sequence, of which the first lies between `low` and
`high`.
-/
def checkTail (low high : UInt8) : Nat → List UInt8 → Option Reason
  | 0, _ => none
  | _ + 1, [] => some .unexpectedEnd
  | n + 1, b :: bs =>
    if low ≤ b ∧ b ≤ high then checkTail 0x80 0xBF n bs else some .invalidContinuation

/--
The text of bytes that begin at `offset`, or the offset of the first sequence that is refused.
-/
def decodeFrom (offset : Nat) (bs : List UInt8) : Except (Nat × Reason) (List Char) :=
  match bs with
  | [] => .ok []
  | b :: more =>
    match lead? b with
    | none => .error (offset, .invalidStart)
    | some lead =>
      match checkTail lead.low lead.high lead.tail more with
      | some reason => .error (offset, reason)
      | none => do
        let value := (more.take lead.tail).foldl (fun n b => n * 64 + (b.toNat - 0x80)) lead.value
        let rest ← decodeFrom (offset + lead.tail + 1) (more.drop lead.tail)
        return Char.ofNat value :: rest
termination_by bs.length
decreasing_by simp only [List.length_drop, List.length_cons]; omega

/--
The text of bytes.
-/
def decode (bs : List UInt8) : Except (Nat × Reason) (List Char) :=
  decodeFrom 0 bs

/--
The bytes of a text.
-/
def encode (text : List Char) : List UInt8 :=
  text.flatMap String.utf8EncodeChar

end HaskellStyle.Utf8
