import HaskellStyle.Text.Utf8

/-!
This module contains the forms in which a source text can be given, and what can be wrong with its
encoding.
-/

namespace HaskellStyle

/--
A source text: characters, code points that may be lone surrogates, or bytes.
-/
inductive Source where
  | text (characters : List Char)
  | codePoints (codes : List Nat)
  | bytes (bytes : List UInt8)

/--
A source that is not a text: bytes that are not UTF-8, or a code point that cannot be written in it.
-/
inductive EncodingError where
  | invalidByte (offset : Nat) (reason : Utf8.Reason)
  | surrogate (offset : Nat)
  deriving DecidableEq

namespace EncodingError

/--
The place of the fault, in bytes or in code points.
-/
def offset : EncodingError → Nat
  | .invalidByte offset _ => offset
  | .surrogate offset => offset

/--
The wording of the fault.
-/
def message : EncodingError → String
  | .invalidByte offset reason => s!"Invalid UTF-8 at byte {offset}: {reason.message}"
  | .surrogate offset => s!"Text is not encodable as UTF-8 at offset {offset}: surrogates not allowed"

end EncodingError

namespace Source

/--
The characters of code points that begin at `offset`.
-/
def ofCodePoints (offset : Nat) : List Nat → Except EncodingError (List Char)
  | [] => .ok []
  | code :: codes =>
    if code.isValidChar then
      (ofCodePoints (offset + 1) codes).map (Char.ofNat code :: ·)
    else
      .error (.surrogate offset)

/--
The characters of a source. A byte order mark is kept.
-/
def decode : Source → Except EncodingError (List Char)
  | .text cs => .ok cs
  | .codePoints codes => ofCodePoints 0 codes
  | .bytes bs => (Utf8.decode bs).mapError fun (offset, reason) => .invalidByte offset reason

end Source

end HaskellStyle
