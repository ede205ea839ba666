import Trufflepig.Lib.Utf8

/-!
# Percent-encoded paths

Model of `src/store/paths.rs`. A path is its bytes; a path stored in the index
is the text that `encodePath` writes.
-/

namespace Trufflepig.Store

open Lib

/-- The errors of `decode_path`: the two of its own, and those of
`str::from_utf8` and `u8::from_str_radix` on the two digits. -/
inductive PathError where
  | invalidPercentEncoding | invalidUtf8 | invalidDigit | nulInPath
  deriving DecidableEq, Repr

/-- The bytes that `encode_path` copies: visible ASCII other than `%`, `:` and `@`. -/
def isPlain (byte : UInt8) : Bool :=
  0x21 ≤ byte && byte ≤ 0x7e && !(byte == 0x25 || byte == 0x3a || byte == 0x40)

/-- A hexadecimal digit as `{:X}` writes it. -/
def upperHexDigit (n : ℕ) : UInt8 :=
  if n < 10 then UInt8.ofNat (48 + n) else UInt8.ofNat (55 + n)

/-- One byte of `encode_path`: itself, or `%` and two digits (`{byte:02X}`). -/
def encodeByte (byte : UInt8) : Bytes :=
  if isPlain byte then [byte]
  else [0x25, upperHexDigit (byte.toNat / 16), upperHexDigit (byte.toNat % 16)]

/-- `encode_path` (`paths.rs`). -/
def encodePath (path : Bytes) : Bytes := path.flatMap encodeByte

/-- `char::to_digit(16)` on an ASCII byte. -/
def hexValue (byte : UInt8) : Option ℕ :=
  if 48 ≤ byte ∧ byte ≤ 57 then some (byte.toNat - 48)
  else if 65 ≤ byte ∧ byte ≤ 70 then some (byte.toNat - 55)
  else if 97 ≤ byte ∧ byte ≤ 102 then some (byte.toNat - 87)
  else none

/-- `std::str::from_utf8` and `u8::from_str_radix(_, 16)` on the two bytes
after a `%`. A leading `+` is a sign; two bytes outside ASCII are either no
UTF-8 or one character that is no digit. -/
def parseDigits (a b : UInt8) : Except PathError UInt8 :=
  if a < 128 ∧ b < 128 then
    if a = 43 then
      match hexValue b with
      | some low => .ok (UInt8.ofNat low)
      | none => .error .invalidDigit
    else
      match hexValue a, hexValue b with
      | some high, some low => .ok (UInt8.ofNat (16 * high + low))
      | _, _ => .error .invalidDigit
  else if 0xc2 ≤ a ∧ a ≤ 0xdf ∧ IsContinuation b then .error .invalidDigit
  else .error .invalidUtf8

/-- The loop of `decode_path` over the bytes from its cursor on. -/
def decodeBytes : Bytes → Except PathError Bytes
  | [] => .ok []
  | byte :: rest =>
    if byte = 0x25 then
      match rest with
      | a :: b :: rest => do
        let decoded ← parseDigits a b
        let bytes ← decodeBytes rest
        return decoded :: bytes
      | _ => .error .invalidPercentEncoding
    else do
      let bytes ← decodeBytes rest
      return byte :: bytes

/-- `decode_path` (`paths.rs`). -/
def decodePath (encoded : Bytes) : Except PathError Bytes := do
  let bytes ← decodeBytes encoded
  if 0 ∈ bytes then .error .nulInPath else .ok bytes

end Trufflepig.Store
