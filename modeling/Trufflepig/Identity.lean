import Trufflepig.Lib.Encoding

/-!
# Identities

The types of `src/identity.rs` that the history and the index share. A field
`end` of the source is `stop` here.
-/

namespace Trufflepig

open Lib

/-- `struct ContentRevision`: the hash of a whole source. Columns and JSON
fields hold its hexadecimal text. -/
abbrev ContentRevision := Digest

/-- `struct ByteSpan`: half-open offsets in original bytes. -/
structure ByteSpan where
  start : ℕ
  stop : ℕ
  deriving DecidableEq, Repr

/-- What building an identity fails with. -/
inductive IdentityError where
  | invalidOid | spanOutside
  deriving DecidableEq, Repr

/-- The message of an error. -/
def IdentityError.message : IdentityError → String
  | invalidOid => "invalid_oid: expected full SHA-1 or SHA-256 object ID"
  | spanOutside => "invalid_span: coordinates outside verified source"

/-- `ByteSpan::validate`. -/
def ByteSpan.validate (span : ByteSpan) (length : ℕ) : Except IdentityError ByteSpan :=
  if span.start > span.stop ∨ span.stop > length then .error .spanOutside else .ok span

/-! ## Git object ids -/

/-- `u8::is_ascii_hexdigit`. -/
def isHexDigit (byte : UInt8) : Bool :=
  48 ≤ byte && byte ≤ 57 || 65 ≤ byte && byte ≤ 70 || 97 ≤ byte && byte ≤ 102

/-- `u8::to_ascii_lowercase`. -/
def toLowercase (byte : UInt8) : UInt8 := if 65 ≤ byte ∧ byte ≤ 90 then byte + 32 else byte

/-- `struct GitOid`: a full SHA-1 or SHA-256 object id in hexadecimal digits. -/
structure GitOid where
  text : Bytes
  length : text.length = 40 ∨ text.length = 64
  deriving DecidableEq

/-- `GitOid::parse`. -/
def GitOid.parse (value : Bytes) : Except IdentityError GitOid :=
  if h : (value.length = 40 ∨ value.length = 64) ∧ value.all isHexDigit then
    .ok ⟨value.map toLowercase, by simpa using h.1⟩
  else .error .invalidOid

end Trufflepig
