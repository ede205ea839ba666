import Trufflepig.Lib.Utf8

/-!
# Byte encodings

Fixed-width little-endian numbers, hexadecimal digests, and codecs.

* `leBytes_injective`: numbers below `256 ^ k` have different `k`-byte encodings.
* `Digest.toHex_injective`: the hexadecimal text determines the digest.
* `Codec`: a serialiser that is a parameter of a development. Its only law is
  that what was written is read back.
-/

namespace Trufflepig.Lib

/-! ## Little-endian numbers -/

/-- The `k` low bytes of `n`, least significant first. -/
def leBytes : ℕ → ℕ → Bytes
  | 0, _ => []
  | k + 1, n => UInt8.ofNat (n % 256) :: leBytes k (n / 256)

@[simp] theorem length_leBytes (k n : ℕ) : (leBytes k n).length = k := by
  induction k generalizing n with
  | zero => rfl
  | succ k ih => simp [leBytes, ih]

theorem ofNat_byte_inj {a b : ℕ} (ha : a < 256) (hb : b < 256)
    (h : UInt8.ofNat a = UInt8.ofNat b) : a = b := by
  have := congrArg UInt8.toNat h
  simpa [UInt8.toNat_ofNat, Nat.mod_eq_of_lt ha, Nat.mod_eq_of_lt hb] using this

theorem leBytes_injective {k a b : ℕ} (ha : a < 256 ^ k) (hb : b < 256 ^ k)
    (h : leBytes k a = leBytes k b) : a = b := by
  induction k generalizing a b with
  | zero => simp at ha hb; omega
  | succ k ih =>
    simp only [leBytes, List.cons.injEq] at h
    have hlow := ofNat_byte_inj (Nat.mod_lt _ (by omega)) (Nat.mod_lt _ (by omega)) h.1
    have hhigh := ih (by rw [Nat.pow_succ] at ha; omega) (by rw [Nat.pow_succ] at hb; omega) h.2
    omega

theorem getElem?_leBytes {k i : ℕ} (hi : i < k) (n : ℕ) :
    (leBytes k n)[i]? = some (UInt8.ofNat (n / 256 ^ i % 256)) := by
  induction k generalizing i n with
  | zero => omega
  | succ k ih =>
    cases i with
    | zero => simp [leBytes]
    | succ i =>
      rw [leBytes, List.getElem?_cons_succ, ih (by omega), Nat.div_div_eq_div_mul, Nat.pow_succ']

/-! ## Digests -/

/-- A hash value of 32 bytes. -/
structure Digest where
  bytes : Bytes
  length_eq : bytes.length = 32
  deriving DecidableEq

/-- A hexadecimal digit in lower case. -/
def lowerHexDigit (n : ℕ) : UInt8 :=
  if n < 10 then UInt8.ofNat (48 + n) else UInt8.ofNat (87 + n)

theorem lowerHexDigit_injOn : ∀ a < 16, ∀ b < 16, lowerHexDigit a = lowerHexDigit b → a = b := by
  decide

/-- Two digits a byte. -/
def hexBytes (bytes : Bytes) : Bytes :=
  bytes.flatMap fun b => [lowerHexDigit (b.toNat / 16), lowerHexDigit (b.toNat % 16)]

/-- The hexadecimal text of a digest. -/
def Digest.toHex (d : Digest) : Bytes := hexBytes d.bytes

theorem length_hexBytes (bytes : Bytes) : (hexBytes bytes).length = 2 * bytes.length := by
  induction bytes with
  | nil => rfl
  | cons b bytes ih =>
    have : hexBytes (b :: bytes) = [_, _] ++ hexBytes bytes := rfl
    rw [this, List.length_append, ih, List.length_cons]
    simp only [List.length_cons, List.length_nil]
    omega

@[simp] theorem Digest.length_toHex (d : Digest) : d.toHex.length = 64 := by
  rw [Digest.toHex, length_hexBytes, d.length_eq]

theorem hexBytes_injective : Function.Injective hexBytes := by
  intro as
  induction as with
  | nil =>
    intro bs h
    have := congrArg List.length h
    rw [length_hexBytes, length_hexBytes] at this
    exact (List.length_eq_zero_iff.mp (by simpa using this.symm)).symm
  | cons a as ih =>
    intro bs h
    cases bs with
    | nil =>
      have := congrArg List.length h
      rw [length_hexBytes, length_hexBytes] at this
      simp at this
    | cons b bs =>
      have hhex : ∀ c cs, hexBytes (c :: cs) =
          lowerHexDigit (c.toNat / 16) :: lowerHexDigit (c.toNat % 16) :: hexBytes cs :=
        fun _ _ => rfl
      rw [hhex, hhex] at h
      injection h with h1 h
      injection h with h2 h
      have ha := a.toNat_lt
      have hb := b.toNat_lt
      have e1 := lowerHexDigit_injOn _ (by omega) _ (by omega) h1
      have e2 := lowerHexDigit_injOn _ (by omega) _ (by omega) h2
      rw [ih h, UInt8.toNat_inj.mp (show a.toNat = b.toNat by omega)]

theorem Digest.toHex_injective : Function.Injective Digest.toHex := by
  intro d e h
  have := hexBytes_injective h
  cases d
  cases e
  simpa using this

/-! ## Codecs -/

/-- A serialiser with its reader. -/
structure Codec (α : Type) where
  encode : α → Bytes
  decode : Bytes → Option α
  decode_encode : ∀ a, decode (encode a) = some a

attribute [simp] Codec.decode_encode

instance countableUInt8 : Countable UInt8 :=
  Function.Injective.countable (f := UInt8.toNat) fun _ _ h => UInt8.toNat_inj.mp h

instance countableChar : Countable Char :=
  Function.Injective.countable (f := Char.toNat) fun _ _ h => Char.ext (UInt32.toNat_inj.mp h)

instance countableString : Countable String :=
  Function.Injective.countable (f := String.toList) fun _ _ h => String.toList_inj.mp h

namespace Codec

/-- Every countable type has a codec: a number, written in unary. -/
noncomputable def ofCountable (α : Type) [Countable α] : Codec α where
  encode a := List.replicate (Classical.choose (exists_injective_nat α) a) 0
  decode bytes := Function.extend
    (fun a => List.replicate (Classical.choose (exists_injective_nat α) a) 0) some (fun _ => none) bytes
  decode_encode a := by
    apply Function.Injective.extend_apply
    intro a b h
    apply Classical.choose_spec (exists_injective_nat α)
    simpa using congrArg List.length h

theorem ofCountable_encode_ne {α : Type} [Countable α] {text : Bytes}
    (h : text.head? ≠ none ∧ text.head? ≠ some 0) (a : α) : (ofCountable α).encode a ≠ text := by
  rintro rfl
  have hzero : ∀ b ∈ (ofCountable α).encode a, b = 0 := fun b => List.eq_of_mem_replicate
  cases hb : (ofCountable α).encode a with
  | nil => simp [hb] at h
  | cons b rest => simp [hb, hzero b (by simp [hb])] at h

/-- The codec that writes one value as a text of its own and the others as
`codec` does. -/
def patch {α : Type} [DecidableEq α] (codec : Codec α) (value : α) (text : Bytes)
    (h : ∀ a, codec.encode a ≠ text) : Codec α where
  encode a := if a = value then text else codec.encode a
  decode bytes := if bytes = text then some value else codec.decode bytes
  decode_encode a := by
    by_cases ha : a = value
    · simp [ha]
    · simp [ha, h a]

end Codec

end Trufflepig.Lib
