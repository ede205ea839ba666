import Trufflepig.Store.Paths
import Trufflepig.Lib.Fallible

/-!
# Which paths are encoded and decoded

* `decodePath_encodePath`: decoding gives the encoded path back.
* `encodePath_alphabet`: the bytes of an encoding.
* `decodeBytes_iff`: the decoder accepts a text iff each `%` is followed by two digits
  or by `+` and a digit, and what it returns is `percentDecode`.

`u8::from_str_radix` takes a sign, so `%+f` decodes to the byte 15 although it is no
escape. `decodePath_hexEscapes_iff` says on which texts this makes a difference.
-/

namespace Trufflepig.Store

open Lib

/-- The bytes of a path; there is no NUL among them. -/
def RawPath := { path : Bytes // 0 ∉ path }

/-! ## Round trip -/

theorem parseDigits_encodeByte (byte : UInt8) :
    parseDigits (upperHexDigit (byte.toNat / 16)) (upperHexDigit (byte.toNat % 16)) = .ok byte :=
  forall_byte (P := fun byte => parseDigits (upperHexDigit (byte.toNat / 16))
    (upperHexDigit (byte.toNat % 16)) = .ok byte) (by decide +kernel) byte

theorem isPlain_ne_percent {byte : UInt8} (h : isPlain byte = true) : byte ≠ 0x25 := by
  rintro rfl
  exact absurd h (by decide)

theorem decodeBytes_plain {byte : UInt8} (h : byte ≠ 0x25) (rest : Bytes) :
    decodeBytes (byte :: rest) = (decodeBytes rest).map (byte :: ·) := by
  have hstep : decodeBytes (byte :: rest) = decodeBytes rest >>= fun bytes => .ok (byte :: bytes) := by
    rcases rest with _ | ⟨a, _ | ⟨b, rest⟩⟩
    all_goals exact if_neg h
  rw [hstep]
  rcases decodeBytes rest with _ | _ <;> rfl

theorem decodeBytes_escape (a b : UInt8) (rest : Bytes) :
    decodeBytes (0x25 :: a :: b :: rest) =
      (parseDigits a b).bind fun decoded => (decodeBytes rest).map (decoded :: ·) := by
  rw [decodeBytes, if_pos rfl]
  rcases parseDigits a b with _ | _
  · rfl
  · rcases decodeBytes rest with _ | _ <;> rfl

/-- An encoded byte is decoded, whatever follows it. -/
theorem decodeBytes_encodeByte (byte : UInt8) (rest : Bytes) :
    decodeBytes (encodeByte byte ++ rest) = (decodeBytes rest).map (byte :: ·) := by
  rw [encodeByte]
  split_ifs with hplain
  · exact decodeBytes_plain (isPlain_ne_percent hplain) rest
  · show decodeBytes (0x25 :: _ :: _ :: rest) = _
    rw [decodeBytes_escape, parseDigits_encodeByte]
    rfl

theorem decodeBytes_encodePath (path : Bytes) : decodeBytes (encodePath path) = .ok path := by
  induction path with
  | nil => rfl
  | cons byte path ih =>
    rw [encodePath, List.flatMap_cons, decodeBytes_encodeByte]
    show (decodeBytes (encodePath path)).map (byte :: ·) = _
    rw [ih]
    rfl

theorem decodePath_encodePath (path : RawPath) : decodePath (encodePath path.1) = .ok path.1 := by
  rw [decodePath, decodeBytes_encodePath]
  exact if_neg path.2

/-- Visible ASCII other than `:` and `@`. -/
def InAlphabet (byte : UInt8) : Prop := 0x21 ≤ byte ∧ byte ≤ 0x7e ∧ byte ≠ 0x3a ∧ byte ≠ 0x40

instance (byte : UInt8) : Decidable (InAlphabet byte) :=
  inferInstanceAs (Decidable (_ ∧ _ ∧ _ ∧ _))

theorem encodePath_alphabet (path : Bytes) : ∀ byte ∈ encodePath path, InAlphabet byte := by
  have hbyte : ∀ source, ((encodeByte source).all fun byte => decide (InAlphabet byte)) = true :=
    forall_byte (by decide +kernel)
  intro byte hmem
  obtain ⟨source, -, hsource⟩ := List.mem_flatMap.mp hmem
  exact of_decide_eq_true (List.all_eq_true.mp (hbyte source) byte hsource)

/-! ## Escapes -/

/-- Every `%` of the text is followed by two bytes that are related. -/
def Escapes (related : UInt8 → UInt8 → Prop) (text : Bytes) : Prop :=
  ∀ before after, text = before ++ 0x25 :: after →
    ∃ a b rest, after = a :: b :: rest ∧ related a b

/-- Two hexadecimal digits. -/
def TwoDigits (a b : UInt8) : Prop := (hexValue a).isSome = true ∧ (hexValue b).isSome = true

/-- A sign and a hexadecimal digit. -/
def SignedDigit (a b : UInt8) : Prop := a = 0x2b ∧ (hexValue b).isSome = true

/-- The bytes that escapes stand for: an escape is the number its digits write. -/
def percentDecode : Bytes → Bytes
  | 0x25 :: a :: b :: rest =>
    UInt8.ofNat (16 * (hexValue a).getD 0 + (hexValue b).getD 0) :: percentDecode rest
  | byte :: rest => byte :: percentDecode rest
  | [] => []

section Escapes

variable {related : UInt8 → UInt8 → Prop}

theorem escapes_plain {byte : UInt8} (h : byte ≠ 0x25) (rest : Bytes) :
    Escapes related (byte :: rest) ↔ Escapes related rest := by
  constructor
  · intro hescapes before after heq
    exact hescapes (byte :: before) after (by rw [heq]; rfl)
  · intro hescapes before after heq
    rcases before with _ | ⟨first, before⟩
    · exact absurd (List.cons.inj heq).1 h
    · exact hescapes before after (List.cons.inj heq).2

theorem escapes_percent (after : Bytes) :
    Escapes related (0x25 :: after) ↔
      (∃ a b rest, after = a :: b :: rest ∧ related a b) ∧ Escapes related after := by
  constructor
  · intro hescapes
    refine ⟨hescapes [] after rfl, fun before after' heq => ?_⟩
    exact hescapes (0x25 :: before) after' (by rw [heq]; rfl)
  · rintro ⟨hfirst, hescapes⟩ before after' heq
    rcases before with _ | ⟨first, before⟩
    · exact (List.cons.inj heq).2 ▸ hfirst
    · exact hescapes before after' (List.cons.inj heq).2

/-- Two bytes that are related are no `%`, so the next escape is after them. -/
theorem escapes_escape (hrelated : ∀ {a b}, related a b → a ≠ 0x25 ∧ b ≠ 0x25) (a b : UInt8)
    (rest : Bytes) :
    Escapes related (0x25 :: a :: b :: rest) ↔ related a b ∧ Escapes related rest := by
  rw [escapes_percent]
  constructor
  · rintro ⟨⟨a', b', rest', heq, hab⟩, hescapes⟩
    obtain ⟨rfl, hrest⟩ := List.cons.inj heq
    obtain ⟨rfl, rfl⟩ := List.cons.inj hrest
    rw [escapes_plain (hrelated hab).1, escapes_plain (hrelated hab).2] at hescapes
    exact ⟨hab, hescapes⟩
  · rintro ⟨hab, hescapes⟩
    refine ⟨⟨a, b, rest, rfl, hab⟩, ?_⟩
    rw [escapes_plain (hrelated hab).1, escapes_plain (hrelated hab).2]
    exact hescapes

end Escapes

/-- What `from_str_radix` reads: two digits, or a sign and a digit. -/
def Readable (a b : UInt8) : Prop := TwoDigits a b ∨ SignedDigit a b

variable {byte : UInt8}

theorem hexValue_isSome_ne_percent (h : (hexValue byte).isSome = true) :
    byte ≠ 0x25 := by
  rintro rfl
  exact absurd h (by decide)

theorem readable_ne_percent {a b : UInt8} (h : Readable a b) : a ≠ 0x25 ∧ b ≠ 0x25 := by
  rcases h with ⟨ha, hb⟩ | ⟨rfl, hb⟩
  · exact ⟨hexValue_isSome_ne_percent ha, hexValue_isSome_ne_percent hb⟩
  · exact ⟨by decide, hexValue_isSome_ne_percent hb⟩

theorem hexValue_ascii : (hexValue byte).isSome = true → byte < 128 :=
  forall_byte (P := fun byte => (hexValue byte).isSome = true → byte < 128) (by decide +kernel) byte

/-- The digits that are read, and their value. -/
theorem parseDigits_iff (a b decoded : UInt8) :
    parseDigits a b = .ok decoded ↔
      Readable a b ∧ decoded = UInt8.ofNat (16 * (hexValue a).getD 0 + (hexValue b).getD 0) := by
  rw [parseDigits, Readable, TwoDigits, SignedDigit]
  by_cases hascii : a < 128 ∧ b < 128
  · rw [if_pos hascii]
    by_cases hsign : a = 43
    · subst hsign
      rw [if_pos rfl, show hexValue 43 = none from by decide]
      rcases hexValue b with _ | low
      · simp
      · simp [eq_comm]
    · rw [if_neg hsign]
      rcases hexValue a with _ | high
      · simp [hsign]
      · rcases hexValue b with _ | low
        · simp
        · simp [eq_comm]
  · rw [if_neg hascii]
    refine iff_of_false (by split_ifs <;> simp) ?_
    rintro ⟨⟨ha, hb⟩ | ⟨rfl, hb⟩, -⟩
    · exact hascii ⟨hexValue_ascii ha, hexValue_ascii hb⟩
    · exact hascii ⟨by decide, hexValue_ascii hb⟩

theorem map_eq_ok {x : Except PathError Bytes} {bytes : Bytes} :
    x.map (byte :: ·) = .ok bytes ↔ ∃ rest, x = .ok rest ∧ byte :: rest = bytes := by
  rcases x with _ | rest
  · simp [Except.map]
  · simp [Except.map]

theorem escapes_nil (related : UInt8 → UInt8 → Prop) : Escapes related [] :=
  fun before after heq => absurd heq.symm (List.append_ne_nil_of_right_ne_nil before
    (List.cons_ne_nil _ after))

/-- The loop of the decoder accepts the readable escapes, and returns what they
stand for. -/
theorem decodeBytes_iff (text bytes : Bytes) :
    decodeBytes text = .ok bytes ↔ Escapes Readable text ∧ bytes = percentDecode text := by
  induction text using percentDecode.induct generalizing bytes with
  | case1 a b rest ih =>
    rw [decodeBytes_escape, escapes_escape readable_ne_percent, percentDecode]
    constructor
    · intro h
      obtain ⟨decoded, hdigits, h⟩ := bind_eq_ok.mp h
      obtain ⟨bytes', hrest, rfl⟩ := map_eq_ok.mp h
      obtain ⟨hreadable, rfl⟩ := (parseDigits_iff a b decoded).mp hdigits
      obtain ⟨hescapes, rfl⟩ := (ih bytes').mp hrest
      exact ⟨⟨hreadable, hescapes⟩, rfl⟩
    · rintro ⟨⟨hreadable, hescapes⟩, rfl⟩
      have hdigits := (parseDigits_iff a b _).mpr ⟨hreadable, rfl⟩
      have hrest := (ih _).mpr ⟨hescapes, rfl⟩
      exact bind_eq_ok.mpr ⟨_, hdigits, map_eq_ok.mpr ⟨_, hrest, rfl⟩⟩
  | case2 byte rest hshort ih =>
    rw [percentDecode.eq_2 byte rest hshort]
    by_cases hpercent : byte = 0x25
    · -- fewer than two bytes follow the `%`
      subst hpercent
      refine iff_of_false ?_ ?_
      · rcases rest with _ | ⟨a, _ | ⟨b, rest⟩⟩
        · exact fun h => nomatch h
        · exact fun h => nomatch h
        · exact (hshort a b rest rfl rfl).elim
      · rintro ⟨hescapes, -⟩
        obtain ⟨a, b, rest', rfl, -⟩ := ((escapes_percent rest).mp hescapes).1
        exact hshort a b rest' rfl rfl
    · rw [decodeBytes_plain hpercent, escapes_plain hpercent, map_eq_ok]
      constructor
      · rintro ⟨bytes', hrest, rfl⟩
        obtain ⟨hescapes, rfl⟩ := (ih bytes').mp hrest
        exact ⟨hescapes, rfl⟩
      · rintro ⟨hescapes, rfl⟩
        exact ⟨_, (ih _).mpr ⟨hescapes, rfl⟩, rfl⟩
  | case3 =>
    refine ⟨fun h => ⟨escapes_nil Readable, (Except.ok.inj h).symm⟩, ?_⟩
    rintro ⟨-, rfl⟩
    rfl

/-- What `decode_path` accepts. -/
theorem decodePath_accepts_iff (text : Bytes) :
    (∃ path, decodePath text = .ok path) ↔ Escapes Readable text ∧ 0 ∉ percentDecode text := by
  constructor
  · rintro ⟨path, h⟩
    obtain ⟨bytes, hbytes, h⟩ := bind_eq_ok.mp h
    obtain ⟨hescapes, rfl⟩ := (decodeBytes_iff text bytes).mp hbytes
    refine ⟨hescapes, fun hnul => ?_⟩
    rw [if_pos hnul] at h
    exact nomatch h
  · rintro ⟨hescapes, hnul⟩
    refine ⟨percentDecode text, bind_eq_ok.mpr ⟨_, (decodeBytes_iff text _).mpr ⟨hescapes, rfl⟩, ?_⟩⟩
    exact if_neg hnul

theorem Escapes.mono {related related' : UInt8 → UInt8 → Prop}
    (h : ∀ {a b}, related a b → related' a b) {text : Bytes} (hescapes : Escapes related text) :
    Escapes related' text := by
  intro before after heq
  obtain ⟨a, b, rest, hafter, hab⟩ := hescapes before after heq
  exact ⟨a, b, rest, hafter, h hab⟩

/-- Readable escapes are all of two digits, or one of them has a sign. -/
theorem escapes_twoDigits_iff {text : Bytes} (h : Escapes Readable text) :
    Escapes TwoDigits text ↔ ¬ ∃ before after, text = before ++ 0x25 :: 0x2b :: after := by
  constructor
  · rintro hdigits ⟨before, after, heq⟩
    obtain ⟨a, b, rest, hafter, ha, -⟩ := hdigits before (0x2b :: after) heq
    rw [← (List.cons.inj hafter).1] at ha
    exact absurd ha (by decide)
  · intro hsign before after heq
    obtain ⟨a, b, rest, rfl, hdigits | ⟨rfl, -⟩⟩ := h before after heq
    · exact ⟨a, b, rest, rfl, hdigits⟩
    · exact absurd ⟨before, b :: rest, heq⟩ hsign

/-- A text that is decoded although one of its escapes has a sign: all its escapes
are read by `from_str_radix`, there is no NUL among the bytes, and a `%` is
followed by `+`. -/
def SignedText (text : Bytes) : Prop :=
  Escapes Readable text ∧ 0 ∉ percentDecode text ∧
    ∃ before after, text = before ++ 0x25 :: 0x2b :: after

/-- Paths without NUL go through the encoding, whose bytes are visible and neither `:`
nor `@`; and the decoder accepts exactly the texts whose escapes are two digits and
give no NUL, on every text other than the signed ones. -/
theorem decodePath_hexEscapes_iff (path : RawPath) (text : Bytes) :
    decodePath (encodePath path.1) = .ok path.1 ∧
    (∀ byte ∈ encodePath path.1, InAlphabet byte) ∧
    (((∃ decoded, decodePath text = .ok decoded) ↔
      Escapes TwoDigits text ∧ 0 ∉ percentDecode text) ↔ ¬ SignedText text) := by
  refine ⟨decodePath_encodePath path, encodePath_alphabet path.1, ?_⟩
  rw [decodePath_accepts_iff, SignedText]
  constructor
  · rintro hiff ⟨hreadable, hnul, hsign⟩
    exact (escapes_twoDigits_iff hreadable).mp (hiff.mp ⟨hreadable, hnul⟩).1 hsign
  · intro hsigned
    constructor
    · rintro ⟨hreadable, hnul⟩
      refine ⟨(escapes_twoDigits_iff hreadable).mpr fun hsign => ?_, hnul⟩
      exact hsigned ⟨hreadable, hnul, hsign⟩
    · rintro ⟨hdigits, hnul⟩
      exact ⟨hdigits.mono Or.inl, hnul⟩

/-- `%+f` is decoded, to the byte 15, and its escape is not two digits. -/
theorem decodePath_signed_escape :
    decodePath (ascii "%+f") = .ok [15] ∧ ¬ Escapes TwoDigits (ascii "%+f") := by
  refine ⟨by decide, fun h => ?_⟩
  obtain ⟨a, b, rest, hafter, ha, -⟩ := h [] (ascii "+f") rfl
  rw [← (List.cons.inj hafter).1] at ha
  exact absurd ha (by decide)

end Trufflepig.Store
