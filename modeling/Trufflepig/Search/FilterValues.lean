import Trufflepig.Lib.PrefixCode
import Trufflepig.Search.PathFilter
import Trufflepig.Store.PathsSpec

/-!
# Values of filters and the bytes of paths

`encoded_value` copies the escapes of a value, and the index escapes only the bytes that
`encode_path` does not copy. A value denotes bytes: an escape denotes its byte, every other byte
itself.

* `encodeFrom_eq_encodePath`: a value whose escapes are all needed is encoded like the path that
  it denotes, so by `encodePath_code` it is found where its bytes are.
* `not_infix_of_needless`: a value with an escape that no path is written with is found nowhere.
* `needle_iff`: what the needle of a value matches.
-/

namespace Trufflepig.Search

open Lib
open Store

/-- The byte of two hexadecimal digits. -/
def digitsByte (high low : UInt8) : UInt8 :=
  UInt8.ofNat (16 * (hexValue high).getD 0 + (hexValue low).getD 0)

/-- The bytes that a value denotes. -/
def denoted : Bytes → Bytes
  | [] => []
  | byte :: rest =>
    match rest with
    | high :: low :: rest' =>
      if byte = 0x25 ∧ isAsciiHexdigit high ∧ isAsciiHexdigit low then
        digitsByte high low :: denoted rest'
      else byte :: denoted (high :: low :: rest')
    | rest => byte :: denoted rest

/-- Every escape of a value denotes a byte that `encode_path` escapes. -/
def escapesNeeded : Bytes → Bool
  | [] => true
  | byte :: rest =>
    match rest with
    | high :: low :: rest' =>
      if byte = 0x25 ∧ isAsciiHexdigit high ∧ isAsciiHexdigit low then
        !isPlain (digitsByte high low) && escapesNeeded rest'
      else escapesNeeded (high :: low :: rest')
    | rest => escapesNeeded rest

/-- Bytes at the start of a path or right after a `/`. -/
def StartsComponent (bytes path : Bytes) : Prop := bytes <+: path ∨ 0x2f :: bytes <:+: path

/-! ## The code of paths -/

theorem upperHexDigit_ne {n : ℕ} (h : n < 16) : upperHexDigit n ≠ 0x2f ∧ upperHexDigit n ≠ 0x25 := by
  have hdigits : ∀ k : Fin 16, upperHexDigit k ≠ 0x2f ∧ upperHexDigit k ≠ 0x25 := by decide
  exact hdigits ⟨n, h⟩

theorem encodePath_code : PrefixCode encodeByte := by
  have hne : ∀ byte, encodeByte byte ≠ [] := by
    intro byte
    unfold encodeByte
    split_ifs <;> simp
  refine ⟨hne, ?_⟩
  intro a b hstart
  -- a byte is read off the front of what is written for it
  obtain ⟨rest, hrest⟩ := hstart
  have ha := decodeBytes_encodeByte a (rest ++ [])
  rw [← List.append_assoc, hrest, decodeBytes_encodeByte] at ha
  cases hdecode : decodeBytes (rest ++ []) with
  | error e =>
    rw [hdecode] at ha
    exact nomatch ha
  | ok bytes =>
    rw [hdecode] at ha
    exact (List.cons.inj (Except.ok.inj ha)).1.symm

theorem slash_mem_encodeByte (byte : UInt8) (h : 0x2f ∈ encodeByte byte) : byte = 0x2f := by
  have hbyte := byte.toNat_lt
  have hhigh := (upperHexDigit_ne (show byte.toNat / 16 < 16 by omega)).1
  have hlow := (upperHexDigit_ne (show byte.toNat % 16 < 16 by omega)).1
  unfold encodeByte at h
  split_ifs at h
  · exact (List.mem_singleton.mp h).symm
  · simp [Ne.symm hhigh, Ne.symm hlow] at h

/-- A path is found in encoded paths where its bytes are in the paths. -/
theorem startsComponent_encodePath (bytes path : Bytes) :
    StartsComponent (encodePath bytes) (encodePath path) ↔ StartsComponent bytes path := by
  have hslash : 0x2f :: encodePath bytes = encodePath (0x2f :: bytes) := rfl
  rw [StartsComponent, hslash]
  exact or_congr encodePath_code.flatMap_prefix_iff
    (encodePath_code.flatMap_infix_iff rfl slash_mem_encodeByte)

/-! ## Escapes that are needed -/

theorem encodeOne_eq_encodeByte (byte : UInt8) : encodeOne byte = encodeByte byte := by
  unfold encodeOne encodeByte
  by_cases hpercent : byte = 0x25
  · subst hpercent
    rfl
  · rw [if_neg hpercent]
    simp [isPlain, hpercent, and_assoc, percent]

theorem toAsciiUppercase_digit : ∀ digit, isAsciiHexdigit digit = true →
    (hexValue digit).getD 0 < 16 ∧
      toAsciiUppercase digit = upperHexDigit ((hexValue digit).getD 0) :=
  forall_byte (by decide +kernel)

theorem toNat_digitsByte {high low : UInt8} (hhigh : isAsciiHexdigit high = true)
    (hlow : isAsciiHexdigit low = true) :
    (digitsByte high low).toNat = 16 * (hexValue high).getD 0 + (hexValue low).getD 0 := by
  have hhigh16 := (toAsciiUppercase_digit high hhigh).1
  have hlow16 := (toAsciiUppercase_digit low hlow).1
  unfold digitsByte
  rw [UInt8.toNat_ofNat']
  omega

/-- An escape in upper case is what is written for its byte. -/
theorem escape_eq_percent {high low : UInt8} (hhigh : isAsciiHexdigit high = true)
    (hlow : isAsciiHexdigit low = true) :
    [0x25, toAsciiUppercase high, toAsciiUppercase low] = percent (digitsByte high low) := by
  obtain ⟨hhigh16, hhighUpper⟩ := toAsciiUppercase_digit high hhigh
  obtain ⟨hlow16, hlowUpper⟩ := toAsciiUppercase_digit low hlow
  have hbyte := toNat_digitsByte hhigh hlow
  unfold percent
  rw [hhighUpper, hlowUpper, show (digitsByte high low).toNat / 16 = (hexValue high).getD 0 by omega,
    show (digitsByte high low).toNat % 16 = (hexValue low).getD 0 by omega]

variable {value : Bytes}

theorem encodeFrom_eq_encodePath (h : escapesNeeded value = true) :
    encodeFrom value = encodePath (denoted value) := by
  fun_induction encodeFrom value with
  | case1 => rfl
  | case2 byte high low rest hescape ih =>
    rw [escapesNeeded, if_pos hescape, Bool.and_eq_true, Bool.not_eq_true'] at h
    rw [denoted, if_pos hescape, escape_eq_percent hescape.2.1 hescape.2.2, ih h.2]
    show _ = encodeByte (digitsByte high low) ++ _
    rw [encodeByte, if_neg (by simp [h.1])]
    rfl
  | case3 byte high low rest hescape ih =>
    rw [escapesNeeded, if_neg hescape] at h
    rw [denoted, if_neg hescape, encodeOne_eq_encodeByte, ih h]
    rfl
  | case4 byte rest hshort ih =>
    rcases rest with _ | ⟨high, _ | ⟨low, rest⟩⟩
    · rw [encodeOne_eq_encodeByte]; rfl
    · rw [encodeOne_eq_encodeByte, ih h]; rfl
    · exact absurd rfl (hshort high low rest)

/-! ## Escapes that are not needed -/

/-- The digits of a byte that `encode_path` escapes. -/
def NeededDigits (a b : UInt8) : Prop := ∃ byte, isPlain byte = false ∧ percent byte = [0x25, a, b]

theorem NeededDigits.ne_percent {a b : UInt8} (h : NeededDigits a b) : a ≠ 0x25 ∧ b ≠ 0x25 := by
  obtain ⟨byte, -, hpercent⟩ := h
  have hbyte := byte.toNat_lt
  obtain ⟨ha, hb⟩ := List.cons.inj (List.cons.inj hpercent).2
  rw [← ha, ← (List.cons.inj hb).1]
  exact ⟨(upperHexDigit_ne (by omega)).2, (upperHexDigit_ne (by omega)).2⟩

/-- The escapes of an encoded path are needed. -/
theorem escapes_encodePath (path : Bytes) : Escapes NeededDigits (encodePath path) := by
  induction path with
  | nil => exact escapes_nil _
  | cons byte path ih =>
    show Escapes NeededDigits (encodeByte byte ++ encodePath path)
    cases hplain : isPlain byte with
    | true =>
      rw [encodeByte, if_pos hplain]
      exact (escapes_plain (isPlain_ne_percent hplain) _).mpr ih
    | false =>
      rw [encodeByte, if_neg (by simp [hplain])]
      exact (escapes_escape NeededDigits.ne_percent _ _ _).mpr ⟨⟨byte, hplain, rfl⟩, ih⟩

theorem percent_injective : Function.Injective percent := by
  intro a b hab
  obtain ⟨hhigh, hlow⟩ := List.cons.inj (List.cons.inj hab).2
  have ha := parseDigits_encodeByte a
  rw [hhigh, (List.cons.inj hlow).1, parseDigits_encodeByte] at ha
  exact (Except.ok.inj ha).symm

/-- A needless escape is in the text of its value. -/
theorem exists_needless (h : escapesNeeded value = false) :
    ∃ byte, isPlain byte = true ∧ percent byte <:+: encodeFrom value := by
  fun_induction encodeFrom value with
  | case1 => cases h
  | case2 byte high low rest hescape ih =>
    rw [escapesNeeded, if_pos hescape] at h
    rw [escape_eq_percent hescape.2.1 hescape.2.2]
    cases hplain : isPlain (digitsByte high low) with
    | true => exact ⟨_, hplain, (List.prefix_append _ _).isInfix⟩
    | false =>
      rw [hplain] at h
      obtain ⟨found, hfound, hinfix⟩ := ih h
      exact ⟨found, hfound, hinfix.trans (List.suffix_append _ _).isInfix⟩
  | case3 byte high low rest hescape ih =>
    rw [escapesNeeded, if_neg hescape] at h
    obtain ⟨found, hfound, hinfix⟩ := ih h
    exact ⟨found, hfound, hinfix.trans (List.suffix_append _ _).isInfix⟩
  | case4 byte rest hshort ih =>
    rcases rest with _ | ⟨high, _ | ⟨low, rest⟩⟩
    · cases h
    · cases h
    · exact absurd rfl (hshort high low rest)

theorem not_infix_of_needless (h : escapesNeeded value = false) (path : Bytes) :
    ¬ encodeFrom value <:+: encodePath path := by
  intro hinfix
  obtain ⟨byte, hplain, hbyte⟩ := exists_needless h
  obtain ⟨before, after, hpath⟩ := hbyte.trans hinfix
  obtain ⟨a, b, rest, hdigits, needed, hneeded, hpercent⟩ := escapes_encodePath path before
    (upperHexDigit (byte.toNat / 16) :: upperHexDigit (byte.toNat % 16) :: after)
    (by rw [← hpath, List.append_assoc]; rfl)
  obtain ⟨rfl, htail⟩ := List.cons.inj hdigits
  obtain ⟨rfl, -⟩ := List.cons.inj htail
  rw [percent_injective hpercent, hplain] at hneeded
  exact nomatch hneeded

/-! ## The needle -/

theorem filterValue_eq_some {encoded : FilterValue} (h : filterValue value = some encoded) :
    encoded.1 = encodeFrom (stripDotSlash value) := by
  unfold filterValue at h
  split at h
  · exact nomatch h
  · next text htext =>
    rw [← Option.some.inj h]
    unfold encodedValue at htext
    dsimp only at htext
    split_ifs at htext
    exact (Option.some.inj htext).symm

theorem matchesPath_unanchored (value : FilterValue) (path : Bytes) :
    (PathNeedle.new value false).matchesPath path = true ↔ StartsComponent value.1 path := by
  show (decide (value.1 <+: path) || (true && decide (0x2f :: value.1 <:+: path))) = true ↔ _
  rw [Bool.true_and, Bool.or_eq_true, decide_eq_true_iff, decide_eq_true_iff]
  rfl

/-- A needle that is not anchored matches the paths that have the bytes of its value at the start
of a component, if the escapes of the value are needed; else it matches no path. -/
theorem needle_iff (value : Bytes) (encoded : FilterValue) (h : filterValue value = some encoded)
    (path : Bytes) :
    (PathNeedle.new encoded false).matchesPath (encodePath path) = true ↔
      escapesNeeded (stripDotSlash value) = true ∧
        StartsComponent (denoted (stripDotSlash value)) path := by
  rw [matchesPath_unanchored, filterValue_eq_some h]
  cases hneeded : escapesNeeded (stripDotSlash value) with
  | true =>
    rw [encodeFrom_eq_encodePath hneeded, startsComponent_encodePath, and_iff_right rfl]
  | false =>
    have hnot := not_infix_of_needless hneeded path
    refine iff_of_false ?_ (fun hfalse => nomatch hfalse.1)
    rintro (hstart | hinfix)
    · exact hnot hstart.isInfix
    · exact hnot ((List.suffix_cons _ _).isInfix.trans hinfix)

/-- `./caf%c3%a9` and a path with the two bytes. -/
theorem needle_iff_escape :
    ∃ encoded, filterValue (ascii "./caf%c3%a9") = some encoded ∧
      (PathNeedle.new encoded false).matchesPath
        (encodePath (ascii "a/caf" ++ [0xc3, 0xa9] ++ ascii "/menu.rs")) = true := by
  refine ⟨_, rfl, (needle_iff (ascii "./caf%c3%a9") _ rfl _).mpr ⟨by decide +kernel, ?_⟩⟩
  exact .inr ⟨ascii "a", ascii "/menu.rs", by decide +kernel⟩

/-- `%41` denotes `A`, which no path is written with an escape for. -/
theorem needless_escape_unmatched :
    ∃ encoded, filterValue (ascii "%41") = some encoded ∧ denoted (ascii "%41") = ascii "A" ∧
      (PathNeedle.new encoded false).matchesPath (encodePath (ascii "A")) = false :=
  ⟨_, rfl, by decide +kernel, by decide +kernel⟩

end Trufflepig.Search
