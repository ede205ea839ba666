import Mathlib

/-!
# UTF-8 byte strings and their character boundaries

A byte string is valid UTF-8 when it is the concatenation of the encodings
`String.utf8EncodeChar c` of some characters; its character boundaries are the
offsets between two of them.

* `CharBoundary.not_isContinuation`, `charBoundary_of_not_isContinuation`: inside a
  valid string an offset is a boundary iff its byte is not a continuation byte
  `10xxxxxx`.
* `exists_charBoundary_near`: every offset has a boundary at most three bytes
  before it.
* `charBoundary_succ_of_ascii`: an ASCII byte is a character of its own.
-/

namespace Trufflepig.Lib

open List

/-- Byte strings. -/
abbrev Bytes := List UInt8

instance lawfulBEqBytes : LawfulBEq Bytes := inferInstance

instance lawfulBEqChars : LawfulBEq (List Char) := inferInstance

/-- A property of all bytes is checked on 256 numbers. -/
theorem forall_byte {P : UInt8 → Prop} (h : ∀ n : Fin 256, P (UInt8.ofFin n)) (b : UInt8) : P b :=
  h b.toFin

/-- The bytes of an ASCII text. -/
def ascii (s : String) : Bytes := s.toList.map fun c => UInt8.ofNat c.toNat

/-- `b` has the form `10xxxxxx`. -/
def IsContinuation (b : UInt8) : Prop := b &&& 0xc0 = 0x80

instance (b : UInt8) : Decidable (IsContinuation b) := inferInstanceAs (Decidable (_ = _))

/-- The UTF-8 encoding of a list of characters. -/
def encodeChars (cs : List Char) : Bytes := cs.flatMap String.utf8EncodeChar

/-- `s` is the encoding of a list of characters. -/
def ValidUtf8 (s : Bytes) : Prop := ∃ cs, s = encodeChars cs

/-- `i` lies between two characters of `s`, or at an end. -/
def CharBoundary (s : Bytes) (i : ℕ) : Prop :=
  ∃ pre post, s = encodeChars pre ++ encodeChars post ∧ i = (encodeChars pre).length

/-! ## One character -/

theorem isContinuation_ofNat (n : ℕ) : IsContinuation (UInt8.ofNat (n % 64 + 128)) := by
  have h : n % 64 < 64 := Nat.mod_lt _ (by omega)
  generalize n % 64 = m at h
  revert m
  decide

theorem isContinuation_ge {b : UInt8} (h : IsContinuation b) : ¬ b < 128 := by
  have hle : (b &&& 0xc0).toNat ≤ b.toNat := by rw [UInt8.toNat_and]; exact Nat.and_le_left
  rw [show b &&& 0xc0 = 0x80 from h] at hle
  rw [UInt8.lt_iff_toNat_lt]
  simpa using hle

theorem leading_two (n : ℕ) : ¬ IsContinuation (UInt8.ofNat (n % 32 + 192)) ∧
    ¬ UInt8.ofNat (n % 32 + 192) < 128 := by
  have h : n % 32 < 32 := Nat.mod_lt _ (by omega)
  generalize n % 32 = m at h
  revert m
  decide

theorem leading_three (n : ℕ) : ¬ IsContinuation (UInt8.ofNat (n % 16 + 224)) ∧
    ¬ UInt8.ofNat (n % 16 + 224) < 128 := by
  have h : n % 16 < 16 := Nat.mod_lt _ (by omega)
  generalize n % 16 = m at h
  revert m
  decide

theorem leading_four (n : ℕ) : ¬ IsContinuation (UInt8.ofNat (n % 8 + 240)) ∧
    ¬ UInt8.ofNat (n % 8 + 240) < 128 := by
  have h : n % 8 < 8 := Nat.mod_lt _ (by omega)
  generalize n % 8 = m at h
  revert m
  decide

theorem leading_one {n : ℕ} (h : n ≤ 127) : ¬ IsContinuation (UInt8.ofNat n) := by
  have h' : n < 128 := by omega
  revert n
  decide

/-- A character is one leading byte and at most three continuation bytes; an
ASCII leading byte stands alone. -/
theorem utf8EncodeChar_shape (c : Char) :
    ∃ b rest, String.utf8EncodeChar c = b :: rest ∧ ¬ IsContinuation b ∧
      (∀ x ∈ rest, IsContinuation x) ∧ rest.length ≤ 3 ∧ (b < 128 → rest = []) := by
  unfold String.utf8EncodeChar
  dsimp only
  split_ifs with h1 h2 h3
  · exact ⟨_, [], rfl, leading_one h1, by simp, by simp, fun _ => rfl⟩
  · refine ⟨_, _, rfl, (leading_two _).1, ?_, by simp, fun h => absurd h (leading_two _).2⟩
    simp only [mem_singleton, forall_eq]
    exact isContinuation_ofNat _
  · refine ⟨_, _, rfl, (leading_three _).1, ?_, by simp, fun h => absurd h (leading_three _).2⟩
    simp only [mem_cons, not_mem_nil, or_false, forall_eq_or_imp, forall_eq]
    exact ⟨isContinuation_ofNat _, isContinuation_ofNat _⟩
  · refine ⟨_, _, rfl, (leading_four _).1, ?_, by simp, fun h => absurd h (leading_four _).2⟩
    simp only [mem_cons, not_mem_nil, or_false, forall_eq_or_imp, forall_eq]
    exact ⟨isContinuation_ofNat _, isContinuation_ofNat _, isContinuation_ofNat _⟩

/-! ## Boundaries -/

@[simp] theorem encodeChars_nil : encodeChars [] = [] := rfl

@[simp] theorem encodeChars_cons (c : Char) (cs : List Char) :
    encodeChars (c :: cs) = String.utf8EncodeChar c ++ encodeChars cs := by
  simp [encodeChars]

theorem encodeChars_append (cs ds : List Char) :
    encodeChars (cs ++ ds) = encodeChars cs ++ encodeChars ds := by
  simp [encodeChars]

/-- The characters of an ASCII text. -/
def asciiChars (text : Bytes) : List Char := text.map fun b => Char.ofNat b.toNat

theorem encodeChars_asciiChars {text : Bytes} (h : ∀ b ∈ text, b < 128) :
    encodeChars (asciiChars text) = text := by
  have hbyte : ∀ b : UInt8, b < 128 → String.utf8EncodeChar (Char.ofNat b.toNat) = [b] := by
    apply forall_byte
    decide +kernel
  induction text with
  | nil => rfl
  | cons b text ih =>
    show encodeChars (Char.ofNat b.toNat :: asciiChars text) = _
    rw [encodeChars_cons, hbyte b (h b mem_cons_self), ih fun b hb => h b (mem_cons_of_mem _ hb)]
    rfl

theorem asciiChars_encodeChars {cs : List Char} (h : ∀ b ∈ encodeChars cs, b < 128) :
    asciiChars (encodeChars cs) = cs := by
  induction cs with
  | nil => rfl
  | cons c cs ih =>
    rw [encodeChars_cons] at h ⊢
    have hrest := ih fun b hb => h b (mem_append_right _ hb)
    have hchar : asciiChars (String.utf8EncodeChar c) = [c] := by
      obtain ⟨b, rest, hencode, -, -, -, hsole⟩ := utf8EncodeChar_shape c
      have hb : b < 128 := h b (by rw [hencode]; simp)
      have hlength : c.utf8Size = 1 := by
        rw [← String.length_utf8EncodeChar, hencode, hsole hb]
        rfl
      rw [String.utf8EncodeChar_eq_singleton hlength]
      have hle : c.toNat ≤ 127 := Char.utf8Size_eq_one_iff.mp hlength
      have hnat : c.val.toUInt8.toNat = c.toNat := by
        rw [UInt32.toNat_toUInt8]
        show c.toNat % 2 ^ 8 = c.toNat
        omega
      show [Char.ofNat c.val.toUInt8.toNat] = [c]
      rw [hnat, Char.ofNat_toNat]
    rw [asciiChars, map_append]
    show asciiChars (String.utf8EncodeChar c) ++ asciiChars (encodeChars cs) = c :: cs
    rw [hchar, hrest]
    rfl

variable {s : Bytes} {i : ℕ}

theorem charBoundary_zero (h : ValidUtf8 s) : CharBoundary s 0 := by
  obtain ⟨cs, rfl⟩ := h
  exact ⟨[], cs, rfl, rfl⟩

theorem charBoundary_length (h : ValidUtf8 s) : CharBoundary s s.length := by
  obtain ⟨cs, rfl⟩ := h
  exact ⟨cs, [], by simp, rfl⟩

/-- Shifting a boundary past one more leading character. -/
theorem CharBoundary.cons (h : CharBoundary s i) (c : Char) :
    CharBoundary (String.utf8EncodeChar c ++ s) ((String.utf8EncodeChar c).length + i) := by
  obtain ⟨pre, post, rfl, rfl⟩ := h
  exact ⟨c :: pre, post, by simp, by simp⟩

/-- The first byte of a character is not a continuation byte. -/
theorem not_isContinuation_head (c : Char) (s : Bytes) (d : UInt8) :
    ¬ IsContinuation ((String.utf8EncodeChar c ++ s).getD 0 d) := by
  obtain ⟨b, rest, he, hb, -⟩ := utf8EncodeChar_shape c
  rw [he]
  simpa using hb

/-- A byte strictly inside a character is a continuation byte. -/
theorem isContinuation_inside (c : Char) (s : Bytes) (h0 : 0 < i)
    (hi : i < (String.utf8EncodeChar c).length) (d : UInt8) :
    IsContinuation ((String.utf8EncodeChar c ++ s).getD i d) := by
  obtain ⟨b, rest, he, -, hrest, -⟩ := utf8EncodeChar_shape c
  rw [he] at hi ⊢
  rw [getD_append _ _ _ _ hi]
  obtain ⟨j, rfl⟩ : ∃ j, i = j + 1 := ⟨i - 1, by omega⟩
  rw [getD_cons_succ, getD_eq_getElem _ _ (by simpa using hi)]
  exact hrest _ (getElem_mem _)

/-- A boundary inside the string is followed by the first byte of a character. -/
theorem CharBoundary.not_isContinuation (h : CharBoundary s i) (hi : i < s.length) (d : UInt8) :
    ¬ IsContinuation (s.getD i d) := by
  obtain ⟨pre, post, rfl, rfl⟩ := h
  rw [getD_append_right _ _ _ _ le_rfl, Nat.sub_self]
  cases post with
  | nil => simp at hi
  | cons c post => rw [encodeChars_cons]; exact not_isContinuation_head c _ d

/-- In a valid string every byte that is not a continuation byte starts a
character. -/
theorem charBoundary_of_not_isContinuation (h : ValidUtf8 s) (hi : i < s.length) {d : UInt8}
    (hn : ¬ IsContinuation (s.getD i d)) : CharBoundary s i := by
  obtain ⟨cs, rfl⟩ := h
  induction cs generalizing i with
  | nil => simp at hi
  | cons c cs ih =>
    rw [encodeChars_cons] at hi hn ⊢
    rcases Nat.eq_zero_or_pos i with rfl | h0
    · exact charBoundary_zero ⟨c :: cs, by simp⟩
    by_cases hin : i < (String.utf8EncodeChar c).length
    · exact absurd (isContinuation_inside c _ h0 hin d) hn
    · obtain ⟨j, rfl⟩ : ∃ j, i = (String.utf8EncodeChar c).length + j :=
        ⟨i - (String.utf8EncodeChar c).length, by omega⟩
      rw [getD_append_right _ _ _ _ (by omega), Nat.add_sub_cancel_left] at hn
      rw [length_append] at hi
      exact (ih (by omega) hn).cons c

/-- Every offset has a boundary at most three bytes before it. -/
theorem exists_charBoundary_near (h : ValidUtf8 s) (hi : i ≤ s.length) :
    ∃ j, j ≤ i ∧ i ≤ j + 3 ∧ CharBoundary s j := by
  obtain ⟨cs, rfl⟩ := h
  induction cs generalizing i with
  | nil => exact ⟨0, by omega, by simp at hi; omega, charBoundary_zero ⟨[], rfl⟩⟩
  | cons c cs ih =>
    rw [encodeChars_cons] at hi ⊢
    by_cases hin : i < (String.utf8EncodeChar c).length
    · obtain ⟨b, rest, he, -, -, hlen, -⟩ := utf8EncodeChar_shape c
      refine ⟨0, by omega, ?_, charBoundary_zero ⟨c :: cs, by simp⟩⟩
      rw [he, length_cons] at hin
      omega
    · rw [length_append] at hi
      obtain ⟨j, h1, h2, hb⟩ := ih (i := i - (String.utf8EncodeChar c).length) (by omega)
      exact ⟨(String.utf8EncodeChar c).length + j, by omega, by omega, hb.cons c⟩

/-- An ASCII byte is a character of its own: a boundary follows it. -/
theorem charBoundary_succ_of_ascii (h : ValidUtf8 s) (hi : i < s.length) {d : UInt8}
    (ha : s.getD i d < 128) : CharBoundary s (i + 1) := by
  obtain ⟨pre, post, rfl, rfl⟩ :=
    charBoundary_of_not_isContinuation h hi fun hn => isContinuation_ge hn ha
  cases post with
  | nil => simp at hi
  | cons c post =>
    obtain ⟨b, rest, he, -, -, -, hone⟩ := utf8EncodeChar_shape c
    rw [getD_append_right _ _ _ _ le_rfl, Nat.sub_self, encodeChars_cons, he] at ha
    have hnil : rest = [] := hone (by simpa using ha)
    exact ⟨pre ++ [c], post, by simp [encodeChars_append], by simp [encodeChars_append, he, hnil]⟩

end Trufflepig.Lib
