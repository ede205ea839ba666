import Trufflepig.Lib.Utf8

/-!
# Text operations on UTF-8 bytes

The operations of `str` that work on ASCII letters, on white space and on separators.
-/

namespace Trufflepig.Lib

open List

/-- `u8::to_ascii_lowercase`. -/
def lowerByte (b : UInt8) : UInt8 := if 65 ≤ b ∧ b ≤ 90 then b + 32 else b

/-- `u8::is_ascii_alphabetic`. -/
def asciiAlphabetic (b : UInt8) : Bool := (65 ≤ b && b ≤ 90) || (97 ≤ b && b ≤ 122)

/-- `u8::is_ascii_digit`. -/
def asciiDigit (b : UInt8) : Bool := 48 ≤ b && b ≤ 57

/-- `str::to_ascii_lowercase`. -/
def asciiLower (text : Bytes) : Bytes := text.map lowerByte

theorem lowerByte_lowerByte (b : UInt8) : lowerByte (lowerByte b) = lowerByte b :=
  forall_byte (P := fun b => lowerByte (lowerByte b) = lowerByte b) (by decide +kernel) b

@[simp] theorem asciiLower_asciiLower (text : Bytes) :
    asciiLower (asciiLower text) = asciiLower text := by
  rw [asciiLower, asciiLower, map_map]
  exact map_congr_left fun b _ => lowerByte_lowerByte b

/-- A byte that is no ASCII letter. -/
def NotLetter (b : UInt8) : Prop := b < 65 ∨ 90 < b ∧ b < 97 ∨ 122 < b

instance (b : UInt8) : Decidable (NotLetter b) := inferInstanceAs (Decidable (_ ∨ _))

variable {b : UInt8}

/-- A byte that is not a letter is the lower case of itself only. -/
theorem lowerByte_eq_iff {c : UInt8} (hc : NotLetter c) :
    lowerByte b = c ↔ b = c := by
  simp only [NotLetter, UInt8.lt_iff_toNat_lt] at hc
  have hb := b.toNat_lt
  simp only [lowerByte, UInt8.le_iff_toNat_le, ← UInt8.toNat_inj]
  split_ifs with h
  · simp at h hc ⊢; omega
  · rfl

@[simp] theorem asciiLower_append (a b : Bytes) : asciiLower (a ++ b) = asciiLower a ++ asciiLower b :=
  map_append

@[simp] theorem length_asciiLower (text : Bytes) : (asciiLower text).length = text.length :=
  length_map _

variable {text : Bytes}

/-- Lower case reaches no byte that is not a letter, and leaves none. -/
theorem mem_asciiLower {c : UInt8} (hc : NotLetter c) :
    c ∈ asciiLower text ↔ c ∈ text := by
  simp [asciiLower, lowerByte_eq_iff hc]

/-- `str::trim_start_matches` with an ASCII character. -/
def trimStartByte (b : UInt8) (text : Bytes) : Bytes := text.dropWhile fun x => x = b

@[simp] theorem trimStartByte_trimStartByte (b : UInt8) (text : Bytes) :
    trimStartByte b (trimStartByte b text) = trimStartByte b text :=
  dropWhile_idempotent _ text

theorem trimStartByte_asciiLower (hb : NotLetter b) (text : Bytes) :
    trimStartByte b (asciiLower text) = asciiLower (trimStartByte b text) := by
  rw [trimStartByte, asciiLower, dropWhile_map, trimStartByte, asciiLower]
  congr 2
  funext x
  simp [lowerByte_eq_iff hb]

theorem trimStartByte_cons_of_ne {first : UInt8} (h : first ≠ b) (rest : Bytes) :
    trimStartByte b (first :: rest) = first :: rest :=
  dropWhile_cons_of_neg (by simpa using h)

theorem ne_of_trimStartByte_eq_cons {first : UInt8} {rest : Bytes}
    (h : trimStartByte b text = first :: rest) : first ≠ b := by
  intro heq
  have hidem := trimStartByte_trimStartByte b text
  rw [h, heq, trimStartByte, dropWhile_cons_of_pos (by simp)] at hidem
  have := (dropWhile_suffix (fun x => decide (x = b)) (l := rest)).length_le
  rw [hidem, length_cons] at this
  omega

/-- The encodings of the characters that `char::is_whitespace` accepts. -/
def whitespace : List Bytes :=
  [[0x09], [0x0a], [0x0b], [0x0c], [0x0d], [0x20], [0xc2, 0x85], [0xc2, 0xa0], [0xe1, 0x9a, 0x80]] ++
    ((List.range 11).map fun i => [0xe2, 0x80, 0x80 + UInt8.ofNat i]) ++
    [[0xe2, 0x80, 0xa8], [0xe2, 0x80, 0xa9], [0xe2, 0x80, 0xaf], [0xe2, 0x81, 0x9f],
      [0xe3, 0x80, 0x80]]

/-- Takes characters off the front, at most as many as `fuel`. -/
def stripLeading (characters : List Bytes) : ℕ → Bytes → Bytes
  | 0, text => text
  | fuel + 1, text =>
    match characters.find? fun c => c.isPrefixOf text with
    | some c => stripLeading characters fuel (text.drop c.length)
    | none => text

/-- `str::trim`. -/
def trim (text : Bytes) : Bytes :=
  let text := stripLeading whitespace text.length text
  (stripLeading (whitespace.map List.reverse) text.length text.reverse).reverse

/-! ## White space and case -/

theorem isPrefixOf_asciiLower {c : Bytes} (hc : ∀ b ∈ c, NotLetter b) (text : Bytes) :
    c.isPrefixOf (asciiLower text) = c.isPrefixOf text := by
  induction c generalizing text with
  | nil => rfl
  | cons b c ih =>
    cases text with
    | nil => rfl
    | cons x text =>
      have hx : (b == lowerByte x) = (b == x) := by
        rw [Bool.eq_iff_iff, beq_iff_eq, beq_iff_eq, eq_comm,
          lowerByte_eq_iff (hc b mem_cons_self), eq_comm]
      show (b == lowerByte x && c.isPrefixOf (asciiLower text)) = _
      rw [hx, ih fun b hb => hc b (mem_cons_of_mem _ hb)]
      rfl

theorem stripLeading_asciiLower {characters : List Bytes}
    (h : ∀ c ∈ characters, ∀ b ∈ c, NotLetter b) (fuel : ℕ) (text : Bytes) :
    stripLeading characters fuel (asciiLower text) =
      asciiLower (stripLeading characters fuel text) := by
  induction fuel generalizing text with
  | zero => rfl
  | succ fuel ih =>
    have hfind : (characters.find? fun c => c.isPrefixOf (asciiLower text)) =
        characters.find? fun c => c.isPrefixOf text :=
      find?_congr fun c hc => isPrefixOf_asciiLower (h c hc) text
    rw [stripLeading, stripLeading, hfind]
    cases characters.find? fun c => c.isPrefixOf text with
    | none => rfl
    | some c =>
      dsimp only
      rw [show (asciiLower text).drop c.length = asciiLower (text.drop c.length) from map_drop.symm]
      exact ih _

theorem notLetter_of_mem_whitespace : ∀ c ∈ whitespace, ∀ b ∈ c, NotLetter b := by
  decide +kernel

theorem trim_asciiLower (text : Bytes) : trim (asciiLower text) = asciiLower (trim text) := by
  have hreverse : ∀ c ∈ whitespace.map List.reverse, ∀ b ∈ c, NotLetter b := by
    intro c hreversed b hb
    obtain ⟨c, hc, rfl⟩ := mem_map.mp hreversed
    exact notLetter_of_mem_whitespace c hc b (mem_reverse.mp hb)
  have hmap : ∀ xs : Bytes, (asciiLower xs).reverse = asciiLower xs.reverse :=
    fun xs => map_reverse.symm
  simp only [trim, stripLeading_asciiLower notLetter_of_mem_whitespace, length_asciiLower, hmap,
    stripLeading_asciiLower hreverse]

/-- The bytes at the ends of white space. -/
def spaceByte (b : UInt8) : Bool :=
  whitespace.any fun c => c.head? = some b || c.getLast? = some b

theorem stripLeading_eq_self {characters : List Bytes} (fuel : ℕ)
    (h : ∀ c ∈ characters, ¬ c <+: text) : stripLeading characters fuel text = text := by
  cases fuel with
  | zero => rfl
  | succ fuel =>
    have hfind : (characters.find? fun c => c.isPrefixOf text) = none :=
      find?_eq_none.mpr fun c hc => by simpa using h c hc
    rw [stripLeading, hfind]

theorem spaceByte_eq_true {c : Bytes} (hc : c ∈ whitespace)
    (h : c.head? = some b ∨ c.getLast? = some b) : spaceByte b = true :=
  any_eq_true.mpr ⟨c, hc, by simpa using h⟩

/-- A text without white-space bytes at its ends is trimmed. -/
theorem trim_eq_self (h : ∀ b ∈ text, spaceByte b = false) : trim text = text := by
  have hnil : ∀ c ∈ whitespace, c ≠ [] := by decide
  have hhead : ∀ c ∈ whitespace, ¬ c <+: text := by
    rintro c hc ⟨rest, rfl⟩
    obtain ⟨b, c, rfl⟩ := exists_cons_of_ne_nil (hnil c hc)
    have hspace := spaceByte_eq_true (b := b) hc (.inl rfl)
    exact absurd (h b (by simp)) (by simp [hspace])
  have hlast : ∀ c ∈ whitespace.map List.reverse, ¬ c <+: text.reverse := by
    intro c hreversed hprefix
    obtain ⟨c, hc, rfl⟩ := mem_map.mp hreversed
    obtain ⟨rest, rfl⟩ := reverse_prefix.mp hprefix
    obtain ⟨c, b, rfl⟩ := (eq_nil_or_concat' c).resolve_left (hnil c hc)
    have hspace := spaceByte_eq_true (b := b) hc (.inr (by simp))
    exact absurd (h b (by simp)) (by simp [hspace])
  simp only [trim, stripLeading_eq_self _ hhead, stripLeading_eq_self _ hlast, reverse_reverse]

/-! ## Finding a text in a text -/

/-- `slice::windows`, for a positive length. -/
def windowsOf {α : Type*} (n : ℕ) (xs : List α) : List (List α) :=
  (List.range (xs.length + 1 - n)).map fun i => (xs.drop i).take n

/-- Every stretch of a list with the length of the windows is one. -/
theorem mem_windowsOf {α : Type*} {n : ℕ} {xs w : List α} :
    w ∈ windowsOf n xs ↔ w.length = n ∧ w <:+: xs := by
  simp only [windowsOf, mem_map, mem_range]
  constructor
  · rintro ⟨i, hi, rfl⟩
    refine ⟨by rw [length_take, length_drop]; omega, ?_⟩
    exact (List.take_prefix n _).isInfix.trans (drop_suffix i xs).isInfix
  · rintro ⟨hw, before, after, heq⟩
    have hlength := congrArg List.length heq
    simp only [length_append] at hlength
    refine ⟨before.length, by omega, ?_⟩
    rw [← heq, append_assoc, drop_left, ← hw, take_left]

/-- `[u8]::eq_ignore_ascii_case`. -/
def eqIgnoreAsciiCase (a b : Bytes) : Bool := asciiLower a = asciiLower b

/-- A window is a text up to case exactly if the text is in the bytes up to case. -/
theorem any_windowsOf_eqIgnoreAsciiCase (needle text : Bytes) :
    (windowsOf needle.length text).any (fun window => eqIgnoreAsciiCase window needle) ↔
      asciiLower needle <:+: asciiLower text := by
  simp only [any_eq_true, mem_windowsOf, eqIgnoreAsciiCase, decide_eq_true_eq]
  constructor
  · rintro ⟨w, ⟨-, hw⟩, heq⟩
    exact heq ▸ hw.map lowerByte
  · rintro ⟨before, after, heq⟩
    obtain ⟨front, tail, rfl, hfront, -⟩ := map_eq_append_iff.mp heq.symm
    obtain ⟨front, middle, rfl, -, hmiddle⟩ := map_eq_append_iff.mp hfront
    have hlength := congrArg List.length hmiddle
    rw [length_map, length_asciiLower] at hlength
    exact ⟨middle, ⟨hlength, front, tail, rfl⟩, hmiddle⟩

/-- A list that begins with two lists begins with the shorter one of them and more. -/
theorem append_cases {α : Type*} {a b c d : List α} (h : a ++ b = c ++ d) :
    (∃ next rest, a = c ++ next :: rest ∧ d = next :: rest ++ b) ∨
      (a = c ∧ b = d) ∨ ∃ next rest, c = a ++ next :: rest ∧ b = next :: rest ++ d := by
  rcases append_eq_append_iff.mp h with ⟨more, rfl, rfl⟩ | ⟨more, rfl, rfl⟩
  · cases more with
    | nil => exact .inr (.inl ⟨(append_nil _).symm, rfl⟩)
    | cons next rest => exact .inr (.inr ⟨next, rest, rfl, rfl⟩)
  · cases more with
    | nil => exact .inr (.inl ⟨append_nil _, rfl⟩)
    | cons next rest => exact .inl ⟨next, rest, rfl, rfl⟩

/-- A text whose last element does not occur in a tail does not reach into the tail. -/
theorem prefix_append_iff {α : Type*} {needle text tail : List α} {last : α} (hlast : last ∉ tail) :
    needle ++ [last] <+: text ++ tail ↔ needle ++ [last] <+: text := by
  refine ⟨?_, fun h => h.trans (prefix_append text tail)⟩
  rintro ⟨after, heq⟩
  rcases append_cases heq with ⟨next, rest, hfound, rfl⟩ | ⟨rfl, -⟩ | ⟨next, rest, rfl, -⟩
  · have hx := congrArg List.getLast? hfound
    rw [getLast?_concat, getLast?_append_cons] at hx
    exact absurd (mem_append_left _ (mem_of_getLast? hx.symm)) hlast
  · exact prefix_refl _
  · exact prefix_append ..

theorem infix_append_iff {α : Type*} {needle text tail : List α} {last : α} (hlast : last ∉ tail) :
    needle ++ [last] <:+: text ++ tail ↔ needle ++ [last] <:+: text := by
  refine ⟨?_, fun h => h.trans (prefix_append text tail).isInfix⟩
  rintro ⟨before, after, heq⟩
  have hprefix : (before ++ needle) ++ [last] <+: text ++ tail := ⟨after, by simpa using heq⟩
  obtain ⟨rest, htext⟩ := (prefix_append_iff hlast).mp hprefix
  exact ⟨before, rest, by simpa using htext⟩

end Trufflepig.Lib
