import Trufflepig.Lib.Text

/-!
# Characters of a text

What the standard library tells of a character comes from tables that are not modelled; a
`Unicode` instance stands for them. Texts are split and searched as lists of characters.
-/

namespace Trufflepig.Lib

/-- The character tables of the standard library. -/
class Unicode where
  /-- `char::is_alphanumeric` -/
  isAlphanumeric : Char → Bool
  /-- `char::is_alphabetic` -/
  isAlphabetic : Char → Bool
  /-- `char::is_lowercase` -/
  isLowercase : Char → Bool
  /-- `char::is_uppercase` -/
  isUppercase : Char → Bool
  /-- `str::to_lowercase` -/
  toLowercase : List Char → List Char

/-- The tables on texts without other characters than those of ASCII. -/
@[reducible] def Unicode.ofAscii : Unicode where
  isAlphanumeric := Char.isAlphanum
  isAlphabetic := Char.isAlpha
  isLowercase := Char.isLower
  isUppercase := Char.isUpper
  toLowercase := List.map Char.toLower

/-- The characters of a text in UTF-8. -/
def decodeChars : Bytes → List Char
  | [] => []
  | b :: rest =>
    if b < 0x80 then Char.ofNat b.toNat :: decodeChars rest
    else
      match rest with
      | [] => []
      | c :: rest =>
        if b < 0xe0 then
          Char.ofNat (b.toNat % 32 * 64 + c.toNat % 64) :: decodeChars rest
        else
          match rest with
          | [] => []
          | d :: rest =>
            if b < 0xf0 then
              Char.ofNat (b.toNat % 16 * 4096 + c.toNat % 64 * 64 + d.toNat % 64) ::
                decodeChars rest
            else
              match rest with
              | [] => []
              | e :: rest =>
                Char.ofNat (b.toNat % 8 * 262144 + c.toNat % 64 * 4096 + d.toNat % 64 * 64 +
                  e.toNat % 64) :: decodeChars rest

/-! ## Bytes that are not UTF-8 -/

/-- The bytes that may follow the first byte of an encoding. -/
def secondByte (first : UInt8) : UInt8 × UInt8 :=
  if first = 0xe0 then (0xa0, 0xbf)
  else if first = 0xed then (0x80, 0x9f)
  else if first = 0xf0 then (0x90, 0xbf)
  else if first = 0xf4 then (0x80, 0x8f)
  else (0x80, 0xbf)

/-- How many bytes follow the first byte of an encoding. -/
def continuationBytes (first : UInt8) : Option ℕ :=
  if first < 0x80 then some 0
  else if 0xc2 ≤ first ∧ first ≤ 0xdf then some 1
  else if 0xe0 ≤ first ∧ first ≤ 0xef then some 2
  else if 0xf0 ≤ first ∧ first ≤ 0xf4 then some 3
  else none

/-- How many of the bytes that should follow do. -/
def followers (first : UInt8) (needed : ℕ) (rest : Bytes) : ℕ :=
  match needed, rest with
  | needed + 1, byte :: rest =>
    if (secondByte first).1 ≤ byte ∧ byte ≤ (secondByte first).2 then
      1 + ((rest.take needed).takeWhile fun byte => 0x80 ≤ byte && byte ≤ 0xbf).length
    else 0
  | _, _ => 0

/-- The length of the first encoding, or of the bytes that one replacement stands for. -/
def firstUnit (first : UInt8) (rest : Bytes) : ℕ × Bool :=
  match continuationBytes first with
  | none => (1, false)
  | some needed => (1 + followers first needed rest, followers first needed rest = needed)

/-- The loop of `String::from_utf8_lossy`. -/
def lossyFrom : ℕ → Bytes → List Char
  | 0, _ => []
  | _ + 1, [] => []
  | fuel + 1, first :: rest =>
    let (length, valid) := firstUnit first rest
    (if valid then decodeChars ((first :: rest).take length) else ['\uFFFD']) ++
      lossyFrom fuel ((first :: rest).drop length)

/-- `String::from_utf8_lossy`. -/
def decodeLossy (bytes : Bytes) : List Char := lossyFrom bytes.length bytes

/-- The loop of `Utf8Error::valid_up_to`. -/
def validFrom : ℕ → Bytes → ℕ
  | 0, _ => 0
  | _ + 1, [] => 0
  | fuel + 1, first :: rest =>
    let (length, valid) := firstUnit first rest
    if valid then length + validFrom fuel ((first :: rest).drop length) else 0

/-- The length of the longest start that is UTF-8. -/
def validUpTo (bytes : Bytes) : ℕ := validFrom bytes.length bytes

/-! ## Parts of a text -/

/-- `str::split` with a predicate, without the empty parts. -/
def splitTerms (separator : Char → Bool) (text : List Char) : List (List Char) :=
  (text.splitOnP separator).filter fun term => !term.isEmpty

@[simp] theorem splitTerms_nil (separator : Char → Bool) : splitTerms separator [] = [] := rfl

section Split

variable {α : Type} [DecidableEq α]

/-- `split_once` with one character: the parts before and behind the first one. -/
def splitOnce (separator : α) : List α → Option (List α × List α)
  | [] => none
  | c :: rest =>
    if c = separator then some ([], rest)
    else (splitOnce separator rest).map fun parts => (c :: parts.1, parts.2)

/-- `rsplit_once` with one character: the parts before and behind the last one. -/
def rsplitOnce (separator : α) : List α → Option (List α × List α)
  | [] => none
  | c :: rest =>
    match rsplitOnce separator rest with
    | some parts => some (c :: parts.1, parts.2)
    | none => if c = separator then some ([], rest) else none

variable {separator : α}

theorem rsplitOnce_append (xs ys : List α) :
    rsplitOnce separator (xs ++ ys) =
      match rsplitOnce separator ys with
      | some (before, after) => some (xs ++ before, after)
      | none => (rsplitOnce separator xs).map fun parts => (parts.1, parts.2 ++ ys) := by
  induction xs with
  | nil =>
    cases h : rsplitOnce separator ys with
    | none => exact h
    | some parts => exact h
  | cons x xs ih =>
    rw [List.cons_append, rsplitOnce, ih]
    cases h : rsplitOnce separator ys with
    | some parts => rfl
    | none =>
      cases hxs : rsplitOnce separator xs with
      | some parts => simp [rsplitOnce, hxs]
      | none =>
        simp only [Option.map_none, rsplitOnce, hxs]
        split_ifs <;> rfl

theorem rsplitOnce_eq_none {xs : List α} : rsplitOnce separator xs = none ↔ separator ∉ xs := by
  induction xs with
  | nil => simp [rsplitOnce]
  | cons x xs ih =>
    rw [rsplitOnce, List.mem_cons, not_or, ← ih]
    cases rsplitOnce separator xs with
    | some parts => simp
    | none =>
      by_cases hx : x = separator
      · simp [hx]
      · simp [hx, Ne.symm hx]

theorem rsplitOnce_eq_some {xs before after : List α}
    (h : rsplitOnce separator xs = some (before, after)) :
    xs = before ++ separator :: after ∧ separator ∉ after := by
  induction xs generalizing before with
  | nil => exact nomatch h
  | cons x xs ih =>
    rw [rsplitOnce] at h
    cases hxs : rsplitOnce separator xs with
    | some parts =>
      rw [hxs] at h
      obtain ⟨rfl, rfl⟩ := Prod.mk.inj (Option.some.inj h)
      obtain ⟨heq, hnot⟩ := ih hxs
      exact ⟨by rw [List.cons_append, ← heq], hnot⟩
    | none =>
      rw [hxs] at h
      by_cases hx : x = separator
      · rw [if_pos hx] at h
        obtain ⟨rfl, rfl⟩ := Prod.mk.inj (Option.some.inj h)
        exact ⟨by rw [hx, List.nil_append], rsplitOnce_eq_none.mp hxs⟩
      · rw [if_neg hx] at h
        exact nomatch h

/-- `str::contains`. -/
def containsText (needle text : List α) : Bool := decide (needle <:+: text)

end Split

end Trufflepig.Lib
