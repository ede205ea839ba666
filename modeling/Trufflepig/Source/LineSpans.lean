import Trufflepig.History.Lines
import Trufflepig.Search.Lanes

/-!
# Lines and byte spans (`source.rs`)

`current_span` finds the bytes of some lines, `line_span` the lines of some bytes. Both count
newlines. A line ends after its newline, and the last one at the end of the file, as for
`byteLines`; a newline at the end of the file starts no further line.

* `scanLines_start`, `scanLines_stop`: where the loop of `current_span` finds the two ends.
* `currentSpan_spec`: the span is that of the lines, `line_span` maps it back, and only a line
  behind the end of the file is refused.
-/

namespace Trufflepig.Source

open List Lib History Search

/-! ## Model -/

/-- The loop of `current_span` from the byte at `i` on; `line` is the current line. -/
def scanLines (first last : ℕ) (i line : ℕ) (start : Option ℕ) : Bytes → Option ℕ × ℕ
  | [] => (start, i)
  | byte :: rest =>
    if byte = 10 then
      if line = last then (start, i + 1)
      else
        scanLines first last (i + 1) (line + 1) (if line + 1 = first then some (i + 1) else start) rest
    else scanLines first last (i + 1) line start rest

/-- `current_span`. -/
def currentSpan (bytes : Bytes) (first last : ℕ) : Except String (ℕ × ℕ) :=
  if first = 0 ∨ last < first then .error "invalid_range: lines must be one-based and inclusive"
  else
    match scanLines first last 0 1 (if first = 1 then some 0 else none) bytes with
    | (some start, stop) => .ok (start, stop)
    | (none, _) => .error "invalid_range: first line is beyond end of file"

/-! ## Offsets of lines -/

/-- The offset behind the first `k` lines. -/
def lineOffset (bytes : Bytes) (k : ℕ) : ℕ := ((byteLines bytes).take k).flatten.length

theorem lineOffset_zero (bytes : Bytes) : lineOffset bytes 0 = 0 := rfl

theorem lineOffset_nil (k : ℕ) : lineOffset [] k = 0 := by
  rw [lineOffset, byteLines, take_nil]
  rfl

theorem lineOffset_newline (rest : Bytes) (k : ℕ) :
    lineOffset (10 :: rest) (k + 1) = lineOffset rest k + 1 := by
  unfold lineOffset
  rw [byteLines, if_pos rfl, take_succ_cons, flatten_cons, length_append, length_singleton]
  omega

theorem lineOffset_cons {byte : UInt8} (h : byte ≠ 10) (rest : Bytes) (k : ℕ) :
    lineOffset (byte :: rest) (k + 1) = lineOffset rest (k + 1) + 1 := by
  unfold lineOffset
  rw [byteLines, if_neg h]
  cases byteLines rest with
  | nil => simp
  | cons line lines =>
    rw [take_succ_cons, take_succ_cons, flatten_cons, flatten_cons, cons_append, length_cons]

theorem take_lineOffset (bytes : Bytes) (k : ℕ) :
    bytes.take (lineOffset bytes k) = ((byteLines bytes).take k).flatten := by
  have hsplit : ((byteLines bytes).take k).flatten ++ ((byteLines bytes).drop k).flatten = bytes := by
    rw [← flatten_append, take_append_drop, flatten_byteLines]
  have htake : (((byteLines bytes).take k).flatten ++ ((byteLines bytes).drop k).flatten).take
      (lineOffset bytes k) = ((byteLines bytes).take k).flatten := take_left
  rwa [hsplit] at htake

variable {k : ℕ}

theorem lineOffset_mono (bytes : Bytes) {j : ℕ} (h : j ≤ k) :
    lineOffset bytes j ≤ lineOffset bytes k := by
  unfold lineOffset
  exact (((take_sublist_take_left h).flatten).length_le)

/-! ## The loop -/

variable {first last i line : ℕ} {start : Option ℕ}

theorem scanLines_other {byte : UInt8} (h : byte ≠ 10) (rest : Bytes) :
    scanLines first last i line start (byte :: rest) =
      scanLines first last (i + 1) line start rest := by
  rw [scanLines, if_neg h]

theorem scanLines_newline (h : line ≠ last) (rest : Bytes) :
    scanLines first last i line start (10 :: rest) =
      scanLines first last (i + 1) (line + 1) (if line + 1 = first then some (i + 1) else start)
        rest := by
  rw [scanLines, if_pos rfl, if_neg h]

theorem scanLines_last (rest : Bytes) :
    scanLines first last i last start (10 :: rest) = (start, i + 1) := by
  rw [scanLines, if_pos rfl, if_pos rfl]

theorem scanLines_stop (bytes : Bytes) (hline : line ≤ last) :
    (scanLines first last i line start bytes).2 = i + lineOffset bytes (last + 1 - line) := by
  induction bytes generalizing i line start with
  | nil =>
    rw [lineOffset_nil]
    rfl
  | cons byte rest ih =>
    have hlines : last + 1 - line = (last - line) + 1 := by omega
    by_cases hbyte : byte = 10
    · subst hbyte
      by_cases hlast : line = last
      · subst hlast
        rw [scanLines_last, hlines, lineOffset_newline, Nat.sub_self, lineOffset_zero]
      · rw [scanLines_newline hlast, ih (by omega), hlines, lineOffset_newline,
          show last + 1 - (line + 1) = last - line by omega]
        omega
    · rw [scanLines_other hbyte, ih hline, hlines, lineOffset_cons hbyte]
      omega

/-- A start that is found stays. -/
theorem scanLines_found (bytes : Bytes) (hline : first ≤ line) :
    (scanLines first last i line start bytes).1 = start := by
  induction bytes generalizing i line with
  | nil => rfl
  | cons byte rest ih =>
    by_cases hbyte : byte = 10
    · subst hbyte
      by_cases hlast : line = last
      · subst hlast
        rw [scanLines_last]
      · rw [scanLines_newline hlast, if_neg (by omega), ih (by omega)]
    · rw [scanLines_other hbyte, ih hline]

/-- The start is found at the line, unless the newlines end before it. -/
theorem scanLines_start (bytes : Bytes) (hfirst : first ≤ last) (hline : line < first) :
    (scanLines first last i line none bytes).1 =
      if first - line ≤ bytes.count 10 then some (i + lineOffset bytes (first - line)) else none := by
  induction bytes generalizing i line with
  | nil =>
    rw [if_neg (by rw [count_nil]; omega)]
    rfl
  | cons byte rest ih =>
    have hlines : first - line = (first - line - 1) + 1 := by omega
    by_cases hbyte : byte = 10
    · subst hbyte
      rw [scanLines_newline (by omega), count_cons_self]
      by_cases hnext : line + 1 = first
      · rw [if_pos hnext, scanLines_found rest hnext.ge, if_pos (by omega), hlines,
          lineOffset_newline, show first - line - 1 = 0 by omega, lineOffset_zero]
      · rw [if_neg hnext, ih (by omega), hlines, lineOffset_newline,
          show first - (line + 1) = first - line - 1 by omega,
          show i + (lineOffset rest (first - line - 1) + 1) =
            i + 1 + lineOffset rest (first - line - 1) by omega]
        exact if_congr (Nat.add_le_add_iff_right).symm rfl rfl
    · rw [scanLines_other hbyte, ih hline, count_cons_of_ne hbyte, hlines,
        lineOffset_cons hbyte, show i + (lineOffset rest (first - line - 1 + 1) + 1) =
          i + 1 + lineOffset rest (first - line - 1 + 1) by omega]

/-! ## Counting back -/

theorem count_le_length_byteLines (bytes : Bytes) :
    bytes.count 10 ≤ (byteLines bytes).length ∧ (byteLines bytes).length ≤ bytes.count 10 + 1 := by
  induction bytes with
  | nil => exact ⟨le_rfl, Nat.zero_le _⟩
  | cons byte rest ih =>
    rw [byteLines]
    split_ifs with hbyte
    · rw [hbyte, count_cons_self, length_cons]
      omega
    · rw [count_cons_of_ne hbyte]
      cases hrest : byteLines rest with
      | nil =>
        rw [hrest] at ih
        simp only [length_nil, length_singleton] at ih ⊢
        omega
      | cons line lines =>
        rw [hrest] at ih
        exact ih

variable {bytes : Bytes}

/-- Behind `k` lines that end with a newline, `k` newlines are counted. -/
theorem count_take_lineOffset (h : k ≤ bytes.count 10) :
    (bytes.take (lineOffset bytes k)).count 10 = k := by
  induction bytes generalizing k with
  | nil =>
    rw [take_nil]
    rw [count_nil] at h ⊢
    omega
  | cons byte rest ih =>
    cases k with
    | zero => rfl
    | succ k =>
      by_cases hbyte : byte = 10
      · subst hbyte
        rw [count_cons_self] at h
        rw [lineOffset_newline, take_succ_cons, count_cons_self, ih (by omega)]
      · rw [count_cons_of_ne hbyte] at h
        rw [lineOffset_cons hbyte, take_succ_cons, count_cons_of_ne hbyte, ih h]

theorem lineOffset_pos (h : bytes ≠ []) : 0 < lineOffset bytes (k + 1) := by
  obtain ⟨byte, rest, rfl⟩ := exists_cons_of_ne_nil h
  by_cases hbyte : byte = 10
  · subst hbyte
    rw [lineOffset_newline]
    omega
  · rw [lineOffset_cons hbyte]
    omega

/-- Before the last byte of a line, the newlines of the lines before it are counted. -/
theorem count_take_lineOffset_pred (h : k < (byteLines bytes).length) :
    (bytes.take (lineOffset bytes (k + 1) - 1)).count 10 = k := by
  induction bytes generalizing k with
  | nil => exact absurd h (Nat.not_lt_zero _)
  | cons byte rest ih =>
    by_cases hbyte : byte = 10
    · subst hbyte
      rw [byteLines, if_pos rfl, length_cons] at h
      rw [lineOffset_newline, Nat.add_sub_cancel]
      cases k with
      | zero => rfl
      | succ k =>
        have hne : rest ≠ [] := by
          rintro rfl
          rw [byteLines] at h
          exact absurd h (by simp)
        have hpos := lineOffset_pos (k := k) hne
        obtain ⟨n, hn⟩ : ∃ n, lineOffset rest (k + 1) = n + 1 := ⟨_, (Nat.sub_add_cancel hpos).symm⟩
        have hcount := ih (show k < (byteLines rest).length by omega)
        rw [hn, Nat.add_sub_cancel] at hcount
        rw [hn, take_succ_cons, count_cons_self, hcount]
    · rw [lineOffset_cons hbyte, Nat.add_sub_cancel]
      rw [byteLines, if_neg hbyte] at h
      cases rest with
      | nil =>
        rw [byteLines] at h
        rw [lineOffset_nil, take_zero, count_nil]
        simp only [length_singleton] at h
        omega
      | cons next rest =>
        have hlength : k < (byteLines (next :: rest)).length := by
          cases hlines : byteLines (next :: rest) with
          | nil =>
            have hflatten := flatten_byteLines (next :: rest)
            rw [hlines] at hflatten
            cases hflatten
          | cons line lines =>
            rw [hlines] at h
            exact h
        have hpos : 0 < lineOffset (next :: rest) (k + 1) := lineOffset_pos (by simp)
        obtain ⟨n, hn⟩ : ∃ n, lineOffset (next :: rest) (k + 1) = n + 1 :=
          ⟨_, (Nat.sub_add_cancel hpos).symm⟩
        have hcount := ih hlength
        rw [hn, Nat.add_sub_cancel] at hcount
        rw [hn, take_succ_cons, count_cons_of_ne hbyte, hcount]

theorem lineOffset_min (bytes : Bytes) (k : ℕ) :
    lineOffset bytes (min k (byteLines bytes).length) = lineOffset bytes k := by
  unfold lineOffset
  rcases Nat.le_total k (byteLines bytes).length with h | h
  · rw [min_eq_left h]
  · rw [min_eq_right h, take_length, take_of_length_le h]

/-! ## The spans -/

/-- What `current_span` returns: the offsets of the lines, unless the newlines end before the first
one. -/
theorem currentSpan_eq (bytes : Bytes) (hfirst : 1 ≤ first) (hlast : first ≤ last) :
    currentSpan bytes first last =
      if first - 1 ≤ bytes.count 10 then
        .ok (lineOffset bytes (first - 1), lineOffset bytes last)
      else .error "invalid_range: first line is beyond end of file" := by
  have hstop : (scanLines first last 0 1 (if first = 1 then some 0 else none) bytes).2 =
      lineOffset bytes last := by
    rw [scanLines_stop bytes (by omega), Nat.zero_add, Nat.add_sub_cancel]
  have hstart : (scanLines first last 0 1 (if first = 1 then some 0 else none) bytes).1 =
      if first - 1 ≤ bytes.count 10 then some (lineOffset bytes (first - 1)) else none := by
    by_cases hone : first = 1
    · subst hone
      rw [if_pos rfl, if_pos (Nat.zero_le _)]
      exact scanLines_found bytes le_rfl
    · rw [if_neg hone, scanLines_start bytes hlast (by omega), Nat.zero_add]
  unfold currentSpan
  rw [if_neg (by omega)]
  generalize scanLines first last 0 1 (if first = 1 then some 0 else none) bytes = scanned at hstart hstop
  obtain ⟨start, stop⟩ := scanned
  dsimp only at hstart hstop
  subst hstart hstop
  split_ifs
  · rfl
  · rfl

/-- The span is that of the lines from the first to the last one, or to the end of the file;
`line_span` maps it back; and the span is refused only if the file has no such first line. -/
theorem currentSpan_spec (bytes : Bytes) (first last : ℕ) (hfirst : 1 ≤ first)
    (hlast : first ≤ last) :
    (∀ start stop, currentSpan bytes first last = .ok (start, stop) →
      start ≤ stop ∧
      bytes.take start = ((byteLines bytes).take (first - 1)).flatten ∧
      bytes.take stop = ((byteLines bytes).take (min last (byteLines bytes).length)).flatten ∧
      (start < stop →
        lineSpan bytes start stop = (first, min last (byteLines bytes).length))) ∧
    ∀ error, currentSpan bytes first last = .error error → (byteLines bytes).length < first := by
  rw [currentSpan_eq bytes hfirst hlast]
  refine ⟨fun start stop h => ?_, fun error h => ?_⟩
  · split_ifs at h with hcount
    · obtain ⟨rfl, rfl⟩ := Prod.mk.inj (Except.ok.inj h)
      refine ⟨lineOffset_mono bytes (by omega), take_lineOffset bytes _, ?_, fun hlt => ?_⟩
      · rw [← lineOffset_min, take_lineOffset]
      · -- the span is not empty, so the file has the first line
        have hlines : first ≤ (byteLines bytes).length := by
          by_contra hgt
          have hmin : min last (byteLines bytes).length ≤ first - 1 := by omega
          have hle := lineOffset_mono bytes hmin
          rw [lineOffset_min] at hle
          omega
        obtain ⟨k, hk⟩ : ∃ k, min last (byteLines bytes).length = k + 1 :=
          ⟨min last (byteLines bytes).length - 1, by omega⟩
        have hstop : (bytes.take (lineOffset bytes last - 1)).count 10 = k := by
          rw [← lineOffset_min, hk]
          exact count_take_lineOffset_pred (by omega)
        unfold lineSpan lineAt
        rw [if_pos hlt, count_take_lineOffset hcount, hstop, hk]
        congr 1
        · omega
        · omega
  · split_ifs at h with hcount
    have hlength := (count_le_length_byteLines bytes).2
    omega

/-- The second and third line of a file with two lines. -/
theorem currentSpan_spec_twoLines :
    lineSpan (ascii "a\nbc\n") 2 5 = (2, min 3 (byteLines (ascii "a\nbc\n")).length) :=
  ((currentSpan_spec (ascii "a\nbc\n") 2 3 (by decide) (by decide)).1 2 5 (by decide)).2.2.2
    (by decide)

end Trufflepig.Source
