import Trufflepig.History.SourceDiff

/-!
# Lines and their offsets

`line_offsets` finds the lines that the diff library is given as tokens: a line
ends after its newline, and the last one at the end of the source.

* `lineOffsets_eq`: the offsets are those of the tokens in their concatenation,
  which is the source (`flatten_byteLines`).
-/

namespace Trufflepig.History

open List Lib

theorem flatten_byteLines (source : Bytes) : (byteLines source).flatten = source := by
  induction source with
  | nil => rfl
  | cons b rest ih =>
    rw [byteLines]
    split_ifs with hb
    · rw [flatten_cons, ih]
      rfl
    · cases hrest : byteLines rest with
      | nil =>
        rw [hrest] at ih
        rw [← ih]
        rfl
      | cons line lines =>
        rw [hrest] at ih
        rw [← ih]
        rfl

theorem byteLines_ne_nil (source : Bytes) : ∀ line ∈ byteLines source, line ≠ [] := by
  induction source with
  | nil => simp [byteLines]
  | cons b rest ih =>
    intro line hline
    rw [byteLines] at hline
    split_ifs at hline with hb
    · rcases mem_cons.mp hline with rfl | hline
      · exact cons_ne_nil _ _
      · exact ih line hline
    · cases hrest : byteLines rest with
      | nil =>
        rw [hrest, mem_singleton] at hline
        simp [hline]
      | cons first lines =>
        rw [hrest] at hline ih
        rcases mem_cons.mp hline with rfl | hline
        · exact cons_ne_nil _ _
        · exact ih line (mem_cons_of_mem _ hline)

/-- `offsets`, with the end of the source unless it is the last offset already. -/
def closeOffsets (offsets : List ℕ) (stop : ℕ) : List ℕ :=
  if offsets.getLast? ≠ some stop then offsets ++ [stop] else offsets

theorem closeOffsets_cons (a b : ℕ) (offsets : List ℕ) (stop : ℕ) :
    closeOffsets (a :: b :: offsets) stop = a :: closeOffsets (b :: offsets) stop := by
  unfold closeOffsets
  rw [getLast?_cons_cons]
  split_ifs
  · rfl
  · rfl

theorem closeOffsets_newlineEnds (start : ℕ) (source : Bytes) :
    closeOffsets (start :: newlineEnds start source) (start + source.length) =
      offsetsFrom start (byteLines source) := by
  induction source generalizing start with
  | nil => simp [closeOffsets, newlineEnds, byteLines, offsetsFrom]
  | cons b rest ih =>
    have hlen : start + (b :: rest).length = start + 1 + rest.length := by
      rw [length_cons]
      omega
    rw [hlen]
    by_cases hb : b = 10
    · have hends : newlineEnds start (b :: rest) = (start + 1) :: newlineEnds (start + 1) rest := by
        simp [newlineEnds, hb]
      rw [hends, closeOffsets_cons, ih, byteLines, if_pos hb]
      rfl
    · have hends : newlineEnds start (b :: rest) = newlineEnds (start + 1) rest := by
        simp [newlineEnds, hb]
      rw [hends, byteLines, if_neg hb]
      have ih := ih (start + 1)
      -- the line that starts here is the one that starts at the next byte, if any
      cases hnewlines : newlineEnds (start + 1) rest with
      | nil =>
        rw [hnewlines] at ih
        cases hlines : byteLines rest with
        | nil =>
          have hrest : rest = [] := by rw [← flatten_byteLines rest, hlines]; rfl
          subst hrest
          simp [closeOffsets, offsetsFrom]
        | cons line lines =>
          rw [hlines] at ih
          have hpos : 0 < rest.length := by
            by_contra hzero
            have : rest = [] := length_eq_zero_iff.mp (by omega)
            subst this
            cases hlines
          have hlast : ∀ a, a ≤ start + 1 → [a].getLast? ≠ some (start + 1 + rest.length) := by
            intro a ha h
            have : a = start + 1 + rest.length := Option.some.inj h
            omega
          rw [closeOffsets, if_pos (hlast _ le_rfl)] at ih
          rw [closeOffsets, if_pos (hlast _ (Nat.le_succ start))]
          simp only [offsetsFrom, cons_append, nil_append, List.cons.injEq, true_and,
            length_cons] at ih ⊢
          rw [ih, show start + (line.length + 1) = start + 1 + line.length by omega]
      | cons first more =>
        rw [hnewlines, closeOffsets_cons] at ih
        rw [closeOffsets_cons]
        cases hlines : byteLines rest with
        | nil =>
          have hrest : rest = [] := by rw [← flatten_byteLines rest, hlines]; rfl
          subst hrest
          cases hnewlines
        | cons line lines =>
          rw [hlines] at ih
          simp only [offsetsFrom, List.cons.injEq, true_and, length_cons] at ih ⊢
          rw [ih, show start + (line.length + 1) = start + 1 + line.length by omega]

/-- `line_offsets` are the offsets of the lines in their concatenation. -/
theorem lineOffsets_eq (source : Bytes) :
    lineOffsets source = offsetsFrom 0 (byteLines source) := by
  rw [← closeOffsets_newlineEnds, Nat.zero_add]
  rfl

/-! ## Lines by their offsets -/

/-- The number of lines. -/
def lineCount (source : Bytes) : ℕ := (lineOffsets source).length - 1

/-- Where a line starts; after the last line, the length of the source. -/
def lineOffset (source : Bytes) (line : ℕ) : ℕ := (lineOffsets source).getD line 0

/-- The bytes of a line, with its terminator. -/
def lineBytes (source : Bytes) (line : ℕ) : Bytes :=
  slice source (lineOffset source line) (lineOffset source (line + 1))

theorem lineCount_eq (source : Bytes) : lineCount source = (byteLines source).length := by
  rw [lineCount, lineOffsets_eq, length_offsetsFrom, Nat.add_sub_cancel]

theorem lineOffset_eq (source : Bytes) {line : ℕ} (h : line ≤ (byteLines source).length) :
    lineOffset source line = blockOffset (byteLines source) line := by
  rw [lineOffset, lineOffsets_eq, offsetsFrom_getD _ _ h, Nat.zero_add]

theorem lineBytes_eq (source : Bytes) {line : ℕ} (h : line < (byteLines source).length) :
    some (lineBytes source line) = (byteLines source)[line]? := by
  rw [lineBytes, lineOffset_eq source (le_of_lt h), lineOffset_eq source h]
  nth_rewrite 1 [← flatten_byteLines source]
  rw [slice_blockOffset _ (Nat.le_succ line), getElem?_eq_getElem h, slice,
    Nat.succ_eq_add_one, Nat.add_sub_cancel_left, take_one_drop_eq_of_lt_length h]
  simp

end Trufflepig.History
