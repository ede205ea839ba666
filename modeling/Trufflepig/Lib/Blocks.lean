import Mathlib

/-!
# Offsets in a concatenation of blocks

* `blockOffset blocks i`: where block `i` starts in `blocks.flatten`.
* `drop_blockOffset`, `slice_blockOffset`: parts of the concatenation that start
  and end at blocks are concatenations of blocks.
* `offsetsFrom_getD`: the list of all offsets, read at an index.
* `map_slice_windows`: neighbouring offsets cut the concatenation into its blocks.
-/

namespace Trufflepig.Lib

open List

variable {α : Type*}

/-- Where block `i` starts. -/
def blockOffset (blocks : List (List α)) (i : ℕ) : ℕ := (blocks.take i).flatten.length

/-- The offsets of all blocks, the first at `a`, and the end of the last. -/
def offsetsFrom (a : ℕ) : List (List α) → List ℕ
  | [] => [a]
  | block :: blocks => a :: offsetsFrom (a + block.length) blocks

/-- The part of a list between two offsets. -/
def slice (xs : List α) (start stop : ℕ) : List α := (xs.drop start).take (stop - start)

theorem length_offsetsFrom (a : ℕ) (blocks : List (List α)) :
    (offsetsFrom a blocks).length = blocks.length + 1 := by
  induction blocks generalizing a with
  | nil => rfl
  | cons block blocks ih => rw [offsetsFrom, length_cons, ih, length_cons]

variable {i : ℕ}

theorem offsetsFrom_getD (a : ℕ) (blocks : List (List α)) (hi : i ≤ blocks.length) :
    (offsetsFrom a blocks).getD i 0 = a + blockOffset blocks i := by
  induction blocks generalizing a i with
  | nil =>
    obtain rfl : i = 0 := Nat.le_zero.mp hi
    simp [offsetsFrom, blockOffset]
  | cons block blocks ih =>
    cases i with
    | zero => simp [offsetsFrom, blockOffset]
    | succ i =>
      have hi' : i ≤ blocks.length := Nat.le_of_succ_le_succ hi
      rw [offsetsFrom, getD_cons_succ, ih _ hi']
      simp only [blockOffset, take_succ_cons, flatten_cons, length_append]
      omega

theorem blockOffset_length (blocks : List (List α)) :
    blockOffset blocks blocks.length = blocks.flatten.length := by
  rw [blockOffset, take_length]

variable {j : ℕ}

theorem blockOffset_mono (blocks : List (List α)) (h : i ≤ j) :
    blockOffset blocks i ≤ blockOffset blocks j := by
  have htake : blocks.take i = (blocks.take j).take i := by rw [take_take, min_eq_left h]
  rw [blockOffset, blockOffset, htake]
  conv_rhs => rw [← take_append_drop i (blocks.take j), flatten_append,
    length_append]
  exact Nat.le_add_right _ _

theorem drop_blockOffset (blocks : List (List α)) (i : ℕ) :
    blocks.flatten.drop (blockOffset blocks i) = (blocks.drop i).flatten := by
  conv_lhs => rw [← take_append_drop i blocks, flatten_append, blockOffset,
    take_append_drop, drop_left]

theorem slice_blockOffset (blocks : List (List α)) (h : i ≤ j) :
    slice blocks.flatten (blockOffset blocks i) (blockOffset blocks j) =
      (slice blocks i j).flatten := by
  have hsplit : blocks.take j = blocks.take i ++ (blocks.drop i).take (j - i) := by
    rw [← take_add, Nat.add_sub_cancel' h]
  have hlen : blockOffset blocks j - blockOffset blocks i =
      ((blocks.drop i).take (j - i)).flatten.length := by
    rw [blockOffset, blockOffset, hsplit, flatten_append, length_append, Nat.add_sub_cancel_left]
  rw [slice, drop_blockOffset, hlen, slice]
  conv_lhs => rw [← take_append_drop (j - i) (blocks.drop i), flatten_append,
    take_append_drop, take_left]

/-- What starts at `i` is the slice up to `j` and what starts at `j`. -/
theorem slice_append_drop (xs : List α) (h : i ≤ j) :
    slice xs i j ++ xs.drop j = xs.drop i := by
  rw [slice]
  conv_rhs => rw [← take_append_drop (j - i) (xs.drop i), drop_drop,
    Nat.add_sub_cancel' h]

theorem slice_getElem? (xs : List α) (i j t : ℕ) :
    (slice xs i j)[t]? = if t < j - i then xs[i + t]? else none := by
  rw [slice, getElem?_take, getElem?_drop]

theorem length_slice (xs : List α) (hj : j ≤ xs.length) : (slice xs i j).length = j - i := by
  rw [slice, length_take, length_drop]
  omega

/-! ## Windows of offsets -/

/-- The pairs of neighbours. -/
def windows {β : Type*} (xs : List β) : List (β × β) := xs.zip xs.tail

theorem windows_cons_cons {β : Type*} (a b : β) (xs : List β) :
    windows (a :: b :: xs) = (a, b) :: windows (b :: xs) := rfl

theorem offsetsFrom_eq_cons (a : ℕ) (blocks : List (List α)) :
    ∃ rest, offsetsFrom a blocks = a :: rest := by
  cases blocks with
  | nil => exact ⟨[], rfl⟩
  | cons block blocks => exact ⟨_, rfl⟩

theorem windows_offsetsFrom_cons (a : ℕ) (block : List α) (blocks : List (List α)) :
    windows (offsetsFrom a (block :: blocks)) =
      (a, a + block.length) :: windows (offsetsFrom (a + block.length) blocks) := by
  obtain ⟨rest, hrest⟩ := offsetsFrom_eq_cons (a + block.length) blocks
  rw [offsetsFrom, hrest, windows_cons_cons]

/-- The windows of the offsets cut the concatenation into its blocks. -/
theorem map_slice_windows (before : List α) (blocks : List (List α)) :
    (windows (offsetsFrom before.length blocks)).map
        (fun w => slice (before ++ blocks.flatten) w.1 w.2) = blocks := by
  induction blocks generalizing before with
  | nil => rfl
  | cons block blocks ih =>
    have hhead : slice (before ++ (block :: blocks).flatten) before.length
        (before.length + block.length) = block := by
      rw [slice, drop_left, flatten_cons, Nat.add_sub_cancel_left, take_left]
    have ih := ih (before ++ block)
    rw [length_append, append_assoc, ← flatten_cons] at ih
    rw [windows_offsetsFrom_cons, map_cons, ih, hhead]

theorem windows_lt (a : ℕ) {blocks : List (List α)} (h : ∀ block ∈ blocks, block ≠ []) :
    ∀ w ∈ windows (offsetsFrom a blocks), w.1 < w.2 := by
  induction blocks generalizing a with
  | nil => intro w hw; cases hw
  | cons block blocks ih =>
    intro w hw
    rw [windows_offsetsFrom_cons] at hw
    rcases mem_cons.mp hw with rfl | hw
    · have := length_pos_of_ne_nil (h block mem_cons_self)
      omega
    · exact ih _ (fun b hb => h b (mem_cons_of_mem _ hb)) w hw

theorem getLast?_offsetsFrom (a : ℕ) (blocks : List (List α)) :
    (offsetsFrom a blocks).getLast? = some (a + blocks.flatten.length) := by
  induction blocks generalizing a with
  | nil => rfl
  | cons block blocks ih =>
    obtain ⟨rest, hrest⟩ := offsetsFrom_eq_cons (a + block.length) blocks
    have ih := ih (a + block.length)
    rw [hrest] at ih
    rw [offsetsFrom, hrest, getLast?_cons_cons, ih, flatten_cons, length_append, Nat.add_assoc]

end Trufflepig.Lib
