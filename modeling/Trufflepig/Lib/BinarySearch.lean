import Mathlib

/-!
# Binary search for a partition point

`partitionPoint` halves the range as the standard library of Rust does for
`partition_point`. It looks at a logarithmic number of elements, so for a list
that is not partitioned it returns some index that depends on those alone.

* `partitionPoint_eq`: in a list whose first `k` elements satisfy the predicate
  and whose others do not, it returns `k`.
* `getElem?_partitionPoint`: the element there is the first one that does not
  satisfy the predicate.

`lastPassing` halves a range of numbers for a test that may fail. Whatever the test is, a number
that it moved to has passed (`lastPassing_passes`); for a test that never passes again after it
has not, it returns the last number that passes (`lastPassing_greatest`).
-/

namespace Trufflepig.Lib

open List

variable {α : Type*}

/-- The loop on `base` and `size`, for at most `rounds` rounds. -/
def bisect (pred : α → Bool) (xs : List α) : (rounds base size : ℕ) → ℕ
  | 0, base, _ => base
  | rounds + 1, base, size =>
    if size > 1 then
      bisect pred xs rounds (if xs[base + size / 2]?.any pred then base + size / 2 else base)
        (size - size / 2)
    else base

/-- The index that the search returns. -/
def partitionPoint (pred : α → Bool) (xs : List α) : ℕ :=
  if xs.isEmpty then 0
  else if xs[bisect pred xs xs.length 0 xs.length]?.any pred then
    bisect pred xs xs.length 0 xs.length + 1
  else bisect pred xs xs.length 0 xs.length

/-- The first `k` elements satisfy the predicate, the others do not. -/
def PartitionedAt (pred : α → Bool) (xs : List α) (k : ℕ) : Prop :=
  k ≤ xs.length ∧ ∀ i, i < xs.length → (xs[i]?.any pred = true ↔ i < k)

variable {pred : α → Bool} {xs : List α}

/-- Every round keeps the partition point in the range. -/
theorem bisect_spec {k : ℕ} (h : PartitionedAt pred xs k) :
    ∀ rounds base size : ℕ, size ≤ rounds → 0 < size → base + size ≤ xs.length →
      (base < k ∨ base = 0) → k ≤ base + size →
      bisect pred xs rounds base size < xs.length ∧
        (bisect pred xs rounds base size < k ∨ bisect pred xs rounds base size = 0) ∧
        k ≤ bisect pred xs rounds base size + 1 := by
  intro rounds
  induction rounds with
  | zero => intro base size hr hs; omega
  | succ rounds ih =>
    intro base size hr hs hlen hbase hk
    rw [bisect]
    split_ifs with h1 h2
    · have hlt := (h.2 _ (by omega)).mp h2
      exact ih _ _ (by omega) (by omega) (by omega) (Or.inl hlt) (by omega)
    · have hge : ¬ base + size / 2 < k := fun hlt => h2 ((h.2 _ (by omega)).mpr hlt)
      exact ih _ _ (by omega) (by omega) (by omega) hbase (by omega)
    · exact ⟨by omega, hbase, by omega⟩

theorem partitionPoint_eq {k : ℕ} (h : PartitionedAt pred xs k) :
    partitionPoint pred xs = k := by
  unfold partitionPoint
  cases xs with
  | nil => exact (Nat.le_zero.mp h.1).symm
  | cons x xs =>
    obtain ⟨hlt, hbase, hk⟩ := bisect_spec h (x :: xs).length 0 (x :: xs).length le_rfl
      (by simp) (by omega) (Or.inr rfl) (by simpa using h.1)
    generalize bisect pred (x :: xs) (x :: xs).length 0 (x :: xs).length = base at *
    rw [if_neg (by simp)]
    have hiff := h.2 base hlt
    split_ifs with hpred
    · have := hiff.mp hpred
      omega
    · have hge : ¬ base < k := fun hlt => hpred (hiff.mpr hlt)
      omega

theorem partitionedAt_takeWhile (h : xs.Pairwise fun x y => pred y = true → pred x = true) :
    PartitionedAt pred xs (xs.takeWhile pred).length := by
  induction h with
  | nil => exact ⟨le_rfl, by simp⟩
  | @cons x xs hx _ ih =>
    by_cases hp : pred x = true
    · rw [takeWhile_cons_of_pos hp]
      refine ⟨Nat.succ_le_succ ih.1, fun i hi => ?_⟩
      cases i with
      | zero => simp [hp]
      | succ i => simpa using ih.2 i (by simpa using hi)
    · rw [takeWhile_cons_of_neg hp]
      refine ⟨Nat.zero_le _, fun i hi => ?_⟩
      cases i with
      | zero => simp [hp]
      | succ i =>
        have hi' : i < xs.length := by simpa using hi
        have hmem : xs[i] ∈ xs := getElem_mem hi'
        have hne : ¬ pred xs[i] = true := fun hpred => hp (hx _ hmem hpred)
        simpa [getElem?_eq_getElem hi'] using hne

/-- In a list where the predicate never comes back, the search ends at the first
element that does not satisfy it. -/
theorem getElem?_partitionPoint (h : xs.Pairwise fun x y => pred y = true → pred x = true) :
    xs[partitionPoint pred xs]? = xs.find? fun x => !pred x := by
  rw [partitionPoint_eq (partitionedAt_takeWhile h)]
  clear h
  induction xs with
  | nil => rfl
  | cons x xs ih =>
    by_cases hp : pred x = true
    · rw [takeWhile_cons_of_pos hp, find?_cons_of_neg (by simp [hp])]
      simpa using ih
    · rw [takeWhile_cons_of_neg hp, find?_cons_of_pos (by simp [hp])]
      rfl

/-! ## The last number that passes a test -/

variable {ε : Type*}

/-- The loop on `low` and `high`, rounding up. -/
def lastPassing (test : ℕ → Except ε Bool) (low high : ℕ) : Except ε ℕ :=
  if low < high then
    match test (low + (high - low + 1) / 2) with
    | .error e => .error e
    | .ok true => lastPassing test (low + (high - low + 1) / 2) high
    | .ok false => lastPassing test low (low + (high - low + 1) / 2 - 1)
  else .ok low
termination_by high - low

variable {test : ℕ → Except ε Bool} {low high : ℕ}

theorem lastPassing_le {n : ℕ} (h : lastPassing test low high = .ok n) (hle : low ≤ high) :
    low ≤ n ∧ n ≤ high := by
  fun_induction lastPassing test low high with
  | case1 => exact nomatch h
  | case2 low high hlt _ ih =>
    have hbounds := ih h (by omega)
    omega
  | case3 low high hlt _ ih =>
    have hbounds := ih h (by omega)
    omega
  | case4 low high hlt =>
    obtain rfl := Except.ok.inj h
    omega

/-- A number other than the first one was tested. -/
theorem lastPassing_passes {n : ℕ} (h : lastPassing test low high = .ok n) :
    n = low ∨ test n = .ok true := by
  fun_induction lastPassing test low high with
  | case1 => exact nomatch h
  | case2 low high hlt hpass ih =>
    rcases ih h with rfl | hn
    · exact .inr hpass
    · exact .inr hn
  | case3 low high hlt hfail ih => exact ih h
  | case4 => exact .inl (Except.ok.inj h).symm

/-- With a test that answers, and passes up to some number only, the search finds the number. -/
theorem lastPassing_greatest (pass : ℕ → Bool)
    (htest : ∀ k, low < k → k ≤ high → test k = .ok (pass k))
    (hmono : ∀ j k, low < j → j ≤ k → k ≤ high → pass k = true → pass j = true) (hle : low ≤ high) :
    ∃ n, lastPassing test low high = .ok n ∧
      ∀ k, low < k → k ≤ high → (pass k = true ↔ k ≤ n) := by
  fun_induction lastPassing test low high with
  | case1 low high hlt e herror =>
    rw [htest _ (by omega) (by omega)] at herror
    exact nomatch herror
  | case2 low high hlt hpass ih =>
    rw [htest _ (by omega) (by omega), Except.ok.injEq] at hpass
    obtain ⟨n, hn, hiff⟩ := ih (fun k hk => htest k (by omega))
      (fun j k hj => hmono j k (by omega)) (by omega)
    refine ⟨n, hn, fun k hk hkhigh => ?_⟩
    rcases Nat.lt_or_ge (low + (high - low + 1) / 2) k with hmid | hmid
    · exact hiff k hmid hkhigh
    · have hbounds := lastPassing_le hn (by omega)
      exact iff_of_true (hmono k _ hk hmid (by omega) hpass) (by omega)
  | case3 low high hlt hfail ih =>
    rw [htest _ (by omega) (by omega), Except.ok.injEq] at hfail
    obtain ⟨n, hn, hiff⟩ := ih (fun k hk hkhigh => htest k hk (by omega))
      (fun j k hj hjk hk => hmono j k hj hjk (by omega)) (by omega)
    refine ⟨n, hn, fun k hk hkhigh => ?_⟩
    rcases Nat.lt_or_ge k (low + (high - low + 1) / 2) with hmid | hmid
    · exact hiff k hk (by omega)
    · have hbounds := lastPassing_le hn (by omega)
      refine iff_of_false (fun hpass => ?_) (by omega)
      rw [hmono _ k (by omega) hmid hkhigh hpass] at hfail
      exact nomatch hfail
  | case4 low high hnot => exact ⟨low, rfl, fun k hk hkhigh => by omega⟩

end Trufflepig.Lib
