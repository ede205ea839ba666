import Mathlib

/-!
# Chains of a partial function

A partial function `next` takes an element to the one after it. From `a` it gives
a chain, which ends where `next` is undefined.

* `nth_add`: a chain that is left and taken up again goes on as it would have.
* `getElem?_segment`: the first `n` elements of a chain, as a list.
* `nth_injective`: along a decreasing rank no element comes twice.
-/

namespace Trufflepig.Lib

variable {α : Type*} (next : α → Option α)

/-- The `i`-th element of the chain from `a`. -/
def nth (a : α) : ℕ → Option α
  | 0 => some a
  | i + 1 => (nth a i).bind next

/-- The first elements of the chain from `a`, at most `n`. -/
def segment (a : α) : ℕ → List α
  | 0 => []
  | n + 1 =>
    a :: match next a with
      | none => []
      | some b => segment b n

variable {next}

theorem nth_add (a : α) (i j : ℕ) : nth next a (i + j) = (nth next a i).bind (nth next · j) := by
  induction j with
  | zero => simp [nth]
  | succ j ih =>
    show (nth next a (i + j)).bind next = _
    rw [ih, Option.bind_assoc]
    rfl

theorem nth_succ' (a : α) (i : ℕ) : nth next a (i + 1) = (next a).bind (nth next · i) := by
  rw [Nat.add_comm, nth_add]
  rfl

/-- A chain has every element before one that it has. -/
theorem isSome_nth_of_le {a : α} {i j : ℕ} (hij : i ≤ j) (h : (nth next a j).isSome) :
    (nth next a i).isSome := by
  obtain ⟨k, rfl⟩ := Nat.exists_eq_add_of_le hij
  rw [nth_add] at h
  cases hi : nth next a i with
  | none => simp [hi] at h
  | some b => rfl

theorem getElem?_segment (a : α) (n i : ℕ) :
    (segment next a n)[i]? = if i < n then nth next a i else none := by
  induction n generalizing a i with
  | zero => simp [segment]
  | succ n ih =>
    cases i with
    | zero => simp [segment, nth]
    | succ i =>
      rw [nth_succ', segment, List.getElem?_cons_succ]
      cases hnext : next a with
      | none => simp
      | some b => simp [ih]

theorem lt_length_segment {a : α} {n i : ℕ} :
    i < (segment next a n).length ↔ i < n ∧ (nth next a i).isSome := by
  have hget : i < (segment next a n).length ↔ ((segment next a n)[i]?).isSome := by simp
  rw [hget, getElem?_segment]
  split_ifs with hi <;> simp [hi]

/-- No element comes twice if a rank decreases along the chain. -/
theorem nth_injective {rank : α → ℕ} (hrank : ∀ a b, next a = some b → rank b < rank a)
    {a x : α} {i j : ℕ} (hi : nth next a i = some x) (hj : nth next a j = some x) : i = j := by
  have hdecreases : ∀ {a b : α} {k : ℕ}, nth next a (k + 1) = some b → rank b < rank a := by
    intro a b k
    induction k generalizing b with
    | zero => exact fun h => hrank a b h
    | succ k ih =>
      intro h
      obtain ⟨c, hc, hb⟩ := Option.bind_eq_some_iff.mp h
      have := hrank c b hb
      have := ih hc
      omega
  have hlt : ∀ {i j : ℕ}, nth next a i = some x → nth next a j = some x → ¬ i < j := by
    intro i j hi hj hlt
    obtain ⟨k, rfl⟩ := Nat.exists_eq_add_of_lt hlt
    rw [Nat.add_assoc, nth_add, hi] at hj
    exact Nat.lt_irrefl _ (hdecreases hj)
  have := hlt hi hj
  have := hlt hj hi
  omega

end Trufflepig.Lib
