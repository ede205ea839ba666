import Mathlib

/-!
# Lists of intervals

Half-open intervals of natural numbers, given by any type `α` with its ends
`lo hi : α → ℕ`.

* `Tiles lo hi a xs b`: the intervals `xs` are consecutive and cover `[a, b)`.
* `Spaced lo hi a xs b`: the intervals `xs` are disjoint and ascending inside
  `[a, b)`, with gaps allowed.
* `Tiles.exists_mem`: a tiling covers every point; `Tiles.exists_contains`: an
  interval no tile of which cuts lies inside one tile.
-/

namespace Trufflepig.Lib

open List

variable {α β : Type*} {lo hi : α → ℕ}

/-- The intervals `xs` are consecutive, from `a` to `b`. -/
inductive Tiles (lo hi : α → ℕ) : ℕ → List α → ℕ → Prop
  | nil (a : ℕ) : Tiles lo hi a [] a
  | cons {a b : ℕ} {x : α} {xs : List α} : lo x = a → a ≤ hi x → Tiles lo hi (hi x) xs b →
      Tiles lo hi a (x :: xs) b

/-- The intervals `xs` are disjoint and ascending between `a` and `b`. -/
inductive Spaced (lo hi : α → ℕ) : ℕ → List α → ℕ → Prop
  | nil {a b : ℕ} : a ≤ b → Spaced lo hi a [] b
  | cons {a b : ℕ} {x : α} {xs : List α} : a ≤ lo x → lo x ≤ hi x → Spaced lo hi (hi x) xs b →
      Spaced lo hi a (x :: xs) b

/-! ## Tilings -/

variable {a b : ℕ} {xs : List α}

section

variable (h : Tiles lo hi a xs b)
include h

theorem Tiles.le : a ≤ b := by
  induction h with
  | nil => exact le_rfl
  | cons _ hx _ ih => exact le_trans hx ih

theorem Tiles.mem_bounds :
    ∀ x ∈ xs, a ≤ lo x ∧ lo x ≤ hi x ∧ hi x ≤ b := by
  induction h with
  | nil => simp
  | cons hlo hx ht ih =>
    intro y hy
    rcases mem_cons.mp hy with rfl | hy
    · exact ⟨hlo.ge, by omega, ht.le⟩
    · have := ih y hy
      omega

theorem Tiles.append {c : ℕ} {ys : List α} (h' : Tiles lo hi b ys c) :
    Tiles lo hi a (xs ++ ys) c := by
  induction h with
  | nil => exact h'
  | cons hlo hx _ ih => exact .cons hlo hx (ih h')

/-- A monotone map of the ends of a tiling. -/
theorem Tiles.map {f : ℕ → ℕ} (hf : ∀ i j, i ≤ j → j ≤ b → f i ≤ f j) :
    Tiles (fun x => f (lo x)) (fun x => f (hi x)) (f a) xs (f b) := by
  induction h with
  | nil => exact .nil _
  | cons hlo hx ht ih => exact .cons (by rw [hlo]) (hf _ _ hx ht.le) (ih hf)

theorem Tiles.spaced : Spaced lo hi a xs b := by
  induction h with
  | nil => exact .nil le_rfl
  | cons hlo hx _ ih => exact .cons hlo.ge (by omega) ih

/-- Every point of a tiled range lies in a tile. -/
theorem Tiles.exists_mem {i : ℕ} (hi' : a ≤ i) (hb : i < b) :
    ∃ x ∈ xs, lo x ≤ i ∧ i < hi x := by
  induction h with
  | nil => omega
  | @cons a b x xs hlo hx _ ih =>
    by_cases hlt : i < hi x
    · exact ⟨x, mem_cons_self, by omega, hlt⟩
    · obtain ⟨y, hy, h1, h2⟩ := ih (by omega) hb
      exact ⟨y, mem_cons_of_mem _ hy, h1, h2⟩

/-- A non-empty interval that no tile ends inside of lies in one tile. -/
theorem Tiles.exists_contains {i j : ℕ} (hij : i < j) (ha : a ≤ i) (hb : j ≤ b)
    (hcut : ∀ x ∈ xs, hi x ≤ i ∨ j ≤ hi x) :
    ∃ x ∈ xs, lo x ≤ i ∧ j ≤ hi x := by
  obtain ⟨x, hx, h1, h2⟩ := h.exists_mem ha (by omega)
  refine ⟨x, hx, h1, ?_⟩
  rcases hcut x hx with h3 | h3
  · omega
  · exact h3

end

/-! ## Spaced intervals -/

section

variable (h : Spaced lo hi a xs b)
include h

theorem Spaced.le : a ≤ b := by
  induction h with
  | nil h => exact h
  | cons h1 h2 _ ih => omega

theorem Spaced.mono {a' b' : ℕ} (ha : a' ≤ a) (hb : b ≤ b') :
    Spaced lo hi a' xs b' := by
  induction h generalizing a' with
  | nil h => exact .nil (by omega)
  | cons h1 h2 _ ih => exact .cons (by omega) h2 (ih le_rfl hb)

theorem Spaced.append {c : ℕ} {ys : List α} (h' : Spaced lo hi b ys c) :
    Spaced lo hi a (xs ++ ys) c := by
  induction h with
  | nil h => exact h'.mono h le_rfl
  | cons h1 h2 _ ih => exact .cons h1 h2 (ih h')

theorem Spaced.mem_bounds :
    ∀ x ∈ xs, a ≤ lo x ∧ lo x ≤ hi x ∧ hi x ≤ b := by
  induction h with
  | nil => simp
  | cons h1 h2 ht ih =>
    intro y hy
    rcases mem_cons.mp hy with rfl | hy
    · exact ⟨h1, h2, ht.le⟩
    · have := ih y hy
      omega

theorem Spaced.pairwise :
    xs.Pairwise (fun x y => hi x ≤ lo y) := by
  induction h with
  | nil => exact .nil
  | cons _ _ ht ih => exact .cons (fun y hy => (ht.mem_bounds y hy).1) ih

/-- A point lies in one interval only. -/
theorem Spaced.eq_of_contains {x y : α} {i : ℕ} (hx : x ∈ xs) (hy : y ∈ xs)
    (hix : lo x ≤ i ∧ i < hi x) (hiy : lo y ≤ i ∧ i < hi y) :
    x = y := by
  induction h with
  | nil => simp at hx
  | cons _ _ ht ih =>
    rcases mem_cons.mp hx with hx' | hx'
    · rcases mem_cons.mp hy with hy' | hy'
      · rw [hx', hy']
      · have := ht.mem_bounds y hy'
        rw [← hx'] at this
        omega
    · rcases mem_cons.mp hy with hy' | hy'
      · have := ht.mem_bounds x hx'
        rw [← hy'] at this
        omega
      · exact ih hx' hy'

/-- Replacing every interval by spaced intervals inside it. -/
theorem Spaced.flatMap {lo' hi' : β → ℕ} {f : α → List β}
    (hf : ∀ x ∈ xs, Spaced lo' hi' (lo x) (f x) (hi x)) :
    Spaced lo' hi' a (xs.flatMap f) b := by
  induction h with
  | nil h => exact .nil h
  | cons h1 h2 _ ih =>
    rw [flatMap_cons]
    have hx := hf _ mem_cons_self
    exact (hx.mono h1 le_rfl).append (ih fun y hy => hf y (mem_cons_of_mem _ hy))

/-- Intervals that are not empty and end after `c`, in a spaced list no member
of which straddles `c`, start at or after `c`. -/
theorem Spaced.dropWhile {c : ℕ} (hc : c ≤ b) (hcut : ∀ x ∈ xs, hi x ≤ c ∨ c ≤ lo x) :
    Spaced lo hi c (xs.dropWhile fun x => hi x ≤ c) b := by
  induction h with
  | nil => exact .nil hc
  | @cons a b x xs h1 h2 ht ih =>
    by_cases hx : hi x ≤ c
    · rw [dropWhile_cons_of_pos (by simpa using hx)]
      exact ih hc fun y hy => hcut y (mem_cons_of_mem _ hy)
    · rw [dropWhile_cons_of_neg (by simpa using hx)]
      rcases hcut x mem_cons_self with h3 | h3
      · omega
      · exact .cons h3 h2 ht

end

end Trufflepig.Lib
