import Trufflepig.Lib.Utf8

/-!
# Ranges of the lexicographic order that are prefixes

* `range_iff`: the texts from `v ++ [b]` up to `v ++ [c]` are those that go on after
  `v` with a byte from `b` up to `c`.
* `range_prefix_iff`: with the next byte as the bound, they are those that start with
  `v ++ [b]`.
* `range_exact_iff`: the texts from `v` up to `v ++ [c]` are `v`, and those that go on
  with a byte below `c`.
-/

namespace Trufflepig.Lib

open List

variable {v p : Bytes} {b c : UInt8}

theorem lt_append_singleton_iff :
    p < v ++ [c] ↔ p ≤ v ∨ ∃ x < c, v ++ [x] <+: p := by
  induction v generalizing p with
  | nil =>
    cases p with
    | nil => simp
    | cons y p =>
      simp [cons_lt_cons_iff]
  | cons a v ih =>
    cases p with
    | nil => simp
    | cons y p =>
      simp only [cons_append, cons_lt_cons_iff, cons_le_cons_iff, ih, cons_prefix_cons]
      constructor
      · rintro (hlt | ⟨rfl, hle | ⟨x, hx, hextends⟩⟩)
        · exact Or.inl (Or.inl hlt)
        · exact Or.inl (Or.inr ⟨rfl, hle⟩)
        · exact Or.inr ⟨x, hx, rfl, hextends⟩
      · rintro ((hlt | ⟨rfl, hle⟩) | ⟨x, hx, rfl, hextends⟩)
        · exact Or.inl hlt
        · exact Or.inr ⟨rfl, Or.inl hle⟩
        · exact Or.inr ⟨rfl, Or.inr ⟨x, hx, hextends⟩⟩

theorem lt_of_extends {x : UInt8} (h : v ++ [x] <+: p) : v < p := by
  obtain ⟨rest, rfl⟩ := h
  rw [append_assoc]
  induction v with
  | nil => exact nil_lt_cons _ _
  | cons a v ih => exact cons_lt_cons_iff.mpr (Or.inr ⟨rfl, ih⟩)

theorem extends_unique {x y : UInt8} (hx : v ++ [x] <+: p) (hy : v ++ [y] <+: p) : x = y := by
  obtain ⟨rest, rfl⟩ := hx
  rw [append_assoc, prefix_append_right_inj] at hy
  exact (cons_prefix_cons.mp hy).1.symm

/-- The texts from `v ++ [b]` up to `v ++ [c]`. -/
theorem range_iff : v ++ [b] ≤ p ∧ p < v ++ [c] ↔ ∃ x, b ≤ x ∧ x < c ∧ v ++ [x] <+: p := by
  constructor
  · rintro ⟨hlow, hhigh⟩
    have hnot : ¬ p < v ++ [b] := List.not_lt.mpr hlow
    rw [lt_append_singleton_iff, not_or, not_exists] at hnot
    rcases lt_append_singleton_iff.mp hhigh with hle | ⟨x, hx, hextends⟩
    · exact absurd hle hnot.1
    · exact ⟨x, UInt8.not_lt.mp fun hlt => hnot.2 x ⟨hlt, hextends⟩, hx, hextends⟩
  · rintro ⟨x, hlow, hhigh, hextends⟩
    refine ⟨List.not_lt.mp fun hlt => ?_, lt_append_singleton_iff.mpr (Or.inr ⟨x, hhigh, hextends⟩)⟩
    rcases lt_append_singleton_iff.mp hlt with hle | ⟨y, hy, hextends'⟩
    · exact List.not_lt.mpr hle (lt_of_extends hextends)
    · rw [extends_unique hextends' hextends] at hy
      exact UInt8.not_lt.mpr hlow hy

/-- The texts that start with `v ++ [b]`. -/
theorem range_prefix_iff (hbc : c.toNat = b.toNat + 1) :
    v ++ [b] ≤ p ∧ p < v ++ [c] ↔ v ++ [b] <+: p := by
  rw [range_iff]
  constructor
  · rintro ⟨x, hlow, hhigh, hextends⟩
    obtain rfl : x = b := by
      rw [UInt8.le_iff_toNat_le] at hlow
      rw [UInt8.lt_iff_toNat_lt] at hhigh
      exact UInt8.toNat_inj.mp (by omega)
    exact hextends
  · intro hextends
    refine ⟨b, UInt8.le_refl b, ?_, hextends⟩
    rw [UInt8.lt_iff_toNat_lt]
    omega

/-- The texts from `v` up to `v ++ [c]`. -/
theorem range_exact_iff : v ≤ p ∧ p < v ++ [c] ↔ p = v ∨ ∃ x < c, v ++ [x] <+: p := by
  constructor
  · rintro ⟨hlow, hhigh⟩
    rcases lt_append_singleton_iff.mp hhigh with hle | hextends
    · exact Or.inl (List.le_antisymm hle hlow)
    · exact Or.inr hextends
  · rintro (rfl | ⟨x, hx, hextends⟩)
    · exact ⟨List.le_refl p, lt_append_singleton_iff.mpr (Or.inl (List.le_refl p))⟩
    · exact ⟨List.le_of_lt (lt_of_extends hextends),
        lt_append_singleton_iff.mpr (Or.inr ⟨x, hx, hextends⟩)⟩

end Trufflepig.Lib
