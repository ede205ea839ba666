import Mathlib

/-!
# Prefix codes

A code writes each symbol as a word that starts no other symbol's word. A text of such words
is read in one way only, so one text is the start of another exactly when its symbols are
(`PrefixCode.flatMap_prefix_iff`). A text that begins with a letter of its own, one that
stands for a symbol and is in no other word, occurs inside another exactly when its symbols do
(`PrefixCode.flatMap_infix_iff`): it cannot begin in the middle of a word.
-/

namespace Trufflepig.Lib

open List

variable {α β : Type*}

structure PrefixCode (code : α → List β) : Prop where
  ne_nil : ∀ a, code a ≠ []
  unique : ∀ a b, code a <+: code b → a = b

namespace PrefixCode

variable {code : α → List β}

theorem head_eq (h : PrefixCode code) {a b : α} {xs ys : List β}
    (heq : code a ++ xs <+: code b ++ ys) : a = b := by
  have ha : code a <+: code b ++ ys := (prefix_append _ _).trans heq
  rcases prefix_or_prefix_of_prefix ha (prefix_append _ _) with hab | hba
  · exact h.unique a b hab
  · exact (h.unique b a hba).symm

theorem flatMap_prefix_iff (h : PrefixCode code) {xs ys : List α} :
    xs.flatMap code <+: ys.flatMap code ↔ xs <+: ys := by
  induction xs generalizing ys with
  | nil => simp
  | cons a xs ih =>
    cases ys with
    | nil => simp [h.ne_nil a]
    | cons b ys =>
      rw [flatMap_cons, flatMap_cons]
      constructor
      · intro hprefix
        obtain rfl := h.head_eq hprefix
        rw [prefix_append_right_inj, ih] at hprefix
        exact (prefix_cons_inj a).mpr hprefix
      · intro hprefix
        obtain ⟨rfl, htail⟩ := cons_prefix_cons.mp hprefix
        rw [prefix_append_right_inj, ih]
        exact htail

end PrefixCode

/-- A text does not begin in a word without its first letter. -/
theorem cons_infix_append_iff {c : β} {t w s : List β} (hc : c ∉ w) :
    c :: t <:+: w ++ s ↔ c :: t <:+: s := by
  induction w with
  | nil => rfl
  | cons d w ih =>
    rw [mem_cons, not_or] at hc
    rw [cons_append, infix_cons_iff, ih hc.2, or_iff_right]
    intro hprefix
    exact hc.1 (cons_prefix_cons.mp hprefix).1

theorem PrefixCode.flatMap_infix_iff {code : α → List β} (h : PrefixCode code) {a : α} {c : β}
    (ha : code a = [c]) (hc : ∀ b, c ∈ code b → b = a) {xs ys : List α} :
    (a :: xs).flatMap code <:+: ys.flatMap code ↔ a :: xs <:+: ys := by
  induction ys with
  | nil => simp [ha]
  | cons b ys ih =>
    rw [infix_cons_iff, ← h.flatMap_prefix_iff, ← ih]
    by_cases hb : b = a
    · subst hb
      rw [flatMap_cons, flatMap_cons, ha]
      exact infix_cons_iff
    · have hmem : c ∉ code b := fun hmem => hb (hc b hmem)
      have hprefix : ¬ (a :: xs).flatMap code <+: (b :: ys).flatMap code :=
        fun hprefix => hb (h.head_eq hprefix).symm
      rw [or_iff_right hprefix, flatMap_cons, flatMap_cons, ha]
      exact cons_infix_append_iff hmem

end Trufflepig.Lib
