import Mathlib

/-!
# Edit distance

The distance of two lists is the least number of insertions, deletions and substitutions that turn
one into the other.

* `isLeast_distance`: the recursion over the heads of two lists gives it.
-/

namespace Trufflepig.Lib

open List

variable {α : Type*}

/-- An insertion, deletion or substitution at one place. -/
inductive Edit : List α → List α → Prop where
  | insert (before after : List α) (x : α) : Edit (before ++ after) (before ++ x :: after)
  | delete (before after : List α) (x : α) : Edit (before ++ x :: after) (before ++ after)
  | substitute (before after : List α) (x y : α) : Edit (before ++ x :: after) (before ++ y :: after)

/-- So many edits one after the other. -/
inductive Edits : ℕ → List α → List α → Prop where
  | refl (xs : List α) : Edits 0 xs xs
  | step {n : ℕ} {xs ys zs : List α} : Edit xs ys → Edits n ys zs → Edits (n + 1) xs zs

variable {n : ℕ} {xs ys : List α}

theorem Edit.cons (h : Edit xs ys) (x : α) : Edit (x :: xs) (x :: ys) := by
  cases h with
  | insert before after y => exact .insert (x :: before) after y
  | delete before after y => exact .delete (x :: before) after y
  | substitute before after y z => exact .substitute (x :: before) after y z

theorem Edits.cons (h : Edits n xs ys) (x : α) : Edits n (x :: xs) (x :: ys) := by
  induction h with
  | refl => exact .refl _
  | step h _ ih => exact .step (h.cons x) ih

theorem Edit.reverse (h : Edit xs ys) : Edit xs.reverse ys.reverse := by
  cases h with
  | insert before after x => simpa using Edit.insert after.reverse before.reverse x
  | delete before after x => simpa using Edit.delete after.reverse before.reverse x
  | substitute before after x y => simpa using Edit.substitute after.reverse before.reverse x y

theorem Edits.reverse (h : Edits n xs ys) : Edits n xs.reverse ys.reverse := by
  induction h with
  | refl => exact .refl _
  | step h _ ih => exact .step h.reverse ih

theorem edits_reverse_iff : Edits n xs.reverse ys.reverse ↔ Edits n xs ys :=
  ⟨fun h => by simpa using h.reverse, Edits.reverse⟩

variable [DecidableEq α]

/-- The distance by recursion over the heads. -/
def distance : List α → List α → ℕ
  | [], ys => ys.length
  | x :: xs, [] => xs.length + 1
  | x :: xs, y :: ys =>
    min (min (distance xs ys + if x = y then 0 else 1) (distance xs (y :: ys) + 1))
      (distance (x :: xs) ys + 1)

theorem distance_nil_right (xs : List α) : distance xs [] = xs.length := by
  cases xs with
  | nil => rw [distance]
  | cons x xs => rw [distance, length_cons]

theorem edits_distance (xs ys : List α) : Edits (distance xs ys) xs ys := by
  induction xs, ys using distance.induct with
  | case1 ys =>
    rw [distance]
    induction ys with
    | nil => exact .refl _
    | cons y ys ih => exact .step (.insert [] [] y) (ih.cons y)
  | case2 x xs =>
    rw [distance]
    induction xs generalizing x with
    | nil => exact .step (.delete [] [] x) (.refl _)
    | cons x' xs ih => exact .step (.delete [] (x' :: xs) x) (ih x')
  | case3 x xs y ys hboth hdelete hinsert =>
    rw [distance]
    rcases min_choice (min (distance xs ys + if x = y then 0 else 1) (distance xs (y :: ys) + 1))
      (distance (x :: xs) ys + 1) with hmin | hmin
    · rw [hmin]
      rcases min_choice (distance xs ys + if x = y then 0 else 1) (distance xs (y :: ys) + 1)
        with hmin | hmin
      · rw [hmin]
        split_ifs with heq
        · rw [heq]
          exact hboth.cons y
        · exact .step (.substitute [] xs x y) (hboth.cons y)
      · rw [hmin]
        exact .step (.delete [] xs x) hdelete
    · rw [hmin]
      exact .step (.insert [] (x :: xs) y) (hinsert.cons y)

theorem distance_cons_right (xs ys : List α) (y : α) : distance xs (y :: ys) ≤ distance xs ys + 1 := by
  cases xs with
  | nil => simp [distance]
  | cons x xs =>
    rw [distance]
    omega

/-- An edit behind a common start changes the distances by one at most. -/
theorem distance_append {u v : List α} (h : ∀ zs, distance u zs ≤ distance v zs + 1)
    (before zs : List α) : distance (before ++ u) zs ≤ distance (before ++ v) zs + 1 := by
  induction before generalizing zs with
  | nil => exact h zs
  | cons b before ihb =>
    induction zs with
    | nil =>
      have := ihb []
      simp only [distance_nil_right, cons_append, length_cons] at this ⊢
      omega
    | cons z zs ihz =>
      have hboth := ihb zs
      have hdelete := ihb (z :: zs)
      simp only [cons_append, distance] at ihz ⊢
      omega

theorem distance_le_of_edit (h : Edit xs ys) (zs : List α) : distance xs zs ≤ distance ys zs + 1 := by
  cases h with
  | insert before after x =>
    refine distance_append (fun zs => ?_) before zs
    induction zs with
    | nil => simp only [distance_nil_right, length_cons]; omega
    | cons z zs ih =>
      have := distance_cons_right after zs z
      rw [distance]
      omega
  | delete before after x =>
    refine distance_append (fun zs => ?_) before zs
    cases zs with
    | nil => simp [distance_nil_right]
    | cons z zs =>
      rw [distance]
      omega
  | substitute before after x y =>
    refine distance_append (fun zs => ?_) before zs
    induction zs with
    | nil => simp [distance_nil_right]
    | cons z zs ih =>
      simp only [distance]
      split_ifs <;> omega

theorem distance_self (xs : List α) : distance xs xs = 0 := by
  induction xs with
  | nil => rw [distance]; rfl
  | cons x xs ih => simp [distance, ih]

theorem isLeast_distance (xs ys : List α) : IsLeast {n | Edits n xs ys} (distance xs ys) := by
  refine ⟨edits_distance xs ys, fun n h => ?_⟩
  induction h with
  | refl xs => exact (distance_self xs).le
  | step h _ ih => exact (distance_le_of_edit h _).trans (Nat.add_le_add_right ih 1)

end Trufflepig.Lib
