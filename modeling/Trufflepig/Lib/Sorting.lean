import Trufflepig.Lib.Utf8

/-!
# Sorting by a decidable relation

* `pairwise_sortBy`: a merge sort by a total and transitive relation is sorted.
* `sortBy_of_pairwise`: sorting a sorted list does nothing.
* `sortDedup_congr`: sorted and without duplicates, a list depends only on its members.
-/

namespace Trufflepig.Lib

open List

variable {α : Type*} {r : α → α → Prop} [DecidableRel r]

theorem pairwise_sortBy (htrans : ∀ a b c, r a b → r b c → r a c) (htotal : ∀ a b, r a b ∨ r b a)
    (xs : List α) : (xs.mergeSort fun a b => r a b).Pairwise r := by
  have h := pairwise_mergeSort
    (fun a b c hab hbc => decide_eq_true (htrans a b c (of_decide_eq_true hab) (of_decide_eq_true hbc)))
    (fun a b => by simpa using htotal a b) xs
  exact h.imp fun hab => of_decide_eq_true hab

theorem sortBy_of_pairwise {xs : List α} (h : xs.Pairwise r) :
    (xs.mergeSort fun a b => r a b) = xs :=
  mergeSort_of_pairwise (h.imp fun hab => decide_eq_true hab)

/-! ## By a comparison -/

section Compare

variable {β : Type*} {c : β → β → Ordering} [Std.TransCmp c]

/-- The comparison of keys. -/
theorem transCmp_comap {γ : Type*} (c : β → β → Ordering) [Std.TransCmp c] (key : γ → β) :
    Std.TransCmp fun x y => c (key x) (key y) where
  eq_swap := Std.OrientedCmp.eq_swap
  isLE_trans := Std.TransCmp.isLE_trans

theorem swap_of_isLE {x y : β} (h : c x y = .lt) : (c y x).isLE = false := by
  rw [Std.OrientedCmp.gt_of_lt h]
  rfl

theorem isLE_total (x y : β) : ((c x y).isLE || (c y x).isLE) = true := by
  cases h : c x y with
  | lt => rfl
  | eq => rfl
  | gt =>
    rw [Std.OrientedCmp.lt_of_gt h]
    rfl

theorem pairwise_sortByCmp (xs : List β) :
    (xs.mergeSort fun x y => (c x y).isLE).Pairwise fun x y => (c x y).isLE = true :=
  pairwise_mergeSort (fun _ _ _ => Std.TransCmp.isLE_trans) isLE_total xs

/-- Of two members of a sorted list the one that is before the other in the order stands before
it. -/
theorem sublist_pair_of_lt {xs : List β}
    (hxs : xs.Pairwise fun x y => (c x y).isLE = true) {x y : β} (hx : x ∈ xs) (hy : y ∈ xs)
    (hlt : c x y = .lt) : [x, y].Sublist xs := by
  obtain ⟨before, after, rfl⟩ := append_of_mem hx
  rcases mem_append.mp hy with hbefore | hafter
  · have hle := (pairwise_append.mp hxs).2.2 y hbefore x mem_cons_self
    rw [swap_of_isLE hlt] at hle
    exact nomatch hle
  · rcases mem_cons.mp hafter with rfl | hafter
    · have hrefl : c y y = .eq := Std.ReflCmp.compare_self
      rw [hrefl] at hlt
      exact nomatch hlt
    · exact (List.Sublist.cons_cons x (singleton_sublist.mpr hafter)).trans
        (sublist_append_right ..)

/-- A list in strict order is what sorting makes of each of its arrangements. -/
theorem sortByCmp_eq_of_perm {xs ys : List β} (hperm : xs.Perm ys)
    (hys : ys.Pairwise fun x y => c x y = .lt) :
    (xs.mergeSort fun x y => (c x y).isLE) = ys := by
  have hle : ys.Pairwise fun x y => (c x y).isLE = true := hys.imp fun h => by rw [h]; rfl
  refine List.Perm.eq_of_pairwise ?_ (pairwise_sortByCmp xs) hle ((mergeSort_perm _ _).trans hperm)
  intro x y hx hy hxy hyx
  have heq := Std.OrientedCmp.isLE_antisymm hxy hyx
  have hx' : x ∈ ys := hperm.mem_iff.mp ((mergeSort_perm _ _).mem_iff.mp hx)
  obtain ⟨before, after, rfl⟩ := append_of_mem hx'
  rcases mem_append.mp hy with hbefore | hafter
  · have hlt := (pairwise_append.mp hys).2.2 y hbefore x mem_cons_self
    rw [Std.OrientedCmp.eq_symm heq] at hlt
    exact nomatch hlt
  · rcases mem_cons.mp hafter with rfl | hafter
    · rfl
    · have hlt := (pairwise_cons.mp (pairwise_append.mp hys).2.1).1 y hafter
      rw [heq] at hlt
      exact nomatch hlt

end Compare

theorem bytes_le_trans (a b c : Bytes) (hab : a ≤ b) (hbc : b ≤ c) : a ≤ c := List.le_trans hab hbc

theorem bytes_le_total (a b : Bytes) : a ≤ b ∨ b ≤ a := List.le_total a b

theorem compare_bytes_eq_lt {a b : Bytes} : compare a b = .lt ↔ a < b := by
  induction a generalizing b with
  | nil =>
    cases b with
    | nil => exact iff_of_false (fun h => nomatch h) (List.lt_irrefl [])
    | cons y ys => exact iff_of_true rfl (nil_lt_cons y ys)
  | cons x xs ih =>
    cases b with
    | nil => exact iff_of_false (fun h => nomatch h) (not_lt_nil _)
    | cons y ys =>
      rw [List.compare_cons_cons, cons_lt_cons_iff, ← ih, Ordering.then_eq_lt,
        Std.compare_eq_lt, Std.compare_eq_iff_eq]

instance : IsStrictTotalOrder Bytes (· < ·) where
  irrefl := List.lt_irrefl
  trans _ _ _ := List.lt_trans
  trichotomous _ _ hab hba := List.le_antisymm (List.not_lt.mp hba) (List.not_lt.mp hab)

/-! ## Without duplicates -/

section Dedup

variable {β : Type}

/-- Of equal neighbours the first is kept. -/
def dedupRuns [DecidableEq β] : List β → List β
  | [] => []
  | [a] => [a]
  | a :: b :: rest => if a = b then dedupRuns (b :: rest) else a :: dedupRuns (b :: rest)

variable {xs : List β}

theorem mem_dedupRuns [DecidableEq β] {x : β} : x ∈ dedupRuns xs ↔ x ∈ xs := by
  fun_induction dedupRuns xs with
  | case1 => exact Iff.rfl
  | case2 => exact Iff.rfl
  | case3 b rest ih =>
    rw [ih, mem_cons, mem_cons, mem_cons]
    tauto
  | case4 a b rest hne ih => rw [mem_cons, ih, mem_cons, mem_cons, mem_cons]

variable [LinearOrder β]

theorem pairwise_dedupRuns (h : xs.Pairwise (· ≤ ·)) : (dedupRuns xs).Pairwise (· < ·) := by
  fun_induction dedupRuns xs with
  | case1 => exact List.Pairwise.nil
  | case2 => exact pairwise_singleton _ _
  | case3 b rest ih => exact ih (pairwise_cons.mp h).2
  | case4 a b rest hne ih =>
    obtain ⟨ha, hrest⟩ := pairwise_cons.mp h
    refine pairwise_cons.mpr ⟨fun x hx => ?_, ih hrest⟩
    have hab : a < b := lt_of_le_of_ne (ha b mem_cons_self) hne
    rcases mem_cons.mp (mem_dedupRuns.mp hx) with rfl | hx
    · exact hab
    · exact hab.trans_le ((pairwise_cons.mp hrest).1 x hx)

/-- Sorted and without duplicates. -/
def sortDedup (xs : List β) : List β := dedupRuns (xs.insertionSort (· ≤ ·))

theorem mem_sortDedup {x : β} : x ∈ sortDedup xs ↔ x ∈ xs := by
  rw [sortDedup, mem_dedupRuns, mem_insertionSort]

theorem pairwise_sortDedup (xs : List β) : (sortDedup xs).Pairwise (· < ·) :=
  pairwise_dedupRuns (pairwise_insertionSort _ xs)

/-- The list depends only on the members. -/
theorem sortDedup_congr {ys : List β} (h : ∀ x, x ∈ xs ↔ x ∈ ys) :
    sortDedup xs = sortDedup ys :=
  (pairwise_sortDedup xs).eq_of_mem_iff (pairwise_sortDedup ys) fun x => by
    rw [mem_sortDedup, mem_sortDedup, h]

end Dedup

end Trufflepig.Lib
