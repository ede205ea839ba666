import Trufflepig.Lib.Select

/-!
# Stability of an order

Rows in the order of a comparison are determined by two facts: they do not go down, and rows that
compare equal stand as they stood before.

* `orderBy_eq_of_classes`: a list with both facts is what `orderBy` gives.
* `filter_orderBy`: rows may be selected before or after they are ordered.
* `orderBy_compareLex`: rows that stand in the order of a second comparison need it no more.
* `orderBy_rank`: by a rank below a bound, the rows of each rank one rank after the other.
-/

namespace Trufflepig.Lib

open List

variable {α : Type*} {c : α → α → Ordering} [Std.TransCmp c]

/-- The rows that compare equal to one. -/
def classOf (c : α → α → Ordering) (z : α) (xs : List α) : List α := xs.filter fun x => c x z = .eq

variable {xs : List α}

omit [Std.TransCmp c] in
theorem mem_classOf {z x : α} : x ∈ classOf c z xs ↔ x ∈ xs ∧ c x z = .eq := by
  rw [classOf, mem_filter, decide_eq_true_eq]

theorem pairwise_classOf (z : α) (xs : List α) :
    (classOf c z xs).Pairwise fun x y => (c x y).isLE = true := by
  apply pairwise_of_forall_mem_list
  intro x hx y hy
  have hxz : c x z = .eq := (mem_classOf.mp hx).2
  have hyz : c y z = .eq := (mem_classOf.mp hy).2
  rw [Std.TransCmp.eq_trans hxz (Std.OrientedCmp.eq_symm hyz)]
  rfl

/-- An order keeps the rows of a class as they stand. -/
theorem classOf_orderBy (z : α) (xs : List α) : classOf c z (orderBy c xs) = classOf c z xs := by
  have hsub : (classOf c z xs).Sublist (orderBy c xs) :=
    sublist_mergeSort (fun _ _ _ => Std.TransCmp.isLE_trans) isLE_total
      (pairwise_classOf z xs) filter_sublist
  have hsub' : (classOf c z xs).Sublist (classOf c z (orderBy c xs)) := by
    have h := hsub.filter fun x => decide (c x z = .eq)
    rwa [filter_eq_self.mpr fun x hx => decide_eq_true (mem_classOf.mp hx).2] at h
  have hlength : (classOf c z (orderBy c xs)).length = (classOf c z xs).length :=
    ((orderBy_perm c xs).filter _).length_eq
  exact (hsub'.eq_of_length hlength.symm).symm

variable {ys : List α}

theorem mem_iff_of_classes (h : ∀ z, classOf c z xs = classOf c z ys) (x : α) :
    x ∈ xs ↔ x ∈ ys := by
  have hx : x ∈ classOf c x xs ↔ x ∈ classOf c x ys := by rw [h x]
  have hrefl : c x x = .eq := Std.ReflCmp.compare_self
  rwa [mem_classOf, mem_classOf, and_iff_left hrefl, and_iff_left hrefl] at hx

/-- Two lists that do not go down are the same if they have the same classes. -/
theorem eq_of_classes (hxs : xs.Pairwise fun x y => (c x y).isLE = true)
    (hys : ys.Pairwise fun x y => (c x y).isLE = true) (h : ∀ z, classOf c z xs = classOf c z ys) :
    xs = ys := by
  have hrefl : ∀ x, c x x = .eq := fun x => Std.ReflCmp.compare_self
  induction xs generalizing ys with
  | nil =>
    symm
    apply eq_nil_iff_forall_not_mem.mpr
    exact fun x hx => not_mem_nil ((mem_iff_of_classes h x).mpr hx)
  | cons x xs ih =>
    cases ys with
    | nil => exact absurd ((mem_iff_of_classes h x).mp mem_cons_self) not_mem_nil
    | cons y ys =>
      obtain ⟨hx, hxs'⟩ := pairwise_cons.mp hxs
      obtain ⟨hy, hys'⟩ := pairwise_cons.mp hys
      -- each head is in the other list, so that neither is before the other
      have hle : ∀ {a b : α} {rest : List α}, (∀ z ∈ rest, (c a z).isLE = true) → b ∈ a :: rest →
          (c a b).isLE = true := by
        intro a b rest hrest hb
        rcases mem_cons.mp hb with rfl | hb
        · rw [hrefl]; rfl
        · exact hrest b hb
      have hxy : c x y = .eq := Std.OrientedCmp.isLE_antisymm
        (hle hx ((mem_iff_of_classes h y).mpr mem_cons_self))
        (hle hy ((mem_iff_of_classes h x).mp mem_cons_self))
      have hhead : x = y := by
        have hclass := h x
        have hyx : c y x = .eq := Std.OrientedCmp.eq_symm hxy
        simp only [classOf, filter_cons, hrefl, hyx, decide_true, if_true] at hclass
        exact (List.cons.inj hclass).1
      subst hhead
      have htail : ∀ z, classOf c z xs = classOf c z ys := by
        intro z
        have hclass := h z
        unfold classOf at hclass ⊢
        rw [filter_cons, filter_cons] at hclass
        by_cases hxz : c x z = .eq
        · rw [if_pos (decide_eq_true hxz), if_pos (decide_eq_true hxz)] at hclass
          exact (List.cons.inj hclass).2
        · simpa [hxz] using hclass
      rw [ih hxs' hys' htail]

theorem orderBy_eq_of_classes (hys : ys.Pairwise fun x y => (c x y).isLE = true)
    (h : ∀ z, classOf c z ys = classOf c z xs) : orderBy c xs = ys :=
  eq_of_classes (pairwise_sortByCmp xs) hys fun z => by rw [classOf_orderBy, h]

omit [Std.TransCmp c] in
theorem classOf_filter (p : α → Bool) (z : α) (xs : List α) :
    classOf c z (xs.filter p) = (classOf c z xs).filter p := by
  unfold classOf
  rw [filter_filter, filter_filter]
  exact filter_congr fun x _ => Bool.and_comm ..

/-- A list is cut as before a selection exactly if what the cut leaves is selected. -/
theorem take_filter_eq_take_iff {p : α → Bool} {n : ℕ} :
    (xs.filter p).take n = xs.take n ↔ ∀ x ∈ xs.take n, p x = true := by
  constructor
  · intro h x hx
    rw [← h] at hx
    exact (mem_filter.mp (mem_of_mem_take hx)).2
  · intro h
    induction xs generalizing n with
    | nil => rfl
    | cons x xs ih =>
      cases n with
      | zero => rfl
      | succ n =>
        rw [take_succ_cons, forall_mem_cons] at h
        rw [filter_cons_of_pos h.1, take_succ_cons, take_succ_cons, ih h.2]

theorem filter_orderBy (p : α → Bool) (xs : List α) :
    (orderBy c xs).filter p = orderBy c (xs.filter p) := by
  symm
  apply orderBy_eq_of_classes
  · exact (pairwise_sortByCmp xs).sublist filter_sublist
  · intro z
    rw [classOf_filter, classOf_filter, classOf_orderBy]

/-- A second comparison under which the rows stand already does what the order does by itself. -/
theorem orderBy_compareLex {d : α → α → Ordering} [Std.TransCmp d]
    (h : xs.Pairwise fun x y => (d x y).isLE = true) :
    orderBy (compareLex c d) xs = orderBy c xs := by
  symm
  apply orderBy_eq_of_classes
  · refine (pairwise_sortByCmp xs).imp fun {x y} hxy => ?_
    unfold compareLex at hxy
    cases hc : c x y with
    | lt => rfl
    | eq => rfl
    | gt => simp [hc] at hxy
  · intro z
    unfold classOf
    rw [filter_orderBy]
    apply mergeSort_of_pairwise
    refine (h.filter _).imp_of_mem fun {x y} hx hy hxy => ?_
    have hxz : c x z = .eq := of_decide_eq_true (mem_filter.mp hx).2
    have hyz : c y z = .eq := of_decide_eq_true (mem_filter.mp hy).2
    show ((c x y).then (d x y)).isLE = true
    rwa [Std.TransCmp.eq_trans hxz (Std.OrientedCmp.eq_symm hyz)]

theorem orderBy_take_orderBy (xs : List α) (limit : ℕ) :
    orderBy c ((orderBy c xs).take limit) = (orderBy c xs).take limit :=
  mergeSort_of_pairwise ((pairwise_sortByCmp xs).sublist (take_sublist ..))

/-! ## By a rank -/

section Rank

variable {rank : α → ℕ}

/-- The rows of a rank. -/
def ofRank (rank : α → ℕ) (t : ℕ) (xs : List α) : List α := xs.filter fun x => rank x = t

theorem mem_ofRank {t : ℕ} {x : α} {xs : List α} : x ∈ ofRank rank t xs ↔ x ∈ xs ∧ rank x = t := by
  rw [ofRank, mem_filter, decide_eq_true_eq]

theorem classOf_compareOn (z : α) (xs : List α) :
    classOf (compareOn rank) z xs = ofRank rank (rank z) xs := by
  apply filter_congr
  intro x _
  rw [decide_eq_decide]
  exact Nat.compare_eq_eq

theorem ofRank_append (k : ℕ) (xs ys : List α) :
    ofRank rank k (xs ++ ys) = ofRank rank k xs ++ ofRank rank k ys := filter_append ..

theorem ofRank_ofRank_self (k : ℕ) (xs : List α) :
    ofRank rank k (ofRank rank k xs) = ofRank rank k xs := by
  unfold ofRank
  rw [filter_filter]
  simp only [Bool.and_self]

theorem ofRank_ofRank_of_ne {k t : ℕ} (h : k ≠ t) (xs : List α) :
    ofRank rank k (ofRank rank t xs) = [] := by
  apply eq_nil_iff_forall_not_mem.mpr
  intro x hx
  obtain ⟨hx, hk⟩ := mem_ofRank.mp hx
  exact h (hk.symm.trans (mem_ofRank.mp hx).2)

/-- Of the rows of all ranks below a bound, those of one rank. -/
theorem ofRank_flatMap_range (k bound : ℕ) (xs : List α) :
    ofRank rank k ((List.range bound).flatMap fun t => ofRank rank t xs) =
      if k < bound then ofRank rank k xs else [] := by
  induction bound with
  | zero => rfl
  | succ bound ih =>
    rw [range_succ, flatMap_append, ofRank_append, ih, flatMap_singleton]
    rcases Nat.lt_trichotomy k bound with hlt | rfl | hgt
    · rw [if_pos hlt, if_pos (by omega), ofRank_ofRank_of_ne (by omega), append_nil]
    · rw [if_neg (by omega), if_pos (by omega), ofRank_ofRank_self, nil_append]
    · rw [if_neg (by omega), if_neg (by omega), ofRank_ofRank_of_ne (by omega), nil_append]

theorem orderBy_rank {bound : ℕ} {xs : List α} (h : ∀ x ∈ xs, rank x < bound) :
    orderBy (compareOn rank) xs = (List.range bound).flatMap fun t => ofRank rank t xs := by
  apply orderBy_eq_of_classes
  · rw [pairwise_flatMap]
    refine ⟨fun t _ => ?_, ?_⟩
    · apply pairwise_of_forall_mem_list
      intro x hx y hy
      show (compare (rank x) (rank y)).isLE = true
      rw [(mem_ofRank.mp hx).2, (mem_ofRank.mp hy).2, Nat.isLE_compare]
    · apply pairwise_lt_range.imp
      intro s t hst x hx y hy
      show (compare (rank x) (rank y)).isLE = true
      rw [(mem_ofRank.mp hx).2, (mem_ofRank.mp hy).2, Nat.isLE_compare]
      omega
  · intro z
    rw [classOf_compareOn, classOf_compareOn, ofRank_flatMap_range]
    split_ifs with hz
    · rfl
    · symm
      apply eq_nil_iff_forall_not_mem.mpr
      intro x hx
      obtain ⟨hmem, heq⟩ := mem_ofRank.mp hx
      have := h x hmem
      omega

end Rank

end Trufflepig.Lib
