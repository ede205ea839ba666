import Trufflepig.Lib.Sorting

/-!
# Queries for the first rows

Rows in the order of a comparison, and a heap that keeps the least elements of a stream.

* `keepLeast_spec`: the heap has the first elements of the stream in order, and has cut exactly if
  there were more than it keeps.
* `foldl_scanLeast_iff`: a scan with a flag for ties finds the element that is less than all others.
-/

namespace Trufflepig.Lib

open List

variable {α : Type*}

/-- The rows in the order of a comparison. -/
def orderBy (c : α → α → Ordering) (rows : List α) : List α :=
  rows.mergeSort fun x y => (c x y).isLE

theorem orderBy_perm (c : α → α → Ordering) (rows : List α) : (orderBy c rows).Perm rows :=
  mergeSort_perm ..

theorem mem_orderBy {c : α → α → Ordering} {rows : List α} {row : α} :
    row ∈ orderBy c rows ↔ row ∈ rows := (orderBy_perm c rows).mem_iff

theorem orderBy_eq_nil_iff {c : α → α → Ordering} {rows : List α} :
    orderBy c rows = [] ↔ rows = [] := by
  rw [← length_eq_zero_iff, (orderBy_perm c rows).length_eq, length_eq_zero_iff]

theorem orderBy_map {β : Type*} (c : β → β → Ordering) (f : α → β) (rows : List α) :
    orderBy c (rows.map f) = (orderBy (fun x y => c (f x) (f y)) rows).map f :=
  (map_mergeSort (f := f) fun _ _ _ _ => rfl).symm

/-- Rows of which no two compare equal have one order. -/
theorem orderBy_eq_of_perm {c : α → α → Ordering} [Std.TransCmp c] {rows ordered : List α}
    (hperm : rows.Perm ordered) (hordered : ordered.Pairwise fun x y => (c x y).isLE = true)
    (heq : ∀ x ∈ ordered, ∀ y ∈ ordered, c x y = .eq → x = y) : orderBy c rows = ordered := by
  refine List.Perm.eq_of_pairwise ?_ (pairwise_sortByCmp rows) hordered
    ((orderBy_perm c rows).trans hperm)
  intro x y hx hy hxy hyx
  exact heq x (hperm.mem_iff.mp (mem_orderBy.mp hx)) y hy (Std.OrientedCmp.isLE_antisymm hxy hyx)

/-! ## A bounded heap -/

/-- Takes an element out than which none is greater. -/
def dropGreatest (c : α → α → Ordering) : List α → List α
  | [] => []
  | x :: xs => if xs.all fun y => (c y x).isLE then xs else x :: dropGreatest c xs

/-- Pushes an element, and takes the greatest out if the heap is over its limit, which the flag
remembers. -/
def pushBounded (c : α → α → Ordering) (limit : ℕ) (state : List α × Bool) (x : α) :
    List α × Bool :=
  if limit < (x :: state.1).length then (dropGreatest c (x :: state.1), true)
  else (x :: state.1, state.2)

/-- A heap that is fed with a stream of elements. -/
def keepLeast (c : α → α → Ordering) (limit : ℕ) (xs : List α) : List α × Bool :=
  xs.foldl (pushBounded c limit) ([], false)

variable {c : α → α → Ordering} [Std.TransCmp c]

theorem dropGreatest_spec {xs : List α} (h : xs ≠ []) :
    ∃ greatest, (greatest :: dropGreatest c xs).Perm xs ∧
      ∀ x ∈ dropGreatest c xs, (c x greatest).isLE = true := by
  induction xs with
  | nil => exact absurd rfl h
  | cons x xs ih =>
    rw [dropGreatest]
    split_ifs with hall
    · exact ⟨x, .refl _, all_eq_true.mp hall⟩
    · have hne : xs ≠ [] := fun hnil => hall (by rw [hnil]; rfl)
      obtain ⟨greatest, hperm, hle⟩ := ih hne
      refine ⟨greatest, (List.Perm.swap ..).trans (hperm.cons x), fun y hy => ?_⟩
      rcases mem_cons.mp hy with rfl | hy
      · -- some element is not below the head, and the greatest is above it
        obtain ⟨z, hz, hzy⟩ : ∃ z ∈ xs, ¬(c z y).isLE = true := by simpa using hall
        have hyz : (c y z).isLE = true := by simpa [hzy] using isLE_total (c := c) y z
        rcases mem_cons.mp (hperm.mem_iff.mpr hz) with rfl | hz
        · exact hyz
        · exact Std.TransCmp.isLE_trans hyz (hle z hz)
      · exact hle y hy

/-- What a heap holds after some elements: as many as it can keep, none of them after one that it
has dropped. -/
structure Kept (c : α → α → Ordering) (limit : ℕ) (xs : List α) (state : List α × Bool) : Prop where
  length : state.1.length = min limit xs.length
  flag : state.2 = decide (limit < xs.length)
  dropped : ∃ dropped, (state.1 ++ dropped).Perm xs ∧
    ∀ x ∈ state.1, ∀ y ∈ dropped, (c x y).isLE = true

theorem Kept.push {limit : ℕ} {xs : List α} {state : List α × Bool} (h : Kept c limit xs state)
    (x : α) : Kept c limit (xs ++ [x]) (pushBounded c limit state x) := by
  have hlength := h.length
  obtain ⟨dropped, hperm, hle⟩ := h.dropped
  have hperm' : (x :: state.1 ++ dropped).Perm (xs ++ [x]) :=
    (hperm.cons x).trans (perm_append_singleton x xs).symm
  have htotal := hperm'.length_eq
  rw [length_append, length_append, length_cons, length_singleton] at htotal
  rw [pushBounded]
  split_ifs with hover
  · obtain ⟨greatest, hgreatest, hbelow⟩ := dropGreatest_spec (c := c) (cons_ne_nil x state.1)
    have hkept := hgreatest.length_eq
    rw [length_cons, length_cons] at hkept
    rw [length_cons] at hover
    refine ⟨?_, ?_, greatest :: dropped, ?_, fun y hy z hz => ?_⟩
    · show (dropGreatest c (x :: state.1)).length = _
      rw [length_append, length_singleton]
      omega
    · rw [length_append, length_singleton]
      exact (decide_eq_true (by omega)).symm
    · exact perm_middle.trans ((hgreatest.append_right dropped).trans hperm')
    · rcases mem_cons.mp hz with rfl | hz
      · exact hbelow y hy
      -- either the greatest was kept before, or the pushed element is the greatest
      · by_cases hold : greatest ∈ state.1
        · exact Std.TransCmp.isLE_trans (hbelow y hy) (hle greatest hold z hz)
        · have hnew : greatest = x := by
            simpa [hold] using hgreatest.mem_iff.mp mem_cons_self
          rw [hnew] at hgreatest
          exact hle y (hgreatest.cons_inv.mem_iff.mp hy) z hz
  · rw [length_cons] at hover
    have hnone : dropped = [] := eq_nil_of_length_eq_zero (by omega)
    refine ⟨?_, ?_, dropped, hperm', fun y _ z hz => by simp [hnone] at hz⟩
    · rw [length_append, length_singleton, length_cons]
      omega
    · rw [h.flag, length_append, length_singleton, decide_eq_decide]
      omega

theorem keepLeast_kept (limit : ℕ) (xs : List α) : Kept c limit xs (keepLeast c limit xs) := by
  induction xs using List.reverseRecOn with
  | nil => exact ⟨by simp [keepLeast], by simp [keepLeast], [], .refl _, fun x hx => nomatch hx⟩
  | append_singleton xs x ih =>
    rw [keepLeast, foldl_append]
    exact ih.push x

/-- The heap has the least elements of a stream of which no two compare equal. -/
theorem keepLeast_spec (limit : ℕ) (xs : List α) (heq : ∀ x ∈ xs, ∀ y ∈ xs, c x y = .eq → x = y) :
    orderBy c (keepLeast c limit xs).1 = (orderBy c xs).take limit ∧
      (keepLeast c limit xs).2 = decide (limit < xs.length) := by
  obtain ⟨hlength, hflag, dropped, hperm, hle⟩ := keepLeast_kept (c := c) limit xs
  refine ⟨?_, hflag⟩
  set kept := (keepLeast c limit xs).1
  have hboth : ((orderBy c kept) ++ (orderBy c dropped)).Perm (kept ++ dropped) :=
    (orderBy_perm c kept).append (orderBy_perm c dropped)
  have hsorted : orderBy c xs = orderBy c kept ++ orderBy c dropped := by
    refine orderBy_eq_of_perm (hboth.trans hperm).symm ?_ fun x hx y hy =>
      heq x ((hboth.trans hperm).mem_iff.mp hx) y ((hboth.trans hperm).mem_iff.mp hy)
    refine pairwise_append.mpr ⟨pairwise_sortByCmp kept, pairwise_sortByCmp dropped, ?_⟩
    exact fun x hx y hy => hle x (mem_orderBy.mp hx) y (mem_orderBy.mp hy)
  have hkept : (orderBy c kept).length = min limit xs.length := by
    rw [(orderBy_perm c kept).length_eq, hlength]
  rw [hsorted]
  by_cases hfew : limit ≤ xs.length
  · rw [take_left' (by omega)]
  · have hnone : dropped = [] := by
      have htotal := hperm.length_eq
      rw [length_append] at htotal
      exact eq_nil_of_length_eq_zero (by omega)
    rw [hnone, take_of_length_le (by simp [orderBy, hlength])]
    rw [orderBy, orderBy, mergeSort_nil, append_nil]

/-! ## The sole least element -/

section Sole

variable {κ : Type*} [LinearOrder κ] (key : α → κ) (same : α → α → Prop) [DecidableRel same]

/-- One step of a scan that has a least element so far, and whether there is another one like it. -/
def scanLeast : Option α × Bool → α → Option α × Bool
  | (some best, ambiguous), x =>
    if key best < key x then (some best, ambiguous)
    else if same best x then (some best, true)
    else (some x, false)
  | (none, _), x => (some x, false)

/-- The element is less than all others. -/
def IsSoleLeast (xs : List α) (x : α) : Prop :=
  ∃ others, xs.Perm (x :: others) ∧ ∀ y ∈ others, key x < key y

/-- The state of the scan: the elements like the least one, and those that are greater. -/
def Scanned (xs : List α) : Option α × Bool → Prop
  | (none, _) => xs = []
  | (some best, ambiguous) => ∃ ties rest, xs.Perm (best :: (ties ++ rest)) ∧
      (∀ y ∈ ties, key y = key best) ∧ (∀ y ∈ rest, key best < key y) ∧
      (ambiguous = true ↔ ties ≠ [])

variable {key same} {xs : List α} (hsame : ∀ x ∈ xs, ∀ y ∈ xs, same x y ↔ key x = key y)
include hsame

theorem scanned_foldl : Scanned key xs (xs.foldl (scanLeast key same) (none, false)) := by
  induction xs using List.reverseRecOn with
  | nil => rfl
  | append_singleton xs x ih =>
    have ih := ih fun a ha b hb => hsame a (by simp [ha]) b (by simp [hb])
    rw [foldl_append, foldl_cons, foldl_nil]
    generalize xs.foldl (scanLeast key same) (none, false) = state at ih
    match state, ih with
    | (none, _), ih =>
      obtain rfl : xs = [] := ih
      exact ⟨[], [], .refl _, by simp, by simp, by simp⟩
    | (some best, ambiguous), ⟨ties, rest, hperm, hties, hrest, hambiguous⟩ =>
      have hperm' : (xs ++ [x]).Perm (x :: best :: (ties ++ rest)) :=
        (perm_append_singleton x xs).trans (hperm.cons x)
      have hlike := hsame best (hperm'.mem_iff.mpr (by simp)) x (by simp)
      simp only [scanLeast]
      split_ifs with hlt heq
      · refine ⟨ties, x :: rest, hperm'.trans ((Perm.swap best x _).trans ?_), hties,
          forall_mem_cons.mpr ⟨hlt, hrest⟩, hambiguous⟩
        exact perm_middle.symm.cons best
      · exact ⟨x :: ties, rest, hperm'.trans (.swap best x _),
          forall_mem_cons.mpr ⟨(hlike.mp heq).symm, hties⟩, hrest, by simp⟩
      · -- the element is less than those before
        have hless : key x < key best :=
          lt_of_le_of_ne (not_lt.mp hlt) fun h => heq (hlike.mpr h.symm)
        refine ⟨[], best :: (ties ++ rest), hperm', by simp, ?_, by simp⟩
        exact forall_mem_cons.mpr ⟨hless, forall_mem_append.mpr
          ⟨fun y hy => (hties y hy).symm ▸ hless, fun y hy => hless.trans (hrest y hy)⟩⟩

/-- The scan ends with an element and no tie exactly if the element is less than all others. -/
theorem foldl_scanLeast_iff {x : α} :
    xs.foldl (scanLeast key same) (none, false) = (some x, false) ↔ IsSoleLeast key xs x := by
  have hscanned := scanned_foldl hsame
  generalize xs.foldl (scanLeast key same) (none, false) = state at hscanned
  constructor
  · rintro rfl
    obtain ⟨ties, rest, hperm, -, hrest, hambiguous⟩ := hscanned
    obtain rfl : ties = [] := by simpa using hambiguous
    exact ⟨rest, hperm, hrest⟩
  · rintro ⟨others, hperm, hleast⟩
    match state, hscanned with
    | (none, _), hnil =>
      rw [show xs = [] from hnil] at hperm
      exact absurd hperm.length_eq (by simp)
    | (some best, ambiguous), ⟨ties, rest, hperm', hties, hrest, hambiguous⟩ =>
      have hmem : ∀ y, y ∈ best :: (ties ++ rest) ↔ y ∈ x :: others :=
        fun y => (hperm'.symm.trans hperm).mem_iff
      have hbest : best = x := by
        by_contra hne
        have hlt := hleast best ((mem_cons.mp ((hmem best).mp mem_cons_self)).resolve_left hne)
        rcases mem_append.mp ((mem_cons.mp ((hmem x).mpr mem_cons_self)).resolve_left
          (Ne.symm hne)) with hx | hx
        · exact hlt.ne (hties x hx)
        · exact lt_asymm hlt (hrest x hx)
      subst hbest
      have hothers := (hperm'.symm.trans hperm).cons_inv
      obtain rfl : ties = [] := eq_nil_iff_forall_not_mem.mpr fun y hy =>
        (hleast y (hothers.mem_iff.mp (mem_append_left _ hy))).ne' (hties y hy)
      obtain rfl : ambiguous = false := by simpa using hambiguous
      rfl

end Sole

end Trufflepig.Lib
