import Mathlib

/-!
# Lists merged in rounds

Each round takes the next element of every list that still has one.

* `filter_rounds`: the elements of one list keep their order.
* `pairwise_rounds`: the elements stand in the order of their round and, within a round, of their list.
-/

namespace Trufflepig.Lib

open List

variable {α : Type*}

/-- What a round leaves. -/
def tails (lists : List (List α)) : List (List α) := lists.map List.tail

/-- A round takes one element from each list that has one. -/
theorem sum_length_tails (lists : List (List α)) :
    ((tails lists).map List.length).sum + (lists.filterMap List.head?).length =
      (lists.map List.length).sum := by
  induction lists with
  | nil => rfl
  | cons l lists ih =>
    cases l with
    | nil => exact (congrArg (· + _) (Nat.zero_add _)).trans (ih.trans (Nat.zero_add _).symm)
    | cons x l =>
      simp only [tails, map_cons, sum_cons, tail_cons, length_cons,
        filterMap_cons, head?_cons] at ih ⊢
      omega

variable {lists : List (List α)}

theorem heads_ne_nil (h : ¬lists.all List.isEmpty = true) :
    0 < (lists.filterMap List.head?).length := by
  rw [length_pos_iff]
  intro hnil
  apply h
  apply all_eq_true.mpr
  intro l hl
  exact List.isEmpty_iff.mpr (head?_eq_none_iff.mp (filterMap_eq_nil_iff.mp hnil l hl))

/-- The heads of the lists, then the heads of what is left, until nothing is. -/
def rounds (lists : List (List α)) : List α :=
  if lists.all List.isEmpty then [] else lists.filterMap List.head? ++ rounds (tails lists)
termination_by (lists.map List.length).sum
decreasing_by
  rename_i h
  have hsum := sum_length_tails lists
  have hpos := heads_ne_nil h
  omega

variable {owner rank : α → ℕ}

/-- The elements of a list know its number, counted from `s`, and their place in it, counted on
from `r`. -/
def Staged (owner rank : α → ℕ) (s r : ℕ) (lists : List (List α)) : Prop :=
  ∀ i l, lists[i]? = some l → ∀ k x, l[k]? = some x → owner x = s + i ∧ rank x = r + k + 1

variable {r : ℕ}

theorem Staged.tails {s : ℕ} (h : Staged owner rank s r lists) :
    Staged owner rank s (r + 1) (tails lists) := by
  intro i l hl k x hx
  rw [Lib.tails, getElem?_map, Option.map_eq_some_iff] at hl
  obtain ⟨l, hl, rfl⟩ := hl
  rw [getElem?_tail] at hx
  obtain ⟨howner, hrank⟩ := h i l hl (k + 1) x hx
  exact ⟨howner, by omega⟩

theorem Staged.rest {s : ℕ} {l : List α} (h : Staged owner rank s r (l :: lists)) :
    Staged owner rank (s + 1) r lists := by
  intro i l' hl k x hx
  obtain ⟨howner, hrank⟩ := h (i + 1) l' hl k x hx
  exact ⟨by omega, hrank⟩

/-- The first elements of the lists: one for each list that is not empty. -/
theorem Staged.heads {s : ℕ} (h : Staged owner rank s r lists) :
    (lists.filterMap List.head?).Pairwise (fun x y => owner x < owner y) ∧
      (∀ x ∈ lists.filterMap List.head?, s ≤ owner x ∧ rank x = r + 1) ∧
      ∀ i, (lists.filterMap List.head?).filter (fun x => owner x = s + i) =
        ((lists[i]?).getD []).head?.toList := by
  induction lists generalizing s with
  | nil => exact ⟨List.Pairwise.nil, by simp, by simp⟩
  | cons l lists ih =>
    obtain ⟨hpairwise, hmem, hfilter⟩ := ih h.rest
    cases l with
    | nil =>
      refine ⟨hpairwise, fun x hx => ⟨?_, (hmem x hx).2⟩, fun i => ?_⟩
      · have := (hmem x hx).1
        omega
      · cases i with
        | zero =>
          apply filter_eq_nil_iff.mpr
          intro x hx howner
          have := (hmem x hx).1
          simp only [decide_eq_true_eq] at howner
          omega
        | succ i =>
          rw [filterMap_cons_none rfl, Nat.add_comm i 1, ← Nat.add_assoc]
          exact (hfilter i).trans (by rw [Nat.add_comm 1 i]; rfl)
    | cons x l =>
      obtain ⟨howner, hrank⟩ := h 0 (x :: l) rfl 0 x rfl
      have hlater : ∀ y ∈ lists.filterMap List.head?, owner x < owner y := fun y hy => by
        have := (hmem y hy).1
        omega
      refine ⟨pairwise_cons.mpr ⟨hlater, hpairwise⟩, fun y hy => ?_, fun i => ?_⟩
      · rcases mem_cons.mp hy with rfl | hy
        · exact ⟨by omega, hrank⟩
        · exact ⟨by have := (hmem y hy).1; omega, (hmem y hy).2⟩
      · have hcons : ((x :: l) :: lists).filterMap List.head? = x :: lists.filterMap List.head? := rfl
        rw [hcons]
        cases i with
        | zero =>
          rw [filter_cons_of_pos (by simp [howner]), filter_eq_nil_iff.mpr]
          · rfl
          · intro y hy heq
            have := hlater y hy
            simp only [decide_eq_true_eq] at heq
            omega
        | succ i =>
          rw [filter_cons_of_neg (by simp [howner]), Nat.add_comm i 1, ← Nat.add_assoc]
          exact (hfilter i).trans (by rw [Nat.add_comm 1 i]; rfl)

theorem filter_rounds (h : Staged owner rank 0 r lists) (i : ℕ) :
    (rounds lists).filter (fun x => owner x = i) = (lists[i]?).getD [] := by
  induction lists using rounds.induct generalizing r with
  | case1 lists hall =>
    rw [rounds, if_pos hall]
    cases hl : lists[i]? with
    | none => rfl
    | some l =>
      have hnil := List.isEmpty_iff.mp (all_eq_true.mp hall l (mem_of_getElem? hl))
      rw [hnil]
      rfl
  | case2 lists hall ih =>
    have hheads := (h.heads).2.2 i
    rw [Nat.zero_add] at hheads
    rw [rounds, if_neg hall, filter_append, hheads, ih h.tails, tails, getElem?_map]
    cases lists[i]? with
    | none => rfl
    | some l =>
      cases l with
      | nil => rfl
      | cons x l => rfl

theorem rank_of_mem_rounds (h : Staged owner rank 0 r lists) :
    ∀ x ∈ rounds lists, r < rank x := by
  induction lists using rounds.induct generalizing r with
  | case1 lists hall =>
    rw [rounds, if_pos hall]
    exact fun x hx => absurd hx not_mem_nil
  | case2 lists hall ih =>
    rw [rounds, if_neg hall]
    intro x hx
    rcases mem_append.mp hx with hx | hx
    · have := (h.heads.2.1 x hx).2
      omega
    · have := ih h.tails x hx
      omega

theorem pairwise_rounds (h : Staged owner rank 0 r lists) :
    (rounds lists).Pairwise fun x y => rank x < rank y ∨ rank x = rank y ∧ owner x < owner y := by
  induction lists using rounds.induct generalizing r with
  | case1 lists hall =>
    rw [rounds, if_pos hall]
    exact List.Pairwise.nil
  | case2 lists hall ih =>
    obtain ⟨hpairwise, hmem, -⟩ := h.heads
    rw [rounds, if_neg hall]
    refine pairwise_append.mpr ⟨?_, ih h.tails, fun x hx y hy => ?_⟩
    · apply hpairwise.imp_of_mem
      intro x y hx hy hlt
      exact Or.inr ⟨by rw [(hmem x hx).2, (hmem y hy).2], hlt⟩
    · have hx := (hmem x hx).2
      have hy := rank_of_mem_rounds h.tails y hy
      left
      omega

end Trufflepig.Lib
