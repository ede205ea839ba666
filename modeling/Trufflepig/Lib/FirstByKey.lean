import Trufflepig.Lib.Fallible
import Trufflepig.Lib.SortedTable

/-!
# Folding into a table by key

Elements that are entered one after another into a table sorted by a key: what the table holds
under a key is the fold of the elements with that key.

* `SortedTable.find_foldl_upsert`: the row under a key.
* `perm_rows_foldl_orInsert`: if the first element of a key stays, the rows are those of
  `firstByKey`.
* `foldlM_mergeInto_spec`: a list into which elements are merged has one element for each key.
-/

namespace Trufflepig.Lib

open List

variable {α β κ : Type*} [DecidableEq κ]

/-! ## The first element of each key -/

/-- Of the elements with one key, the first. -/
def firstByKey (key : α → κ) : List α → List α
  | [] => []
  | x :: xs => x :: (firstByKey key xs).filter fun y => key y ≠ key x

variable {key : α → κ}

theorem firstByKey_sublist (xs : List α) : (firstByKey key xs).Sublist xs := by
  induction xs with
  | nil => exact .slnil
  | cons x xs ih => exact (filter_sublist.trans ih).cons_cons x

theorem nodup_firstByKey (xs : List α) : ((firstByKey key xs).map key).Nodup := by
  induction xs with
  | nil => exact .nil
  | cons x xs ih =>
    rw [firstByKey, map_cons, nodup_cons]
    refine ⟨fun hmem => ?_, ih.sublist (filter_sublist.map key)⟩
    obtain ⟨y, hy, hkey⟩ := mem_map.mp hmem
    simpa [hkey] using (mem_filter.mp hy).2

variable {xs : List α}

theorem mem_firstByKey {x : α} :
    x ∈ firstByKey key xs ↔ xs.find? (fun y => key y = key x) = some x := by
  induction xs with
  | nil => simp [firstByKey]
  | cons y ys ih =>
    rw [firstByKey, mem_cons, mem_filter, ih]
    by_cases hkey : key y = key x
    · rw [find?_cons_of_pos (by simpa using hkey), Option.some.injEq]
      constructor
      · rintro (rfl | ⟨-, hne⟩)
        · rfl
        · simp [hkey] at hne
      · exact fun heq => .inl heq.symm
    · rw [find?_cons_of_neg (by simpa using hkey)]
      constructor
      · rintro (rfl | ⟨hfind, -⟩)
        · exact absurd rfl hkey
        · exact hfind
      · exact fun hfind => .inr ⟨hfind, by simpa using Ne.symm hkey⟩

theorem mem_keys_firstByKey {k : κ} :
    k ∈ (firstByKey key xs).map key ↔ k ∈ xs.map key := by
  constructor
  · exact fun h => ((firstByKey_sublist xs).map key).subset h
  · intro h
    obtain ⟨x, hx, rfl⟩ := mem_map.mp h
    cases hfind : xs.find? fun y => key y = key x with
    | none => simpa using find?_eq_none.mp hfind x hx
    | some y =>
      have hkey : key y = key x := by simpa using find?_some hfind
      rw [← hkey] at hfind ⊢
      exact mem_map_of_mem (mem_firstByKey.mpr hfind)

theorem firstByKey_map {γ : Type*} (f : γ → α) (xs : List γ) :
    firstByKey key (xs.map f) = (firstByKey (fun x => key (f x)) xs).map f := by
  induction xs with
  | nil => rfl
  | cons x xs ih =>
    rw [map_cons, firstByKey, firstByKey, map_cons, ih, filter_map]
    rfl

/-- Elements with distinct keys are all kept. -/
theorem firstByKey_of_nodup (h : (xs.map key).Nodup) : firstByKey key xs = xs := by
  induction xs with
  | nil => rfl
  | cons x xs ih =>
    rw [map_cons, nodup_cons] at h
    rw [firstByKey, ih h.2, filter_eq_self.mpr]
    intro y hy
    rw [decide_eq_true_eq]
    exact fun hkey => h.1 (hkey ▸ mem_map_of_mem hy)

/-! ## Lists merged by key -/

section Merge

variable {α κ ε : Type} [DecidableEq κ]

/-- The element is combined with the one that has its key, or put at the end. -/
def mergeInto (key : α → κ) (combine : α → α → Except ε α) : List α → α → Except ε (List α)
  | [], x => .ok [x]
  | y :: ys, x =>
    if key y = key x then (combine y x).map (· :: ys)
    else (mergeInto key combine ys x).map (y :: ·)

variable {key : α → κ} {combine : α → α → Except ε α}
  (hkey : ∀ y x z, key y = key x → combine y x = .ok z → key z = key y)
include hkey

/-- The first element of a table takes in the elements of its key, and the others pass it by. -/
theorem foldlM_mergeInto_cons {y : α} {ys xs zs : List α} :
    xs.foldlM (mergeInto key combine) (y :: ys) = .ok zs ↔
      ∃ z rest, zs = z :: rest ∧ (xs.filter fun x => key x = key y).foldlM combine y = .ok z ∧
        (xs.filter fun x => key x ≠ key y).foldlM (mergeInto key combine) ys = .ok rest := by
  induction xs generalizing y ys with
  | nil =>
    constructor
    · rintro ⟨⟩
      exact ⟨y, ys, rfl, rfl, rfl⟩
    · rintro ⟨z, rest, rfl, ⟨⟩, ⟨⟩⟩
      rfl
  | cons x xs ih =>
    rw [foldlM_cons, mergeInto]
    by_cases h : key y = key x
    · rw [if_pos h, filter_cons_of_pos (by simp [h]), filter_cons_of_neg (by simp [h]), foldlM_cons]
      cases hcombine : combine y x with
      | error e => simp [Except.map, bind, Except.bind]
      | ok y' =>
        rw [← hkey y x y' h hcombine]
        exact ih
    · rw [if_neg h, filter_cons_of_neg (by simp [Ne.symm h]),
        filter_cons_of_pos (by simp [Ne.symm h]), foldlM_cons]
      cases hmerge : mergeInto key combine ys x with
      | error e => simp [Except.map, bind, Except.bind]
      | ok ys' => exact ih

variable (key) in
omit hkey in
/-- Induction that takes the first element away with all others of its key. -/
theorem peel_induction {motive : List α → Prop} (nil : motive [])
    (cons : ∀ x xs, motive (xs.filter fun y => key y ≠ key x) → motive (x :: xs)) (xs : List α) :
    motive xs := by
  match xs with
  | [] => exact nil
  | x :: xs => exact cons x xs (peel_induction nil cons _)
termination_by xs.length
decreasing_by exact Nat.lt_succ_of_le (length_filter_le _ _)

omit hkey in
theorem filter_firstByKey (x : α) (xs : List α) :
    firstByKey key (xs.filter fun y => key y ≠ key x) =
      (firstByKey key xs).filter fun y => key y ≠ key x := by
  induction xs with
  | nil => rfl
  | cons y ys ih =>
    by_cases h : key y = key x
    · rw [filter_cons_of_neg (by simp [h]), ih, firstByKey,
        filter_cons_of_neg (by simp [h]), filter_filter]
      simp [h]
    · rw [filter_cons_of_pos (by simp [h]), firstByKey, ih, firstByKey,
        filter_cons_of_pos (by simp [h]), filter_comm]

omit hkey in
/-- The elements of another key are not peeled off. -/
theorem filter_peel {k : κ} {x : α} {xs : List α} (h : k ≠ key x) :
    (xs.filter fun y => key y ≠ key x).filter (fun y => key y = k) =
      (x :: xs).filter fun y => key y = k := by
  rw [filter_cons_of_neg (by simpa using Ne.symm h), filter_filter]
  apply filter_congr
  intro y _
  by_cases hk : key y = k
  · simp [hk, h]
  · simp [hk]

/-- Merging leaves one element for each key, in the order in which the keys first appear: the
first of its key with the others combined into it. -/
theorem foldlM_mergeInto_spec {xs zs : List α} (h : xs.foldlM (mergeInto key combine) [] = .ok zs) :
    zs.map key = (firstByKey key xs).map key ∧ ∀ z ∈ zs, ∃ x rest,
      xs.filter (fun y => key y = key z) = x :: rest ∧ rest.foldlM combine x = .ok z := by
  induction xs using peel_induction key generalizing zs with
  | nil =>
    cases h
    simp [firstByKey]
  | cons x xs ih =>
    obtain ⟨z, rest, rfl, hz, hrest⟩ := (foldlM_mergeInto_cons hkey).mp h
    obtain ⟨hkeys, hgroups⟩ := ih hrest
    have hzkey : key z = key x :=
      foldlM_invariant (fun s => key s = key x) (fun a ha s s' hs hstep =>
        (hkey s a s' (hs.trans (by simpa [eq_comm] using (mem_filter.mp ha).2)) hstep).trans hs)
        rfl hz
    refine ⟨?_, ?_⟩
    · rw [map_cons, hkeys, filter_firstByKey, hzkey, firstByKey, map_cons]
    · rintro w hw
      rcases mem_cons.mp hw with rfl | hw
      · exact ⟨x, _, by rw [hzkey, filter_cons_of_pos (by simp)], hz⟩
      · have hne : key w ≠ key x := by
          have hmem := mem_map_of_mem (f := key) hw
          rw [hkeys, mem_keys_firstByKey] at hmem
          obtain ⟨y, hy, hyw⟩ := mem_map.mp hmem
          simpa [hyw] using (mem_filter.mp hy).2
        rw [← filter_peel hne]
        exact hgroups w hw

/-- Merging succeeds if it does so for each key. -/
theorem exists_foldlM_mergeInto {xs : List α}
    (h : ∀ k x rest, xs.filter (fun y => key y = k) = x :: rest → ∃ z, rest.foldlM combine x = .ok z) :
    ∃ zs, xs.foldlM (mergeInto key combine) [] = .ok zs := by
  induction xs using peel_induction key with
  | nil => exact ⟨[], rfl⟩
  | cons x xs ih =>
    obtain ⟨z, hz⟩ := h (key x) x _ (filter_cons_of_pos (by simp))
    obtain ⟨rest, hrest⟩ := ih fun k y rest hgroup => by
      apply h k y rest
      rw [← filter_peel, hgroup]
      have hy := mem_filter.mp (hgroup ▸ mem_cons_self)
      simpa [← (by simpa using hy.2 : key y = k)] using (mem_filter.mp hy.1).2
    exact ⟨z :: rest, (foldlM_mergeInto_cons hkey).mpr ⟨z, rest, rfl, hz, hrest⟩⟩

end Merge

/-! ## Tables -/

namespace SortedTable

variable {lt : κ → κ → Prop} [DecidableRel lt] [IsStrictTotalOrder κ lt]

/-- Replaces what is found under a key, or enters it. -/
def upsert (table : SortedTable key lt) (k : κ) (f : Option α → α) : SortedTable key lt :=
  table.insert (f (table.find k))

/-- What is under a key after some elements is the fold of those of its key. -/
theorem find_foldl_upsert (keyOf : β → κ) (f : β → Option α → α)
    (hkey : ∀ e row, (∀ r, row = some r → key r = keyOf e) → key (f e row) = keyOf e)
    (es : List β) (table : SortedTable key lt) (k : κ) :
    (es.foldl (fun table e => table.upsert (keyOf e) (f e)) table).find k =
      (es.filter fun e => keyOf e = k).foldl (fun row e => some (f e row)) (table.find k) := by
  induction es generalizing table with
  | nil => rfl
  | cons e es ih =>
    have hrow : key (f e (table.find (keyOf e))) = keyOf e :=
      hkey e _ fun r hr => (mem_of_find hr).2
    rw [foldl_cons, ih, upsert, find_insert, hrow]
    by_cases hk : keyOf e = k
    · rw [if_pos hk.symm, filter_cons_of_pos (by simpa using hk), foldl_cons, hk]
    · rw [if_neg (Ne.symm hk), filter_cons_of_neg (by simpa using hk)]

/-- The first element of a key stays. -/
def orInsert (table : SortedTable key lt) (x : α) : SortedTable key lt :=
  table.upsert (key x) fun row => row.getD x

theorem foldl_getD (xs : List α) (row : Option α) :
    xs.foldl (fun row x => some (row.getD x)) row = row.or xs.head? := by
  induction xs generalizing row with
  | nil => exact (Option.or_none).symm
  | cons x xs ih =>
    rw [foldl_cons, ih]
    cases row with
    | none => rfl
    | some r => rfl

theorem find_foldl_orInsert (xs : List α) (k : κ) :
    (xs.foldl orInsert (empty : SortedTable key lt)).find k = xs.find? fun x => key x = k := by
  have hfold : (xs.foldl orInsert (empty : SortedTable key lt)).find k = _ :=
    find_foldl_upsert key (fun x row => row.getD x)
      (fun x row hrow => by
        cases row with
        | none => rfl
        | some r => exact hrow r rfl) xs empty k
  rw [hfold, foldl_getD, show (empty : SortedTable key lt).find k = none from rfl,
    Option.none_or, head?_filter]

theorem perm_rows_foldl_orInsert (xs : List α) :
    (xs.foldl orInsert (empty : SortedTable key lt)).rows.Perm (firstByKey key xs) := by
  rw [perm_ext_iff_of_nodup (nodup_of_sorted _).of_map (nodup_firstByKey xs).of_map]
  intro x
  have hfind : (xs.foldl orInsert (empty : SortedTable key lt)).find (key x) = _ :=
    find_foldl_orInsert xs (key x)
  rw [mem_firstByKey, ← hfind, find_eq_some]
  exact ⟨fun h => ⟨h, rfl⟩, fun h => h.1⟩

end SortedTable

end Trufflepig.Lib
