import Mathlib

/-!
# Tables sorted by a key

A map whose entries are visited in the order of their keys: the list of its rows,
sorted strictly by the key.

* `SortedTable.find_insert`, `SortedTable.find_remove`: reading after a write.
* `SortedTable.find_eq_some`: a row is found under its own key.
* `SortedTable.eq_of_find`: a table is determined by what is found in it.
-/

namespace Trufflepig.Lib

open List

variable {α κ : Type*} {key : α → κ} {lt : κ → κ → Prop}

/-- Rows in the strict order of their keys. -/
structure SortedTable (key : α → κ) (lt : κ → κ → Prop) where
  rows : List α
  sorted : rows.Pairwise fun a b => lt (key a) (key b)

/-- Inserts a row at its place, over a row with the same key. -/
def insertRow (key : α → κ) (lt : κ → κ → Prop) [DecidableRel lt] [DecidableEq κ] (row : α) :
    List α → List α
  | [] => [row]
  | r :: rows =>
    if lt (key row) (key r) then row :: r :: rows
    else if key row = key r then row :: rows
    else r :: insertRow key lt row rows

namespace SortedTable

/-- The table without rows. -/
def empty : SortedTable key lt := ⟨[], .nil⟩

/-- The row with a key. -/
def find [DecidableEq κ] (table : SortedTable key lt) (k : κ) : Option α :=
  table.rows.find? fun row => key row = k

/-- The table without the row with a key. -/
def remove [DecidableEq κ] (table : SortedTable key lt) (k : κ) : SortedTable key lt where
  rows := table.rows.filter fun row => key row ≠ k
  sorted := table.sorted.filter _

end SortedTable

theorem nodup_of_sorted [Std.Irrefl lt] (table : SortedTable key lt) :
    (table.rows.map key).Nodup := by
  rw [nodup_iff_pairwise_ne, pairwise_map]
  apply table.sorted.imp
  intro a b hlt heq
  rw [heq] at hlt
  exact irrefl_of lt _ hlt

section Find

variable [DecidableEq κ]

namespace SortedTable

variable {table : SortedTable key lt} {k : κ} {row : α}

theorem mem_of_find (h : table.find k = some row) : row ∈ table.rows ∧ key row = k := by
  have hkey := find?_some h
  exact ⟨mem_of_find?_eq_some h, by simpa using hkey⟩

/-- A row is found under its own key. -/
theorem find_of_mem [Std.Irrefl lt] (h : row ∈ table.rows) : table.find (key row) = some row := by
  obtain ⟨found, hfound⟩ : ∃ found, table.find (key row) = some found := by
    rw [← Option.isSome_iff_exists, find, find?_isSome]
    exact ⟨row, h, by simp⟩
  obtain ⟨hmem, hkey⟩ := mem_of_find hfound
  rw [hfound, inj_on_of_nodup_map (nodup_of_sorted table) hmem h hkey]

theorem find_eq_some [Std.Irrefl lt] :
    table.find k = some row ↔ row ∈ table.rows ∧ key row = k := by
  constructor
  · exact mem_of_find
  · rintro ⟨hmem, rfl⟩
    exact find_of_mem hmem

theorem find_eq_none : table.find k = none ↔ ∀ row ∈ table.rows, key row ≠ k := by
  simp [find]

theorem find_remove (k' : κ) :
    (table.remove k).find k' = if k' = k then none else table.find k' := by
  unfold find remove
  split_ifs with hk
  · rw [find?_eq_none]
    intro row hrow
    rw [mem_filter] at hrow
    simpa [hk] using hrow.2
  · rw [find?_filter]
    congr 1
    funext row
    by_cases hrow : key row = k'
    · simp [hrow, hk]
    · simp [hrow]

/-- A table is determined by what is found in it. -/
theorem eq_of_find [IsStrictTotalOrder κ lt] {table table' : SortedTable key lt}
    (h : table.find = table'.find) :
    table = table' := by
  have hmem : ∀ {t t' : SortedTable key lt}, t.find = t'.find → ∀ row ∈ t.rows, row ∈ t'.rows := by
    intro t t' h row hrow
    have hfind := find_of_mem hrow
    rw [h] at hfind
    exact (mem_of_find hfind).1
  have hnodup : ∀ t : SortedTable key lt, t.rows.Nodup := fun t => (nodup_of_sorted t).of_map key
  have hperm : table.rows.Perm table'.rows :=
    (perm_ext_iff_of_nodup (hnodup _) (hnodup _)).mpr fun row => ⟨hmem h row, hmem h.symm row⟩
  have hrows : table.rows = table'.rows := by
    refine hperm.eq_of_pairwise (fun a b _ _ hab hba => ?_) table.sorted table'.sorted
    exact absurd (trans_of lt hab hba) (irrefl_of lt _)
  obtain ⟨rows, hsorted⟩ := table
  obtain ⟨rows', hsorted'⟩ := table'
  obtain rfl : rows = rows' := hrows
  rfl

end SortedTable

end Find

section Insert

variable [DecidableRel lt] [DecidableEq κ]

theorem mem_insertRow {row r : α} {rows : List α} (h : r ∈ insertRow key lt row rows) :
    r = row ∨ r ∈ rows := by
  induction rows with
  | nil => exact Or.inl (mem_singleton.mp h)
  | cons r₀ rows ih =>
    rw [insertRow] at h
    split_ifs at h
    · exact mem_cons.mp h
    · rcases mem_cons.mp h with h | h
      · exact Or.inl h
      · exact Or.inr (mem_cons_of_mem _ h)
    · rcases mem_cons.mp h with h | h
      · exact Or.inr (h ▸ mem_cons_self)
      · rcases ih h with h | h
        · exact Or.inl h
        · exact Or.inr (mem_cons_of_mem _ h)

theorem insertRow_sorted [IsStrictTotalOrder κ lt] (row : α) {rows : List α}
    (h : rows.Pairwise fun a b => lt (key a) (key b)) :
    (insertRow key lt row rows).Pairwise fun a b => lt (key a) (key b) := by
  induction h with
  | nil => exact pairwise_singleton _ _
  | @cons r rows hr hrows ih =>
    rw [insertRow]
    split_ifs with hlt heq
    · refine .cons (fun b hb => ?_) (.cons hr hrows)
      rcases mem_cons.mp hb with rfl | hb
      · exact hlt
      · exact trans_of lt hlt (hr b hb)
    · exact .cons (fun b hb => heq ▸ hr b hb) hrows
    · refine .cons (fun b hb => ?_) ih
      rcases mem_insertRow hb with rfl | hb
      · rcases trichotomous_of lt (key b) (key r) with h | h | h
        · exact absurd h hlt
        · exact absurd h heq
        · exact h
      · exact hr b hb

namespace SortedTable

variable [IsStrictTotalOrder κ lt]

/-- Inserts a row, over a row with the same key. -/
def insert (table : SortedTable key lt) (row : α) : SortedTable key lt where
  rows := insertRow key lt row table.rows
  sorted := insertRow_sorted row table.sorted

theorem find_insert (table : SortedTable key lt) (row : α) (k : κ) :
    (table.insert row).find k = if k = key row then some row else table.find k := by
  obtain ⟨rows, hsorted⟩ := table
  show (insertRow key lt row rows).find? (fun r => key r = k) = _
  show _ = if k = key row then some row else rows.find? fun r => key r = k
  induction hsorted with
  | nil =>
    by_cases hk : k = key row
    · rw [if_pos hk, insertRow, find?_cons_of_pos (by simp [hk])]
    · rw [if_neg hk, insertRow, find?_cons_of_neg (by simpa using Ne.symm hk)]
  | @cons r rows hr _ ih =>
    rw [insertRow]
    by_cases hk : k = key row
    · rw [if_pos hk] at ih ⊢
      split_ifs with hlt heq
      · rw [find?_cons_of_pos (by simp [hk])]
      · rw [find?_cons_of_pos (by simp [hk])]
      · rw [find?_cons_of_neg (by simpa [hk] using Ne.symm heq), ih]
    · rw [if_neg hk] at ih ⊢
      split_ifs with hlt heq
      · rw [find?_cons_of_neg (by simpa using Ne.symm hk)]
      · rw [find?_cons_of_neg (by simpa using Ne.symm hk),
          find?_cons_of_neg (by simpa [← heq] using Ne.symm hk)]
      · by_cases hr : key r = k
        · rw [find?_cons_of_pos (by simpa using hr), find?_cons_of_pos (by simpa using hr)]
        · rw [find?_cons_of_neg (by simpa using hr), find?_cons_of_neg (by simpa using hr), ih]

/-- Rows with distinct keys that are inserted one after another. -/
theorem find_foldl_insert {rows : List α} (hnodup : (rows.map key).Nodup) (k : κ) :
    ∀ table : SortedTable key lt, (rows.foldl insert table).find k =
      (rows.find? fun row => key row = k).or (table.find k) := by
  induction rows with
  | nil => exact fun table => rfl
  | cons r rows ih =>
    intro table
    rw [map_cons, nodup_cons] at hnodup
    rw [foldl_cons, ih hnodup.2, find_insert]
    by_cases hk : k = key r
    · have hnone : (rows.find? fun row => key row = k) = none := by
        rw [find?_eq_none]
        intro row hrow hkey
        rw [decide_eq_true_eq, hk] at hkey
        exact hnodup.1 (hkey ▸ mem_map_of_mem hrow)
      rw [if_pos hk, hnone, find?_cons_of_pos (by simp [hk])]
      rfl
    · rw [if_neg hk, find?_cons_of_neg (by simpa using Ne.symm hk)]

end SortedTable

end Insert

end Trufflepig.Lib
