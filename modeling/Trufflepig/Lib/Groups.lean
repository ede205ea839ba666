import Mathlib

/-!
# Grouping indexes by key, and the order in which groups are visited

A hash map from keys to lists of indexes is the list of its entries. Reading an
entry does not depend on the order of the list; visiting the entries does, and
`Iteration` is the order that a program cannot know.

* `groupBy_get`: the entry of a key holds the indexes with that key, in order.
* `groupBy_nodup`: every key has one entry.
* `groupBy_renameKeys`: grouping depends only on which keys are equal.
* `foldl_foldl_comm`: two folds commute if their steps do.
* `foldl_iteration`: visiting the entries of a map is independent of the order
  if the steps for two entries with different keys commute.
-/

namespace Trufflepig.Lib

open List

variable {κ κ' ν σ : Type*}

/-- A map from keys to lists of indexes. -/
abbrev Groups (κ : Type*) := List (κ × List ℕ)

section Grouping

variable [DecidableEq κ] [DecidableEq κ']

/-- Reads the entry of a key. -/
def getEntry (entries : List (κ × ν)) (k : κ) : Option ν :=
  (entries.find? fun e => e.1 = k).map Prod.snd

theorem getEntry_cons (entry : κ × ν) (entries : List (κ × ν)) (k : κ) :
    getEntry (entry :: entries) k = if entry.1 = k then some entry.2 else getEntry entries k := by
  unfold getEntry
  by_cases hk : entry.1 = k
  · rw [if_pos hk, find?_cons_of_pos (by simpa using hk)]
    rfl
  · rw [if_neg hk, find?_cons_of_neg (by simpa using hk)]

/-- Appends an index to the entry of a key, which is made if there is none. -/
def pushIndex : Groups κ → κ → ℕ → Groups κ
  | [], k, i => [(k, [i])]
  | (k', is) :: groups, k, i =>
    if k' = k then (k', is ++ [i]) :: groups else (k', is) :: pushIndex groups k i

/-- Groups the indexes that have a key. -/
def groupBy (key : ℕ → Option κ) (indexes : List ℕ) : Groups κ :=
  indexes.foldl (fun groups i =>
    match key i with
    | some k => pushIndex groups k i
    | none => groups) []

theorem getEntry_pushIndex (groups : Groups κ) (k k' : κ) (i : ℕ) :
    getEntry (pushIndex groups k i) k' =
      if k' = k then some ((getEntry groups k).getD [] ++ [i]) else getEntry groups k' := by
  induction groups with
  | nil => grind [pushIndex, getEntry]
  | cons e groups ih => grind [pushIndex, getEntry_cons]

theorem keys_pushIndex (groups : Groups κ) (k : κ) (i : ℕ) : (pushIndex groups k i).map Prod.fst =
      if k ∈ groups.map Prod.fst then groups.map Prod.fst else groups.map Prod.fst ++ [k] := by
  induction groups with
  | nil => simp [pushIndex]
  | cons e groups ih => grind [pushIndex]

/-- The indexes of a key, in order. -/
def indexesOf (key : ℕ → Option κ) (indexes : List ℕ) (k : κ) : List ℕ :=
  indexes.filter fun i => key i = some k

theorem groupBy_append (key : ℕ → Option κ) (indexes : List ℕ) (i : ℕ) :
    groupBy key (indexes ++ [i]) =
      match key i with
      | some k => pushIndex (groupBy key indexes) k i
      | none => groupBy key indexes := by
  simp [groupBy, foldl_append]

variable {key : ℕ → Option κ} {indexes : List ℕ}

/-- Grouping reads the keys of the indexes only. -/
theorem groupBy_congr {key' : ℕ → Option κ} (h : ∀ i ∈ indexes, key i = key' i) :
    groupBy key indexes = groupBy key' indexes := by
  induction indexes using List.reverseRecOn with
  | nil => rfl
  | append_singleton indexes i ih =>
    rw [groupBy_append, groupBy_append, h i (by simp), ih fun j hj => h j (by simp [hj])]

/-- The groups of the places of a list when an element is appended. -/
theorem groupBy_getElem?_append {α : Type*} (f : α → κ) (xs : List α) (x : α) :
    groupBy (fun i => (xs ++ [x])[i]?.map f) (List.range (xs ++ [x]).length) =
      pushIndex (groupBy (fun i => xs[i]?.map f) (List.range xs.length)) (f x) xs.length := by
  have hbefore : groupBy (fun i => (xs ++ [x])[i]?.map f) (List.range xs.length) =
      groupBy (fun i => xs[i]?.map f) (List.range xs.length) := by
    apply groupBy_congr
    intro i hi
    rw [getElem?_append_left (mem_range.mp hi)]
  rw [length_append, length_singleton, range_succ, groupBy_append, hbefore]
  simp

theorem groupBy_get (key : ℕ → Option κ) (indexes : List ℕ) (k : κ) :
    getEntry (groupBy key indexes) k =
      if indexesOf key indexes k = [] then none else some (indexesOf key indexes k) := by
  induction indexes using List.reverseRecOn with
  | nil => rfl
  | append_singleton indexes i ih =>
    rw [groupBy_append]
    have hsplit : indexesOf key (indexes ++ [i]) k =
        indexesOf key indexes k ++ if key i = some k then [i] else [] := by
      by_cases hk : key i = some k
      · simp [indexesOf, hk]
      · simp [indexesOf, hk]
    rw [hsplit]
    cases hi : key i with
    | none => simp [ih]
    | some k₀ =>
      simp only [getEntry_pushIndex, ih]
      by_cases hk : k = k₀
      · subst hk
        by_cases hnil : indexesOf key indexes k = []
        · simp [hnil, ih]
        · simp [hnil, ih]
      · have : some k₀ ≠ some k := fun h => hk (Option.some.inj h).symm
        simp [hk, this]

theorem groupBy_nodup (key : ℕ → Option κ) (indexes : List ℕ) :
    ((groupBy key indexes).map Prod.fst).Nodup := by
  induction indexes using List.reverseRecOn with
  | nil => exact nodup_nil
  | append_singleton indexes i ih =>
    rw [groupBy_append]
    cases hi : key i with
    | none => exact ih
    | some k =>
      show ((pushIndex (groupBy key indexes) k i).map Prod.fst).Nodup
      rw [keys_pushIndex]
      split_ifs with hk
      · exact ih
      · rw [nodup_append]
        refine ⟨ih, nodup_singleton _, ?_⟩
        intro a ha b hb hab
        exact hk (mem_singleton.mp hb ▸ hab ▸ ha)

theorem getEntry_of_mem {entries : List (κ × ν)} (hnd : (entries.map Prod.fst).Nodup)
    {e : κ × ν} (he : e ∈ entries) : getEntry entries e.1 = some e.2 := by
  induction entries with
  | nil => simp at he
  | cons e' entries ih =>
    rw [map_cons, nodup_cons] at hnd
    rcases mem_cons.mp he with rfl | he
    · simp [getEntry]
    · have hne : e'.1 ≠ e.1 := fun h => hnd.1 (h ▸ mem_map_of_mem he)
      have := ih hnd.2 he
      simpa [getEntry, hne] using this

variable {k : κ}

theorem mem_indexesOf {i : ℕ} :
    i ∈ indexesOf key indexes k ↔ i ∈ indexes ∧ key i = some k := by
  simp [indexesOf]

theorem getEntry_groupBy_getD (key : ℕ → Option κ) (indexes : List ℕ) (k : κ) :
    (getEntry (groupBy key indexes) k).getD [] = indexesOf key indexes k := by
  rw [groupBy_get]
  split_ifs with hnil
  · exact hnil.symm
  · rfl

theorem getEntry_groupBy {is : List ℕ} (h : getEntry (groupBy key indexes) k = some is) :
    is = indexesOf key indexes k := by
  rw [← getEntry_groupBy_getD, h]
  rfl

theorem mem_groupBy {e : κ × List ℕ} (h : e ∈ groupBy key indexes) :
    e.2 = indexesOf key indexes e.1 :=
  getEntry_groupBy (getEntry_of_mem (groupBy_nodup key indexes) h)

theorem exists_of_mem_keys (h : k ∈ (groupBy key indexes).map Prod.fst) :
    ∃ i ∈ indexes, key i = some k := by
  obtain ⟨e, he, rfl⟩ := mem_map.mp h
  have hget := getEntry_of_mem (groupBy_nodup key indexes) he
  rw [groupBy_get] at hget
  split_ifs at hget with hnil
  obtain ⟨i, hi⟩ := exists_mem_of_ne_nil _ hnil
  exact ⟨i, mem_indexesOf.mp hi⟩

theorem exists_mem_groupBy {i : ℕ} (hi : i ∈ indexes) (hk : key i = some k) :
    (k, indexesOf key indexes k) ∈ groupBy key indexes := by
  have hne : indexesOf key indexes k ≠ [] :=
    ne_nil_of_mem (mem_filter.mpr ⟨hi, by simpa using hk⟩)
  have hget := groupBy_get key indexes k
  rw [if_neg hne, getEntry, Option.map_eq_some_iff] at hget
  obtain ⟨⟨k', is⟩, hfind, his⟩ := hget
  have hk' : k' = k := by simpa using find?_some hfind
  have hmem := mem_of_find?_eq_some hfind
  rw [hk'] at hmem
  rwa [← show is = indexesOf key indexes k from his]

/-! ## Renaming the keys -/

/-- The entries with their keys renamed. -/
def renameKeys (f : κ → κ') (entries : List (κ × ν)) : List (κ' × ν) :=
  entries.map fun e => (f e.1, e.2)

omit [DecidableEq κ] [DecidableEq κ'] in
theorem foldl_renameKeys (f : κ → κ') (entries : List (κ × ν)) (step : σ → κ' × ν → σ) (s : σ) :
    (renameKeys f entries).foldl step s = entries.foldl (fun s e => step s (f e.1, e.2)) s :=
  foldl_map

variable {f : κ → κ'}

theorem getEntry_renameKeys {entries : List (κ × ν)} (hf : ∀ e ∈ entries, f e.1 = f k → e.1 = k) :
    getEntry (renameKeys f entries) (f k) = getEntry entries k := by
  induction entries with
  | nil => rfl
  | cons e entries ih =>
    have ih := ih fun e' he' => hf e' (mem_cons_of_mem _ he')
    simp only [getEntry, renameKeys, map_cons] at ih ⊢
    by_cases hk : e.1 = k
    · rw [find?_cons_of_pos (by simp [hk]), find?_cons_of_pos (by simpa using hk)]
      rfl
    · have hfk : f e.1 ≠ f k := fun h => hk (hf e mem_cons_self h)
      rw [find?_cons_of_neg (by simpa using hfk), find?_cons_of_neg (by simpa using hk)]
      exact ih

theorem pushIndex_renameKeys {groups : Groups κ} (i : ℕ)
    (hf : ∀ e ∈ groups, f e.1 = f k → e.1 = k) :
    pushIndex (renameKeys f groups) (f k) i = renameKeys f (pushIndex groups k i) := by
  induction groups with
  | nil => rfl
  | cons e groups ih =>
    obtain ⟨k₀, is⟩ := e
    have ih := ih fun e' he' => hf e' (mem_cons_of_mem _ he')
    simp only [renameKeys, map_cons, pushIndex] at ih ⊢
    by_cases hk : k₀ = k
    · rw [if_pos (by rw [hk]), if_pos hk]
      rfl
    · have hfk : f k₀ ≠ f k := fun h => hk (hf _ mem_cons_self h)
      rw [if_neg hfk, if_neg hk, ih]
      rfl

/-- Grouping depends only on which keys are equal. -/
theorem groupBy_renameKeys {S : Set κ} (hf : Set.InjOn f S)
    (hkey : ∀ i ∈ indexes, ∀ k, key i = some k → k ∈ S) :
    groupBy (fun i => (key i).map f) indexes = renameKeys f (groupBy key indexes) := by
  induction indexes using List.reverseRecOn with
  | nil => rfl
  | append_singleton indexes i ih =>
    have ih := ih fun j hj => hkey j (mem_append_left _ hj)
    rw [groupBy_append, groupBy_append, ih]
    cases hi : key i with
    | none => rfl
    | some k =>
      apply pushIndex_renameKeys
      intro e he heq
      have hmem : e.1 ∈ (groupBy key indexes).map Prod.fst := mem_map_of_mem he
      obtain ⟨j, hj, hk⟩ := exists_of_mem_keys hmem
      exact hf (hkey j (mem_append_left _ hj) _ hk)
        (hkey i (mem_append_right _ (mem_singleton_self i)) _ hi) heq

/-- Reading an entry after renaming. -/
theorem getEntry_groupBy_renameKeys {S : Set κ} (hf : Set.InjOn f S)
    (hkey : ∀ i ∈ indexes, ∀ k, key i = some k → k ∈ S) (hk : k ∈ S) :
    getEntry (groupBy (fun i => (key i).map f) indexes) (f k) =
      getEntry (groupBy key indexes) k := by
  rw [groupBy_renameKeys hf hkey]
  apply getEntry_renameKeys
  intro e he heq
  obtain ⟨j, hj, hkj⟩ := exists_of_mem_keys (mem_map_of_mem he)
  exact hf (hkey j hj _ hkj) hk heq

end Grouping

/-! ## Visiting the entries -/

/-- An order in which the entries of maps are visited. -/
structure Iteration (ε : Type*) where
  order : List ε → List ε
  perm : ∀ entries, (order entries).Perm entries

/-- The order of the list itself. -/
def Iteration.id (ε : Type*) : Iteration ε := ⟨fun entries => entries, fun _ => List.Perm.refl _⟩

theorem foldl_step_comm {ε : Type*} {f : σ → ε → σ} {p : ε} {qs : List ε}
    (hcomm : ∀ q ∈ qs, ∀ s, f (f s p) q = f (f s q) p) (s : σ) :
    qs.foldl f (f s p) = f (qs.foldl f s) p := by
  induction qs generalizing s with
  | nil => rfl
  | cons q qs ih =>
    rw [foldl_cons, hcomm q mem_cons_self, foldl_cons]
    exact ih (fun q' hq' => hcomm q' (mem_cons_of_mem _ hq')) (f s q)

/-- Two folds commute if their steps do. -/
theorem foldl_foldl_comm {ε : Type*} {f : σ → ε → σ} {ps qs : List ε}
    (hcomm : ∀ p ∈ ps, ∀ q ∈ qs, ∀ s, f (f s p) q = f (f s q) p) (s : σ) :
    qs.foldl f (ps.foldl f s) = ps.foldl f (qs.foldl f s) := by
  induction ps generalizing s with
  | nil => rfl
  | cons p ps ih =>
    rw [foldl_cons, foldl_cons,
      ih (fun p' hp' => hcomm p' (mem_cons_of_mem _ hp')) (f s p),
      foldl_step_comm (hcomm p mem_cons_self)]

/-- Visiting the entries of a map gives the same result in every order, if the
steps for entries with different keys commute. -/
theorem foldl_iteration {entries : List (κ × ν)} (hnd : (entries.map Prod.fst).Nodup)
    {f : σ → κ × ν → σ}
    (hcomm : ∀ a ∈ entries, ∀ b ∈ entries, a.1 ≠ b.1 → ∀ s, f (f s a) b = f (f s b) a)
    (it : Iteration (κ × ν)) (s : σ) : (it.order entries).foldl f s = entries.foldl f s := by
  apply (it.perm entries).foldl_eq'
  intro a ha b hb s
  have ha := (it.perm entries).mem_iff.mp ha
  have hb := (it.perm entries).mem_iff.mp hb
  by_cases hab : a.1 = b.1
  · rw [inj_on_of_nodup_map hnd ha hb hab]
  · exact hcomm a ha b hb hab s

end Trufflepig.Lib
