import Trufflepig.Lib.FirstByKey

/-!
# The most recent elements

Elements with keys are written one after another, and a later element replaces an earlier one of
its key. `recent key m history` has the last elements of the `m` keys written last, the most
recent one first.

* `firstByKey_append`: what a second part adds to the first elements of the keys.
* `recent_append`: the most recent elements after a batch are those of the batch and, for the
  remaining places, the earlier ones with other keys. So they can be kept without the history.
* `mem_recent_iff`: an element is among them if it is the last one of its key and fewer than `m`
  keys follow it.
-/

namespace Trufflepig.Lib

open List

variable {α κ : Type*} [DecidableEq κ] {key : α → κ}

theorem firstByKey_append (xs ys : List α) :
    firstByKey key (xs ++ ys) =
      firstByKey key xs ++ (firstByKey key ys).filter fun y => key y ∉ xs.map key := by
  induction xs with
  | nil => simp [firstByKey]
  | cons x xs ih =>
    rw [cons_append, firstByKey, firstByKey, ih, filter_append, filter_filter]
    congr 2
    refine filter_congr fun y _ => ?_
    simp only [map_cons, mem_cons, not_or, Bool.decide_and, ne_eq]

/-- The last elements of the `m` keys written last. -/
def recent (key : α → κ) (m : ℕ) (history : List α) : List α :=
  (firstByKey key history.reverse).take m

theorem length_recent_le (m : ℕ) (history : List α) : (recent key m history).length ≤ m :=
  length_take_le ..

theorem nodup_recent (m : ℕ) (history : List α) : ((recent key m history).map key).Nodup :=
  (nodup_firstByKey _).sublist ((take_sublist ..).map key)

/-- Elements whose keys are among few ones leave many of a list without repeated keys. -/
theorem length_filter_notMem_ge {xs : List α} (hnodup : (xs.map key).Nodup) (keys : List κ) :
    xs.length - keys.length ≤ (xs.filter fun x => key x ∉ keys).length := by
  have hremoved : (xs.filter fun x => key x ∈ keys).length ≤ keys.length := by
    have hsub : ((xs.filter fun x => key x ∈ keys).map key) ⊆ keys := by
      intro k hk
      obtain ⟨x, hx, rfl⟩ := mem_map.mp hk
      simpa using (mem_filter.mp hx).2
    have hlength := (subperm_of_subset (hnodup.sublist (filter_sublist.map key)) hsub).length_le
    rwa [length_map] at hlength
  have hsplit := length_eq_length_filter_add (l := xs) fun x => decide (key x ∈ keys)
  simp only [← decide_not] at hsplit
  omega

/-- The first elements that pass a test are among the first ones, if enough of these pass. -/
theorem take_filter_take {p : α → Bool} {k m : ℕ} {xs : List α}
    (h : xs.length ≤ m ∨ k ≤ ((xs.take m).filter p).length) :
    (xs.filter p).take k = ((xs.take m).filter p).take k := by
  rcases h with h | h
  · rw [take_of_length_le h]
  · have hsplit := congrArg (List.filter p) (take_append_drop m xs)
    rw [filter_append] at hsplit
    rw [← hsplit, take_append_of_le_length h]

theorem recent_append (m : ℕ) (history batch : List α) :
    recent key m (history ++ batch) =
      recent key m batch ++
        ((recent key m history).filter fun x => key x ∉ (recent key m batch).map key).take
          (m - (recent key m batch).length) := by
  unfold recent
  rw [reverse_append, firstByKey_append]
  by_cases hfull : m ≤ (firstByKey key batch.reverse).length
  · -- the batch alone fills all places
    rw [take_append_of_le_length hfull, length_take, min_eq_left hfull, Nat.sub_self,
      take_zero, append_nil]
  · have hbatch : (firstByKey key batch.reverse).take m = firstByKey key batch.reverse :=
      take_of_length_le (by omega)
    have hkeys : (fun x => decide (key x ∉ batch.reverse.map key)) =
        fun x => decide (key x ∉ (firstByKey key batch.reverse).map key) := by
      funext x
      exact decide_eq_decide.mpr (not_congr mem_keys_firstByKey.symm)
    rw [hbatch, take_append, hbatch, hkeys]
    congr 1
    refine take_filter_take ?_
    by_cases hshort : (firstByKey key history.reverse).length ≤ m
    · exact .inl hshort
    · have hnodup : (((firstByKey key history.reverse).take m).map key).Nodup :=
        nodup_recent m history
      have hmany := length_filter_notMem_ge hnodup ((firstByKey key batch.reverse).map key)
      rw [length_take, length_map] at hmany
      right
      omega

theorem length_firstByKey (xs : List α) :
    (firstByKey key xs).length = (xs.map key).toFinset.card := by
  have hkeys : ((firstByKey key xs).map key).toFinset = (xs.map key).toFinset := by
    ext k
    rw [mem_toFinset, mem_toFinset, mem_keys_firstByKey]
  rw [← hkeys, toFinset_card_of_nodup (nodup_firstByKey xs), length_map]

/-- An element is among the most recent ones if its key is not written again and few other keys
are written after it. -/
theorem mem_recent_split {m : ℕ} {before after : List α} {x : α} (hlast : key x ∉ after.map key) :
    x ∈ recent key m (before ++ x :: after) ↔ (after.map key).toFinset.card < m := by
  have hkept : decide (key x ∉ after.reverse.map key) = true := by simpa using hlast
  have hfirst : firstByKey key (before ++ x :: after).reverse =
      firstByKey key after.reverse ++ x ::
        ((firstByKey key before.reverse).filter fun y => key y ≠ key x).filter
          fun y => key y ∉ after.reverse.map key := by
    rw [reverse_append, reverse_cons, append_assoc, singleton_append,
      firstByKey_append, firstByKey, filter_cons_of_pos (by simpa using hkept)]
  have hlength : (firstByKey key after.reverse).length = (after.map key).toFinset.card := by
    rw [length_firstByKey, map_reverse, toFinset_reverse]
  unfold recent
  rw [hfirst, ← hlength]
  constructor
  · intro hmem
    by_contra hge
    rw [take_append_of_le_length (Nat.le_of_not_lt hge)] at hmem
    have hafter := (firstByKey_sublist after.reverse).subset (mem_of_mem_take hmem)
    exact hlast (mem_map_of_mem (mem_reverse.mp hafter))
  · intro hlt
    rw [take_append, take_cons (by omega)]
    simp

theorem mem_recent_iff {m : ℕ} {history : List α} {x : α} :
    x ∈ recent key m history ↔
      ∃ before after, history = before ++ x :: after ∧ key x ∉ after.map key ∧
        (after.map key).toFinset.card < m := by
  constructor
  · intro hmem
    have hfind := mem_firstByKey.mp (mem_of_mem_take hmem)
    obtain ⟨-, as, bs, hsplit, hother⟩ := find?_eq_some_iff_append.mp hfind
    have hhistory : history = bs.reverse ++ x :: as.reverse := by
      rw [← reverse_reverse history, hsplit]
      simp
    have hlast : key x ∉ as.reverse.map key := by
      intro hkey
      obtain ⟨y, hy, heq⟩ := mem_map.mp hkey
      simpa [heq] using hother y (mem_reverse.mp hy)
    refine ⟨bs.reverse, as.reverse, hhistory, hlast, ?_⟩
    rw [hhistory] at hmem
    exact (mem_recent_split hlast).mp hmem
  · rintro ⟨before, after, rfl, hlast, hfew⟩
    exact (mem_recent_split hlast).mpr hfew

end Trufflepig.Lib
