import Mathlib

/-!
# Lists that are visited round from a cursor

A list with a cursor is a ring: the list rotated to the cursor. A round visits it once from
the cursor on, and the next round starts behind the element where this one stopped.

* `roundFrom_eq_some`: where a round stops.
* `rotate_behind`: the ring behind the element where a round stopped.
* `rotate_eraseIdx`: the ring without an element, if the cursor stays where it was.
* `flatMap_perm_filter`: the contents of the ring, one element apart.
-/

namespace Trufflepig.Lib

open List

variable {ρ α : Type}

/-- The first element from the cursor on, round the end of the list, where `f` is defined: the
value of `f` and the position of the element. -/
def roundFrom (order : List ρ) (cursor : ℕ) (f : ρ → Option α) : Option (α × ℕ) :=
  (List.range order.length).findSome? fun offset =>
    let index := (cursor + offset) % order.length
    (order[index]?.bind f).map (·, index)

section Round

variable {order : List ρ} {cursor : ℕ} {f : ρ → Option α}

theorem getElem?_round {offset : ℕ} (h : offset < order.length) :
    order[(cursor + offset) % order.length]? = (order.rotate cursor)[offset]? := by
  rw [getElem?_rotate h, Nat.add_comm]

/-- A round that stops: the elements before are skipped, and `f` is undefined there. -/
theorem roundFrom_eq_some {x : α} {index : ℕ} (h : roundFrom order cursor f = some (x, index)) :
    ∃ skipped r after, order.rotate cursor = skipped ++ r :: after ∧
      (∀ y ∈ skipped, f y = none) ∧ f r = some x ∧ order[index]? = some r ∧
      index = (cursor + skipped.length) % order.length := by
  obtain ⟨before, offset, later, hrange, hfound, hbefore⟩ := findSome?_eq_some_iff.mp h
  rw [range_eq_range'] at hrange
  obtain ⟨k, hk, rfl, hlater⟩ := range'_eq_append_iff.mp hrange
  have hlength := congrArg List.length hlater
  rw [length_cons, length_range'] at hlength
  have hoffset : offset = k := by
    have hhead := congrArg List.head? hlater
    rw [head?_cons, head?_range', if_neg (by omega)] at hhead
    rw [Option.some.inj hhead, Nat.zero_add, Nat.mul_one]
  subst hoffset
  have hlt : offset < (order.rotate cursor).length := by rw [length_rotate]; omega
  dsimp only at hfound
  rw [getElem?_round (by omega), getElem?_eq_getElem hlt, Option.bind_some,
    Option.map_eq_some_iff] at hfound
  obtain ⟨y, hy, hpair⟩ := hfound
  obtain ⟨rfl, rfl⟩ := Prod.mk.inj hpair
  refine ⟨(order.rotate cursor).take offset, (order.rotate cursor)[offset],
    (order.rotate cursor).drop (offset + 1), ?_, ?_, hy, ?_, ?_⟩
  · rw [getElem_cons_drop, take_append_drop]
  · intro z hz
    obtain ⟨i, hi, rfl⟩ := mem_iff_getElem.mp hz
    rw [length_take] at hi
    have hskipped := hbefore i (mem_range'_1.mpr (by omega))
    dsimp only at hskipped
    rw [getElem?_round (by omega), getElem?_eq_getElem (by omega), Option.bind_some,
      Option.map_eq_none_iff] at hskipped
    rw [getElem_take]
    exact hskipped
  · rw [getElem?_round (by omega), getElem?_eq_getElem hlt]
  · rw [length_take, Nat.min_eq_left (by omega)]

/-- A round that does not stop has visited every element. -/
theorem roundFrom_eq_none (h : roundFrom order cursor f = none) : ∀ r ∈ order, f r = none := by
  intro r hr
  obtain ⟨i, hi, rfl⟩ := mem_iff_getElem.mp ((mem_rotate (n := cursor)).mpr hr)
  rw [length_rotate] at hi
  have hskipped := findSome?_eq_none_iff.mp h i (mem_range.mpr hi)
  dsimp only at hskipped
  rw [getElem?_round hi, getElem?_eq_getElem (by rw [length_rotate]; exact hi),
    Option.bind_some, Option.map_eq_none_iff] at hskipped
  exact hskipped

/-- The ring once the cursor is behind the element where a round stopped. -/
theorem rotate_behind {skipped after : List ρ} {r : ρ}
    (h : order.rotate cursor = skipped ++ r :: after) :
    order.rotate (((cursor + skipped.length) % order.length + 1) % order.length) =
      after ++ skipped ++ [r] := by
  calc order.rotate (((cursor + skipped.length) % order.length + 1) % order.length)
      = (order.rotate ((cursor + skipped.length) % order.length)).rotate 1 := by
        rw [rotate_mod, rotate_rotate]
    _ = ((order.rotate cursor).rotate skipped.length).rotate 1 := by
        rw [rotate_mod, ← rotate_rotate order cursor]
    _ = ((r :: after) ++ skipped).rotate 1 := by rw [h, rotate_append_length_eq]
    _ = after ++ skipped ++ [r] := by rw [cons_append, rotate_cons_succ, rotate_zero]

end Round

section Erase

variable [DecidableEq ρ] {order : List ρ} {r : ρ}

theorem eraseIdx_eq_filter (hnodup : order.Nodup) {index : ℕ} (h : order[index]? = some r) :
    order.eraseIdx index = order.filter (· ≠ r) := by
  obtain ⟨hlt, hget⟩ := List.getElem?_eq_some_iff.mp h
  have hidx : order.idxOf r = index := by rw [← hget]; exact hnodup.idxOf_getElem index hlt
  rw [← hidx, ← erase_eq_eraseIdx_of_idxOf rfl, hnodup.erase_eq_filter]
  apply filter_congr
  intro x _
  by_cases hx : x = r
  · simp [hx]
  · simp [hx]

/-- Without the element at a position the ring is the old one without that element, if the
cursor keeps its place. -/
theorem rotate_eraseIdx (hnodup : order.Nodup) {index cursor : ℕ} (h : order[index]? = some r)
    (hcursor : cursor < order.length) :
    (order.eraseIdx index).rotate (if order.eraseIdx index = [] then 0
      else if index < cursor then cursor - 1 else cursor % (order.eraseIdx index).length) =
      (order.rotate cursor).filter (· ≠ r) := by
  obtain ⟨hlt, hget⟩ := List.getElem?_eq_some_iff.mp h
  rw [rotate_eq_drop_append_take (l := order) (by omega), filter_append]
  by_cases hempty : order.eraseIdx index = []
  · rw [hempty, rotate_nil, eq_comm, append_eq_nil_iff]
    rw [eraseIdx_eq_filter hnodup h, ← take_append_drop cursor order, filter_append,
      append_eq_nil_iff] at hempty
    exact ⟨hempty.2, hempty.1⟩
  rw [if_neg hempty]
  have hsplit : order.eraseIdx index =
      (order.take cursor).filter (· ≠ r) ++ (order.drop cursor).filter (· ≠ r) := by
    rw [eraseIdx_eq_filter hnodup h, ← filter_append, take_append_drop]
  have hnodup' : (order.take cursor).Nodup := hnodup.sublist (take_sublist _ _)
  split_ifs with hbefore
  · -- The element is before the cursor, which moves back by one.
    have hlength : ((order.take cursor).filter (· ≠ r)).length = cursor - 1 := by
      have htake : (order.take cursor)[index]? = some r := by
        rw [getElem?_take_of_lt hbefore, h]
      rw [← eraseIdx_eq_filter hnodup' htake, length_eraseIdx_of_lt, length_take]
      · omega
      · rw [length_take]; omega
    rw [hsplit, ← hlength, rotate_append_length_eq]
  · have hmem : r ∉ order.take cursor := by
      intro hmem
      obtain ⟨i, hi, hri⟩ := mem_iff_getElem.mp hmem
      rw [length_take] at hi
      rw [getElem_take] at hri
      have := (List.Nodup.getElem_inj_iff hnodup).mp (hri.trans hget.symm)
      omega
    have hkeep : (order.take cursor).filter (· ≠ r) = order.take cursor := by
      rw [filter_eq_self]
      intro x hx
      exact decide_eq_true fun hxr => hmem (hxr ▸ hx)
    have hlength : (order.take cursor).length = cursor := by rw [length_take]; omega
    have hrotate := rotate_append_length_eq (order.take cursor) ((order.drop cursor).filter (· ≠ r))
    rw [hlength] at hrotate
    rw [rotate_mod, hsplit, hkeep, hrotate]

end Erase

section Contents

variable [DecidableEq ρ] {order : List ρ} {r : ρ} {f g : ρ → List α}

/-- The contents of the ring, with those of one element in front. -/
theorem flatMap_perm_filter (hnodup : order.Nodup) (hr : r ∈ order) (f : ρ → List α) :
    (order.flatMap f).Perm (f r ++ (order.filter (· ≠ r)).flatMap f) := by
  have hperm : order.Perm (r :: order.filter (· ≠ r)) := by
    refine (perm_ext_iff_of_nodup hnodup
      (nodup_cons.mpr ⟨by simp, hnodup.filter _⟩)).mpr fun x => ?_
    by_cases hx : x = r
    · simp [hx, hr]
    · simp [hx]
  rw [← flatMap_cons]
  exact hperm.flatMap_right f

/-- One more item at one element is one more item of the contents. -/
theorem flatMap_perm_cons (hnodup : order.Nodup) (hr : r ∈ order) {item : α}
    (hfront : (f r).Perm (item :: g r)) (hothers : ∀ x, x ≠ r → f x = g x) :
    (order.flatMap f).Perm (item :: order.flatMap g) := by
  have hrest : (order.filter (· ≠ r)).flatMap f = (order.filter (· ≠ r)).flatMap g :=
    flatMap_congr fun x hx => hothers x (of_decide_eq_true (mem_filter.mp hx).2)
  have hf := flatMap_perm_filter hnodup hr f
  rw [hrest] at hf
  exact hf.trans ((hfront.append_right _).trans ((flatMap_perm_filter hnodup hr g).symm.cons item))

theorem flatMap_filter_ne (hf : f r = []) : (order.filter (· ≠ r)).flatMap f = order.flatMap f := by
  induction order with
  | nil => rfl
  | cons x rest ih =>
    by_cases hx : x = r
    · rw [filter_cons_of_neg (by simpa using hx), flatMap_cons, hx, hf, nil_append, ih]
    · rw [filter_cons_of_pos (by simpa using hx), flatMap_cons, flatMap_cons, ih]

end Contents

end Trufflepig.Lib
