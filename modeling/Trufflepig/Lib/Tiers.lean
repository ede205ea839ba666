import Trufflepig.Lib.StableOrder

/-!
# Buffers for the first rows of each tier

A stream of rows is put into one buffer for each tier, the best tier first. The buffers hold no more
than a limit of rows together: once they are full, a row of a better tier takes the place of the last
row of the worst one.

* `Tiers.Holds.offer`: what the buffers hold after one more row.
* `Tiers.Holds.extend`: nothing that comes after a full buffer of the best tier has a place.
* `Tiers.Holds.flatten`: together the buffers are the start of the rows in the order of their tiers.
-/

namespace Trufflepig.Lib

open List

variable {α : Type*}

/-- The buffers, how many rows they hold, and whether a row had no place. -/
structure Tiers (α : Type*) where
  buffers : ℕ → List α
  retained : ℕ
  truncated : Bool

namespace Tiers

def empty : Tiers α := ⟨fun _ => [], 0, false⟩

/-- The buffers one after the other. -/
def flatten (count : ℕ) (tiers : Tiers α) : List α := (List.range count).flatMap tiers.buffers

/-- The last tier with a row. -/
def worst (count : ℕ) (tiers : Tiers α) : Option ℕ :=
  (List.range count).reverse.find? fun t => !(tiers.buffers t).isEmpty

def push (tiers : Tiers α) (t : ℕ) (x : α) : Tiers α :=
  { tiers with buffers := Function.update tiers.buffers t (tiers.buffers t ++ [x]) }

def pop (tiers : Tiers α) (t : ℕ) : Tiers α :=
  { tiers with buffers := Function.update tiers.buffers t (tiers.buffers t).dropLast }

/-- Takes one more row; the flag tells whether a later row can have a place. Full buffers without a
row have no worst tier. -/
def offer (count limit : ℕ) (rank : α → ℕ) (tiers : Tiers α) (x : α) : Option (Tiers α × Bool) :=
  if tiers.retained < limit then
    some ({ tiers.push (rank x) x with retained := tiers.retained + 1 }, true)
  else
    (tiers.worst count).map fun worst =>
      if rank x < worst then ({ (tiers.pop worst).push (rank x) x with truncated := true }, true)
      else ({ tiers with truncated := true }, !(rank x = 0 && worst = 0))

/-- The best tier has all the room. -/
def firstFull (limit : ℕ) (tiers : Tiers α) : Bool :=
  tiers.retained = limit && (tiers.buffers 0).length = limit

theorem worst_eq_some {count w : ℕ} {tiers : Tiers α} (h : tiers.worst count = some w) :
    w < count ∧ tiers.buffers w ≠ [] ∧ ∀ t, w < t → t < count → tiers.buffers t = [] := by
  unfold worst at h
  obtain ⟨hw, before, after, hsplit, hbefore⟩ := find?_eq_some_iff_append.mp h
  have hmem : w ∈ (List.range count).reverse := by rw [hsplit]; simp
  refine ⟨by simpa using hmem, by simpa using hw, fun t hwt ht => ?_⟩
  have hsorted : (List.range count).reverse.Pairwise (· > ·) :=
    pairwise_reverse.mpr pairwise_lt_range
  have htmem : t ∈ before ++ w :: after := by rw [← hsplit]; simpa using ht
  rw [hsplit] at hsorted
  rcases mem_append.mp htmem with hin | hin
  · simpa using hbefore t hin
  · rcases mem_cons.mp hin with rfl | hin
    · omega
    · have hgt := (pairwise_cons.mp (pairwise_append.mp hsorted).2.1).1 t hin
      omega

theorem worst_eq_none {count : ℕ} {tiers : Tiers α} (h : tiers.worst count = none) {t : ℕ}
    (ht : t < count) : tiers.buffers t = [] := by
  have hnone := find?_eq_none.mp h t (by simpa using ht)
  simpa using hnone

end Tiers

/-! ## Counting -/

/-- How many rows are of a better tier. -/
def below (rank : α → ℕ) (t : ℕ) (xs : List α) : ℕ := xs.countP fun x => rank x < t

section Below

variable {rank : α → ℕ} {xs : List α}

theorem below_zero : below rank 0 xs = 0 := by
  simp [below]

theorem below_succ (rank : α → ℕ) (xs : List α) (t : ℕ) :
    below rank (t + 1) xs = below rank t xs + (ofRank rank t xs).length := by
  unfold below ofRank
  rw [← countP_eq_length_filter]
  induction xs with
  | nil => rfl
  | cons x xs ih =>
    simp only [countP_cons, ih, decide_eq_true_eq]
    split_ifs <;> omega

theorem below_mono {s t : ℕ} (h : s ≤ t) : below rank s xs ≤ below rank t xs := by
  induction t, h using Nat.le_induction with
  | base => exact le_rfl
  | succ t _ ih =>
    rw [below_succ]
    omega

theorem below_eq_length {count : ℕ} (h : ∀ x ∈ xs, rank x < count) :
    below rank count xs = xs.length :=
  countP_eq_length.mpr fun x hx => decide_eq_true (h x hx)

theorem below_append (t : ℕ) (ys : List α) :
    below rank t (xs ++ ys) = below rank t xs + below rank t ys := countP_append

theorem below_singleton (t : ℕ) (x : α) : below rank t [x] = if rank x < t then 1 else 0 := by
  unfold below
  rw [countP_singleton]
  simp only [decide_eq_true_eq]

theorem ofRank_singleton (t : ℕ) (x : α) : ofRank rank t [x] = if rank x = t then [x] else [] := by
  unfold ofRank
  by_cases h : rank x = t
  · simp [h]
  · simp [h]

/-- Cutting each part where the parts before it leave no more room cuts the whole. -/
theorem flatMap_take (rank : α → ℕ) (xs : List α) (limit s n : ℕ) :
    (List.range' s n).flatMap (fun t => (ofRank rank t xs).take (limit - below rank t xs)) =
      ((List.range' s n).flatMap fun t => ofRank rank t xs).take (limit - below rank s xs) := by
  induction n generalizing s with
  | zero => simp
  | succ n ih =>
    rw [range'_succ, flatMap_cons, flatMap_cons, ih (s + 1), take_append,
      below_succ, Nat.sub_add_eq]

end Below

/-! ## What the buffers hold -/

/-- Each buffer has the first rows of its tier, as many as the better tiers leave room for. -/
structure Tiers.Holds (count limit : ℕ) (rank : α → ℕ) (xs : List α) (tiers : Tiers α) : Prop where
  ranks : ∀ x ∈ xs, rank x < count
  buffers : ∀ t, tiers.buffers t = (ofRank rank t xs).take (limit - below rank t xs)
  retained : tiers.retained = min limit xs.length
  truncated : tiers.truncated = true → limit ≤ xs.length

namespace Tiers.Holds

variable {count limit : ℕ} {rank : α → ℕ} {xs : List α} {tiers : Tiers α} {x : α}

theorem empty : Holds count limit rank [] (Tiers.empty : Tiers α) where
  ranks _ h := absurd h not_mem_nil
  buffers _ := take_nil.symm
  retained := (Nat.min_zero limit).symm
  truncated h := nomatch h

section

variable (h : Holds count limit rank xs tiers)
include h

theorem flatten :
    tiers.flatten count = (orderBy (compareOn rank) xs).take limit := by
  have htake := flatMap_take rank xs limit 0 count
  rw [below_zero, Nat.sub_zero, ← range_eq_range'] at htake
  rw [orderBy_rank h.ranks, ← htake]
  exact flatMap_congr fun t _ => h.buffers t

/-- While there is room behind a tier, empty buffers mean that there is no row. -/
theorem below_stays {s t : ℕ} (hst : s ≤ t) (hroom : below rank s xs < limit)
    (hempty : ∀ u, s ≤ u → u < t → tiers.buffers u = []) : below rank t xs = below rank s xs := by
  induction t, hst using Nat.le_induction with
  | base => rfl
  | succ t hst ih =>
    have hbelow := ih fun u hu hut => hempty u hu (by omega)
    have hnil := hempty t hst (Nat.lt_succ_self t)
    rw [h.buffers t, take_eq_nil_iff] at hnil
    rcases hnil with hzero | hnil
    · omega
    · rw [below_succ, hnil, length_nil, hbelow, Nat.add_zero]

/-- The limit is reached within the worst tier of full buffers. -/
theorem worst_bounds (hfull : limit ≤ xs.length) {w : ℕ} (hw : tiers.worst count = some w) :
    below rank w xs < limit ∧ limit ≤ below rank (w + 1) xs := by
  obtain ⟨hcount, hne, hempty⟩ := Tiers.worst_eq_some hw
  constructor
  · by_contra hover
    apply hne
    rw [h.buffers w, Nat.sub_eq_zero_of_le (by omega), take_zero]
  · by_contra hroom
    have hle : w + 1 ≤ count := by omega
    have hstays := h.below_stays hle (by omega) fun u hu hut => hempty u (by omega) hut
    rw [below_eq_length h.ranks] at hstays
    omega

theorem worst_ne_none (hpos : 0 < limit) (hfull : limit ≤ xs.length) :
    tiers.worst count ≠ none := by
  intro hnone
  have hstays := h.below_stays (Nat.zero_le count) (by rwa [below_zero]) fun u _ hu =>
    Tiers.worst_eq_none hnone hu
  rw [below_eq_length h.ranks, below_zero] at hstays
  omega

/-- A row while there is room. -/
theorem push (hx : rank x < count) (hroom : xs.length < limit) :
    Holds count limit rank (xs ++ [x])
      { tiers.push (rank x) x with retained := tiers.retained + 1 } := by
  have hfits : ∀ ys : List α, ys.length ≤ limit → ∀ t,
      (ofRank rank t ys).take (limit - below rank t ys) = ofRank rank t ys := by
    intro ys hys t
    apply take_of_length_le
    have hsucc := below_succ rank ys t
    have hle : below rank (t + 1) ys ≤ ys.length := countP_le_length
    omega
  have hlength : (xs ++ [x]).length = xs.length + 1 := by simp
  refine ⟨?_, fun t => ?_, ?_, fun htruncated => ?_⟩
  · exact forall_mem_append.mpr ⟨h.ranks, by simpa using hx⟩
  · rw [hfits _ (by omega), ofRank_append, ofRank_singleton]
    show Function.update tiers.buffers (rank x) (tiers.buffers (rank x) ++ [x]) t = _
    by_cases ht : t = rank x
    · rw [ht, Function.update_self, if_pos rfl, h.buffers, hfits xs hroom.le]
    · rw [Function.update_of_ne ht, if_neg (Ne.symm ht), append_nil, h.buffers, hfits xs hroom.le]
  · show tiers.retained + 1 = _
    rw [h.retained, hlength]
    omega
  · have := h.truncated htruncated
    omega

/-- A row that has no place. -/
theorem refuse (hx : rank x < count) (hfull : limit ≤ xs.length) {w : ℕ}
    (hw : tiers.worst count = some w) (hworse : w ≤ rank x) :
    Holds count limit rank (xs ++ [x]) { tiers with truncated := true } := by
  obtain ⟨-, hreached⟩ := h.worst_bounds hfull hw
  have hlength : (xs ++ [x]).length = xs.length + 1 := by simp
  refine ⟨?_, fun t => ?_, ?_, fun _ => by omega⟩
  · exact forall_mem_append.mpr ⟨h.ranks, by simpa using hx⟩
  · show tiers.buffers t = _
    rw [h.buffers, ofRank_append, ofRank_singleton, below_append, below_singleton]
    have hsucc := below_succ rank xs t
    by_cases ht : rank x = t
    · have hmono : below rank (w + 1) xs ≤ below rank (t + 1) xs := below_mono (by omega)
      rw [if_pos ht, if_neg (by omega), Nat.add_zero, take_append_of_le_length (by omega)]
    · rw [if_neg ht, append_nil]
      by_cases hlt : rank x < t
      · have hmono : below rank (w + 1) xs ≤ below rank t xs := below_mono (by omega)
        rw [Nat.sub_eq_zero_of_le (by omega), Nat.sub_eq_zero_of_le (by omega)]
      · rw [if_neg hlt, Nat.add_zero]
  · show tiers.retained = _
    rw [h.retained, hlength]
    omega

/-- A row that takes the place of the last one of the worst tier. -/
theorem replace (hx : rank x < count) (hfull : limit ≤ xs.length) {w : ℕ}
    (hw : tiers.worst count = some w) (hbetter : rank x < w) :
    Holds count limit rank (xs ++ [x])
      { (tiers.pop w).push (rank x) x with truncated := true } := by
  obtain ⟨hroom, hreached⟩ := h.worst_bounds hfull hw
  have hlength : (xs ++ [x]).length = xs.length + 1 := by simp
  refine ⟨?_, fun t => ?_, ?_, fun _ => by omega⟩
  · exact forall_mem_append.mpr ⟨h.ranks, by simpa using hx⟩
  · show Function.update (Function.update tiers.buffers w (tiers.buffers w).dropLast) (rank x)
      (Function.update tiers.buffers w (tiers.buffers w).dropLast (rank x) ++ [x]) t = _
    have hinner : Function.update tiers.buffers w (tiers.buffers w).dropLast (rank x) =
        tiers.buffers (rank x) := Function.update_of_ne (by omega) ..
    rw [hinner, ofRank_append, ofRank_singleton, below_append, below_singleton]
    have hsucc := below_succ rank xs t
    rcases Nat.lt_trichotomy t (rank x) with ht | rfl | ht
    · -- a better tier: nothing changes
      rw [Function.update_of_ne (by omega), Function.update_of_ne (by omega), h.buffers,
        if_neg (by omega), if_neg (by omega), append_nil, Nat.add_zero]
    · -- the tier of the row has had room for all its rows
      have hmono : below rank (rank x + 1) xs ≤ below rank w xs := below_mono (by omega)
      rw [Function.update_self, h.buffers, if_pos rfl, if_neg (by omega), Nat.add_zero,
        take_of_length_le (by omega), take_of_length_le]
      rw [length_append, length_singleton]
      omega
    · rw [Function.update_of_ne (by omega), if_pos ht, if_neg (by omega), append_nil]
      rcases Nat.lt_trichotomy t w with htw | rfl | htw
      · have hmono : below rank (t + 1) xs ≤ below rank w xs := below_mono (by omega)
        rw [Function.update_of_ne (by omega), h.buffers, take_of_length_le (by omega),
          take_of_length_le (by omega)]
      · rw [Function.update_self, h.buffers, dropLast_eq_take, take_take, length_take]
        congr 1
        omega
      · have hmono : below rank (w + 1) xs ≤ below rank t xs := below_mono (by omega)
        rw [Function.update_of_ne (by omega), h.buffers, Nat.sub_eq_zero_of_le (by omega),
          Nat.sub_eq_zero_of_le (by omega)]
  · show tiers.retained = _
    rw [h.retained, hlength]
    omega

/-- One more row has its place or none; the loop ends only with a full buffer of the best tier. -/
theorem offer (hpos : 0 < limit) (hx : rank x < count) :
    ∃ next goesOn, tiers.offer count limit rank x = some (next, goesOn) ∧
      Holds count limit rank (xs ++ [x]) next ∧
      (goesOn = false → limit ≤ (ofRank rank 0 (xs ++ [x])).length) := by
  unfold Tiers.offer
  have hretained := h.retained
  by_cases hroom : tiers.retained < limit
  · rw [if_pos hroom]
    exact ⟨_, _, rfl, h.push hx (by omega), fun hstop => nomatch hstop⟩
  · have hfull : limit ≤ xs.length := by omega
    rw [if_neg hroom]
    cases hw : tiers.worst count with
    | none => exact absurd hw (h.worst_ne_none hpos hfull)
    | some w =>
      rw [Option.map_some]
      by_cases hbetter : rank x < w
      · rw [if_pos hbetter]
        exact ⟨_, _, rfl, h.replace hx hfull hw hbetter, fun hstop => nomatch hstop⟩
      · rw [if_neg hbetter]
        refine ⟨_, _, rfl, h.refuse hx hfull hw (by omega), fun hstop => ?_⟩
        simp only [Bool.not_eq_eq_eq_not, Bool.not_false, Bool.and_eq_true,
          decide_eq_true_eq] at hstop
        obtain ⟨-, rfl⟩ := hstop
        obtain ⟨-, hreached⟩ := h.worst_bounds hfull hw
        rw [below_succ, below_zero] at hreached
        rw [ofRank_append, length_append]
        omega

/-- A full best tier leaves no room for the rows to come. -/
theorem extend (hfirst : limit ≤ (ofRank rank 0 xs).length) {ys : List α}
    (hys : ∀ y ∈ ys, rank y < count) : Holds count limit rank (xs ++ ys) tiers := by
  have hone : below rank 1 xs = (ofRank rank 0 xs).length := by
    rw [below_succ, below_zero, Nat.zero_add]
  have hall : below rank 1 xs ≤ xs.length := countP_le_length
  refine ⟨?_, fun t => ?_, ?_, fun htruncated => ?_⟩
  · exact forall_mem_append.mpr ⟨h.ranks, hys⟩
  · rw [h.buffers, ofRank_append, below_append]
    cases t with
    | zero =>
      rw [below_zero, below_zero, take_append_of_le_length (by omega)]
    | succ t =>
      have hmono : below rank 1 xs ≤ below rank (t + 1) xs := below_mono (by omega)
      rw [Nat.sub_eq_zero_of_le (by omega), Nat.sub_eq_zero_of_le (by omega), take_zero, take_zero]
  · rw [h.retained, length_append]
    omega
  · rw [length_append]
    omega

theorem firstFull (hfull : tiers.firstFull limit = true) :
    limit ≤ (ofRank rank 0 xs).length := by
  obtain ⟨-, hlength⟩ := Bool.and_eq_true_iff.mp hfull
  have hlength := of_decide_eq_true hlength
  rw [h.buffers, length_take] at hlength
  omega

end

end Tiers.Holds

end Trufflepig.Lib
