import Mathlib

/-!
# Deltas between maps, and logs of deltas

A map from keys to values is changed by a list of assignments, replayed from
left to right. A log keeps such lists under numbered windows.

* `foldl_eq_of_covers`: steps that all write the new map's values and touch every
  key on which two maps differ turn the old map into the new one.
* `filter_window_append`: in a log ordered by window number, the entries of
  two adjacent ranges of windows are those of the joint range.
* `mem_of_length_eq`: distinct window numbers in a range that are as many as
  the range is long are all of it.
-/

namespace Trufflepig.Lib

open List

variable {κ ν α β : Type*}

/-! ## Replaying assignments -/

/-- Writes the value of one assignment. -/
def assign [DecidableEq κ] (t : κ → ν) (e : κ × ν) : κ → ν := Function.update t e.1 e.2

/-- Writes a list of assignments from left to right. -/
def replay [DecidableEq κ] (es : List (κ × ν)) (t : κ → ν) : κ → ν := es.foldl assign t

/-- **A correct delta.** Steps that write only values of `new`, leave what they do not
touch, and touch every key on which the start and `new` differ, end in `new`. -/
theorem foldl_eq_of_covers {σ : Type*} (view : σ → κ → ν) {new : κ → ν} (touches : α → κ → Prop)
    {f : σ → α → σ} {xs : List α} (hstep : ∀ s, ∀ a ∈ xs, ∀ k,
      view (f s a) k = new k ∨ ¬ touches a k ∧ view (f s a) k = view s k)
    {s : σ} (hcov : ∀ k, view s k ≠ new k → ∃ a ∈ xs, touches a k) :
    view (xs.foldl f s) = new := by
  induction xs generalizing s with
  | nil =>
    funext k
    by_contra hne
    obtain ⟨a, ha, -⟩ := hcov k hne
    exact not_mem_nil ha
  | cons a xs ih =>
    refine ih (fun s b hb => hstep s b (mem_cons_of_mem _ hb)) fun k hne => ?_
    rcases hstep s a mem_cons_self k with hnew | ⟨hnot, hsame⟩
    · exact absurd hnew hne
    · obtain ⟨b, hb, htouches⟩ := hcov k (hsame ▸ hne)
      rcases mem_cons.mp hb with rfl | hb
      · exact absurd htouches hnot
      · exact ⟨b, hb, htouches⟩

section Replay

variable [DecidableEq κ]

@[simp] theorem replay_nil (t : κ → ν) : replay [] t = t := rfl

@[simp] theorem replay_append (es fs : List (κ × ν)) (t : κ → ν) :
    replay (es ++ fs) t = replay fs (replay es t) := by
  simp [replay, foldl_append]

variable {es : List (κ × ν)}

/-- Assignments that write only values of `new` and touch every key on which `old` and
`new` differ. -/
theorem replay_eq_of_covers {old new : κ → ν} (hval : ∀ e ∈ es, e.2 = new e.1)
    (hcov : ∀ k, old k ≠ new k → k ∈ es.map Prod.fst) :
    replay es old = new := by
  refine foldl_eq_of_covers id (fun e k => e.1 = k) (fun t e he k => ?_)
    fun k hne => mem_map.mp (hcov k hne)
  by_cases hk : e.1 = k
  · obtain rfl := hk
    exact Or.inl ((Function.update_self _ _ _).trans (hval e he))
  · exact Or.inr ⟨hk, Function.update_of_ne (Ne.symm hk) _ _⟩

end Replay

/-! ## Windows of an ordered log -/

/-- The window numbers in the half-open range `(a, b]`. -/
def InWindow (a b g : ℤ) : Prop := a < g ∧ g ≤ b

instance (a b g : ℤ) : Decidable (InWindow a b g) := inferInstanceAs (Decidable (_ ∧ _))

theorem inWindow_self (a g : ℤ) : ¬ InWindow a a g := fun h => by unfold InWindow at h; omega

theorem inWindow_succ (a g : ℤ) : InWindow a (a + 1) g ↔ g = a + 1 := by
  unfold InWindow; omega

variable {a b : ℤ}

theorem filter_window_append (key : α → ℤ) {xs : List α}
    (hxs : xs.Pairwise fun x y => key x ≤ key y) {c : ℤ} (hab : a ≤ b) (hbc : b ≤ c) :
    xs.filter (fun x => InWindow a c (key x)) =
      xs.filter (fun x => InWindow a b (key x)) ++ xs.filter (fun x => InWindow b c (key x)) := by
  induction xs with
  | nil => rfl
  | cons x xs ih =>
    rw [pairwise_cons] at hxs
    have ih := ih hxs.2
    by_cases h1 : InWindow a b (key x)
    · have h2 : ¬ InWindow b c (key x) := by unfold InWindow at *; omega
      have h3 : InWindow a c (key x) := by unfold InWindow at *; omega
      simp [h1, h2, h3, ih]
    · by_cases h2 : InWindow b c (key x)
      · have h3 : InWindow a c (key x) := by unfold InWindow at *; omega
        -- nothing after `x` is in the lower range, since the keys only grow
        have hnil : xs.filter (fun y => InWindow a b (key y)) = [] := by
          rw [filter_eq_nil_iff]
          intro y hy
          have := hxs.1 y hy
          simp only [decide_eq_true_eq]
          unfold InWindow at *
          omega
        rw [hnil] at ih
        simp [h1, h2, h3, ih, hnil]
      · have h3 : ¬ InWindow a c (key x) := by unfold InWindow at *; omega
        simp [h1, h2, h3, ih]

variable {gs : List ℤ}

theorem toFinset_subset_window (hgs : ∀ g ∈ gs, InWindow a b g) :
    gs.toFinset ⊆ Finset.Ioc a b := by
  intro g hg
  exact Finset.mem_Ioc.mpr (hgs g (mem_toFinset.mp hg))

theorem length_le_window (hnd : gs.Nodup) (hab : a ≤ b) (hgs : ∀ g ∈ gs, InWindow a b g) :
    (gs.length : ℤ) ≤ b - a := by
  have hcard := Finset.card_le_card (toFinset_subset_window hgs)
  rw [toFinset_card_of_nodup hnd, Int.card_Ioc] at hcard
  omega

theorem mem_of_length_eq (hnd : gs.Nodup) (hgs : ∀ g ∈ gs, InWindow a b g)
    (hlen : (gs.length : ℤ) = b - a) :
    ∀ g, InWindow a b g → g ∈ gs := by
  intro g hg
  have hcard : (Finset.Ioc a b).card ≤ gs.toFinset.card := by
    rw [toFinset_card_of_nodup hnd, Int.card_Ioc]
    omega
  rw [← mem_toFinset, Finset.eq_of_subset_of_card_le (toFinset_subset_window hgs) hcard]
  exact Finset.mem_Ioc.mpr hg

end Trufflepig.Lib
