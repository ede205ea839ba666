import Mathlib

/-!
# Fallible computations

Peeling computations in `Except` apart, and the invariant rule for loops in it.
-/

namespace Trufflepig.Lib

open List

variable {α β ε σ : Type} {x : Except ε α}

theorem bind_eq_ok {f : α → Except ε β} {b : β} :
    (x >>= f) = .ok b ↔ ∃ a, x = .ok a ∧ f a = .ok b := by
  cases x with
  | error e => simp [bind, Except.bind]
  | ok a => simp [bind, Except.bind]

theorem map_eq_ok {f : α → β} {b : β} (h : x.map f = .ok b) :
    ∃ a, x = .ok a ∧ f a = b := by
  cases x with
  | error e => exact nomatch h
  | ok a => exact ⟨a, rfl, Except.ok.inj h⟩

variable {xs : List α} {ys : List β}

theorem mapM_eq_ok {f : α → Except ε β} :
    xs.mapM f = .ok ys ↔ List.Forall₂ (fun x y => f x = .ok y) xs ys := by
  induction xs generalizing ys with
  | nil => simp [pure, Except.pure, eq_comm]
  | cons x xs ih =>
    simp only [mapM_cons, bind_eq_ok, ih, forall₂_cons_left_iff]
    constructor
    · rintro ⟨y, hy, rest, hrest, ⟨⟩⟩
      exact ⟨y, rest, hy, hrest, rfl⟩
    · rintro ⟨y, rest, hy, hrest, rfl⟩
      exact ⟨y, hy, rest, hrest, rfl⟩

theorem exists_of_forall₂_right {R : α → β → Prop} (h : List.Forall₂ R xs ys) {y : β}
    (hy : y ∈ ys) : ∃ x ∈ xs, R x y := by
  induction h with
  | nil => exact absurd hy not_mem_nil
  | cons hfirst _ ih =>
    rcases mem_cons.mp hy with rfl | hy
    · exact ⟨_, mem_cons_self, hfirst⟩
    · obtain ⟨x, hx, hR⟩ := ih hy
      exact ⟨x, mem_cons_of_mem _ hx, hR⟩

variable {f : σ → α → Except ε σ}

/-- What every pass of a loop keeps holds when the loop has ended. -/
theorem foldlM_invariant (motive : σ → Prop)
    (hstep : ∀ a ∈ xs, ∀ s s', motive s → f s a = .ok s' → motive s') {s s' : σ} (hs : motive s)
    (h : xs.foldlM f s = .ok s') : motive s' := by
  induction xs generalizing s with
  | nil =>
    cases h
    exact hs
  | cons a xs ih =>
    obtain ⟨t, ht, h⟩ := bind_eq_ok.mp h
    exact ih (fun b hb => hstep b (mem_cons_of_mem _ hb)) (hstep a mem_cons_self s t hs ht) h

/-- The invariant of a loop may speak of the elements that it has passed. -/
theorem foldlM_invariant_passed (motive : List α → σ → Prop)
    (hstep : ∀ passed a rest, xs = passed ++ a :: rest → ∀ s s', motive passed s →
      f s a = .ok s' → motive (passed ++ [a]) s') {s s' : σ} (hs : motive [] s)
    (h : xs.foldlM f s = .ok s') : motive xs s' := by
  have hrun : ∀ rest passed s, xs = passed ++ rest → motive passed s → rest.foldlM f s = .ok s' →
      motive xs s' := by
    intro rest
    induction rest with
    | nil =>
      intro passed s hxs hs h
      cases h
      rwa [hxs, append_nil]
    | cons a rest ih =>
      intro passed s hxs hs h
      obtain ⟨t, ht, h⟩ := bind_eq_ok.mp h
      apply ih (passed ++ [a]) t _ (hstep passed a rest hxs s t hs ht) h
      rw [hxs, append_assoc]
      rfl
  exact hrun xs [] s rfl hs h

/-- A fold whose steps all succeed succeeds. -/
theorem exists_foldlM_ok (hstep : ∀ s, ∀ a ∈ xs, ∃ s', f s a = .ok s') (s : σ) :
    ∃ s', xs.foldlM f s = .ok s' := by
  induction xs generalizing s with
  | nil => exact ⟨s, rfl⟩
  | cons a xs ih =>
    obtain ⟨t, ht⟩ := hstep s a mem_cons_self
    obtain ⟨s', hs'⟩ := ih (fun s b hb => hstep s b (mem_cons_of_mem _ hb)) t
    exact ⟨s', bind_eq_ok.mpr ⟨t, ht, hs'⟩⟩

/-- What each element of a loop establishes, and no later one undoes, holds at the end. -/
theorem foldl_establishes {R : σ → σ → Prop} (hrefl : ∀ s, R s s)
    (htrans : ∀ a b c, R a b → R b c → R a c) (post : α → σ → Prop)
    (hstable : ∀ a s s', R s s' → post a s → post a s') {f : σ → α → σ} (xs : List α)
    (hstep : ∀ s, ∀ a ∈ xs, R s (f s a) ∧ post a (f s a)) (s : σ) :
    R s (xs.foldl f s) ∧ ∀ a ∈ xs, post a (xs.foldl f s) := by
  induction xs generalizing s with
  | nil => exact ⟨hrefl s, fun _ h => absurd h not_mem_nil⟩
  | cons a xs ih =>
    obtain ⟨hfirst, hpost⟩ := hstep s a mem_cons_self
    obtain ⟨hrest, hposts⟩ := ih (fun s b hb => hstep s b (mem_cons_of_mem _ hb)) (f s a)
    refine ⟨htrans _ _ _ hfirst hrest, fun b hb => ?_⟩
    rcases mem_cons.mp hb with rfl | hb
    · exact hstable _ _ _ hrest hpost
    · exact hposts b hb

end Trufflepig.Lib
