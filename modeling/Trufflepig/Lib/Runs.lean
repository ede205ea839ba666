import Mathlib

/-!
# Joining elements into runs

Elements are read one after another. An element that continues the last run is joined to it, and
starts a run of its own otherwise. A run expands to its elements.

* `flatMap_joinAll`: the runs expand to the elements.
-/

namespace Trufflepig.Lib

open List

variable {α ρ : Type*} (join : ρ → α → Option ρ) (single : α → ρ)

/-- Joins an element to the last run, or starts a new run. -/
def pushJoin (runs : List ρ) (a : α) : List ρ :=
  match runs.getLast?.bind (join · a) with
  | some joined => runs.dropLast ++ [joined]
  | none => runs ++ [single a]

/-- The runs of some elements. -/
def joinAll (xs : List α) : List ρ := xs.foldl (pushJoin join single) []

/-- Runs expand to their elements, as long as these are in `P`. -/
structure RunLaws (expand : ρ → List α) (P : α → Prop) : Prop where
  expand_single : ∀ a, expand (single a) = [a]
  expand_join : ∀ run a joined, expand run ≠ [] → (∀ b ∈ expand run, P b) →
    join run a = some joined → expand joined = expand run ++ [a]

theorem pushJoin_cases (runs : List ρ) (a : α) :
    (∃ before run joined, runs = before ++ [run] ∧ join run a = some joined ∧
      pushJoin join single runs a = before ++ [joined]) ∨
    ((∀ run, runs.getLast? = some run → join run a = none) ∧
      pushJoin join single runs a = runs ++ [single a]) := by
  unfold pushJoin
  rcases eq_nil_or_concat' runs with rfl | ⟨before, run, rfl⟩
  · exact .inr ⟨fun run h => (nomatch h), rfl⟩
  · rw [getLast?_concat, Option.bind_some, dropLast_concat]
    cases hjoin : join run a with
    | some joined => exact .inl ⟨before, run, joined, rfl, hjoin, rfl⟩
    | none =>
      refine .inr ⟨fun last hlast => ?_, rfl⟩
      rw [← Option.some.inj hlast]
      exact hjoin

variable {join single}

/-- The elements of the runs grow by one, also if only some value `f` of each element is looked at.
-/
theorem flatMap_pushJoin {β : Type*} {expand : ρ → List β} {f : α → β} {runs : List ρ} {a : α}
    (hsingle : expand (single a) = [f a])
    (hjoin : ∀ run ∈ runs, ∀ joined, join run a = some joined → expand joined = expand run ++ [f a]) :
    (pushJoin join single runs a).flatMap expand = runs.flatMap expand ++ [f a] := by
  rcases pushJoin_cases join single runs a with ⟨before, run, joined, rfl, hrun, heq⟩ | ⟨-, heq⟩
  · simp [heq, hjoin run (by simp) joined hrun]
  · simp [heq, hsingle]

theorem length_le_pushJoin (runs : List ρ) (a : α) :
    runs.length ≤ (pushJoin join single runs a).length := by
  rcases pushJoin_cases join single runs a with ⟨before, run, joined, rfl, -, heq⟩ | ⟨-, heq⟩
  · rw [heq]
    simp
  · rw [heq]
    simp

theorem length_le_foldl_pushJoin (xs : List α) (runs : List ρ) :
    runs.length ≤ (xs.foldl (pushJoin join single) runs).length := by
  induction xs generalizing runs with
  | nil => exact Nat.le_refl _
  | cons a xs ih => exact (length_le_pushJoin runs a).trans (ih _)

section Laws

variable {expand : ρ → List α} {P : α → Prop}

/-- Runs of elements of `P`, none of which continues the one before it. -/
structure GoodRuns (join : ρ → α → Option ρ) (expand : ρ → List α) (P : α → Prop)
    (runs : List ρ) : Prop where
  nonempty : ∀ run ∈ runs, expand run ≠ []
  inside : ∀ run ∈ runs, ∀ a ∈ expand run, P a
  chain : runs.IsChain fun run next => ∀ a, (expand next).head? = some a → join run a = none

theorem GoodRuns.nil : GoodRuns join expand P [] :=
  ⟨fun _ h => (nomatch h), fun _ h => (nomatch h), .nil⟩

/-- An element that is read. -/
theorem GoodRuns.pushJoin (laws : RunLaws join single expand P) {runs : List ρ}
    (h : GoodRuns join expand P runs) {a : α} (ha : P a) :
    GoodRuns join expand P (pushJoin join single runs a) ∧
      (pushJoin join single runs a).flatMap expand = runs.flatMap expand ++ [a] := by
  refine ⟨?_, flatMap_pushJoin (f := id) (laws.expand_single a) fun run hrun joined hjoin =>
    laws.expand_join run a joined (h.nonempty run hrun) (h.inside run hrun) hjoin⟩
  rcases pushJoin_cases join single runs a with ⟨before, run, joined, rfl, hjoin, heq⟩ | ⟨hnone, heq⟩
  · obtain ⟨hnonempty, hrun⟩ := forall_mem_append.mp h.nonempty
    obtain ⟨hinside, hrunInside⟩ := forall_mem_append.mp h.inside
    rw [forall_mem_singleton] at hrun hrunInside
    have hexpand := laws.expand_join run a joined hrun hrunInside hjoin
    rw [heq]
    refine ⟨forall_mem_append.mpr ⟨hnonempty, by simp [hexpand]⟩,
      forall_mem_append.mpr ⟨hinside, ?_⟩, ?_⟩
    · rw [forall_mem_singleton, hexpand]
      exact forall_mem_append.mpr ⟨hrunInside, forall_mem_singleton.mpr ha⟩
    · -- The longer run begins as the run that it replaces.
      obtain ⟨hbefore, -, hlast⟩ := isChain_append.mp h.chain
      refine isChain_append.mpr ⟨hbefore, .singleton _, ?_⟩
      intro r hr s hs b hb
      rw [head?_cons, Option.mem_some] at hs
      rw [← hs, hexpand, head?_append_of_ne_nil _ hrun] at hb
      exact hlast r hr run (by simp) b hb
  · rw [heq]
    refine ⟨forall_mem_append.mpr ⟨h.nonempty, by simp [laws.expand_single]⟩,
      forall_mem_append.mpr ⟨h.inside, by simpa [laws.expand_single] using ha⟩,
      isChain_append.mpr ⟨h.chain, .singleton _, ?_⟩⟩
    intro r hr s hs b hb
    rw [head?_cons, Option.mem_some] at hs
    rw [← hs, laws.expand_single, head?_cons, Option.some.injEq] at hb
    rw [← hb]
    exact hnone r hr

variable {xs : List α}

theorem goodRuns_foldl (laws : RunLaws join single expand P) (hxs : ∀ a ∈ xs, P a) {runs : List ρ}
    (h : GoodRuns join expand P runs) :
    GoodRuns join expand P (xs.foldl (pushJoin join single) runs) ∧
      (xs.foldl (pushJoin join single) runs).flatMap expand = runs.flatMap expand ++ xs := by
  induction xs generalizing runs with
  | nil =>
    rw [append_nil]
    exact ⟨h, rfl⟩
  | cons a xs ih =>
    obtain ⟨hgood, hexpand⟩ := h.pushJoin laws (hxs a mem_cons_self)
    obtain ⟨hrest, hall⟩ := ih (fun b hb => hxs b (mem_cons_of_mem a hb)) hgood
    refine ⟨hrest, ?_⟩
    rw [foldl_cons, hall, hexpand, append_assoc]
    rfl

/-- The runs expand to the elements. -/
theorem flatMap_joinAll (laws : RunLaws join single expand P) (hxs : ∀ a ∈ xs, P a) :
    (joinAll join single xs).flatMap expand = xs :=
  (goodRuns_foldl laws hxs .nil).2

end Laws

end Trufflepig.Lib
