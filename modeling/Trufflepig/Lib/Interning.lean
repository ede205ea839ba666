import Mathlib

/-!
# Interning tokens

Tokens are numbered in the order of their first occurrence.

* `internTokens_eq`: the number of a token is its index in the final table.
* `internTokens_map`: the numbers depend only on which tokens are equal.
-/

namespace Trufflepig.Lib

open List

variable {τ υ : Type*} [DecidableEq τ] [DecidableEq υ]

/-- Interns a token in a table: the table with it, and its index there. -/
def internToken (table : List τ) (token : τ) : List τ × ℕ :=
  if token ∈ table then (table, table.idxOf token) else (table ++ [token], table.length)

/-- Interns tokens one after the other. -/
def internTokens : List τ → List τ → List τ × List ℕ
  | table, [] => (table, [])
  | table, token :: tokens =>
    ((internTokens (internToken table token).1 tokens).1,
      (internToken table token).2 :: (internTokens (internToken table token).1 tokens).2)

theorem internToken_spec (table : List τ) (token : τ) :
    table <+: (internToken table token).1 ∧ token ∈ (internToken table token).1 ∧
      (internToken table token).2 = (internToken table token).1.idxOf token := by
  unfold internToken
  split_ifs with h
  · exact ⟨prefix_refl _, h, rfl⟩
  · refine ⟨prefix_append _ _, by simp, ?_⟩
    rw [idxOf_append_of_notMem h]
    simp

/-- The final table extends the first one, holds all tokens, and gives their
numbers. -/
theorem internTokens_eq (table tokens : List τ) :
    table <+: (internTokens table tokens).1 ∧ tokens ⊆ (internTokens table tokens).1 ∧
      (internTokens table tokens).2 = tokens.map (internTokens table tokens).1.idxOf := by
  induction tokens generalizing table with
  | nil => exact ⟨prefix_refl _, nil_subset _, rfl⟩
  | cons token tokens ih =>
    obtain ⟨hextends, hmem, hid⟩ := internToken_spec table token
    obtain ⟨hextends', hsub, hids⟩ := ih (internToken table token).1
    refine ⟨hextends.trans hextends', ?_, ?_⟩
    · exact cons_subset.mpr ⟨hextends'.subset hmem, hsub⟩
    · rw [internTokens, map_cons, ← hids, hid, hextends'.idxOf_eq_of_mem hmem]

theorem internTokens_subset (table tokens : List τ) :
    (internTokens table tokens).1 ⊆ table ++ tokens := by
  induction tokens generalizing table with
  | nil => simp [internTokens]
  | cons token tokens ih =>
    intro t ht
    rcases mem_append.mp (ih _ ht) with ht | ht
    · unfold internToken at ht
      split_ifs at ht
      · exact mem_append_left _ ht
      · simp only [mem_append, mem_singleton] at ht
        simp only [mem_append, mem_cons]
        tauto
    · exact mem_append_right _ (mem_cons_of_mem _ ht)

theorem idxOf_injOn (table : List τ) : Set.InjOn table.idxOf {t | t ∈ table} :=
  fun _ hx _ _ h => (idxOf_inj hx).mp h

theorem idxOf_map {f : τ → υ} {table : List τ} {token : τ}
    (hf : ∀ t ∈ table, f t = f token → t = token) :
    (table.map f).idxOf (f token) = table.idxOf token := by
  induction table with
  | nil => rfl
  | cons t table ih =>
    have ih := ih fun t' ht' => hf t' (mem_cons_of_mem _ ht')
    by_cases ht : t = token
    · rw [map_cons, idxOf_cons_eq _ (by rw [ht]), idxOf_cons_eq _ ht]
    · have hft : f t ≠ f token := fun h => ht (hf t mem_cons_self h)
      rw [map_cons, idxOf_cons_ne _ hft, idxOf_cons_ne _ ht, ih]

/-- The numbers depend only on which tokens are equal. -/
theorem internTokens_map {f : τ → υ} {table tokens : List τ}
    (hf : Set.InjOn f {t | t ∈ table ∨ t ∈ tokens}) :
    internTokens (table.map f) (tokens.map f) =
      ((internTokens table tokens).1.map f, (internTokens table tokens).2) := by
  induction tokens generalizing table with
  | nil => rfl
  | cons token tokens ih =>
    have hinj : ∀ t ∈ table, f t = f token → t = token :=
      fun t ht h => hf (Or.inl ht) (Or.inr mem_cons_self) h
    have hone : internToken (table.map f) (f token) =
        ((internToken table token).1.map f, (internToken table token).2) := by
      unfold internToken
      by_cases hmem : token ∈ table
      · rw [if_pos hmem, if_pos (mem_map_of_mem hmem), idxOf_map hinj]
      · have hmem' : f token ∉ table.map f := by
          intro h
          obtain ⟨t, ht, heq⟩ := mem_map.mp h
          exact hmem (hinj t ht heq ▸ ht)
        rw [if_neg hmem, if_neg hmem', length_map, map_append]
        rfl
    have hsub : Set.InjOn f {t | t ∈ (internToken table token).1 ∨ t ∈ tokens} := by
      apply hf.mono
      rintro t (ht | ht)
      · unfold internToken at ht
        split_ifs at ht
        · exact Or.inl ht
        · rcases mem_append.mp ht with ht | ht
          · exact Or.inl ht
          · exact Or.inr (mem_singleton.mp ht ▸ mem_cons_self)
      · exact Or.inr (mem_cons_of_mem _ ht)
    simp only [map_cons, internTokens, hone, ih hsub]

end Trufflepig.Lib
