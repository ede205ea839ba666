import Trufflepig.History.MatchPasses
import Trufflepig.Lib.Delta
import Trufflepig.Lib.Fallible

/-!
# The rows of declaration matching

* `matchFacts_corresponds`: every declaration of both sides is in one row; the
  rows carry the evidence of their relation; deletions and additions are
  definitive; candidates are unmatched declarations of the same key, within the
  budget, and a cut list is flagged. The rows do not depend on the order of the
  hash maps.
* `matched_not_deleted_nor_added`: a matched declaration is no deletion and no
  addition, also when both sides are complete and nothing else has its key.
-/

namespace Trufflepig.History

open List Lib

variable {K C : Type}

/-- The candidates of the rows share the budget. -/
theorem sum_candidates_le (c : Comparison K C) (s : MatchState) (r : Remaining K)
    (l : List (MatchFact K C × ℕ)) (links : ℕ) :
    ((beforeRows c s r l links).map fun row => row.candidates.length).sum ≤ links := by
  induction l generalizing links with
  | nil => exact Nat.zero_le _
  | cons e l ih =>
    obtain ⟨definition, i⟩ := e
    rw [beforeRows]
    cases hi : s.matched i with
    | none =>
      have hle : (openRow c.complete i ((r.groups definition.key).getD ([], 0))
          links).candidates.length ≤ links := by
        simp only [openRow, length_take]
        omega
      have hrest := ih (links - (openRow c.complete i ((r.groups definition.key).getD ([], 0))
        links).candidates.length)
      simp only [map_cons, sum_cons]
      omega
    | some pair => simpa [pairRow] using ih links

variable {definition : MatchFact K C} {k : K}

theorem factKey_eq {facts : List (MatchFact K C)} {i : ℕ}
    (h : facts[i]? = some definition) (hk : factKey facts i = some k) :
    definition.key = k := by
  simpa [factKey, h] using hk

variable [DecidableEq K]

/-! ## What remains after the passes -/

variable (c : Comparison K C) (s : MatchState)

/-- The unmatched declarations after with a key. -/
def openAfter (k : K) : List ℕ :=
  s.unused (keyIndexes c.after k)

/-- Some declaration before with this key is unmatched. -/
def openBefore (k : K) : Bool :=
  (keyIndexes c.before k).any fun index => (s.matched index).isNone

/-- `remaining_groups` and `uncertain_after`, entry by entry. -/
def remainingSpec : Remaining K where
  uncertainAfter j := !s.usedAfter j && (factKey c.after j).any (openBefore c s)
  groups k :=
    if keyIndexes c.after k = [] then none
    else some ((openAfter c s k).take 64, (openAfter c s k).length)

theorem mem_openAfter {c : Comparison K C} {s : MatchState} {j : ℕ} :
    j ∈ openAfter c s k ↔ factKey c.after j = some k ∧ s.usedAfter j = false := by
  simp [openAfter, MatchState.unused, mem_keyIndexes]

theorem openBefore_eq_true {c : Comparison K C} {s : MatchState} :
    openBefore c s k = true ↔ ∃ i, factKey c.before i = some k ∧ s.matched i = none := by
  simp [openBefore, mem_keyIndexes]

theorem any_getEntry_eq (k : K) : ((getEntry (groupDefinitions c.before) k).any fun indexes =>
      indexes.any fun index => (s.matched index).isNone) = openBefore c s k := by
  rw [groupDefinitions_get, openBefore]
  split_ifs with hnil
  · rw [hnil]
    rfl
  · rfl

theorem mem_keys_groupDefinitions (facts : List (MatchFact K C)) (k : K) :
    k ∈ (groupDefinitions facts).map Prod.fst ↔ keyIndexes facts k ≠ [] := by
  constructor
  · intro hk hnil
    obtain ⟨e, he, rfl⟩ := mem_map.mp hk
    have hget := getEntry_of_mem (groupDefinitions_nodup facts) he
    rw [groupDefinitions_get, if_pos hnil] at hget
    cases hget
  · intro hne
    obtain ⟨j, hj⟩ := exists_mem_of_ne_nil _ hne
    have hk := mem_keyIndexes.mp hj
    exact mem_map.mpr ⟨_, exists_mem_groupBy (mem_range.mpr (factKey_lt hk)) hk, rfl⟩

theorem remainingGroups_eq (orders : HashOrders K C) (s : MatchState) :
    remainingGroups c orders s = remainingSpec c s := by
  have hperm := orders.afterGroups.perm (groupDefinitions c.after)
  have hkeys : ∀ k, keyIndexes c.after k ≠ [] ↔
      ∃ e ∈ orders.afterGroups.order (groupDefinitions c.after), e.1 = k := by
    intro k
    rw [← mem_keys_groupDefinitions, ← (hperm.map Prod.fst).mem_iff, mem_map]
  have hstep : ∀ e ∈ orders.afterGroups.order (groupDefinitions c.after),
      ∃ k, keyIndexes c.after k ≠ [] ∧ e = (k, keyIndexes c.after k) := fun e he =>
    ⟨e.1, (hkeys e.1).mpr ⟨e, he, rfl⟩,
      Prod.ext rfl (mem_groupDefinitions (hperm.mem_iff.mp he))⟩
  -- every entry writes what `remainingSpec` has for its key, and every key has its entry
  have hgroups : (remainingGroups c orders s).groups = (remainingSpec c s).groups := by
    refine foldl_eq_of_covers Remaining.groups (fun e k => e.1 = k) (fun r e he k => ?_)
      fun k hne => (hkeys k).mp fun hnil => hne (if_pos hnil).symm
    obtain ⟨k₀, hk₀, rfl⟩ := hstep e he
    by_cases hk : k₀ = k
    · obtain rfl := hk
      exact Or.inl ((Function.update_self _ _ _).trans (if_neg hk₀).symm)
    · exact Or.inr ⟨hk, Function.update_of_ne (Ne.symm hk) _ _⟩
  have huncertain : (remainingGroups c orders s).uncertainAfter =
      (remainingSpec c s).uncertainAfter := by
    refine foldl_eq_of_covers Remaining.uncertainAfter
      (fun e j => j ∈ openAfter c s e.1) (fun r e he j => ?_) fun j hne => ?_
    · obtain ⟨k, -, rfl⟩ := hstep e he
      by_cases hj : j ∈ s.unused (keyIndexes c.after k)
      · obtain ⟨hk, hused⟩ := mem_openAfter.mp hj
        left
        simp [remainingGroup, remainingSpec, hj, any_getEntry_eq, hk, hused]
      · exact Or.inr ⟨hj, if_neg hj⟩
    · have htrue : (remainingSpec c s).uncertainAfter j = true :=
        (Bool.eq_false_or_eq_true _).resolve_right (Ne.symm hne)
      simp only [remainingSpec, Bool.and_eq_true, Option.any_eq_true] at htrue
      obtain ⟨hused, k, hk, -⟩ := htrue
      obtain ⟨e, he, rfl⟩ := (hkeys k).mp (ne_nil_of_mem (mem_keyIndexes.mpr hk))
      exact ⟨e, he, mem_openAfter.mpr ⟨hk, by simpa using hused⟩⟩
  cases hr : remainingGroups c orders s
  rw [hr] at hgroups huncertain
  exact (Remaining.mk.injEq ..).mpr ⟨huncertain, hgroups⟩

theorem remainingSpec_getD (k : K) : ((remainingSpec c s).groups k).getD ([], 0) =
      ((openAfter c s k).take 64, (openAfter c s k).length) := by
  simp only [remainingSpec]
  split_ifs with hnil
  · simp [openAfter, hnil, MatchState.unused]
  · rfl

/-! ## The rows -/

section Rows

variable {c s}

/-- The row of an unmatched declaration with the key `k`. -/
def openKeyRow (c : Comparison K C) (s : MatchState) (i : ℕ) (k : K) (links : ℕ) :
    DeclarationCorrespondence :=
  openRow c.complete i ((openAfter c s k).take 64, (openAfter c s k).length) links

/-- The row of a declaration before. -/
def RowOf (c : Comparison K C) (s : MatchState) (definition : MatchFact K C) (i : ℕ)
    (row : DeclarationCorrespondence) : Prop :=
  (∃ j relation, s.matched i = some (j, relation) ∧ row = pairRow i j relation) ∨
    (s.matched i = none ∧ ∃ links, row = openKeyRow c s i definition.key links)

theorem beforeRows_forall₂ (c : Comparison K C) (s : MatchState) (l : List (MatchFact K C × ℕ))
    (links : ℕ) :
    List.Forall₂ (fun e row => RowOf c s e.1 e.2 row) l
      (beforeRows c s (remainingSpec c s) l links) := by
  induction l generalizing links with
  | nil => exact List.Forall₂.nil
  | cons e l ih =>
    obtain ⟨definition, i⟩ := e
    rw [beforeRows]
    cases hi : s.matched i with
    | none =>
      refine List.Forall₂.cons (Or.inr ⟨hi, links, ?_⟩) (ih _)
      rw [remainingSpec_getD]
      rfl
    | some pair => exact List.Forall₂.cons (Or.inl ⟨pair.1, pair.2, hi, rfl⟩) (ih links)

variable {row : DeclarationCorrespondence}

theorem RowOf.before {i : ℕ} (h : RowOf c s definition i row) :
    row.before = some i := by
  obtain ⟨j, relation, -, rfl⟩ | ⟨-, links, rfl⟩ := h
  · rfl
  · rfl

theorem RowOf.after {i : ℕ} (h : RowOf c s definition i row) :
    row.after = (s.matched i).map Prod.fst := by
  obtain ⟨j, relation, hi, rfl⟩ | ⟨hi, links, rfl⟩ := h
  · rw [hi]
    rfl
  · rw [hi]
    rfl

variable {l : List (MatchFact K C × ℕ)} {rows : List DeclarationCorrespondence}

section

variable (h : List.Forall₂ (fun e row => RowOf c s e.1 e.2 row) l rows)
include h

theorem filterMap_before_beforeRows :
    rows.filterMap (·.before) = l.map Prod.snd := by
  induction h with
  | nil => rfl
  | cons hof _ ih => rw [filterMap_cons_some hof.before, ih, map_cons]

theorem filterMap_after_beforeRows :
    rows.filterMap (·.after) = (l.map Prod.snd).filterMap fun i => (s.matched i).map Prod.fst := by
  induction h with
  | nil => rfl
  | cons hof _ ih => simp only [filterMap_cons, hof.after, ih, map_cons]

end

/-- The row of an unmatched declaration after. -/
def newRow (c : Comparison K C) (s : MatchState) (j : ℕ) : DeclarationCorrespondence :=
  ⟨none, some j, [], false,
    if c.complete ∧ (remainingSpec c s).uncertainAfter j = false then .added else .uncertain⟩

/-- The rows for the pairs of `s`. -/
def stateRows (c : Comparison K C) (s : MatchState) : List DeclarationCorrespondence :=
  beforeRows c s (remainingSpec c s) c.before.zipIdx 4096 ++ afterRows c s (remainingSpec c s)

theorem mem_afterRows :
    row ∈ afterRows c s (remainingSpec c s) ↔
      ∃ j, j < c.after.length ∧ s.usedAfter j = false ∧ row = newRow c s j := by
  simp only [afterRows, mem_filterMap, mem_range]
  constructor
  · rintro ⟨j, hj, hrow⟩
    by_cases hused : s.usedAfter j = true
    · rw [if_pos hused] at hrow
      cases hrow
    · rw [if_neg hused] at hrow
      exact ⟨j, hj, by simpa using hused, (Option.some.inj hrow).symm⟩
  · rintro ⟨j, hj, hused, rfl⟩
    exact ⟨j, hj, by rw [hused]; rfl⟩

theorem mem_stateRows (h : row ∈ stateRows c s) :
    (∃ definition i, c.before[i]? = some definition ∧ RowOf c s definition i row) ∨
      ∃ j, j < c.after.length ∧ s.usedAfter j = false ∧ row = newRow c s j := by
  rcases mem_append.mp h with h | h
  · obtain ⟨⟨definition, i⟩, he, hof⟩ := exists_of_forall₂_right (beforeRows_forall₂ c s _ 4096) h
    exact Or.inl ⟨definition, i, mem_zipIdx_iff_getElem?.mp he, hof⟩
  · exact Or.inr (mem_afterRows.mp h)

theorem filterMap_before_stateRows :
    (stateRows c s).filterMap (·.before) = List.range c.before.length := by
  have hafter : (afterRows c s (remainingSpec c s)).filterMap (·.before) = [] := by
    rw [filterMap_eq_nil_iff]
    intro row hrow
    obtain ⟨j, -, -, rfl⟩ := mem_afterRows.mp hrow
    rfl
  rw [stateRows, filterMap_append, hafter,
    filterMap_before_beforeRows (beforeRows_forall₂ c s _ 4096), append_nil,
    zipIdx_map_snd, range_eq_range']

theorem filterMap_after_stateRows : (stateRows c s).filterMap (·.after) =
      ((List.range c.before.length).filterMap fun i => (s.matched i).map Prod.fst) ++
        (List.range c.after.length).filter fun j => !s.usedAfter j := by
  have hafter : (afterRows c s (remainingSpec c s)).filterMap (·.after) =
      (List.range c.after.length).filter fun j => !s.usedAfter j := by
    rw [afterRows, filterMap_filterMap, ← filterMap_eq_filter]
    apply filterMap_congr
    intro j _
    cases hj : s.usedAfter j with
    | true => simp [Option.guard, hj]
    | false => simp [Option.guard, hj]
  rw [stateRows, filterMap_append, hafter,
    filterMap_after_beforeRows (beforeRows_forall₂ c s _ 4096), zipIdx_map_snd,
    ← range_eq_range']

end Rows

/-! ## The correspondence -/

/-- A row for the declaration before `i` alone. -/
def UnmatchedBefore (rows : List DeclarationCorrespondence) (i : ℕ) : Prop :=
  ∃ row ∈ rows, row.before = some i ∧ row.after = none

/-- A row for the declaration after `j` alone. -/
def UnmatchedAfter (rows : List DeclarationCorrespondence) (j : ℕ) : Prop :=
  ∃ row ∈ rows, row.before = none ∧ row.after = some j

/-- What the rows of a comparison say. -/
structure Corresponds (rows : List DeclarationCorrespondence) : Prop where
  /-- Every declaration before is in one row. -/
  beforeOnce : rows.filterMap (·.before) = List.range c.before.length
  /-- Every declaration after is in one row. -/
  afterOnce : (rows.filterMap (·.after)).Perm (List.range c.after.length)
  /-- Matched declarations have equal keys. -/
  keys : ∀ row ∈ rows, ∀ i j, row.before = some i → row.after = some j →
    ∃ k, factKey c.before i = some k ∧ factKey c.after j = some k
  /-- No declaration is matched twice. -/
  injective : ∀ row ∈ rows, ∀ row' ∈ rows, ∀ i j i' j', row.before = some i → row.after = some j →
    row'.before = some i' → row'.after = some j' → (i = i' ↔ j = j')
  /-- Unchanged and moved declarations have one content. -/
  equal : ∀ row ∈ rows, row.relation = .unchanged ∨ row.relation = .moved →
    ∃ i j b, row.before = some i ∧ row.after = some j ∧ factContent c.before i = some b ∧
      factContent c.after j = some b
  /-- The content of a moved declaration is unique in its group, on both sides. -/
  unique : ∀ row ∈ rows, row.relation = .moved → ∀ i j, row.before = some i →
    row.after = some j → ContentUnique c.before i ∧ ContentUnique c.after j
  /-- A declaration before is deleted exactly if it is unmatched, both sides are
      complete and no unmatched declaration after has its key. -/
  deleted : ∀ row ∈ rows, ∀ i k, row.before = some i → factKey c.before i = some k →
    (row.relation = .deleted ↔ UnmatchedBefore rows i ∧ c.complete = true ∧
      ∀ j, factKey c.after j = some k → ¬ UnmatchedAfter rows j)
  /-- A declaration after is added exactly if it is unmatched, both sides are
      complete and no unmatched declaration before has its key. -/
  added : ∀ row ∈ rows, ∀ j k, row.after = some j → factKey c.after j = some k →
    (row.relation = .added ↔ UnmatchedAfter rows j ∧ c.complete = true ∧
      ∀ i, factKey c.before i = some k → ¬ UnmatchedBefore rows i)
  /-- Only declarations before are deleted, only declarations after are added. -/
  sides : ∀ row ∈ rows, (row.relation = .deleted → row.before.isSome) ∧
    (row.relation = .added → row.after.isSome)
  /-- Candidates are unmatched declarations after with the key of the row. -/
  candidates : ∀ row ∈ rows, ∀ j ∈ row.candidates, UnmatchedAfter rows j ∧
    ∃ i k, row.before = some i ∧ factKey c.before i = some k ∧ factKey c.after j = some k
  /-- The candidates of all rows are within the budget. -/
  budget : (rows.map fun row => row.candidates.length).sum ≤ 4096
  /-- The flag of an unmatched declaration says that its candidates are cut. -/
  truncated : ∀ row ∈ rows, ∀ i k, row.before = some i → row.after = none →
    factKey c.before i = some k →
    (row.candidatesTruncated = true ↔
      ∃ j, factKey c.after j = some k ∧ UnmatchedAfter rows j ∧ j ∉ row.candidates)

section Corresponds

variable {c s}

theorem unmatchedAfter_iff {j : ℕ} :
    UnmatchedAfter (stateRows c s) j ↔ j < c.after.length ∧ s.usedAfter j = false := by
  constructor
  · rintro ⟨row, hrow, hbefore, hafter⟩
    obtain ⟨definition, i, -, hof⟩ | ⟨j', hj', hused, rfl⟩ := mem_stateRows hrow
    · rw [hof.before] at hbefore
      cases hbefore
    · obtain rfl := Option.some.inj hafter
      exact ⟨hj', hused⟩
  · rintro ⟨hj, hused⟩
    exact ⟨newRow c s j, mem_append_right _ (mem_afterRows.mpr ⟨j, hj, hused, rfl⟩), rfl, rfl⟩

variable {row : DeclarationCorrespondence} {i : ℕ}

/-- A row with a declaration before is the row of that declaration. -/
theorem rowOf_of_before (hrow : row ∈ stateRows c s) (hi : row.before = some i) :
    ∃ definition, c.before[i]? = some definition ∧ RowOf c s definition i row := by
  obtain ⟨definition, i', hdef, hof⟩ | ⟨j, -, -, rfl⟩ := mem_stateRows hrow
  · obtain rfl := Option.some.inj (hof.before.symm.trans hi)
    exact ⟨definition, hdef, hof⟩
  · cases hi

theorem unmatchedBefore_iff :
    UnmatchedBefore (stateRows c s) i ↔ i < c.before.length ∧ s.matched i = none := by
  constructor
  · rintro ⟨row, hrow, hbefore, hafter⟩
    obtain ⟨definition, hdef, hof⟩ := rowOf_of_before hrow hbefore
    refine ⟨(List.getElem?_eq_some_iff.mp hdef).1, ?_⟩
    rw [hof.after] at hafter
    simpa using hafter
  · rintro ⟨hi, hnone⟩
    have hmem : i ∈ (stateRows c s).filterMap (·.before) := by
      rw [filterMap_before_stateRows]
      exact mem_range.mpr hi
    obtain ⟨row, hrow, hbefore⟩ := mem_filterMap.mp hmem
    obtain ⟨definition, -, hof⟩ := rowOf_of_before hrow hbefore
    exact ⟨row, hrow, hbefore, by rw [hof.after, hnone]; rfl⟩

/-- A row with both sides is a recorded pair. -/
theorem pair_of_row (hrow : row ∈ stateRows c s) {j : ℕ} (hi : row.before = some i)
    (hj : row.after = some j) :
    s.matched i = some (j, row.relation) := by
  obtain ⟨definition, -, hof⟩ := rowOf_of_before hrow hi
  obtain ⟨j', relation, hmatched, rfl⟩ | ⟨-, links, rfl⟩ := hof
  · obtain rfl := Option.some.inj hj
    exact hmatched
  · cases hj

/-- The row of an unmatched declaration, by its key. -/
theorem openKeyRow_of_row (hrow : row ∈ stateRows c s) (hi : row.before = some i)
    (hk : factKey c.before i = some k) (hnone : s.matched i = none) :
    ∃ links, row = openKeyRow c s i k links := by
  obtain ⟨definition, hdef, hof⟩ := rowOf_of_before hrow hi
  obtain ⟨j, relation, hmatched, -⟩ | ⟨-, links, rfl⟩ := hof
  · simp [hnone] at hmatched
  · exact ⟨links, by rw [factKey_eq hdef hk]⟩

theorem perm_filterMap_after (hs : Matching c s) :
    ((stateRows c s).filterMap (·.after)).Perm (List.range c.after.length) := by
  rw [filterMap_after_stateRows]
  have hlt : ∀ i j relation, s.matched i = some (j, relation) →
      i < c.before.length ∧ j < c.after.length := by
    intro i j relation h
    obtain ⟨k, hk, hk'⟩ := (hs.pair i j relation h).key
    exact ⟨factKey_lt hk, factKey_lt hk'⟩
  have hmem : ∀ j, j ∈ ((List.range c.before.length).filterMap fun i =>
      (s.matched i).map Prod.fst) ↔ s.usedAfter j = true := by
    intro j
    simp only [mem_filterMap, mem_range, Option.map_eq_some_iff, Prod.exists,
      exists_and_right, exists_eq_right, hs.used]
    constructor
    · rintro ⟨i, -, relation, h⟩
      exact ⟨i, relation, h⟩
    · rintro ⟨i, relation, h⟩
      exact ⟨i, (hlt i j relation h).1, relation, h⟩
  have hnodup : ((List.range c.before.length).filterMap fun i =>
      (s.matched i).map Prod.fst).Nodup := by
    apply List.Nodup.filterMap _ nodup_range
    intro i i' j h h'
    obtain ⟨⟨j₁, relation⟩, hi, hj⟩ := Option.map_eq_some_iff.mp h
    obtain ⟨⟨j₂, relation'⟩, hi', hj'⟩ := Option.map_eq_some_iff.mp h'
    obtain rfl : j₁ = j := hj
    obtain rfl : j₂ = j₁ := hj'
    exact hs.injective i i' j₂ relation relation' hi hi'
  rw [perm_ext_iff_of_nodup _ nodup_range]
  · intro j
    rw [mem_append, hmem, mem_filter, mem_range]
    constructor
    · rintro (hused | ⟨hj, -⟩)
      · obtain ⟨i, relation, h⟩ := (hs.used j).mp hused
        exact (hlt i j relation h).2
      · exact hj
    · intro hj
      by_cases hused : s.usedAfter j = true
      · exact Or.inl hused
      · exact Or.inr ⟨hj, by simpa using hused⟩
  · rw [nodup_append]
    refine ⟨hnodup, nodup_range.filter _, ?_⟩
    rintro j hj j' hj' rfl
    rw [hmem] at hj
    simp [hj] at hj'

theorem deleted_iff (hs : Matching c s) (hrow : row ∈ stateRows c s)
    (hi : row.before = some i) (hk : factKey c.before i = some k) :
    row.relation = .deleted ↔ UnmatchedBefore (stateRows c s) i ∧ c.complete = true ∧
      ∀ j, factKey c.after j = some k → ¬ UnmatchedAfter (stateRows c s) j := by
  rw [unmatchedBefore_iff]
  cases hmatched : s.matched i with
  | some pair =>
    -- the relation of a pair is none of its own row's
    obtain ⟨definition, -, hof⟩ := rowOf_of_before hrow hi
    have hpair := pair_of_row hrow hi (hof.after.trans (by rw [hmatched]; rfl))
    rcases (hs.pair i _ _ hpair).matching with h | h | h
    all_goals simp [h]
  | none =>
    obtain ⟨links, rfl⟩ := openKeyRow_of_row hrow hi hk hmatched
    have hempty : (openAfter c s k).length = 0 ↔
        ∀ j, factKey c.after j = some k → ¬ UnmatchedAfter (stateRows c s) j := by
      rw [length_eq_zero_iff, eq_nil_iff_forall_not_mem]
      refine forall_congr' fun j => ?_
      rw [mem_openAfter, unmatchedAfter_iff]
      constructor
      · exact fun h hj hopen => h ⟨hj, hopen.2⟩
      · exact fun h hopen => h hopen.1 ⟨factKey_lt hopen.1, hopen.2⟩
    rw [← hempty]
    simp [openKeyRow, openRow, factKey_lt hk, and_comm]

theorem added_iff (hs : Matching c s) (hrow : row ∈ stateRows c s) {j : ℕ}
    (hj : row.after = some j) (hk : factKey c.after j = some k) :
    row.relation = .added ↔ UnmatchedAfter (stateRows c s) j ∧ c.complete = true ∧
      ∀ i, factKey c.before i = some k → ¬ UnmatchedBefore (stateRows c s) i := by
  rw [unmatchedAfter_iff]
  obtain ⟨definition, i, -, hof⟩ | ⟨j', hj', hfree, rfl⟩ := mem_stateRows hrow
  · have hpair := pair_of_row hrow hof.before hj
    have hused : s.usedAfter j = true := (hs.used j).mpr ⟨i, _, hpair⟩
    rcases (hs.pair i _ _ hpair).matching with h | h | h
    all_goals simp [h, hused]
  · obtain rfl := Option.some.inj hj
    have hopen : (remainingSpec c s).uncertainAfter j' = false ↔
        ∀ i, factKey c.before i = some k → ¬ UnmatchedBefore (stateRows c s) i := by
      simp only [remainingSpec, hfree, hk, Option.any_some, Bool.not_false, Bool.true_and]
      rw [← Bool.not_eq_true, openBefore_eq_true, not_exists]
      refine forall_congr' fun i => ?_
      rw [unmatchedBefore_iff]
      constructor
      · exact fun h hi hopen => h ⟨hi, hopen.2⟩
      · exact fun h hopen => h hopen.1 ⟨factKey_lt hopen.1, hopen.2⟩
    rw [← hopen]
    simp [newRow, hj', hfree]

/-- The candidates of a row are the first open declarations of its key. -/
theorem candidates_openKeyRow (c : Comparison K C) (s : MatchState) (i : ℕ) (k : K) (links : ℕ) :
    ∃ t, (openKeyRow c s i k links).candidates = (openAfter c s k).take t := by
  simp only [openKeyRow, openRow, take_take]
  exact ⟨_, rfl⟩

theorem length_take_lt_iff {U : List ℕ} (hU : U.Nodup) (t : ℕ) :
    (U.take t).length < U.length ↔ ∃ j ∈ U, j ∉ U.take t := by
  constructor
  · intro h
    rw [length_take] at h
    have hne : U.drop t ≠ [] := by
      intro hnil
      rw [drop_eq_nil_iff] at hnil
      omega
    obtain ⟨j, hj⟩ := exists_mem_of_ne_nil _ hne
    have hdisjoint := disjoint_take_drop hU (le_refl t)
    exact ⟨j, mem_of_mem_drop hj, fun hj' => hdisjoint hj' hj⟩
  · rintro ⟨j, hj, hnot⟩
    by_contra hlen
    rw [length_take] at hlen
    rw [take_of_length_le (by omega)] at hnot
    exact hnot hj

theorem openAfter_nodup (c : Comparison K C) (s : MatchState) (k : K) : (openAfter c s k).Nodup :=
  (nodup_range.filter _).filter _

end Corresponds

/-- The rows of a state that holds evident pairs. -/
theorem corresponds_stateRows {c : Comparison K C} {s : MatchState} (hs : Matching c s) :
    Corresponds c (stateRows c s) where
  beforeOnce := filterMap_before_stateRows
  afterOnce := perm_filterMap_after hs
  keys row hrow i j hi hj := (hs.pair i j _ (pair_of_row hrow hi hj)).key
  injective row hrow row' hrow' i j i' j' hi hj hi' hj' := by
    have h := pair_of_row hrow hi hj
    have h' := pair_of_row hrow' hi' hj'
    constructor
    · rintro rfl
      exact (Prod.mk.inj (Option.some.inj (h.symm.trans h'))).1
    · rintro rfl
      exact hs.injective i i' j _ _ h h'
  equal row hrow hrel := by
    obtain ⟨definition, i, -, hof⟩ | ⟨j, -, -, rfl⟩ := mem_stateRows hrow
    · obtain ⟨j, relation, h, rfl⟩ | ⟨-, links, rfl⟩ := hof
      · obtain ⟨b, hb, hb'⟩ := (hs.pair i j relation h).equal hrel
        exact ⟨i, j, b, rfl, rfl, hb, hb'⟩
      · simp only [openKeyRow, openRow] at hrel
        split_ifs at hrel
        all_goals simp at hrel
    · simp only [newRow] at hrel
      split_ifs at hrel
      all_goals simp at hrel
  unique row hrow hrel i j hi hj := (hs.pair i j _ (pair_of_row hrow hi hj)).unique hrel
  deleted row hrow i k hi hk := deleted_iff hs hrow hi hk
  added row hrow j k hj hk := added_iff hs hrow hj hk
  sides row hrow := by
    obtain ⟨definition, i, -, hof⟩ | ⟨j, -, -, rfl⟩ := mem_stateRows hrow
    · refine ⟨fun _ => by rw [hof.before]; rfl, fun hadded => ?_⟩
      obtain ⟨j, relation, h, rfl⟩ | ⟨-, links, rfl⟩ := hof
      · rfl
      · simp only [openKeyRow, openRow] at hadded
        split_ifs at hadded
    · refine ⟨fun hdeleted => ?_, fun _ => rfl⟩
      simp only [newRow] at hdeleted
      split_ifs at hdeleted
  candidates row hrow j hj := by
    obtain ⟨definition, i, hdef, hof⟩ | ⟨j', -, -, rfl⟩ := mem_stateRows hrow
    · obtain ⟨j', relation, -, rfl⟩ | ⟨-, links, rfl⟩ := hof
      · simp [pairRow] at hj
      · obtain ⟨t, ht⟩ := candidates_openKeyRow c s i definition.key links
        rw [ht] at hj
        obtain ⟨hk, hfree⟩ := mem_openAfter.mp (mem_of_mem_take hj)
        exact ⟨unmatchedAfter_iff.mpr ⟨factKey_lt hk, hfree⟩, i, definition.key, rfl,
          by simp [factKey, hdef], hk⟩
    · simp [newRow] at hj
  budget := by
    have hafter : ((afterRows c s (remainingSpec c s)).map
        fun row => row.candidates.length).sum = 0 := by
      rw [sum_eq_zero_iff]
      intro n hn
      obtain ⟨row, hrow, rfl⟩ := mem_map.mp hn
      obtain ⟨j, -, -, rfl⟩ := mem_afterRows.mp hrow
      rfl
    rw [stateRows, map_append, sum_append, hafter]
    exact sum_candidates_le c s _ _ 4096
  truncated row hrow i k hi hnone hk := by
    have hmatched := (unmatchedBefore_iff.mp ⟨row, hrow, hi, hnone⟩).2
    obtain ⟨links, rfl⟩ := openKeyRow_of_row hrow hi hk hmatched
    obtain ⟨t, ht⟩ := candidates_openKeyRow c s i k links
    have hflag : (openKeyRow c s i k links).candidatesTruncated = true ↔
        (openKeyRow c s i k links).candidates.length < (openAfter c s k).length := by
      simp [openKeyRow, openRow]
    rw [hflag, ht, length_take_lt_iff (openAfter_nodup c s k)]
    refine exists_congr fun j => ?_
    rw [mem_openAfter, unmatchedAfter_iff]
    constructor
    · rintro ⟨⟨hj, hfree⟩, hnot⟩
      exact ⟨hj, ⟨factKey_lt hj, hfree⟩, hnot⟩
    · rintro ⟨hj, ⟨_, hfree⟩, hnot⟩
      exact ⟨⟨hj, hfree⟩, hnot⟩

variable [DecidableEq C]

theorem matchFacts_eq (orders : HashOrders K C) :
    matchFacts c orders = stateRows c (matchPasses c (HashOrders.insertion K C)) := by
  simp only [matchFacts, remainingGroups_eq, stateRows, matchPasses_orders c orders]

/-- The rows of `match_facts` correspond to the facts of both sides, and do not
depend on the order in which hash maps are visited. -/
theorem matchFacts_corresponds (c : Comparison K C) (orders : HashOrders K C) :
    Corresponds c (matchFacts c orders) ∧
      ∀ orders' : HashOrders K C, matchFacts c orders' = matchFacts c orders := by
  constructor
  · rw [matchFacts_eq]
    exact corresponds_stateRows (matchPasses_matching c _)
  · intro orders'
    rw [matchFacts_eq, matchFacts_eq]

/-- A declaration that stays where it is, on both sides alone with its key. No
unmatched declaration has its key, but it is neither deleted nor added. -/
theorem matched_not_deleted_nor_added :
    ∃ (c : Comparison ℕ ℕ) (orders : HashOrders ℕ ℕ),
      (¬ ∀ row ∈ matchFacts c orders, ∀ i k, row.before = some i → factKey c.before i = some k →
        (row.relation = .deleted ↔ c.complete = true ∧
          ∀ j, factKey c.after j = some k → ¬ UnmatchedAfter (matchFacts c orders) j)) ∧
      (¬ ∀ row ∈ matchFacts c orders, ∀ j k, row.after = some j → factKey c.after j = some k →
        (row.relation = .added ↔ c.complete = true ∧
          ∀ i, factKey c.before i = some k → ¬ UnmatchedBefore (matchFacts c orders) i)) := by
  let c : Comparison ℕ ℕ :=
    ⟨[⟨0, 0, some 0⟩], [⟨0, 0, some 0⟩], [0, 1], [0, 1], true, ⟨[], [⟨⟨0, 1⟩, ⟨0, 1⟩⟩]⟩⟩
  have hrows : matchFacts c (HashOrders.insertion ℕ ℕ) = [pairRow 0 0 .unchanged] := by
    decide
  refine ⟨c, HashOrders.insertion ℕ ℕ, ?_, ?_⟩
  · intro h
    have hdeleted := (h _ (by rw [hrows]; exact mem_singleton_self _) 0 0 rfl rfl).mpr
      ⟨rfl, fun j _ ⟨row, hrow, hbefore, _⟩ => by
        rw [hrows, mem_singleton] at hrow
        rw [hrow] at hbefore
        cases hbefore⟩
    cases hdeleted
  · intro h
    have hadded := (h _ (by rw [hrows]; exact mem_singleton_self _) 0 0 rfl rfl).mpr
      ⟨rfl, fun i _ ⟨row, hrow, _, hafter⟩ => by
        rw [hrows, mem_singleton] at hrow
        rw [hrow] at hafter
        cases hafter⟩
    cases hadded

end Trufflepig.History
