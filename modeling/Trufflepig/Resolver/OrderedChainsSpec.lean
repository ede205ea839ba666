import Trufflepig.Resolver.OrderedChains

/-!
# The edges of a chain are the neighbours in its possible orders

* `chunks_priorityGroups`: the groups are the runs of equal priority.
* `buildBaseChain_eq`: up to 63 registrations, neither limit is met.
* `mem_chainEdges_iff`: the edges are the neighbours in some order of the registrations
  that respects their priorities.
* `nodup_chainEdges`: no edge is emitted twice.
* `buildChainForBase_spec`: the whole.
-/

namespace Trufflepig.Resolver

open List Lib

variable {ι E : Type} {registrations : ι → Registration E} {indices : List ι}

/-- The priority that orders the registrations. -/
def priorityOf (registrations : ι → Registration E) (index : ι) : ℤ :=
  (registrations index).numericPriority

/-! ## Groups -/

/-- The run that `priority_groups` finds at `start`, and where it goes on. -/
theorem priorityGroupsFrom_cons (registrations : ι → Registration E) (fuel : ℕ) {start : ℕ}
    {first : ι} {rest : List ι} (hdrop : indices.drop start = first :: rest) :
    ∃ same next, priorityGroupsFrom registrations indices (fuel + 1) start =
        (start, next) :: priorityGroupsFrom registrations indices fuel next ∧
      next = start + 1 + same.length ∧ slice indices (start, next) = first :: same ∧
      first :: rest = first :: same ++ indices.drop next ∧
      (∀ i ∈ same, priorityOf registrations i = priorityOf registrations first) ∧
      ∀ i ∈ (indices.drop next).head?, priorityOf registrations i ≠ priorityOf registrations first := by
  let has := fun index => decide (priorityOf registrations index = priorityOf registrations first)
  have hsplit : rest.takeWhile has ++ rest.dropWhile has = rest := takeWhile_append_dropWhile
  have hparts : ∀ same after : List ι, same ++ after = rest →
      rest.take same.length = same ∧ rest.drop same.length = after := by
    rintro same after rfl
    exact ⟨take_left, drop_left⟩
  obtain ⟨htake, hafter⟩ := hparts _ _ hsplit
  let next := start + 1 + (rest.takeWhile has).length
  have hnext : indices.drop next = rest.dropWhile has := by
    rw [show next = start + ((rest.takeWhile has).length + 1) by omega, ← drop_drop, hdrop,
      drop_succ_cons, hafter]
  refine ⟨rest.takeWhile has, next, ?_, rfl, ?_, ?_, ?_, ?_⟩
  · rw [priorityGroupsFrom, hdrop]
    rfl
  · rw [slice, hdrop, show next - start = (rest.takeWhile has).length + 1 by omega,
      take_succ_cons, htake]
  · rw [hnext, cons_append, hsplit]
  · intro i hi
    have hhas : has i = true := mem_takeWhile_imp hi
    exact of_decide_eq_true hhas
  · intro i hi
    have hnot := head?_dropWhile_not has rest
    rw [hnext] at hi
    rw [Option.mem_def.mp hi] at hnot
    exact of_decide_eq_false hnot

/-- The groups are the runs of equal priority, and their ranges are within the list. -/
theorem priorityGroupsFrom_spec (fuel start : ℕ) (hfuel : (indices.drop start).length ≤ fuel) :
    Chunks (priorityOf registrations) (indices.drop start)
        ((priorityGroupsFrom registrations indices fuel start).map (slice indices)) ∧
      ∀ group ∈ priorityGroupsFrom registrations indices fuel start,
        (slice indices group).length = group.2 - group.1 := by
  induction fuel generalizing start with
  | zero =>
    rw [eq_nil_of_length_eq_zero (Nat.le_zero.mp hfuel)]
    exact ⟨.nil, fun _ h => absurd h not_mem_nil⟩
  | succ fuel ih =>
    rcases hdrop : indices.drop start with _ | ⟨first, rest⟩
    · rw [priorityGroupsFrom, hdrop]
      exact ⟨.nil, fun _ h => absurd h not_mem_nil⟩
    · obtain ⟨same, next, hgroups, hnext, hslice, hsplit, hsame, hrest⟩ :=
        priorityGroupsFrom_cons registrations fuel hdrop
      obtain ⟨hchunks, hlength⟩ := ih next (by rw [length_drop] at hfuel ⊢; omega)
      rw [hgroups, map_cons, hslice, hsplit]
      refine ⟨Chunks.cons hsame hrest hchunks, forall_mem_cons.mpr ⟨?_, hlength⟩⟩
      rw [hslice, length_cons]
      omega

theorem chunks_priorityGroups (registrations : ι → Registration E) (indices : List ι) :
    Chunks (priorityOf registrations) indices
      ((priorityGroups registrations indices).map (slice indices)) :=
  (priorityGroupsFrom_spec indices.length 0 le_rfl).1

theorem withPrevious_map {α β : Type} (f : α → β) (previous : Option α) (groups : List α) :
    withPrevious (previous.map f) (groups.map f) =
      (withPrevious previous groups).map fun step => (step.1.map f, f step.2) := by
  induction groups generalizing previous with
  | nil => rfl
  | cons group groups ih =>
    rw [map_cons, withPrevious, withPrevious, map_cons, ← ih (some group)]
    rfl

/-- A group and the one before it are neighbours. -/
theorem mem_withPrevious_iff {α : Type} {first : Option α} {groups : List α} {previous : Option α}
    {group : α} :
    (previous, group) ∈ withPrevious first groups ↔
      (previous = first ∧ ∃ upper, groups = group :: upper) ∨
      ∃ lower before upper, previous = some before ∧ groups = lower ++ before :: group :: upper := by
  induction groups generalizing first with
  | nil => simp [withPrevious]
  | cons head groups ih =>
    rw [withPrevious, mem_cons, ih]
    constructor
    · rintro (heq | ⟨rfl, upper, rfl⟩ | ⟨lower, before, upper, rfl, rfl⟩)
      · obtain ⟨rfl, rfl⟩ := Prod.mk.inj heq
        exact Or.inl ⟨rfl, groups, rfl⟩
      · exact Or.inr ⟨[], head, upper, rfl, rfl⟩
      · exact Or.inr ⟨head :: lower, before, upper, rfl, rfl⟩
    · rintro (⟨rfl, upper, heq⟩ | ⟨lower, before, upper, rfl, heq⟩)
      · exact Or.inl (by rw [(List.cons.inj heq).1])
      · rcases lower with _ | ⟨first', lower⟩
        · obtain ⟨rfl, rfl⟩ := List.cons.inj heq
          exact Or.inr (Or.inl ⟨rfl, upper, rfl⟩)
        · exact Or.inr (Or.inr ⟨lower, before, upper, rfl, (List.cons.inj heq).2⟩)

/-! ## Limits -/

/-- A group and the one before it have no more members than the list. -/
theorem candidateCount_le {step : Option (ℕ × ℕ) × (ℕ × ℕ)}
    (h : step ∈ withPrevious none (priorityGroups registrations indices)) :
    candidateCount step.1 step.2 ≤ max 1 indices.length := by
  have hflatten := congrArg List.length (chunks_priorityGroups registrations indices).flatten
  have hlength : ∀ group ∈ priorityGroups registrations indices, _ :=
    (priorityGroupsFrom_spec indices.length 0 le_rfl).2
  obtain ⟨previous, group⟩ := step
  rcases mem_withPrevious_iff.mp h with ⟨rfl, upper, heq⟩ | ⟨lower, before, upper, rfl, heq⟩
  · have hgroup := hlength group (show group ∈ priorityGroups _ _ by rw [heq]; simp)
    rw [heq, map_cons, flatten_cons, length_append, hgroup] at hflatten
    show (group.2 - group.1) - 1 + 1 ≤ _
    omega
  · have hgroup := hlength group (show group ∈ priorityGroups _ _ by rw [heq]; simp)
    have hbefore := hlength before (show before ∈ priorityGroups _ _ by rw [heq]; simp)
    rw [heq, map_append, flatten_append, length_append, map_cons, map_cons,
      flatten_cons, flatten_cons, length_append, length_append, hgroup,
      hbefore] at hflatten
    show (group.2 - group.1) - 1 + (if before.2 - before.1 = 0 then 1 else before.2 - before.1) ≤ _
    split_ifs
    all_goals omega

section Chain

variable [DecidableEq ι] {base : Bytes}

/-- The registrations by priority. -/
def byPriority (registrations : ι → Registration E) (indices : List ι) : List ι :=
  indices.mergeSort fun a b => (registrations a).numericPriority ≤ (registrations b).numericPriority

/-- The groups of members with one priority. -/
def groupsOf (registrations : ι → Registration E) (indices : List ι) : List (List ι) :=
  (priorityGroups registrations (byPriority registrations indices)).map
    (slice (byPriority registrations indices))

/-- The edges of groups, as pairs. -/
def chainEdges (groups : List (List ι)) : List (ι × PredecessorCandidate ι) :=
  (withPrevious none groups).flatMap fun step =>
    step.2.flatMap fun child => (predecessors step.1 step.2 child).map (child, ·)

/-- Up to 63 registrations, neither limit is met. -/
theorem buildBaseChain_eq (h : indices.length ≤ 63) :
    buildBaseChain base registrations indices =
      { edges := (chainEdges (groupsOf registrations indices)).map fun e =>
          edge base registrations e.1 e.2
        issues := (groupsOf registrations indices).filterMap (groupIssue base registrations) } := by
  have hlength : (byPriority registrations indices).length = indices.length :=
    length_mergeSort indices
  have hnone : candidateOverflow (byPriority registrations indices)
      (priorityGroups registrations (byPriority registrations indices)) = none := by
    rw [candidateOverflow, find?_eq_none.mpr]
    · rfl
    · intro step hstep
      have hcount := candidateCount_le hstep
      rw [hlength] at hcount
      rw [decide_eq_true_eq, maxCandidatesPerRegistration]
      omega
  have hedges : (withPrevious none (priorityGroups registrations
      (byPriority registrations indices))).flatMap (fun step =>
        groupEdges base registrations (step.1.map (slice (byPriority registrations indices)))
          (slice (byPriority registrations indices) step.2)) =
      (chainEdges (groupsOf registrations indices)).map fun e => edge base registrations e.1 e.2 := by
    rw [chainEdges, groupsOf, show (none : Option (List ι)) =
      Option.map (slice (byPriority registrations indices)) none from rfl, withPrevious_map]
    simp only [flatMap_map, map_flatMap, groupEdges, map_map]
    rfl
  have hissues : (priorityGroups registrations (byPriority registrations indices)).filterMap
      (fun group => groupIssue base registrations (slice (byPriority registrations indices) group)) =
      (groupsOf registrations indices).filterMap (groupIssue base registrations) := by
    rw [groupsOf, filterMap_map]
    rfl
  have hlimit : ¬ (byPriority registrations indices).length + 1 > maxChainClasses := by
    rw [hlength, maxChainClasses]
    omega
  unfold byPriority at hlimit hnone
  rw [buildBaseChain]
  dsimp only
  rw [if_neg hlimit, hnone]
  exact congrArg₂ ChainGraph.mk hedges hissues

/-! ## Edges -/

/-- What stands before a member in a chain: the base, then the registrations. -/
def chainOrder (order : List ι) : List (PredecessorCandidate ι) := .base :: order.map .registration

/-- `predecessor` is immediately before `child` in the chain. -/
def ImmediatelyBefore (predecessor : PredecessorCandidate ι) (child : ι) (order : List ι) : Prop :=
  ∃ before after, chainOrder order = before ++ predecessor :: .registration child :: after

variable {c : ι} {groups : List (List ι)}

omit [DecidableEq ι] in
theorem immediatelyBefore_registration_iff {p : ι} {order : List ι} :
    ImmediatelyBefore (.registration p) c order ↔
      ∃ before after, order = before ++ p :: c :: after := by
  constructor
  · rintro ⟨before, after, heq⟩
    rcases before with _ | ⟨first, before⟩
    · exact nomatch (List.cons.inj heq).1
    · obtain ⟨before', rest, rfl, -, hrest⟩ := map_eq_append_iff.mp (List.cons.inj heq).2
      obtain ⟨p', rest, rfl, hp, hrest⟩ := map_eq_cons_iff.mp hrest
      obtain ⟨c', rest, rfl, hc, -⟩ := map_eq_cons_iff.mp hrest
      exact ⟨before', rest, by rw [PredecessorCandidate.registration.inj hp,
        PredecessorCandidate.registration.inj hc]⟩
  · rintro ⟨before, after, rfl⟩
    refine ⟨.base :: before.map .registration, after.map .registration, ?_⟩
    rw [chainOrder, map_append, map_cons, map_cons]
    rfl

omit [DecidableEq ι] in
theorem immediatelyBefore_base_iff {order : List ι} :
    ImmediatelyBefore .base c order ↔ ∃ after, order = c :: after := by
  constructor
  · rintro ⟨before, after, heq⟩
    rcases before with _ | ⟨first, before⟩
    · obtain ⟨c', rest, rfl, hc, -⟩ := map_eq_cons_iff.mp (List.cons.inj heq).2
      exact ⟨rest, by rw [PredecessorCandidate.registration.inj hc]⟩
    · -- the base stands only at the front
      have hmem : PredecessorCandidate.base ∈ order.map PredecessorCandidate.registration := by
        rw [(List.cons.inj heq).2]
        simp
      obtain ⟨i, -, hi⟩ := mem_map.mp hmem
      exact nomatch hi
  · rintro ⟨after, rfl⟩
    exact ⟨[], after.map .registration, rfl⟩

theorem mem_predecessors_registration {previous : Option (List ι)} {group : List ι} {p : ι} :
    .registration p ∈ predecessors previous group c ↔
      (p ∈ group ∧ p ≠ c) ∨ ∃ members, previous = some members ∧ p ∈ members := by
  cases previous with
  | none => simp [predecessors, ne_comm]
  | some members => simp [predecessors, ne_comm]

theorem mem_chainEdges_registration {p : ι} : (c, .registration p) ∈ chainEdges groups ↔
      (∃ group ∈ groups, p ∈ group ∧ c ∈ group ∧ p ≠ c) ∨
      ∃ lower previous group upper, groups = lower ++ previous :: group :: upper ∧
        p ∈ previous ∧ c ∈ group := by
  have hstep : (c, .registration p) ∈ chainEdges groups ↔ ∃ previous group,
      (previous, group) ∈ withPrevious none groups ∧ c ∈ group ∧
        ((p ∈ group ∧ p ≠ c) ∨ ∃ members, previous = some members ∧ p ∈ members) := by
    simp only [chainEdges, mem_flatMap, mem_map, Prod.exists, Prod.mk.injEq]
    constructor
    · rintro ⟨previous, group, hgroup, c, hc, predecessor, hpredecessor, rfl, rfl⟩
      exact ⟨previous, group, hgroup, hc, mem_predecessors_registration.mp hpredecessor⟩
    · rintro ⟨previous, group, hgroup, hc, hp⟩
      exact ⟨previous, group, hgroup, c, hc, .registration p,
        mem_predecessors_registration.mpr hp, rfl, rfl⟩
  rw [hstep]
  constructor
  · rintro ⟨previous, group, hgroup, hc, ⟨hp, hne⟩ | ⟨members, rfl, hp⟩⟩
    · refine Or.inl ⟨group, ?_, hp, hc, hne⟩
      rcases mem_withPrevious_iff.mp hgroup with ⟨-, upper, rfl⟩ | ⟨lower, before, upper, -, rfl⟩
      all_goals simp
    · rcases mem_withPrevious_iff.mp hgroup with ⟨hnone, -⟩ | ⟨lower, before, upper, hsome, heq⟩
      · exact nomatch hnone
      · exact Or.inr ⟨lower, before, group, upper, heq, Option.some.inj hsome ▸ hp, hc⟩
  · rintro (⟨group, hgroup, hp, hc, hne⟩ | ⟨lower, previous, group, upper, heq, hp, hc⟩)
    · obtain ⟨previous, hprevious⟩ : ∃ previous, (previous, group) ∈ withPrevious none groups := by
        obtain ⟨lower, upper, rfl⟩ := append_of_mem hgroup
        rcases lower.eq_nil_or_concat with rfl | ⟨lower, before, rfl⟩
        · exact ⟨none, mem_withPrevious_iff.mpr (Or.inl ⟨rfl, upper, rfl⟩)⟩
        · exact ⟨some before, mem_withPrevious_iff.mpr
            (Or.inr ⟨lower, before, upper, rfl, by simp⟩)⟩
      exact ⟨previous, group, hprevious, hc, Or.inl ⟨hp, hne⟩⟩
    · exact ⟨some previous, group,
        mem_withPrevious_iff.mpr (Or.inr ⟨lower, previous, upper, rfl, heq⟩), hc,
        Or.inr ⟨previous, rfl, hp⟩⟩

theorem mem_chainEdges_base :
    (c, .base) ∈ chainEdges groups ↔ ∃ group upper, groups = group :: upper ∧ c ∈ group := by
  simp only [chainEdges, mem_flatMap, mem_map, Prod.exists, Prod.mk.injEq]
  constructor
  · rintro ⟨previous, group, hgroup, c, hc, predecessor, hpredecessor, rfl, rfl⟩
    rcases previous with _ | members
    · rcases mem_withPrevious_iff.mp hgroup with ⟨-, upper, heq⟩ | ⟨_, _, _, hsome, -⟩
      · exact ⟨group, upper, heq, hc⟩
      · exact nomatch hsome
    · simp [predecessors] at hpredecessor
  · rintro ⟨group, upper, rfl, hc⟩
    exact ⟨none, group, mem_withPrevious_iff.mpr (Or.inl ⟨rfl, upper, rfl⟩), c, hc, .base,
      by simp [predecessors], rfl, rfl⟩

section Orders

omit [DecidableEq ι]

variable (registrations) (indices)

theorem byPriority_isArrangement :
    IsArrangement (priorityOf registrations) indices (byPriority registrations indices) :=
  sort_isArrangement (priorityOf registrations) indices

theorem chunks_groupsOf :
    Chunks (priorityOf registrations) (byPriority registrations indices)
      (groupsOf registrations indices) :=
  chunks_priorityGroups registrations (byPriority registrations indices)

end Orders

/-- The edges are the neighbours in some order that respects the priorities. -/
theorem mem_chainEdges_iff (hnodup : indices.Nodup) {c : ι} {p : PredecessorCandidate ι} :
    (c, p) ∈ chainEdges (groupsOf registrations indices) ↔
      ∃ order, IsArrangement (priorityOf registrations) indices order ∧
        ImmediatelyBefore p c order := by
  have harrangement := byPriority_isArrangement registrations indices
  have hchunks := chunks_groupsOf registrations indices
  have hmem : ∀ {i}, i ∈ byPriority registrations indices ↔ i ∈ indices :=
    harrangement.perm.mem_iff
  cases p with
  | registration p =>
    simp only [immediatelyBefore_registration_iff]
    rw [mem_chainEdges_registration, ← hchunks.precedes_iff harrangement.sorted,
      exists_adjacent_iff hnodup]
    constructor
    · rintro ⟨hp, hc, hne, hle, hgap⟩
      exact ⟨hmem.mp hp, hmem.mp hc, hne, hle, fun i hi => hgap i (hmem.mpr hi)⟩
    · rintro ⟨hp, hc, hne, hle, hgap⟩
      exact ⟨hmem.mpr hp, hmem.mpr hc, hne, hle, fun i hi => hgap i (hmem.mp hi)⟩
  | base =>
    simp only [immediatelyBefore_base_iff]
    rw [mem_chainEdges_base, ← hchunks.first_iff harrangement.sorted, exists_first_iff]
    simp only [hmem]

/-- No edge twice: groups have no member in common. -/
theorem nodup_withPrevious_edges {previous : Option (List ι)}
    (h : (previous.getD [] ++ groups.flatten).Nodup) :
    ((withPrevious previous groups).flatMap fun step =>
      step.2.flatMap fun child => (predecessors step.1 step.2 child).map (child, ·)).Nodup := by
  induction groups generalizing previous with
  | nil => exact nodup_nil
  | cons group groups ih =>
    obtain ⟨hprevious, hflatten, hdisjoint⟩ := nodup_append.mp h
    rw [flatten_cons] at hflatten hdisjoint
    obtain ⟨hgroup, -, hcross⟩ := nodup_append.mp hflatten
    have hpredecessors : ∀ child, (predecessors previous group child).Nodup := by
      intro child
      refine nodup_append.mpr ⟨?_, ?_, ?_⟩
      · exact (hgroup.filter _).map fun _ _ => PredecessorCandidate.registration.inj
      · rcases previous with _ | members
        · exact nodup_singleton _
        · exact hprevious.map fun _ _ => PredecessorCandidate.registration.inj
      · rintro a ha b hb rfl
        obtain ⟨i, hi, rfl⟩ := mem_map.mp ha
        rcases previous with _ | members
        · exact nomatch mem_singleton.mp hb
        · obtain ⟨j, hj, heq⟩ := mem_map.mp hb
          exact hdisjoint j hj i (mem_append_left _ (mem_filter.mp hi).1)
            (PredecessorCandidate.registration.inj heq)
    rw [withPrevious, flatMap_cons]
    refine nodup_append.mpr ⟨?_, ih hflatten, ?_⟩
    · refine nodup_flatMap.mpr ⟨fun child _ => ?_, ?_⟩
      · exact (hpredecessors child).map fun _ _ heq => (Prod.mk.inj heq).2
      · refine hgroup.imp fun hne => ?_
        intro e he he'
        obtain ⟨_, _, rfl⟩ := mem_map.mp he
        obtain ⟨_, _, heq⟩ := mem_map.mp he'
        exact hne (Prod.mk.inj heq).1.symm
    · rintro e he e' he' rfl
      obtain ⟨child, hchild, he⟩ := mem_flatMap.mp he
      obtain ⟨_, _, rfl⟩ := mem_map.mp he
      obtain ⟨⟨before, later⟩, hlater, he'⟩ := mem_flatMap.mp he'
      obtain ⟨child', hchild', he'⟩ := mem_flatMap.mp he'
      obtain ⟨_, _, heq⟩ := mem_map.mp he'
      obtain rfl := (Prod.mk.inj heq).1
      have hmem : later ∈ groups := by
        rcases mem_withPrevious_iff.mp hlater with ⟨-, upper, rfl⟩ | ⟨lower, -, upper, -, rfl⟩
        all_goals simp
      exact hcross child' hchild child' (mem_flatten_of_mem hmem hchild') rfl

theorem nodup_chainEdges (hnodup : indices.Nodup) :
    (chainEdges (groupsOf registrations indices)).Nodup := by
  apply nodup_withPrevious_edges
  rw [(chunks_groupsOf registrations indices).flatten]
  exact (byPriority_isArrangement registrations indices).perm.nodup_iff.mpr hnodup

/-! ## Ties -/

omit [DecidableEq ι] in
theorem groupIssue_eq_some_iff {group : List ι} {issue : ChainIssue ι} :
    groupIssue base registrations group = some issue ↔ ∃ first second rest,
      group = first :: second :: rest ∧
        issue = .priorityTie base (priorityOf registrations first) group := by
  rcases group with _ | ⟨first, _ | ⟨second, rest⟩⟩
  · simp [groupIssue]
  · simp [groupIssue]
  · simp [groupIssue, priorityOf, eq_comm]

omit [DecidableEq ι] in
/-- The priorities of ties are those that two registrations share. -/
theorem exists_tie_iff (hnodup : indices.Nodup) (priority : ℤ) :
    (∃ tied, .priorityTie base priority tied ∈
        (groupsOf registrations indices).filterMap (groupIssue base registrations)) ↔
      ∃ a ∈ indices, ∃ b ∈ indices, a ≠ b ∧ priorityOf registrations a = priority ∧
        priorityOf registrations b = priority := by
  have harrangement := byPriority_isArrangement registrations indices
  have hchunks := chunks_groupsOf registrations indices
  have hmem : ∀ {i}, i ∈ byPriority registrations indices ↔ i ∈ indices :=
    harrangement.perm.mem_iff
  have hflat : (groupsOf registrations indices).flatten.Nodup := by
    rw [hchunks.flatten]
    exact harrangement.perm.nodup_iff.mpr hnodup
  constructor
  · rintro ⟨tied, htied⟩
    obtain ⟨group, hgroup, hissue⟩ := mem_filterMap.mp htied
    obtain ⟨first, second, rest, rfl, heq⟩ := groupIssue_eq_some_iff.mp hissue
    obtain ⟨-, hpriority, -⟩ := ChainIssue.priorityTie.inj heq
    obtain ⟨hfirst, hsecond, hkey⟩ := (hchunks.exists_group_iff harrangement.sorted).mp
      ⟨_, hgroup, show first ∈ _ by simp, show second ∈ first :: second :: rest by simp⟩
    have hne : first ≠ second := by
      have hgroupNodup := (nodup_flatten.mp hflat).1 _ hgroup
      exact fun h => (nodup_cons.mp hgroupNodup).1 (h ▸ mem_cons_self)
    exact ⟨first, hmem.mp hfirst, second, hmem.mp hsecond, hne, hpriority.symm,
      hkey.symm.trans hpriority.symm⟩
  · rintro ⟨a, ha, b, hb, hne, hpa, hpb⟩
    obtain ⟨group, hgroup, ha', hb'⟩ := (hchunks.exists_group_iff harrangement.sorted).mpr
      ⟨hmem.mpr ha, hmem.mpr hb, hpa.trans hpb.symm⟩
    rcases hcases : group with _ | ⟨first, _ | ⟨second, rest⟩⟩
    · rw [hcases] at ha'
      exact absurd ha' not_mem_nil
    · rw [hcases, mem_singleton] at ha' hb'
      exact absurd (ha'.trans hb'.symm) hne
    · have hfirst : priorityOf registrations first = priority := by
        rw [← hpa]
        exact hchunks.same group hgroup first (by rw [hcases]; simp) a ha'
      refine ⟨group, mem_filterMap.mpr ⟨group, hgroup, groupIssue_eq_some_iff.mpr
        ⟨first, second, rest, hcases, ?_⟩⟩⟩
      rw [hfirst]

/-! ## The whole graph -/

theorem buildChainForBase_edges (base : Bytes) (h : indices.length ≤ 63) :
    (buildChainForBase base registrations indices).edges.map (fun e => (e.child, e.predecessor)) =
      chainEdges (groupsOf registrations indices) := by
  rw [buildChainForBase, buildBaseChain_eq h, map_map]
  exact map_id _

theorem buildChainForBase_limit (h : 63 < indices.length) :
    buildChainForBase base registrations indices =
      { edges := [], issues := [.classLimitExceeded base (indices.length + 1) 64] } := by
  have hlength : (byPriority registrations indices).length = indices.length :=
    length_mergeSort indices
  rw [buildChainForBase, buildBaseChain]
  show (if (byPriority registrations indices).length + 1 > maxChainClasses then _ else _) = _
  rw [hlength, if_pos (show indices.length + 1 > maxChainClasses by rw [maxChainClasses]; omega)]
  exact congrArg (fun n => ChainGraph.mk [] [ChainIssue.classLimitExceeded base (n + 1) 64]) hlength

/-- An edge has the evidence of its two ends. -/
theorem eq_edge_of_mem {e : CandidateEdge ι E}
    (he : e ∈ (buildChainForBase base registrations indices).edges) :
    e = edge base registrations e.child e.predecessor := by
  by_cases h : indices.length ≤ 63
  · rw [buildChainForBase, buildBaseChain_eq h] at he
    obtain ⟨pair, -, rfl⟩ := mem_map.mp he
    rfl
  · rw [buildChainForBase_limit (by omega)] at he
    exact absurd he not_mem_nil

/-- Edges are equal as sets where the pairs are. -/
theorem mem_edges_iff (e : CandidateEdge ι E) :
    e ∈ (buildChainForBase base registrations indices).edges ↔
      e = edge base registrations e.child e.predecessor ∧ indices.length ≤ 63 ∧
        (e.child, e.predecessor) ∈ chainEdges (groupsOf registrations indices) := by
  constructor
  · intro he
    have h : indices.length ≤ 63 := by
      by_contra h
      rw [buildChainForBase_limit (by omega)] at he
      exact absurd he not_mem_nil
    refine ⟨eq_edge_of_mem he, h, ?_⟩
    rw [← buildChainForBase_edges base h]
    exact mem_map_of_mem he
  · rintro ⟨heq, h, hpair⟩
    rw [buildChainForBase, buildBaseChain_eq h]
    exact heq ▸ mem_map_of_mem hpair

/-- The candidate graph of a base: up to 63 registrations it has each neighbourhood of
the possible orders once, and a tie for each shared priority; with more it is empty.
The order of the list does not matter. -/
theorem buildChainForBase_spec (base : Bytes) (registrations : ι → Registration E)
    (indices : List ι) (hnodup : indices.Nodup) :
    (indices.length ≤ 63 →
      ((buildChainForBase base registrations indices).edges.map
        fun e => (e.child, e.predecessor)).Nodup ∧
      (∀ c p, (∃ e ∈ (buildChainForBase base registrations indices).edges,
          e.child = c ∧ e.predecessor = p) ↔
        ∃ order, IsArrangement (priorityOf registrations) indices order ∧
          ImmediatelyBefore p c order) ∧
      (∀ priority, (∃ tied, .priorityTie base priority tied ∈
          (buildChainForBase base registrations indices).issues) ↔
        ∃ a ∈ indices, ∃ b ∈ indices, a ≠ b ∧ priorityOf registrations a = priority ∧
          priorityOf registrations b = priority) ∧
      ∀ issue ∈ (buildChainForBase base registrations indices).issues,
        ∃ priority tied, issue = .priorityTie base priority tied) ∧
    (63 < indices.length →
      buildChainForBase base registrations indices =
        { edges := [], issues := [.classLimitExceeded base (indices.length + 1) 64] }) ∧
    ∀ indices' : List ι, indices'.Perm indices → ∀ e,
      e ∈ (buildChainForBase base registrations indices').edges ↔
        e ∈ (buildChainForBase base registrations indices).edges := by
  refine ⟨fun h => ⟨?_, fun c p => ?_, fun priority => ?_, fun issue hissue => ?_⟩,
    buildChainForBase_limit, fun indices' hperm e => ?_⟩
  · rw [buildChainForBase_edges base h]
    exact nodup_chainEdges hnodup
  · rw [← mem_chainEdges_iff hnodup, ← buildChainForBase_edges base h, mem_map]
    simp only [Prod.mk.injEq]
  · rw [buildChainForBase, buildBaseChain_eq h]
    exact exists_tie_iff hnodup priority
  · rw [buildChainForBase, buildBaseChain_eq h] at hissue
    obtain ⟨group, -, hgroup⟩ := mem_filterMap.mp hissue
    obtain ⟨first, second, rest, -, rfl⟩ := groupIssue_eq_some_iff.mp hgroup
    exact ⟨_, _, rfl⟩
  · have horders : ∀ order, IsArrangement (priorityOf registrations) indices' order ↔
        IsArrangement (priorityOf registrations) indices order := fun order =>
      ⟨fun ⟨h, hs⟩ => ⟨h.trans hperm, hs⟩, fun ⟨h, hs⟩ => ⟨h.trans hperm.symm, hs⟩⟩
    rw [mem_edges_iff, mem_edges_iff, hperm.length_eq, mem_chainEdges_iff hnodup,
      mem_chainEdges_iff (hperm.nodup_iff.mpr hnodup)]
    simp only [horders]

/-- Two registrations with the priority 10 and one with 20: the last can follow either. -/
theorem buildChainForBase_spec_tie :
    [0, 1, 2].Nodup ∧ ∃ e ∈ (buildChainForBase (ascii "app\\base") (fun i : ℕ =>
      (⟨[], ascii "app\\base", ascii "addon\\x", if i = 2 then 20 else 10, i⟩ : Registration ℕ))
        [0, 1, 2]).edges, e.child = 2 ∧ e.predecessor = .registration 0 := by
  refine ⟨by decide, ?_⟩
  refine (((buildChainForBase_spec _ _ [0, 1, 2] (by decide)).1 (by decide)).2.1 2
    (.registration 0)).mpr ⟨[1, 0, 2], ⟨?_, ?_⟩, ?_⟩
  · decide
  · decide
  · exact ⟨[.base, .registration 1], [], rfl⟩

end Chain

end Trufflepig.Resolver
