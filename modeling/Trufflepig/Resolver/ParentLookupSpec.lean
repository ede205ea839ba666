import Trufflepig.Resolver.ParentLookup

/-!
# What the parent lookup finds

* `SafeMethod`, `Reaches`: the methods that may be found, and the classes in which.
* `enqueueParents_spec`: what the parents of one class add to the search.
* `SearchInvariant`, `visitClass_invariant`, `searchLoop_invariant`: the search state
  after any number of classes, from one step to the run.
* `lookupParentMethod_spec`: every candidate is a safe method in a reached class; all of
  them are found unless the search was truncated; the edges may be stored in any order.
* `lookup_cycle_depends_on_order`: the issues do depend on the order.
-/

namespace Trufflepig.Resolver

open List Lib

/-! ## Specification -/

section Spec

variable (index : PhpHierarchyIndex) (callerClassId : ℤ) (methodName : Bytes)

/-- The class is complete and unconditional. -/
def UsableClass (classId : ℤ) : Prop :=
  ∃ fact, index.classFact classId = some fact ∧ fact.complete = true ∧ fact.conditional = false

/-- An unconditional edge of status `Candidates` and known kind has the target. -/
def UsableEdge (classId target : ℤ) : Prop :=
  ∃ parent ∈ index.parentCandidates classId, parent.conditional = false ∧
    parent.status = .candidates ∧ parent.kind ≠ .unknown ∧ target ∈ parent.candidateClassIds

/-- The search goes on to the parents of the class: it is complete and unconditional and
has neither the method nor a trait use. -/
def Passable (classId : ℤ) : Prop :=
  ∃ fact, index.classFact classId = some fact ∧ fact.complete = true ∧ fact.conditional = false ∧
    fact.hasTraitUse = false ∧ fact.traitUseConditional = false ∧
    index.directMethods classId methodName = []

/-- The classes above the caller. -/
inductive Reaches : ℤ → Prop where
  | parent {target : ℤ} (hcaller : UsableClass index callerClassId)
      (hedge : UsableEdge index callerClassId target) : Reaches target
  | step {classId target : ℤ} (h : Reaches classId) (hpass : Passable index methodName classId)
      (hedge : UsableEdge index classId target) : Reaches target

/-- The only method of that name of a complete unconditional class; it is complete,
unconditional, not abstract, and public or protected. -/
structure SafeMethod (classId : ℤ) (method : PhpMethodFact) : Prop where
  usable : UsableClass index classId
  only : index.directMethods classId methodName = [method]
  complete : method.complete = true
  unconditional : method.conditional = false
  concrete : method.abstractMethod = false
  visible : method.visibility = .public ∨ method.visibility = .protected

/-- The number of candidates on the usable edges. -/
def candidateTotal (parents : List PhpParentCandidate) : ℕ :=
  ((parents.filter fun parent => edgeIssue parent = none).map
    fun parent => parent.candidateClassIds.length).sum

/-- The edges of a class and their candidates are within the bounds. -/
def BoundedParents (classId : ℤ) : Prop :=
  (index.parentCandidates classId).length ≤ 64 ∧
    candidateTotal (index.parentCandidates classId) ≤ 64

end Spec

theorem edgeIssue_eq_none_iff {parent : PhpParentCandidate} :
    edgeIssue parent = none ↔ parent.conditional = false ∧ parent.status = .candidates ∧
      parent.kind ≠ .unknown ∧ parent.candidateClassIds ≠ [] := by
  rw [edgeIssue]
  rcases parent.conditional with _ | _
  · rcases hstatus : parent.status with _ | _ | _ | _ | _ | _
    · by_cases hkind : parent.kind = .unknown
      · simp [hkind]
      · by_cases hids : parent.candidateClassIds = []
        · simp [hkind, hids]
        · simp [hkind, hids]
    all_goals simp
  · simp

/-- The targets of a list of edges. -/
def TargetOf (parents : List PhpParentCandidate) (y : ℤ) : Prop :=
  ∃ parent ∈ parents, edgeIssue parent = none ∧ y ∈ parent.candidateClassIds

variable {parents : List PhpParentCandidate}

theorem targetOf_cons {y : ℤ} {parent : PhpParentCandidate} :
    TargetOf (parent :: parents) y ↔
      edgeIssue parent = none ∧ y ∈ parent.candidateClassIds ∨ TargetOf parents y := by
  simp [TargetOf]

/-- Usable edges are those without an issue. -/
theorem usableEdge_eq (index : PhpHierarchyIndex) (classId : ℤ) :
    UsableEdge index classId = TargetOf (index.parentCandidates classId) := by
  funext target
  refine propext ⟨?_, ?_⟩
  · rintro ⟨parent, hparent, hconditional, hstatus, hkind, htarget⟩
    exact ⟨parent, hparent, edgeIssue_eq_none_iff.mpr ⟨hconditional, hstatus, hkind,
      ne_nil_of_mem htarget⟩, htarget⟩
  · rintro ⟨parent, hparent, hissue, htarget⟩
    obtain ⟨hconditional, hstatus, hkind, -⟩ := edgeIssue_eq_none_iff.mp hissue
    exact ⟨parent, hparent, hconditional, hstatus, hkind, htarget⟩

theorem classIssue_eq_none_iff {fact : PhpClassFact} :
    classIssue fact = none ↔ fact.complete = true ∧ fact.conditional = false := by
  rw [classIssue]
  rcases fact.conditional with _ | _
  · rcases fact.complete with _ | _
    · simp
    · simp
  · simp

/-! ## Issues leave the search alone -/

theorem addIssue_candidates (result : ParentLookup) (classId : ℤ) (kind : ParentLookupIssueKind) :
    (result.addIssue classId kind).candidates = result.candidates := by
  rw [ParentLookup.addIssue, ParentLookup.pushIssue]
  split_ifs
  all_goals rfl

theorem addIssue_truncated (result : ParentLookup) (classId : ℤ) (kind : ParentLookupIssueKind)
    (h : result.truncated = true) : (result.addIssue classId kind).truncated = true := by
  rw [ParentLookup.addIssue, ParentLookup.pushIssue]
  split_ifs
  · exact h
  · rfl
  · exact h

/-! ## Progress of the search -/

/-- What holds of the variables of the search at any time. -/
structure SearchState.Good (state : SearchState) : Prop where
  nodup : state.visited.Nodup
  count : state.visitedCount = state.visited.length
  bound : state.visited.length ≤ 64
  paths : ∀ pending ∈ state.pending, ∀ x ∈ pending.path, x ∈ state.visited

/-- From `state` to `state'` the search visited some more targets, which are pending. -/
structure Progress (targets : ℤ → Prop) (state state' : SearchState) : Prop where
  good : state.Good → state'.Good
  visits : ∃ new, state'.visited = state.visited ++ new ∧
    state'.pending.map PendingClass.classId = state.pending.map PendingClass.classId ++ new ∧
    ∀ y ∈ new, targets y
  candidates : state'.result.candidates = state.result.candidates
  truncated : state.result.truncated = true → state'.result.truncated = true

section Progress

variable {targets targets' : ℤ → Prop} {state state' state'' : SearchState}

theorem Progress.refl (targets : ℤ → Prop) (state : SearchState) : Progress targets state state :=
  ⟨id, ⟨[], (append_nil _).symm, (append_nil _).symm,
    fun _ h => absurd h not_mem_nil⟩, rfl, id⟩

section

variable (h : Progress targets state state')
include h

theorem Progress.trans (h' : Progress targets state' state'') :
    Progress targets state state'' := by
  obtain ⟨new, hvisited, hpending, hnew⟩ := h.visits
  obtain ⟨new', hvisited', hpending', hnew'⟩ := h'.visits
  refine ⟨h'.good ∘ h.good, ⟨new ++ new', ?_, ?_, fun y hy => ?_⟩,
    h'.candidates.trans h.candidates, h'.truncated ∘ h.truncated⟩
  · rw [hvisited', hvisited, append_assoc]
  · rw [hpending', hpending, append_assoc]
  · rcases mem_append.mp hy with hy | hy
    · exact hnew y hy
    · exact hnew' y hy

theorem Progress.mono (htargets : ∀ y, targets y → targets' y) :
    Progress targets' state state' := by
  obtain ⟨new, hvisited, hpending, hnew⟩ := h.visits
  exact ⟨h.good, ⟨new, hvisited, hpending, fun y hy => htargets y (hnew y hy)⟩, h.candidates,
    h.truncated⟩

theorem Progress.visited_subset {x : ℤ} (hx : x ∈ state.visited) : x ∈ state'.visited := by
  obtain ⟨new, hvisited, -⟩ := h.visits
  rw [hvisited]
  exact mem_append_left new hx

/-- A full table of visited classes stays full. -/
theorem Progress.full (hgood : state.Good) (hfull : state.visited.length = 64) :
    state'.visited.length = 64 := by
  obtain ⟨new, hvisited, -⟩ := h.visits
  have hbound := (h.good hgood).bound
  rw [hvisited, length_append] at hbound ⊢
  omega

end

theorem Progress.addIssue (targets : ℤ → Prop) (state : SearchState) (classId : ℤ)
    (kind : ParentLookupIssueKind) : Progress targets state (state.addIssue classId kind) :=
  ⟨fun h => ⟨h.nodup, h.count, h.bound, h.paths⟩, (Progress.refl targets state).visits,
    addIssue_candidates _ _ _, addIssue_truncated _ _ _⟩

theorem Progress.truncate (targets : ℤ → Prop) (state : SearchState) (classId : ℤ)
    (kind : ParentLookupIssueKind) : Progress targets state (state.truncate classId kind) :=
  ⟨fun h => ⟨h.nodup, h.count, h.bound, h.paths⟩, (Progress.refl targets state).visits,
    addIssue_candidates _ _ _, fun _ => addIssue_truncated _ _ _ rfl⟩

theorem truncate_truncated (state : SearchState) (classId : ℤ) (kind : ParentLookupIssueKind) :
    (state.truncate classId kind).result.truncated = true := addIssue_truncated _ _ _ rfl

end Progress

/-- The target is visited, or there was no room for it, and then the result says so. -/
def Covered (state : SearchState) (target : ℤ) : Prop :=
  target ∈ state.visited ∨ state.visited.length = 64 ∧ state.result.truncated = true

variable {target : ℤ}

theorem Covered.progress {targets : ℤ → Prop} {state state' : SearchState}
    (h : Covered state target) (hprogress : Progress targets state state') (hgood : state.Good) :
    Covered state' target := by
  rcases h with hvisited | ⟨hfull, htruncated⟩
  · exact Or.inl (hprogress.visited_subset hvisited)
  · exact Or.inr ⟨hprogress.full hgood hfull, hprogress.truncated htruncated⟩

/-- All targets are covered, or they are out of bounds and the result says so. -/
def Settled (bounded : Prop) (targets : ℤ → Prop) (state : SearchState) : Prop :=
  (bounded ∧ ∀ y, targets y → Covered state y) ∨ (¬ bounded ∧ state.result.truncated = true)

theorem Settled.widen {bounded bounded' : Prop} {targets targets' : ℤ → Prop} {state : SearchState}
    (h : Settled bounded targets state) (hbounded : bounded' ↔ bounded)
    (htargets : ∀ y, targets' y → targets y ∨ Covered state y) : Settled bounded' targets' state := by
  rcases h with ⟨hyes, hcovered⟩ | ⟨hno, htruncated⟩
  · exact .inl ⟨hbounded.mpr hyes, fun y hy => (htargets y hy).elim (hcovered y) id⟩
  · exact .inr ⟨mt hbounded.mp hno, htruncated⟩

/-! ## The parents of one class -/

section Enqueue

variable (classId : ℤ) {path : List ℤ} (parent : PhpParentCandidate) {state : SearchState}

theorem enqueueCandidate_progress (hpath : ∀ x ∈ path, x ∈ state.visited) (candidateId : ℤ) :
    Progress (· = candidateId) state (enqueueCandidate classId path parent state candidateId) := by
  rw [enqueueCandidate]
  split_ifs with hinPath hcycle hvisited hfull
  · exact Progress.addIssue _ state classId .ordinaryParentCycle
  · exact Progress.refl _ state
  · exact Progress.refl _ state
  · exact Progress.truncate _ state classId .visitLimit
  · refine ⟨fun hgood => ⟨?_, ?_, ?_, ?_⟩, ⟨[candidateId], rfl, by simp, by simp⟩, rfl, id⟩
    · exact nodup_append.mpr ⟨hgood.nodup, nodup_singleton _, fun a ha b hb heq =>
        hvisited (mem_singleton.mp hb ▸ heq ▸ ha)⟩
    · rw [length_append, hgood.count]
      rfl
    · have hbound := hgood.bound
      rw [hgood.count, maxParentLookupVisited] at hfull
      rw [length_append, length_singleton]
      omega
    · intro pending hpending x hx
      rcases mem_append.mp hpending with hpending | hpending
      · exact mem_append_left _ (hgood.paths pending hpending x hx)
      · rw [mem_singleton.mp hpending] at hx
        rcases mem_append.mp hx with hx | hx
        · exact mem_append_left _ (hpath x hx)
        · exact mem_append_right _ hx

theorem enqueueCandidate_covered (hpath : ∀ x ∈ path, x ∈ state.visited) (hgood : state.Good)
    (candidateId : ℤ) :
    Covered (enqueueCandidate classId path parent state candidateId) candidateId := by
  rw [enqueueCandidate]
  split_ifs with hinPath hcycle hvisited hfull
  · exact Or.inl (hpath candidateId hinPath)
  · exact Or.inl (hpath candidateId hinPath)
  · exact Or.inl hvisited
  · exact Or.inr ⟨hgood.count ▸ hfull, truncate_truncated state classId .visitLimit⟩
  · exact Or.inl (by simp)

/-- The candidates of one edge: all are covered, or there were too many of them. -/
theorem enqueueCandidates_spec (ids : List ℤ) (count : ℕ) (state : SearchState)
    (hcount : count ≤ 64) (hpath : ∀ x ∈ path, x ∈ state.visited) (hgood : state.Good) :
    match enqueueCandidates classId path parent ids count state with
    | .error state' => Progress (· ∈ ids) state state' ∧ state'.result.truncated = true ∧
        64 < count + ids.length
    | .ok (count', state') => Progress (· ∈ ids) state state' ∧ count' = count + ids.length ∧
        count' ≤ 64 ∧ ∀ y ∈ ids, Covered state' y := by
  induction ids generalizing count state with
  | nil => exact ⟨Progress.refl _ state, rfl, hcount, fun _ h => absurd h not_mem_nil⟩
  | cons candidateId ids ih =>
    rw [enqueueCandidates]
    by_cases hlimit : count = maxParentLookupCandidates
    · rw [if_pos hlimit]
      refine ⟨Progress.truncate _ state classId .candidateLimit, truncate_truncated _ _ _, ?_⟩
      rw [hlimit, maxParentLookupCandidates, length_cons]
      omega
    · rw [if_neg hlimit]
      rw [maxParentLookupCandidates] at hlimit
      have hfirst := enqueueCandidate_progress classId parent hpath candidateId
      have hcovered := enqueueCandidate_covered classId parent hpath hgood candidateId
      have hfirst' : Progress (· ∈ candidateId :: ids) state
          (enqueueCandidate classId path parent state candidateId) :=
        hfirst.mono fun y hy => by simp [hy]
      have hrest := ih (count + 1) (enqueueCandidate classId path parent state candidateId)
        (by omega) (fun x hx => hfirst.visited_subset (hpath x hx)) (hfirst.good hgood)
      rcases hresult : enqueueCandidates classId path parent ids (count + 1)
        (enqueueCandidate classId path parent state candidateId) with state' | ⟨count', state'⟩
      all_goals rw [hresult] at hrest
      · obtain ⟨hprogress, htruncated, hmany⟩ := hrest
        refine ⟨hfirst'.trans (hprogress.mono fun y hy => mem_cons_of_mem _ hy), htruncated, ?_⟩
        rw [length_cons]
        omega
      · obtain ⟨hprogress, hcount', hbound, hall⟩ := hrest
        refine ⟨hfirst'.trans (hprogress.mono fun y hy => mem_cons_of_mem _ hy), ?_, hbound, ?_⟩
        · rw [hcount', length_cons]
          omega
        · exact forall_mem_cons.mpr ⟨hcovered.progress hprogress (hfirst.good hgood), hall⟩

theorem candidateTotal_cons (parent : PhpParentCandidate) (parents : List PhpParentCandidate) :
    candidateTotal (parent :: parents) =
      (if edgeIssue parent = none then parent.candidateClassIds.length else 0) +
        candidateTotal parents := by
  rw [candidateTotal, candidateTotal]
  by_cases h : edgeIssue parent = none
  · rw [filter_cons_of_pos (by simpa using h), if_pos h, map_cons, sum_cons]
  · rw [filter_cons_of_neg (by simpa using h), if_neg h, Nat.zero_add]

/-- The edges of a class: all targets are covered, or there were too many edges or
candidates. -/
theorem enqueueEdges_spec (parents : List PhpParentCandidate) (edges count : ℕ)
    (state : SearchState) (hedges : edges ≤ 64) (hcount : count ≤ 64)
    (hpath : ∀ x ∈ path, x ∈ state.visited) (hgood : state.Good) :
    Progress (TargetOf parents) state (enqueueEdges classId path parents edges count state) ∧
      Settled (edges + parents.length ≤ 64 ∧ count + candidateTotal parents ≤ 64)
        (TargetOf parents) (enqueueEdges classId path parents edges count state) := by
  induction parents generalizing edges count state with
  | nil =>
    refine ⟨Progress.refl _ state, Or.inl ⟨⟨hedges, hcount⟩, ?_⟩⟩
    rintro y ⟨parent, hparent, -⟩
    exact absurd hparent not_mem_nil
  | cons parent parents ih =>
    rw [enqueueEdges, length_cons, candidateTotal_cons]
    by_cases hlimit : edges = maxParentLookupCandidates
    · rw [if_pos hlimit]
      rw [maxParentLookupCandidates] at hlimit
      exact ⟨Progress.truncate _ state classId .candidateLimit,
        Or.inr ⟨by omega, truncate_truncated _ _ _⟩⟩
    · rw [if_neg hlimit]
      rw [maxParentLookupCandidates] at hlimit
      rcases hissue : edgeIssue parent with _ | kind
      · have hids := enqueueCandidates_spec classId parent parent.candidateClassIds count state
          hcount hpath hgood
        have htarget : ∀ y ∈ parent.candidateClassIds, TargetOf (parent :: parents) y :=
          fun y hy => targetOf_cons.mpr (.inl ⟨hissue, hy⟩)
        rw [if_pos rfl]
        dsimp only
        rcases hresult : enqueueCandidates classId path parent parent.candidateClassIds count state
          with state' | ⟨count', state'⟩
        all_goals rw [hresult] at hids
        · obtain ⟨hprogress, htruncated, hmany⟩ := hids
          exact ⟨hprogress.mono htarget, Or.inr ⟨by omega, htruncated⟩⟩
        · obtain ⟨hprogress, hcount', hbound, hall⟩ := hids
          obtain ⟨hprogress', hrest⟩ := ih (edges + 1) count' state' (by omega) hbound
            (fun x hx => hprogress.visited_subset (hpath x hx)) (hprogress.good hgood)
          refine ⟨(hprogress.mono htarget).trans (hprogress'.mono fun _ => targetOf_cons.mpr ∘ .inr),
            hrest.widen (by omega) fun y hy => ?_⟩
          rcases targetOf_cons.mp hy with ⟨-, hy⟩ | hy
          · exact .inr ((hall y hy).progress hprogress' (hprogress.good hgood))
          · exact .inl hy
      · have hfirst := Progress.addIssue (TargetOf (parent :: parents)) state classId kind
        obtain ⟨hprogress', hrest⟩ := ih (edges + 1) count
          (state.addIssue classId kind) (by omega) hcount hpath (hfirst.good hgood)
        rw [if_neg (Option.some_ne_none kind)]
        refine ⟨hfirst.trans (hprogress'.mono fun _ => targetOf_cons.mpr ∘ .inr),
          hrest.widen (by omega) fun y hy => .inl ?_⟩
        refine (targetOf_cons.mp hy).resolve_left fun hedge => ?_
        exact Option.some_ne_none kind (hissue.symm.trans hedge.1)

/-- The parents of a class: all are covered, or they are out of bounds and the result
says so. -/
theorem enqueueParents_spec (index : PhpHierarchyIndex) (classId : ℤ) (caller : Bool)
    (hpath : ∀ x ∈ path, x ∈ state.visited) (hgood : state.Good) :
    Progress (UsableEdge index classId) state
        (enqueueParents index classId path caller state) ∧
      Settled (BoundedParents index classId) (UsableEdge index classId)
        (enqueueParents index classId path caller state) := by
  rw [BoundedParents, usableEdge_eq, enqueueParents]
  rcases index.parentCandidates classId with _ | ⟨parent, parents⟩
  · refine ⟨(Progress.addIssue _ state classId _), Or.inl ⟨⟨by simp, by simp [candidateTotal]⟩, ?_⟩⟩
    rintro y ⟨parent, hparent, -⟩
    exact absurd hparent not_mem_nil
  · obtain ⟨hprogress, hrest⟩ := enqueueEdges_spec classId (parent :: parents) 0 0 state
      (by omega) (by omega) hpath hgood
    exact ⟨hprogress, hrest.widen (by rw [Nat.zero_add, Nat.zero_add]) fun y hy => .inl hy⟩

end Enqueue

/-! ## The search -/

variable {method : PhpMethodFact}

section Search

variable {index : PhpHierarchyIndex} {callerClassId : ℤ} {methodName : Bytes} {done : List ℤ}
  {state state' : SearchState} {current : PendingClass} {rest : List PendingClass}

/-- The parents of a class are covered, or out of bounds and the result says so. -/
def Expanded (index : PhpHierarchyIndex) (state : SearchState) (classId : ℤ) : Prop :=
  Settled (BoundedParents index classId) (UsableEdge index classId) state

/-- The classes whose parents the search has looked at. -/
def Opened (index : PhpHierarchyIndex) (callerClassId : ℤ) (methodName : Bytes) (done : List ℤ)
    (x : ℤ) : Prop := x = callerClassId ∨ x ∈ done ∧ Passable index methodName x

/-- What the search keeps, where `done` are the classes that it has taken off the front:
those and the pending ones are the visited classes, all of them are reached, the
candidates are the safe methods of the former, and what is passable has been
expanded. -/
structure SearchInvariant (index : PhpHierarchyIndex) (callerClassId : ℤ) (methodName : Bytes)
    (done : List ℤ) (state : SearchState) : Prop where
  good : state.Good
  visited : state.visited = callerClassId :: (done ++ state.pending.map PendingClass.classId)
  reach : ∀ v ∈ done ++ state.pending.map PendingClass.classId,
    Reaches index callerClassId methodName v
  sound : ∀ c ∈ state.result.candidates, ∃ classId ∈ done, ∃ method,
    SafeMethod index methodName classId method ∧ method.definitionId = c
  found : ∀ classId ∈ done, ∀ method, SafeMethod index methodName classId method →
    method.definitionId ∈ state.result.candidates
  few : state.result.candidates.length ≤ done.length
  closed : ∀ x, Opened index callerClassId methodName done x → Expanded index state x

theorem Expanded.progress {targets : ℤ → Prop} {classId : ℤ} (h : Expanded index state classId)
    (hprogress : Progress targets state state') (hgood : state.Good) :
    Expanded index state' classId := by
  rcases h with ⟨hbounded, hcovered⟩ | ⟨hbounded, htruncated⟩
  · exact Or.inl ⟨hbounded, fun y hy => (hcovered y hy).progress hprogress hgood⟩
  · exact Or.inr ⟨hbounded, hprogress.truncated htruncated⟩

/-- Before the loop. -/
theorem startSearch_invariant (methodName : Bytes) (hcaller : UsableClass index callerClassId) :
    SearchInvariant index callerClassId methodName [] (startSearch index callerClassId) := by
  have hgood : SearchState.Good ⟨[], [callerClassId], 1, ⟨[], [], false⟩⟩ :=
    ⟨nodup_singleton _, rfl, by simp, fun _ h => absurd h not_mem_nil⟩
  obtain ⟨hprogress, hexpanded⟩ := enqueueParents_spec index callerClassId true
    (show ∀ x ∈ [callerClassId], x ∈ [callerClassId] from fun _ hx => hx) hgood
  obtain ⟨new, hvisited, hpending, hnew⟩ := hprogress.visits
  have hcandidates := hprogress.candidates
  refine ⟨hprogress.good hgood, ?_, ?_, ?_, fun _ h => absurd h not_mem_nil, ?_, ?_⟩
  · rw [startSearch, hvisited, hpending]
    rfl
  · rw [startSearch, hpending]
    exact fun v hv => Reaches.parent hcaller (hnew v hv)
  · rw [startSearch, hcandidates]
    exact fun _ h => absurd h not_mem_nil
  · rw [startSearch, hcandidates]
  · rintro x (rfl | ⟨hx, -⟩)
    · exact hexpanded
    · exact absurd hx not_mem_nil

/-- Taking a class off the front keeps the variables in order. -/
theorem SearchState.Good.tail (h : state.Good) (hpending : state.pending = current :: rest) :
    SearchState.Good { state with pending := rest } :=
  ⟨h.nodup, h.count, h.bound, fun pending hmem =>
    h.paths pending (by rw [hpending]; exact mem_cons_of_mem _ hmem)⟩

theorem methodBlocker_eq_none_iff :
    methodBlocker method = none ↔ method.complete = true ∧ method.conditional = false ∧
      method.abstractMethod = false ∧
      (method.visibility = .public ∨ method.visibility = .protected) := by
  rw [methodBlocker]
  rcases method.complete with _ | _
  · simp
  · rcases method.conditional with _ | _
    · rcases method.abstractMethod with _ | _
      all_goals rcases method.visibility with _ | _ | _ | _
      all_goals simp
    · simp

section

variable (h : SearchInvariant index callerClassId methodName done state)
  (hpending : state.pending = current :: rest)
include h hpending

section

variable {targets : ℤ → Prop} (hprogress : Progress targets { state with pending := rest } state')
  (htargets : ∀ y, targets y → Reaches index callerClassId methodName y)
  (hexpanded : Passable index methodName current.classId → Expanded index state' current.classId)
include hprogress htargets hexpanded

/-- A class is done when its safe method, if any, is among the candidates, and its
parents, if it is passable, are expanded. -/
theorem SearchInvariant.next (found : List ℤ) (hlength : found.length ≤ 1)
    (hfound : ∀ c, c ∈ found ↔ ∃ method,
      SafeMethod index methodName current.classId method ∧ method.definitionId = c) :
    SearchInvariant index callerClassId methodName (done ++ [current.classId])
      { state' with result :=
        { state'.result with candidates := state.result.candidates ++ found } } := by
  obtain ⟨new, hvisited, hpending', hnew⟩ := hprogress.visits
  have hgood := hprogress.good (h.good.tail hpending)
  have hclosed : ∀ x, Opened index callerClassId methodName done x → Expanded index state' x :=
    fun x hx => (show Expanded index { state with pending := rest } x from h.closed x hx).progress
      hprogress (h.good.tail hpending)
  refine ⟨⟨hgood.nodup, hgood.count, hgood.bound, hgood.paths⟩, ?_, ?_, ?_, ?_, ?_, ?_⟩
  · show state'.visited = _ :: (_ ++ state'.pending.map _)
    rw [hvisited, hpending']
    show state.visited ++ new = _
    rw [h.visited, hpending]
    simp
  · show ∀ v ∈ _ ++ state'.pending.map _, _
    rw [hpending']
    intro v hv
    simp only [mem_append, mem_singleton] at hv
    rcases hv with (hv | rfl) | hv | hv
    · exact h.reach v (mem_append_left _ hv)
    · exact h.reach _ (by rw [hpending]; simp)
    · exact h.reach v (by rw [hpending]; exact mem_append_right _ (mem_cons_of_mem _ hv))
    · exact htargets v (hnew v hv)
  · intro c hc
    rcases mem_append.mp hc with hc | hc
    · obtain ⟨classId, hdone, hsafe⟩ := h.sound c hc
      exact ⟨classId, mem_append_left _ hdone, hsafe⟩
    · exact ⟨current.classId, by simp, (hfound c).mp hc⟩
  · intro classId hclass method hsafe
    rcases mem_append.mp hclass with hclass | hclass
    · exact mem_append_left _ (h.found classId hclass method hsafe)
    · rw [mem_singleton.mp hclass] at hsafe
      exact mem_append_right _ ((hfound _).mpr ⟨method, hsafe, rfl⟩)
  · have hfew := h.few
    simp only [length_append, length_singleton]
    omega
  · rintro x (rfl | ⟨hx, hpass⟩)
    · exact hclosed _ (Or.inl rfl)
    · rcases mem_append.mp hx with hx | hx
      · exact hclosed _ (Or.inr ⟨hx, hpass⟩)
      · rw [mem_singleton.mp hx] at hpass ⊢
        exact hexpanded hpass

/-- A class without a safe method. -/
theorem SearchInvariant.next_none
    (hnone_safe : ∀ method, ¬ SafeMethod index methodName current.classId method) :
    SearchInvariant index callerClassId methodName (done ++ [current.classId]) state' := by
  have hnext := h.next hpending hprogress htargets hexpanded [] (by simp) fun c =>
    iff_of_false not_mem_nil fun ⟨method, hsafe, _⟩ => hnone_safe method hsafe
  rw [append_nil, ← show state'.result.candidates = state.result.candidates from
    hprogress.candidates] at hnext
  exact hnext

end

/-- A class that only adds an issue: it has no safe method and is not passable. -/
theorem SearchInvariant.next_issue (kind : ParentLookupIssueKind)
    (hnone_safe : ∀ method, ¬ SafeMethod index methodName current.classId method)
    (hblocked : ¬ Passable index methodName current.classId) :
    SearchInvariant index callerClassId methodName (done ++ [current.classId])
      (SearchState.addIssue { state with pending := rest } current.classId kind) := by
  exact h.next_none hpending (Progress.addIssue (fun _ => False) _ current.classId kind)
    (fun _ hy => hy.elim) (fun hpass => absurd hpass hblocked) hnone_safe

/-- So does one that is not complete and unconditional. -/
theorem SearchInvariant.next_unusable (kind : ParentLookupIssueKind)
    (hnot : ¬ UsableClass index current.classId) :
    SearchInvariant index callerClassId methodName (done ++ [current.classId])
      (SearchState.addIssue { state with pending := rest } current.classId kind) :=
  h.next_issue hpending kind (fun _ hsafe => hnot hsafe.usable)
    fun ⟨fact, hfact, hcomplete, hconditional, _⟩ => hnot ⟨fact, hfact, hcomplete, hconditional⟩

/-- A class with one method of the name. -/
theorem SearchInvariant.next_method (husable : UsableClass index current.classId)
    (honly : index.directMethods current.classId methodName = [method]) :
    SearchInvariant index callerClassId methodName (done ++ [current.classId])
      { state with
        pending := rest
        result := recordMethod state.result current.classId method } := by
  have hblocked : ¬ Passable index methodName current.classId := by
    rintro ⟨fact, -, -, -, -, -, hnone⟩
    rw [honly] at hnone
    exact absurd hnone (cons_ne_nil _ _)
  have hsafe : ∀ method', SafeMethod index methodName current.classId method' →
      method' = method ∧ methodBlocker method = none := by
    intro method' hsafe
    obtain rfl : method' = method := by
      have heq := hsafe.only
      rw [honly] at heq
      exact (List.cons.inj heq).1.symm
    exact ⟨rfl, methodBlocker_eq_none_iff.mpr
      ⟨hsafe.complete, hsafe.unconditional, hsafe.concrete, hsafe.visible⟩⟩
  rcases hblocker : methodBlocker method with _ | kind
  · obtain ⟨hcomplete, hconditional, habstract, hvisible⟩ := methodBlocker_eq_none_iff.mp hblocker
    -- the bound on candidates is not met: there is at most one for each class before
    have hroom : ¬ state.result.candidates.length = maxParentLookupCandidates := by
      have hbound := h.good.bound
      have hfew := h.few
      rw [h.visited, hpending] at hbound
      simp only [length_cons, length_append, map_cons] at hbound
      rw [maxParentLookupCandidates]
      omega
    have hrecord : recordMethod state.result current.classId method =
        { state.result with candidates := state.result.candidates ++ [method.definitionId] } := by
      rw [recordMethod, hblocker]
      show (if _ then _ else if _ then _ else _) = _
      rw [if_neg hroom, if_pos hvisible]
    rw [hrecord]
    refine h.next hpending (Progress.refl (fun _ => False) _) (fun _ hy => hy.elim)
      (fun hpass => absurd hpass hblocked) [method.definitionId] le_rfl fun c => ?_
    rw [mem_singleton]
    constructor
    · rintro rfl
      exact ⟨method, ⟨husable, honly, hcomplete, hconditional, habstract, hvisible⟩, rfl⟩
    · rintro ⟨method', hsafe', rfl⟩
      rw [(hsafe method' hsafe').1]
  · have hrecord : recordMethod state.result current.classId method =
        state.result.addIssue current.classId kind := by
      rw [recordMethod, hblocker]
    rw [hrecord]
    refine h.next_issue hpending kind (fun method' hsafe' => ?_) hblocked
    exact Option.some_ne_none kind (hblocker.symm.trans (hsafe method' hsafe').2)

/-- One pass of the loop. -/
theorem visitClass_invariant :
    SearchInvariant index callerClassId methodName (done ++ [current.classId])
      (visitClass index methodName { state with pending := rest } current) := by
  rw [visitClass]
  rcases hfact : index.classFact current.classId with _ | fact
  · refine h.next_unusable hpending .incompleteClass ?_
    rintro ⟨fact, hsome, -⟩
    exact nomatch hfact.symm.trans hsome
  have hunique : ∀ {fact'}, index.classFact current.classId = some fact' → fact' = fact :=
    fun h' => Option.some.inj (h'.symm.trans hfact)
  dsimp only
  rcases hissue : classIssue fact with _ | kind
  swap
  · refine h.next_unusable hpending kind ?_
    rintro ⟨fact', hsome, hok⟩
    obtain rfl := hunique hsome
    exact Option.some_ne_none kind (hissue.symm.trans (classIssue_eq_none_iff.mpr hok))
  obtain ⟨hcomplete, hconditional⟩ := classIssue_eq_none_iff.mp hissue
  dsimp only
  rcases hmethods : index.directMethods current.classId methodName with
    _ | ⟨method, _ | ⟨second, more⟩⟩
  · have hnone_safe : ∀ method, ¬ SafeMethod index methodName current.classId method :=
      fun method hsafe => cons_ne_nil _ _ (hsafe.only.symm.trans hmethods)
    show SearchInvariant _ _ _ _ (if fact.traitUseConditional = true then _ else
      if fact.hasTraitUse = true then _ else _)
    by_cases htraitConditional : fact.traitUseConditional = true
    · rw [if_pos htraitConditional]
      refine h.next_issue hpending .conditionalTraitUse hnone_safe ?_
      rintro ⟨fact', hsome, -, -, -, hno, -⟩
      exact absurd (hunique hsome ▸ hno) (by rw [htraitConditional]; decide)
    rw [if_neg htraitConditional]
    by_cases htrait : fact.hasTraitUse = true
    · rw [if_pos htrait]
      refine h.next_issue hpending .traitUse hnone_safe ?_
      rintro ⟨fact', hsome, -, -, hno, -, -⟩
      exact absurd (hunique hsome ▸ hno) (by rw [htrait]; decide)
    rw [if_neg htrait]
    have hpass : Passable index methodName current.classId :=
      ⟨fact, hfact, hcomplete, hconditional, Bool.eq_false_iff.mpr htrait,
        Bool.eq_false_iff.mpr htraitConditional, hmethods⟩
    have hreached : Reaches index callerClassId methodName current.classId :=
      h.reach _ (by rw [hpending]; simp)
    have hpath : ∀ x ∈ current.path, x ∈ ({ state with pending := rest } : SearchState).visited :=
      h.good.paths current (by rw [hpending]; exact mem_cons_self)
    obtain ⟨hprogress, hexpanded⟩ := enqueueParents_spec index current.classId false hpath
      (h.good.tail hpending)
    exact h.next_none hpending hprogress (fun y hy => hreached.step hpass hy)
      (fun _ => hexpanded) hnone_safe
  · exact h.next_method hpending ⟨fact, hfact, hcomplete, hconditional⟩ hmethods
  · refine h.next_issue hpending .ambiguousMethod (fun method' hsafe => ?_) ?_
    · have heq := hsafe.only.symm.trans hmethods
      exact absurd (List.cons.inj heq).2.symm (cons_ne_nil _ _)
    · rintro ⟨fact', -, -, -, -, -, hnone⟩
      exact absurd (hmethods.symm.trans hnone) (cons_ne_nil _ _)

end

/-- The whole loop: it ends, with nothing pending. -/
theorem searchLoop_invariant (fuel : ℕ)
    (h : SearchInvariant index callerClassId methodName done state)
    (hfuel : 63 ≤ fuel + done.length) :
    ∃ done' last, searchLoop index methodName fuel state = some last ∧ last.pending = [] ∧
      SearchInvariant index callerClassId methodName done' last := by
  induction fuel generalizing done state with
  | zero =>
    have hempty : state.pending = [] := by
      have hbound := h.good.bound
      rw [h.visited] at hbound
      simp only [length_cons, length_append, length_map] at hbound
      exact eq_nil_of_length_eq_zero (by omega)
    refine ⟨done, state, ?_, hempty, h⟩
    rw [searchLoop, hempty]
  | succ fuel ih =>
    rcases hpending : state.pending with _ | ⟨current, rest⟩
    · refine ⟨done, state, ?_, hpending, h⟩
      rw [searchLoop, hpending]
    · obtain ⟨done', last, hloop, hlast⟩ := ih (visitClass_invariant h hpending) (by simp; omega)
      refine ⟨done', last, ?_, hlast⟩
      rw [searchLoop, hpending]
      exact hloop

end Search

/-! ## The result -/

section Result

variable {index index' : PhpHierarchyIndex} {callerClassId : ℤ} {methodName : Bytes} {done : List ℤ}
  {state : SearchState} {classId : ℤ}

section

variable (h : SearchInvariant index callerClassId methodName done state)
include h

section

variable (hpending : state.pending = [])
  (hcovered : ∀ x, Opened index callerClassId methodName done x →
    ∀ y, UsableEdge index x y → y ∈ state.visited)
  (hreach : Reaches index callerClassId methodName classId)
include hpending hcovered hreach

/-- At the end, if no bound stopped the search, what is reached is visited. -/
theorem SearchInvariant.reaches_visited : classId ∈ state.visited := by
  induction hreach with
  | parent _ hedge => exact hcovered _ (Or.inl rfl) _ hedge
  | step _ hpass hedge ih =>
    rw [h.visited, hpending, map_nil, append_nil] at ih
    rcases mem_cons.mp ih with rfl | hdone
    · exact hcovered _ (Or.inl rfl) _ hedge
    · exact hcovered _ (Or.inr ⟨hdone, hpass⟩) _ hedge

/-- Then every safe method is a candidate. -/
theorem SearchInvariant.complete (hne : classId ≠ callerClassId)
    (hsafe : SafeMethod index methodName classId method) :
    method.definitionId ∈ state.result.candidates := by
  have hvisited := h.reaches_visited hpending hcovered hreach
  rw [h.visited, hpending, map_nil, append_nil] at hvisited
  exact h.found classId ((mem_cons.mp hvisited).resolve_left hne) method hsafe

end

theorem SearchInvariant.sound_ne {c : ℤ} (hc : c ∈ state.result.candidates) :
    ∃ classId method, classId ≠ callerClassId ∧ Reaches index callerClassId methodName classId ∧
      SafeMethod index methodName classId method ∧ method.definitionId = c := by
  obtain ⟨classId, hdone, method, hsafe, hc⟩ := h.sound c hc
  have hnodup := h.good.nodup
  rw [h.visited, nodup_cons] at hnodup
  refine ⟨classId, method, ?_, h.reach classId (mem_append_left _ hdone), hsafe, hc⟩
  rintro rfl
  exact hnodup.1 (mem_append_left _ hdone)

/-- A search that was not truncated has visited all targets. -/
theorem SearchInvariant.covered_of_not_truncated (htruncated : state.result.truncated = false) :
    ∀ x, Opened index callerClassId methodName done x →
      BoundedParents index x ∧ ∀ y, UsableEdge index x y → y ∈ state.visited := by
  intro x hx
  rcases h.closed x hx with ⟨hbounded, hcovered⟩ | ⟨-, htrue⟩
  · refine ⟨hbounded, fun y hy => ?_⟩
    rcases hcovered y hy with hvisited | ⟨-, htrue⟩
    · exact hvisited
    · exact absurd (htruncated.symm.trans htrue) (by decide)
  · exact absurd (htruncated.symm.trans htrue) (by decide)

end

/-- The same facts with the edges of each class in another order. -/
structure Reordered (index index' : PhpHierarchyIndex) : Prop where
  classFact : index'.classFact = index.classFact
  directMethods : index'.directMethods = index.directMethods
  parents : ∀ classId, (index'.parentCandidates classId).Perm (index.parentCandidates classId)

section

variable (h : Reordered index index')
include h

theorem Reordered.symm : Reordered index' index :=
  ⟨h.classFact.symm, h.directMethods.symm, fun classId => (h.parents classId).symm⟩

theorem Reordered.usableEdge (hedge : UsableEdge index' classId target) :
    UsableEdge index classId target := by
  obtain ⟨parent, hparent, hrest⟩ := hedge
  exact ⟨parent, (h.parents classId).mem_iff.mp hparent, hrest⟩

theorem Reordered.usableClass (hclass : UsableClass index' classId) :
    UsableClass index classId := by
  rwa [UsableClass, ← h.classFact]

theorem Reordered.passable (hpass : Passable index' methodName classId) :
    Passable index methodName classId := by
  rwa [Passable, ← h.classFact, ← h.directMethods]

theorem Reordered.boundedParents (hbounded : BoundedParents index' classId) :
    BoundedParents index classId := by
  rwa [BoundedParents, ← (h.parents classId).length_eq, candidateTotal,
    ← (((h.parents classId).filter _).map _).sum_eq]

theorem Reordered.safeMethod (hsafe : SafeMethod index' methodName classId method) :
    SafeMethod index methodName classId method :=
  ⟨h.usableClass hsafe.usable, h.directMethods ▸ hsafe.only, hsafe.complete, hsafe.unconditional,
    hsafe.concrete, hsafe.visible⟩

theorem Reordered.reaches (hreach : Reaches index' callerClassId methodName classId) :
    Reaches index callerClassId methodName classId := by
  induction hreach with
  | parent hcaller hedge => exact .parent (h.usableClass hcaller) (h.usableEdge hedge)
  | step _ hpass hedge ih => exact ih.step (h.passable hpass) (h.usableEdge hedge)

end

theorem Reaches.usableCaller (h : Reaches index callerClassId methodName classId) :
    UsableClass index callerClassId := by
  induction h with
  | parent hcaller _ => exact hcaller
  | step _ _ _ ih => exact ih

/-- A caller that is not complete and unconditional ends the lookup at once. -/
theorem lookupParentMethod_unusable (h : ¬ UsableClass index callerClassId) (methodName : Bytes) :
    ∃ result, lookupParentMethod index callerClassId methodName = some result ∧
      result.candidates = [] := by
  rw [lookupParentMethod]
  rcases hfact : index.classFact callerClassId with _ | caller
  · exact ⟨_, rfl, addIssue_candidates _ _ _⟩
  · dsimp only
    rcases hissue : classIssue caller with _ | kind
    · exact absurd ⟨caller, hfact, classIssue_eq_none_iff.mp hissue⟩ h
    · exact ⟨_, rfl, addIssue_candidates _ _ _⟩

/-- The lookup of any other caller is the search. -/
theorem lookupParentMethod_usable (h : UsableClass index callerClassId) (methodName : Bytes) :
    ∃ done last, searchLoop index methodName maxParentLookupVisited
        (startSearch index callerClassId) = some last ∧
      lookupParentMethod index callerClassId methodName = some last.result.sorted ∧
      last.pending = [] ∧ SearchInvariant index callerClassId methodName done last := by
  obtain ⟨done, last, hloop, hpending, hinvariant⟩ :=
    searchLoop_invariant maxParentLookupVisited (startSearch_invariant methodName h)
      (by rw [maxParentLookupVisited]; simp)
  refine ⟨done, last, hloop, ?_, hpending, hinvariant⟩
  obtain ⟨caller, hfact, hcaller⟩ := h
  rw [lookupParentMethod, hfact]
  dsimp only
  rw [classIssue_eq_none_iff.mpr hcaller, hloop]
  rfl

/-- In another order of the edges the same classes are visited, since there is room for
all of them. -/
theorem SearchInvariant.covered_of_reordered
    (h : SearchInvariant index callerClassId methodName done state) (hpending : state.pending = [])
    (htruncated : state.result.truncated = false) (hreordered : Reordered index index')
    {done' : List ℤ} {state' : SearchState}
    (h' : SearchInvariant index' callerClassId methodName done' state') :
    ∀ x, Opened index' callerClassId methodName done' x →
      ∀ y, UsableEdge index' x y → y ∈ state'.visited := by
  have hcovered := h.covered_of_not_truncated htruncated
  have hreached : ∀ {x}, Reaches index callerClassId methodName x → x ∈ state.visited :=
    h.reaches_visited hpending fun x hx => (hcovered x hx).2
  have hvisited : ∀ x ∈ state'.visited, x ∈ state.visited := by
    intro x hx
    rw [h'.visited] at hx
    rcases mem_cons.mp hx with rfl | hx
    · rw [h.visited]
      exact mem_cons_self
    · exact hreached (hreordered.reaches (h'.reach x hx))
  have hexpanded : ∀ x, Opened index' callerClassId methodName done' x →
      Opened index callerClassId methodName done x := by
    rintro x (rfl | ⟨hx, hpass⟩)
    · exact Or.inl rfl
    · have hmem := hreached (hreordered.reaches (h'.reach x (mem_append_left _ hx)))
      rw [h.visited, hpending, map_nil, append_nil] at hmem
      rcases mem_cons.mp hmem with rfl | hmem
      · exact Or.inl rfl
      · exact Or.inr ⟨hmem, hreordered.passable hpass⟩
  intro x hx y hy
  obtain ⟨hbounded, htargets⟩ := hcovered x (hexpanded x hx)
  have hy' : y ∈ state.visited := htargets y (hreordered.usableEdge hy)
  rcases h'.closed x hx with ⟨-, hcovered'⟩ | ⟨hunbounded, -⟩
  · rcases hcovered' y hy with hmem | ⟨hfull, -⟩
    · exact hmem
    · -- a full table without `y` would be larger than the one with it
      by_contra hnot
      have hsubset : (y :: state'.visited).Subperm state.visited := by
        refine (nodup_cons.mpr ⟨hnot, h'.good.nodup⟩).subperm fun z hz => ?_
        rcases mem_cons.mp hz with rfl | hz
        · exact hy'
        · exact hvisited z hz
      have hlength := hsubset.length_le
      have hbound := h.good.bound
      rw [length_cons] at hlength
      omega
  · exact absurd (hreordered.symm.boundedParents hbounded) hunbounded

/-- The lookup ends, visits at most 64 classes and returns only safe methods of reached
classes; all of them, in whatever order the edges are stored, unless it was
truncated. -/
theorem lookupParentMethod_spec (index : PhpHierarchyIndex) (callerClassId : ℤ)
    (methodName : Bytes) :
    ∃ result, lookupParentMethod index callerClassId methodName = some result ∧
      (UsableClass index callerClassId → ∃ last, searchLoop index methodName maxParentLookupVisited
          (startSearch index callerClassId) = some last ∧
        last.visited.Nodup ∧ last.visited.length ≤ 64) ∧
      (∀ c ∈ result.candidates, ∃ classId method, classId ≠ callerClassId ∧
        Reaches index callerClassId methodName classId ∧
        SafeMethod index methodName classId method ∧ method.definitionId = c) ∧
      (result.truncated = false →
        (∀ classId method, classId ≠ callerClassId →
          Reaches index callerClassId methodName classId →
          SafeMethod index methodName classId method → method.definitionId ∈ result.candidates) ∧
        ∀ index', Reordered index index' → ∃ result',
          lookupParentMethod index' callerClassId methodName = some result' ∧
            result'.candidates = result.candidates) ∧
      ∀ classes methods parents, index = fromFacts classes methods parents → ∀ classId,
        index.directMethods classId methodName = methods.filter fun method =>
          method.ownerClassId = classId ∧ asciiLower method.name = asciiLower methodName := by
  have hfacts := fun classes methods parents (h : index = fromFacts classes methods parents) classId =>
    h ▸ fromFacts_directMethods classes methods parents classId methodName
  by_cases hcaller : UsableClass index callerClassId
  · obtain ⟨done, last, hloop, hlookup, hpending, hinvariant⟩ :=
      lookupParentMethod_usable hcaller methodName
    refine ⟨_, hlookup, fun _ => ⟨last, hloop, hinvariant.good.nodup, hinvariant.good.bound⟩,
      fun c hc => hinvariant.sound_ne (mem_sortDedup.mp hc), fun htruncated => ⟨?_, ?_⟩, hfacts⟩
    · intro classId method hne hreach hsafe
      refine mem_sortDedup.mpr (hinvariant.complete hpending (fun x hx => ?_) hreach hne hsafe)
      exact (hinvariant.covered_of_not_truncated htruncated x hx).2
    · intro index' hreordered
      obtain ⟨done', last', -, hlookup', hpending', hinvariant'⟩ :=
        lookupParentMethod_usable (hreordered.symm.usableClass hcaller) methodName
      refine ⟨_, hlookup', sortDedup_congr fun c => ⟨fun hc => ?_, fun hc => ?_⟩⟩
      · obtain ⟨classId, method, hne, hreach, hsafe, rfl⟩ := hinvariant'.sound_ne hc
        exact hinvariant.complete hpending
          (fun x hx => (hinvariant.covered_of_not_truncated htruncated x hx).2)
          (hreordered.reaches hreach) hne (hreordered.safeMethod hsafe)
      · obtain ⟨classId, method, hne, hreach, hsafe, rfl⟩ := hinvariant.sound_ne hc
        exact hinvariant'.complete hpending'
          (hinvariant.covered_of_reordered hpending htruncated hreordered hinvariant')
          (hreordered.symm.reaches hreach) hne (hreordered.symm.safeMethod hsafe)
  · obtain ⟨result, hlookup, hempty⟩ := lookupParentMethod_unusable hcaller methodName
    refine ⟨result, hlookup, fun h => absurd h hcaller, ?_, fun _ => ⟨?_, ?_⟩, hfacts⟩
    · rw [hempty]
      exact fun _ h => absurd h not_mem_nil
    · exact fun _ _ _ hreach _ => absurd hreach.usableCaller hcaller
    · intro index' hreordered
      obtain ⟨result', hlookup', hempty'⟩ := lookupParentMethod_unusable
        (fun h => hcaller (hreordered.usableClass h)) methodName
      exact ⟨result', hlookup', hempty'.trans hempty.symm⟩

/-! The class 4 is above both 2 and 3, which are above the caller 1, and 2 is above 4.
Whether the cycle is reported depends on which of 2 and 3 the search comes from. -/

def plainClass (definitionId : ℤ) : PhpClassFact :=
  ⟨definitionId, 1, [], none, .class, .ordinary, true, false, false, false⟩

def plainParent (childClassId parentClassId : ℤ) : PhpParentCandidate :=
  ⟨childClassId, [], none, none, 0, 0, .extends, [parentClassId], .candidates, false, none, none⟩

/-- The same facts in two orders, and two results, neither of them truncated. -/
theorem lookup_cycle_depends_on_order :
    [plainParent 1 3, plainParent 1 2, plainParent 2 4, plainParent 3 4, plainParent 4 2].Perm
      [plainParent 1 2, plainParent 1 3, plainParent 2 4, plainParent 3 4, plainParent 4 2] ∧
    lookupParentMethod (fromFacts [plainClass 1, plainClass 2, plainClass 3, plainClass 4] []
        [plainParent 1 2, plainParent 1 3, plainParent 2 4, plainParent 3 4, plainParent 4 2]) 1
        (ascii "save") = some ⟨[], [⟨some 4, .ordinaryParentCycle⟩], false⟩ ∧
    lookupParentMethod (fromFacts [plainClass 1, plainClass 2, plainClass 3, plainClass 4] []
        [plainParent 1 3, plainParent 1 2, plainParent 2 4, plainParent 3 4, plainParent 4 2]) 1
        (ascii "save") = some ⟨[], [], false⟩ := by
  refine ⟨by decide, ?_, ?_⟩
  all_goals decide +kernel

end Result

end Trufflepig.Resolver
