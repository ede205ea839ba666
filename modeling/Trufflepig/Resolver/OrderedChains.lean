import Trufflepig.Lib.WeakOrder

/-!
# Ordered chains

Model of `src/store/inheritance/ordered_chains.rs`: the candidate predecessors of class
registrations that are ordered by a numeric priority.

The slice of registrations is a function on its indices `ι`. Two groups that follow each
other are taken together with `withPrevious`, where the source reads the group before by
its index.
-/

namespace Trufflepig.Resolver

open Lib

def maxChainClasses : ℕ := 64
def maxCandidatesPerRegistration : ℕ := 64

structure Registration (E : Type) where
  id : Bytes
  base : Bytes
  implementation : Bytes
  numericPriority : ℤ
  evidence : E

inductive PredecessorCandidate (ι : Type) where
  | registration (index : ι)
  | base
  deriving DecidableEq

structure EdgeEvidence (E : Type) where
  child : E
  predecessor : Option E

structure CandidateEdge (ι E : Type) where
  base : Bytes
  child : ι
  predecessor : PredecessorCandidate ι
  evidence : EdgeEvidence E

inductive ChainIssue (ι : Type) where
  | priorityTie (base : Bytes) (numericPriority : ℤ) (registrations : List ι)
  | classLimitExceeded (base : Bytes) (classCount limit : ℕ)
  | candidateLimitExceeded (base : Bytes) (child : ι) (candidateCount limit : ℕ)
  deriving DecidableEq

structure ChainGraph (ι E : Type) where
  edges : List (CandidateEdge ι E)
  issues : List (ChainIssue ι)

section Chains

variable {ι E : Type} (base : Bytes) (registrations : ι → Registration E)

/-- `priority_groups` from `start` on: the ranges of equal priority. The
inner loop passes the indices with the priority of the first one. -/
def priorityGroupsFrom (indices : List ι) : ℕ → ℕ → List (ℕ × ℕ)
  | 0, _ => []
  | fuel + 1, start =>
    match indices.drop start with
    | [] => []
    | first :: rest =>
      let priority := (registrations first).numericPriority
      let stop := start + 1 +
        (rest.takeWhile fun index => (registrations index).numericPriority = priority).length
      (start, stop) :: priorityGroupsFrom indices fuel stop

def priorityGroups (indices : List ι) : List (ℕ × ℕ) :=
  priorityGroupsFrom registrations indices indices.length 0

/-- `indices[group]`. -/
def slice (indices : List ι) (group : ℕ × ℕ) : List ι :=
  (indices.drop group.1).take (group.2 - group.1)

/-- Each group with the one before it. -/
def withPrevious {α : Type} : Option α → List α → List (Option α × α)
  | _, [] => []
  | previous, group :: groups => (previous, group) :: withPrevious (some group) groups

/-- The number of predecessors that each member of a group has (in `build_base_chain`). -/
def candidateCount (previous : Option (ℕ × ℕ)) (group : ℕ × ℕ) : ℕ :=
  let previousLen := (previous.map fun previous => previous.2 - previous.1).getD 0
  (group.2 - group.1) - 1 + if previousLen = 0 then 1 else previousLen

/-- The first group whose members have too many predecessors: its first member and
their number. -/
def candidateOverflow (indices : List ι) (groups : List (ℕ × ℕ)) : Option (ι × ℕ) :=
  ((withPrevious none groups).find? fun step =>
    candidateCount step.1 step.2 > maxCandidatesPerRegistration).bind fun step =>
      (indices[step.2.1]?).map fun child => (child, candidateCount step.1 step.2)

/-- `edge`. -/
def edge (child : ι) (predecessor : PredecessorCandidate ι) : CandidateEdge ι E where
  base := base
  child := child
  predecessor := predecessor
  evidence :=
    { child := (registrations child).evidence
      predecessor :=
        match predecessor with
        | .registration index => some (registrations index).evidence
        | .base => none }

variable [DecidableEq ι]

/-- The predecessors of a member of a group: its peers, and the group before or the
base. -/
def predecessors (previous : Option (List ι)) (group : List ι) (child : ι) :
    List (PredecessorCandidate ι) :=
  ((group.filter fun peer => child ≠ peer).map .registration) ++
    match previous with
    | some previous => previous.map .registration
    | none => [.base]

/-- The edges of one group. -/
def groupEdges (previous : Option (List ι)) (group : List ι) : List (CandidateEdge ι E) :=
  group.flatMap fun child =>
    (predecessors previous group child).map (edge base registrations child)

/-- The issue of one group with more than one member. -/
def groupIssue (group : List ι) : Option (ChainIssue ι) :=
  match group with
  | first :: _ :: _ => some (.priorityTie base (registrations first).numericPriority group)
  | _ => none

/-- `build_base_chain`. -/
def buildBaseChain (indices : List ι) : ChainGraph ι E :=
  let indices := indices.mergeSort fun a b =>
    (registrations a).numericPriority ≤ (registrations b).numericPriority
  let classCount := indices.length + 1
  if classCount > maxChainClasses then
    { edges := [], issues := [.classLimitExceeded base classCount maxChainClasses] }
  else
    let groups := priorityGroups registrations indices
    match candidateOverflow indices groups with
    | some (child, count) =>
      { edges := []
        issues := [.candidateLimitExceeded base child count maxCandidatesPerRegistration] }
    | none =>
      { edges := (withPrevious none groups).flatMap fun step =>
          groupEdges base registrations (step.1.map (slice indices)) (slice indices step.2)
        issues := groups.filterMap fun group => groupIssue base registrations (slice indices group) }

/-- `build_chain_for_base`. -/
def buildChainForBase (indices : List ι) : ChainGraph ι E := buildBaseChain base registrations indices

end Chains

end Trufflepig.Resolver
