import Trufflepig.Lib.Sorting
import Trufflepig.Resolver.HierarchyIndex

/-!
# Looking a method up in the parents of a class

Model of `src/store/php_resolver/parent_lookup.rs`: a breadth-first search over the
candidate parents with bounds on the classes visited, on the candidates of one class and
on the issues. The texts of the issue codes are left out.

The loop runs for at most `fuel` classes and has no result when classes are still
pending then.
-/

namespace Trufflepig.Resolver

open Lib

def maxParentLookupVisited : ℕ := 64
def maxParentLookupCandidates : ℕ := 64

/-- The kinds of issues, in the order of the source (they are sorted by it). -/
inductive ParentLookupIssueKind where
  | missingParent | ambiguousParent | conditionalParent | incompleteParent | unsupportedParent
  | incompleteClass | conditionalClass | traitUse | conditionalTraitUse | ambiguousMethod
  | privateMethod | abstractMethod | conditionalMethod | incompleteMethod
  | unknownMethodVisibility | missingMethod | ordinaryParentCycle | visitLimit | candidateLimit
  deriving DecidableEq

structure ParentLookupIssue where
  classId : Option ℤ
  kind : ParentLookupIssueKind
  deriving DecidableEq

structure ParentLookup where
  candidates : List ℤ
  issues : List ParentLookupIssue
  truncated : Bool
  deriving DecidableEq

structure PendingClass where
  classId : ℤ
  path : List ℤ
  deriving DecidableEq

/-- The local variables of `lookup_parent_method`. -/
structure SearchState where
  pending : List PendingClass
  visited : List ℤ
  visitedCount : ℕ
  result : ParentLookup
  deriving DecidableEq

/-! ## Issues -/

/-- `push_issue`. -/
def ParentLookup.pushIssue (result : ParentLookup) (issue : ParentLookupIssue) : ParentLookup :=
  if issue ∈ result.issues then result
  else if result.issues.length = maxParentLookupCandidates then { result with truncated := true }
  else { result with issues := result.issues ++ [issue] }

/-- `add_issue` and `parent_issue`. -/
def ParentLookup.addIssue (result : ParentLookup) (classId : ℤ) (kind : ParentLookupIssueKind) :
    ParentLookup :=
  result.pushIssue ⟨some classId, kind⟩

def SearchState.addIssue (state : SearchState) (classId : ℤ) (kind : ParentLookupIssueKind) :
    SearchState :=
  { state with result := state.result.addIssue classId kind }

/-- A bound was met. -/
def SearchState.truncate (state : SearchState) (classId : ℤ) (kind : ParentLookupIssueKind) :
    SearchState :=
  { state with result := ({ state.result with truncated := true } : ParentLookup).addIssue classId kind }

/-- `class_issue`. -/
def classIssue (fact : PhpClassFact) : Option ParentLookupIssueKind :=
  if fact.conditional then some .conditionalClass
  else if !fact.complete then some .incompleteClass
  else none

/-! ## Parents -/

/-- The checks that end an edge (in `enqueue_parents`). -/
def edgeIssue (parent : PhpParentCandidate) : Option ParentLookupIssueKind :=
  if parent.conditional then some .conditionalParent
  else
    match parent.status with
    | .missing => some .missingParent
    | .ambiguous => some .ambiguousParent
    | .conditional => some .conditionalParent
    | .incomplete => some .incompleteParent
    | .unsupported => some .unsupportedParent
    | .candidates =>
      if parent.kind = .unknown then some .unsupportedParent
      else if parent.candidateClassIds = [] then some .missingParent
      else none

/-- One candidate of an edge, below the bound on candidates. -/
def enqueueCandidate (classId : ℤ) (path : List ℤ) (parent : PhpParentCandidate)
    (state : SearchState) (candidateId : ℤ) : SearchState :=
  if candidateId ∈ path then
    if parent.kind = .extends ∧ parent.tieGroup = none then
      state.addIssue classId .ordinaryParentCycle
    else state
  else if candidateId ∈ state.visited then state
  else if state.visitedCount = maxParentLookupVisited then state.truncate classId .visitLimit
  else
    { state with
      visited := state.visited ++ [candidateId]
      visitedCount := state.visitedCount + 1
      pending := state.pending ++ [⟨candidateId, path ++ [candidateId]⟩] }

/-- The candidates of one edge, with the number of candidates before. `error` is the
`return` at the bound. -/
def enqueueCandidates (classId : ℤ) (path : List ℤ) (parent : PhpParentCandidate) :
    List ℤ → ℕ → SearchState → Except SearchState (ℕ × SearchState)
  | [], candidateCount, state => .ok (candidateCount, state)
  | candidateId :: rest, candidateCount, state =>
    if candidateCount = maxParentLookupCandidates then
      .error (state.truncate classId .candidateLimit)
    else
      enqueueCandidates classId path parent rest (candidateCount + 1)
        (enqueueCandidate classId path parent state candidateId)

/-- The loop over the edges of a class, with the numbers of edges and candidates before. -/
def enqueueEdges (classId : ℤ) (path : List ℤ) :
    List PhpParentCandidate → ℕ → ℕ → SearchState → SearchState
  | [], _, _, state => state
  | parent :: rest, expandedEdges, candidateCount, state =>
    if expandedEdges = maxParentLookupCandidates then state.truncate classId .candidateLimit
    else
      match edgeIssue parent with
      | some kind =>
        enqueueEdges classId path rest (expandedEdges + 1) candidateCount
          (state.addIssue classId kind)
      | none =>
        match enqueueCandidates classId path parent parent.candidateClassIds candidateCount state with
        | .error state => state
        | .ok (candidateCount, state) =>
          enqueueEdges classId path rest (expandedEdges + 1) candidateCount state

/-- `enqueue_parents`. -/
def enqueueParents (index : PhpHierarchyIndex) (classId : ℤ) (path : List ℤ) (caller : Bool)
    (state : SearchState) : SearchState :=
  match index.parentCandidates classId with
  | [] => state.addIssue classId (if caller then .missingParent else .missingMethod)
  | parents => enqueueEdges classId path parents 0 0 state

/-! ## Methods -/

/-- The check that keeps a method from being a candidate (in `record_method`). -/
def methodBlocker (method : PhpMethodFact) : Option ParentLookupIssueKind :=
  if !method.complete then some .incompleteMethod
  else if method.conditional then some .conditionalMethod
  else if method.visibility = .private then some .privateMethod
  else if method.abstractMethod then some .abstractMethod
  else if method.visibility = .unknown then some .unknownMethodVisibility
  else none

/-- `record_method`. -/
def recordMethod (result : ParentLookup) (classId : ℤ) (method : PhpMethodFact) : ParentLookup :=
  match methodBlocker method with
  | some kind => result.addIssue classId kind
  | none =>
    if result.candidates.length = maxParentLookupCandidates then
      ({ result with truncated := true } : ParentLookup).addIssue classId .candidateLimit
    else if method.visibility = .public ∨ method.visibility = .protected then
      { result with candidates := result.candidates ++ [method.definitionId] }
    else result.addIssue classId .unknownMethodVisibility

/-! ## The search -/

/-- One pass of the loop, on the class at the front (in `lookup_parent_method`). -/
def visitClass (index : PhpHierarchyIndex) (methodName : Bytes) (state : SearchState)
    (current : PendingClass) : SearchState :=
  match index.classFact current.classId with
  | none => state.addIssue current.classId .incompleteClass
  | some fact =>
    match classIssue fact with
    | some kind => state.addIssue current.classId kind
    | none =>
      match (index.directMethods current.classId methodName).take 2 with
      | [method] => { state with result := recordMethod state.result current.classId method }
      | _ :: _ => state.addIssue current.classId .ambiguousMethod
      | [] =>
        if fact.traitUseConditional then state.addIssue current.classId .conditionalTraitUse
        else if fact.hasTraitUse then state.addIssue current.classId .traitUse
        else enqueueParents index current.classId current.path false state

def searchLoop (index : PhpHierarchyIndex) (methodName : Bytes) : ℕ → SearchState → Option SearchState
  | fuel, state =>
    match state.pending with
    | [] => some state
    | current :: rest =>
      match fuel with
      | 0 => none
      | fuel + 1 =>
        searchLoop index methodName fuel
          (visitClass index methodName { state with pending := rest } current)

/-- The variables before the loop: the caller is visited and its parents are pending. -/
def startSearch (index : PhpHierarchyIndex) (callerClassId : ℤ) : SearchState :=
  enqueueParents index callerClassId [callerClassId] true
    ⟨[], [callerClassId], 1, ⟨[], [], false⟩⟩

/-- The order of issues: by class, then by kind. -/
def ParentLookupIssue.le (a b : ParentLookupIssue) : Bool :=
  match a.classId, b.classId with
  | none, some _ => true
  | some _, none => false
  | none, none => a.kind.ctorIdx ≤ b.kind.ctorIdx
  | some i, some j => i < j || i = j && a.kind.ctorIdx ≤ b.kind.ctorIdx

/-- The result is sorted and without duplicates at the end. -/
def ParentLookup.sorted (result : ParentLookup) : ParentLookup :=
  { result with
    candidates := sortDedup result.candidates
    issues := dedupRuns (result.issues.insertionSort fun a b => a.le b) }

/-- `lookup_parent_method`. -/
def lookupParentMethod (index : PhpHierarchyIndex) (callerClassId : ℤ) (methodName : Bytes) :
    Option ParentLookup :=
  let result : ParentLookup := ⟨[], [], false⟩
  match index.classFact callerClassId with
  | none => some (result.addIssue callerClassId .incompleteClass)
  | some caller =>
    match classIssue caller with
    | some kind => some (result.addIssue callerClassId kind)
    | none =>
      (searchLoop index methodName maxParentLookupVisited (startSearch index callerClassId)).map
        fun state => state.result.sorted

end Trufflepig.Resolver
