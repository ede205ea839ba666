import Trufflepig.Identity
import Trufflepig.Lib.Fallible
import Trufflepig.Resolver.AliasNames
import Trufflepig.Resolver.HierarchyIndex
import Trufflepig.Resolver.OrderedChains

/-!
# Facts of XenForo class-extension chains

Model of `src/store/php_resolver/xenforo/chain_adapter.rs` and of its modules
`chain_facts.rs` and `proxy_validation.rs`: the parent edges, hierarchy edges, placeholder
updates and issues that registrations of one base class give.

Hash sets and hash maps that are only read by key are lists and functions. The reasons,
static texts in the source, are an enumeration with their texts.
-/

namespace Trufflepig.Resolver

open Lib

/-- `MAX_CANDIDATES` (`xenforo.rs`). -/
def maxCandidates : ℕ := 64

/-- `MAX_DERIVED_ITEMS` (`inheritance.rs`). -/
def maxDerivedItems : ℕ := 200000

/-- What preparing the chains fails with. -/
inductive PrepareError where
  | emptyLeaf | candidateLimit | derivedLimit | negativeEvidence | ambiguousOccurrence
  | duplicateUpdate | conflictingPlaceholder | missingImplementationKey
  | missingImplementationLookup | missingBaseLookup | missingRegistration
  deriving DecidableEq

def PrepareError.message : PrepareError → String
  | .emptyLeaf => "empty XFCP implementation class leaf"
  | .candidateLimit => "XenForo class candidate fact limit exceeded"
  | .derivedLimit => "derived inheritance fact limit exceeded"
  | .negativeEvidence => "out of range integral type conversion attempted"
  | .ambiguousOccurrence => "XFCP parent token matches multiple PHP type occurrences"
  | .duplicateUpdate => "duplicate XenForo class metadata occurrence update"
  | .conflictingPlaceholder =>
    "one XenForo placeholder occurrence maps to conflicting source evidence"
  | .missingImplementationKey => "validated XenForo implementation key disappeared"
  | .missingImplementationLookup => "ordered chain implementation lookup is missing"
  | .missingBaseLookup => "ordered chain base class lookup is missing"
  | .missingRegistration => "ordered chain registration is missing"

/-- Why a registration or an edge is incomplete. -/
inductive ChainReason where
  | activeStateUnknown | executeOrderUnknown | executeOrderInvalidNegative
  | duplicateDeclaration | aliasSourceUnresolved | proxyIdentityReused
  | baseClassIdentityAmbiguous | implementationIsBaseClass
  | implementationProxyIdentityConflict | baseLookupUnavailable | canonicalBaseChainBlocked
  | implementationLookupUnavailable | implementationClassMissing
  | implementationCandidatesTruncated | implementationNotClass
  | implementationNotOrdinaryClass | implementationClassIncomplete
  | implementationClassConditional | expectedProxyParentMissingOrAmbiguous
  | declaredProxyParentMismatch | proxyParentConditional | proxyParentIncomplete
  | proxyTypeOccurrenceMissing | predecessorClassIdentityAmbiguous
  | predecessorCandidatesTruncated | declaredBaseClassMissing
  | immediatePredecessorClassMissing | predecessorNotOrdinaryClass
  | predecessorClassConditional | predecessorClassIncomplete
  | implementationClassIdentityAmbiguous | implementationIsItsOwnPredecessor
  | predecessorClassMissing | proxyParentUnverified | classLimitExceeded
  | candidateLimitExceeded | metadataCandidate
  deriving DecidableEq

def ChainReason.code : ChainReason → Bytes
  | .activeStateUnknown => ascii "active_state_unknown"
  | .executeOrderUnknown => ascii "execute_order_unknown"
  | .executeOrderInvalidNegative => ascii "execute_order_invalid_negative"
  | .duplicateDeclaration => ascii "duplicate_declaration"
  | .aliasSourceUnresolved => ascii "alias_source_unresolved"
  | .proxyIdentityReused => ascii "proxy_identity_reused"
  | .baseClassIdentityAmbiguous => ascii "base_class_identity_ambiguous"
  | .implementationIsBaseClass => ascii "implementation_is_base_class"
  | .implementationProxyIdentityConflict => ascii "implementation_proxy_identity_conflict"
  | .baseLookupUnavailable => ascii "base_lookup_unavailable"
  | .canonicalBaseChainBlocked => ascii "canonical_base_chain_blocked"
  | .implementationLookupUnavailable => ascii "implementation_lookup_unavailable"
  | .implementationClassMissing => ascii "implementation_class_missing"
  | .implementationCandidatesTruncated => ascii "implementation_candidates_truncated"
  | .implementationNotClass => ascii "implementation_not_class"
  | .implementationNotOrdinaryClass => ascii "implementation_not_ordinary_class"
  | .implementationClassIncomplete => ascii "implementation_class_incomplete"
  | .implementationClassConditional => ascii "implementation_class_conditional"
  | .expectedProxyParentMissingOrAmbiguous => ascii "expected_proxy_parent_missing_or_ambiguous"
  | .declaredProxyParentMismatch => ascii "declared_proxy_parent_mismatch"
  | .proxyParentConditional => ascii "proxy_parent_conditional"
  | .proxyParentIncomplete => ascii "proxy_parent_incomplete"
  | .proxyTypeOccurrenceMissing => ascii "proxy_type_occurrence_missing"
  | .predecessorClassIdentityAmbiguous => ascii "predecessor_class_identity_ambiguous"
  | .predecessorCandidatesTruncated => ascii "predecessor_candidates_truncated"
  | .declaredBaseClassMissing => ascii "declared_base_class_missing"
  | .immediatePredecessorClassMissing => ascii "immediate_predecessor_class_missing"
  | .predecessorNotOrdinaryClass => ascii "predecessor_not_ordinary_class"
  | .predecessorClassConditional => ascii "predecessor_class_conditional"
  | .predecessorClassIncomplete => ascii "predecessor_class_incomplete"
  | .implementationClassIdentityAmbiguous => ascii "implementation_class_identity_ambiguous"
  | .implementationIsItsOwnPredecessor => ascii "implementation_is_its_own_predecessor"
  | .predecessorClassMissing => ascii "predecessor_class_missing"
  | .proxyParentUnverified => ascii "proxy_parent_unverified"
  | .classLimitExceeded => ascii "class_limit_exceeded"
  | .candidateLimitExceeded => ascii "candidate_limit_exceeded"
  | .metadataCandidate => ascii "metadata_candidate"

/-! ## Rows and classes -/

/-- `strip_prefix` of one backslash, where there is one. -/
def stripBackslash : Bytes → Bytes
  | [] => []
  | first :: rest => if first = 0x5c then rest else first :: rest

/-- `valid_class_name` (`class_extensions.rs`); a segment passes the tests
of `valid_identifier`. -/
def validClassName (name : Bytes) : Bool :=
  stripBackslash name ≠ [] && ((stripBackslash name).splitOn 0x5c).all validIdentifier

/-- An `extension` element, whose names `parse` has checked. -/
structure ClassExtension where
  fromClass : Bytes
  fromSpan : ByteSpan
  toClass : Bytes
  toSpan : ByteSpan
  tagSpan : ByteSpan
  active : Option Bool
  executeOrder : Option ℤ
  duplicate : Bool
  fromClass_valid : validClassName fromClass
  toClass_valid : validClassName toClass

structure ExtensionFile where
  fileId : ℤ
  extensions : List ClassExtension

structure PendingRow where
  fileId : ℤ
  rowIndex : ℕ
  extension : ClassExtension
  base : Option Bytes
  implementation : Option Bytes
  expectedProxy : Bytes
  metadataIssues : List ChainReason

structure RegistrationEvidence where
  fileId : ℤ
  rowIndex : ℕ
  tagSpan : ByteSpan
  baseName : Bytes
  implementationName : Bytes
  implementationRawLookup : Bytes
  implementationLookup : Bytes
  expectedProxy : Bytes
  priority : ℤ

structure ImplementationClass where
  definitionId : ℤ
  fileId : ℤ
  kind : PhpClassKind
  role : PhpClassRole
  complete : Bool
  conditional : Bool
  proxyParent : Option PhpParentCandidate
  proxyOccurrence : Option (ℤ × ByteSpan)
  proxyMatches : Bool

structure ImplementationLookup where
  classes : List ImplementationClass
  truncated : Bool

structure ClassTarget where
  definitionId : ℤ
  kind : PhpClassKind
  role : PhpClassRole
  complete : Bool
  conditional : Bool

/-! ## What is prepared -/

structure PreparedParentEdge where
  childClassId : ℤ
  predecessorClassId : ℤ
  fileId : ℤ
  span : ByteSpan
  provenance : Bytes

structure PreparedPlaceholderUpdate where
  occurrenceId : ℤ
  fileId : ℤ
  span : ByteSpan
  targetClassIds : List ℤ
  provenance : Bytes

/-- The two roles of a class name in a row. -/
inductive ExtensionRole where
  | implementation | base
  deriving DecidableEq

def ExtensionRole.code : ExtensionRole → Bytes
  | .implementation => ascii "xenforo_extension_implementation"
  | .base => ascii "xenforo_extension_base"

structure PreparedClassOccurrenceUpdate where
  fileId : ℤ
  span : ByteSpan
  role : ExtensionRole
  name : Bytes
  classIds : List ℤ
  tagSpan : ByteSpan
  provenance : Bytes

/-- An issue; `extension_definition_id` is `None` for all of them. -/
structure PreparedChainIssue where
  childClassId : Option ℤ
  fileId : ℤ
  span : ByteSpan
  provenance : Bytes

structure PreparedChainProjection where
  parentEdges : List PreparedParentEdge
  placeholderUpdates : List PreparedPlaceholderUpdate
  classOccurrenceUpdates : List PreparedClassOccurrenceUpdate
  hierarchyEdges : List PhpParentCandidate
  issues : List PreparedChainIssue

/-- `empty_projection`. -/
def emptyProjection : PreparedChainProjection := ⟨[], [], [], [], []⟩

/-! ## `proxy_validation.rs` -/

/-- `expected_proxy_name`. -/
def expectedProxyName (rawToClass : Bytes) : Except PrepareError Bytes :=
  let segments := (trimStartByte 0x5c rawToClass).splitOn 0x5c
  let leaf := segments.getLastD []
  let namespaceName := [0x5c].intercalate segments.dropLast
  if leaf = [] then .error .emptyLeaf
  else if namespaceName = [] then .ok (ascii "XFCP_" ++ leaf)
  else .ok (namespaceName ++ ascii "\\XFCP_" ++ leaf)

/-- `proxy_readiness_issues`. -/
def proxyReadinessIssues (implementation : ImplementationClass) (expectedProxy : Bytes) :
    List ChainReason :=
  (if implementation.kind ≠ .class then [.implementationNotClass] else []) ++
  (if implementation.role ≠ .ordinary then [.implementationNotOrdinaryClass] else []) ++
  (if !implementation.complete then [.implementationClassIncomplete] else []) ++
  (if implementation.conditional then [.implementationClassConditional] else []) ++
  (match implementation.proxyParent with
    | none => [.expectedProxyParentMissingOrAmbiguous]
    | some parent =>
      (if parent.resolvedName.map classKey ≠ some (classKey expectedProxy) then
        [.declaredProxyParentMismatch] else []) ++
      if parent.conditional || parent.status = .conditional then [.proxyParentConditional]
      else if parent.status = .incomplete || parent.status = .unsupported then
        [.proxyParentIncomplete]
      else []) ++
  if implementation.proxyMatches && implementation.proxyOccurrence.isNone then
    [.proxyTypeOccurrenceMissing] else []

/-- `join_reasons`. -/
def joinReasons (reasons : List ChainReason) : Bytes :=
  (ascii ",").intercalate (dedupRuns ((reasons.map ChainReason.code).insertionSort (· ≤ ·)))

/-! ## Provenance -/

/-- The text of an `i64` or a `usize`. -/
def decimalText (n : ℤ) : Bytes := ascii (toString n)

/-- `issue_provenance`. -/
def issueProvenance (pending : PendingRow) (reason : Bytes) : Bytes :=
  ascii "active=" ++
  (match pending.extension.active with
    | none => ascii "unknown"
    | some true => ascii "1"
    | some false => ascii "0") ++
  ascii ";execute_order=" ++
  (match pending.extension.executeOrder with
    | none => ascii "unknown"
    | some order => decimalText order) ++
  ascii (";addon_enabled=unknown;" ++
    "source_assumption=registration_and_addon_applicable_enabled;reason=") ++ reason

/-- `registration_provenance`. -/
def registrationProvenance (evidence : RegistrationEvidence) : Bytes :=
  ascii "xenforo_class_extensions_xml;active=1;execute_order=" ++ decimalText evidence.priority ++
  ascii (";addon_enabled=unknown;source_assumption=registration_and_addon_applicable_enabled;" ++
    "runtime_order_unverified;row_file_id=") ++ decimalText evidence.fileId ++
  ascii ";row_index=" ++ decimalText evidence.rowIndex ++
  ascii ";base=" ++ evidence.baseName ++
  ascii ";implementation=" ++ evidence.implementationName

/-- `edge_provenance`. -/
def edgeProvenance (child : RegistrationEvidence) (predecessor : Option RegistrationEvidence)
    (tiePriority : Option ℤ) : Bytes :=
  registrationProvenance child ++
  (match predecessor with
    | some predecessor =>
      ascii ";predecessor_order=" ++ decimalText predecessor.priority ++
        ascii ";predecessor_to_class=" ++ predecessor.implementationName
    | none => ascii ";predecessor=declared_base") ++
  match tiePriority with
  | some priority => ascii ";priority_tie=" ++ decimalText priority
  | none => []

/-- The provenance of a registration that is incomplete for a reason. -/
def incompleteProvenance (evidence : RegistrationEvidence) (reason : ChainReason) : Bytes :=
  registrationProvenance evidence ++ ascii ";incomplete=" ++ reason.code

/-! ## Adding to a projection -/

/-- `push_issue`. -/
def pushIssue (prepared : PreparedChainProjection) (childClassId : Option ℤ) (pending : PendingRow)
    (provenance : Bytes) : PreparedChainProjection :=
  { prepared with
    issues := prepared.issues ++ [{
      childClassId := childClassId
      fileId := pending.fileId
      span := pending.extension.tagSpan
      provenance := ascii "xenforo_class_extensions_xml;incomplete;" ++ provenance }] }

/-- `push_registration_issue`. -/
def pushRegistrationIssue (prepared : PreparedChainProjection) (childClassId : Option ℤ)
    (evidence : RegistrationEvidence) (provenance : Bytes) : PreparedChainProjection :=
  { prepared with
    issues := prepared.issues ++ [{
      childClassId := childClassId
      fileId := evidence.fileId
      span := evidence.tagSpan
      provenance := provenance ++ ascii ";incomplete" }] }

/-- `updated_proxy_parent`. -/
def updatedProxyParent (implementation : ImplementationClass) (expectedProxy : Bytes)
    (candidates : List ℤ) (status : PhpParentStatus) (priority : ℤ) (tiePriority : Option ℤ) :
    PhpParentCandidate :=
  let parent := implementation.proxyParent.getD
    { childClassId := implementation.definitionId
      declaredName := expectedProxy
      resolvedName := none
      canonicalName := none
      evidenceStart := 0
      evidenceEnd := 0
      kind := .xfcpProxy
      candidateClassIds := []
      status := .incomplete
      conditional := false
      executeOrder := none
      tieGroup := none }
  { parent with
    kind := .xfcpProxy
    candidateClassIds := candidates
    status := status
    executeOrder := some priority
    tieGroup := tiePriority }

/-- The update of the placeholder of a class, if its proxy has an occurrence. -/
def placeholderUpdate (implementation : ImplementationClass) (targetClassIds : List ℤ)
    (provenance : Bytes) : List PreparedPlaceholderUpdate :=
  match implementation.proxyOccurrence with
  | some (occurrenceId, span) =>
    [{ occurrenceId := occurrenceId
       fileId := implementation.fileId
       span := span
       targetClassIds := targetClassIds
       provenance := provenance }]
  | none => []

/-- `add_incomplete_proxy_edge`. -/
def addIncompleteProxyEdge (prepared : PreparedChainProjection)
    (implementation : ImplementationClass) (pending : PendingRow) (reason : Bytes)
    (targetClassIds : List ℤ) (tiePriority : Option ℤ) : PreparedChainProjection :=
  let parent := updatedProxyParent implementation pending.expectedProxy targetClassIds .incomplete
    (pending.extension.executeOrder.getD 0) tiePriority
  let parent := { parent with conditional := parent.conditional || implementation.conditional }
  let prepared := { prepared with
    hierarchyEdges := prepared.hierarchyEdges ++ [parent]
    placeholderUpdates := prepared.placeholderUpdates ++
      if implementation.proxyMatches then
        placeholderUpdate implementation targetClassIds
          (ascii "xenforo_generated_placeholder;" ++ issueProvenance pending reason ++
            ascii ";incomplete")
      else [] }
  pushIssue prepared (some implementation.definitionId) pending (issueProvenance pending reason)

/-- `add_incomplete_registration`. -/
def addIncompleteRegistration (prepared : PreparedChainProjection)
    (implementation : ImplementationClass) (evidence : RegistrationEvidence) (reason : Bytes)
    (tiePriority : Option ℤ) : PreparedChainProjection :=
  let prepared := { prepared with
    hierarchyEdges := prepared.hierarchyEdges ++
      [updatedProxyParent implementation evidence.expectedProxy [] .incomplete evidence.priority
        tiePriority]
    placeholderUpdates := prepared.placeholderUpdates ++
      if implementation.proxyMatches then
        placeholderUpdate implementation []
          (ascii "xenforo_generated_placeholder;" ++ reason ++ ascii ";runtime_order_unverified")
      else [] }
  pushRegistrationIssue prepared (some implementation.definitionId) evidence reason

/-! ## `project_base_graph` -/

abbrev ImplementationCache := Bytes × Bytes × Bytes → Option ImplementationLookup
abbrev BaseCache := Bytes → Option (List ClassTarget × Bool)

/-- `implementation_cache_key`. -/
def implementationCacheKey (evidence : RegistrationEvidence) : Bytes × Bytes × Bytes :=
  (evidence.implementationRawLookup, evidence.implementationLookup, classKey evidence.expectedProxy)

/-- The evidence of a registration. -/
def evidenceOf (registrations : List (Registration RegistrationEvidence)) (index : ℕ) :
    Except PrepareError RegistrationEvidence :=
  match registrations[index]? with
  | some registration => .ok registration.evidence
  | none => .error .missingRegistration

/-- The implementation classes of a registration. -/
def lookupOf (implementationCache : ImplementationCache) (evidence : RegistrationEvidence) :
    Except PrepareError ImplementationLookup :=
  match implementationCache (implementationCacheKey evidence) with
  | some lookup => .ok lookup
  | none => .error .missingImplementationLookup

structure ChildProjection where
  targetIds : List ℤ
  incomplete : Bool
  conditional : Bool
  identityAmbiguous : Bool
  tiePriority : Option ℤ

def ChildProjection.default : ChildProjection := ⟨[], false, false, false, none⟩

/-- `tied_priorities` (in `project_base_graph`). -/
def tiedPriorities (issues : List (ChainIssue ℕ)) : ℕ → Option ℤ :=
  issues.foldl (fun tied issue =>
    match issue with
    | .priorityTie _ numericPriority registrations =>
      registrations.foldl (fun tied registration =>
        Function.update tied registration (some numericPriority)) tied
    | _ => tied) fun _ => none

/-- `fatal_issue`. -/
def fatalIssue (issues : List (ChainIssue ℕ)) : Option ChainReason :=
  issues.findSome? fun issue =>
    match issue with
    | .classLimitExceeded _ _ _ => some .classLimitExceeded
    | .candidateLimitExceeded _ _ _ _ => some .candidateLimitExceeded
    | .priorityTie _ _ _ => none

/-- The classes that an edge may lead to. -/
structure EdgeTargets where
  targets : List ClassTarget
  truncated : Bool
  identityAmbiguous : Bool
  predecessor : Option RegistrationEvidence

/-- What the predecessor of an edge stands for. -/
def edgeTargets (registrations : List (Registration RegistrationEvidence))
    (implementationCache : ImplementationCache) (baseCache : BaseCache) (base : Bytes) :
    PredecessorCandidate ℕ → Except PrepareError EdgeTargets
  | .base =>
    match baseCache (classKey base) with
    | some (targets, truncated) => .ok ⟨targets, truncated, 1 < targets.length, none⟩
    | none => .error .missingBaseLookup
  | .registration index => do
    let predecessor ← evidenceOf registrations index
    let lookup ← lookupOf implementationCache predecessor
    .ok {
      targets := (lookup.classes.filter ImplementationClass.proxyMatches).map fun implementation =>
        { definitionId := implementation.definitionId
          kind := implementation.kind
          role := implementation.role
          complete := implementation.complete
          conditional := implementation.conditional }
      truncated := lookup.truncated
      identityAmbiguous := 1 < lookup.classes.length
      predecessor := some predecessor }

/-- `target_issues`. -/
def targetIssues (targets : EdgeTargets) (predecessor : PredecessorCandidate ℕ) :
    List ChainReason :=
  (if targets.identityAmbiguous then [.predecessorClassIdentityAmbiguous] else []) ++
  (if targets.truncated then [.predecessorCandidatesTruncated] else []) ++
  match targets.targets with
  | [] =>
    match predecessor with
    | .base => [.declaredBaseClassMissing]
    | .registration _ => [.immediatePredecessorClassMissing]
  | [target] =>
    (if target.kind ≠ .class || target.role ≠ .ordinary then [.predecessorNotOrdinaryClass]
      else []) ++
    if target.conditional then [.predecessorClassConditional]
    else if !target.complete then [.predecessorClassIncomplete]
    else []
  | _ :: _ :: _ => []

/-- `child_class`: the only class of a lookup. -/
def ImplementationLookup.only (lookup : ImplementationLookup) : Option ImplementationClass :=
  match lookup.classes, lookup.truncated with
  | [implementation], false => some implementation
  | _, _ => none

/-- The reasons of the child of an edge. -/
def childIssues (lookup : ImplementationLookup) (expectedProxy : Bytes) : List ChainReason :=
  (if 1 < lookup.classes.length || lookup.truncated then [.implementationClassIdentityAmbiguous]
    else []) ++
  (if lookup.classes = [] then [.implementationClassMissing] else []) ++
  match lookup.only with
  | some implementation =>
    proxyReadinessIssues implementation expectedProxy ++
    (if implementation.kind ≠ .class || implementation.role ≠ .ordinary then
      [.implementationNotOrdinaryClass] else []) ++
    if implementation.conditional then [.implementationClassConditional]
    else if !implementation.complete then [.implementationClassIncomplete]
    else []
  | none => []

/-- `reasons` and `candidate_ids` of an edge. -/
def edgeCandidates (targets : EdgeTargets) (predecessor : PredecessorCandidate ℕ)
    (lookup : ImplementationLookup) (expectedProxy : Bytes) : List ChainReason × List ℤ :=
  let reasons := targetIssues targets predecessor ++ childIssues lookup expectedProxy
  let candidateIds :=
    if reasons = [] then (targets.targets.head?.map ClassTarget.definitionId).toList else []
  match lookup.only with
  | some implementation =>
    if implementation.definitionId ∈ candidateIds then
      (reasons ++ [.implementationIsItsOwnPredecessor], [])
    else (reasons, sortDedup candidateIds)
  | none => (reasons, sortDedup candidateIds)

/-- The local variables of the loops of `project_base_graph`. -/
structure GraphState where
  prepared : PreparedChainProjection
  targetsByChild : ℤ → Option ChildProjection
  edgeDedup : List (ℤ × ℤ × ℤ × ByteSpan)
  issueDedup : List (ℤ × ByteSpan × ChainReason)

/-- The child of an edge takes its candidates, and a parent edge if there is no reason
against it. -/
def GraphState.addCandidates (state : GraphState) (implementation : ImplementationClass)
    (child : RegistrationEvidence) (targets : EdgeTargets) (reasons : List ChainReason)
    (candidateIds : List ℤ) (tiePriority : Option ℤ) (provenance : Bytes) : GraphState :=
  let previous := (state.targetsByChild implementation.definitionId).getD .default
  let state := { state with
    targetsByChild := Function.update state.targetsByChild implementation.definitionId (some {
      previous with
      targetIds := previous.targetIds ++ candidateIds
      tiePriority := previous.tiePriority.or tiePriority
      incomplete := previous.incomplete || reasons ≠ []
      conditional := previous.conditional || (implementation.conditional ||
        targets.targets.any ClassTarget.conditional) }) }
  match reasons, candidateIds with
  | [], targetId :: _ =>
    let identity := (implementation.definitionId, targetId, child.fileId, child.tagSpan)
    if identity ∈ state.edgeDedup then state
    else
      { state with
        edgeDedup := identity :: state.edgeDedup
        prepared := { state.prepared with
          parentEdges := state.prepared.parentEdges ++ [{
            childClassId := implementation.definitionId
            predecessorClassId := targetId
            fileId := child.fileId
            span := child.tagSpan
            provenance := provenance }] } }
  | _, _ => state

/-- One reason of an edge becomes an issue once. -/
def GraphState.addReason (child : RegistrationEvidence) (childClassId : Option ℤ)
    (state : GraphState) (reason : ChainReason) : GraphState :=
  let identity := (childClassId.getD 0, child.tagSpan, reason)
  if identity ∈ state.issueDedup then state
  else
    { state with
      issueDedup := identity :: state.issueDedup
      prepared := pushRegistrationIssue state.prepared childClassId child
        (incompleteProvenance child reason) }

/-- `tie_priority`. -/
def edgeTie (tied : ℕ → Option ℤ) (child : ℕ) (predecessor : PredecessorCandidate ℕ) : Option ℤ :=
  match predecessor with
  | .registration index => (tied child).or (tied index)
  | .base => tied child

section Graph

variable (registrations : List (Registration RegistrationEvidence))
  (implementationCache : ImplementationCache) (baseCache : BaseCache) (tied : ℕ → Option ℤ)

/-- One edge of the graph. -/
def projectEdge (state : GraphState) (edge : CandidateEdge ℕ RegistrationEvidence) :
    Except PrepareError GraphState := do
  let child ← evidenceOf registrations edge.child
  let lookup ← lookupOf implementationCache child
  let targets ← edgeTargets registrations implementationCache baseCache edge.base edge.predecessor
  let tiePriority := edgeTie tied edge.child edge.predecessor
  let (reasons, candidateIds) := edgeCandidates targets edge.predecessor lookup child.expectedProxy
  let provenance := edgeProvenance child targets.predecessor tiePriority ++
    if reasons = [] then ascii ";immediate_parent_candidate"
    else ascii ";incomplete=" ++ joinReasons reasons
  let state := match lookup.only with
    | some implementation =>
      state.addCandidates implementation child targets reasons candidateIds tiePriority provenance
    | none => state
  .ok (reasons.foldl
    (GraphState.addReason child (lookup.only.map ImplementationClass.definitionId)) state)

/-- One registration of a chain that is too long. -/
def projectFatal (prepared : PreparedChainProjection) (reason : ChainReason) (index : ℕ) :
    Except PrepareError PreparedChainProjection := do
  let evidence ← evidenceOf registrations index
  let lookup ← lookupOf implementationCache evidence
  let provenance := incompleteProvenance evidence reason
  let prepared := if lookup.classes = [] then pushRegistrationIssue prepared none evidence provenance
    else prepared
  .ok (lookup.classes.foldl (fun prepared implementation =>
    addIncompleteRegistration prepared implementation evidence provenance none) prepared)

/-- The status of the hierarchy edge of a class. -/
def childStatus (state : ChildProjection) (implementation : ImplementationClass)
    (incomplete : Bool) : PhpParentStatus :=
  if state.identityAmbiguous then .ambiguous
  else if implementation.conditional || state.conditional then .conditional
  else if incomplete then .incomplete
  else if state.targetIds = [] then .incomplete
  else .candidates

/-- One class of a registration. -/
def projectImplementation (index : ℕ) (evidence : RegistrationEvidence)
    (lookup : ImplementationLookup) (state : GraphState) (implementation : ImplementationClass) :
    GraphState :=
  let child := (state.targetsByChild implementation.definitionId).getD .default
  let ambiguous := decide (1 < lookup.classes.length)
  let allTargets := if ambiguous || lookup.truncated then [] else sortDedup child.targetIds
  let candidateLimit := decide (allTargets.length > maxCandidates)
  let child := { child with
    identityAmbiguous := ambiguous
    targetIds := allTargets.take maxCandidates }
  let incomplete := child.incomplete || lookup.truncated || candidateLimit ||
    proxyReadinessIssues implementation evidence.expectedProxy ≠ []
  let prepared := state.prepared
  let prepared := if candidateLimit then
      pushRegistrationIssue prepared (some implementation.definitionId) evidence
        (incompleteProvenance evidence .predecessorCandidatesTruncated)
    else prepared
  let prepared := if child.targetIds = [] && !incomplete then
      pushRegistrationIssue prepared (some implementation.definitionId) evidence
        (incompleteProvenance evidence .predecessorClassMissing)
    else prepared
  let tiePriority := child.tiePriority.or (tied index)
  let prepared := if implementation.proxyMatches then
      { prepared with
        hierarchyEdges := prepared.hierarchyEdges ++
          [updatedProxyParent implementation evidence.expectedProxy child.targetIds
            (childStatus child implementation incomplete) evidence.priority tiePriority]
        placeholderUpdates := prepared.placeholderUpdates ++
          placeholderUpdate implementation child.targetIds
            (ascii "xenforo_generated_placeholder;" ++ registrationProvenance evidence ++
              ascii ";framework_parent_candidate;runtime_order_unverified") }
    else
      addIncompleteRegistration prepared implementation evidence
        (incompleteProvenance evidence .proxyParentUnverified) tiePriority
  { state with
    prepared := prepared
    targetsByChild := Function.update state.targetsByChild implementation.definitionId none }

/-- One registration. -/
def projectRegistration (state : GraphState) (index : ℕ) : Except PrepareError GraphState := do
  let evidence ← evidenceOf registrations index
  let lookup ← lookupOf implementationCache evidence
  if lookup.classes = [] then
    .ok { state with
      prepared := pushRegistrationIssue state.prepared none evidence
        (incompleteProvenance evidence .implementationClassMissing) }
  else .ok (lookup.classes.foldl (projectImplementation tied index evidence lookup) state)

/-- `project_base_graph`. -/
def projectBaseGraph (graph : ChainGraph ℕ RegistrationEvidence) (indices : List ℕ) :
    Except PrepareError PreparedChainProjection :=
  match fatalIssue graph.issues with
  | some reason =>
    indices.foldlM (fun prepared index =>
      projectFatal registrations implementationCache prepared reason index) emptyProjection
  | none => do
    let tied := tiedPriorities graph.issues
    let state ← graph.edges.foldlM (projectEdge registrations implementationCache baseCache tied)
      { prepared := emptyProjection
        targetsByChild := fun _ => none
        edgeDedup := []
        issueDedup := [] }
    let state ← indices.foldlM (projectRegistration registrations implementationCache tied) state
    .ok state.prepared

end Graph

/-! ## Collecting the projections -/

/-- `DerivedBudget::charge` (`inheritance.rs`). -/
def chargeDerived (used count : ℕ) : Except PrepareError ℕ :=
  if used + count ≤ maxDerivedItems then .ok (used + count) else .error .derivedLimit

/-- What adding a projection costs (in `charge_and_append`). -/
def projectionCost (additions : PreparedChainProjection) : ℕ :=
  additions.parentEdges.length + additions.hierarchyEdges.length + additions.issues.length +
    (additions.placeholderUpdates.map fun update => update.targetClassIds.length).sum

/-- `charge_and_append`. -/
def chargeAndAppend (target additions : PreparedChainProjection) (used : ℕ) :
    Except PrepareError (PreparedChainProjection × ℕ) := do
  let used ← chargeDerived used (projectionCost additions)
  .ok ({ target with
    parentEdges := target.parentEdges ++ additions.parentEdges
    placeholderUpdates := target.placeholderUpdates ++ additions.placeholderUpdates
    hierarchyEdges := target.hierarchyEdges ++ additions.hierarchyEdges
    issues := target.issues ++ additions.issues }, used)

/-- One update of `coalesce_placeholder_updates`: it is merged into the one with the same
occurrence, or put at the end. -/
def mergePlaceholder :
    List PreparedPlaceholderUpdate → PreparedPlaceholderUpdate →
      Except PrepareError (List PreparedPlaceholderUpdate)
  | [], update => .ok [update]
  | previous :: rest, update =>
    if previous.occurrenceId = update.occurrenceId then
      if previous.fileId = update.fileId && previous.span = update.span then
        let previousCandidates := sortDedup previous.targetClassIds
        if previousCandidates ≠ sortDedup update.targetClassIds then
          .ok ({ previous with
            targetClassIds := []
            provenance := previous.provenance ++
              ascii ";incomplete=multiple_registration_evidence" } :: rest)
        else .ok ({ previous with targetClassIds := previousCandidates } :: rest)
      else .error .conflictingPlaceholder
    else (mergePlaceholder rest update).map (previous :: ·)

/-- `coalesce_placeholder_updates`. -/
def coalescePlaceholderUpdates (prepared : PreparedChainProjection) :
    Except PrepareError PreparedChainProjection := do
  let unique ← prepared.placeholderUpdates.foldlM mergePlaceholder []
  .ok { prepared with placeholderUpdates := unique }

end Trufflepig.Resolver
