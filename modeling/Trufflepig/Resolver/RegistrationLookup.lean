import Trufflepig.Lib.Groups
import Trufflepig.Resolver.ChainFacts

/-!
# Preparing XenForo class-extension chains

Model of `src/store/php_resolver/xenforo/chain_adapter/registration_lookup.rs`: rows of
extension files become registrations of base classes, unless the metadata of their base
have a problem.

The entries of the hash maps `proxy_owners` and `implementation_owners` are visited in an
order that is not known, an `Iteration`. An owner of a class is its row, whose proxy the
source keeps beside it. `PrepareState.log` is not in the source: it records for which base
a projection was added.
-/

namespace Trufflepig.Resolver

open Lib

/-- `MAX_METADATA_FACTS` (`xenforo.rs`). -/
def maxMetadataFacts : ℕ := 200000

/-- A row of the table `occurrences`. -/
structure Occurrence where
  id : ℤ
  fileId : ℤ
  start : ℤ
  stop : ℤ
  role : Bytes
  provenance : Bytes

/-- What `prepare` reads: the database, the hierarchy and the alias rules. -/
structure ChainContext where
  occurrences : List Occurrence
  hierarchy : PhpHierarchyIndex
  aliases : AliasSource

/-! ## Lookups -/

/-- `charge_source_candidates`. -/
def chargeSourceCandidates (total count : ℕ) : Except PrepareError ℕ :=
  if total + count ≤ maxMetadataFacts then .ok (total + count) else .error .candidateLimit

/-- `find_type_occurrence`. -/
def findTypeOccurrence (occurrences : List Occurrence) (fileId : ℤ) (span : ByteSpan) :
    Except PrepareError (Option ℤ) :=
  match occurrences.filter fun row =>
      row.fileId = fileId && row.start = (span.start : ℤ) && row.stop = (span.stop : ℤ) &&
        row.role = ascii "type" with
  | [] => .ok none
  | [row] =>
    .ok (if row.provenance = ascii "xenforo_generated_placeholder" ||
        (ascii "php_fqcn").isPrefixOf row.provenance then some row.id else none)
  | _ :: _ :: _ => .error .ambiguousOccurrence

section Lookup

variable (context : ChainContext)

/-- The only XFCP parent of a class (in `implementation_lookup`). -/
def proxyParentOf (definitionId : ℤ) : Option PhpParentCandidate :=
  match (context.hierarchy.parentCandidates definitionId).filter fun parent =>
      parent.kind = .xfcpProxy with
  | [parent] => some parent
  | _ => none

/-- `proxy_matches`. -/
def matchesProxy (expectedProxy : Bytes) (parent : PhpParentCandidate) : Bool :=
  parent.resolvedName.map classKey = some (classKey expectedProxy)

/-- The occurrence of the token of a parent. -/
def parentOccurrence (fileId : ℤ) (parent : PhpParentCandidate) :
    Except PrepareError (Option (ℤ × ByteSpan)) :=
  if parent.evidenceStart < 0 || parent.evidenceEnd < 0 then .error .negativeEvidence
  else
    let span : ByteSpan := ⟨parent.evidenceStart.toNat, parent.evidenceEnd.toNat⟩
    (findTypeOccurrence context.occurrences fileId span).map fun found => found.map (·, span)

/-- `proxy_occurrence`. -/
def proxyOccurrenceOf (expectedProxy : Bytes) (candidate : PhpClassFact) :
    Except PrepareError (Option (ℤ × ByteSpan)) :=
  match proxyParentOf context candidate.definitionId with
  | some parent =>
    if matchesProxy expectedProxy parent then parentOccurrence context candidate.fileId parent
    else .ok none
  | none => .ok none

/-- One candidate of `implementation_lookup`. -/
def implementationClass (expectedProxy : Bytes) (candidate : PhpClassFact) :
    Except PrepareError ImplementationClass :=
  (proxyOccurrenceOf context expectedProxy candidate).map fun proxyOccurrence =>
    { definitionId := candidate.definitionId
      fileId := candidate.fileId
      kind := candidate.kind
      role := candidate.role
      complete := candidate.complete
      conditional := candidate.conditional
      proxyParent := proxyParentOf context candidate.definitionId
      proxyOccurrence := proxyOccurrence
      proxyMatches := (proxyParentOf context candidate.definitionId).any (matchesProxy expectedProxy) }

/-- The classes with the name of an implementation, or else with its canonical name. -/
def implementationCandidates (raw : Bytes) (canonical : Option Bytes) : List PhpClassFact :=
  match (context.hierarchy.rawClassCandidates raw).take (maxCandidates + 1) with
  | [] =>
    match canonical with
    | some canonical =>
      (context.hierarchy.canonicalClassCandidates canonical).take (maxCandidates + 1)
    | none => []
  | candidates => candidates

/-- `implementation_lookup` but for the count of candidates. -/
def resolveImplementation (raw : Bytes) (canonical : Option Bytes) (expectedProxy : Bytes) :
    Except PrepareError ImplementationLookup := do
  let candidates := implementationCandidates context raw canonical
  let classes ← (candidates.take maxCandidates).mapM (implementationClass context expectedProxy)
  .ok { classes := classes, truncated := candidates.length > maxCandidates }

/-- `implementation_lookup`. -/
def implementationLookup (raw : Bytes) (canonical : Option Bytes) (expectedProxy : Bytes)
    (sourceCandidateCount : ℕ) : Except PrepareError (ImplementationLookup × ℕ) := do
  let candidates := implementationCandidates context raw canonical
  let count ← chargeSourceCandidates sourceCandidateCount (candidates.take maxCandidates).length
  let lookup ← resolveImplementation context raw canonical expectedProxy
  .ok (lookup, count)

/-- The classes of `base_lookup` and whether there are more. -/
def baseClasses (canonicalBase : Bytes) : List ClassTarget × Bool :=
  let classes := ((context.hierarchy.classCandidates canonicalBase).take (maxCandidates + 1)).map
    fun candidate =>
      { definitionId := candidate.definitionId
        kind := candidate.kind
        role := candidate.role
        complete := candidate.complete
        conditional := candidate.conditional : ClassTarget }
  (classes.take maxCandidates, classes.length > maxCandidates)

/-- `base_lookup`. -/
def baseLookup (canonicalBase : Bytes) (sourceCandidateCount : ℕ) :
    Except PrepareError ((List ClassTarget × Bool) × ℕ) :=
  let classes := baseClasses context canonicalBase
  (chargeSourceCandidates sourceCandidateCount classes.1.length).map fun count => (classes, count)

/-- The caches of `prepare`. -/
structure LookupState where
  implementationCache : ImplementationCache
  baseCache : BaseCache
  sourceCandidateCount : ℕ

/-- The key of a row in the cache of implementations (in `prepare`). -/
def PendingRow.cacheKey (row : PendingRow) : Bytes × Bytes × Bytes :=
  (classKey row.extension.toClass, (row.implementation.map classKey).getD [],
    classKey row.expectedProxy)

/-- The lookup of the implementation of a row, from the cache or into it. -/
def cachedImplementation (state : LookupState) (row : PendingRow) :
    Except PrepareError (ImplementationLookup × LookupState) :=
  match state.implementationCache row.cacheKey with
  | some lookup => .ok (lookup, state)
  | none =>
    (implementationLookup context row.extension.toClass row.implementation row.expectedProxy
      state.sourceCandidateCount).map fun found =>
        (found.1, { state with
          implementationCache :=
            Function.update state.implementationCache row.cacheKey (some found.1)
          sourceCandidateCount := found.2 })

/-- The lookup of a base class, from the cache or into it. -/
def cachedBase (state : LookupState) (base : Bytes) :
    Except PrepareError ((List ClassTarget × Bool) × LookupState) :=
  match state.baseCache (classKey base) with
  | some classes => .ok (classes, state)
  | none =>
    (baseLookup context base state.sourceCandidateCount).map fun found =>
      (found.1, { state with
        baseCache := Function.update state.baseCache (classKey base) (some found.1)
        sourceCandidateCount := found.2 })

end Lookup

/-! ## Problems of the metadata -/

/-- The rows and the keys of the bases that are blocked. -/
structure BlockState where
  rows : List PendingRow
  blockedBases : List Bytes

namespace BlockState

def blockBase (state : BlockState) (base : Option Bytes) : BlockState :=
  match base with
  | some base => { state with blockedBases := classKey base :: state.blockedBases }
  | none => state

def pushReason (reason : ChainReason) (state : BlockState) (index : ℕ) : BlockState :=
  { state with
    rows := state.rows.modify index fun row =>
      { row with metadataIssues := row.metadataIssues ++ [reason] } }

/-- A row with a reason, whose base is blocked. -/
def blockOwner (reason : ChainReason) (state : BlockState) (owner : ℕ) : BlockState :=
  pushReason reason (state.blockBase (state.rows[owner]?.bind PendingRow.base)) owner

end BlockState

/-- The rows of all files, with their positions. -/
def extensionRows (files : List ExtensionFile) : List (ℤ × ℕ × ClassExtension) :=
  files.flatMap fun file =>
    file.extensions.zipIdx.map fun entry => (file.fileId, entry.2, entry.1)

/-- The issues of a row that are seen in the row alone. -/
def rowIssues (extension : ClassExtension) (base implementation : Option Bytes) :
    List ChainReason :=
  (if extension.active = none then [.activeStateUnknown] else []) ++
  (match extension.executeOrder with
    | none => [.executeOrderUnknown]
    | some order => if order < 0 then [.executeOrderInvalidNegative] else []) ++
  (if extension.duplicate then [.duplicateDeclaration] else []) ++
  if base.isNone || implementation.isNone then [.aliasSourceUnresolved] else []

/-- The row of an extension that is not known to be inactive. -/
def pendingRow (aliases : AliasSource) (fileId : ℤ) (rowIndex : ℕ) (extension : ClassExtension) :
    Except PrepareError PendingRow :=
  let base := canonicalizeClassName extension.fromClass aliases
  let implementation := canonicalizeClassName extension.toClass aliases
  (expectedProxyName extension.toClass).map fun expectedProxy =>
    { fileId := fileId
      rowIndex := rowIndex
      extension := extension
      base := base
      implementation := implementation
      expectedProxy := expectedProxy
      metadataIssues := rowIssues extension base implementation }

/-- One extension. -/
def addPendingRow (aliases : AliasSource) (state : BlockState × Groups Bytes)
    (entry : ℤ × ℕ × ClassExtension) : Except PrepareError (BlockState × Groups Bytes) :=
  if entry.2.2.active = some false then .ok state
  else
    (pendingRow aliases entry.1 entry.2.1 entry.2.2).map fun row =>
      let block := if row.metadataIssues ≠ [] then state.1.blockBase row.base else state.1
      ({ block with rows := block.rows ++ [row] },
        pushIndex state.2 (classKey row.expectedProxy) state.1.rows.length)

/-- The owners of one proxy. -/
def blockSharedProxy (state : BlockState) (entry : Bytes × List ℕ) : BlockState :=
  if entry.2.length < 2 then state
  else entry.2.foldl (BlockState.blockOwner .proxyIdentityReused) state

/-- The local variables of the loop over the rows with both names. -/
structure ResolveState where
  block : BlockState
  lookups : LookupState
  implementationOwners : Groups ℤ
  implementationIsBase : List ℕ

/-- The classes of one row and of its base. -/
def resolveRow (context : ChainContext) (state : ResolveState) (index : ℕ) :
    Except PrepareError ResolveState :=
  match state.block.rows[index]? with
  | none => .ok state
  | some row =>
    match row.implementation, row.base with
    | some _, some base => do
      let (lookup, lookups) ← cachedImplementation context state.lookups row
      let (classes, lookups) ← cachedBase context lookups base
      let block := if 1 < classes.1.length || classes.2 then
          BlockState.pushReason .baseClassIdentityAmbiguous (state.block.blockBase (some base)) index
        else state.block
      let isBase := lookup.classes.any fun implementation =>
        classes.1.any fun target => target.definitionId = implementation.definitionId
      .ok {
        block := if isBase then block.blockBase (some base) else block
        lookups := lookups
        implementationOwners :=
          match lookup.only with
          | some implementation =>
            pushIndex state.implementationOwners implementation.definitionId index
          | none => state.implementationOwners
        implementationIsBase :=
          if isBase then state.implementationIsBase ++ [index] else state.implementationIsBase }
    | _, _ => .ok state

/-- The proxies of the owners of a class, without duplicates. -/
def distinctProxies (rows : List PendingRow) (owners : List ℕ) : List Bytes :=
  (owners.map fun owner => (rows[owner]?.map fun row => classKey row.expectedProxy).getD []).dedup

/-- The owners of one class. -/
def blockConflict (state : BlockState) (entry : ℤ × List ℕ) : BlockState :=
  if (distinctProxies state.rows entry.2).length < 2 then state
  else entry.2.foldl (BlockState.blockOwner .implementationProxyIdentityConflict) state

/-- The orders in which the two hash maps of owners are visited. -/
structure VisitOrder where
  proxies : Iteration (Bytes × List ℕ)
  implementations : Iteration (ℤ × List ℕ)

/-- The rows, the blocked bases and the caches after the passes over the metadata. -/
def blockRows (context : ChainContext) (visit : VisitOrder) (files : List ExtensionFile) :
    Except PrepareError (BlockState × LookupState) := do
  let (block, proxyOwners) ← (extensionRows files).foldlM (addPendingRow context.aliases)
    (⟨[], []⟩, [])
  let block := (visit.proxies.order proxyOwners).foldl blockSharedProxy block
  let state ← (List.range block.rows.length).foldlM (resolveRow context)
    { block := block
      lookups := ⟨fun _ => none, fun _ => none, 0⟩
      implementationOwners := []
      implementationIsBase := [] }
  let block := state.implementationIsBase.foldl (BlockState.pushReason .implementationIsBaseClass)
    state.block
  let block := (visit.implementations.order state.implementationOwners).foldl blockConflict block
  .ok (block, state.lookups)

/-! ## Rows and chains -/

/-- The local variables of the last loops. -/
structure PrepareState where
  prepared : PreparedChainProjection
  lookups : LookupState
  registrations : List (Registration RegistrationEvidence)
  byBase : Groups Bytes
  seenUpdates : List (ℤ × ByteSpan × ExtensionRole)
  used : ℕ
  log : List (Option Bytes × PreparedChainProjection)

/-- `charge_and_append` of what belongs to a base. -/
def PrepareState.append (state : PrepareState) (base : Option Bytes)
    (additions : PreparedChainProjection) : Except PrepareError PrepareState :=
  (chargeAndAppend state.prepared additions state.used).map fun appended =>
    { state with
      prepared := appended.1
      used := appended.2
      log := state.log ++ [(base, additions)] }

/-- `push_class_occurrence_update`. -/
def pushClassOccurrenceUpdate (state : PrepareState) (pending : PendingRow) (role : ExtensionRole)
    (name : Bytes) (classIds : List ℤ) (truncated : Bool) (totalCandidates : ℕ) :
    Except PrepareError PrepareState :=
  let span := match role with
    | .base => pending.extension.fromSpan
    | .implementation => pending.extension.toSpan
  let identity := (pending.fileId, span, role)
  if identity ∈ state.seenUpdates then .error .duplicateUpdate
  else
    let candidates := (sortDedup classIds).take maxCandidates
    (chargeDerived state.used (candidates.length + max candidates.length 1)).map fun used =>
      { state with
        used := used
        seenUpdates := identity :: state.seenUpdates
        prepared := { state.prepared with
          classOccurrenceUpdates := state.prepared.classOccurrenceUpdates ++ [{
            fileId := pending.fileId
            span := span
            role := role
            name := name
            classIds := candidates
            tagSpan := pending.extension.tagSpan
            provenance :=
              ascii "xenforo_class_extensions_xml;" ++
              issueProvenance pending ChainReason.metadataCandidate.code ++
              ascii ";runtime_order_unverified" ++
              if truncated || totalCandidates > maxCandidates then
                ascii ";xenforo_candidates_truncated" else [] }] } }

/-- The occurrence of the base of a row. -/
def pushBaseUpdate (context : ChainContext) (state : PrepareState) (row : PendingRow) :
    Except PrepareError PrepareState :=
  match row.base with
  | some base => do
    let (classes, lookups) ← cachedBase context state.lookups base
    pushClassOccurrenceUpdate { state with lookups := lookups } row .base row.extension.fromClass
      (classes.1.map ClassTarget.definitionId) classes.2 classes.1.length
  | none => .ok state

/-- `reasons` of a row that is not registered. -/
def blockedReasons (row : PendingRow) (baseBlocked : Bool) (lookup : ImplementationLookup) :
    List ChainReason :=
  let reasons := row.metadataIssues ++ if row.base.isNone then [.baseLookupUnavailable] else []
  let reasons := reasons ++
    if baseBlocked && reasons = [] then [.canonicalBaseChainBlocked] else []
  reasons ++
  (if row.implementation.isNone then [.implementationLookupUnavailable] else []) ++
  (if lookup.classes = [] then [.implementationClassMissing] else []) ++
  if lookup.truncated then [.implementationCandidatesTruncated] else []

/-- What a row that is not registered gives. -/
def blockedProjection (row : PendingRow) (reasons : List ChainReason)
    (lookup : ImplementationLookup) : PreparedChainProjection :=
  let projection := lookup.classes.foldl (fun projection implementation =>
    addIncompleteProxyEdge projection implementation row
      (joinReasons (reasons ++ proxyReadinessIssues implementation row.expectedProxy)) [] none)
    emptyProjection
  if lookup.classes = [] || lookup.classes.all fun implementation =>
      !implementation.proxyMatches || implementation.proxyOccurrence.isNone then
    pushIssue projection none row (joinReasons reasons)
  else projection

/-- The registration of a row. -/
def registrationOf (row : PendingRow) (base implementation : Bytes) (priority : ℤ) :
    Registration RegistrationEvidence where
  id := decimalText row.fileId ++ ascii ":" ++ decimalText row.rowIndex ++ ascii ":" ++
    implementation
  base := classKey base
  implementation := classKey implementation
  numericPriority := priority
  evidence :=
    { fileId := row.fileId
      rowIndex := row.rowIndex
      tagSpan := row.extension.tagSpan
      baseName := base
      implementationName := row.extension.toClass
      implementationRawLookup := classKey row.extension.toClass
      implementationLookup := classKey implementation
      expectedProxy := row.expectedProxy
      priority := priority }

/-- A row of a base that is not blocked is registered. -/
def registerRow (state : PrepareState) (row : PendingRow) (base : Bytes) :
    Except PrepareError PrepareState :=
  match row.extension.executeOrder with
  | none => .ok state
  | some priority =>
    if row.extension.active ≠ some true || row.extension.duplicate then .ok state
    else
      match row.implementation with
      | none => .error .missingImplementationKey
      | some implementation =>
        .ok { state with
          registrations := state.registrations ++ [registrationOf row base implementation priority]
          byBase := pushIndex state.byBase (classKey base) state.registrations.length }

/-- A row whose classes are known. -/
def placeRow (blockedBases : List Bytes) (state : PrepareState) (row : PendingRow)
    (lookup : ImplementationLookup) : Except PrepareError PrepareState :=
  match row.base with
  | none => state.append none (blockedProjection row (blockedReasons row false lookup) lookup)
  | some base =>
    let baseBlocked := decide (classKey base ∈ blockedBases)
    if row.metadataIssues ≠ [] || baseBlocked then
      state.append (some (classKey base))
        (blockedProjection row (blockedReasons row baseBlocked lookup) lookup)
    else registerRow state row base

/-- One row of the last loop over the rows. -/
def prepareRow (context : ChainContext) (blockedBases : List Bytes) (state : PrepareState)
    (row : PendingRow) : Except PrepareError PrepareState := do
  let (lookup, lookups) ← cachedImplementation context state.lookups row
  let state ← pushClassOccurrenceUpdate { state with lookups := lookups } row .implementation
    row.extension.toClass (lookup.classes.map ImplementationClass.definitionId) lookup.truncated
    lookup.classes.length
  let state ← pushBaseUpdate context state row
  placeRow blockedBases state row lookup

/-- `registrations[index]`; the indexes of a base are all in range. -/
def registrationAt (registrations : List (Registration RegistrationEvidence)) (index : ℕ) :
    Registration RegistrationEvidence :=
  registrations.getD index ⟨[], [], [], 0, ⟨0, 0, ⟨0, 0⟩, [], [], [], [], [], 0⟩⟩

/-- One base class. -/
def prepareBase (state : PrepareState) (entry : Bytes × List ℕ) :
    Except PrepareError PrepareState := do
  let graph := buildChainForBase entry.1 (registrationAt state.registrations) entry.2
  let additions ← projectBaseGraph state.registrations state.lookups.implementationCache
    state.lookups.baseCache graph entry.2
  state.append (some entry.1) additions

/-- What a run of `prepare` ends with. -/
structure PrepareRun where
  rows : List PendingRow
  blockedBases : List Bytes
  prepared : PreparedChainProjection
  used : ℕ
  log : List (Option Bytes × PreparedChainProjection)

/-- `prepare`, with its rows, its blocked bases and the log. -/
def prepareRun (context : ChainContext) (visit : VisitOrder) (files : List ExtensionFile)
    (used : ℕ) : Except PrepareError PrepareRun := do
  let (block, lookups) ← blockRows context visit files
  let state ← block.rows.foldlM (prepareRow context block.blockedBases)
    { prepared := emptyProjection
      lookups := lookups
      registrations := []
      byBase := []
      seenUpdates := []
      used := used
      log := [] }
  let state ← (state.byBase.insertionSort fun a b => a.1 ≤ b.1).foldlM prepareBase state
  let prepared ← coalescePlaceholderUpdates state.prepared
  .ok { rows := block.rows
        blockedBases := block.blockedBases
        prepared := prepared
        used := state.used
        log := state.log }

/-- `prepare`. -/
def prepare (context : ChainContext) (visit : VisitOrder) (files : List ExtensionFile)
    (used : ℕ) : Except PrepareError (PreparedChainProjection × ℕ) :=
  (prepareRun context visit files used).map fun run => (run.prepared, run.used)

end Trufflepig.Resolver
