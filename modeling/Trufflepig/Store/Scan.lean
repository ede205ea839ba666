import Trufflepig.Store.Publish

/-!
# Scanning a tree and indexing it

Model of `src/store/scan.rs` (`stage`, `cached_extraction`, `read_source`, the
fingerprints) and of `Store::index_leased` in `src/store.rs`.

A scan sees the file system through the walker: a sequence of entries, each a
failure, something that is no regular file, or a file with what its metadata
and its descriptor show at that moment. The hash is a parameter of the build, as
is the lock file that the build embeds; the JSON texts of extractions and of
publication changes are codecs.
-/

namespace Trufflepig.Store

open Lib Extract

/-- `MAX_SOURCE_BYTES`. -/
def maxSourceBytes : ℕ := 2 * 1024 * 1024

/-- `MAX_FACTS`. -/
def maxFacts : ℕ := 50000

/-- `EXTRACTION_CONTRACT_REVISION.to_le_bytes()`. -/
def extractionContractRevision : Bytes := leBytes 4 6

/-- `php_resolver::SHARED_RESOLVER_REVISION`. -/
def sharedResolverRevision : Bytes := ascii "php-xenforo-inheritance-v1"

/-- What one build of the program fixes: the hash function (BLAKE3), the bytes
of `Cargo.lock`, and the JSON codecs. -/
structure Build where
  hash : Bytes → Digest
  cargoLock : Bytes
  extractions : Codec Extraction
  changes : Codec PublicationChange

/-! ## The file system as the walker shows it -/

/-- A regular file: its path below the root, the length in its metadata unless
that cannot be read, and the length and the bytes that its open descriptor
yields unless opening or reading it fails. -/
structure FileEntry where
  relative : Bytes
  metadata : Option UInt64
  descriptor : Option (UInt64 × Bytes)

/-- An item of the walker. -/
inductive WalkEntry where
  | failure
  | other
  | file (entry : FileEntry)

/-- Why `read_contained` fails, as far as `read_source` tells the reasons apart. -/
inductive ReadFailure where
  | sourceExcluded | sourceUnavailable
  deriving DecidableEq, Repr

/-- `read_contained` (`source.rs`) from its open descriptor on. -/
def readContained (descriptor : Option (UInt64 × Bytes)) (limit : ℕ) : Except ReadFailure Bytes :=
  match descriptor with
  | none => .error .sourceUnavailable
  | some (length, content) =>
    if length.toNat > limit then .error .sourceExcluded
    else if (content.take (limit + 1)).length > limit then .error .sourceExcluded
    else .ok (content.take (limit + 1))

/-- `read_source` (`scan.rs`). -/
def readSource (entry : FileEntry) : Option Bytes × Status × UInt64 :=
  match entry.metadata with
  | none => (none, .metadataError, 0)
  | some length =>
    if length.toNat > maxSourceBytes then (none, .resourceExcluded, length)
    else
      match readContained entry.descriptor maxSourceBytes with
      | .error .sourceExcluded => (none, .resourceExcluded, length)
      | .error .sourceUnavailable => (none, .readError, length)
      | .ok source =>
        if 0 ∈ source then (none, .binaryExcluded, UInt64.ofNat source.length)
        else (some source, .read, UInt64.ofNat source.length)

/-! ## The extraction cache -/

/-- `extraction_cache_version`; the `i64` as its bytes. -/
def extractionCacheVersion (build : Build) : Bytes :=
  (build.hash (ascii "trufflepig-extraction-cache-v1" ++ extractionContractRevision
    ++ build.cargoLock)).bytes.take 8

/-- `SELECT facts FROM extraction_cache WHERE …`. -/
def findCached (cache : List CacheRow) (revision : ContentRevision) (grammar version : Bytes) :
    Option CacheRow :=
  cache.find? fun row => row.revision = revision ∧ row.grammar = grammar ∧ row.version = version

/-- `INSERT OR IGNORE INTO extraction_cache`. -/
def insertCached (cache : List CacheRow) (row : CacheRow) : List CacheRow :=
  match findCached cache row.revision row.grammar row.version with
  | some _ => cache
  | none => cache ++ [row]

/-- The rule for files with more than `MAX_FACTS` facts. -/
def limitFacts (extraction : Extraction) : Extraction :=
  if extraction.definitions.length + extraction.occurrences.length
      + extraction.relationships.length > maxFacts then
    { extraction with definitions := [], occurrences := [], relationships := [], status := .factLimit }
  else extraction

variable (build : Build) (parsers : Parsers) (previous : List CacheRow)

/-- The extraction of `cached_extraction` before the limit: the
cached one unless there is none or it was cancelled. -/
def recalledExtraction (path : Bytes) (revision : ContentRevision) (source : Bytes) :
    Except StoreError Extraction :=
  match findCached previous revision (extension path) (extractionCacheVersion build) with
  | none => .ok (extract parsers path source)
  | some row =>
    match build.extractions.decode row.facts with
    | none => .error .json
    | some extraction =>
      if extraction.status = .cancelled then .ok (extract parsers path source)
      else .ok extraction

/-- `cached_extraction`: the extraction and the staged cache. -/
def cachedExtraction (previous staged : List CacheRow)
    (path : Bytes) (revision : ContentRevision) (source : Bytes) :
    Except StoreError (Extraction × List CacheRow) := do
  let recalled ← recalledExtraction build parsers previous path revision source
  if (limitFacts recalled).status ≠ .cancelled then
    return (limitFacts recalled, insertCached staged
      ⟨revision, extension path, extractionCacheVersion build,
        build.extractions.encode (limitFacts recalled)⟩)
  else return (limitFacts recalled, staged)

/-! ## `stage` -/

/-- What a pass of the loop of `stage` finds out about a file. -/
structure ScannedFile where
  path : Bytes
  source : Option Bytes
  status : Status
  length : UInt64
  revision : Option ContentRevision
  extraction : Extraction

/-- What a pass of the loop feeds to the hasher (in `stage`). -/
def ScannedFile.hashed (file : ScannedFile) : Bytes :=
  leBytes 8 file.path.length ++ file.path ++ file.status.text ++ leBytes 8 file.length.toNat
    ++ (file.revision.map Digest.toHex).getD [] ++ file.extraction.status.text

/-- The row of `files` for a file. -/
def ScannedFile.row (file : ScannedFile) : FileRow where
  path := file.path
  revision := file.revision
  language := file.extraction.language
  status := file.extraction.status
  bytes := file.length

/-- The mutable state of `stage`: the counters, the bytes hashed so far, the
staging database, and the files whose facts it holds. -/
structure ScanState where
  coverage : Coverage
  hashed : Bytes
  staged : Staged
  scanned : List ScannedFile

/-- Reads a file and extracts its facts. -/
def scanFile (previous staged : List CacheRow)
    (entry : FileEntry) : Except StoreError (ScannedFile × List CacheRow) :=
  match readSource entry with
  | (some source, status, length) => do
    let (extraction, cache) ← cachedExtraction build parsers previous staged
      (encodePath entry.relative) (build.hash source) source
    return (⟨encodePath entry.relative, some source, status, length, some (build.hash source),
      extraction⟩, cache)
  | (none, status, length) =>
    .ok (⟨encodePath entry.relative, none, status, length, none,
      .empty (language (encodePath entry.relative)) status⟩, staged)

/-- The counters after a file. No extractor has the statuses
`ok` and `parsed` that the source also accepts. -/
def Coverage.count (coverage : Coverage) (file : ScannedFile) : Coverage :=
  let coverage := { coverage with
    totalFiles := coverage.totalFiles + 1
    truncatedFiles := coverage.truncatedFiles
      + if file.extraction.status = Status.factLimit then 1 else 0 }
  if file.source.isSome then
    { coverage with
      indexedFiles := coverage.indexedFiles + 1
      indexedBytes := coverage.indexedBytes + file.length.toNat
      parseFailures := coverage.parseFailures
        + if file.extraction.status ∈ [Status.complete, Status.lexicalOnly, Status.recovered] then 0
          else 1 }
  else { coverage with excludedFiles := coverage.excludedFiles + 1 }

/-- One entry of the walk. -/
def stageEntry (s : ScanState) : WalkEntry → Except StoreError ScanState
  | .failure =>
    .ok { s with coverage := { s.coverage with walkFailures := s.coverage.walkFailures + 1 } }
  | .other => .ok s
  | .file entry => do
    let (file, cache) ← scanFile build parsers previous s.staged.cache entry
    let files ← s.staged.files.insert file.row
    return {
      coverage := s.coverage.count file
      hashed := s.hashed ++ file.hashed
      staged := ⟨files, cache⟩
      scanned := s.scanned ++ [file] }

/-- The state of `stage` before the walk: the hasher has the schema tag, the
contract revision and the cache version. -/
def ScanState.start : ScanState where
  coverage := .default
  hashed := ascii "trufflepig-schema-1-extraction" ++ extractionContractRevision
    ++ extractionCacheVersion build
  staged := ⟨.empty, []⟩
  scanned := []

/-- `stage`: the state when the walk has ended. -/
def stage (build : Build) (parsers : Parsers) (previous : List CacheRow)
    (entries : List WalkEntry) : Except StoreError ScanState :=
  entries.foldlM (stageEntry build parsers previous) (ScanState.start build)

/-- Everything a scan has hashed when it computes its fingerprint. -/
def ScanState.preimage (s : ScanState) : Bytes := s.hashed ++ leBytes 8 s.coverage.walkFailures

/-- The fingerprint that `stage` returns. -/
def ScanState.fingerprint (s : ScanState) : Bytes :=
  (build.hash s.preimage).toHex

/-- What `resolved_fingerprint` hashes. -/
def resolvedPreimage (scanFingerprint resolverRevision : Bytes) : Bytes :=
  ascii "trufflepig-resolved-index-v1" ++ scanFingerprint ++ resolverRevision

/-- `resolved_fingerprint`. -/
def resolvedFingerprint (scanFingerprint resolverRevision : Bytes) : Bytes :=
  (build.hash (resolvedPreimage scanFingerprint resolverRevision)).toHex

/-! ## `index_leased` -/

/-- One call of `index`: the walk, the parsers' behaviour during it, whether the
resolvers succeed, and the clock and file system that `publish` consults. -/
structure IndexCall where
  entries : List WalkEntry
  parsers : Parsers
  resolves : Bool
  root : Bytes
  captureStartedMs : ℕ
  captureCompletedMs : ℕ
  now : ℕ
  lookup : Bytes → Bytes → Lookup

/-- The publication that `index_leased` builds (`store.rs`). -/
def IndexCall.publication (call : IndexCall) (db : Db) : Publication where
  indexEpoch := db.indexEpoch
  generation := db.generation + 1
  root := encodePath call.root
  captureStartedMs := call.captureStartedMs
  captureCompletedMs := max call.captureCompletedMs call.captureStartedMs

/-- How `index_leased` ends without an error: the fingerprint was unchanged, or
a new generation was published. -/
inductive IndexOutcome where
  | unchanged
  | published (db : Db)

/-- `index_leased` (`store.rs`) on the published database; its
scan is `stage` with the published extraction cache. -/
def indexLeased (build : Build) (call : IndexCall) (db : Db) : Except StoreError IndexOutcome := do
  let s ← stage build call.parsers db.cache call.entries
  let fingerprint := resolvedFingerprint build (s.fingerprint build) sharedResolverRevision
  if db.fingerprint = some fingerprint ∧ db.coverage.walkFailures = s.coverage.walkFailures ∧
      db.publication.isSome then
    return .unchanged
  else if call.resolves then
    let db ← publish build.changes call.lookup call.now s.staged s.coverage fingerprint
      (call.publication db) db
    return .published db
  else .error .resolver

/-! ## Runs -/

/-- One call of `index` on the database and the scans so far. A call that fails
or finds nothing new leaves the database as it was. -/
def indexStep (build : Build) (state : Db × List ScanState) (call : IndexCall) :
    Db × List ScanState :=
  match stage build call.parsers state.1.cache call.entries with
  | .error _ => state
  | .ok s =>
    match indexLeased build call state.1 with
    | .ok (.published db) => (db, state.2 ++ [s])
    | _ => (state.1, state.2 ++ [s])

/-- A run of `index` calls from a new database. -/
def indexRun (build : Build) (indexEpoch : Bytes) (calls : List IndexCall) : Db × List ScanState :=
  calls.foldl (indexStep build) (Db.create indexEpoch, [])

end Trufflepig.Store
