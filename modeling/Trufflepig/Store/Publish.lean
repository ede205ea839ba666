import Trufflepig.Lib.Delta
import Trufflepig.Lib.Sorting
import Trufflepig.Store.Schema

/-!
# Publication of a staged index and its journal

Model of `src/store/publish.rs`. `publish` replaces the published tables by the
staged ones in one transaction and appends to the journal what changed between
the two `files` tables; `observations_since` reads the journal back.

The file system is consulted for one thing only, the kind of a change whose
path has left the table; `lookup root path` is that call of `symlink_metadata`. The JSON
text of a change is a `Codec`.
-/

namespace Trufflepig.Store

open Lib Extract

/-- `MAX_OBSERVATIONS`. -/
def maxObservations : ℕ := 4096

/-- `MAX_JOURNAL_BYTES`. -/
def maxJournalBytes : ℕ := 4 * 1024 * 1024

/-- `MAX_WINDOWS`. -/
def maxWindows : ℤ := 256

/-- The values of `PublicationChange::kind`. -/
inductive ChangeKind where
  | added | ignoredOrExcluded | deleted | coverageUnknown | coverageChanged | modified
  deriving DecidableEq, Repr

/-- `struct PublicationChange` (`store.rs`). -/
structure PublicationChange where
  generation : ℤ
  path : Bytes
  beforeRevision : Option ContentRevision
  afterRevision : Option ContentRevision
  beforeStatus : Option Status
  afterStatus : Option Status
  kind : ChangeKind
  deriving DecidableEq

/-- `struct PublicationObservations` (`store.rs`). -/
structure PublicationObservations where
  fromGeneration : ℤ
  toGeneration : ℤ
  retainedGenerationFloor : ℤ
  complete : Bool
  changes : List PublicationChange

/-- The outcome of `symlink_metadata`: found, an error of kind `NotFound`, or
another error. -/
inductive Lookup where
  | found | notFound | failed
  deriving DecidableEq, Repr

/-! ## The query for differences -/

/-- A row of the query of `append_observations`: path, revision before and
after, status before and after. -/
structure DiffRow where
  path : Bytes
  before : Option ContentRevision
  after : Option ContentRevision
  beforeStatus : Option Status
  afterStatus : Option Status

/-- The first branch of the union: a published row without a staged partner, or
whose partner differs in revision, status or length. -/
def changedRow (staged : FilesTable) (f : FileRow) : Option DiffRow :=
  match staged.find f.path with
  | none => some ⟨f.path, f.revision, none, some f.status, none⟩
  | some n =>
    if f.revision ≠ n.revision ∨ f.status ≠ n.status ∨ f.bytes ≠ n.bytes then
      some ⟨f.path, f.revision, n.revision, some f.status, some n.status⟩
    else none

/-- The second branch of the union: a staged row without a published partner. -/
def addedRow (files : FilesTable) (n : FileRow) : Option DiffRow :=
  match files.find n.path with
  | none => some ⟨n.path, none, n.revision, none, some n.status⟩
  | some _ => none

/-- Every row of the query, `ORDER BY 1` and before its `LIMIT`. -/
def diffRows (files staged : FilesTable) : List DiffRow :=
  (files.rows.filterMap (changedRow staged) ++ staged.rows.filterMap (addedRow files)).mergeSort
    fun a b => a.path ≤ b.path

/-! ## `append_observations` -/

/-- The kind of a change (in `append_observations`). -/
def changeKind (lookup : Bytes → Bytes → Lookup) (root : Bytes) (row : DiffRow) :
    Except PathError ChangeKind :=
  if row.beforeStatus.isNone then .ok .added
  else if row.afterStatus.isNone then do
    let relative ← decodePath row.path
    return match lookup root relative with
      | .found => .ignoredOrExcluded
      | .notFound => .deleted
      | .failed => .coverageUnknown
  else if row.beforeStatus ≠ row.afterStatus ∨ row.before.isSome ≠ row.after.isSome then
    .ok .coverageChanged
  else .ok .modified

/-- The change that a row of the query describes. -/
def describeRow (lookup : Bytes → Bytes → Lookup) (root : Bytes) (generation : ℤ) (row : DiffRow) :
    Except StoreError PublicationChange := do
  let kind ← (changeKind lookup root row).mapError .path
  return ⟨generation, row.path, row.before, row.after, row.beforeStatus, row.afterStatus, kind⟩

/-- `INSERT INTO publication_observations`; `PRIMARY KEY(generation,path)`. -/
def insertObservation (table : List Observation) (row : Observation) :
    Except StoreError (List Observation) :=
  if table.any (fun o => o.generation = row.generation ∧ o.path = row.path) then
    .error .constraint
  else .ok (table ++ [row])

/-- The loop over the rows of the query with its counters
`bytes` and `count`; the result is the table and the flag `complete`. -/
def appendRows (codec : Codec PublicationChange) (lookup : Bytes → Bytes → Lookup) (root : Bytes)
    (generation : ℤ) :
    List DiffRow → ℕ → ℕ → List Observation → Except StoreError (List Observation × Bool)
  | [], _, _, table => .ok (table, true)
  | row :: rows, bytes, count, table => do
    let change ← describeRow lookup root generation row
    if count = maxObservations ∨
        bytes + ((codec.encode change).length + row.path.length) > maxJournalBytes then
      return (table, false)
    else
      let table ← insertObservation table ⟨generation, row.path, codec.encode change⟩
      appendRows codec lookup root generation rows
        (bytes + ((codec.encode change).length + row.path.length)) (count + 1) table

/-- `INSERT INTO publication_windows`; `generation INTEGER PRIMARY KEY`. -/
def insertWindow (table : List Window) (row : Window) : Except StoreError (List Window) :=
  if table.any (fun w => w.generation = row.generation) then .error .constraint
  else .ok (table ++ [row])

/-- `DELETE FROM publication_windows WHERE generation<=?1`. -/
def dropExpired (generation : ℤ) (windows : List Window) : List Window :=
  windows.filter fun w => ¬ w.generation ≤ generation - maxWindows

/-- `DELETE FROM publication_observations WHERE generation NOT IN (SELECT
generation FROM publication_windows)`. -/
def dropOrphans (windows : List Window) (observations : List Observation) : Journal where
  windows := windows
  observations := observations.filter fun o => o.generation ∈ windows.map Window.generation

/-- `sum(length(value) + length(path))`, zero for an empty table. -/
def observationBytes (observations : List Observation) : ℕ :=
  (observations.map fun o => o.value.length + o.path.length).sum

/-- The condition under which the eviction loop stops. -/
def Journal.Fits (journal : Journal) : Prop :=
  journal.observations.length ≤ maxObservations ∧
    observationBytes journal.observations ≤ maxJournalBytes

instance (journal : Journal) : Decidable journal.Fits := inferInstanceAs (Decidable (_ ∧ _))

/-- `DELETE FROM publication_windows WHERE generation=(SELECT min(generation)
FROM publication_windows)`. -/
def dropOldest (windows : List Window) : List Window :=
  windows.filter fun w => some w.generation ≠ (windows.map Window.generation).min?

theorem dropOldest_length_lt {windows : List Window} (h : windows ≠ []) :
    (dropOldest windows).length < windows.length := by
  obtain ⟨g, hg⟩ : ∃ g, (windows.map Window.generation).min? = some g := by
    rw [← Option.isSome_iff_exists, List.isSome_min?_iff]
    simpa using h
  obtain ⟨w, hw, hwg⟩ := List.mem_map.mp (List.min?_mem hg)
  apply List.length_filter_lt_length_iff_exists.mpr
  exact ⟨w, hw, by simp [hg, hwg]⟩

/-- The eviction loop. -/
def evict (journal : Journal) : Journal :=
  if journal.Fits then journal
  else evict (dropOrphans (dropOldest journal.windows) journal.observations)
termination_by journal.windows.length + journal.observations.length
decreasing_by
  rename_i hfits
  have hobs : ((dropOrphans (dropOldest journal.windows) journal.observations).observations).length
      ≤ journal.observations.length := List.length_filter_le _ _
  by_cases hw : journal.windows = []
  · -- without windows one round deletes every observation
    have hne : journal.observations ≠ [] := by
      intro hnil
      exact hfits (by simp [Journal.Fits, hnil, observationBytes])
    have hpos := List.length_pos_iff.mpr hne
    simpa [dropOrphans, dropOldest, hw] using hpos
  · have := dropOldest_length_lt hw
    show (dropOldest journal.windows).length + _ < _
    omega

/-- `append_observations`. -/
def appendObservations (codec : Codec PublicationChange) (lookup : Bytes → Bytes → Lookup)
    (publication : Publication) (files staged : FilesTable) (journal : Journal) :
    Except StoreError Journal := do
  let root ← (decodePath publication.root).mapError .path
  let (observations, complete) ← appendRows codec lookup root publication.generation
    ((diffRows files staged).take (maxObservations + 1)) 0 0 journal.observations
  let windows ← insertWindow journal.windows ⟨publication.generation, complete⟩
  return evict (dropOrphans (dropExpired publication.generation windows) observations)

/-! ## `publish` and `observations_since` -/

/-- `publish`: the database after the transaction commits.
`now` is the clock read inside the transaction. -/
def publish (codec : Codec PublicationChange) (lookup : Bytes → Bytes → Lookup) (now : ℕ)
    (staged : Staged) (coverage : Coverage) (fingerprint : Bytes) (publication : Publication)
    (db : Db) : Except StoreError Db := do
  let journal ← appendObservations codec lookup publication db.files staged.files db.journal
  return { db with
    generation := db.generation + 1
    coverage := coverage
    fingerprint := some fingerprint
    publication := some { publication with
      captureCompletedMs := max now publication.captureStartedMs }
    files := staged.files
    cache := staged.cache
    journal := journal }

/-- `ORDER BY generation,path`. -/
def observationOrder (a b : Observation) : Prop :=
  a.generation < b.generation ∨ a.generation = b.generation ∧ a.path ≤ b.path

instance : DecidableRel observationOrder := fun _ _ => inferInstanceAs (Decidable (_ ∨ _))

/-- `observations_since` from `first` to `last`; `min(complete)`
over no window is 1. -/
def observationsSince (codec : Codec PublicationChange) (journal : Journal) (first last : ℤ) :
    Except StoreError PublicationObservations :=
  if 0 ≤ first ∧ first ≤ last then
    let windows := journal.windows.filter fun w => InWindow first last w.generation
    let observations := (journal.observations.filter fun o => InWindow first last o.generation)
      |>.mergeSort fun a b => observationOrder a b
    match observations.mapM fun o => codec.decode o.value with
    | none => .error .json
    | some changes => .ok
      { fromGeneration := first
        toGeneration := last
        retainedGenerationFloor := (journal.windows.map Window.generation).min?.getD (last + 1)
        complete := windows.all Window.complete && (windows.length : ℤ) == last - first
        changes := changes }
  else .error .invalidGeneration

end Trufflepig.Store
