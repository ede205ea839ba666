import Trufflepig.Extract.Extraction
import Trufflepig.Lib.Fallible
import Trufflepig.Identity
import Trufflepig.Store.Paths

/-!
# The index database

The tables of `src/store/schema.rs` and the records of `src/store.rs` that the
scan and the publication read and write. A table is the list of its rows; a
`UNIQUE` or `PRIMARY KEY` constraint that later statements rely on is a field
of the table's type.
-/

namespace Trufflepig.Store

open List Lib Extract

/-- What the store's operations fail with: a path that does not decode, a
violated constraint, a stored text that `serde_json` cannot read, a
generation range that `observations_since` refuses, a failing resolver. -/
inductive StoreError where
  | path (error : PathError)
  | constraint
  | json
  | invalidGeneration
  | resolver
  deriving DecidableEq, Repr

/-- A row of `files`; its rowid is left out. The column `bytes` holds the `i64`
with the bits of the length. -/
structure FileRow where
  path : Bytes
  revision : Option ContentRevision
  language : SourceLanguage
  status : Status
  bytes : UInt64
  deriving DecidableEq

/-- The table `files`, with `path TEXT UNIQUE NOT NULL`. -/
structure FilesTable where
  rows : List FileRow
  unique : (rows.map FileRow.path).Nodup

namespace FilesTable

/-- A table without rows. -/
def empty : FilesTable := ⟨[], nodup_nil⟩

/-- The row of a path. -/
def find (table : FilesTable) (path : Bytes) : Option FileRow :=
  table.rows.find? (·.path = path)

/-- `INSERT INTO files`. -/
def insert (table : FilesTable) (row : FileRow) : Except StoreError FilesTable :=
  if h : row.path ∈ table.rows.map FileRow.path then .error .constraint
  else .ok ⟨table.rows ++ [row], by
    rw [map_append, nodup_append]
    refine ⟨table.unique, nodup_singleton _, ?_⟩
    intro a ha b hb heq
    have hrow : b = row.path := by simpa using hb
    exact h (hrow ▸ heq ▸ ha)⟩

variable {table : FilesTable}

theorem mem_of_find {path : Bytes} {row : FileRow} (h : table.find path = some row) :
    row ∈ table.rows ∧ row.path = path := by
  have := find?_some h
  exact ⟨mem_of_find?_eq_some h, by simpa using this⟩

theorem find_of_mem {row : FileRow} (h : row ∈ table.rows) :
    table.find row.path = some row := by
  obtain ⟨found, hfound⟩ : ∃ found, table.find row.path = some found := by
    rw [← Option.isSome_iff_exists, find, find?_isSome]
    exact ⟨row, h, by simp⟩
  obtain ⟨hmem, hpath⟩ := mem_of_find hfound
  rw [hfound, inj_on_of_nodup_map table.unique hmem h hpath]

end FilesTable

/-- A row of `extraction_cache`; `PRIMARY KEY(revision,grammar,version)`. The
version is an `i64`, kept as its little-endian bytes. -/
structure CacheRow where
  revision : ContentRevision
  grammar : Bytes
  version : Bytes
  facts : Bytes
  deriving DecidableEq

/-- `struct Coverage` (`store.rs`). -/
structure Coverage where
  totalFiles : ℕ
  indexedFiles : ℕ
  excludedFiles : ℕ
  parseFailures : ℕ
  semanticFiles : ℕ
  walkFailures : ℕ
  truncatedFiles : ℕ
  indexedBytes : ℕ
  deriving DecidableEq, Repr

/-- `Coverage::default()`. -/
def Coverage.default : Coverage := ⟨0, 0, 0, 0, 0, 0, 0, 0⟩

/-- `struct Publication` (`store.rs`). -/
structure Publication where
  indexEpoch : Bytes
  generation : ℤ
  root : Bytes
  captureStartedMs : ℕ
  captureCompletedMs : ℕ
  deriving DecidableEq

/-- A row of `publication_windows`. -/
structure Window where
  generation : ℤ
  complete : Bool
  deriving DecidableEq, Repr

/-- A row of `publication_observations`. -/
structure Observation where
  generation : ℤ
  path : Bytes
  value : Bytes
  deriving DecidableEq

/-- The two tables of `create_journal` (`store/publish.rs`). -/
structure Journal where
  windows : List Window
  observations : List Observation

/-- The published index: `files`, `extraction_cache`, the journal, and the keys
of `meta`. -/
structure Db where
  indexEpoch : Bytes
  generation : ℤ
  coverage : Coverage
  fingerprint : Option Bytes
  publication : Option Publication
  files : FilesTable
  cache : List CacheRow
  journal : Journal

/-- A database that `schema::create` and `create_journal` have just set up. -/
def Db.create (indexEpoch : Bytes) : Db where
  indexEpoch := indexEpoch
  generation := 0
  coverage := .default
  fingerprint := none
  publication := none
  files := .empty
  cache := []
  journal := ⟨[], []⟩

/-- The staging database, as far as publication copies it. -/
structure Staged where
  files : FilesTable
  cache : List CacheRow

end Trufflepig.Store
