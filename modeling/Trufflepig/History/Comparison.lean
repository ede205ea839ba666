import Trufflepig.History.Staging
import Trufflepig.Lib.Fallible
import Trufflepig.Lib.Groups
import Trufflepig.Lib.SortedTable
import Trufflepig.Lib.Sorting
import Trufflepig.Store.Paths

/-!
# Comparing Git trees

Model of `src/history/comparison.rs` and
`src/history/comparison/retained_changes.rs`. A tree is a `BTreeMap` from encoded
paths to files. The comparison gives the modified, deleted and added files, and
joins a deletion and an addition of one blob to a rename. Comparisons of full
roots are retained in the table `changes`.

Git (`ls-tree`), the JSON serialiser and the database are parameters.
-/

namespace Trufflepig.History

open Lib Store

/-- `struct TreeFile` (`comparison.rs`). -/
structure TreeFile where
  path : Bytes
  oid : GitOid
  mode : Bytes
  deriving DecidableEq

/-- The values of `FileChange::status`. -/
inductive ChangeStatus where
  | modified | renamedExactBlob | deleted | added | scopeBoundaryAdded | scopeBoundaryDeleted
  deriving DecidableEq, Repr

/-- The text of a status. -/
def ChangeStatus.text : ChangeStatus → Bytes
  | modified => ascii "modified"
  | renamedExactBlob => ascii "renamed_exact_blob"
  | deleted => ascii "deleted"
  | added => ascii "added"
  | scopeBoundaryAdded => ascii "scope_boundary_added"
  | scopeBoundaryDeleted => ascii "scope_boundary_deleted"

/-- `struct FileChange` (`comparison.rs`). -/
structure FileChange where
  before : Option TreeFile
  after : Option TreeFile
  status : ChangeStatus
  deriving DecidableEq

/-- `BTreeMap<String, TreeFile>`, every file under its path. -/
abbrev Tree := SortedTable TreeFile.path (· < ·)

/-! ## `parse_tree` -/

/-- `slice::split` at a byte. -/
def splitAtByte (separator : UInt8) : Bytes → List Bytes
  | [] => [[]]
  | b :: rest =>
    if b = separator then [] :: splitAtByte separator rest
    else
      match splitAtByte separator rest with
      | [] => [[b]]
      | piece :: pieces => (b :: piece) :: pieces

/-- `char::is_whitespace`: the Unicode property `White_Space`. -/
def isWhitespace (c : Char) : Bool :=
  9 ≤ c.toNat && c.toNat ≤ 13 || c.toNat = 32 || c.toNat = 0x85 || c.toNat = 0xa0 ||
    c.toNat = 0x1680 || 0x2000 ≤ c.toNat && c.toNat ≤ 0x200a || c.toNat = 0x2028 ||
    c.toNat = 0x2029 || c.toNat = 0x202f || c.toNat = 0x205f || c.toNat = 0x3000

/-- `str::split_whitespace`. -/
def splitWhitespace (text : List Char) : List Bytes :=
  ((text.splitOnP isWhitespace).filter fun field => !field.isEmpty).map encodeChars

/-- `std::str::from_utf8`. -/
def fromUtf8 (bytes : Bytes) : Except HistoryError (List Char) :=
  match (ByteArray.mk bytes.toArray).utf8Decode? with
  | some chars => .ok chars.toList
  | none => .error .invalidUtf8

variable (layout : Layout)

/-- The loop body of `parse_tree` on a record, the entries and the
bytes used. -/
def parseRecord (state : Tree × ℕ) (row : Bytes) : Except HistoryError (Tree × ℕ) :=
  match row.idxOf? 9 with
  | none => .error .malformedRecord
  | some split => do
    let header ← fromUtf8 (row.take split)
    match splitWhitespace header with
    | [mode, _, oid] =>
      if (row.drop (split + 1)).length ≤ pathBytes / 3 then do
        let path := encodePath (row.drop (split + 1))
        let used ← reserve treeBytes state.2
          (layout.capacity path + path.length + layout.treeFile + layout.string + 256)
        match GitOid.parse oid with
        | .error error => .error (.identity error)
        | .ok oid => .ok (state.1.insert ⟨path, oid, mode⟩, used)
      else .error .historicalPath
    | _ => .error .malformedEntry

/-- `parse_tree`. -/
def parseTree (data : Bytes) : Except HistoryError Tree := do
  let used ← reserve treeBytes 0 4096
  let state ← ((splitAtByte 0 data).filter fun row => !row.isEmpty).foldlM (parseRecord layout)
    (.empty, used)
  return state.1

/-! ## `compare_trees` -/

/-- The files of a change: `change.before.iter().chain(change.after.iter())`. -/
def FileChange.files (change : FileChange) : List TreeFile :=
  change.before.toList ++ change.after.toList

/-- `change_charge` (`retained_changes.rs`), for paths of the given
capacities. The other strings are exactly as long as their capacity. -/
def changeCharge (capacity : Bytes → ℕ) (change : FileChange) : Except HistoryError ℕ :=
  if change.files.all fun file => file.path.length ≤ pathBytes then
    .ok (2 * layout.fileChange + change.status.text.length
      + (change.files.map fun file => capacity file.path + file.mode.length).sum)
  else .error .cachedPath

/-- `push_change`, on the changes and the bytes used. -/
def pushChange (capacity : Bytes → ℕ) (state : List FileChange × ℕ)
    (change : FileChange) : Except HistoryError (List FileChange × ℕ) := do
  let charge ← changeCharge layout capacity change
  let used ← reserve changeBytes state.2 charge
  return (state.1 ++ [change], used)

/-- The state of the first loop of `compare_trees`: `new`, `deleted`, `changes`
with its budget, and the auxiliary budget. -/
structure CompareState where
  fresh : Tree
  deleted : List TreeFile
  changes : List FileChange × ℕ
  auxiliary : ℕ

/-- `auxiliary_per_file` (in `compare_trees`). -/
def auxiliaryPerFile : ℕ := 2 * layout.treeFile + 256

/-- The body of the loop over the old files in `compare_trees`. -/
def compareFile (s : CompareState) (file : TreeFile) : Except HistoryError CompareState :=
  match s.fresh.find file.path with
  | some next =>
    if next.oid = file.oid ∧ next.mode = file.mode then
      .ok { s with fresh := s.fresh.remove file.path }
    else do
      let changes ← pushChange layout layout.capacity s.changes ⟨some file, some next, .modified⟩
      return { s with fresh := s.fresh.remove file.path, changes := changes }
  | none => do
    let auxiliary ← reserve auxiliaryBytes s.auxiliary (auxiliaryPerFile layout)
    return { s with deleted := s.deleted ++ [file], auxiliary := auxiliary }

/-- `usize::checked_mul` and the reservation for the additions. -/
def reserveAdded (used count : ℕ) : Except HistoryError ℕ :=
  if count * auxiliaryPerFile layout < 2 ^ 64 then
    reserve auxiliaryBytes used (count * auxiliaryPerFile layout)
  else .error .countOverflow

/-- `old_counts` and `new_indexes`: the indexes of the files with an
id. Their number and the first of them are what the source keeps. -/
def oidIndexes (files : List TreeFile) : Groups GitOid :=
  groupBy (fun index => files[index]?.map (·.oid)) (List.range files.length)

/-- `rename`: the one addition with the id of a file that is the one
deletion with it, if it is still there and has the file's mode. -/
def findRename (deleted additions : List TreeFile) (slots : ℕ → Option TreeFile)
    (file : TreeFile) : Option ℕ :=
  match getEntry (oidIndexes additions) file.oid with
  | some [index] =>
    if (getEntry (oidIndexes deleted) file.oid).map List.length = some 1 ∧
        (slots index).any (·.mode = file.mode) then some index
    else none
  | _ => none

/-- The body of the loop over the deleted files, on the changes and on `added`. -/
def compareDeleted (deleted additions : List TreeFile)
    (s : (List FileChange × ℕ) × (ℕ → Option TreeFile)) (file : TreeFile) :
    Except HistoryError ((List FileChange × ℕ) × (ℕ → Option TreeFile)) :=
  match findRename deleted additions s.2 file with
  | some index => do
    let changes ← pushChange layout layout.capacity s.1 ⟨some file, s.2 index, .renamedExactBlob⟩
    return (changes, Function.update s.2 index none)
  | none => do
    let changes ← pushChange layout layout.capacity s.1 ⟨some file, none, .deleted⟩
    return (changes, s.2)

/-- `Option<&String>::cmp` of the paths by which changes are sorted. -/
def FileChange.sortPath (change : FileChange) : Option Bytes :=
  (change.after.or change.before).map (·.path)

/-- The order of the paths; `None` is least. -/
def sortBefore (a b : FileChange) : Bool :=
  match a.sortPath, b.sortPath with
  | none, _ => true
  | some _, none => false
  | some p, some q => p ≤ q

/-- `compare_trees`. -/
def compareTrees (old new : Tree) : Except HistoryError (List FileChange) := do
  let auxiliary ← reserve auxiliaryBytes 0 (64 * 1024)
  let s ← old.rows.foldlM (compareFile layout) ⟨new, [], ([], 0), auxiliary⟩
  let _ ← reserveAdded layout s.auxiliary s.fresh.rows.length
  let additions := s.fresh.rows
  let (changes, slots) ← s.deleted.foldlM (compareDeleted layout s.deleted additions)
    (s.changes, fun index => additions[index]?)
  let (changes, _) ← ((List.range additions.length).filterMap slots).foldlM
    (fun changes file => pushChange layout layout.capacity changes ⟨none, some file, .added⟩) changes
  return changes.mergeSort sortBefore

/-! ## Retained changes -/

/-- `decode_changes`. The strings that the decoder makes are as
long as their capacity. -/
def decodeChanges (codec : Codec (List FileChange)) (payload : Bytes) :
    Except HistoryError (List FileChange) :=
  if payload.length ≤ cacheBytes then
    match codec.decode payload with
    | none => .error .malformedPayload
    | some changes => do
      let (changes, _) ← changes.foldlM (pushChange layout List.length) ([], 0)
      return changes
  else .error .cachedPayload

/-! ## Scoping to a root -/

/-- `str::strip_prefix`. -/
def stripPrefix (start text : Bytes) : Option Bytes :=
  if start <+: text then some (text.drop start.length) else none

/-- `scope_file` (`comparison.rs`), for `root_prefix`. -/
def scopeFile (rootPrefix : Bytes) (file : TreeFile) : Option TreeFile :=
  (stripPrefix (encodePath rootPrefix) file.path).map fun path => { file with path := path }

/-- `tree` on the tree of the whole repository. -/
def scopeTree (rootPrefix : Bytes) (tree : Tree) : Tree :=
  (tree.rows.filterMap (scopeFile rootPrefix)).foldl SortedTable.insert .empty

/-- The closure of `compare` that scopes a change. -/
def scopeChange (rootPrefix : Bytes) (change : FileChange) : Option FileChange :=
  let before := change.before.bind (scopeFile rootPrefix)
  let after := change.after.bind (scopeFile rootPrefix)
  if before.isNone ∧ after.isNone then none
  else
    some ⟨before, after,
      if change.status = .renamedExactBlob ∧ (before.isNone ∨ after.isNone) then
        if before.isNone then .scopeBoundaryAdded else .scopeBoundaryDeleted
      else change.status⟩

/-! ## `compare` -/

/-- The table `changes`: payloads by `before_oid` and `after_oid`. -/
abbrev ChangesTable := Bytes × Bytes → Option Bytes

/-- A call of `compare`, with the outcomes of what it does outside: reading and
writing the table, the write lease, the free capacity, and Git. -/
structure CompareCall where
  before : Option GitOid
  after : GitOid
  rootPrefix : Bytes
  queryFails : Bool
  leaseFails : Bool
  insertFails : Bool
  hasCapacity : Bool
  gitFails : GitOid → Bool

/-- `before_key` and the id after. -/
def CompareCall.key (call : CompareCall) : Bytes × Bytes :=
  ((call.before.map (·.text)).getD [], call.after.text)

/-- What calls of `compare` share: the serialiser, the layout, and the listings
that `git ls-tree -rz --full-tree` prints for the commits of the repository. -/
structure CompareEnv where
  layout : Layout
  codec : Codec (List FileChange)
  listing : GitOid → Bytes

variable (env : CompareEnv)

/-- `tree_unscoped`. -/
def treeUnscoped (gitFails : GitOid → Bool) : Option GitOid → Except HistoryError Tree
  | none => .ok .empty
  | some revision =>
    if gitFails revision then .error .git else parseTree env.layout (env.listing revision)

/-- The changes computed from the trees (in `compare`). -/
def computeChanges (call : CompareCall) : Except HistoryError (List FileChange) := do
  let old ← treeUnscoped env call.gitFails call.before
  let new ← treeUnscoped env call.gitFails (some call.after)
  compareTrees env.layout old new

/-- The cached payload. -/
def retainedPayload (table : ChangesTable) (call : CompareCall) : Option Bytes :=
  match table call.key with
  | some payload => if payload.length ≤ 8388608 then some payload else none
  | none => none

/-- Retaining computed changes. -/
def retainChanges (table : ChangesTable) (call : CompareCall) (changes : List FileChange) :
    Except HistoryError (List FileChange) × ChangesTable :=
  if call.leaseFails then (.error .lease, table)
  else if (env.codec.encode changes).length ≤ cacheBytes ∧ call.hasCapacity then
    if call.insertFails then (.error .database, table)
    else
      (.ok changes,
        match table call.key with
        | some _ => table
        | none => Function.update table call.key (some (env.codec.encode changes)))
  else (.ok changes, table)

/-- `compare`: the result, and the table after it. -/
def compare (table : ChangesTable) (call : CompareCall) :
    Except HistoryError (List FileChange) × ChangesTable :=
  if call.rootPrefix.isEmpty then
    if call.queryFails then (.error .database, table)
    else
      match retainedPayload table call with
      | some payload => (decodeChanges env.layout env.codec payload, table)
      | none =>
        match computeChanges env call with
        | .error error => (.error error, table)
        | .ok changes => retainChanges env table call changes
  else ((computeChanges env call).map (·.filterMap (scopeChange call.rootPrefix)), table)

/-- The table after calls, from an empty one. -/
def compareRun (calls : List CompareCall) : ChangesTable :=
  calls.foldl (fun table call => (compare env table call).2) fun _ => none

end Trufflepig.History
