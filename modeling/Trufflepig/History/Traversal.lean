import Trufflepig.History.CommitGraph
import Trufflepig.History.Comparison

/-!
# Indexing the first-parent history

Model of `index`, `index_batch` and `schedule` of `src/history/storage.rs`
and of `first_parent` of `src/history/commands.rs`. A call adds
one batch of the commits of `git log --first-parent` to the traversal of its tip,
in one transaction. The next call goes on at the parent of the last commit.

Every statement, every run of Git and the lease may fail with a message of its
own (`IndexCall.fault`). The summaries of commits are not modelled, and neither are
the size of the database and the eviction of retained changes in `capacity`.
-/

namespace Trufflepig.History

open Lib

/-- `MAX_COMMITS`. -/
def maxCommits : ℕ := 20000

/-! ## The database -/

/-- The values of the column `failure`. -/
inductive FailureCategory where
  | resourceLimited | unavailable
  deriving DecidableEq, Repr

/-- The values of the column `boundary`. -/
inductive Boundary where
  | pending | indexing | depthLimited | shallowBoundary | root
  | failed (category : FailureCategory)
  deriving DecidableEq, Repr

/-- A row of `commits`, without its summary. -/
structure CommitRow where
  parent : Option Bytes
  time : ℤ
  deriving DecidableEq

/-- A row of `traversal`. -/
structure TraversalRow where
  oid : Bytes
  eligible : Bool
  deriving DecidableEq

/-- A row of `views`. -/
structure ViewRow where
  tip : Bytes
  cutoff : ℤ
  created : ℤ
  updated : ℤ
  visited : ℕ
  complete : Bool
  boundary : Boundary
  failure : Option FailureCategory
  deriving DecidableEq

/-- The tables of the cache: `commits` by `oid`, `views` by `tip`, and `traversal`
by `tip` and `depth`. -/
structure HistoryDb where
  commits : Bytes → Option CommitRow
  views : SortedTable ViewRow.tip (· < ·)
  traversal : Bytes → ℕ → Option TraversalRow

/-- The tables of a new cache. -/
def HistoryDb.empty : HistoryDb := ⟨fun _ => none, .empty, fun _ _ => none⟩

/-- `INSERT OR IGNORE INTO views(tip,cutoff,created,updated)`. -/
def insertView (db : HistoryDb) (tip : Bytes) (time : ℤ) : HistoryDb :=
  match db.views.find tip with
  | some _ => db
  | none =>
    { db with
      views := db.views.insert
        ⟨tip, time - 2 * 365 * 86400, time, time, 0, false, .pending, none⟩ }

/-- `UPDATE views SET … WHERE tip=?1`. -/
def updateView (db : HistoryDb) (tip : Bytes) (set : ViewRow → ViewRow) : HistoryDb :=
  match db.views.find tip with
  | some view => { db with views := db.views.insert { set view with tip := tip } }
  | none => db

/-- `INSERT OR IGNORE INTO commits`. -/
def insertCommit (db : HistoryDb) (oid : Bytes) (row : CommitRow) : HistoryDb :=
  match db.commits oid with
  | some _ => db
  | none => { db with commits := Function.update db.commits oid (some row) }

/-- `INSERT OR REPLACE INTO traversal`. -/
def replaceTraversal (db : HistoryDb) (tip : Bytes) (depth : ℕ) (row : TraversalRow) : HistoryDb :=
  { db with
    traversal :=
      Function.update db.traversal tip (Function.update (db.traversal tip) depth (some row)) }

/-- `SELECT tip FROM views WHERE updated<?1 ORDER BY updated LIMIT 1`. -/
def obsoleteTip (db : HistoryDb) (limit : ℤ) : Option Bytes :=
  (((db.views.rows.filter fun view => view.updated < limit).mergeSort
    fun a b => a.updated ≤ b.updated).head?).map (·.tip)

/-- `DELETE FROM traversal WHERE tip=?1` and `DELETE FROM views WHERE tip=?1`. -/
def deleteView (db : HistoryDb) (tip : Bytes) : HistoryDb :=
  { db with
    views := db.views.remove tip
    traversal := Function.update db.traversal tip fun _ => none }

/-! ## Calls -/

/-- What may fail in a call. -/
inductive IndexStep where
  | lease | insertView | touchView | selectView | capacity | selectParent | finishRoot | log
  | shallow | catFile | beginTransaction | insertCommit (depth : ℕ) | insertTraversal (depth : ℕ)
  | updateView | selectObsolete | deleteTraversal | deleteView | commit | recordFailure
  deriving DecidableEq

/-- A call of `index`: the tip, the clock as it is read at the start, when the view
is updated and when obsolete views are looked for, and the message with which a
step fails. -/
structure IndexCall where
  tip : GitOid
  time : ℤ
  updated : ℤ
  obsolete : ℤ
  fault : IndexStep → Option String

/-- The repository: its commits, whether it is a shallow clone, and the commit
objects that `git cat-file commit` prints. -/
structure Repository where
  graph : CommitGraph
  shallow : Bool
  object : GitOid → Bytes

/-- A step that does nothing else that is modelled. -/
def IndexCall.attempt (call : IndexCall) (step : IndexStep) : Except HistoryError Unit :=
  match call.fault step with
  | some message => .error (.external message)
  | none => .ok ()

/-- `GitOid::parse` on a text. -/
def parseOid (text : Bytes) : Except HistoryError GitOid :=
  match GitOid.parse text with
  | .ok oid => .ok oid
  | .error error => .error (.identity error)

/-- `str::parse::<i64>`. -/
def parseI64 (text : List Char) : Except HistoryError ℤ :=
  let digits := fun (digits : List Char) =>
    if digits ≠ [] ∧ digits.all Char.isDigit then some (Nat.ofDigitChars 10 digits 0) else none
  let value : Option ℤ :=
    match text with
    | '-' :: rest => (digits rest).map fun n => -(n : ℤ)
    | '+' :: rest => (digits rest).map fun n => (n : ℤ)
    | _ => (digits text).map fun n => (n : ℤ)
  match value with
  | some n => if -2 ^ 63 ≤ n ∧ n < 2 ^ 63 then .ok n else .error .invalidNumber
  | none => .error .invalidNumber

/-! ## `index_batch` -/

variable (repository : Repository) (call : IndexCall) (db : HistoryDb)

/-- `commands::first_parent`: the parent that the commit object names. -/
def rawFirstParent (oid : GitOid) : Except HistoryError (Option GitOid) := do
  call.attempt .catFile
  let lines := (splitAtByte 10 (repository.object oid)).takeWhile fun line => !line.isEmpty
  match lines.findSome? (stripPrefix (ascii "parent ")) with
  | none => return none
  | some parent => do
    let _ ← fromUtf8 parent
    return some (← parseOid parent)

/-- `start`: the tip, or the parent of the last commit. -/
def batchStart (visited : ℕ) : Except HistoryError (Option Bytes) :=
  if visited = 0 then .ok (some call.tip.text)
  else do
    call.attempt .selectParent
    match db.traversal call.tip.text (visited - 1) with
    | none => .error .noRows
    | some row =>
      match db.commits row.oid with
      | none => .error .noRows
      | some commit => .ok commit.parent

/-- The fields of the log (in `index_batch`). -/
def batchFields (start : Bytes) (visited : ℕ) : Except HistoryError (List Bytes) := do
  call.attempt .log
  match gitLog repository.graph start (min 129 (maxCommits - visited + 1)) with
  | none => .error .git
  | some bytes =>
    let fields := splitAtByte 0 bytes
    if fields.length % 4 = 1 ∧ fields.getLast? = some [] then .ok fields
    else .error .malformedTraversal

/-- What a batch is about to write: the fields, how many commits they list, how
many of them it takes, and whether the traversal is finished with them. -/
structure Batch where
  fields : List Bytes
  total : ℕ
  count : ℕ
  stop : ℕ
  finished : Bool

/-- Lines 154–157. -/
def planBatch (fields : List Bytes) (visited : ℕ) : Batch :=
  let total := fields.length / 4
  let count := min (min 128 total) (maxCommits - visited)
  let stop := visited + count
  ⟨fields, total, count, stop, count = total || stop = maxCommits⟩

/-- `last_parent`. -/
def lastParent (batch : Batch) : Except HistoryError (Option GitOid) := do
  call.attempt .shallow
  if repository.shallow ∧ batch.finished ∧ batch.count = batch.total ∧ batch.total > 0 then do
    let text := batch.fields.getD ((batch.total - 1) * 4) []
    let _ ← fromUtf8 text
    rawFirstParent repository call (← parseOid text)
  else return none

/-- `boundary`. -/
def batchBoundary (batch : Batch) (last : Option GitOid) : Boundary :=
  if !batch.finished then .indexing
  else if batch.stop = maxCommits ∧ batch.total > batch.count then .depthLimited
  else if last.isSome then .shallowBoundary
  else .root

/-- The body of the loop over the commits of a batch. The fields of a commit that the batch takes
are there. -/
def writeCommit (cutoff : ℤ) (visited : ℕ) (batch : Batch)
    (last : Option GitOid) (db : HistoryDb) (depth : ℕ) : Except HistoryError HistoryDb :=
  let index := depth - visited
  match (batch.fields.drop (index * 4)).take 4 with
  | [oid, parents, time, _] => do
    let _ ← fromUtf8 oid
    let _ ← parseOid oid
    let names ← fromUtf8 parents
    let parent := (splitWhitespace names).head?.or
      (if index + 1 = batch.total then last.map (·.text) else none)
    let digits ← fromUtf8 time
    let timestamp ← parseI64 digits
    call.attempt (.insertCommit depth)
    let db := insertCommit db oid ⟨parent, timestamp⟩
    call.attempt (.insertTraversal depth)
    return replaceTraversal db call.tip.text depth ⟨oid, timestamp ≥ cutoff⟩
  | _ => .error .malformedTraversal

/-- The view after a batch. -/
def batchView (batch : Batch) (last : Option GitOid) (view : ViewRow) : ViewRow :=
  { view with
    visited := batch.stop
    complete := batch.finished
    boundary := batchBoundary batch last
    updated := call.updated
    failure := none }

/-- Deletes a view that was not updated for thirty days. -/
def deleteObsolete : Except HistoryError HistoryDb :=
  match obsoleteTip db (call.obsolete - 30 * 86400) with
  | none => .ok db
  | some tip => do
    call.attempt .deleteTraversal
    call.attempt .deleteView
    return deleteView db tip

/-- The transaction. -/
def writeBatch (cutoff : ℤ) (visited : ℕ) (batch : Batch)
    (last : Option GitOid) (db : HistoryDb) : Except HistoryError HistoryDb := do
  call.attempt .beginTransaction
  let db ← (List.range' visited batch.count).foldlM
    (writeCommit call cutoff visited batch last) db
  call.attempt .updateView
  let db := updateView db call.tip.text (batchView call batch last)
  call.attempt .selectObsolete
  let db ← deleteObsolete call db
  call.attempt .commit
  return db

/-- `index_batch`. It writes in one transaction, so that a failure
leaves the tables as they were. -/
def indexBatch : Except HistoryError HistoryDb := do
  call.attempt .selectView
  match db.views.find call.tip.text with
  | none => .error .noRows
  | some view =>
    if view.complete then return db
    else do
      call.attempt .capacity
      match ← batchStart call db view.visited with
      | none => do
        call.attempt .finishRoot
        return updateView db call.tip.text fun view =>
          { view with complete := true, boundary := .root }
      | some start => do
        let fields ← batchFields repository call start view.visited
        let batch := planBatch fields view.visited
        let last ← lastParent repository call batch
        writeBatch call view.cutoff view.visited batch last db

/-! ## `index` and `schedule` -/

/-- `error.to_string().contains("resource")`. The messages that the model leaves out
do not contain it. -/
def failureCategory (error : HistoryError) : FailureCategory :=
  match error.message with
  | some message =>
    if "resource".toList <:+: message.toList then .resourceLimited else .unavailable
  | none => .unavailable

/-- The tables when a call has found or made its view (in `index`). -/
def touched : HistoryDb :=
  updateView (insertView db call.tip.text call.time) call.tip.text fun view =>
    { view with updated := call.time }

/-- The tables when a failure is recorded. -/
def recorded (category : FailureCategory) (db : HistoryDb) : HistoryDb :=
  updateView db call.tip.text fun view =>
    { view with
      failure := some category
      boundary := .failed category
      updated := call.time }

/-- `index`: whether it succeeds, and the tables after it. -/
def index (repository : Repository) (call : IndexCall) (db : HistoryDb) :
    Except HistoryError Unit × HistoryDb :=
  match call.attempt .lease, call.attempt .insertView, call.attempt .touchView with
  | .error error, _, _ => (.error error, db)
  | _, .error error, _ => (.error error, db)
  | _, _, .error error => (.error error, insertView db call.tip.text call.time)
  | .ok (), .ok (), .ok () =>
    match indexBatch repository call (touched call db) with
    | .ok db' => (.ok (), db')
    | .error error =>
      match call.attempt .recordFailure with
      | .error error => (.error error, touched call db)
      | .ok () => (.ok (), recorded call (failureCategory error) (touched call db))

/-- `schedule`. -/
def schedule (call : IndexCall) (db : HistoryDb) : Except HistoryError Unit × HistoryDb :=
  let tip := call.tip.text
  match call.attempt .capacity, call.attempt .insertView, call.attempt .touchView with
  | .error error, _, _ => (.error error, db)
  | _, .error error, _ => (.error error, db)
  | _, _, .error error => (.error error, insertView db tip call.time)
  | .ok (), .ok (), .ok () =>
    (.ok (), updateView (insertView db tip call.time) tip fun view =>
      if view.complete then { view with updated := call.time } else view)

/-- What a process does to the tables. -/
inductive HistoryCall where
  | index (call : IndexCall)
  | schedule (call : IndexCall)

/-- The tables after a call. -/
def HistoryCall.run : HistoryCall → HistoryDb
  | .index call => (History.index repository call db).2
  | .schedule call => (History.schedule call db).2

/-- The tables after calls, from a new cache. -/
def historyRun (repository : Repository) (calls : List HistoryCall) : HistoryDb :=
  calls.foldl (HistoryCall.run repository) .empty

end Trufflepig.History
