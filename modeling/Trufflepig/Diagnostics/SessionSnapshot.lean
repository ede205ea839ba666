import Trufflepig.History.FingerprintsSpec
import Trufflepig.Lib.SortedTable
import Trufflepig.Store.Publish

/-!
# Comparing the snapshots of a session (`diagnostics/sessions/session_snapshot.rs`)

A session keeps the revision, the status and the fingerprints of every file, and is compared with
the snapshot at its end. The sizes of the changes as JSON, the diff library and the order in which
a hash map is visited are parameters.

* `sourceChanges_ok`, `factChanges_ok`: the details of two captured files can be compared.
-/

namespace Trufflepig.Diagnostics

open Lib Extract History Store

/-- What a capture or a comparison fails with. -/
inductive SessionError where
  | otherRoot
  | occurrenceSpan
  | fingerprint (error : FingerprintError)
  deriving DecidableEq, Repr

/-- The message of an error. -/
def SessionError.message : SessionError → String
  | otherRoot => "session belongs to another root"
  | occurrenceSpan => "invalid baseline occurrence span"
  | fingerprint error => error.message

/-! ## Files -/

/-- The two queries of the facts (in `capture`). -/
inductive FactCategory where
  | declaration | occurrence
  deriving DecidableEq, Repr

/-- `struct SessionFact`. -/
structure SessionFact where
  category : FactCategory
  fact : FingerprintFact

/-- `struct SessionFile`, with what a capture has checked. -/
structure SessionFile where
  revision : Option ContentRevision
  status : Status
  facts : List SessionFact
  lines : FingerprintLines
  valid : ∃ length, lines.validate = .ok length ∧ ∀ fact ∈ facts,
    fact.fact.span.start ≤ fact.fact.span.stop ∧ fact.fact.span.stop ≤ length

/-- A row of the query of the facts. -/
structure FactRow where
  category : FactCategory
  name : String
  kind : String
  container : Option String
  start : ℕ
  stop : ℕ

section Capture

variable (hash : Bytes → ContentRevision)
  (keys : Codec (FactCategory × String × String × Option String))

/-- A fact of the file with these bytes. -/
def captureFact (bytes : Bytes) (row : FactRow) : Except SessionError SessionFact :=
  if row.start ≤ row.stop ∧ row.stop ≤ bytes.length then
    .ok ⟨row.category, hash (keys.encode (row.category, row.name, row.kind, row.container)),
      ⟨row.start, row.stop⟩, hash (slice bytes row.start row.stop)⟩
  else .error .occurrenceSpan

variable {hash keys}

theorem captureFact_span {bytes : Bytes} {row : FactRow} {fact : SessionFact}
    (h : captureFact hash keys bytes row = .ok fact) :
    fact.fact.span.start ≤ fact.fact.span.stop ∧ fact.fact.span.stop ≤ bytes.length := by
  unfold captureFact at h
  split_ifs at h with hspan
  cases h
  exact hspan

theorem valid_capture {bytes : Bytes} {rows : List FactRow} {facts : List SessionFact}
    (h : rows.mapM (captureFact hash keys bytes) = .ok facts) :
    ∃ length, (fingerprintLines hash bytes).validate = .ok length ∧ ∀ fact ∈ facts,
      fact.fact.span.start ≤ fact.fact.span.stop ∧ fact.fact.span.stop ≤ length := by
  refine ⟨bytes.length, validate_fingerprintLines hash bytes, fun fact hfact => ?_⟩
  obtain ⟨i, hi, rfl⟩ := List.mem_iff_getElem.mp hfact
  have hrows := mapM_eq_ok.mp h
  have hi' : i < rows.length := hrows.length_eq ▸ hi
  exact captureFact_span (List.forall₂_iff_get.mp hrows |>.2 i hi' hi)

variable (hash keys)

/-- The entry of a file, without the sizes that `capture` adds up. -/
def captureFile (bytes : Bytes) (revision : Option ContentRevision) (status : Status)
    (rows : List FactRow) : Except SessionError SessionFile :=
  match h : rows.mapM (captureFact hash keys bytes) with
  | .error error => .error error
  | .ok facts => .ok ⟨revision, status, facts, fingerprintLines hash bytes, valid_capture h⟩

end Capture

/-- The rows of a snapshot: a `BTreeMap` by path. -/
abbrev SessionFiles := SortedTable (Prod.fst : Bytes × SessionFile → Bytes) (· < ·)

/-- `struct SessionSnapshot`, without what identifies the publication. -/
structure SessionSnapshot where
  root : Bytes
  generation : ℤ
  captureStart : ℕ
  captureEnd : ℕ
  coverage : Bytes
  files : SessionFiles

namespace SessionSnapshot

/-- `files.get(path)`. -/
def get (snapshot : SessionSnapshot) (path : Bytes) : Option SessionFile :=
  (snapshot.files.find path).map Prod.snd

/-- `files.contains_key(path)`. -/
def contains (snapshot : SessionSnapshot) (path : Bytes) : Bool := (snapshot.get path).isSome

end SessionSnapshot

/-! ## Renames -/

/-- `entry(revision).and_modify(|entry| *entry = None).or_insert(Some(path))`. -/
def enterRevision (revision : ContentRevision) (path : Bytes) :
    List (ContentRevision × Option Bytes) → List (ContentRevision × Option Bytes)
  | [] => [(revision, some path)]
  | entry :: entries =>
    if entry.1 = revision then (entry.1, none) :: entries
    else entry :: enterRevision revision path entries

/-- `unique_files`: the path of a revision, if it is the only one. -/
def uniqueFiles (snapshot : SessionSnapshot) : List (ContentRevision × Option Bytes) :=
  snapshot.files.rows.foldl (fun entries row =>
    match row.2.revision with
    | some revision => enterRevision revision row.1 entries
    | none => entries) []

/-- `HashMap::insert`. -/
def insertEntry {κ ν : Type} [DecidableEq κ] (entries : List (κ × ν)) (entry : κ × ν) :
    List (κ × ν) := entry :: entries.filter fun held => held.1 ≠ entry.1

/-- What a revision of the snapshot before inserts (in `exact_renames`). -/
def renamePair (before after : SessionSnapshot) (entry : ContentRevision × Option Bytes) :
    Option (Bytes × Bytes) :=
  match entry.2, getEntry (uniqueFiles after) entry.1 with
  | some path, some (some afterPath) =>
    if !after.contains path && !before.contains afterPath then some (path, afterPath) else none
  | _, _ => none

/-- `exact_renames`. -/
def exactRenames (iteration : Iteration (ContentRevision × Option Bytes))
    (before after : SessionSnapshot) : List (Bytes × Bytes) :=
  (iteration.order (uniqueFiles before)).foldl (fun renames entry =>
    match renamePair before after entry with
    | some pair => insertEntry renames pair
    | none => renames) []

/-! ## Details -/

/-- An entry of `fact_changes`. -/
structure FactChange where
  before : Option SessionFact
  after : Option SessionFact
  candidates : List SessionFact
  candidatesTruncated : Bool
  correspondence : DeclarationRelation
  deletionProven : Bool

/-- The changes of a file, and how many are left out. -/
structure Limited (α : Type) where
  changes : List α
  truncated : ℕ

section Details

variable (library : DiffLibrary) (orders : HashOrders ContentRevision ContentRevision)

/-- `source_changes`. -/
def sourceChanges (before after : SessionFile) : Except SessionError (Limited SourceChange) :=
  match diffFingerprints library before.lines after.lines with
  | .error error => .error (.fingerprint error)
  | .ok diff => .ok ⟨diff.changes.take 128, diff.changes.length - 128⟩

/-- A row of the correspondence as a change (in `fact_changes`). -/
def factChange (before after : SessionFile) (row : DeclarationCorrespondence) : FactChange where
  before := row.before.bind fun index => before.facts[index]?
  after := row.after.bind fun index => after.facts[index]?
  candidates := (row.candidates.take 8).filterMap fun index => after.facts[index]?
  candidatesTruncated := row.candidatesTruncated || row.candidates.length > 8
  correspondence := row.relation
  deletionProven := row.relation = .deleted

/-- `fact_changes`. -/
def factChanges (before after : SessionFile) : Except SessionError (Limited FactChange) :=
  match correspondFingerprints library orders (before.facts.map SessionFact.fact)
      (after.facts.map SessionFact.fact) (before.status = .complete) (after.status = .complete)
      (some before.lines) (some after.lines) with
  | .error error => .error (.fingerprint error)
  | .ok correspondence =>
    let changed := correspondence.filter fun row => row.relation ≠ .unchanged
    let changes := (changed.take 32).map (factChange before after)
    .ok ⟨changes, changed.length - changes.length⟩

theorem diffFingerprints_ok (before after : SessionFile) :
    ∃ diff, diffFingerprints library before.lines after.lines = .ok diff := by
  obtain ⟨beforeLength, hbefore, -⟩ := before.valid
  obtain ⟨afterLength, hafter, -⟩ := after.valid
  unfold diffFingerprints
  rw [hbefore, hafter]
  exact ⟨_, rfl⟩

theorem sourceChanges_ok (before after : SessionFile) :
    ∃ changes, sourceChanges library before after = .ok changes := by
  obtain ⟨diff, hdiff⟩ := diffFingerprints_ok library before after
  unfold sourceChanges
  rw [hdiff]
  exact ⟨_, rfl⟩

theorem convert_ok {facts : List SessionFact} {length : ℕ} (h : ∀ fact ∈ facts,
    fact.fact.span.start ≤ fact.fact.span.stop ∧ fact.fact.span.stop ≤ length) :
    convert (facts.map SessionFact.fact) (some length) = .ok () := by
  induction facts with
  | nil => rfl
  | cons fact facts ih =>
    obtain ⟨hle, hlength⟩ := h fact List.mem_cons_self
    have hspan : fact.fact.span.validate length = .ok fact.fact.span := by
      unfold ByteSpan.validate
      rw [if_neg (by omega)]
    rw [List.map_cons, convert]
    simp only [Option.getD_some, hspan]
    exact ih fun other hother => h other (List.mem_cons_of_mem _ hother)

theorem factChanges_ok (before after : SessionFile) :
    ∃ changes, factChanges library orders before after = .ok changes := by
  obtain ⟨diff, hdiff⟩ := diffFingerprints_ok library before after
  obtain ⟨beforeLength, hbefore, hbeforeSpans⟩ := before.valid
  obtain ⟨afterLength, hafter, hafterSpans⟩ := after.valid
  have hcorrespond : ∃ rows, correspondFingerprints library orders
      (before.facts.map SessionFact.fact) (after.facts.map SessionFact.fact)
      (before.status = .complete) (after.status = .complete) (some before.lines)
      (some after.lines) = .ok rows := by
    simp only [correspondFingerprints, hdiff, validateLines, hbefore, hafter, Except.map, bind,
      Except.bind, convert_ok hbeforeSpans, convert_ok hafterSpans, pure, Except.pure]
    exact ⟨_, rfl⟩
  obtain ⟨rows, hrows⟩ := hcorrespond
  unfold factChanges
  rw [hrows]
  exact ⟨_, rfl⟩

end Details

/-! ## Comparison -/

/-- The categories of a file in both snapshots. -/
inductive ComparedCategory where
  | coverageChange | modified
  deriving DecidableEq, Repr

/-- The categories of a file that is not there afterwards. -/
inductive AbsenceCategory where
  | deleted | ignoredOrExcluded | uncertainAbsence
  deriving DecidableEq, Repr

/-- An entry of the report. -/
inductive SessionChange where
  | renamed (path afterPath : Bytes) (beforeRevision afterRevision : Option ContentRevision)
  | compared (path : Bytes) (category : ComparedCategory)
      (beforeRevision afterRevision : Option ContentRevision) (beforeStatus afterStatus : Status)
      (occurrences : Limited FactChange) (sourceChanges : Limited SourceChange)
  | absent (path : Bytes) (category : AbsenceCategory) (beforeRevision : Option ContentRevision)
  | added (path : Bytes) (afterRevision : Option ContentRevision)

/-- The report (in `compare`), without its fixed texts. -/
structure SessionReport where
  repository : Bytes
  beforeGeneration : ℤ
  afterGeneration : ℤ
  beforeCaptureInterval : ℕ × ℕ
  afterCaptureInterval : ℕ × ℕ
  beforeCoverage : Bytes
  afterCoverage : Bytes
  changes : List SessionChange
  changesTruncated : ℕ

/-- The changes that are listed before the report is cut. -/
def listedChanges : ℕ := 128

/-- The bytes of a report. -/
def reportBytes : ℕ := 256 * 1024

/-- Revision and status are the same. -/
def sameFile (old new : SessionFile) : Bool := old.revision = new.revision && old.status = new.status

/-- The category of a file in both snapshots. -/
def comparedCategory (old new : SessionFile) : ComparedCategory :=
  if old.revision.isNone || new.revision.isNone || old.status ≠ new.status then .coverageChange
  else .modified

/-- The category of a file that is not there afterwards. -/
def absenceCategory (observations : PublicationObservations) (path : Bytes) : AbsenceCategory :=
  match observations.changes.reverse.find? fun change =>
      change.path = path && change.afterRevision.isNone with
  | some change =>
    match change.kind with
    | .deleted => .deleted
    | .ignoredOrExcluded => .ignoredOrExcluded
    | _ => .uncertainAbsence
  | none => .uncertainAbsence

/-- `changes` and `total_changes`. -/
structure ChangeState where
  changes : List SessionChange
  total : ℕ

section Compare

variable (library : DiffLibrary) (orders : HashOrders ContentRevision ContentRevision)
  (observations : PublicationObservations) (before after : SessionSnapshot)
  (renames : List (Bytes × Bytes))

/-- What is pushed for a path before. -/
def beforeChange (path : Bytes) (old : SessionFile) : Except SessionError (Option SessionChange) :=
  match getEntry renames path with
  | some afterPath =>
    .ok (some (.renamed path afterPath old.revision ((after.get afterPath).bind (·.revision))))
  | none =>
    match after.get path with
    | some new =>
      if sameFile old new then .ok none
      else do
        let occurrences ← factChanges library orders old new
        let source ← sourceChanges library old new
        .ok (some (.compared path (comparedCategory old new) old.revision new.revision old.status
          new.status occurrences source))
    | none => .ok (some (.absent path (absenceCategory observations path) old.revision))

/-- The body of the loop over the files before. -/
def stepBefore (state : ChangeState) (row : Bytes × SessionFile) :
    Except SessionError ChangeState :=
  if (after.get row.1).any (sameFile row.2) then .ok state
  else if state.changes.length ≥ listedChanges then .ok ⟨state.changes, state.total + 1⟩
  else do
    let change ← beforeChange library orders observations after renames row.1 row.2
    .ok ⟨state.changes ++ change.toList, state.total + 1⟩

/-- The body of the loop over the files after. -/
def stepAfter (state : ChangeState) (row : Bytes × SessionFile) : ChangeState :=
  if !before.contains row.1 && !(renames.map Prod.snd).contains row.1 then
    if state.changes.length ≥ listedChanges then ⟨state.changes, state.total + 1⟩
    else ⟨state.changes ++ [.added row.1 row.2.revision], state.total + 1⟩
  else state

/-- The changes that fit into the report, from the bytes before them on. -/
def retained (size : SessionChange → ℕ) : ℕ → List SessionChange → ℕ
  | _, [] => 0
  | bytes, change :: changes =>
    let bytes := bytes + size change + 1
    if bytes > reportBytes then 0 else retained size bytes changes + 1

/-- `compare`. -/
def compare (size : SessionChange → ℕ) (iteration : Iteration (ContentRevision × Option Bytes)) :
    Except SessionError SessionReport :=
  if before.root ≠ after.root then .error .otherRoot
  else do
    let renames := exactRenames iteration before after
    let compared ← before.files.rows.foldlM
      (stepBefore library orders observations after renames) ⟨[], 0⟩
    let state := after.files.rows.foldl (stepAfter before renames) compared
    let changes := state.changes.take (retained size 2 state.changes)
    .ok
      { repository := before.root
        beforeGeneration := before.generation
        afterGeneration := after.generation
        beforeCaptureInterval := (before.captureStart, before.captureEnd)
        afterCaptureInterval := (after.captureStart, after.captureEnd)
        beforeCoverage := before.coverage
        afterCoverage := after.coverage
        changes := changes
        changesTruncated := state.total - changes.length }

end Compare

end Trufflepig.Diagnostics
