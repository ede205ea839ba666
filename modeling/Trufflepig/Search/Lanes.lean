import Trufflepig.Lib.Select
import Trufflepig.Search.FileRanking
import Trufflepig.Search.QualifiedName

/-!
# Lanes of a search (`search.rs`, `search/declarations.rs`)

The tables that a search reads, and the queries of two of its lanes: the definitions of a name and
the names of files. A table is the list of its rows; `JOIN` takes the row with an id, and what the
full-text index answers is a parameter.

* `fileHits_spec`: the first thousand files by the score of their names.
-/

namespace Trufflepig.Search

open List Lib Extract Results

/-! ## Tables -/

/-- A row of `files`; the columns `status` and `bytes` are not read here. -/
structure IndexedFile where
  id : ℤ
  path : EncodedPath
  revision : Option Bytes
  language : SourceLanguage

/-- A row of `definitions`. -/
structure DefinitionRow where
  id : ℤ
  fileId : ℤ
  name : String
  kind : String
  start : ℕ
  stop : ℕ
  container : Option String

/-- A row of `occurrences`, as far as the lanes read it. -/
structure OccurrenceRow where
  id : ℤ
  fileId : ℤ
  name : String
  start : ℕ
  stop : ℕ
  role : String

/-- A row of `regions`. -/
structure RegionRow where
  id : ℤ
  fileId : ℤ
  start : ℕ
  stop : ℕ
  name : String
  kind : String
  body : String

/-- The expressions of the full-text search (`parse` in `concept_query.rs`). -/
inductive MatchExpression where
  | phrase (terms : List (List Char))
  | allTerms (terms : List (List Char))
  | anyTerms (terms : List (List Char))

/-- What `documents MATCH` and `bm25` tell of the row of a region. -/
structure FullText where
  holds : MatchExpression → ℤ → Bool
  relevance : MatchExpression → ℤ → ℚ

/-- The tables in one read transaction. -/
structure Snapshot where
  files : List IndexedFile
  uniqueIds : (files.map IndexedFile.id).Nodup
  uniquePaths : (files.map fun file => file.path.1).Nodup
  contents : List (Bytes × Bytes)
  uniqueRevisions : (contents.map Prod.fst).Nodup
  definitions : List DefinitionRow
  occurrences : List OccurrenceRow
  regions : List RegionRow
  fullText : FullText

/-- A file with its contents: `JOIN files f … JOIN contents c ON c.revision=f.revision`. -/
structure SourceRow where
  file : IndexedFile
  revision : Bytes
  bytes : Bytes

/-- `line_at` (`source.rs`). -/
def lineAt (bytes : Bytes) (offset : ℕ) : ℕ := 1 + (bytes.take offset).count 0x0a

/-- `line_span` (`source.rs`). -/
def lineSpan (bytes : Bytes) (start stop : ℕ) : ℕ × ℕ :=
  (lineAt bytes start, lineAt bytes (if start < stop then stop - 1 else start))

/-- `hit_row` (`search.rs`). -/
def hitRow (source : SourceRow) (start stop : ℕ) (name kind : String) (container : Option String)
    (provenance : Provenance) : Hit :=
  let (startLine, endLine) := lineSpan source.bytes start stop
  .plain source.file.path.1 (some source.revision) start stop startLine endLine name kind container
    provenance

namespace Snapshot

variable (snapshot : Snapshot)

/-- The file with an id. -/
def fileOf (id : ℤ) : Option IndexedFile := snapshot.files.find? fun file => file.id = id

/-- The contents of a file. -/
def withContents (file : IndexedFile) : Option SourceRow := do
  let revision ← file.revision
  let content ← snapshot.contents.find? fun content => content.1 = revision
  return ⟨file, revision, content.2⟩

def source (id : ℤ) : Option SourceRow := do
  let file ← snapshot.fileOf id
  snapshot.withContents file

/-- The paths that a filter is bound against. -/
def paths : List EncodedPath := snapshot.files.map IndexedFile.path

end Snapshot

/-! ## Filters -/

/-- `paths.sql_clause("f.path")` and `?='' OR f.language=?`. -/
def admitsFile (paths : BoundPathFilter) (language : Option SourceLanguage) (file : IndexedFile) :
    Bool :=
  paths.matchesPath file.path.1 && (language.isNone || language = some file.language)

/-- `?='' OR kind=?`. -/
def admitsKind (filter kind : String) : Bool := filter.isEmpty || kind = filter

/-- `struct LaneHits`. -/
structure LaneHits where
  hits : List Hit
  truncated : Bool

/-! ## Exact definitions -/

/-- A definition and its source. -/
structure FoundDefinition where
  source : SourceRow
  row : DefinitionRow

namespace FoundDefinition

def hit (found : FoundDefinition) : Hit :=
  hitRow found.source found.row.start found.row.stop found.row.name found.row.kind
    found.row.container .exactIdentifier

/-- `ORDER BY start,end,id`. -/
def placeOrder (a b : FoundDefinition) : Ordering :=
  compareLex (compareOn fun found : FoundDefinition => found.row.start)
    (compareLex (compareOn fun found => found.row.stop) (compareOn fun found => found.row.id)) a b

/-- `ORDER BY path,start,end,id`. -/
def pathOrder (a b : FoundDefinition) : Ordering :=
  compareLex (compareOn fun found : FoundDefinition => found.source.file.path.1) placeOrder a b

end FoundDefinition

/-- The definitions that pass the filters of a query. -/
def foundDefinitions (snapshot : Snapshot) (paths : BoundPathFilter)
    (language : Option SourceLanguage) (kind : String) (selects : DefinitionRow → Bool) :
    List FoundDefinition :=
  snapshot.definitions.filterMap fun row =>
    (snapshot.source row.fileId).bind fun source =>
      if selects row && admitsFile paths language source.file && admitsKind kind row.kind then
        some ⟨source, row⟩
      else none

section Names

variable [Unicode]

/-- The state of the loop over the rows: the hits of the closest tier so far. -/
structure TierScan where
  hits : List Hit
  best : Option QualifierMatch
  truncated : Bool

/-- A row of the closest tier is kept, or counted if the hits are full; the flag tells whether
the loop goes on (`qualified_hits_with_limit` in `declarations.rs`). -/
def TierScan.keep (scan : TierScan) (resultCap : ℕ) (qualified : Bool) (tier : QualifierMatch)
    (hit : Hit) : TierScan × Bool :=
  if scan.hits.length = resultCap then
    ({ scan with truncated := true }, qualified && tier ≠ .suffix)
  else ({ scan with hits := scan.hits ++ [hit] }, true)

/-- The loop over the rows (in `qualified_hits_with_limit`). -/
def scanTiers (name : QualifiedName) (resultCap : ℕ) : List Hit → TierScan → TierScan
  | [], scan => scan
  | hit :: hits, scan =>
    match name.matchesOwner (decodeChars hit.path) (hit.container.map String.toList) with
    | none => scanTiers name resultCap hits scan
    | some tier =>
      let scan' :=
        match scan.best with
        | some previous =>
          if previous.rank < tier.rank then none
          else if tier.rank < previous.rank then some (⟨[], some tier, false⟩ : TierScan)
          else some scan
        | none => some { scan with best := some tier }
      match scan' with
      | none => scanTiers name resultCap hits scan
      | some scan =>
        let (scan, goesOn) := scan.keep resultCap name.isQualified tier hit
        if goesOn then scanTiers name resultCap hits scan else scan

/-- `instr(coalesce(d.container,'')||'/'||replace(f.path,'-','_'),?5)>0`. -/
def hintHolds (hint : List Char) (container : Option String) (path : Bytes) : Bool :=
  hint.isEmpty || containsText hint ((container.map String.toList).getD [] ++ '/' ::
    (decodeChars path).map fun c => if c = '-' then '_' else c)

/-- `qualified_hits_with_limit` (`declarations.rs`). -/
def qualifiedHitsWithLimit (snapshot : Snapshot) (name : QualifiedName) (paths : BoundPathFilter)
    (language : Option SourceLanguage) (kind : String) (limit : ℕ) : LaneHits :=
  let rows := (foundDefinitions snapshot paths language kind fun row =>
    row.name.toList = name.name).filter fun found =>
      hintHolds name.ownerHint found.row.container found.source.file.path.1
  let rows := (orderBy FoundDefinition.pathOrder rows).take
    (if name.isQualified then 2 ^ 63 - 1 else limit + 1)
  let scan := scanTiers name (limit + 1) (rows.map FoundDefinition.hit) ⟨[], none, false⟩
  ⟨scan.hits.take limit, scan.truncated || limit < scan.hits.length⟩

end Names

/-! ## File names -/

section Names

variable [Unicode]

/-- `struct FilenameCandidate`. -/
structure FilenameCandidate where
  score : ℕ
  hit : Hit

namespace FilenameCandidate

/-- `Ord::cmp`: the least useful candidate is the greatest. -/
def order (a b : FilenameCandidate) : Ordering :=
  compareLex (fun a b : FilenameCandidate => compare b.score a.score)
    (compareLex (compareOn fun c => c.hit.path)
      (compareLex (compareOn fun c => c.hit.start) (compareOn fun c => c.hit.stop))) a b

/-- The order of the result: by score, then by path. -/
def resultOrder (a b : FilenameCandidate) : Ordering :=
  compareLex (fun a b : FilenameCandidate => compare b.score a.score)
    (compareOn fun c => c.hit.path) a b

/-- The candidate of a file; a score of zero gives none. -/
def ofFile (terms : List (List Char)) (file : IndexedFile) : Option FilenameCandidate :=
  let score := filenameScore file.path.1 terms
  if score = 0 then none
  else some {
    score := score
    hit := .plain file.path.1 file.revision 0 0 1 1 (String.ofList (decodeChars file.path.1)) "file"
      none (if score = 3 then .filenameExact else if score = 2 then .filenameTokens
        else .filenamePartial) }

end FilenameCandidate

/-- `file_hits` (`search.rs`). -/
def fileHits (snapshot : Snapshot) (query : Query) (paths : BoundPathFilter) : LaneHits :=
  if !query.kind.isEmpty && query.kind ≠ "file" then ⟨[], false⟩
  else
    let files := orderBy (compareOn fun file : IndexedFile => file.path.1)
      (snapshot.files.filter (admitsFile paths query.language))
    let (candidates, truncated) := keepLeast FilenameCandidate.order fileCandidateLimit
      (files.filterMap (FilenameCandidate.ofFile (queryTerms query.text.toList)))
    ⟨(orderBy FilenameCandidate.resultOrder candidates).map FilenameCandidate.hit, truncated⟩

/-- The candidates of all files that a query admits; it admits none if it asks for another kind. -/
def filenameCandidates (snapshot : Snapshot) (query : Query) (paths : BoundPathFilter) :
    List FilenameCandidate :=
  (snapshot.files.filter fun file => admitsKind query.kind "file" &&
    admitsFile paths query.language file).filterMap
      (FilenameCandidate.ofFile (queryTerms query.text.toList))

theorem FilenameCandidate.ofFile_eq_some {terms : List (List Char)} {file : IndexedFile}
    {candidate : FilenameCandidate} (h : ofFile terms file = some candidate) :
    candidate.hit.path = file.path.1 ∧ candidate.hit.start = 0 ∧ candidate.hit.stop = 0 := by
  unfold ofFile at h
  simp only at h
  split at h
  · exact nomatch h
  · rw [← Option.some.inj h]
    exact ⟨rfl, rfl, rfl⟩

instance FilenameCandidate.transCmp_score :
    Std.TransCmp fun a b => compareOn FilenameCandidate.score b a := Std.TransCmp.opposite

instance : Std.TransCmp FilenameCandidate.order :=
  inferInstanceAs (Std.TransCmp (compareLex (fun a b => compareOn FilenameCandidate.score b a) _))

instance : Std.TransCmp FilenameCandidate.resultOrder :=
  inferInstanceAs (Std.TransCmp (compareLex (fun a b => compareOn FilenameCandidate.score b a) _))

variable {snapshot : Snapshot} {query : Query} {paths : BoundPathFilter} {a b : FilenameCandidate}

/-- The heap and the result order candidates in one way. -/
theorem order_eq_resultOrder (ha : a ∈ filenameCandidates snapshot query paths)
    (hb : b ∈ filenameCandidates snapshot query paths) :
    FilenameCandidate.order a b = FilenameCandidate.resultOrder a b := by
  obtain ⟨file, -, ha⟩ := mem_filterMap.mp ha
  obtain ⟨file', -, hb⟩ := mem_filterMap.mp hb
  obtain ⟨-, hstart, hstop⟩ := FilenameCandidate.ofFile_eq_some ha
  obtain ⟨-, hstart', hstop'⟩ := FilenameCandidate.ofFile_eq_some hb
  simp [FilenameCandidate.order, FilenameCandidate.resultOrder, compareLex, compareOn, hstart,
    hstop, hstart', hstop']

/-- No two files have candidates that compare equal: they have different paths. -/
theorem eq_of_resultOrder (ha : a ∈ filenameCandidates snapshot query paths)
    (hb : b ∈ filenameCandidates snapshot query paths)
    (h : FilenameCandidate.resultOrder a b = .eq) : a = b := by
  have hpath : compare a.hit.path b.hit.path = .eq := (Ordering.then_eq_eq.mp h).2
  obtain ⟨file, hfile, ha⟩ := mem_filterMap.mp ha
  obtain ⟨file', hfile', hb⟩ := mem_filterMap.mp hb
  rw [(FilenameCandidate.ofFile_eq_some ha).1, (FilenameCandidate.ofFile_eq_some hb).1] at hpath
  have hsame : file = file' := inj_on_of_nodup_map snapshot.uniquePaths
    (mem_of_mem_filter hfile) (mem_of_mem_filter hfile')
    (Std.LawfulEqOrd.eq_of_compare hpath)
  rw [hsame, hb] at ha
  exact (Option.some.inj ha).symm

/-- The candidates have one order, by score and path, in which the heap compares them too. -/
theorem orderBy_candidates {candidates : List FilenameCandidate}
    (h : candidates ⊆ filenameCandidates snapshot query paths) {other : List FilenameCandidate}
    (hperm : other.Perm candidates) :
    orderBy FilenameCandidate.resultOrder other =
      orderBy FilenameCandidate.order candidates := by
  have hmem : ∀ a ∈ orderBy FilenameCandidate.order candidates,
      a ∈ filenameCandidates snapshot query paths := fun a ha => h (mem_orderBy.mp ha)
  refine orderBy_eq_of_perm (hperm.trans (orderBy_perm ..).symm) ?_
    fun a ha b hb => eq_of_resultOrder (hmem a ha) (hmem b hb)
  refine (pairwise_sortByCmp candidates).imp_of_mem fun ha hb hle => ?_
  rwa [← order_eq_resultOrder (hmem _ ha) (hmem _ hb)]

theorem fileHits_eq (snapshot : Snapshot) (query : Query) (paths : BoundPathFilter) :
    fileHits snapshot query paths = {
      hits := ((orderBy FilenameCandidate.resultOrder
        (filenameCandidates snapshot query paths)).take fileCandidateLimit).map FilenameCandidate.hit
      truncated := fileCandidateLimit < (filenameCandidates snapshot query paths).length } := by
  have hadmits : admitsKind query.kind "file" =
      !(!query.kind.isEmpty && decide (query.kind ≠ "file")) := by
    rw [admitsKind]
    by_cases h : query.kind = "file"
    · rw [h]
      decide
    · rw [decide_eq_true h, decide_eq_false (Ne.symm h), Bool.and_true, Bool.or_false, Bool.not_not]
  rw [fileHits]
  split_ifs with hkind
  · have hnone : filenameCandidates snapshot query paths = [] := by
      rw [filenameCandidates, hadmits, hkind]
      simp
    rw [hnone]
    simp [orderBy]
  · set files := orderBy (compareOn fun file : IndexedFile => file.path.1)
      (snapshot.files.filter (admitsFile paths query.language))
    set fed := files.filterMap (FilenameCandidate.ofFile (queryTerms query.text.toList))
    have hfed : fed.Perm (filenameCandidates snapshot query paths) := by
      rw [filenameCandidates, hadmits, Bool.eq_false_of_not_eq_true hkind]
      exact (orderBy_perm ..).filterMap _
    obtain ⟨hkept, hflag⟩ := keepLeast_spec (c := FilenameCandidate.order) fileCandidateLimit fed
      fun a ha b hb heq => eq_of_resultOrder (hfed.mem_iff.mp ha) (hfed.mem_iff.mp hb)
        (by rwa [← order_eq_resultOrder (hfed.mem_iff.mp ha) (hfed.mem_iff.mp hb)])
    set kept := (keepLeast FilenameCandidate.order fileCandidateLimit fed).1
    have hsubset : kept ⊆ filenameCandidates snapshot query paths := by
      intro a ha
      have htake : a ∈ (orderBy FilenameCandidate.order fed).take fileCandidateLimit := by
        rw [← hkept]
        exact mem_orderBy.mpr ha
      exact hfed.mem_iff.mp (mem_orderBy.mp (mem_of_mem_take htake))
    have hhits : orderBy FilenameCandidate.resultOrder kept = (orderBy
        FilenameCandidate.resultOrder (filenameCandidates snapshot query paths)).take
          fileCandidateLimit := by
      rw [orderBy_candidates hsubset (.refl _), hkept, orderBy_candidates hfed.subset hfed.symm]
    show LaneHits.mk ((orderBy FilenameCandidate.resultOrder kept).map FilenameCandidate.hit)
      (keepLeast FilenameCandidate.order fileCandidateLimit fed).2 = _
    rw [hhits, hflag, hfed.length_eq]

/-- The lane of file names has the first thousand of all admitted files with a score, the best
score first and then by path, and tells whether there are more; the order in which the table
has the files does not matter. -/
theorem fileHits_spec (snapshot : Snapshot) (query : Query) (paths : BoundPathFilter) :
    (fileHits snapshot query paths).hits =
        ((orderBy FilenameCandidate.resultOrder (filenameCandidates snapshot query paths)).take
          fileCandidateLimit).map FilenameCandidate.hit ∧
      ((fileHits snapshot query paths).truncated = true ↔
        fileCandidateLimit < (filenameCandidates snapshot query paths).length) ∧
      ∀ snapshot' : Snapshot, snapshot'.files.Perm snapshot.files →
        fileHits snapshot' query paths = fileHits snapshot query paths := by
  refine ⟨by rw [fileHits_eq], by rw [fileHits_eq, decide_eq_true_eq], fun snapshot' h => ?_⟩
  have hperm : (filenameCandidates snapshot' query paths).Perm
      (filenameCandidates snapshot query paths) := (h.filter _).filterMap _
  rw [fileHits_eq, fileHits_eq, hperm.length_eq,
    orderBy_candidates (List.Subset.refl (filenameCandidates snapshot query paths)) hperm,
    orderBy_candidates (List.Subset.refl (filenameCandidates snapshot query paths)) (.refl _)]

end Names

end Trufflepig.Search
