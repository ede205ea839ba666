import Trufflepig.Store.Scan

/-!
# What a scan stages

* `readSource_cases`: a file is either returned whole, within the read limit, or
  not returned, with a status that says why.
* `cachedExtraction_ok`: an extraction comes from the parser or from a row of the
  published cache with the file's key, and only such extractions are cached.
* `stage_shape`: the bytes hashed and the rows staged are those of the scanned
  files in order.
* `stage_holds`: what holds of every fresh extraction and of the published cache
  holds of everything a scan stages.
* `indexStep_cases`, `indexRun_invariant`: what a call of `index` can do, and the
  invariant rule for runs.
-/

namespace Trufflepig.Store

open List Lib Extract

/-! ## Reading -/

/-- The statuses of files that `read_source` does not return. -/
def unreadStatuses : List Status := [.metadataError, .resourceExcluded, .readError, .binaryExcluded]

variable {source : Bytes}

theorem readContained_length {descriptor : Option (UInt64 × Bytes)} {limit : ℕ}
    (h : readContained descriptor limit = .ok source) : source.length ≤ limit := by
  cases descriptor with
  | none => simp [readContained] at h
  | some d =>
    simp only [readContained] at h
    split_ifs at h with hlength hread
    cases h
    omega

theorem readSource_cases (entry : FileEntry) :
    (∃ source, readSource entry = (some source, .read, UInt64.ofNat source.length) ∧
      source.length ≤ maxSourceBytes) ∨
    ∃ status length, readSource entry = (none, status, length) ∧ status ∈ unreadStatuses := by
  unfold readSource
  cases entry.metadata with
  | none => exact Or.inr ⟨_, _, rfl, by decide⟩
  | some length =>
    simp only
    split_ifs with hlarge
    · exact Or.inr ⟨_, _, rfl, by decide⟩
    · cases hread : readContained entry.descriptor maxSourceBytes with
      | error failure => cases failure <;> exact Or.inr ⟨_, _, rfl, by decide⟩
      | ok source =>
        simp only
        split_ifs with hbinary
        · exact Or.inr ⟨_, _, rfl, by decide⟩
        · exact Or.inl ⟨source, rfl, readContained_length hread⟩

/-! ## The cache -/

@[simp] theorem limitFacts_language (e : Extraction) : (limitFacts e).language = e.language := by
  unfold limitFacts
  split_ifs <;> rfl

@[simp] theorem limitFacts_limitFacts (e : Extraction) : limitFacts (limitFacts e) = limitFacts e := by
  by_cases h : e.definitions.length + e.occurrences.length + e.relationships.length > maxFacts
  · have hle : limitFacts e =
        { e with definitions := [], occurrences := [], relationships := [], status := .factLimit } :=
      if_pos h
    rw [hle]
    rfl
  · have hle : limitFacts e = e := if_neg h
    rw [hle, hle]

variable {cache : List CacheRow} {revision : ContentRevision} {row : CacheRow}

theorem findCached_some {grammar version : Bytes}
    (h : findCached cache revision grammar version = some row) :
    row ∈ cache ∧ row.revision = revision ∧ row.grammar = grammar ∧ row.version = version := by
  have := find?_some h
  exact ⟨mem_of_find?_eq_some h, by simpa using this⟩

theorem mem_insertCached {row' : CacheRow} (h : row' ∈ insertCached cache row) :
    row' ∈ cache ∨ row' = row := by
  unfold insertCached at h
  split at h
  · exact Or.inl h
  · simpa using h

variable {build : Build} {parsers : Parsers} {previous : List CacheRow} {staged : List CacheRow}

/-- What `cached_extraction` can return and cache. -/
theorem cachedExtraction_ok {path : Bytes} {extraction : Extraction}
    (h : cachedExtraction build parsers previous staged path revision source
      = .ok (extraction, cache)) :
    (∃ recalled, extraction = limitFacts recalled ∧
      (recalled = extract parsers path source ∨
        ∃ row ∈ previous, row.revision = revision ∧ row.grammar = extension path ∧
          row.version = extractionCacheVersion build ∧
          build.extractions.decode row.facts = some recalled)) ∧
    ∀ row ∈ cache, row ∈ staged ∨
      row = ⟨revision, extension path, extractionCacheVersion build,
        build.extractions.encode extraction⟩ := by
  obtain ⟨recalled, hrecalled, h⟩ := bind_eq_ok.mp h
  have hresult : extraction = limitFacts recalled ∧ ∀ row ∈ cache, row ∈ staged ∨
      row = ⟨revision, extension path, extractionCacheVersion build,
        build.extractions.encode extraction⟩ := by
    split_ifs at h with hcancelled
    · cases h
      exact ⟨rfl, fun row hrow => mem_insertCached hrow⟩
    · cases h
      exact ⟨rfl, fun row hrow => Or.inl hrow⟩
  refine ⟨⟨recalled, hresult.1, ?_⟩, hresult.2⟩
  unfold recalledExtraction at hrecalled
  split at hrecalled
  · left
    exact (Except.ok.inj hrecalled).symm
  · rename_i row hfind
    split at hrecalled
    · cases hrecalled
    · rename_i decoded hdecoded
      split_ifs at hrecalled
      · left
        exact (Except.ok.inj hrecalled).symm
      · right
        cases hrecalled
        obtain ⟨hmem, hrevision, hgrammar, hversion⟩ := findCached_some hfind
        exact ⟨row, hmem, hrevision, hgrammar, hversion, hdecoded⟩

/-! ## One file -/

variable {entry : FileEntry}

/-- What a pass over a file records, and what it adds to the staged cache. -/
theorem scanFile_ok {file : ScannedFile}
    (h : scanFile build parsers previous staged entry = .ok (file, cache)) :
    file.path = encodePath entry.relative ∧
    ((∃ source, readSource entry = (some source, .read, file.length) ∧
        source.length ≤ maxSourceBytes ∧ file.source = some source ∧ file.status = .read ∧
        file.length = UInt64.ofNat source.length ∧ file.revision = some (build.hash source) ∧
        cachedExtraction build parsers previous staged file.path (build.hash source) source
          = .ok (file.extraction, cache)) ∨
      (readSource entry = (none, file.status, file.length) ∧ file.source = none ∧
        file.status ∈ unreadStatuses ∧ file.revision = none ∧
        file.extraction = .empty (language file.path) file.status ∧ cache = staged)) := by
  unfold scanFile at h
  rcases readSource_cases entry with ⟨source, hread, hlength⟩ | ⟨status, length, hread, hstatus⟩
  · rw [hread] at h
    obtain ⟨⟨extraction, cache'⟩, hcached, h⟩ := bind_eq_ok.mp h
    cases h
    exact ⟨rfl, Or.inl ⟨source, hread, hlength, rfl, rfl, rfl, rfl, hcached⟩⟩
  · rw [hread] at h
    cases h
    exact ⟨rfl, Or.inr ⟨hread, rfl, hstatus, rfl, rfl, rfl⟩⟩

/-! ## The walk -/

theorem insert_rows {table table' : FilesTable} {row : FileRow}
    (h : table.insert row = .ok table') : table'.rows = table.rows ++ [row] := by
  unfold FilesTable.insert at h
  split_ifs at h
  cases h
  rfl

variable {s : ScanState}

/-- What a pass over a file does to the state. -/
theorem stageEntry_file {s' : ScanState}
    (h : stageEntry build parsers previous s (.file entry) = .ok s') :
    ∃ file, scanFile build parsers previous s.staged.cache entry = .ok (file, s'.staged.cache) ∧
      s'.hashed = s.hashed ++ file.hashed ∧ s'.scanned = s.scanned ++ [file] ∧
      s'.staged.files.rows = s.staged.files.rows ++ [file.row] := by
  obtain ⟨⟨file, cache⟩, hfile, h⟩ := bind_eq_ok.mp h
  obtain ⟨files, hfiles, h⟩ := bind_eq_ok.mp h
  cases h
  exact ⟨file, hfile, rfl, rfl, insert_rows hfiles⟩

/-- A scanned file together with the entry that the walk gave for it. -/
def ScannedFrom (build : Build) (parsers : Parsers) (previous : List CacheRow)
    (entries : List WalkEntry) (file : ScannedFile) : Prop :=
  ∃ entry staged cache, WalkEntry.file entry ∈ entries ∧
    scanFile build parsers previous staged entry = .ok (file, cache)

variable {entries : List WalkEntry}

/-- The bytes hashed and the rows staged are those of the scanned files. -/
theorem stage_shape (h : stage build parsers previous entries = .ok s) :
    s.hashed = (ScanState.start build).hashed ++ s.scanned.flatMap ScannedFile.hashed ∧
      s.staged.files.rows = s.scanned.map ScannedFile.row ∧
      ∀ file ∈ s.scanned, ScannedFrom build parsers previous entries file := by
  refine foldlM_invariant (fun s : ScanState =>
    s.hashed = (ScanState.start build).hashed ++ s.scanned.flatMap ScannedFile.hashed ∧
      s.staged.files.rows = s.scanned.map ScannedFile.row ∧
      ∀ file ∈ s.scanned, ScannedFrom build parsers previous entries file) ?_ ?_ h
  · intro a ha s s' hs hstep
    cases a with
    | failure | other => cases hstep; exact hs
    | file entry =>
      obtain ⟨file, hfile, hhashed, hscanned, hrows⟩ := stageEntry_file hstep
      refine ⟨?_, ?_, ?_⟩
      · rw [hhashed, hs.1, hscanned, flatMap_append, append_assoc]
        simp
      · rw [hrows, hs.2.1, hscanned, map_append]
        rfl
      · intro f hf
        rw [hscanned, mem_append, mem_singleton] at hf
        rcases hf with hf | rfl
        · exact hs.2.2 f hf
        · exact ⟨entry, _, _, ha, hfile⟩
  · exact ⟨by simp [ScanState.start], rfl, by simp [ScanState.start]⟩

/-- Every row of the cache that this build reads decodes to an extraction with
the property `holds` for the row's revision and grammar. -/
def CacheHolds (build : Build) (holds : ContentRevision → Bytes → Extraction → Prop)
    (cache : List CacheRow) : Prop :=
  ∀ row ∈ cache, row.version = extractionCacheVersion build →
    ∃ e, build.extractions.decode row.facts = some e ∧ holds row.revision row.grammar e

/-- **The cache rule.** A property of extractions that the fact limit keeps, that
the published cache has and that every fresh extraction of the walk has, holds
of all that a scan stages. -/
theorem stage_holds (holds : ContentRevision → Bytes → Extraction → Prop)
    (hlimit : ∀ r g e, holds r g e → holds r g (limitFacts e))
    (hprevious : CacheHolds build holds previous)
    (hfresh : ∀ entry, WalkEntry.file entry ∈ entries → ∀ source,
      (readSource entry).1 = some source →
      holds (build.hash source) (extension (encodePath entry.relative))
        (extract parsers (encodePath entry.relative) source))
    (h : stage build parsers previous entries = .ok s) :
    CacheHolds build holds s.staged.cache ∧
      ∀ file ∈ s.scanned, ∀ revision, file.revision = some revision →
        holds revision (extension file.path) file.extraction := by
  -- one pass: the file's extraction has the property, and so has what it adds to the cache
  have hpass : ∀ entry, WalkEntry.file entry ∈ entries → ∀ staged file cache,
      CacheHolds build holds staged →
      scanFile build parsers previous staged entry = .ok (file, cache) →
      CacheHolds build holds cache ∧ ∀ revision, file.revision = some revision →
        holds revision (extension file.path) file.extraction := by
    intro entry hentry staged file cache hstaged hfile
    obtain ⟨hpath, ⟨source, hread, -, -, -, -, hrevision, hcached⟩ | ⟨-, -, -, hrevision, -, rfl⟩⟩ :=
      scanFile_ok hfile
    · obtain ⟨⟨recalled, hlimited, hrecalled⟩, hcache⟩ := cachedExtraction_ok hcached
      have hfound : holds (build.hash source) (extension file.path) file.extraction := by
        rw [hlimited]
        apply hlimit
        rcases hrecalled with rfl | ⟨row, hrow, hrev, hgrammar, hversion, hdecode⟩
        · rw [hpath]
          exact hfresh entry hentry source (by rw [hread])
        · obtain ⟨e, he, hholds⟩ := hprevious row hrow hversion
          rw [hdecode] at he
          cases he
          rwa [hrev, hgrammar] at hholds
      refine ⟨?_, ?_⟩
      · intro row hrow hversion
        rcases hcache row hrow with hrow | rfl
        · exact hstaged row hrow hversion
        · exact ⟨_, build.extractions.decode_encode _, hfound⟩
      · intro revision hrev
        rw [hrevision] at hrev
        cases hrev
        exact hfound
    · refine ⟨hstaged, ?_⟩
      intro revision hrev
      rw [hrevision] at hrev
      cases hrev
  refine foldlM_invariant (fun s : ScanState => CacheHolds build holds s.staged.cache ∧
    ∀ file ∈ s.scanned, ∀ revision, file.revision = some revision →
      holds revision (extension file.path) file.extraction) ?_ ?_ h
  · intro a ha s s' hs hstep
    cases a with
    | failure | other => cases hstep; exact hs
    | file entry =>
      obtain ⟨file, hfile, -, hscanned, -⟩ := stageEntry_file hstep
      obtain ⟨hcache, hholds⟩ := hpass entry ha _ _ _ hs.1 hfile
      refine ⟨hcache, ?_⟩
      intro f hf
      rw [hscanned, mem_append, mem_singleton] at hf
      rcases hf with hf | rfl
      · exact hs.2 f hf
      · exact hholds
  · exact ⟨by simp [ScanState.start, CacheHolds], by simp [ScanState.start]⟩

/-! ## Calls of `index` and runs -/

variable {call : IndexCall}

/-- How a call of `index` ends, with the scan that it made. -/
theorem indexLeased_ok {db : Db} {outcome : IndexOutcome}
    (h : indexLeased build call db = .ok outcome) :
    ∃ s, stage build call.parsers db.cache call.entries = .ok s ∧
      ((outcome = .unchanged ∧ db.fingerprint =
          some (resolvedFingerprint build (s.fingerprint build) sharedResolverRevision)) ∨
        ∃ db', outcome = .published db' ∧ db'.files = s.staged.files ∧
          db'.cache = s.staged.cache ∧ db'.fingerprint =
            some (resolvedFingerprint build (s.fingerprint build) sharedResolverRevision)) := by
  obtain ⟨s, hs, h⟩ := bind_eq_ok.mp h
  refine ⟨s, hs, ?_⟩
  simp only at h
  split_ifs at h with hsame hresolves
  · cases h
    exact Or.inl ⟨rfl, hsame.1⟩
  · obtain ⟨db', hpublish, h⟩ := bind_eq_ok.mp h
    obtain ⟨journal, -, hdb⟩ := bind_eq_ok.mp hpublish
    cases h
    cases hdb
    exact Or.inr ⟨_, rfl, rfl, rfl, rfl⟩

/-- What a call of `index` does to the state of a run: nothing, or it adds its scan
and publishes it or not. -/
theorem indexStep_cases (build : Build) (state : Db × List ScanState) (call : IndexCall) :
    indexStep build state call = state ∨
    ∃ s, stage build call.parsers state.1.cache call.entries = .ok s ∧
      (indexStep build state call).2 = state.2 ++ [s] ∧
      ((indexStep build state call).1 = state.1 ∨
        ((indexStep build state call).1.files = s.staged.files ∧
          (indexStep build state call).1.cache = s.staged.cache ∧
          (indexStep build state call).1.fingerprint =
            some (resolvedFingerprint build (s.fingerprint build) sharedResolverRevision))) := by
  unfold indexStep
  cases hs : stage build call.parsers state.1.cache call.entries with
  | error e => exact Or.inl rfl
  | ok s =>
    refine Or.inr ⟨s, rfl, ?_⟩
    cases hindex : indexLeased build call state.1 with
    | error e => exact ⟨rfl, Or.inl rfl⟩
    | ok outcome =>
      obtain ⟨t, ht, ⟨rfl, -⟩ | ⟨db, rfl, hfiles, hcache, hfingerprint⟩⟩ := indexLeased_ok hindex
      · exact ⟨rfl, Or.inl rfl⟩
      · rw [hs] at ht
        cases ht
        exact ⟨rfl, Or.inr ⟨hfiles, hcache, hfingerprint⟩⟩

theorem indexStep_scans {state : Db × List ScanState}
    (h : stage build call.parsers state.1.cache call.entries = .ok s) :
    (indexStep build state call).2 = state.2 ++ [s] := by
  unfold indexStep
  rw [h]
  simp only
  split <;> rfl

/-- What a new database has and every call of a run keeps holds after the run. -/
theorem indexRun_invariant {indexEpoch : Bytes} {calls : List IndexCall}
    (motive : Db × List ScanState → Prop) (hstart : motive (Db.create indexEpoch, []))
    (hstep : ∀ call ∈ calls, ∀ state, motive state → motive (indexStep build state call)) :
    motive (indexRun build indexEpoch calls) :=
  List.foldlRecOn calls (indexStep build) hstart fun state h call hcall => hstep call hcall state h

end Trufflepig.Store
