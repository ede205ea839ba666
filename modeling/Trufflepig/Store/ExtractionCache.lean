import Trufflepig.Lib.Blake3
import Trufflepig.Store.ScanStage

/-!
# When the extraction cache is transparent

A cached extraction is found again by the hash of the source and by what follows
the last dot of the path. The extractor looks at the path in one more way: the
TSX grammar is chosen for paths that end in `.tsx`. A file named just `tsx` has
the same key and another grammar.

* `extract_congr`: apart from that pair, the key determines the extraction.
* `cache_transparent`: over every run in which no source occurs both in a file
  `tsx` and in a file `*.tsx` that the two grammars extract differently, every
  staged extraction is the one that a fresh call of the extractor gives.
* `cache_not_transparent`: a run of two scans in which a file that was renamed
  from `a.tsx` to `tsx` gets the facts of the wrong grammar.
-/

namespace Trufflepig.Store

open List Lib Extract

/-! ## Specification -/

/-- Some scan of the run reads a file with this path and these bytes. -/
def ReadIn (calls : List IndexCall) (path source : Bytes) : Prop :=
  ∃ call ∈ calls, ∃ entry, WalkEntry.file entry ∈ call.entries ∧
    encodePath entry.relative = path ∧ (readSource entry).1 = some source

/-- Every file that a scan of the run read was staged with what the extractor
gives afresh for its path and bytes, under the fact limit. -/
def Transparent (build : Build) (parsers : Parsers) (indexEpoch : Bytes)
    (calls : List IndexCall) : Prop :=
  ∀ s ∈ (indexRun build indexEpoch calls).2, ∀ file ∈ s.scanned, ∀ source,
    file.source = some source →
      file.extraction = limitFacts (extract parsers file.path source)

/-- A source that the run reads both in a file named `tsx` and in one whose name
ends in `.tsx` has the same facts under the TypeScript and the TSX grammar. -/
def TsxAgrees (parsers : Parsers) (calls : List IndexCall) : Prop :=
  ∀ path source, ReadIn calls (ascii "tsx") source → ReadIn calls path source →
    ascii ".tsx" <:+ path →
    limitFacts (extract parsers (ascii "tsx") source) = limitFacts (extract parsers path source)

/-! ## The key determines the extraction -/

variable {path : Bytes}

theorem extension_of_suffix {e : Bytes} (he : (46 : UInt8) ∉ e) (h : 46 :: e <:+ path) :
    extension path = e := by
  obtain ⟨pre, rfl⟩ := h
  have hall : ∀ b ∈ e.reverse, decide (b ≠ 46) = true := by
    intro b hb
    rw [decide_eq_true_eq]
    rintro rfl
    exact he (mem_reverse.mp hb)
  simp only [extension, List.rtakeWhile, reverse_append, reverse_cons, append_assoc]
  rw [takeWhile_append_of_pos hall]
  simp

theorem extension_cases (path : Bytes) : path = extension path ∨ 46 :: extension path <:+ path := by
  have hsplit : path.rdropWhile (· ≠ 46) ++ extension path = path := by
    simp only [extension, List.rdropWhile, List.rtakeWhile, ← reverse_append,
      takeWhile_append_dropWhile, reverse_reverse]
  by_cases hnil : path.rdropWhile (· ≠ 46) = []
  · left
    rw [hnil, nil_append] at hsplit
    exact hsplit.symm
  · right
    have hlast := rdropWhile_last_not _ path hnil
    rw [decide_eq_true_eq, not_not] at hlast
    refine ⟨(path.rdropWhile (· ≠ 46)).dropLast, ?_⟩
    conv_rhs => rw [← hsplit, ← dropLast_append_getLast hnil, hlast]
    simp

theorem extension_tsx (h : ascii ".tsx" <:+ path) : extension path = ascii "tsx" :=
  extension_of_suffix (by decide) h

variable {path' : Bytes}

/-- The grammar is that of another path with the same key, unless just one of
the two ends in `.tsx`. -/
theorem grammar_congr (h : extension path = extension path')
    (htsx : ascii ".tsx" <:+ path ↔ ascii ".tsx" <:+ path') : grammar path = grammar path' := by
  unfold grammar language
  rw [h]
  simp only [htsx]

theorem extract_congr (parsers : Parsers) (h : extension path = extension path')
    (htsx : ascii ".tsx" <:+ path ↔ ascii ".tsx" <:+ path') (source : Bytes) :
    extract parsers path source = extract parsers path' source := by
  unfold Extract.extract
  rw [grammar_congr h htsx, show language path = language path' by rw [language, language, h]]

theorem eq_tsx (hkey : extension path = ascii "tsx") (h : ¬ascii ".tsx" <:+ path) :
    path = ascii "tsx" := by
  rcases extension_cases path with heq | hsuffix
  · rw [heq, hkey]
  · rw [hkey] at hsuffix
    exact absurd hsuffix h

/-- Two paths with one key: the same grammar, or `tsx` and `*.tsx`. -/
theorem same_key_cases (h : extension path = extension path') :
    (ascii ".tsx" <:+ path ↔ ascii ".tsx" <:+ path') ∨
      (path = ascii "tsx" ∧ ascii ".tsx" <:+ path') ∨
      (path' = ascii "tsx" ∧ ascii ".tsx" <:+ path) := by
  by_cases h1 : ascii ".tsx" <:+ path <;> by_cases h2 : ascii ".tsx" <:+ path'
  · exact .inl (iff_of_true h1 h2)
  · exact .inr (.inr ⟨eq_tsx (h.symm.trans (extension_tsx h1)) h2, h1⟩)
  · exact .inr (.inl ⟨eq_tsx (h.trans (extension_tsx h2)) h1, h2⟩)
  · exact .inl (iff_of_false h1 h2)

variable {parsers : Parsers} {calls : List IndexCall} {source : Bytes}

/-- In a run that meets the condition, the key determines the limited extraction. -/
theorem key_determines (htsx : TsxAgrees parsers calls) (hp : ReadIn calls path source)
    (hp' : ReadIn calls path' source) (h : extension path = extension path') :
    limitFacts (extract parsers path source) = limitFacts (extract parsers path' source) := by
  rcases same_key_cases h with hiff | ⟨rfl, hsuffix⟩ | ⟨rfl, hsuffix⟩
  · rw [extract_congr parsers h hiff]
  · exact htsx path' source hp hp' hsuffix
  · exact (htsx path source hp' hp hsuffix).symm

/-! ## Runs -/

/-- An extraction is the fresh one for every file of the run with the key. -/
def KeyFacts (build : Build) (parsers : Parsers) (calls : List IndexCall)
    (revision : ContentRevision) (grammar : Bytes) (e : Extraction) : Prop :=
  ∀ path source, ReadIn calls path source → build.hash source = revision →
    extension path = grammar → limitFacts e = limitFacts (extract parsers path source)

variable {build : Build} {previous : List CacheRow} {file : ScannedFile}

theorem extraction_limited {entries : List WalkEntry}
    (h : ScannedFrom build parsers previous entries file) (hsource : file.source = some source) :
    limitFacts file.extraction = file.extraction ∧ file.revision = some (build.hash source) ∧
      ∃ entry, WalkEntry.file entry ∈ entries ∧ encodePath entry.relative = file.path ∧
        (readSource entry).1 = some source := by
  obtain ⟨entry, staged, cache, hentry, hfile⟩ := h
  obtain ⟨hpath, ⟨source', hread, -, hsome, -, -, hrevision, hcached⟩ | ⟨-, hnone, -⟩⟩ :=
    scanFile_ok hfile
  · rw [hsource] at hsome
    cases hsome
    obtain ⟨⟨recalled, hlimited, -⟩, -⟩ := cachedExtraction_ok hcached
    refine ⟨?_, hrevision, entry, hentry, hpath.symm, by rw [hread]⟩
    rw [hlimited, limitFacts_limitFacts]
  · rw [hsource] at hnone
    cases hnone

/-- **The cache is transparent where the key says enough.** Over every run with
one set of parsers, if the hash does not collide on the sources read and no
source occurs in both kinds of `tsx` file with different facts, then every
staged extraction is the one of a fresh call of the extractor. -/
theorem cache_transparent (build : Build) (parsers : Parsers) (indexEpoch : Bytes)
    (calls : List IndexCall) (hparsers : ∀ call ∈ calls, call.parsers = parsers)
    (hhash : Set.InjOn build.hash { source | ∃ path, ReadIn calls path source })
    (htsx : TsxAgrees parsers calls) : Transparent build parsers indexEpoch calls := by
  suffices h : CacheHolds build (KeyFacts build parsers calls)
        (indexRun build indexEpoch calls).1.cache ∧
      Transparent build parsers indexEpoch calls from h.2
  apply indexRun_invariant (fun state =>
    CacheHolds build (KeyFacts build parsers calls) state.1.cache ∧
      ∀ s ∈ state.2, ∀ file ∈ s.scanned, ∀ source, file.source = some source →
        file.extraction = limitFacts (extract parsers file.path source))
  · exact ⟨by simp [Db.create, CacheHolds], by simp⟩
  · intro call hcall state hstate
    rcases indexStep_cases build state call with hsame | ⟨s, hs, hscans, hdb⟩
    · rwa [hsame]
    · -- everything that this scan stages is fresh for its key
      have hfresh := stage_holds (KeyFacts build parsers calls) (fun r g e he path source hread hr hg =>
          by rw [limitFacts_limitFacts]; exact he path source hread hr hg)
        hstate.1 (fun entry hentry source hread path' source' hread' hr hg => by
          have hin : ReadIn calls (encodePath entry.relative) source :=
            ⟨call, hcall, entry, hentry, rfl, hread⟩
          have hsource : source' = source := hhash ⟨_, hread'⟩ ⟨_, hin⟩ hr
          subst hsource
          rw [hparsers call hcall]
          exact key_determines htsx hin hread' hg.symm) hs
      have hscan : ∀ file ∈ s.scanned, ∀ source, file.source = some source →
          file.extraction = limitFacts (extract parsers file.path source) := by
        intro file hfile source hsource
        obtain ⟨hlimited, hrevision, entry, hentry, hpath, hread⟩ :=
          extraction_limited ((stage_shape hs).2.2 file hfile) hsource
        have hkey := hfresh.2 file hfile _ hrevision file.path source
          ⟨call, hcall, entry, hentry, hpath, hread⟩ rfl rfl
        rwa [hlimited] at hkey
      refine ⟨?_, ?_⟩
      · rcases hdb with hdb | ⟨-, hcache, -⟩
        · rw [hdb]
          exact hstate.1
        · rw [hcache]
          exact hfresh.1
      · intro t ht
        rw [hscans, mem_append, mem_singleton] at ht
        rcases ht with ht | rfl
        · exact hstate.2 t ht
        · exact hscan

/-! ## A renamed file -/

section Example

/-- A type assertion in TypeScript; in TSX an element that is not closed. -/
def assertionSource : Bytes := ascii "<x>y;"

def assertionRead (name : String) (start : ℕ) (role : String) : Occurrence :=
  ⟨name, start, start + 1, role, none, [], "observed_syntax"⟩

/-- What the two grammars make of `<x>y;`. -/
def assertionFacts : Grammar → Facts
  | .tsx => ⟨.parseError, [], [assertionRead "x" 1 "read"], []⟩
  | _ => ⟨.complete, [], [assertionRead "x" 1 "type", assertionRead "y" 3 "read"], []⟩

/-- Parsers that treat the example as tree-sitter does. -/
def assertionParsers : Parsers where
  csharp _ := ⟨.complete, [], [], []⟩
  php _ := ⟨.complete, [], [], []⟩
  dreammaker _ := ⟨.complete, [], [], []⟩
  syntaxWith grammar source :=
    if source = assertionSource then assertionFacts grammar else ⟨.complete, [], [], []⟩

/-- A scan of a tree with that source in one file. -/
def assertionCall (name : String) : IndexCall where
  entries := [.file ⟨ascii name, some 5, some (5, assertionSource)⟩]
  parsers := assertionParsers
  resolves := true
  root := ascii "/tree"
  captureStartedMs := 1
  captureCompletedMs := 2
  now := 3
  lookup _ _ := .notFound

instance : Countable Digest :=
  Function.Injective.countable (f := Digest.toHex) Digest.toHex_injective

deriving instance Countable for SourceLanguage
deriving instance Countable for Status
deriving instance Countable for Definition
deriving instance Countable for Occurrence
deriving instance Countable for Relationship
deriving instance Countable for Extraction
deriving instance Countable for ChangeKind
deriving instance Countable for PublicationChange

/-- The facts of the TSX grammar. -/
def assertionExtraction : Extraction := (assertionFacts .tsx).toExtraction .typescript

/-- Their JSON text; 123 is the opening brace. -/
def assertionJson : Bytes := 123 :: ascii (
  "\"language\":\"typescript\",\"status\":\"parse_error\",\"definitions\":[],\"occurrences\":[" ++
  "\x7b\"name\":\"x\",\"start\":1,\"end\":2,\"role\":\"read\",\"target\":null,\"candidates\":[]," ++
  "\"provenance\":\"observed_syntax\"\x7d],\"relationships\":[]\x7d")

/-- A build whose serialiser writes the example as `serde_json` does. -/
noncomputable def assertionBuild : Build where
  hash := blake3
  cargoLock := []
  extractions := (Codec.ofCountable Extraction).patch assertionExtraction assertionJson
    (Codec.ofCountable_encode_ne (by simp [assertionJson]))
  changes := Codec.ofCountable PublicationChange

/-- A first publication with one new file succeeds. -/
theorem appendObservations_first (codec : Codec PublicationChange)
    (lookup : Bytes → Bytes → Lookup) (publication : Publication) (staged : FilesTable)
    {root : Bytes} (hroot : decodePath publication.root = .ok root) {row : FileRow}
    (hrows : staged.rows = [row]) :
    ∃ journal, appendObservations codec lookup publication .empty staged ⟨[], []⟩ = .ok journal := by
  have hdiff : diffRows .empty staged = [⟨row.path, none, row.revision, none, some row.status⟩] := by
    simp [diffRows, hrows, FilesTable.empty, addedRow, FilesTable.find]
  have happend : ∃ r, appendRows codec lookup root publication.generation
      ((diffRows .empty staged).take (maxObservations + 1)) 0 0 [] = .ok r := by
    have hdescribe : describeRow lookup root publication.generation
        ⟨row.path, none, row.revision, none, some row.status⟩ = .ok ⟨publication.generation,
          row.path, none, row.revision, none, some row.status, .added⟩ := rfl
    rw [hdiff, take_succ_cons, take_nil]
    simp only [appendRows, hdescribe, bind, Except.bind]
    split_ifs
    · exact ⟨_, rfl⟩
    · exact ⟨_, rfl⟩
  obtain ⟨⟨observations, complete⟩, happend⟩ := happend
  unfold appendObservations
  rw [hroot]
  simp only [Except.mapError, bind, Except.bind, happend]
  exact ⟨_, rfl⟩

/-- A call of `index` on a new database publishes its scan if the journal can be
written. -/
theorem indexLeased_first (call : IndexCall) {indexEpoch : Bytes} {s : ScanState}
    {journal : Journal} (hs : stage build call.parsers [] call.entries = .ok s)
    (hresolves : call.resolves = true)
    (hjournal : appendObservations build.changes call.lookup
      (call.publication (Db.create indexEpoch)) .empty s.staged.files ⟨[], []⟩ = .ok journal) :
    ∃ db, indexLeased build call (Db.create indexEpoch) = .ok (.published db) ∧
      db.cache = s.staged.cache ∧ db.coverage = s.coverage ∧ db.publication.isSome ∧
      db.fingerprint =
        some (resolvedFingerprint build (s.fingerprint build) sharedResolverRevision) := by
  have hs' : stage build call.parsers (Db.create indexEpoch).cache call.entries = .ok s := hs
  have hnone : ∀ f, (Db.create indexEpoch).fingerprint ≠ some f := fun f h => by cases h
  have hjournal' : appendObservations build.changes call.lookup
      (call.publication (Db.create indexEpoch)) (Db.create indexEpoch).files s.staged.files
      (Db.create indexEpoch).journal = .ok journal := hjournal
  unfold indexLeased publish
  simp only [hs', bind, Except.bind, hnone, false_and, if_false, hresolves, if_true, hjournal']
  exact ⟨_, rfl, rfl, rfl, rfl, rfl⟩

/-- A scan of one file. -/
theorem stage_single {entry : FileEntry} {cache : List CacheRow}
    (h : scanFile build parsers previous [] entry = .ok (file, cache)) :
    ∃ s, stage build parsers previous [.file entry] = .ok s ∧ s.scanned = [file] ∧
      s.staged.cache = cache ∧ s.staged.files.rows = [file.row] := by
  have hstage : stage build parsers previous [.file entry] =
      stageEntry build parsers previous (ScanState.start build) (.file entry) := by
    unfold stage
    simp [List.foldlM]
  rw [hstage]
  simp only [stageEntry, ScanState.start, h, bind, Except.bind]
  exact ⟨_, rfl, rfl, rfl, rfl⟩

theorem readSource_assertion (name : String) :
    readSource ⟨ascii name, some 5, some (5, assertionSource)⟩ = (some assertionSource, .read, 5) := by
  have : readContained (some (5, assertionSource)) maxSourceBytes = .ok assertionSource := by
    decide +kernel
  simp only [readSource, this]
  decide +kernel

variable {path : Bytes} {key : Bytes} {e : Extraction}

/-- What the example's scans stage, given what is recalled. -/
theorem scanFile_assertion (name : String) (hpath : encodePath (ascii name) = path)
    (hkey : extension path = key)
    (h : recalledExtraction assertionBuild assertionParsers previous path
      (blake3 assertionSource) assertionSource = .ok e) (hlimit : limitFacts e = e)
    (hstatus : e.status ≠ .cancelled) :
    scanFile assertionBuild assertionParsers previous []
        ⟨ascii name, some 5, some (5, assertionSource)⟩ =
      .ok (⟨path, some assertionSource, .read, 5, some (blake3 assertionSource), e⟩,
        [⟨blake3 assertionSource, key, extractionCacheVersion assertionBuild,
          assertionBuild.extractions.encode e⟩]) := by
  unfold scanFile cachedExtraction
  rw [readSource_assertion]
  have hhash : assertionBuild.hash assertionSource = blake3 assertionSource := rfl
  simp only [hhash, hpath, h, bind, Except.bind, hlimit, ne_eq, hstatus, not_false_eq_true,
    if_true, hkey]
  rfl

/-- The first scan caches the facts of the TSX grammar and is published. -/
theorem index_assertion_first : ∃ s db,
    indexStep assertionBuild (Db.create [], []) (assertionCall "a.tsx") = (db, [s]) ∧
    db.cache = [⟨blake3 assertionSource, ascii "tsx", extractionCacheVersion assertionBuild,
      assertionBuild.extractions.encode assertionExtraction⟩] := by
  have hextract : extract assertionParsers (ascii "a.tsx") assertionSource = assertionExtraction := by
    decide
  have hrecalled : recalledExtraction assertionBuild assertionParsers [] (ascii "a.tsx")
      (blake3 assertionSource) assertionSource = .ok assertionExtraction := by
    rw [← hextract]
    rfl
  obtain ⟨s, hs, -, hcache, hrows⟩ := stage_single
    (scanFile_assertion "a.tsx" (by decide) (show _ = ascii "tsx" by decide) hrecalled rfl
      (by decide))
  have hroot : decodePath ((assertionCall "a.tsx").publication (Db.create [])).root =
      .ok (ascii "/tree") := by decide
  obtain ⟨journal, hjournal⟩ := appendObservations_first assertionBuild.changes
    (assertionCall "a.tsx").lookup _ s.staged.files hroot hrows
  obtain ⟨db, hdb, hdbcache, -⟩ := indexLeased_first (assertionCall "a.tsx") hs rfl hjournal
  refine ⟨s, db, ?_, hdbcache.trans hcache⟩
  have hs' : stage assertionBuild (assertionCall "a.tsx").parsers (Db.create []).cache
      (assertionCall "a.tsx").entries = .ok s := hs
  simp only [indexStep, hs', hdb, nil_append]

/-- A row that was not cancelled is recalled for every path with its key. -/
theorem recalledExtraction_single (build : Build) (parsers : Parsers) (revision : ContentRevision)
    (hkey : extension path = key)
    (hstatus : e.status ≠ .cancelled) :
    recalledExtraction build parsers
      [⟨revision, key, extractionCacheVersion build, build.extractions.encode e⟩] path revision
      source = .ok e := by
  simp [recalledExtraction, findCached, hkey, hstatus]

/-- The second scan recalls them for a file with another grammar. -/
theorem index_assertion_second {db : Db} (scans : List ScanState)
    (hcache : db.cache = [⟨blake3 assertionSource, ascii "tsx",
      extractionCacheVersion assertionBuild, assertionBuild.extractions.encode assertionExtraction⟩]) :
    ∃ s ∈ (indexStep assertionBuild (db, scans) (assertionCall "tsx")).2, ∃ file ∈ s.scanned,
      file.path = ascii "tsx" ∧ file.source = some assertionSource ∧
        file.extraction = assertionExtraction := by
  have hkey : extension (ascii "tsx") = ascii "tsx" := by decide
  have hstatus : assertionExtraction.status ≠ .cancelled := by decide
  have hrecalled : recalledExtraction assertionBuild assertionParsers db.cache (ascii "tsx")
      (blake3 assertionSource) assertionSource = .ok assertionExtraction := by
    rw [hcache]
    exact recalledExtraction_single _ _ _ hkey hstatus
  obtain ⟨s, hs, hscanned, -⟩ := stage_single
    (scanFile_assertion "tsx" (by decide) hkey hrecalled rfl hstatus)
  have hs' : stage assertionBuild (assertionCall "tsx").parsers (db, scans).1.cache
      (assertionCall "tsx").entries = .ok s := hs
  refine ⟨s, ?_, _, by rw [hscanned]; exact mem_singleton_self _, rfl, rfl, rfl⟩
  rw [indexStep_scans hs']
  simp

theorem readIn_assertion (h : ∀ call ∈ calls, ∃ name, call = assertionCall name)
    (hread : ReadIn calls path source) : source = assertionSource := by
  obtain ⟨call, hcall, entry, hentry, -, hsource⟩ := hread
  obtain ⟨name, rfl⟩ := h call hcall
  have hentry : entry = ⟨ascii name, some 5, some (5, assertionSource)⟩ := by
    simpa [assertionCall] using hentry
  rw [hentry, readSource_assertion] at hsource
  exact (Option.some.inj hsource).symm

theorem assertion_not_cancelled (path source : Bytes) :
    (extract assertionParsers path source).status ≠ .cancelled := by
  unfold Extract.extract
  cases language path <;> simp only [Facts.toExtraction, Extraction.empty, assertionParsers] <;>
    first
    | decide
    | (split
       · split_ifs
         · rename_i g _ _
           cases g <;> decide
         · decide
       · decide)

/-- **The cache is not transparent.** A file `a.tsx` is scanned, renamed to `tsx` and
scanned again. The parsers are the same in both scans, no scan is cancelled and
the hash does not collide; the file is staged as a parse error of the TSX
grammar, although the extractor takes it for correct TypeScript. -/
theorem cache_not_transparent :
    let calls := [assertionCall "a.tsx", assertionCall "tsx"]
    (∀ call ∈ calls, call.parsers = assertionParsers) ∧
    (∀ path source, (extract assertionParsers path source).status ≠ .cancelled) ∧
    Set.InjOn assertionBuild.hash { source | ∃ path, ReadIn calls path source } ∧
    ∃ s ∈ (indexRun assertionBuild [] calls).2, ∃ file ∈ s.scanned,
      file.path = ascii "tsx" ∧ file.source = some assertionSource ∧
      file.extraction.status = .parseError ∧
      (limitFacts (extract assertionParsers file.path assertionSource)).status = .complete := by
  intro calls
  refine ⟨by simp [calls, assertionCall], assertion_not_cancelled, ?_, ?_⟩
  · have hcalls : ∀ call ∈ calls, ∃ name, call = assertionCall name := by
      simp [calls]
    rintro a ⟨p, hp⟩ b ⟨q, hq⟩ -
    rw [readIn_assertion hcalls hp, readIn_assertion hcalls hq]
  · obtain ⟨s, db, hfirst, hcache⟩ := index_assertion_first
    obtain ⟨t, ht, file, hfile, hpath, hsource, hextraction⟩ :=
      index_assertion_second [s] hcache
    have hrun : indexRun assertionBuild [] calls =
        indexStep assertionBuild (db, [s]) (assertionCall "tsx") := by
      simp only [indexRun, calls, foldl_cons, foldl_nil, hfirst]
    refine ⟨t, hrun ▸ ht, file, hfile, hpath, hsource, ?_, ?_⟩
    · rw [hextraction]
      rfl
    · rw [hpath]
      decide

/-- Two scans of `a.tsx` meet the condition. -/
theorem cache_transparent_rescan :
    Transparent assertionBuild assertionParsers []
      [assertionCall "a.tsx", assertionCall "a.tsx"] := by
  have hcalls : ∀ call ∈ [assertionCall "a.tsx", assertionCall "a.tsx"],
      ∃ name, call = assertionCall name := by
    simp
  apply cache_transparent
  · simp [assertionCall]
  · rintro a ⟨p, hp⟩ b ⟨q, hq⟩ -
    rw [readIn_assertion hcalls hp, readIn_assertion hcalls hq]
  · rintro path source ⟨call, hcall, entry, hentry, hpath, -⟩ - -
    have : call = assertionCall "a.tsx" := by simpa using hcall
    subst this
    have hentry : entry = ⟨ascii "a.tsx", some 5, some (5, assertionSource)⟩ := by
      simpa [assertionCall] using hentry
    rw [hentry] at hpath
    exact absurd hpath (by decide)

end Example

end Trufflepig.Store
