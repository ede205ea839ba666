import Trufflepig.Lib.Framing
import Trufflepig.Store.ExtractionCache

/-!
# The fingerprint determines the scan

The bytes that a scan hashes are a concatenation without separators: a record
for every file, then the number of walk failures. Two status texts are prefixes
of others (`read` of `read_error`, `recovered` of `recovered_incomplete`); they
are told apart because a length below 2^24 follows them, whose fourth byte is
zero.

* `recordBytes_append_inj`: a record can be read off the front of the bytes.
* `records_inj`: so can the whole sequence.
* `scan_fingerprint_faithful`: scans with equal fingerprints have equal records
  and walk failures, and over every run `index` reports an unchanged tree only if
  the staged `files` table is the published one.
-/

namespace Trufflepig.Store

open List Lib Extract

/-! ## Specification -/

/-- What a scan records of a file. -/
structure FileRecord where
  path : Bytes
  status : Status
  length : UInt64
  revision : Option ContentRevision
  extractionStatus : Status
  deriving DecidableEq

/-- The record of a scanned file. -/
def ScannedFile.record (file : ScannedFile) : FileRecord where
  path := file.path
  status := file.status
  length := file.length
  revision := file.revision
  extractionStatus := file.extraction.status

/-- The records of a scan in the order of the walk. -/
def ScanState.records (s : ScanState) : List FileRecord := s.scanned.map ScannedFile.record

/-- Path lengths and walk failures are below 2^24. -/
def ScanState.Small (s : ScanState) : Prop :=
  (∀ file ∈ s.scanned, file.path.length < 2 ^ 24) ∧ s.coverage.walkFailures < 2 ^ 24

/-- What the fingerprints of some scans were computed from. -/
def hashedInputs (build : Build) (scans : List ScanState) : Set Bytes :=
  { input | ∃ s ∈ scans, input = s.preimage ∨
      input = resolvedPreimage (s.fingerprint build) sharedResolverRevision }

/-! ## Reading a record off the bytes -/

/-- What `stage` hashes of a record. -/
def FileRecord.bytes (record : FileRecord) : Bytes :=
  leBytes 8 record.path.length ++ record.path ++ record.status.text
    ++ leBytes 8 record.length.toNat ++ (record.revision.map Digest.toHex).getD []
    ++ record.extractionStatus.text

/-- The records that a scan can produce, with a bound on the path. -/
structure FileRecord.Valid (record : FileRecord) : Prop where
  path_length : record.path.length < 2 ^ 24
  shape : (record.status = .read ∧ record.length.toNat < 2 ^ 24 ∧ record.revision.isSome) ∨
    (record.status ∈ unreadStatuses ∧ record.revision = none ∧
      record.extractionStatus = record.status)

theorem status_separated (s t : Status) (h : s ≠ t) : Separated 3 0 s.text t.text := by
  revert h
  cases s <;> cases t <;> decide

theorem unread_diverges : ∀ s ∈ unreadStatuses, ∀ t ∈ unreadStatuses, s ≠ t →
    Diverges s.text t.text := by
  decide

theorem read_diverges : ∀ s ∈ unreadStatuses, s ≠ .readError →
    Diverges (Status.text .read) s.text := by
  decide

theorem readError_mark : (Status.text .readError)[(Status.text .read).length + 3]? = some 114 := by
  decide

/-- `read` before a small length cannot be taken for another status. -/
theorem read_append_ne {length : UInt64} (hlength : length.toNat < 2 ^ 24) {s : Status}
    (hs : s ∈ unreadStatuses) (x y : Bytes) :
    Status.text .read ++ (leBytes 8 length.toNat ++ x) ≠ s.text ++ y := by
  by_cases h : s = .readError
  · subst h
    exact append_ne_of_mark (marked_leBytes (by omega) (by simpa using hlength) x) readError_mark
      (by decide) y
  · exact append_ne_of_diverges (read_diverges s hs h) _ _

/-- The first status of valid records can be read off. -/
theorem status_append_inj {r r' : FileRecord} (hr : r.Valid) (hr' : r'.Valid) {x y : Bytes}
    (h : r.status.text ++ (leBytes 8 r.length.toNat ++ x) =
      r'.status.text ++ (leBytes 8 r'.length.toNat ++ y)) : r.status = r'.status := by
  rcases hr.shape with ⟨hs, hlen, -⟩ | ⟨hs, -, -⟩ <;>
    rcases hr'.shape with ⟨hs', hlen', -⟩ | ⟨hs', -, -⟩
  · rw [hs, hs']
  · rw [hs] at h
    exact absurd h (read_append_ne hlen hs' _ _)
  · rw [hs'] at h
    exact absurd h.symm (read_append_ne hlen' hs _ _)
  · by_contra hne
    exact append_ne_of_diverges (unread_diverges _ hs _ hs' hne) _ _ h

theorem leBytes_small_inj {m n : ℕ} (hm : m < 2 ^ 24) (hn : n < 2 ^ 24)
    (h : leBytes 8 m = leBytes 8 n) : m = n :=
  leBytes_injective (show m < 256 ^ 8 by omega) (show n < 256 ^ 8 by omega) h

theorem leBytes_length_inj {m n : UInt64} (h : leBytes 8 m.toNat = leBytes 8 n.toNat) : m = n :=
  UInt64.toNat_inj.mp (leBytes_injective m.toNat_lt n.toNat_lt h)

/-- A valid record can be read off the front of the hashed bytes, if what
follows starts with a small number. -/
theorem recordBytes_append_inj {r r' : FileRecord} (hr : r.Valid) (hr' : r'.Valid) {x y : Bytes}
    (hx : Marked 3 0 x) (hy : Marked 3 0 y) (h : r.bytes ++ x = r'.bytes ++ y) :
    r = r' ∧ x = y := by
  simp only [FileRecord.bytes, append_assoc] at h
  -- the length of the path, then the path
  obtain ⟨hcount, h1⟩ := append_inj h (by simp)
  have hpathlen := leBytes_small_inj hr.path_length hr'.path_length hcount
  obtain ⟨hpath, h2⟩ := append_inj h1 hpathlen
  -- the status, then the length of the file
  have hstatus := status_append_inj hr hr' h2
  rw [hstatus] at h2
  obtain ⟨hbytes, h3⟩ := append_inj (append_cancel_left h2) (by simp)
  have hlength := leBytes_length_inj hbytes
  clear h h1 h2 hcount hpathlen hbytes
  obtain ⟨p, s, l, v, e⟩ := r
  obtain ⟨p', s', l', v', e'⟩ := r'
  obtain ⟨-, hshape⟩ := hr
  obtain ⟨-, hshape'⟩ := hr'
  simp only at hpath hstatus hlength h3 hshape hshape'
  subst hpath hstatus hlength
  -- the revision is there for both records or for neither
  rcases hshape with ⟨rfl, -, hv⟩ | ⟨hs, rfl, rfl⟩ <;>
    rcases hshape' with ⟨hs', -, hv'⟩ | ⟨hs', rfl, rfl⟩
  · obtain ⟨d, rfl⟩ := Option.isSome_iff_exists.mp hv
    obtain ⟨d', rfl⟩ := Option.isSome_iff_exists.mp hv'
    obtain ⟨hhex, h4⟩ := append_inj h3 (by simp)
    obtain ⟨rfl, hxy⟩ := text_append_inj status_separated hx hy h4
    rw [show d = d' from Digest.toHex_injective hhex]
    exact ⟨rfl, hxy⟩
  · exact absurd hs' (by decide)
  · exact absurd (hs' ▸ hs) (by decide)
  · exact ⟨rfl, append_cancel_left (append_cancel_left h3)⟩

theorem marked_records {records : List FileRecord} (hvalid : ∀ r ∈ records, r.Valid) {n : ℕ}
    (hn : n < 2 ^ 24) : Marked 3 0 (records.flatMap FileRecord.bytes ++ leBytes 8 n) := by
  cases records with
  | nil => simpa using marked_leBytes (show 3 < 8 by omega) (by simpa using hn) []
  | cons r records =>
    simp only [flatMap_cons, FileRecord.bytes, append_assoc]
    apply marked_leBytes (by omega)
    exact (hvalid r mem_cons_self).path_length

/-- A record takes more bytes than the number that ends the hashed bytes. -/
theorem bytes_length_pos (r : FileRecord) : 0 < r.bytes.length := by
  simp only [FileRecord.bytes, length_append, length_leBytes]
  omega

/-- **Unambiguous parsing.** The records and the number behind them can be read
off their concatenation. -/
theorem records_inj {rs rs' : List FileRecord} (hrs : ∀ r ∈ rs, r.Valid)
    (hrs' : ∀ r ∈ rs', r.Valid) {n n' : ℕ} (hn : n < 2 ^ 24) (hn' : n' < 2 ^ 24)
    (h : rs.flatMap FileRecord.bytes ++ leBytes 8 n = rs'.flatMap FileRecord.bytes ++ leBytes 8 n') :
    rs = rs' ∧ n = n' := by
  induction rs generalizing rs' with
  | nil =>
    cases rs' with
    | nil =>
      exact ⟨rfl, leBytes_small_inj hn hn' (by simpa using h)⟩
    | cons r' rs' =>
      have := congrArg List.length h
      have := bytes_length_pos r'
      simp at *
      omega
  | cons r rs ih =>
    cases rs' with
    | nil =>
      have := congrArg List.length h
      have := bytes_length_pos r
      simp at *
      omega
    | cons r' rs' =>
      simp only [flatMap_cons, append_assoc] at h
      have htail : ∀ q ∈ rs, q.Valid := fun q hq => hrs q (mem_cons_of_mem _ hq)
      have htail' : ∀ q ∈ rs', q.Valid := fun q hq => hrs' q (mem_cons_of_mem _ hq)
      obtain ⟨rfl, hrest⟩ := recordBytes_append_inj (hrs r mem_cons_self)
        (hrs' r' mem_cons_self) (marked_records htail hn) (marked_records htail' hn') h
      obtain ⟨rfl, rfl⟩ := ih htail htail' hrest
      exact ⟨rfl, rfl⟩

/-! ## Scans -/

theorem toNat_ofNat_length {source : Bytes} (h : source.length ≤ maxSourceBytes) :
    (UInt64.ofNat source.length).toNat < 2 ^ 24 := by
  unfold maxSourceBytes at h
  rw [UInt64.toNat_ofNat_of_lt' (by simp only [UInt64.size]; omega)]
  omega

variable {build : Build} {parsers : Parsers} {previous : List CacheRow} {entries : List WalkEntry}

theorem record_valid {file : ScannedFile} (h : ScannedFrom build parsers previous entries file)
    (hpath : file.path.length < 2 ^ 24) :
    file.record.Valid := by
  obtain ⟨entry, staged, cache, -, hfile⟩ := h
  refine ⟨hpath, ?_⟩
  obtain ⟨-, ⟨source, -, hlen, -, hstatus, hlength, hrevision, -⟩ |
    ⟨-, -, hstatus, hrevision, hextraction, -⟩⟩ := scanFile_ok hfile
  · left
    refine ⟨hstatus, ?_, ?_⟩
    · show file.length.toNat < 2 ^ 24
      rw [hlength]
      exact toNat_ofNat_length hlen
    · show file.revision.isSome
      rw [hrevision]
      rfl
  · right
    refine ⟨hstatus, hrevision, ?_⟩
    show file.extraction.status = file.status
    rw [hextraction]
    rfl

/-- A scan's hashed bytes determine its records and its walk failures. -/
theorem preimage_inj {parsers' : Parsers} {previous' : List CacheRow} {entries' : List WalkEntry}
    {s t : ScanState} (hs : stage build parsers previous entries = .ok s)
    (ht : stage build parsers' previous' entries' = .ok t) (hsmall : s.Small) (tsmall : t.Small)
    (h : s.preimage = t.preimage) :
    s.records = t.records ∧ s.coverage.walkFailures = t.coverage.walkFailures := by
  obtain ⟨hs1, -, hs3⟩ := stage_shape hs
  obtain ⟨ht1, -, ht3⟩ := stage_shape ht
  have hflat : ∀ files : List ScannedFile, files.flatMap ScannedFile.hashed =
      (files.map ScannedFile.record).flatMap FileRecord.bytes := by
    intro files
    rw [flatMap_map]
    rfl
  rw [ScanState.preimage, ScanState.preimage, hs1, ht1, append_assoc, append_assoc,
    hflat, hflat] at h
  apply records_inj ?_ ?_ hsmall.2 tsmall.2 (append_cancel_left h)
  · intro r hr
    obtain ⟨file, hfile, rfl⟩ := mem_map.mp hr
    exact record_valid (hs3 file hfile) (hsmall.1 file hfile)
  · intro r hr
    obtain ⟨file, hfile, rfl⟩ := mem_map.mp hr
    exact record_valid (ht3 file hfile) (tsmall.1 file hfile)

/-! ## The language column -/

theorem extract_language (parsers : Parsers) (path source : Bytes) :
    (extract parsers path source).language = languageOf (extension path) := by
  rw [show languageOf (extension path) = language path from rfl]
  unfold Extract.extract
  cases h : language path <;> simp only [Facts.toExtraction, Extraction.empty] <;>
    split <;> rfl

/-- A cached extraction has the language of its key. -/
def HasLanguage (_ : ContentRevision) (grammar : Bytes) (e : Extraction) : Prop :=
  e.language = languageOf grammar

/-- The row that a record stands for. -/
def FileRecord.row (record : FileRecord) : FileRow where
  path := record.path
  revision := record.revision
  language := language record.path
  status := record.extractionStatus
  bytes := record.length

theorem stage_languages {s : ScanState} (hprevious : CacheHolds build HasLanguage previous)
    (h : stage build parsers previous entries = .ok s) :
    CacheHolds build HasLanguage s.staged.cache ∧
      s.staged.files.rows = s.records.map FileRecord.row := by
  obtain ⟨hcache, hscanned⟩ := stage_holds HasLanguage
    (fun r g e he => by rw [HasLanguage, limitFacts_language]; exact he) hprevious
    (fun entry _ source _ => extract_language _ _ _) h
  refine ⟨hcache, ?_⟩
  obtain ⟨-, hrows, hfrom⟩ := stage_shape h
  rw [hrows, ScanState.records, map_map]
  apply map_congr_left
  intro file hfile
  have hlanguage : file.extraction.language = language file.path := by
    cases hrevision : file.revision with
    | some revision => exact hscanned file hfile revision hrevision
    | none =>
      obtain ⟨entry, staged, cache, -, hscan⟩ := hfrom file hfile
      obtain ⟨-, ⟨source, -, -, -, -, -, hsome, -⟩ | ⟨-, -, -, -, hextraction, -⟩⟩ :=
        scanFile_ok hscan
      · rw [hsome] at hrevision
        cases hrevision
      · rw [hextraction]
        rfl
  simp only [ScannedFile.row, FileRecord.row, ScannedFile.record, Function.comp_apply, hlanguage]

/-! ## Runs of `index` -/

/-- The published table and fingerprint come from one of the scans made so far. -/
structure IndexOk (build : Build) (db : Db) (scans : List ScanState) : Prop where
  cache : CacheHolds build HasLanguage db.cache
  scanned : ∀ s ∈ scans, s.staged.files.rows = s.records.map FileRecord.row ∧
    ∃ parsers previous entries, stage build parsers previous entries = .ok s
  published : db.fingerprint = none ∨ ∃ s ∈ scans, db.files = s.staged.files ∧
    db.fingerprint = some (resolvedFingerprint build (s.fingerprint build) sharedResolverRevision)

theorem indexOk_step {state : Db × List ScanState} (hok : IndexOk build state.1 state.2)
    (call : IndexCall) :
    IndexOk build (indexStep build state call).1 (indexStep build state call).2 := by
  rcases indexStep_cases build state call with hsame | ⟨s, hs, hscans, hdb⟩
  · rwa [hsame]
  · obtain ⟨hcache, hrows⟩ := stage_languages hok.cache hs
    rw [hscans]
    have hscanned : ∀ t ∈ state.2 ++ [s], t.staged.files.rows = t.records.map FileRecord.row ∧
        ∃ parsers previous entries, stage build parsers previous entries = .ok t := by
      intro t ht
      rw [mem_append, mem_singleton] at ht
      rcases ht with ht | rfl
      · exact hok.scanned t ht
      · exact ⟨hrows, _, _, _, hs⟩
    rcases hdb with hdb | ⟨hfiles, hdbcache, hfingerprint⟩
    · rw [hdb]
      refine ⟨hok.cache, hscanned, hok.published.imp_right ?_⟩
      rintro ⟨t, ht, h⟩
      exact ⟨t, mem_append_left _ ht, h⟩
    · exact ⟨hdbcache ▸ hcache, hscanned, Or.inr ⟨s, by simp, hfiles, hfingerprint⟩⟩

theorem indexOk_run (build : Build) (indexEpoch : Bytes) (calls : List IndexCall) :
    IndexOk build (indexRun build indexEpoch calls).1 (indexRun build indexEpoch calls).2 := by
  apply indexRun_invariant (fun state => IndexOk build state.1 state.2)
  · exact ⟨by simp [Db.create, CacheHolds], by simp, Or.inl rfl⟩
  · intro call _ state hok
    exact indexOk_step hok call

theorem resolvedPreimage_inj {a b revision : Bytes} (h : resolvedPreimage a revision =
    resolvedPreimage b revision) : a = b := by
  unfold resolvedPreimage at h
  exact append_cancel_left (append_cancel_right h)

theorem filesTable_ext {t t' : FilesTable} (h : t.rows = t'.rows) : t = t' := by
  cases t
  cases t'
  simpa using h

/-- **The fingerprint is faithful.** If the hash does not collide on what two
scans hash, equal fingerprints mean equal sequences of file records and equal
numbers of walk failures. If it does not collide on what the scans of a run
hash, a further call of `index` reports an unchanged tree only when the table
it staged is the published one. -/
theorem scan_fingerprint_faithful (build : Build) :
    (∀ (parsers parsers' : Parsers) (previous previous' : List CacheRow)
        (entries entries' : List WalkEntry) (s t : ScanState),
      stage build parsers previous entries = .ok s →
      stage build parsers' previous' entries' = .ok t → s.Small → t.Small →
      Set.InjOn build.hash {s.preimage, t.preimage} →
      s.fingerprint build = t.fingerprint build →
      s.records = t.records ∧ s.coverage.walkFailures = t.coverage.walkFailures) ∧
    ∀ (indexEpoch : Bytes) (calls : List IndexCall) (call : IndexCall) (s : ScanState),
      let db := (indexRun build indexEpoch calls).1
      let scans := (indexRun build indexEpoch calls).2
      stage build call.parsers db.cache call.entries = .ok s →
      indexLeased build call db = .ok .unchanged →
      (∀ t ∈ s :: scans, t.Small) → Set.InjOn build.hash (hashedInputs build (s :: scans)) →
      s.staged.files = db.files := by
  refine ⟨?_, ?_⟩
  · intro parsers parsers' previous previous' entries entries' s t hs ht hsmall tsmall hinj h
    have hhash := Digest.toHex_injective h
    exact preimage_inj hs ht hsmall tsmall (hinj (by simp) (by simp) hhash)
  · intro indexEpoch calls call s db scans hs hindex hsmall hinj
    have hok : IndexOk build db scans := indexOk_run build indexEpoch calls
    obtain ⟨s', hs', ⟨-, hfingerprint⟩ | ⟨db', hpublished, -⟩⟩ := indexLeased_ok hindex
    · rw [hs] at hs'
      cases hs'
      rcases hok.published with hnone | ⟨t, ht, hfiles, hdb⟩
      · rw [hnone] at hfingerprint
        cases hfingerprint
      · -- the stored fingerprint is that of an earlier scan, so both hashed the same bytes
        rw [hfingerprint] at hdb
        have hmem : ∀ u ∈ s :: scans, u.preimage ∈ hashedInputs build (s :: scans) :=
          fun u hu => ⟨u, hu, Or.inl rfl⟩
        have hmem' : ∀ u ∈ s :: scans, resolvedPreimage (u.fingerprint build)
            sharedResolverRevision ∈ hashedInputs build (s :: scans) :=
          fun u hu => ⟨u, hu, Or.inr rfl⟩
        have hs0 : s ∈ s :: scans := mem_cons_self
        have ht0 : t ∈ s :: scans := mem_cons_of_mem _ ht
        have hscan := resolvedPreimage_inj
          (hinj (hmem' s hs0) (hmem' t ht0) (Digest.toHex_injective (Option.some.inj hdb)))
        have hpre := hinj (hmem s hs0) (hmem t ht0) (Digest.toHex_injective hscan)
        obtain ⟨htrows, parsers, previous, entries, hstage⟩ := hok.scanned t ht
        have hrecords := (preimage_inj hs hstage (hsmall s hs0) (hsmall t ht0) hpre).1
        apply filesTable_ext
        rw [hfiles, (stage_languages hok.cache hs).2, htrows, hrecords]
    · cases hpublished

/-- A build whose hash keeps the length of its input only. -/
noncomputable def lengthBuild : Build :=
  { assertionBuild with hash := fun input => ⟨leBytes 32 input.length, by simp⟩ }

/-- A walk that fails once and finds a file that cannot be read. -/
def unreadCall : IndexCall :=
  { assertionCall "a.rs" with entries := [.failure, .file ⟨ascii "a.rs", none, none⟩] }

theorem stage_unread : ∃ s row,
    (∀ previous, stage lengthBuild unreadCall.parsers previous unreadCall.entries = .ok s) ∧
    s.staged.files.rows = [row] ∧ s.staged.cache = [] ∧ s.Small ∧ lengthBuild.hash s.preimage ≠
      lengthBuild.hash (resolvedPreimage (s.fingerprint lengthBuild) sharedResolverRevision) := by
  refine ⟨_, _, fun _ => rfl, rfl, rfl, ?_, by decide +kernel⟩
  unfold ScanState.Small
  decide +kernel

/-- A second call of `index` finds nothing new. -/
theorem scan_fingerprint_faithful_unread : ∃ s t db,
    stage lengthBuild unreadCall.parsers [] unreadCall.entries = .ok s ∧
    stage lengthBuild unreadCall.parsers [] (.other :: unreadCall.entries) = .ok t ∧
    s.records = t.records ∧ indexRun lengthBuild [] [unreadCall] = (db, [s]) ∧
    indexLeased lengthBuild unreadCall db = .ok .unchanged ∧ s.staged.files = db.files := by
  obtain ⟨s, row, hstage, hrow, hcache, hsmall, hne⟩ := stage_unread
  obtain ⟨hrecords, hfiles⟩ := scan_fingerprint_faithful lengthBuild
  have hroot : decodePath (unreadCall.publication (Db.create [])).root = .ok (ascii "/tree") := by
    decide
  obtain ⟨journal, hjournal⟩ := appendObservations_first lengthBuild.changes unreadCall.lookup _
    s.staged.files hroot hrow
  obtain ⟨db, hdb, hdbcache, hcoverage, hpublication, hfingerprint⟩ :=
    indexLeased_first unreadCall (hstage []) rfl hjournal
  have hrun : indexRun lengthBuild [] [unreadCall] = (db, [s]) := by
    simp only [indexRun, foldl_cons, foldl_nil, indexStep, hstage, hdb, nil_append]
  have hunchanged : indexLeased lengthBuild unreadCall db = .ok .unchanged := by
    unfold indexLeased
    simp only [hstage, bind, Except.bind, hfingerprint, hcoverage, hpublication, and_self, if_true]
    rfl
  have hinj : Set.InjOn lengthBuild.hash (hashedInputs lengthBuild [s, s]) := by
    rintro x ⟨u, hu, hx⟩ y ⟨v, hv, hy⟩ h
    obtain rfl : u = s := by simpa using hu
    obtain rfl : v = u := by simpa using hv
    rcases hx with rfl | rfl <;> rcases hy with rfl | rfl
    · rfl
    · exact absurd h hne
    · exact absurd h.symm hne
    · rfl
  refine ⟨s, s, db, hstage [], hstage [], ?_, hrun, hunchanged, ?_⟩
  · exact (hrecords _ _ _ _ _ _ s s (hstage []) (hstage []) hsmall hsmall (by simp) rfl).1
  · have hall := hfiles [] [unreadCall] unreadCall s
    rw [hrun] at hall
    exact hall (hstage _) hunchanged (by simp [hsmall]) hinj

end Trufflepig.Store
