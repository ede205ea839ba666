import Trufflepig.Lib.Tiers
import Trufflepig.Search.QualifiedHits
import Trufflepig.Search.Snippets

/-!
# Sites of a name (`search/navigation/reference_sites.rs`)

`refs NAME` reads the occurrences of a name in path order and puts them into one buffer for each of
four tiers: declarations, other code, imports and tests. The buffers hold one site more than the limit
together, and the loop ends when that many declarations have been seen. Then the sites of one line
with the same resolution become one row.

What `serde_json` writes for a hit is a parameter, of which only the length is used. A `NULL` or a
missing row is the error of the database.

* `collectSites_spec`: the loop gives the same sites as the stable order of all of them by tier.
* `referencesWithLimit_spec`: the sites before the rows are made, for any table of occurrences.
-/

namespace Trufflepig.Search

open List Lib Results

/-! ## Occurrences -/

/-- A row of `occurrences` with its resolution; `candidates` is a JSON list of ids. -/
structure ReferenceRow extends OccurrenceRow where
  target : Option ℤ
  candidates : List ℤ
  provenance : Provenance

/-- The definitions that a row may stand for. -/
def ReferenceRow.ids (row : ReferenceRow) : List ℤ := row.target.toList ++ row.candidates

/-- The rows of the table of a snapshot. -/
structure References (snapshot : Snapshot) where
  rows : List ReferenceRow
  occurrences : rows.map ReferenceRow.toOccurrenceRow = snapshot.occurrences

/-- `struct Site`; the text of `candidates` is not kept. -/
structure Site where
  hit : Hit
  target : Option ℤ
  inTestModule : Bool
  targetKind : Option String
  candidateIds : List ℤ

/-- `tier`. -/
def Site.tier (site : Site) : ℕ :=
  let declaration := site.hit.kind = "declaration"
  let imports := site.hit.kind = "import" ∨ declaration ∧ site.targetKind = some "import"
  if site.inTestModule ∨ isTestPath site.hit.path then 3
  else if declaration ∧ ¬imports then 0
  else if imports then 2
  else 1

theorem Site.tier_lt (site : Site) : site.tier < 4 := by
  unfold tier
  simp only
  split_ifs <;> omega

namespace Snapshot

variable (snapshot : Snapshot)

/-- `FROM definitions d JOIN files f ON f.id=d.file_id WHERE d.id=?1`. -/
def definitionRow (id : ℤ) : Option (DefinitionRow × IndexedFile) :=
  snapshot.definitions.findSome? fun row =>
    if row.id = id then (snapshot.fileOf row.fileId).map fun file => (row, file) else none

/-- `definition_target` (`navigation.rs`). -/
def definitionTarget (id : ℤ) : Except String DefinitionTarget :=
  match snapshot.definitionRow id with
  | none => .error "Query returned no rows"
  | some (row, file) =>
    match file.revision with
    | none => .error "Invalid column type Null at index: 1, name: revision"
    | some revision => .ok ⟨file.path.1, revision, row.start, row.stop, row.name⟩

/-- The occurrence is inside a module of tests (in `references_with_limit`). -/
def inTestModule (row : ReferenceRow) : Bool :=
  snapshot.definitions.any fun t => t.fileId = row.fileId && t.kind = "module" &&
    t.name ∈ ["tests", "test"] && t.start ≤ row.start && row.stop ≤ t.stop

/-- `SELECT t.kind FROM definitions t WHERE t.id=o.target`. -/
def targetKind (row : ReferenceRow) : Option String := do
  let target ← row.target
  let t ← snapshot.definitions.find? fun t => t.id = target
  return t.kind

/-- The clause for `kind:`. -/
def admitsRole (kind : String) (row : ReferenceRow) : Bool :=
  kind.isEmpty || row.role = kind ||
    snapshot.definitions.any fun t => t.kind = kind && t.id ∈ row.ids

/-- The clause for the hint of an owner. -/
def admitsOwner (hint : List Char) (row : ReferenceRow) : Bool :=
  hint.isEmpty || snapshot.definitions.any fun t =>
    t.id ∈ row.ids && (snapshot.fileOf t.fileId).any fun file => hintHolds hint t.container file.path.1

end Snapshot

/-- An occurrence and its source. -/
structure FoundReference where
  source : SourceRow
  row : ReferenceRow

namespace FoundReference

/-- `ORDER BY path,start,id`. -/
def pathOrder (a b : FoundReference) : Ordering :=
  compareLex (compareOn fun found : FoundReference => found.source.file.path.1)
    (compareLex (compareOn fun found => found.row.start) (compareOn fun found => found.row.id)) a b

/-- The row as a site. -/
def site (snapshot : Snapshot) (found : FoundReference) : Site where
  hit := hitRow found.source found.row.start found.row.stop found.row.name found.row.role none
    found.row.provenance
  target := found.row.target
  inTestModule := snapshot.inTestModule found.row
  targetKind := snapshot.targetKind found.row
  candidateIds := found.row.candidates

end FoundReference

/-- The occurrences of a name that pass the filters of a query. -/
def foundReferences {snapshot : Snapshot} (references : References snapshot) (query : Query)
    (name : List Char) : List FoundReference :=
  references.rows.filterMap fun row =>
    (snapshot.source row.fileId).bind fun source =>
      if row.name.toList = name ∧
          admitsFile (query.path.bind snapshot.paths) query.language source.file = true ∧
          snapshot.admitsRole query.kind row = true then
        some ⟨source, row⟩
      else none

/-- The rows that the database gives are all that pass the filters and the hint. -/
theorem hintedRows_eq {snapshot : Snapshot} (references : References snapshot) (query : Query)
    (hint : List Char)
    (hrows : references.rows.length < 2 ^ 63) (word : List Char) :
    (orderBy FoundReference.pathOrder ((foundReferences references query word).filter fun found =>
        snapshot.admitsOwner hint found.row)).take (2 ^ 63 - 1) =
      orderBy FoundReference.pathOrder ((foundReferences references query word).filter fun found =>
        snapshot.admitsOwner hint found.row) := by
  apply take_of_length_le
  rw [(orderBy_perm ..).length_eq]
  have hfound : (foundReferences references query word).length ≤ references.rows.length :=
    length_filterMap_le ..
  exact (length_filter_le ..).trans (by omega)

theorem definitionRow_eq_some {snapshot : Snapshot} {id : ℤ} {row : DefinitionRow} {file : IndexedFile}
    (h : snapshot.definitionRow id = some (row, file)) :
    row ∈ snapshot.definitions ∧ row.id = id ∧ snapshot.fileOf row.fileId = some file := by
  obtain ⟨other, hother, hsome⟩ := exists_of_findSome?_eq_some h
  split_ifs at hsome with hid
  obtain ⟨found, hfound, heq⟩ := Option.map_eq_some_iff.mp hsome
  obtain ⟨rfl, rfl⟩ := Prod.mk.inj heq
  exact ⟨hother, hid, hfound⟩

section Names

variable [Unicode]

/-! ## The loop over the sites -/

/-- `site_matches_qualifier`, on the ids of a site. -/
def siteMatchesQualifier (snapshot : Snapshot) (name : QualifiedName) : List ℤ → Except String Bool
  | [] => .ok false
  | id :: ids =>
    match snapshot.definitionRow id with
    | none => .error "Query returned no rows"
    | some (row, file) =>
      if (name.matchesOwner (decodeChars file.path.1) (row.container.map String.toList)).isSome then
        .ok true
      else siteMatchesQualifier snapshot name ids

/-- Whether a site is kept. -/
def keepsSite (snapshot : Snapshot) (name : QualifiedName) (site : Site) : Except String Bool :=
  if name.isQualified then
    siteMatchesQualifier snapshot name (site.target.toList ++ site.candidateIds)
  else .ok true

/-- The loop over the rows. -/
def collectSites (snapshot : Snapshot) (name : QualifiedName) (resultCap : ℕ) :
    List Site → Tiers Site → Except String (Tiers Site)
  | [], tiers => .ok tiers
  | site :: sites, tiers => do
    let kept ← keepsSite snapshot name site
    if kept then
      match tiers.offer 4 resultCap Site.tier site with
      | none => .error "full reference site buffer has a worst tier"
      | some (tiers, goesOn) =>
        if !goesOn then .ok tiers
        else if tiers.firstFull resultCap then .ok { tiers with truncated := true }
        else collectSites snapshot name resultCap sites tiers
    else collectSites snapshot name resultCap sites tiers

/-- The sites of a query, and whether the limit has cut them. -/
def referenceSites {snapshot : Snapshot} (references : References snapshot) (query : Query)
    (maxSites : ℕ) : Except String (List Site × Bool) :=
  let name := QualifiedName.parse query.text.toList
  if name.name.isEmpty then .error "usage: refs NAME"
  else do
    let rows := (foundReferences references query name.name).filter fun found =>
      snapshot.admitsOwner name.ownerHint found.row
    let rows := (orderBy FoundReference.pathOrder rows).take (2 ^ 63 - 1)
    let tiers ← collectSites snapshot name (maxSites + 1) (rows.map (FoundReference.site snapshot))
      .empty
    let sites := tiers.flatten 4
    return (orderBy (compareOn Site.tier) (sites.take maxSites),
      tiers.truncated || maxSites < sites.length)

/-! ## Rows -/

/-- `struct SiteKey`. -/
structure SiteKey where
  path : Bytes
  line : ℕ
  role : String
  target : Option ℤ
  candidates : List ℤ
  deriving DecidableEq

/-- The rows so far, the index of the row of each key, and the bytes of the rows. -/
structure Collapsed where
  hits : List Hit
  rows : List (SiteKey × ℕ)
  bytes : ℕ
  truncated : Bool

/-- The key of a site, with its candidates in order. -/
def Site.key (site : Site) (candidates : List ℤ) : SiteKey :=
  ⟨site.hit.path, site.hit.startLine, site.hit.kind, site.target, candidates⟩

/-- The row of a site. -/
def Site.row (snapshot : Snapshot) (site : Site) (candidates : List ℤ) : Except String Hit := do
  let resolution :=
    if site.target.isSome then "resolved"
    else if !candidates.isEmpty then "candidate"
    else "unresolved"
  let target ← site.target.mapM snapshot.definitionTarget
  let others ← (candidates.filter fun id => some id ≠ site.target).mapM snapshot.definitionTarget
  return { site.hit with
    resolution := some resolution
    target := target
    candidates := site.hit.candidates ++ others }

/-- One more site on a row. -/
def repeatHit (hit : Hit) : Hit := { hit with repeats := some (hit.repeats.getD 1 + 1) }

/-- The loop that makes the rows. -/
def collapse (encodedLength : Hit → ℕ) (snapshot : Snapshot) :
    List Site → Collapsed → Except String Collapsed
  | [], state => .ok state
  | site :: sites, state => do
    let candidates := site.candidateIds.mergeSort
    match state.rows.find? fun entry => entry.1 = site.key candidates with
    | some (_, index) =>
      collapse encodedLength snapshot sites { state with hits := state.hits.modify index repeatHit }
    | none =>
      let hit ← site.row snapshot candidates
      let bytes := state.bytes + encodedLength hit
      if maxResultBytes < bytes then
        return { state with bytes := bytes, truncated := true }
      collapse encodedLength snapshot sites
        { state with
          hits := state.hits ++ [hit]
          rows := state.rows ++ [(site.key candidates, state.hits.length)]
          bytes := bytes }

/-- `attach` (`snippets.rs`). -/
def attach (snapshot : Snapshot) (terms : List (List Char)) (hits : List Hit) : List Hit :=
  (hits.take snippetHits).map (fun hit =>
    if hit.snippet.isSome then hit
    else
      match hit.revision.bind fun revision =>
          snapshot.contents.find? fun content => content.1 = revision with
      | none => hit
      | some content =>
        { hit with snippet :=
            preview content.2 hit.start hit.stop hit.startLine terms hit.name }) ++
    hits.drop snippetHits

/-- The result, with what is written into its coverage. -/
structure ReferenceResult where
  referenceSites : ℕ
  referenceFiles : ℕ
  referenceSitesTruncated : Bool
  truncated : Bool
  hits : List Hit

/-- `references_with_limit`. -/
def referencesWithLimit (encodedLength : Hit → ℕ) {snapshot : Snapshot}
    (references : References snapshot) (query : Query) (maxSites : ℕ) :
    Except String ReferenceResult := do
  let (sites, truncated) ← referenceSites references query maxSites
  let rows ← collapse encodedLength snapshot sites ⟨[], [], 0, truncated⟩
  let terms := previewTerms (QualifiedName.parse query.text.toList).name
  return {
    referenceSites := sites.length
    referenceFiles := (firstByKey id (sites.map fun site => site.hit.path)).length
    referenceSitesTruncated := truncated
    truncated := rows.truncated
    hits := attach snapshot terms rows.hits }

/-- `references`. -/
def references (encodedLength : Hit → ℕ) {snapshot : Snapshot} (rows : References snapshot)
    (query : Query) : Except String ReferenceResult :=
  referencesWithLimit encodedLength rows query maxHits

/-! ## What the loop collects -/

/-- The site has a definition that the qualifier matches. -/
def siteMatches (snapshot : Snapshot) (name : QualifiedName) (site : Site) : Bool :=
  !name.isQualified || (site.target.toList ++ site.candidateIds).any fun id =>
    (snapshot.definitionRow id).any fun found =>
      (name.matchesOwner (decodeChars found.2.path.1) (found.1.container.map String.toList)).isSome

variable {snapshot : Snapshot} {name : QualifiedName}

theorem siteMatchesQualifier_ok {ids : List ℤ} {kept : Bool}
    (h : siteMatchesQualifier snapshot name ids = .ok kept) :
    kept = ids.any fun id => (snapshot.definitionRow id).any fun found =>
      (name.matchesOwner (decodeChars found.2.path.1)
        (found.1.container.map String.toList)).isSome := by
  induction ids with
  | nil => exact (Except.ok.inj h).symm
  | cons id ids ih =>
    unfold siteMatchesQualifier at h
    rw [any_cons]
    cases hrow : snapshot.definitionRow id with
    | none =>
      rw [hrow] at h
      exact nomatch h
    | some found =>
      rw [hrow] at h
      simp only at h
      rw [Option.any_some]
      split_ifs at h with hmatch
      · rw [hmatch, Bool.true_or, ← Except.ok.inj h]
      · rw [Bool.eq_false_iff.mpr hmatch, Bool.false_or, ih h]

theorem siteMatchesQualifier_total {ids : List ℤ}
    (h : ∀ id ∈ ids, (snapshot.definitionRow id).isSome) :
    ∃ kept, siteMatchesQualifier snapshot name ids = .ok kept := by
  induction ids with
  | nil => exact ⟨false, rfl⟩
  | cons id ids ih =>
    unfold siteMatchesQualifier
    obtain ⟨found, hfound⟩ := Option.isSome_iff_exists.mp (h id mem_cons_self)
    rw [hfound]
    simp only
    split_ifs
    · exact ⟨true, rfl⟩
    · exact ih fun other hother => h other (mem_cons_of_mem id hother)

/-- Whether the loop keeps a site, when it can tell. -/
theorem keepsSite_ok {site : Site} {kept : Bool} (h : keepsSite snapshot name site = .ok kept) :
    kept = siteMatches snapshot name site := by
  unfold siteMatches
  unfold keepsSite at h
  cases hqualified : name.isQualified with
  | false =>
    rw [hqualified] at h
    exact (Except.ok.inj h).symm
  | true =>
    rw [hqualified, if_pos rfl] at h
    rw [siteMatchesQualifier_ok h, Bool.not_true, Bool.false_or]

section

variable {sites : List Site} {resultCap : ℕ} (hpos : 0 < resultCap) {seen : List Site}
  {tiers : Tiers Site} (hholds : tiers.Holds 4 resultCap Site.tier seen)
include hpos hholds

/-- The buffers at the end hold what they would hold after all sites that match. -/
theorem collectSites_spec {last : Tiers Site}
    (h : collectSites snapshot name resultCap sites tiers = .ok last) :
    last.Holds 4 resultCap Site.tier (seen ++ sites.filter (siteMatches snapshot name)) := by
  induction sites generalizing seen tiers with
  | nil =>
    rw [← Except.ok.inj h, filter_nil, append_nil]
    exact hholds
  | cons site sites ih =>
    unfold collectSites at h
    obtain ⟨kept, hkept, h⟩ := bind_eq_ok.mp h
    rw [keepsSite_ok hkept] at h
    cases hmatches : siteMatches snapshot name site with
    | false =>
      rw [hmatches, if_neg Bool.false_ne_true] at h
      rw [filter_cons_of_neg (by simp [hmatches])]
      exact ih hholds h
    | true =>
      rw [hmatches, if_pos rfl] at h
      rw [filter_cons_of_pos hmatches, append_cons]
      obtain ⟨next, goesOn, hoffer, hnext, hstop⟩ := hholds.offer hpos site.tier_lt
      rw [hoffer] at h
      simp only at h
      have hrest : ∀ other ∈ sites.filter (siteMatches snapshot name), Site.tier other < 4 :=
        fun other _ => other.tier_lt
      cases goesOn with
      | false =>
        rw [Bool.not_false, if_pos rfl] at h
        rw [← Except.ok.inj h]
        exact hnext.extend (hstop rfl) hrest
      | true =>
        rw [Bool.not_true, if_neg Bool.false_ne_true] at h
        split_ifs at h with hfirst
        · have hfull := hnext.firstFull hfirst
          have hextended := hnext.extend hfull hrest
          rw [← Except.ok.inj h]
          refine ⟨hextended.ranks, hextended.buffers, hextended.retained, fun _ => ?_⟩
          have hle : (ofRank Site.tier 0 (seen ++ [site])).length ≤ (seen ++ [site]).length :=
            length_filter_le ..
          rw [length_append]
          omega
        · exact ih hnext h

/-- With a definition for each id, the loop does not fail. -/
theorem collectSites_total
    (hids : ∀ site ∈ sites, ∀ id ∈ site.target.toList ++ site.candidateIds,
      (snapshot.definitionRow id).isSome) :
    ∃ last, collectSites snapshot name resultCap sites tiers = .ok last := by
  induction sites generalizing seen tiers with
  | nil => exact ⟨tiers, rfl⟩
  | cons site sites ih =>
    have hsites : ∀ other ∈ sites, ∀ id ∈ other.target.toList ++ other.candidateIds,
        (snapshot.definitionRow id).isSome := fun other hother =>
      hids other (mem_cons_of_mem site hother)
    have hkept : ∃ kept, keepsSite snapshot name site = .ok kept := by
      unfold keepsSite
      split_ifs
      · exact siteMatchesQualifier_total (hids site mem_cons_self)
      · exact ⟨true, rfl⟩
    obtain ⟨kept, hkept⟩ := hkept
    unfold collectSites
    rw [hkept]
    show ∃ last, (if kept then _ else _) = Except.ok last
    cases kept with
    | false => exact ih hholds hsites
    | true =>
      obtain ⟨next, goesOn, hoffer, hnext, -⟩ := hholds.offer hpos site.tier_lt
      rw [if_pos rfl, hoffer]
      simp only
      split_ifs
      · exact ⟨_, rfl⟩
      · exact ⟨_, rfl⟩
      · exact ih hnext hsites

end

/-! ## The query -/

instance : Std.TransCmp FoundReference.pathOrder :=
  inferInstanceAs (Std.TransCmp (compareLex _ (compareLex _ _)))

/-- All sites that a query matches, in the order of the database. -/
def matchingSites {snapshot : Snapshot} (references : References snapshot) (query : Query) :
    List Site :=
  let name := QualifiedName.parse query.text.toList
  ((orderBy FoundReference.pathOrder (foundReferences references query name.name)).map
    (FoundReference.site snapshot)).filter (siteMatches snapshot name)

/-- The hint for the database costs no site that matches. -/
theorem admitsOwner_of_siteMatches {found : FoundReference}
    (h : siteMatches snapshot name (found.site snapshot) = true) :
    snapshot.admitsOwner name.ownerHint found.row = true := by
  unfold Snapshot.admitsOwner
  rw [Bool.or_eq_true]
  unfold siteMatches at h
  rw [Bool.or_eq_true] at h
  rcases h with hplain | hany
  · left
    have hempty : name.qualifier = [] := by simpa [QualifiedName.isQualified] using hplain
    rw [QualifiedName.ownerHint, hempty]
    rfl
  · right
    obtain ⟨id, hid, hsome⟩ := any_eq_true.mp hany
    cases hrow : snapshot.definitionRow id with
    | none =>
      rw [hrow] at hsome
      cases hsome
    | some found =>
      obtain ⟨definition, file⟩ := found
      rw [hrow, Option.any_some] at hsome
      obtain ⟨hmem, hid', hfile⟩ := definitionRow_eq_some hrow
      obtain ⟨tier, htier⟩ := Option.isSome_iff_exists.mp hsome
      apply any_eq_true.mpr
      refine ⟨definition, hmem, Bool.and_eq_true_iff.mpr ⟨decide_eq_true ?_, ?_⟩⟩
      · rw [hid']
        exact hid
      · rw [hfile, Option.any_some]
        exact QualifiedName.hintHolds_of_matchesOwner htier

section

variable (references : References snapshot) (query : Query)

/-- The sites that match are among those that the database gives for the hint. -/
theorem matchingSites_eq (hname : name = QualifiedName.parse query.text.toList) :
    ((orderBy FoundReference.pathOrder ((foundReferences references query name.name).filter fun found =>
        snapshot.admitsOwner name.ownerHint found.row)).map (FoundReference.site snapshot)).filter
          (siteMatches snapshot name) = matchingSites references query := by
  subst hname
  unfold matchingSites
  rw [← filter_orderBy, filter_map, filter_map, filter_filter]
  congr 1
  apply filter_congr
  intro found _
  rw [Bool.and_eq_left_iff_imp]
  exact admitsOwner_of_siteMatches

theorem referenceSites_ok (maxSites : ℕ) (hrows : references.rows.length < 2 ^ 63)
    {truncated : Bool} (h : referenceSites references query maxSites = .ok (sites, truncated)) :
    sites = (orderBy (compareOn Site.tier) (matchingSites references query)).take maxSites ∧
      truncated = decide (maxSites < (matchingSites references query).length) := by
  unfold referenceSites at h
  simp only at h
  split_ifs at h
  obtain ⟨tiers, htiers, h⟩ := bind_eq_ok.mp h
  rw [hintedRows_eq references query _ hrows] at htiers
  have hholds := collectSites_spec (Nat.succ_pos maxSites) Tiers.Holds.empty htiers
  rw [nil_append, matchingSites_eq references query rfl] at hholds
  obtain ⟨hsites, htruncated⟩ := Prod.mk.inj (Except.ok.inj h)
  have hlength : (tiers.flatten 4).length =
      min (maxSites + 1) (matchingSites references query).length := by
    rw [hholds.flatten, length_take, (orderBy_perm ..).length_eq]
  constructor
  · rw [← hsites, hholds.flatten, take_take, min_eq_left (Nat.le_succ maxSites),
      orderBy_take_orderBy]
  · rw [← htruncated, hlength]
    cases hcut : tiers.truncated with
    | false =>
      rw [Bool.false_or, decide_eq_decide]
      omega
    | true =>
      have hover := hholds.truncated hcut
      exact (decide_eq_true (by omega)).symm

theorem referenceSites_total (maxSites : ℕ)
    (hname : (QualifiedName.parse query.text.toList).name ≠ [])
    (hids : ∀ row ∈ references.rows, ∀ id ∈ row.ids, (snapshot.definitionRow id).isSome) :
    ∃ sites truncated, referenceSites references query maxSites = .ok (sites, truncated) := by
  unfold referenceSites
  simp only
  rw [if_neg (by simpa using hname)]
  have hsites : ∀ site ∈ ((orderBy FoundReference.pathOrder
      ((foundReferences references query (QualifiedName.parse query.text.toList).name).filter
        fun found => snapshot.admitsOwner (QualifiedName.parse query.text.toList).ownerHint
          found.row)).take (2 ^ 63 - 1)).map (FoundReference.site snapshot),
      ∀ id ∈ site.target.toList ++ site.candidateIds, (snapshot.definitionRow id).isSome := by
    intro site hsite
    obtain ⟨found, hfound, rfl⟩ := mem_map.mp hsite
    have hfound := mem_of_mem_filter (mem_orderBy.mp (mem_of_mem_take hfound))
    obtain ⟨row, hrow, hsome⟩ := mem_filterMap.mp hfound
    obtain ⟨source, -, hsome⟩ := Option.bind_eq_some_iff.mp hsome
    split_ifs at hsome
    rw [← Option.some.inj hsome]
    exact hids row hrow
  obtain ⟨tiers, htiers⟩ := collectSites_total (Nat.succ_pos maxSites)
    (Tiers.Holds.empty : (Tiers.empty : Tiers Site).Holds 4 (maxSites + 1) Site.tier []) hsites
  rw [htiers]
  exact ⟨_, _, rfl⟩

end

/-- The sites are the start of all sites that match, in the order of their tiers and, within a
tier, of the database; the limit is reported as passed if it is. A query gives no more rows
than its own limit, which no table reaches. If each row names only definitions of the table,
the query does not fail. -/
theorem referencesWithLimit_spec (references : References snapshot) (query : Query)
    (maxSites : ℕ) (hrows : references.rows.length < 2 ^ 63) :
    let matching := matchingSites references query
    (∀ sites truncated, referenceSites references query maxSites = .ok (sites, truncated) →
      sites = (orderBy (compareOn Site.tier) matching).take maxSites ∧
        truncated = decide (maxSites < matching.length)) ∧
    ((QualifiedName.parse query.text.toList).name ≠ [] →
      (∀ row ∈ references.rows, ∀ id ∈ row.ids, (snapshot.definitionRow id).isSome) →
      ∃ sites truncated, referenceSites references query maxSites = .ok (sites, truncated)) ∧
    ∀ encodedLength result, referencesWithLimit encodedLength references query maxSites = .ok result →
      result.referenceSites = min maxSites matching.length ∧
        result.referenceSitesTruncated = decide (maxSites < matching.length) := by
  refine ⟨fun sites truncated => referenceSites_ok references query maxSites hrows,
    referenceSites_total references query maxSites, fun encodedLength result h => ?_⟩
  obtain ⟨⟨sites, truncated⟩, hsites, h⟩ := bind_eq_ok.mp h
  obtain ⟨rows, -, h⟩ := bind_eq_ok.mp h
  obtain ⟨hequal, htruncated⟩ := referenceSites_ok references query maxSites hrows hsites
  rw [← Except.ok.inj h]
  refine ⟨?_, htruncated⟩
  show sites.length = _
  rw [hequal, length_take, (orderBy_perm ..).length_eq]

end Names

/-- A call of the method `b` of `A`, before its declaration. -/
def twoSites : Snapshot :=
  { twoNamed with occurrences := [⟨1, 1, "b", 0, 1, "call"⟩, ⟨2, 1, "b", 3, 4, "declaration"⟩] }

def twoSiteRows : References twoSites where
  rows := twoSites.occurrences.map fun occurrence => ⟨occurrence, some 2, [], .other "syntax"⟩
  occurrences := rfl

/-- The declaration is of a better tier than the call before it, which the limit cuts. -/
theorem twoSites_spec :
    letI := Unicode.ofAscii
    let query : Query := ⟨"A::b", ⟨[], []⟩, none, "", false, false⟩
    twoSiteRows.rows.length < 2 ^ 63 ∧ ∃ sites,
      referenceSites twoSiteRows query 1 = .ok (sites, true) ∧
        sites.map (fun site => (site.hit.kind, site.hit.start)) = [("declaration", 3)] := by
  let _ := Unicode.ofAscii
  intro query
  obtain ⟨hsites, htotal, -⟩ := referencesWithLimit_spec twoSiteRows query 1 (by decide)
  obtain ⟨sites, truncated, hok⟩ := htotal (by decide) (by decide)
  obtain ⟨hequal, htruncated⟩ := hsites sites truncated hok
  have hsorted : orderBy FoundReference.pathOrder
      (foundReferences twoSiteRows query (QualifiedName.parse query.text.toList).name) = _ :=
    mergeSort_of_pairwise (by decide +kernel)
  rw [orderBy_rank fun site _ => site.tier_lt, matchingSites, hsorted] at hequal
  rw [matchingSites, hsorted] at htruncated
  obtain rfl : truncated = true := htruncated.trans (by decide +kernel)
  refine ⟨by decide, sites, hok, ?_⟩
  rw [hequal]
  decide +kernel

end Trufflepig.Search
