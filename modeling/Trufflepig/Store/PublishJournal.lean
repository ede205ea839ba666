import Trufflepig.Store.Publish

/-!
# The journal replays the published tables

A run is a sequence of publication requests, some of which may fail and leave
the database as it was. Its history is the list of the `files` tables that were
published, the empty table of generation 0 first.

* `diffRows_replay`: the rows of the difference query are a correct delta
  between the two tables.
* `appendRows_spec`: the loop records a prefix of those rows within the limits,
  and all of them iff it reports `complete`.
* `evict_fits`, `evict_restricts`, `evict_newest`: the eviction loop reaches the
  limits, deletes whole windows only, and keeps the newest.
* `publishRun_journal`: over every run, a complete answer of
  `observations_since` replays one published table into the other, the journal
  stays within its limits, and a lost or shortened window is reported.
-/

namespace Trufflepig.Store

open List Lib Extract

/-! ## Specification -/

/-- What the journal tracks of a file: its revision and its status. -/
abbrev FileState := Option ContentRevision × Status

/-- The map from paths to file states that a table holds. -/
def FilesTable.state (table : FilesTable) (path : Bytes) : Option FileState :=
  (table.find path).map fun row => (row.revision, row.status)

/-- A change sets its path to the state after it, or removes the path. -/
def PublicationChange.assignment (change : PublicationChange) : Bytes × Option FileState :=
  (change.path, change.afterStatus.map fun status => (change.afterRevision, status))

/-- Replays changes in order. -/
def replayChanges (changes : List PublicationChange) :
    (Bytes → Option FileState) → Bytes → Option FileState :=
  replay (changes.map PublicationChange.assignment)

/-- A call of `index` that reaches `publish`: the staged database, what
`index_leased` passes on, the clock, and the file system it looks at. -/
structure PublishRequest where
  staged : Staged
  coverage : Coverage
  fingerprint : Bytes
  root : Bytes
  captureStartedMs : ℕ
  captureCompletedMs : ℕ
  now : ℕ
  lookup : Bytes → Bytes → Lookup

/-- The publication that `index_leased` builds (`store.rs`). -/
def PublishRequest.publication (request : PublishRequest) (db : Db) : Publication where
  indexEpoch := db.indexEpoch
  generation := db.generation + 1
  root := request.root
  captureStartedMs := request.captureStartedMs
  captureCompletedMs := request.captureCompletedMs

/-- `publish` as `index_leased` calls it. -/
def publishRequest (codec : Codec PublicationChange) (request : PublishRequest) (db : Db) :
    Except StoreError Db :=
  publish codec request.lookup request.now request.staged request.coverage request.fingerprint
    (request.publication db) db

/-- One request on the published tables so far and the database; a failed
transaction changes nothing. -/
def publishStep (codec : Codec PublicationChange) (s : List FilesTable × Db)
    (request : PublishRequest) : List FilesTable × Db :=
  match publishRequest codec request s.2 with
  | .ok db => (s.1 ++ [request.staged.files], db)
  | .error _ => s

/-- A run from a new database. -/
def publishRun (codec : Codec PublicationChange) (indexEpoch : Bytes)
    (requests : List PublishRequest) : List FilesTable × Db :=
  requests.foldl (publishStep codec) ([FilesTable.empty], Db.create indexEpoch)

/-- The table published at a generation. -/
def tableAt (history : List FilesTable) (generation : ℤ) : FilesTable :=
  history.getD generation.toNat FilesTable.empty

/-- The window of a generation is no longer in the journal. -/
def Evicted (journal : Journal) (generation : ℤ) : Prop :=
  generation ∉ journal.windows.map Window.generation

/-- The journal has fewer observations of a generation than there are
differences between the tables before and after it. -/
def CutShort (history : List FilesTable) (journal : Journal) (generation : ℤ) : Prop :=
  (journal.observations.filter fun o => o.generation = generation).length <
    (diffRows (tableAt history (generation - 1)) (tableAt history generation)).length

/-! ## The difference query -/

/-- The assignment of the change that a row becomes. -/
def DiffRow.assignment (row : DiffRow) : Bytes × Option FileState :=
  (row.path, row.afterStatus.map fun status => (row.after, status))

variable {old new : FilesTable} {row : DiffRow}

theorem mem_diffRows :
    row ∈ diffRows old new ↔
      (∃ f ∈ old.rows, changedRow new f = some row) ∨
        ∃ n ∈ new.rows, addedRow old n = some row := by
  simp [diffRows, mem_mergeSort]

theorem diffRow_assignment (h : row ∈ diffRows old new) :
    row.assignment.2 = new.state row.assignment.1 := by
  rw [mem_diffRows] at h
  obtain ⟨f, -, hrow⟩ | ⟨n, hn, hrow⟩ := h
  · unfold changedRow at hrow
    cases hfind : new.find f.path with
    | none =>
      rw [hfind] at hrow
      cases hrow
      simp [DiffRow.assignment, FilesTable.state, hfind]
    | some n =>
      rw [hfind] at hrow
      simp only [Option.ite_none_right_eq_some, Option.some.injEq] at hrow
      rw [← hrow.2]
      simp [DiffRow.assignment, FilesTable.state, hfind]
  · unfold addedRow at hrow
    cases hfind : old.find n.path with
    | some f => simp [hfind] at hrow
    | none =>
      rw [hfind] at hrow
      cases hrow
      simp [DiffRow.assignment, FilesTable.state, FilesTable.find_of_mem hn]

theorem diffRows_covers {path : Bytes} (h : old.state path ≠ new.state path) :
    ∃ row ∈ diffRows old new, row.path = path := by
  cases hold : old.find path with
  | some f =>
    obtain ⟨hf, rfl⟩ := FilesTable.mem_of_find hold
    suffices hrow : ∃ row, changedRow new f = some row ∧ row.path = f.path by
      obtain ⟨row, hrow, hpath⟩ := hrow
      exact ⟨row, mem_diffRows.mpr (Or.inl ⟨f, hf, hrow⟩), hpath⟩
    unfold changedRow
    cases hnew : new.find f.path with
    | none => exact ⟨_, rfl, rfl⟩
    | some n =>
      have hne : f.revision ≠ n.revision ∨ f.status ≠ n.status ∨ f.bytes ≠ n.bytes := by
        by_contra hcon
        push Not at hcon
        apply h
        simp [FilesTable.state, hold, hnew, hcon.1, hcon.2.1]
      exact ⟨_, if_pos hne, rfl⟩
  | none =>
    cases hnew : new.find path with
    | none => exact absurd (by simp [FilesTable.state, hold, hnew]) h
    | some n =>
      obtain ⟨hn, rfl⟩ := FilesTable.mem_of_find hnew
      have hrow : addedRow old n = some ⟨n.path, none, n.revision, none, some n.status⟩ := by
        simp [addedRow, hold]
      exact ⟨_, mem_diffRows.mpr (Or.inr ⟨n, hn, hrow⟩), rfl⟩

/-- The rows of the query are a correct delta. -/
theorem diffRows_replay (old new : FilesTable) :
    replay ((diffRows old new).map DiffRow.assignment) old.state = new.state := by
  apply replay_eq_of_covers
  · intro e he
    obtain ⟨row, hrow, rfl⟩ := mem_map.mp he
    exact diffRow_assignment hrow
  · intro path hne
    obtain ⟨row, hrow, rfl⟩ := diffRows_covers hne
    simp only [map_map, mem_map, Function.comp_apply]
    exact ⟨row, hrow, rfl⟩

theorem diffRows_sorted (old new : FilesTable) :
    (diffRows old new).Pairwise fun a b => a.path ≤ b.path :=
  pairwise_sortBy (fun a b c => bytes_le_trans a.path b.path c.path)
    (fun a b => bytes_le_total a.path b.path) _

/-! ## Recording the rows -/

/-- An observation stores a change that does what the row says. -/
def Records (codec : Codec PublicationChange) (generation : ℤ) (row : DiffRow) (o : Observation) :
    Prop :=
  o.generation = generation ∧ o.path = row.path ∧
    ∃ change, o.value = codec.encode change ∧ change.assignment = row.assignment

variable {lookup : Bytes → Bytes → Lookup} {root : Bytes} {generation : ℤ}

theorem describeRow_ok {change : PublicationChange}
    (h : describeRow lookup root generation row = .ok change) :
    change.assignment = row.assignment := by
  obtain ⟨kind, -, hchange⟩ := bind_eq_ok.mp h
  cases hchange
  rfl

variable {table table' : List Observation}

theorem insertObservation_ok {row : Observation}
    (h : insertObservation table row = .ok table') : table' = table ++ [row] := by
  unfold insertObservation at h
  split_ifs at h
  exact (Except.ok.inj h).symm

theorem insertWindow_ok {table table' : List Window} {row : Window}
    (h : insertWindow table row = .ok table') : table' = table ++ [row] := by
  unfold insertWindow at h
  split_ifs at h
  exact (Except.ok.inj h).symm

@[simp] theorem observationBytes_cons (o : Observation) (os : List Observation) :
    observationBytes (o :: os) = o.value.length + o.path.length + observationBytes os := by
  simp [observationBytes]

/-- The loop of `append_observations` appends the observations of a prefix of
the rows, within both limits; the prefix is everything iff it says so. -/
theorem appendRows_spec {codec : Codec PublicationChange} {rows : List DiffRow} :
    ∀ {bytes count : ℕ} {table table' : List Observation} {complete : Bool},
      appendRows codec lookup root generation rows bytes count table = .ok (table', complete) →
      bytes ≤ maxJournalBytes → count ≤ maxObservations →
      ∃ kept rest new, rows = kept ++ rest ∧ table' = table ++ new ∧
        List.Forall₂ (Records codec generation) kept new ∧ (complete = true ↔ rest = []) ∧
        count + new.length ≤ maxObservations ∧ bytes + observationBytes new ≤ maxJournalBytes := by
  induction rows with
  | nil =>
    intro bytes count table table' complete h hbytes hcount
    cases h
    exact ⟨[], [], [], rfl, by simp, List.Forall₂.nil, by simp, hcount, hbytes⟩
  | cons row rows ih =>
    intro bytes count table table' complete h hbytes hcount
    obtain ⟨change, hchange, h⟩ := bind_eq_ok.mp h
    split_ifs at h with hfull
    · cases h
      exact ⟨[], row :: rows, [], rfl, by simp, List.Forall₂.nil, by simp, hcount, hbytes⟩
    · obtain ⟨next, hnext, h⟩ := bind_eq_ok.mp h
      push Not at hfull
      obtain ⟨kept, rest, new, hrows, htable, hrec, hcomplete, hlen, hsum⟩ :=
        ih h hfull.2 (by omega)
      refine ⟨row :: kept, rest, ⟨generation, row.path, codec.encode change⟩ :: new,
        by rw [hrows, cons_append], ?_, ?_, hcomplete, ?_, ?_⟩
      · rw [htable, insertObservation_ok hnext, append_assoc, singleton_append]
      · exact List.Forall₂.cons ⟨rfl, rfl, change, rfl, describeRow_ok hchange⟩ hrec
      · rw [length_cons]; omega
      · rw [observationBytes_cons]; simp only; omega

section Records

variable {codec : Codec PublicationChange} {g : ℤ} {rows : List DiffRow}
  {observations : List Observation}

section

variable (h : List.Forall₂ (Records codec g) rows observations)
include h

theorem records_generation :
    ∀ o ∈ observations, o.generation = g := by
  induction h with
  | nil => simp
  | cons hrow _ ih =>
    exact forall_mem_cons.mpr ⟨hrow.1, ih⟩

theorem records_paths :
    observations.map Observation.path = rows.map DiffRow.path := by
  induction h with
  | nil => rfl
  | cons hrow _ ih => rw [map_cons, map_cons, hrow.2.1, ih]

theorem records_decode :
    ∃ changes, (observations.mapM fun o => codec.decode o.value) = some changes ∧
      changes.map PublicationChange.assignment = rows.map DiffRow.assignment := by
  induction h with
  | nil => exact ⟨[], rfl, rfl⟩
  | cons hrow _ ih =>
    obtain ⟨-, -, change, hvalue, hassign⟩ := hrow
    obtain ⟨changes, hdecode, hmap⟩ := ih
    refine ⟨change :: changes, ?_, by rw [map_cons, map_cons, hassign, hmap]⟩
    simp [hvalue, hdecode]

theorem records_ordered (hrows : rows.Pairwise fun a b => a.path ≤ b.path) :
    observations.Pairwise observationOrder := by
  have hpaths : observations.Pairwise fun a b => a.path ≤ b.path := by
    have := pairwise_map.mpr hrows
    rw [← records_paths h] at this
    exact pairwise_map.mp this
  refine hpaths.imp_of_mem ?_
  intro a b ha hb hab
  right
  exact ⟨by rw [records_generation h a ha, records_generation h b hb], hab⟩

end

end Records

/-- The observations of a generation hold a prefix of the differences between
two tables, and all of them iff the window is complete. -/
def WindowRecord (codec : Codec PublicationChange) (old new : FilesTable) (generation : ℤ)
    (observations : List Observation) (complete : Bool) : Prop :=
  ∃ kept rest, diffRows old new = kept ++ rest ∧
    List.Forall₂ (Records codec generation) kept observations ∧ (complete = true ↔ rest = [])

variable {codec : Codec PublicationChange} {old new : FilesTable} {g : ℤ} {complete : Bool}
  {observations : List Observation}

theorem WindowRecord.filter_eq (h : WindowRecord codec old new g observations complete) :
    observations.filter (fun o => o.generation = g) = observations := by
  obtain ⟨kept, rest, -, hrec, -⟩ := h
  rw [filter_eq_self]
  intro o ho
  exact decide_eq_true (records_generation hrec o ho)

theorem WindowRecord.ordered (h : WindowRecord codec old new g observations complete) :
    observations.Pairwise observationOrder := by
  obtain ⟨kept, rest, hrows, hrec, -⟩ := h
  apply records_ordered hrec
  exact (pairwise_append.mp (hrows ▸ diffRows_sorted old new)).1

variable {lookup : Bytes → Bytes → Lookup}

theorem windowRecord_of_append
    (h : appendRows codec lookup root generation ((diffRows old new).take (maxObservations + 1))
      0 0 table = .ok (table', complete)) :
    ∃ added, table' = table ++ added ∧ WindowRecord codec old new generation added complete ∧
      added.length ≤ maxObservations ∧ observationBytes added ≤ maxJournalBytes := by
  obtain ⟨kept, rest, added, hrows, htable, hrec, hcomplete, hlen, hsum⟩ :=
    appendRows_spec h (Nat.zero_le _) (Nat.zero_le _)
  refine ⟨added, htable, ?_, by omega, by omega⟩
  refine ⟨kept, rest ++ (diffRows old new).drop (maxObservations + 1), ?_, hrec, ?_⟩
  · rw [← append_assoc, ← hrows, take_append_drop]
  · rw [append_eq_nil_iff, hcomplete]
    refine ⟨fun hrest => ⟨hrest, ?_⟩, And.left⟩
    -- the query returns one row more than may be recorded, so nothing lies beyond its limit
    have hkept : ((diffRows old new).take (maxObservations + 1)).length ≤ maxObservations := by
      rw [hrows, hrest, append_nil, hrec.length_eq]
      omega
    rw [length_take] at hkept
    exact drop_eq_nil_of_le (by omega)

/-! ## Eviction -/

/-- Every observation belongs to a window. -/
def Journal.Owned (journal : Journal) : Prop :=
  ∀ o ∈ journal.observations, o.generation ∈ journal.windows.map Window.generation

/-- `after` is `before` without the observations of some deleted windows. -/
def Restricts (before after : Journal) : Prop :=
  after.windows.Sublist before.windows ∧
    after.observations = before.observations.filter
      fun o => o.generation ∈ after.windows.map Window.generation

theorem dropOrphans_owned (windows : List Window) (observations : List Observation) :
    (dropOrphans windows observations).Owned := by
  intro o ho
  exact of_decide_eq_true (mem_filter.mp ho).2

variable {journal : Journal}

theorem Restricts.refl (h : journal.Owned) : Restricts journal journal := by
  refine ⟨List.Sublist.refl _, ?_⟩
  symm
  rw [filter_eq_self]
  intro o ho
  simpa using h o ho

theorem Restricts.trans {a b c : Journal} (hab : Restricts a b) (hbc : Restricts b c) :
    Restricts a c := by
  refine ⟨hbc.1.trans hab.1, ?_⟩
  rw [hbc.2, hab.2, filter_filter]
  apply filter_congr
  intro o _
  have hsub : o.generation ∈ c.windows.map Window.generation →
      o.generation ∈ b.windows.map Window.generation :=
    fun h => (hbc.1.map _).subset h
  by_cases h : o.generation ∈ c.windows.map Window.generation
  · simp only [h, hsub h, decide_true, Bool.and_true]
  · simp only [h, decide_false, Bool.false_and]

variable {windows : List Window}

theorem restricts_dropOrphans {windows' : List Window} (observations : List Observation)
    (h : windows'.Sublist windows) :
    Restricts ⟨windows, observations⟩ (dropOrphans windows' observations) := ⟨h, rfl⟩

theorem filter_eq_nil_of_owned (howned : journal.Owned)
    (hold : ∀ g' ∈ journal.windows.map Window.generation, g' < g) :
    journal.observations.filter (fun o => o.generation = g) = [] := by
  rw [filter_eq_nil_iff]
  intro o ho
  have := hold _ (howned o ho)
  rw [decide_eq_true_eq]
  omega

variable {before after : Journal}

/-- Observations of a window that is kept are all kept. -/
theorem Restricts.filter_eq (h : Restricts before after)
    (hg : g ∈ after.windows.map Window.generation) :
    after.observations.filter (fun o => o.generation = g) =
      before.observations.filter (fun o => o.generation = g) := by
  rw [h.2, filter_filter]
  apply filter_congr
  intro o _
  by_cases hog : o.generation = g
  · simp only [hog, hg, decide_true, Bool.and_true]
  · simp only [hog, decide_false, Bool.false_and]

theorem evict_fits (journal : Journal) : (evict journal).Fits := by
  induction journal using evict.induct with
  | case1 journal h => rw [evict, if_pos h]; exact h
  | case2 journal h ih => rw [evict, if_neg h]; exact ih

theorem evict_restricts (howned : journal.Owned) :
    Restricts journal (evict journal) := by
  induction journal using evict.induct with
  | case1 journal h => rw [evict, if_pos h]; exact .refl howned
  | case2 journal h ih =>
    rw [evict, if_neg h]
    exact (restricts_dropOrphans _ filter_sublist).trans (ih (dropOrphans_owned _ _))

/-- The oldest window goes only if it is not the one that `g` names. -/
theorem mem_dropOldest (hg : g ∈ windows.map Window.generation)
    (h : ∃ g' ∈ windows.map Window.generation, g' < g) :
    g ∈ (dropOldest windows).map Window.generation := by
  obtain ⟨g', hg', hlt⟩ := h
  obtain ⟨w, hw, rfl⟩ := mem_map.mp hg
  apply mem_map_of_mem
  rw [dropOldest, mem_filter]
  refine ⟨hw, ?_⟩
  rw [decide_eq_true_eq]
  intro hmin
  have := (le_min?_iff hmin.symm).mp le_rfl g' hg'
  omega

/-- **The newest window survives.** A window that is not older than any other
and whose own observations fit is never evicted. -/
theorem evict_newest (howned : journal.Owned) (hg : g ∈ journal.windows.map Window.generation)
    (hmax : ∀ g' ∈ journal.windows.map Window.generation, g' ≤ g)
    (hfits : Journal.Fits ⟨journal.windows, journal.observations.filter fun o => o.generation = g⟩) :
    g ∈ (evict journal).windows.map Window.generation := by
  induction journal using evict.induct with
  | case1 journal h => rw [evict, if_pos h]; exact hg
  | case2 journal h ih =>
    rw [evict, if_neg h]
    -- the journal is too large, so it holds an observation of an older window
    have hother : ∃ o ∈ journal.observations, o.generation ≠ g := by
      by_contra hcon
      push Not at hcon
      apply h
      rwa [filter_eq_self.mpr (fun o ho => decide_eq_true (hcon o ho))] at hfits
    obtain ⟨o, ho, hne⟩ := hother
    have hlt : o.generation < g := lt_of_le_of_ne (hmax _ (howned o ho)) hne
    have hg' := mem_dropOldest hg ⟨_, howned o ho, hlt⟩
    have hsub : (dropOldest journal.windows).Sublist journal.windows := filter_sublist
    apply ih (dropOrphans_owned _ _) hg'
    · intro g' hmem
      exact hmax g' ((hsub.map _).subset hmem)
    · have := (restricts_dropOrphans journal.observations hsub).filter_eq hg'
      rw [this]
      exact hfits

/-! ## One publication -/

/-- What `append_observations` leaves of a journal: some windows of the old
journal and of the new one, with all their observations. -/
theorem appendObservations_spec {publication : Publication} {files staged : FilesTable}
    {journal' : Journal} (howned : journal.Owned)
    (hold : ∀ g ∈ journal.windows.map Window.generation, g < publication.generation)
    (h : appendObservations codec lookup publication files staged journal = .ok journal') :
    ∃ complete added,
      WindowRecord codec files staged publication.generation added complete ∧
      Restricts ⟨journal.windows ++ [⟨publication.generation, complete⟩],
        journal.observations ++ added⟩ journal' ∧
      journal'.Owned ∧ journal'.Fits ∧
      (∀ w ∈ journal'.windows, publication.generation - maxWindows < w.generation) ∧
      publication.generation ∈ journal'.windows.map Window.generation := by
  obtain ⟨root, -, h⟩ := bind_eq_ok.mp h
  obtain ⟨⟨observations, complete⟩, happend, h⟩ := bind_eq_ok.mp h
  obtain ⟨windows, hwindows, h⟩ := bind_eq_ok.mp h
  obtain ⟨added, hobs, hrec, hlen, hsum⟩ := windowRecord_of_append happend
  rw [insertWindow_ok hwindows] at h
  subst hobs
  set g := publication.generation
  have hsub : (dropExpired g (journal.windows ++ [⟨g, complete⟩])).Sublist
      (journal.windows ++ [⟨g, complete⟩]) := filter_sublist
  have hrecent : ∀ w ∈ dropExpired g (journal.windows ++ [⟨g, complete⟩]),
      g - maxWindows < w.generation := fun w hw => by
    simpa using (mem_filter.mp hw).2
  have hg : g ∈ (dropExpired g (journal.windows ++ [⟨g, complete⟩])).map Window.generation :=
    mem_map.mpr ⟨⟨g, complete⟩, mem_filter.mpr ⟨by simp, by simp [maxWindows]⟩, rfl⟩
  generalize dropExpired g (journal.windows ++ [⟨g, complete⟩]) = kept at hsub hrecent hg h
  have hj : evict (dropOrphans kept (journal.observations ++ added)) = journal' := Except.ok.inj h
  have howned' := dropOrphans_owned kept (journal.observations ++ added)
  have hdrop := restricts_dropOrphans (journal.observations ++ added) hsub
  have hrest := evict_restricts howned'
  have hall := hdrop.trans hrest
  rw [hj] at hrest hall
  refine ⟨complete, added, hrec, hall, ?_, hj ▸ evict_fits _, ?_, ?_⟩
  · intro o ho
    rw [hall.2] at ho
    exact of_decide_eq_true (mem_filter.mp ho).2
  · intro w hw
    exact hrecent w (hrest.1.subset hw)
  · rw [← hj]
    apply evict_newest howned' hg
    · intro g' hg'
      have := (hsub.map Window.generation).subset hg'
      rw [map_append, mem_append] at this
      rcases this with hg' | hg'
      · exact (hold g' hg').le
      · exact (mem_singleton.mp hg').le
    · rw [hdrop.filter_eq hg, filter_append, filter_eq_nil_of_owned howned hold,
        nil_append, hrec.filter_eq]
      exact ⟨hlen, hsum⟩

/-! ## The invariant of a run -/

/-- The journal of a database against the tables published so far. -/
structure JournalOk (codec : Codec PublicationChange) (history : List FilesTable) (db : Db) :
    Prop where
  nonneg : 0 ≤ db.generation
  generation : db.generation + 1 = history.length
  latest : tableAt history db.generation = db.files
  sorted : db.journal.windows.Pairwise fun a b => a.generation < b.generation
  positive : ∀ w ∈ db.journal.windows, 0 < w.generation
  range : ∀ w ∈ db.journal.windows,
    InWindow (db.generation - maxWindows) db.generation w.generation
  owned : db.journal.Owned
  ordered : db.journal.observations.Pairwise observationOrder
  records : ∀ w ∈ db.journal.windows,
    WindowRecord codec (tableAt history (w.generation - 1)) (tableAt history w.generation)
      w.generation (db.journal.observations.filter fun o => o.generation = w.generation) w.complete
  fits : db.journal.Fits
  newest : 0 < db.generation → db.generation ∈ db.journal.windows.map Window.generation

theorem journalOk_create (codec : Codec PublicationChange) (indexEpoch : Bytes) :
    JournalOk codec [FilesTable.empty] (Db.create indexEpoch) where
  nonneg := le_rfl
  generation := rfl
  latest := rfl
  sorted := List.Pairwise.nil
  positive := by simp [Db.create]
  range := by simp [Db.create]
  owned := by simp [Db.create, Journal.Owned]
  ordered := List.Pairwise.nil
  records := by simp [Db.create]
  fits := by simp [Db.create, Journal.Fits, observationBytes]
  newest := by simp [Db.create]

variable {history : List FilesTable}

theorem tableAt_append_of_lt {table : FilesTable} (h0 : 0 ≤ g) (h : g < history.length) :
    tableAt (history ++ [table]) g = tableAt history g :=
  getD_append _ _ _ _ (by omega)

theorem tableAt_append_length {table : FilesTable} (h : g = history.length) :
    tableAt (history ++ [table]) g = table := by
  rw [tableAt, getD_append_right _ _ _ _ (by omega)]
  simp [h]

/-- Deleting windows keeps what the invariant says of each window. -/
theorem Restricts.records (h : Restricts before after) (hrec : ∀ w ∈ before.windows,
      WindowRecord codec (tableAt history (w.generation - 1)) (tableAt history w.generation)
        w.generation (before.observations.filter fun o => o.generation = w.generation) w.complete) :
    ∀ w ∈ after.windows,
      WindowRecord codec (tableAt history (w.generation - 1)) (tableAt history w.generation)
        w.generation (after.observations.filter fun o => o.generation = w.generation)
        w.complete := by
  intro w hw
  rw [h.filter_eq (mem_map_of_mem hw)]
  exact hrec w (h.1.subset hw)

variable {request : PublishRequest} {db' : Db}

theorem publishRequest_ok {db : Db} (h : publishRequest codec request db = .ok db') :
    db'.generation = db.generation + 1 ∧ db'.files = request.staged.files ∧
      appendObservations codec request.lookup (request.publication db) db.files
        request.staged.files db.journal = .ok db'.journal := by
  obtain ⟨journal, hjournal, h⟩ := bind_eq_ok.mp h
  cases h
  exact ⟨rfl, rfl, hjournal⟩

/-- A publication that commits keeps the invariant. -/
theorem journalOk_publish {db : Db}
    (hok : JournalOk codec history db) (h : publishRequest codec request db = .ok db') :
    JournalOk codec (history ++ [request.staged.files]) db' := by
  obtain ⟨hgen, hfiles, happend⟩ := publishRequest_ok h
  have hlen := hok.generation
  have hnonneg := hok.nonneg
  have hold : ∀ g ∈ db.journal.windows.map Window.generation,
      g < (request.publication db).generation := by
    intro g hg
    obtain ⟨w, hw, rfl⟩ := mem_map.mp hg
    have := (hok.range w hw).2
    show w.generation < db.generation + 1
    omega
  obtain ⟨complete, added, hrec, hrest, howned, hfits, hrecent, hnewest⟩ :=
    appendObservations_spec hok.owned hold happend
  have hpub : (request.publication db).generation = db.generation + 1 := rfl
  rw [hpub] at hold hrec hrest hrecent hnewest
  have hall : ∀ w ∈ db'.journal.windows,
      w ∈ db.journal.windows ∨ w = ⟨db.generation + 1, complete⟩ := by
    intro w hw
    simpa using hrest.1.subset hw
  refine ⟨by omega, ?_, ?_, ?_, ?_, ?_, howned, ?_, ?_, hfits, fun _ => hgen ▸ hnewest⟩
  · rw [hgen, length_append, length_singleton]; push_cast; omega
  · rw [hgen, hfiles]; exact tableAt_append_length hlen
  · refine List.Pairwise.sublist hrest.1 (pairwise_append.mpr ⟨hok.sorted, by simp, ?_⟩)
    intro a ha b hb
    rw [mem_singleton.mp hb]
    exact hold _ (mem_map_of_mem ha)
  · intro w hw
    rcases hall w hw with hw | rfl
    · exact hok.positive w hw
    · show 0 < db.generation + 1
      omega
  · intro w hw
    refine ⟨by rw [hgen]; exact hrecent w hw, ?_⟩
    rw [hgen]
    rcases hall w hw with hw | rfl
    · have := (hok.range w hw).2
      omega
    · exact le_rfl
  · rw [hrest.2]
    refine List.Pairwise.filter _ (pairwise_append.mpr ⟨hok.ordered, hrec.ordered, ?_⟩)
    intro a ha b hb
    left
    obtain ⟨kept, rest, -, hforall, -⟩ := hrec
    rw [records_generation hforall b hb]
    exact hold _ (hok.owned a ha)
  · apply hrest.records
    intro w hw
    simp only [filter_append]
    rcases mem_append.mp hw with hw | hw
    · -- an old window: nothing was added to it, and its two tables are still there
      have hrange := (hok.range w hw).2
      have hpos := hok.positive w hw
      have hnil : added.filter (fun o => o.generation = w.generation) = [] := by
        obtain ⟨kept, rest, -, hforall, -⟩ := hrec
        rw [filter_eq_nil_iff]
        intro o ho
        rw [records_generation hforall o ho, decide_eq_true_eq]
        omega
      rw [hnil, append_nil, tableAt_append_of_lt (by omega) (by omega),
        tableAt_append_of_lt (by omega) (by omega)]
      exact hok.records w hw
    · rw [mem_singleton.mp hw]
      simp only
      rw [filter_eq_nil_of_owned hok.owned hold, nil_append, hrec.filter_eq,
        tableAt_append_length hlen, show db.generation + 1 - 1 = db.generation by omega,
        tableAt_append_of_lt hnonneg (by omega), hok.latest]
      exact hrec

theorem journalOk_step {s : List FilesTable × Db} (hok : JournalOk codec s.1 s.2)
    (request : PublishRequest) :
    JournalOk codec (publishStep codec s request).1 (publishStep codec s request).2 := by
  unfold publishStep
  cases h : publishRequest codec request s.2 with
  | ok db => exact journalOk_publish hok h
  | error e => exact hok

/-- The invariant holds after every run. -/
theorem journalOk_run (codec : Codec PublicationChange) (indexEpoch : Bytes)
    (requests : List PublishRequest) :
    JournalOk codec (publishRun codec indexEpoch requests).1
      (publishRun codec indexEpoch requests).2 :=
  foldlRecOn (motive := fun s => JournalOk codec s.1 s.2) requests (publishStep codec)
    (journalOk_create codec indexEpoch) fun _ hs request _ => journalOk_step hs request

/-! ## Reading the journal -/

section Reading

variable {codec : Codec PublicationChange} {history : List FilesTable} {db : Db}

/-- A complete window replays the table before it into its own. -/
theorem WindowRecord.replay {old new : FilesTable} {g : ℤ}
    (h : WindowRecord codec old new g observations true) :
    ∃ changes, (observations.mapM fun o => codec.decode o.value) = some changes ∧
      replayChanges changes old.state = new.state := by
  obtain ⟨kept, rest, hrows, hrec, hrest⟩ := h
  rw [hrest.mp rfl, append_nil] at hrows
  obtain ⟨changes, hdecode, hassign⟩ := records_decode hrec
  refine ⟨changes, hdecode, ?_⟩
  rw [replayChanges, hassign, ← hrows, diffRows_replay]

theorem replayChanges_append (xs ys : List PublicationChange) (t : Bytes → Option FileState) :
    replayChanges (xs ++ ys) t = replayChanges ys (replayChanges xs t) := by
  simp [replayChanges]

theorem mapM_decode_isSome {observations : List Observation}
    (h : ∀ o ∈ observations, ∃ change, codec.decode o.value = some change) :
    ∃ changes, (observations.mapM fun o => codec.decode o.value) = some changes := by
  induction observations with
  | nil => exact ⟨[], rfl⟩
  | cons o observations ih =>
    obtain ⟨change, hchange⟩ := h o mem_cons_self
    obtain ⟨changes, hchanges⟩ := ih fun o ho => h o (mem_cons_of_mem _ ho)
    exact ⟨change :: changes, by simp [hchange, hchanges]⟩

variable (hok : JournalOk codec history db)

include hok

theorem JournalOk.windows_nodup : (db.journal.windows.map Window.generation).Nodup := by
  rw [List.Nodup, pairwise_map]
  exact hok.sorted.imp fun h => h.ne

theorem JournalOk.windows_length : db.journal.windows.length ≤ 256 := by
  have h := length_le_window hok.windows_nodup (a := db.generation - maxWindows)
    (b := db.generation) (by unfold maxWindows; omega) ?_
  · rw [length_map] at h
    unfold maxWindows at h
    omega
  · intro g hg
    obtain ⟨w, hw, rfl⟩ := mem_map.mp hg
    exact hok.range w hw

/-- Every observation of the journal can be read back. -/
theorem JournalOk.decode {o : Observation} (ho : o ∈ db.journal.observations) :
    ∃ change, codec.decode o.value = some change := by
  obtain ⟨w, hw, hgen⟩ := mem_map.mp (hok.owned o ho)
  obtain ⟨kept, rest, -, hrec, -⟩ := hok.records w hw
  have hmem : o ∈ db.journal.observations.filter fun o => o.generation = w.generation :=
    mem_filter.mpr ⟨ho, by simp [hgen]⟩
  obtain ⟨i, hi, rfl⟩ := getElem_of_mem hmem
  obtain ⟨-, -, change, hvalue, -⟩ := hrec.get (by rw [hrec.length_eq]; exact hi) hi
  rw [get_eq_getElem] at hvalue
  exact ⟨change, by rw [hvalue, codec.decode_encode]⟩

/-- Observations whose windows are all there and complete replay one table
into a later one. -/
theorem JournalOk.replay_range (first : ℤ) (n : ℕ)
    (hwindows : ∀ g, InWindow first (first + n) g →
      ∃ w ∈ db.journal.windows, w.generation = g ∧ w.complete = true) :
    ∃ changes, ((db.journal.observations.filter fun o => InWindow first (first + n) o.generation).mapM
        fun o => codec.decode o.value) = some changes ∧
      replayChanges changes (tableAt history first).state = (tableAt history (first + n)).state := by
  induction n with
  | zero =>
    refine ⟨[], ?_, ?_⟩
    · have : (db.journal.observations.filter fun o => InWindow first (first + (0 : ℕ)) o.generation)
          = [] := by
        simp [inWindow_self]
      rw [this]
      rfl
    · simp [replayChanges]
  | succ n ih =>
    obtain ⟨changes, hdecode, hreplay⟩ := ih fun g hg => hwindows g (by
      unfold InWindow at hg ⊢; push_cast; omega)
    obtain ⟨w, hw, hgen, hcomplete⟩ := hwindows (first + n + 1) (by unfold InWindow; push_cast; omega)
    have hrec := hok.records w hw
    rw [hcomplete, hgen, show first + (n : ℤ) + 1 - 1 = first + n by omega] at hrec
    obtain ⟨last, hlast, hstep⟩ := hrec.replay
    have hsplit := filter_window_append Observation.generation
      (hok.ordered.imp fun {a b} (h : observationOrder a b) => by
        unfold observationOrder at h; omega)
      (show first ≤ first + (n : ℤ) by omega) (show first + (n : ℤ) ≤ first + n + 1 by omega)
    simp only [inWindow_succ] at hsplit
    rw [show first + ((n + 1 : ℕ) : ℤ) = first + n + 1 by push_cast; omega]
    refine ⟨changes ++ last, ?_, ?_⟩
    · rw [hsplit, mapM_append, hdecode, hlast]
      rfl
    · rw [replayChanges_append, hreplay, hstep]

variable {first last : ℤ}

/-- `observations_since` answers every range of generations, from the
observations of the range as they are stored. -/
theorem JournalOk.observationsSince_ok (h0 : 0 ≤ first) (h : first ≤ last) :
    ∃ changes, ((db.journal.observations.filter fun o => InWindow first last o.generation).mapM
        fun o => codec.decode o.value) = some changes ∧
      observationsSince codec db.journal first last = .ok
        { fromGeneration := first
          toGeneration := last
          retainedGenerationFloor :=
            (db.journal.windows.map Window.generation).min?.getD (last + 1)
          complete := ((db.journal.windows.filter fun w => InWindow first last w.generation).all
            Window.complete) &&
            (((db.journal.windows.filter fun w => InWindow first last w.generation).length : ℤ)
              == last - first)
          changes := changes } := by
  obtain ⟨changes, hchanges⟩ : ∃ changes,
      ((db.journal.observations.filter fun o => InWindow first last o.generation).mapM
        fun o => codec.decode o.value) = some changes :=
    mapM_decode_isSome fun o ho => hok.decode (mem_filter.mp ho).1
  refine ⟨changes, hchanges, ?_⟩
  rw [observationsSince, if_pos ⟨h0, h⟩]
  simp only [sortBy_of_pairwise (hok.ordered.filter _), hchanges]

/-- The window of every generation of the range is there and complete. -/
theorem JournalOk.windows_of_complete
    (hall : (db.journal.windows.filter fun w => InWindow first last w.generation).all
      Window.complete = true)
    (hlen : ((db.journal.windows.filter fun w => InWindow first last w.generation).length : ℤ)
      = last - first) :
    ∀ g, InWindow first last g →
      ∃ w ∈ db.journal.windows, w.generation = g ∧ w.complete = true := by
  intro g hg
  have hnd := List.Nodup.sublist
    ((filter_sublist (p := fun w => decide (InWindow first last w.generation))).map
      Window.generation) hok.windows_nodup
  have hmem := mem_of_length_eq hnd (a := first) (b := last) ?_ (by rw [length_map]; exact hlen)
    g hg
  · obtain ⟨w, hw, hwg⟩ := mem_map.mp hmem
    exact ⟨w, (mem_filter.mp hw).1, hwg, all_eq_true.mp hall w hw⟩
  · intro g' hg'
    obtain ⟨w, hw, rfl⟩ := mem_map.mp hg'
    exact of_decide_eq_true (mem_filter.mp hw).2

theorem JournalOk.windows_le (h : first ≤ last) :
    ((db.journal.windows.filter fun w => InWindow first last w.generation).length : ℤ) ≤
      last - first := by
  rw [← length_map Window.generation]
  refine length_le_window (hok.windows_nodup.sublist (filter_sublist.map _)) h fun g hg => ?_
  obtain ⟨w, hw, rfl⟩ := mem_map.mp hg
  exact of_decide_eq_true (mem_filter.mp hw).2

end Reading

/-! ## Every run -/

/-- A complete window was not cut short. -/
theorem WindowRecord.length_eq {codec : Codec PublicationChange} {old new : FilesTable} {g : ℤ}
    {observations : List Observation} (h : WindowRecord codec old new g observations true) :
    observations.length = (diffRows old new).length := by
  obtain ⟨kept, rest, hrows, hrec, hrest⟩ := h
  rw [hrows, hrest.mp rfl, append_nil, hrec.length_eq]

/-- **The journal over every run of publications.** Generations number the
published tables. After every run the journal is within its three limits and
still has the newest window. For every range of generations reached so far
`observations_since` answers; if it says `complete`, replaying its changes
from the table of the first generation gives the table of the last; and it
does not say `complete` when a window of the range was evicted or cut
short. -/
theorem publishRun_journal (codec : Codec PublicationChange) (indexEpoch : Bytes)
    (requests : List PublishRequest) :
    let history := (publishRun codec indexEpoch requests).1
    let db := (publishRun codec indexEpoch requests).2
    db.generation + 1 = history.length ∧ tableAt history db.generation = db.files ∧
    db.journal.windows.length ≤ 256 ∧ db.journal.observations.length ≤ 4096 ∧
    observationBytes db.journal.observations ≤ 4 * 1024 * 1024 ∧
    (0 < db.generation → ∃ w ∈ db.journal.windows, w.generation = db.generation) ∧
    ∀ first last : ℤ, 0 ≤ first → first ≤ last → last ≤ db.generation →
      ∃ result, observationsSince codec db.journal first last = .ok result ∧
        (result.complete = true →
          replayChanges result.changes (tableAt history first).state =
            (tableAt history last).state) ∧
        ((∃ g, InWindow first last g ∧ (Evicted db.journal g ∨ CutShort history db.journal g)) →
          result.complete = false) := by
  intro history db
  have hok : JournalOk codec history db := journalOk_run codec indexEpoch requests
  refine ⟨hok.generation, hok.latest, hok.windows_length, hok.fits.1, hok.fits.2, ?_, ?_⟩
  · intro hpos
    obtain ⟨w, hw, hg⟩ := mem_map.mp (hok.newest hpos)
    exact ⟨w, hw, hg⟩
  · intro first last h0 hle hlast
    obtain ⟨changes, hchanges, hresult⟩ := hok.observationsSince_ok h0 hle
    refine ⟨_, hresult, ?_, ?_⟩
    · intro hcomplete
      simp only [Bool.and_eq_true, beq_iff_eq] at hcomplete
      obtain ⟨changes', hchanges', hreplay⟩ := hok.replay_range first (last - first).toNat
        (by
          rw [show first + ((last - first).toNat : ℤ) = last by omega]
          exact hok.windows_of_complete hcomplete.1 hcomplete.2)
      rw [show first + ((last - first).toNat : ℤ) = last by omega] at hchanges' hreplay
      rw [hchanges] at hchanges'
      cases hchanges'
      exact hreplay
    · rintro ⟨g, hg, hlost⟩
      by_contra hcomplete
      simp only [Bool.not_eq_false, Bool.and_eq_true, beq_iff_eq] at hcomplete
      obtain ⟨w, hw, rfl, hwc⟩ := hok.windows_of_complete hcomplete.1 hcomplete.2 g hg
      rcases hlost with hevicted | hcut
      · exact hevicted (mem_map_of_mem hw)
      · have hrec := hok.records w hw
        rw [hwc] at hrec
        unfold CutShort at hcut
        rw [hrec.length_eq] at hcut
        omega

/-- After every run two ranges that meet are read as the whole one: its changes are theirs, one
after the other, and it is complete if and only if both are. -/
theorem observationsSince_append (codec : Codec PublicationChange) (indexEpoch : Bytes)
    (requests : List PublishRequest) (first m n : ℕ) :
    let journal := (publishRun codec indexEpoch requests).2.journal
    ∃ before after whole, observationsSince codec journal first (first + m) = .ok before ∧
      observationsSince codec journal (first + m) (first + m + n) = .ok after ∧
      observationsSince codec journal first (first + m + n) = .ok whole ∧
      whole.changes = before.changes ++ after.changes ∧
      whole.complete = (before.complete && after.complete) := by
  have hok := journalOk_run codec indexEpoch requests
  have hm : (first : ℤ) ≤ first + m := by omega
  have hn : (first + m : ℤ) ≤ first + m + n := by omega
  obtain ⟨before, hbefore, hfirst⟩ := hok.observationsSince_ok (by omega) hm
  obtain ⟨after, hafter, hsecond⟩ := hok.observationsSince_ok (by omega) hn
  obtain ⟨whole, hwhole, hboth⟩ := hok.observationsSince_ok (by omega) (hm.trans hn)
  refine ⟨_, _, _, hfirst, hsecond, hboth, ?_, ?_⟩
  · rw [filter_window_append _ (hok.ordered.imp fun h => by unfold observationOrder at h; omega) hm hn,
      mapM_append, hbefore, hafter] at hwhole
    exact (Option.some.inj hwhole).symm
  · have hle := hok.windows_le hm
    have hle' := hok.windows_le hn
    -- neither half has more windows than generations, so the whole has all only if both do
    simp only [filter_window_append _ (hok.sorted.imp le_of_lt) hm hn, all_append, length_append]
    grind

end Trufflepig.Store
