import Trufflepig.Diagnostics.SessionSnapshot

/-!
# What a comparison of snapshots accounts for

Every path that differs, has gone or has come is in one account; a renamed file is one account of
two paths. The report lists the first accounts and counts the others.

* `getEntry_exactRenames`: the renames are the pairs of paths with a revision of their own.
* `stepBefore_counts`, `stepAfter_counts`: the loops count the accounts, and list the first of them.
* `nodup_accounts`, `mem_paths_iff`: every path that has changed is in one account.
* `compare_spec`: the report of a comparison.
-/

namespace Trufflepig.Diagnostics

open List Lib Extract History Store

/-! ## Snapshots -/

variable {snapshot : SessionSnapshot}

namespace SessionSnapshot

variable {path : Bytes} {file : SessionFile}

theorem get_eq_some : snapshot.get path = some file ↔ (path, file) ∈ snapshot.files.rows := by
  unfold get
  rw [Option.map_eq_some_iff]
  constructor
  · rintro ⟨row, hrow, rfl⟩
    obtain ⟨hmem, rfl⟩ := SortedTable.mem_of_find hrow
    exact hmem
  · intro hmem
    exact ⟨(path, file), SortedTable.find_of_mem hmem, rfl⟩

theorem contains_iff : snapshot.contains path = true ↔ ∃ file, snapshot.get path = some file :=
  Option.isSome_iff_exists

theorem contains_of_get (h : snapshot.get path = some file) : snapshot.contains path = true :=
  contains_iff.mpr ⟨file, h⟩

theorem nodup_paths (snapshot : SessionSnapshot) : (snapshot.files.rows.map Prod.fst).Nodup :=
  nodup_of_sorted snapshot.files

/-- The rows with a revision. -/
def withRevision (snapshot : SessionSnapshot) (revision : ContentRevision) :
    List (Bytes × SessionFile) :=
  snapshot.files.rows.filter fun row => row.2.revision = some revision

end SessionSnapshot

/-! ## Unique revisions -/

theorem getEntry_enterRevision (revision other : ContentRevision) (path : Bytes)
    (entries : List (ContentRevision × Option Bytes)) :
    getEntry (enterRevision revision path entries) other =
      if other = revision then
        some (if (getEntry entries revision).isSome then none else some path)
      else getEntry entries other := by
  induction entries with
  | nil => grind [enterRevision, getEntry]
  | cons entry entries ih => grind [enterRevision, getEntry_cons]

theorem keys_enterRevision (revision : ContentRevision) (path : Bytes)
    (entries : List (ContentRevision × Option Bytes)) :
    (enterRevision revision path entries).map Prod.fst =
      if revision ∈ entries.map Prod.fst then entries.map Prod.fst
      else entries.map Prod.fst ++ [revision] := by
  induction entries with
  | nil => simp [enterRevision]
  | cons entry entries ih => grind [enterRevision]

/-- The loop of `unique_files`. -/
def enterRows (rows : List (Bytes × SessionFile)) : List (ContentRevision × Option Bytes) :=
  rows.foldl (fun entries row =>
    match row.2.revision with
    | some revision => enterRevision revision row.1 entries
    | none => entries) []

/-- The path of the only row. -/
def onlyPath : List (Bytes × SessionFile) → Option (Option Bytes)
  | [] => none
  | [row] => some (some row.1)
  | _ :: _ :: _ => some none

theorem getEntry_enterRows (rows : List (Bytes × SessionFile)) (revision : ContentRevision) :
    getEntry (enterRows rows) revision =
      onlyPath (rows.filter fun row => row.2.revision = some revision) := by
  induction rows using List.reverseRecOn with
  | nil => rfl
  | append_singleton rows row ih =>
    rw [enterRows, foldl_append, ← enterRows, filter_append, foldl_cons, foldl_nil]
    cases hrow : row.2.revision with
    | none => simp [hrow, ih]
    | some held =>
      simp only [getEntry_enterRevision]
      by_cases hheld : revision = held
      · subst hheld
        rw [if_pos rfl, ih]
        -- A second row takes the path away.
        generalize rows.filter (fun row => row.2.revision = some revision) = held
        rcases held with _ | ⟨first, _ | ⟨second, rest⟩⟩
        · simp [hrow, onlyPath]
        · simp [hrow, onlyPath]
        · simp [hrow, onlyPath]
      · have hne : ¬some held = some revision := fun h => hheld (Option.some.inj h).symm
        rw [if_neg hheld, ih]
        simp [hrow, hne]

theorem nodup_enterRows (rows : List (Bytes × SessionFile)) :
    ((enterRows rows).map Prod.fst).Nodup := by
  unfold enterRows
  refine foldlRecOn (motive := fun entries => (map Prod.fst entries).Nodup) rows _ nodup_nil
    fun entries ih row _ => ?_
  cases row.2.revision with
  | none => exact ih
  | some revision =>
    show ((enterRevision revision row.1 entries).map Prod.fst).Nodup
    rw [keys_enterRevision]
    split_ifs with hmem
    · exact ih
    · rw [← concat_eq_append]
      exact ih.concat hmem

theorem onlyPath_eq_some {rows : List (Bytes × SessionFile)} {path : Bytes} :
    onlyPath rows = some (some path) ↔ ∃ file, rows = [(path, file)] := by
  rcases rows with _ | ⟨⟨first, file⟩, _ | ⟨second, rest⟩⟩
  · simp [onlyPath]
  · simp [onlyPath]
  · simp [onlyPath]

variable {revision : ContentRevision}

/-- A revision has an entry with a path exactly if it has one row. -/
theorem mem_uniqueFiles {path : Bytes} :
    getEntry (uniqueFiles snapshot) revision = some (some path) ↔
      ∃ file, snapshot.withRevision revision = [(path, file)] :=
  (getEntry_enterRows snapshot.files.rows revision).symm ▸ onlyPath_eq_some

/-! ## Renames -/

/-- A rename of a file: the path is only before, the other only after, and their revision is that
of one file before and of one file after. -/
def ExactRename (before after : SessionSnapshot) (path afterPath : Bytes) : Prop :=
  after.contains path = false ∧ before.contains afterPath = false ∧
    ∃ revision old new, before.withRevision revision = [(path, old)] ∧
      after.withRevision revision = [(afterPath, new)]

section Insert

variable {κ ν : Type} [DecidableEq κ] {entries : List (κ × ν)}

theorem mem_insertEntry {entry e : κ × ν} :
    e ∈ insertEntry entries entry ↔ e = entry ∨ e ∈ entries ∧ e.1 ≠ entry.1 := by
  simp [insertEntry]

theorem nodup_insertEntry (h : (entries.map Prod.fst).Nodup) (entry : κ × ν) :
    ((insertEntry entries entry).map Prod.fst).Nodup := by
  unfold insertEntry
  rw [map_cons, nodup_cons]
  refine ⟨?_, h.sublist (filter_sublist.map _)⟩
  intro hmem
  obtain ⟨held, hheld, heq⟩ := mem_map.mp hmem
  simpa [heq] using (mem_filter.mp hheld).2

/-- Pairs that are entered one after another, of which no two have one key and two values. -/
theorem mem_foldl_insertEntry {pairs : List (κ × ν)}
    (h : ∀ a ∈ pairs, ∀ b ∈ pairs, a.1 = b.1 → a = b) {e : κ × ν} :
    e ∈ pairs.foldl insertEntry [] ↔ e ∈ pairs := by
  induction pairs using List.reverseRecOn with
  | nil => simp
  | append_singleton pairs pair ih =>
    have ih := ih fun a ha b hb => h a (by simp [ha]) b (by simp [hb])
    rw [foldl_append, foldl_cons, foldl_nil, mem_insertEntry, ih]
    constructor
    · rintro (rfl | ⟨hmem, -⟩)
      · simp
      · simp [hmem]
    · intro hmem
      by_cases hkey : e.1 = pair.1
      · exact .inl (h e hmem pair (by simp) hkey)
      · rcases mem_append.mp hmem with hmem | hmem
        · exact .inr ⟨hmem, hkey⟩
        · exact .inl (mem_singleton.mp hmem)

theorem nodup_foldl_insertEntry (pairs : List (κ × ν)) :
    ((pairs.foldl insertEntry []).map Prod.fst).Nodup :=
  foldlRecOn (motive := fun entries => (map Prod.fst entries).Nodup) pairs _ nodup_nil
    fun _ ih pair _ => nodup_insertEntry ih pair

theorem getEntry_eq_some (h : (entries.map Prod.fst).Nodup) {k : κ} {v : ν} :
    getEntry entries k = some v ↔ (k, v) ∈ entries := by
  constructor
  · intro hget
    obtain ⟨entry, hfind, rfl⟩ := Option.map_eq_some_iff.mp hget
    have hkey : entry.1 = k := by simpa using find?_some hfind
    exact hkey ▸ mem_of_find?_eq_some hfind
  · exact fun hmem => getEntry_of_mem h hmem

end Insert

section Renames

variable {iteration : Iteration (ContentRevision × Option Bytes)} {before after : SessionSnapshot}
  {path afterPath : Bytes}

theorem exactRenames_eq :
    exactRenames iteration before after = ((iteration.order (uniqueFiles before)).filterMap
      (renamePair before after)).foldl insertEntry [] := by
  unfold exactRenames
  rw [foldl_filterMap]
  refine congrArg (fun step => List.foldl step [] _) ?_
  funext renames entry
  cases renamePair before after entry with
  | none => rfl
  | some pair => rfl

theorem renamePair_eq_some {entry : ContentRevision × Option Bytes} :
    renamePair before after entry = some (path, afterPath) ↔
      entry.2 = some path ∧ getEntry (uniqueFiles after) entry.1 = some (some afterPath) ∧
        after.contains path = false ∧ before.contains afterPath = false := by
  unfold renamePair
  split
  · next found foundAfter hfound hfoundAfter =>
    rw [hfound, hfoundAfter]
    by_cases honly : (!after.contains found && !before.contains foundAfter) = true
    · rw [if_pos honly]
      simp only [Bool.and_eq_true, Bool.not_eq_true'] at honly
      constructor
      · intro heq
        obtain ⟨rfl, rfl⟩ := Prod.mk.inj (Option.some.inj heq)
        exact ⟨rfl, rfl, honly⟩
      · rintro ⟨hpath, hafterPath, -⟩
        rw [Option.some.inj hpath, Option.some.inj (Option.some.inj hafterPath)]
    · rw [if_neg honly]
      refine iff_of_false (by rintro ⟨⟩) ?_
      rintro ⟨hpath, hafterPath, hbefore, hafter⟩
      obtain rfl := Option.some.inj hpath
      obtain rfl := Option.some.inj (Option.some.inj hafterPath)
      exact honly (by rw [hbefore, hafter]; rfl)
  · next hnot =>
    refine iff_of_false (by rintro ⟨⟩) ?_
    rintro ⟨hpath, hafterPath, -⟩
    exact hnot path afterPath hpath hafterPath

theorem mem_renamePairs :
    (path, afterPath) ∈ (iteration.order (uniqueFiles before)).filterMap (renamePair before after) ↔
      ExactRename before after path afterPath := by
  rw [mem_filterMap]
  constructor
  · rintro ⟨⟨revision, held⟩, hmem, hpair⟩
    obtain ⟨hheld, hfound, hafter, hbefore⟩ := renamePair_eq_some.mp hpair
    have hentry : getEntry (uniqueFiles before) revision = some (some path) := by
      have hget := getEntry_of_mem (nodup_enterRows before.files.rows)
        ((iteration.perm _).mem_iff.mp hmem)
      rwa [show held = some path from hheld] at hget
    obtain ⟨old, hold⟩ := mem_uniqueFiles.mp hentry
    obtain ⟨new, hnew⟩ := mem_uniqueFiles.mp hfound
    exact ⟨hafter, hbefore, revision, old, new, hold, hnew⟩
  · rintro ⟨hafter, hbefore, revision, old, new, hold, hnew⟩
    have hentry : getEntry (uniqueFiles before) revision = some (some path) :=
      mem_uniqueFiles.mpr ⟨old, hold⟩
    refine ⟨(revision, some path), (iteration.perm _).mem_iff.mpr ?_, ?_⟩
    · exact (getEntry_eq_some (nodup_enterRows before.files.rows)).mp hentry
    · exact renamePair_eq_some.mpr ⟨rfl, mem_uniqueFiles.mpr ⟨new, hnew⟩, hafter, hbefore⟩

theorem mem_of_withRevision
    {file : SessionFile} (h : snapshot.withRevision revision = [(path, file)]) :
    snapshot.get path = some file ∧ file.revision = some revision := by
  have hmem : (path, file) ∈ snapshot.withRevision revision := by
    rw [h]
    exact mem_singleton_self _
  unfold SessionSnapshot.withRevision at hmem
  rw [mem_filter] at hmem
  exact ⟨SessionSnapshot.get_eq_some.mpr hmem.1, of_decide_eq_true hmem.2⟩

variable {other : Bytes}

/-- A path is renamed to one path. -/
theorem ExactRename.functional (h : ExactRename before after path afterPath)
    (h' : ExactRename before after path other) : afterPath = other := by
  obtain ⟨-, -, revision, old, new, hold, hnew⟩ := h
  obtain ⟨-, -, revision', old', new', hold', hnew'⟩ := h'
  obtain ⟨hget, hrevision⟩ := mem_of_withRevision hold
  obtain ⟨hget', hrevision'⟩ := mem_of_withRevision hold'
  have hfile : old = old' := Option.some.inj (hget.symm.trans hget')
  subst hfile
  have hsame : revision = revision' := Option.some.inj (hrevision.symm.trans hrevision')
  subst hsame
  rw [hnew, List.cons.injEq, Prod.mk.injEq] at hnew'
  exact hnew'.1.1

theorem ExactRename.symm (h : ExactRename before after path afterPath) :
    ExactRename after before afterPath path := by
  obtain ⟨hafter, hbefore, revision, old, new, hold, hnew⟩ := h
  exact ⟨hbefore, hafter, revision, new, old, hnew, hold⟩

/-- No two paths are renamed to one path. -/
theorem ExactRename.injective (h : ExactRename before after path afterPath)
    (h' : ExactRename before after other afterPath) : path = other := h.symm.functional h'.symm

theorem mem_exactRenames : (path, afterPath) ∈ exactRenames iteration before after ↔
      ExactRename before after path afterPath := by
  rw [exactRenames_eq, mem_foldl_insertEntry, mem_renamePairs]
  rintro ⟨a, a'⟩ ha ⟨b, b'⟩ hb (rfl : a = b)
  rw [(mem_renamePairs.mp ha).functional (mem_renamePairs.mp hb)]

/-- The renames are the pairs of paths with a revision of their own. -/
theorem getEntry_exactRenames :
    getEntry (exactRenames iteration before after) path = some afterPath ↔
      ExactRename before after path afterPath := by
  rw [← mem_exactRenames, getEntry_eq_some]
  rw [exactRenames_eq]
  exact nodup_foldl_insertEntry _

end Renames

/-! ## Accounts -/

/-- What a comparison accounts for. -/
inductive Account where
  | differs (path : Bytes)
  | disappeared (path : Bytes)
  | renamed (path afterPath : Bytes)
  | added (path : Bytes)

/-- The paths of an account. -/
def Account.paths : Account → List Bytes
  | differs path => [path]
  | disappeared path => [path]
  | renamed path afterPath => [path, afterPath]
  | added path => [path]

/-- The account of a change. -/
def SessionChange.account : SessionChange → Account
  | renamed path afterPath _ _ => .renamed path afterPath
  | compared path _ _ _ _ _ _ _ => .differs path
  | absent path _ _ => .disappeared path
  | added path _ => .added path

/-- A path whose file differs, has gone or has come. -/
def Changed (before after : SessionSnapshot) (path : Bytes) : Prop :=
  match before.get path, after.get path with
  | some old, some new => old.revision ≠ new.revision ∨ old.status ≠ new.status
  | some _, none => True
  | none, some _ => True
  | none, none => False

section Accounts

variable (before after : SessionSnapshot) (renames : List (Bytes × Bytes))

/-- The account of a file before. -/
def accountBefore (row : Bytes × SessionFile) : Option Account :=
  if (after.get row.1).any (sameFile row.2) then none
  else
    match getEntry renames row.1 with
    | some afterPath => some (.renamed row.1 afterPath)
    | none => if after.contains row.1 then some (.differs row.1) else some (.disappeared row.1)

/-- The account of a file after. -/
def accountAfter (row : Bytes × SessionFile) : Option Account :=
  if !before.contains row.1 && !(renames.map Prod.snd).contains row.1 then some (.added row.1)
  else none

/-- The accounts of two snapshots. -/
def accounts : List Account :=
  before.files.rows.filterMap (accountBefore after renames) ++
    after.files.rows.filterMap (accountAfter before renames)

end Accounts

/-! ## The loops -/

/-- The changes are the first accounts, and the total is their number. -/
structure Counts (state : ChangeState) (counted : List Account) : Prop where
  listed : state.changes.map SessionChange.account = counted.take listedChanges
  total : state.total = counted.length

namespace Counts

variable {state : ChangeState} {counted : List Account}

theorem length_changes (h : Counts state counted) :
    state.changes.length = min listedChanges counted.length := by
  rw [← length_take, ← h.listed, length_map]

/-- An account that is only counted. -/
theorem count (h : Counts state counted) (hfull : state.changes.length ≥ listedChanges)
    (account : Account) : Counts ⟨state.changes, state.total + 1⟩ (counted ++ [account]) := by
  have hlength := h.length_changes
  have hlong : listedChanges ≤ counted.length := by omega
  refine ⟨?_, ?_⟩
  · rw [take_append_of_le_length hlong]
    exact h.listed
  · rw [length_append, ← h.total]
    rfl

/-- An account that is listed. -/
theorem list (h : Counts state counted) (hroom : ¬state.changes.length ≥ listedChanges)
    (change : SessionChange) :
    Counts ⟨state.changes ++ [change], state.total + 1⟩ (counted ++ [change.account]) := by
  have hlength := h.length_changes
  have hshort : counted.length < listedChanges := by omega
  refine ⟨?_, ?_⟩
  · rw [map_append, h.listed, take_of_length_le hshort.le,
      take_of_length_le (by rw [length_append]; exact hshort)]
    rfl
  · rw [length_append, ← h.total]
    rfl

end Counts

section Loops

variable (library : DiffLibrary) (orders : HashOrders ContentRevision ContentRevision)
  (observations : PublicationObservations) (before after : SessionSnapshot)
  (renames : List (Bytes × Bytes))

theorem contains_eq_of_get {path : Bytes} {found : Option SessionFile}
    (h : snapshot.get path = found) : snapshot.contains path = found.isSome := by
  unfold SessionSnapshot.contains
  rw [h]

/-- A file that differs has a change, of its account. -/
theorem beforeChange_ok {row : Bytes × SessionFile}
    (hdiffers : ¬(after.get row.1).any (sameFile row.2) = true) :
    ∃ change, beforeChange library orders observations after renames row.1 row.2 =
        .ok (some change) ∧
      accountBefore after renames row = some change.account := by
  unfold beforeChange accountBefore
  rw [if_neg hdiffers]
  cases getEntry renames row.1 with
  | some afterPath => exact ⟨_, rfl, rfl⟩
  | none =>
    cases hafter : after.get row.1 with
    | none =>
      rw [contains_eq_of_get hafter]
      exact ⟨_, rfl, rfl⟩
    | some new =>
      rw [hafter] at hdiffers
      obtain ⟨occurrences, hoccurrences⟩ := factChanges_ok library orders row.2 new
      obtain ⟨source, hsource⟩ := sourceChanges_ok library row.2 new
      rw [contains_eq_of_get hafter]
      refine ⟨.compared row.1 (comparedCategory row.2 new) row.2.revision new.revision row.2.status
        new.status occurrences source, ?_, rfl⟩
      show (if sameFile row.2 new then _ else _) = _
      rw [if_neg (show ¬sameFile row.2 new = true from hdiffers), hoccurrences, hsource]
      rfl

variable {state : ChangeState} {counted : List Account}

/-- The loop over the files before goes on. -/
theorem stepBefore_counts (h : Counts state counted) (row : Bytes × SessionFile) :
    ∃ next, stepBefore library orders observations after renames state row = .ok next ∧
      Counts next (counted ++ (accountBefore after renames row).toList) := by
  unfold stepBefore
  by_cases hsame : (after.get row.1).any (sameFile row.2) = true
  · rw [if_pos hsame, accountBefore, if_pos hsame, Option.toList_none, append_nil]
    exact ⟨state, rfl, h⟩
  · obtain ⟨change, hchange, haccount⟩ := beforeChange_ok library orders observations after renames hsame
    rw [if_neg hsame, haccount, Option.toList_some]
    by_cases hfull : state.changes.length ≥ listedChanges
    · rw [if_pos hfull]
      exact ⟨_, rfl, h.count hfull change.account⟩
    · rw [if_neg hfull, hchange]
      exact ⟨_, rfl, h.list hfull change⟩

theorem toList_append_filterMap {α β : Type} (f : α → Option β) (x : α) (xs : List α) :
    (f x).toList ++ xs.filterMap f = (x :: xs).filterMap f := by
  rw [filterMap_cons]
  cases f x with
  | none => rfl
  | some y => rfl

theorem foldlM_stepBefore (rows : List (Bytes × SessionFile)) (h : Counts state counted) :
    ∃ next, rows.foldlM (stepBefore library orders observations after renames) state = .ok next ∧
      Counts next (counted ++ rows.filterMap (accountBefore after renames)) := by
  induction rows generalizing state counted with
  | nil =>
    rw [filterMap_nil, append_nil]
    exact ⟨state, rfl, h⟩
  | cons row rows ih =>
    obtain ⟨next, hnext, hcounts⟩ :=
      stepBefore_counts library orders observations after renames h row
    obtain ⟨last, hlast, hall⟩ := ih hcounts
    refine ⟨last, ?_, ?_⟩
    · rw [foldlM_cons, hnext]
      exact hlast
    · rwa [append_assoc, toList_append_filterMap] at hall

theorem stepAfter_counts (h : Counts state counted) (row : Bytes × SessionFile) :
    Counts (stepAfter before renames state row)
      (counted ++ (accountAfter before renames row).toList) := by
  unfold stepAfter accountAfter
  split_ifs with hadded hfull
  · exact h.count hfull _
  · exact h.list hfull (.added row.1 row.2.revision)
  · rw [Option.toList_none, append_nil]
    exact h

theorem foldl_stepAfter (rows : List (Bytes × SessionFile)) (h : Counts state counted) :
    Counts (rows.foldl (stepAfter before renames) state)
      (counted ++ rows.filterMap (accountAfter before renames)) := by
  induction rows generalizing state counted with
  | nil =>
    rw [filterMap_nil, append_nil]
    exact h
  | cons row rows ih =>
    have hall := ih (stepAfter_counts before renames h row)
    rwa [append_assoc, toList_append_filterMap] at hall

end Loops

theorem retained_le (size : SessionChange → ℕ) (bytes : ℕ) (changes : List SessionChange) :
    retained size bytes changes ≤ changes.length := by
  fun_induction retained size bytes changes with
  | case1 => exact Nat.le_refl 0
  | case2 => exact Nat.zero_le _
  | case3 bytes change changes _ _ ih =>
    rw [length_cons]
    omega

/-! ## What is accounted for -/

/-- What an account says of two snapshots. -/
def Account.Holds (before after : SessionSnapshot) : Account → Prop
  | differs path => ∃ old new, before.get path = some old ∧ after.get path = some new ∧
      ¬sameFile old new
  | disappeared path => before.contains path ∧ after.contains path = false ∧
      ∀ afterPath, ¬ExactRename before after path afterPath
  | renamed path afterPath => ExactRename before after path afterPath
  | added path => before.contains path = false ∧ after.contains path ∧
      ∀ old, ¬ExactRename before after old path

section Holds

variable (iteration : Iteration (ContentRevision × Option Bytes)) {before after : SessionSnapshot}
  {path : Bytes}

theorem ExactRename.contains {afterPath : Bytes} (h : ExactRename before after path afterPath) :
    before.contains path = true ∧ after.contains afterPath = true := by
  obtain ⟨-, -, revision, old, new, hold, hnew⟩ := h
  exact ⟨SessionSnapshot.contains_of_get (mem_of_withRevision hold).1,
    SessionSnapshot.contains_of_get (mem_of_withRevision hnew).1⟩

theorem ExactRename.ne_before {found afterPath : Bytes}
    (h : ExactRename before after path afterPath) (hfound : before.contains found = true) :
    found ≠ afterPath := by
  rintro rfl
  exact Bool.false_ne_true (h.2.1.symm.trans hfound)

theorem get_eq_none (h : snapshot.contains path = false) :
    snapshot.get path = none := by
  unfold SessionSnapshot.contains at h
  exact Option.isNone_iff_eq_none.mp (by simpa using h)

theorem getEntry_eq_none : getEntry (exactRenames iteration before after) path = none ↔
    ∀ afterPath, ¬ExactRename before after path afterPath := by
  simp only [Option.eq_none_iff_forall_ne_some, ne_eq, getEntry_exactRenames]

theorem renamedPaths_contains {afterPath : Bytes} :
    ((exactRenames iteration before after).map Prod.snd).contains afterPath = false ↔
      ∀ path, ¬ExactRename before after path afterPath := by
  simp [← @mem_exactRenames iteration]

variable {row : Bytes × SessionFile} {account : Account}

/-- The account of a file before, and its paths. -/
theorem accountBefore_eq_some (hrow : row ∈ before.files.rows)
    (h : accountBefore after (exactRenames iteration before after) row = some account) :
    account.Holds before after ∧ ∀ path ∈ account.paths,
      path = row.1 ∨ ExactRename before after row.1 path := by
  have hget : before.get row.1 = some row.2 := SessionSnapshot.get_eq_some.mpr hrow
  unfold accountBefore at h
  by_cases hsame : (after.get row.1).any (sameFile row.2) = true
  · rw [if_pos hsame] at h
    exact nomatch h
  rw [if_neg hsame] at h
  split at h
  · next afterPath hrenamed =>
    obtain rfl := Option.some.inj h
    have hrename := getEntry_exactRenames.mp hrenamed
    refine ⟨hrename, fun path hpath => ?_⟩
    rcases mem_pair.mp hpath with rfl | rfl
    · exact .inl rfl
    · exact .inr hrename
  · next hnone =>
    have hstays := (getEntry_eq_none iteration).mp hnone
    have hpaths : ∀ path ∈ [row.1], path = row.1 ∨ ExactRename before after row.1 path :=
      fun path hpath => .inl (mem_singleton.mp hpath)
    split_ifs at h with hafter
    · obtain rfl := Option.some.inj h
      obtain ⟨new, hnew⟩ := SessionSnapshot.contains_iff.mp hafter
      rw [hnew] at hsame
      exact ⟨⟨row.2, new, hget, hnew, hsame⟩, hpaths⟩
    · obtain rfl := Option.some.inj h
      exact ⟨⟨SessionSnapshot.contains_of_get hget, by simpa using hafter, hstays⟩, hpaths⟩

/-- The account of a file after. -/
theorem accountAfter_eq_some (hrow : row ∈ after.files.rows)
    (h : accountAfter before (exactRenames iteration before after) row = some account) :
    account = .added row.1 ∧ account.Holds before after := by
  unfold accountAfter at h
  split_ifs at h with hadded
  obtain rfl := Option.some.inj h
  simp only [Bool.and_eq_true, Bool.not_eq_true'] at hadded
  have hget : after.get row.1 = some row.2 := SessionSnapshot.get_eq_some.mpr hrow
  exact ⟨rfl, hadded.1, SessionSnapshot.contains_of_get hget,
    (renamedPaths_contains iteration).mp hadded.2⟩

theorem holds_of_mem (h : account ∈ accounts before after (exactRenames iteration before after)) :
    account.Holds before after := by
  rcases mem_append.mp h with h | h
  · obtain ⟨row, hrow, haccount⟩ := mem_filterMap.mp h
    exact (accountBefore_eq_some iteration hrow haccount).1
  · obtain ⟨row, hrow, haccount⟩ := mem_filterMap.mp h
    exact (accountAfter_eq_some iteration hrow haccount).2

theorem mem_of_holds (h : account.Holds before after) :
    account ∈ accounts before after (exactRenames iteration before after) := by
  unfold accounts
  rw [mem_append, mem_filterMap, mem_filterMap]
  cases account with
  | differs path =>
    obtain ⟨old, new, hold, hnew, hdiffers⟩ := h
    refine .inl ⟨(path, old), SessionSnapshot.get_eq_some.mp hold, ?_⟩
    have hcontains := SessionSnapshot.contains_of_get hnew
    have hnone : getEntry (exactRenames iteration before after) path = none :=
      (getEntry_eq_none iteration).mpr fun afterPath hrenamed =>
        Bool.false_ne_true (hrenamed.1.symm.trans hcontains)
    unfold accountBefore
    simp only [hnew, Option.any_some, if_neg hdiffers, hnone, if_pos hcontains]
  | disappeared path =>
    obtain ⟨hbefore, hafter, hstays⟩ := h
    obtain ⟨old, hold⟩ := SessionSnapshot.contains_iff.mp hbefore
    refine .inl ⟨(path, old), SessionSnapshot.get_eq_some.mp hold, ?_⟩
    have hnone := (getEntry_eq_none iteration).mpr hstays
    unfold accountBefore
    simp only [get_eq_none hafter, Option.any_none, hnone, hafter, Bool.false_eq_true, if_false]
  | renamed path afterPath =>
    obtain ⟨old, hold⟩ := SessionSnapshot.contains_iff.mp h.contains.1
    refine .inl ⟨(path, old), SessionSnapshot.get_eq_some.mp hold, ?_⟩
    unfold accountBefore
    simp only [get_eq_none h.1, Option.any_none, getEntry_exactRenames.mpr h, Bool.false_eq_true,
      if_false]
  | added path =>
    obtain ⟨hbefore, hafter, hnew⟩ := h
    obtain ⟨file, hfile⟩ := SessionSnapshot.contains_iff.mp hafter
    refine .inr ⟨(path, file), SessionSnapshot.get_eq_some.mp hfile, ?_⟩
    have hnot := (renamedPaths_contains iteration).mpr hnew
    unfold accountAfter
    simp only [hbefore, hnot, Bool.not_false, Bool.and_self, if_true]

theorem contains_of_mem (h : row ∈ snapshot.files.rows) :
    snapshot.contains row.1 = true :=
  SessionSnapshot.contains_of_get (SessionSnapshot.get_eq_some.mpr h)

variable {row' : Bytes × SessionFile} {account' : Account}

/-- Two files before have no path in common: their paths differ, and so do the paths that they are
renamed to. -/
theorem disjoint_before (hrow : row ∈ before.files.rows)
    (hrow' : row' ∈ before.files.rows) (hne : row.1 ≠ row'.1)
    (h : accountBefore after (exactRenames iteration before after) row = some account)
    (h' : accountBefore after (exactRenames iteration before after) row' = some account') :
    List.Disjoint account.paths account'.paths := by
  intro path hpath hpath'
  have hbefore := contains_of_mem hrow
  have hbefore' := contains_of_mem hrow'
  rcases (accountBefore_eq_some iteration hrow h).2 path hpath with rfl | hrename
  · rcases (accountBefore_eq_some iteration hrow' h').2 _ hpath' with heq | hrename'
    · exact hne heq
    · exact hrename'.ne_before hbefore rfl
  · rcases (accountBefore_eq_some iteration hrow' h').2 path hpath' with rfl | hrename'
    · exact hrename.ne_before hbefore' rfl
    · exact hne (hrename.injective hrename')

/-- A file that has come is neither before nor renamed. -/
theorem disjoint_after (hrow : row ∈ before.files.rows) (hrow' : row' ∈ after.files.rows)
    (h : accountBefore after (exactRenames iteration before after) row = some account)
    (h' : accountAfter before (exactRenames iteration before after) row' = some account') :
    List.Disjoint account.paths account'.paths := by
  intro path hpath hpath'
  obtain ⟨rfl, habsent, -, hnew⟩ := accountAfter_eq_some iteration hrow' h'
  obtain rfl := mem_singleton.mp hpath'
  rcases (accountBefore_eq_some iteration hrow h).2 _ hpath with hsame | hrename
  · have hbefore := contains_of_mem hrow
    rw [← hsame, habsent] at hbefore
    exact nomatch hbefore
  · exact hnew row.1 hrename

theorem nodup_paths_of_holds (h : account.Holds before after) :
    account.paths.Nodup := by
  cases account with
  | differs path => exact nodup_singleton path
  | disappeared path => exact nodup_singleton path
  | added path => exact nodup_singleton path
  | renamed path afterPath =>
    have hrename : ExactRename before after path afterPath := h
    show [path, afterPath].Nodup
    rw [nodup_cons, mem_singleton]
    exact ⟨hrename.ne_before hrename.contains.1, nodup_singleton _⟩

/-- No path is in two accounts. -/
theorem nodup_accounts : ((accounts before after (exactRenames iteration before after)).flatMap
    Account.paths).Nodup := by
  rw [nodup_flatMap]
  refine ⟨fun account haccount => nodup_paths_of_holds (holds_of_mem iteration haccount), ?_⟩
  unfold accounts
  rw [pairwise_append, pairwise_filterMap, pairwise_filterMap]
  refine ⟨?_, ?_, ?_⟩
  · have hne := pairwise_map.mp (SessionSnapshot.nodup_paths before)
    refine (List.Pairwise.and_mem.mp hne).imp ?_
    rintro row row' ⟨hrow, hrow', hne⟩ account haccount account' haccount'
    exact disjoint_before iteration hrow hrow' hne haccount haccount'
  · have hne := pairwise_map.mp (SessionSnapshot.nodup_paths after)
    refine (List.Pairwise.and_mem.mp hne).imp ?_
    rintro row row' ⟨hrow, hrow', hne⟩ account haccount account' haccount' path hpath hpath'
    rw [(accountAfter_eq_some iteration hrow haccount).1] at hpath
    rw [(accountAfter_eq_some iteration hrow' haccount').1] at hpath'
    exact hne ((mem_singleton.mp hpath).symm.trans (mem_singleton.mp hpath'))
  · intro account haccount account' haccount'
    obtain ⟨row, hrow, heq⟩ := mem_filterMap.mp haccount
    obtain ⟨row', hrow', heq'⟩ := mem_filterMap.mp haccount'
    exact disjoint_after iteration hrow hrow' heq heq'

theorem changed_of_ne (h : before.contains path ≠ after.contains path) :
    Changed before after path := by
  unfold SessionSnapshot.contains at h
  unfold Changed
  revert h
  cases before.get path with
  | none => cases after.get path <;> simp
  | some old => cases after.get path <;> simp

/-- The paths of the accounts are those that have changed. -/
theorem mem_paths_iff : (∃ account : Account, account.Holds before after ∧ path ∈ account.paths) ↔
      Changed before after path := by
  constructor
  · rintro ⟨account, hholds, hpath⟩
    cases account with
    | differs found =>
      obtain rfl := mem_singleton.mp hpath
      obtain ⟨old, new, hold, hnew, hdiffers⟩ := hholds
      unfold Changed
      rw [hold, hnew]
      show old.revision ≠ new.revision ∨ old.status ≠ new.status
      by_contra hsame
      rw [not_or, not_not, not_not] at hsame
      exact hdiffers (by simp [sameFile, hsame])
    | disappeared found | added found =>
      obtain rfl := mem_singleton.mp hpath
      obtain ⟨hbefore, hafter, -⟩ := hholds
      exact changed_of_ne (by rw [hbefore, hafter]; decide)
    | renamed found afterPath =>
      have hrename : ExactRename before after found afterPath := hholds
      rcases mem_pair.mp hpath with rfl | rfl
      · exact changed_of_ne (by rw [hrename.contains.1, hrename.1]; decide)
      · exact changed_of_ne (by rw [hrename.contains.2, hrename.2.1]; decide)
  · intro hchanged
    unfold Changed at hchanged
    have habsent : ∀ {snapshot : SessionSnapshot}, snapshot.get path = none →
        snapshot.contains path = false := fun h => contains_eq_of_get h
    cases hold : before.get path with
    | some old =>
      cases hnew : after.get path with
      | some new =>
        rw [hold, hnew] at hchanged
        refine ⟨.differs path, ⟨old, new, hold, hnew, ?_⟩, mem_singleton_self path⟩
        rintro hsame
        simp only [sameFile, Bool.and_eq_true, decide_eq_true_eq] at hsame
        exact hchanged.elim (fun h => h hsame.1) (fun h => h hsame.2)
      | none =>
        by_cases hrenamed : ∃ afterPath, ExactRename before after path afterPath
        · obtain ⟨afterPath, hrename⟩ := hrenamed
          exact ⟨.renamed path afterPath, hrename, mem_cons_self⟩
        · exact ⟨.disappeared path, ⟨contains_eq_of_get hold, habsent hnew,
            not_exists.mp hrenamed⟩, mem_singleton_self path⟩
    | none =>
      cases hnew : after.get path with
      | none =>
        rw [hold, hnew] at hchanged
        exact hchanged.elim
      | some new =>
        by_cases hrenamed : ∃ old, ExactRename before after old path
        · obtain ⟨old, hrename⟩ := hrenamed
          exact ⟨.renamed old path, hrename, mem_cons_of_mem _ mem_cons_self⟩
        · exact ⟨.added path, ⟨habsent hold, contains_eq_of_get hnew, not_exists.mp hrenamed⟩,
            mem_singleton_self path⟩

end Holds

/-! ## Reports -/

/-- A report that lists the first accounts of the snapshots, and counts all of them. -/
def Accounted (before after : SessionSnapshot) (report : SessionReport) : Prop :=
  ∃ counted : List Account,
    (∀ account, account ∈ counted ↔ account.Holds before after) ∧
    (counted.flatMap Account.paths).Nodup ∧
    (∀ path, path ∈ counted.flatMap Account.paths ↔ Changed before after path) ∧
    report.changes.map SessionChange.account <+: counted ∧
    report.changes.length + report.changesTruncated = counted.length

/-- An injective map of the exact renames. -/
structure RenameMap (before after : SessionSnapshot) (renames : List (Bytes × Bytes)) : Prop where
  entries : ∀ path afterPath,
    getEntry renames path = some afterPath ↔ ExactRename before after path afterPath
  injective : ∀ path other afterPath, getEntry renames path = some afterPath →
    getEntry renames other = some afterPath → path = other

/-- Snapshots of one root are compared. -/
theorem compare_spec (library : DiffLibrary) (orders : HashOrders ContentRevision ContentRevision)
    (observations : PublicationObservations) (before after : SessionSnapshot)
    (size : SessionChange → ℕ) (iteration : Iteration (ContentRevision × Option Bytes)) :
    (match compare library orders observations before after size iteration with
      | .error error => before.root ≠ after.root ∧ error = .otherRoot
      | .ok report => before.root = after.root ∧ Accounted before after report) ∧
    RenameMap before after (exactRenames iteration before after) := by
  refine ⟨?_, fun path afterPath => getEntry_exactRenames, fun path other afterPath h h' => ?_⟩
  · by_cases hroot : before.root ≠ after.root
    · unfold compare
      rw [if_pos hroot]
      exact ⟨hroot, rfl⟩
    · have hstart : Counts ⟨[], 0⟩ [] := ⟨rfl, rfl⟩
      obtain ⟨compared, hcompared, hcounts⟩ := foldlM_stepBefore library orders observations after
        (exactRenames iteration before after) before.files.rows hstart
      have hall := foldl_stepAfter before (exactRenames iteration before after) after.files.rows
        hcounts
      rw [nil_append] at hall
      unfold compare
      simp only [if_neg hroot, hcompared, bind, Except.bind]
      refine ⟨not_not.mp hroot, _, fun account => ⟨holds_of_mem iteration, mem_of_holds iteration⟩,
        nodup_accounts iteration, fun path => ?_, ?_, ?_⟩
      · rw [mem_flatMap, ← mem_paths_iff]
        exact exists_congr fun account =>
          and_congr_left fun _ => ⟨holds_of_mem iteration, mem_of_holds iteration⟩
      · rw [map_take, hall.listed]
        exact (List.take_prefix _ _).trans (List.take_prefix _ _)
      · have hlisted := hall.length_changes
        have hretained := retained_le size 2
          (after.files.rows.foldl (stepAfter before (exactRenames iteration before after))
            compared).changes
        have htotal := hall.total
        simp only [length_take]
        unfold accounts
        omega
  · exact (getEntry_exactRenames.mp h).injective (getEntry_exactRenames.mp h')

end Trufflepig.Diagnostics
