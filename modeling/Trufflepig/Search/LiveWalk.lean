import Trufflepig.Lib.Utf8

/-!
# The files of a live search and of a scan (`search/live.rs`, `store/scan.rs`)

Both walk the tree below a root with the same settings of the `ignore` crate, each with a filter of
its own. The filter of the scan leaves out everything that is named `.git`, that of a live search
only directories of that name; and the two leave out other caches. The walk itself is the crate's:
it is a parameter, and `FilterEntry` is what the crate documents of a walk with a filter.

* `mem_liveFiles`, `mem_scanFiles`: the files of both, from the files that no name of a directory
  leaves out.
* `liveFiles_iff_scanFiles`: for which trees both see the same files.
* `live_sees_git_file`: the `.git` file of a linked worktree.
-/

namespace Trufflepig.Search

open List Lib

/-- What `file_type` tells of an entry; links and special files are `other`. -/
inductive FileKind where
  | file | directory | other
  deriving DecidableEq, Repr

/-- A path by its components. -/
abbrev Components := List Bytes

/-- What `WalkBuilder::build` yields below a root when the filter is set by `filter_entry`: the
entries that the ignore files and the filter leave, each with its kind. -/
abbrev Walk := (Components → FileKind → Bool) → List (Components × FileKind)

/-- The law of `filter_entry`: a walk yields only the entries that the filter keeps, and does not
descend into a directory that it leaves out. It is not asked about the root itself. -/
def FilterEntry (root : Components) (walk : Walk) : Prop :=
  ∀ keep path kind, (path, kind) ∈ walk keep ↔
    (path, kind) ∈ walk (fun _ _ => true) ∧ keep path kind = true ∧
      ∀ above below, path = root ++ above ++ below → above ≠ [] → below ≠ [] →
        keep (root ++ above) .directory = true

/-- The entries that both loops go on with: regular files. -/
def regularFiles (entries : List (Components × FileKind)) : List Components :=
  (entries.filter fun entry => entry.2 = .file).map Prod.fst

/-- `Path::starts_with`. -/
def startsWith (path base : Components) : Bool := base.isPrefixOf path

/-- `file_name`. -/
def fileName (path : Components) : Bytes := path.getLast?.getD []

/-- The names of directories that neither walk descends into. -/
def skippedDirs : List Bytes :=
  [ascii ".git", ascii "target", ascii "node_modules", ascii ".trufflepig"]

/-- The filter of `stage` (`scan.rs`). -/
def scanFilter (cache path : Components) (kind : FileKind) : Bool :=
  if startsWith path cache then false
  else fileName path ≠ ascii ".git" && (kind ≠ .directory ||
    !([ascii "target", ascii "node_modules", ascii ".trufflepig"].contains (fileName path)))

/-- The filter of `live_regex` (`live.rs`). -/
def liveFilter (caches : List Components) (path : Components) (kind : FileKind) : Bool :=
  !caches.any (startsWith path) && (kind ≠ .directory || !skippedDirs.contains (fileName path))

/-- The caches that `live_regex` leaves out. -/
def liveCaches (canonicalize : Components → Option Components) (cache resultsCache : Components) :
    List Components :=
  [cache, resultsCache].map fun cache => (canonicalize cache).getD cache

section Walks

variable (walk : Walk)

/-- The files that `stage` visits. -/
def scanFiles (cache : Components) : List Components := regularFiles (walk (scanFilter cache))

/-- The files that `live_regex` considers before its path and language filters. -/
def liveFiles (caches : List Components) : List Components :=
  regularFiles (walk (liveFilter caches))

/-- The files that neither the ignore files nor the names of directories leave out. -/
def sourceFiles : List Components :=
  regularFiles (walk fun path kind => kind ≠ .directory || !skippedDirs.contains (fileName path))

end Walks

/-! ## What a stricter filter leaves -/

variable {root path : Components} {walk : Walk}

theorem startsWith_append {base : Components} (h : startsWith path base) (below : Components) :
    startsWith (path ++ below) base := by
  rw [startsWith, List.isPrefixOf_iff_prefix] at h ⊢
  exact h.trans (prefix_append path below)

theorem mem_regularFiles {entries : List (Components × FileKind)} :
    path ∈ regularFiles entries ↔ (path, .file) ∈ entries := by
  simp [regularFiles]

/-- A filter that leaves out more files, and of the directories only those in which it leaves out
every file. -/
theorem FilterEntry.mem_stricter (hwalk : FilterEntry root walk)
    {keep keep' : Components → FileKind → Bool} {left : Components → Bool}
    (hfile : ∀ path, keep' path .file = (keep path .file && left path))
    (hdir : ∀ path, keep' path .directory = true → keep path .directory = true)
    (hclosed : ∀ path below, keep path .directory = true → keep' path .directory = false →
      left (path ++ below) = false) :
    path ∈ regularFiles (walk keep') ↔ path ∈ regularFiles (walk keep) ∧ left path = true := by
  rw [mem_regularFiles, mem_regularFiles, hwalk keep', hwalk keep, hfile, Bool.and_eq_true]
  constructor
  · rintro ⟨hmem, ⟨hkeep, hleft⟩, hdirs⟩
    refine ⟨⟨hmem, hkeep, ?_⟩, hleft⟩
    intro above below hpath habove hbelow
    exact hdir _ (hdirs above below hpath habove hbelow)
  · rintro ⟨⟨hmem, hkeep, hdirs⟩, hleft⟩
    refine ⟨hmem, ⟨hkeep, hleft⟩, ?_⟩
    intro above below hpath habove hbelow
    by_contra hkeep'
    rw [hpath, hclosed _ below (hdirs above below hpath habove hbelow)
      (Bool.eq_false_of_not_eq_true hkeep')] at hleft
    exact Bool.false_ne_true hleft

/-! ## The two walks -/

theorem mem_liveFiles (hwalk : FilterEntry root walk) (caches : List Components) :
    path ∈ liveFiles walk caches ↔
      path ∈ sourceFiles walk ∧ (!caches.any (startsWith path)) = true := by
  apply hwalk.mem_stricter
  · intro path
    simp [liveFilter]
  · intro path h
    rw [liveFilter, Bool.and_eq_true] at h
    exact h.2
  · intro path below hkeep hkeep'
    -- The names keep the directory, so that it lies in a cache.
    have hcache : caches.any (startsWith path) = true := by
      rw [liveFilter, hkeep] at hkeep'
      simpa using hkeep'
    obtain ⟨cache, hmem, hstarts⟩ := any_eq_true.mp hcache
    rw [Bool.not_eq_false', any_eq_true]
    exact ⟨cache, hmem, startsWith_append hstarts below⟩

theorem mem_scanFiles (hwalk : FilterEntry root walk) (cache : Components) :
    path ∈ scanFiles walk cache ↔ path ∈ sourceFiles walk ∧
      (!startsWith path cache && fileName path ≠ ascii ".git") = true := by
  apply hwalk.mem_stricter
  · intro path
    simp [scanFilter]
  · intro path h
    simp [scanFilter, skippedDirs] at h ⊢
    tauto
  · intro path below hkeep hkeep'
    have hcache : startsWith path cache = true := by
      by_contra hcache
      simp [scanFilter, skippedDirs, hcache] at hkeep hkeep'
      tauto
    simp [startsWith_append hcache below]

/-- A live search and a scan see the same files exactly if, among the files that neither the
ignore files nor the names of directories leave out, those in the caches of the search are
those that lie in the cache of the scan or are named `.git`. -/
theorem liveFiles_iff_scanFiles (hwalk : FilterEntry root walk)
    (canonicalize : Components → Option Components) (searchCache resultsCache cache : Components) :
    (∀ path, path ∈ liveFiles walk (liveCaches canonicalize searchCache resultsCache) ↔
      path ∈ scanFiles walk cache) ↔
    ∀ path ∈ sourceFiles walk,
      (∃ base ∈ liveCaches canonicalize searchCache resultsCache, startsWith path base) ↔
        startsWith path cache ∨ fileName path = ascii ".git" := by
  apply forall_congr'
  intro path
  rw [mem_liveFiles hwalk, mem_scanFiles hwalk, and_congr_right_iff]
  apply imp_congr_right
  intro _
  rw [Bool.not_eq_true', Bool.and_eq_true, Bool.not_eq_true', decide_eq_true_eq,
    ← Bool.not_eq_true, ← Bool.not_eq_true, ← not_or, not_iff_not, any_eq_true]

/-! ## A walk of given entries -/

/-- The walk of a tree whose entries, named from the root, are given. -/
def walkOf (root : Components) (entries : List (Components × FileKind)) : Walk := fun keep =>
  (entries.filter fun entry => keep (root ++ entry.1) entry.2 &&
    (range entry.1.length).all fun n => n = 0 || keep (root ++ entry.1.take n) .directory).map
    fun entry => (root ++ entry.1, entry.2)

theorem filterEntry_walkOf (root : Components) (entries : List (Components × FileKind)) :
    FilterEntry root (walkOf root entries) := by
  intro keep path kind
  have hmem : ∀ keep, (path, kind) ∈ walkOf root entries keep ↔
      ∃ name, path = root ++ name ∧ (name, kind) ∈ entries ∧ keep path kind = true ∧
        ∀ n < name.length, n = 0 ∨ keep (root ++ name.take n) .directory = true := by
    intro keep
    simp only [walkOf, mem_map, mem_filter, Bool.and_eq_true, all_eq_true, mem_range,
      Bool.or_eq_true, decide_eq_true_eq, Prod.exists, Prod.mk.injEq]
    grind
  rw [hmem, hmem]
  constructor
  · rintro ⟨name, rfl, hname, hkeep, hdirs⟩
    refine ⟨⟨name, rfl, hname, rfl, fun _ _ => .inr rfl⟩, hkeep, ?_⟩
    intro above below hpath habove hbelow
    rw [append_assoc, append_cancel_left_eq] at hpath
    have hlength : above.length < name.length := by
      simp [hpath, length_pos_iff.mpr hbelow]
    have hdir := (hdirs above.length hlength).resolve_left (by simpa using habove)
    rwa [hpath, take_left] at hdir
  · rintro ⟨⟨name, rfl, hname, -, -⟩, hkeep, hdirs⟩
    refine ⟨name, rfl, hname, hkeep, fun n hn => ?_⟩
    rcases Nat.eq_zero_or_pos n with hzero | hpos
    · exact .inl hzero
    · refine .inr (hdirs (name.take n) (name.drop n) (by simp) ?_ ?_)
      · exact ne_nil_of_length_pos (by rw [length_take]; omega)
      · exact ne_nil_of_length_pos (by rw [length_drop]; omega)

/-- A tree with a build directory and a cache in it. -/
def cachedTree : List (Components × FileKind) :=
  [([ascii "a.rs"], .file), ([ascii "cache"], .directory),
    ([ascii "cache", ascii "index"], .file), ([ascii "target"], .directory),
    ([ascii "target", ascii "b.rs"], .file)]

/-- With one cache for both and no file `.git`, both see the same files. -/
theorem liveFiles_iff_scanFiles_cachedTree :
    let walk := walkOf [ascii "work"] cachedTree
    let cache := [ascii "work", ascii "cache"]
    regularFiles (walk fun _ _ => true) = [[ascii "work", ascii "a.rs"],
      [ascii "work", ascii "cache", ascii "index"], [ascii "work", ascii "target", ascii "b.rs"]] ∧
    scanFiles walk cache = [[ascii "work", ascii "a.rs"]] ∧
    ∀ path, path ∈ liveFiles walk (liveCaches some cache cache) ↔ path ∈ scanFiles walk cache := by
  refine ⟨by decide, by decide, ?_⟩
  exact (liveFiles_iff_scanFiles (filterEntry_walkOf _ _) some _ _ _).mpr (by decide)

/-- In a linked worktree `.git` is a file: a live search reads it and a scan does not. -/
theorem live_sees_git_file :
    let root := [ascii "work"]
    let walk := walkOf root [([ascii ".git"], .file), ([ascii "a.rs"], .file)]
    let cache := [ascii "cache"]
    FilterEntry root walk ∧
    liveFiles walk (liveCaches some cache cache) =
      [[ascii "work", ascii ".git"], [ascii "work", ascii "a.rs"]] ∧
    scanFiles walk cache = [[ascii "work", ascii "a.rs"]] := by
  exact ⟨filterEntry_walkOf _ _, by decide, by decide⟩

end Trufflepig.Search
