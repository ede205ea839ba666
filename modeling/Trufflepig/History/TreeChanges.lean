import Trufflepig.History.Comparison

/-!
# What `compare_trees` returns

* `compareTrees_eq`: the changes are those of `treeChanges`, sorted, with a rename
  for every deletion and addition that `Renames` pairs.
-/

namespace Trufflepig.History

open List Lib

variable {layout : Layout} {old new : Tree}

/-! ## The budget of the changes -/

/-- What a change is charged. -/
def chargeOf (layout : Layout) (capacity : Bytes → ℕ) (change : FileChange) : ℕ :=
  2 * layout.fileChange + change.status.text.length
    + (change.files.map fun file => capacity file.path + file.mode.length).sum

/-- Changes within the budget, with the bytes used. -/
structure Charged (layout : Layout) (capacity : Bytes → ℕ) (state : List FileChange × ℕ) :
    Prop where
  used : state.2 = (state.1.map (chargeOf layout capacity)).sum
  limit : state.2 ≤ changeBytes
  paths : ∀ change ∈ state.1, ∀ file ∈ change.files, file.path.length ≤ pathBytes

theorem charged_nil (capacity : Bytes → ℕ) : Charged layout capacity ([], 0) :=
  ⟨rfl, Nat.zero_le _, by simp⟩

variable {change : FileChange} {capacity : Bytes → ℕ} {state state' : List FileChange × ℕ}

theorem pushChange_ok (hs : Charged layout capacity state)
    (h : pushChange layout capacity state change = .ok state') :
    state'.1 = state.1 ++ [change] ∧ Charged layout capacity state' := by
  obtain ⟨charge, hcharge, h⟩ := bind_eq_ok.mp h
  obtain ⟨used, hused, h⟩ := bind_eq_ok.mp h
  obtain rfl := Except.ok.inj h
  unfold changeCharge at hcharge
  split_ifs at hcharge with hpaths
  obtain rfl := Except.ok.inj hcharge
  obtain ⟨rfl, hlimit⟩ := reserve_ok hs.limit hused
  refine ⟨rfl, ?_, hlimit, ?_⟩
  · rw [map_append, sum_append, ← hs.used]
    simp [chargeOf]
  · refine forall_mem_append.mpr ⟨hs.paths, forall_mem_singleton.mpr fun file hfile => ?_⟩
    simpa using all_eq_true.mp hpaths file hfile

/-! ## The first loop -/

/-- The change of a file that is on both sides and differs. -/
def modifiedChange (new : Tree) (file : TreeFile) : Option FileChange :=
  match new.find file.path with
  | some next => if next = file then none else some ⟨some file, some next, .modified⟩
  | none => none

/-- The files before that are not after. -/
def deletions (old new : Tree) : List TreeFile :=
  old.rows.filter fun file => (new.find file.path).isNone

/-- The files after that are not before. -/
def additions (old new : Tree) : List TreeFile := deletions new old

/-- The state after the files `passed` of the old tree. -/
structure PassedFiles (layout : Layout) (new : Tree) (passed : List TreeFile) (s : CompareState) :
    Prop where
  fresh : s.fresh.rows = new.rows.filter fun file => file.path ∉ passed.map TreeFile.path
  deleted : s.deleted = passed.filter fun file => (new.find file.path).isNone
  changes : s.changes.1 = passed.filterMap (modifiedChange new)
  charged : Charged layout layout.capacity s.changes

variable {passed : List TreeFile} {s : CompareState}

theorem PassedFiles.find (h : PassedFiles layout new passed s) {path : Bytes}
    (hpath : path ∉ passed.map TreeFile.path) :
    s.fresh.find path = new.find path := by
  rw [SortedTable.find, h.fresh, find?_filter]
  congr 1
  funext file
  by_cases hfile : file.path = path
  · simp [hfile, hpath]
  · simp [hfile]

variable {rest : List TreeFile} {file : TreeFile} {s' : CompareState}

theorem compareFile_passed (hold : old.rows = passed ++ file :: rest)
    (hs : PassedFiles layout new passed s) (h : compareFile layout s file = .ok s') :
    PassedFiles layout new (passed ++ [file]) s' := by
  have hnotMem : file.path ∉ passed.map TreeFile.path := by
    have hnodup := nodup_of_sorted old
    rw [hold, map_append, map_cons, nodup_append] at hnodup
    exact fun hmem => hnodup.2.2 _ hmem _ mem_cons_self rfl
  have hremove : (s.fresh.remove file.path).rows =
      new.rows.filter fun f => f.path ∉ (passed ++ [file]).map TreeFile.path := by
    show (s.fresh.rows.filter fun row => row.path ≠ file.path) = _
    rw [hs.fresh, filter_filter]
    congr 1
    funext f
    rw [Bool.eq_iff_iff]
    simp only [Bool.and_eq_true, decide_eq_true_eq, map_append, map_cons, map_nil,
      mem_append, mem_singleton, not_or]
    exact and_comm
  unfold compareFile at h
  rw [hs.find hnotMem] at h
  cases hnext : new.find file.path with
  | some next =>
    have hpath : next.path = file.path := (SortedTable.mem_of_find hnext).2
    have hsame : next.oid = file.oid ∧ next.mode = file.mode ↔ next = file := by
      obtain ⟨p, o, m⟩ := next
      obtain ⟨p', o', m'⟩ := file
      simpa using fun _ _ => hpath
    simp only [hnext, hsame] at h
    split_ifs at h with heq
    · obtain rfl := Except.ok.inj h
      refine ⟨hremove, ?_, ?_, hs.charged⟩
      · simp [hs.deleted, filter_append, hnext]
      · simp [hs.changes, filterMap_append, modifiedChange, hnext, heq]
    · obtain ⟨changes, hpush, h⟩ := bind_eq_ok.mp h
      obtain rfl := Except.ok.inj h
      obtain ⟨happend, hcharged⟩ := pushChange_ok hs.charged hpush
      refine ⟨hremove, ?_, ?_, hcharged⟩
      · simp [hs.deleted, filter_append, hnext]
      · simp [happend, hs.changes, filterMap_append, modifiedChange, hnext, heq]
  | none =>
    simp only [hnext] at h
    obtain ⟨auxiliary, -, h⟩ := bind_eq_ok.mp h
    obtain rfl := Except.ok.inj h
    refine ⟨?_, ?_, ?_, hs.charged⟩
    · -- nothing is removed, and no file after has this path
      show s.fresh.rows = _
      rw [hs.fresh]
      apply filter_congr
      intro f hf
      have hne : f.path ≠ file.path := SortedTable.find_eq_none.mp hnext f hf
      simp [hne]
    · simp [hs.deleted, filter_append, hnext]
    · simp [hs.changes, filterMap_append, modifiedChange, hnext]

/-- The state after the first loop. -/
theorem passedFiles_all (hs : PassedFiles layout new [] s)
    (h : old.rows.foldlM (compareFile layout) s = .ok s') :
    PassedFiles layout new old.rows s' :=
  foldlM_invariant_passed (PassedFiles layout new)
    (fun _ _ _ hold _ _ hs h => compareFile_passed hold hs h) hs h

theorem PassedFiles.additions (h : PassedFiles layout new old.rows s) :
    s.fresh.rows = History.additions old new := by
  rw [h.fresh]
  apply filter_congr
  intro file _
  rw [Bool.eq_iff_iff, decide_eq_true_eq, Option.isNone_iff_eq_none, SortedTable.find_eq_none]
  simp

/-- The inverse of a status. -/
def ChangeStatus.inverse : ChangeStatus → ChangeStatus
  | modified => modified
  | renamedExactBlob => renamedExactBlob
  | deleted => added
  | added => deleted
  | scopeBoundaryAdded => scopeBoundaryDeleted
  | scopeBoundaryDeleted => scopeBoundaryAdded

/-! ## Renames -/

variable {files : List TreeFile} {i : ℕ}

theorem getElem?_oid (h : files[i]? = some file) :
    files[i]?.map (·.oid) = some file.oid := by
  rw [h]
  rfl

variable {oid : GitOid}

/-- The indexes of the files with an id. -/
theorem mem_oidIndexes {is : List ℕ} (h : getEntry (oidIndexes files) oid = some is) :
    i ∈ is ↔ ∃ file, files[i]? = some file ∧ file.oid = oid := by
  rw [getEntry_groupBy h, mem_indexesOf, Option.map_eq_some_iff, mem_range]
  constructor
  · exact fun h => h.2
  · rintro ⟨file, hfile, hoid⟩
    exact ⟨(List.getElem?_eq_some_iff.mp hfile).1, file, hfile, hoid⟩

theorem exists_oidIndexes (hfile : files[i]? = some file) :
    ∃ is, getEntry (oidIndexes files) file.oid = some is ∧ i ∈ is := by
  obtain ⟨hi, -⟩ := List.getElem?_eq_some_iff.mp hfile
  have hmem : (file.oid, _) ∈ oidIndexes files :=
    exists_mem_groupBy (mem_range.mpr hi) (getElem?_oid hfile)
  have hget := getEntry_of_mem (groupBy_nodup _ _) hmem
  exact ⟨_, hget, (mem_oidIndexes hget).mpr ⟨file, hfile, rfl⟩⟩

/-- A deletion and an addition of one blob that occurs once on each side, with
one mode. -/
structure Renames (deleted added : List TreeFile) (d a : TreeFile) : Prop where
  oid : d.oid = a.oid
  mode : d.mode = a.mode
  deletedOnce : ∀ d' ∈ deleted, d'.oid = d.oid → d' = d
  addedOnce : ∀ a' ∈ added, a'.oid = a.oid → a' = a

theorem nodup_of_getElem? (hfiles : files.Nodup) {j : ℕ} (hi : files[i]? = some file)
    (hj : files[j]? = some file) : i = j := by
  obtain ⟨hi', hi⟩ := List.getElem?_eq_some_iff.mp hi
  obtain ⟨hj', hj⟩ := List.getElem?_eq_some_iff.mp hj
  exact (List.Nodup.getElem_inj_iff hfiles).mp (hi.trans hj.symm)

/-- One index for an id means that one file has it. -/
theorem once_of_oidIndexes (h : getEntry (oidIndexes files) oid = some [i]) :
    ∃ file, files[i]? = some file ∧ file.oid = oid ∧ ∀ f ∈ files, f.oid = oid → f = file := by
  obtain ⟨file, hfile, hoid⟩ := (mem_oidIndexes h).mp (mem_singleton_self i)
  refine ⟨file, hfile, hoid, fun f hf hf' => ?_⟩
  obtain ⟨j, hj⟩ := mem_iff_getElem?.mp hf
  have hji : j = i := mem_singleton.mp ((mem_oidIndexes h).mpr ⟨f, hj, hf'⟩)
  rw [hji, hfile] at hj
  exact (Option.some.inj hj).symm

theorem oidIndexes_of_once (hfiles : files.Nodup) (hfile : files[i]? = some file)
    (honce : ∀ f ∈ files, f.oid = file.oid → f = file) :
    getEntry (oidIndexes files) file.oid = some [i] := by
  obtain ⟨is, his, hi⟩ := exists_oidIndexes hfile
  have hnodup : is.Nodup := by
    rw [getEntry_groupBy his]
    exact nodup_range.filter _
  rw [his, ← perm_singleton.mp ((perm_ext_iff_of_nodup hnodup (nodup_singleton i)).mpr fun j => ?_)]
  rw [mem_singleton]
  refine ⟨fun hj => ?_, fun hj => hj ▸ hi⟩
  obtain ⟨f, hf, hoid⟩ := (mem_oidIndexes his).mp hj
  obtain rfl := honce f (mem_of_getElem? hf) hoid
  exact nodup_of_getElem? hfiles hf hfile

/-- The addition that a deletion is joined with. -/
def partner (deleted added : List TreeFile) (file : TreeFile) : Option ℕ :=
  findRename deleted added (fun index => added[index]?) file

variable {deleted added : List TreeFile} {d : TreeFile}

theorem partner_eq_some (hdeleted : deleted.Nodup) (hadded : added.Nodup) (hd : d ∈ deleted) :
    partner deleted added d = some i ↔ ∃ a, added[i]? = some a ∧ Renames deleted added d a := by
  constructor
  · intro h
    unfold partner findRename at h
    split at h
    · rename_i index hentry
      split_ifs at h with hcond
      obtain rfl := Option.some.inj h
      obtain ⟨a, ha, hoid, honce⟩ := once_of_oidIndexes hentry
      obtain ⟨is, his, hlen⟩ := Option.map_eq_some_iff.mp hcond.1
      obtain ⟨j, rfl⟩ := length_eq_one_iff.mp hlen
      obtain ⟨d', -, -, honce'⟩ := once_of_oidIndexes his
      have hmode : a.mode = d.mode := by simpa [ha] using hcond.2
      refine ⟨a, ha, hoid.symm, hmode.symm, fun f hf hf' => ?_, fun f hf hf' => ?_⟩
      · rw [honce' f hf hf', honce' d hd rfl]
      · exact honce f hf (hf'.trans hoid)
    · cases h
  · rintro ⟨a, ha, hrenames⟩
    obtain ⟨j, hj⟩ := mem_iff_getElem?.mp hd
    have hentry : getEntry (oidIndexes added) d.oid = some [i] := by
      rw [hrenames.oid]
      exact oidIndexes_of_once hadded ha hrenames.addedOnce
    have hcount := oidIndexes_of_once hdeleted hj hrenames.deletedOnce
    unfold partner findRename
    rw [hentry]
    simp [hcount, ha, hrenames.mode]

/-- The change of a deletion. -/
def deletedChange (deleted added : List TreeFile) (file : TreeFile) : FileChange :=
  match partner deleted added file with
  | some index => ⟨some file, added[index]?, .renamedExactBlob⟩
  | none => ⟨some file, none, .deleted⟩

/-- The additions that are left by the deletions `passed`. -/
def freeSlots (deleted added passed : List TreeFile) (index : ℕ) : Option TreeFile :=
  if passed.any (partner deleted added · = some index) then none else added[index]?

/-- The state after the deletions `passed`, from the changes `prior`. -/
structure PassedDeletions (layout : Layout) (deleted added : List TreeFile)
    (prior : List FileChange) (passed : List TreeFile)
    (s : (List FileChange × ℕ) × (ℕ → Option TreeFile)) : Prop where
  changes : s.1.1 = prior ++ passed.map (deletedChange deleted added)
  charged : Charged layout layout.capacity s.1
  slots : s.2 = freeSlots deleted added passed

/-- No deletion before has taken the addition of a file: the blob would be deleted
twice. -/
theorem freeSlots_partner (hadded : added.Nodup) (hdeleted : deleted.Nodup)
    (hsplit : deleted = passed ++ file :: rest) {index : ℕ}
    (hpartner : partner deleted added file = some index) :
    freeSlots deleted added passed index = added[index]? := by
  have hfile : file ∈ deleted := by simp [hsplit]
  obtain ⟨a, ha, hrenames⟩ := (partner_eq_some hdeleted hadded hfile).mp hpartner
  apply if_neg
  rw [any_eq_true]
  rintro ⟨p, hp, hpartner'⟩
  have hmem : p ∈ deleted := by simp [hsplit, hp]
  obtain ⟨a', ha', hrenames'⟩ :=
    (partner_eq_some hdeleted hadded hmem).mp (of_decide_eq_true hpartner')
  obtain rfl : a' = a := Option.some.inj (ha'.symm.trans ha)
  obtain rfl := hrenames.deletedOnce p hmem (hrenames'.oid.trans hrenames.oid.symm)
  rw [hsplit] at hdeleted
  exact (nodup_append.mp hdeleted).2.2 _ hp _ mem_cons_self rfl

theorem findRename_freeSlots (hadded : added.Nodup) (hdeleted : deleted.Nodup)
    (hsplit : deleted = passed ++ file :: rest) :
    findRename deleted added (freeSlots deleted added passed) file = partner deleted added file := by
  have hfree : ∀ index, partner deleted added file = some index →
      freeSlots deleted added passed index = added[index]? :=
    fun _ => freeSlots_partner hadded hdeleted hsplit
  unfold partner findRename at hfree ⊢
  split
  · rename_i index hentry
    simp only [hentry] at hfree
    by_cases hcond : (getEntry (oidIndexes deleted) file.oid).map List.length = some 1 ∧
        (added[index]?).any (·.mode = file.mode)
    · rw [hfree index (if_pos hcond)]
    · rw [if_neg hcond, if_neg]
      rintro ⟨hcount, hmode⟩
      apply hcond
      unfold freeSlots at hmode
      split_ifs at hmode
      · exact absurd hmode (by simp)
      · exact ⟨hcount, hmode⟩
  · rfl

theorem freeSlots_append (file : TreeFile) :
    freeSlots deleted added (passed ++ [file]) =
      match partner deleted added file with
      | some index => Function.update (freeSlots deleted added passed) index none
      | none => freeSlots deleted added passed := by
  funext j
  unfold freeSlots
  cases hpartner : partner deleted added file with
  | some index =>
    by_cases hj : j = index
    · simp [hj, hpartner]
    · simp [hj, hpartner, Function.update_of_ne, Ne.symm hj]
  | none => simp [hpartner]

variable {prior : List FileChange}

theorem compareDeleted_passed (hadded : added.Nodup)
    (hdeleted : deleted.Nodup) (hsplit : deleted = passed ++ file :: rest)
    {s s' : (List FileChange × ℕ) × (ℕ → Option TreeFile)}
    (hs : PassedDeletions layout deleted added prior passed s)
    (h : compareDeleted layout deleted added s file = .ok s') :
    PassedDeletions layout deleted added prior (passed ++ [file]) s' := by
  have hstep : compareDeleted layout deleted added s file =
      pushChange layout layout.capacity s.1 (deletedChange deleted added file) >>=
        fun changes => pure (changes, freeSlots deleted added (passed ++ [file])) := by
    rw [compareDeleted, hs.slots, findRename_freeSlots hadded hdeleted hsplit, freeSlots_append,
      deletedChange]
    cases hpartner : partner deleted added file with
    | some index => simp only [freeSlots_partner hadded hdeleted hsplit hpartner]
    | none => rfl
  rw [hstep] at h
  obtain ⟨changes, hpush, h⟩ := bind_eq_ok.mp h
  obtain rfl := Except.ok.inj h
  obtain ⟨happend, hcharged⟩ := pushChange_ok hs.charged hpush
  exact ⟨by simp [happend, hs.changes], hcharged, rfl⟩

/-- The state after the second loop. -/
theorem passedDeletions_all (hadded : added.Nodup)
    (hdeleted : deleted.Nodup) {s s' : (List FileChange × ℕ) × (ℕ → Option TreeFile)}
    (hs : PassedDeletions layout deleted added prior [] s)
    (h : deleted.foldlM (compareDeleted layout deleted added) s = .ok s') :
    PassedDeletions layout deleted added prior deleted s' :=
  foldlM_invariant_passed (PassedDeletions layout deleted added prior)
    (fun _ _ _ hsplit _ _ hs h => compareDeleted_passed hadded hdeleted hsplit hs h) hs h

/-! ## The whole comparison -/

/-- Pushing changes one by one. -/
theorem pushChanges_ok {α : Type} (change : α → FileChange) {items : List α}
    (hs : Charged layout capacity state)
    (h : items.foldlM (fun state item => pushChange layout capacity state (change item)) state =
      .ok state') :
    state'.1 = state.1 ++ items.map change ∧ Charged layout capacity state' := by
  refine foldlM_invariant_passed
    (fun passed s => s.1 = state.1 ++ passed.map change ∧ Charged layout capacity s) ?_
    ⟨(append_nil _).symm, hs⟩ h
  rintro passed item rest - s s' ⟨hchanges, hcharged⟩ hpush
  obtain ⟨happend, hcharged⟩ := pushChange_ok hcharged hpush
  exact ⟨by simp [happend, hchanges], hcharged⟩

/-- The additions that no deletion is joined with. -/
def leftAdditions (deleted added : List TreeFile) : List TreeFile :=
  (List.range added.length).filterMap (freeSlots deleted added deleted)

/-- The changes from one tree to another, in the order in which they are found. -/
def treeChanges (old new : Tree) : List FileChange :=
  old.rows.filterMap (modifiedChange new)
    ++ (deletions old new).map (deletedChange (deletions old new) (additions old new))
    ++ (leftAdditions (deletions old new) (additions old new)).map fun file => ⟨none, some file, .added⟩

theorem deletions_nodup (old new : Tree) : (deletions old new).Nodup :=
  ((nodup_of_sorted old).of_map _).filter _

variable {changes : List FileChange}

theorem compareTrees_eq (h : compareTrees layout old new = .ok changes) :
    changes = (treeChanges old new).mergeSort sortBefore ∧
      ∃ used, Charged layout layout.capacity (treeChanges old new, used) := by
  obtain ⟨auxiliary, -, h⟩ := bind_eq_ok.mp h
  obtain ⟨s, hfiles, h⟩ := bind_eq_ok.mp h
  obtain ⟨-, -, h⟩ := bind_eq_ok.mp h
  obtain ⟨⟨deletedChanges, slots⟩, hdeleted, h⟩ := bind_eq_ok.mp h
  obtain ⟨⟨all, used⟩, hadded, h⟩ := bind_eq_ok.mp h
  obtain rfl := Except.ok.inj h
  have hstart : PassedFiles layout new [] ⟨new, [], ([], 0), auxiliary⟩ :=
    ⟨by simp, rfl, rfl, charged_nil _⟩
  have hs := passedFiles_all hstart hfiles
  have hdel : s.deleted = deletions old new := hs.deleted
  simp only [hs.additions, hdel] at hdeleted hadded
  have hslots : (fun index => (additions old new)[index]?) =
      freeSlots (deletions old new) (additions old new) [] := by
    funext index
    simp [freeSlots]
  have hd := passedDeletions_all (deletions_nodup new old) (deletions_nodup old new)
    ⟨(append_nil s.changes.1).symm, hs.charged, hslots⟩ hdeleted
  obtain ⟨hall, hcharged⟩ := pushChanges_ok _ hd.charged hadded
  have heq : all = treeChanges old new := by
    rw [show all = _ from hall, hd.changes, hs.changes, show slots = _ from hd.slots]
    rfl
  rw [heq] at hcharged ⊢
  exact ⟨rfl, used, hcharged⟩

/-! ## The changes of two trees -/

/-- What a change from one tree to another can be. -/
inductive IsChange (old new : Tree) : FileChange → Prop
  | modified {file next : TreeFile} (hold : file ∈ old.rows) (hnew : new.find file.path = some next)
      (hne : next ≠ file) : IsChange old new ⟨some file, some next, .modified⟩
  | renamed {d a : TreeFile} (hd : d ∈ deletions old new) (ha : a ∈ additions old new)
      (h : Renames (deletions old new) (additions old new) d a) :
      IsChange old new ⟨some d, some a, .renamedExactBlob⟩
  | deleted {d : TreeFile} (hd : d ∈ deletions old new)
      (hnone : ∀ a ∈ additions old new, ¬ Renames (deletions old new) (additions old new) d a) :
      IsChange old new ⟨some d, none, .deleted⟩
  | added {a : TreeFile} (ha : a ∈ additions old new)
      (hnone : ∀ d ∈ deletions old new, ¬ Renames (deletions old new) (additions old new) d a) :
      IsChange old new ⟨none, some a, .added⟩

theorem mem_deletions :
    file ∈ deletions old new ↔ file ∈ old.rows ∧ new.find file.path = none := by
  rw [deletions, mem_filter, Option.isNone_iff_eq_none]

theorem partner_deletions (hd : d ∈ deletions old new) :
    partner (deletions old new) (additions old new) d = some i ↔
      ∃ a, (additions old new)[i]? = some a ∧ Renames (deletions old new) (additions old new) d a :=
  partner_eq_some (deletions_nodup old new) (deletions_nodup new old) hd

theorem modifiedChange_eq_some :
    modifiedChange new file = some change ↔
      ∃ next, new.find file.path = some next ∧ next ≠ file ∧
        change = ⟨some file, some next, .modified⟩ := by
  unfold modifiedChange
  cases new.find file.path with
  | none => simp
  | some next =>
    by_cases heq : next = file
    · simp [heq]
    · simpa [heq] using eq_comm

theorem isChange_deletedChange (hd : d ∈ deletions old new) :
    IsChange old new (deletedChange (deletions old new) (additions old new) d) := by
  unfold deletedChange
  cases hpartner : partner (deletions old new) (additions old new) d with
  | some i =>
    obtain ⟨a, ha, hrenames⟩ := (partner_deletions hd).mp hpartner
    simp only [ha]
    exact .renamed hd (mem_of_getElem? ha) hrenames
  | none =>
    refine .deleted hd fun a ha hrenames => ?_
    obtain ⟨i, hi⟩ := mem_iff_getElem?.mp ha
    rw [(partner_deletions hd).mpr ⟨a, hi, hrenames⟩] at hpartner
    cases hpartner

variable {a : TreeFile}

theorem mem_leftAdditions :
    a ∈ leftAdditions (deletions old new) (additions old new) ↔
      a ∈ additions old new ∧
        ∀ d ∈ deletions old new, ¬ Renames (deletions old new) (additions old new) d a := by
  rw [leftAdditions, mem_filterMap]
  constructor
  · rintro ⟨i, -, hi⟩
    unfold freeSlots at hi
    split_ifs at hi with hany
    refine ⟨mem_of_getElem? hi, fun d hd hrenames => hany ?_⟩
    rw [any_eq_true]
    exact ⟨d, hd, decide_eq_true ((partner_deletions hd).mpr ⟨a, hi, hrenames⟩)⟩
  · rintro ⟨ha, hnone⟩
    obtain ⟨i, hi⟩ := mem_iff_getElem?.mp ha
    refine ⟨i, mem_range.mpr (List.getElem?_eq_some_iff.mp hi).1, ?_⟩
    rw [freeSlots, if_neg, hi]
    rw [any_eq_true]
    rintro ⟨d, hd, hpartner⟩
    obtain ⟨a', ha', hrenames⟩ := (partner_deletions hd).mp (of_decide_eq_true hpartner)
    obtain rfl : a' = a := Option.some.inj (ha'.symm.trans hi)
    exact hnone d hd hrenames

theorem mem_treeChanges :
    change ∈ treeChanges old new ↔ IsChange old new change := by
  unfold treeChanges
  rw [mem_append, mem_append, mem_filterMap, mem_map, mem_map]
  constructor
  · rintro ((⟨file, hfile, hchange⟩ | ⟨d, hd, rfl⟩) | ⟨a, ha, rfl⟩)
    · obtain ⟨next, hnext, hne, rfl⟩ := modifiedChange_eq_some.mp hchange
      exact .modified hfile hnext hne
    · exact isChange_deletedChange hd
    · obtain ⟨ha, hnone⟩ := mem_leftAdditions.mp ha
      exact .added ha hnone
  · intro h
    cases h with
    | modified hold hnew hne =>
      exact Or.inl (Or.inl ⟨_, hold, modifiedChange_eq_some.mpr ⟨_, hnew, hne, rfl⟩⟩)
    | @renamed d a hd ha h =>
      obtain ⟨i, hi⟩ := mem_iff_getElem?.mp ha
      refine Or.inl (Or.inr ⟨d, hd, ?_⟩)
      simp only [deletedChange, (partner_deletions hd).mpr ⟨a, hi, h⟩, hi]
    | @deleted d hd hnone =>
      refine Or.inl (Or.inr ⟨d, hd, ?_⟩)
      cases hpartner : partner (deletions old new) (additions old new) d with
      | some i =>
        obtain ⟨a, ha, hrenames⟩ := (partner_deletions hd).mp hpartner
        exact absurd hrenames (hnone a (mem_of_getElem? ha))
      | none => simp only [deletedChange, hpartner]
    | added ha hnone => exact Or.inr ⟨_, mem_leftAdditions.mpr ⟨ha, hnone⟩, rfl⟩

theorem modifiedChange_before (h : modifiedChange new file = some change) :
    change.before = some file ∧ change.status = .modified := by
  obtain ⟨next, -, -, rfl⟩ := modifiedChange_eq_some.mp h
  exact ⟨rfl, rfl⟩

theorem deletedChange_before (deleted added : List TreeFile) (file : TreeFile) :
    (deletedChange deleted added file).before = some file ∧
      (deletedChange deleted added file).status ≠ .modified := by
  unfold deletedChange
  split <;> simp

theorem leftAdditions_nodup (hadded : added.Nodup) : (leftAdditions deleted added).Nodup := by
  refine List.Nodup.filterMap (fun i j a hi hj => ?_) nodup_range
  unfold freeSlots at hi hj
  split_ifs at hi hj
  · simp at hi
  · simp at hi
  · simp at hj
  · exact nodup_of_getElem? hadded hi hj

/-- No change is found twice. -/
theorem treeChanges_nodup (old new : Tree) : (treeChanges old new).Nodup := by
  have hold : old.rows.Nodup := (nodup_of_sorted old).of_map _
  refine List.Nodup.append (List.Nodup.append ?_ ?_ ?_) ?_ ?_
  · refine hold.filterMap fun file file' change h h' => ?_
    have hbefore := (modifiedChange_before h).1.symm.trans (modifiedChange_before h').1
    exact Option.some.inj hbefore
  · refine (deletions_nodup old new).map fun d d' h => ?_
    have hbefore := congrArg FileChange.before h
    rw [(deletedChange_before _ _ d).1, (deletedChange_before _ _ d').1] at hbefore
    exact Option.some.inj hbefore
  · intro change hmodified hdeleted
    obtain ⟨file, -, hfile⟩ := mem_filterMap.mp hmodified
    obtain ⟨d, -, rfl⟩ := mem_map.mp hdeleted
    exact (deletedChange_before _ _ d).2 (modifiedChange_before hfile).2
  · refine (leftAdditions_nodup (deletions_nodup new old)).map fun a a' h => ?_
    exact Option.some.inj (congrArg FileChange.after h)
  · -- only an addition has nothing before
    intro change hbefore hadded
    obtain ⟨a, -, rfl⟩ := mem_map.mp hadded
    rcases mem_append.mp hbefore with hmodified | hdeleted
    · obtain ⟨file, -, hfile⟩ := mem_filterMap.mp hmodified
      cases (modifiedChange_before hfile).1
    · obtain ⟨d, -, hd⟩ := mem_map.mp hdeleted
      have hbefore := (deletedChange_before (deletions old new) (additions old new) d).1
      rw [hd] at hbefore
      cases hbefore

/-! ## Both directions -/

/-- The inverse of a change. -/
def FileChange.inverse (change : FileChange) : FileChange :=
  ⟨change.after, change.before, change.status.inverse⟩

theorem Renames.swap (h : Renames deleted added d a) : Renames added deleted a d :=
  ⟨h.oid.symm, h.mode.symm, h.addedOnce, h.deletedOnce⟩

/-- The inverses are the changes back. -/
theorem IsChange.swap (h : IsChange old new change) :
    IsChange new old change.inverse := by
  cases h with
  | @modified file next hold hnew hne =>
    obtain ⟨hmem, hpath⟩ := SortedTable.mem_of_find hnew
    refine .modified hmem ?_ hne.symm
    rw [hpath]
    exact SortedTable.find_of_mem hold
  | renamed hd ha h => exact .renamed ha hd h.swap
  | deleted hd hnone => exact .added hd fun a ha h => hnone a ha h.swap
  | added ha hnone => exact .deleted ha fun d hd h => hnone d hd h.swap

/-- A file before a change is a file of the old tree that the new tree does not
have. -/
theorem IsChange.before_changed (h : IsChange old new change) (hfile : change.before = some file) :
    old.find file.path = some file ∧ new.find file.path ≠ some file := by
  cases h with
  | modified hold hnew hne =>
    obtain rfl := Option.some.inj hfile
    exact ⟨SortedTable.find_of_mem hold, fun h => hne (Option.some.inj (hnew.symm.trans h))⟩
  | renamed hd | deleted hd =>
    obtain rfl := Option.some.inj hfile
    obtain ⟨hold, hnew⟩ := mem_deletions.mp hd
    exact ⟨SortedTable.find_of_mem hold, by simp [hnew]⟩
  | added ha hnone => cases hfile

theorem IsChange.cases_before (h : IsChange old new change) (hfile : change.before = some file) :
    modifiedChange new file = some change ∨
      file ∈ deletions old new ∧ change = deletedChange (deletions old new) (additions old new) file := by
  rcases mem_append.mp (mem_treeChanges.mpr h) with hmem | hadded
  · rcases mem_append.mp hmem with hmodified | hdeleted
    · obtain ⟨f, -, hf⟩ := mem_filterMap.mp hmodified
      obtain rfl : f = file := Option.some.inj ((modifiedChange_before hf).1.symm.trans hfile)
      exact Or.inl hf
    · obtain ⟨d, hd, rfl⟩ := mem_map.mp hdeleted
      obtain rfl : d = file :=
        Option.some.inj ((deletedChange_before _ _ d).1.symm.trans hfile)
      exact Or.inr ⟨hd, rfl⟩
  · obtain ⟨a, -, rfl⟩ := mem_map.mp hadded
    cases hfile

/-- A file is before one change only. -/
theorem IsChange.eq_of_before {change' : FileChange} (h : IsChange old new change)
    (h' : IsChange old new change') (hfile : change.before = some file)
    (hfile' : change'.before = some file) : change = change' := by
  rcases h.cases_before hfile with hmodified | ⟨hd, heq⟩
  · rcases h'.cases_before hfile' with hmodified' | ⟨hd', -⟩
    · exact Option.some.inj (hmodified.symm.trans hmodified')
    · simp [modifiedChange, (mem_deletions.mp hd').2] at hmodified
  · rcases h'.cases_before hfile' with hmodified' | ⟨-, heq'⟩
    · simp [modifiedChange, (mem_deletions.mp hd).2] at hmodified'
    · exact heq.trans heq'.symm

/-- A file that the new tree does not have is before a change. -/
theorem exists_isChange_before (hold : old.find file.path = some file)
    (hnew : new.find file.path ≠ some file) :
    ∃ change, IsChange old new change ∧ change.before = some file := by
  have hmem := (SortedTable.mem_of_find hold).1
  cases hnext : new.find file.path with
  | some next =>
    exact ⟨_, .modified hmem hnext fun heq => hnew (by rw [hnext, heq]), rfl⟩
  | none =>
    exact ⟨_, isChange_deletedChange (mem_deletions.mpr ⟨hmem, hnext⟩), (deletedChange_before _ _ _).1⟩

theorem inverse_inverse (change : FileChange) : change.inverse.inverse = change := by
  obtain ⟨before, after, status⟩ := change
  cases status <;> rfl

/-- The changes that have a path before them: one if the path is changed, and
otherwise none. -/
theorem countP_before (hnodup : changes.Nodup)
    (hmem : ∀ change, change ∈ changes ↔ IsChange old new change) (path : Bytes) :
    changes.countP (fun change => change.before.map (·.path) = some path) =
      if (old.find path).isSome ∧ old.find path ≠ new.find path then 1 else 0 := by
  split_ifs with hpath
  · obtain ⟨hsome, hne⟩ := hpath
    obtain ⟨file, hfile⟩ := Option.isSome_iff_exists.mp hsome
    obtain rfl := (SortedTable.mem_of_find hfile).2
    obtain ⟨change, hchange, hbefore⟩ :=
      exists_isChange_before hfile fun h => hne (hfile.trans h.symm)
    rw [← count_eq_one_of_mem hnodup ((hmem change).mpr hchange)]
    refine countP_congr fun c hc => ?_
    rw [decide_eq_true_eq, beq_iff_eq]
    constructor
    · intro hc'
      obtain ⟨f, hf, hpath⟩ := Option.map_eq_some_iff.mp hc'
      have hold := (((hmem c).mp hc).before_changed hf).1
      rw [hpath, hfile] at hold
      obtain rfl := Option.some.inj hold
      exact ((hmem c).mp hc).eq_of_before hchange hf hbefore
    · rintro rfl
      rw [hbefore]
      rfl
  · rw [countP_eq_zero]
    intro change hchange hbefore
    obtain ⟨file, hfile, rfl⟩ := Option.map_eq_some_iff.mp (of_decide_eq_true hbefore)
    obtain ⟨hold, hnew⟩ := ((hmem change).mp hchange).before_changed hfile
    exact hpath ⟨by simp [hold], fun h => hnew (h.symm.trans hold)⟩

theorem nodup_inverse (hnodup : changes.Nodup) : (changes.map FileChange.inverse).Nodup :=
  hnodup.map (Function.LeftInverse.injective inverse_inverse)

theorem mem_inverse (hmem : ∀ change, change ∈ changes ↔ IsChange old new change)
    (change : FileChange) :
    change ∈ changes.map FileChange.inverse ↔ IsChange new old change := by
  rw [mem_map]
  constructor
  · rintro ⟨c, hc, rfl⟩
    exact ((hmem c).mp hc).swap
  · intro h
    exact ⟨change.inverse, (hmem _).mpr h.swap, inverse_inverse change⟩

end Trufflepig.History
