import Trufflepig.History.TreeChanges
import Trufflepig.Lib.Delta

/-!
# Comparisons are deltas

* `IsDelta.apply`: applying the changes to the old tree gives the new tree.
* `scopeTree_applyFileChanges`: scoping to a root commutes with applying changes.
* `retained_run`: in any run, a retained row holds the changes of its two commits.
-/

namespace Trufflepig.History

open List Lib Store

variable {old new : Tree} {changes : List FileChange}

/-! ## Applying changes -/

/-- Removes the file before a change and inserts the file after it. -/
def applyFileChange (tree : Tree) (change : FileChange) : Tree :=
  let rest :=
    match change.before with
    | some file => tree.remove file.path
    | none => tree
  match change.after with
  | some file => rest.insert file
  | none => rest

/-- Applies changes one after another. -/
def applyFileChanges (tree : Tree) (changes : List FileChange) : Tree :=
  changes.foldl applyFileChange tree

theorem find_applyFileChange (tree : Tree) (change : FileChange) (path : Bytes) :
    (applyFileChange tree change).find path =
      if change.after.map (·.path) = some path then change.after
      else if change.before.map (·.path) = some path then none else tree.find path := by
  obtain ⟨_ | before, _ | after, status⟩ := change <;>
    simp [applyFileChange, SortedTable.find_insert, SortedTable.find_remove, eq_comm]

/-- Changes that write only files of the new tree, remove only what it does not
have, and touch every path on which the trees differ. -/
structure IsDelta (old new : Tree) (changes : List FileChange) : Prop where
  after : ∀ change ∈ changes, ∀ file, change.after = some file → new.find file.path = some file
  before : ∀ change ∈ changes, ∀ file, change.before = some file →
    change.after.map (·.path) ≠ some file.path → new.find file.path = none
  removes : ∀ file, old.find file.path = some file → new.find file.path = none →
    ∃ change ∈ changes, change.before = some file
  writes : ∀ file, new.find file.path = some file → old.find file.path ≠ some file →
    ∃ change ∈ changes, change.after = some file

theorem IsDelta.apply (h : IsDelta old new changes) : applyFileChanges old changes = new := by
  apply SortedTable.eq_of_find
  refine foldl_eq_of_covers (fun tree : Tree => tree.find) (fun (change : FileChange) path =>
    change.after.map (·.path) = some path ∨ change.before.map (·.path) = some path) ?_ ?_
  · intro tree change hchange path
    rw [find_applyFileChange]
    split_ifs with hafter hbefore
    · obtain ⟨file, hfile, rfl⟩ := Option.map_eq_some_iff.mp hafter
      exact Or.inl (hfile.trans (h.after change hchange file hfile).symm)
    · obtain ⟨file, hfile, rfl⟩ := Option.map_eq_some_iff.mp hbefore
      exact Or.inl (h.before change hchange file hfile hafter).symm
    · exact Or.inr ⟨not_or.mpr ⟨hafter, hbefore⟩, rfl⟩
  · intro path hne
    cases hnew : new.find path with
    | some file =>
      obtain rfl := (SortedTable.mem_of_find hnew).2
      obtain ⟨change, hchange, hafter⟩ := h.writes file hnew fun hold => hne (hold.trans hnew.symm)
      exact ⟨change, hchange, Or.inl (by rw [hafter]; rfl)⟩
    | none =>
      rw [hnew] at hne
      obtain ⟨file, hold⟩ := Option.ne_none_iff_exists'.mp hne
      obtain rfl := (SortedTable.mem_of_find hold).2
      obtain ⟨change, hchange, hbefore⟩ := h.removes file hold hnew
      exact ⟨change, hchange, Or.inr (by rw [hbefore]; rfl)⟩

/-- The changes between two trees are a delta. -/
theorem isDelta_of_isChange (hmem : ∀ change, change ∈ changes ↔ IsChange old new change) :
    IsDelta old new changes where
  after change hchange file hfile :=
    (((hmem change).mp hchange).swap.before_changed hfile).1
  before change hchange file hfile hpath := by
    rcases ((hmem change).mp hchange).cases_before hfile with hmodified | ⟨hd, -⟩
    · obtain ⟨next, hnext, -, rfl⟩ := modifiedChange_eq_some.mp hmodified
      exact absurd (congrArg some (SortedTable.mem_of_find hnext).2) hpath
    · exact (mem_deletions.mp hd).2
  removes file hold hnew := by
    obtain ⟨change, hchange, hbefore⟩ := exists_isChange_before hold (by rw [hnew]; simp)
    exact ⟨change, (hmem change).mpr hchange, hbefore⟩
  writes file hnew hold := by
    obtain ⟨change, hchange, hbefore⟩ := exists_isChange_before hnew hold
    exact ⟨change.inverse, (hmem _).mpr hchange.swap, hbefore⟩

/-! ## Scoping -/

theorem stripPrefix_eq_some {start text rest : Bytes} :
    stripPrefix start text = some rest ↔ text = start ++ rest := by
  unfold stripPrefix
  split_ifs with hstart
  · obtain ⟨tail, rfl⟩ := hstart
    simp
  · constructor
    · intro h
      cases h
    · exact fun h => absurd ⟨rest, h.symm⟩ hstart

variable {rootPrefix : Bytes} {file sub : TreeFile}

theorem scopeFile_eq_some :
    scopeFile rootPrefix file = some sub ↔
      file = { sub with path := encodePath rootPrefix ++ sub.path } := by
  rw [scopeFile, Option.map_eq_some_iff]
  constructor
  · rintro ⟨path, hpath, rfl⟩
    obtain ⟨_, oid, mode⟩ := file
    obtain rfl := stripPrefix_eq_some.mp hpath
    rfl
  · rintro rfl
    exact ⟨sub.path, stripPrefix_eq_some.mpr rfl, rfl⟩

/-- A file is in the scope under a path exactly when it is under the root with it. -/
theorem scopeFile_path_iff (file : Option TreeFile) (path : Bytes) :
    (file.bind (scopeFile rootPrefix)).map (·.path) = some path ↔
      file.map (·.path) = some (encodePath rootPrefix ++ path) := by
  simp only [Option.map_eq_some_iff, Option.bind_eq_some_iff, scopeFile_eq_some]
  constructor
  · rintro ⟨sub, ⟨_, hfile, rfl⟩, rfl⟩
    exact ⟨_, hfile, rfl⟩
  · rintro ⟨file, hfile, hpath⟩
    exact ⟨{ file with path := path }, ⟨file, hfile, by rw [← hpath]⟩, rfl⟩

/-- What is found in a scoped tree. -/
theorem find_scopeTree (rootPrefix : Bytes) (tree : Tree) (path : Bytes) :
    (scopeTree rootPrefix tree).find path =
      (tree.find (encodePath rootPrefix ++ path)).bind (scopeFile rootPrefix) := by
  have hnodup : ((tree.rows.filterMap (scopeFile rootPrefix)).map TreeFile.path).Nodup := by
    rw [nodup_iff_pairwise_ne, pairwise_map, pairwise_filterMap]
    refine (pairwise_map.mp (nodup_iff_pairwise_ne.mp (nodup_of_sorted tree))).imp ?_
    intro f f' hne sub hsub sub' hsub' heq
    rw [scopeFile_eq_some.mp hsub, scopeFile_eq_some.mp hsub'] at hne
    exact hne (congrArg (encodePath rootPrefix ++ ·) heq)
  rw [scopeTree, SortedTable.find_foldl_insert hnodup, find?_filterMap]
  refine Option.or_none.trans (congrArg (Option.bind · _) (congrArg (find? · tree.rows) ?_))
  funext file
  rw [Bool.eq_iff_iff, Option.any_eq_true]
  simpa using scopeFile_path_iff (some file) path

/-- Scoping commutes with applying a change. A rename across the boundary is a
removal or an addition there. -/
theorem scopeTree_applyFileChange (rootPrefix : Bytes) (tree : Tree) (change : FileChange) :
    scopeTree rootPrefix (applyFileChange tree change) =
      match scopeChange rootPrefix change with
      | some kept => applyFileChange (scopeTree rootPrefix tree) kept
      | none => scopeTree rootPrefix tree := by
  have hscoped : ∀ status, scopeTree rootPrefix (applyFileChange tree change) =
      applyFileChange (scopeTree rootPrefix tree) ⟨change.before.bind (scopeFile rootPrefix),
        change.after.bind (scopeFile rootPrefix), status⟩ := by
    intro status
    apply SortedTable.eq_of_find
    funext path
    rw [find_scopeTree, find_applyFileChange, find_applyFileChange, find_scopeTree]
    simp only [scopeFile_path_iff]
    split_ifs <;> rfl
  unfold scopeChange
  simp only
  split_ifs with hnone
  · rw [hscoped .modified, Option.isNone_iff_eq_none.mp hnone.1,
      Option.isNone_iff_eq_none.mp hnone.2]
    rfl
  all_goals exact hscoped _

theorem scopeTree_applyFileChanges (rootPrefix : Bytes) (tree : Tree) (changes : List FileChange) :
    scopeTree rootPrefix (applyFileChanges tree changes) =
      applyFileChanges (scopeTree rootPrefix tree) (changes.filterMap (scopeChange rootPrefix)) := by
  rw [applyFileChanges, applyFileChanges, foldl_filterMap]
  refine (foldl_hom (scopeTree rootPrefix) fun tree change => ?_).symm
  rw [scopeTree_applyFileChange]
  cases scopeChange rootPrefix change <;> rfl

/-! ## The result of `compare_trees` -/

variable {change : FileChange}

theorem sortBefore_trans (a b c : FileChange) (hab : sortBefore a b = true)
    (hbc : sortBefore b c = true) : sortBefore a c = true := by
  unfold sortBefore at *
  cases ha : a.sortPath with
  | none => rfl
  | some p =>
    cases hb : b.sortPath with
    | none => simp [ha, hb] at hab
    | some q =>
      cases hc : c.sortPath with
      | none => simp [hb, hc] at hbc
      | some r =>
        simp only [ha, hb, hc, decide_eq_true_eq] at hab hbc ⊢
        exact bytes_le_trans _ _ _ hab hbc

theorem sortBefore_total (a b : FileChange) : (sortBefore a b || sortBefore b a) = true := by
  unfold sortBefore
  cases ha : a.sortPath with
  | none => rfl
  | some p =>
    cases hb : b.sortPath with
    | none => rfl
    | some q => simpa using bytes_le_total p q

variable {layout : Layout}

/-- The changes that are returned: all of them, once each. -/
theorem compareTrees_mem (h : compareTrees layout old new = .ok changes) :
    changes.Nodup ∧ ∀ change, change ∈ changes ↔ IsChange old new change := by
  obtain ⟨rfl, -⟩ := compareTrees_eq h
  have hperm := mergeSort_perm (treeChanges old new) sortBefore
  refine ⟨hperm.nodup_iff.mpr (treeChanges_nodup old new), fun change => ?_⟩
  rw [hperm.mem_iff, mem_treeChanges]

theorem IsChange.exists_sortPath (h : IsChange old new change) :
    ∃ path, change.sortPath = some path := by
  cases h <;> exact ⟨_, rfl⟩

/-- The changes are sorted by path. -/
theorem compareTrees_sorted (h : compareTrees layout old new = .ok changes) :
    ∃ paths : List Bytes, changes.map FileChange.sortPath = paths.map some ∧ paths.Pairwise (· ≤ ·) := by
  obtain ⟨-, hmem⟩ := compareTrees_mem h
  obtain ⟨rfl, -⟩ := compareTrees_eq h
  have hsorted := pairwise_mergeSort sortBefore_trans sortBefore_total (treeChanges old new)
  generalize (treeChanges old new).mergeSort sortBefore = sorted at hsorted hmem
  refine ⟨sorted.filterMap FileChange.sortPath, ?_, ?_⟩
  · rw [map_filterMap_some_eq_filter_map_isSome, eq_comm, filter_eq_self]
    intro path hpath
    obtain ⟨change, hchange, rfl⟩ := mem_map.mp hpath
    obtain ⟨path, hsome⟩ := ((hmem change).mp hchange).exists_sortPath
    rw [hsome]
    rfl
  · rw [pairwise_filterMap]
    refine hsorted.imp fun {a b} hab p hp q hq => ?_
    simpa [sortBefore, hp, hq] using hab

theorem once_iff_countP {files : List TreeFile} (hnodup : files.Nodup) (hfile : file ∈ files) :
    (∀ f ∈ files, f.oid = file.oid → f = file) ↔ files.countP (·.oid = file.oid) = 1 := by
  rw [countP_eq_length_filter]
  constructor
  · intro honce
    have hperm : (files.filter (·.oid = file.oid)).Perm [file] := by
      refine (perm_ext_iff_of_nodup (hnodup.filter _) (nodup_singleton file)).mpr fun f => ?_
      rw [mem_filter, decide_eq_true_eq, mem_singleton]
      exact ⟨fun h => honce f h.1 h.2, fun h => ⟨h ▸ hfile, congrArg _ h⟩⟩
    exact hperm.length_eq
  · intro hone f hf hoid
    obtain ⟨only, honly⟩ := length_eq_one_iff.mp hone
    have hmem : ∀ g ∈ files, g.oid = file.oid → g = only := by
      intro g hg hoid
      rw [← mem_singleton, ← honly, mem_filter]
      exact ⟨hg, by simpa using hoid⟩
    rw [hmem f hf hoid, hmem file hfile rfl]

/-! ## Retained rows -/

theorem chargeOf_length_le (layout : Layout) (change : FileChange) :
    chargeOf layout List.length change ≤ chargeOf layout layout.capacity change := by
  apply Nat.add_le_add_left
  apply sum_le_sum
  intro file _
  exact Nat.add_le_add_right (layout.length_le file.path) _

theorem pushChange_eq_ok (capacity : Bytes → ℕ) {state : List FileChange × ℕ}
    (hpaths : ∀ file ∈ change.files, file.path.length ≤ pathBytes)
    (hlimit : state.2 + chargeOf layout capacity change ≤ changeBytes) :
    pushChange layout capacity state change =
      .ok (state.1 ++ [change], state.2 + chargeOf layout capacity change) := by
  have hall : (change.files.all fun file => file.path.length ≤ pathBytes) = true := by
    simpa [all_eq_true] using hpaths
  have hcharge : changeCharge layout capacity change = .ok (chargeOf layout capacity change) := by
    rw [changeCharge, if_pos hall]
    rfl
  rw [pushChange, hcharge]
  show (do
    let used ← reserve changeBytes state.2 (chargeOf layout capacity change)
    return (state.1 ++ [change], used)) = _
  rw [reserve_eq_ok hlimit]
  rfl

theorem pushChanges_eq_ok (capacity : Bytes → ℕ) {changes : List FileChange}
    (hpaths : ∀ change ∈ changes, ∀ file ∈ change.files, file.path.length ≤ pathBytes) :
    ∀ state : List FileChange × ℕ,
      state.2 + (changes.map (chargeOf layout capacity)).sum ≤ changeBytes →
      ∃ used, changes.foldlM (pushChange layout capacity) state = .ok (state.1 ++ changes, used) := by
  induction changes with
  | nil => exact fun state _ => ⟨state.2, by simp; rfl⟩
  | cons change changes ih =>
    intro state hlimit
    rw [map_cons, sum_cons] at hlimit
    have hpush := pushChange_eq_ok capacity (hpaths change mem_cons_self)
      (by omega : state.2 + chargeOf layout capacity change ≤ changeBytes)
    obtain ⟨used, hrest⟩ := ih (fun c hc => hpaths c (mem_cons_of_mem _ hc))
      (state.1 ++ [change], state.2 + chargeOf layout capacity change) (by omega)
    refine ⟨used, ?_⟩
    rw [foldlM_cons, hpush]
    show changes.foldlM (pushChange layout capacity) _ = _
    rw [hrest]
    simp

/-- What was compared is decoded again: the decoded strings are charged no more
than those of the comparison were. -/
theorem decodeChanges_encode (codec : Codec (List FileChange))
    (h : compareTrees layout old new = .ok changes)
    (hlength : (codec.encode changes).length ≤ cacheBytes) :
    decodeChanges layout codec (codec.encode changes) = .ok changes := by
  obtain ⟨heq, used, hcharged⟩ := compareTrees_eq h
  have hperm : changes.Perm (treeChanges old new) := heq ▸ mergeSort_perm _ _
  have hused : (changes.map (chargeOf layout List.length)).sum ≤ changeBytes :=
    calc (changes.map (chargeOf layout List.length)).sum
        ≤ (changes.map (chargeOf layout layout.capacity)).sum :=
          sum_le_sum fun change _ => chargeOf_length_le layout change
      _ = ((treeChanges old new).map (chargeOf layout layout.capacity)).sum :=
          (hperm.map _).sum_eq
      _ = used := hcharged.used.symm
      _ ≤ changeBytes := hcharged.limit
  obtain ⟨used', hpush⟩ := pushChanges_eq_ok List.length
    (fun change hchange => hcharged.paths change (hperm.mem_iff.mp hchange)) ([], 0)
    (by simpa using hused)
  rw [decodeChanges, if_pos hlength, codec.decode_encode]
  dsimp only
  rw [hpush]
  rfl

/-- The call when Git answers. -/
def CompareCall.answered (call : CompareCall) : CompareCall :=
  { call with gitFails := fun _ => false }

variable {env : CompareEnv}

theorem treeUnscoped_answered {gitFails : GitOid → Bool} {revision : Option GitOid} {tree : Tree}
    (h : treeUnscoped env gitFails revision = .ok tree) :
    treeUnscoped env (fun _ => false) revision = .ok tree := by
  cases revision with
  | none => exact h
  | some revision =>
    simp only [treeUnscoped] at h
    split_ifs at h
    exact h

variable {call : CompareCall}

theorem computeChanges_ok (h : computeChanges env call = .ok changes) :
    ∃ old new, treeUnscoped env call.gitFails call.before = .ok old ∧
      treeUnscoped env call.gitFails (some call.after) = .ok new ∧
      compareTrees env.layout old new = .ok changes := by
  obtain ⟨old, hold, h⟩ := bind_eq_ok.mp h
  obtain ⟨new, hnew, h⟩ := bind_eq_ok.mp h
  exact ⟨old, new, hold, hnew, h⟩

theorem computeChanges_answered (h : computeChanges env call = .ok changes) :
    computeChanges env call.answered = .ok changes := by
  obtain ⟨old, new, hold, hnew, h⟩ := computeChanges_ok h
  exact bind_eq_ok.mpr ⟨old, treeUnscoped_answered hold,
    bind_eq_ok.mpr ⟨new, treeUnscoped_answered hnew, h⟩⟩

/-- The key of a row determines the two commits. -/
theorem key_injective {call' : CompareCall} (h : call.key = call'.key) :
    call.before = call'.before ∧ call.after = call'.after := by
  have htext : ∀ {oid oid' : GitOid}, oid.text = oid'.text → oid = oid' := by
    rintro ⟨text, _⟩ ⟨_, _⟩ rfl
    rfl
  have hnonempty : ∀ oid : GitOid, oid.text ≠ [] := by
    rintro ⟨text, hlength⟩ rfl
    simp at hlength
  obtain ⟨hbefore, hafter⟩ := Prod.mk.inj h
  refine ⟨?_, htext hafter⟩
  cases hb : call.before with
  | none =>
    cases hb' : call'.before with
    | none => rfl
    | some oid => simp [hb, hb', (hnonempty oid).symm] at hbefore
  | some oid =>
    cases hb' : call'.before with
    | none => simp [hb, hb', hnonempty oid] at hbefore
    | some oid' => exact congrArg some (htext (by simpa [hb, hb'] using hbefore))

/-- Every row holds the changes between its two commits. -/
def Retained (env : CompareEnv) (table : ChangesTable) : Prop :=
  ∀ call payload, table (CompareCall.key call) = some payload →
    ∃ changes, computeChanges env call.answered = .ok changes ∧
      payload = env.codec.encode changes ∧ payload.length ≤ cacheBytes

theorem computeChanges_key {call' : CompareCall} (h : call'.key = call.key) :
    computeChanges env call'.answered = computeChanges env call.answered := by
  obtain ⟨hbefore, hafter⟩ := key_injective h
  show (treeUnscoped env (fun _ => false) call'.before >>= fun old =>
    treeUnscoped env (fun _ => false) (some call'.after) >>= fun new =>
      compareTrees env.layout old new) = _
  rw [hbefore, hafter]
  rfl

variable {table : ChangesTable}

theorem retainChanges_retained (htable : Retained env table)
    (h : computeChanges env call = .ok changes) :
    Retained env (retainChanges env table call changes).2 := by
  unfold retainChanges
  split_ifs with hlease hpayload hinsert
  · exact htable
  · exact htable
  · cases hrow : table call.key with
    | some payload => exact htable
    | none =>
      intro call' payload hpayload'
      change Function.update table call.key (some (env.codec.encode changes)) call'.key = _ at hpayload'
      by_cases hkey : call'.key = call.key
      · have hwritten : env.codec.encode changes = payload := by
          simpa [hkey] using hpayload'
        refine ⟨changes, ?_, hwritten.symm, hwritten ▸ hpayload.1⟩
        rw [computeChanges_key hkey]
        exact computeChanges_answered h
      · rw [Function.update_of_ne hkey] at hpayload'
        exact htable call' payload hpayload'
  · exact htable

/-- One call keeps the rows right. -/
theorem compare_retained (htable : Retained env table) (call : CompareCall) :
    Retained env (compare env table call).2 := by
  unfold compare
  split_ifs
  · exact htable
  · cases retainedPayload table call with
    | some payload => exact htable
    | none =>
      cases h : computeChanges env call with
      | error error => exact htable
      | ok changes => exact retainChanges_retained htable h
  · exact htable

/-- Every run keeps the rows right. -/
theorem retained_run (calls : List CompareCall) : Retained env (compareRun env calls) := by
  refine foldlRecOn calls _ (fun call payload h => ?_) fun table htable call _ => ?_
  · cases h
  · exact compare_retained htable call

/-- A call that a row answers returns what the trees give. -/
theorem compare_of_retained (htable : Retained env table) (hroot : call.rootPrefix = [])
    (hquery : call.queryFails = false) {payload : Bytes}
    (hpayload : retainedPayload table call = some payload) :
    ∃ changes, (compare env table call).1 = .ok changes ∧
      computeChanges env call.answered = .ok changes := by
  have hrow : table call.key = some payload := by
    unfold retainedPayload at hpayload
    cases hrow : table call.key with
    | none => simp [hrow] at hpayload
    | some row =>
      simp only [hrow] at hpayload
      split_ifs at hpayload
      exact hpayload
  obtain ⟨changes, hchanges, rfl, hlength⟩ := htable call payload hrow
  obtain ⟨old, new, -, -, h⟩ := computeChanges_ok hchanges
  refine ⟨changes, ?_, hchanges⟩
  simp only [compare, hroot, hquery, hpayload]
  exact decodeChanges_encode env.codec h hlength

theorem compare_scoped (hroot : call.rootPrefix ≠ []) (h : (compare env table call).1 = .ok changes)
    (hold : treeUnscoped env call.gitFails call.before = .ok old)
    (hnew : treeUnscoped env call.gitFails (some call.after) = .ok new) :
    applyFileChanges (scopeTree call.rootPrefix old) changes = scopeTree call.rootPrefix new := by
  rw [compare, if_neg (by simpa using hroot)] at h
  cases hcompute : computeChanges env call with
  | error error =>
    rw [hcompute] at h
    cases h
  | ok all =>
    rw [hcompute] at h
    obtain rfl := Except.ok.inj h
    obtain ⟨old', new', hold', hnew', htrees⟩ := computeChanges_ok hcompute
    obtain rfl : old = old' := Except.ok.inj (hold.symm.trans hold')
    obtain rfl : new = new' := Except.ok.inj (hnew.symm.trans hnew')
    rw [← scopeTree_applyFileChanges, (isDelta_of_isChange (compareTrees_mem htrees).2).apply]

/-- The renames among the changes. -/
theorem renamed_iff (hmem : ∀ change, change ∈ changes ↔ IsChange old new change) {d a : TreeFile}
    (hd : d ∈ deletions old new) (ha : a ∈ additions old new) :
    ⟨some d, some a, .renamedExactBlob⟩ ∈ changes ↔
      (deletions old new).countP (·.oid = d.oid) = 1 ∧
        (additions old new).countP (·.oid = a.oid) = 1 ∧ d.oid = a.oid ∧ d.mode = a.mode := by
  rw [hmem, ← once_iff_countP (deletions_nodup old new) hd,
    ← once_iff_countP (show (additions old new).Nodup from deletions_nodup new old) ha]
  constructor
  · intro h
    cases h with
    | renamed _ _ h => exact ⟨h.deletedOnce, h.addedOnce, h.oid, h.mode⟩
  · rintro ⟨hdeleted, hadded, hoid, hmode⟩
    exact .renamed hd ha ⟨hoid, hmode, hdeleted, hadded⟩

/-- A change joins a deletion with an addition exactly when it is a rename. -/
theorem status_renamed_iff (h : IsChange old new change) :
    change.status = .renamedExactBlob ↔
      ∃ d ∈ deletions old new, ∃ a ∈ additions old new,
        change.before = some d ∧ change.after = some a := by
  cases h with
  | modified hold hnew hne =>
    refine ⟨fun h => (by cases h), ?_⟩
    rintro ⟨d, hd, a, ha, hbefore, -⟩
    obtain rfl := Option.some.inj hbefore
    rw [(mem_deletions.mp hd).2] at hnew
    cases hnew
  | @renamed d a hd ha h => exact ⟨fun _ => ⟨d, hd, a, ha, rfl, rfl⟩, fun _ => rfl⟩
  | deleted hd hnone => simp
  | added ha hnone => simp

theorem countP_after (h : compareTrees layout old new = .ok changes) (path : Bytes) :
    changes.countP (fun change => change.after.map (·.path) = some path) =
      if (new.find path).isSome ∧ new.find path ≠ old.find path then 1 else 0 := by
  obtain ⟨hnodup, hmem⟩ := compareTrees_mem h
  rw [← countP_before (nodup_inverse hnodup) (mem_inverse hmem) path, countP_map]
  rfl

/-- **Comparisons.** The changes of two trees turn the old tree into the new one and
their inverses turn it back; every changed path is in one change on its side,
and no other path is; a deletion and an addition are joined exactly when their
blob is deleted once and added once, with one mode; the changes are sorted.
Scoped changes turn the scoped old tree into the scoped new one. What a
retained row answers, in any run, is what the trees give. -/
theorem compare_delta (env : CompareEnv) :
    (∀ old new changes, compareTrees env.layout old new = .ok changes →
      applyFileChanges old changes = new ∧
      applyFileChanges new (changes.map FileChange.inverse) = old ∧
      (∀ path,
        changes.countP (fun change => change.before.map (·.path) = some path) =
            (if (old.find path).isSome ∧ old.find path ≠ new.find path then 1 else 0) ∧
          changes.countP (fun change => change.after.map (·.path) = some path) =
            (if (new.find path).isSome ∧ new.find path ≠ old.find path then 1 else 0)) ∧
      (∀ d ∈ deletions old new, ∀ a ∈ additions old new,
        ⟨some d, some a, .renamedExactBlob⟩ ∈ changes ↔
          (deletions old new).countP (·.oid = d.oid) = 1 ∧
            (additions old new).countP (·.oid = a.oid) = 1 ∧ d.oid = a.oid ∧ d.mode = a.mode) ∧
      (∀ change ∈ changes, change.status = .renamedExactBlob ↔
        ∃ d ∈ deletions old new, ∃ a ∈ additions old new,
          change.before = some d ∧ change.after = some a) ∧
      ∃ paths : List Bytes,
        changes.map FileChange.sortPath = paths.map some ∧ paths.Pairwise (· ≤ ·)) ∧
    (∀ table call old new changes, call.rootPrefix ≠ [] →
      (compare env table call).1 = .ok changes →
      treeUnscoped env call.gitFails call.before = .ok old →
      treeUnscoped env call.gitFails (some call.after) = .ok new →
      applyFileChanges (scopeTree call.rootPrefix old) changes = scopeTree call.rootPrefix new) ∧
    ∀ calls call payload, call.rootPrefix = [] → call.queryFails = false →
      retainedPayload (compareRun env calls) call = some payload →
      ∃ changes, (compare env (compareRun env calls) call).1 = .ok changes ∧
        computeChanges env call.answered = .ok changes := by
  refine ⟨fun old new changes h => ?_, ?_, ?_⟩
  · obtain ⟨hnodup, hmem⟩ := compareTrees_mem h
    refine ⟨(isDelta_of_isChange hmem).apply, (isDelta_of_isChange (mem_inverse hmem)).apply, ?_, ?_, ?_,
      compareTrees_sorted h⟩
    · exact fun path => ⟨countP_before hnodup hmem path, countP_after h path⟩
    · exact fun d hd a ha => renamed_iff hmem hd ha
    · exact fun change hchange => status_renamed_iff ((hmem change).mp hchange)
  · exact fun table call old new changes hroot h hold hnew => compare_scoped hroot h hold hnew
  · exact fun calls call payload hroot hquery hpayload =>
      compare_of_retained (retained_run calls) hroot hquery hpayload

deriving instance Countable for GitOid
deriving instance Countable for TreeFile
deriving instance Countable for ChangeStatus
deriving instance Countable for FileChange

/-- The id of a digit. -/
def oidOf (digit : UInt8) : GitOid := ⟨List.replicate 40 digit, by simp⟩

/-- A file is renamed. -/
def renamedChange : FileChange :=
  let file := fun path => (⟨path, oidOf 49, ascii "100644"⟩ : TreeFile)
  ⟨some (file (ascii "r/a")), some (file (ascii "b")), .renamedExactBlob⟩

/-- Two commits, between which a file moves out of the directory `r`. -/
noncomputable def renameEnv : CompareEnv where
  layout := ⟨96, 224, 24, List.length, fun _ => Nat.le_refl _⟩
  codec := (Codec.ofCountable (List FileChange)).patch [renamedChange] [91]
    (Codec.ofCountable_encode_ne (by simp))
  listing commit := ascii "100644 blob " ++ (oidOf 49).text ++ [9] ++
    (if commit = oidOf 50 then ascii "r/a" else ascii "b") ++ [0]

/-- A call that compares the two. -/
def renameCall (rootPrefix : Bytes) : CompareCall :=
  ⟨some (oidOf 50), oidOf 51, rootPrefix, false, false, false, true, fun _ => false⟩

/-- The second comparison reads what the first one has retained. In the directory the file is
deleted, at the boundary of the scope. -/
theorem compare_delta_renamed :
    let boundary : FileChange := ⟨some ⟨ascii "a", oidOf 49, ascii "100644"⟩, none,
      .scopeBoundaryDeleted⟩
    (∃ old new, treeUnscoped renameEnv (fun _ => false) (some (oidOf 50)) = .ok old ∧
      treeUnscoped renameEnv (fun _ => false) (some (oidOf 51)) = .ok new ∧
      applyFileChanges old [renamedChange] = new ∧
      applyFileChanges (scopeTree (ascii "r/") old) [boundary] = scopeTree (ascii "r/") new) ∧
    ∃ changes, (compare renameEnv (compareRun renameEnv [renameCall []]) (renameCall [])).1 =
      .ok changes ∧ computeChanges renameEnv (renameCall []).answered = .ok changes := by
  intro boundary
  have hcompute : computeChanges renameEnv (renameCall []) = .ok [renamedChange] := by
    decide +kernel
  have hscoped : (compare renameEnv (fun _ => none) (renameCall (ascii "r/"))).1 =
      .ok [boundary] := by decide +kernel
  have hretained : retainedPayload (compareRun renameEnv [renameCall []]) (renameCall []) =
      some [91] := by decide +kernel
  obtain ⟨hdelta, hscope, hrun⟩ := compare_delta renameEnv
  obtain ⟨old, hold, h⟩ := bind_eq_ok.mp hcompute
  obtain ⟨new, hnew, hcompare⟩ := bind_eq_ok.mp h
  exact ⟨⟨old, new, hold, hnew, (hdelta old new _ hcompare).1,
    hscope _ (renameCall (ascii "r/")) old new _ (by decide) hscoped hold hnew⟩,
    hrun _ (renameCall []) _ rfl rfl hretained⟩

end Trufflepig.History
