import Trufflepig.Lib.FirstByKey
import Trufflepig.Resolver.ChainCaches

/-!
# Bases with a metadata problem are blocked

A problem of one row is found in one of several passes over the rows. What each pass
establishes, the later ones keep: rows change only in their issues, and a base that is
blocked stays blocked.

* `blockRows_spec`: what is known of the rows when the passes have ended.
* `coalescePlaceholderUpdates_groups`: the updates of one occurrence become one.
-/

namespace Trufflepig.Resolver

open List Lib

/-! ## Blocking -/

/-- A row without its issues. -/
def PendingRow.core (row : PendingRow) : PendingRow := { row with metadataIssues := [] }

variable {row' : PendingRow}

theorem PendingRow.eq_of_core {row : PendingRow} (h : row'.core = row.core) :
    row' = { row with metadataIssues := row'.metadataIssues } := by
  cases row
  cases row'
  simp only [PendingRow.core, PendingRow.mk.injEq] at h ⊢
  tauto

variable {base : Bytes}

namespace BlockState

/-- The base of a row is blocked, if it has one. -/
def Blocks (state : BlockState) (i : ℕ) : Prop :=
  ∀ row, state.rows[i]? = some row → ∀ base, row.base = some base →
    classKey base ∈ state.blockedBases

/-- Rows change only in their issues, and bases stay blocked. -/
structure Keeps (state state' : BlockState) : Prop where
  rows : state'.rows.map PendingRow.core = state.rows.map PendingRow.core
  blocked : state.blockedBases ⊆ state'.blockedBases

theorem Keeps.refl (state : BlockState) : state.Keeps state := ⟨rfl, fun _ h => h⟩

theorem Keeps.trans {a b c : BlockState} (h : a.Keeps b) (h' : b.Keeps c) : a.Keeps c :=
  ⟨h'.rows.trans h.rows, fun _ hx => h'.blocked (h.blocked hx)⟩

variable {state state' : BlockState} {i : ℕ}

theorem Keeps.core_at (h : state.Keeps state') (i : ℕ) :
    state'.rows[i]?.map PendingRow.core = state.rows[i]?.map PendingRow.core := by
  rw [← getElem?_map, ← getElem?_map, h.rows]

/-- A row and the row at its place before. -/
theorem Keeps.row (h : state.Keeps state') (hrow : state'.rows[i]? = some row') :
    ∃ row, state.rows[i]? = some row ∧ row'.core = row.core := by
  have hcore := h.core_at i
  rw [hrow, Option.map_some] at hcore
  obtain ⟨row, hrow, heq⟩ := Option.map_eq_some_iff.mp hcore.symm
  exact ⟨row, hrow, heq.symm⟩

theorem Keeps.row_after (h : state.Keeps state') {row : PendingRow}
    (hrow : state.rows[i]? = some row) :
    ∃ row', state'.rows[i]? = some row' ∧ row'.core = row.core := by
  have hcore := h.core_at i
  rw [hrow, Option.map_some] at hcore
  exact Option.map_eq_some_iff.mp hcore

theorem Keeps.blocks (h : state.Keeps state') (hblocks : state.Blocks i) : state'.Blocks i := by
  intro row' hrow' base hbase
  obtain ⟨row, hrow, hcore⟩ := h.row hrow'
  have hsame : row'.base = row.base := by rw [PendingRow.eq_of_core hcore]
  exact h.blocked (hblocks row hrow base (hsame ▸ hbase))

theorem keeps_blockBase (state : BlockState) (base : Option Bytes) :
    state.Keeps (state.blockBase base) := by
  cases base with
  | none => exact .refl state
  | some base => exact ⟨rfl, fun _ h => mem_cons_of_mem _ h⟩

theorem Keeps.ite {c : Prop} [Decidable c] (h : state.Keeps state') :
    state.Keeps (if c then state' else state) := by
  split_ifs
  · exact h
  · exact .refl state

theorem keeps_pushReason (reason : ChainReason) (state : BlockState) (i : ℕ) :
    state.Keeps (pushReason reason state i) := by
  refine ⟨ext_getElem? fun j => ?_, fun _ h => h⟩
  rw [getElem?_map, getElem?_map, show (pushReason reason state i).rows[j]? = _ from getElem?_modify ..]
  cases state.rows[j]? with
  | none => rfl
  | some row =>
    simp only [Option.map_eq_map, Option.map_some]
    split_ifs
    all_goals rfl

theorem blocks_blockBase (state : BlockState) (i : ℕ) :
    (state.blockBase (state.rows[i]?.bind PendingRow.base)).Blocks i := by
  intro row hrow base hbase
  have hrow : state.rows[i]? = some row := by
    have hsame := (keeps_blockBase state (state.rows[i]?.bind PendingRow.base)).row hrow
    cases hold : state.rows[i]? with
    | none => simp [hold] at hsame
    | some old =>
      rw [hold] at hrow
      cases hb : old.base with
      | none => simpa [blockBase, hb, hold] using hrow
      | some b => simpa [blockBase, hb, hold] using hrow
  rw [hrow, Option.bind_some, hbase]
  exact mem_cons_self

theorem blockOwner_spec (reason : ChainReason) (state : BlockState) (i : ℕ) :
    state.Keeps (blockOwner reason state i) ∧ (blockOwner reason state i).Blocks i := by
  have hbase := keeps_blockBase state (state.rows[i]?.bind PendingRow.base)
  have hpush := keeps_pushReason reason (state.blockBase (state.rows[i]?.bind PendingRow.base)) i
  exact ⟨hbase.trans hpush, hpush.blocks (blocks_blockBase state i)⟩

/-- All owners of an entry are blocked. -/
theorem blockOwners_spec (reason : ChainReason) (owners : List ℕ) (state : BlockState) :
    state.Keeps (owners.foldl (blockOwner reason) state) ∧
      ∀ i ∈ owners, (owners.foldl (blockOwner reason) state).Blocks i :=
  foldl_establishes Keeps.refl (fun _ _ _ => Keeps.trans) (fun i s => s.Blocks i)
    (fun _ _ _ h => h.blocks) owners (fun s i _ => blockOwner_spec reason s i) state

theorem blocks_blockBase_some {row : PendingRow} (hrow : state.rows[i]? = some row)
    (hbase : row.base = some base) : (state.blockBase (some base)).Blocks i := by
  have hblocks := blocks_blockBase state i
  rwa [hrow, Option.bind_some, hbase] at hblocks

end BlockState

/-! ## The rows -/

/-- The extensions that are not known to be inactive. -/
def candidateRows (files : List ExtensionFile) : List (ℤ × ℕ × ClassExtension) :=
  (extensionRows files).filter fun entry => entry.2.2.active ≠ some false

def PendingRow.entry (row : PendingRow) : ℤ × ℕ × ClassExtension :=
  (row.fileId, row.rowIndex, row.extension)

def proxyKeyAt (rows : List PendingRow) (i : ℕ) : Option Bytes :=
  rows[i]?.map fun row => classKey row.expectedProxy

/-- What the loop over the extensions has established after some of them. -/
structure RowsRead (aliases : AliasSource) (entries : List (ℤ × ℕ × ClassExtension))
    (state : BlockState × Groups Bytes) : Prop where
  rows : state.1.rows.map PendingRow.entry = entries.filter fun entry => entry.2.2.active ≠ some false
  derived : ∀ row ∈ state.1.rows, row.Derived aliases
  issues : ∀ row ∈ state.1.rows,
    row.metadataIssues = rowIssues row.extension row.base row.implementation
  blocked : ∀ row ∈ state.1.rows, row.metadataIssues ≠ [] → ∀ base, row.base = some base →
    classKey base ∈ state.1.blockedBases
  owners : state.2 = groupBy (proxyKeyAt state.1.rows) (List.range state.1.rows.length)

variable {state : BlockState × Groups Bytes} {aliases : AliasSource}

theorem RowsRead.step {entries : List (ℤ × ℕ × ClassExtension)}
    {state' : BlockState × Groups Bytes} (h : RowsRead aliases entries state)
    {entry : ℤ × ℕ × ClassExtension} (hstep : addPendingRow aliases state entry = .ok state') :
    RowsRead aliases (entries ++ [entry]) state' := by
  rw [addPendingRow] at hstep
  split_ifs at hstep with hactive
  · obtain rfl := Except.ok.inj hstep
    refine ⟨?_, h.derived, h.issues, h.blocked, h.owners⟩
    rw [h.rows, filter_append, filter_cons_of_neg (by simpa using hactive), filter_nil, append_nil]
  · obtain ⟨row, hrow, rfl⟩ := map_eq_ok hstep
    obtain ⟨proxy, hproxy, rfl⟩ := map_eq_ok hrow
    generalize hnew : PendingRow.mk _ _ _ _ _ _ _ = row
    have hderived : row.Derived aliases := by
      rw [← hnew]
      exact ⟨rfl, rfl, hproxy⟩
    have hissues : row.metadataIssues = rowIssues row.extension row.base row.implementation := by
      rw [← hnew]
    have hentry : row.entry = entry := by rw [← hnew]; rfl
    have hrows : (if row.metadataIssues ≠ [] then state.1.blockBase row.base else state.1).rows =
        state.1.rows := by
      split_ifs
      · cases row.base <;> rfl
      · rfl
    simp only [hrows]
    refine ⟨?_, ?_, ?_, ?_, ?_⟩
    · rw [map_append, h.rows, filter_append,
        filter_cons_of_pos (by simpa using hactive), map_singleton, hentry]
      rfl
    · exact forall_mem_append.mpr ⟨h.derived, forall_mem_singleton.mpr hderived⟩
    · exact forall_mem_append.mpr ⟨h.issues, forall_mem_singleton.mpr hissues⟩
    · intro r hr hne base hbase
      rcases mem_append.mp hr with hr | hr
      · exact (BlockState.keeps_blockBase state.1 row.base).ite.blocked (h.blocked r hr hne base hbase)
      · obtain rfl := mem_singleton.mp hr
        show _ ∈ (if r.metadataIssues ≠ [] then state.1.blockBase r.base else state.1).blockedBases
        rw [if_pos hne, hbase]
        exact mem_cons_self
    · rw [h.owners]
      exact (groupBy_getElem?_append _ state.1.rows row).symm

variable {files : List ExtensionFile}

theorem rowsRead
    (h : (extensionRows files).foldlM (addPendingRow aliases) (⟨[], []⟩, []) = .ok state) :
    RowsRead aliases (extensionRows files) state := by
  refine foldlM_invariant_passed (RowsRead aliases) (fun passed entry rest _ s s' hs hstep =>
    hs.step hstep) ?_ h
  exact ⟨rfl, by simp, by simp, by simp, rfl⟩

/-! ## Proxies and classes with more than one owner -/

/-- Owners are blocked if some number of theirs, which does not depend on the issues of the rows,
is at least two: all those of the entries, whatever the order. -/
theorem blockGroups_spec {κ : Type} (reason : ChainReason) (count : List PendingRow → List ℕ → ℕ)
    (block : BlockState → κ × List ℕ → BlockState)
    (hcount : ∀ {s s' : BlockState}, s.Keeps s' → ∀ owners, count s'.rows owners = count s.rows owners)
    (hblock : ∀ s entry, block s entry = if count s.rows entry.2 < 2 then s
      else entry.2.foldl (BlockState.blockOwner reason) s)
    (visit : Iteration (κ × List ℕ)) (owners : Groups κ) (state : BlockState) :
    state.Keeps ((visit.order owners).foldl block state) ∧
      ∀ entry ∈ owners, 2 ≤ count state.rows entry.2 →
        ∀ i ∈ entry.2, ((visit.order owners).foldl block state).Blocks i := by
  obtain ⟨hkeeps, hpost⟩ := foldl_establishes BlockState.Keeps.refl
    (fun _ _ _ => BlockState.Keeps.trans)
    (fun (entry : κ × List ℕ) s => 2 ≤ count s.rows entry.2 → ∀ i ∈ entry.2, s.Blocks i)
    (fun entry s s' h hpost htwo i hi => h.blocks (hpost (by rwa [← hcount h]) i hi))
    (visit.order owners) (f := block) (fun s entry _ => by
      rw [hblock]
      split_ifs with hfew
      · exact ⟨.refl s, fun h => absurd hfew (by omega)⟩
      · obtain ⟨hkeeps, hblocks⟩ := BlockState.blockOwners_spec reason entry.2 s
        exact ⟨hkeeps, fun _ => hblocks⟩) state
  refine ⟨hkeeps, fun entry hentry htwo => hpost entry ((visit.perm owners).mem_iff.mpr hentry) ?_⟩
  rwa [hcount hkeeps]

theorem proxyKeyAt_congr {state state' : BlockState} (h : state.Keeps state') (i : ℕ) :
    proxyKeyAt state'.rows i = proxyKeyAt state.rows i := by
  have hcore := congrArg (fun rows => proxyKeyAt rows i) h.rows
  simpa [proxyKeyAt, PendingRow.core, Function.comp_def] using hcore

theorem distinctProxies_congr {state state' : BlockState} (h : state.Keeps state')
    (owners : List ℕ) :
    (distinctProxies state'.rows owners).length = (distinctProxies state.rows owners).length := by
  show (owners.map fun i => (proxyKeyAt state'.rows i).getD []).dedup.length = _
  simp only [proxyKeyAt_congr h]
  rfl

/-! ## The classes of the rows -/

/-- The class that a list of candidates leaves no doubt about. -/
def soleId : List PhpClassFact → Option ℤ
  | [fact] => some fact.definitionId
  | _ => none

variable {context : ChainContext} {row : PendingRow} {lookup : ImplementationLookup}

theorem resolve_eq_ok (h : row.resolve context = .ok lookup) :
    List.Forall₂ (fun fact implementation =>
        implementationClass context row.expectedProxy fact = .ok implementation)
      ((row.candidates context).take maxCandidates) lookup.classes ∧
    lookup.truncated = decide ((row.candidates context).length > maxCandidates) := by
  rw [PendingRow.resolve, resolveImplementation] at h
  obtain ⟨classes, hclasses, h⟩ := bind_eq_ok.mp h
  obtain rfl := Except.ok.inj h
  exact ⟨mapM_eq_ok.mp hclasses, rfl⟩

variable {proxy : Bytes}

theorem definitionId_of_implementationClass {fact : PhpClassFact}
    {implementation : ImplementationClass}
    (h : implementationClass context proxy fact = .ok implementation) :
    implementation.definitionId = fact.definitionId := by
  obtain ⟨_, -, rfl⟩ := map_eq_ok h
  rfl

/-- The classes of a lookup are those of the candidates. -/
theorem resolve_ids (h : row.resolve context = .ok lookup) :
    lookup.classes.map ImplementationClass.definitionId =
      ((row.candidates context).take maxCandidates).map PhpClassFact.definitionId := by
  have hclasses := (resolve_eq_ok h).1
  generalize (row.candidates context).take maxCandidates = facts at hclasses ⊢
  generalize lookup.classes = classes at hclasses ⊢
  induction hclasses with
  | nil => rfl
  | cons hfirst _ ih => rw [map_cons, map_cons, ih, definitionId_of_implementationClass hfirst]

theorem resolve_only (h : row.resolve context = .ok lookup) :
    lookup.only.map ImplementationClass.definitionId = soleId (row.candidates context) := by
  have hids := resolve_ids h
  have htruncated := (resolve_eq_ok h).2
  rw [ImplementationLookup.only.eq_def, htruncated]
  generalize row.candidates context = facts at hids ⊢
  rcases facts with _ | ⟨fact, _ | ⟨second, rest⟩⟩
  · rw [map_eq_nil_iff.mp hids]
    rfl
  · obtain ⟨implementation, hone, hid⟩ := map_eq_singleton_iff.mp hids
    rw [hone]
    exact congrArg some hid
  · obtain ⟨first, classes, hcons, -, hclasses⟩ := map_eq_cons_iff.mp hids
    obtain ⟨next, classes, rfl, -, -⟩ := map_eq_cons_iff.mp
      (hclasses.trans (show _ = second.definitionId :: _ from rfl))
    rw [hcons]
    rfl

/-- The class that a row claims: both names are resolved, and one class has the name. -/
def ownerKey (context : ChainContext) (rows : List PendingRow) (i : ℕ) : Option ℤ :=
  rows[i]?.bind fun row =>
    if row.implementation.isSome && row.base.isSome then soleId (row.candidates context) else none

/-- A row whose base has more than one class, or is the implementation. -/
def BaseProblem (context : ChainContext) (rows : List PendingRow) (i : ℕ) : Prop :=
  ∃ row base, rows[i]? = some row ∧ row.implementation.isSome ∧ row.base = some base ∧
    (1 < (baseClasses context base).1.length ∨ (baseClasses context base).2 = true ∨
      ∃ fact ∈ (row.candidates context).take maxCandidates,
        ∃ target ∈ (baseClasses context base).1, target.definitionId = fact.definitionId)

/-- What the loop over the rows has established after some of them. -/
structure Resolved (context : ChainContext) (start : BlockState) (passed : List ℕ)
    (state : ResolveState) : Prop where
  keeps : start.Keeps state.block
  sound : state.lookups.Sound context
  owners : state.implementationOwners = groupBy (ownerKey context start.rows) passed
  found : ∀ i ∈ passed, BaseProblem context start.rows i → state.block.Blocks i

section Resolve

variable {context : ChainContext} {start : BlockState} {passed : List ℕ} {state state' : ResolveState}
  {i : ℕ}

/-- A row that lacks a name is passed over. -/
theorem Resolved.skip (h : Resolved context start passed state)
    (howner : ownerKey context start.rows i = none) (hproblem : ¬ BaseProblem context start.rows i) :
    Resolved context start (passed ++ [i]) state := by
  refine ⟨h.keeps, h.sound, ?_, ?_⟩
  · rw [groupBy_append, howner, h.owners]
  · exact forall_mem_append.mpr ⟨h.found, forall_mem_singleton.mpr fun hi => absurd hi hproblem⟩

variable {name : Bytes}

/-- The state after a row with both names. -/
theorem resolveRow_eq_ok {row : PendingRow}
    (hrow : state.block.rows[i]? = some row) (hname : row.implementation = some name)
    (hbase : row.base = some base) (h : resolveRow context state i = .ok state') :
    ∃ lookup lookups classes,
      cachedImplementation context state.lookups row = .ok (lookup, lookups) ∧
      cachedBase context lookups base = .ok (classes, state'.lookups) ∧
      state'.implementationOwners = (match lookup.only with
        | some implementation =>
          pushIndex state.implementationOwners implementation.definitionId i
        | none => state.implementationOwners) ∧
      (let ambiguous := 1 < classes.1.length || classes.2
       let isBase := lookup.classes.any fun implementation =>
         classes.1.any fun target => target.definitionId = implementation.definitionId
       let block := if ambiguous then
           BlockState.pushReason .baseClassIdentityAmbiguous (state.block.blockBase (some base)) i
         else state.block
       state'.block = if isBase then block.blockBase (some base) else block) := by
  rw [resolveRow, hrow] at h
  dsimp only at h
  rw [hname, hbase] at h
  obtain ⟨⟨lookup, lookups⟩, hlookup, h⟩ := bind_eq_ok.mp h
  obtain ⟨⟨classes, lookups'⟩, hclasses, h⟩ := bind_eq_ok.mp h
  obtain rfl := Except.ok.inj h
  exact ⟨lookup, lookups, classes, hlookup, hclasses, rfl, rfl⟩

/-- A row with both names: its classes, and the problems that they show. -/
theorem Resolved.resolve (h : Resolved context start passed state)
    (hderived : ∀ row ∈ start.rows, row.Derived context.aliases) {row : PendingRow}
    (hrow : start.rows[i]? = some row) (hname : row.implementation = some name)
    (hbase : row.base = some base) (hstep : resolveRow context state i = .ok state') :
    Resolved context start (passed ++ [i]) state' := by
  obtain ⟨row', hrow', hcore⟩ := h.keeps.row_after hrow
  have heq := PendingRow.eq_of_core hcore
  have hrowDerived := hderived row (mem_of_getElem? hrow)
  have hderived' : row'.Derived context.aliases := by
    rw [heq]
    exact ⟨hrowDerived.base, hrowDerived.implementation, hrowDerived.proxy⟩
  have hname' : row'.implementation = some name := by rw [heq]; exact hname
  have hbase' : row'.base = some base := by rw [heq]; exact hbase
  have hcandidates : row'.candidates context = row.candidates context := by rw [heq]; rfl
  obtain ⟨lookup, lookups, classes, hlookup, hclasses, howners, hblock⟩ :=
    resolveRow_eq_ok hrow' hname' hbase' hstep
  dsimp only at hblock
  obtain ⟨hresolve, hsound⟩ := cachedImplementation_spec h.sound hderived' hlookup
  obtain ⟨rfl, hsound⟩ := cachedBase_spec hsound (hderived'.base.symm.trans hbase') hclasses
  -- The base is blocked before its row gets an issue.
  have hblocked := BlockState.blocks_blockBase_some hrow' hbase'
  have hpush := BlockState.keeps_pushReason .baseClassIdentityAmbiguous
    (state.block.blockBase (some base)) i
  generalize hambiguous : (decide (1 < (baseClasses context base).1.length) ||
    (baseClasses context base).2) = ambiguous at hblock
  generalize hisBase : (lookup.classes.any fun implementation =>
    (baseClasses context base).1.any fun target =>
      target.definitionId = implementation.definitionId) = isBase at hblock
  have hkeeps₁ := ((BlockState.keeps_blockBase state.block (some base)).trans hpush).ite
    (c := ambiguous)
  have hblocks₁ : ambiguous → BlockState.Blocks (if ambiguous then
      BlockState.pushReason .baseClassIdentityAmbiguous (state.block.blockBase (some base)) i
      else state.block) i := by
    intro hyes
    rw [if_pos hyes]
    exact hpush.blocks hblocked
  generalize (if (ambiguous : Prop) then _ else state.block) = block at hblock hkeeps₁ hblocks₁
  have hkeeps₂ : block.Keeps state'.block := by
    rw [hblock]
    exact (BlockState.keeps_blockBase block (some base)).ite
  have hkeeps : state.block.Keeps state'.block := hkeeps₁.trans hkeeps₂
  have hblocks₂ : isBase → state'.block.Blocks i := by
    intro hyes
    obtain ⟨row₁, hrow₁, hcore₁⟩ := hkeeps₁.row_after hrow'
    rw [hblock, if_pos hyes]
    exact BlockState.blocks_blockBase_some hrow₁ (by rw [PendingRow.eq_of_core hcore₁]; exact hbase')
  refine ⟨h.keeps.trans hkeeps, hsound, ?_, ?_⟩
  · have hkey : ownerKey context start.rows i = lookup.only.map ImplementationClass.definitionId := by
      rw [resolve_only hresolve, hcandidates, ownerKey, hrow, Option.bind_some, hname, hbase]
      rfl
    rw [groupBy_append, hkey, howners, h.owners]
    cases lookup.only with
    | none => rfl
    | some implementation => rfl
  · intro j hj hproblem
    rcases mem_append.mp hj with hj | hj
    · exact hkeeps.blocks (h.found j hj hproblem)
    · obtain rfl := mem_singleton.mp hj
      obtain ⟨row₂, base₂, hrow₂, -, hbase₂, hproblem⟩ := hproblem
      obtain rfl := Option.some.inj (hrow.symm.trans hrow₂)
      obtain rfl := Option.some.inj (hbase.symm.trans hbase₂)
      rcases hproblem with hmany | htruncated | ⟨fact, hfact, target, htarget, hid⟩
      · exact hkeeps₂.blocks (hblocks₁ (by rw [← hambiguous]; simp [hmany]))
      · exact hkeeps₂.blocks (hblocks₁ (by rw [← hambiguous]; simp [htruncated]))
      · apply hblocks₂
        rw [← hisBase]
        have hmem : fact.definitionId ∈ lookup.classes.map ImplementationClass.definitionId := by
          rw [resolve_ids hresolve, hcandidates]
          exact mem_map_of_mem hfact
        obtain ⟨implementation, himplementation, hsame⟩ := mem_map.mp hmem
        exact any_eq_true.mpr ⟨implementation, himplementation,
          any_eq_true.mpr ⟨target, htarget, by simp [hid, hsame]⟩⟩

theorem Resolved.step (h : Resolved context start passed state)
    (hderived : ∀ row ∈ start.rows, row.Derived context.aliases) (hi : i < start.rows.length)
    (hstep : resolveRow context state i = .ok state') :
    Resolved context start (passed ++ [i]) state' := by
  have hrow : start.rows[i]? = some (start.rows.get ⟨i, hi⟩) := getElem?_eq_getElem hi
  generalize start.rows.get ⟨i, hi⟩ = row at hrow
  obtain ⟨row', hrow', hcore⟩ := h.keeps.row_after hrow
  have heq := PendingRow.eq_of_core hcore
  have hskip : row.implementation = none ∨ row.base = none →
      Resolved context start (passed ++ [i]) state' := by
    intro hnone
    have hstay : resolveRow context state i = .ok state := by
      rw [resolveRow, hrow', heq]
      rcases hnone with hnone | hnone
      · simp [hnone]
      · cases row.implementation <;> simp [hnone]
    obtain rfl := Except.ok.inj (hstay.symm.trans hstep)
    refine h.skip ?_ ?_
    · rcases hnone with hnone | hnone <;> simp [ownerKey, hrow, hnone]
    · rintro ⟨row₂, base, hrow₂, hsome, hbase, -⟩
      rw [← Option.some.inj (hrow.symm.trans hrow₂)] at hsome hbase
      rcases hnone with hnone | hnone <;> simp [hnone] at hsome hbase
  cases hname : row.implementation with
  | none => exact hskip (.inl hname)
  | some name =>
    cases hbase : row.base with
    | none => exact hskip (.inr hbase)
    | some base => exact h.resolve hderived hrow hname hbase hstep

end Resolve

/-! ## The passes together -/

section Keeps

variable {context : ChainContext} {state state' : BlockState} (h : state.Keeps state')
include h

theorem ownerKey_congr (i : ℕ) :
    ownerKey context state'.rows i = ownerKey context state.rows i := by
  have hcore := congrArg (fun rows => ownerKey context rows i) h.rows
  simp only [ownerKey, getElem?_map, Option.bind_map] at hcore
  exact hcore

theorem baseProblem_congr {i : ℕ} (hproblem : BaseProblem context state'.rows i) :
    BaseProblem context state.rows i := by
  obtain ⟨row', base, hrow', hname, hbase, hproblem⟩ := hproblem
  obtain ⟨row, hrow, hcore⟩ := h.row hrow'
  rw [PendingRow.eq_of_core hcore] at hname hbase hproblem
  exact ⟨row, base, hrow, hname, hbase, hproblem⟩

end Keeps

theorem keeps_flagged (reason : ChainReason) (flagged : List ℕ) (state : BlockState) :
    state.Keeps (flagged.foldl (BlockState.pushReason reason) state) :=
  (foldl_establishes BlockState.Keeps.refl (fun _ _ _ => BlockState.Keeps.trans) (fun _ _ => True)
    (fun _ _ _ _ _ => trivial) flagged
    (fun s i _ => ⟨BlockState.keeps_pushReason reason s i, trivial⟩) state).1

theorem two_le_length_dedup {α : Type} [DecidableEq α] {xs : List α} {a b : α} (ha : a ∈ xs)
    (hb : b ∈ xs) (hne : a ≠ b) : 2 ≤ xs.dedup.length := by
  have hsub : [a, b].Subperm xs.dedup :=
    (nodup_cons.mpr ⟨by simpa using hne, nodup_singleton b⟩).subperm fun x hx => by
      rcases mem_pair.mp hx with rfl | rfl
      · exact mem_dedup.mpr ha
      · exact mem_dedup.mpr hb
  exact hsub.length_le

/-- The rows when the passes over the metadata have ended: their bases are blocked for a
problem of the row, of its proxy, of its base class or of its implementation class. -/
structure BlockedRows (context : ChainContext) (files : List ExtensionFile) (block : BlockState) :
    Prop where
  rows : block.rows.map PendingRow.entry = candidateRows files
  derived : ∀ row ∈ block.rows, row.Derived context.aliases
  own : ∀ i row, block.rows[i]? = some row →
    rowIssues row.extension row.base row.implementation ≠ [] → block.Blocks i
  shared : ∀ i j, i ≠ j → ∀ proxy, proxyKeyAt block.rows i = some proxy →
    proxyKeyAt block.rows j = some proxy → block.Blocks i
  base : ∀ i, BaseProblem context block.rows i → block.Blocks i
  conflict : ∀ i j id, ownerKey context block.rows i = some id →
    ownerKey context block.rows j = some id →
    proxyKeyAt block.rows i ≠ proxyKeyAt block.rows j → block.Blocks i

variable {rows : List PendingRow}

theorem length_of_proxyKeyAt {i : ℕ} (h : proxyKeyAt rows i = some proxy) : i < rows.length := by
  obtain ⟨row, hrow, -⟩ := Option.map_eq_some_iff.mp h
  exact (List.getElem?_eq_some_iff.mp hrow).1

theorem length_of_ownerKey {context : ChainContext} {i : ℕ} {id : ℤ}
    (h : ownerKey context rows i = some id) : i < rows.length := by
  obtain ⟨row, hrow, -⟩ := Option.bind_eq_some_iff.mp h
  exact (List.getElem?_eq_some_iff.mp hrow).1

theorem blockRows_spec {context : ChainContext} {visit : VisitOrder}
    {block : BlockState} {lookups : LookupState}
    (h : blockRows context visit files = .ok (block, lookups)) :
    BlockedRows context files block := by
  rw [blockRows] at h
  obtain ⟨⟨block₁, owners⟩, hread, h⟩ := bind_eq_ok.mp h
  have hread := rowsRead hread
  obtain ⟨hkeeps₁, hshared⟩ := blockGroups_spec .proxyIdentityReused
    (fun _ owners => owners.length) blockSharedProxy (fun _ _ => rfl) (fun _ _ => rfl) visit.proxies
    owners block₁
  dsimp only at h
  generalize (visit.proxies.order owners).foldl blockSharedProxy block₁ = block₂ at h hkeeps₁ hshared
  obtain ⟨state, hloop, h⟩ := bind_eq_ok.mp h
  have hderived : ∀ {s : BlockState}, block₁.Keeps s → ∀ row ∈ s.rows, row.Derived context.aliases := by
    intro s hkeeps row hrow
    obtain ⟨i, hi⟩ := mem_iff_getElem?.mp hrow
    obtain ⟨old, hold, hcore⟩ := hkeeps.row hi
    have hd := hread.derived old (mem_of_getElem? hold)
    rw [PendingRow.eq_of_core hcore]
    exact ⟨hd.base, hd.implementation, hd.proxy⟩
  have hresolved : Resolved context block₂ (List.range block₂.rows.length) state := by
    refine foldlM_invariant_passed (Resolved context block₂) ?_ ?_ hloop
    · intro passed i rest hsplit s s' hs hstep
      have hi : i ∈ List.range block₂.rows.length := by rw [hsplit]; simp
      exact hs.step (hderived hkeeps₁) (mem_range.mp hi) hstep
    · have hempty : LookupState.Sound context ⟨fun _ => none, fun _ => none, 0⟩ :=
        ⟨fun _ _ _ hnone => absurd hnone (by simp), fun _ _ _ _ hnone => absurd hnone (by simp)⟩
      exact ⟨.refl _, hempty, rfl, by simp⟩
  have hkeeps₃ := keeps_flagged .implementationIsBaseClass state.implementationIsBase state.block
  generalize state.implementationIsBase.foldl
    (BlockState.pushReason .implementationIsBaseClass) state.block = block₃ at h hkeeps₃
  obtain ⟨hkeeps₄, hconflict⟩ := blockGroups_spec .implementationProxyIdentityConflict
    (fun rows owners => (distinctProxies rows owners).length) blockConflict distinctProxies_congr
    (fun _ _ => rfl) visit.implementations state.implementationOwners block₃
  obtain ⟨rfl, rfl⟩ := Prod.mk.inj (Except.ok.inj h)
  have hkeeps₂₄ := (hresolved.keeps.trans hkeeps₃).trans hkeeps₄
  have hkeeps := hkeeps₁.trans hkeeps₂₄
  generalize (visit.implementations.order state.implementationOwners).foldl blockConflict block₃ =
    block at hkeeps₄ hconflict hkeeps₂₄ hkeeps ⊢
  refine ⟨?_, hderived hkeeps, ?_, ?_, ?_, ?_⟩
  · -- A row keeps its place and its extension.
    have hentry := congrArg (List.map PendingRow.entry) hkeeps.rows
    rw [map_map, map_map] at hentry
    exact (show block.rows.map PendingRow.entry = block₁.rows.map PendingRow.entry from
      hentry).trans hread.rows
  · intro i row hrow hissues
    obtain ⟨old, hold, hcore⟩ := hkeeps.row hrow
    refine hkeeps.blocks fun same hsame => ?_
    obtain rfl := Option.some.inj (hold.symm.trans hsame)
    apply hread.blocked old (mem_of_getElem? hold)
    rw [hread.issues old (mem_of_getElem? hold)]
    rwa [PendingRow.eq_of_core hcore] at hissues
  · intro i j hij proxy hi hj
    rw [proxyKeyAt_congr hkeeps] at hi hj
    have hilt := length_of_proxyKeyAt hi
    have hjlt := length_of_proxyKeyAt hj
    have hentry := exists_mem_groupBy (mem_range.mpr hilt) hi
    rw [← hread.owners] at hentry
    have himem := mem_indexesOf.mpr ⟨mem_range.mpr hilt, hi⟩
    have hjmem := mem_indexesOf.mpr ⟨mem_range.mpr hjlt, hj⟩
    have htwo := two_le_length_dedup himem hjmem hij
    have hle := (dedup_sublist (indexesOf (proxyKeyAt block₁.rows)
      (List.range block₁.rows.length) proxy)).length_le
    exact hkeeps₂₄.blocks (hshared _ hentry (by dsimp only; omega) i himem)
  · intro i hproblem
    have hproblem₂ := baseProblem_congr hkeeps₂₄ hproblem
    have ⟨row, _, hrow, _⟩ := hproblem₂
    have hilt := (List.getElem?_eq_some_iff.mp hrow).1
    exact (hkeeps₃.trans hkeeps₄).blocks (hresolved.found i (mem_range.mpr hilt) hproblem₂)
  · intro i j id hi hj hne
    rw [proxyKeyAt_congr hkeeps₄, proxyKeyAt_congr hkeeps₄] at hne
    rw [ownerKey_congr hkeeps₂₄] at hi hj
    have hilt := length_of_ownerKey hi
    have hjlt := length_of_ownerKey hj
    have hentry := exists_mem_groupBy (mem_range.mpr hilt) hi
    rw [← hresolved.owners] at hentry
    have himem := mem_indexesOf.mpr ⟨mem_range.mpr hilt, hi⟩
    have hjmem := mem_indexesOf.mpr ⟨mem_range.mpr hjlt, hj⟩
    apply hconflict _ hentry ?_ i himem
    -- Both rows exist, so that their proxies differ as texts.
    have hlt : ∀ {k}, k < block₂.rows.length → ∃ proxy, proxyKeyAt block₃.rows k = some proxy := by
      intro k hk
      rw [proxyKeyAt_congr (hresolved.keeps.trans hkeeps₃), proxyKeyAt, getElem?_eq_getElem hk]
      exact ⟨_, rfl⟩
    obtain ⟨proxy, hproxy⟩ := hlt hilt
    obtain ⟨proxy', hproxy'⟩ := hlt hjlt
    refine two_le_length_dedup (a := proxy) (b := proxy') ?_ ?_ ?_
    · exact mem_map.mpr ⟨i, himem, by rw [← proxyKeyAt, hproxy]; rfl⟩
    · exact mem_map.mpr ⟨j, hjmem, by rw [← proxyKeyAt, hproxy']; rfl⟩
    · rintro rfl
      exact hne (hproxy.trans hproxy'.symm)

/-! ## Placeholder updates of one occurrence -/

variable {x y z : PreparedPlaceholderUpdate} {xs zs : List PreparedPlaceholderUpdate}

/-- The merging of two updates of one occurrence. -/
def combinePlaceholder (previous update : PreparedPlaceholderUpdate) :
    Except PrepareError PreparedPlaceholderUpdate :=
  if previous.fileId = update.fileId && previous.span = update.span then
    if sortDedup previous.targetClassIds ≠ sortDedup update.targetClassIds then
      .ok { previous with
        targetClassIds := []
        provenance := previous.provenance ++ ascii ";incomplete=multiple_registration_evidence" }
    else .ok { previous with targetClassIds := sortDedup previous.targetClassIds }
  else .error .conflictingPlaceholder

theorem mergePlaceholder_eq :
    mergePlaceholder = mergeInto PreparedPlaceholderUpdate.occurrenceId combinePlaceholder := by
  funext unique update
  induction unique with
  | nil => rfl
  | cons previous rest ih =>
    rw [mergePlaceholder, mergeInto, ih, combinePlaceholder]
    dsimp only
    split_ifs <;> rfl

/-- Two updates are of the same place. -/
def PreparedPlaceholderUpdate.SamePlace (x y : PreparedPlaceholderUpdate) : Prop :=
  x.fileId = y.fileId ∧ x.span = y.span

theorem PreparedPlaceholderUpdate.SamePlace.symm (h : x.SamePlace y) : y.SamePlace x :=
  ⟨h.1.symm, h.2.symm⟩

theorem PreparedPlaceholderUpdate.SamePlace.trans (h : x.SamePlace y) (h' : y.SamePlace z) :
    x.SamePlace z :=
  ⟨h.1.trans h'.1, h.2.trans h'.2⟩

def PreparedPlaceholderUpdate.targets (x : PreparedPlaceholderUpdate) : Finset ℤ :=
  x.targetClassIds.toFinset

theorem sortDedup_eq_iff :
    sortDedup x.targetClassIds = sortDedup y.targetClassIds ↔ x.targets = y.targets := by
  refine ⟨fun h => ?_, fun h => sortDedup_congr fun i => ?_⟩
  · ext i
    rw [PreparedPlaceholderUpdate.targets, PreparedPlaceholderUpdate.targets, mem_toFinset,
      mem_toFinset, ← mem_sortDedup, h, mem_sortDedup]
  · simpa [PreparedPlaceholderUpdate.targets] using Finset.ext_iff.mp h i

theorem combinePlaceholder_eq_ok (h : combinePlaceholder x y = .ok z) :
    z.occurrenceId = x.occurrenceId ∧ x.SamePlace y ∧ z.SamePlace x ∧
      z.targets = if x.targets = y.targets then x.targets else ∅ := by
  rw [combinePlaceholder] at h
  simp only [ne_eq, sortDedup_eq_iff] at h
  split_ifs at h with hplace hdiffer <;> obtain rfl := Except.ok.inj h <;>
    refine ⟨rfl, by simpa [PreparedPlaceholderUpdate.SamePlace] using hplace, ⟨rfl, rfl⟩, ?_⟩
  · rw [if_pos hdiffer, ← sortDedup_eq_iff]
    exact sortDedup_congr fun x => mem_sortDedup
  · rw [if_neg hdiffer]
    rfl

/-- A candidate set that was cleared once stays empty. -/
theorem foldlM_combinePlaceholder (h : xs.foldlM combinePlaceholder x = .ok z) :
    (∀ y ∈ xs, x.SamePlace y) ∧ z.SamePlace x ∧
      z.targets = if ∀ y ∈ xs, y.targets = x.targets then x.targets else ∅ := by
  induction xs generalizing x with
  | nil =>
    cases h
    simp [PreparedPlaceholderUpdate.SamePlace]
  | cons y ys ih =>
    obtain ⟨x', hx', h⟩ := bind_eq_ok.mp h
    obtain ⟨-, hxy, hplace, htargets⟩ := combinePlaceholder_eq_ok hx'
    obtain ⟨hys, hz, hset⟩ := ih h
    refine ⟨?_, hz.trans hplace, ?_⟩
    · exact forall_mem_cons.mpr ⟨hxy, fun w hw => hplace.symm.trans (hys w hw)⟩
    · rw [hset, htargets]
      by_cases hsame : x.targets = y.targets
      · simp [hsame]
      · simp [hsame, Ne.symm hsame]

theorem exists_foldlM_combinePlaceholder (h : ∀ y ∈ xs, x.SamePlace y) :
    ∃ z, xs.foldlM combinePlaceholder x = .ok z := by
  induction xs generalizing x with
  | nil => exact ⟨x, rfl⟩
  | cons y ys ih =>
    obtain ⟨x', hx'⟩ : ∃ x', combinePlaceholder x y = .ok x' := by
      obtain ⟨hfile, hspan⟩ := h y mem_cons_self
      rw [combinePlaceholder, if_pos (by simp [hfile, hspan])]
      split_ifs <;> exact ⟨_, rfl⟩
    obtain ⟨-, -, hplace, -⟩ := combinePlaceholder_eq_ok hx'
    obtain ⟨z, hz⟩ := ih fun w hw => hplace.trans (h w (mem_cons_of_mem _ hw))
    exact ⟨z, bind_eq_ok.mpr ⟨x', hx', hz⟩⟩

theorem combinePlaceholder_key (x y z : PreparedPlaceholderUpdate)
    (_ : x.occurrenceId = y.occurrenceId) (h : combinePlaceholder x y = .ok z) :
    z.occurrenceId = x.occurrenceId := (combinePlaceholder_eq_ok h).1

/-- The merged updates: one for each occurrence, in the order in which these first appear,
with the candidates that all updates of the occurrence have if they agree. -/
structure Coalesced (xs zs : List PreparedPlaceholderUpdate) : Prop where
  ids : zs.map PreparedPlaceholderUpdate.occurrenceId =
    (firstByKey PreparedPlaceholderUpdate.occurrenceId xs).map PreparedPlaceholderUpdate.occurrenceId
  place : ∀ z ∈ zs, ∀ x ∈ xs, x.occurrenceId = z.occurrenceId → z.SamePlace x
  targets : ∀ z ∈ zs, ∀ x ∈ xs, x.occurrenceId = z.occurrenceId →
    z.targets = if ∀ y ∈ xs, y.occurrenceId = z.occurrenceId → y.targets = x.targets then
      x.targets else ∅

theorem coalesced_of_fold (h : xs.foldlM mergePlaceholder [] = .ok zs) : Coalesced xs zs := by
  rw [mergePlaceholder_eq] at h
  obtain ⟨hids, hgroups⟩ := foldlM_mergeInto_spec combinePlaceholder_key h
  have hgroup : ∀ z ∈ zs, ∃ x₀ rest, (∀ x, x ∈ xs ∧ x.occurrenceId = z.occurrenceId ↔
      x ∈ x₀ :: rest) ∧ rest.foldlM combinePlaceholder x₀ = .ok z := by
    intro z hz
    obtain ⟨x₀, rest, hfilter, hfold⟩ := hgroups z hz
    exact ⟨x₀, rest, fun x => by rw [← hfilter, mem_filter, decide_eq_true_eq], hfold⟩
  refine ⟨hids, fun z hz x hx hid => ?_, fun z hz x hx hid => ?_⟩
  · obtain ⟨x₀, rest, hmem, hfold⟩ := hgroup z hz
    obtain ⟨hplace, hz, -⟩ := foldlM_combinePlaceholder hfold
    rcases mem_cons.mp ((hmem x).mp ⟨hx, hid⟩) with rfl | hx
    · exact hz
    · exact hz.trans (hplace x hx)
  · obtain ⟨x₀, rest, hmem, hfold⟩ := hgroup z hz
    obtain ⟨-, -, htargets⟩ := foldlM_combinePlaceholder hfold
    have hall : ∀ {p : PreparedPlaceholderUpdate → Prop},
        (∀ y ∈ xs, y.occurrenceId = z.occurrenceId → p y) ↔ p x₀ ∧ ∀ y ∈ rest, p y := by
      intro p
      rw [← forall_mem_cons]
      exact ⟨fun h y hy => h y ((hmem y).mpr hy).1 ((hmem y).mpr hy).2,
        fun h y hy hid => h y ((hmem y).mp ⟨hy, hid⟩)⟩
    have hx := (hmem x).mp ⟨hx, hid⟩
    rw [htargets, if_congr hall rfl rfl]
    by_cases hagree : ∀ y ∈ rest, y.targets = x₀.targets
    · have hx₀ : x.targets = x₀.targets := by
        rcases mem_cons.mp hx with rfl | hx
        · rfl
        · exact hagree x hx
      rw [if_pos hagree, if_pos ⟨hx₀.symm, fun y hy => (hagree y hy).trans hx₀.symm⟩, hx₀]
    · rw [if_neg hagree, if_neg fun h => hagree fun y hy => (h.2 y hy).trans h.1.symm]

theorem Coalesced.origin (h : Coalesced xs zs) (hz : z ∈ zs) :
    ∃ x ∈ xs, x.occurrenceId = z.occurrenceId := by
  have hid := mem_map_of_mem (f := PreparedPlaceholderUpdate.occurrenceId) hz
  rwa [h.ids, mem_keys_firstByKey, mem_map] at hid

theorem Coalesced.present (h : Coalesced xs zs) (hx : x ∈ xs) :
    ∃ z ∈ zs, z.occurrenceId = x.occurrenceId := by
  have hid := mem_map_of_mem (f := PreparedPlaceholderUpdate.occurrenceId) hx
  rwa [← mem_keys_firstByKey, ← h.ids, mem_map] at hid

theorem Coalesced.subset (h : Coalesced xs zs) (hz : z ∈ zs) (hx : x ∈ xs)
    (hid : x.occurrenceId = z.occurrenceId) {i : ℤ} (hi : i ∈ z.targetClassIds) :
    i ∈ x.targetClassIds := by
  have hmem : i ∈ z.targets := mem_toFinset.mpr hi
  rw [h.targets z hz x hx hid] at hmem
  split_ifs at hmem
  · exact mem_toFinset.mp hmem
  · simp at hmem

theorem exists_mergePlaceholder_iff : (∃ zs, xs.foldlM mergePlaceholder [] = .ok zs) ↔
      ∀ x ∈ xs, ∀ y ∈ xs, x.occurrenceId = y.occurrenceId → x.SamePlace y := by
  constructor
  · rintro ⟨zs, hzs⟩ x hx y hy hid
    have h := coalesced_of_fold hzs
    obtain ⟨z, hz, hzid⟩ := h.present hx
    have hzx := h.place z hz x hx hzid.symm
    exact hzx.symm.trans (h.place z hz y hy (hid.symm.trans hzid.symm))
  · intro h
    rw [mergePlaceholder_eq]
    apply exists_foldlM_mergeInto combinePlaceholder_key
    intro k x rest hgroup
    have hmem : ∀ y ∈ x :: rest, y ∈ xs ∧ y.occurrenceId = k := fun y hy => by
      rwa [← hgroup, mem_filter, decide_eq_true_eq] at hy
    obtain ⟨hx, hxk⟩ := hmem x mem_cons_self
    apply exists_foldlM_combinePlaceholder
    intro y hy
    obtain ⟨hyxs, hyk⟩ := hmem y (mem_cons_of_mem _ hy)
    exact h x hx y hyxs (hxk.trans hyk.symm)

variable {prepared prepared' : PreparedChainProjection}

theorem coalescePlaceholderUpdates_eq_ok :
    coalescePlaceholderUpdates prepared = .ok prepared' ↔
      ∃ zs, prepared.placeholderUpdates.foldlM mergePlaceholder [] = .ok zs ∧
        prepared' = { prepared with placeholderUpdates := zs } := by
  rw [coalescePlaceholderUpdates, bind_eq_ok]
  simp only [Except.ok.injEq, eq_comm]

theorem coalescePlaceholderUpdates_spec (h : coalescePlaceholderUpdates prepared = .ok prepared') :
    prepared'.parentEdges = prepared.parentEdges ∧
      prepared'.hierarchyEdges = prepared.hierarchyEdges ∧
      Coalesced prepared.placeholderUpdates prepared'.placeholderUpdates := by
  obtain ⟨zs, hzs, rfl⟩ := coalescePlaceholderUpdates_eq_ok.mp h
  exact ⟨rfl, rfl, coalesced_of_fold hzs⟩

/-- `coalesce_placeholder_updates` fails exactly if two updates of one occurrence are of
different places. Else it leaves one update for each occurrence, and the candidates of an
occurrence do not depend on the order of the updates. -/
theorem coalescePlaceholderUpdates_groups (prepared : PreparedChainProjection) :
    ((¬∃ prepared', coalescePlaceholderUpdates prepared = .ok prepared') ↔
      ∃ x ∈ prepared.placeholderUpdates, ∃ y ∈ prepared.placeholderUpdates,
        x.occurrenceId = y.occurrenceId ∧ (x.fileId ≠ y.fileId ∨ x.span ≠ y.span)) ∧
    ∀ prepared', coalescePlaceholderUpdates prepared = .ok prepared' →
      Coalesced prepared.placeholderUpdates prepared'.placeholderUpdates ∧
      ∀ other, other.placeholderUpdates.Perm prepared.placeholderUpdates →
        ∃ other', coalescePlaceholderUpdates other = .ok other' ∧
          ∀ z ∈ prepared'.placeholderUpdates, ∃ w ∈ other'.placeholderUpdates,
            w.occurrenceId = z.occurrenceId ∧ w.targets = z.targets := by
  have hok : ∀ prepared : PreparedChainProjection,
      (∃ prepared', coalescePlaceholderUpdates prepared = .ok prepared') ↔
        ∀ x ∈ prepared.placeholderUpdates, ∀ y ∈ prepared.placeholderUpdates,
          x.occurrenceId = y.occurrenceId → x.SamePlace y := by
    intro prepared
    rw [← exists_mergePlaceholder_iff]
    simp only [coalescePlaceholderUpdates_eq_ok]
    exact ⟨fun ⟨_, zs, h, _⟩ => ⟨zs, h⟩, fun ⟨zs, h⟩ => ⟨_, zs, h, rfl⟩⟩
  refine ⟨?_, fun prepared' h => ?_⟩
  · rw [hok]
    push Not
    simp only [PreparedPlaceholderUpdate.SamePlace, not_and_or]
  · have hplaces := (hok prepared).mp ⟨_, h⟩
    obtain ⟨zs, hzs, rfl⟩ := coalescePlaceholderUpdates_eq_ok.mp h
    have hcoalesced := coalesced_of_fold hzs
    refine ⟨hcoalesced, fun other hperm => ?_⟩
    obtain ⟨other', hother⟩ := (hok other).mpr fun x hx y hy =>
      hplaces x (hperm.mem_iff.mp hx) y (hperm.mem_iff.mp hy)
    refine ⟨other', hother, fun z hz => ?_⟩
    obtain ⟨ws, hws, rfl⟩ := coalescePlaceholderUpdates_eq_ok.mp hother
    have hcoalesced' := coalesced_of_fold hws
    obtain ⟨x, hx, hxz⟩ := hcoalesced.origin hz
    obtain ⟨w, hw, hwx⟩ := hcoalesced'.present (hperm.mem_iff.mpr hx)
    refine ⟨w, hw, hwx.trans hxz, ?_⟩
    rw [hcoalesced.targets z hz x hx hxz, hcoalesced'.targets w hw x (hperm.mem_iff.mpr hx) hwx.symm,
      hwx, hxz]
    simp only [hperm.mem_iff]

end Trufflepig.Resolver
