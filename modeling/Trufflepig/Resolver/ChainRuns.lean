import Trufflepig.Resolver.ChainBlocking

/-!
# What a run of `prepare` adds

A row is registered exactly if it has no issue and its base is not blocked; every other
row adds a projection without candidates. The chains of the registered rows follow, one
for each base.

* `prepareRun_spec`: the log of a run, and what the run prepares in terms of its log.
* `prepareRun_blocked`: a base with a metadata problem gives no parent edge and no
  candidates.
-/

namespace Trufflepig.Resolver

open List Lib

/-! ## Registered rows -/

def PendingRow.registers (blockedBases : List Bytes) (row : PendingRow) : Bool :=
  match row.base with
  | some base => row.metadataIssues = [] && classKey base ∉ blockedBases
  | none => false

variable {row : PendingRow} {rows : List PendingRow}

theorem PendingRow.registers_iff {blockedBases : List Bytes} :
    row.registers blockedBases ↔ row.metadataIssues = [] ∧
      ∃ base, row.base = some base ∧ classKey base ∉ blockedBases := by
  rw [PendingRow.registers.eq_def]
  cases row.base <;> simp

/-- The registration of a row that is registered. -/
def PendingRow.registration (row : PendingRow) : Registration RegistrationEvidence :=
  registrationOf row (row.base.getD []) (row.implementation.getD [])
    (row.extension.executeOrder.getD 0)

/-- What a row without issues of its own has. -/
structure PendingRow.Clean (row : PendingRow) : Prop where
  active : row.extension.active = some true
  order : ∃ order, row.extension.executeOrder = some order
  single : row.extension.duplicate = false
  implementation : ∃ implementation, row.implementation = some implementation

theorem clean_of_rowIssues (h : rowIssues row.extension row.base row.implementation = [])
    (hactive : row.extension.active ≠ some false) : row.Clean := by
  simp only [rowIssues, append_eq_nil_iff, ite_eq_right_iff, cons_ne_nil, imp_false,
    Bool.or_eq_true, Option.isNone_iff_eq_none, not_or] at h
  obtain ⟨⟨⟨hknown, horder⟩, hsingle⟩, -, himplementation⟩ := h
  refine ⟨?_, ?_, by simpa using hsingle, Option.ne_none_iff_exists'.mp himplementation⟩
  · obtain ⟨active, hsome⟩ := Option.ne_none_iff_exists'.mp hknown
    cases active with
    | true => exact hsome
    | false => exact absurd hsome hactive
  · cases hsome : row.extension.executeOrder with
    | none => simp [hsome] at horder
    | some order => exact ⟨order, rfl⟩

/-! ## The facts of a state -/

/-- What is prepared is what the log holds. -/
structure PrepareState.Logged (state : PrepareState) : Prop where
  parentEdges : state.prepared.parentEdges = state.log.flatMap fun part => part.2.parentEdges
  hierarchyEdges :
    state.prepared.hierarchyEdges = state.log.flatMap fun part => part.2.hierarchyEdges
  placeholderUpdates :
    state.prepared.placeholderUpdates = state.log.flatMap fun part => part.2.placeholderUpdates

variable {state state' : PrepareState}

/-- Only the occurrences of class names and the caches differ. -/
structure PrepareState.SameFacts (state state' : PrepareState) : Prop where
  registrations : state'.registrations = state.registrations
  byBase : state'.byBase = state.byBase
  log : state'.log = state.log
  logged : state.Logged → state'.Logged

theorem PrepareState.append_eq_ok {base : Option Bytes} {additions : PreparedChainProjection}
    (h : state.append base additions = .ok state') (hlogged : state.Logged) :
    state'.Logged ∧ state'.log = state.log ++ [(base, additions)] ∧
      state'.registrations = state.registrations ∧ state'.byBase = state.byBase := by
  obtain ⟨⟨prepared, used⟩, hcharge, rfl⟩ := map_eq_ok h
  obtain ⟨total, -, hcharge⟩ := bind_eq_ok.mp hcharge
  obtain ⟨rfl, rfl⟩ := Prod.mk.inj (Except.ok.inj hcharge)
  refine ⟨⟨?_, ?_, ?_⟩, rfl, rfl, rfl⟩
  · simp [hlogged.parentEdges]
  · simp [hlogged.hierarchyEdges]
  · simp [hlogged.placeholderUpdates]

theorem pushClassOccurrenceUpdate_eq_ok {pending : PendingRow} {role : ExtensionRole}
    {name : Bytes} {classIds : List ℤ} {truncated : Bool} {total : ℕ}
    (h : pushClassOccurrenceUpdate state pending role name classIds truncated total = .ok state') :
    state.SameFacts state' := by
  rw [pushClassOccurrenceUpdate.eq_def] at h
  dsimp only at h
  split_ifs at h
  all_goals
    obtain ⟨used, -, rfl⟩ := map_eq_ok h
    exact ⟨rfl, rfl, rfl, fun h => ⟨h.1, h.2, h.3⟩⟩

variable {context : ChainContext}

theorem pushBaseUpdate_eq_ok (h : pushBaseUpdate context state row = .ok state') :
    state.SameFacts state' := by
  rw [pushBaseUpdate.eq_def] at h
  cases hbase : row.base with
  | none =>
    rw [hbase] at h
    obtain rfl := Except.ok.inj h
    exact ⟨rfl, rfl, rfl, id⟩
  | some base =>
    rw [hbase] at h
    obtain ⟨⟨classes, lookups⟩, -, h⟩ := bind_eq_ok.mp h
    have hsame := pushClassOccurrenceUpdate_eq_ok h
    exact ⟨hsame.registrations, hsame.byBase, hsame.log, fun h => hsame.logged ⟨h.1, h.2, h.3⟩⟩

/-! ## The rows -/

variable {blockedBases : List Bytes}

theorem placeRow_registers {lookup : ImplementationLookup} (hclean : row.Clean)
    (hregisters : row.registers blockedBases)
    (h : placeRow blockedBases state row lookup = .ok state') :
    ∃ base, row.base = some base ∧
      state' = { state with
        registrations := state.registrations ++ [row.registration]
        byBase := pushIndex state.byBase (classKey base) state.registrations.length } := by
  obtain ⟨hissues, base, hbase, hkey⟩ := PendingRow.registers_iff.mp hregisters
  refine ⟨base, hbase, ?_⟩
  obtain ⟨order, horder⟩ := hclean.order
  obtain ⟨implementation, himplementation⟩ := hclean.implementation
  have hregister : placeRow blockedBases state row lookup = registerRow state row base := by
    rw [placeRow.eq_def, hbase]
    exact if_neg (by simp [hissues, hkey])
  rw [hregister, registerRow.eq_def, horder] at h
  dsimp only at h
  rw [if_neg (by simp [hclean.active, hclean.single]), himplementation] at h
  rw [← Except.ok.inj h, PendingRow.registration, hbase, himplementation, horder]
  rfl

theorem placeRow_blocked (state : PrepareState) (lookup : ImplementationLookup)
    (hblocked : row.registers blockedBases = false) :
    ∃ reasons, placeRow blockedBases state row lookup =
      state.append (row.base.map classKey) (blockedProjection row reasons lookup) := by
  rw [PendingRow.registers.eq_def] at hblocked
  rw [placeRow.eq_def]
  cases hbase : row.base with
  | none => exact ⟨_, rfl⟩
  | some base =>
    rw [hbase] at hblocked
    refine ⟨_, if_pos ?_⟩
    simp only [Bool.and_eq_false_iff, decide_eq_false_iff_not, not_not] at hblocked
    rcases hblocked with hissues | hkey
    · simp [hissues]
    · simp [hkey]

/-- The base key of a registration. -/
def baseKeyAt (registrations : List (Registration RegistrationEvidence)) (k : ℕ) : Option Bytes :=
  registrations[k]?.map Registration.base

/-- What a row that is not registered has added. -/
def BlockedPart (part : Option Bytes × PreparedChainProjection) : Prop :=
  ∃ row reasons lookup,
    part = (PendingRow.base row |>.map classKey, blockedProjection row reasons lookup)

/-- The loop over the rows after some of them. -/
structure Placed (blockedBases : List Bytes) (passed : List PendingRow) (state : PrepareState) :
    Prop where
  logged : state.Logged
  parts : ∀ part ∈ state.log, BlockedPart part
  registrations : state.registrations =
    (passed.filter (PendingRow.registers blockedBases)).map PendingRow.registration
  byBase : state.byBase =
    groupBy (baseKeyAt state.registrations) (List.range state.registrations.length)

theorem Placed.step {passed : List PendingRow} (h : Placed blockedBases passed state)
    (hclean : row.registers blockedBases → row.Clean)
    (hstep : prepareRow context blockedBases state row = .ok state') :
    Placed blockedBases (passed ++ [row]) state' := by
  obtain ⟨⟨lookup, lookups⟩, -, hstep⟩ := bind_eq_ok.mp hstep
  obtain ⟨state₁, hstate₁, hstep⟩ := bind_eq_ok.mp hstep
  obtain ⟨state₂, hstate₂, hstep⟩ := bind_eq_ok.mp hstep
  have hsame₁ := pushClassOccurrenceUpdate_eq_ok hstate₁
  have hsame₂ := pushBaseUpdate_eq_ok hstate₂
  have hsame : state.SameFacts state₂ :=
    ⟨hsame₂.registrations.trans hsame₁.registrations, hsame₂.byBase.trans hsame₁.byBase,
      hsame₂.log.trans hsame₁.log, fun h => hsame₂.logged (hsame₁.logged ⟨h.1, h.2, h.3⟩)⟩
  have hlogged₂ := hsame.logged h.logged
  have hparts : ∀ part ∈ state₂.log, BlockedPart part := hsame.log ▸ h.parts
  cases hregisters : row.registers blockedBases with
  | true =>
    obtain ⟨base, hbase, rfl⟩ := placeRow_registers (hclean hregisters) hregisters hstep
    have hrowBase : row.registration.base = classKey base := by
      rw [PendingRow.registration, hbase]
      rfl
    refine ⟨⟨hlogged₂.parentEdges, hlogged₂.hierarchyEdges, hlogged₂.placeholderUpdates⟩,
      hparts, ?_, ?_⟩
    · rw [filter_append, filter_cons_of_pos hregisters, map_append, ← h.registrations,
        ← hsame.registrations]
      rfl
    · show pushIndex state₂.byBase (classKey base) state₂.registrations.length = _
      rw [hsame.byBase, hsame.registrations, h.byBase, ← hrowBase]
      exact (groupBy_getElem?_append Registration.base ..).symm
  | false =>
    obtain ⟨reasons, hplace⟩ := placeRow_blocked state₂ lookup hregisters
    rw [hplace] at hstep
    obtain ⟨hlogged, hlog, hregistrations, hbyBase⟩ := PrepareState.append_eq_ok hstep hlogged₂
    refine ⟨hlogged, ?_, ?_, ?_⟩
    · rw [hlog]
      exact forall_mem_append.mpr ⟨hparts, forall_mem_singleton.mpr ⟨row, reasons, lookup, rfl⟩⟩
    · rw [hregistrations, hsame.registrations, h.registrations, filter_append,
        filter_cons_of_neg (by simp [hregisters]), filter_nil, append_nil]
    · rw [hbyBase, hregistrations, hsame.byBase, hsame.registrations, h.byBase]

/-! ## The bases -/

/-- The chain of each base is added under its key. -/
theorem prepareBases_spec {entries : List (Bytes × List ℕ)} {start : PrepareState}
    (hlogged : start.Logged) (h : entries.foldlM prepareBase start = .ok state) :
    state.Logged ∧ ∀ part ∈ state.log, part ∈ start.log ∨ ∃ entry ∈ entries, part.1 = some entry.1 := by
  refine foldlM_invariant_passed (fun passed s => s.Logged ∧ ∀ part ∈ s.log, part ∈ start.log ∨
    ∃ entry ∈ passed, part.1 = some entry.1) ?_ ⟨hlogged, fun _ hpart => .inl hpart⟩ h
  rintro passed entry rest - s s' ⟨hs, hparts⟩ hstep
  obtain ⟨additions, -, hstep⟩ := bind_eq_ok.mp hstep
  obtain ⟨hs', hlog, -, -⟩ := PrepareState.append_eq_ok hstep hs
  refine ⟨hs', fun part hpart => ?_⟩
  rw [hlog] at hpart
  rcases mem_append.mp hpart with hpart | hpart
  · refine (hparts part hpart).imp_right fun ⟨entry, hentry, hkey⟩ => ?_
    exact ⟨entry, mem_append_left _ hentry, hkey⟩
  · exact .inr ⟨entry, by simp, by rw [mem_singleton.mp hpart]⟩

/-- The base of a row of a chain is not blocked. -/
theorem notMem_blockedBases_of_chain
    {registrations : List (Registration RegistrationEvidence)} {entry : Bytes × List ℕ}
    (hregistrations : registrations =
      (rows.filter (PendingRow.registers blockedBases)).map PendingRow.registration)
    (h : entry ∈ groupBy (baseKeyAt registrations) (List.range registrations.length)) :
    entry.1 ∉ blockedBases := by
  obtain ⟨k, -, hk⟩ := exists_of_mem_keys (mem_map_of_mem h)
  rw [baseKeyAt, hregistrations, getElem?_map, Option.map_map] at hk
  obtain ⟨row, hrow, hbase⟩ := Option.map_eq_some_iff.mp hk
  obtain ⟨-, base, hsome, hfree⟩ :=
    PendingRow.registers_iff.mp (mem_filter.mp (mem_of_getElem? hrow)).2
  have hkey : entry.1 = classKey base := by
    rw [← hbase, Function.comp_apply, PendingRow.registration, hsome]
    rfl
  rwa [hkey]

/-! ## A whole run -/

/-- What is known of a run: what is prepared is what the rows that are not registered have added,
and the chains of bases that are not blocked. -/
structure RunFacts (context : ChainContext) (files : List ExtensionFile) (run : PrepareRun) :
    Prop where
  rows : BlockedRows context files ⟨run.rows, run.blockedBases⟩
  parentEdges : run.prepared.parentEdges = run.log.flatMap fun part => part.2.parentEdges
  hierarchyEdges : run.prepared.hierarchyEdges = run.log.flatMap fun part => part.2.hierarchyEdges
  placeholderUpdates : Coalesced (run.log.flatMap fun part => part.2.placeholderUpdates)
    run.prepared.placeholderUpdates
  log : ∀ part ∈ run.log, BlockedPart part ∨ ∃ key ∉ run.blockedBases, part.1 = some key

theorem prepareRun_spec {visit : VisitOrder} {files : List ExtensionFile} {used : ℕ}
    {run : PrepareRun} (h : prepareRun context visit files used = .ok run) :
    RunFacts context files run := by
  obtain ⟨⟨block, lookups⟩, hblock, h⟩ := bind_eq_ok.mp h
  have hrows := blockRows_spec hblock
  obtain ⟨state, hstate, h⟩ := bind_eq_ok.mp h
  obtain ⟨final, hfinal, h⟩ := bind_eq_ok.mp h
  obtain ⟨prepared, hprepared, h⟩ := bind_eq_ok.mp h
  obtain rfl := Except.ok.inj h
  have hclean : ∀ row ∈ block.rows, row.registers block.blockedBases → row.Clean := by
    intro row hrow hregisters
    obtain ⟨i, hi⟩ := mem_iff_getElem?.mp hrow
    apply clean_of_rowIssues
    · by_contra hissues
      obtain ⟨-, base, hbase, hkey⟩ := PendingRow.registers_iff.mp hregisters
      exact hkey (hrows.own i row hi hissues row hi base hbase)
    · have hentry : row.entry ∈ candidateRows files := hrows.rows ▸ mem_map_of_mem hrow
      exact of_decide_eq_true (mem_filter.mp hentry).2
  have hplaced : Placed block.blockedBases block.rows state := by
    refine foldlM_invariant_passed (Placed block.blockedBases) ?_ ?_ hstate
    · intro passed row rest hsplit s s' hs hstep
      have hrow : row ∈ block.rows := by rw [hsplit]; simp
      exact hs.step (hclean row hrow) hstep
    · exact ⟨⟨rfl, rfl, rfl⟩, by simp, rfl, rfl⟩
  obtain ⟨hlogged, hlog⟩ := prepareBases_spec hplaced.logged hfinal
  obtain ⟨hparents, hhierarchy, hcoalesced⟩ := coalescePlaceholderUpdates_spec hprepared
  refine ⟨hrows, hparents.trans hlogged.parentEdges, hhierarchy.trans hlogged.hierarchyEdges,
    hlogged.placeholderUpdates ▸ hcoalesced, fun part hpart => ?_⟩
  refine (hlog part hpart).imp (hplaced.parts part) fun ⟨entry, hentry, hkey⟩ => ?_
  rw [mem_insertionSort, hplaced.byBase] at hentry
  exact ⟨entry.1, notMem_blockedBases_of_chain hplaced.registrations hentry, hkey⟩

/-! ## Bases with a problem -/

/-- The class that a row claims under its proxy: both names are resolved, and one class
has the name of the implementation. -/
def claimedClass (context : ChainContext) (row : ClassExtension) : Option ℤ :=
  (canonicalizeClassName row.fromClass context.aliases).bind fun _ =>
    (canonicalizeClassName row.toClass context.aliases).bind fun implementation =>
      soleId (implementationCandidates context row.toClass (some implementation))

/-- The problems that the metadata of a row can have, row `i` of those that are not known
to be inactive. -/
inductive MetadataProblem (context : ChainContext) (rows : List ClassExtension) (i : ℕ)
    (row : ClassExtension) : Prop where
  | unknownActivity (h : row.active = none)
  | unknownOrder (h : row.executeOrder = none)
  | negativeOrder (order : ℤ) (horder : row.executeOrder = some order) (h : order < 0)
  | duplicate (h : row.duplicate = true)
  | unresolvedAlias (h : canonicalizeClassName row.fromClass context.aliases = none ∨
      canonicalizeClassName row.toClass context.aliases = none)
  | sharedProxy (j : ℕ) (other : ClassExtension) (hne : i ≠ j) (hother : rows[j]? = some other)
      (proxy proxy' : Bytes) (hproxy : expectedProxyName row.toClass = .ok proxy)
      (hproxy' : expectedProxyName other.toClass = .ok proxy')
      (h : classKey proxy = classKey proxy')
  | ambiguousBase (base : Bytes)
      (hbase : canonicalizeClassName row.fromClass context.aliases = some base)
      (h : 1 < (context.hierarchy.classCandidates base).length)
  | implementationIsBase (base implementation : Bytes)
      (hbase : canonicalizeClassName row.fromClass context.aliases = some base)
      (himplementation : canonicalizeClassName row.toClass context.aliases = some implementation)
      (fact target : PhpClassFact)
      (hfact : fact ∈ (implementationCandidates context row.toClass (some implementation)).take
        maxCandidates)
      (htarget : target ∈ (context.hierarchy.classCandidates base).take maxCandidates)
      (h : target.definitionId = fact.definitionId)
  | conflictingProxies (j : ℕ) (other : ClassExtension) (hother : rows[j]? = some other) (id : ℤ)
      (hclaim : claimedClass context row = some id)
      (hclaim' : claimedClass context other = some id) (proxy proxy' : Bytes)
      (hproxy : expectedProxyName row.toClass = .ok proxy)
      (hproxy' : expectedProxyName other.toClass = .ok proxy')
      (h : classKey proxy ≠ classKey proxy')

/-- The extensions that are not known to be inactive. -/
def candidateExtensions (files : List ExtensionFile) : List ClassExtension :=
  (candidateRows files).map fun entry => entry.2.2

section Problem

variable {context : ChainContext} {files : List ExtensionFile} {block : BlockState} {i : ℕ}

/-- The row of an extension, and its names. -/
theorem BlockedRows.exists_row (h : BlockedRows context files block) {extension : ClassExtension}
    (hi : (candidateExtensions files)[i]? = some extension) :
    ∃ row, block.rows[i]? = some row ∧ row.extension = extension ∧ row.Derived context.aliases := by
  rw [candidateExtensions, ← h.rows, map_map, getElem?_map] at hi
  obtain ⟨row, hrow, heq⟩ := Option.map_eq_some_iff.mp hi
  exact ⟨row, hrow, heq, h.derived row (mem_of_getElem? hrow)⟩

theorem proxyKeyAt_of_row {proxy : Bytes}
    {aliases : AliasSource} (hrow : rows[i]? = some row) (hderived : row.Derived aliases)
    (hproxy : expectedProxyName row.extension.toClass = .ok proxy) :
    proxyKeyAt rows i = some (classKey proxy) := by
  rw [proxyKeyAt, hrow, Option.map_some, ← Except.ok.inj (hproxy.symm.trans hderived.proxy)]

theorem ownerKey_of_claim {id : ℤ}
    (hrow : rows[i]? = some row) (hderived : row.Derived context.aliases)
    (h : claimedClass context row.extension = some id) : ownerKey context rows i = some id := by
  obtain ⟨base, hbase, h⟩ := Option.bind_eq_some_iff.mp h
  obtain ⟨implementation, himplementation, h⟩ := Option.bind_eq_some_iff.mp h
  rw [← hderived.base] at hbase
  rw [← hderived.implementation] at himplementation
  rw [ownerKey, hrow, Option.bind_some, hbase, himplementation, PendingRow.candidates,
    himplementation]
  exact h

theorem one_lt_baseClasses {base : Bytes} (h : 1 < (context.hierarchy.classCandidates base).length) :
    1 < (baseClasses context base).1.length := by
  simp only [baseClasses, length_take, length_map, maxCandidates]
  omega

/-- A problem of the metadata blocks the base. -/
theorem BlockedRows.blocks_of_problem (h : BlockedRows context files block)
    {extension : ClassExtension} (hi : (candidateExtensions files)[i]? = some extension)
    (hproblem : MetadataProblem context (candidateExtensions files) i extension) :
    block.Blocks i := by
  obtain ⟨row, hrow, rfl, hderived⟩ := h.exists_row hi
  have hown : ∀ reason, reason ∈ rowIssues row.extension row.base row.implementation →
      block.Blocks i := fun reason hreason => h.own i row hrow (ne_nil_of_mem hreason)
  cases hproblem with
  | unknownActivity hactive => exact hown .activeStateUnknown (by simp [rowIssues, hactive])
  | unknownOrder horder => exact hown .executeOrderUnknown (by simp [rowIssues, horder])
  | negativeOrder order horder hneg =>
    exact hown .executeOrderInvalidNegative (by simp [rowIssues, horder, hneg])
  | duplicate hduplicate => exact hown .duplicateDeclaration (by simp [rowIssues, hduplicate])
  | unresolvedAlias halias =>
    rw [← hderived.base, ← hderived.implementation] at halias
    exact hown .aliasSourceUnresolved (by simp [rowIssues, halias])
  | sharedProxy j other hne hother proxy proxy' hproxy hproxy' hkey =>
    obtain ⟨row', hrow', rfl, hderived'⟩ := h.exists_row hother
    exact h.shared i j hne (classKey proxy) (proxyKeyAt_of_row hrow hderived hproxy)
      (hkey ▸ proxyKeyAt_of_row hrow' hderived' hproxy')
  | ambiguousBase base hbase hmany =>
    rw [← hderived.base] at hbase
    cases himplementation : row.implementation with
    | none => exact hown .aliasSourceUnresolved (by simp [rowIssues, himplementation])
    | some implementation =>
      exact h.base i ⟨row, base, hrow, by rw [himplementation]; rfl, hbase,
        .inl (one_lt_baseClasses hmany)⟩
  | implementationIsBase base implementation hbase himplementation fact target hfact htarget hid =>
    rw [← hderived.base] at hbase
    rw [← hderived.implementation] at himplementation
    refine h.base i ⟨row, base, hrow, by rw [himplementation]; rfl, hbase,
      .inr (.inr ⟨fact, by rwa [PendingRow.candidates, himplementation], ?_⟩)⟩
    refine ⟨⟨target.definitionId, target.kind, target.role, target.complete, target.conditional⟩,
      ?_, hid⟩
    simp only [baseClasses, ← map_take, take_take, maxCandidates]
    exact mem_map_of_mem htarget
  | conflictingProxies j other hother id hclaim hclaim' proxy proxy' hproxy hproxy' hkey =>
    obtain ⟨row', hrow', rfl, hderived'⟩ := h.exists_row hother
    refine h.conflict i j id (ownerKey_of_claim hrow hderived hclaim)
      (ownerKey_of_claim hrow' hderived' hclaim') ?_
    rw [proxyKeyAt_of_row hrow hderived hproxy, proxyKeyAt_of_row hrow' hderived' hproxy']
    exact fun heq => hkey (Option.some.inj heq)

end Problem

/-! ## Projections without candidates -/

/-- The updates of the placeholder of an implementation. -/
theorem mem_placeholderUpdate {implementation : ImplementationClass} {targets : List ℤ}
    {provenance : Bytes} {update : PreparedPlaceholderUpdate}
    (h : update ∈ placeholderUpdate implementation targets provenance) :
    update.targetClassIds = targets ∧ update.provenance = provenance := by
  rw [placeholderUpdate.eq_def] at h
  cases hoccurrence : implementation.proxyOccurrence with
  | none => simp [hoccurrence] at h
  | some found =>
    rw [hoccurrence] at h
    obtain rfl := mem_singleton.mp h
    exact ⟨rfl, rfl⟩

/-- No parent edge and no candidates, and the placeholder updates say that they are
incomplete. -/
structure WithoutCandidates (projection : PreparedChainProjection) : Prop where
  parentEdges : projection.parentEdges = []
  hierarchyEdges : ∀ edge ∈ projection.hierarchyEdges, edge.candidateClassIds = [] ∧
    edge.status = .incomplete
  placeholderUpdates : ∀ update ∈ projection.placeholderUpdates, update.targetClassIds = [] ∧
    ascii ";incomplete" <:+ update.provenance

variable {projection : PreparedChainProjection}

theorem WithoutCandidates.addIncompleteProxyEdge (h : WithoutCandidates projection)
    (implementation : ImplementationClass) (row : PendingRow) (reason : Bytes) (tie : Option ℤ) :
    WithoutCandidates (addIncompleteProxyEdge projection implementation row reason [] tie) := by
  refine ⟨h.parentEdges, ?_, forall_mem_append.mpr ⟨h.placeholderUpdates, fun u hu => ?_⟩⟩
  · exact forall_mem_append.mpr ⟨h.hierarchyEdges, forall_mem_singleton.mpr ⟨rfl, rfl⟩⟩
  · split_ifs at hu
    · obtain ⟨htargets, hprovenance⟩ := mem_placeholderUpdate hu
      exact ⟨htargets, hprovenance ▸ suffix_append _ _⟩
    · exact absurd hu not_mem_nil

/-- A row that is not registered gives no candidates. -/
theorem blockedProjection_withoutCandidates (row : PendingRow) (reasons : List ChainReason)
    (lookup : ImplementationLookup) : WithoutCandidates (blockedProjection row reasons lookup) := by
  have hprojection : WithoutCandidates (lookup.classes.foldl (fun projection implementation =>
      addIncompleteProxyEdge projection implementation row
        (joinReasons (reasons ++ proxyReadinessIssues implementation row.expectedProxy)) [] none)
      emptyProjection) := by
    refine foldlRecOn _ _ ⟨rfl, ?_, ?_⟩ fun _ h c _ => h.addIncompleteProxyEdge c row _ none
    all_goals exact forall_mem_nil _
  rw [blockedProjection]
  split_ifs
  · exact ⟨hprojection.parentEdges, hprojection.hierarchyEdges, hprojection.placeholderUpdates⟩
  · exact hprojection

/-! ## All or nothing -/

/-- If a row of a base has a problem, then no row of the base gives a parent edge, and the
hierarchy edges and placeholder updates for the base have no candidates. The log says
for which base the edges and updates of a run were made. -/
theorem prepareRun_blocked {context : ChainContext} {visit : VisitOrder}
    {files : List ExtensionFile} {used : ℕ} {run : PrepareRun}
    (h : prepareRun context visit files used = .ok run) {i : ℕ} {row : ClassExtension}
    (hrow : (candidateExtensions files)[i]? = some row) {base : Bytes}
    (hbase : canonicalizeClassName row.fromClass context.aliases = some base)
    (hproblem : MetadataProblem context (candidateExtensions files) i row) :
    run.prepared.parentEdges = run.log.flatMap (fun part => part.2.parentEdges) ∧
    run.prepared.hierarchyEdges = run.log.flatMap (fun part => part.2.hierarchyEdges) ∧
    (∀ update ∈ run.prepared.placeholderUpdates, ∃ part ∈ run.log,
      ∃ origin ∈ part.2.placeholderUpdates, origin.occurrenceId = update.occurrenceId) ∧
    ∀ part ∈ run.log, part.1 = some (classKey base) →
      part.2.parentEdges = [] ∧
      (∀ edge ∈ part.2.hierarchyEdges, edge.candidateClassIds = [] ∧ edge.status = .incomplete) ∧
      (∀ origin ∈ part.2.placeholderUpdates, origin.targetClassIds = [] ∧
        ascii ";incomplete" <:+ origin.provenance) ∧
      ∀ origin ∈ part.2.placeholderUpdates, ∀ update ∈ run.prepared.placeholderUpdates,
        update.occurrenceId = origin.occurrenceId → update.targetClassIds = [] := by
  have hfacts := prepareRun_spec h
  have hblocked : classKey base ∈ run.blockedBases := by
    obtain ⟨pending, hpending, heq, hderived⟩ := hfacts.rows.exists_row hrow
    exact hfacts.rows.blocks_of_problem hrow hproblem pending hpending base
      (hderived.base.trans (heq ▸ hbase))
  refine ⟨hfacts.parentEdges, hfacts.hierarchyEdges, ?_, ?_⟩
  · intro update hupdate
    obtain ⟨origin, horigin, hid⟩ := hfacts.placeholderUpdates.origin hupdate
    obtain ⟨part, hpart, horigin⟩ := mem_flatMap.mp horigin
    exact ⟨part, hpart, origin, horigin, hid⟩
  · intro part hpart hkey
    rcases hfacts.log part hpart with ⟨pending, reasons, lookup, rfl⟩ | ⟨key, hfree, hkey'⟩
    · -- what a row that is not registered adds has no candidates
      have hnone := blockedProjection_withoutCandidates pending reasons lookup
      refine ⟨hnone.parentEdges, hnone.hierarchyEdges, hnone.placeholderUpdates,
        fun origin horigin update hupdate hid => ?_⟩
      · -- The candidates of a merged update are candidates of every update of the occurrence.
        apply eq_nil_iff_forall_not_mem.mpr
        intro x hx
        have hmem := hfacts.placeholderUpdates.subset hupdate
          (mem_flatMap.mpr ⟨_, hpart, horigin⟩) hid.symm hx
        rw [(hnone.placeholderUpdates origin horigin).1] at hmem
        exact not_mem_nil hmem
    · rw [hkey', Option.some.injEq] at hkey
      exact absurd (hkey ▸ hblocked) hfree

/-- A row of a class that extends `A`, at a place of the file. -/
def extensionOf (toClass : Bytes) (valid : validClassName toClass) (place : ℕ)
    (active : Option Bool) : ClassExtension where
  fromClass := ascii "A"
  fromSpan := ⟨place, place + 1⟩
  toClass := toClass
  toSpan := ⟨place + 2, place + 3⟩
  tagSpan := ⟨place, place + 4⟩
  active := active
  executeOrder := some place
  duplicate := false
  fromClass_valid := by decide
  toClass_valid := valid

/-- A sound row of `B`, and a row of `C` whose activity is not known. -/
def twoRows : ExtensionFile :=
  ⟨9, [extensionOf (ascii "B") (by decide) 10 (some true),
    extensionOf (ascii "C") (by decide) 20 none]⟩

/-- The classes `A`, `B` and `C`, of which the last two extend their proxies. -/
def proxyContext : ChainContext :=
  let fact := fun (id : ℤ) (name : Bytes) =>
    (⟨id, id, name, some name, .class, .ordinary, true, false, false, false⟩ : PhpClassFact)
  let parent := fun (id : ℤ) (proxy : Bytes) =>
    (⟨id, proxy, some proxy, none, 8, 14, .xfcpProxy, [], .missing, false, none, none⟩ :
      PhpParentCandidate)
  let occurrence := fun id : ℤ => (⟨id, id, 8, 14, ascii "type", ascii "php_fqcn"⟩ : Occurrence)
  ⟨[occurrence 2, occurrence 3],
    fromFacts [fact 1 (ascii "A"), fact 2 (ascii "B"), fact 3 (ascii "C")] []
      [parent 2 (ascii "XFCP_B"), parent 3 (ascii "XFCP_C")], ⟨[], [], []⟩⟩

/-- The base that a part of a log is for, and the occurrences that it updates. -/
def updatedOccurrences (part : Option Bytes × PreparedChainProjection) : Option Bytes × List ℤ :=
  (part.1, part.2.placeholderUpdates.map fun update => update.occurrenceId)

/-- Both rows give an update of the occurrence of their proxy, and neither gives a parent edge or a
target. -/
theorem prepareRun_blocked_unknownActivity :
    ∃ run, prepareRun proxyContext ⟨.id _, .id _⟩ [twoRows] 0 = .ok run ∧
      run.log.map updatedOccurrences = [(some (ascii "a"), [2]), (some (ascii "a"), [3])] ∧
      run.prepared.parentEdges = [] ∧
      ∀ part ∈ run.log, ∀ origin ∈ part.2.placeholderUpdates, origin.targetClassIds = [] := by
  have hok : (prepareRun proxyContext ⟨.id _, .id _⟩ [twoRows] 0).map
      (fun run => run.log.map updatedOccurrences) =
        .ok [(some (ascii "a"), [2]), (some (ascii "a"), [3])] := by decide +kernel
  obtain ⟨run, hrun, hlog⟩ := map_eq_ok hok
  obtain ⟨hedges, -, -, hparts⟩ := prepareRun_blocked hrun (i := 1) rfl rfl (.unknownActivity rfl)
  have hkey : ∀ part ∈ run.log, part.1 = some (ascii "a") := by
    intro part hpart
    have hmem := mem_map_of_mem (f := updatedOccurrences) hpart
    rw [hlog, mem_cons, mem_singleton] at hmem
    exact hmem.elim (congrArg Prod.fst) (congrArg Prod.fst)
  refine ⟨run, hrun, hlog, ?_, fun part hpart origin horigin => ?_⟩
  · rw [hedges, flatMap_eq_nil_iff]
    exact fun part hpart => (hparts part hpart (hkey part hpart)).1
  · exact ((hparts part hpart (hkey part hpart)).2.2.1 origin horigin).1

end Trufflepig.Resolver
