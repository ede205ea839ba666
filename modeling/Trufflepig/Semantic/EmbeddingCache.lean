import Trufflepig.Lib.Encoding
import Trufflepig.Lib.Recency
import Trufflepig.Lib.Sorting

/-!
# The cache of embeddings

Model of `put_many` (`src/semantic/embedding_cache.rs`), its callees, and runs of
it. The two tables and the clock are the state; a call that fails leaves it as it is, since it
fails before its transaction. Rows stand in the order in which they were inserted. The pages that
the database may use are left out, as is the overflow of the clock.

* `deduplicateLatest_eq`: the batch without the writes that it replaces itself.
* `Holds`: the rows are the most recent writes of a history, the oldest first.
* `putMany_holds`: a call keeps it, with its entries at the end of the history.
* `putMany_most_recent`: the contents after any sequence of calls.
-/

namespace Trufflepig.Semantic

open List Lib

/-! ## Vectors -/

/-- `DIMENSIONS`. -/
def dimensions : ℕ := 768

/-- `struct Embedding` (`semantic.rs`). -/
structure Embedding where
  values : List Float32
  length : values.length = dimensions

inductive CacheError where
  | batchTooLarge | invalidEmbedding | zeroVector
  deriving DecidableEq, Repr

/-- The message of an error. -/
def CacheError.message : CacheError → String
  | batchTooLarge => "embedding cache batch exceeds 4096 entries"
  | invalidEmbedding => "invalid_embedding: expected 768 finite f32 values"
  | zeroVector => "invalid_embedding: zero vector"

/-- `f64::EPSILON`. -/
def epsilon : Float := 2.220446049250313e-16

/-- `Embedding::from_values` (`semantic.rs`). -/
def fromValues (values : List Float32) : Except CacheError (List Float32) :=
  if values.length ≠ dimensions ∨ values.any fun v => !v.isFinite then .error .invalidEmbedding
  else
    let norm := ((values.map fun v : Float32 => v.toFloat * v.toFloat).foldl (· + ·) (-0.0)).sqrt
    if norm ≤ epsilon then .error .zeroVector
    else .ok (values.map fun v => (v.toFloat / norm).toFloat32)

/-- `encode` (`cache_format.rs`): the normalized values, four bytes each. -/
def encodeVector (vector : Embedding) : Except CacheError Bytes := do
  let normalized ← fromValues vector.values
  return normalized.flatMap fun v => leBytes 4 v.toBits.toNat

/-! ## Tables -/

/-- A row of `embeddings`. -/
structure EmbeddingRow where
  key : Bytes
  vector : Bytes
  touched : ℤ

/-- A row of `embedding_provenance`; the columns that are the same for all rows are left out. -/
structure ProvenanceRow where
  key : Bytes

/-- The database. -/
structure CacheTables where
  embeddings : List EmbeddingRow
  provenance : List ProvenanceRow
  tick : ℤ

/-- A database with its schema only. -/
def CacheTables.empty : CacheTables := ⟨[], [], 0⟩

/-! ## Writing -/

/-- `MAX_BATCH_ENTRIES`. -/
def maxBatchEntries : ℕ := 4096

/-- `struct CacheWrite`. -/
structure CacheWrite where
  key : Bytes
  bytes : Bytes

/-- The loop over the entries (in `put_many`). -/
def gatherWrites (writes : List CacheWrite) : List (Bytes × Embedding) → Except CacheError (List CacheWrite)
  | [] => .ok writes
  | (key, vector) :: entries =>
    if writes.length = maxBatchEntries then .error .batchTooLarge
    else do
      let bytes ← encodeVector vector
      gatherWrites (writes ++ [⟨key, bytes⟩]) entries

/-- The loop of `deduplicate_latest`: `stack` has the last write first. -/
def popLatest (seen : List Bytes) (unique : List CacheWrite) : List CacheWrite → List CacheWrite
  | [] => unique
  | write :: stack =>
    if write.key ∈ seen then popLatest seen unique stack
    else popLatest (write.key :: seen) (unique ++ [write]) stack

/-- `deduplicate_latest`. -/
def deduplicateLatest (writes : List CacheWrite) : List CacheWrite :=
  (popLatest [] [] writes.reverse).reverse

/-- The order of `ORDER BY touched,key`. -/
def touchedOrder (a b : EmbeddingRow) : Ordering :=
  compareLex (compareOn EmbeddingRow.touched) (compareOn EmbeddingRow.key) a b

/-- The keys of the oldest rows. -/
def oldestKeys (rows : List EmbeddingRow) (limit : ℕ) : List Bytes :=
  ((rows.mergeSort fun a b => (touchedOrder a b).isLE).take limit).map EmbeddingRow.key

/-- One round of the loop over the writes: `INSERT OR REPLACE` in both tables. -/
def insertWrite (tick : ℤ) (count : ℕ) (tables : CacheTables) (write : CacheWrite × ℕ) :
    CacheTables :=
  let touched := tick - (count - write.2 - 1 : ℕ)
  { tables with
    embeddings := tables.embeddings.filter (fun row => row.key ≠ write.1.key) ++
      [⟨write.1.key, write.1.bytes, touched⟩]
    provenance := tables.provenance.filter (fun row => row.key ≠ write.1.key) ++ [⟨write.1.key⟩] }

section

variable (maxEntries : ℕ) (writes : List CacheWrite) (tables : CacheTables)

/-- The rows of the writes are deleted; the chunks of the statements are left out. -/
def deleteReplaced : CacheTables :=
  { tables with
    embeddings := tables.embeddings.filter fun row => row.key ∉ writes.map CacheWrite.key
    provenance := tables.provenance.filter fun row => row.key ∉ writes.map CacheWrite.key }

/-- The oldest rows are deleted until the writes have room. -/
def evictOldest : CacheTables :=
  let required := tables.embeddings.length + writes.length - maxEntries
  if required > 0 then
    let evicted := oldestKeys tables.embeddings required
    let kept := tables.embeddings.filter fun row => row.key ∉ evicted
    { tables with
      embeddings := kept
      provenance := tables.provenance.filter fun row => row.key ∈ kept.map EmbeddingRow.key }
  else tables

/-- The transaction of `put_many`. -/
def putWrites : CacheTables :=
  let tables := evictOldest maxEntries writes (deleteReplaced writes tables)
  let tick := tables.tick + writes.length
  writes.zipIdx.foldl (insertWrite tick writes.length) { tables with tick := tick }

end

/-- `put_many`. -/
def putMany (maxEntries : ℕ) (tables : CacheTables) (entries : List (Bytes × Embedding)) :
    Except CacheError CacheTables := do
  let writes ← gatherWrites [] entries
  if writes = [] then return tables
  else
    let writes := deduplicateLatest writes
    let keep := min maxEntries writes.length
    return putWrites maxEntries (writes.drop (writes.length - keep)) tables

/-! ## Batches -/

theorem popLatest_eq (seen : List Bytes) (unique stack : List CacheWrite) :
    popLatest seen unique stack =
      unique ++ (firstByKey CacheWrite.key stack).filter fun write => write.key ∉ seen := by
  induction stack generalizing seen unique with
  | nil => simp [popLatest, firstByKey]
  | cons write stack ih =>
    rw [popLatest, firstByKey]
    split_ifs with hseen
    · rw [ih, filter_cons_of_neg (by simpa using hseen), filter_filter]
      congr 1
      refine filter_congr fun other _ => ?_
      -- what was seen already is no longer in the list
      by_cases hother : other.key = write.key
      · simp [hother, hseen]
      · simp [hother]
    · rw [ih, filter_cons_of_pos (by simpa using hseen), filter_filter, append_assoc]
      congr 1
      refine congrArg (write :: ·) (filter_congr fun other _ => ?_)
      simp [Bool.and_comm]

theorem deduplicateLatest_eq (writes : List CacheWrite) :
    deduplicateLatest writes = (firstByKey CacheWrite.key writes.reverse).reverse := by
  rw [deduplicateLatest, popLatest_eq]
  simp

/-- The writes that a call keeps, the most recent first. -/
theorem reverse_kept (maxEntries : ℕ) (writes : List CacheWrite) :
    ((deduplicateLatest writes).drop ((deduplicateLatest writes).length -
        min maxEntries (deduplicateLatest writes).length)).reverse =
      recent CacheWrite.key maxEntries writes := by
  rw [deduplicateLatest_eq, reverse_drop, reverse_reverse, length_reverse, recent, take_eq_take_iff]
  omega

/-! ## Rows -/

/-- What a row holds. -/
def EmbeddingRow.content (row : EmbeddingRow) : CacheWrite := ⟨row.key, row.vector⟩

/-- The tables hold the most recent writes of a history, the oldest row first. -/
structure Holds (maxEntries : ℕ) (history : List CacheWrite) (tables : CacheTables) : Prop where
  contents : (tables.embeddings.map EmbeddingRow.content).reverse =
    recent CacheWrite.key maxEntries history
  ordered : tables.embeddings.Pairwise fun a b => a.touched < b.touched
  stamped : ∀ row ∈ tables.embeddings, row.touched ≤ tables.tick
  provenance : ∀ key, key ∈ tables.provenance.map ProvenanceRow.key ↔
    key ∈ tables.embeddings.map EmbeddingRow.key

theorem holds_empty (maxEntries : ℕ) : Holds maxEntries [] .empty where
  contents := by simp [CacheTables.empty, recent, firstByKey]
  ordered := .nil
  stamped row hrow := absurd hrow not_mem_nil
  provenance key := Iff.rfl

variable {maxEntries : ℕ} {history : List CacheWrite} {tables : CacheTables}

theorem Holds.nodup (h : Holds maxEntries history tables) :
    (tables.embeddings.map EmbeddingRow.key).Nodup := by
  have hnodup : ((recent CacheWrite.key maxEntries history).map CacheWrite.key).Nodup :=
    nodup_recent maxEntries history
  rw [← h.contents, map_reverse, map_map, nodup_reverse] at hnodup
  exact hnodup

instance : Std.TransCmp touchedOrder :=
  inferInstanceAs (Std.TransCmp (compareLex (compareOn EmbeddingRow.touched)
    (compareOn EmbeddingRow.key)))

theorem oldestKeys_eq {rows : List EmbeddingRow}
    (h : rows.Pairwise fun a b => a.touched < b.touched) (limit : ℕ) :
    oldestKeys rows limit = (rows.take limit).map EmbeddingRow.key := by
  have hsort : (rows.mergeSort fun a b => (touchedOrder a b).isLE) = rows := by
    refine sortByCmp_eq_of_perm (.refl _) (h.imp fun {a b} hlt => ?_)
    rw [touchedOrder, compareLex, compareOn, Int.compare_eq_lt.mpr hlt]
    rfl
  rw [oldestKeys, hsort]

/-- Without the rows that have the first keys, the others remain. -/
theorem filter_notMem_take {rows : List EmbeddingRow} (h : (rows.map EmbeddingRow.key).Nodup)
    (limit : ℕ) :
    (rows.filter fun row => row.key ∉ (rows.take limit).map EmbeddingRow.key) =
      rows.drop limit := by
  have hsplit := take_append_drop limit rows
  have hfilter := congrArg (List.filter fun row =>
    decide (row.key ∉ (rows.take limit).map EmbeddingRow.key)) hsplit
  rw [← hsplit, map_append, nodup_append] at h
  rw [← hfilter, filter_append, filter_eq_nil_iff.mpr, nil_append]
  · refine filter_eq_self.mpr fun row hrow => decide_eq_true fun hmem => ?_
    exact h.2.2 row.key hmem row.key (mem_map_of_mem hrow) rfl
  · intro row hrow hnot
    exact of_decide_eq_true hnot (mem_map_of_mem hrow)

variable {writes : List CacheWrite}

/-- The oldest rows go until the writes have room. -/
theorem evictOldest_embeddings
    (hordered : tables.embeddings.Pairwise fun a b => a.touched < b.touched)
    (hnodup : (tables.embeddings.map EmbeddingRow.key).Nodup) :
    (evictOldest maxEntries writes tables).embeddings =
      tables.embeddings.drop (tables.embeddings.length + writes.length - maxEntries) := by
  unfold evictOldest
  dsimp only
  split_ifs with hrequired
  · show (tables.embeddings.filter fun row => row.key ∉ oldestKeys tables.embeddings _) = _
    rw [oldestKeys_eq hordered, filter_notMem_take hnodup]
  · rw [Nat.le_zero.mp (Nat.le_of_not_lt hrequired), drop_zero]

/-- The provenance has the keys of the rows. -/
def CacheTables.Paired (tables : CacheTables) : Prop :=
  ∀ key, key ∈ tables.provenance.map ProvenanceRow.key ↔ key ∈ tables.embeddings.map EmbeddingRow.key

theorem evictOldest_spec (maxEntries : ℕ) (writes : List CacheWrite) (tables : CacheTables) :
    (evictOldest maxEntries writes tables).tick = tables.tick ∧
    (evictOldest maxEntries writes tables).embeddings <+ tables.embeddings ∧
    (tables.Paired → (evictOldest maxEntries writes tables).Paired) := by
  unfold evictOldest
  dsimp only
  split_ifs
  · refine ⟨rfl, filter_sublist, fun h key => ⟨fun hkey => ?_, fun hkey => ?_⟩⟩
    · obtain ⟨row, hrow, rfl⟩ := mem_map.mp hkey
      exact of_decide_eq_true (mem_filter.mp hrow).2
    · -- a key that is kept is a key of the table, so it has its provenance
      have hold : key ∈ tables.embeddings.map EmbeddingRow.key :=
        (filter_sublist.map EmbeddingRow.key).subset hkey
      obtain ⟨row, hrow, rfl⟩ := mem_map.mp ((h key).mpr hold)
      exact mem_map_of_mem (mem_filter.mpr ⟨hrow, decide_eq_true hkey⟩)
  · exact ⟨rfl, .refl _, id⟩

/-! ## Inserts -/

/-- Writes with keys of their own are appended to both tables. -/
theorem foldl_insertWrite (tick : ℤ) (count : ℕ) {writes : List (CacheWrite × ℕ)}
    (hnodup : (writes.map fun write => write.1.key).Nodup)
    (hrows : ∀ row ∈ tables.embeddings, row.key ∉ writes.map fun write => write.1.key)
    (hprovenance : ∀ row ∈ tables.provenance, row.key ∉ writes.map fun write => write.1.key) :
    writes.foldl (insertWrite tick count) tables =
      { tables with
        embeddings := tables.embeddings ++ writes.map fun write =>
          ⟨write.1.key, write.1.bytes, tick - (count - write.2 - 1 : ℕ)⟩
        provenance := tables.provenance ++ writes.map fun write => ⟨write.1.key⟩ } := by
  induction writes generalizing tables with
  | nil => simp
  | cons write writes ih =>
    rw [map_cons, nodup_cons] at hnodup
    have hembeddings : (tables.embeddings.filter fun row => row.key ≠ write.1.key) =
        tables.embeddings := by
      refine filter_eq_self.mpr fun row hrow => decide_eq_true fun heq => ?_
      exact hrows row hrow (by rw [heq]; exact mem_cons_self)
    have hkeys : (tables.provenance.filter fun row => row.key ≠ write.1.key) =
        tables.provenance := by
      refine filter_eq_self.mpr fun row hrow => decide_eq_true fun heq => ?_
      exact hprovenance row hrow (by rw [heq]; exact mem_cons_self)
    rw [foldl_cons, insertWrite, hembeddings, hkeys, ih hnodup.2]
    · simp
    · exact forall_mem_append.mpr ⟨fun row hrow hmem => hrows row hrow (mem_cons_of_mem _ hmem),
        forall_mem_singleton.mpr hnodup.1⟩
    · exact forall_mem_append.mpr ⟨fun row hrow hmem => hprovenance row hrow
        (mem_cons_of_mem _ hmem), forall_mem_singleton.mpr hnodup.1⟩

/-! ## One call -/

/-- The contents of the rows with other keys. -/
theorem content_filter (keys : List Bytes) (rows : List EmbeddingRow) :
    (rows.filter fun row => row.key ∉ keys).map EmbeddingRow.content =
      (rows.map EmbeddingRow.content).filter fun write => write.key ∉ keys := by
  rw [filter_map]
  rfl

theorem CacheTables.Paired.deleteReplaced (h : tables.Paired) (writes : List CacheWrite) :
    (deleteReplaced writes tables).Paired := by
  intro key
  have hkeys : ∀ {α : Type} (keyOf : α → Bytes) (rows : List α),
      (rows.filter fun row => keyOf row ∉ writes.map CacheWrite.key).map keyOf =
        (rows.map keyOf).filter fun key => key ∉ writes.map CacheWrite.key := by
    intro α keyOf rows
    rw [filter_map]
    rfl
  show key ∈ (tables.provenance.filter _).map _ ↔ key ∈ (tables.embeddings.filter _).map _
  rw [hkeys, hkeys, mem_filter, mem_filter, h]

/-- The tables before the inserts hold no key of a write. -/
theorem key_notMem_of_evicted {key : Bytes}
    (hkey : key ∈ (evictOldest maxEntries writes (deleteReplaced writes tables)).embeddings.map
      EmbeddingRow.key) : key ∉ writes.map CacheWrite.key := by
  obtain ⟨row, hrow, rfl⟩ := mem_map.mp (((evictOldest_spec ..).2.1.map _).subset hkey)
  exact of_decide_eq_true (mem_filter.mp hrow).2

section

variable (tick : ℤ) (writes : List CacheWrite)

/-- The rows that a batch adds. -/
def batchRows : List EmbeddingRow :=
  writes.zipIdx.map fun write =>
    ⟨write.1.key, write.1.bytes, tick + writes.length - (writes.length - write.2 - 1 : ℕ)⟩

theorem content_batchRows : (batchRows tick writes).map EmbeddingRow.content = writes := by
  rw [batchRows, map_map]
  exact zipIdx_map_fst 0 writes

theorem key_batchRows :
    (batchRows tick writes).map EmbeddingRow.key = writes.map CacheWrite.key := by
  conv_rhs => rw [← content_batchRows tick writes, map_map]
  rfl

/-- The rows of a batch are stamped one after another, behind the clock. -/
theorem touched_batchRows : (batchRows tick writes).Pairwise (fun a b => a.touched < b.touched) ∧
      ∀ row ∈ batchRows tick writes, tick < row.touched ∧ row.touched ≤ tick + writes.length := by
  constructor
  · have hindex : (writes.zipIdx.map Prod.snd).Pairwise (· < ·) := by
      rw [zipIdx_map_snd]
      exact pairwise_lt_range'
    rw [batchRows, pairwise_map]
    refine (pairwise_map.mp hindex).imp_of_mem fun {a b} ha hb hlt => ?_
    have hbound := snd_lt_of_mem_zipIdx hb
    dsimp only
    omega
  · intro row hrow
    obtain ⟨write, hwrite, rfl⟩ := mem_map.mp hrow
    have hbound := snd_lt_of_mem_zipIdx hwrite
    dsimp only
    omega

end

theorem putWrites_eq (hnodup : (writes.map CacheWrite.key).Nodup) (hprovenance : tables.Paired) :
    putWrites maxEntries writes tables =
      { embeddings := (evictOldest maxEntries writes (deleteReplaced writes tables)).embeddings ++
          batchRows tables.tick writes
        provenance := (evictOldest maxEntries writes (deleteReplaced writes tables)).provenance ++
          writes.map fun write => ⟨write.key⟩
        tick := tables.tick + writes.length } := by
  have hkeys : (writes.zipIdx.map fun write => write.1.key) = writes.map CacheWrite.key := by
    conv_rhs => rw [← zipIdx_map_fst 0 writes, map_map]
    rfl
  obtain ⟨htick, -, hpaired⟩ := evictOldest_spec maxEntries writes (deleteReplaced writes tables)
  unfold putWrites
  dsimp only
  rw [htick, foldl_insertWrite]
  · have hprov : (writes.zipIdx.map fun write => (⟨write.1.key⟩ : ProvenanceRow)) =
        writes.map fun write => ⟨write.key⟩ := by
      conv_rhs => rw [← zipIdx_map_fst 0 writes, map_map]
      rfl
    rw [hprov]
    rfl
  · rw [hkeys]
    exact hnodup
  · intro row hrow
    rw [hkeys]
    exact key_notMem_of_evicted (mem_map_of_mem hrow)
  · intro row hrow
    rw [hkeys]
    exact key_notMem_of_evicted
      ((hpaired (hprovenance.deleteReplaced writes) row.key).mp (mem_map_of_mem hrow))

/-- The rows that stay, the most recent first: as many with other keys as the writes leave room
for. -/
theorem kept_contents (h : Holds maxEntries history tables) (hlength : writes.length ≤ maxEntries) :
    ((evictOldest maxEntries writes (deleteReplaced writes tables)).embeddings.map
        EmbeddingRow.content).reverse =
      ((recent CacheWrite.key maxEntries history).filter fun write =>
        write.key ∉ writes.map CacheWrite.key).take (maxEntries - writes.length) := by
  have hordered : (deleteReplaced writes tables).embeddings.Pairwise
      fun a b => a.touched < b.touched := h.ordered.sublist filter_sublist
  have hnodup : ((deleteReplaced writes tables).embeddings.map EmbeddingRow.key).Nodup :=
    h.nodup.sublist (filter_sublist.map EmbeddingRow.key)
  have hcontents : ((deleteReplaced writes tables).embeddings.map EmbeddingRow.content).reverse =
      (recent CacheWrite.key maxEntries history).filter fun write =>
        write.key ∉ writes.map CacheWrite.key := by
    rw [← h.contents, filter_reverse, ← content_filter]
    rfl
  rw [evictOldest_embeddings hordered hnodup, map_drop, reverse_drop, length_map,
    hcontents, take_eq_take_iff, ← hcontents, length_reverse, length_map]
  omega

/-- A batch whose most recent writes are kept goes to the end of the history. -/
theorem putWrites_holds {batch : List CacheWrite} (h : Holds maxEntries history tables)
    (hwrites : writes.reverse = recent CacheWrite.key maxEntries batch) :
    Holds maxEntries (history ++ batch) (putWrites maxEntries writes tables) := by
  have hnodup : (writes.map CacheWrite.key).Nodup := by
    have hbatch : ((recent CacheWrite.key maxEntries batch).map CacheWrite.key).Nodup :=
      nodup_recent maxEntries batch
    rwa [← hwrites, map_reverse, nodup_reverse] at hbatch
  have hlength : writes.length ≤ maxEntries := by
    have hle : (recent CacheWrite.key maxEntries batch).length ≤ maxEntries :=
      length_recent_le maxEntries batch
    rwa [← hwrites, length_reverse] at hle
  obtain ⟨-, hkept, hpaired⟩ := evictOldest_spec maxEntries writes (deleteReplaced writes tables)
  have hevicted := hkept.trans (filter_sublist (l := tables.embeddings))
  obtain ⟨hbatchOrdered, hbatchStamped⟩ := touched_batchRows tables.tick writes
  rw [putWrites_eq hnodup h.provenance]
  refine ⟨?_, ?_, ?_, ?_⟩
  · rw [map_append, reverse_append, content_batchRows, kept_contents h hlength,
      recent_append, ← hwrites, length_reverse, map_reverse]
    congr 2
    refine filter_congr fun write _ => ?_
    simp
  · refine pairwise_append.mpr ⟨h.ordered.sublist hevicted, hbatchOrdered, ?_⟩
    intro a ha b hb
    have hold := h.stamped a (hevicted.subset ha)
    have hnew := (hbatchStamped b hb).1
    omega
  · intro row hrow
    show row.touched ≤ tables.tick + writes.length
    rcases mem_append.mp hrow with hrow | hrow
    · have hold := h.stamped row (hevicted.subset hrow)
      omega
    · exact (hbatchStamped row hrow).2
  · intro key
    rw [map_append, map_append, mem_append, mem_append,
      hpaired (CacheTables.Paired.deleteReplaced h.provenance writes) key, key_batchRows, map_map]
    rfl

/-! ## Runs -/

/-- The write of an entry. -/
def encodeEntry (entry : Bytes × Embedding) : Except CacheError CacheWrite := do
  return ⟨entry.1, ← encodeVector entry.2⟩

/-- What a call writes, in order: all of its entries, or nothing if a vector has no encoding. -/
def written (entries : List (Bytes × Embedding)) : List CacheWrite :=
  match entries.mapM encodeEntry with
  | .ok writes => writes
  | .error _ => []

/-- The cache after a call. -/
def afterCall (maxEntries : ℕ) (tables : CacheTables) (entries : List (Bytes × Embedding)) :
    CacheTables :=
  match putMany maxEntries tables entries with
  | .ok tables => tables
  | .error _ => tables

/-- The cache after some calls. -/
def runCalls (maxEntries : ℕ) (calls : List (List (Bytes × Embedding))) : CacheTables :=
  calls.foldl (afterCall maxEntries) .empty

variable {entries : List (Bytes × Embedding)}

/-- Within the limit of a batch only the encodings can fail. -/
theorem gatherWrites_eq (hlength : writes.length + entries.length ≤ maxBatchEntries) :
    gatherWrites writes entries = (writes ++ ·) <$> entries.mapM encodeEntry := by
  induction entries generalizing writes with
  | nil =>
    show Except.ok writes = Except.ok (writes ++ [])
    rw [append_nil]
  | cons entry entries ih =>
    rw [length_cons] at hlength
    rw [gatherWrites, if_neg (by omega), mapM_cons, encodeEntry]
    cases encodeVector entry.2 with
    | error e => rfl
    | ok bytes =>
      show gatherWrites (writes ++ [⟨entry.1, bytes⟩]) entries = _
      rw [ih (by rw [length_append, length_singleton]; omega)]
      cases entries.mapM encodeEntry with
      | error e => rfl
      | ok rest =>
        show Except.ok (writes ++ [⟨entry.1, bytes⟩] ++ rest) =
          Except.ok (writes ++ ⟨entry.1, bytes⟩ :: rest)
        rw [append_assoc, singleton_append]

theorem putMany_holds (h : Holds maxEntries history tables)
    (hbatch : entries.length ≤ maxBatchEntries) :
    Holds maxEntries (history ++ written entries) (afterCall maxEntries tables entries) := by
  have hgather : gatherWrites [] entries = ([] ++ ·) <$> entries.mapM encodeEntry :=
    gatherWrites_eq (by simpa using hbatch)
  unfold afterCall putMany written
  rw [hgather]
  cases entries.mapM encodeEntry with
  | error e =>
    show Holds maxEntries (history ++ []) tables
    rw [append_nil]
    exact h
  | ok writes =>
    by_cases hempty : writes = []
    · subst hempty
      show Holds maxEntries (history ++ []) tables
      rw [append_nil]
      exact h
    · show Holds maxEntries (history ++ writes) (match (if writes = [] then _ else _ :
        Except CacheError CacheTables) with
        | .ok tables => tables
        | .error _ => tables)
      rw [if_neg hempty]
      exact putWrites_holds h (reverse_kept maxEntries writes)

theorem runCalls_holds (maxEntries : ℕ) {calls : List (List (Bytes × Embedding))}
    (hbatch : ∀ entries ∈ calls, entries.length ≤ maxBatchEntries) :
    Holds maxEntries (calls.flatMap written) (runCalls maxEntries calls) := by
  induction calls using List.reverseRecOn with
  | nil => exact holds_empty maxEntries
  | append_singleton calls entries ih =>
    rw [flatMap_append, runCalls, foldl_append, flatMap_singleton]
    exact putMany_holds (ih fun entries hentries => hbatch entries (mem_append_left _ hentries))
      (hbatch entries mem_concat_self)

/-- After any calls within the limit of a batch, the rows hold one entry for each of the
`maxEntries` keys written last, as it was written last; and the provenance has their keys. -/
theorem putMany_most_recent (maxEntries : ℕ) (calls : List (List (Bytes × Embedding)))
    (hbatch : ∀ entries ∈ calls, entries.length ≤ maxBatchEntries) :
    ((runCalls maxEntries calls).embeddings.map EmbeddingRow.key).Nodup ∧
      (∀ write, write ∈ (runCalls maxEntries calls).embeddings.map EmbeddingRow.content ↔
        ∃ before after, calls.flatMap written = before ++ write :: after ∧
          write.key ∉ after.map CacheWrite.key ∧
          (after.map CacheWrite.key).toFinset.card < maxEntries) ∧
      ∀ key, key ∈ (runCalls maxEntries calls).provenance.map ProvenanceRow.key ↔
        key ∈ (runCalls maxEntries calls).embeddings.map EmbeddingRow.key := by
  have h := runCalls_holds maxEntries hbatch
  refine ⟨h.nodup, fun write => ?_, h.provenance⟩
  rw [← mem_recent_iff, ← h.contents, mem_reverse]

/-- A vector. -/
def someVector : Embedding := ⟨List.replicate dimensions 1, length_replicate⟩

/-- Two calls, the second with a repeated key. -/
def twoCalls : List (List (Bytes × Embedding)) :=
  [[([1], someVector)], [([2], someVector), ([2], someVector)]]

/-- A cache of one place has the last write. -/
theorem putMany_most_recent_twoCalls :
    ((runCalls 1 twoCalls).embeddings.map EmbeddingRow.key).Nodup ∧
      (∀ write, write ∈ (runCalls 1 twoCalls).embeddings.map EmbeddingRow.content ↔
        (twoCalls.flatMap written).getLast? = some write) ∧
      ∀ key, key ∈ (runCalls 1 twoCalls).provenance.map ProvenanceRow.key ↔
        key ∈ (runCalls 1 twoCalls).embeddings.map EmbeddingRow.key := by
  have hbatch : ∀ entries ∈ twoCalls, entries.length ≤ maxBatchEntries := by decide
  generalize twoCalls = calls at hbatch
  obtain ⟨hnodup, hcontents, hprovenance⟩ := putMany_most_recent 1 calls hbatch
  refine ⟨hnodup, fun write => ?_, hprovenance⟩
  rw [hcontents, getLast?_eq_some_iff]
  constructor
  · rintro ⟨before, after, hsplit, -, hcard⟩
    have hnil : after = [] := by simpa using hcard
    exact ⟨before, hnil ▸ hsplit⟩
  · rintro ⟨before, hsplit⟩
    exact ⟨before, [], hsplit, not_mem_nil, by decide⟩

end Trufflepig.Semantic
