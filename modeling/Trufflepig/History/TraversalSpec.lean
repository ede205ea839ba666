import Trufflepig.History.CommitLog

/-!
# The stored traversal is a first-parent chain

* `indexBatch_dbOk`: one batch goes on where the last one stopped.
* `historyRun_dbOk`: after any calls, every view has stored an initial segment of
  the chain of its tip.
-/

namespace Trufflepig.History

open List Lib

variable {graph : CommitGraph} {strict : Prop} {repository : Repository} {call : IndexCall}

/-! ## What is stored -/

/-- The row for a depth of the chain of `tip`. -/
def traversalRow (graph : CommitGraph) (cutoff : ℤ) (tip : GitOid) (depth : ℕ) :
    Option TraversalRow :=
  (graph.ancestor tip depth).bind fun oid =>
    (graph.commit oid).map fun commit => ⟨oid.text, decide (cutoff ≤ commit.time)⟩

/-- A view and its traversal: the first `visited` commits of the chain, with their
rows in `commits`; where it stands; and its label. In a strict run no failure is
recorded for a complete view. -/
structure ViewOk (graph : CommitGraph) (strict : Prop) (db : HistoryDb) (tip : GitOid)
    (view : ViewRow) : Prop where
  rows : ∀ i, db.traversal tip.text i =
    if i < view.visited then traversalRow graph view.cutoff tip i else none
  reached : ∀ i < view.visited, (graph.ancestor tip i).isSome
  stored : ∀ i < view.visited, ∀ oid, graph.ancestor tip i = some oid → (db.commits oid.text).isSome
  limit : view.visited ≤ maxCommits
  unfinished : view.complete = false → view.visited < maxCommits ∧
    (0 < view.visited → (graph.ancestor tip view.visited).isSome)
  ended : view.complete = true →
    graph.ancestor tip view.visited = none ∨ view.visited = maxCommits
  boundary : view.boundary = .depthLimited ↔
    view.visited = maxCommits ∧ (graph.ancestor tip maxCommits).isSome ∧ view.failure = none
  clean : strict → view.complete = true → view.failure = none

/-- The state of the tables between calls. A stored parent is the first parent, if
there is one. -/
structure DbOk (graph : CommitGraph) (strict : Prop) (db : HistoryDb) : Prop where
  views : ∀ tip view, db.views.find (GitOid.text tip) = some view → ViewOk graph strict db tip view
  orphans : ∀ tip, db.views.find (GitOid.text tip) = none → ∀ i, db.traversal tip.text i = none
  parents : ∀ oid p row, graph.firstParent oid = some p → db.commits oid.text = some row →
    row.parent = some p.text

theorem dbOk_empty (graph : CommitGraph) : DbOk graph strict .empty where
  views tip view h := by cases h
  orphans _ _ _ := rfl
  parents oid p row _ h := by cases h

variable {oid : GitOid}

theorem text_injective {oid' : GitOid} (h : oid.text = oid'.text) : oid = oid' := by
  obtain ⟨text, _⟩ := oid
  obtain ⟨text', _⟩ := oid'
  obtain rfl : text = text' := h
  rfl

variable {db db' : HistoryDb} {tip : GitOid} {view : ViewRow}

/-- A view reads its own traversal, and needs the commits that are there. -/
theorem ViewOk.frame (h : ViewOk graph strict db tip view)
    (htraversal : db'.traversal tip.text = db.traversal tip.text)
    (hcommits : ∀ oid, (db.commits oid).isSome → (db'.commits oid).isSome) :
    ViewOk graph strict db' tip view where
  rows i := by
    rw [htraversal]
    exact h.rows i
  reached := h.reached
  stored i hi oid hoid := hcommits _ (h.stored i hi oid hoid)
  limit := h.limit
  unfinished := h.unfinished
  ended := h.ended
  boundary := h.boundary
  clean := h.clean

/-! ## Single statements -/

theorem find_updateView (db : HistoryDb) (tip t : Bytes) (set : ViewRow → ViewRow) :
    (updateView db tip set).views.find t =
      if t = tip then (db.views.find tip).map fun view => { set view with tip := tip }
      else db.views.find t := by
  unfold updateView
  cases hview : db.views.find tip with
  | none =>
    split_ifs with ht
    · simpa [ht] using hview
    · rfl
  | some view => exact SortedTable.find_insert _ _ _

@[simp] theorem updateView_traversal (db : HistoryDb) (tip : Bytes) (set : ViewRow → ViewRow) :
    (updateView db tip set).traversal = db.traversal := by
  unfold updateView
  cases db.views.find tip <;> rfl

@[simp] theorem updateView_commits (db : HistoryDb) (tip : Bytes) (set : ViewRow → ViewRow) :
    (updateView db tip set).commits = db.commits := by
  unfold updateView
  cases db.views.find tip <;> rfl

/-- An update that keeps a view right keeps the tables right. -/
theorem updateView_dbOk (hdb : DbOk graph strict db) (tip : GitOid) {set : ViewRow → ViewRow}
    (hset : ∀ view, db.views.find tip.text = some view → ViewOk graph strict db tip view →
      ViewOk graph strict db tip { set view with tip := tip.text }) :
    DbOk graph strict (updateView db tip.text set) where
  views t view h := by
    rw [find_updateView] at h
    have hview : ViewOk graph strict db t view := by
      split_ifs at h with ht
      · obtain rfl := text_injective ht
        obtain ⟨old, hold, rfl⟩ := Option.map_eq_some_iff.mp h
        exact hset old hold (hdb.views t old hold)
      · exact hdb.views t view h
    exact hview.frame (by simp) (by simp)
  orphans t h := by
    rw [find_updateView] at h
    rw [updateView_traversal]
    apply hdb.orphans t
    split_ifs at h with ht
    · simpa [ht] using h
    · exact h
  parents oid p row hp hrow := hdb.parents oid p row hp (by simpa using hrow)

theorem viewOk_new (h : ∀ i, db.traversal tip.text i = none) (time : ℤ) :
    ViewOk graph strict db tip
      ⟨tip.text, time - 2 * 365 * 86400, time, time, 0, false, .pending, none⟩ where
  rows := h
  reached i hi := absurd hi (Nat.not_lt_zero i)
  stored i hi := absurd hi (Nat.not_lt_zero i)
  limit := Nat.zero_le _
  unfinished _ := ⟨show 0 < maxCommits by decide, fun h => absurd h (Nat.lt_irrefl 0)⟩
  ended h := by cases h
  boundary := ⟨fun h => (by cases h), fun h => absurd h.1 (show 0 ≠ maxCommits by decide)⟩
  clean _ _ := rfl

theorem insertView_dbOk (hdb : DbOk graph strict db) (tip : GitOid) (time : ℤ) :
    DbOk graph strict (insertView db tip.text time) := by
  unfold insertView
  cases hview : db.views.find tip.text with
  | some view => exact hdb
  | none =>
    refine ⟨fun t view h => ?_, fun t h => ?_, hdb.parents⟩
    · rw [SortedTable.find_insert] at h
      split_ifs at h with ht
      · obtain rfl := text_injective ht
        obtain rfl := Option.some.inj h
        exact (viewOk_new (hdb.orphans t hview) time).frame rfl fun _ h => h
      · exact (hdb.views t view h).frame rfl fun _ h => h
    · rw [SortedTable.find_insert] at h
      split_ifs at h
      exact hdb.orphans t h

theorem find_deleteView (db : HistoryDb) (tip t : Bytes) :
    (deleteView db tip).views.find t = if t = tip then none else db.views.find t :=
  SortedTable.find_remove t

theorem deleteView_dbOk (hdb : DbOk graph strict db) (tip : Bytes) :
    DbOk graph strict (deleteView db tip) where
  views t view h := by
    rw [find_deleteView] at h
    split_ifs at h with ht
    exact (hdb.views t view h).frame (Function.update_of_ne ht _ _) fun _ h => h
  orphans t h i := by
    rw [find_deleteView] at h
    show Function.update db.traversal tip (fun _ => none) t.text i = none
    by_cases ht : t.text = tip
    · rw [ht, Function.update_self]
    · rw [Function.update_of_ne ht]
      rw [if_neg ht] at h
      exact hdb.orphans t h i
  parents := hdb.parents

/-! ## A batch -/

/-- The commits that a batch lists. -/
def listed (graph : CommitGraph) (start : GitOid) (visited : ℕ) : List GitOid :=
  segment graph.firstParent start (min 129 (maxCommits - visited + 1))

/-- The batch with the fields of these commits. -/
def logBatch (graph : CommitGraph) (start : GitOid) (visited : ℕ) : Batch :=
  planBatch ((listed graph start visited).flatMap (recordFields graph) ++ [[]]) visited

theorem attempt_ok {step : IndexStep} {u : Unit} (h : call.attempt step = .ok u) :
    call.fault step = none := by
  unfold IndexCall.attempt at h
  cases hfault : call.fault step with
  | none => rfl
  | some message => simp [hfault] at h

theorem attempt_eq {step : IndexStep} (h : call.fault step = none) : call.attempt step = .ok () := by
  rw [IndexCall.attempt, h]

variable {start : GitOid}

theorem commit_of_listed (hstart : (graph.commit start).isSome) (visited : ℕ) :
    ∀ oid ∈ listed graph start visited, (graph.commit oid).isSome := by
  intro oid hoid
  obtain ⟨i, hi⟩ := mem_iff_getElem?.mp hoid
  rw [listed, getElem?_segment] at hi
  split_ifs at hi
  exact CommitGraph.commit_of_nth hstart hi

theorem gitLog_text (graph : CommitGraph) (start : GitOid) (max : ℕ) :
    gitLog graph start.text max = if (graph.commit start).isSome then
      some ((segment graph.firstParent start max).flatMap (logRecord graph)) else none := by
  unfold gitLog
  rw [dif_pos start.length]

theorem length_logFields (hstart : (graph.commit start).isSome) (visited : ℕ) :
    ((listed graph start visited).flatMap (recordFields graph) ++ [[]]).length =
      (listed graph start visited).length * 4 + 1 := by
  rw [length_append, length_recordFields (commit_of_listed hstart visited)]
  rfl

theorem batchFields_eq (hstart : (graph.commit start).isSome) (visited : ℕ)
    (hrepository : repository.graph = graph) (hlog : call.fault .log = none) :
    batchFields repository call start.text visited =
      .ok ((listed graph start visited).flatMap (recordFields graph) ++ [[]]) := by
  subst hrepository
  have hlength := length_logFields hstart visited
  rw [batchFields, attempt_eq hlog, gitLog_text, if_pos hstart]
  show (if _ then Except.ok (splitAtByte 0 _) else _) = _
  rw [splitAtByte_log, if_pos]
  · rfl
  · exact ⟨by rw [← listed, hlength]; omega, getLast?_concat⟩

variable {visited : ℕ}

/-- The log of a commit that is there. -/
theorem batchFields_ok {start : Bytes} {fields : List Bytes}
    (h : batchFields repository call start visited = .ok fields) :
    ∃ oid : GitOid, oid.text = start ∧ (repository.graph.commit oid).isSome := by
  obtain ⟨_, -, h⟩ := bind_eq_ok.mp h
  unfold gitLog at h
  by_cases hlength : start.length = 40 ∨ start.length = 64
  · refine ⟨⟨start, hlength⟩, rfl, ?_⟩
    by_contra hcommit
    rw [dif_pos hlength, if_neg hcommit] at h
    cases h
  · rw [dif_neg hlength] at h
    cases h

/-- What is written for a commit: its row, unless there is one, and the row of the
traversal. -/
def storeCommit (tip : Bytes) (cutoff : ℤ) (db : HistoryDb) (depth : ℕ) (oid : GitOid)
    (commit : Commit) (parent : Option Bytes) : HistoryDb :=
  replaceTraversal (insertCommit db oid.text ⟨parent, commit.time⟩) tip depth
    ⟨oid.text, decide (cutoff ≤ commit.time)⟩

/-- The stored parent: the first parent, and for the last commit of the chain what
the commit object names. -/
def storedParent (commit : Commit) (isLast : Bool) (last : Option GitOid) : Option Bytes :=
  (commit.parents.head?.map (·.text)).or (if isLast then last.map (·.text) else none)

variable {batch : Batch}

/-- Writing the `i`-th commit of a batch. -/
theorem writeCommit_eq {oids : List GitOid} (hoids : ∀ oid ∈ oids, (graph.commit oid).isSome)
    (hfields : batch.fields = oids.flatMap (recordFields graph) ++ [[]]) (cutoff : ℤ)
    (visited : ℕ) (last : Option GitOid) (db : HistoryDb) {i : ℕ} (hi : oids[i]? = some oid)
    {commit : Commit} (hcommit : graph.commit oid = some commit) :
    writeCommit call cutoff visited batch last db (visited + i) =
      if commit.time < 2 ^ 63 then do
        call.attempt (.insertCommit (visited + i))
        call.attempt (.insertTraversal (visited + i))
        return storeCommit call.tip.text cutoff db (visited + i) oid commit
          (storedParent commit (i + 1 = batch.total) last)
      else .error .invalidNumber := by
  have hcanonical := graph.canonical oid commit hcommit
  have hparents := canonical_parents hcommit
  have hparse : parseOid oid.text = .ok oid := by rw [parseOid, hcanonical]
  have hnames : fromUtf8 (parentsText commit) = .ok (parentsChars commit) := by
    rw [← encodeChars_parents hparents]
    exact fromUtf8_encodeChars _
  have htime : fromUtf8 (timeText commit) = .ok (Nat.toDigits 10 commit.time) :=
    fromUtf8_encodeChars _
  unfold writeCommit
  simp only [hfields, Nat.add_sub_cancel_left, drop_recordFields hoids [[]] hi hcommit, logFields]
  rw [fromUtf8_oid hcanonical, hparse, hnames, htime]
  show (parseI64 _ >>= _) = _
  rw [parseI64_digits]
  by_cases hbound : commit.time < 2 ^ 63
  · rw [if_pos hbound, if_pos hbound, splitWhitespace_parents hparents]
    simp only [storeCommit, storedParent, decide_eq_true_eq]
    rfl
  · rw [if_neg hbound, if_neg hbound]
    rfl

/-- The tables after the first `k` commits of a batch from `start`, at the depth
`visited`. -/
structure BatchWritten (graph : CommitGraph) (tip : Bytes) (cutoff : ℤ) (start : GitOid)
    (visited : ℕ) (db : HistoryDb) (k : ℕ) (s : HistoryDb) : Prop where
  views : s.views = db.views
  others : ∀ t, t ≠ tip → s.traversal t = db.traversal t
  rows : ∀ i, s.traversal tip i =
    if visited ≤ i ∧ i < visited + k then traversalRow graph cutoff start (i - visited)
    else db.traversal tip i
  kept : ∀ oid, (db.commits oid).isSome → (s.commits oid).isSome
  stored : ∀ j < k, ∀ oid, graph.ancestor start j = some oid → (s.commits oid.text).isSome
  parents : ∀ oid p row, graph.firstParent oid = some p → s.commits oid.text = some row →
    row.parent = some p.text

theorem insertCommit_commits (db : HistoryDb) (oid : Bytes) (row : CommitRow) (o : Bytes) :
    (insertCommit db oid row).commits o =
      if o = oid then some ((db.commits oid).getD row) else db.commits o := by
  unfold insertCommit
  cases hrow : db.commits oid with
  | some old =>
    split_ifs with ho
    · rw [ho, hrow]
      rfl
    · rfl
  | none => exact Function.update_apply _ _ _ _

theorem insertCommit_traversal (db : HistoryDb) (oid : Bytes) (row : CommitRow) :
    (insertCommit db oid row).traversal = db.traversal ∧
      (insertCommit db oid row).views = db.views := by
  unfold insertCommit
  cases db.commits oid <;> exact ⟨rfl, rfl⟩

theorem replaceTraversal_traversal (db : HistoryDb) (tip t : Bytes) (depth i : ℕ)
    (row : TraversalRow) :
    (replaceTraversal db tip depth row).traversal t i =
      if t = tip ∧ i = depth then some row else db.traversal t i := by
  by_cases ht : t = tip
  · subst ht
    simp [replaceTraversal, Function.update_apply]
  · simp [replaceTraversal, ht]

variable {cutoff : ℤ} {s : HistoryDb} {last : Option GitOid}

theorem storeCommit_written {tip : Bytes} {k : ℕ}
    (hs : BatchWritten graph tip cutoff start visited db k s)
    (hoid : graph.ancestor start k = some oid) {commit : Commit}
    (hcommit : graph.commit oid = some commit) {isLast : Bool} :
    BatchWritten graph tip cutoff start visited db (k + 1)
      (storeCommit tip cutoff s (visited + k) oid commit (storedParent commit isLast last)) := by
  have hframe := insertCommit_traversal s oid.text ⟨storedParent commit isLast last, commit.time⟩
  have hcommits := insertCommit_commits s oid.text ⟨storedParent commit isLast last, commit.time⟩
  refine ⟨hframe.2.trans hs.views, fun t ht => ?_, fun i => ?_, fun o ho => ?_, fun j hj o ho => ?_,
    fun o p row hp hrow => ?_⟩
  · funext i
    rw [storeCommit, replaceTraversal_traversal, if_neg (fun h => ht h.1), hframe.1, hs.others t ht]
  · rw [storeCommit, replaceTraversal_traversal, hframe.1]
    by_cases hi : i = visited + k
    · rw [if_pos ⟨rfl, hi⟩, if_pos (by omega), hi, Nat.add_sub_cancel_left, traversalRow, hoid]
      simp [hcommit]
    · rw [if_neg (fun h => hi h.2), hs.rows i]
      congr 1
      rw [eq_iff_iff]
      omega
  · show (HistoryDb.commits (insertCommit s _ _) o).isSome
    rw [hcommits]
    split_ifs
    · rfl
    · exact hs.kept o ho
  · show (HistoryDb.commits (insertCommit s _ _) o.text).isSome
    rw [hcommits]
    split_ifs with heq
    · rfl
    · apply hs.stored j _ o ho
      by_contra hlt
      obtain rfl : j = k := by omega
      exact heq (congrArg GitOid.text (Option.some.inj (ho.symm.trans hoid)))
  · replace hrow : (insertCommit s _ _).commits o.text = some row := hrow
    rw [hcommits] at hrow
    split_ifs at hrow with heq
    · obtain rfl := text_injective heq
      cases hold : s.commits o.text with
      | some old =>
        rw [hold] at hrow
        obtain rfl := Option.some.inj hrow
        exact hs.parents o p _ hp hold
      | none =>
        rw [hold] at hrow
        obtain rfl := Option.some.inj hrow
        have hhead : commit.parents.head? = some p := by
          simpa [CommitGraph.firstParent, hcommit] using hp
        show storedParent commit isLast last = _
        rw [storedParent, hhead]
        rfl
    · exact hs.parents o p row hp hrow

theorem logBatch_fields (graph : CommitGraph) (start : GitOid) (visited : ℕ) :
    (logBatch graph start visited).fields =
      (listed graph start visited).flatMap (recordFields graph) ++ [[]] := rfl

section

variable (hstart : (graph.commit start).isSome)
include hstart

theorem logBatch_total (visited : ℕ) :
    (logBatch graph start visited).total = (listed graph start visited).length := by
  show ((listed graph start visited).flatMap (recordFields graph) ++ [[]]).length / 4 = _
  rw [length_logFields hstart]
  omega

theorem logBatch_count_le (visited : ℕ) :
    (logBatch graph start visited).count ≤ (listed graph start visited).length := by
  rw [← logBatch_total hstart]
  show min (min 128 (logBatch graph start visited).total) (maxCommits - visited) ≤ _
  omega

/-- The commit that a batch has at a place. -/
theorem exists_listed {k : ℕ} (hk : k < (logBatch graph start visited).count) :
    ∃ oid commit, (listed graph start visited)[k]? = some oid ∧
      graph.ancestor start k = some oid ∧ graph.commit oid = some commit := by
  have hlength := Nat.lt_of_lt_of_le hk (logBatch_count_le hstart visited)
  have hsome := (lt_length_segment.mp hlength).2
  obtain ⟨oid, hoid⟩ := Option.isSome_iff_exists.mp hsome
  obtain ⟨commit, hcommit⟩ := Option.isSome_iff_exists.mp (CommitGraph.commit_of_nth hstart hoid)
  refine ⟨oid, commit, ?_, ?_, hcommit⟩
  · rw [listed, getElem?_segment, if_pos (lt_length_segment.mp hlength).1, hoid]
  · rw [CommitGraph.ancestor, if_pos hstart, hoid]

/-- The loop of a batch. -/
theorem writes_written
    (hparents : ∀ oid p row, graph.firstParent oid = some p → db.commits oid.text = some row →
      row.parent = some p.text)
    (h : (List.range' visited (logBatch graph start visited).count).foldlM
      (writeCommit call cutoff visited (logBatch graph start visited) last) db = .ok s) :
    BatchWritten graph call.tip.text cutoff start visited db (logBatch graph start visited).count s := by
  have hrun := foldlM_invariant_passed
    (fun passed s => BatchWritten graph call.tip.text cutoff start visited db passed.length s) ?_ ?_ h
  · rwa [length_range'] at hrun
  · intro passed depth rest hsplit s s' hs hwrite
    have hget : (List.range' visited (logBatch graph start visited).count)[passed.length]? =
        some depth := by simp [hsplit]
    have hk : passed.length < (logBatch graph start visited).count := by
      by_contra hge
      simp [hge] at hget
    obtain rfl : visited + passed.length = depth := by simpa [getElem?_range', hk] using hget
    obtain ⟨oid, commit, hlisted, hoid, hcommit⟩ := exists_listed hstart hk
    rw [writeCommit_eq (commit_of_listed hstart visited) (logBatch_fields graph start visited) cutoff
      visited last s hlisted hcommit] at hwrite
    split_ifs at hwrite
    obtain ⟨_, -, hwrite⟩ := bind_eq_ok.mp hwrite
    obtain ⟨_, -, hwrite⟩ := bind_eq_ok.mp hwrite
    obtain rfl := Except.ok.inj hwrite
    rw [length_append]
    exact storeCommit_written hs hoid hcommit
  · refine ⟨rfl, fun _ _ => rfl, fun i => ?_, fun _ h => h, fun j hj => absurd hj (Nat.not_lt_zero j),
      hparents⟩
    rw [if_neg]
    simp

end

/-- Where a batch stops. -/
structure BatchEnd (graph : CommitGraph) (start : GitOid) (visited : ℕ) (batch : Batch) : Prop where
  stop : batch.stop = visited + batch.count
  limit : batch.stop ≤ maxCommits
  reached : ∀ j < batch.count, (graph.ancestor start j).isSome
  unfinished : batch.finished = false →
    batch.stop < maxCommits ∧ (graph.ancestor start batch.count).isSome
  finished : batch.finished = true →
    graph.ancestor start batch.count = none ∨ batch.stop = maxCommits
  limited : batch.stop = maxCommits →
    (batch.total > batch.count ↔ (graph.ancestor start batch.count).isSome)

theorem logBatch_end (hstart : (graph.commit start).isSome) (hvisited : visited < maxCommits) :
    BatchEnd graph start visited (logBatch graph start visited) := by
  -- the log is cut one commit after the batch at the earliest
  have htotal : ∀ i, i < (logBatch graph start visited).total ↔
      i < min 129 (maxCommits - visited + 1) ∧ (graph.ancestor start i).isSome := by
    intro i
    rw [logBatch_total hstart, listed, lt_length_segment, CommitGraph.ancestor, if_pos hstart]
  have hcount : (logBatch graph start visited).count =
      min (min 128 (logBatch graph start visited).total) (maxCommits - visited) := rfl
  have hstop : (logBatch graph start visited).stop =
      visited + (logBatch graph start visited).count := rfl
  have hfinished : (logBatch graph start visited).finished = true ↔
      (logBatch graph start visited).count = (logBatch graph start visited).total ∨
        (logBatch graph start visited).stop = maxCommits := by
    show (decide _ || decide _) = true ↔ _
    rw [Bool.or_eq_true, decide_eq_true_eq, decide_eq_true_eq]
    rfl
  generalize logBatch graph start visited = batch at *
  refine ⟨hstop, by omega, fun j hj => ?_, fun hunfinished => ?_, fun hdone => ?_, fun hlimit => ?_⟩
  · exact ((htotal j).mp (by omega)).2
  · rw [← Bool.not_eq_true, hfinished, not_or] at hunfinished
    exact ⟨by omega, ((htotal batch.count).mp (by omega)).2⟩
  · rcases hfinished.mp hdone with heq | hlimit
    · by_cases hlimit : batch.stop = maxCommits
      · exact Or.inr hlimit
      · refine Or.inl (Option.not_isSome_iff_eq_none.mp fun hsome => ?_)
        have := (htotal batch.count).mpr ⟨by omega, hsome⟩
        omega
    · exact Or.inr hlimit
  · constructor
    · exact fun hgt => ((htotal batch.count).mp hgt).2
    · exact fun hsome => (htotal batch.count).mpr ⟨by omega, hsome⟩

theorem batchBoundary_depthLimited :
    batchBoundary batch last = .depthLimited ↔
      batch.finished = true ∧ batch.stop = maxCommits ∧ batch.total > batch.count := by
  unfold batchBoundary
  cases batch.finished with
  | false => simp
  | true =>
    by_cases hlimit : batch.stop = maxCommits ∧ batch.total > batch.count
    · simp [hlimit]
    · cases last <;> simp [hlimit]

theorem ancestor_from (hstart : graph.ancestor tip visited = some start) (j : ℕ) :
    graph.ancestor tip (visited + j) = graph.ancestor start j := by
  rw [CommitGraph.ancestor_add, hstart]
  rfl

/-- The seam: what a batch writes goes on with what was there. -/
theorem batchView_ok (call : IndexCall) (hview : ViewOk graph strict db tip view)
    (hstart : graph.ancestor tip view.visited = some start)
    (hend : BatchEnd graph start view.visited batch)
    (hs : BatchWritten graph tip.text view.cutoff start view.visited db batch.count s)
    (last : Option GitOid) : ViewOk graph strict s tip (batchView call batch last view) where
  rows i := by
    show _ = if i < batch.stop then traversalRow graph view.cutoff tip i else none
    rw [hs.rows i, hview.rows i, hend.stop]
    by_cases hlow : i < view.visited
    · rw [if_neg (by omega), if_pos hlow, if_pos (by omega)]
    · by_cases hhigh : i < view.visited + batch.count
      · have hi := ancestor_from hstart (i - view.visited)
        rw [show view.visited + (i - view.visited) = i by omega] at hi
        rw [if_pos (by omega), if_pos hhigh, traversalRow, traversalRow, hi]
      · rw [if_neg (by omega), if_neg hlow, if_neg hhigh]
  reached i hi := by
    replace hi : i < batch.stop := hi
    rw [hend.stop] at hi
    by_cases hlow : i < view.visited
    · exact hview.reached i hlow
    · have hnew := hend.reached (i - view.visited) (by omega)
      rw [← ancestor_from hstart, show view.visited + (i - view.visited) = i by omega] at hnew
      exact hnew
  stored i hi oid hoid := by
    replace hi : i < batch.stop := hi
    rw [hend.stop] at hi
    by_cases hlow : i < view.visited
    · exact hs.kept _ (hview.stored i hlow oid hoid)
    · rw [show i = view.visited + (i - view.visited) by omega, ancestor_from hstart] at hoid
      exact hs.stored (i - view.visited) (by omega) oid hoid
  limit := hend.limit
  unfinished hcomplete := by
    obtain ⟨hlt, hsome⟩ := hend.unfinished hcomplete
    refine ⟨hlt, fun _ => ?_⟩
    show (graph.ancestor tip batch.stop).isSome
    rw [hend.stop, ancestor_from hstart]
    exact hsome
  ended hcomplete := by
    show graph.ancestor tip batch.stop = none ∨ batch.stop = maxCommits
    rw [hend.stop, ancestor_from hstart, ← hend.stop]
    exact hend.finished hcomplete
  boundary := by
    show batchBoundary batch last = _ ↔ batch.stop = _ ∧ _ ∧ none = none
    rw [batchBoundary_depthLimited]
    constructor
    · rintro ⟨-, hstop, htotal⟩
      refine ⟨hstop, ?_, rfl⟩
      rw [← hstop, hend.stop, ancestor_from hstart]
      exact (hend.limited hstop).mp htotal
    · rintro ⟨hstop, hsome, -⟩
      rw [← hstop, hend.stop, ancestor_from hstart] at hsome
      refine ⟨?_, hstop, (hend.limited hstop).mpr hsome⟩
      by_contra hunfinished
      have := (hend.unfinished (by simpa using hunfinished)).1
      omega
  clean _ _ := rfl

/-- The tables after the loop and the update of the view. -/
theorem batch_dbOk (last : Option GitOid) (hdb : DbOk graph strict db)
    (hfind : db.views.find call.tip.text = some view)
    (hstart : graph.ancestor call.tip view.visited = some start)
    (hend : BatchEnd graph start view.visited batch)
    (hs : BatchWritten graph call.tip.text view.cutoff start view.visited db batch.count s) :
    DbOk graph strict (updateView s call.tip.text (batchView call batch last)) where
  views t v h := by
    rw [find_updateView, hs.views] at h
    split_ifs at h with ht
    · obtain rfl := text_injective ht
      rw [hfind] at h
      obtain rfl := Option.some.inj h
      have hview := batchView_ok call (hdb.views _ view hfind) hstart hend hs last
      exact ⟨by simpa using hview.rows, hview.reached, by simpa using hview.stored, hview.limit,
        hview.unfinished, hview.ended, hview.boundary, hview.clean⟩
    · refine (hdb.views t v h).frame ?_ (by simpa using hs.kept)
      rw [updateView_traversal]
      exact hs.others t.text ht
  orphans t h i := by
    rw [find_updateView, hs.views] at h
    split_ifs at h with ht
    · rw [hfind] at h
      cases h
    · rw [updateView_traversal, hs.others t.text ht]
      exact hdb.orphans t h i
  parents := by simpa using hs.parents

/-! ## One call -/

/-- Where an open view goes on: the stored parent of its last commit is the next
commit of the chain. -/
theorem exists_next (hdb : DbOk graph strict db) (hfind : db.views.find tip.text = some view)
    (hcomplete : view.complete = false) (hpositive : 0 < view.visited) :
    ∃ row commit p, db.traversal tip.text (view.visited - 1) = some row ∧
      db.commits row.oid = some commit ∧ commit.parent = some p.text ∧
      graph.ancestor tip view.visited = some p := by
  have hview := hdb.views tip view hfind
  have hlast : view.visited - 1 < view.visited := by omega
  obtain ⟨oid, hoid⟩ := Option.isSome_iff_exists.mp (hview.reached _ hlast)
  obtain ⟨commit, hcommit⟩ := Option.isSome_iff_exists.mp (CommitGraph.commit_of_ancestor hoid)
  obtain ⟨row, hrow⟩ := Option.isSome_iff_exists.mp (hview.stored _ hlast oid hoid)
  obtain ⟨p, hp⟩ := Option.isSome_iff_exists.mp ((hview.unfinished hcomplete).2 hpositive)
  have hparent : graph.firstParent oid = some p := by
    rw [← hp, show view.visited = view.visited - 1 + 1 by omega, ancestor_from hoid,
      CommitGraph.ancestor, if_pos (by simp [hcommit])]
    rfl
  refine ⟨⟨oid.text, decide (view.cutoff ≤ commit.time)⟩, row, p, ?_, hrow,
    hdb.parents oid p row hparent hrow, hp⟩
  rw [hview.rows, if_pos hlast, traversalRow, hoid]
  simp [hcommit]

/-- A batch starts at the next commit of the chain. -/
theorem batchStart_ok (hdb : DbOk graph strict db) (hfind : db.views.find call.tip.text = some view)
    (hcomplete : view.complete = false) {start : Option Bytes}
    (h : batchStart call db view.visited = .ok start) :
    ∃ text, start = some text ∧ ∀ oid : GitOid, oid.text = text → (graph.commit oid).isSome →
      graph.ancestor call.tip view.visited = some oid := by
  unfold batchStart at h
  split_ifs at h with hzero
  · obtain rfl := Except.ok.inj h
    refine ⟨_, rfl, fun oid htext hcommit => ?_⟩
    obtain rfl := text_injective htext
    rw [hzero, CommitGraph.ancestor, if_pos hcommit]
    rfl
  · obtain ⟨_, -, h⟩ := bind_eq_ok.mp h
    obtain ⟨row, commit, p, hrow, hcommit, hparent, hp⟩ :=
      exists_next hdb hfind hcomplete (Nat.pos_of_ne_zero hzero)
    simp only [hrow, hcommit, hparent] at h
    obtain rfl := Except.ok.inj h
    refine ⟨_, rfl, fun oid htext _ => ?_⟩
    rw [hp, text_injective htext]

/-- What a transaction does. -/
theorem writeBatch_ok (h : writeBatch call cutoff visited batch last db = .ok db') :
    ∃ s, (List.range' visited batch.count).foldlM (writeCommit call cutoff visited batch last) db =
        .ok s ∧
      deleteObsolete call (updateView s call.tip.text (batchView call batch last)) = .ok db' := by
  obtain ⟨_, -, h⟩ := bind_eq_ok.mp h
  obtain ⟨s, hs, h⟩ := bind_eq_ok.mp h
  obtain ⟨_, -, h⟩ := bind_eq_ok.mp h
  obtain ⟨_, -, h⟩ := bind_eq_ok.mp h
  obtain ⟨t, ht, h⟩ := bind_eq_ok.mp h
  obtain ⟨_, -, h⟩ := bind_eq_ok.mp h
  obtain rfl := Except.ok.inj h
  exact ⟨s, hs, ht⟩

theorem deleteObsolete_ok (h : deleteObsolete call db = .ok db') :
    db' = db ∨ ∃ tip, obsoleteTip db (call.obsolete - 30 * 86400) = some tip ∧
      db' = deleteView db tip := by
  unfold deleteObsolete at h
  cases hobsolete : obsoleteTip db (call.obsolete - 30 * 86400) with
  | none =>
    rw [hobsolete] at h
    exact Or.inl (Except.ok.inj h).symm
  | some tip =>
    rw [hobsolete] at h
    obtain ⟨_, -, h⟩ := bind_eq_ok.mp h
    obtain ⟨_, -, h⟩ := bind_eq_ok.mp h
    exact Or.inr ⟨tip, rfl, (Except.ok.inj h).symm⟩

/-- What `index_batch` does: nothing to a complete view; to another one it adds the
next commits of the chain. -/
theorem indexBatch_ok (hdb : DbOk repository.graph strict db)
    (h : indexBatch repository call db = .ok db') :
    ∃ view, db.views.find call.tip.text = some view ∧
      (view.complete = true ∧ db' = db ∨
        view.complete = false ∧ ∃ start last s,
          repository.graph.ancestor call.tip view.visited = some start ∧
          BatchWritten repository.graph call.tip.text view.cutoff start view.visited db
            (logBatch repository.graph start view.visited).count s ∧
          deleteObsolete call (updateView s call.tip.text
            (batchView call (logBatch repository.graph start view.visited) last)) = .ok db') := by
  obtain ⟨_, -, h⟩ := bind_eq_ok.mp h
  cases hfind : db.views.find call.tip.text with
  | none =>
    rw [hfind] at h
    cases h
  | some view =>
    refine ⟨view, rfl, ?_⟩
    rw [hfind] at h
    replace h : (if view.complete = true then _ else _) = _ := h
    split_ifs at h with hcomplete
    · exact Or.inl ⟨hcomplete, (Except.ok.inj h).symm⟩
    · obtain ⟨_, -, h⟩ := bind_eq_ok.mp h
      obtain ⟨start, hstart, h⟩ := bind_eq_ok.mp h
      obtain ⟨text, rfl, hnext⟩ := batchStart_ok hdb hfind (by simpa using hcomplete) hstart
      obtain ⟨fields, hfields, h⟩ := bind_eq_ok.mp h
      obtain ⟨last, -, h⟩ := bind_eq_ok.mp h
      obtain ⟨oid, rfl, hcommit⟩ := batchFields_ok hfields
      obtain ⟨_, hlog, -⟩ := bind_eq_ok.mp hfields
      rw [batchFields_eq hcommit view.visited rfl (attempt_ok hlog)] at hfields
      obtain rfl := Except.ok.inj hfields
      obtain ⟨s, hs, hdelete⟩ := writeBatch_ok h
      exact Or.inr ⟨by simpa using hcomplete, oid, last, s, hnext oid rfl hcommit,
        writes_written hcommit hdb.parents hs, hdelete⟩

theorem indexBatch_dbOk (hdb : DbOk repository.graph strict db)
    (h : indexBatch repository call db = .ok db') : DbOk repository.graph strict db' := by
  obtain ⟨view, hfind, ⟨-, rfl⟩ | ⟨hcomplete, start, last, s, hstart, hs, hdelete⟩⟩ :=
    indexBatch_ok hdb h
  · exact hdb
  · have hvisited := ((hdb.views _ view hfind).unfinished hcomplete).1
    have hend := logBatch_end (CommitGraph.commit_of_ancestor hstart) hvisited
    have hbatch := batch_dbOk last hdb hfind hstart hend hs
    rcases deleteObsolete_ok hdelete with rfl | ⟨tip, -, rfl⟩
    · exact hbatch
    · exact deleteView_dbOk hbatch tip

/-- What a call of `index` can do. -/
theorem index_cases (repository : Repository) (call : IndexCall) (db : HistoryDb) :
    (index repository call db).2 = db ∨
      (index repository call db).2 = insertView db call.tip.text call.time ∨
      indexBatch repository call (touched call db) = .ok (index repository call db).2 ∨
      ∃ error, indexBatch repository call (touched call db) = .error error ∧
        ((index repository call db).2 = touched call db ∨
          (index repository call db).2 =
            recorded call (failureCategory error) (touched call db)) := by
  unfold index
  cases hlease : call.attempt .lease with
  | error error => exact Or.inl rfl
  | ok _ =>
    cases hinsert : call.attempt .insertView with
    | error error => exact Or.inl rfl
    | ok _ =>
      cases htouch : call.attempt .touchView with
      | error error => exact Or.inr (Or.inl rfl)
      | ok _ =>
        refine Or.inr (Or.inr ?_)
        cases hbatch : indexBatch repository call (touched call db) with
        | ok db' => exact Or.inl rfl
        | error error =>
          refine Or.inr ⟨error, rfl, ?_⟩
          cases call.attempt .recordFailure with
          | error _ => exact Or.inl rfl
          | ok _ => exact Or.inr rfl

theorem touched_dbOk (hdb : DbOk graph strict db) (call : IndexCall) :
    DbOk graph strict (touched call db) :=
  updateView_dbOk (insertView_dbOk hdb call.tip call.time) call.tip fun _ _ h =>
    ⟨h.rows, h.reached, h.stored, h.limit, h.unfinished, h.ended, h.boundary, h.clean⟩

/-- A complete view is only read: if that does not fail, nothing does. -/
theorem indexBatch_error {error : HistoryError} (h : indexBatch repository call db = .error error)
    (hselect : call.fault .selectView = none) (hview : db.views.find call.tip.text = some view) :
    view.complete = false := by
  by_contra hcomplete
  rw [indexBatch, attempt_eq hselect] at h
  simp only [hview] at h
  replace h : (if view.complete = true then Except.ok db else _) = _ := h
  rw [if_pos (by simpa using hcomplete)] at h
  cases h

theorem recorded_dbOk (hdb : DbOk graph strict db) (call : IndexCall) (category : FailureCategory)
    (hopen : strict → ∀ view, db.views.find call.tip.text = some view → view.complete = false) :
    DbOk graph strict (recorded call category db) :=
  updateView_dbOk hdb call.tip fun view hview h =>
    ⟨h.rows, h.reached, h.stored, h.limit, h.unfinished, h.ended,
      ⟨fun hlabel => (by cases hlabel), fun hlimit => (by cases hlimit.2.2)⟩,
      fun hstrict hcomplete => absurd hcomplete (by simpa using hopen hstrict view hview)⟩

theorem index_dbOk (hdb : DbOk repository.graph strict db) (call : IndexCall)
    (hselect : strict → call.fault .selectView = none) :
    DbOk repository.graph strict (index repository call db).2 := by
  have htouched := touched_dbOk hdb call
  rcases index_cases repository call db with h | h | h | ⟨error, herror, h | h⟩
  · rw [h]
    exact hdb
  · rw [h]
    exact insertView_dbOk hdb call.tip call.time
  · exact indexBatch_dbOk htouched h
  · rw [h]
    exact htouched
  · rw [h]
    exact recorded_dbOk htouched call _ fun hstrict view =>
      indexBatch_error herror (hselect hstrict)

/-- What a call of `schedule` can do. -/
theorem schedule_cases (call : IndexCall) (db : HistoryDb) :
    (schedule call db).2 = db ∨ (schedule call db).2 = insertView db call.tip.text call.time ∨
      (schedule call db).2 =
        updateView (insertView db call.tip.text call.time) call.tip.text fun view =>
          if view.complete then { view with updated := call.time } else view := by
  unfold schedule
  cases call.attempt .capacity with
  | error _ => exact Or.inl rfl
  | ok _ =>
    cases call.attempt .insertView with
    | error _ => exact Or.inl rfl
    | ok _ =>
      cases call.attempt .touchView with
      | error _ => exact Or.inr (Or.inl rfl)
      | ok _ => exact Or.inr (Or.inr rfl)

theorem schedule_dbOk (hdb : DbOk graph strict db) (call : IndexCall) :
    DbOk graph strict (schedule call db).2 := by
  have hinsert := insertView_dbOk hdb call.tip call.time
  rcases schedule_cases call db with h | h | h
  · rw [h]
    exact hdb
  · rw [h]
    exact hinsert
  · rw [h]
    refine updateView_dbOk hinsert call.tip fun view _ h => ?_
    split_ifs
    all_goals exact ⟨h.rows, h.reached, h.stored, h.limit, h.unfinished, h.ended, h.boundary, h.clean⟩

/-! ## Runs -/

/-- After any calls. The run is strict if no view could not be read. -/
theorem historyRun_dbOk (repository : Repository) (calls : List HistoryCall)
    (hselect : strict → ∀ call, HistoryCall.index call ∈ calls → call.fault .selectView = none) :
    DbOk repository.graph strict (historyRun repository calls) := by
  refine foldlRecOn calls (HistoryCall.run repository) (dbOk_empty _) fun db hdb c hc => ?_
  cases c with
  | index call => exact index_dbOk hdb call fun hstrict => hselect hstrict call hc
  | schedule call => exact schedule_dbOk hdb call

end Trufflepig.History
