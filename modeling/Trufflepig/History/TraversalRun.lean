import Trufflepig.History.TraversalSpec

/-!
# Runs of history calls

* `exists_indexBatch`: a batch in which nothing fails is written.
* `index_progress`: such a call goes on by one batch.
* `historyRun_traversal`: what the tables hold after any calls.
-/

namespace Trufflepig.History

open List Lib

variable {graph : CommitGraph} {strict : Prop} {repository : Repository} {call : IndexCall}

/-! ## Progress -/

variable {db : HistoryDb} {view : ViewRow}

theorem batchStart_eq (hdb : DbOk graph strict db) (hfind : db.views.find call.tip.text = some view)
    (hcomplete : view.complete = false) (htip : (graph.commit call.tip).isSome)
    (hfault : call.fault .selectParent = none) :
    ∃ start, graph.ancestor call.tip view.visited = some start ∧
      batchStart call db view.visited = .ok (some start.text) := by
  unfold batchStart
  split_ifs with hzero
  · refine ⟨call.tip, ?_, rfl⟩
    rw [hzero, CommitGraph.ancestor, if_pos htip]
    rfl
  · obtain ⟨row, commit, p, hrow, hcommit, hparent, hp⟩ :=
      exists_next hdb hfind hcomplete (Nat.pos_of_ne_zero hzero)
    refine ⟨p, hp, bind_eq_ok.mpr ⟨(), attempt_eq hfault, ?_⟩⟩
    simp only [hrow, hcommit, hparent]

/-- The times of the commits fit into the column. -/
def TimesFit (graph : CommitGraph) : Prop :=
  ∀ oid commit, graph.commit oid = some commit → commit.time < 2 ^ 63

/-- A transaction in which nothing fails is committed. -/
theorem exists_writeBatch {start : GitOid} (hstart : (graph.commit start).isSome)
    (hfaults : ∀ step, call.fault step = none) (htimes : TimesFit graph) (cutoff : ℤ) (visited : ℕ)
    (last : Option GitOid) (db : HistoryDb) :
    ∃ db', writeBatch call cutoff visited (logBatch graph start visited) last db = .ok db' := by
  have hattempt : ∀ step, call.attempt step = .ok () := fun step => attempt_eq (hfaults step)
  have hwrites : ∃ s, (List.range' visited (logBatch graph start visited).count).foldlM
      (writeCommit call cutoff visited (logBatch graph start visited) last) db = .ok s := by
    refine exists_foldlM_ok (fun s depth hdepth => ?_) db
    obtain ⟨hlow, hhigh⟩ := mem_range'_1.mp hdepth
    obtain ⟨oid, commit, hlisted, -, hcommit⟩ :=
      exists_listed hstart (show depth - visited < (logBatch graph start visited).count by omega)
    rw [show depth = visited + (depth - visited) by omega,
      writeCommit_eq (commit_of_listed hstart visited) (logBatch_fields graph start visited) cutoff
        visited last s hlisted hcommit, if_pos (htimes oid commit hcommit)]
    exact ⟨_, bind_eq_ok.mpr ⟨(), hattempt _, bind_eq_ok.mpr ⟨(), hattempt _, rfl⟩⟩⟩
  obtain ⟨s, hs⟩ := hwrites
  obtain ⟨db', hdelete⟩ : ∃ db', deleteObsolete call (updateView s call.tip.text
      (batchView call (logBatch graph start visited) last)) = .ok db' := by
    unfold deleteObsolete
    cases obsoleteTip _ _ with
    | none => exact ⟨_, rfl⟩
    | some tip => exact ⟨_, bind_eq_ok.mpr ⟨(), hattempt _, bind_eq_ok.mpr ⟨(), hattempt _, rfl⟩⟩⟩
  refine ⟨db', bind_eq_ok.mpr ⟨(), hattempt _, bind_eq_ok.mpr ⟨s, hs, bind_eq_ok.mpr
    ⟨(), hattempt _, bind_eq_ok.mpr ⟨(), hattempt _, bind_eq_ok.mpr ⟨db', hdelete, ?_⟩⟩⟩⟩⟩⟩
  exact bind_eq_ok.mpr ⟨(), hattempt _, rfl⟩

theorem obsoleteTip_some {limit : ℤ} {tip : Bytes} (h : obsoleteTip db limit = some tip) :
    ∃ view, db.views.find tip = some view ∧ view.updated < limit := by
  obtain ⟨view, hview, rfl⟩ := Option.map_eq_some_iff.mp h
  have hmem := mem_of_head? hview
  rw [mem_mergeSort, mem_filter, decide_eq_true_eq] at hmem
  exact ⟨view, SortedTable.find_of_mem hmem.1, hmem.2⟩

section

variable (hdb : DbOk repository.graph strict db)
  (htip : (repository.graph.commit call.tip).isSome) (hfaults : ∀ step, call.fault step = none)
  (htimes : TimesFit repository.graph) (hshallow : repository.shallow = false)
  (hcomplete : view.complete = false)
include hdb htip hfaults htimes hshallow hcomplete

/-- A call in which nothing fails succeeds on an open view. -/
theorem exists_indexBatch (hfind : db.views.find call.tip.text = some view) :
    ∃ db', indexBatch repository call db = .ok db' := by
  have hattempt : ∀ step, call.attempt step = .ok () := fun step => attempt_eq (hfaults step)
  obtain ⟨start, hancestor, hstart⟩ := batchStart_eq hdb hfind hcomplete htip (hfaults _)
  have hcommit := CommitGraph.commit_of_ancestor hancestor
  have hlast : lastParent repository call (logBatch repository.graph start view.visited) =
      .ok none := by
    refine bind_eq_ok.mpr ⟨(), hattempt _, ?_⟩
    rw [if_neg (by simp [hshallow])]
    rfl
  obtain ⟨db', hwrite⟩ :=
    exists_writeBatch hcommit hfaults htimes view.cutoff view.visited none db
  refine ⟨db', bind_eq_ok.mpr ⟨(), hattempt _, ?_⟩⟩
  simp only [hfind, hcomplete]
  exact bind_eq_ok.mpr ⟨(), hattempt _, bind_eq_ok.mpr ⟨_, hstart, bind_eq_ok.mpr
    ⟨_, batchFields_eq hcommit view.visited rfl (hfaults _), bind_eq_ok.mpr ⟨_, hlast, hwrite⟩⟩⟩⟩

variable (call) in
/-- A call in which nothing fails, on a clock that does not jump by a month, adds the
commits of its batch. -/
theorem index_progress (hclock : call.obsolete - 30 * 86400 ≤ call.updated)
    (hfind : (touched call db).views.find call.tip.text = some view) :
    ∃ start view', repository.graph.ancestor call.tip view.visited = some start ∧
      (index repository call db).2.views.find call.tip.text = some view' ∧
      view'.visited = view.visited + (logBatch repository.graph start view.visited).count := by
  have htouched := touched_dbOk hdb call
  obtain ⟨db', hbatch⟩ :=
    exists_indexBatch htouched htip hfaults htimes hshallow hcomplete hfind
  have hindex : (index repository call db).2 = db' := by
    have hattempt : ∀ step, call.attempt step = .ok () := fun step => attempt_eq (hfaults step)
    simp only [index, hattempt, hbatch]
  rw [hindex]
  obtain ⟨v, hv, ⟨hdone, -⟩ | ⟨-, start, last, s, hstart, hs, hdelete⟩⟩ := indexBatch_ok htouched hbatch
  · obtain rfl := Option.some.inj (hv.symm.trans hfind)
    rw [hcomplete] at hdone
    cases hdone
  · obtain rfl := Option.some.inj (hv.symm.trans hfind)
    obtain ⟨view', hafter, hvisited, hupdated⟩ : ∃ view', (updateView s call.tip.text
        (batchView call (logBatch repository.graph start v.visited) last)).views.find call.tip.text =
          some view' ∧ view'.visited = v.visited + (logBatch repository.graph start v.visited).count ∧
        view'.updated = call.updated := by
      rw [find_updateView, if_pos rfl, hs.views, hfind]
      exact ⟨_, rfl, rfl, rfl⟩
    refine ⟨start, view', hstart, ?_, hvisited⟩
    rcases deleteObsolete_ok hdelete with rfl | ⟨tip, hobsolete, rfl⟩
    · exact hafter
    · -- the view has just been updated
      rw [find_deleteView, if_neg, hafter]
      rintro rfl
      obtain ⟨w, hw, hlimit⟩ := obsoleteTip_some hobsolete
      obtain rfl := Option.some.inj (hafter.symm.trans hw)
      omega

end

/-! ## What the tables hold -/

theorem traversal_distinct (hdb : DbOk graph strict db) {tip : GitOid} {i j : ℕ}
    {row row' : TraversalRow} (hi : db.traversal tip.text i = some row)
    (hj : db.traversal tip.text j = some row') (hoid : row.oid = row'.oid) : i = j := by
  cases hfind : db.views.find tip.text with
  | none =>
    rw [hdb.orphans tip hfind] at hi
    cases hi
  | some view =>
    have hview := hdb.views tip view hfind
    rw [hview.rows] at hi hj
    split_ifs at hi hj
    obtain ⟨oid, hancestor, hrow⟩ := Option.bind_eq_some_iff.mp hi
    obtain ⟨oid', hancestor', hrow'⟩ := Option.bind_eq_some_iff.mp hj
    obtain ⟨_, -, rfl⟩ := Option.map_eq_some_iff.mp hrow
    obtain ⟨_, -, rfl⟩ := Option.map_eq_some_iff.mp hrow'
    obtain rfl := text_injective hoid
    exact CommitGraph.ancestor_injective hancestor hancestor'

/-- **Stored traversals.** After any calls, of any tips and with any failures, the
traversal of a tip is an initial segment of its first-parent chain: the commit at
every depth below `visited`, eligible by its time, and nothing else. A complete
view has reached the end of the chain or the limit. The label is `depth_limited`
exactly if the limit was reached, the chain goes on, and no failure is recorded;
none is on a view that has reached the limit, unless reading a view failed. -/
theorem historyRun_traversal (repository : Repository) (calls : List HistoryCall) (tip : GitOid) :
    let graph := repository.graph
    let db := historyRun repository calls
    (db.views.find tip.text = none → ∀ i, db.traversal tip.text i = none) ∧
    ∀ view, db.views.find tip.text = some view →
      (∀ i < view.visited, ∃ oid commit, graph.ancestor tip i = some oid ∧
        graph.commit oid = some commit ∧
        db.traversal tip.text i = some ⟨oid.text, decide (view.cutoff ≤ commit.time)⟩) ∧
      (∀ i, view.visited ≤ i → db.traversal tip.text i = none) ∧
      (∀ i j row row', db.traversal tip.text i = some row → db.traversal tip.text j = some row' →
        row.oid = row'.oid → i = j) ∧
      (view.complete = true →
        graph.ancestor tip view.visited = none ∨ view.visited = maxCommits) ∧
      (view.boundary = .depthLimited ↔
        view.visited = maxCommits ∧ (graph.ancestor tip maxCommits).isSome ∧ view.failure = none) ∧
      ((∀ call, HistoryCall.index call ∈ calls → call.fault .selectView = none) →
        (view.boundary = .depthLimited ↔
          view.visited = maxCommits ∧ (graph.ancestor tip maxCommits).isSome)) := by
  intro graph db
  have hdb : DbOk graph _ db := historyRun_dbOk repository calls id
  refine ⟨hdb.orphans tip, fun view hfind => ?_⟩
  have hview := hdb.views tip view hfind
  refine ⟨fun i hi => ?_, fun i hi => ?_, fun i j row row' => traversal_distinct hdb, hview.ended,
    hview.boundary, fun hselect => ?_⟩
  · obtain ⟨oid, hoid⟩ := Option.isSome_iff_exists.mp (hview.reached i hi)
    obtain ⟨commit, hcommit⟩ := Option.isSome_iff_exists.mp (CommitGraph.commit_of_ancestor hoid)
    refine ⟨oid, commit, hoid, hcommit, ?_⟩
    rw [hview.rows, if_pos hi, traversalRow, hoid]
    simp [hcommit]
  · rw [hview.rows, if_neg (Nat.not_lt.mpr hi)]
  · rw [hview.boundary]
    constructor
    · exact fun h => ⟨h.1, h.2.1⟩
    · rintro ⟨hvisited, hsome⟩
      refine ⟨hvisited, hsome, hview.clean hselect ?_⟩
      by_contra hopen
      have := (hview.unfinished (by simpa using hopen)).1
      omega

/-! ## A label that is lost -/

/-- The id with the bits of a number. -/
def lineOid (k : ℕ) : GitOid :=
  ⟨(List.range 40).map fun i => if k.testBit i then 49 else 48, by simp⟩

/-- The number of an id. -/
def lineNumber (oid : GitOid) : ℕ := Nat.ofBits fun i : Fin 40 => oid.text.getD i 0 == 49

variable {k : ℕ}

theorem lineNumber_lineOid (hk : k < 2 ^ 40) : lineNumber (lineOid k) = k := by
  have hbits : (fun i : Fin 40 => (lineOid k).text.getD i 0 == 49) = fun i : Fin 40 => k.testBit i := by
    funext i
    have hi : ((List.range 40).map fun i => if k.testBit i then (49 : UInt8) else 48).getD i 0 =
        if k.testBit i then 49 else 48 := by simp
    show (((List.range 40).map fun i => if k.testBit i then (49 : UInt8) else 48).getD i 0 == 49) = _
    rw [hi]
    cases k.testBit i <;> rfl
  rw [lineNumber, hbits, Nat.ofBits_testBit, Nat.mod_eq_of_lt hk]

/-- The commits `0`, …, `n`, each the parent of the next. -/
def lineCommit (n : ℕ) (oid : GitOid) : Option Commit :=
  if lineNumber oid ≤ n ∧ oid = lineOid (lineNumber oid) then
    some ⟨if lineNumber oid = 0 then [] else [lineOid (lineNumber oid - 1)], 0, []⟩
  else none

variable {n : ℕ}

theorem lineCommit_lineOid (hn : n < 2 ^ 40) (hk : k ≤ n) :
    lineCommit n (lineOid k) = some ⟨if k = 0 then [] else [lineOid (k - 1)], 0, []⟩ := by
  have hnumber := lineNumber_lineOid (show k < 2 ^ 40 by omega)
  rw [lineCommit, hnumber, if_pos ⟨hk, rfl⟩]

theorem lineCommit_eq_some {oid : GitOid} {commit : Commit} (h : lineCommit n oid = some commit) :
    ∃ k ≤ n, oid = lineOid k ∧ lineNumber oid = k ∧
      commit = ⟨if k = 0 then [] else [lineOid (k - 1)], 0, []⟩ := by
  unfold lineCommit at h
  by_cases hoid : lineNumber oid ≤ n ∧ oid = lineOid (lineNumber oid)
  · rw [if_pos hoid] at h
    exact ⟨lineNumber oid, hoid.1, hoid.2, rfl, (Option.some.inj h).symm⟩
  · rw [if_neg hoid] at h
    cases h

/-- A parent in the line. -/
theorem mem_lineParents {p : GitOid} (h : p ∈ if k = 0 then [] else [lineOid (k - 1)]) :
    0 < k ∧ p = lineOid (k - 1) := by
  split_ifs at h with hk
  · cases h
  · exact ⟨Nat.pos_of_ne_zero hk, mem_singleton.mp h⟩

theorem lineOid_canonical (k : ℕ) : GitOid.parse (lineOid k).text = .ok (lineOid k) := by
  have hdigit : ∀ b ∈ (lineOid k).text, b = 48 ∨ b = 49 := by
    intro b hb
    obtain ⟨i, -, rfl⟩ := mem_map.mp hb
    cases k.testBit i <;> simp
  have hall : (lineOid k).text.all isHexDigit = true := by
    rw [all_eq_true]
    intro b hb
    rcases hdigit b hb with rfl | rfl <;> rfl
  have hlower : (lineOid k).text.map toLowercase = (lineOid k).text := by
    conv_rhs => rw [← map_id (lineOid k).text]
    refine map_congr_left fun b hb => ?_
    rcases hdigit b hb with rfl | rfl <;> rfl
  rw [GitOid.parse, dif_pos ⟨(lineOid k).length, hall⟩]
  congr 1
  exact text_injective hlower

/-- A linear history. -/
def lineGraph (n : ℕ) (hn : n < 2 ^ 40) : CommitGraph where
  commit := lineCommit n
  rank := lineNumber
  parent_mem oid commit h p hp := by
    obtain ⟨k, hk, -, -, rfl⟩ := lineCommit_eq_some h
    obtain ⟨-, rfl⟩ := mem_lineParents hp
    rw [lineCommit_lineOid hn (by omega)]
    rfl
  rank_lt oid commit h p hp := by
    obtain ⟨k, hk, -, hnumber, rfl⟩ := lineCommit_eq_some h
    obtain ⟨hpositive, rfl⟩ := mem_lineParents hp
    rw [lineNumber_lineOid (by omega), hnumber]
    omega
  canonical oid commit h := by
    obtain ⟨k, -, rfl, -, -⟩ := lineCommit_eq_some h
    exact lineOid_canonical k
  summary_text oid commit h := by
    obtain ⟨k, -, -, -, rfl⟩ := lineCommit_eq_some h
    exact not_mem_nil

theorem lineGraph_commit (hn : n < 2 ^ 40) (hk : k ≤ n) :
    (lineGraph n hn).commit (lineOid k) = some ⟨if k = 0 then [] else [lineOid (k - 1)], 0, []⟩ :=
  lineCommit_lineOid hn hk

theorem lineGraph_ancestor (hn : n < 2 ^ 40) {i : ℕ} (hi : i ≤ n) :
    (lineGraph n hn).ancestor (lineOid n) i = some (lineOid (n - i)) := by
  induction i with
  | zero =>
    rw [CommitGraph.ancestor, lineGraph_commit hn (Nat.le_refl n)]
    rfl
  | succ i ih =>
    have hcommit := lineGraph_commit hn (show n - i ≤ n by omega)
    have hparent : (lineGraph n hn).firstParent (lineOid (n - i)) = some (lineOid (n - i - 1)) := by
      rw [CommitGraph.firstParent, hcommit, if_neg (show n - i ≠ 0 by omega)]
      rfl
    rw [ancestor_from (ih (by omega)) 1, CommitGraph.ancestor, hcommit]
    exact hparent

theorem historyRun_concat (repository : Repository) (calls : List HistoryCall) (call : IndexCall) :
    historyRun repository (calls ++ [.index call]) =
      (index repository call (historyRun repository calls)).2 := by
  rw [historyRun, foldl_append]
  rfl

/-- A call in which nothing fails. -/
def smoothCall (tip : GitOid) : IndexCall := ⟨tip, 0, 0, 0, fun _ => none⟩

theorem touched_visited (call : IndexCall) (h : db.views.find call.tip.text = some view) :
    ∃ view', (touched call db).views.find call.tip.text = some view' ∧
      view'.visited = view.visited := by
  have hinsert : insertView db call.tip.text call.time = db := by rw [insertView, h]
  rw [touched, hinsert, find_updateView, if_pos rfl, h]
  exact ⟨_, rfl, rfl⟩

theorem touched_new (call : IndexCall) (h : db.views.find call.tip.text = none) :
    ∃ view, (touched call db).views.find call.tip.text = some view ∧ view.visited = 0 := by
  rw [touched, find_updateView, if_pos rfl, insertView, h]
  show ∃ view, (SortedTable.find (SortedTable.insert db.views _) _).map _ = some view ∧ _
  rw [SortedTable.find_insert, if_pos rfl]
  exact ⟨_, rfl, rfl⟩

/-- A complete view is left as it is. -/
theorem index_complete (call : IndexCall) (hfaults : ∀ step, call.fault step = none)
    (hfind : (touched call db).views.find call.tip.text = some view)
    (hcomplete : view.complete = true) : (index repository call db).2 = touched call db := by
  have hattempt : ∀ step, call.attempt step = .ok () := fun step => attempt_eq (hfaults step)
  have hbatch : indexBatch repository call (touched call db) = .ok (touched call db) := by
    refine bind_eq_ok.mpr ⟨(), hattempt _, ?_⟩
    simp only [hfind, hcomplete]
    rfl
  simp only [index, hattempt, hbatch]

/-- A batch of a chain that reaches the limit is full, or reaches it too. -/
theorem logBatch_count_full {start : GitOid} {visited : ℕ} (hvisited : visited < maxCommits)
    (h : (graph.ancestor start (maxCommits - visited)).isSome) :
    (logBatch graph start visited).count = min 128 (maxCommits - visited) := by
  have hstart := CommitGraph.commit_tip h
  have htotal : min 128 (maxCommits - visited) < (logBatch graph start visited).total := by
    rw [logBatch_total hstart, listed, lt_length_segment]
    have hsome := CommitGraph.isSome_ancestor_of_le
      (show min 128 (maxCommits - visited) ≤ maxCommits - visited by omega) h
    rw [CommitGraph.ancestor, if_pos hstart] at hsome
    exact ⟨by omega, hsome⟩
  show min (min 128 (logBatch graph start visited).total) (maxCommits - visited) = _
  omega

/-- Calls in which nothing fails, on a chain that reaches the limit. -/
theorem smoothRun_visited {tip : GitOid}
    (hchain : (repository.graph.ancestor tip maxCommits).isSome)
    (htimes : TimesFit repository.graph) (hshallow : repository.shallow = false) (m : ℕ) :
    ∃ view, (touched (smoothCall tip) (historyRun repository
        (List.replicate m (.index (smoothCall tip))))).views.find tip.text = some view ∧
      view.visited = min (128 * m) maxCommits := by
  induction m with
  | zero =>
    obtain ⟨view, hfind, hvisited⟩ := touched_new (smoothCall tip)
      (show HistoryDb.empty.views.find (smoothCall tip).tip.text = none from rfl)
    exact ⟨view, hfind, by omega⟩
  | succ m ih =>
    obtain ⟨view, hfind, hvisited⟩ := ih
    rw [replicate_succ', historyRun_concat]
    have hdb : DbOk _ False _ :=
      historyRun_dbOk repository (List.replicate m (.index (smoothCall tip))) False.elim
    generalize historyRun repository (List.replicate m (.index (smoothCall tip))) = db at *
    have hview := (touched_dbOk hdb (smoothCall tip)).views tip view hfind
    cases hcomplete : view.complete with
    | true =>
      have hlimit : view.visited = maxCommits := by
        rcases hview.ended hcomplete with hnone | hlimit
        · have := CommitGraph.isSome_ancestor_of_le hview.limit hchain
          rw [hnone] at this
          cases this
        · exact hlimit
      rw [index_complete (smoothCall tip) (fun _ => rfl) hfind hcomplete]
      obtain ⟨view', hfind', hvisited'⟩ := touched_visited (smoothCall tip) hfind
      exact ⟨view', hfind', by omega⟩
    | false =>
      have hopen := (hview.unfinished hcomplete).1
      obtain ⟨start, view', hstart, hfind', hvisited'⟩ := index_progress (smoothCall tip) hdb
        (CommitGraph.commit_tip hchain) (fun _ => rfl) htimes hshallow hcomplete
        (show (0 : ℤ) - 30 * 86400 ≤ 0 by decide) hfind
      have hstart : repository.graph.ancestor tip view.visited = some start := hstart
      have hrest : (repository.graph.ancestor start (maxCommits - view.visited)).isSome := by
        rw [← ancestor_from hstart,
          show view.visited + (maxCommits - view.visited) = maxCommits by omega]
        exact hchain
      rw [logBatch_count_full hopen hrest] at hvisited'
      obtain ⟨view'', hfind'', hvisited''⟩ := touched_visited (smoothCall tip) hfind'
      exact ⟨view'', hfind'', by omega⟩

/-- The label is lost when a complete view cannot be read: `index` records the failure
of that read in its place. -/
theorem depthLimited_label_lost :
    ∃ repository calls tip view, (historyRun repository calls).views.find (GitOid.text tip) = some view ∧
      view.visited = maxCommits ∧ (repository.graph.ancestor tip maxCommits).isSome ∧
      view.boundary ≠ .depthLimited := by
  let repository : Repository := ⟨lineGraph 20000 (by decide), false, fun _ => []⟩
  let tip := lineOid 20000
  let lost : IndexCall :=
    ⟨tip, 0, 0, 0, fun step => if step = .selectView then some "disk I/O error" else none⟩
  have hchain : (repository.graph.ancestor tip maxCommits).isSome := by
    rw [show repository.graph.ancestor tip maxCommits = _ from
      lineGraph_ancestor (by decide) (show maxCommits ≤ 20000 by decide)]
    rfl
  have htimes : TimesFit repository.graph := by
    intro oid commit h
    obtain ⟨k, -, -, -, rfl⟩ := lineCommit_eq_some h
    show 0 < 2 ^ 63
    decide
  obtain ⟨view, hfind, hvisited⟩ := smoothRun_visited hchain htimes rfl 157
  have hindex : ∀ db, (index repository lost db).2 =
      recorded lost (failureCategory (.external "disk I/O error")) (touched lost db) := fun _ => rfl
  refine ⟨repository, List.replicate 157 (.index (smoothCall tip)) ++ [.index lost], tip, ?_⟩
  rw [historyRun_concat, hindex]
  generalize historyRun repository (List.replicate 157 (.index (smoothCall tip))) = db at hfind ⊢
  have hlost : (touched lost db).views.find lost.tip.text = some view := hfind
  rw [recorded, find_updateView, if_pos rfl, hlost]
  refine ⟨_, rfl, ?_, hchain, fun h => ?_⟩
  · exact hvisited.trans (by decide)
  · cases h

end Trufflepig.History
