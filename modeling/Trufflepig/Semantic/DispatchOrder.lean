import Trufflepig.Semantic.WorkerAccount

/-!
# The order in which batches reach the executor

The queues of the scheduler are first in, first out. While the engine is not loaded, though,
`process_at` takes a batch and puts it back behind the others of its queue.

* `InLine`: the batches of a root and class that the executor has taken, that have been sent to
  it and that are queued are, in this order, among those admitted.
* `executed_in_order`: in a run in which no batch is put back behind another one of its queue,
  the batches of a root and class reach the executor in the order of their admission.
* `put_back_overtaken`: a run in which a batch is put back and overtaken.
-/

namespace Trufflepig.Semantic

open List Lib

/-! ## The line of a root and class -/

/-- Whether a request is one for embedding, of a root and class. -/
def WorkerCommand.isOf (root : Bytes) (c : RequestClass) : WorkerCommand → Bool
  | .embed kind rootId _ _ => kind = c && rootId = root
  | _ => false

namespace WorkerRuntime

/-- The requests in a queue of the scheduler are those of its root and class. -/
def Placed (w : WorkerRuntime) : Prop :=
  ∀ root c, ∀ item ∈ w.scheduler.queue root c, item.request.command.isOf root c = true

/-- The batches that have been sent or are queued, of a root and class. -/
def line (w : WorkerRuntime) (root : Bytes) (c : RequestClass) : List RunningConnection :=
  w.lane.executor.queuedJobs.filter (·.request.command.isOf root c) ++
    (w.scheduler.queue root c).map QueuedConnection.run

/-- The batches of a root and class that have been admitted. -/
def admittedOf (w : WorkerRuntime) (root : Bytes) (c : RequestClass) : List RunningConnection :=
  (w.admitted.map QueuedConnection.run).filter (·.request.command.isOf root c)

variable {w w' : WorkerRuntime} {nowMs now : ℕ}

/-- The line of the worker, behind what the executor has taken: the batches of a root and class
that have been executed, sent or queued are in this order among those admitted. -/
structure InLine (w : WorkerRuntime) (executed : List RunningConnection) : Prop where
  placed : w.Placed
  sublist : ∀ root c,
    (executed.filter (·.request.command.isOf root c) ++ w.line root c).Sublist
      (w.admittedOf root c)

variable {executed : List RunningConnection}

theorem InLine.of_same (h : w.InLine executed) (hsame : Same w w') : w'.InLine executed := by
  refine ⟨fun root c => ?_, fun root c => ?_⟩
  · rw [hsame.scheduler]
    exact h.placed root c
  · rw [line, admittedOf, hsame.scheduler, hsame.jobs, hsame.admitted]
    exact h.sublist root c

theorem isOf_iff {command : WorkerCommand} {root : Bytes} {c : RequestClass} :
    command.isOf root c = true ↔
      ∃ texts deadlineMs, command = .embed c root texts deadlineMs := by
  cases command with
  | status | stop | rerank => exact ⟨fun h => (nomatch h), fun ⟨_, _, h⟩ => (nomatch h)⟩
  | embed kind rootId texts deadlineMs =>
    show (decide (kind = c) && decide (rootId = root)) = true ↔ _
    rw [Bool.and_eq_true, decide_eq_true_iff, decide_eq_true_iff]
    constructor
    · rintro ⟨rfl, rfl⟩
      exact ⟨texts, deadlineMs, rfl⟩
    · rintro ⟨_, _, h⟩
      obtain ⟨rfl, rfl, -, -⟩ := WorkerCommand.embed.inj h
      exact ⟨rfl, rfl⟩

/-- A batch is of one root and class only. -/
theorem isOf_unique {command : WorkerCommand} {root root' : Bytes} {c c' : RequestClass}
    (h : command.isOf root c = true) (h' : command.isOf root' c' = true) :
    root' = root ∧ c' = c := by
  obtain ⟨texts, deadlineMs, rfl⟩ := isOf_iff.mp h
  obtain ⟨texts', deadlineMs', heq⟩ := isOf_iff.mp h'
  obtain ⟨hc, hroot, -, -⟩ := WorkerCommand.embed.inj heq
  exact ⟨hroot.symm, hc.symm⟩

/-- A new batch goes behind all others. -/
theorem InLine.of_admits (h : w.InLine executed) (hadmits : Admits w w') : w'.InLine executed := by
  obtain hsame | @⟨kind, rootId, texts, deadlineMs, queued, hcommand, hscheduler, hjobs, hadmitted⟩ :=
    hadmits
  · exact h.of_same hsame
  have hof := isOf_iff.mpr ⟨texts, deadlineMs, hcommand⟩
  refine ⟨fun root c item hitem => ?_, fun root c => ?_⟩
  · rw [hscheduler, FairScheduler.enqueue_queue] at hitem
    split_ifs at hitem with hsame
    · obtain ⟨rfl, rfl⟩ := hsame
      exact forall_mem_append.mpr ⟨h.placed _ _, forall_mem_singleton.mpr hof⟩ item hitem
    · exact h.placed root c item hitem
  · have hsublist := h.sublist root c
    rw [line, hscheduler, hjobs, FairScheduler.enqueue_queue, admittedOf, hadmitted,
      map_append, filter_append]
    split_ifs with hsame
    · obtain ⟨rfl, rfl⟩ := hsame
      rw [map_append, ← append_assoc, ← append_assoc, append_assoc (List.filter _ executed)]
      refine hsublist.append ?_
      rw [map_singleton, filter_cons_of_pos (by exact hof)]
      exact List.Sublist.refl _
    · exact hsublist.trans (sublist_append_left ..)

/-- The batches of the root and class of a batch that are queued. -/
def alike (s : FairScheduler QueuedConnection) (item : QueuedConnection) :
    List QueuedConnection :=
  match item.request.command with
  | .embed kind rootId _ _ => s.queue rootId kind
  | _ => []

/-- The next batch is put back only where no other one of its root and class is queued. -/
def PutBackAlone (w : WorkerRuntime) (nowMs now : ℕ) : Prop :=
  ∀ item ∈ w.scheduler.pop.1, w.putsBack item nowMs now = true →
    alike w.scheduler.pop.2 item = []

instance (w : WorkerRuntime) (nowMs now : ℕ) : Decidable (w.PutBackAlone nowMs now) :=
  inferInstanceAs (Decidable (∀ item ∈ w.scheduler.pop.1, w.putsBack item nowMs now = true →
    alike w.scheduler.pop.2 item = []))

theorem InLine.process (h : w.InLine executed) (hgood : w.Good)
    (halone : w.PutBackAlone nowMs now) (hprocess : w.process nowMs now = some w') :
    w'.InLine executed := by
  obtain ⟨hactive, hgood', c, r, item, skipped, after, hitem, hpopped, rfl⟩ :=
    hgood.process_eq_some hprocess
  have hof := h.placed r c item (hpopped.front ▸ mem_cons_self)
  -- Every queue lies in the one before, without the batch taken.
  have hrest : ∀ root d, (w.scheduler.pop.2.queue root d).Sublist (w.scheduler.queue root d) := by
    intro root d
    by_cases hsame : root = r ∧ d = c
    · rw [hsame.1, hsame.2, hpopped.front]
      exact sublist_cons_self ..
    · rw [hpopped.others root d hsame]
  have hpoppedLine : ({ w with scheduler := w.scheduler.pop.2 } : WorkerRuntime).InLine executed :=
    ⟨fun root d other hother => h.placed root d other ((hrest root d).subset hother),
      fun root d => List.Sublist.trans (((hrest root d).map _).append_left _ |>.append_left _)
        (h.sublist root d)⟩
  rcases (hgood'.processAt item hactive nowMs now 0 0).1 with
    hsame | @⟨kind, rootId, texts, deadlineMs, hback, hcommand, hscheduler, hjobs, hadmitted⟩ |
      ⟨hscheduler, hjobs, hadmitted⟩
  · exact hpoppedLine.of_same hsame
  · -- The queue of the batch is empty, so that putting it back undoes taking it.
    obtain ⟨texts', deadlineMs', hcommand'⟩ := isOf_iff.mp hof
    obtain ⟨rfl, rfl, -, -⟩ := WorkerCommand.embed.inj (hcommand.symm.trans hcommand')
    have hempty : w.scheduler.pop.2.queue rootId kind = [] := by
      have halike := halone item hitem hback
      rw [alike, hcommand] at halike
      exact halike
    have hroot : RootIdent.rootId item = rootId := by
      dsimp only [RootIdent.rootId]
      rw [hcommand]
    have hqueue : ∀ root d, (w.scheduler.pop.2.push kind item).queue root d =
        w.scheduler.queue root d := by
      intro root d
      rw [FairScheduler.push, FairScheduler.enqueue_queue, hroot]
      split_ifs with hsame
      · rw [hsame.1, hsame.2, hpopped.front, hempty]
        rfl
      · exact hpopped.others root d hsame
    refine ⟨fun root d => ?_, fun root d => ?_⟩
    · rw [hscheduler, hqueue]
      exact h.placed root d
    · rw [line, admittedOf, hadmitted, hscheduler, hjobs, hqueue]
      exact h.sublist root d
  · -- The batch goes from the head of its queue to the end of those sent.
    refine ⟨fun root d => ?_, fun root d => ?_⟩
    · rw [hscheduler]
      exact hpoppedLine.placed root d
    · rw [line, admittedOf, hadmitted, hscheduler, hjobs, filter_append]
      by_cases hsame : root = r ∧ d = c
      · have hsublist := h.sublist root d
        rw [line, hsame.1, hsame.2, hpopped.front] at hsublist
        rw [hsame.1, hsame.2, filter_cons_of_pos (by exact hof), append_assoc]
        exact hsublist
      · rw [filter_cons_of_neg (by exact fun hother => hsame (isOf_unique hof hother)),
          filter_nil, append_nil]
        exact hpoppedLine.sublist root d

end WorkerRuntime

namespace System

/-- No batch is put back behind another one of its root and class. -/
def NoOvertaking (s : System) : Action → Prop
  | .process nowMs now => s.worker.PutBackAlone nowMs now
  | _ => True

instance (s : System) : ∀ action, Decidable (s.NoOvertaking action)
  | .process nowMs now => inferInstanceAs (Decidable (s.worker.PutBackAlone nowMs now))
  | .accept | .read .. | .handle .. | .poll .. | .pump .. | .rerankPoll .. | .unloadIdle _
  | .rerankUnloadIdle _ | .work _ | .rerankWork _ | .finish => isTrue trivial

variable {s : System}

open WorkerRuntime in
theorem inLine_step {s' : System} {action : Action} (hmoves : Moves s s' action)
    (hcondition : s.NoOvertaking action) (h : s.worker.InLine s.executed) :
    s'.worker.InLine s'.executed := by
  cases hmoves with
  | admits hadmits hexecuted =>
    rw [hexecuted]
    exact h.of_admits hadmits
  | process hgood hprocess hexecuted =>
    rw [hexecuted]
    exact h.process hgood hcondition hprocess
  | work hscheduler hadmitted hjobs =>
    refine ⟨fun root c => ?_, fun root c => ?_⟩
    · rw [hscheduler]
      exact h.placed root c
    · rw [line, admittedOf, hscheduler, hadmitted, ← append_assoc, ← filter_append, hjobs,
        filter_append, append_assoc]
      exact h.sublist root c

theorem reaches_inLine (h : Reaches NoOvertaking s) :
    s.worker.InLine s.executed := by
  induction h with
  | init config handshake now =>
    exact ⟨fun root c item hitem => (nomatch hitem), fun root c => List.Sublist.refl _⟩
  | step action hreaches hcondition hstep ih =>
    exact inLine_step ((reaches_sound hreaches).1.step hstep).2.2 hcondition ih

/-- In a run in which no batch is put back behind another one of its root and class, the batches
of a root and class reach the executor in the order in which they were admitted. -/
theorem executed_in_order {s : System} (h : Reaches NoOvertaking s) (root : Bytes)
    (c : RequestClass) :
    (s.executed.filter (·.request.command.isOf root c)).Sublist (s.worker.admittedOf root c) :=
  (sublist_append_left ..).trans ((reaches_inLine h).sublist root c)

/-- Two queries of one root, the second of which comes when the engine is loaded. -/
def queryAfterLoad : List Action :=
  let request : WorkerRequest := ⟨⟨1, [], [], []⟩, .embed .query [97] [[98]] 100⟩
  [.accept, .accept, .read 0 (.ok request), .read 1 (.ok request), .handle 0 0, .process 0 0,
    .work ⟨.ok (), .ok []⟩, .poll 0 0, .handle 0 0, .process 0 0, .work ⟨.ok (), .ok []⟩,
    .poll 0 0, .process 0 0, .work ⟨.ok (), .ok []⟩]

theorem executed_in_order_queryAfterLoad :
    ∃ s, (init ⟨[], none, none, none⟩ ⟨1, [], [], []⟩ 0).run queryAfterLoad = some s ∧
      Meets NoOvertaking (init ⟨[], none, none, none⟩ ⟨1, [], [], []⟩ 0) queryAfterLoad ∧
      s.executed.map RunningConnection.stream = [0, 1] ∧
      (s.executed.filter (·.request.command.isOf [97] .query)).Sublist
        (s.worker.admittedOf [97] .query) := by
  have hmeets : Meets NoOvertaking (init ⟨[], none, none, none⟩ ⟨1, [], [], []⟩ 0)
      queryAfterLoad := by
    decide +kernel
  have hrun : ((init ⟨[], none, none, none⟩ ⟨1, [], [], []⟩ 0).run queryAfterLoad).map (fun s =>
      s.executed.map RunningConnection.stream) = some [0, 1] := by
    decide +kernel
  obtain ⟨s, hs, hexecuted⟩ := Option.map_eq_some_iff.mp hrun
  exact ⟨s, hs, hmeets, hexecuted,
    executed_in_order (Reaches.of_meets (.init ..) hmeets hs) [97] .query⟩

/-- Two queries of one root: while the engine is loaded for the first, the second overtakes it. -/
def twoQueries : List Action :=
  let request : WorkerRequest := ⟨⟨1, [], [], []⟩, .embed .query [97] [[98]] 100⟩
  [.accept, .accept, .read 0 (.ok request), .read 1 (.ok request), .handle 0 0, .handle 0 0,
    .process 0 0, .work ⟨.ok (), .ok []⟩, .poll 0 0, .process 0 0, .work ⟨.ok (), .ok []⟩,
    .poll 0 0, .process 0 0, .work ⟨.ok (), .ok []⟩]

theorem put_back_overtaken :
    ∃ s, s.Reachable ∧ (init ⟨[], none, none, none⟩ ⟨1, [], [], []⟩ 0).run twoQueries = some s ∧
      (s.worker.admittedOf [97] .query).map RunningConnection.stream = [0, 1] ∧
      (s.executed.filter (·.request.command.isOf [97] .query)).map RunningConnection.stream =
        [1, 0] ∧
      ¬(s.executed.filter (·.request.command.isOf [97] .query)).Sublist
        (s.worker.admittedOf [97] .query) := by
  have hrun : ((init ⟨[], none, none, none⟩ ⟨1, [], [], []⟩ 0).run twoQueries).map (fun s =>
      ((s.worker.admittedOf [97] .query).map RunningConnection.stream,
        (s.executed.filter (·.request.command.isOf [97] .query)).map RunningConnection.stream)) =
      some ([0, 1], [1, 0]) := by
    decide +kernel
  obtain ⟨s, hs, hfacts⟩ := Option.map_eq_some_iff.mp hrun
  obtain ⟨hadmitted, hexecuted⟩ := Prod.mk.inj hfacts
  refine ⟨s, Reaches.of_meets (.init ..) (by decide +kernel) hs, hs, hadmitted, hexecuted,
    fun hsublist => ?_⟩
  have hstreams := hsublist.map RunningConnection.stream
  rw [hadmitted, hexecuted] at hstreams
  exact absurd hstreams (by decide)

end System

end Trufflepig.Semantic
