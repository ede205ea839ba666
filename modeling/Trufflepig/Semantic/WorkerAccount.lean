import Trufflepig.Semantic.Ledger

/-!
# The worker keeps its account

Every step of the system is a step of the account in `Semantic/Ledger.lean`, and leads each lane
from a phase to a phase.

* `WorkerRuntime.Good`: the scheduler is well formed and both lanes are in a phase.
* `System.Lanes.step`: a step keeps this and is a step of the account.
* `worker_invariant`: what holds in every state that is reached.
-/

namespace Trufflepig.Semantic

open List Lib

/-- The root of a background batch. -/
def WorkerCommand.backgroundRoot : WorkerCommand → Option Bytes
  | .embed .background rootId _ _ => some rootId
  | _ => none

def QueuedConnection.batch (item : QueuedConnection) : Batch :=
  ⟨item.stream, item.ticket.rawInputBytes, item.request.command.backgroundRoot⟩

def RunningConnection.batch (job : RunningConnection) : Batch :=
  ⟨job.stream, job.inflight.rawInputBytes, job.request.command.backgroundRoot⟩

namespace FairScheduler

variable {α : Type}

/-- All requests. -/
def items (s : FairScheduler α) : Multiset α := ↑(s.itemsOf .query) + ↑(s.itemsOf .background)

/-- An item that is in the queue of its class only. -/
theorem items_eq_cons {s s' : FairScheduler α} {c : RequestClass} {item : α}
    (h : ∀ c', (s.itemsOf c').Perm (if c' = c then item :: s'.itemsOf c' else s'.itemsOf c')) :
    s.items = item ::ₘ s'.items := by
  rw [items, Multiset.coe_eq_coe.mpr (h .query), Multiset.coe_eq_coe.mpr (h .background)]
  cases c with
  | query => rfl
  | background =>
    rw [if_neg (by decide), if_pos rfl, ← Multiset.cons_coe, Multiset.add_cons]
    rfl

theorem items_push [RootIdent α] {s : FairScheduler α} (h : s.Wf) (c : RequestClass) (item : α) :
    (s.push c item).items = item ::ₘ s.items :=
  items_eq_cons (itemsOf_enqueue h (RootIdent.rootId item) c item)

theorem Popped.items {s s' : FairScheduler α} (hwf : s.Wf) {c : RequestClass} {r : Bytes}
    {item : α} {skipped after : List Bytes} (h : Popped s s' c r item skipped after) :
    s.items = item ::ₘ s'.items := items_eq_cons (h.itemsOf hwf)

end FairScheduler

namespace WorkerRuntime

/-- The account of a worker, with the connections that wait and the number of those accepted. -/
def ledger (w : WorkerRuntime) (waiting : Multiset ℕ) (accepted : ℕ) : Ledger where
  waiting := waiting
  queued := (w.scheduler.items + w.rerank.queue).map QueuedConnection.batch
  running := (w.lane.executor.jobs + w.rerank.lane.executor.jobs).map RunningConnection.batch
  counters := w.admission
  roots := w.backgroundRoots
  replied := ↑(w.replies.map Prod.fst)
  accepted := accepted

/-- The batches of the reranking lane are no background batches. -/
structure RerankOnly (rerank : RerankLane) : Prop where
  queue : ∀ item ∈ rerank.queue, item.request.command.backgroundRoot = none
  jobs : ∀ job ∈ rerank.lane.executor.jobs, job.request.command.backgroundRoot = none

structure Good (w : WorkerRuntime) : Prop where
  wf : w.scheduler.Wf
  phase : w.lane.Phase
  rerankPhase : w.rerank.lane.Phase
  rerankOnly : RerankOnly w.rerank

/-- The parts of the worker that the order of its batches depends on are the same. -/
structure Same (w w' : WorkerRuntime) : Prop where
  scheduler : w'.scheduler = w.scheduler
  jobs : w'.lane.executor.queuedJobs = w.lane.executor.queuedJobs
  admitted : w'.admitted = w.admitted

/-- At most one batch is queued for embedding, and it is queued behind the others. -/
inductive Admits (w w' : WorkerRuntime) : Prop where
  | same (h : Same w w')
  | append {kind : RequestClass} {rootId : Bytes} {texts : List Bytes} {deadlineMs : ℕ}
    {queued : QueuedConnection}
    (hcommand : queued.request.command = .embed kind rootId texts deadlineMs)
    (hscheduler : w'.scheduler = w.scheduler.enqueue rootId kind queued)
    (hjobs : w'.lane.executor.queuedJobs = w.lane.executor.queuedJobs)
    (hadmitted : w'.admitted = w.admitted ++ [queued])

theorem replied_reply (w : WorkerRuntime) (stream : ℕ) (message : WorkerReply) :
    (↑((w.reply stream message).replies.map Prod.fst) : Multiset ℕ) =
      Ledger.answer true stream + ↑(w.replies.map Prod.fst) := by
  rw [reply, map_append, ← Multiset.coe_add, add_comm]
  rfl

variable {w w' : WorkerRuntime} {waiting : Multiset ℕ} {accepted nowMs now : ℕ}

/-- A request is refused with a reply. -/
theorem step_reply (w : WorkerRuntime) (stream : ℕ) (message : WorkerReply) :
    Ledger.Step (w.ledger (stream ::ₘ waiting) accepted)
      ((w.reply stream message).ledger waiting accepted) :=
  (Ledger.Step.reply _ true rfl).of_eq
    (Ledger.ext rfl rfl rfl rfl rfl (w.replied_reply stream message).symm rfl)

/-- A connection is dropped without a reply. -/
theorem step_ignore (w : WorkerRuntime) (stream : ℕ) :
    Ledger.Step (w.ledger (stream ::ₘ waiting) accepted) (w.ledger waiting accepted) :=
  (Ledger.Step.reply _ false rfl).of_eq (Ledger.ext rfl rfl rfl rfl rfl (zero_add _) rfl)

/-- The roots, the replies and the counters are not part of it. -/
theorem Good.withAccount (h : w.Good) (roots : Finset Bytes) (replies : List (ℕ × WorkerReply))
    (admission : AdmissionState) :
    ({ w with backgroundRoots := roots, replies := replies, admission := admission } :
      WorkerRuntime).Good := ⟨h.wf, h.phase, h.rerankPhase, h.rerankOnly⟩

/-- A step of the account that ends in a worker whose lanes are in a phase. -/
structure Advances (l : Ledger) (w : WorkerRuntime) (waiting : Multiset ℕ) (accepted : ℕ) : Prop where
  good : w.Good
  step : Ledger.Step l (w.ledger waiting accepted)

/-- The worker has seen to the request of a connection. -/
structure Handles (w : WorkerRuntime) (stream : ℕ) (w' : WorkerRuntime) : Prop where
  admits : Admits w w'
  advances : ∀ waiting accepted,
    Advances (w.ledger (stream ::ₘ waiting) accepted) w' waiting accepted

theorem Good.reply (h : w.Good) (stream : ℕ) (message : WorkerReply) :
    w.Handles stream (w.reply stream message) :=
  ⟨.same ⟨rfl, rfl, rfl⟩, fun _ _ => ⟨h.withAccount .., step_reply ..⟩⟩

/-- A lane goes to another phase with the batches that it has. -/
theorem Good.withLanes (h : w.Good) {lane : Lane RunningConnection (List (List Float32))}
    {lane' : Lane RunningConnection (List Float32)} (hphase : lane.Phase) (hphase' : lane'.Phase)
    (hjobs : lane.executor.jobs = w.lane.executor.jobs)
    (hjobs' : lane'.executor.jobs = w.rerank.lane.executor.jobs) :
    Advances (w.ledger waiting accepted)
      { w with lane := lane, rerank := { w.rerank with lane := lane' } } waiting accepted := by
  refine ⟨⟨h.wf, hphase, hphase', h.rerankOnly.queue,
    fun job hjob => h.rerankOnly.jobs job (hjobs' ▸ hjob)⟩,
    (Ledger.Step.stay _).of_eq (Ledger.ext rfl rfl ?_ rfl rfl rfl rfl)⟩
  show (w.lane.executor.jobs + w.rerank.lane.executor.jobs).map _ =
    (lane.executor.jobs + lane'.executor.jobs).map _
  rw [hjobs, hjobs']

theorem Good.queued_push (h : w.Good) (kind : RequestClass) (item : QueuedConnection) :
    item.batch ::ₘ (w.scheduler.items + w.rerank.queue).map QueuedConnection.batch =
      ((w.scheduler.push kind item).items + w.rerank.queue).map QueuedConnection.batch := by
  rw [FairScheduler.items_push h.wf, Multiset.cons_add, Multiset.map_cons]

theorem Good.admitEmbed (h : w.Good) (stream : ℕ) (handshakeMatch : Bool) (kind : RequestClass)
    (rootId : Bytes) (texts : List Bytes) (deadlineMs : ℕ) :
    w.Handles stream (w.admitEmbed stream handshakeMatch kind rootId texts deadlineMs) := by
  rw [WorkerRuntime.admitEmbed.eq_def]
  by_cases hmatch : (!handshakeMatch) = true
  · rw [if_pos hmatch]
    exact h.reply ..
  rw [if_neg hmatch]
  by_cases hbusy : kind = .background ∧ rootId ∈ w.backgroundRoots
  · rw [if_pos hbusy]
    exact h.reply ..
  rw [if_neg hbusy]
  split
  next error herror => exact h.reply ..
  next ticket admission hadmit =>
    obtain ⟨hbytes, -⟩ := AdmissionState.tryAdmit_eq_ok hadmit
    refine ⟨.append rfl rfl rfl rfl, fun _ _ =>
      ⟨⟨h.wf.enqueue .., h.phase, h.rerankPhase, h.rerankOnly⟩, ?_⟩⟩
    let queued : QueuedConnection :=
      ⟨⟨w.handshake, .embed kind rootId texts deadlineMs⟩, stream, ticket, hbytes⟩
    have hbatch : w.admission.tryAdmit .default texts.length queued.batch.bytes =
        .ok (ticket, admission) := by
      rw [show queued.batch.bytes = rawInputBytes texts from hbytes]
      exact hadmit
    refine (Ledger.Step.enter _ queued.batch rfl hbatch ?_).of_eq
      (Ledger.ext rfl ?_ rfl rfl ?_ rfl rfl)
    · intro r hroot
      cases kind with
      | query => exact nomatch hroot
      | background => exact Option.some.inj hroot ▸ fun hmem => hbusy ⟨rfl, hmem⟩
    · exact h.queued_push kind queued
    · cases kind with
      | query => rfl
      | background => rfl

theorem Good.admitRerank (h : w.Good) (stream : ℕ) (handshakeMatch : Bool) (rootId query : Bytes)
    (documents : List Bytes) (deadlineMs nowMs now : ℕ) :
    w.Handles stream
      (w.admitRerank stream handshakeMatch rootId query documents deadlineMs nowMs now) := by
  rw [WorkerRuntime.admitRerank.eq_def]
  by_cases hmatch : (!handshakeMatch) = true
  · rw [if_pos hmatch]
    exact h.reply ..
  rw [if_neg hmatch]
  by_cases hexpired : deadlineMs ≤ nowMs
  · rw [if_pos hexpired]
    exact ⟨.same ⟨rfl, rfl, rfl⟩, fun _ _ => ⟨h, step_ignore ..⟩⟩
  rw [if_neg hexpired]
  split
  next error herror => exact h.reply ..
  next ticket admission hadmit =>
    obtain ⟨hbytes, -, -, hadmission⟩ := AdmissionState.tryAdmit_eq_ok hadmit
    cases hloaded : w.rerank.lane.loaded with
    | true =>
      refine ⟨.same ⟨rfl, rfl, rfl⟩, fun _ _ =>
        ⟨⟨h.wf, h.phase, h.rerankPhase, ?_, h.rerankOnly.jobs⟩, ?_⟩⟩
      · exact forall_mem_append.mpr ⟨h.rerankOnly.queue, forall_mem_singleton.mpr rfl⟩
      let queued : QueuedConnection :=
        ⟨⟨w.handshake, .rerank rootId query documents deadlineMs⟩, stream, ticket, hbytes⟩
      have hbatch : w.admission.tryAdmit .default 1 queued.batch.bytes =
          .ok (ticket, admission) := by
        rw [show queued.batch.bytes = query.length + rawInputBytes documents from hbytes]
        exact hadmit
      refine (Ledger.Step.enter _ queued.batch rfl hbatch ?_).of_eq
        (Ledger.ext rfl ?_ rfl rfl rfl rfl rfl)
      · exact fun r hroot => nomatch hroot
      · show queued.batch ::ₘ (w.scheduler.items + w.rerank.queue).map _ =
          (w.scheduler.items + ↑(w.rerank.queue ++ [queued])).map _
        rw [show (↑(w.rerank.queue ++ [queued]) : Multiset QueuedConnection) =
          queued ::ₘ ↑w.rerank.queue by rw [← Multiset.coe_add, add_comm]; rfl,
          Multiset.add_cons, Multiset.map_cons]
    | false =>
      -- The ticket is given back at once.
      have hdrop : ticket.drop admission = w.admission := by
        rw [hadmission, AdmissionTicket.drop, hbytes, Nat.add_sub_cancel, Nat.add_sub_cancel]
      have hstart := h.rerankPhase.startIf hloaded
        (c := (!w.rerank.lane.loading && (w.rerank.lane.coolingDown now).isNone) = true)
        (fun hc => by simpa using (Bool.and_eq_true_iff.mp hc).1) rerankLoaderExited now
      refine ⟨.same ⟨rfl, rfl, rfl⟩, fun _ _ =>
        ⟨⟨h.wf, h.phase, hstart.1, h.rerankOnly.queue, fun job hjob => ?_⟩, ?_⟩⟩
      · exact h.rerankOnly.jobs job (hstart.2.jobs ▸ hjob)
      refine (Ledger.Step.reply _ true rfl).of_eq (Ledger.ext rfl rfl ?_ hdrop.symm rfl ?_ rfl)
      · exact congrArg (fun jobs => (w.lane.executor.jobs + jobs).map RunningConnection.batch)
          hstart.2.jobs.symm
      · exact (replied_reply _ stream _).symm

theorem Good.handleRequest (h : w.Good) (stream : ℕ) (request : Except String WorkerRequest)
    (nowMs now : ℕ) : w.Handles stream (w.handleRequest stream request nowMs now) := by
  rw [WorkerRuntime.handleRequest.eq_def]
  cases request with
  | error error => exact h.reply ..
  | ok request =>
    dsimp only
    cases request.command with
    | status => exact h.reply ..
    | stop =>
      exact ⟨.same ⟨rfl, rfl, rfl⟩, fun _ _ => ⟨⟨h.wf, h.phase, h.rerankPhase, h.rerankOnly⟩,
        step_reply w stream (.status w.notRunning)⟩⟩
    | embed kind rootId texts deadlineMs => exact h.admitEmbed ..
    | rerank rootId query documents deadlineMs => exact h.admitRerank ..

/-! ## Batches that are taken from a queue -/

/-- The account with one more batch queued. -/
def ledgerWith (w : WorkerRuntime) (item : QueuedConnection) (waiting : Multiset ℕ)
    (accepted : ℕ) : Ledger :=
  { w.ledger waiting accepted with queued := item.batch ::ₘ (w.ledger waiting accepted).queued }

/-- The roots once a batch has been released. -/
theorem release_roots (w : WorkerRuntime) {command : WorkerCommand} {kind : RequestClass}
    {rootId : Bytes} {texts : List Bytes} {deadlineMs : ℕ}
    (hcommand : command = .embed kind rootId texts deadlineMs) (batch : Batch)
    (hbatch : batch.root = command.backgroundRoot) :
    w.release kind rootId =
      { w with backgroundRoots := Ledger.Batch.leave batch w.backgroundRoots } := by
  rw [Ledger.Batch.leave, hbatch, hcommand]
  cases kind with
  | query => rfl
  | background => rfl

/-- A batch that is not for this lane has no root. -/
theorem leave_of_none {batch : Batch} (h : batch.root = none) (roots : Finset Bytes) :
    Ledger.Batch.leave batch roots = roots := by
  rw [Ledger.Batch.leave, h]

theorem step_drop {item : QueuedConnection} (h : item.request.command.backgroundRoot = none) :
    Ledger.Step (w.ledgerWith item waiting accepted) ((w.dropQueued item).ledger waiting accepted) :=
  (Ledger.Step.abandon _ item.batch false rfl).of_eq
    (Ledger.ext rfl rfl rfl rfl (leave_of_none h _) (zero_add _) rfl)

/-- Whether `process_at` puts a batch back: it is not late, and the engine is to be loaded. -/
def putsBack (w : WorkerRuntime) (item : QueuedConnection) (nowMs now : ℕ) : Bool :=
  match item.request.command with
  | .embed _ _ _ deadlineMs =>
    decide (nowMs < deadlineMs) && (w.lane.coolingDown now).isNone && !w.lane.loaded
  | _ => false

/-- What becomes of a batch that has been taken: it is dropped, put back or sent. -/
inductive Places (w w' : WorkerRuntime) (item : QueuedConnection) (nowMs now : ℕ) : Prop where
  | drop (h : Same w w')
  | back {kind : RequestClass} {rootId : Bytes} {texts : List Bytes} {deadlineMs : ℕ}
    (hback : w.putsBack item nowMs now = true)
    (hcommand : item.request.command = .embed kind rootId texts deadlineMs)
    (hscheduler : w'.scheduler = w.scheduler.push kind item)
    (hjobs : w'.lane.executor.queuedJobs = w.lane.executor.queuedJobs)
    (hadmitted : w'.admitted = w.admitted)
  | send (hscheduler : w'.scheduler = w.scheduler)
    (hjobs : w'.lane.executor.queuedJobs = w.lane.executor.queuedJobs ++ [item.run])
    (hadmitted : w'.admitted = w.admitted)

theorem Good.processAt (h : w.Good) (item : QueuedConnection) (hactive : w.lane.active = false)
    (nowMs now : ℕ) (waiting : Multiset ℕ) (accepted : ℕ) :
    w.Places (w.processAt item nowMs now) item nowMs now ∧
      Advances (w.ledgerWith item waiting accepted) (w.processAt item nowMs now) waiting accepted := by
  rw [WorkerRuntime.processAt.eq_def]
  cases hcommand : item.request.command with
  | status | stop | rerank =>
    exact ⟨.drop ⟨rfl, rfl, rfl⟩, h.withAccount .., step_drop (by rw [hcommand]; rfl)⟩
  | embed kind rootId texts deadlineMs =>
    dsimp only
    by_cases hexpired : deadlineMs ≤ nowMs
    · have hrelease := w.release_roots hcommand item.batch rfl
      rw [if_pos hexpired, hrelease]
      exact ⟨.drop ⟨rfl, rfl, rfl⟩, h.withAccount .., (Ledger.Step.abandon _ item.batch false rfl).of_eq
        (Ledger.ext rfl rfl rfl rfl rfl (zero_add _) rfl)⟩
    rw [if_neg hexpired]
    cases hcooling : w.lane.coolingDown now with
    | some error =>
      have hrelease :=
        (w.reply item.stream (.error error)).release_roots hcommand item.batch rfl
      dsimp only
      rw [hrelease]
      exact ⟨.drop ⟨rfl, rfl, rfl⟩, h.withAccount .., (Ledger.Step.abandon _ item.batch true rfl).of_eq
        (Ledger.ext rfl rfl rfl rfl rfl (w.replied_reply item.stream (.error error)).symm rfl)⟩
    | none =>
      dsimp only
      cases hloaded : w.lane.loaded with
      | false =>
        obtain ⟨hphase, hjobs, hqueued⟩ := h.phase.startIf hloaded (c := (!w.lane.loading) = true)
          (fun hc => by simpa using hc) "semantic_worker: model loader exited" now
        have hback : w.putsBack item nowMs now = true := by
          rw [putsBack, hcommand]
          dsimp only
          rw [decide_eq_true (Nat.lt_of_not_le hexpired), hcooling, hloaded]
          rfl
        refine ⟨.back hback hcommand rfl hqueued rfl,
          ⟨h.wf.enqueue .., hphase, h.rerankPhase, h.rerankOnly⟩, ?_⟩
        refine (Ledger.Step.stay _).of_eq (Ledger.ext rfl ?_ ?_ rfl rfl rfl rfl)
        · exact h.queued_push kind item
        · exact congrArg
            (fun jobs => (jobs + w.rerank.lane.executor.jobs).map RunningConnection.batch) hjobs.symm
      | true =>
        obtain ⟨lane, hdispatch, hphase, hjobs, hqueued⟩ :=
          h.phase.dispatch hloaded hactive item.run
        rw [if_neg (by decide), hdispatch]
        refine ⟨.send rfl hqueued rfl, ⟨h.wf, hphase, h.rerankPhase, h.rerankOnly⟩, ?_⟩
        refine (Ledger.Step.start _ item.batch rfl).of_eq (Ledger.ext rfl rfl ?_ rfl rfl rfl rfl)
        show item.batch ::ₘ (w.lane.executor.jobs + w.rerank.lane.executor.jobs).map _ =
          (lane.executor.jobs + w.rerank.lane.executor.jobs).map _
        rw [hjobs, Multiset.cons_add, Multiset.map_cons]
        rfl

/-- What `process` does: it takes the next batch, while no batch runs. -/
theorem Good.process_eq_some (h : w.Good) (hprocess : w.process nowMs now = some w') :
    w.lane.active = false ∧ ({ w with scheduler := w.scheduler.pop.2 } : WorkerRuntime).Good ∧
    ∃ c r item skipped after, w.scheduler.pop.1 = some item ∧
      FairScheduler.Popped w.scheduler w.scheduler.pop.2 c r item skipped after ∧
      w' = WorkerRuntime.processAt { w with scheduler := w.scheduler.pop.2 } item nowMs now := by
  rw [WorkerRuntime.process] at hprocess
  split_ifs at hprocess with hguard
  have hactive : w.lane.active = false := by
    rw [Bool.and_eq_true, Bool.and_eq_true] at hguard
    simpa using hguard.1.2
  rcases FairScheduler.pop_cases h.wf with ⟨-, hpop⟩ | ⟨c, r, item, skipped, after, hitem, hpopped⟩
  · rw [hpop] at hprocess
    exact nomatch hprocess
  · rw [show w.scheduler.pop = (some item, w.scheduler.pop.2) from Prod.ext hitem rfl] at hprocess
    exact ⟨hactive, ⟨hpopped.wf, h.phase, h.rerankPhase, h.rerankOnly⟩, c, r, item, skipped, after,
      hitem, hpopped, (Option.some.inj hprocess).symm⟩

theorem Good.process (h : w.Good) (hprocess : w.process nowMs now = some w') :
    Advances (w.ledger waiting accepted) w' waiting accepted := by
  obtain ⟨hactive, hgood, c, r, item, skipped, after, -, hpopped, rfl⟩ := h.process_eq_some hprocess
  have hledger : w.ledger waiting accepted =
      ledgerWith { w with scheduler := w.scheduler.pop.2 } item waiting accepted := by
    refine Ledger.ext rfl ?_ rfl rfl rfl rfl rfl
    show (w.scheduler.items + w.rerank.queue).map _ =
      item.batch ::ₘ (w.scheduler.pop.2.items + w.rerank.queue).map _
    rw [hpopped.items h.wf, Multiset.cons_add, Multiset.map_cons]
  rw [hledger]
  exact (hgood.processAt item hactive nowMs now waiting accepted).2

theorem Good.rerankProcessAt (h : w.Good) (item : QueuedConnection)
    (hactive : w.rerank.lane.active = false) (hroot : item.request.command.backgroundRoot = none)
    (nowMs now : ℕ) (waiting : Multiset ℕ) (accepted : ℕ) :
    Same w (w.rerankProcessAt item nowMs now) ∧
      Advances (w.ledgerWith item waiting accepted) (w.rerankProcessAt item nowMs now) waiting
        accepted := by
  rw [WorkerRuntime.rerankProcessAt.eq_def]
  cases hcommand : item.request.command with
  | status | stop | embed => exact ⟨⟨rfl, rfl, rfl⟩, h.withAccount .., step_drop hroot⟩
  | rerank rootId query documents deadlineMs =>
    dsimp only
    by_cases hexpired : deadlineMs ≤ nowMs
    · rw [if_pos hexpired]
      exact ⟨⟨rfl, rfl, rfl⟩, h.withAccount .., step_drop hroot⟩
    rw [if_neg hexpired]
    cases hcooling : w.rerank.lane.coolingDown now with
    | some error =>
      exact ⟨⟨rfl, rfl, rfl⟩, h.withAccount .., (Ledger.Step.abandon _ item.batch true rfl).of_eq
        (Ledger.ext rfl rfl rfl rfl (leave_of_none hroot _)
          (w.replied_reply item.stream (.error error)).symm rfl)⟩
    | none =>
      dsimp only
      cases hloaded : w.rerank.lane.loaded with
      | false =>
        obtain ⟨hphase, hjobs, -⟩ := h.rerankPhase.startIf hloaded
          (c := (!w.rerank.lane.loading) = true) (fun hc => by simpa using hc) rerankLoaderExited now
        refine ⟨⟨rfl, rfl, rfl⟩, ⟨h.wf, h.phase, hphase, ?_, fun job hjob => ?_⟩, ?_⟩
        · exact forall_mem_cons.mpr ⟨hroot, h.rerankOnly.queue⟩
        · exact h.rerankOnly.jobs job (hjobs ▸ hjob)
        refine (Ledger.Step.stay _).of_eq (Ledger.ext rfl ?_ ?_ rfl rfl rfl rfl)
        · show item.batch ::ₘ (w.scheduler.items + w.rerank.queue).map _ =
            (w.scheduler.items + ↑(item :: w.rerank.queue)).map _
          rw [← Multiset.cons_coe, Multiset.add_cons, Multiset.map_cons]
        · exact congrArg (fun jobs => (w.lane.executor.jobs + jobs).map RunningConnection.batch)
            hjobs.symm
      | true =>
        obtain ⟨lane, hdispatch, hphase, hjobs, -⟩ :=
          h.rerankPhase.dispatch hloaded hactive item.run
        rw [if_neg (by decide), hdispatch]
        refine ⟨⟨rfl, rfl, rfl⟩,
          ⟨h.wf, h.phase, hphase, h.rerankOnly.queue, fun job hjob => ?_⟩, ?_⟩
        · rcases Multiset.mem_cons.mp (hjobs ▸ hjob) with rfl | hold
          · exact hroot
          · exact h.rerankOnly.jobs job hold
        refine (Ledger.Step.start _ item.batch rfl).of_eq (Ledger.ext rfl rfl ?_ rfl rfl rfl rfl)
        show item.batch ::ₘ (w.lane.executor.jobs + w.rerank.lane.executor.jobs).map _ =
          (w.lane.executor.jobs + lane.executor.jobs).map _
        rw [hjobs, Multiset.add_cons, Multiset.map_cons]
        rfl

theorem Good.rerankPoll (h : w.Good) (hpoll : w.rerankPoll nowMs now = some w') :
    Same w w' ∧ ∀ waiting accepted, Advances (w.ledger waiting accepted) w' waiting accepted := by
  rw [WorkerRuntime.rerankPoll.eq_def] at hpoll
  split_ifs at hpoll with hguard
  have hactive : w.rerank.lane.active = false := by
    rw [Bool.or_eq_true, Bool.or_eq_true, not_or, not_or] at hguard
    simpa using hguard.1.2
  cases hqueue : w.rerank.queue with
  | nil =>
    rw [hqueue] at hpoll
    exact nomatch hpoll
  | cons item rest =>
    rw [hqueue] at hpoll
    obtain rfl := Option.some.inj hpoll
    have hgood : ({ w with rerank := { w.rerank with queue := rest } } : WorkerRuntime).Good :=
      ⟨h.wf, h.phase, h.rerankPhase,
        fun queued hqueued => h.rerankOnly.queue queued (by rw [hqueue]; exact .tail _ hqueued),
        h.rerankOnly.jobs⟩
    have hprocess := hgood.rerankProcessAt item hactive
      (h.rerankOnly.queue item (by rw [hqueue]; exact mem_cons_self)) nowMs now
    obtain ⟨hscheduler, hjobs, hadmitted⟩ := (hprocess 0 0).1
    refine ⟨⟨hscheduler, hjobs, hadmitted⟩, fun waiting accepted => ?_⟩
    have hledger : w.ledger waiting accepted =
        ledgerWith { w with rerank := { w.rerank with queue := rest } } item waiting accepted := by
      refine Ledger.ext rfl ?_ rfl rfl rfl rfl rfl
      show (w.scheduler.items + w.rerank.queue).map _ =
        item.batch ::ₘ (w.scheduler.items + rest).map _
      rw [hqueue, ← Multiset.cons_coe, Multiset.add_cons, Multiset.map_cons]
    rw [hledger]
    exact (hprocess waiting accepted).2

/-! ## Events of the executors -/

/-- A reply that is written only in time. -/
theorem replyBefore_eq (w : WorkerRuntime) (stream nowMs deadlineMs : ℕ) (message : WorkerReply) :
    ∃ answered replies, w.replyBefore stream nowMs deadlineMs message =
        { w with replies := replies } ∧
      (↑(replies.map Prod.fst) : Multiset ℕ) =
        Ledger.answer answered stream + ↑(w.replies.map Prod.fst) := by
  rw [replyBefore]
  split_ifs
  · exact ⟨true, _, rfl, w.replied_reply stream message⟩
  · exact ⟨false, _, rfl, (zero_add _).symm⟩

/-- A completed batch leaves the worker. -/
theorem step_complete (w : WorkerRuntime) (job : RunningConnection) {rest : Multiset Batch}
    (hrunning : (w.ledger waiting accepted).running = job.batch ::ₘ rest) {w' : WorkerRuntime}
    (answered : Bool) (hqueued : (w'.ledger waiting accepted).queued =
      (w.ledger waiting accepted).queued)
    (hrest : (w'.ledger waiting accepted).running = rest)
    (hadmission : w'.admission = job.inflight.drop w.admission)
    (hroots : w'.backgroundRoots = Ledger.Batch.leave job.batch w.backgroundRoots)
    (hreplies : (↑(w'.replies.map Prod.fst) : Multiset ℕ) =
      Ledger.answer answered job.stream + ↑(w.replies.map Prod.fst)) :
    Ledger.Step (w.ledger waiting accepted) (w'.ledger waiting accepted) :=
  (Ledger.Step.complete _ job.batch answered hrunning).of_eq
    (Ledger.ext rfl hqueued.symm hrest.symm hadmission.symm hroots.symm hreplies.symm rfl)

theorem release_embedFields (w : WorkerRuntime) (job : RunningConnection) :
    w.release (embedFields job.request.command).2.2 (embedFields job.request.command).1 =
      { w with backgroundRoots := Ledger.Batch.leave job.batch w.backgroundRoots } := by
  cases hcommand : job.request.command with
  | embed kind rootId texts deadlineMs =>
    exact w.release_roots hcommand job.batch rfl
  | status | stop | rerank =>
    rw [leave_of_none (show job.batch.root = none by rw [RunningConnection.batch, hcommand]; rfl)]
    rfl

theorem Good.pollExecutor (h : w.Good) (hpoll : w.pollExecutor nowMs now = some w') :
    Same w w' ∧ ∀ waiting accepted, Advances (w.ledger waiting accepted) w' waiting accepted := by
  rw [WorkerRuntime.pollExecutor.eq_def] at hpoll
  cases hreceive : w.lane.receive with
  | none =>
    rw [hreceive] at hpoll
    exact nomatch hpoll
  | some received =>
    obtain ⟨event, lane⟩ := received
    rw [hreceive] at hpoll
    obtain ⟨hphase, hjobs, hqueued⟩ := h.phase.receive hreceive now
    cases event with
    | loaded | unloaded =>
      obtain rfl := Option.some.inj hpoll
      exact ⟨⟨rfl, hqueued, rfl⟩, fun _ _ =>
        h.withLanes hphase h.rerankPhase (hjobs.trans (zero_add _)).symm rfl⟩
    | completed job result =>
      obtain rfl := Option.some.inj hpoll
      obtain ⟨answered, replies, hreply, hreplies⟩ := replyBefore_eq
        { w with
          lane := lane.note now (.completed job result)
          backgroundRoots := Ledger.Batch.leave job.batch w.backgroundRoots }
        job.stream nowMs (embedFields job.request.command).2.1 (embedReply result)
      rw [completeEmbed, release_embedFields, hreply]
      refine ⟨⟨rfl, hqueued, rfl⟩, fun _ _ => ⟨⟨h.wf, hphase, h.rerankPhase, h.rerankOnly⟩,
        w.step_complete job ?_ answered rfl rfl rfl rfl hreplies⟩⟩
      rw [ledger, hjobs, show ((ExecutorEvent.completed job result).job.toList :
        Multiset RunningConnection) = {job} from rfl, add_assoc, Multiset.singleton_add,
        Multiset.map_cons]
      rfl

theorem Good.pump (h : w.Good) (hpump : w.pump nowMs now = some w') :
    Same w w' ∧ ∀ waiting accepted, Advances (w.ledger waiting accepted) w' waiting accepted := by
  rw [WorkerRuntime.pump.eq_def] at hpump
  cases hreceive : w.rerank.lane.receive with
  | none =>
    rw [hreceive] at hpump
    dsimp only at hpump
    rw [if_pos h.rerankPhase.alive] at hpump
    exact nomatch hpump
  | some received =>
    obtain ⟨event, lane⟩ := received
    rw [hreceive] at hpump
    obtain ⟨hphase, hjobs, -⟩ := h.rerankPhase.receive hreceive now
    have honly : RerankOnly { w.rerank with lane := lane.note now event } :=
      ⟨h.rerankOnly.queue, fun job hjob => h.rerankOnly.jobs job (by
        rw [hjobs]
        exact Multiset.mem_add.mpr (.inr hjob))⟩
    cases event with
    | loaded | unloaded =>
      obtain rfl := Option.some.inj hpump
      exact ⟨⟨rfl, rfl, rfl⟩, fun _ _ =>
        h.withLanes h.phase hphase rfl (hjobs.trans (zero_add _)).symm⟩
    | completed job result =>
      have hroot : job.request.command.backgroundRoot = none :=
        h.rerankOnly.jobs job (by
          rw [hjobs]
          exact Multiset.mem_add.mpr (.inl (Multiset.mem_singleton_self job)))
      obtain rfl := Option.some.inj hpump
      obtain ⟨answered, replies, hreply, hreplies⟩ := replyBefore_eq
        { w with rerank := { w.rerank with lane := lane.note now (.completed job result) } }
        job.stream nowMs (rerankDeadline job.request.command) (rerankReply result)
      rw [completeRerank, hreply]
      refine ⟨⟨rfl, rfl, rfl⟩, fun _ _ => ⟨⟨h.wf, h.phase, hphase, honly⟩,
        w.step_complete job ?_ answered rfl rfl rfl (leave_of_none hroot _).symm hreplies⟩⟩
      rw [ledger, hjobs, show ((ExecutorEvent.completed job result).job.toList :
        Multiset RunningConnection) = {job} from rfl, Multiset.singleton_add, Multiset.add_cons,
        Multiset.map_cons]
      rfl

theorem good_new (config : InferenceConfig) (handshake : Handshake) (now : ℕ) :
    (new config handshake now).Good := by
  refine ⟨FairScheduler.wf_default, .idle, ?_, fun _ h => absurd h not_mem_nil, ?_⟩
  · rw [new]
    cases config.rerankEnabled with
    | true => exact .loading
    | false => exact .idle
  · rw [new]
    cases config.rerankEnabled with
    | true | false => exact fun _ h => absurd h (Multiset.notMem_zero _)

end WorkerRuntime

namespace System

/-- The account of the system: the connections that wait are being read or have been parsed. -/
def ledger (s : System) : Ledger :=
  s.worker.ledger (↑s.reading + ↑(s.parsed.map Prod.fst)) s.accepted

/-- What is known of the lanes: they are in a phase until the worker has ended. -/
structure Lanes (s : System) : Prop where
  good : s.finished = false → s.worker.Good
  lane : s.worker.lane.Outstanding
  rerankOnly : WorkerRuntime.RerankOnly s.worker.rerank

theorem lanes_of_good {s : System} (h : s.worker.Good) : s.Lanes :=
  ⟨fun _ => h, h.phase.outstanding, h.rerankOnly⟩

/-- What a step does to the order of the batches: it admits one at most, takes the next one of
the scheduler, or lets the executor take the one that was sent first. -/
inductive Moves (s s' : System) : Action → Prop where
  | admits {action : Action} (h : WorkerRuntime.Admits s.worker s'.worker)
    (hexecuted : s'.executed = s.executed) : Moves s s' action
  | process {nowMs now : ℕ} (hgood : s.worker.Good)
    (h : s.worker.process nowMs now = some s'.worker) (hexecuted : s'.executed = s.executed) :
    Moves s s' (.process nowMs now)
  | work {action : Action} (hscheduler : s'.worker.scheduler = s.worker.scheduler)
    (hadmitted : s'.worker.admitted = s.worker.admitted)
    (hjobs : s'.executed ++ s'.worker.lane.executor.queuedJobs =
      s.executed ++ s.worker.lane.executor.queuedJobs) : Moves s s' action

variable {s s' : System} {action : Action}

theorem lanes_of_advances (h : WorkerRuntime.Advances s.ledger s'.worker
    (↑s'.reading + ↑(s'.parsed.map Prod.fst)) s'.accepted) (hmoves : Moves s s' action) :
    s'.Lanes ∧ Ledger.Step s.ledger s'.ledger ∧ Moves s s' action :=
  ⟨lanes_of_good h.good, h.step, hmoves⟩

/-- A step of the system is a step of the account. -/
theorem Lanes.step (h : s.Lanes) (hstep : s.step action = some s') :
    s'.Lanes ∧ Ledger.Step s.ledger s'.ledger ∧ Moves s s' action := by
  rw [System.step.eq_def] at hstep
  cases hfinished : s.finished with
  | true => rw [hfinished] at hstep; exact nomatch hstep
  | false =>
    rw [hfinished, if_neg (by decide)] at hstep
    have hgood := h.good hfinished
    cases action with
    | accept =>
      obtain rfl := Option.some.inj hstep
      rw [System.accept]
      split_ifs with hroom
      · refine lanes_of_advances ⟨hgood, (Ledger.Step.accept _).of_eq
          (Ledger.ext ?_ rfl rfl rfl rfl rfl rfl)⟩ (.admits (.same ⟨rfl, rfl, rfl⟩) rfl)
        show s.accepted ::ₘ (↑s.reading + ↑(s.parsed.map Prod.fst)) =
          ↑(s.reading ++ [s.accepted]) + ↑(s.parsed.map Prod.fst)
        rw [← Multiset.coe_add, add_comm (↑s.reading : Multiset ℕ) ↑[s.accepted], add_assoc]
        rfl
      · exact lanes_of_advances ⟨⟨hgood.wf, hgood.phase, hgood.rerankPhase, hgood.rerankOnly⟩,
          (Ledger.Step.refuse _).of_eq (Ledger.ext rfl rfl rfl rfl rfl
            (s.worker.replied_reply s.accepted _).symm rfl)⟩ (.admits (.same ⟨rfl, rfl, rfl⟩) rfl)
    | read stream request =>
      dsimp only at hstep
      split_ifs at hstep with hreading
      obtain rfl := Option.some.inj hstep
      refine lanes_of_advances ⟨hgood, (Ledger.Step.stay _).of_eq
        (Ledger.ext ?_ rfl rfl rfl rfl rfl rfl)⟩ (.admits (.same ⟨rfl, rfl, rfl⟩) rfl)
      show (↑s.reading + ↑(s.parsed.map Prod.fst) : Multiset ℕ) = ↑(s.reading.erase stream) +
        ↑((s.parsed ++ [(stream, request.mapError ("protocol: " ++ ·))]).map Prod.fst)
      rw [Multiset.coe_eq_coe.mpr (perm_cons_erase hreading), map_append,
        ← Multiset.coe_add, ← Multiset.cons_coe, Multiset.cons_add, ← Multiset.singleton_add,
        add_comm]
      exact add_assoc ..
    | handle nowMs now =>
      cases hparsed : s.parsed with
      | nil => rw [hparsed] at hstep; exact nomatch hstep
      | cons first rest =>
        obtain ⟨stream, request⟩ := first
        rw [hparsed] at hstep
        obtain rfl := Option.some.inj hstep
        have hledger : s.ledger =
            s.worker.ledger (stream ::ₘ (↑s.reading + ↑(rest.map Prod.fst))) s.accepted := by
          rw [System.ledger, hparsed, map_cons, ← Multiset.cons_coe, Multiset.add_cons]
        obtain ⟨hadmits, hadvances⟩ := hgood.handleRequest stream request nowMs now
        exact lanes_of_advances (hledger ▸ hadvances _ _) (.admits hadmits rfl)
    | poll nowMs now =>
      obtain ⟨w, hw, rfl⟩ := Option.map_eq_some_iff.mp hstep
      obtain ⟨hsame, hadvances⟩ := hgood.pollExecutor hw
      exact lanes_of_advances (hadvances _ _) (.admits (.same hsame) rfl)
    | pump nowMs now =>
      obtain ⟨w, hw, rfl⟩ := Option.map_eq_some_iff.mp hstep
      obtain ⟨hsame, hadvances⟩ := hgood.pump hw
      exact lanes_of_advances (hadvances _ _) (.admits (.same hsame) rfl)
    | process nowMs now =>
      obtain ⟨w, hw, rfl⟩ := Option.map_eq_some_iff.mp hstep
      exact lanes_of_advances (hgood.process hw) (.process hgood hw rfl)
    | rerankPoll nowMs now =>
      obtain ⟨w, hw, rfl⟩ := Option.map_eq_some_iff.mp hstep
      obtain ⟨hsame, hadvances⟩ := hgood.rerankPoll hw
      exact lanes_of_advances (hadvances _ _) (.admits (.same hsame) rfl)
    | unloadIdle now =>
      obtain rfl := Option.some.inj hstep
      obtain ⟨hphase, hjobs, hqueued⟩ :=
        hgood.phase.unloadIdle (s.worker.scheduler.pending ≠ 0) now
      exact lanes_of_advances (hgood.withLanes hphase hgood.rerankPhase hjobs rfl)
        (.admits (.same ⟨rfl, hqueued, rfl⟩) rfl)
    | rerankUnloadIdle now =>
      obtain rfl := Option.some.inj hstep
      obtain ⟨hphase, hjobs, -⟩ :=
        hgood.rerankPhase.unloadIdle (!s.worker.rerank.queue.isEmpty) now
      exact lanes_of_advances (hgood.withLanes hgood.phase hphase rfl hjobs)
        (.admits (.same ⟨rfl, rfl, rfl⟩) rfl)
    | work outcome =>
      obtain ⟨lane, hlane, rfl⟩ := Option.map_eq_some_iff.mp hstep
      obtain ⟨hphase, hjobs, hqueued⟩ := hgood.phase.work hlane
      have htaken : s.taken = s.worker.lane.executor.next := by
        rw [System.taken.eq_def, Executor.next]
        rcases s.worker.lane.executor.commands with _ | ⟨_ | _ | _ | _, _⟩ <;> rfl
      refine lanes_of_advances (hgood.withLanes hphase hgood.rerankPhase hjobs rfl)
        (.work rfl rfl ?_)
      rw [hqueued, ← htaken]
      exact append_assoc ..
    | rerankWork outcome =>
      obtain ⟨lane, hlane, rfl⟩ := Option.map_eq_some_iff.mp hstep
      obtain ⟨hphase, hjobs, -⟩ := hgood.rerankPhase.work hlane
      exact lanes_of_advances (hgood.withLanes hgood.phase hphase rfl hjobs)
        (.admits (.same ⟨rfl, rfl, rfl⟩) rfl)
    | finish =>
      dsimp only at hstep
      split_ifs at hstep with hstopping
      obtain rfl := Option.some.inj hstep
      obtain ⟨hlane, hjobs, hqueued⟩ := hgood.phase.shutdown
      obtain ⟨-, hrerankJobs, -⟩ := hgood.rerankPhase.shutdown
      refine ⟨⟨fun h => (nomatch h), hlane, hgood.rerankOnly.queue,
        fun job hjob => hgood.rerankOnly.jobs job (hrerankJobs ▸ hjob)⟩,
        (Ledger.Step.stay _).of_eq (Ledger.ext rfl rfl ?_ rfl rfl rfl rfl),
        .admits (.same ⟨rfl, hqueued, rfl⟩) rfl⟩
      show (s.worker.lane.executor.jobs + s.worker.rerank.lane.executor.jobs).map _ =
        (s.worker.lane.shutdown.executor.jobs +
          s.worker.rerank.lane.shutdown.executor.jobs).map _
      rw [hjobs, hrerankJobs]

/-! ## What holds in every state -/

theorem reaches_sound {condition : System → Action → Prop} {s : System}
    (h : Reaches condition s) : s.Lanes ∧ s.ledger.Sound := by
  induction h with
  | init config handshake now =>
    have hgood := WorkerRuntime.good_new config handshake now
    refine ⟨lanes_of_good hgood, ?_⟩
    have hjobs : (init config handshake now).worker.rerank.lane.executor.jobs = 0 := by
      show (if config.rerankEnabled = true then _ else _ : Lane _ _).executor.jobs = 0
      split_ifs
      · rfl
      · rfl
    have hledger : (init config handshake now).ledger = ⟨0, 0, 0, ⟨0, 0, 0⟩, ∅, 0, 0⟩ := by
      refine Ledger.ext rfl rfl ?_ rfl rfl rfl rfl
      show (0 + (init config handshake now).worker.rerank.lane.executor.jobs).map _ = 0
      rw [hjobs]
      rfl
    rw [hledger]
    exact {
      queued := rfl
      inflight := rfl
      bytes := rfl
      limit := Nat.zero_le _
      bytesLimit := Nat.zero_le _
      roots := fun r => rfl
      nodup := Multiset.nodup_zero
      fresh := fun stream hstream => absurd hstream (Multiset.notMem_zero _) }
  | step action _ _ hstep ih =>
    obtain ⟨hlanes, hledger, -⟩ := ih.1.step hstep
    exact ⟨hlanes, hledger.sound ih.2⟩

/-- The batches that are queued, in both lanes. -/
def queuedBatches (s : System) : Multiset QueuedConnection :=
  s.worker.scheduler.items + s.worker.rerank.queue

/-- The batches that have been sent to an executor and have not come back. -/
def runningBatches (s : System) : Multiset RunningConnection :=
  s.worker.lane.executor.jobs + s.worker.rerank.lane.executor.jobs

/-- The background batches of a root that are queued or running. -/
def backgroundBatches (s : System) (root : Bytes) : ℕ :=
  (s.worker.scheduler.items.countP fun item =>
    item.request.command.backgroundRoot = some root) +
  s.worker.lane.executor.jobs.countP fun job => job.request.command.backgroundRoot = some root

theorem count_roots (batches : Multiset Batch) (r : Bytes) :
    (batches.filterMap Batch.root).count r = batches.countP fun batch => batch.root = some r := by
  induction batches using Multiset.induction with
  | empty => rfl
  | cons batch rest ih =>
    rw [Ledger.count_filterMap_cons, ih, Multiset.countP_cons, Nat.add_comm]

theorem backgroundBatches_eq {s : System} (h : s.Lanes) (root : Bytes) :
    s.backgroundBatches root = (s.ledger.outstanding.filterMap Batch.root).count root := by
  have hqueue : (↑s.worker.rerank.queue : Multiset QueuedConnection).countP
      (fun item => item.batch.root = some root) = 0 := by
    rw [Multiset.countP_eq_zero]
    intro item hitem hroot
    rw [show item.batch.root = none from h.rerankOnly.queue item hitem] at hroot
    exact nomatch hroot
  have hjobs : s.worker.rerank.lane.executor.jobs.countP
      (fun job => job.batch.root = some root) = 0 := by
    rw [Multiset.countP_eq_zero]
    intro job hjob hroot
    rw [show job.batch.root = none from h.rerankOnly.jobs job hjob] at hroot
    exact nomatch hroot
  rw [count_roots, Ledger.outstanding, Multiset.countP_add]
  show _ = Multiset.countP _ ((s.worker.scheduler.items + s.worker.rerank.queue).map _) +
    Multiset.countP _ ((s.worker.lane.executor.jobs + s.worker.rerank.lane.executor.jobs).map _)
  rw [Multiset.map_add, Multiset.map_add, Multiset.countP_add, Multiset.countP_add,
    Multiset.countP_map, Multiset.countP_map, Multiset.countP_map, Multiset.countP_map,
    ← Multiset.countP_eq_card_filter, ← Multiset.countP_eq_card_filter,
    ← Multiset.countP_eq_card_filter, ← Multiset.countP_eq_card_filter, hqueue, hjobs]
  rfl

/-- The bytes of the batches are those of their requests. -/
theorem bytes_eq (s : System) : (s.ledger.outstanding.map Batch.bytes).sum =
      (s.queuedBatches.map fun item => item.request.command.rawBytes).sum +
      (s.runningBatches.map fun job => job.request.command.rawBytes).sum := by
  rw [Ledger.outstanding, Multiset.map_add, Multiset.sum_add]
  show ((s.queuedBatches.map QueuedConnection.batch).map Batch.bytes).sum +
    ((s.runningBatches.map RunningConnection.batch).map Batch.bytes).sum = _
  rw [Multiset.map_map, Multiset.map_map]
  congr 2
  · exact Multiset.map_congr rfl fun item _ => item.ticket_bytes
  · exact Multiset.map_congr rfl fun job _ => job.inflight_bytes

/-- In every state: a root is known to be busy exactly if it has a background batch queued or
running, and it has one at most; the counters of admission count the outstanding batches and
their bytes, within the limits; at most one load and one batch are under way, and a batch
that reaches the executor finds the engine; no connection has two replies. -/
theorem worker_invariant {s : System} (h : s.Reachable) :
    (∀ root, root ∈ s.worker.backgroundRoots ↔ 0 < s.backgroundBatches root) ∧
    (∀ root, s.backgroundBatches root ≤ 1) ∧
    s.worker.admission.queued = s.queuedBatches.card ∧
    s.worker.admission.inflight = s.runningBatches.card ∧
    s.worker.admission.rawInputBytes =
      (s.queuedBatches.map fun item => item.request.command.rawBytes).sum +
      (s.runningBatches.map fun job => job.request.command.rawBytes).sum ∧
    s.queuedBatches.card + s.runningBatches.card ≤ 64 ∧
    s.worker.admission.rawInputBytes ≤ maxRawInputBytes ∧
    s.worker.lane.executor.loads ≤ 1 ∧ s.worker.lane.executor.jobs.card ≤ 1 ∧
    (∀ job rest, s.worker.lane.executor.commands = .execute job :: rest →
      s.worker.lane.executor.engine = true) ∧
    (s.worker.replies.map Prod.fst).Nodup := by
  obtain ⟨hlanes, hsound⟩ := reaches_sound h
  have hroots : ∀ root, s.backgroundBatches root =
      if root ∈ s.worker.backgroundRoots then 1 else 0 := fun root =>
    (backgroundBatches_eq hlanes root).trans (hsound.roots root)
  have hlimit := hsound.limit
  rw [Ledger.outstanding, Multiset.card_add] at hlimit
  have hbytes := hsound.bytes
  have hbytesLimit := hsound.bytesLimit
  rw [bytes_eq] at hbytes hbytesLimit
  refine ⟨fun root => ?_, fun root => ?_, ?_, ?_, hbytes, ?_, hbytes ▸ hbytesLimit,
    hlanes.lane.loads, hlanes.lane.jobs, hlanes.lane.engine, ?_⟩
  · rw [hroots]
    split_ifs with hmem
    · exact ⟨fun _ => Nat.one_pos, fun _ => hmem⟩
    · exact ⟨fun hin => absurd hin hmem, fun hpos => absurd hpos (Nat.lt_irrefl 0)⟩
  · rw [hroots]
    split_ifs
    · exact le_refl 1
    · exact Nat.zero_le 1
  · exact hsound.queued.trans (Multiset.card_map QueuedConnection.batch s.queuedBatches)
  · exact hsound.inflight.trans (Multiset.card_map RunningConnection.batch s.runningBatches)
  · rw [← Multiset.card_map QueuedConnection.batch, ← Multiset.card_map RunningConnection.batch]
    exact hlimit
  · exact Multiset.coe_nodup.mp (Multiset.nodup_add.mp hsound.nodup).2.1

/-- Two background batches of one root: the second is refused while the first is loading its
engine. -/
def busyRoot : List Action :=
  let request : WorkerRequest := ⟨⟨1, [], [], []⟩, .embed .background [97] [[98]] 100⟩
  [.accept, .accept, .read 0 (.ok request), .read 1 (.ok request), .handle 0 0, .handle 0 0,
    .process 0 0]

theorem worker_invariant_busyRoot :
    ∃ s, (init ⟨[], none, none, none⟩ ⟨1, [], [], []⟩ 0).run busyRoot = some s ∧
      s.worker.backgroundRoots = {[97]} ∧ s.backgroundBatches [97] ≤ 1 ∧
      s.worker.replies.map Prod.fst = [1] ∧ (s.worker.replies.map Prod.fst).Nodup := by
  have hrun : (((init ⟨[], none, none, none⟩ ⟨1, [], [], []⟩ 0).run busyRoot).map fun s =>
      (s.worker.backgroundRoots, s.worker.replies.map Prod.fst)) = some ({[97]}, [1]) := by
    decide +kernel
  obtain ⟨s, hs, hfacts⟩ := Option.map_eq_some_iff.mp hrun
  obtain ⟨hroots, hreplies⟩ := Prod.mk.inj hfacts
  have hinvariant := worker_invariant (Reaches.of_meets (.init ..) (by decide +kernel) hs)
  exact ⟨s, hs, hroots, hinvariant.2.1 [97], hreplies, hinvariant.2.2.2.2.2.2.2.2.2.2⟩

end System

end Trufflepig.Semantic
