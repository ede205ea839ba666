import Trufflepig.Semantic.Lane
import Trufflepig.Semantic.Scheduler

/-!
# The inference worker (`semantic/worker.rs`)

The worker accepts connections, reads one request from each in a thread of its own, admits or
refuses it, and gives the admitted batches to the executor of the embedding lane or of the
reranking lane. `step` is the system of the worker's loop, the frame readers and the two
executor threads, as an interleaving of what each of them does at once. Clock readings and what
the engines answer are given with the step.

A connection is a number; `replies` are the replies that have been written, in order.
-/

namespace Trufflepig.Semantic

open Lib

/-! ## The protocol (`protocol.rs`, `status.rs`) -/

structure Handshake where
  protocol : ℕ
  build : Bytes
  config : Bytes
  model : Bytes
  deriving DecidableEq

inductive WorkerCommand where
  | status
  | stop
  | embed (kind : RequestClass) (rootId : Bytes) (texts : List Bytes) (deadlineMs : ℕ)
  | rerank (rootId query : Bytes) (documents : List Bytes) (deadlineMs : ℕ)

structure WorkerRequest where
  handshake : Handshake
  command : WorkerCommand

inductive WorkerState where
  | notRunning
  | loading
  | ready

structure WorkerStatus where
  state : WorkerState
  provider : Bytes
  gpuUuid : Option Bytes
  pending : ℕ
  loaded : Bool
  configFingerprint : Bytes
  modelFingerprint : Bytes
  handshakeMatch : Bool
  error : Option String
  rerankLoaded : Bool
  rerankGpuUuid : Option Bytes
  rerankError : Option String
  rerankPending : ℕ

inductive WorkerReply where
  | status (status : WorkerStatus)
  | embeddings (values : List (List Float32))
  | scores (values : List Float32)
  | error (message : String)

def maxInputs : ℕ := 8

def maxRawInputBytes : ℕ := 8 * 1024 * 1024

/-- `usize::MAX`. -/
def usizeMax : ℕ := 2 ^ 64 - 1

/-- `raw_input_bytes`. -/
def rawInputBytes (texts : List Bytes) : ℕ :=
  texts.foldl (fun total text => min usizeMax (total + text.length)) 0

/-- The bytes of a request that admission counts. -/
def WorkerCommand.rawBytes : WorkerCommand → ℕ
  | .embed _ _ texts _ => rawInputBytes texts
  | .rerank _ query documents _ => query.length + rawInputBytes documents
  | .status | .stop => 0

/-! ## Admission (`admission.rs`) -/

structure AdmissionLimits where
  maxAdmitted : ℕ
  maxRawInputBytes : ℕ
  maxInputs : ℕ

def AdmissionLimits.default : AdmissionLimits := ⟨64, Semantic.maxRawInputBytes, Semantic.maxInputs⟩

structure AdmissionState where
  queued : ℕ
  inflight : ℕ
  rawInputBytes : ℕ
  deriving DecidableEq, Repr

structure AdmissionTicket where
  rawInputBytes : ℕ
  deriving DecidableEq

structure InflightTicket where
  rawInputBytes : ℕ
  deriving DecidableEq

/-- `try_admit`. -/
def AdmissionState.tryAdmit (limits : AdmissionLimits) (state : AdmissionState)
    (inputs rawInputBytes : ℕ) : Except String (AdmissionTicket × AdmissionState) :=
  if inputs > limits.maxInputs then
    .error s!"semantic_admission: at most {limits.maxInputs} inputs per batch"
  else if rawInputBytes > limits.maxRawInputBytes then
    .error s!"semantic_admission: raw inputs exceed {limits.maxRawInputBytes} bytes"
  else if min usizeMax (state.queued + state.inflight) ≥ limits.maxAdmitted then
    .error "semantic_admission: 64 batches already queued or in flight"
  else
    let total := state.rawInputBytes + rawInputBytes
    if total > usizeMax then .error "semantic_admission: raw input byte counter overflow"
    else if total > limits.maxRawInputBytes then
      .error ("semantic_admission: raw inputs exceed " ++ toString limits.maxRawInputBytes ++
        " bytes including in-flight batches")
    else
      .ok (⟨rawInputBytes⟩, { state with queued := state.queued + 1, rawInputBytes := total })

/-- `AdmissionTicket::begin`. -/
def AdmissionTicket.begin (ticket : AdmissionTicket) (state : AdmissionState) :
    InflightTicket × AdmissionState :=
  (⟨ticket.rawInputBytes⟩,
    { state with queued := state.queued - 1, inflight := state.inflight + 1 })

/-- Dropping a ticket that has not been started. -/
def AdmissionTicket.drop (ticket : AdmissionTicket) (state : AdmissionState) : AdmissionState :=
  { state with
    queued := state.queued - 1
    rawInputBytes := state.rawInputBytes - ticket.rawInputBytes }

/-- Dropping the ticket of a batch in flight. -/
def InflightTicket.drop (ticket : InflightTicket) (state : AdmissionState) : AdmissionState :=
  { state with
    inflight := state.inflight - 1
    rawInputBytes := state.rawInputBytes - ticket.rawInputBytes }

/-- A batch is admitted with a ticket for its bytes, while fewer than 64 are, and within the
limit of the bytes. -/
theorem AdmissionState.tryAdmit_eq_ok {limits : AdmissionLimits} {state state' : AdmissionState}
    {inputs bytes : ℕ} {ticket : AdmissionTicket}
    (h : state.tryAdmit limits inputs bytes = .ok (ticket, state')) :
    ticket.rawInputBytes = bytes ∧
    min usizeMax (state.queued + state.inflight) < limits.maxAdmitted ∧
    state.rawInputBytes + bytes ≤ limits.maxRawInputBytes ∧
    state' = ⟨state.queued + 1, state.inflight, state.rawInputBytes + bytes⟩ := by
  rw [tryAdmit] at h
  dsimp only at h
  split_ifs at h with hinputs hbytes hadmitted hoverflow htotal
  obtain ⟨rfl, rfl⟩ := Prod.mk.inj (Except.ok.inj h)
  exact ⟨rfl, by omega, by omega, rfl⟩

/-! ## The worker -/

/-- `QueuedConnection`; its ticket is for the bytes of the request. -/
structure QueuedConnection where
  request : WorkerRequest
  stream : ℕ
  ticket : AdmissionTicket
  ticket_bytes : ticket.rawInputBytes = request.command.rawBytes

/-- `RunningConnection`. -/
structure RunningConnection where
  request : WorkerRequest
  stream : ℕ
  inflight : InflightTicket
  inflight_bytes : inflight.rawInputBytes = request.command.rawBytes

/-- The connection of a batch that is started. -/
def QueuedConnection.run (item : QueuedConnection) : RunningConnection where
  request := item.request
  stream := item.stream
  inflight := ⟨item.ticket.rawInputBytes⟩
  inflight_bytes := item.ticket_bytes

instance : RootIdent QueuedConnection where
  rootId connection :=
    match connection.request.command with
    | .embed _ rootId _ _ => rootId
    | .rerank rootId _ _ _ => rootId
    | .status | .stop => []

/-- What the worker reads of `InferenceConfig`. -/
structure InferenceConfig where
  provider : Bytes
  gpuUuid : Option Bytes
  rerankModelDir : Option Bytes
  rerankGpuUuid : Option Bytes

def InferenceConfig.rerankEnabled (config : InferenceConfig) : Bool := config.rerankModelDir.isSome

/-- The device that the reranker runs on, if there is one. -/
def InferenceConfig.rerankGpu (config : InferenceConfig) : Option Bytes :=
  if config.rerankEnabled then config.rerankGpuUuid.or config.gpuUuid else none

/-- `RerankLane`. -/
structure RerankLane where
  lane : Lane RunningConnection (List Float32)
  queue : List QueuedConnection

/-- `WorkerRuntime`; the flags of the embedding lane are in `lane`. The code does not keep the
replies and the embedding batches that it has admitted, in the order of their admission. -/
structure WorkerRuntime where
  config : InferenceConfig
  handshake : Handshake
  admission : AdmissionState
  scheduler : FairScheduler QueuedConnection
  backgroundRoots : Finset Bytes
  lane : Lane RunningConnection (List (List Float32))
  rerank : RerankLane
  stopping : Bool
  replies : List (ℕ × WorkerReply)
  admitted : List QueuedConnection

namespace WorkerRuntime

variable (w : WorkerRuntime)

/-- `write_reply`. -/
def reply (stream : ℕ) (message : WorkerReply) : WorkerRuntime :=
  { w with replies := w.replies ++ [(stream, message)] }

/-- `status`. -/
def status (handshakeMatch : Bool) : WorkerStatus where
  state := if w.lane.loading then .loading else if w.lane.loaded then .ready else .loading
  provider := w.config.provider
  gpuUuid := w.config.gpuUuid
  pending := w.scheduler.pending + w.lane.active.toNat
  loaded := w.lane.loaded
  configFingerprint := w.handshake.config
  modelFingerprint := w.handshake.model
  handshakeMatch := handshakeMatch
  error := w.lane.loadError
  rerankLoaded := w.rerank.lane.loaded
  rerankGpuUuid := w.config.rerankGpu
  rerankError := w.rerank.lane.loadError
  rerankPending := w.rerank.queue.length + w.rerank.lane.active.toNat

/-- `WorkerStatus::not_running`. -/
def notRunning : WorkerStatus where
  state := .notRunning
  provider := w.config.provider
  gpuUuid := w.config.gpuUuid
  pending := 0
  loaded := false
  configFingerprint := w.handshake.config
  modelFingerprint := w.handshake.model
  handshakeMatch := true
  error := none
  rerankLoaded := false
  rerankGpuUuid := w.config.rerankGpu
  rerankError := none
  rerankPending := 0

def handshakeMismatch : WorkerReply :=
  .error "handshake_mismatch: protocol, build, config, or model changed"

def rerankLoading : String := "rerank_loading: reranker is loading"

def rerankLoaderExited : String := "rerank_unavailable: model loader exited"

def rerankExited : String := "rerank_unavailable: rerank executor exited"

/-- The `Embed` branch of `handle_request`. -/
def admitEmbed (stream : ℕ) (handshakeMatch : Bool) (kind : RequestClass)
    (rootId : Bytes) (texts : List Bytes) (deadlineMs : ℕ) : WorkerRuntime :=
  if !handshakeMatch then w.reply stream handshakeMismatch
  else if kind = .background ∧ rootId ∈ w.backgroundRoots then
    w.reply stream (.error "semantic_root_busy: one outstanding batch per root")
  else
    match hadmit : w.admission.tryAdmit .default texts.length (rawInputBytes texts) with
    | .error error => w.reply stream (.error error)
    | .ok (ticket, admission) =>
      let queued : QueuedConnection := {
        request := ⟨w.handshake, .embed kind rootId texts deadlineMs⟩
        stream := stream
        ticket := ticket
        ticket_bytes := (AdmissionState.tryAdmit_eq_ok hadmit).1 }
      { w with
        admission := admission
        backgroundRoots := if kind = .background then insert rootId w.backgroundRoots
          else w.backgroundRoots
        scheduler := w.scheduler.push kind queued
        admitted := w.admitted ++ [queued] }

/-- `RerankLane::admit`. -/
def admitRerank (stream : ℕ) (handshakeMatch : Bool) (rootId query : Bytes)
    (documents : List Bytes) (deadlineMs nowMs now : ℕ) : WorkerRuntime :=
  if !handshakeMatch then w.reply stream handshakeMismatch
  else if deadlineMs ≤ nowMs then w
  else
    match hadmit : w.admission.tryAdmit .default 1 (query.length + rawInputBytes documents) with
    | .error error => w.reply stream (.error error)
    | .ok (ticket, admission) =>
      if !w.rerank.lane.loaded then
        let blocked := w.rerank.lane.coolingDown now
        let lane := if !w.rerank.lane.loading && blocked.isNone then
            w.rerank.lane.startLoader rerankLoaderExited now
          else w.rerank.lane
        -- The ticket is dropped with the connection.
        let w := { w with
          admission := ticket.drop admission
          rerank := { w.rerank with lane := lane } }
        w.reply stream (.error (blocked.getD rerankLoading))
      else
        { w with
          admission := admission
          rerank := { w.rerank with
            queue := w.rerank.queue ++ [{
              request := ⟨w.handshake, .rerank rootId query documents deadlineMs⟩
              stream := stream
              ticket := ticket
              ticket_bytes := (AdmissionState.tryAdmit_eq_ok hadmit).1 }] } }

/-- `handle_request`. -/
def handleRequest (stream : ℕ) (request : Except String WorkerRequest)
    (nowMs now : ℕ) : WorkerRuntime :=
  match request with
  | .error error => w.reply stream (.error ("protocol: " ++ error))
  | .ok request =>
    let handshakeMatch := decide (request.handshake = w.handshake)
    match request.command with
    | .status => w.reply stream (.status (w.status handshakeMatch))
    | .stop => { w.reply stream (.status w.notRunning) with stopping := true }
    | .embed kind rootId texts deadlineMs =>
      w.admitEmbed stream handshakeMatch kind rootId texts deadlineMs
    | .rerank rootId query documents deadlineMs =>
      w.admitRerank stream handshakeMatch rootId query documents deadlineMs nowMs now

/-- A background batch leaves the worker. -/
def release (kind : RequestClass) (rootId : Bytes) : WorkerRuntime :=
  if kind = .background then { w with backgroundRoots := w.backgroundRoots.erase rootId } else w

/-- The connection of a queued batch is dropped, with its ticket. -/
def dropQueued (item : QueuedConnection) : WorkerRuntime :=
  { w with admission := item.ticket.drop w.admission }

/-- `process_at`. -/
def processAt (item : QueuedConnection) (nowMs now : ℕ) : WorkerRuntime :=
  match item.request.command with
  | .embed kind rootId _ deadlineMs =>
    if deadlineMs ≤ nowMs then (w.release kind rootId).dropQueued item
    else
      match w.lane.coolingDown now with
      | some error =>
        ((w.reply item.stream (.error error)).release kind rootId).dropQueued item
      | none =>
        if !w.lane.loaded then
          let lane := if !w.lane.loading then
              w.lane.startLoader "semantic_worker: model loader exited" now
            else w.lane
          { w with lane := lane, scheduler := w.scheduler.push kind item }
        else
          let w := { w with admission := (item.ticket.begin w.admission).2 }
          match w.lane.dispatch item.run with
          | some lane => { w with lane := lane }
          | none => { w.release kind rootId with admission := item.run.inflight.drop w.admission }
  | _ => w.dropQueued item

/-- The part of `run` that takes the next batch. -/
def process (nowMs now : ℕ) : Option WorkerRuntime :=
  if !w.stopping && !w.lane.active && (!w.lane.loading || w.lane.loaded) then
    match w.scheduler.pop with
    | (some item, scheduler) => some ({ w with scheduler := scheduler }.processAt item nowMs now)
    | (none, _) => none
  else none

/-- `unload_idle`. -/
def unloadIdle (now : ℕ) : WorkerRuntime :=
  { w with lane := w.lane.unloadIdle (w.scheduler.pending ≠ 0) now }

/-- The fields of a completed request that `poll_executor` reads. -/
def embedFields : WorkerCommand → Bytes × ℕ × RequestClass
  | .embed kind rootId _ deadlineMs => (rootId, deadlineMs, kind)
  | .status | .stop | .rerank _ _ _ _ => ([], 0, .query)

def embedReply : Except String (List (List Float32)) → WorkerReply
  | .ok values => .embeddings values
  | .error error => .error error

/-- A reply that is written only before the deadline. -/
def replyBefore (stream nowMs deadlineMs : ℕ) (message : WorkerReply) : WorkerRuntime :=
  if nowMs < deadlineMs then w.reply stream message else w

/-- A batch that the executor has run (in `poll_executor`). -/
def completeEmbed (job : RunningConnection)
    (result : Except String (List (List Float32))) (nowMs : ℕ) : WorkerRuntime :=
  let fields := embedFields job.request.command
  let w := w.release fields.2.2 fields.1
  let w := w.replyBefore job.stream nowMs fields.2.1 (embedReply result)
  { w with admission := job.inflight.drop w.admission }

/-- One pass of the loop of `poll_executor`. -/
def pollExecutor (nowMs now : ℕ) : Option WorkerRuntime :=
  match w.lane.receive with
  | none => none
  | some (event, lane) =>
    let w := { w with lane := lane.note now event }
    match event with
    | .completed job result => some (w.completeEmbed job result nowMs)
    | _ => some w

/-! ### The reranking lane (`rerank_executor.rs`) -/

/-- `process_at` of the reranking lane. -/
def rerankProcessAt (item : QueuedConnection) (nowMs now : ℕ) : WorkerRuntime :=
  match item.request.command with
  | .rerank _ _ _ deadlineMs =>
    if deadlineMs ≤ nowMs then w.dropQueued item
    else
      match w.rerank.lane.coolingDown now with
      | some error => (w.reply item.stream (.error error)).dropQueued item
      | none =>
        if !w.rerank.lane.loaded then
          let lane := if !w.rerank.lane.loading then
              w.rerank.lane.startLoader rerankLoaderExited now
            else w.rerank.lane
          { w with rerank := ⟨lane, item :: w.rerank.queue⟩ }
        else
          let w := { w with admission := (item.ticket.begin w.admission).2 }
          match w.rerank.lane.dispatch item.run with
          | some lane => { w with rerank := { w.rerank with lane := lane } }
          | none =>
            let lane := w.rerank.lane.recordLoadFailure rerankExited now
            let w := { w with rerank := { w.rerank with lane := lane } }
            { w.reply item.stream (.error rerankExited) with
              admission := item.run.inflight.drop w.admission }
  | _ => w.dropQueued item

/-- `poll`. -/
def rerankPoll (nowMs now : ℕ) : Option WorkerRuntime :=
  if w.stopping || w.rerank.lane.active || (w.rerank.lane.loading && !w.rerank.lane.loaded) then
    none
  else
    match w.rerank.queue with
    | [] => none
    | item :: rest =>
      some ({ w with rerank := { w.rerank with queue := rest } }.rerankProcessAt item nowMs now)

/-- `drain_queue_with_error`. -/
def drainQueueWithError : WorkerRuntime :=
  let message := w.rerank.lane.loadError.getD rerankExited
  let w' := w.rerank.queue.foldl
    (fun w item => (w.reply item.stream (.error message)).dropQueued item) w
  { w' with rerank := { w'.rerank with queue := [] } }

def rerankReply : Except String (List Float32) → WorkerReply
  | .ok values => .scores values
  | .error error => .error error

def rerankDeadline : WorkerCommand → ℕ
  | .rerank _ _ _ deadlineMs => deadlineMs
  | _ => 0

/-- A batch that the executor of the reranking lane has run (in `pump`). -/
def completeRerank (job : RunningConnection)
    (result : Except String (List Float32)) (nowMs : ℕ) : WorkerRuntime :=
  let w := w.replyBefore job.stream nowMs (rerankDeadline job.request.command) (rerankReply result)
  { w with admission := job.inflight.drop w.admission }

/-- One pass of the loop of `pump`. -/
def pump (nowMs now : ℕ) : Option WorkerRuntime :=
  match w.rerank.lane.receive with
  | none =>
    if w.rerank.lane.executor.alive then none
    else
      let lane := { w.rerank.lane with active := false }.recordLoadFailure rerankExited now
      some { w with rerank := { w.rerank with lane := lane } }.drainQueueWithError
  | some (event, lane) =>
    let w := { w with rerank := { w.rerank with lane := lane.note now event } }
    match event with
    | .completed job result => some (w.completeRerank job result nowMs)
    | _ => some w

/-- `unload_idle` of the reranking lane. -/
def rerankUnloadIdle (now : ℕ) : WorkerRuntime :=
  { w with rerank := { w.rerank with
    lane := w.rerank.lane.unloadIdle (!w.rerank.queue.isEmpty) now } }

/-- `WorkerRuntime::new`: a configured reranker starts to load at once. -/
def new (config : InferenceConfig) (handshake : Handshake) (now : ℕ) : WorkerRuntime where
  config := config
  handshake := handshake
  admission := ⟨0, 0, 0⟩
  scheduler := .default
  backgroundRoots := ∅
  lane := .start
  rerank := {
    lane := if config.rerankEnabled then Lane.start.startLoader rerankLoaderExited now else .start
    queue := [] }
  stopping := false
  replies := []
  admitted := []

end WorkerRuntime

/-! ## The system -/

def maxFrameReaders : ℕ := 64

/-- The worker with the connections whose request it has not handled: those that a frame reader
reads, and those that wait in the channel `parsed`. `accepted` counts the connections, and
`executed` records the embedding batches that the executor has taken, in order. -/
structure System where
  worker : WorkerRuntime
  accepted : ℕ
  reading : List ℕ
  parsed : List (ℕ × Except String WorkerRequest)
  finished : Bool
  executed : List RunningConnection

inductive Action where
  | accept
  | read (stream : ℕ) (request : Except String WorkerRequest)
  | handle (nowMs now : ℕ)
  | poll (nowMs now : ℕ)
  | pump (nowMs now : ℕ)
  | process (nowMs now : ℕ)
  | rerankPoll (nowMs now : ℕ)
  | unloadIdle (now : ℕ)
  | rerankUnloadIdle (now : ℕ)
  | work (outcome : Outcome (List (List Float32)))
  | rerankWork (outcome : Outcome (List Float32))
  | finish

def embedTexts : ExecutorTexts where
  unavailable := "semantic_worker: engine unavailable"
  invalid := "semantic_worker: invalid inference command"

def rerankTexts : ExecutorTexts where
  unavailable := "rerank_unavailable: engine unavailable"
  invalid := "rerank_unavailable: invalid inference command"

def RunningConnection.isEmbed (job : RunningConnection) : Bool :=
  match job.request.command with
  | .embed _ _ _ _ => true
  | _ => false

def RunningConnection.isRerank (job : RunningConnection) : Bool :=
  match job.request.command with
  | .rerank _ _ _ _ => true
  | _ => false

namespace System

/-- `accept` in `run`. -/
def accept (s : System) : System :=
  if s.reading.length < maxFrameReaders then
    { s with accepted := s.accepted + 1, reading := s.reading ++ [s.accepted] }
  else
    { s with
      accepted := s.accepted + 1
      worker := s.worker.reply s.accepted (.error "semantic_admission: too many frame readers") }

/-- The batch that the executor of the embedding lane takes next. -/
def taken (s : System) : List RunningConnection :=
  match s.worker.lane.executor.commands with
  | .execute job :: _ => [job]
  | _ => []

/-- One step of the system. -/
def step (s : System) (action : Action) : Option System :=
  if s.finished then none
  else
    match action with
    | .accept => some s.accept
    | .read stream request =>
      if stream ∈ s.reading then
        some { s with
          reading := s.reading.erase stream
          parsed := s.parsed ++ [(stream, request.mapError ("protocol: " ++ ·))] }
      else none
    | .handle nowMs now =>
      match s.parsed with
      | [] => none
      | (stream, request) :: rest =>
        some { s with
          parsed := rest
          worker := s.worker.handleRequest stream request nowMs now }
    | .poll nowMs now => (s.worker.pollExecutor nowMs now).map fun w => { s with worker := w }
    | .pump nowMs now => (s.worker.pump nowMs now).map fun w => { s with worker := w }
    | .process nowMs now => (s.worker.process nowMs now).map fun w => { s with worker := w }
    | .rerankPoll nowMs now =>
      (s.worker.rerankPoll nowMs now).map fun w => { s with worker := w }
    | .unloadIdle now => some { s with worker := s.worker.unloadIdle now }
    | .rerankUnloadIdle now => some { s with worker := s.worker.rerankUnloadIdle now }
    | .work outcome =>
      (s.worker.lane.work embedTexts (·.isEmbed) outcome).map fun lane =>
        { s with worker := { s.worker with lane := lane }, executed := s.executed ++ s.taken }
    | .rerankWork outcome =>
      (s.worker.rerank.lane.work rerankTexts (·.isRerank) outcome).map fun lane =>
        { s with worker := { s.worker with rerank := { s.worker.rerank with lane := lane } } }
    | .finish =>
      if s.worker.stopping then
        some { s with
          finished := true
          worker := { s.worker with
            lane := s.worker.lane.shutdown
            rerank := { s.worker.rerank with lane := s.worker.rerank.lane.shutdown } } }
      else none

/-- The worker at its start. -/
def init (config : InferenceConfig) (handshake : Handshake) (now : ℕ) : System where
  worker := .new config handshake now
  accepted := 0
  reading := []
  parsed := []
  finished := false
  executed := []

/-- The states that are reached by steps that all meet a condition. -/
inductive Reaches (condition : System → Action → Prop) : System → Prop where
  | init (config : InferenceConfig) (handshake : Handshake) (now : ℕ) :
    Reaches condition (init config handshake now)
  | step {s s' : System} (action : Action) : Reaches condition s → condition s action →
    s.step action = some s' → Reaches condition s'

/-- The states that are reached. -/
def Reachable (s : System) : Prop := Reaches (fun _ _ => True) s

/-- A system that takes several steps. -/
def run (s : System) : List Action → Option System
  | [] => some s
  | action :: rest => (s.step action).bind (run · rest)

/-- The steps of a run meet a condition. -/
def Meets (condition : System → Action → Prop) : System → List Action → Prop
  | _, [] => True
  | s, action :: rest => condition s action ∧ ∀ t ∈ s.step action, Meets condition t rest

instance decidableMeets (condition : System → Action → Prop)
    [∀ s action, Decidable (condition s action)] :
    ∀ s actions, Decidable (Meets condition s actions)
  | _, [] => isTrue trivial
  | s, action :: rest =>
    have : ∀ t, Decidable (Meets condition t rest) := fun t => decidableMeets condition t rest
    inferInstanceAs (Decidable (condition s action ∧ ∀ t ∈ s.step action, Meets condition t rest))

theorem Reaches.of_meets {condition : System → Action → Prop} {s s' : System}
    (h : Reaches condition s) {actions : List Action} (hmeets : Meets condition s actions)
    (hrun : s.run actions = some s') : Reaches condition s' := by
  induction actions generalizing s with
  | nil => exact Option.some.inj hrun ▸ h
  | cons action rest ih =>
    obtain ⟨t, hstep, hrest⟩ := Option.bind_eq_some_iff.mp hrun
    exact ih (.step action h hmeets.1 hstep) (hmeets.2 t hstep) hrest

end System

end Trufflepig.Semantic
