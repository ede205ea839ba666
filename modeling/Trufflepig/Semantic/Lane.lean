import Mathlib

/-!
# The lanes of the inference worker (`semantic/worker.rs`, `semantic/worker/rerank_executor.rs`)

The worker has two lanes, for embedding and for reranking. Each has an executor thread of its
own, to which it sends commands over one channel and from which it receives events over
another; both are first in, first out. The thread loads the engine, runs one batch at a time
and unloads the engine again. A lane knows what its thread does only by its three flags
`loading`, `loaded` and `active`.

* `Phase`: the states of a lane, with what is in its two channels.
* `Phase.startLoader`, `Phase.dispatch`, `Phase.work`, `Phase.receive`, `Phase.unloadIdle`: every
  operation leads from one of them to another.
* `Phase.outstanding`: at most one load and at most one batch are under way, and a batch
  finds the engine loaded.
-/

namespace Trufflepig.Semantic

/-! ## `LoadRetry` (`load_retry.rs`) -/

def initialCooldown : ℕ := 500000000

def maxCooldown : ℕ := 30000000000

/-- `LoadRetry`; instants and durations in nanoseconds. -/
structure LoadRetry where
  retryAt : Option ℕ
  cooldown : ℕ
  deriving DecidableEq, Repr

namespace LoadRetry

def default : LoadRetry := ⟨none, initialCooldown⟩

/-- `is_ready`. -/
def isReady (r : LoadRetry) (now : ℕ) : Bool := r.retryAt.all fun retryAt => retryAt ≤ now

/-- `failed`. -/
def failed (r : LoadRetry) (now : ℕ) : LoadRetry :=
  ⟨some (now + r.cooldown), min (r.cooldown * 2) maxCooldown⟩

/-- `succeeded`. -/
def succeeded : LoadRetry := ⟨none, initialCooldown⟩

end LoadRetry

/-! ## The executor thread -/

inductive ExecutorCommand (J : Type) where
  | load
  | execute (job : J)
  | unload
  | shutdown

inductive ExecutorEvent (J R : Type) where
  | loaded (result : Except String Unit)
  | completed (job : J) (result : Except String R)
  | unloaded

/-- The executor thread and its two channels. -/
structure Executor (J R : Type) where
  commands : List (ExecutorCommand J)
  events : List (ExecutorEvent J R)
  engine : Bool
  alive : Bool

/-- The texts in which the two threads differ. -/
structure ExecutorTexts where
  unavailable : String
  invalid : String

/-- What the engine answers: how loading ends, and the result of a batch. -/
structure Outcome (R : Type) where
  opened : Except String Unit
  result : Except String R

namespace Executor

variable {J R : Type}

def start : Executor J R := ⟨[], [], false, true⟩

/-- `executor_send.send`; it fails once the thread has ended. -/
def send (e : Executor J R) (command : ExecutorCommand J) : Option (Executor J R) :=
  if e.alive then some { e with commands := e.commands ++ [command] } else none

/-- One pass of `inference_loop` and of `rerank_inference_loop`; `valid` tells the batches of
the lane. -/
def work (texts : ExecutorTexts) (valid : J → Bool) (outcome : Outcome R) (e : Executor J R) :
    Option (Executor J R) :=
  if e.alive then
    match e.commands with
    | [] => none
    | .load :: rest =>
      some { e with
        commands := rest
        engine := match outcome.opened with
          | .ok _ => true
          | .error _ => e.engine
        events := e.events ++ [.loaded outcome.opened] }
    | .execute job :: rest =>
      let result := if e.engine then
          if valid job then outcome.result else .error texts.invalid
        else .error texts.unavailable
      some { e with commands := rest, events := e.events ++ [.completed job result] }
    | .unload :: rest =>
      some { e with commands := rest, engine := false, events := e.events ++ [.unloaded] }
    | .shutdown :: rest => some { e with commands := rest, alive := false }
  else none

/-- The batches that are under way. -/
def jobs (e : Executor J R) : Multiset J :=
  ↑(e.commands.filterMap fun
    | .execute job => some job
    | _ => none) +
  ↑(e.events.filterMap fun
    | .completed job _ => some job
    | _ => none)

/-- The loads that are under way. -/
def loads (e : Executor J R) : ℕ :=
  (e.commands.countP fun
    | .load => true
    | _ => false) +
  e.events.countP fun
    | .loaded _ => true
    | _ => false

end Executor

section Commands

variable {J R : Type}

/-- The batch that a command carries. -/
def ExecutorCommand.job : ExecutorCommand J → Option J
  | .execute job => some job
  | _ => none

/-- The batches that have been sent to the executor and that it has not taken. -/
def Executor.queuedJobs (e : Executor J R) : List J := e.commands.filterMap ExecutorCommand.job

/-- The batch that the executor takes next, if its next command is one. -/
def Executor.next (e : Executor J R) : List J :=
  match e.commands with
  | command :: _ => command.job.toList
  | [] => []

/-- The batches under way and those of them that have not been taken are the same. -/
structure Executor.Keeps (e e' : Executor J R) : Prop where
  jobs : e'.jobs = e.jobs
  queuedJobs : e'.queuedJobs = e.queuedJobs

end Commands

/-! ## The flags of a lane -/

structure Lane (J R : Type) where
  loading : Bool
  loaded : Bool
  active : Bool
  loadError : Option String
  loadRetry : LoadRetry
  lastUsed : Option ℕ
  executor : Executor J R

def idleUnload : ℕ := 600000000000

namespace Lane

variable {J R : Type}

def start : Lane J R := ⟨false, false, false, none, .default, none, .start⟩

variable (lane : Lane J R)

/-- `record_load_failure`. -/
def recordLoadFailure (error : String) (now : ℕ) : Lane J R :=
  { lane with
    loading := false
    loaded := false
    loadError := some error
    loadRetry := lane.loadRetry.failed now }

/-- `start_loader`; `exited` is the error if the thread has ended. -/
def startLoader (exited : String) (now : ℕ) : Lane J R :=
  let lane := { lane with loading := true }
  match lane.executor.send .load with
  | some executor => { lane with executor := executor }
  | none => lane.recordLoadFailure exited now

/-- Whether a load that failed forbids another one for now. -/
def coolingDown (now : ℕ) : Option String :=
  match lane.loadError with
  | some error => if lane.loadRetry.isReady now then none else some error
  | none => none

/-- Sends a batch to the thread; `none` if the thread has ended. -/
def dispatch (job : J) : Option (Lane J R) :=
  (lane.executor.send (.execute job)).map fun executor =>
    { lane with active := true, executor := executor }

/-- `try_recv` on the channel of the events. -/
def receive : Option (ExecutorEvent J R × Lane J R) :=
  match lane.executor.events with
  | [] => none
  | event :: rest =>
    some (event, { lane with executor := { lane.executor with events := rest } })

/-- What an event does to the flags. -/
def note (now : ℕ) : ExecutorEvent J R → Lane J R
  | .loaded (.ok _) =>
    { lane with
      loading := false
      loaded := true
      loadRetry := .succeeded
      loadError := none
      lastUsed := some now }
  | .loaded (.error error) => lane.recordLoadFailure error now
  | .completed _ _ => { lane with active := false, lastUsed := some now }
  | .unloaded => { lane with loaded := false }

/-- `unload_idle`; `waiting` tells whether the lane has batches queued. -/
def unloadIdle (waiting : Bool) (now : ℕ) : Lane J R :=
  if waiting || lane.loading || lane.active || !lane.loaded then lane
  else if lane.lastUsed.any fun used => idleUnload ≤ now - used then
    { lane with
      executor := (lane.executor.send .unload).getD lane.executor
      loaded := false
      lastUsed := none }
  else lane

/-- The thread takes its next command. -/
def work (texts : ExecutorTexts) (valid : J → Bool) (outcome : Outcome R) (lane : Lane J R) :
    Option (Lane J R) :=
  (lane.executor.work texts valid outcome).map fun executor => { lane with executor := executor }

/-- What `run` sends when its loop has ended. -/
def shutdown : Lane J R :=
  { lane with executor := (lane.executor.send .shutdown).getD lane.executor }

end Lane

/-! ## The phases of a lane -/

section Phase

variable {J R : Type}

/-- Whether loading ended well. -/
def opened (result : Except String Unit) : Bool :=
  match result with
  | .ok _ => true
  | .error _ => false

/-- The flags `loading`, `loaded` and `active` of a lane, with its channels: the commands that
the thread has not taken, the events that the lane has not seen, and whether there is an
engine. -/
inductive PhaseOf : Bool → Bool → Bool → Executor J R → Prop where
  | idle : PhaseOf false false false ⟨[], [], false, true⟩
  | unloading : PhaseOf false false false ⟨[.unload], [], true, true⟩
  | unloaded : PhaseOf false false false ⟨[], [.unloaded], false, true⟩
  | unloadThenLoad : PhaseOf true false false ⟨[.unload, .load], [], true, true⟩
  | unloadedThenLoad : PhaseOf true false false ⟨[.load], [.unloaded], false, true⟩
  | unloadedThenLoaded (result : Except String Unit) :
    PhaseOf true false false ⟨[], [.unloaded, .loaded result], opened result, true⟩
  | loading : PhaseOf true false false ⟨[.load], [], false, true⟩
  | loaded (result : Except String Unit) :
    PhaseOf true false false ⟨[], [.loaded result], opened result, true⟩
  | ready : PhaseOf false true false ⟨[], [], true, true⟩
  | running (job : J) : PhaseOf false true true ⟨[.execute job], [], true, true⟩
  | completed (job : J) (result : Except String R) :
    PhaseOf false true true ⟨[], [.completed job result], true, true⟩

def Lane.Phase (lane : Lane J R) : Prop :=
  PhaseOf lane.loading lane.loaded lane.active lane.executor

variable {lane : Lane J R}

theorem Lane.Phase.alive (h : lane.Phase) : lane.executor.alive = true := by
  cases lane
  cases h <;> rfl

/-- A lane that neither loads nor has loaded starts to load. -/
theorem Lane.Phase.startLoader (h : lane.Phase) (hloading : lane.loading = false)
    (hloaded : lane.loaded = false) (exited : String) (now : ℕ) :
    (lane.startLoader exited now).Phase ∧
    lane.executor.Keeps (lane.startLoader exited now).executor := by
  cases lane
  cases h with
  | idle => exact ⟨.loading, rfl, rfl⟩
  | unloading => exact ⟨.unloadThenLoad, rfl, rfl⟩
  | unloaded => exact ⟨.unloadedThenLoad, rfl, rfl⟩
  | unloadThenLoad | unloadedThenLoad | unloadedThenLoaded | loading | loaded => exact nomatch hloading
  | ready | running | completed => exact nomatch hloaded

/-- A lane that has not loaded may start to. -/
theorem Lane.Phase.startIf (h : lane.Phase) (hloaded : lane.loaded = false) {c : Prop}
    [Decidable c] (hc : c → lane.loading = false) (exited : String) (now : ℕ) :
    (if c then lane.startLoader exited now else lane).Phase ∧
    lane.executor.Keeps (if c then lane.startLoader exited now else lane).executor := by
  split_ifs with hstart
  · exact h.startLoader (hc hstart) hloaded exited now
  · exact ⟨h, rfl, rfl⟩

/-- A lane that has loaded and runs no batch runs one. -/
theorem Lane.Phase.dispatch (h : lane.Phase) (hloaded : lane.loaded = true)
    (hactive : lane.active = false) (job : J) :
    ∃ lane', lane.dispatch job = some lane' ∧ lane'.Phase ∧
      lane'.executor.jobs = job ::ₘ lane.executor.jobs ∧
      lane'.executor.queuedJobs = lane.executor.queuedJobs ++ [job] := by
  cases lane
  cases h with
  | ready => exact ⟨_, rfl, .running job, rfl, rfl⟩
  | running | completed => exact nomatch hactive
  | idle | unloading | unloaded | unloadThenLoad | unloadedThenLoad | unloadedThenLoaded
  | loading | loaded => exact nomatch hloaded

/-- The thread takes a command; a batch finds an engine. -/
theorem Lane.Phase.work {lane' : Lane J R} {texts : ExecutorTexts} {valid : J → Bool}
    {outcome : Outcome R} (h : lane.Phase) (hwork : lane.work texts valid outcome = some lane') :
    lane'.Phase ∧ lane'.executor.jobs = lane.executor.jobs ∧
    lane.executor.queuedJobs = lane.executor.next ++ lane'.executor.queuedJobs := by
  cases lane
  cases h with
  | idle | unloaded | unloadedThenLoaded | loaded | ready | completed => exact nomatch hwork
  | unloading =>
    obtain rfl := Option.some.inj hwork
    exact ⟨.unloaded, rfl, rfl⟩
  | unloadThenLoad =>
    obtain rfl := Option.some.inj hwork
    exact ⟨.unloadedThenLoad, rfl, rfl⟩
  | unloadedThenLoad =>
    obtain rfl := Option.some.inj hwork
    exact ⟨.unloadedThenLoaded outcome.opened, rfl, rfl⟩
  | loading =>
    obtain rfl := Option.some.inj hwork
    exact ⟨.loaded outcome.opened, rfl, rfl⟩
  | running job =>
    obtain rfl := Option.some.inj hwork
    exact ⟨.completed job _, rfl, rfl⟩

/-- The batch whose completion an event reports. -/
def ExecutorEvent.job : ExecutorEvent J R → Option J
  | .completed job _ => some job
  | _ => none

/-- The lane sees an event. -/
theorem Lane.Phase.receive {lane' : Lane J R} {event : ExecutorEvent J R} (h : lane.Phase)
    (hreceive : lane.receive = some (event, lane')) (now : ℕ) :
    (lane'.note now event).Phase ∧
    lane.executor.jobs = ↑event.job.toList + (lane'.note now event).executor.jobs ∧
    (lane'.note now event).executor.queuedJobs = lane.executor.queuedJobs := by
  cases lane
  cases h with
  | idle | unloading | unloadThenLoad | loading | ready | running => exact nomatch hreceive
  | unloaded =>
    obtain ⟨rfl, rfl⟩ := Prod.mk.inj (Option.some.inj hreceive)
    exact ⟨.idle, rfl, rfl⟩
  | unloadedThenLoad =>
    obtain ⟨rfl, rfl⟩ := Prod.mk.inj (Option.some.inj hreceive)
    exact ⟨.loading, rfl, rfl⟩
  | unloadedThenLoaded result =>
    obtain ⟨rfl, rfl⟩ := Prod.mk.inj (Option.some.inj hreceive)
    exact ⟨.loaded result, rfl, rfl⟩
  | loaded result =>
    obtain ⟨rfl, rfl⟩ := Prod.mk.inj (Option.some.inj hreceive)
    cases result with
    | ok => exact ⟨.ready, rfl, rfl⟩
    | error => exact ⟨.idle, rfl, rfl⟩
  | completed job result =>
    obtain ⟨rfl, rfl⟩ := Prod.mk.inj (Option.some.inj hreceive)
    exact ⟨.ready, rfl, rfl⟩

theorem Lane.Phase.unloadIdle (h : lane.Phase) (waiting : Bool) (now : ℕ) :
    (lane.unloadIdle waiting now).Phase ∧
    lane.executor.Keeps (lane.unloadIdle waiting now).executor := by
  rw [Lane.unloadIdle]
  split_ifs with hbusy hidle
  · exact ⟨h, rfl, rfl⟩
  · rw [Bool.or_eq_true, Bool.or_eq_true, Bool.or_eq_true, not_or, not_or, not_or] at hbusy
    obtain ⟨⟨⟨-, hloading⟩, hactive⟩, hloaded⟩ := hbusy
    cases lane
    cases h with
    | ready => exact ⟨.unloading, rfl, rfl⟩
    | idle | unloading | unloaded => exact absurd rfl hloaded
    | unloadThenLoad | unloadedThenLoad | unloadedThenLoaded | loading | loaded =>
      exact absurd rfl hloading
    | running | completed => exact absurd rfl hactive
  · exact ⟨h, rfl, rfl⟩

/-- What holds of a lane in every phase, also once its thread is told to end. -/
structure Lane.Outstanding (lane : Lane J R) : Prop where
  loads : lane.executor.loads ≤ 1
  jobs : lane.executor.jobs.card ≤ 1
  engine : ∀ job rest, lane.executor.commands = .execute job :: rest → lane.executor.engine = true

theorem Lane.Phase.outstanding (h : lane.Phase) : lane.Outstanding := by
  cases lane
  cases h with
  | running job =>
    exact ⟨Nat.zero_le 1, le_of_eq (Multiset.card_singleton job), fun _ _ _ => rfl⟩
  | completed job result =>
    exact ⟨Nat.zero_le 1, le_of_eq (Multiset.card_singleton job), fun _ _ h => nomatch h⟩
  | idle | unloading | unloaded | ready =>
    exact ⟨Nat.zero_le 1, Nat.zero_le 1, fun _ _ h => nomatch h⟩
  | unloadThenLoad | unloadedThenLoad | unloadedThenLoaded | loading | loaded =>
    exact ⟨le_refl 1, Nat.zero_le 1, fun _ _ h => nomatch h⟩

theorem Lane.Phase.shutdown (h : lane.Phase) :
    lane.shutdown.Outstanding ∧ lane.executor.Keeps lane.shutdown.executor := by
  obtain ⟨hloads, hjobs, -⟩ := h.outstanding
  -- The command that ends the thread comes after those of the phase.
  cases lane
  cases h with
  | running job => exact ⟨⟨hloads, hjobs, fun _ _ _ => rfl⟩, rfl, rfl⟩
  | _ => exact ⟨⟨hloads, hjobs, fun _ _ h => nomatch h⟩, rfl, rfl⟩

end Phase

end Trufflepig.Semantic
