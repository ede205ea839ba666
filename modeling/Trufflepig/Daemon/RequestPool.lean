import Mathlib

/-!
# The pool of request workers (`daemon/pool.rs`)

Threads take jobs from one bounded queue. A step is what one of them does at once to what they share:
the queue, `pending`, `shutting_down`, and the sender under its lock. There may be any number of
workers; a thread that waits takes no step.

* `interleaving_safe`: no accepted job is lost, run twice or taken out of turn, and when `drain` sees
  that nothing is pending all of them have been run, or dropped by a shutdown.
-/

namespace Trufflepig.Daemon

open List

variable {J : Type}

/-- What the threads share, and the jobs that they hold: the one of the thread in `submit`, and
those that workers have received, with whether they have begun. The last three are the history.
-/
structure RequestPool (J : Type) where
  entering : Option J
  queue : List J
  held : Multiset (J × Bool)
  pending : ℕ
  shuttingDown : Bool
  accepted : List J
  ran : Multiset J
  dropped : Multiset J

namespace RequestPool

def new : RequestPool J := ⟨none, [], 0, 0, false, [], 0, 0⟩

inductive Step (capacity : ℕ) (s : RequestPool J) : RequestPool J → Prop
  -- `submit`, which has the lock of the sender
  | count (job : J) : s.entering = none → s.shuttingDown = false →
    Step capacity s { s with entering := some job, pending := s.pending + 1 }
  | send (job : J) : s.entering = some job → s.queue.length < capacity →
    Step capacity s
      { s with entering := none, queue := s.queue ++ [job], accepted := s.accepted ++ [job] }
  | refuse (job : J) : s.entering = some job → capacity ≤ s.queue.length →
    Step capacity s { s with entering := none, pending := s.pending - 1 }
  -- the loop of a worker
  | receive (job queue) : s.queue = job :: queue →
    Step capacity s { s with queue := queue, held := (job, false) ::ₘ s.held }
  | begin (job held) : s.held = (job, false) ::ₘ held → s.shuttingDown = false →
    Step capacity s { s with held := (job, true) ::ₘ held }
  | discard (job held) : s.held = (job, false) ::ₘ held → s.shuttingDown = true →
    Step capacity s
      { s with held := held, dropped := job ::ₘ s.dropped, pending := s.pending - 1 }
  | finish (job held) : s.held = (job, true) ::ₘ held →
    Step capacity s { s with held := held, ran := job ::ₘ s.ran, pending := s.pending - 1 }
  -- `shutdown`, which has had the lock when it drops a job; `submit` looks at the flag
  -- first, so that the sender is gone does not matter to it
  | raise : Step capacity s { s with shuttingDown := true }
  | drop (job queue) : s.queue = job :: queue → s.shuttingDown = true → s.entering = none →
    Step capacity s
      { s with queue := queue, dropped := job ::ₘ s.dropped, pending := s.pending - 1 }

/-- Every accepted job is in one place, and `pending` counts those that are not done. -/
structure Sound (capacity : ℕ) (s : RequestPool J) : Prop where
  order : s.queue <:+ s.accepted
  room : s.queue.length ≤ capacity
  jobs : ↑s.accepted = ↑s.queue + s.held.map Prod.fst + s.ran + s.dropped
  pending : s.pending = s.entering.toList.length + s.queue.length + s.held.card
  dropped : s.shuttingDown = false → s.dropped = 0

variable {capacity : ℕ} {s t : RequestPool J}

/-- The queue without its first job. -/
theorem Sound.next (hs : s.Sound capacity) {job : J} {queue : List J} (h : s.queue = job :: queue) :
    queue <:+ s.accepted ∧ queue.length ≤ capacity ∧
      ↑s.accepted = job ::ₘ (↑queue + s.held.map Prod.fst + s.ran + s.dropped) ∧
      s.pending = s.entering.toList.length + queue.length + s.held.card + 1 := by
  obtain ⟨horder, hroom, hjobs, hpending, -⟩ := hs
  rw [h] at horder hroom hjobs hpending
  rw [length_cons] at hroom hpending
  exact ⟨(suffix_cons job queue).trans horder, by omega, by simpa [← Multiset.cons_coe] using hjobs,
    by omega⟩

theorem Sound.step (hs : s.Sound capacity) (h : Step capacity s t) : t.Sound capacity := by
  have hjobs := hs.jobs
  have hpending := hs.pending
  cases h with
  | count job hnone _ =>
    rw [hnone] at hpending
    exact { hs with pending := by simp at hpending ⊢; omega }
  | send job hsome hroom =>
    rw [hsome] at hpending
    obtain ⟨received, horder⟩ := hs.order
    exact { hs with
      order := ⟨received, by simp [← horder]⟩
      room := by simpa using hroom
      jobs := by
        rw [← Multiset.coe_add, ← Multiset.coe_add, hjobs]
        abel
      pending := by simp at hpending ⊢; omega }
  | refuse job hsome _ =>
    rw [hsome] at hpending
    exact { hs with pending := by simp at hpending ⊢; omega }
  | receive job queue hqueue =>
    obtain ⟨horder, hroom, hjobs, hnext⟩ := hs.next hqueue
    exact { hs with
      order := horder
      room := hroom
      jobs := by simpa using hjobs
      pending := by simp; omega }
  | begin job held hheld _ =>
    rw [hheld] at hjobs hpending
    exact { hs with jobs := by simpa using hjobs, pending := by simpa using hpending }
  | discard job held hheld hraised =>
    rw [hheld] at hjobs hpending
    exact { hs with
      jobs := by simpa using hjobs
      pending := by simp at hpending ⊢; omega
      dropped := fun hquiet => by simp [hraised] at hquiet }
  | finish job held hheld =>
    rw [hheld] at hjobs hpending
    exact { hs with jobs := by simpa using hjobs, pending := by simp at hpending ⊢; omega }
  | raise => exact { hs with dropped := nofun }
  | drop job queue hqueue hraised _ =>
    obtain ⟨horder, hroom, hjobs, hnext⟩ := hs.next hqueue
    exact { hs with
      order := horder
      room := hroom
      jobs := by simpa using hjobs
      pending := by simp; omega
      dropped := fun hquiet => by simp [hraised] at hquiet }

/-- Whatever the threads have done, every accepted job is queued, held, has been run or was dropped
after the shutdown had begun, once; with nothing pending none is queued or held. -/
theorem interleaving_safe (h : Relation.ReflTransGen (Step capacity) new s) :
    s.Sound capacity ∧ (s.pending = 0 → ↑s.accepted = s.ran + s.dropped) := by
  have hs : s.Sound capacity := by
    induction h with
    | refl => exact ⟨suffix_rfl, Nat.zero_le _, rfl, rfl, fun _ => rfl⟩
    | tail _ hstep ih => exact ih.step hstep
  refine ⟨hs, fun hzero => ?_⟩
  have hpending := hs.pending
  have hqueue : s.queue = [] := length_eq_zero_iff.mp (by omega)
  have hheld : s.held = 0 := Multiset.card_eq_zero.mp (by omega)
  simpa [hqueue, hheld] using hs.jobs

/-- A worker has begun the first of two jobs when the pool is shut down, which drops the other. -/
theorem interleaving_safe_drained :
    let drained : RequestPool ℕ := ⟨none, [], 0, 0, true, [7, 8], {7}, {8}⟩
    Relation.ReflTransGen (Step 64) new drained ∧ drained.Sound 64 ∧
      ↑drained.accepted = drained.ran + drained.dropped := by
  intro drained
  have hrun : Relation.ReflTransGen (Step 64) new drained := by
    refine .head (.count 7 rfl rfl) (.head (.send 7 rfl (by decide)) ?_)
    refine .head (.count 8 rfl rfl) (.head (.send 8 rfl (by decide)) ?_)
    refine .head (.receive 7 [8] rfl) (.head (.begin 7 0 rfl rfl) ?_)
    exact .head .raise (.head (.drop 8 [] rfl rfl rfl) (.single (.finish 7 0 rfl)))
  exact ⟨hrun, (interleaving_safe hrun).1, (interleaving_safe hrun).2 rfl⟩

end RequestPool

end Trufflepig.Daemon
