import Trufflepig.Semantic.Worker

/-!
# What the worker owes

An abstract account of the worker: the connections whose request has not been handled, the
batches that are queued and that are running, the counters of admission, the roots with a
background batch, and the connections that have been replied to. A connection moves through it
and is never copied.

* `Ledger.Sound`: the counters count the batches, and are within the limits; a root has at most
  one background batch, and is known to have it; no connection is in two places.
* `Ledger.Step.sound`: every step keeps the account.
-/

namespace Trufflepig.Semantic

open Lib

/-- An admitted batch: its connection, the bytes that were admitted, and its root if it is a
background batch. -/
structure Batch where
  stream : ℕ
  bytes : ℕ
  root : Option Bytes
  deriving DecidableEq

@[ext] structure Ledger where
  waiting : Multiset ℕ
  queued : Multiset Batch
  running : Multiset Batch
  counters : AdmissionState
  roots : Finset Bytes
  replied : Multiset ℕ
  accepted : ℕ

namespace Ledger

/-- The batches that are outstanding. -/
def outstanding (l : Ledger) : Multiset Batch := l.queued + l.running

/-- The connections, each in the place where it is. -/
def streams (l : Ledger) : Multiset ℕ := l.waiting + l.outstanding.map Batch.stream + l.replied

structure Sound (l : Ledger) : Prop where
  queued : l.counters.queued = l.queued.card
  inflight : l.counters.inflight = l.running.card
  bytes : l.counters.rawInputBytes = (l.outstanding.map Batch.bytes).sum
  limit : l.outstanding.card ≤ 64
  bytesLimit : (l.outstanding.map Batch.bytes).sum ≤ maxRawInputBytes
  roots : ∀ r, (l.outstanding.filterMap Batch.root).count r = if r ∈ l.roots then 1 else 0
  nodup : l.streams.Nodup
  fresh : ∀ stream ∈ l.streams, stream < l.accepted

/-- The roots once a batch has been admitted. -/
def Batch.enter (batch : Batch) (roots : Finset Bytes) : Finset Bytes :=
  match batch.root with
  | some r => insert r roots
  | none => roots

/-- The roots once a batch has left. -/
def Batch.leave (batch : Batch) (roots : Finset Bytes) : Finset Bytes :=
  match batch.root with
  | some r => roots.erase r
  | none => roots

/-- The reply to a connection, if there is one. -/
def answer (answered : Bool) (stream : ℕ) : Multiset ℕ := if answered then {stream} else 0

inductive Step : Ledger → Ledger → Prop where
  | stay (l : Ledger) : Step l l
  | accept (l : Ledger) :
    Step l { l with accepted := l.accepted + 1, waiting := l.accepted ::ₘ l.waiting }
  | refuse (l : Ledger) :
    Step l { l with accepted := l.accepted + 1, replied := l.accepted ::ₘ l.replied }
  | reply (l : Ledger) {stream : ℕ} {rest : Multiset ℕ} (answered : Bool) :
    l.waiting = stream ::ₘ rest →
    Step l { l with waiting := rest, replied := answer answered stream + l.replied }
  | enter (l : Ledger) (batch : Batch) {rest : Multiset ℕ} {inputs : ℕ} {ticket : AdmissionTicket}
    {counters : AdmissionState} :
    l.waiting = batch.stream ::ₘ rest →
    l.counters.tryAdmit .default inputs batch.bytes = .ok (ticket, counters) →
    (∀ r, batch.root = some r → r ∉ l.roots) →
    Step l { l with
      waiting := rest
      queued := batch ::ₘ l.queued
      counters := counters
      roots := Batch.enter batch l.roots }
  | abandon (l : Ledger) (batch : Batch) {rest : Multiset Batch} (answered : Bool) :
    l.queued = batch ::ₘ rest →
    Step l { l with
      queued := rest
      counters := AdmissionTicket.drop ⟨batch.bytes⟩ l.counters
      roots := Batch.leave batch l.roots
      replied := answer answered batch.stream + l.replied }
  | start (l : Ledger) (batch : Batch) {rest : Multiset Batch} :
    l.queued = batch ::ₘ rest →
    Step l { l with
      queued := rest
      running := batch ::ₘ l.running
      counters := (AdmissionTicket.begin ⟨batch.bytes⟩ l.counters).2 }
  | complete (l : Ledger) (batch : Batch) {rest : Multiset Batch} (answered : Bool) :
    l.running = batch ::ₘ rest →
    Step l { l with
      running := rest
      counters := InflightTicket.drop ⟨batch.bytes⟩ l.counters
      roots := Batch.leave batch l.roots
      replied := answer answered batch.stream + l.replied }

variable {l l' : Ledger}

theorem Step.of_eq {l'' : Ledger} (h : Step l l'') (heq : l'' = l') : Step l l' := heq ▸ h

/-! ## Every step keeps the account -/

theorem answer_le (answered : Bool) (stream : ℕ) : answer answered stream ≤ {stream} := by
  cases answered with
  | true => exact le_rfl
  | false => exact Multiset.zero_le _

/-- A connection that is in fewer places than before is in one at most. -/
theorem Sound.streams_of_le (h : l.Sound) {s : Multiset ℕ} (hle : s ≤ l.streams) :
    s.Nodup ∧ ∀ stream ∈ s, stream < l.accepted :=
  ⟨Multiset.nodup_of_le hle h.nodup, fun stream hmem =>
    h.fresh stream (Multiset.mem_of_le hle hmem)⟩

/-- A new connection is in one place. -/
theorem Sound.streams_of_new (h : l.Sound) {s : Multiset ℕ} (hnew : s = l.accepted ::ₘ l.streams) :
    s.Nodup ∧ ∀ stream ∈ s, stream < l.accepted + 1 := by
  rw [hnew]
  refine ⟨Multiset.nodup_cons.mpr ⟨fun hmem => ?_, h.nodup⟩, fun stream hmem => ?_⟩
  · exact absurd (h.fresh _ hmem) (Nat.lt_irrefl _)
  · rcases Multiset.mem_cons.mp hmem with rfl | hold
    · exact Nat.lt_succ_self _
    · exact Nat.lt_succ_of_lt (h.fresh stream hold)

theorem count_filterMap_cons (batch : Batch) (batches : Multiset Batch) (r : Bytes) :
    ((batch ::ₘ batches).filterMap Batch.root).count r =
      (if batch.root = some r then 1 else 0) + (batches.filterMap Batch.root).count r := by
  cases hroot : batch.root with
  | none =>
    rw [Multiset.filterMap_cons_none _ _ hroot, if_neg (fun h => nomatch h), Nat.zero_add]
  | some r' =>
    rw [Multiset.filterMap_cons_some _ _ _ hroot, Multiset.count_cons, Nat.add_comm]
    by_cases hr : r = r'
    · rw [if_pos hr, if_pos (by rw [hr])]
    · rw [if_neg hr, if_neg (fun h => hr (Option.some.inj h).symm)]

variable {batch : Batch} {batches : Multiset Batch} {roots : Finset Bytes}

theorem Batch.mem_leave {r : Bytes} :
    r ∈ Batch.leave batch roots ↔ batch.root ≠ some r ∧ r ∈ roots := by
  rw [Batch.leave.eq_def]
  cases batch.root with
  | none => simp
  | some r' => simp [eq_comm]

theorem Batch.mem_enter {r : Bytes} :
    r ∈ Batch.enter batch roots ↔ batch.root = some r ∨ r ∈ roots := by
  rw [Batch.enter.eq_def]
  cases batch.root with
  | none => simp
  | some r' => simp [eq_comm]

/-- The roots that are known after a batch has left. -/
theorem count_of_leave
    (h : ∀ r, ((batch ::ₘ batches).filterMap Batch.root).count r = if r ∈ roots then 1 else 0)
    (r : Bytes) :
    (batches.filterMap Batch.root).count r = if r ∈ Batch.leave batch roots then 1 else 0 := by
  have hr := h r
  rw [count_filterMap_cons] at hr
  simp only [Batch.mem_leave]
  by_cases hbatch : batch.root = some r
  · rw [if_pos hbatch] at hr
    rw [if_neg (fun hleft => hleft.1 hbatch)]
    split_ifs at hr
    all_goals omega
  · simpa [hbatch] using hr

/-- The roots that are known after a batch has been admitted. -/
theorem count_of_enter
    (h : ∀ r, (batches.filterMap Batch.root).count r = if r ∈ roots then 1 else 0)
    (hnew : ∀ r, batch.root = some r → r ∉ roots) (r : Bytes) :
    ((batch ::ₘ batches).filterMap Batch.root).count r =
      if r ∈ Batch.enter batch roots then 1 else 0 := by
  rw [count_filterMap_cons, h]
  simp only [Batch.mem_enter]
  by_cases hbatch : batch.root = some r
  · simp [hbatch, hnew r hbatch]
  · simp [hbatch]

/-- A connection that is replied to, or not, leaves its place. -/
theorem answer_add_le (answered : Bool) (stream : ℕ) (others replied : Multiset ℕ) :
    others + (answer answered stream + replied) ≤ stream ::ₘ others + replied := by
  calc others + (answer answered stream + replied)
      = answer answered stream + (others + replied) := by abel
    _ ≤ {stream} + (others + replied) := by
      gcongr
      exact answer_le answered stream
    _ = stream ::ₘ others + replied := by rw [Multiset.singleton_add, Multiset.cons_add]

/-- Leaving the worker, from either side of the account. -/
theorem Sound.leave (h : l.Sound) {queued running : Multiset Batch} {counters : AdmissionState}
    (answered : Bool) (hout : l.outstanding = batch ::ₘ (queued + running))
    (hqueued : counters.queued = queued.card) (hinflight : counters.inflight = running.card)
    (hbytes : counters.rawInputBytes = l.counters.rawInputBytes - batch.bytes) :
    Sound { l with
      queued := queued
      running := running
      counters := counters
      roots := Batch.leave batch l.roots
      replied := answer answered batch.stream + l.replied } := by
  have hcard := h.limit
  have hsum := h.bytes
  have hlimit := h.bytesLimit
  have hroots := h.roots
  rw [hout] at hcard hsum hlimit hroots
  rw [Multiset.card_cons] at hcard
  rw [Multiset.map_cons, Multiset.sum_cons] at hsum hlimit
  have hstreams : l.waiting + (queued + running).map Batch.stream +
      (answer answered batch.stream + l.replied) ≤ l.streams := by
    rw [streams, hout, Multiset.map_cons, Multiset.add_cons]
    exact answer_add_le ..
  obtain ⟨hnodup, hfresh⟩ := h.streams_of_le hstreams
  exact {
    queued := hqueued
    inflight := hinflight
    bytes := by
      show counters.rawInputBytes = ((queued + running).map Batch.bytes).sum
      omega
    limit := by
      show (queued + running).card ≤ 64
      omega
    bytesLimit := by
      show ((queued + running).map Batch.bytes).sum ≤ maxRawInputBytes
      omega
    roots := count_of_leave hroots
    nodup := hnodup
    fresh := hfresh }

theorem Step.sound (h : l.Sound) (hstep : Step l l') : l'.Sound := by
  cases hstep with
  | stay => exact h
  | accept =>
    obtain ⟨hnodup, hfresh⟩ := h.streams_of_new
      (s := l.accepted ::ₘ l.waiting + l.outstanding.map Batch.stream + l.replied)
      (by simp only [streams, Multiset.cons_add])
    exact { h with nodup := hnodup, fresh := hfresh }
  | refuse =>
    obtain ⟨hnodup, hfresh⟩ := h.streams_of_new
      (s := l.waiting + l.outstanding.map Batch.stream + l.accepted ::ₘ l.replied)
      (by simp only [streams, Multiset.add_cons])
    exact { h with nodup := hnodup, fresh := hfresh }
  | @reply stream rest answered hwaiting =>
    have hstreams : rest + l.outstanding.map Batch.stream + (answer answered stream + l.replied) ≤
        l.streams := by
      rw [streams, hwaiting, Multiset.cons_add]
      exact answer_add_le ..
    obtain ⟨hnodup, hfresh⟩ := h.streams_of_le hstreams
    exact { h with nodup := hnodup, fresh := hfresh }
  | @enter batch rest inputs ticket counters hwaiting hadmit hnew =>
    obtain ⟨-, hfewer, hwithin, rfl⟩ := AdmissionState.tryAdmit_eq_ok hadmit
    have hqueued := h.queued
    have hinflight := h.inflight
    have hbytes := h.bytes
    have hlimit := h.limit
    have hstreams : rest + (batch ::ₘ l.queued + l.running).map Batch.stream + l.replied =
        l.streams := by
      simp only [streams, outstanding, hwaiting, Multiset.cons_add, Multiset.map_cons,
        Multiset.add_cons]
    obtain ⟨hnodup, hfresh⟩ := h.streams_of_le hstreams.le
    exact {
      queued := by
        show l.counters.queued + 1 = (batch ::ₘ l.queued).card
        rw [Multiset.card_cons, hqueued]
      inflight := hinflight
      bytes := by
        show l.counters.rawInputBytes + batch.bytes = ((batch ::ₘ l.queued + l.running).map _).sum
        rw [Multiset.cons_add, Multiset.map_cons, Multiset.sum_cons, hbytes, Nat.add_comm]
        rfl
      limit := by
        show (batch ::ₘ l.queued + l.running).card ≤ 64
        rw [outstanding, Multiset.card_add] at hlimit
        rw [Multiset.cons_add, Multiset.card_cons, Multiset.card_add]
        rw [show AdmissionLimits.default.maxAdmitted = 64 from rfl, usizeMax] at hfewer
        omega
      bytesLimit := by
        show ((batch ::ₘ l.queued + l.running).map _).sum ≤ maxRawInputBytes
        rw [Multiset.cons_add, Multiset.map_cons, Multiset.sum_cons, Nat.add_comm]
        rw [hbytes] at hwithin
        exact hwithin
      roots := by
        show ∀ r, ((batch ::ₘ l.queued + l.running).filterMap Batch.root).count r = _
        rw [Multiset.cons_add]
        exact count_of_enter h.roots hnew
      nodup := hnodup
      fresh := hfresh }
  | @abandon batch rest answered hqueued =>
    have hcounter := h.queued
    rw [hqueued, Multiset.card_cons] at hcounter
    refine h.leave answered (by rw [outstanding, hqueued, Multiset.cons_add]) ?_ h.inflight rfl
    show l.counters.queued - 1 = rest.card
    omega
  | @start batch rest hqueued =>
    have hcounter := h.queued
    have hinflight := h.inflight
    rw [hqueued, Multiset.card_cons] at hcounter
    have hout : outstanding { l with
        queued := rest
        running := batch ::ₘ l.running
        counters := (AdmissionTicket.begin ⟨batch.bytes⟩ l.counters).2 } = l.outstanding := by
      rw [outstanding, outstanding, hqueued, Multiset.add_cons, Multiset.cons_add]
    exact {
      queued := by
        show l.counters.queued - 1 = rest.card
        omega
      inflight := by
        show l.counters.inflight + 1 = (batch ::ₘ l.running).card
        rw [Multiset.card_cons, hinflight]
      bytes := by rw [hout]; exact h.bytes
      limit := by rw [hout]; exact h.limit
      bytesLimit := by rw [hout]; exact h.bytesLimit
      roots := by rw [hout]; exact h.roots
      nodup := by rw [streams, hout]; exact h.nodup
      fresh := by rw [streams, hout]; exact h.fresh }
  | @complete batch rest answered hrunning =>
    have hcounter := h.inflight
    rw [hrunning, Multiset.card_cons] at hcounter
    refine h.leave answered (by rw [outstanding, hrunning, Multiset.add_cons]) h.queued ?_ rfl
    show l.counters.inflight - 1 = rest.card
    omega

end Ledger

end Trufflepig.Semantic
