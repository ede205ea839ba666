import Trufflepig.Semantic.Scheduler

/-!
# Runs of the scheduler

Pushes and pops in any order, from the empty scheduler on, with what has been pushed and popped.

* `Record.Balanced`: the requests that a root has got and those that it has pending are, in
  order, the requests that were pushed for it.
* `CursorIn`: the cursor points at a root, if there is one.
* `turns_lt_of_query`: with a background request pending, a query is served only until three have
  been.
* `run_accounts`: all of it together, after every sequence of operations.
-/

namespace Trufflepig.Semantic

open List Lib

variable {α : Type}

namespace FairScheduler

/-! ## The cursor -/

/-- The cursor is the position of a root, or at the start if there is none. -/
def CursorIn (s : FairScheduler α) : Prop :=
  s.cursor < s.order.length ∨ s.order = [] ∧ s.cursor = 0

variable {s : FairScheduler α}

theorem CursorIn.enqueue (h : s.CursorIn) (root : Bytes) (c : RequestClass) (item : α) :
    (s.enqueue root c item).CursorIn := by
  rw [CursorIn, (s.enqueue_frame root c item).1, enqueue_order]
  split_ifs with hfind
  · exact h
  · refine .inl ?_
    rw [length_append, length_singleton]
    rcases h with h | ⟨-, h⟩
    · omega
    · omega

theorem CursorIn.removeRoot (h : s.CursorIn) (root : Bytes) : (s.removeRoot root).CursorIn := by
  rw [FairScheduler.removeRoot]
  dsimp only
  split
  · exact h
  · rename_i index hindex
    obtain ⟨hlt, -⟩ := findIdx?_eq_some_iff_getElem.mp hindex
    have hcursor : s.cursor < s.order.length := by
      rcases h with h | ⟨h, -⟩
      · exact h
      · rw [h] at hlt
        exact nomatch hlt
    have hlength := length_eraseIdx_of_lt hlt
    by_cases hempty : s.order.eraseIdx index = []
    · exact .inr ⟨hempty, if_pos hempty⟩
    · have hpos := length_pos_of_ne_nil hempty
      refine .inl ?_
      dsimp only
      rw [if_neg hempty]
      split_ifs with hbefore
      · omega
      · exact Nat.mod_lt _ hpos

theorem CursorIn.removeEmptyRoots (h : s.CursorIn) :
    s.removeEmptyRoots.CursorIn := by
  have hfold : ∀ (roots : List Bytes) (t : FairScheduler α), t.CursorIn →
      (roots.foldl FairScheduler.removeRoot t).CursorIn := by
    intro roots
    induction roots with
    | nil => exact fun t ht => ht
    | cons root roots ih => exact fun t ht => ih _ (ht.removeRoot root)
  exact hfold _ s h

theorem CursorIn.pop (h : s.CursorIn) : s.pop.2.CursorIn := by
  rw [FairScheduler.pop]
  split_ifs with hempty
  · exact h
  split
  · exact h
  · rename_i c item index _
    dsimp only
    obtain ⟨horder, -⟩ := s.popFront_frame (s.order.getD index []) c
    apply CursorIn.removeEmptyRoots
    refine .inl ?_
    dsimp only
    rw [horder]
    exact Nat.mod_lt _ (length_pos_of_ne_nil hempty)

/-! ## Runs -/

/-- An operation on the scheduler; a push by the root of its request is one with that root. -/
inductive Op (α : Type) where
  | push (root : Bytes) (c : RequestClass) (item : α)
  | pop

/-- A request with its root and class. -/
abbrev Tagged (α : Type) := Bytes × RequestClass × α

/-- The scheduler with what has gone in and out: the requests pushed, the requests popped, what
the calls of `pop` returned, and for each of them that returned a request its class and
whether a background request was pending. -/
structure Record (α : Type) where
  scheduler : FairScheduler α
  pushed : List (Tagged α)
  popped : List (Tagged α)
  returned : List α
  turns : List (RequestClass × Bool)

namespace Record

def start : Record α := ⟨.default, [], [], [], []⟩

/-- Whether a background request is pending. -/
def backgroundPending (s : FairScheduler α) : Bool :=
  s.order.any fun root => !(s.queue root .background).isEmpty

def apply (r : Record α) : Op α → Record α
  | .push root c item =>
    { r with
      scheduler := r.scheduler.enqueue root c item
      pushed := r.pushed ++ [(root, c, item)] }
  | .pop =>
    { r with
      scheduler := r.scheduler.pop.2
      popped := r.popped ++ r.scheduler.served.toList
      returned := r.returned ++ r.scheduler.pop.1.toList
      turns := r.turns ++ (r.scheduler.served.map fun tagged =>
        (tagged.2.1, backgroundPending r.scheduler)).toList }

/-- The record of a sequence of operations. -/
def run (ops : List (Op α)) : Record α := ops.foldl apply start

theorem run_append (ops : List (Op α)) (op : Op α) : run (ops ++ [op]) = (run ops).apply op := by
  rw [run, foldl_append]
  rfl

/-- The requests of one root and class, in order. -/
def ofQueue (root : Bytes) (c : RequestClass) (tagged : List (Tagged α)) : List α :=
  (tagged.filter fun t => t.1 = root ∧ t.2.1 = c).map fun t => t.2.2

theorem ofQueue_append (root : Bytes) (c : RequestClass) (xs ys : List (Tagged α)) :
    ofQueue root c (xs ++ ys) = ofQueue root c xs ++ ofQueue root c ys := by
  rw [ofQueue, filter_append, map_append]
  rfl

theorem ofQueue_singleton (root : Bytes) (c : RequestClass) (t : Tagged α) :
    ofQueue root c [t] = if root = t.1 ∧ c = t.2.1 then [t.2.2] else [] := by
  by_cases h : t.1 = root ∧ t.2.1 = c
  · rw [if_pos ⟨h.1.symm, h.2.symm⟩, ofQueue, filter_cons_of_pos (by simpa using h)]
    rfl
  · rw [if_neg fun h' => h ⟨h'.1.symm, h'.2.symm⟩, ofQueue, filter_cons_of_neg (by simpa using h)]
    rfl

/-- What holds of a record along every run. -/
structure Balanced (r : Record α) : Prop where
  wf : r.scheduler.Wf
  cursor : r.scheduler.CursorIn
  queues : ∀ root c, ofQueue root c r.popped ++ r.scheduler.queue root c =
    ofQueue root c r.pushed
  returned : r.returned = r.popped.map fun t => t.2.2
  count : r.popped.length + r.scheduler.pending = r.pushed.length
  counted : r.scheduler.queryTurns =
    min 255 (r.turns.rtakeWhile fun turn => turn.1 = RequestClass.query).length
  alternates : ¬List.replicate 4 (RequestClass.query, true) <:+: r.turns

/-! ## One operation -/

theorem balanced_start : (start : Record α).Balanced where
  wf := wf_default
  cursor := .inr ⟨rfl, rfl⟩
  queues := fun root c => by
    show [] ++ (default : FairScheduler α).queue root c = []
    rw [queue_of_find_none rfl, append_nil]
  returned := rfl
  count := rfl
  counted := rfl
  alternates := fun h => by
    have hnil := infix_nil.mp h
    exact nomatch hnil

variable {s : FairScheduler α}

theorem Balanced.push {r : Record α} (h : r.Balanced) (root : Bytes) (c : RequestClass)
    (item : α) : (r.apply (.push root c item)).Balanced where
  wf := h.wf.enqueue root c item
  cursor := h.cursor.enqueue root c item
  queues := by
    intro root' c'
    show ofQueue root' c' r.popped ++ (r.scheduler.enqueue root c item).queue root' c' =
      ofQueue root' c' (r.pushed ++ [(root, c, item)])
    rw [enqueue_queue, ofQueue_append, ofQueue_singleton, ← h.queues root' c']
    split_ifs with hsame
    · rw [append_assoc, hsame.1, hsame.2]
    · rw [append_nil]
  returned := h.returned
  count := by
    show r.popped.length + (r.scheduler.enqueue root c item).pending =
      (r.pushed ++ [(root, c, item)]).length
    rw [pending_eq_succ (h.wf.enqueue root c item) h.wf (itemsOf_enqueue h.wf root c item),
      length_append, length_singleton, ← h.count]
    omega
  counted := by
    show (r.scheduler.enqueue root c item).queryTurns = _
    rw [(r.scheduler.enqueue_frame root c item).2]
    exact h.counted
  alternates := h.alternates

/-- With a background request pending, a query is served only until three have been. -/
theorem turns_lt_of_query {s' : FairScheduler α} {root : Bytes} {item : α}
    {skipped after : List Bytes} (h : Popped s s' .query root item skipped after)
    (hpending : backgroundPending s = true) : s.queryTurns < 3 := by
  refine h.chosen_query.resolve_right fun hnone => ?_
  obtain ⟨x, -, hx⟩ := any_eq_true.mp hpending
  rw [hnone x] at hx
  exact nomatch hx

/-- Three queries at the end of the turns are counted. -/
theorem three_le_rtakeWhile {turns : List (RequestClass × Bool)}
    (h : List.replicate 3 (RequestClass.query, true) <:+ turns) :
    3 ≤ (turns.rtakeWhile fun turn => turn.1 = RequestClass.query).length := by
  obtain ⟨before, rfl⟩ := h
  rw [List.rtakeWhile, reverse_append, reverse_replicate]
  simp [List.replicate]

theorem Balanced.pop {r : Record α} (h : r.Balanced) : (r.apply .pop).Balanced := by
  by_cases hempty : r.scheduler.order = []
  · have hpop : r.scheduler.pop = (none, r.scheduler) := by rw [FairScheduler.pop, if_pos hempty]
    have hserved : r.scheduler.served = none := by
      rw [served, selected, selectClass, selectClass, hempty]
      rfl
    have hsame : r.apply .pop = r := by
      show (⟨r.scheduler.pop.2, r.pushed, r.popped ++ r.scheduler.served.toList,
        r.returned ++ r.scheduler.pop.1.toList, r.turns ++ (r.scheduler.served.map fun tagged =>
          (tagged.2.1, backgroundPending r.scheduler)).toList⟩ : Record α) = r
      rw [hpop, hserved, Option.map_none, Option.toList_none, Option.toList_none,
        append_nil, append_nil, Option.toList_none, append_nil]
    rw [hsame]
    exact h
  obtain ⟨c, root, item, skipped, after, hserved, hreturned, hpopped⟩ := pop_served h.wf hempty
  have hturns : (r.apply .pop).turns = r.turns ++ [(c, backgroundPending r.scheduler)] := by
    show r.turns ++ (r.scheduler.served.map _).toList = _
    rw [hserved]
    rfl
  have hlog : (r.apply .pop).popped = r.popped ++ [(root, c, item)] := by
    show r.popped ++ r.scheduler.served.toList = _
    rw [hserved]
    rfl
  refine ⟨hpopped.wf, h.cursor.pop, ?_, ?_, ?_, ?_, ?_⟩
  · intro root' c'
    show ofQueue root' c' (r.apply .pop).popped ++ r.scheduler.pop.2.queue root' c' =
      ofQueue root' c' r.pushed
    rw [hlog, ofQueue_append, ofQueue_singleton, ← h.queues root' c', append_assoc]
    split_ifs with hsame
    · rw [hsame.1, hsame.2, hpopped.front]
      rfl
    · rw [hpopped.others root' c' hsame, nil_append]
  · show r.returned ++ r.scheduler.pop.1.toList = _
    rw [hreturned, hlog, map_append, h.returned]
    rfl
  · show (r.apply .pop).popped.length + r.scheduler.pop.2.pending = r.pushed.length
    rw [hlog, length_append, length_singleton, ← h.count, 
      pending_eq_succ h.wf hpopped.wf (hpopped.itemsOf h.wf)]
    omega
  · show r.scheduler.pop.2.queryTurns = _
    rw [hturns, hpopped.turns, h.counted]
    cases c with
    | query =>
      rw [rtakeWhile_concat_pos _ _ _ rfl, length_append, length_singleton, if_pos rfl]
      omega
    | background =>
      rw [rtakeWhile_concat_neg _ _ _ (by simp), if_neg (by decide)]
      rfl
  · rw [hturns, infix_concat_iff]
    rintro (hsuffix | hinfix)
    · have hsplit : List.replicate 4 (RequestClass.query, true) =
          List.replicate 3 (RequestClass.query, true) ++ [(RequestClass.query, true)] := rfl
      rw [hsplit] at hsuffix
      obtain ⟨before, hbefore⟩ := hsuffix
      rw [← append_assoc] at hbefore
      obtain ⟨hqueries, hlast⟩ := append_inj' hbefore rfl
      obtain ⟨rfl, hpending⟩ := Prod.mk.inj (singleton_inj.mp hlast)
      have hlt := turns_lt_of_query hpopped hpending.symm
      have hle := three_le_rtakeWhile ⟨before, hqueries⟩
      rw [h.counted] at hlt
      omega
    · exact h.alternates hinfix

/-! ## Whole runs -/

theorem balanced_run (ops : List (Op α)) : (run ops).Balanced := by
  induction ops using List.reverseRecOn with
  | nil => exact balanced_start
  | append_singleton ops op ih =>
    rw [run_append]
    cases op with
    | push root c item => exact ih.push root c item
    | pop => exact ih.pop

theorem pending_eq_zero (h : s.Wf) : s.pending = 0 ↔ s.order = [] := by
  rw [pending_eq h, Nat.add_eq_zero_iff, length_eq_zero_iff, length_eq_zero_iff]
  constructor
  · rintro ⟨hquery, hbackground⟩
    by_contra hne
    obtain ⟨root, hroot⟩ := exists_mem_of_ne_nil _ hne
    obtain ⟨c, hc⟩ := h.pending root hroot
    cases c with
    | query => exact hc (flatMap_eq_nil_iff.mp hquery root hroot)
    | background => exact hc (flatMap_eq_nil_iff.mp hbackground root hroot)
  · intro hempty
    rw [itemsOf, itemsOf, hempty]
    exact ⟨rfl, rfl⟩

end Record

open Record in
/-- After every sequence of pushes and pops: the requests of a root and class that were popped,
and then those that are pending, are those pushed; what `pop` returned are the requests popped;
`pending` is what is left; `pop` returns none exactly if nothing is left; the order holds the
roots with requests, and the cursor is in it; and four queries in a row were never served
with a background request pending. -/
theorem run_accounts (ops : List (Op α)) :
    (∀ root c, ofQueue root c (run ops).popped ++ (run ops).scheduler.queue root c =
      ofQueue root c (run ops).pushed) ∧
    (run ops).returned = (run ops).popped.map (fun t => t.2.2) ∧
    (run ops).popped.length + (run ops).scheduler.pending = (run ops).pushed.length ∧
    ((run ops).scheduler.pop.1 = none ↔ (run ops).scheduler.pending = 0) ∧
    (run ops).scheduler.order.Nodup ∧
    (∀ root, root ∈ (run ops).scheduler.order ↔ ∃ c, (run ops).scheduler.queue root c ≠ []) ∧
    (run ops).scheduler.CursorIn ∧
    ¬List.replicate 4 (RequestClass.query, true) <:+: (run ops).turns := by
  have h := balanced_run ops
  refine ⟨h.queues, h.returned, h.count, ?_, h.wf.nodup, h.wf.mem_order_iff, h.cursor, h.alternates⟩
  rw [pending_eq_zero h.wf]
  constructor
  · intro hnone
    by_contra hempty
    obtain ⟨c, root, item, skipped, after, -, hreturned, -⟩ := pop_served h.wf hempty
    rw [hreturned] at hnone
    exact nomatch hnone
  · intro hempty
    rw [pop, if_pos hempty]

end FairScheduler

end Trufflepig.Semantic
