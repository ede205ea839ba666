import Trufflepig.Lib.Rotation
import Trufflepig.Lib.SortedTable
import Trufflepig.Lib.Sorting

/-!
# `FairScheduler` (`semantic/worker/scheduler.rs`)

The scheduler keeps a queue of query requests and one of background requests for each root, the
roots in the order in which they came, and a cursor into that order. `pop` prefers a query
until three have been served in a row, then a background request, and serves the first root
from the cursor on that has a request of the class. A root whose two queues are empty is
removed.

* `enqueue_queue`, `pop_cases`: what the two operations do to the queues and to the ring of the
  roots.
* `itemsOf_enqueue`, `Popped.itemsOf`: one request comes in, one goes out.
* `Reachable.wf`: a root is in the order exactly if it has a request.
-/

namespace Trufflepig.Semantic

open List Lib

variable {α : Type}

inductive RequestClass where
  | query
  | background
  deriving DecidableEq, Repr

/-- `RootIdent`. -/
class RootIdent (α : Type) where
  rootId : α → Bytes

structure RootQueue (α : Type) where
  query : List α
  background : List α
  deriving DecidableEq

namespace RootQueue

def empty : RootQueue α := ⟨[], []⟩

/-- The requests of a class. -/
def ofClass (queue : RootQueue α) : RequestClass → List α
  | .query => queue.query
  | .background => queue.background

def setClass (queue : RootQueue α) (items : List α) : RequestClass → RootQueue α
  | .query => { queue with query := items }
  | .background => { queue with background := items }

theorem ofClass_setClass (queue : RootQueue α) (items : List α) (c d : RequestClass) :
    (queue.setClass items c).ofClass d = if d = c then items else queue.ofClass d := by
  cases c <;> cases d <;> rfl

@[simp] theorem ofClass_empty (c : RequestClass) : (empty : RootQueue α).ofClass c = [] := by
  cases c <;> rfl

end RootQueue

/-- `BTreeMap<String, RootQueue<T>>`. -/
abbrev RootTable (α : Type) :=
  SortedTable (Prod.fst : Bytes × RootQueue α → Bytes) (· < ·)

structure FairScheduler (α : Type) where
  roots : RootTable α
  order : List Bytes
  cursor : ℕ
  queryTurns : ℕ

namespace FairScheduler

/-- `FairScheduler::default`. -/
def default : FairScheduler α := ⟨.empty, [], 0, 0⟩

variable (s : FairScheduler α)

/-- `enqueue`. -/
def enqueue (rootId : Bytes) (c : RequestClass) (item : α) : FairScheduler α :=
  match s.roots.find rootId with
  | some (_, queue) =>
    { s with roots := s.roots.insert (rootId, queue.setClass (queue.ofClass c ++ [item]) c) }
  | none =>
    { s with
      roots := s.roots.insert (rootId, RootQueue.empty.setClass [item] c)
      order := s.order ++ [rootId] }

/-- `push`. -/
def push [RootIdent α] (s : FairScheduler α) (c : RequestClass) (item : α) : FairScheduler α :=
  s.enqueue (RootIdent.rootId item) c item

/-- The requests of a class that a root has pending. -/
def queue (root : Bytes) (c : RequestClass) : List α :=
  ((s.roots.find root).map fun row => row.2.ofClass c).getD []

/-- The class that `pop` tries first. -/
def preferred : RequestClass :=
  if s.queryTurns < 3 then .query else .background

/-- The class that it tries next (in `pop`). -/
def fallback : RequestClass :=
  match s.preferred with
  | .query => .background
  | .background => .query

/-- The inner loop of `pop` for one class: the request and the index of its
root. -/
def selectClass (c : RequestClass) : Option (α × ℕ) :=
  roundFrom s.order s.cursor fun root => (s.queue root c).head?

/-- The request that `pop` takes, with its class and the index of its root. -/
def selected : Option (RequestClass × α × ℕ) :=
  ((s.selectClass s.preferred).map (s.preferred, ·)).or
    ((s.selectClass s.fallback).map (s.fallback, ·))

/-- The root, the class and the request itself of what `pop` takes. -/
def served : Option (Bytes × RequestClass × α) :=
  s.selected.map fun found => (s.order.getD found.2.2 [], found.1, found.2.1)

/-- `pop_front` on the queue of a root. -/
def popFront (root : Bytes) (c : RequestClass) : FairScheduler α :=
  match s.roots.find root with
  | some (_, queue) =>
    { s with roots := s.roots.insert (root, queue.setClass (queue.ofClass c).tail c) }
  | none => s

/-- The loop body of `remove_empty_roots`. -/
def removeRoot (root : Bytes) : FairScheduler α :=
  let s := { s with roots := s.roots.remove root }
  match s.order.findIdx? (· = root) with
  | none => s
  | some index =>
    let order := s.order.eraseIdx index
    { s with
      order := order
      cursor := if order = [] then 0
        else if index < s.cursor then s.cursor - 1 else s.cursor % order.length }

/-- The roots without a request (in `remove_empty_roots`). -/
def emptyRoots : List Bytes :=
  (s.roots.rows.filter fun row => row.2.query.isEmpty && row.2.background.isEmpty).map Prod.fst

/-- `remove_empty_roots`. -/
def removeEmptyRoots : FairScheduler α := s.emptyRoots.foldl removeRoot s

/-- `pop`. -/
def pop : Option α × FairScheduler α :=
  if s.order = [] then (none, s)
  else
    match s.selected with
    | none => (none, s)
    | some (c, item, index) =>
      let s := s.popFront (s.order.getD index []) c
      let s := { s with
        queryTurns := if c = RequestClass.query then min 255 (s.queryTurns + 1) else 0
        cursor := (index + 1) % s.order.length }
      (some item, s.removeEmptyRoots)

/-- `pending`. -/
def pending : ℕ :=
  (s.roots.rows.map fun row => row.2.query.length + row.2.background.length).sum

/-! ## The queues -/

variable {s} {root : Bytes}

theorem queue_of_find {key : Bytes} {q : RootQueue α} (h : s.roots.find root = some (key, q))
    (c : RequestClass) : s.queue root c = q.ofClass c := by
  rw [queue, h]
  rfl

theorem queue_of_find_none (h : s.roots.find root = none) (c : RequestClass) :
    s.queue root c = [] := by
  rw [queue, h]
  rfl

theorem queue_insert (s : FairScheduler α) (root : Bytes) (q : RootQueue α) (order : List Bytes)
    (cursor turns : ℕ) (r : Bytes) (c : RequestClass) :
    (⟨s.roots.insert (root, q), order, cursor, turns⟩ : FairScheduler α).queue r c =
      if r = root then q.ofClass c else s.queue r c := by
  rw [queue, queue, SortedTable.find_insert]
  split_ifs
  · rfl
  · rfl

/-- Writing one class of a root whose other class stays as it was. -/
theorem queue_write {q : RootQueue α} (hq : ∀ d, q.ofClass d = s.queue root d) (items : List α)
    (c : RequestClass) (order : List Bytes) (cursor turns : ℕ) (r : Bytes) (d : RequestClass) :
    (⟨s.roots.insert (root, q.setClass items c), order, cursor, turns⟩ : FairScheduler α).queue r d =
      if r = root ∧ d = c then items else s.queue r d := by
  rw [queue_insert, RootQueue.ofClass_setClass, hq]
  by_cases hr : r = root
  · simp [hr]
  · simp [hr]

theorem enqueue_queue (s : FairScheduler α) (root : Bytes) (c : RequestClass) (item : α)
    (r : Bytes) (d : RequestClass) :
    (s.enqueue root c item).queue r d =
      if r = root ∧ d = c then s.queue root c ++ [item] else s.queue r d := by
  rw [enqueue.eq_def]
  cases hfind : s.roots.find root with
  | none =>
    rw [queue_of_find_none hfind]
    exact queue_write (fun d => by rw [RootQueue.ofClass_empty, queue_of_find_none hfind]) ..
  | some row =>
    rw [queue_of_find hfind]
    exact queue_write (fun d => (queue_of_find hfind d).symm) ..

theorem popFront_queue (s : FairScheduler α) (root : Bytes) (c : RequestClass) (r : Bytes)
    (d : RequestClass) :
    (s.popFront root c).queue r d =
      if r = root ∧ d = c then (s.queue root c).tail else s.queue r d := by
  rw [popFront.eq_def]
  cases hfind : s.roots.find root with
  | none =>
    dsimp only
    split_ifs with h
    · rw [h.1, queue_of_find_none hfind, queue_of_find_none hfind, tail_nil]
    · rfl
  | some row =>
    rw [queue_of_find hfind]
    exact queue_write (fun d => (queue_of_find hfind d).symm) ..

/-! ## Well-formed schedulers -/

/-- A root is in the table, and in the order, exactly if it has a request. -/
structure Wf (s : FairScheduler α) : Prop where
  nodup : s.order.Nodup
  keys : ∀ r, (s.roots.find r).isSome ↔ r ∈ s.order
  pending : ∀ r ∈ s.order, ∃ c, s.queue r c ≠ []

theorem Wf.mem_order_iff (h : s.Wf) (r : Bytes) :
    r ∈ s.order ↔ ∃ c, s.queue r c ≠ [] := by
  refine ⟨h.pending r, fun ⟨c, hc⟩ => (h.keys r).mp ?_⟩
  cases hfind : s.roots.find r with
  | none => exact absurd (queue_of_find_none hfind c) hc
  | some row => rfl

theorem wf_default : (default : FairScheduler α).Wf where
  nodup := nodup_nil
  keys := fun r => by simp [default, SortedTable.empty, SortedTable.find]
  pending := fun r hr => absurd hr not_mem_nil

section

variable (s : FairScheduler α) (root : Bytes) (c : RequestClass) (item : α)

theorem enqueue_order : (s.enqueue root c item).order =
      if (s.roots.find root).isSome then s.order else s.order ++ [root] := by
  rw [enqueue.eq_def]
  cases s.roots.find root with
  | none => rfl
  | some row => rfl

theorem enqueue_frame : (s.enqueue root c item).cursor = s.cursor ∧
      (s.enqueue root c item).queryTurns = s.queryTurns := by
  rw [enqueue.eq_def]
  split
  · exact ⟨rfl, rfl⟩
  · exact ⟨rfl, rfl⟩

theorem enqueue_find (r : Bytes) : ((s.enqueue root c item).roots.find r).isSome ↔
      r = root ∨ (s.roots.find r).isSome := by
  rw [enqueue.eq_def]
  split
  all_goals
    dsimp only
    rw [SortedTable.find_insert]
    by_cases hr : r = root
    · simp [hr]
    · simp [hr]

end

theorem Wf.enqueue (h : s.Wf) (root : Bytes) (c : RequestClass) (item : α) :
    (s.enqueue root c item).Wf where
  nodup := by
    rw [enqueue_order]
    split_ifs with hfind
    · exact h.nodup
    · rw [h.keys] at hfind
      exact concat_eq_append ▸ h.nodup.concat hfind
  keys := by
    intro r
    rw [enqueue_find, enqueue_order, h.keys]
    split_ifs with hfind
    · rw [h.keys] at hfind
      exact ⟨fun hor => hor.elim (fun heq => heq ▸ hfind) id, .inr⟩
    · rw [mem_append, mem_singleton]
      exact or_comm
  pending := by
    intro r hr
    by_cases hroot : r = root
    · refine ⟨c, ?_⟩
      rw [enqueue_queue, if_pos ⟨hroot, rfl⟩]
      exact append_ne_nil_of_right_ne_nil _ (cons_ne_nil _ _)
    · have hmem : r ∈ s.order := by
        rw [enqueue_order] at hr
        split_ifs at hr with hfind
        · exact hr
        · exact (mem_append.mp hr).resolve_right (by simpa using hroot)
      obtain ⟨d, hd⟩ := h.pending r hmem
      refine ⟨d, ?_⟩
      rw [enqueue_queue, if_neg (fun hand => hroot hand.1)]
      exact hd

/-! ## Removing the roots without a request -/

theorem mem_emptyRoots (s : FairScheduler α) (r : Bytes) :
    r ∈ s.emptyRoots ↔ (s.roots.find r).isSome ∧ ∀ c, s.queue r c = [] := by
  rw [emptyRoots, mem_map]
  constructor
  · rintro ⟨⟨key, q⟩, hrow, rfl⟩
    obtain ⟨hmem, hempty⟩ := mem_filter.mp hrow
    have hfind := SortedTable.find_of_mem hmem
    rw [Bool.and_eq_true, List.isEmpty_iff, List.isEmpty_iff] at hempty
    refine ⟨by rw [hfind]; rfl, fun c => ?_⟩
    rw [queue_of_find hfind]
    cases c with
    | query => exact hempty.1
    | background => exact hempty.2
  · rintro ⟨hfind, hempty⟩
    obtain ⟨⟨key, q⟩, hrow⟩ := Option.isSome_iff_exists.mp hfind
    obtain ⟨hmem, hkey⟩ := SortedTable.mem_of_find hrow
    have hqueue : ∀ c, q.ofClass c = [] := fun c => (queue_of_find hrow c).symm.trans (hempty c)
    refine ⟨(key, q), mem_filter.mpr ⟨hmem, ?_⟩, hkey⟩
    rw [Bool.and_eq_true, List.isEmpty_iff, List.isEmpty_iff]
    exact ⟨hqueue .query, hqueue .background⟩

theorem nodup_emptyRoots (s : FairScheduler α) : s.emptyRoots.Nodup :=
  (nodup_of_sorted s.roots).sublist (filter_sublist.map _)

/-- The roots from the cursor on. -/
def ring (s : FairScheduler α) : List Bytes := s.order.rotate s.cursor

variable {r : Bytes}

theorem mem_ring : r ∈ s.ring ↔ r ∈ s.order := mem_rotate

theorem removeRoot_queue (s : FairScheduler α) (root r : Bytes) (c : RequestClass) :
    (s.removeRoot root).queue r c = if r = root then [] else s.queue r c := by
  have hroots : (s.removeRoot root).roots = s.roots.remove root := by
    rw [removeRoot.eq_def]
    dsimp only
    split
    · rfl
    · rfl
  rw [queue, queue, hroots, SortedTable.find_remove]
  split_ifs
  · rfl
  · rfl

theorem findIdx?_eq {order : List Bytes} (h : root ∈ order) :
    ∃ index, order.findIdx? (· = root) = some index ∧ order[index]? = some root := by
  have hsome : (order.findIdx? (· = root)).isSome := by
    rw [findIdx?_isSome, any_eq_true]
    exact ⟨root, h, decide_eq_true rfl⟩
  obtain ⟨index, hindex⟩ := Option.isSome_iff_exists.mp hsome
  obtain ⟨hlt, hget, -⟩ := findIdx?_eq_some_iff_getElem.mp hindex
  exact ⟨index, hindex, by rw [getElem?_eq_getElem hlt, of_decide_eq_true hget]⟩

/-- Removing a root takes it out of the ring. -/
theorem removeRoot_ring (hnodup : s.order.Nodup) (hroot : root ∈ s.order)
    (hcursor : s.cursor < s.order.length) :
    (s.removeRoot root).order = s.order.filter (· ≠ root) ∧
    (s.removeRoot root).ring = s.ring.filter (· ≠ root) ∧
    (s.removeRoot root).roots = s.roots.remove root ∧
    (s.removeRoot root).queryTurns = s.queryTurns := by
  obtain ⟨index, hindex, hget⟩ := findIdx?_eq hroot
  rw [removeRoot.eq_def]
  dsimp only
  rw [hindex]
  exact ⟨eraseIdx_eq_filter hnodup hget, rotate_eraseIdx hnodup hget hcursor, rfl, rfl⟩

/-- The roots of `s` without one that has no request any more. -/
def keptRoots (s : FairScheduler α) (r : Bytes) (roots : List Bytes) : List Bytes :=
  if (s.queue r .query).isEmpty && (s.queue r .background).isEmpty then roots.filter (· ≠ r)
  else roots

theorem keptRoots_cases (s : FairScheduler α) (r : Bytes) (roots : List Bytes) :
    ((∀ c, s.queue r c = []) ∧ s.keptRoots r roots = roots.filter (· ≠ r)) ∨
      ((∃ c, s.queue r c ≠ []) ∧ s.keptRoots r roots = roots) := by
  cases hquery : s.queue r .query with
  | cons item rest =>
    exact .inr ⟨⟨.query, by rw [hquery]; exact cons_ne_nil _ _⟩, by simp [keptRoots, hquery]⟩
  | nil =>
    cases hbackground : s.queue r .background with
    | cons item rest =>
      exact .inr ⟨⟨.background, by rw [hbackground]; exact cons_ne_nil _ _⟩,
        by simp [keptRoots, hbackground]⟩
    | nil =>
      refine .inl ⟨fun c => ?_, by simp [keptRoots, hquery, hbackground]⟩
      cases c with
      | query => exact hquery
      | background => exact hbackground

/-- `remove_empty_roots` where at most one root has become empty. -/
theorem removeEmptyRoots_spec (hnodup : s.order.Nodup)
    (hkeys : ∀ x, (s.roots.find x).isSome ↔ x ∈ s.order) (hr : r ∈ s.order)
    (hothers : ∀ x ∈ s.order, x ≠ r → ∃ c, s.queue x c ≠ []) (hcursor : s.cursor < s.order.length) :
    s.removeEmptyRoots.Wf ∧ (∀ x c, s.removeEmptyRoots.queue x c = s.queue x c) ∧
    s.removeEmptyRoots.order = s.keptRoots r s.order ∧
    s.removeEmptyRoots.ring = s.keptRoots r s.ring ∧
    s.removeEmptyRoots.queryTurns = s.queryTurns := by
  rcases s.keptRoots_cases r s.order with ⟨hempty, horder⟩ | ⟨hfull, horder⟩
  · have hring : s.keptRoots r s.ring = s.ring.filter (· ≠ r) := by
      rw [keptRoots, hempty, hempty]
      rfl
    have hroots : s.emptyRoots = [r] := by
      apply perm_singleton.mp
      refine (perm_ext_iff_of_nodup s.nodup_emptyRoots (nodup_singleton r)).mpr fun x => ?_
      rw [mem_emptyRoots, mem_singleton]
      constructor
      · rintro ⟨hfind, hx⟩
        by_contra hne
        obtain ⟨c, hc⟩ := hothers x ((hkeys x).mp hfind) hne
        exact hc (hx c)
      · rintro rfl
        exact ⟨(hkeys x).mpr hr, hempty⟩
    rw [removeEmptyRoots, hroots, foldl_cons, foldl_nil, horder, hring]
    obtain ⟨horder', hring', hroots', hturns⟩ := removeRoot_ring hnodup hr hcursor
    have hqueue : ∀ x c, (s.removeRoot r).queue x c = s.queue x c := by
      intro x c
      rw [removeRoot_queue]
      split_ifs with hx
      · rw [hx, hempty]
      · rfl
    refine ⟨⟨?_, ?_, ?_⟩, hqueue, horder', hring', hturns⟩
    · rw [horder']
      exact hnodup.filter _
    · intro x
      rw [hroots', horder', SortedTable.find_remove, mem_filter]
      split_ifs with hx
      · simp [hx]
      · rw [hkeys]
        simp [hx]
    · intro x hx
      rw [horder', mem_filter] at hx
      obtain ⟨c, hc⟩ := hothers x hx.1 (of_decide_eq_true hx.2)
      exact ⟨c, by rw [hqueue]; exact hc⟩
  · have hring : s.keptRoots r s.ring = s.ring := by
      rcases s.keptRoots_cases r s.ring with ⟨hempty, -⟩ | ⟨-, h⟩
      · exact absurd (hempty hfull.choose) hfull.choose_spec
      · exact h
    have hroots : s.emptyRoots = [] := by
      rw [eq_nil_iff_forall_not_mem]
      intro x hx
      obtain ⟨hfind, hempty⟩ := (s.mem_emptyRoots x).mp hx
      by_cases hxr : x = r
      · exact hfull.choose_spec (hxr ▸ hempty hfull.choose)
      · obtain ⟨c, hc⟩ := hothers x ((hkeys x).mp hfind) hxr
        exact hc (hempty c)
    rw [removeEmptyRoots, hroots, foldl_nil, horder, hring]
    refine ⟨⟨hnodup, hkeys, fun x hx => ?_⟩, fun _ _ => rfl, rfl, rfl, rfl⟩
    by_cases hxr : x = r
    · exact hxr ▸ hfull
    · exact hothers x hx hxr

/-! ## `pop` -/

/-- What a `pop` does that takes `item`, of class `c`, from the root `r`: the roots `skipped`
stand between the cursor and `r` and have no request of the class. -/
structure Popped (s s' : FairScheduler α) (c : RequestClass) (r : Bytes) (item : α)
    (skipped after : List Bytes) : Prop where
  ring : s.ring = skipped ++ r :: after
  unserved : ∀ x ∈ skipped, s.queue x c = []
  front : s.queue r c = item :: s'.queue r c
  others : ∀ x d, ¬(x = r ∧ d = c) → s'.queue x d = s.queue x d
  chosen : c = s.preferred ∨ c = s.fallback ∧ ∀ x, s.queue x s.preferred = []
  order' : s'.order = s'.keptRoots r s.order
  ring' : s'.ring = s'.keptRoots r (after ++ skipped ++ [r])
  turns : s'.queryTurns = if c = .query then min 255 (s.queryTurns + 1) else 0
  wf : s'.Wf

section Popped

variable {s' : FairScheduler α} {c : RequestClass} {item : α} {skipped after : List Bytes}

/-- A query is served only until three have been, or without a background request. -/
theorem Popped.chosen_query (h : Popped s s' .query r item skipped after) :
    s.queryTurns < 3 ∨ ∀ x, s.queue x .background = [] := by
  have hchosen := h.chosen
  rw [fallback, preferred] at hchosen
  split_ifs at hchosen with hturns
  · exact .inl hturns
  · exact .inr (by simpa using hchosen)

/-- A background request is served once three queries have been, or without a query. -/
theorem Popped.chosen_background (h : Popped s s' .background r item skipped after) :
    3 ≤ s.queryTurns ∨ ∀ x, s.queue x .query = [] := by
  have hchosen := h.chosen
  rw [fallback, preferred] at hchosen
  split_ifs at hchosen with hturns
  · exact .inr (by simpa using hchosen)
  · exact .inl (by omega)

theorem Popped.length (h : Popped s s' c r item skipped after) (x : Bytes) (d : RequestClass) :
    (s.queue x d).length = (s'.queue x d).length + if x = r ∧ d = c then 1 else 0 := by
  split_ifs with hx
  · rw [hx.1, hx.2, h.front, length_cons]
  · rw [h.others x d hx, Nat.add_zero]

/-- A root that still has a request goes to the end of the ring. -/
theorem Popped.ring_of_kept (h : Popped s s' c r item skipped after) {d : RequestClass}
    (hkept : s'.queue r d ≠ []) : s'.ring = after ++ skipped ++ [r] := by
  rw [h.ring']
  rcases s'.keptRoots_cases r (after ++ skipped ++ [r]) with ⟨hempty, -⟩ | ⟨-, hring⟩
  · exact absurd (hempty d) hkept
  · exact hring

end Popped

theorem head?_eq_none {xs : List α} (h : xs.head? = none) : xs = [] := head?_eq_none_iff.mp h

/-- The request that is taken, and how its class was chosen. -/
theorem selected_eq_some (h : s.Wf) {c : RequestClass} {item : α} {index : ℕ}
    (hselected : s.selected = some (c, item, index)) :
    s.selectClass c = some (item, index) ∧
      (c = s.preferred ∨ c = s.fallback ∧ ∀ x, s.queue x s.preferred = []) := by
  rw [selected] at hselected
  cases hpreferred : s.selectClass s.preferred with
  | some found =>
    rw [hpreferred, Option.map_some, Option.some_or, Option.some.injEq, Prod.mk.injEq] at hselected
    obtain ⟨rfl, rfl⟩ := hselected
    exact ⟨hpreferred, .inl rfl⟩
  | none =>
    rw [hpreferred, Option.map_none, Option.none_or, Option.map_eq_some_iff] at hselected
    obtain ⟨found, hfound, hpair⟩ := hselected
    obtain ⟨rfl, rfl⟩ := Prod.mk.inj hpair
    refine ⟨hfound, .inr ⟨rfl, fun x => ?_⟩⟩
    by_cases hx : x ∈ s.order
    · exact head?_eq_none (roundFrom_eq_none hpreferred x hx)
    · by_contra hne
      exact hx ((h.mem_order_iff x).mpr ⟨_, hne⟩)

/-- A root with a request is found in one of the two rounds. -/
theorem exists_selected (h : s.Wf) (hne : s.order ≠ []) :
    ∃ found, s.selected = some found := by
  rw [← Option.isSome_iff_exists, Option.isSome_iff_ne_none]
  intro hnone
  rw [selected, Option.or_eq_none_iff, Option.map_eq_none_iff, Option.map_eq_none_iff] at hnone
  obtain ⟨root, hroot⟩ := exists_mem_of_ne_nil _ hne
  obtain ⟨c, hc⟩ := h.pending root hroot
  have hboth : c = s.preferred ∨ c = s.fallback := by
    rw [fallback]
    cases c <;> cases s.preferred <;> simp
  rcases hboth with hc' | hc'
  · exact hc (hc' ▸ head?_eq_none (roundFrom_eq_none hnone.1 root hroot))
  · exact hc (hc' ▸ head?_eq_none (roundFrom_eq_none hnone.2 root hroot))

theorem popFront_frame (s : FairScheduler α) (root : Bytes) (c : RequestClass) :
    (s.popFront root c).order = s.order ∧ (s.popFront root c).cursor = s.cursor ∧
    (s.popFront root c).queryTurns = s.queryTurns ∧
    ∀ x, ((s.popFront root c).roots.find x).isSome ↔ (s.roots.find x).isSome := by
  rw [popFront.eq_def]
  cases hfind : s.roots.find root with
  | none => exact ⟨rfl, rfl, rfl, fun _ => Iff.rfl⟩
  | some row =>
    refine ⟨rfl, rfl, rfl, fun x => ?_⟩
    dsimp only
    rw [SortedTable.find_insert]
    split_ifs with hx
    · rw [show x = root from hx, hfind]
      exact ⟨fun _ => rfl, fun _ => rfl⟩
    · rfl

/-- A scheduler with a root serves a request. -/
theorem pop_served (h : s.Wf) (hempty : s.order ≠ []) :
    ∃ c r item skipped after, s.served = some (r, c, item) ∧ s.pop.1 = some item ∧
      Popped s s.pop.2 c r item skipped after := by
  obtain ⟨⟨c, item, index⟩, hselected⟩ := exists_selected h hempty
  obtain ⟨hfound, hchosen⟩ := selected_eq_some h hselected
  obtain ⟨skipped, r, after, hring, hskipped, hfront, hget, hindex⟩ := roundFrom_eq_some hfound
  have hgetD : s.order.getD index [] = r := by rw [getD_eq_getElem?_getD, hget]; rfl
  rw [pop, if_neg hempty, hselected]
  dsimp only
  rw [hgetD]
  obtain ⟨horder, -, hturns, hfind⟩ := s.popFront_frame r c
  -- The state in which the cursor is already behind `r` and `r` may have become empty.
  generalize hmid : ({ s.popFront r c with
      queryTurns := if c = RequestClass.query then min 255 ((s.popFront r c).queryTurns + 1) else 0
      cursor := (index + 1) % (s.popFront r c).order.length } : FairScheduler α) = mid
  have hqueue : ∀ x d, mid.queue x d =
      if x = r ∧ d = c then (s.queue r c).tail else s.queue x d := by
    intro x d
    rw [← popFront_queue, ← hmid]
    rfl
  have hmidOrder : mid.order = s.order := by rw [← hmid]; exact horder
  have hmidTurns : mid.queryTurns = if c = .query then min 255 (s.queryTurns + 1) else 0 := by
    rw [← hmid]
    dsimp only
    rw [hturns]
  have hlength : 0 < s.order.length := length_pos_of_ne_nil hempty
  have hmidCursor : mid.cursor = (index + 1) % s.order.length := by
    rw [← hmid]
    dsimp only
    rw [horder]
  have hmidRing : mid.ring = after ++ skipped ++ [r] := by
    rw [FairScheduler.ring, hmidOrder, hmidCursor, hindex]
    exact rotate_behind hring
  have hmem : r ∈ s.order := mem_of_getElem? hget
  obtain ⟨hwf, hqueue', horder', hring', hturns'⟩ := removeEmptyRoots_spec (s := mid) (r := r)
    (hmidOrder ▸ h.nodup)
    (fun x => by rw [hmidOrder, ← h.keys, ← hfind, ← hmid])
    (hmidOrder ▸ hmem)
    (fun x hx hne => by
      obtain ⟨d, hd⟩ := h.pending x (hmidOrder ▸ hx)
      refine ⟨d, ?_⟩
      rw [hqueue, if_neg (fun hand => hne hand.1)]
      exact hd)
    (by rw [hmidCursor, hmidOrder]; exact Nat.mod_lt _ hlength)
  have hkept : ∀ roots, mid.keptRoots r roots = mid.removeEmptyRoots.keptRoots r roots := by
    intro roots
    rw [keptRoots, keptRoots, hqueue', hqueue']
  have hcons : s.queue r c = item :: (s.queue r c).tail := by
    cases hq : s.queue r c with
    | nil => rw [hq] at hfront; exact nomatch hfront
    | cons first rest =>
      rw [hq] at hfront
      rw [Option.some.inj hfront]
      rfl
  refine ⟨c, r, item, skipped, after, by rw [served, hselected, Option.map_some, hgetD], rfl, ?_⟩
  exact {
    ring := hring
    unserved := fun x hx => head?_eq_none (hskipped x hx)
    front := by rw [hqueue', hqueue, if_pos ⟨rfl, rfl⟩]; exact hcons
    others := fun x d hne => by rw [hqueue', hqueue, if_neg hne]
    chosen := hchosen
    order' := by rw [horder', hkept, hmidOrder]
    ring' := by rw [hring', hkept, hmidRing]
    turns := hturns'.trans hmidTurns
    wf := hwf }

/-- A scheduler with a root serves a request; one without serves none. -/
theorem pop_cases (h : s.Wf) : (s.order = [] ∧ s.pop = (none, s)) ∨
    ∃ c r item skipped after, s.pop.1 = some item ∧ Popped s s.pop.2 c r item skipped after := by
  by_cases hempty : s.order = []
  · exact .inl ⟨hempty, by rw [pop, if_pos hempty]⟩
  · obtain ⟨c, r, item, skipped, after, -, hitem, hpopped⟩ := pop_served h hempty
    exact .inr ⟨c, r, item, skipped, after, hitem, hpopped⟩

/-! ## The requests -/

/-- The requests of a class, root by root. -/
def itemsOf (s : FairScheduler α) (c : RequestClass) : List α := s.order.flatMap (s.queue · c)

theorem flatMap_keptRoots (s : FairScheduler α) (r : Bytes) (roots : List Bytes)
    (c : RequestClass) :
    (s.keptRoots r roots).flatMap (s.queue · c) = roots.flatMap (s.queue · c) := by
  rcases s.keptRoots_cases r roots with ⟨hempty, h⟩ | ⟨-, h⟩
  · rw [h]
    exact flatMap_filter_ne (hempty c)
  · rw [h]

/-- The request that is served is one of those that were pending. -/
theorem Popped.itemsOf {s' : FairScheduler α} (hwf : s.Wf) {c : RequestClass} {item : α}
    {skipped after : List Bytes} (h : Popped s s' c r item skipped after) (d : RequestClass) :
    (s.itemsOf d).Perm (if d = c then item :: s'.itemsOf d else s'.itemsOf d) := by
  have hmem : r ∈ s.order := by
    rw [← mem_ring, h.ring]
    simp
  rw [FairScheduler.itemsOf, FairScheduler.itemsOf, h.order', flatMap_keptRoots]
  split_ifs with hd
  · subst hd
    exact flatMap_perm_cons hwf.nodup hmem (List.Perm.of_eq h.front)
      fun x hx => (h.others x d fun hand => hx hand.1).symm
  · refine List.Perm.of_eq (flatMap_congr fun x _ => ?_)
    exact (h.others x d fun hand => hd hand.2).symm

theorem itemsOf_enqueue (h : s.Wf) (root : Bytes) (c : RequestClass) (item : α) (d : RequestClass) :
    ((s.enqueue root c item).itemsOf d).Perm
      (if d = c then item :: s.itemsOf d else s.itemsOf d) := by
  have hwf := h.enqueue root c item
  -- The roots of the old order, and perhaps the new root, which had no request.
  have hitems : ∀ d, s.itemsOf d = (s.enqueue root c item).order.flatMap (s.queue · d) := by
    intro d
    rw [itemsOf, enqueue_order]
    split_ifs with hfind
    · rfl
    · rw [flatMap_append, flatMap_singleton,
        queue_of_find_none (Option.not_isSome_iff_eq_none.mp hfind), append_nil]
  have hmem : root ∈ (s.enqueue root c item).order := by
    rw [← hwf.keys, enqueue_find]
    exact .inl rfl
  rw [hitems, itemsOf]
  split_ifs with hd
  · subst hd
    refine flatMap_perm_cons hwf.nodup hmem ?_ fun x hx => ?_
    · rw [enqueue_queue, if_pos ⟨rfl, rfl⟩]
      exact perm_append_singleton item _
    · rw [enqueue_queue, if_neg (fun hand => hx hand.1)]
  · refine List.Perm.of_eq (flatMap_congr fun x _ => ?_)
    rw [enqueue_queue, if_neg (fun hand => hd hand.2)]

/-- `pending` counts the requests. -/
theorem pending_eq (h : s.Wf) :
    s.pending = (s.itemsOf .query).length + (s.itemsOf .background).length := by
  have hkeys : (s.roots.rows.map Prod.fst).Perm s.order := by
    refine (perm_ext_iff_of_nodup (nodup_of_sorted s.roots) h.nodup).mpr fun r => ?_
    rw [← h.keys, Option.isSome_iff_ne_none, Ne, SortedTable.find_eq_none, mem_map]
    push Not
    rfl
  have hrows : s.pending = ((s.roots.rows.map Prod.fst).map fun r =>
      (s.queue r .query).length + (s.queue r .background).length).sum := by
    rw [pending, map_map]
    congr 1
    apply map_congr_left
    intro row hrow
    have hfind : s.roots.find row.1 = some (row.1, row.2) := SortedTable.find_of_mem hrow
    simp only [Function.comp_apply, queue_of_find hfind]
    rfl
  rw [hrows, (hkeys.map _).sum_eq, sum_map_add, itemsOf, itemsOf, length_flatMap, length_flatMap]

/-- One request more is one more pending. -/
theorem pending_eq_succ {s' : FairScheduler α} {c : RequestClass} {item : α} (h : s.Wf) (h' : s'.Wf)
    (hitems : ∀ d, (s.itemsOf d).Perm (if d = c then item :: s'.itemsOf d else s'.itemsOf d)) :
    s.pending = s'.pending + 1 := by
  rw [pending_eq h, pending_eq h', (hitems .query).length_eq, (hitems .background).length_eq]
  cases c with
  | query => simp; omega
  | background => simp; omega

/-! ## Runs of the scheduler -/

/-- The states that pushes and pops reach. -/
inductive Reachable [RootIdent α] : FairScheduler α → Prop where
  | default : Reachable .default
  | push {s : FairScheduler α} (c : RequestClass) (item : α) : Reachable s → Reachable (s.push c item)
  | pop {s : FairScheduler α} : Reachable s → Reachable s.pop.2

theorem Wf.pop (h : s.Wf) : s.pop.2.Wf := by
  rcases pop_cases h with ⟨-, hpop⟩ | ⟨c, r, item, skipped, after, -, hpopped⟩
  · rw [hpop]
    exact h
  · exact hpopped.wf

theorem Reachable.wf [RootIdent α] (h : Reachable s) : s.Wf := by
  induction h with
  | default => exact wf_default
  | push c item _ ih => exact ih.enqueue _ c item
  | pop _ ih => exact ih.pop

end FairScheduler

end Trufflepig.Semantic
