import Trufflepig.Semantic.Scheduler

/-!
# How soon `FairScheduler` serves the queries of a root

Queries and background requests share one cursor. Three queries are served in a row, then one
background request, and the cursor then stands behind the root of that request: the roots in
between are passed over. With `n` roots that hold queries and `m` background requests pending,
the background requests are gone after `4 * m` pops, and from then on the queries are served
in turn.

* `drained`: after `4 * m` pops no background request is left.
* `calm_serves`: while no background request comes in between, every root has its turn.
* `Starving.pop`: a root that the background requests come from is passed over as long as
  there are any, if three other roots hold queries.
* `lastBusy_starves`: such a state, for any number of roots.
* `served_within_iff`: `4 * n` pops are enough for all of the `n` roots, whatever the state,
  exactly if `n ≤ 3` or `4 * m ≤ 3 * n`.
-/

namespace Trufflepig.Semantic.FairScheduler

open List Lib

variable {α : Type}

/-- The state after some pops without pushes. -/
def afterPops (s : FairScheduler α) : ℕ → FairScheduler α
  | 0 => s
  | k + 1 => afterPops s.pop.2 k

theorem afterPops_add (s : FairScheduler α) (j k : ℕ) :
    s.afterPops (j + k) = (s.afterPops j).afterPops k := by
  induction j generalizing s with
  | zero => rw [Nat.zero_add]; rfl
  | succ j ih =>
    rw [Nat.succ_add]
    exact ih s.pop.2

/-- The pop after `k` others serves the first request of a class that the root holds. -/
def ServesAt (s : FairScheduler α) (k : ℕ) (r : Bytes) (c : RequestClass) : Prop :=
  ∃ item, (s.afterPops k).pop.1 = some item ∧
    (s.afterPops k).queue r c = item :: (s.afterPops (k + 1)).queue r c

/-- The roots that hold queries. -/
def queryRoots (s : FairScheduler α) : List Bytes :=
  s.order.filter fun r => !(s.queue r .query).isEmpty

variable {s : FairScheduler α}

theorem mem_queryRoots (h : s.Wf) {r : Bytes} :
    r ∈ s.queryRoots ↔ s.queue r .query ≠ [] := by
  rw [queryRoots, mem_filter, Bool.not_eq_true', isEmpty_eq_false_iff, and_iff_right_iff_imp]
  exact fun hne => (h.mem_order_iff r).mpr ⟨_, hne⟩

/-- The number of background requests. -/
def backgrounds (s : FairScheduler α) : ℕ := (s.itemsOf .background).length

theorem backgrounds_eq_zero (hnone : ∀ r, s.queue r .background = []) : s.backgrounds = 0 := by
  rw [backgrounds, length_eq_zero_iff, itemsOf, flatMap_eq_nil_iff]
  exact fun r _ => hnone r

/-! ## While the roots hold enough queries -/

/-- The roots of `Q`, and only these, hold queries, at least `N` each. -/
structure Window (N : ℕ) (Q : List Bytes) (s : FairScheduler α) : Prop where
  wf : s.Wf
  long : ∀ r ∈ Q, N ≤ (s.queue r .query).length
  only : ∀ r, r ∉ Q → s.queue r .query = []

/-- The roots of `Q` in the order of their turns. -/
def turnsOf (s : FairScheduler α) (Q : List Bytes) : List Bytes := s.ring.filter (· ∈ Q)

section Window

variable {N : ℕ} {Q : List Bytes} {s : FairScheduler α} {r : Bytes}

theorem Window.ne_nil (h : Window (N + 1) Q s) (hr : r ∈ Q) :
    s.queue r .query ≠ [] := by
  have := h.long r hr
  exact length_pos_iff.mp (by omega)

theorem Window.mem_turnsOf (h : Window (N + 1) Q s) :
    r ∈ s.turnsOf Q ↔ r ∈ Q := by
  rw [turnsOf, mem_filter, decide_eq_true_eq, mem_ring, and_iff_right_iff_imp]
  exact fun hr => (h.wf.mem_order_iff r).mpr ⟨_, h.ne_nil hr⟩

/-- A pop that serves a query: the root whose turn it is goes to the end of the turns. -/
structure QueryStep (N : ℕ) (Q : List Bytes) (s : FairScheduler α) (r : Bytes)
    (rest : List Bytes) : Prop where
  turn : s.turnsOf Q = r :: rest
  serves : s.ServesAt 0 r .query
  turn' : 0 < N → s.pop.2.turnsOf Q = rest ++ [r]
  turns : s.pop.2.queryTurns = min 255 (s.queryTurns + 1)
  backgrounds : s.pop.2.backgrounds = s.backgrounds
  guard : s.queryTurns < 3 ∨ s.backgrounds = 0

/-- A pop that serves a background request. -/
structure BackgroundStep (s : FairScheduler α) : Prop where
  turns : s.pop.2.queryTurns = 0
  backgrounds : s.backgrounds = s.pop.2.backgrounds + 1
  guard : 3 ≤ s.queryTurns

/-- Where roots hold queries, a pop serves one, unless three have been served and a background
request is pending. -/
theorem Window.pop (h : Window (N + 1) Q s) (hQ : Q ≠ []) :
    Window N Q s.pop.2 ∧ ((∃ r rest, QueryStep N Q s r rest) ∨ BackgroundStep s) := by
  obtain ⟨q, hq⟩ := exists_mem_of_ne_nil Q hQ
  rcases pop_cases h.wf with ⟨hempty, -⟩ | ⟨c, r, item, skipped, after, hitem, hpopped⟩
  · have hmem : q ∈ s.order := (h.wf.mem_order_iff q).mpr ⟨_, h.ne_nil hq⟩
    rw [hempty] at hmem
    exact absurd hmem not_mem_nil
  have hwindow : Window N Q s.pop.2 := by
    refine ⟨hpopped.wf, fun x hx => ?_, fun x hx => ?_⟩
    · have hlong := h.long x hx
      rw [hpopped.length] at hlong
      split_ifs at hlong
      all_goals omega
    · have hnone := congrArg List.length (h.only x hx)
      rw [hpopped.length, length_nil] at hnone
      exact length_eq_zero_iff.mp (by omega)
  refine ⟨hwindow, ?_⟩
  have hbackgrounds := (hpopped.itemsOf h.wf .background).length_eq
  cases c with
  | query =>
    refine .inl ⟨r, after.filter (· ∈ Q), ?_⟩
    have hr : r ∈ Q := by
      by_contra hr
      have hnone := h.only r hr
      rw [hpopped.front] at hnone
      exact nomatch hnone
    -- No root that was skipped holds a query, so none is in `Q`.
    have hskipped : skipped.filter (· ∈ Q) = [] := by
      rw [filter_eq_nil_iff]
      intro x hx hxQ
      exact h.ne_nil (of_decide_eq_true hxQ) (hpopped.unserved x hx)
    exact {
      turn := by
        rw [turnsOf, hpopped.ring, filter_append, hskipped, nil_append,
          filter_cons_of_pos (by simpa using hr)]
      serves := ⟨item, hitem, hpopped.front⟩
      turn' := fun hN => by
        have hkept : s.pop.2.queue r .query ≠ [] := by
          have := hwindow.long r hr
          exact length_pos_iff.mp (by omega)
        rw [turnsOf, hpopped.ring_of_kept hkept, filter_append, filter_append, hskipped,
          append_nil, filter_cons_of_pos (by simpa using hr), filter_nil]
      turns := hpopped.turns
      backgrounds := by
        rw [if_neg (by decide)] at hbackgrounds
        exact hbackgrounds.symm
      guard := hpopped.chosen_query.imp_right backgrounds_eq_zero }
  | background =>
    rw [if_pos rfl] at hbackgrounds
    exact .inr ⟨hpopped.turns, hbackgrounds,
      hpopped.chosen_background.resolve_right fun hnone => h.ne_nil hq (hnone q)⟩

/-! ### The background requests run out -/

/-- The pops after which no background request is left. -/
def debt (s : FairScheduler α) : ℕ :=
  if s.backgrounds = 0 then 0 else 4 * s.backgrounds - min 3 s.queryTurns

theorem Window.debt_pop (h : Window (N + 1) Q s) (hQ : Q ≠ []) : s.pop.2.debt = s.debt - 1 := by
  rcases (h.pop hQ).2 with ⟨r, rest, hstep⟩ | hstep
  · rw [debt, debt, hstep.backgrounds, hstep.turns]
    rcases hstep.guard with hturns | hnone
    · split_ifs
      · rfl
      · omega
    · rw [if_pos hnone, if_pos hnone]
  · have hguard := hstep.guard
    rw [debt, debt, hstep.turns, hstep.backgrounds, if_neg (Nat.succ_ne_zero _)]
    split_ifs
    · omega
    · omega

theorem Window.afterPops {k : ℕ} (h : Window (N + k) Q s) (hQ : Q ≠ []) :
    Window N Q (s.afterPops k) ∧ (s.afterPops k).debt = s.debt - k := by
  induction k generalizing s with
  | zero => exact ⟨h, rfl⟩
  | succ k ih =>
    have h' : Window (N + k + 1) Q s := h
    obtain ⟨hwindow, hdebt⟩ := ih (h'.pop hQ).1
    refine ⟨hwindow, ?_⟩
    rw [show s.afterPops (k + 1) = s.pop.2.afterPops k from rfl, hdebt, h'.debt_pop hQ]
    omega

/-- After four pops for each background request none is left. -/
theorem drained (h : Window (N + 4 * s.backgrounds) Q s) (hQ : Q ≠ []) :
    (s.afterPops (4 * s.backgrounds)).backgrounds = 0 := by
  have hdebt := (h.afterPops hQ).2
  generalize s.afterPops (4 * s.backgrounds) = s' at hdebt
  rw [debt, debt] at hdebt
  by_contra hne
  rw [if_neg hne] at hdebt
  split_ifs at hdebt
  all_goals omega

/-! ### The queries are served in turn -/

/-- The next `n` pops serve queries. -/
def Calm (s : FairScheduler α) (n : ℕ) : Prop := s.backgrounds = 0 ∨ s.queryTurns + n ≤ 3

theorem Calm.pop {n : ℕ} (hcalm : s.Calm (n + 1)) (h : Window (N + 1) Q s) (hQ : Q ≠ []) :
    s.pop.2.Calm n ∧ ∃ r rest, QueryStep N Q s r rest := by
  rcases (h.pop hQ).2 with ⟨r, rest, hstep⟩ | hstep
  · refine ⟨?_, r, rest, hstep⟩
    rw [Calm, hstep.backgrounds, hstep.turns]
    exact hcalm.imp_right fun hle => by omega
  · have hguard := hstep.guard
    have hbackgrounds := hstep.backgrounds
    rcases hcalm with hnone | hturns
    · omega
    · omega

/-- In calm pops the roots are served in the order of their turns. -/
theorem calm_serves {k : ℕ} (h : Window (N + k) Q s) (hcalm : s.Calm k) (hQ : Q ≠ []) {i : ℕ}
    (hi : i < k) (hr : (s.turnsOf Q)[i]? = some r) : ∃ j < k, s.ServesAt j r .query := by
  induction k generalizing s i with
  | zero => exact absurd hi (Nat.not_lt_zero i)
  | succ k ih =>
    have h' : Window (N + k + 1) Q s := h
    obtain ⟨hcalm', r', rest, hstep⟩ := hcalm.pop h' hQ
    rw [hstep.turn] at hr
    cases i with
    | zero =>
      rw [getElem?_cons_zero, Option.some.injEq] at hr
      exact ⟨0, Nat.succ_pos k, hr ▸ hstep.serves⟩
    | succ i =>
      rw [getElem?_cons_succ] at hr
      have hlt : i < rest.length := (List.getElem?_eq_some_iff.mp hr).1
      have hnext : (s.pop.2.turnsOf Q)[i]? = some r := by
        rw [hstep.turn' (by omega), getElem?_append_left hlt]
        exact hr
      obtain ⟨j, hj, hserves⟩ := ih (h'.pop hQ).1 hcalm' (by omega) hnext
      exact ⟨j + 1, by omega, hserves⟩

/-- From a calm state on every root of `Q` is served. -/
theorem Calm.serves_all (hcalm : s.Calm Q.length) (h : Window (N + Q.length) Q s) (hr : r ∈ Q) :
    ∃ j < Q.length, s.ServesAt j r .query := by
  have hQ : Q ≠ [] := ne_nil_of_mem hr
  have hpos : 0 < Q.length := length_pos_of_mem hr
  obtain ⟨k, hk⟩ : ∃ k, N + Q.length = k + 1 := ⟨N + Q.length - 1, by omega⟩
  have hmem := (Window.mem_turnsOf (hk ▸ h)).mpr hr
  obtain ⟨i, hi⟩ := mem_iff_getElem?.mp hmem
  have hlength : (s.turnsOf Q).length ≤ Q.length := by
    apply List.Subperm.length_le
    refine subperm_of_subset ?_ fun x hx => of_decide_eq_true (mem_filter.mp hx).2
    exact (nodup_rotate.mpr h.wf.nodup).filter _
  exact calm_serves h hcalm hQ ((List.getElem?_eq_some_iff.mp hi).1.trans_le hlength) hi

theorem Window.mono {M : ℕ} (h : Window N Q s) (hle : M ≤ N) : Window M Q s :=
  ⟨h.wf, fun r hr => hle.trans (h.long r hr), h.only⟩

/-- Where a background request is pending, one is served once three queries have been. -/
theorem exists_turns_eq_zero (d : ℕ) (h : Window (d + 1) Q s) (hQ : Q ≠ [])
    (hpos : 0 < s.backgrounds) (hturns : 3 ≤ s.queryTurns + d) :
    ∃ k ≤ d + 1, (s.afterPops k).queryTurns = 0 := by
  induction d generalizing s with
  | zero =>
    rcases (h.pop hQ).2 with ⟨r, rest, hstep⟩ | hstep
    · have := hstep.guard
      omega
    · exact ⟨1, le_rfl, hstep.turns⟩
  | succ d ih =>
    obtain ⟨hwindow, ⟨r, rest, hstep⟩ | hstep⟩ := h.pop hQ
    · have hturns' := hstep.turns
      obtain ⟨k, hk, hzero⟩ := ih hwindow (by rw [hstep.backgrounds]; exact hpos) (by omega)
      exact ⟨k + 1, by omega, hzero⟩
    · exact ⟨1, by omega, hstep.turns⟩

/-- With at most three roots a calm state is near. -/
theorem exists_calm (h : Window 4 Q s) (hQ : Q ≠ []) {n : ℕ} (hn : n ≤ 3) :
    ∃ k ≤ 3, (s.afterPops k).Calm n := by
  by_cases hcalm : s.backgrounds = 0 ∨ s.queryTurns = 0
  · exact ⟨0, by omega, hcalm.imp_right fun hzero => by
      rw [show s.afterPops 0 = s from rfl]
      omega⟩
  · obtain ⟨k, hk, hzero⟩ := exists_turns_eq_zero 2 (h.mono (by omega)) hQ (by omega) (by omega)
    exact ⟨k, hk, .inr (by omega)⟩

/-- Enough queries in each root: all roots are served in time. -/
theorem serves_all (h : Window (4 * Q.length) Q s)
    (hfew : Q.length ≤ 3 ∨ 4 * s.backgrounds ≤ 3 * Q.length) (hr : r ∈ Q) :
    ∃ i < 4 * Q.length, s.ServesAt i r .query := by
  have hQ : Q ≠ [] := ne_nil_of_mem hr
  have hpos : 0 < Q.length := length_pos_of_mem hr
  obtain ⟨k, hk, hcalm⟩ : ∃ k, k + Q.length ≤ 4 * Q.length ∧ (s.afterPops k).Calm Q.length := by
    rcases hfew with hfew | hfew
    · obtain ⟨k, hk, hcalm⟩ := exists_calm (h.mono (by omega)) hQ hfew
      exact ⟨k, by omega, hcalm⟩
    · refine ⟨4 * s.backgrounds, by omega, .inl (drained (N := 0) (h.mono (by omega)) hQ)⟩
  have hwindow := (Window.afterPops (N := 0 + Q.length) (k := k) (h.mono (by omega)) hQ).1
  obtain ⟨j, hj, hserves⟩ := hcalm.serves_all hwindow hr
  refine ⟨k + j, by omega, ?_⟩
  rw [ServesAt, Nat.add_assoc, afterPops_add, afterPops_add]
  exact hserves

end Window

/-! ## A root that is passed over -/

/-- The first element with a property splits a list in one way. -/
theorem split_unique {p : Bytes → Bool} {before before' after after' : List Bytes} {x x' : Bytes}
    (h : before ++ x :: after = before' ++ x' :: after') (hbefore : ∀ y ∈ before, p y) (hx : ¬p x)
    (hbefore' : ∀ y ∈ before', p y) (hx' : ¬p x') :
    before = before' ∧ x = x' ∧ after = after' := by
  have htake := congrArg (takeWhile p) h
  have hdrop := congrArg (dropWhile p) h
  rw [takeWhile_append_of_pos hbefore, takeWhile_append_of_pos hbefore', takeWhile_cons_of_neg hx,
    takeWhile_cons_of_neg hx', append_nil, append_nil] at htake
  rw [dropWhile_append_of_pos hbefore, dropWhile_append_of_pos hbefore', dropWhile_cons_of_neg hx,
    dropWhile_cons_of_neg hx'] at hdrop
  exact ⟨htake, List.cons.inj hdrop⟩

/-- The root that is served is the first with a request of the class. -/
theorem Popped.first {s s' : FairScheduler α} {c : RequestClass} {r x : Bytes} {item : α}
    {skipped after before rest : List Bytes} (h : Popped s s' c r item skipped after)
    (hring : s.ring = before ++ x :: rest) (hbefore : ∀ y ∈ before, s.queue y c = [])
    (hx : s.queue x c ≠ []) : before = skipped ∧ x = r ∧ rest = after :=
  split_unique (p := fun x => s.queue x c = []) (hring.symm.trans h.ring) (by simpa using hbefore)
    (by simpa using hx) (by simpa using h.unserved) (by simp [h.front])

/-- The root `z` has all the background requests and its turn is after that of the roots `M`;
for `d` more pops none of its queries is served. Of the current round `j` queries have been
served. -/
structure Starving (M : List Bytes) (z : Bytes) (queries : List α) (d N j : ℕ)
    (s : FairScheduler α) : Prop where
  wf : s.Wf
  left : d + j = 4 * (s.queue z .background).length + M.length
  ring : s.ring = M.drop j ++ z :: M.take j
  turns : 0 < (s.queue z .background).length → s.queryTurns = j ∧ j ≤ 3
  only : ∀ x, x ≠ z → s.queue x .background = []
  long : ∀ x ∈ M, N < (s.queue x .query).length
  queries : s.queue z .query = queries

section Starving

variable {M : List Bytes} {z : Bytes} {queries : List α} {d N j : ℕ} {s : FairScheduler α}

/-- The pop that serves a query of a root of `M`. -/
theorem Starving.pop_query (h : Starving M z queries (d + 1) (N + 1) j s) (hz : z ∉ M)
    (hj : j < M.length) (hturns : 0 < (s.queue z .background).length → j < 3) :
    Starving M z queries d N (j + 1) s.pop.2 := by
  have hdrop : M.drop j = M[j] :: M.drop (j + 1) := (getElem_cons_drop hj).symm
  have hmem : M[j] ∈ M := getElem_mem hj
  have hne : M[j] ≠ z := fun heq => hz (heq ▸ hmem)
  have hlong := h.long _ hmem
  have hring : s.ring = [] ++ M[j] :: (M.drop (j + 1) ++ z :: M.take j) := by
    rw [h.ring, hdrop]
    rfl
  rcases pop_cases h.wf with ⟨hempty, -⟩ | ⟨c, r, item, skipped, after, hitem, hpopped⟩
  · rw [FairScheduler.ring, hempty, rotate_nil] at hring
    cases hring
  have hc : c = .query := by
    cases c with
    | query => rfl
    | background =>
      rcases hpopped.chosen_background with hthree | hnone
      · have hpos : 0 < (s.queue z .background).length := by
          have hfront := hpopped.length r .background
          rw [if_pos ⟨rfl, rfl⟩] at hfront
          by_cases hr : r = z
          · rw [← hr]
            omega
          · rw [h.only r hr] at hfront
            exact absurd hfront (Nat.succ_ne_zero _).symm
        have := (h.turns hpos).1
        have := hturns hpos
        omega
      · rw [hnone] at hlong
        exact absurd hlong (Nat.not_lt_zero _)
  subst hc
  obtain ⟨rfl, rfl, rfl⟩ := hpopped.first hring (by simp) (length_pos_iff.mp (by omega))
  have hlong' : N < (s.pop.2.queue M[j] .query).length := by
    rw [hpopped.front, length_cons] at hlong
    omega
  have hbackground : ∀ x, s.pop.2.queue x .background = s.queue x .background := fun x =>
    hpopped.others x .background (by rintro ⟨-, ⟨⟩⟩)
  have hkept := hpopped.ring_of_kept (d := .query) (length_pos_iff.mp (by omega))
  exact {
    wf := hpopped.wf
    left := by rw [hbackground]; have := h.left; omega
    ring := by
      rw [hkept, append_nil, append_assoc, cons_append, take_succ_eq_append_getElem hj]
    turns := fun hpos => by
      rw [hbackground] at hpos
      have hold := (h.turns hpos).1
      have hthree := hturns hpos
      rw [hpopped.turns, if_pos rfl]
      omega
    only := fun x hx => by rw [hbackground]; exact h.only x hx
    long := fun x hx => by
      by_cases hxr : x = M[j]
      · rw [hxr]
        exact hlong'
      · rw [hpopped.others x .query fun hand => hxr hand.1]
        have := h.long x hx
        omega
    queries := by
      rw [hpopped.others z .query fun hand => hne hand.1.symm]
      exact h.queries }

/-- The pop that serves a background request of `z`, after which the round starts again. -/
theorem Starving.pop_background (h : Starving M z queries (d + 1) (N + 1) 3 s) (hz : z ∉ M)
    (hqueries : queries ≠ []) (hpos : 0 < (s.queue z .background).length) :
    Starving M z queries d N 0 s.pop.2 := by
  have hring := h.ring
  rcases pop_cases h.wf with ⟨hempty, -⟩ | ⟨c, r, item, skipped, after, hitem, hpopped⟩
  · rw [FairScheduler.ring, hempty, rotate_nil] at hring
    exact absurd hring.symm (append_ne_nil_of_right_ne_nil _ (cons_ne_nil _ _))
  have hc : c = .background := by
    cases c with
    | background => rfl
    | query =>
      rcases hpopped.chosen_query with hthree | hnone
      · have := (h.turns hpos).1
        omega
      · rw [hnone] at hpos
        exact absurd hpos (Nat.not_lt_zero _)
  subst hc
  obtain ⟨rfl, rfl, rfl⟩ := hpopped.first hring
    (fun y hy => h.only y fun heq => hz (heq ▸ mem_of_mem_drop hy))
    (length_pos_iff.mp hpos)
  have hquery : ∀ x, s.pop.2.queue x .query = s.queue x .query := fun x =>
    hpopped.others x .query (by rintro ⟨-, ⟨⟩⟩)
  have hfront := congrArg List.length hpopped.front
  rw [length_cons] at hfront
  exact {
    wf := hpopped.wf
    left := by have := h.left; omega
    ring := by
      rw [hpopped.ring_of_kept (d := .query) (by rwa [hquery, h.queries]), take_append_drop,
        drop_zero, take_zero]
    turns := fun _ => ⟨hpopped.turns, by omega⟩
    only := fun x hx => by
      rw [hpopped.others x .background fun hand => hx hand.1]
      exact h.only x hx
    long := fun x hx => by rw [hquery]; have := h.long x hx; omega
    queries := by rw [hquery]; exact h.queries }

/-- One more pop passes the root over. -/
theorem Starving.pop (h : Starving M z queries (d + 1) (N + 1) j s) (hz : z ∉ M)
    (hM : 3 ≤ M.length) (hqueries : queries ≠ []) : ∃ j', Starving M z queries d N j' s.pop.2 := by
  have hleft := h.left
  by_cases hpos : 0 < (s.queue z .background).length
  · obtain ⟨-, hj⟩ := h.turns hpos
    by_cases hthree : j = 3
    · subst hthree
      exact ⟨0, h.pop_background hz hqueries hpos⟩
    · exact ⟨j + 1, h.pop_query hz (by omega) fun _ => by omega⟩
  · exact ⟨j + 1, h.pop_query hz (by omega) fun h' => absurd h' hpos⟩

theorem Starving.afterPops (hz : z ∉ M) (hM : 3 ≤ M.length) (hqueries : queries ≠ []) {k : ℕ}
    (h : Starving M z queries (d + k) (N + k) j s) :
    ∃ j', Starving M z queries d N j' (s.afterPops k) := by
  induction k generalizing s j with
  | zero => exact ⟨j, h⟩
  | succ k ih =>
    obtain ⟨j', h'⟩ := Starving.pop (d := d + k) (N := N + k) h hz hM hqueries
    exact ih h'

theorem Starving.not_serves (hz : z ∉ M) (hM : 3 ≤ M.length) (hqueries : queries ≠ []) {k : ℕ}
    (h : Starving M z queries (d + k) (N + k) j s) {i : ℕ} (hi : i < k) :
    ¬s.ServesAt i z .query := by
  obtain ⟨e, rfl⟩ : ∃ e, k = e + (i + 1) := ⟨k - (i + 1), by omega⟩
  obtain ⟨j₁, h₁⟩ := Starving.afterPops (d := d + e + 1) (N := N + e + 1) (k := i) hz hM hqueries
    (by rwa [show d + e + 1 + i = d + (e + (i + 1)) by omega,
      show N + e + 1 + i = N + (e + (i + 1)) by omega])
  obtain ⟨j₂, h₂⟩ := h₁.pop hz hM hqueries
  rintro ⟨item, -, hserves⟩
  rw [afterPops_add s i 1, h₁.queries] at hserves
  have hserves := hserves.trans (congrArg (item :: ·) h₂.queries)
  exact absurd (congrArg List.length hserves) (by rw [length_cons]; omega)

end Starving

/-! ## Roots with many queries -/

/-- Requests that are known by their root alone. -/
instance : RootIdent Bytes := ⟨id⟩

/-- A request of a root that comes in `k` times. -/
def pushMany (s : FairScheduler Bytes) (c : RequestClass) (root : Bytes) : ℕ → FairScheduler Bytes
  | 0 => s
  | k + 1 => (s.pushMany c root k).push c root

theorem pushMany_queue (s : FairScheduler Bytes) (c : RequestClass) (root : Bytes) (k : ℕ)
    (r : Bytes) (d : RequestClass) :
    (s.pushMany c root k).queue r d =
      if r = root ∧ d = c then s.queue r d ++ List.replicate k root else s.queue r d := by
  induction k with
  | zero => simp [pushMany]
  | succ k ih =>
    rw [pushMany, push, enqueue_queue, show RootIdent.rootId root = root from rfl]
    split_ifs with h
    · obtain ⟨rfl, rfl⟩ := h
      rw [ih, if_pos ⟨rfl, rfl⟩, append_assoc, replicate_succ']
    · rw [ih, if_neg h]

theorem pushMany_frame {s : FairScheduler Bytes} (h : Reachable s) (c : RequestClass)
    (root : Bytes) (k : ℕ) :
    Reachable (s.pushMany c root k) ∧ (s.pushMany c root k).cursor = s.cursor ∧
    (s.pushMany c root k).queryTurns = s.queryTurns ∧
    (0 < k → (s.pushMany c root k).order =
      if root ∈ s.order then s.order else s.order ++ [root]) := by
  induction k with
  | zero => exact ⟨h, rfl, rfl, fun hk => absurd hk (Nat.lt_irrefl 0)⟩
  | succ k ih =>
    obtain ⟨hreach, hcursor, hturns, horder⟩ := ih
    refine ⟨hreach.push c root, (enqueue_frame ..).1.trans hcursor,
      (enqueue_frame ..).2.trans hturns, fun _ => ?_⟩
    rw [pushMany, push, enqueue_order, show RootIdent.rootId root = root from rfl]
    simp only [hreach.wf.keys root]
    cases k with
    | zero => rfl
    | succ k =>
      rw [horder (Nat.succ_pos k)]
      split_ifs <;> simp_all

/-- A name for each number. -/
def rootName (i : ℕ) : Bytes := List.replicate i 0

theorem rootName_inj {i j : ℕ} (h : rootName i = rootName j) : i = j := by
  have := congrArg List.length h
  rwa [rootName, rootName, length_replicate, length_replicate] at this

/-- The names of the first `n` roots. -/
def rootNames (n : ℕ) : List Bytes := (List.range n).map rootName

theorem rootNames_succ (n : ℕ) : rootNames (n + 1) = rootNames n ++ [rootName n] := by
  rw [rootNames, range_succ, map_append]
  rfl

theorem rootName_notMem (n : ℕ) : rootName n ∉ rootNames n := by
  intro hmem
  obtain ⟨i, hi, heq⟩ := mem_map.mp hmem
  rw [rootName_inj heq] at hi
  exact absurd (mem_range.mp hi) (Nat.lt_irrefl n)

@[simp] theorem length_rootNames (n : ℕ) : (rootNames n).length = n := by simp [rootNames]

/-- `n` roots with `k` queries each. -/
def crowd (k : ℕ) : ℕ → FairScheduler Bytes
  | 0 => .default
  | n + 1 => (crowd k n).pushMany .query (rootName n) k

theorem crowd_spec {k : ℕ} (hk : 0 < k) (n : ℕ) :
    Reachable (crowd k n) ∧ (crowd k n).cursor = 0 ∧ (crowd k n).queryTurns = 0 ∧
    (crowd k n).order = rootNames n ∧
    ∀ r c, (crowd k n).queue r c =
      if r ∈ rootNames n ∧ c = .query then List.replicate k r else [] := by
  induction n with
  | zero =>
    refine ⟨.default, rfl, rfl, rfl, fun r c => ?_⟩
    simp [crowd, default, queue, SortedTable.empty, SortedTable.find, rootNames]
  | succ n ih =>
    obtain ⟨hreach, hcursor, hturns, horder, hqueue⟩ := ih
    obtain ⟨hreach', hcursor', hturns', horder'⟩ :=
      pushMany_frame hreach .query (rootName n) k
    refine ⟨hreach', hcursor'.trans hcursor, hturns'.trans hturns, ?_, fun r c => ?_⟩
    · rw [crowd, horder' hk, horder, if_neg (rootName_notMem n), rootNames_succ]
    · rw [crowd, pushMany_queue, hqueue, rootNames_succ]
      simp only [mem_append, mem_singleton]
      by_cases hr : r = rootName n
      · subst hr
        by_cases hc : c = .query
        · simp [hc, rootName_notMem]
        · simp [hc]
      · simp [hr]

/-- `l + 1` roots with queries, of which the last has `m` background requests. -/
def lastBusy (l m : ℕ) : FairScheduler Bytes :=
  (crowd (4 * (l + 1) + 1) (l + 1)).pushMany .background (rootName l) m

/-- The last root is passed over, although it holds queries. -/
theorem lastBusy_starves {l m : ℕ} (hl : 3 ≤ l) (hm : 3 * (l + 1) < 4 * m) :
    Reachable (lastBusy l m) ∧ (lastBusy l m).queryRoots.length = l + 1 ∧
    (∀ r ∈ (lastBusy l m).queryRoots, 4 * (l + 1) ≤ ((lastBusy l m).queue r .query).length) ∧
    (lastBusy l m).backgrounds = m ∧ rootName l ∈ (lastBusy l m).queryRoots ∧
    ∀ i < 4 * (l + 1), ¬(lastBusy l m).ServesAt i (rootName l) .query := by
  rw [lastBusy]
  generalize hk : 4 * (l + 1) + 1 = k
  obtain ⟨hreach, hcursor, hturns, horder, hqueue⟩ := crowd_spec (k := k) (by omega) (l + 1)
  obtain ⟨hreach', hcursor', hturns', horder'⟩ :=
    pushMany_frame hreach .background (rootName l) m
  have hqueue' := pushMany_queue (crowd k (l + 1)) .background (rootName l) m
  generalize (crowd k (l + 1)).pushMany .background (rootName l) m = s at *
  have hmem : rootName l ∈ rootNames (l + 1) :=
    mem_map_of_mem (mem_range.mpr (Nat.lt_succ_self l))
  have horder'' : s.order = rootNames (l + 1) := by
    rw [horder' (by omega), horder, if_pos hmem]
  have hquery : ∀ r, s.queue r .query =
      if r ∈ rootNames (l + 1) then List.replicate k r else [] := by
    intro r
    rw [hqueue', if_neg (fun hand => nomatch hand.2), hqueue]
    simp
  have hbackground : ∀ r, s.queue r .background =
      if r = rootName l then List.replicate m (rootName l) else [] := by
    intro r
    rw [hqueue', hqueue]
    simp
  have hroots : s.queryRoots = rootNames (l + 1) := by
    rw [queryRoots, horder'', filter_eq_self]
    intro r hr
    rw [hquery, if_pos hr, Bool.not_eq_true', isEmpty_eq_false_iff]
    exact length_pos_iff.mp (by rw [length_replicate]; omega)
  have hlength : s.backgrounds = m := by
    have hperm := flatMap_perm_filter hreach'.wf.nodup (horder'' ▸ hmem) (s.queue · .background)
    have hrest : (s.order.filter (· ≠ rootName l)).flatMap (s.queue · .background) = [] := by
      rw [flatMap_eq_nil_iff]
      intro r hr
      rw [hbackground, if_neg (of_decide_eq_true (mem_filter.mp hr).2)]
    rw [hrest, hbackground, if_pos rfl, append_nil] at hperm
    exact hperm.length_eq.trans length_replicate
  refine ⟨hreach', by rw [hroots, length_rootNames], ?_, hlength, by rw [hroots]; exact hmem, ?_⟩
  · intro r hr
    rw [hroots] at hr
    rw [hquery, if_pos hr, length_replicate]
    omega
  have hstarving : Starving (rootNames l) (rootName l)
      (List.replicate k (rootName l)) (4 * m + l) (4 * (l + 1)) 0 s := {
    wf := hreach'.wf
    left := by rw [hbackground, if_pos rfl, length_replicate, length_rootNames]; rfl
    ring := by
      rw [ring, hcursor', hcursor, rotate_zero, horder'', rootNames_succ]
      rfl
    turns := fun _ => ⟨hturns'.trans hturns, by omega⟩
    only := fun x hx => by rw [hbackground, if_neg hx]
    long := fun x hx => by
      rw [hquery, if_pos (by rw [rootNames_succ]; exact mem_append_left _ hx), length_replicate]
      omega
    queries := by rw [hquery, if_pos hmem] }
  intro i hi
  have hqueries : List.replicate k (rootName l) ≠ [] :=
    length_pos_iff.mp (by rw [length_replicate]; omega)
  obtain ⟨e, he⟩ : ∃ e, 4 * m + l = e + 4 * (l + 1) := ⟨4 * m + l - 4 * (l + 1), by omega⟩
  rw [he] at hstarving
  exact Starving.not_serves (d := e) (N := 0) (rootName_notMem l)
    (by rwa [length_rootNames]) hqueries
    (by rw [Nat.zero_add]; exact hstarving) hi

/-- Four roots with 17 queries each, and four background requests of the last: its queries are
not served in the next 16 pops. -/
theorem fourth_root_starves :
    Reachable (lastBusy 3 4) ∧ (lastBusy 3 4).queryRoots.length = 4 ∧
    (∀ r ∈ (lastBusy 3 4).queryRoots, 4 * 4 ≤ ((lastBusy 3 4).queue r .query).length) ∧
    rootName 3 ∈ (lastBusy 3 4).queryRoots ∧
    ∀ i < 4 * 4, ¬(lastBusy 3 4).ServesAt i (rootName 3) .query := by
  obtain ⟨hreach, hlength, hlong, -, hmem, hnot⟩ := lastBusy_starves (l := 3) (m := 4) le_rfl (by omega)
  exact ⟨hreach, hlength, hlong, hmem, hnot⟩

/-- `4 * n` pops serve a query of each of `n` roots, in every state in which these roots hold
that many queries each and `m` background requests are pending, exactly if there are at most
three roots or the background requests are few. -/
theorem served_within_iff (n m : ℕ) :
    (∀ (α : Type) [RootIdent α] (s : FairScheduler α), Reachable s → s.queryRoots.length = n →
      (∀ r ∈ s.queryRoots, 4 * n ≤ (s.queue r .query).length) → s.backgrounds = m →
      ∀ r ∈ s.queryRoots, ∃ i < 4 * n, s.ServesAt i r .query) ↔
    n ≤ 3 ∨ 4 * m ≤ 3 * n := by
  constructor
  · intro h
    by_contra hcontra
    obtain ⟨l, rfl⟩ : ∃ l, n = l + 1 := ⟨n - 1, by omega⟩
    obtain ⟨hreach, hlength, hlong, hm, hmem, hnot⟩ :=
      lastBusy_starves (l := l) (m := m) (by omega) (by omega)
    obtain ⟨i, hi, hserves⟩ := h Bytes (lastBusy l m) hreach hlength hlong hm (rootName l) hmem
    exact hnot i hi hserves
  · intro hfew α _ s hreach hlength hlong hm r hr
    have hwindow : Window (4 * s.queryRoots.length) s.queryRoots s := by
      refine ⟨hreach.wf, by rwa [hlength], fun x hx => ?_⟩
      by_contra hne
      exact hx ((mem_queryRoots hreach.wf).mpr hne)
    rw [← hlength]
    exact serves_all hwindow (by rwa [hlength, hm]) hr

end Trufflepig.Semantic.FairScheduler
