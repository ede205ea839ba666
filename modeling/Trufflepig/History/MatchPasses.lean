import Trufflepig.History.Correspondence

/-!
# The passes of declaration matching

After the first pass every step is an attempt to record one of a fixed list of
pairs, which does nothing if a side of the pair is taken. Two attempts with
different sides commute, so the order in which the groups are visited does not
matter.

* `matchPasses_matching`: the recorded pairs are injective, have equal keys, and
  carry the evidence of their relation.
* `matchPasses_orders`: they do not depend on the order of the hash maps.
-/

namespace Trufflepig.History

open List Lib

variable {K C : Type}

/-! ## Recorded pairs -/

/-- No other fact with the key of this one has its content. -/
def ContentUnique (facts : List (MatchFact K C)) (i : ℕ) : Prop :=
  ∀ i', factKey facts i' = factKey facts i → factContent facts i' = factContent facts i → i' = i

/-- The evidence for a pair. -/
structure PairOk (c : Comparison K C) (left right : ℕ) (relation : DeclarationRelation) :
    Prop where
  key : ∃ k, factKey c.before left = some k ∧ factKey c.after right = some k
  matching : relation = .unchanged ∨ relation = .modified ∨ relation = .moved
  equal : relation = .unchanged ∨ relation = .moved →
    ∃ b, factContent c.before left = some b ∧ factContent c.after right = some b
  unique : relation = .moved → ContentUnique c.before left ∧ ContentUnique c.after right

/-- The recorded pairs are evident and injective, and the flags are theirs. -/
structure Matching (c : Comparison K C) (s : MatchState) : Prop where
  pair : ∀ i j relation, s.matched i = some (j, relation) → PairOk c i j relation
  used : ∀ j, s.usedAfter j = true ↔ ∃ i relation, s.matched i = some (j, relation)
  injective : ∀ i i' j relation relation', s.matched i = some (j, relation) →
    s.matched i' = some (j, relation') → i = i'

theorem matching_initial (c : Comparison K C) : Matching c MatchState.initial where
  pair := by simp [MatchState.initial]
  used := by simp [MatchState.initial]
  injective := by simp [MatchState.initial]

theorem record_matched (s : MatchState) (left right i : ℕ) (relation : DeclarationRelation) :
    (s.record left right relation).matched i =
      if i = left then some (right, relation) else s.matched i := by
  simp [MatchState.record, Function.update_apply]

theorem record_usedAfter (s : MatchState) (left right j : ℕ) (relation : DeclarationRelation) :
    (s.record left right relation).usedAfter j = if j = right then true else s.usedAfter j := by
  simp [MatchState.record, Function.update_apply]

variable {c : Comparison K C} {s : MatchState}

theorem Matching.record (hs : Matching c s) {left right : ℕ} {relation : DeclarationRelation}
    (hleft : s.matched left = none) (hright : s.usedAfter right = false)
    (hpair : PairOk c left right relation) :
    Matching c (s.record left right relation) := by
  have hfresh : ∀ i relation', s.matched i ≠ some (right, relation') := by
    intro i relation' h
    have := (hs.used right).mpr ⟨i, relation', h⟩
    simp [hright] at this
  constructor
  · intro i j relation' h
    rw [record_matched] at h
    split_ifs at h with hi
    · obtain ⟨rfl, rfl⟩ := Prod.mk.inj (Option.some.inj h)
      exact hi ▸ hpair
    · exact hs.pair i j relation' h
  · intro j
    rw [record_usedAfter]
    split_ifs with hj
    · exact iff_of_true rfl ⟨left, relation, by rw [record_matched, if_pos rfl, hj]⟩
    · rw [hs.used j]
      constructor
      · rintro ⟨i, relation', h⟩
        have hi : i ≠ left := fun hi => by simp [hi, hleft] at h
        exact ⟨i, relation', by rw [record_matched, if_neg hi, h]⟩
      · rintro ⟨i, relation', h⟩
        rw [record_matched] at h
        split_ifs at h with hi
        · exact absurd (Prod.mk.inj (Option.some.inj h)).1.symm hj
        · exact ⟨i, relation', h⟩
  · intro i i' j r r' h h'
    rw [record_matched] at h h'
    split_ifs at h h' with hi hi' hi'
    · rw [hi, hi']
    · have hj := (Prod.mk.inj (Option.some.inj h)).1
      exact absurd (hj ▸ h') (hfresh i' r')
    · have hj := (Prod.mk.inj (Option.some.inj h')).1
      exact absurd (hj ▸ h) (hfresh i r)
    · exact hs.injective i i' j r r' h h'

/-! ## Attempts -/

/-- A pair that a later pass tries to record. -/
structure Pair where
  left : ℕ
  right : ℕ
  relation : DeclarationRelation

/-- Records a pair if both sides are free. -/
def attempt (s : MatchState) (p : Pair) : MatchState :=
  if s.free p.left p.right then s.record p.left p.right p.relation else s

theorem free_record {p q : Pair} (hleft : q.left ≠ p.left) (hright : q.right ≠ p.right) :
    (s.record p.left p.right p.relation).free q.left q.right = s.free q.left q.right := by
  simp only [MatchState.free, record_matched, record_usedAfter, if_neg hleft, if_neg hright]

/-- Attempts with different sides commute. -/
theorem attempt_comm {p q : Pair} (hleft : p.left ≠ q.left) (hright : p.right ≠ q.right)
    (s : MatchState) : attempt (attempt s p) q = attempt (attempt s q) p := by
  unfold attempt
  by_cases hp : s.free p.left p.right = true
  · by_cases hq : s.free q.left q.right = true
    · rw [if_pos hp, if_pos hq, if_pos (by rwa [free_record hleft.symm hright.symm]),
        if_pos (by rwa [free_record hleft hright])]
      simp only [MatchState.record, MatchState.mk.injEq]
      exact ⟨Function.update_comm hleft.symm _ _ _ |>.symm,
        Function.update_comm hright.symm _ _ _ |>.symm⟩
    · rw [if_pos hp, if_neg hq, if_neg (by rwa [free_record hleft.symm hright.symm]), if_pos hp]
  · by_cases hq : s.free q.left q.right = true
    · rw [if_neg hp, if_pos hq, if_neg (by rwa [free_record hleft hright])]
    · rw [if_neg hp, if_neg hq, if_neg hp]

theorem Matching.attempt (hs : Matching c s) {p : Pair} (hp : PairOk c p.left p.right p.relation) :
    Matching c (attempt s p) := by
  unfold History.attempt
  split_ifs with hfree
  · simp only [MatchState.free, Bool.and_eq_true, Option.isNone_iff_eq_none,
      Bool.not_eq_true'] at hfree
    exact hs.record hfree.1 hfree.2 hp
  · exact hs

theorem Matching.foldl_attempt {ps : List Pair}
    (hps : ∀ p ∈ ps, PairOk c p.left p.right p.relation) (hs : Matching c s) :
    Matching c (ps.foldl History.attempt s) :=
  foldlRecOn ps History.attempt hs fun _ hs p hp => hs.attempt (hps p hp)

/-- The pair of one declaration before and one after that share a change. -/
def changePairs (c : Comparison K C) : List ℕ → List ℕ → List Pair
  | [left], [right] =>
    if c.diff.sharesChange (factLine c.before c.beforeOffsets left)
        (factLine c.after c.afterOffsets right) then [⟨left, right, .modified⟩]
    else []
  | _, _ => []

theorem matchChange_eq (c : Comparison K C) (s : MatchState) (lefts rights : List ℕ) :
    matchChange c s lefts rights = (changePairs c lefts rights).foldl attempt s := by
  rcases lefts with _ | ⟨left, _ | ⟨left', lefts⟩⟩
  · rfl
  · rcases rights with _ | ⟨right, _ | ⟨right', rights⟩⟩
    · rfl
    · simp only [matchChange, changePairs]
      by_cases hshares : c.diff.sharesChange (factLine c.before c.beforeOffsets left)
          (factLine c.after c.afterOffsets right) = true
      · rw [if_pos hshares, if_pos hshares]
        rfl
      · rw [if_neg hshares, if_neg hshares, ite_self]
        rfl
    · rfl
  · rfl

/-! ## Groups of facts -/

theorem factKey_lt {facts : List (MatchFact K C)} {i : ℕ} {k : K}
    (h : factKey facts i = some k) : i < facts.length := by
  obtain ⟨fact, hfact, -⟩ := Option.map_eq_some_iff.mp h
  exact (List.getElem?_eq_some_iff.mp hfact).1

section Groups

variable [DecidableEq K]

/-- The indexes of the facts with a key, in order. -/
def keyIndexes (facts : List (MatchFact K C)) (k : K) : List ℕ :=
  indexesOf (factKey facts) (List.range facts.length) k

theorem groupDefinitions_nodup (facts : List (MatchFact K C)) :
    ((groupDefinitions facts).map Prod.fst).Nodup :=
  groupBy_nodup _ _

variable {facts : List (MatchFact K C)} {k : K}

theorem mem_keyIndexes {i : ℕ} :
    i ∈ keyIndexes facts k ↔ factKey facts i = some k := by
  rw [keyIndexes, mem_indexesOf]
  constructor
  · exact fun h => h.2
  · exact fun h => ⟨mem_range.mpr (factKey_lt h), h⟩

theorem groupDefinitions_get (facts : List (MatchFact K C)) (k : K) :
    getEntry (groupDefinitions facts) k =
      if keyIndexes facts k = [] then none else some (keyIndexes facts k) :=
  groupBy_get _ _ _

theorem getEntry_groupDefinitions {is : List ℕ}
    (h : getEntry (groupDefinitions facts) k = some is) : is = keyIndexes facts k :=
  getEntry_groupBy h

theorem mem_groupDefinitions {e : K × List ℕ} (h : e ∈ groupDefinitions facts) :
    e.2 = keyIndexes facts e.1 :=
  mem_groupBy h

theorem mem_changePairs {c : Comparison K C} {p : Pair}
    (hp : p ∈ changePairs c (keyIndexes c.before k) (keyIndexes c.after k)) :
    factKey c.before p.left = some k ∧ factKey c.after p.right = some k ∧
      p.relation = .modified := by
  unfold changePairs at hp
  split at hp
  · rename_i left right hleft hright
    split_ifs at hp
    · obtain rfl := mem_singleton.mp hp
      exact ⟨mem_keyIndexes.mp (hleft ▸ mem_singleton_self left),
        mem_keyIndexes.mp (hright ▸ mem_singleton_self right), rfl⟩
    · simp at hp
  · simp at hp

theorem contentUnique_of_group [DecidableEq C] {b : C} {i : ℕ}
    (h : indexesOf (factContent facts) (keyIndexes facts k) b = [i]) :
    factKey facts i = some k ∧ factContent facts i = some b ∧ ContentUnique facts i := by
  have hmem : ∀ i', factKey facts i' = some k ∧ factContent facts i' = some b ↔ i' = i := by
    intro i'
    rw [← mem_keyIndexes, ← mem_indexesOf, h, mem_singleton]
  obtain ⟨hk, hb⟩ := (hmem i).mpr rfl
  exact ⟨hk, hb, fun i' hk' hb' => (hmem i').mp ⟨hk'.trans hk, hb'.trans hb⟩⟩

end Groups

/-! ## The first pass -/

variable [DecidableEq K] [DecidableEq C]

theorem equalContents_eq {left right : Option C} (h : equalContents left right = true) :
    ∃ b, left = some b ∧ right = some b := by
  cases left with
  | none => simp [equalContents] at h
  | some left =>
    cases right with
    | none => simp [equalContents] at h
    | some right => exact ⟨left, rfl, by simpa [equalContents, eq_comm] using h⟩

/-- A step of the first pass records one evident pair or nothing. -/
theorem matchPosition_cases (c : Comparison K C) (s : MatchState) (i : ℕ) :
    matchPosition c s i = s ∨ ∃ j relation, s.usedAfter j = false ∧ PairOk c i j relation ∧
      matchPosition c s i = s.record i j relation := by
  unfold matchPosition
  cases hi : c.before[i]? with
  | none => exact Or.inl rfl
  | some definition =>
    simp only
    split_ifs with hcount
    · exact Or.inl rfl
    cases hline : c.diff.mapBeforeLine (position c.beforeOffsets definition.start).1 with
    | none => exact Or.inl rfl
    | some mapped =>
      simp only
      split
      · rename_i j hentry
        split_ifs with hused heq
        · exact Or.inl rfl
        all_goals refine Or.inr ⟨j, _, by simpa using hused, ?_, rfl⟩
        all_goals
          have hj : j ∈ indexesOf (factPosition c.after c.afterOffsets)
              (List.range c.after.length)
              (definition.key, mapped, (position c.beforeOffsets definition.start).2) := by
            rw [← getEntry_groupBy hentry]
            exact mem_singleton_self j
          obtain ⟨right, hright, hpos⟩ := Option.map_eq_some_iff.mp (mem_indexesOf.mp hj).2
          have hkey : ∃ k, factKey c.before i = some k ∧ factKey c.after j = some k :=
            ⟨definition.key, by simp [factKey, hi],
              by simp [factKey, hright, (Prod.mk.inj hpos).1]⟩
        · obtain ⟨b, hb, hb'⟩ := equalContents_eq heq
          exact ⟨hkey, Or.inl rfl, fun _ => ⟨b, by simp [factContent, hi, hb], hb'⟩, by simp⟩
        · exact ⟨hkey, Or.inr (Or.inl rfl), by simp, by simp⟩
      · exact Or.inl rfl

theorem firstPass_matching (c : Comparison K C) (n : ℕ) :
    Matching c ((List.range n).foldl (matchPosition c) MatchState.initial) ∧
      ∀ i, n ≤ i →
        ((List.range n).foldl (matchPosition c) MatchState.initial).matched i = none := by
  induction n with
  | zero => exact ⟨matching_initial c, fun i _ => rfl⟩
  | succ n ih =>
    obtain ⟨hs, hopen⟩ := ih
    rw [range_succ, foldl_append, foldl_cons, foldl_nil]
    generalize (List.range n).foldl (matchPosition c) MatchState.initial = s at hs hopen ⊢
    obtain heq | ⟨j, relation, hused, hpair, heq⟩ := matchPosition_cases c s n
    · rw [heq]
      exact ⟨hs, fun i hi => hopen i (by omega)⟩
    · rw [heq]
      -- the index is visited once, so nothing is recorded for it yet
      refine ⟨hs.record (hopen n le_rfl) hused hpair, fun i hi => ?_⟩
      rw [record_matched, if_neg (by omega)]
      exact hopen i (by omega)

/-! ## The later passes -/

/-- The pair of one declaration before and one after with a content. -/
def movePairs (afterContent : Groups C) (entry : C × List ℕ) : List Pair :=
  match entry.2, (getEntry afterContent entry.1).getD [] with
  | [left], [right] => [⟨left, right, .moved⟩]
  | _, _ => []

/-- The pairs that `matchGroup` tries for one key. -/
def groupPairs (c : Comparison K C) (orders : HashOrders K C) (entry : K × List ℕ) : List Pair :=
  match getEntry (groupDefinitions c.after) entry.1 with
  | none => []
  | some afterIndexes =>
    changePairs c entry.2 afterIndexes
      ++ ((orders.beforeContent entry.1).order (groupContents c.before entry.2)).flatMap
        (movePairs (groupContents c.after afterIndexes))

theorem matchMove_eq (afterContent : Groups C) (s : MatchState) (entry : C × List ℕ) :
    matchMove afterContent s entry = (movePairs afterContent entry).foldl attempt s := by
  obtain ⟨b, lefts⟩ := entry
  unfold matchMove movePairs
  simp only
  rcases getEntry afterContent b with _ | rights
  · rcases lefts with _ | ⟨left, _ | ⟨left', lefts⟩⟩
    all_goals rfl
  · rcases lefts with _ | ⟨left, _ | ⟨left', lefts⟩⟩
    · rfl
    · rcases rights with _ | ⟨right, _ | ⟨right', rights⟩⟩
      all_goals rfl
    · rfl

theorem matchGroup_eq (c : Comparison K C) (orders : HashOrders K C) (s : MatchState)
    (entry : K × List ℕ) :
    matchGroup c orders s entry = (groupPairs c orders entry).foldl attempt s := by
  unfold matchGroup groupPairs
  cases getEntry (groupDefinitions c.after) entry.1 with
  | none => rfl
  | some afterIndexes =>
    simp only [foldl_append, foldl_flatMap, ← matchChange_eq, ← matchMove_eq]

/-! ### Evidence for the attempts -/

variable {c : Comparison K C}

theorem mem_movePairs {k : K} {e : C × List ℕ} {p : Pair}
    (he : e ∈ groupContents c.before (keyIndexes c.before k))
    (hp : p ∈ movePairs (groupContents c.after (keyIndexes c.after k)) e) :
    (factKey c.before p.left = some k ∧ factContent c.before p.left = some e.1 ∧
        ContentUnique c.before p.left) ∧
      (factKey c.after p.right = some k ∧ factContent c.after p.right = some e.1 ∧
        ContentUnique c.after p.right) ∧ p.relation = .moved := by
  unfold movePairs at hp
  rw [mem_groupBy he, groupContents, getEntry_groupBy_getD] at hp
  split at hp
  · rename_i left right hleft hright
    obtain rfl := mem_singleton.mp hp
    exact ⟨contentUnique_of_group hleft, contentUnique_of_group hright, rfl⟩
  · simp at hp

variable {e : K × List ℕ}

/-- Every pair that a group tries is evident, and is of the group's key. -/
theorem mem_groupPairs {orders : HashOrders K C} {p : Pair} (he : e ∈ groupDefinitions c.before)
    (hp : p ∈ groupPairs c orders e) :
    factKey c.before p.left = some e.1 ∧ factKey c.after p.right = some e.1 ∧
      PairOk c p.left p.right p.relation := by
  unfold groupPairs at hp
  cases hafter : getEntry (groupDefinitions c.after) e.1 with
  | none => simp [hafter] at hp
  | some rights =>
    simp only [hafter, mem_groupDefinitions he, getEntry_groupDefinitions hafter] at hp
    rcases mem_append.mp hp with hp | hp
    · obtain ⟨hleft, hright, hrel⟩ := mem_changePairs hp
      refine ⟨hleft, hright, ⟨e.1, hleft, hright⟩, ?_, ?_, ?_⟩
      all_goals simp [hrel]
    · obtain ⟨e', he', hp⟩ := mem_flatMap.mp hp
      have he' := ((orders.beforeContent e.1).perm _).mem_iff.mp he'
      obtain ⟨⟨hk, hb, hu⟩, ⟨hk', hb', hu'⟩, hrel⟩ := mem_movePairs he' hp
      exact ⟨hk, hk', ⟨e.1, hk, hk'⟩, Or.inr (Or.inr hrel), fun _ => ⟨e'.1, hb, hb'⟩,
        fun _ => ⟨hu, hu'⟩⟩

theorem Matching.foldl_matchGroup {orders : HashOrders K C} {es : List (K × List ℕ)}
    (hes : ∀ e ∈ es, e ∈ groupDefinitions c.before) {s : MatchState} (hs : Matching c s) :
    Matching c (es.foldl (matchGroup c orders) s) := by
  induction es generalizing s with
  | nil => exact hs
  | cons e es ih =>
    apply ih (fun e' he' => hes e' (mem_cons_of_mem _ he'))
    rw [matchGroup_eq]
    exact hs.foldl_attempt fun p hp => (mem_groupPairs (hes e mem_cons_self) hp).2.2

/-- The passes record evident pairs. -/
theorem matchPasses_matching (c : Comparison K C) (orders : HashOrders K C) :
    Matching c (matchPasses c orders) := by
  apply Matching.foldl_matchGroup
  · exact fun e he => (orders.beforeGroups.perm _).mem_iff.mp he
  · exact (firstPass_matching c c.before.length).1

/-! ### Independence of the hash order -/

/-- The order in which the entries were made. -/
def HashOrders.insertion (K C : Type) : HashOrders K C :=
  ⟨Iteration.id _, fun _ => Iteration.id _, Iteration.id _⟩

theorem foldl_matchMove_order (c : Comparison K C) (k : K) (it : Iteration (C × List ℕ))
    (s : MatchState) :
    (it.order (groupContents c.before (keyIndexes c.before k))).foldl
        (matchMove (groupContents c.after (keyIndexes c.after k))) s =
      (groupContents c.before (keyIndexes c.before k)).foldl
        (matchMove (groupContents c.after (keyIndexes c.after k))) s := by
  apply foldl_iteration (groupBy_nodup _ _)
  intro e he e' he' hne s
  simp only [matchMove_eq]
  apply foldl_foldl_comm
  intro p hp q hq
  obtain ⟨⟨-, hb, -⟩, ⟨-, hb', -⟩, -⟩ := mem_movePairs he hp
  obtain ⟨⟨-, hd, -⟩, ⟨-, hd', -⟩, -⟩ := mem_movePairs he' hq
  -- pairs of different contents have different sides
  apply attempt_comm
  · exact fun h => hne (Option.some.inj ((hb.symm.trans (by rw [h])).trans hd))
  · exact fun h => hne (Option.some.inj ((hb'.symm.trans (by rw [h])).trans hd'))

section

variable (c : Comparison K C) (orders : HashOrders K C)

theorem matchGroup_order (he : e ∈ groupDefinitions c.before) (s : MatchState) :
    matchGroup c orders s e = matchGroup c (HashOrders.insertion K C) s e := by
  unfold matchGroup
  cases hafter : getEntry (groupDefinitions c.after) e.1 with
  | none => rfl
  | some rights =>
    simp only [mem_groupDefinitions he, getEntry_groupDefinitions hafter]
    rw [foldl_matchMove_order]
    rfl

theorem matchGroup_comm {e' : K × List ℕ} (he : e ∈ groupDefinitions c.before)
    (he' : e' ∈ groupDefinitions c.before) (hne : e.1 ≠ e'.1) (s : MatchState) :
    matchGroup c orders (matchGroup c orders s e) e' =
      matchGroup c orders (matchGroup c orders s e') e := by
  simp only [matchGroup_eq]
  apply foldl_foldl_comm
  intro p hp q hq
  obtain ⟨hk, hk', -⟩ := mem_groupPairs he hp
  obtain ⟨hl, hl', -⟩ := mem_groupPairs he' hq
  apply attempt_comm
  · exact fun h => hne (Option.some.inj ((hk.symm.trans (by rw [h])).trans hl))
  · exact fun h => hne (Option.some.inj ((hk'.symm.trans (by rw [h])).trans hl'))

/-- The result of the passes does not depend on the order of the hash maps. -/
theorem matchPasses_orders :
    matchPasses c orders = matchPasses c (HashOrders.insertion K C) := by
  unfold matchPasses
  have hcomm : ∀ e ∈ groupDefinitions c.before, ∀ e' ∈ groupDefinitions c.before, e.1 ≠ e'.1 →
      ∀ s, matchGroup c orders (matchGroup c orders s e) e' =
        matchGroup c orders (matchGroup c orders s e') e :=
    fun e he e' he' hne => matchGroup_comm c orders he he' hne
  rw [foldl_iteration (groupDefinitions_nodup c.before) hcomm]
  exact foldl_ext _ _ _ fun s e he => matchGroup_order c orders he s

end

end Trufflepig.History
