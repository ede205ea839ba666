import Trufflepig.History.CorrespondenceSpec

/-!
# Matching depends only on which keys and contents are equal

* `matchFacts_rename`: renaming the keys and the contents of both sides, with
  functions that are injective on those that occur, does not change the rows.
-/

namespace Trufflepig.History

open List Lib

variable {K K' C C' : Type}

/-- A fact with its key and its content renamed. -/
def MatchFact.rename (f : K → K') (g : C → C') (fact : MatchFact K C) : MatchFact K' C' :=
  ⟨f fact.key, fact.start, fact.content.map g⟩

/-- A comparison with its keys and its contents renamed. -/
def Comparison.rename (f : K → K') (g : C → C') (c : Comparison K C) : Comparison K' C' :=
  { c with before := c.before.map (·.rename f g), after := c.after.map (·.rename f g) }

/-- The keys that occur in a comparison. -/
def Comparison.keys (c : Comparison K C) : Set K :=
  {k | ∃ fact ∈ c.before ++ c.after, fact.key = k}

/-- The contents that occur in a comparison. -/
def Comparison.contents (c : Comparison K C) : Set C :=
  {b | ∃ fact ∈ c.before ++ c.after, fact.content = some b}

section Facts

variable (f : K → K') (g : C → C') (facts : List (MatchFact K C))

theorem factKey_rename : factKey (facts.map (·.rename f g)) = fun i => (factKey facts i).map f := by
  funext i
  simp only [factKey, getElem?_map, Option.map_map]
  rfl

theorem factContent_rename :
    factContent (facts.map (·.rename f g)) = fun i => (factContent facts i).map g := by
  funext i
  cases hi : facts[i]? with
  | none => simp [factContent, hi]
  | some fact => simp [factContent, hi, MatchFact.rename]

theorem factPosition_rename (offsets : List ℕ) :
    factPosition (facts.map (·.rename f g)) offsets =
      fun i => (factPosition facts offsets i).map (Prod.map f id) := by
  funext i
  simp only [factPosition, getElem?_map, Option.map_map]
  rfl

theorem factLine_rename (offsets : List ℕ) (i : ℕ) :
    factLine (facts.map (·.rename f g)) offsets i = factLine facts offsets i := by
  simp only [factLine, getElem?_map, Option.map_map]
  rfl

end Facts

theorem mem_keys_of_factKey {c : Comparison K C} {facts : List (MatchFact K C)}
    (hfacts : facts ⊆ c.before ++ c.after) {i : ℕ} {k : K} (h : factKey facts i = some k) :
    k ∈ c.keys := by
  obtain ⟨fact, hfact, hk⟩ := Option.map_eq_some_iff.mp h
  exact ⟨fact, hfacts (mem_of_getElem? hfact), hk⟩

theorem mem_contents_of_factContent {c : Comparison K C} {facts : List (MatchFact K C)}
    (hfacts : facts ⊆ c.before ++ c.after) {i : ℕ} {b : C} (h : factContent facts i = some b) :
    b ∈ c.contents := by
  obtain ⟨fact, hfact, hb⟩ := Option.bind_eq_some_iff.mp h
  exact ⟨fact, hfacts (mem_of_getElem? hfact), hb⟩

/-! ## Groups -/

variable {f : K → K'} {g : C → C'} {c : Comparison K C} {facts : List (MatchFact K C)}

theorem groupContents_rename [DecidableEq C] [DecidableEq C'] (hg : Set.InjOn g c.contents)
    (hfacts : facts ⊆ c.before ++ c.after) (indexes : List ℕ) :
    groupContents (facts.map (·.rename f g)) indexes =
      renameKeys g (groupContents facts indexes) := by
  unfold groupContents
  rw [factContent_rename]
  exact groupBy_renameKeys hg fun i _ b hb => mem_contents_of_factContent hfacts hb

section Keys

variable [DecidableEq K] [DecidableEq K']

theorem groupDefinitions_rename (hf : Set.InjOn f c.keys) (hfacts : facts ⊆ c.before ++ c.after) :
    groupDefinitions (facts.map (·.rename f g)) = renameKeys f (groupDefinitions facts) := by
  unfold groupDefinitions
  rw [factKey_rename, length_map]
  exact groupBy_renameKeys hf fun i _ k hk => mem_keys_of_factKey hfacts hk

variable {k : K}

section

variable (hf : Set.InjOn f c.keys) (hfacts : facts ⊆ c.before ++ c.after)
include hf hfacts

theorem getEntry_groupDefinitions_rename (hk : k ∈ c.keys) :
    getEntry (groupDefinitions (facts.map (·.rename f g))) (f k) =
      getEntry (groupDefinitions facts) k := by
  unfold groupDefinitions
  rw [factKey_rename, length_map]
  exact getEntry_groupBy_renameKeys hf (fun i _ k hk => mem_keys_of_factKey hfacts hk) hk

theorem getEntry_groupPositions_rename (offsets : List ℕ) (hk : k ∈ c.keys) (pos : ℕ × ℕ) :
    getEntry (groupPositions (facts.map (·.rename f g)) offsets) (f k, pos) =
      getEntry (groupPositions facts offsets) (k, pos) := by
  have hf' : Set.InjOn (Prod.map f (id : ℕ × ℕ → ℕ × ℕ)) {p | p.1 ∈ c.keys} := by
    intro p hp q hq heq
    obtain ⟨hkey, hpos⟩ := Prod.mk.inj heq
    exact Prod.ext (hf hp hq hkey) hpos
  unfold groupPositions
  rw [factPosition_rename, length_map]
  refine getEntry_groupBy_renameKeys hf' (fun i _ p hp => ?_) (k := (k, pos)) hk
  obtain ⟨fact, hfact, rfl⟩ := Option.map_eq_some_iff.mp hp
  exact ⟨fact, hfacts (mem_of_getElem? hfact), rfl⟩

theorem keyIndexes_rename (hk : k ∈ c.keys) :
    keyIndexes (facts.map (·.rename f g)) (f k) = keyIndexes facts k := by
  unfold keyIndexes Lib.indexesOf
  rw [factKey_rename, length_map]
  apply filter_congr
  intro i _
  rw [decide_eq_decide, Option.map_eq_some_iff]
  constructor
  · rintro ⟨k', hk', heq⟩
    rw [hk', hf (mem_keys_of_factKey hfacts hk') hk heq]
  · exact fun h => ⟨k, h, rfl⟩

end

/-! ## The rows -/

section

variable (hf : Set.InjOn f c.keys) (s : MatchState)
include hf

theorem openAfter_rename (hk : k ∈ c.keys) :
    openAfter (c.rename f g) s (f k) = openAfter c s k :=
  congrArg s.unused (keyIndexes_rename hf (subset_append_right _ _) hk)

theorem openBefore_rename (hk : k ∈ c.keys) :
    openBefore (c.rename f g) s (f k) = openBefore c s k :=
  congrArg (fun is => is.any fun i => (s.matched i).isNone)
    (keyIndexes_rename hf (subset_append_left _ _) hk)

theorem uncertainAfter_rename (j : ℕ) : (remainingSpec (c.rename f g) s).uncertainAfter j =
      (remainingSpec c s).uncertainAfter j := by
  have hkey : factKey (c.rename f g).after j = (factKey c.after j).map f :=
    congrFun (factKey_rename f g c.after) j
  simp only [remainingSpec, hkey]
  cases hj : factKey c.after j with
  | none => rfl
  | some k =>
    have hk : k ∈ c.keys := mem_keys_of_factKey (subset_append_right _ _) hj
    simp only [Option.map_some, Option.any_some, openBefore_rename hf s hk]

theorem beforeRows_rename {l : List (MatchFact K C × ℕ)} (hl : ∀ e ∈ l, e.1.key ∈ c.keys)
    (links : ℕ) :
    beforeRows (c.rename f g) s (remainingSpec (c.rename f g) s)
        (l.map fun e => (e.1.rename f g, e.2)) links =
      beforeRows c s (remainingSpec c s) l links := by
  induction l generalizing links with
  | nil => rfl
  | cons e l ih =>
    obtain ⟨fact, i⟩ := e
    have ih := ih fun e he => hl e (mem_cons_of_mem _ he)
    have hk : fact.key ∈ c.keys := hl _ mem_cons_self
    rw [map_cons, beforeRows, beforeRows]
    cases s.matched i with
    | some pair => simp only [ih]
    | none =>
      have hgroup : ((remainingSpec (c.rename f g) s).groups (fact.rename f g).key).getD ([], 0) =
          ((remainingSpec c s).groups fact.key).getD ([], 0) := by
        rw [remainingSpec_getD, remainingSpec_getD]
        show ((openAfter (c.rename f g) s (f fact.key)).take 64, _) = _
        rw [openAfter_rename hf s hk]
        exact congrArg (fun is : List ℕ => ((openAfter c s fact.key).take 64, is.length))
          (openAfter_rename hf s hk)
      simp only [hgroup, ih]
      rfl

theorem stateRows_rename :
    stateRows (c.rename f g) s = stateRows c s := by
  have hbefore : (c.rename f g).before.zipIdx =
      c.before.zipIdx.map fun e => (e.1.rename f g, e.2) := zipIdx_map
  have hkeys : ∀ e ∈ c.before.zipIdx, e.1.key ∈ c.keys := by
    intro e he
    have hmem := mem_of_getElem? (mem_zipIdx_iff_getElem?.mp he)
    exact ⟨e.1, mem_append_left _ hmem, rfl⟩
  have hafter : afterRows (c.rename f g) s (remainingSpec (c.rename f g) s) =
      afterRows c s (remainingSpec c s) := by
    unfold afterRows
    have hlen : (c.rename f g).after.length = c.after.length := length_map _
    simp only [uncertainAfter_rename hf s, hlen]
    rfl
  rw [stateRows, stateRows, hbefore, beforeRows_rename hf s hkeys, hafter]

end

end Keys

/-! ## The passes -/

variable [DecidableEq C] [DecidableEq C']

theorem equalContents_map {T : Set C} (hg : Set.InjOn g T) {left right : Option C}
    (hleft : ∀ b, left = some b → b ∈ T) (hright : ∀ b, right = some b → b ∈ T) :
    equalContents (left.map g) (right.map g) = equalContents left right := by
  cases left with
  | none => rfl
  | some x =>
    cases right with
    | none => rfl
    | some y =>
      show decide (g x = g y) = decide (x = y)
      rw [decide_eq_decide]
      exact hg.eq_iff (hleft x rfl) (hright y rfl)

theorem matchMove_rename (hg : Set.InjOn g c.contents) (indexes indexes' : List ℕ)
    (s : MatchState) {e : C × List ℕ} (he : e ∈ groupContents c.before indexes) :
    matchMove (renameKeys g (groupContents c.after indexes')) s (g e.1, e.2) =
      matchMove (groupContents c.after indexes') s e := by
  have hin : ∀ {facts : List (MatchFact K C)} {is : List ℕ} {e : C × List ℕ},
      facts ⊆ c.before ++ c.after → e ∈ groupContents facts is → e.1 ∈ c.contents := by
    intro facts is e hfacts he
    obtain ⟨i, -, hi⟩ := exists_of_mem_keys (mem_map_of_mem he)
    exact mem_contents_of_factContent hfacts hi
  unfold matchMove
  rw [getEntry_renameKeys]
  intro e' he' heq
  exact hg (hin (subset_append_right _ _) he') (hin (subset_append_left _ _) he) heq

variable [DecidableEq K] [DecidableEq K']

section

variable (hf : Set.InjOn f c.keys) (hg : Set.InjOn g c.contents)
include hf hg

theorem matchPosition_rename (s : MatchState) (i : ℕ) :
    matchPosition (c.rename f g) s i = matchPosition c s i := by
  unfold matchPosition
  cases hi : c.before[i]? with
  | none => simp [Comparison.rename, hi]
  | some fact =>
    have hmem : fact ∈ c.before ++ c.after := mem_append_left _ (mem_of_getElem? hi)
    have hkey : fact.key ∈ c.keys := ⟨fact, hmem, rfl⟩
    have hcontent : ∀ j, equalContents (fact.content.map g)
        ((factContent c.after j).map g) = equalContents fact.content (factContent c.after j) :=
      fun j => equalContents_map hg (fun b hb => ⟨fact, hmem, hb⟩)
        fun b hb => mem_contents_of_factContent (subset_append_right _ _) hb
    simp only [Comparison.rename, getElem?_map, hi, Option.map_some, MatchFact.rename]
    simp only [← MatchFact.rename.eq_1, factContent_rename f g c.after, hcontent,
      getEntry_groupPositions_rename hf (subset_append_left c.before c.after) _ hkey,
      getEntry_groupPositions_rename hf (subset_append_right c.before c.after) _ hkey]

theorem matchGroup_rename (s : MatchState) {e : K × List ℕ} (he : e ∈ groupDefinitions c.before) :
    matchGroup (c.rename f g) (HashOrders.insertion K' C') s (f e.1, e.2) =
      matchGroup c (HashOrders.insertion K C) s e := by
  obtain ⟨i, -, hi⟩ := exists_of_mem_keys (mem_map_of_mem he)
  have hkey : e.1 ∈ c.keys := mem_keys_of_factKey (subset_append_left _ _) hi
  unfold matchGroup
  simp only [Comparison.rename,
    getEntry_groupDefinitions_rename hf (subset_append_right c.before c.after) hkey]
  cases getEntry (groupDefinitions c.after) e.1 with
  | none => rfl
  | some rights =>
    have hchange : matchChange (c.rename f g) s e.2 rights = matchChange c s e.2 rights := by
      unfold matchChange
      simp only [Comparison.rename, factLine_rename]
    simp only [HashOrders.insertion, Iteration.id,
      groupContents_rename hg (subset_append_left c.before c.after),
      groupContents_rename hg (subset_append_right c.before c.after)]
    rw [foldl_renameKeys]
    simp only [Comparison.rename] at hchange
    rw [hchange]
    exact foldl_ext _ _ _ fun s e he => matchMove_rename hg _ _ s he

theorem matchPasses_rename :
    matchPasses (c.rename f g) (HashOrders.insertion K' C') =
      matchPasses c (HashOrders.insertion K C) := by
  unfold matchPasses
  have hfirst : matchPosition (c.rename f g) = matchPosition c := by
    funext s i
    exact matchPosition_rename hf hg s i
  have hgroups : groupDefinitions (c.rename f g).before =
      renameKeys f (groupDefinitions c.before) :=
    groupDefinitions_rename hf (subset_append_left _ _)
  have hlen : (c.rename f g).before.length = c.before.length := length_map _
  rw [hfirst, hgroups, hlen]
  show (renameKeys f (groupDefinitions c.before)).foldl _ _ = (groupDefinitions c.before).foldl _ _
  rw [foldl_renameKeys]
  exact foldl_ext _ _ _ fun s e he => matchGroup_rename hf hg s he

/-- The rows depend only on which keys and which contents are equal. -/
theorem matchFacts_rename (orders : HashOrders K C) (orders' : HashOrders K' C') :
    matchFacts (c.rename f g) orders' = matchFacts c orders := by
  rw [matchFacts_eq, matchFacts_eq, matchPasses_rename hf hg, stateRows_rename hf]

end

end Trufflepig.History
