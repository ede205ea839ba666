import Trufflepig.Search.RerankWindow

/-!
# The order of the rerank window

`permute_in_place` follows the cycles of a permutation with swaps. A swap of the same two positions
in the slice and in the destinations keeps which element goes where, and puts one position right
that was not; so the loops end with every destination at its place. A rerank does not get so far if
a hit of the window is in a file without any bytes, against the comment on `fetch_window_bodies`.

* `permuteInPlace_spec`: every element comes to its destination.
* `permute_sources`: the elements are taken in the order of the sources.
* `rerank_spec`: what a rerank makes of the hits, and when that is what it is for.
-/

namespace Trufflepig.Search

open List Lib Results

section Permute

variable {α : Type}

/-! ## Swaps -/

theorem getElem?_swapIfInBounds {β : Type} (xs : Array β) {i j : ℕ} (hi : i < xs.size)
    (hj : j < xs.size) (k : ℕ) : (xs.swapIfInBounds i j)[k]? = xs[Equiv.swap i j k]? := by
  rw [Array.swapIfInBounds_def, dif_pos hi, dif_pos hj, Array.getElem?_swap]
  by_cases hkj : k = j
  · subst hkj
    rw [Equiv.swap_apply_right, if_pos rfl]
    exact (Array.getElem?_eq_getElem hi).symm
  · rw [if_neg (Ne.symm hkj)]
    by_cases hki : k = i
    · subst hki
      rw [Equiv.swap_apply_left, if_pos rfl]
      exact (Array.getElem?_eq_getElem hj).symm
    · rw [Equiv.swap_apply_of_ne_of_ne hki hkj, if_neg (Ne.symm hki)]

/-- The destinations are a permutation of the positions. -/
structure Arranges (slice : Array α) (dest : Array ℕ) : Prop where
  size : dest.size = slice.size
  bound : ∀ k t : ℕ, dest[k]? = some t → t < dest.size
  injective : ∀ a b t : ℕ, dest[a]? = some t → dest[b]? = some t → a = b

/-- The element `x` goes to the position `t`. -/
def GoesTo (slice : Array α) (dest : Array ℕ) (x : α) (t : ℕ) : Prop :=
  ∃ k : ℕ, slice[k]? = some x ∧ dest[k]? = some t

/-- What swaps keep: where the elements go to, and the positions that are right already. -/
structure Swapped (before after : Array α × Array ℕ) : Prop where
  arranges : Arranges after.1 after.2
  size : after.2.size = before.2.size
  goesTo : ∀ x t, GoesTo after.1 after.2 x t ↔ GoesTo before.1 before.2 x t
  settled : ∀ k : ℕ, before.2[k]? = some k → after.2[k]? = some k

theorem Swapped.refl {state : Array α × Array ℕ} (h : Arranges state.1 state.2) :
    Swapped state state := ⟨h, rfl, fun _ _ => Iff.rfl, fun _ hk => hk⟩

theorem Swapped.trans {first second third : Array α × Array ℕ} (h : Swapped first second)
    (h' : Swapped second third) : Swapped first third :=
  ⟨h'.arranges, h'.size.trans h.size, fun x t => (h'.goesTo x t).trans (h.goesTo x t),
    fun k hk => h'.settled k (h.settled k hk)⟩

variable {slice : Array α} {dest : Array ℕ} {i j : ℕ}

/-- A swap at a position that is not right. -/
theorem swapped_swap (h : Arranges slice dest) (hdest : dest[i]? = some j) (hne : j ≠ i) :
    Swapped (slice, dest) (slice.swapIfInBounds i j, dest.swapIfInBounds i j) := by
  have hi : i < dest.size := (Array.getElem?_eq_some_iff.mp hdest).1
  have hj : j < dest.size := h.bound i j hdest
  have hi' : i < slice.size := h.size ▸ hi
  have hj' : j < slice.size := h.size ▸ hj
  refine ⟨⟨?_, ?_, ?_⟩, ?_, ?_, ?_⟩
  · rw [Array.size_swapIfInBounds, Array.size_swapIfInBounds, h.size]
  · intro k t hk
    rw [getElem?_swapIfInBounds dest hi hj] at hk
    rw [Array.size_swapIfInBounds]
    exact h.bound _ t hk
  · intro a b t ha hb
    rw [getElem?_swapIfInBounds dest hi hj] at ha hb
    exact (Equiv.swap i j).injective (h.injective _ _ t ha hb)
  · exact Array.size_swapIfInBounds
  · intro x t
    unfold GoesTo
    simp only [getElem?_swapIfInBounds dest hi hj, getElem?_swapIfInBounds slice hi' hj']
    exact (Equiv.swap i j).exists_congr fun k => Iff.rfl
  · -- A position that is right is neither of the two.
    intro k hk
    show (dest.swapIfInBounds i j)[k]? = some k
    have hki : k ≠ i := by
      rintro rfl
      exact hne (Option.some.inj (hdest.symm.trans hk))
    have hkj : k ≠ j := by
      rintro rfl
      exact hki (h.injective _ _ _ hk hdest)
    rw [getElem?_swapIfInBounds dest hi hj, Equiv.swap_apply_of_ne_of_ne hki hkj, hk]

/-- The positions that are not right. -/
def unsettled (dest : Array ℕ) : Finset ℕ :=
  (Finset.range dest.size).filter fun k => dest[k]? ≠ some k

theorem card_unsettled_swap (h : Arranges slice dest) (hdest : dest[i]? = some j) (hne : j ≠ i) :
    (unsettled (dest.swapIfInBounds i j)).card < (unsettled dest).card := by
  have hi : i < dest.size := (Array.getElem?_eq_some_iff.mp hdest).1
  have hj : j < dest.size := h.bound i j hdest
  have hswapped := swapped_swap h hdest hne
  apply Finset.card_lt_card
  rw [Finset.ssubset_iff_of_subset]
  · -- The position `j` was not right, and is now.
    refine ⟨j, ?_, ?_⟩
    · simp only [unsettled, Finset.mem_filter, Finset.mem_range]
      exact ⟨hj, fun hjj => hne (h.injective _ _ _ hjj hdest)⟩
    · simp only [unsettled, Finset.mem_filter, not_and, not_not]
      intro _
      rw [getElem?_swapIfInBounds dest hi hj, Equiv.swap_apply_right, hdest]
  · intro k hk
    simp only [unsettled, Finset.mem_filter, Finset.mem_range, Array.size_swapIfInBounds] at hk ⊢
    exact ⟨hk.1, fun hsettled => hk.2 (hswapped.settled k hsettled)⟩

theorem card_unsettled_le (dest : Array ℕ) : (unsettled dest).card ≤ dest.size :=
  (Finset.card_filter_le _ _).trans (Finset.card_range _).le

/-! ## Cycles -/

/-- The `while` loop ends with its position right. -/
theorem permuteAt_spec (i fuel : ℕ) (state : Array α × Array ℕ) (h : Arranges state.1 state.2)
    (hi : i < state.2.size) (hfuel : (unsettled state.2).card < fuel) :
    Swapped state (permuteAt i fuel state) ∧ (permuteAt i fuel state).2[i]? = some i := by
  fun_induction permuteAt i fuel state with
  | case1 state => exact absurd hfuel (Nat.not_lt_zero _)
  | case2 fuel slice dest hnone =>
    rw [Array.getElem?_eq_none_iff] at hnone
    exact absurd hi (Nat.not_lt.mpr hnone)
  | case3 fuel slice dest hdest => exact ⟨.refl h, hdest⟩
  | case4 fuel slice dest j hdest hne ih =>
    have hswapped := swapped_swap h hdest hne
    have hcard := card_unsettled_swap h hdest hne
    have hless : (unsettled (dest.swapIfInBounds i j)).card < fuel :=
      hcard.trans_le (Nat.le_of_lt_succ hfuel)
    obtain ⟨hrest, hsettled⟩ := ih hswapped.arranges (by rw [hswapped.size]; exact hi) hless
    exact ⟨hswapped.trans hrest, hsettled⟩

theorem permutePositions_spec (fuel : ℕ) (positions : List ℕ) (state : Array α × Array ℕ)
    (h : Arranges state.1 state.2) (hpositions : ∀ i ∈ positions, i < state.2.size)
    (hfuel : state.2.size < fuel) :
    let after := positions.foldl (fun state i => permuteAt i fuel state) state
    Swapped state after ∧ ∀ i ∈ positions, after.2[i]? = some i := by
  induction positions generalizing state with
  | nil => exact ⟨.refl h, fun i hi => nomatch hi⟩
  | cons i positions ih =>
    have hcard : (unsettled state.2).card < fuel := (card_unsettled_le state.2).trans_lt hfuel
    obtain ⟨hswapped, hsettled⟩ :=
      permuteAt_spec i fuel state h (hpositions i mem_cons_self) hcard
    obtain ⟨hrest, hall⟩ := ih (permuteAt i fuel state) hswapped.arranges
      (fun k hk => hswapped.size ▸ hpositions k (mem_cons_of_mem i hk))
      (hswapped.size ▸ hfuel)
    refine ⟨hswapped.trans hrest, fun k hk => ?_⟩
    rcases mem_cons.mp hk with rfl | hk
    · exact hrest.settled k hsettled
    · exact hall k hk

variable {t : ℕ}

/-- Every element comes to its destination. -/
theorem permuteInPlace_spec (h : Arranges slice dest) {k : ℕ} {x : α} (hx : slice[k]? = some x)
    (ht : dest[k]? = some t) :
    (permuteInPlace slice dest)[t]? = some x := by
  obtain ⟨hswapped, hsettled⟩ := permutePositions_spec (dest.size + 1) (List.range dest.size)
    (slice, dest) h (fun i hi => mem_range.mp hi) (Nat.lt_succ_self _)
  obtain ⟨place, hplace, htarget⟩ := (hswapped.goesTo x t).mpr ⟨k, hx, ht⟩
  have hlt : place < dest.size := by
    have hlt := (Array.getElem?_eq_some_iff.mp htarget).1
    rwa [hswapped.size] at hlt
  have heq : place = t :=
    Option.some.inj ((hsettled place (mem_range.mpr hlt)).symm.trans htarget)
  rw [← heq]
  exact hplace

/-! ## Sources -/

/-- The assignments of the destinations (in `apply`). -/
abbrev assign (targets : Array ℕ) (entry : ℕ × ℕ) : Array ℕ :=
  targets.setIfInBounds entry.1 entry.2

theorem size_foldl_assign (entries : List (ℕ × ℕ)) (targets : Array ℕ) :
    (entries.foldl assign targets).size = targets.size := by
  induction entries generalizing targets with
  | nil => rfl
  | cons entry entries ih => rw [foldl_cons, ih, Array.size_setIfInBounds]

variable {s : ℕ}

theorem getElem?_foldl_assign_of_not_mem {entries : List (ℕ × ℕ)} (h : s ∉ entries.map Prod.fst)
    (targets : Array ℕ) :
    (entries.foldl assign targets)[s]? = targets[s]? := by
  induction entries generalizing targets with
  | nil => rfl
  | cons entry entries ih =>
    rw [map_cons, mem_cons, not_or] at h
    rw [foldl_cons, ih h.2, Array.getElem?_setIfInBounds_ne (Ne.symm h.1)]

theorem getElem?_foldl_assign {entries : List (ℕ × ℕ)} (hnodup : (entries.map Prod.fst).Nodup)
    (hmem : (s, t) ∈ entries) {targets : Array ℕ} (hs : s < targets.size) :
    (entries.foldl assign targets)[s]? = some t := by
  induction entries generalizing targets with
  | nil => exact nomatch hmem
  | cons entry entries ih =>
    rw [map_cons, nodup_cons] at hnodup
    rw [foldl_cons]
    rcases mem_cons.mp hmem with rfl | hmem
    · rw [getElem?_foldl_assign_of_not_mem hnodup.1, Array.getElem?_setIfInBounds_self_of_lt hs]
    · exact ih hnodup.2 hmem (by rwa [Array.size_setIfInBounds])

variable {sources : List ℕ} {n : ℕ}

theorem size_destinations (sources : List ℕ) : (destinations sources).size = sources.length :=
  (size_foldl_assign _ _).trans (by simp)

theorem getElem?_destinations (h : sources.Perm (List.range n)) (ht : sources[t]? = some s) :
    (destinations sources)[s]? = some t := by
  have hnodup : (sources.zipIdx.map Prod.fst).Nodup := by
    rw [zipIdx_map_fst]
    exact h.nodup_iff.mpr nodup_range
  have hs : s < n := mem_range.mp (h.mem_iff.mp (mem_of_getElem? ht))
  refine getElem?_foldl_assign hnodup (mem_zipIdx_iff_getElem?.mpr ht) ?_
  rw [Array.size_replicate, h.length_eq, length_range]
  exact hs

theorem getElem?_destinations_iff (h : sources.Perm (List.range n)) :
    (destinations sources)[s]? = some t ↔ sources[t]? = some s := by
  refine ⟨fun hdest => ?_, getElem?_destinations h⟩
  have hs : s < n := by
    have hlt := (Array.getElem?_eq_some_iff.mp hdest).1
    rwa [size_destinations, h.length_eq, length_range] at hlt
  obtain ⟨t', ht'⟩ := mem_iff_getElem?.mp (h.mem_iff.mpr (mem_range.mpr hs))
  have heq : t' = t := Option.some.inj ((getElem?_destinations h ht').symm.trans hdest)
  exact heq ▸ ht'

theorem arranges_destinations {window : List α} (h : sources.Perm (List.range window.length)) :
    Arranges window.toArray (destinations sources) where
  size := by rw [size_destinations, h.length_eq, length_range, size_toArray]
  bound k t hk := by
    rw [size_destinations]
    exact (List.getElem?_eq_some_iff.mp ((getElem?_destinations_iff h).mp hk)).1
  injective a b t ha hb := by
    rw [getElem?_destinations_iff h] at ha hb
    exact Option.some.inj (ha.symm.trans hb)

/-- The elements are taken in the order of the sources. -/
theorem permute_sources {window : List α} (h : sources.Perm (List.range window.length)) :
    (permuteInPlace window.toArray (destinations sources)).toList =
      sources.filterMap fun source => window[source]? := by
  have hlength : (permuteInPlace window.toArray (destinations sources)).toList.length =
      sources.length := by
    rw [(Array.perm_iff_toList_perm.mp (permuteInPlace_perm ..)).length_eq, h.length_eq,
      length_range]
  have hmap : (permuteInPlace window.toArray (destinations sources)).toList.map some =
      sources.map fun source => window[source]? := by
    refine ext_getElem? fun t => ?_
    rw [getElem?_map, getElem?_map]
    cases ht : sources[t]? with
    | none =>
      rw [List.getElem?_eq_none_iff] at ht
      rw [getElem?_eq_none (hlength ▸ ht)]
      rfl
    | some s =>
      have hs : s < window.length :=
        mem_range.mp (h.mem_iff.mp (mem_of_getElem? ht))
      have hx : window.toArray[s]? = some window[s] := by
        rw [getElem?_toArray, getElem?_eq_getElem hs]
      have hplace := permuteInPlace_spec (arranges_destinations h) hx (getElem?_destinations h ht)
      rw [Array.getElem?_toList, hplace, Option.map_some, Option.map_some, getElem?_eq_getElem hs]
  calc (permuteInPlace window.toArray (destinations sources)).toList
      = ((permuteInPlace window.toArray (destinations sources)).toList.map some).filterMap id := by
        rw [filterMap_map]
        exact filterMap_some.symm
    _ = sources.filterMap fun source => window[source]? := by
        rw [hmap, filterMap_map]
        rfl

end Permute

/-! ## The order -/

section Order

variable {α τ σ : Type} [LinearOrder τ] [LinearOrder σ]

/-- The comparison of two scores of any total order. -/
def scoresFirst : Option σ → Option σ → Ordering
  | some left, some right => compare right left
  | left, right => compare right.isSome left.isSome

/-- The comparison of two positions, with tiers and scores of any total order. -/
def windowOrder (tier : ℕ → τ) (score : ℕ → Option σ) (left right : ℕ) : Ordering :=
  ((compare (tier left) (tier right)).then (scoresFirst (score left) (score right))).then
    (compare left right)

/-- Scored before unscored, and the higher score first. -/
def ScoredBefore : Option σ → Option σ → Prop
  | some left, some right => right < left
  | some _, none => True
  | none, _ => False

/-- By tier, then by score, then by position. -/
def Precedes (tier : ℕ → τ) (score : ℕ → Option σ) (left right : ℕ) : Prop :=
  tier left < tier right ∨ tier left = tier right ∧
    (ScoredBefore (score left) (score right) ∨ score left = score right ∧ left < right)

/-- The elements of a window in the order of their positions. -/
def Ranked (tier : ℕ → τ) (score : ℕ → Option σ) (window ranked : List α) : Prop :=
  ∃ order : List ℕ, order.Perm (List.range window.length) ∧ order.Pairwise (Precedes tier score) ∧
    ranked = order.filterMap fun position => window[position]?

theorem scoresFirst_lt {left right : Option σ} :
    scoresFirst left right = .lt ↔ ScoredBefore left right := by
  rcases left with _ | left <;> rcases right with _ | right
  · exact iff_of_false (fun h => nomatch h) id
  · exact iff_of_false (fun h => nomatch h) id
  · exact iff_of_true rfl trivial
  · exact compare_lt_iff_lt

theorem scoresFirst_eq {left right : Option σ} : scoresFirst left right = .eq ↔ left = right := by
  rcases left with _ | left <;> rcases right with _ | right
  · exact iff_of_true rfl rfl
  · exact iff_of_false (fun h => nomatch h) (fun h => nomatch h)
  · exact iff_of_false (fun h => nomatch h) (fun h => nomatch h)
  · rw [Option.some.injEq]
    exact compare_eq_iff_eq.trans eq_comm

instance : Std.TransCmp (scoresFirst : Option σ → Option σ → Ordering) where
  eq_swap {left right} := by
    rcases left with _ | left <;> rcases right with _ | right
    · rfl
    · rfl
    · rfl
    · exact Std.OrientedOrd.eq_swap
  isLE_trans {a b c} hab hbc := by
    rcases a with _ | a <;> rcases b with _ | b <;> rcases c with _ | c
    · rfl
    · exact nomatch hbc
    · rfl
    · exact nomatch hab
    · rfl
    · exact nomatch hbc
    · rfl
    · exact Std.TransOrd.isLE_trans hbc hab

instance (tier : ℕ → τ) (score : ℕ → Option σ) : Std.TransCmp (windowOrder tier score) :=
  have := transCmp_comap scoresFirst score
  inferInstanceAs (Std.TransCmp (compareLex (compareLex (compareOn tier)
    fun left right => scoresFirst (score left) (score right)) compare))

theorem precedes_of_isLE {tier : ℕ → τ} {score : ℕ → Option σ} {left right : ℕ}
    (hle : (windowOrder tier score left right).isLE = true) (hne : left ≠ right) :
    Precedes tier score left right := by
  have hposition : compare left right ≠ .eq := fun h => hne (compare_eq_iff_eq.mp h)
  have hlt : windowOrder tier score left right = .lt := by
    rcases Ordering.isLE_iff_eq_lt_or_eq_eq.mp hle with hlt | heq
    · exact hlt
    · exact absurd (Ordering.then_eq_eq.mp heq).2 hposition
  unfold windowOrder at hlt
  rw [Ordering.then_eq_lt, Ordering.then_eq_lt, Ordering.then_eq_eq, compare_lt_iff_lt,
    compare_eq_iff_eq, compare_lt_iff_lt, scoresFirst_lt, scoresFirst_eq] at hlt
  unfold Precedes
  tauto

/-- A window that is permuted into the order of a comparison. -/
theorem ranked_of_order {c : ℕ → ℕ → Ordering} [Std.TransCmp c] {tier : ℕ → τ}
    {score : ℕ → Option σ} (window : List α)
    (hc : ∀ left < window.length, ∀ right < window.length,
      c left right = windowOrder tier score left right) :
    Ranked tier score window (permuteInPlace window.toArray
      (destinations (orderBy c (List.range window.length)))).toList := by
  have hperm : (orderBy c (List.range window.length)).Perm (List.range window.length) :=
    orderBy_perm ..
  have hbound : ∀ position ∈ orderBy c (List.range window.length), position < window.length :=
    fun position hmem => mem_range.mp (hperm.mem_iff.mp hmem)
  have hsorted : (orderBy c (List.range window.length)).Pairwise
      fun left right => (c left right).isLE = true := pairwise_sortByCmp _
  have hnodup : (orderBy c (List.range window.length)).Nodup :=
    hperm.nodup_iff.mpr nodup_range
  refine ⟨_, hperm, ?_, permute_sources hperm⟩
  refine ((hsorted.and hnodup).imp_of_mem ?_)
  intro left right hleft hright h
  rw [hc left (hbound left hleft) right (hbound right hright)] at h
  exact precedes_of_isLE h.1 h.2

end Order

/-! ## Documents -/

section Documents

variable (snapshot : Snapshot) {hit : Hit} {window : List Hit}

/-- The hit is not one of a file that is stored without any bytes. -/
def HasBytes (hit : Hit) : Prop := ∀ source ∈ hitSource snapshot hit, source.bytes ≠ []

/-- The text of a hit, if it can be read and there is some. -/
def windowDocument (hit : Hit) : Option Bytes := (windowBody snapshot hit).toOption.join

/-- What the comment on `fetch_window_bodies` says that it reads: a hit without text is left out,
and does not fail the rest. -/
def windowDocuments (window : List Hit) : List (Bytes × ℕ) :=
  documentsOf (window.map (windowDocument snapshot))

variable {snapshot}

theorem windowBody_eq_ok {body : Option Bytes} : windowBody snapshot hit = .ok body ↔
    HasBytes snapshot hit ∧ windowDocument snapshot hit = body := by
  unfold HasBytes windowDocument windowBody
  cases hitSource snapshot hit with
  | none => simp [Except.toOption]
  | some source =>
    by_cases hempty : source.bytes = []
    · simp [sqlSubstr, hempty]
    · simp [sqlSubstr, hempty, Except.toOption]

theorem fetchWindowBodies_eq_ok {documents : List (Bytes × ℕ)} :
    fetchWindowBodies snapshot window = .ok documents ↔
      (∀ hit ∈ window, HasBytes snapshot hit) ∧ documents = windowDocuments snapshot window := by
  have hbodies : ∀ bodies, window.mapM (windowBody snapshot) = .ok bodies ↔
      (∀ hit ∈ window, HasBytes snapshot hit) ∧ window.map (windowDocument snapshot) = bodies := by
    intro bodies
    simp only [mapM_eq_ok, windowBody_eq_ok]
    rw [forall₂_and_left, ← forall₂_map_left_iff, forall₂_eq_eq_eq]
  simp only [fetchWindowBodies, bind_eq_ok, hbodies]
  constructor
  · rintro ⟨_, ⟨hbytes, rfl⟩, ⟨⟩⟩
    exact ⟨hbytes, rfl⟩
  · rintro ⟨hbytes, rfl⟩
    exact ⟨_, ⟨hbytes, rfl⟩, rfl⟩

end Documents

/-! ## Reranks -/

section Rerank

variable [Unicode]

/-- The tier of the hit at a position. -/
def windowTier (policy : FusionPolicy) (window : List Hit) (position : ℕ) : ℕ :=
  ((window[position]?).map fun hit => (FileEvidence.ofHit hit policy).tier).getD 0

/-- The score of a position, by its place in the total order of the floats. -/
def windowKey (scores : ℕ → Option Float32) (position : ℕ) : Option ℤ :=
  (scores position).map totalKey32

omit [Unicode] in
theorem scoreOrder_eq (left right : Option Float32) :
    scoreOrder left right = scoresFirst (left.map totalKey32) (right.map totalKey32) := by
  rcases left with _ | left <;> rcases right with _ | right <;> rfl

instance (policy : FusionPolicy) (window : List Hit) (scores : ℕ → Option Float32) :
    Std.TransCmp (sourceOrder policy window scores) := by
  have : Std.TransCmp fun left right => scoreOrder (scores left) (scores right) := by
    simp only [scoreOrder_eq]
    exact transCmp_comap scoresFirst (windowKey scores)
  exact inferInstanceAs (Std.TransCmp (compareLex (compareLex
    (compareOn fun position => (window[position]?).map fun hit =>
      (FileEvidence.ofHit hit policy).tier)
    fun left right => scoreOrder (scores left) (scores right)) compare))

theorem sourceOrder_eq (policy : FusionPolicy) {window : List Hit} (scores : ℕ → Option Float32)
    {left right : ℕ} (hleft : left < window.length) (hright : right < window.length) :
    sourceOrder policy window scores left right =
      windowOrder (windowTier policy window) (windowKey scores) left right := by
  simp only [sourceOrder, windowOrder, windowTier, windowKey, scoreOrder_eq,
    getElem?_eq_getElem hleft, getElem?_eq_getElem hright]
  rfl

omit [Unicode] in
theorem length_permuteWindow (hits : List Hit) (dest : Array ℕ) :
    (permuteInPlace (hits.take rerankWindow).toArray dest).toList.length =
      min rerankWindow hits.length := by
  rw [(Array.perm_iff_toList_perm.mp (permuteInPlace_perm ..)).length_eq]
  exact length_take

omit [Unicode] in
theorem split_window {window hits : List Hit} (h : window.length = min rerankWindow hits.length) :
    (window ++ hits.drop rerankWindow).take rerankWindow = window ∧
      (window ++ hits.drop rerankWindow).drop rerankWindow = hits.drop rerankWindow := by
  rcases Nat.le_total rerankWindow hits.length with hle | hle
  · rw [Nat.min_eq_left hle] at h
    exact ⟨take_left' h, drop_left' h⟩
  · have hshort : window.length ≤ rerankWindow := by omega
    rw [drop_eq_nil_of_le hle, append_nil]
    exact ⟨take_of_length_le hshort, drop_eq_nil_of_le hshort⟩

/-- The scorer is asked about the window: there is a query and a document, and no hit of a file
without any bytes. -/
def Asks (snapshot : Snapshot) (queryText : String) (window : List Hit) : Prop :=
  queryText ≠ "" ∧ (∀ hit ∈ window, HasBytes snapshot hit) ∧ windowDocuments snapshot window ≠ []

/-- What a rerank is for: the hits stay as they are if the scorer fails or gives another number of
scores, and otherwise the window is ordered. -/
def Reranked (snapshot : Snapshot) (policy : FusionPolicy) (scorer : Scorer)
    (hits reranked : List Hit) : Prop :=
  let window := hits.take rerankWindow
  let documents := windowDocuments snapshot window
  match scorer (documents.map Prod.fst) with
  | .error _ => reranked = hits
  | .ok scores =>
    if scores.length ≠ documents.length then reranked = hits
    else Ranked (windowTier policy window)
      (windowKey (windowScores ((documents.map Prod.snd).zip scores))) window
      (reranked.take rerankWindow)

variable {snapshot : Snapshot} {queryText : String} {policy : FusionPolicy} {scorer : Scorer}
  {hits : List Hit}

theorem rerank_drop :
    (rerank snapshot queryText policy scorer hits).drop rerankWindow = hits.drop rerankWindow := by
  fun_cases rerank snapshot queryText policy scorer hits with
  | case1 | case2 | case3 | case4 | case5 => rfl
  | case6 => exact (split_window (length_permuteWindow hits _)).2

theorem rerank_of_not_asks (h : ¬Asks snapshot queryText (hits.take rerankWindow)) :
    rerank snapshot queryText policy scorer hits = hits := by
  fun_cases rerank snapshot queryText policy scorer hits with
  | case1 | case2 | case3 | case4 | case5 => rfl
  | case6 hsome window documents hdocuments hfound =>
    obtain ⟨hbytes, rfl⟩ := fetchWindowBodies_eq_ok.mp hdocuments
    have hquery : queryText ≠ "" := by
      rintro rfl
      exact hsome rfl
    exact absurd ⟨hquery, hbytes, mt isEmpty_iff.mpr hfound⟩ h

theorem reranked_of_asks (h : Asks snapshot queryText (hits.take rerankWindow)) :
    Reranked snapshot policy scorer hits (rerank snapshot queryText policy scorer hits) := by
  obtain ⟨hquery, hbytes, hfound⟩ := h
  have hfetch := fetchWindowBodies_eq_ok.mpr ⟨hbytes, rfl⟩
  unfold Reranked
  fun_cases rerank snapshot queryText policy scorer hits with
  | case1 hempty =>
    rcases Bool.or_eq_true_iff.mp hempty with hnone | hnone
    · exact absurd (String.isEmpty_iff.mp hnone) hquery
    · rw [isEmpty_iff.mp hnone] at hfound
      exact absurd rfl hfound
  | case2 hsome window error herror => cases herror.symm.trans hfetch
  | case3 hsome window documents hdocuments hnone =>
    obtain rfl := (fetchWindowBodies_eq_ok.mp hdocuments).2
    exact absurd (isEmpty_iff.mp hnone) hfound
  | case4 hsome window documents hdocuments _ _ herror =>
    obtain rfl := (fetchWindowBodies_eq_ok.mp hdocuments).2
    simp only [window] at herror
    simp only [herror]
  | case5 hsome window documents hdocuments _ _ hscores hcount =>
    obtain rfl := (fetchWindowBodies_eq_ok.mp hdocuments).2
    simp only [window] at hscores hcount
    simp only [hscores, if_pos hcount]
  | case6 hsome window documents hdocuments _ _ hscores hcount =>
    obtain rfl := (fetchWindowBodies_eq_ok.mp hdocuments).2
    simp only [window] at hscores hcount
    simp only [hscores, if_neg hcount]
    rw [(split_window (length_permuteWindow hits _)).1]
    exact ranked_of_order _ fun left hleft right hright => sourceOrder_eq policy _ hleft hright

/-- What a rerank makes of the hits, and when that is what it is for. -/
theorem rerank_spec (snapshot : Snapshot) (queryText : String) (policy : FusionPolicy)
    (scorer : Scorer) (hits : List Hit) :
    let reranked := rerank snapshot queryText policy scorer hits
    let window := hits.take rerankWindow
    reranked.Perm hits ∧ reranked.drop rerankWindow = hits.drop rerankWindow ∧
    (Asks snapshot queryText window ∨ reranked = hits) ∧
    (Reranked snapshot policy scorer hits reranked ↔
      Asks snapshot queryText window ∨ Reranked snapshot policy scorer hits hits) ∧
    ∀ (τ σ : Type) [LinearOrder τ] [LinearOrder σ] (tier : ℕ → τ) (score : ℕ → Option σ),
      Ranked tier score window (permuteInPlace window.toArray
        (destinations (orderBy (windowOrder tier score) (List.range window.length)))).toList := by
  intro reranked window
  refine ⟨rerank_perm .., rerank_drop, or_iff_not_imp_left.mpr rerank_of_not_asks, ?_,
    fun τ σ _ _ tier score => ?_⟩
  · by_cases hasks : Asks snapshot queryText window
    · exact iff_of_true (reranked_of_asks hasks) (.inl hasks)
    · rw [or_iff_right hasks, show reranked = hits from rerank_of_not_asks hasks]
  · exact ranked_of_order _ fun _ _ _ _ => rfl

end Rerank

/-! ## A file without any bytes -/

/-- An empty file and another one. -/
def emptyFirst : Snapshot where
  files := [⟨3, ⟨ascii "m.rs", by decide⟩, some [3], .rust⟩,
    ⟨4, ⟨ascii "n.rs", by decide⟩, some [4], .rust⟩]
  uniqueIds := by decide
  uniquePaths := by decide
  contents := [([3], []), ([4], ascii "fn n")]
  uniqueRevisions := by decide
  definitions := []
  occurrences := []
  regions := []
  fullText := ⟨fun _ _ => false, fun _ _ => 0⟩

/-- The scorer is not asked about the second file, which stays behind the empty one. -/
theorem empty_file_keeps_window :
    letI := Unicode.ofAscii
    let policy : FusionPolicy := ⟨false, false, ⟨false, false, false, []⟩, 0⟩
    let scorer : Scorer := fun documents => .ok (documents.map fun _ => 1)
    let hits := [Hit.plain (ascii "m.rs") none 0 0 1 1 "m" "file" none .filenameExact,
      Hit.plain (ascii "n.rs") none 0 4 1 1 "n" "function" none .lexical]
    windowDocuments emptyFirst hits = [(ascii "fn n", 1)] ∧
      rerank emptyFirst "m" policy scorer hits = hits ∧
      ¬Reranked emptyFirst policy scorer hits hits := by
  let _ := Unicode.ofAscii
  refine ⟨rfl, rfl, ?_⟩
  rintro ⟨order, hperm, hordered, heq⟩
  obtain ⟨first, second, rfl⟩ := length_eq_two.mp hperm.length_eq
  have hfirst : first < 2 := mem_range.mp (hperm.mem_iff.mp (by simp))
  have hsecond : second < 2 := mem_range.mp (hperm.mem_iff.mp (by simp))
  have hne : first ≠ second := by simpa using hperm.nodup_iff.mpr nodup_range
  rcases (by omega : first = 0 ∧ second = 1 ∨ first = 1 ∧ second = 0) with ⟨rfl, rfl⟩ | ⟨rfl, rfl⟩
  · -- Only the second file has a score.
    rcases pairwise_pair.mp hordered with hlt | ⟨-, hscored | ⟨hequal, -⟩⟩
    · exact absurd hlt (by decide)
    · exact hscored
    · exact absurd hequal (by decide +kernel)
  · exact absurd heq (by decide)

end Trufflepig.Search
