import Trufflepig.Store.RegionForest

/-!
# Correctness of `partition_source`

For every source and every list of definitions, whatever their spans
(`partitionSource_spec`):

* the regions are non-empty, of at most `REGION_BYTES` bytes, and tile the
  source;
* in a valid UTF-8 source they start and end at character boundaries;
* every preferred span lies inside one region;
* a region's definition is the smallest valid definition span containing it,
  the lowest index winning among equals.

The loop keeps the invariant that the cursor cuts no preferred span
(`Uncut`), which `regionEnd_spec` re-establishes for the end of each region.
-/

namespace Trufflepig.Store

open List Lib Extract

/-! ## Boundaries of the source -/

/-- `is_utf8_boundary`, as a proposition. -/
def Boundary (source : Bytes) (offset : ℕ) : Prop := isUtf8Boundary source offset = true

theorem boundary_iff (source : Bytes) (offset : ℕ) :
    Boundary source offset ↔
      offset = 0 ∨ offset = source.length ∨ ¬ IsContinuation (source.getD offset 0) := by
  simp [Boundary, isUtf8Boundary, IsContinuation, or_assoc]

variable {source : Bytes} {offset : ℕ}

theorem Boundary.charBoundary (h : Boundary source offset) (hv : ValidUtf8 source)
    (hle : offset ≤ source.length) : CharBoundary source offset := by
  rcases (boundary_iff _ _).mp h with rfl | rfl | hn
  · exact charBoundary_zero hv
  · exact charBoundary_length hv
  · rcases Nat.eq_or_lt_of_le hle with rfl | hlt
    · exact charBoundary_length hv
    · exact charBoundary_of_not_isContinuation hv hlt hn

theorem boundary_of_charBoundary (h : CharBoundary source offset)
    (hle : offset ≤ source.length) : Boundary source offset := by
  rw [boundary_iff]
  rcases Nat.eq_or_lt_of_le hle with heq | hlt
  · exact Or.inr (Or.inl heq)
  · exact Or.inr (Or.inr (h.not_isContinuation hlt 0))

/-! ## `split_boundary` -/

variable {α : Type*} {i : ℕ}

theorem rposition_spec {p : α → Bool} {xs : List α}
    (h : rposition p xs = some i) : ∃ x, xs[i]? = some x ∧ p x = true := by
  induction xs generalizing i with
  | nil => simp [rposition] at h
  | cons x xs ih =>
    rw [rposition] at h
    cases hr : rposition p xs with
    | some j =>
      rw [hr] at h
      cases h
      simpa using ih hr
    | none =>
      rw [hr] at h
      dsimp only at h
      split_ifs at h with hp
      cases h
      exact ⟨x, rfl, hp⟩

/-- `retreat` finds the last boundary after `start`, or stops at `start`. -/
theorem retreat_spec (source : Bytes) (start : ℕ) : ∀ candidate, start ≤ candidate →
    start ≤ retreat source start candidate ∧ retreat source start candidate ≤ candidate ∧
      (retreat source start candidate = start ∨ Boundary source (retreat source start candidate)) ∧
      ∀ j, j ≤ candidate → Boundary source j → start < j → j ≤ retreat source start candidate := by
  intro candidate
  induction candidate with
  | zero => intro h; simp [retreat]; omega
  | succ candidate ih =>
    intro h
    rw [retreat]
    split_ifs with hc
    · simp only [gt_iff_lt, Bool.and_eq_true, decide_eq_true_eq, Bool.not_eq_true'] at hc
      obtain ⟨h1, h2, h3, h4⟩ := ih (by omega)
      refine ⟨h1, by omega, h3, fun j hj hb hlt => ?_⟩
      rcases Nat.eq_or_lt_of_le hj with rfl | hj
      · rw [Boundary, hc.2] at hb; cases hb
      · exact h4 j (by omega) hb hlt
    · refine ⟨h, le_rfl, ?_, fun j hj _ _ => hj⟩
      by_cases hs : start < candidate + 1
      · right
        simpa [Boundary, hs] using hc
      · left; omega

variable {start limit : ℕ}

/-- The newline that `split_boundary` finds, as an offset of the source. -/
theorem newline_spec (h : rposition (· == 10) ((source.drop start).take (limit - start)) = some i) :
    start + i < limit ∧ source.getD (start + i) 0 = 10 := by
  obtain ⟨x, hx, hp⟩ := rposition_spec h
  have hi : i < limit - start := by
    have := (List.getElem?_eq_some_iff.mp hx).1
    simp at this
    omega
  rw [getElem?_take_of_lt hi, getElem?_drop] at hx
  refine ⟨by omega, ?_⟩
  rw [getD_eq_getElem?_getD, hx]
  simpa using hp

/-- `split_boundary` stays between `start` and `limit`, and from a boundary it returns
a boundary. -/
theorem splitBoundary_spec (source : Bytes) (hs : start ≤ limit) :
    start ≤ splitBoundary source start limit ∧ splitBoundary source start limit ≤ limit ∧
      (Boundary source start → Boundary source (splitBoundary source start limit)) := by
  unfold splitBoundary
  dsimp only
  generalize hb : (Option.map _ _).getD limit = boundary
  have hbounds : start ≤ boundary ∧ boundary ≤ limit := by
    cases hr : rposition (· == 10) ((source.drop start).take (limit - start)) with
    | none => rw [hr] at hb; subst hb; exact ⟨hs, le_rfl⟩
    | some i =>
      have := newline_spec hr
      rw [hr] at hb
      simp only [Option.map_some, Option.getD_some] at hb
      omega
  split_ifs with hend
  · refine ⟨hbounds.1, hbounds.2, fun _ => ?_⟩
    simp only [Bool.or_eq_true, decide_eq_true_eq] at hend
    rcases hend with he | he
    · rw [boundary_iff]; exact Or.inr (Or.inl he)
    · exact he
  · obtain ⟨h1, h2, h3, -⟩ := retreat_spec source start boundary hbounds.1
    exact ⟨h1, by omega, fun hb => h3.elim (fun h => by rwa [h]) id⟩

/-- In valid UTF-8 `split_boundary` makes progress when the limit is the end of
the source or at least four bytes away. -/
theorem splitBoundary_progress (hv : ValidUtf8 source) (hs : start < limit)
    (hl : limit ≤ source.length) (hfar : limit = source.length ∨ start + 3 < limit) :
    start < splitBoundary source start limit := by
  unfold splitBoundary
  dsimp only
  cases hr : rposition (· == 10) ((source.drop start).take (limit - start)) with
  | some i =>
    -- the byte after a newline starts a character
    obtain ⟨hi, hten⟩ := newline_spec hr
    have hb : Boundary source (start + i + 1) :=
      boundary_of_charBoundary (charBoundary_succ_of_ascii hv (d := 0) (by omega)
        (by rw [hten]; decide)) (by omega)
    simp only [Option.map_some, Option.getD_some]
    rw [if_pos (by rw [show isUtf8Boundary source (start + i + 1) = true from hb]; simp)]
    omega
  | none =>
    simp only [Option.map_none, Option.getD_none]
    split_ifs with hend
    · exact hs
    · simp only [Bool.or_eq_true, decide_eq_true_eq, not_or] at hend
      obtain ⟨j, hj1, hj2, hj⟩ := exists_charBoundary_near hv hl
      have hstart : start < j := by omega
      have := (retreat_spec source start limit hs.le).2.2.2 j hj1
        (boundary_of_charBoundary hj (by omega)) hstart
      omega

/-! ## Closing one region -/

/-- The offset `e` does not lie strictly inside a span of `spans`. -/
def Uncut (spans : List RegionSpan) (e : ℕ) : Prop := ∀ span ∈ spans, span.stop ≤ e ∨ e ≤ span.start

/-- What the partition loop knows of each preferred span. -/
structure PreferredOk (source : Bytes) (span : RegionSpan) : Prop where
  lt : span.start < span.stop
  small : span.stop - span.start ≤ regionBytes
  start_boundary : Boundary source span.start
  stop_boundary : Boundary source span.stop

/-- What the scan of the preferred spans leaves: an end between `stop` and
`limit` that cuts none of them. If the scan ran to the end of the list, all
of them end before it; if the end has not moved, none starts below
`limit`. -/
structure ScanOk (source : Bytes) (cursor limit : ℕ) (spans : List RegionSpan) (stop : ℕ)
    (scan : ℕ × List RegionSpan) : Prop where
  le_stop : stop ≤ scan.1
  le_limit : scan.1 ≤ limit
  uncut : Uncut spans scan.1
  exhausted : scan.2 = [] → ∀ span ∈ spans, span.stop ≤ scan.1
  unmoved : scan.1 = cursor → ∀ span ∈ spans, limit ≤ span.start
  boundary : Boundary source stop → Boundary source scan.1

variable {cursor : ℕ}

theorem scanPreferred_ok (hlimit : limit = min (cursor + regionBytes) source.length) :
    ∀ (spans : List RegionSpan) {stop : ℕ}, SpacedSpans stop spans source.length →
      (∀ span ∈ spans, PreferredOk source span) → cursor ≤ stop → stop < limit →
      ScanOk source cursor limit spans stop (scanPreferred source cursor limit spans stop) := by
  intro spans
  induction spans with
  | nil =>
    intro stop _ _ _ hstop
    exact ⟨le_rfl, hstop.le, by simp [Uncut], by simp, by simp, id⟩
  | cons span rest ih =>
    intro stop hspaced hok hcur hstop
    have hspan := hok span mem_cons_self
    obtain ⟨hlt, hsmall, hbstart, hbstop⟩ := hspan
    have hbounds := hspaced.mem_bounds span mem_cons_self
    have hafter : ∀ other ∈ rest, span.stop ≤ other.start :=
      (pairwise_cons.mp hspaced.pairwise).1
    have hrest : SpacedSpans span.stop rest source.length := by cases hspaced; assumption
    rw [scanPreferred, if_neg (by omega)]
    split_ifs with hfar hlong hfull
    · -- the next preferred span starts at or beyond the limit
      obtain ⟨h1, h2, h3⟩ := splitBoundary_spec source hstop.le
      have hall : ∀ other ∈ span :: rest, limit ≤ other.start :=
        forall_mem_cons.mpr ⟨hfar, fun other hother => by have := hafter other hother; omega⟩
      exact ⟨h1, h2, fun other hother => Or.inr (le_trans h2 (hall other hother)), by simp,
        fun _ => hall, h3⟩
    · -- it does not fit: close the region before it
      refine ⟨hbounds.1, by omega, ?_, by simp, ?_, fun _ => hbstart⟩
      · exact forall_mem_cons.mpr ⟨Or.inr le_rfl, fun other hother =>
          Or.inr (hlt.le.trans (hafter other hother))⟩
      · intro hmoved
        dsimp only at hmoved
        omega
    · -- it fills the region
      refine ⟨by dsimp only; omega, by dsimp only; omega, ?_, ?_, ?_, fun _ => hbstop⟩
      · exact forall_mem_cons.mpr ⟨Or.inl le_rfl, fun other hother => Or.inr (hafter other hother)⟩
      · intro hnil other hother
        dsimp only at hnil
        subst hnil
        rw [mem_singleton.mp hother]
      · intro hmoved
        dsimp only at hmoved
        omega
    · obtain ⟨h1, h2, h3, h4, h5, h6⟩ := ih hrest
        (fun other hother => hok other (mem_cons_of_mem _ hother)) (by omega) (by omega)
      refine ⟨by omega, h2, ?_, ?_, fun hmoved => by omega, fun _ => h6 hbstop⟩
      · exact forall_mem_cons.mpr ⟨Or.inl h1, h3⟩
      · exact fun hnil => forall_mem_cons.mpr ⟨h1, h4 hnil⟩

variable {spans : List RegionSpan}

/-- The proposed end cuts no preferred span; it fails to advance only where no
preferred span starts below the limit and, in valid UTF-8, never. -/
theorem proposedEnd_spec
    (hlimit : limit = min (cursor + regionBytes) source.length) (hcur : cursor < source.length)
    (hspaced : SpacedSpans cursor spans source.length)
    (hok : ∀ span ∈ spans, PreferredOk source span) :
    cursor ≤ proposedEnd source spans cursor limit ∧
      proposedEnd source spans cursor limit ≤ limit ∧
      Uncut spans (proposedEnd source spans cursor limit) ∧
      (proposedEnd source spans cursor limit = cursor →
        (∀ span ∈ spans, limit ≤ span.start) ∧ ¬ ValidUtf8 source) ∧
      (Boundary source cursor → Boundary source (proposedEnd source spans cursor limit)) := by
  have hreg : regionBytes = 4096 := rfl
  have hlt : cursor < limit := by omega
  have hlen : limit ≤ source.length := by omega
  have hfar : limit = source.length ∨ cursor + 3 < limit := by omega
  obtain ⟨h1, h2, h3, h4, h5, h6⟩ := scanPreferred_ok hlimit spans hspaced hok le_rfl hlt
  unfold proposedEnd
  dsimp only
  generalize scanPreferred source cursor limit spans cursor = scan at *
  split_ifs with hunmoved hgap
  · -- no preferred span starts below the limit: split anywhere up to it
    obtain ⟨hs1, hs2, hs3⟩ := splitBoundary_spec source hlt.le
    have hall := h5 hunmoved
    refine ⟨hs1, hs2, fun span hspan => Or.inr (le_trans hs2 (hall span hspan)), ?_, hs3⟩
    intro hstuck
    refine ⟨hall, fun hv => ?_⟩
    have := splitBoundary_progress hv hlt hlen hfar
    omega
  · -- every preferred span is behind the end: extend it towards the limit
    simp only [Bool.and_eq_true, decide_eq_true_eq, List.isEmpty_iff] at hgap
    obtain ⟨hs1, hs2, hs3⟩ := splitBoundary_spec source hgap.1.le
    refine ⟨by omega, hs2, fun span hspan => Or.inl ?_, fun hstuck => by omega, hs3 ∘ h6⟩
    have := h4 hgap.2 span hspan
    omega
  · exact ⟨h1, h2, h3, fun hstuck => absurd hstuck hunmoved, h6⟩

/-- One iteration of the loop: the region ends within `REGION_BYTES` bytes and
cuts no preferred span. -/
theorem regionEnd_spec (hcur : cursor < source.length)
    (hspaced : SpacedSpans cursor spans source.length)
    (hok : ∀ span ∈ spans, PreferredOk source span) :
    regionEnd source spans cursor ≤ cursor + regionBytes ∧
      Uncut spans (regionEnd source spans cursor) ∧
      (ValidUtf8 source → Boundary source cursor →
        Boundary source (regionEnd source spans cursor)) := by
  have hreg : regionBytes = 4096 := rfl
  unfold regionEnd
  dsimp only
  generalize hlimit : min (cursor + regionBytes) source.length = limit
  obtain ⟨h1, h2, h3, h4, h5⟩ := proposedEnd_spec hlimit.symm hcur hspaced hok
  generalize proposedEnd source spans cursor limit = stop at *
  split_ifs with hguard
  · simp only [gt_iff_lt, Bool.or_eq_true, decide_eq_true_eq] at hguard
    obtain ⟨hall, hinvalid⟩ := h4 (by omega)
    rw [show min (max limit (cursor + 1)) source.length = limit by omega]
    exact ⟨by omega, fun span hspan => Or.inr (hall span hspan), fun hv => absurd hv hinvalid⟩
  · exact ⟨by omega, h3, fun _ => h5⟩

/-! ## The loop -/

/-- What holds of every region that the loop emits from `cursor` on. -/
structure RegionOk (source : Bytes) (spans : List DefinitionSpan) (preferred : List RegionSpan)
    (cursor : ℕ) (region : RegionSpan) : Prop where
  lt : region.start < region.stop
  small : region.stop - region.start ≤ regionBytes
  uncut : Uncut preferred region.stop
  owner : region.definition = containingDefinition region.start region.stop spans
  boundary : ValidUtf8 source → Boundary source cursor →
    Boundary source region.start ∧ Boundary source region.stop

/-- Spans that the index has passed end at or before the cursor, so later
offsets do not cut them. -/
theorem Uncut.of_skipPassed {preferred : List RegionSpan} {e : ℕ} (he : cursor ≤ e)
    (h : Uncut (skipPassed preferred cursor) e) : Uncut preferred e := by
  intro span hspan
  rw [← takeWhile_append_dropWhile (p := fun s : RegionSpan => s.stop ≤ cursor)
    (l := preferred)] at hspan
  rcases mem_append.mp hspan with hs | hs
  · have := mem_takeWhile_imp hs
    simp only [decide_eq_true_eq] at this
    exact Or.inl (by omega)
  · exact h span hs

theorem partitionLoop_spec (source : Bytes) (spans : List DefinitionSpan) :
    ∀ (preferred : List RegionSpan) (cursor : ℕ) {a : ℕ}, cursor ≤ source.length →
      SpacedSpans a preferred source.length → (∀ span ∈ preferred, PreferredOk source span) →
      Uncut preferred cursor →
      Tiles RegionSpan.start RegionSpan.stop cursor
          (partitionLoop source spans preferred cursor) source.length ∧
        ∀ region ∈ partitionLoop source spans preferred cursor,
          RegionOk source spans preferred cursor region := by
  intro preferred cursor
  induction preferred, cursor using partitionLoop.induct source with
  | case1 preferred cursor hcur ih =>
    intro a _ hspaced hok huncut
    have hremaining : SpacedSpans cursor (skipPassed preferred cursor) source.length :=
      hspaced.dropWhile hcur.le huncut
    have hokr : ∀ span ∈ skipPassed preferred cursor, PreferredOk source span :=
      fun span hspan => hok span ((dropWhile_sublist _).subset hspan)
    obtain ⟨hsize, hcut, hbound⟩ := regionEnd_spec hcur hremaining hokr
    obtain ⟨hgt, hle⟩ := regionEnd_progress source (skipPassed preferred cursor) hcur
    obtain ⟨htiles, hregions⟩ := ih hle hremaining hokr hcut
    rw [partitionLoop, dif_pos hcur]
    refine ⟨.cons rfl hgt.le htiles, ?_⟩
    intro region hregion
    rcases mem_cons.mp hregion with rfl | hregion
    · exact ⟨hgt, by dsimp only; omega, hcut.of_skipPassed hgt.le, rfl,
        fun hv hb => ⟨hb, hbound hv hb⟩⟩
    · obtain ⟨r1, r2, r3, r4, r5⟩ := hregions region hregion
      have hstart := (htiles.mem_bounds region hregion).1
      exact ⟨r1, r2, r3.of_skipPassed (by omega), r4, fun hv hb => r5 hv (hbound hv hb)⟩
  | case2 preferred cursor hcur =>
    intro a hle _ _ _
    rw [partitionLoop, dif_neg hcur]
    obtain rfl : cursor = source.length := by omega
    exact ⟨.nil _, by simp⟩

/-! ## Valid definition spans -/

theorem spanOrder_trans (a b c : DefinitionSpan) (hab : spanOrder a b = true)
    (hbc : spanOrder b c = true) : spanOrder a c = true := by
  simp only [spanOrder, Bool.or_eq_true, decide_eq_true_eq, Bool.and_eq_true] at *
  omega

theorem spanOrder_total (a b : DefinitionSpan) : (spanOrder a b || spanOrder b a) = true := by
  simp only [spanOrder, Bool.or_eq_true, decide_eq_true_eq, Bool.and_eq_true]
  omega

variable {definitions : List Definition} {span : DefinitionSpan}

/-- The spans before sorting (in `valid_definition_spans`). -/
theorem mem_filtered :
    span ∈ (definitions.zipIdx.filterMap fun (value, definition) =>
        if validSpan source value then some ⟨definition, value.start, value.stop⟩ else none) ↔
      ∃ d, definitions[span.definition]? = some d ∧ validSpan source d = true ∧
        span.start = d.start ∧ span.stop = d.stop := by
  rw [mem_filterMap]
  constructor
  · rintro ⟨⟨d, i⟩, hmem, hsome⟩
    dsimp only at hsome
    split_ifs at hsome with hv
    cases hsome
    exact ⟨d, mem_zipIdx_iff_getElem?.mp hmem, hv, rfl, rfl⟩
  · rintro ⟨d, hd, hv, hstart, hstop⟩
    refine ⟨(d, span.definition), mem_zipIdx_iff_getElem?.mpr hd, ?_⟩
    dsimp only
    rw [if_pos hv, ← hstart, ← hstop]

/-- The first span of each run of equal keys survives `dedup_by_key`. -/
theorem exists_mem_destutter' {R : α → α → Prop} [DecidableRel R]
    {le : α → α → Bool} (hrefl : ∀ a, le a a = true) :
    ∀ (xs : List α) (a : α), (a :: xs).Pairwise (fun x y => le x y = true) →
      ∀ x ∈ a :: xs, ∃ y ∈ xs.destutter' R a, (y = x ∨ ¬ R y x) ∧ le y x = true := by
  intro xs
  induction xs with
  | nil =>
    intro a _ x hx
    rw [mem_singleton.mp hx]
    exact ⟨a, by simp, Or.inl rfl, hrefl a⟩
  | cons b xs ih =>
    intro a hsort x hx
    obtain ⟨ha, hrest⟩ := pairwise_cons.mp hsort
    have hmem := mem_destutter' (R := R) (b :: xs) a
    rcases mem_cons.mp hx with rfl | hx
    · exact ⟨x, hmem, Or.inl rfl, hrefl x⟩
    by_cases hab : R a b
    · rw [destutter'_cons_pos _ hab]
      obtain ⟨y, hy, h1, h2⟩ := ih b hrest x hx
      exact ⟨y, mem_cons_of_mem _ hy, h1, h2⟩
    · rw [destutter'_cons_neg _ hab] at hmem ⊢
      rcases mem_cons.mp hx with rfl | hx'
      · exact ⟨a, hmem, Or.inr hab, ha x mem_cons_self⟩
      · have hskip : (a :: xs).Pairwise (fun x y => le x y = true) :=
          .cons (fun y hy => ha y (mem_cons_of_mem _ hy)) (pairwise_cons.mp hrest).2
        exact ih a hskip x (mem_cons_of_mem _ hx')

theorem validDefinitionSpans_sorted (source : Bytes) (definitions : List Definition) :
    (validDefinitionSpans source definitions).Pairwise (fun a b => a.start ≤ b.start) := by
  unfold validDefinitionSpans
  refine List.Pairwise.sublist (destutter_sublist _ _) ?_
  refine (pairwise_mergeSort spanOrder_trans spanOrder_total _).imp ?_
  intro a b hab
  simp only [spanOrder, Bool.or_eq_true, decide_eq_true_eq, Bool.and_eq_true] at hab
  omega

theorem mem_validDefinitionSpans (h : span ∈ validDefinitionSpans source definitions) :
    ∃ d, definitions[span.definition]? = some d ∧ validSpan source d = true ∧
      span.start = d.start ∧ span.stop = d.stop :=
  mem_filtered.mp (mem_mergeSort.mp ((destutter_sublist _ _).subset h))

variable {d : Definition}

/-- Every valid definition is represented by a span with the same ends and no
higher index. -/
theorem exists_validDefinitionSpan (hd : definitions[i]? = some d)
    (hv : validSpan source d = true) :
    ∃ span ∈ validDefinitionSpans source definitions,
      span.start = d.start ∧ span.stop = d.stop ∧ span.definition ≤ i := by
  unfold validDefinitionSpans
  dsimp only
  have hfound : (⟨i, d.start, d.stop⟩ : DefinitionSpan) ∈ _ :=
    mem_filtered.mpr ⟨d, hd, hv, rfl, rfl⟩
  have hmem := (mergeSort_perm _ spanOrder).mem_iff.mpr hfound
  have hsort := pairwise_mergeSort spanOrder_trans spanOrder_total
    (definitions.zipIdx.filterMap fun (value, definition) =>
      if validSpan source value then some (⟨definition, value.start, value.stop⟩ : DefinitionSpan)
      else none)
  generalize List.mergeSort _ spanOrder = sorted at hmem hsort ⊢
  cases sorted with
  | nil => simp at hmem
  | cons a sorted =>
    obtain ⟨y, hy, h1, h2⟩ := exists_mem_destutter'
      (R := fun a b : DefinitionSpan => (a.start, a.stop) ≠ (b.start, b.stop))
      (by intro a; simp [spanOrder]) sorted a hsort _ hmem
    refine ⟨y, hy, ?_⟩
    simp only [spanOrder, Bool.or_eq_true, decide_eq_true_eq, Bool.and_eq_true] at h2
    rcases h1 with rfl | h1
    · exact ⟨rfl, rfl, le_rfl⟩
    · simp only [ne_eq, Prod.mk.injEq, not_not] at h1
      omega

/-- What `validSpan` checks. -/
theorem validSpan_iff :
    validSpan source d = true ↔ d.start < d.stop ∧ d.stop ≤ source.length ∧
      Boundary source d.start ∧ Boundary source d.stop := by
  simp [validSpan, Boundary, and_assoc]

/-! ## Ownership -/

/-- Definition `i` is valid in the source and contains `[start, stop)`. -/
def Contains (source : Bytes) (definitions : List Definition) (start stop i : ℕ) (d : Definition) :
    Prop :=
  definitions[i]? = some d ∧ validSpan source d = true ∧ d.start ≤ start ∧ stop ≤ d.stop

/-- `owner` is the smallest valid definition containing `[start, stop)`, the
lowest index winning among equals; it is `none` if there is none. -/
def IsOwner (source : Bytes) (definitions : List Definition) (start stop : ℕ) :
    Option ℕ → Prop
  | none => ∀ i d, ¬ Contains source definitions start stop i d
  | some i => ∃ d, Contains source definitions start stop i d ∧
      ∀ j d', Contains source definitions start stop j d' →
        d.stop - d.start < d'.stop - d'.start ∨ (d.stop - d.start = d'.stop - d'.start ∧ i ≤ j)

theorem containingDefinition_owner (source : Bytes) (definitions : List Definition)
    (start stop : ℕ) :
    IsOwner source definitions start stop
      (containingDefinition start stop (validDefinitionSpans source definitions)) := by
  have hrep : ∀ j d', Contains source definitions start stop j d' →
      ∃ span ∈ (validDefinitionSpans source definitions).filter
          (fun span => span.start ≤ start && stop ≤ span.stop),
        span.start = d'.start ∧ span.stop = d'.stop ∧ span.definition ≤ j := by
    rintro j d' ⟨hj, hv, hs, he⟩
    obtain ⟨span, hspan, h1, h2, h3⟩ := exists_validDefinitionSpan hj hv
    exact ⟨span, mem_filter.mpr ⟨hspan, by simp [h1, h2, hs, he]⟩, h1, h2, h3⟩
  unfold containingDefinition
  cases hmin : List.argmin (fun span : DefinitionSpan => toLex (span.stop - span.start, span.definition))
      ((validDefinitionSpans source definitions).filter
        (fun span => span.start ≤ start && stop ≤ span.stop)) with
  | none =>
    intro j d' hc
    obtain ⟨span, hspan, -⟩ := hrep j d' hc
    rw [argmin_eq_none.mp hmin] at hspan
    cases hspan
  | some m =>
    have hm := mem_filter.mp (argmin_mem hmin)
    obtain ⟨d, hd, hv, h1, h2⟩ := mem_validDefinitionSpans hm.1
    have hin : m.start ≤ start ∧ stop ≤ m.stop := by simpa using hm.2
    refine ⟨d, ⟨hd, hv, by omega, by omega⟩, ?_⟩
    intro j d' hc
    obtain ⟨span, hspan, h3, h4, h5⟩ := hrep j d' hc
    have hle := le_of_mem_argmin hspan hmin
    rw [Prod.Lex.toLex_le_toLex] at hle
    dsimp only at hle ⊢
    omega

/-! ## The theorem -/

/-- The preferred spans of a source are disjoint, non-empty, small and end at
boundaries; they are the outermost small nodes of its forest. -/
theorem preferredSpans_spec (source : Bytes) (definitions : List Definition) :
    SpacedSpans 0 (preferredSpans (validDefinitionSpans source definitions)) source.length ∧
      (∀ region ∈ preferredSpans (validDefinitionSpans source definitions),
        PreferredOk source region) ∧
      ∀ span, Preferred source definitions span →
        preferredRegion span ∈ preferredSpans (validDefinitionSpans source definitions) := by
  let P : DefinitionSpan → Prop := fun span => span.start < span.stop ∧ span.stop ≤ source.length ∧
    Boundary source span.start ∧ Boundary source span.stop
  have hP : ∀ span ∈ validDefinitionSpans source definitions, P span ∧ span.start < span.stop := by
    intro span hspan
    obtain ⟨d, -, hv, h1, h2⟩ := mem_validDefinitionSpans hspan
    have hd := validSpan_iff.mp hv
    rw [← h1, ← h2] at hd
    exact ⟨hd, hd.1⟩
  obtain ⟨hroots, hnested⟩ := definitionForest_spaced (n := source.length)
    (validDefinitionSpans_sorted source definitions) hP (fun span h => h.2.1)
  have hcollect : SpacedSpans 0
      (collectPreferredList (definitionForest (validDefinitionSpans source definitions)))
      source.length := by
    rw [collectPreferredList_eq]
    exact hroots.flatMap fun root hroot => (hnested root hroot).collect.1
  have hmem : ∀ region ∈
      collectPreferredList (definitionForest (validDefinitionSpans source definitions)),
      PreferredOk source region := by
    intro region hregion
    rw [collectPreferredList_eq] at hregion
    obtain ⟨root, hroot, hr⟩ := mem_flatMap.mp hregion
    obtain ⟨span, hout, hspan, hlt, rfl⟩ := (hnested root hroot).collect.2 region hr
    exact ⟨hlt, hout.small, hspan.2.2.1, hspan.2.2.2⟩
  -- the collected spans are ascending, so the sort leaves them as they are
  have hsorted : preferredSpans (validDefinitionSpans source definitions) =
      collectPreferredList (definitionForest (validDefinitionSpans source definitions)) := by
    refine mergeSort_of_pairwise (hcollect.pairwise.imp_of_mem ?_)
    intro a b ha _ hab
    have := (hmem a ha).lt
    simp only [regionOrder, Bool.or_eq_true, decide_eq_true_eq, Bool.and_eq_true]
    omega
  rw [hsorted]
  refine ⟨hcollect, hmem, ?_⟩
  rintro span ⟨root, hroot, hout⟩
  rw [collectPreferredList_eq]
  exact mem_flatMap.mpr ⟨root, hroot, hout.mem_collect⟩

/-- **`partition_source` is correct** for every source and every list of
definitions. The regions are non-empty, have at most `REGION_BYTES` bytes
and tile the source; in valid UTF-8 they end at character boundaries; every
preferred span lies inside one region; and a region is owned by the
smallest valid definition containing it. -/
theorem partitionSource_spec (source : Bytes) (definitions : List Definition) :
    Tiles RegionSpan.start RegionSpan.stop 0 (partitionSource source definitions) source.length ∧
      (∀ region ∈ partitionSource source definitions,
        region.start < region.stop ∧ region.stop - region.start ≤ 4096) ∧
      (ValidUtf8 source → ∀ region ∈ partitionSource source definitions,
        CharBoundary source region.start ∧ CharBoundary source region.stop) ∧
      (∀ span, Preferred source definitions span → ∃ region ∈ partitionSource source definitions,
        region.start ≤ span.start ∧ span.stop ≤ region.stop) ∧
      ∀ region ∈ partitionSource source definitions,
        IsOwner source definitions region.start region.stop region.definition := by
  obtain ⟨hspaced, hok, hpreferred⟩ := preferredSpans_spec source definitions
  obtain ⟨htiles, hregions⟩ := partitionLoop_spec source (validDefinitionSpans source definitions)
    (preferredSpans (validDefinitionSpans source definitions)) 0 (Nat.zero_le _) hspaced hok
    (fun span _ => Or.inr (Nat.zero_le _))
  have hloop : partitionSource source definitions =
      partitionLoop source (validDefinitionSpans source definitions)
        (preferredSpans (validDefinitionSpans source definitions)) 0 := by
    unfold partitionSource
    dsimp only
    split_ifs with hempty
    · rw [partitionLoop, dif_neg (by simp [List.isEmpty_iff.mp hempty])]
    · rfl
  rw [hloop]
  refine ⟨htiles, fun region hregion => ⟨(hregions region hregion).lt, (hregions region hregion).small⟩,
    fun hv region hregion => ?_, fun span hspan => ?_, fun region hregion => ?_⟩
  · have hb := (hregions region hregion).boundary hv ((boundary_iff _ _).mpr (Or.inl rfl))
    have hle := htiles.mem_bounds region hregion
    exact ⟨hb.1.charBoundary hv (by omega), hb.2.charBoundary hv (by omega)⟩
  · have hmem := hpreferred span hspan
    have hbounds := hspaced.mem_bounds _ hmem
    exact htiles.exists_contains (hok _ hmem).lt (Nat.zero_le _) hbounds.2.2
      fun region hregion => ((hregions region hregion).uncut _ hmem).symm
  · rw [(hregions region hregion).owner]
    exact containingDefinition_owner source definitions region.start region.stop

end Trufflepig.Store
