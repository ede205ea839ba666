import Trufflepig.History.Lines
import Trufflepig.Lib.Tiling

/-!
# What a source diff says

* `diffSources_ok`: the changes and the unchanged runs tile both sources in
  order; replacing every change in the source before gives the source after; the
  line map is strictly increasing, is defined exactly outside the changes, and
  maps a line to an identical one.
-/

namespace Trufflepig.History

open List Lib

/-! ## Hunks of tokens -/

/-- Equal numbers mean equal tokens, so hunks that are valid for the numbers are
valid for the tokens. -/
theorem validHunks_of_map {τ : Type} {f : τ → ℕ} {before after : List τ}
    (hf : Set.InjOn f {t | t ∈ before ∨ t ∈ after}) {hunks : List Hunk} {b a : ℕ}
    (h : ValidHunks (before.map f) (after.map f) hunks b a) :
    ValidHunks before after hunks b a := by
  have hinj : ∀ xs ys : List τ, xs ⊆ before → ys ⊆ after → xs.map f = ys.map f → xs = ys := by
    intro xs
    induction xs with
    | nil => intro ys _ _ heq; exact (map_eq_nil_iff.mp heq.symm).symm
    | cons x xs ih =>
      intro ys hxs hys heq
      cases ys with
      | nil => cases heq
      | cons y ys =>
        obtain ⟨hx, hxs'⟩ := cons_subset.mp hxs
        obtain ⟨hy, hys'⟩ := cons_subset.mp hys
        obtain ⟨hhead, htail⟩ := List.cons.inj heq
        rw [hf (Or.inl hx) (Or.inr hy) hhead, ih ys hxs' hys' htail]
  induction hunks generalizing b a with
  | nil =>
    obtain ⟨heq, hb, ha⟩ := h
    rw [← map_drop, ← map_drop] at heq
    rw [length_map] at hb ha
    exact ⟨hinj _ _ (drop_subset _ _) (drop_subset _ _) heq, hb, ha⟩
  | cons hunk hunks ih =>
    obtain ⟨hb, ha, heq, hb', ha', hlen, hlen', hrest⟩ := h
    rw [length_map] at hlen hlen'
    refine ⟨hb, ha, ?_, hb', ha', hlen, hlen', ih hrest⟩
    apply hinj
    · exact fun x hx => drop_subset _ _ (take_subset _ _ hx)
    · exact fun x hx => drop_subset _ _ (take_subset _ _ hx)
    · simpa only [slice, map_take, map_drop] using heq

/-- The numbers of both sides are the indexes in one table. -/
theorem internedInput_eq {τ : Type} [DecidableEq τ] (before after : List τ) :
    ∃ table : List τ, before ⊆ table ∧ after ⊆ table ∧
      InternedInput.new before after = ⟨before.map table.idxOf, after.map table.idxOf⟩ := by
  obtain ⟨-, hsub, hids⟩ := internTokens_eq [] before
  obtain ⟨hextends, hsub', hids'⟩ := internTokens_eq (internTokens [] before).1 after
  refine ⟨_, fun t ht => hextends.subset (hsub ht), hsub', ?_⟩
  rw [InternedInput.new, hids, hids', InternedInput.mk.injEq]
  refine ⟨map_congr_left fun t ht => ?_, rfl⟩
  exact hextends.idxOf_eq_of_mem (hsub ht)

theorem validHunks_tokens {τ : Type} [DecidableEq τ] (library : DiffLibrary)
    (before after : List τ) :
    ValidHunks before after (library.hunks (InternedInput.new before after)) 0 0 := by
  obtain ⟨table, hsub, hsub', heq⟩ := internedInput_eq before after
  have hvalid := library.valid (InternedInput.new before after)
  rw [heq] at hvalid ⊢
  apply validHunks_of_map _ hvalid
  apply (idxOf_injOn table).mono
  rintro t (ht | ht)
  · exact hsub ht
  · exact hsub' ht

/-! ## Changes and runs in order -/

/-- A change or a run of unchanged lines. -/
inductive Segment where
  | change (change : SourceChange)
  | run (run : LineCorrespondence)

/-- The lines of a segment before. -/
def Segment.before : Segment → LineRange
  | change c => c.beforeLines
  | run r => r.before

/-- The lines of a segment after. -/
def Segment.after : Segment → LineRange
  | change c => c.afterLines
  | run r => r.after

/-- The change that a segment is. -/
def Segment.change? : Segment → Option SourceChange
  | change c => some c
  | run _ => none

/-- The run that a segment is. -/
def Segment.run? : Segment → Option LineCorrespondence
  | change _ => none
  | run r => some r

section Segments

variable (input : InternedInput) (beforeOffsets afterOffsets : List ℕ)

/-- The segments in the order in which `diff_interned` finds them. -/
def segments : List Hunk → ℕ → ℕ → List Segment
  | [], b, a => (unchangedRun b input.before.length a input.after.length).map .run
  | hunk :: hunks, b, a =>
    (unchangedRun b hunk.before.start a hunk.after.start).map .run
      ++ .change (hunkChange beforeOffsets afterOffsets hunk)
        :: segments hunks hunk.before.stop hunk.after.stop

theorem filterMap_change_runs (runs : List LineCorrespondence) :
    (runs.map Segment.run).filterMap Segment.change? = [] := by
  simp [filterMap_map, Function.comp_def, Segment.change?]

theorem filterMap_run_runs (runs : List LineCorrespondence) :
    (runs.map Segment.run).filterMap Segment.run? = runs := by
  simp [filterMap_map, Function.comp_def, Segment.run?]

theorem segments_parts (hunks : List Hunk) (b a : ℕ) :
    (segments input beforeOffsets afterOffsets hunks b a).filterMap Segment.change? =
        (diffLoop input beforeOffsets afterOffsets hunks b a).changes ∧
      (segments input beforeOffsets afterOffsets hunks b a).filterMap Segment.run? =
        (diffLoop input beforeOffsets afterOffsets hunks b a).unchangedLines := by
  induction hunks generalizing b a with
  | nil => exact ⟨filterMap_change_runs _, filterMap_run_runs _⟩
  | cons hunk hunks ih =>
    obtain ⟨hchanges, hruns⟩ := ih hunk.before.stop hunk.after.stop
    constructor
    · simp only [segments, filterMap_append, filterMap_change_runs, filterMap_cons,
        Segment.change?, hchanges, nil_append, diffLoop]
    · simp only [segments, filterMap_append, filterMap_run_runs, filterMap_cons,
        Segment.run?, hruns, diffLoop]

end Segments

section Valid

variable {τ : Type} {before after : List τ} {hunks : List Hunk} {b a : ℕ}

/-- Equal parts of both token lists have equal lengths. -/
theorem ValidHunks.gap_length {hunk : Hunk} (h : ValidHunks before after (hunk :: hunks) b a) :
    hunk.before.start - b = hunk.after.start - a := by
  obtain ⟨-, -, heq, hb, ha, hlen, hlen', -⟩ := h
  have := congrArg List.length heq
  rwa [length_slice _ (by omega), length_slice _ (by omega)] at this

theorem ValidHunks.rest_length (h : ValidHunks before after [] b a) :
    before.length - b = after.length - a := by
  simpa using congrArg List.length h.1

theorem unchangedRun_tiles {s t : ℕ} (hb : b ≤ s) (ha : a ≤ t) (hlen : s - b = t - a) :
    Tiles (fun g : Segment => g.before.start) (fun g => g.before.stop) b
        ((unchangedRun b s a t).map .run) s ∧
      Tiles (fun g : Segment => g.after.start) (fun g => g.after.stop) a
        ((unchangedRun b s a t).map .run) t := by
  unfold unchangedRun
  split_ifs with h
  · exact ⟨.cons rfl hb (.nil s), .cons rfl ha (.nil t)⟩
  · obtain rfl : b = s := by omega
    obtain rfl : a = t := by omega
    exact ⟨.nil b, .nil a⟩

variable {input : InternedInput} (beforeOffsets afterOffsets : List ℕ)

/-- The segments are consecutive on both sides. -/
theorem segments_tile (hbefore : input.before.length = before.length)
    (hafter : input.after.length = after.length) (h : ValidHunks before after hunks b a) :
    Tiles (fun g : Segment => g.before.start) (fun g => g.before.stop) b
        (segments input beforeOffsets afterOffsets hunks b a) before.length ∧
      Tiles (fun g : Segment => g.after.start) (fun g => g.after.stop) a
        (segments input beforeOffsets afterOffsets hunks b a) after.length := by
  induction hunks generalizing b a with
  | nil =>
    rw [segments, hbefore, hafter]
    exact unchangedRun_tiles h.2.1 h.2.2 h.rest_length
  | cons hunk hunks ih =>
    have hgap := h.gap_length
    obtain ⟨hb, ha, -, hb', ha', -, -, hrest⟩ := h
    obtain ⟨hrun, hrun'⟩ := unchangedRun_tiles hb ha hgap
    obtain ⟨htail, htail'⟩ := ih hrest
    exact ⟨hrun.append (.cons rfl hb' htail), hrun'.append (.cons rfl ha' htail')⟩

/-- A run of unchanged lines: not empty, and the same tokens on both sides. -/
structure RunOk (before after : List τ) (run : LineCorrespondence) : Prop where
  nonempty : run.before.start < run.before.stop
  length : run.before.stop - run.before.start = run.after.stop - run.after.start
  before_le : run.before.stop ≤ before.length
  after_le : run.after.stop ≤ after.length
  tokens : slice before run.before.start run.before.stop =
    slice after run.after.start run.after.stop

theorem runOk_unchangedRun {s t : ℕ} {run : LineCorrespondence}
    (hrun : run ∈ unchangedRun b s a t) (hs : s ≤ before.length) (ht : t ≤ after.length)
    (heq : slice before b s = slice after a t) : RunOk before after run := by
  unfold unchangedRun at hrun
  split_ifs at hrun with h
  · obtain rfl := mem_singleton.mp hrun
    have hlen := congrArg List.length heq
    rw [length_slice _ hs, length_slice _ ht] at hlen
    exact ⟨h, hlen, hs, ht, heq⟩
  · simp at hrun

theorem runOk_diffLoop (hbefore : input.before.length = before.length)
    (hafter : input.after.length = after.length) (h : ValidHunks before after hunks b a) :
    ∀ run ∈ (diffLoop input beforeOffsets afterOffsets hunks b a).unchangedLines,
      RunOk before after run := by
  induction hunks generalizing b a with
  | nil =>
    intro run hrun
    rw [diffLoop, hbefore, hafter] at hrun
    apply runOk_unchangedRun hrun le_rfl le_rfl
    rw [slice, slice, take_of_length_le (by simp), take_of_length_le (by simp)]
    exact h.1
  | cons hunk hunks ih =>
    obtain ⟨-, -, heq, hb', ha', hlen, hlen', hrest⟩ := h
    exact forall_mem_append.mpr
      ⟨fun run hrun => runOk_unchangedRun hrun (by omega) (by omega) heq, ih hrest⟩

end Valid

/-! ## The line map -/

/-- A list of segments that tiles both sides with the parts of a diff. -/
structure TiledBy (diff : SourceDiff) (beforeCount afterCount : ℕ) (gs : List Segment) : Prop where
  changes : gs.filterMap Segment.change? = diff.changes
  runs : gs.filterMap Segment.run? = diff.unchangedLines
  before : Tiles (fun g : Segment => g.before.start) (fun g => g.before.stop) 0 gs beforeCount
  after : Tiles (fun g : Segment => g.after.start) (fun g => g.after.stop) 0 gs afterCount

section Tiled

variable {diff : SourceDiff} {n m : ℕ} {gs : List Segment}

theorem TiledBy.mem_change (h : TiledBy diff n m gs) {change : SourceChange} :
    change ∈ diff.changes ↔ Segment.change change ∈ gs := by
  rw [← h.changes, mem_filterMap]
  constructor
  · rintro ⟨g, hg, hchange⟩
    cases g with
    | change c => exact Option.some.inj hchange ▸ hg
    | run r => cases hchange
  · exact fun hg => ⟨_, hg, rfl⟩

theorem TiledBy.mem_run (h : TiledBy diff n m gs) {run : LineCorrespondence} :
    run ∈ diff.unchangedLines ↔ Segment.run run ∈ gs := by
  rw [← h.runs, mem_filterMap]
  constructor
  · rintro ⟨g, hg, hrun⟩
    cases g with
    | change c => cases hrun
    | run r => exact Option.some.inj hrun ▸ hg
  · exact fun hg => ⟨_, hg, rfl⟩

/-- The runs ascend on both sides. -/
theorem TiledBy.pairwise_runs (h : TiledBy diff n m gs) :
    diff.unchangedLines.Pairwise fun r r' =>
      r.before.stop ≤ r'.before.start ∧ r.after.stop ≤ r'.after.start := by
  have hboth := h.before.spaced.pairwise.and h.after.spaced.pairwise
  rw [← h.runs]
  apply hboth.filterMap
  intro g g' hle r hr r' hr'
  cases g with
  | change c => cases hr
  | run r₀ =>
    cases g' with
    | change c => cases hr'
    | run r₁ =>
      obtain rfl := Option.some.inj hr
      obtain rfl := Option.some.inj hr'
      exact hle

variable {τ : Type} {before after : List τ}

/-- The line map sends a line of a run to the line at the same place of the run: the binary
search over the runs finds the run of the line. -/
theorem TiledBy.mapped (h : TiledBy diff n m gs)
    (hruns : ∀ run ∈ diff.unchangedLines, RunOk before after run) {line mapped : ℕ} :
    diff.mapBeforeLine line = some mapped ↔
      ∃ run ∈ diff.unchangedLines, (run.before.start ≤ line ∧ line < run.before.stop) ∧
        mapped = run.after.start + line - run.before.start := by
  have hsorted := h.pairwise_runs.imp fun hle => hle.1
  have hmono : diff.unchangedLines.Pairwise fun r r' =>
      decide (r'.before.stop ≤ line) = true → decide (r.before.stop ≤ line) = true := by
    apply hsorted.imp_of_mem
    intro r r' _ hr' hle
    have := (hruns r' hr').nonempty
    simp only [decide_eq_true_eq]
    omega
  unfold SourceDiff.mapBeforeLine
  rw [getElem?_partitionPoint hmono]
  constructor
  · intro hmapped
    split at hmapped
    · cases hmapped
    · rename_i run hfind
      split_ifs at hmapped with hcontains
      simp only [LineRange.contains, Bool.and_eq_true, decide_eq_true_eq] at hcontains
      exact ⟨run, mem_of_find?_eq_some hfind, hcontains, (Option.some.inj hmapped).symm⟩
  · rintro ⟨run, hrun, hcontains, rfl⟩
    obtain ⟨earlier, later, hsplit⟩ := append_of_mem hrun
    have hfind : (diff.unchangedLines.find? fun r => !decide (r.before.stop ≤ line)) = some run := by
      rw [find?_eq_some_iff_append]
      refine ⟨by simpa using hcontains.2, earlier, later, hsplit, fun r hr => ?_⟩
      rw [hsplit, pairwise_append] at hsorted
      have := hsorted.2.2 r hr run mem_cons_self
      simp only [Bool.not_not, decide_eq_true_eq]
      omega
    rw [hfind]
    simp [LineRange.contains, hcontains]

theorem TiledBy.mapped_iff (h : TiledBy diff before.length after.length gs)
    (hruns : ∀ run ∈ diff.unchangedLines, RunOk before after run) (line : ℕ) :
    (∃ mapped, diff.mapBeforeLine line = some mapped) ↔
      line < before.length ∧ ∀ change ∈ diff.changes,
        ¬ (change.beforeLines.start ≤ line ∧ line < change.beforeLines.stop) := by
  constructor
  · rintro ⟨mapped, hmapped⟩
    obtain ⟨run, hrun, hline, -⟩ := (h.mapped hruns).mp hmapped
    refine ⟨lt_of_lt_of_le hline.2 (hruns run hrun).before_le, fun change hchange hline' => ?_⟩
    have heq := h.before.spaced.eq_of_contains (h.mem_run.mp hrun) (h.mem_change.mp hchange)
      hline hline'
    cases heq
  · rintro ⟨hlt, hout⟩
    obtain ⟨g, hg, hline⟩ := h.before.exists_mem (Nat.zero_le line) hlt
    cases g with
    | change c => exact absurd hline (hout c (h.mem_change.mpr hg))
    | run r => exact ⟨_, (h.mapped hruns).mpr ⟨r, h.mem_run.mpr hg, hline, rfl⟩⟩

theorem TiledBy.mapped_lt (h : TiledBy diff n m gs)
    (hruns : ∀ run ∈ diff.unchangedLines, RunOk before after run) {l₁ l₂ m₁ m₂ : ℕ} (hl : l₁ < l₂)
    (h₁ : diff.mapBeforeLine l₁ = some m₁) (h₂ : diff.mapBeforeLine l₂ = some m₂) : m₁ < m₂ := by
  obtain ⟨r₁, hr₁, hin₁, rfl⟩ := (h.mapped hruns).mp h₁
  obtain ⟨r₂, hr₂, hin₂, rfl⟩ := (h.mapped hruns).mp h₂
  have hlen₁ := (hruns r₁ hr₁).length
  by_cases heq : r₁ = r₂
  · subst heq
    omega
  · -- the run of the earlier line ends before the other one starts, on both sides
    have hsep : (r₁.before.stop ≤ r₂.before.start ∧ r₁.after.stop ≤ r₂.after.start) ∨
        (r₂.before.stop ≤ r₁.before.start ∧ r₂.after.stop ≤ r₁.after.start) := by
      obtain ⟨i, hi, hi'⟩ := getElem_of_mem hr₁
      obtain ⟨j, hj, hj'⟩ := getElem_of_mem hr₂
      have hpair := pairwise_iff_getElem.mp h.pairwise_runs
      rcases Nat.lt_trichotomy i j with hij | hij | hij
      · exact Or.inl (hi' ▸ hj' ▸ hpair i j hi hj hij)
      · subst hij
        exact absurd (hi'.symm.trans hj') heq
      · exact Or.inr (hi' ▸ hj' ▸ hpair j i hj hi hij)
    omega

/-- A line and its image are the same token. -/
theorem TiledBy.mapped_token (h : TiledBy diff n m gs)
    (hruns : ∀ run ∈ diff.unchangedLines, RunOk before after run) {line mapped : ℕ}
    (hmapped : diff.mapBeforeLine line = some mapped) :
    line < before.length ∧ mapped < after.length ∧ before[line]? = after[mapped]? := by
  obtain ⟨run, hrun, hline, rfl⟩ := (h.mapped hruns).mp hmapped
  obtain ⟨-, hlen, hle, hle', htokens⟩ := hruns run hrun
  have htoken := congrArg (fun tokens => tokens[line - run.before.start]?) htokens
  simp only [slice_getElem?] at htoken
  rw [if_pos (by omega), if_pos (by omega)] at htoken
  refine ⟨by omega, by omega, ?_⟩
  rw [show line = run.before.start + (line - run.before.start) by omega, htoken]
  congr 1
  omega

end Tiled

/-! ## Replacing the changes -/

/-- The source before from an offset on, with the bytes of every change replaced
by the bytes of the source after. -/
def applyChanges (before after : Bytes) : List SourceChange → ℕ → Bytes
  | [], offset => before.drop offset
  | change :: changes, offset =>
    slice before offset change.before.start ++ slice after change.after.start change.after.stop
      ++ applyChanges before after changes change.before.stop

theorem slice_lines (source : Bytes) {i j : ℕ} (h : i ≤ j) :
    slice source (blockOffset (byteLines source) i) (blockOffset (byteLines source) j) =
      (slice (byteLines source) i j).flatten := by
  rw [← slice_blockOffset _ h, flatten_byteLines]

theorem drop_lines (source : Bytes) (i : ℕ) :
    source.drop (blockOffset (byteLines source) i) = ((byteLines source).drop i).flatten := by
  rw [← drop_blockOffset, flatten_byteLines]

theorem hunkChange_eq {before after : Bytes} {hunk : Hunk}
    (hb : hunk.before.start ≤ hunk.before.stop) (ha : hunk.after.start ≤ hunk.after.stop)
    (hlen : hunk.before.stop ≤ (byteLines before).length)
    (hlen' : hunk.after.stop ≤ (byteLines after).length) :
    hunkChange (lineOffsets before) (lineOffsets after) hunk =
      { before := ⟨blockOffset (byteLines before) hunk.before.start,
          blockOffset (byteLines before) hunk.before.stop⟩
        after := ⟨blockOffset (byteLines after) hunk.after.start,
          blockOffset (byteLines after) hunk.after.stop⟩
        beforeLines := hunk.before
        afterLines := hunk.after } := by
  rw [← lineOffset_eq before hlen, ← lineOffset_eq before (hb.trans hlen),
    ← lineOffset_eq after hlen', ← lineOffset_eq after (ha.trans hlen')]
  rfl

/-- Both cursors move over the hunks in step: what is left of the source before,
with the changes left replaced, is what is left of the source after. -/
theorem applyChanges_diffLoop {before after : Bytes} (input : InternedInput) {hunks : List Hunk}
    {b a : ℕ} (h : ValidHunks (byteLines before) (byteLines after) hunks b a) :
    applyChanges before after
        (diffLoop input (lineOffsets before) (lineOffsets after) hunks b a).changes
        (blockOffset (byteLines before) b) =
      after.drop (blockOffset (byteLines after) a) := by
  induction hunks generalizing b a with
  | nil =>
    show before.drop _ = after.drop _
    rw [drop_lines, drop_lines, h.1]
  | cons hunk hunks ih =>
    obtain ⟨hb, ha, heq, hb', ha', hlen, hlen', hrest⟩ := h
    have hgap : slice before (blockOffset (byteLines before) b)
        (blockOffset (byteLines before) hunk.before.start) =
        slice after (blockOffset (byteLines after) a)
          (blockOffset (byteLines after) hunk.after.start) := by
      rw [slice_lines _ hb, slice_lines _ ha, heq]
    rw [diffLoop, hunkChange_eq hb' ha' hlen hlen', applyChanges, ih hrest, hgap, append_assoc,
      slice_append_drop _ (blockOffset_mono _ ha'), slice_append_drop _ (blockOffset_mono _ ha)]

/-! ## The diff of two sources -/

/-- What the diff of two sources says. -/
structure DiffOk (before after : Bytes) (diff : SourceDiff) : Prop where
  /-- The changes and the runs, in order, tile the lines of both sources. -/
  tiles : ∃ gs, TiledBy diff (lineCount before) (lineCount after) gs ∧
    Tiles (fun g : Segment => lineOffset before g.before.start)
      (fun g => lineOffset before g.before.stop) 0 gs before.length ∧
    Tiles (fun g : Segment => lineOffset after g.after.start)
      (fun g => lineOffset after g.after.stop) 0 gs after.length
  /-- The bytes of a change are those of its lines. -/
  spans : ∀ change ∈ diff.changes,
    change.before = ⟨lineOffset before change.beforeLines.start,
      lineOffset before change.beforeLines.stop⟩ ∧
    change.after = ⟨lineOffset after change.afterLines.start,
      lineOffset after change.afterLines.stop⟩
  /-- Replacing the changes in the source before gives the source after. -/
  replaced : applyChanges before after diff.changes 0 = after
  /-- The line map is defined exactly outside the changes. -/
  mapped : ∀ line, (∃ mapped, diff.mapBeforeLine line = some mapped) ↔
    line < lineCount before ∧ ∀ change ∈ diff.changes,
      ¬ (change.beforeLines.start ≤ line ∧ line < change.beforeLines.stop)
  /-- The line map is strictly increasing. -/
  increasing : ∀ l₁ l₂ m₁ m₂, l₁ < l₂ → diff.mapBeforeLine l₁ = some m₁ →
    diff.mapBeforeLine l₂ = some m₂ → m₁ < m₂
  /-- A line is mapped to an identical line. -/
  identical : ∀ line mapped, diff.mapBeforeLine line = some mapped →
    mapped < lineCount after ∧ lineBytes before line = lineBytes after mapped

theorem changes_diffLoop (input : InternedInput) (beforeOffsets afterOffsets : List ℕ)
    (hunks : List Hunk) (b a : ℕ) :
    (diffLoop input beforeOffsets afterOffsets hunks b a).changes =
      hunks.map (hunkChange beforeOffsets afterOffsets) := by
  induction hunks generalizing b a with
  | nil => rfl
  | cons hunk hunks ih => rw [diffLoop, map_cons, ih]

theorem lineOffset_mono (source : Bytes) {i j : ℕ} (h : i ≤ j)
    (hj : j ≤ (byteLines source).length) : lineOffset source i ≤ lineOffset source j := by
  rw [lineOffset_eq source hj, lineOffset_eq source (h.trans hj)]
  exact blockOffset_mono _ h

theorem tiles_bytes {lo hi : Segment → ℕ} {source : Bytes} {gs : List Segment}
    (h : Tiles lo hi 0 gs (lineCount source)) :
    Tiles (fun g => lineOffset source (lo g)) (fun g => lineOffset source (hi g)) 0 gs
      source.length := by
  have hmap := h.map fun i j hij hj =>
    lineOffset_mono source hij (hj.trans (lineCount_eq source).le)
  rw [lineCount_eq, lineOffset_eq source le_rfl, blockOffset_length, flatten_byteLines,
    lineOffset_eq source (Nat.zero_le _)] at hmap
  exact hmap

/-- The diff of every two sources. -/
theorem diffSources_ok (library : DiffLibrary) (before after : Bytes) :
    DiffOk before after (diffSources library before after) := by
  obtain ⟨table, -, -, hinput⟩ := internedInput_eq (byteLines before) (byteLines after)
  have hvalid := validHunks_tokens library (byteLines before) (byteLines after)
  unfold diffSources diffInterned
  generalize library.hunks (InternedInput.new (byteLines before) (byteLines after)) = hunks
    at hvalid ⊢
  generalize InternedInput.new (byteLines before) (byteLines after) = input at hinput ⊢
  have hbefore : input.before.length = (byteLines before).length := by simp [hinput]
  have hafter : input.after.length = (byteLines after).length := by simp [hinput]
  obtain ⟨htiles, htiles'⟩ := segments_tile (lineOffsets before) (lineOffsets after)
    hbefore hafter hvalid
  obtain ⟨hchanges, hruns⟩ := segments_parts input (lineOffsets before) (lineOffsets after) hunks 0 0
  have htiled := TiledBy.mk hchanges hruns htiles htiles'
  have hok := runOk_diffLoop (lineOffsets before) (lineOffsets after) hbefore hafter hvalid
  constructor
  · refine ⟨_, ?_, tiles_bytes ((lineCount_eq before).symm ▸ htiles),
      tiles_bytes ((lineCount_eq after).symm ▸ htiles')⟩
    rw [lineCount_eq, lineCount_eq]
    exact htiled
  · intro change hchange
    rw [changes_diffLoop] at hchange
    obtain ⟨hunk, -, rfl⟩ := mem_map.mp hchange
    exact ⟨rfl, rfl⟩
  · exact applyChanges_diffLoop input hvalid
  · rw [lineCount_eq]
    exact htiled.mapped_iff hok
  · exact fun l₁ l₂ m₁ m₂ => htiled.mapped_lt hok
  · intro line mapped hmapped
    obtain ⟨hline, hlt, heq⟩ := htiled.mapped_token hok hmapped
    rw [← lineBytes_eq before hline, ← lineBytes_eq after hlt] at heq
    exact ⟨by rw [lineCount_eq]; exact hlt, Option.some.inj heq⟩

end Trufflepig.History
