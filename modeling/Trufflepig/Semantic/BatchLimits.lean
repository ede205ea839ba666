import Trufflepig.Lib.Text
import Trufflepig.Semantic.PreparationBatches

/-!
# The limits of batches

A batch has at most `MAX_BATCH` inputs and, if it has several, at most `MAX_PADDED_TOKENS` tokens
after padding; an input that the model does not take is to be a batch of its own. The scan ends a
batch after such an input, with the inputs before it in the same batch. So the input is alone only
where a batch starts: behind another oversized one, or where the inputs before it fill their
batches.

* `scanBatch_cases`, `first_cases`: how the scan of a batch ends.
* `Greedy.first_eq`: groups that are each too full for the next input are the batches of the scan.
* `batches_bounded_iff`: when the batches keep the limits.
-/

namespace Trufflepig.Semantic

open List Lib

/-! ## Limits -/

/-- An input that the model does not take. -/
def EmbeddingInput.Oversized (input : EmbeddingInput) : Prop := maxModelTokens < input.tokenCount

/-- The largest token count of a batch. -/
def largest (batch : List EmbeddingInput) : ℕ :=
  batch.foldl (fun tokens input => max tokens input.tokenCount) 0

/-- The batch is padded to few enough tokens. -/
def Padded (batch : List EmbeddingInput) : Prop :=
  2 ≤ batch.length → batch.length * largest batch ≤ maxPaddedTokens

/-- The limits of a batch. -/
structure Bounded (batch : List EmbeddingInput) : Prop where
  one_le : 1 ≤ batch.length
  le_max : batch.length ≤ maxBatch
  padded : Padded batch
  alone : ∀ input ∈ batch, input.Oversized → batch.length = 1

theorem largest_append (batch : List EmbeddingInput) (input : EmbeddingInput) :
    largest (batch ++ [input]) = max (largest batch) input.tokenCount := by
  rw [largest, foldl_append]
  rfl

/-- How the scan of a batch ends without an oversized input: at the end of the inputs, with a full
batch, or before an input that does not fit. -/
inductive Scanned : List EmbeddingInput → List EmbeddingInput → Prop
  | exhausted (batch) : Scanned batch []
  | full {batch} (rest) (h : batch.length = maxBatch) : Scanned batch rest
  | unfit {batch next} (rest) (hnormal : ¬next.Oversized) (h : ¬Padded (batch ++ [next])) :
    Scanned batch (next :: rest)

/-- Inputs that fit into a batch, none of them oversized. -/
structure Regular (batch : List EmbeddingInput) : Prop where
  normal : ∀ input ∈ batch, ¬input.Oversized
  le_max : batch.length ≤ maxBatch
  padded : Padded batch

/-- How many inputs the scan takes: a batch, or with it the oversized input that follows. -/
inductive Ends (batch : List EmbeddingInput) : List EmbeddingInput → ℕ → Prop
  | scanned {tail} (h : Scanned batch tail) : Ends batch tail batch.length
  | oversized {last} (tail) (h : last.Oversized) (hroom : batch.length < maxBatch) :
    Ends batch (last :: tail) (batch.length + 1)

/-- A batch goes on with some of the inputs, and the scan ends with so many. -/
def Takes (batch rest : List EmbeddingInput) (n : ℕ) : Prop :=
  ∃ more tail, rest = more ++ tail ∧ Regular (batch ++ more) ∧ Ends (batch ++ more) tail n

theorem Regular.takes {batch rest : List EmbeddingInput} {n : ℕ} (h : Regular batch)
    (hends : Ends batch rest n) : Takes batch rest n :=
  ⟨[], rest, rfl, by rwa [append_nil], by rwa [append_nil]⟩

/-- The inputs of a scan are taken while they fit, and an oversized one with those before it. -/
theorem scanBatch_cases {batch : List EmbeddingInput} (h : Regular batch)
    (rest : List EmbeddingInput) : Takes batch rest (scanBatch batch.length (largest batch) rest) := by
  induction rest generalizing batch with
  | nil => exact h.takes (.scanned (.exhausted batch))
  | cons input rest ih =>
    rw [scanBatch]
    dsimp only
    split_ifs with hroom hoversized hunfit
    · exact h.takes (.oversized rest hoversized hroom)
    · refine h.takes (.scanned (.unfit rest hoversized fun hfits => ?_))
      have hle := hfits (by rw [length_append, length_singleton]; omega)
      rw [length_append, length_singleton, largest_append, Nat.mul_comm] at hle
      omega
    · have hlonger : (batch ++ [input]).length = batch.length + 1 := by simp
      have hregular : Regular (batch ++ [input]) := by
        refine ⟨forall_mem_append.mpr ⟨h.normal, forall_mem_singleton.mpr hoversized⟩, ?_, ?_⟩
        · rw [hlonger]
          exact hroom
        · intro htwo
          rw [hlonger, largest_append, Nat.mul_comm]
          rw [hlonger] at htwo
          omega
      obtain ⟨more, tail, hrest, hspec⟩ := ih hregular
      rw [hlonger, largest_append, append_assoc, singleton_append] at hspec
      exact ⟨input :: more, tail, by rw [hrest]; rfl, hspec⟩
    · have hfull : batch.length = maxBatch := le_antisymm h.le_max (Nat.le_of_not_lt hroom)
      exact h.takes (.scanned (.full _ hfull))

/-- The first batch has no oversized input, and ends where the scan ends; or it ends with one. -/
theorem first_cases (inputs : List EmbeddingInput) (h : inputs ≠ []) :
    Takes [] inputs (firstLength inputs) := by
  have hempty : Regular [] :=
    ⟨by simp, Nat.zero_le _, fun htwo => absurd htwo (by decide)⟩
  have htakes : Takes [] inputs (scanBatch 0 0 inputs) := scanBatch_cases hempty inputs
  have hfirst : firstLength inputs = max (scanBatch 0 0 inputs) 1 := by
    rw [firstLength, nextBatchEnd, drop_zero, Nat.zero_add, Nat.zero_add]
  have hpos : 1 ≤ scanBatch 0 0 inputs := by
    obtain ⟨batch, tail, hinputs, -, hends⟩ := htakes
    generalize scanBatch 0 0 inputs = n at hends
    cases hends with
    | oversized => omega
    | scanned hscanned =>
      refine length_pos_iff.mpr fun hbatch => ?_
      rw [hbatch] at hscanned
      cases hscanned with
      | exhausted => exact h (by simpa [hinputs] using hbatch)
      | full rest hfull => exact absurd hfull (by decide)
      | unfit rest hnot hunfit => exact hunfit fun htwo => absurd htwo (by simp)
  rwa [hfirst, max_eq_left hpos]

/-! ## Full batches before oversized inputs -/

/-- Groups as a scan makes them: each within the limits, and too full for the next input. -/
inductive Greedy : List (List EmbeddingInput) → Prop
  | last {group} (hne : group ≠ []) (hlength : group.length ≤ maxBatch) (hpadded : Padded group) :
    Greedy [group]
  | cons {group next rest groups} (hne : group ≠ []) (hlength : group.length ≤ maxBatch)
    (hpadded : Padded group) (hfull : group.length = maxBatch ∨ ¬Padded (group ++ [next]))
    (h : Greedy ((next :: rest) :: groups)) : Greedy (group :: (next :: rest) :: groups)

/-- The inputs can be cut into groups of which the last one has no room left. -/
def FillsBatches (inputs : List EmbeddingInput) : Prop :=
  inputs = [] ∨ ∃ groups, Greedy groups ∧ groups.flatten = inputs ∧
    ∃ group, groups.getLast? = some group ∧ group.length = maxBatch

/-- The inputs between two oversized ones, or before the first one, fill their batches. -/
def OversizedAfterFull (inputs : List EmbeddingInput) : Prop :=
  ∀ before between last after, inputs = before ++ between ++ last :: after →
    (∀ input ∈ before.getLast?, input.Oversized) → (∀ input ∈ between, ¬input.Oversized) →
      last.Oversized → FillsBatches between

theorem largest_le_append (batch more : List EmbeddingInput) :
    largest batch ≤ largest (batch ++ more) := by
  induction more using List.reverseRecOn with
  | nil => rw [append_nil]
  | append_singleton more input ih =>
    rw [← append_assoc, largest_append]
    exact ih.trans (le_max_left ..)

variable {batch more tail between : List EmbeddingInput}

theorem Padded.of_append (h : Padded (batch ++ more)) :
    Padded batch := by
  intro htwo
  have hle := h (by rw [length_append]; omega)
  refine le_trans (Nat.mul_le_mul ?_ (largest_le_append batch more)) hle
  rw [length_append]
  omega

/-- A batch that the scan ends is the first one of groups that fill their batches. -/
theorem Greedy.first_eq {group : List EmbeddingInput} {groups : List (List EmbeddingInput)}
    (h : Greedy (group :: groups))
    (hlast : ∃ last, (group :: groups).getLast? = some last ∧ last.length = maxBatch)
    (hregular : Regular batch) (hscanned : Scanned batch tail)
    (hsplit : (group :: groups).flatten ++ more = batch ++ tail) :
    group = batch ∧ groups.flatten ++ more = tail := by
  rw [flatten_cons, append_assoc] at hsplit
  rcases append_cases hsplit with ⟨next, rest, hgroup, htail⟩ | heq | ⟨next, rest, hbatch', hgroups⟩
  · -- the group goes on where the scan ended
    exfalso
    have hgroupLength : group.length ≤ maxBatch := by cases h <;> assumption
    have hgroupPadded : Padded group := by cases h <;> assumption
    rw [hgroup, length_append, length_cons] at hgroupLength
    rw [hgroup, append_cons] at hgroupPadded
    cases hscanned with
    | exhausted => exact nomatch htail
    | full rest hfull => omega
    | unfit rest hnot hunfit =>
      obtain rfl := (List.cons.inj htail).1
      exact hunfit hgroupPadded.of_append
  · exact heq
  · -- the scan goes on where the group ended
    exfalso
    have hbatch := hregular.le_max
    have hpadded := hregular.padded
    rw [hbatch', length_append, length_cons] at hbatch
    rw [hbatch', append_cons] at hpadded
    cases h with
    | last hne hlength hpadded' =>
      obtain ⟨last, hget, hfull⟩ := hlast
      obtain rfl : group = last := Option.some.inj hget
      omega
    | cons hne hlength hpadded' hfull hrest =>
      rw [flatten_cons, append_assoc, cons_append] at hgroups
      obtain rfl := (List.cons.inj hgroups).1
      rcases hfull with hfull | hunfit
      · omega
      · exact hunfit hpadded.of_append

/-- Behind a batch that the scan ends, the inputs still fill their batches. -/
theorem FillsBatches.of_scanned (h : FillsBatches between)
    (hne : between ≠ []) (hregular : Regular batch) (hscanned : Scanned batch tail)
    (hsplit : between ++ more = batch ++ tail) :
    ∃ between', between = batch ++ between' ∧ between' ++ more = tail ∧ FillsBatches between' := by
  obtain rfl | ⟨groups, hgreedy, rfl, hlast⟩ := h
  · exact absurd rfl hne
  · cases groups with
    | nil => exact absurd rfl hne
    | cons group groups =>
      obtain ⟨rfl, htail⟩ := hgreedy.first_eq hlast hregular hscanned hsplit
      refine ⟨groups.flatten, flatten_cons, htail, ?_⟩
      cases hgreedy with
      | last => exact .inl rfl
      | cons hne hlength hpadded' hfull hrest =>
        rw [getLast?_cons_cons] at hlast
        exact .inr ⟨_, hrest, rfl, hlast⟩

/-- Where the groups fill their batches, the scan does not reach the input behind them. -/
theorem FillsBatches.not_open (h : FillsBatches between)
    (hne : between ≠ []) (hlength : between.length < maxBatch) (hpadded : Padded between) : False := by
  obtain rfl | ⟨groups, hgreedy, rfl, hlast⟩ := h
  · exact hne rfl
  · cases hgreedy with
    | @last group =>
      obtain ⟨last, hget, hfull⟩ := hlast
      obtain rfl : group = last := Option.some.inj hget
      simp only [flatten_cons, flatten_nil, append_nil] at hlength
      omega
    | cons hne hlength' hpadded' hfull hrest =>
      rw [flatten_cons, flatten_cons, cons_append, append_cons] at hpadded
      rw [flatten_cons, length_append] at hlength
      rcases hfull with hfull | hunfit
      · omega
      · exact hunfit hpadded.of_append

/-! ## When the limits are kept -/

/-- All batches that are submitted first keep the limits. -/
def AllBounded (inputs : List EmbeddingInput) : Prop :=
  ∀ batch ∈ batches inputs, Bounded batch.inputs

theorem allBounded_iff (inputs : List EmbeddingInput) (h : inputs ≠ []) :
    AllBounded inputs ↔ Bounded (inputs.take (firstLength inputs)) ∧
      AllBounded (inputs.drop (firstLength inputs)) := by
  have hforall : ∀ list : List PreparationBatch,
      (∀ batch ∈ list, Bounded batch.inputs) ↔
        ∀ batch ∈ list.map PreparationBatch.inputs, Bounded batch := by
    simp
  unfold AllBounded
  rw [hforall, hforall, batches_inputs inputs h, forall_mem_cons]

/-- The condition on the inputs behind a batch without oversized inputs. -/
theorem OversizedAfterFull.of_append (h : OversizedAfterFull (batch ++ tail))
    (hregular : Regular batch) (hscanned : Scanned batch tail) : OversizedAfterFull tail := by
  intro before between last after htail hbefore hbetween hlast
  cases hlist : before.getLast? with
  | some input =>
    refine h (batch ++ before) between last after (by rw [htail]; simp) ?_ hbetween hlast
    rw [getLast?_append, hlist]
    rw [hlist] at hbefore
    exact hbefore
  | none =>
    -- the inputs go on from the batch
    obtain rfl := getLast?_eq_none_iff.mp hlist
    have hfills := h [] (batch ++ between) last after (by rw [htail]; simp) (by simp)
      (forall_mem_append.mpr ⟨hregular.normal, hbetween⟩) hlast
    by_cases hne : batch ++ between = []
    · rw [(append_eq_nil_iff.mp hne).2]
      exact .inl rfl
    · obtain ⟨between', hsplit, -, hfills'⟩ := hfills.of_scanned hne hregular hscanned
        (show batch ++ between ++ last :: after = batch ++ tail by rw [htail]; simp)
      rwa [append_cancel_left hsplit]

/-- A batch that the scan ends before the inputs that fill their batches, or before an oversized
one. -/
theorem FillsBatches.cons {rest : List EmbeddingInput} (h : FillsBatches between)
    (hne : batch ≠ []) (hregular : Regular batch) (hscanned : Scanned batch (between ++ rest))
    (hrest : ∃ last ∈ rest.head?, last.Oversized) : FillsBatches (batch ++ between) := by
  obtain rfl | ⟨groups, hgreedy, rfl, last, hget, hfull⟩ := h
  · have hfull : batch.length = maxBatch := by
      rw [nil_append] at hscanned
      obtain ⟨next, hnext, hover⟩ := hrest
      cases hscanned with
      | exhausted => exact nomatch hnext
      | full _ hfull => exact hfull
      | unfit _ hnot _ => exact absurd (Option.some.inj hnext ▸ hover) hnot
    rw [append_nil]
    exact .inr ⟨[batch], .last hne hregular.le_max hregular.padded, by simp, batch, rfl, hfull⟩
  · cases groups with
    | nil => exact nomatch hget
    | cons group groups =>
      obtain ⟨next, more, rfl⟩ := exists_cons_of_ne_nil (show group ≠ [] by cases hgreedy <;> assumption)
      rw [flatten_cons, cons_append, cons_append] at hscanned
      have hstop : batch.length = maxBatch ∨ ¬Padded (batch ++ [next]) := by
        cases hscanned with
        | full _ hfull => exact .inl hfull
        | unfit _ _ hunfit => exact .inr hunfit
      exact .inr ⟨_, .cons hne hregular.le_max hregular.padded hstop hgreedy, flatten_cons, last,
        by rwa [getLast?_cons_cons], hfull⟩

/-- The condition on the inputs with a batch without oversized inputs before them. -/
theorem OversizedAfterFull.append (h : OversizedAfterFull tail)
    (hne : batch ≠ []) (hregular : Regular batch) (hscanned : Scanned batch tail) :
    OversizedAfterFull (batch ++ tail) := by
  intro before between last after hsplit hbefore hbetween hlast
  cases hlist : before.getLast? with
  | some input =>
    have hmem := mem_of_getLast? hlist
    have hinput := hbefore input hlist
    rw [append_assoc] at hsplit
    -- the batch has no oversized input, so that it ends before this one
    rcases append_cases hsplit with ⟨next, rest, rfl, -⟩ | ⟨rfl, -⟩ | ⟨next, rest, rfl, htail⟩
    · exact absurd hinput (hregular.normal input (mem_append_left _ hmem))
    · exact absurd hinput (hregular.normal input hmem)
    · refine h (next :: rest) between last after (by rw [htail, append_assoc]) ?_ hbetween hlast
      rw [getLast?_append_cons] at hbefore
      exact hbefore
  | none =>
    obtain rfl := getLast?_eq_none_iff.mp hlist
    rw [nil_append] at hsplit
    rcases append_cases hsplit with ⟨next, rest, hbatch, hnext⟩ | ⟨rfl, rfl⟩ | ⟨next, rest, rfl, rfl⟩
    · rw [(List.cons.inj hnext).1] at hlast
      exact absurd hlast (hregular.normal next (by simp [hbatch]))
    · have hfull := FillsBatches.cons (.inl rfl) hne hregular hscanned ⟨last, rfl, hlast⟩
      rwa [append_nil] at hfull
    · refine FillsBatches.cons ?_ hne hregular hscanned ⟨last, rfl, hlast⟩
      exact h [] _ last after rfl (by simp) (forall_mem_append.mp hbetween).2 hlast

/-- Behind an oversized input the condition starts again. -/
theorem oversizedAfterFull_cons {large : EmbeddingInput}
    (hlarge : large.Oversized) : OversizedAfterFull (large :: tail) ↔ OversizedAfterFull tail := by
  constructor
  · intro h before between next after hsplit hbefore hbetween hnext
    refine h (large :: before) between next after (by rw [hsplit]; rfl) ?_ hbetween hnext
    intro input hinput
    cases before with
    | nil => rwa [← Option.some.inj hinput]
    | cons first before => exact hbefore input hinput
  · intro h before between next after hsplit hbefore hbetween hnext
    cases before with
    | nil =>
      cases between with
      | nil => exact .inl rfl
      | cons first between =>
        rw [← (List.cons.inj hsplit).1] at hbetween
        exact absurd hlarge (hbetween large mem_cons_self)
    | cons first before =>
      refine h before between next after (List.cons.inj hsplit).2 ?_ hbetween hnext
      intro input hinput
      exact hbefore input (by cases before with | nil => exact nomatch hinput | cons => exact hinput)

/-- The batches that are submitted first keep the limits exactly if the inputs between the oversized
ones fill their batches. -/
theorem batches_bounded_iff (inputs : List EmbeddingInput) :
    AllBounded inputs ↔ OversizedAfterFull inputs := by
  induction hlength : inputs.length using Nat.strong_induction_on generalizing inputs with
  | _ length ih =>
    by_cases hne : inputs = []
    · subst hne
      rw [AllBounded, batches_nil]
      refine iff_of_true (forall_mem_nil _) fun before between last after hinputs => ?_
      simp at hinputs
    · have hpos : 0 < inputs.length := length_pos_iff.mpr hne
      have hfirst := firstLength_pos inputs
      rw [allBounded_iff inputs hne, ih _ (by rw [length_drop]; omega) _ rfl]
      obtain ⟨batch, tail, hinputs, hregular, hends⟩ := first_cases inputs hne
      rw [nil_append] at hregular hends
      generalize firstLength inputs = cut at hends hfirst ⊢
      rw [hinputs]
      cases hends with
      | scanned hscanned =>
        have hbounded : Bounded batch := ⟨hfirst, hregular.le_max, hregular.padded,
          fun input hinput hover => absurd hover (hregular.normal input hinput)⟩
        rw [take_left, drop_left, and_iff_right hbounded]
        exact ⟨fun h => h.append (length_pos_iff.mp hfirst) hregular hscanned,
          fun h => h.of_append hregular hscanned⟩
      | @oversized last tail hover hroom =>
        have hcut : batch.length + 1 = (batch ++ [last]).length := by simp
        rw [append_cons, hcut, take_left, drop_left]
        -- an oversized input is reached at the start of a batch only
        constructor
        · rintro ⟨hbounded, htail⟩
          have halone := hbounded.alone last (by simp) hover
          obtain rfl := length_eq_zero_iff.mp (show batch.length = 0 by omega)
          exact (oversizedAfterFull_cons hover).mpr htail
        · intro h
          have hempty : batch = [] := by
            by_contra hbatch
            exact (h [] batch last tail (by simp) (by simp) hregular.normal hover).not_open hbatch
              hroom hregular.padded
          subst hempty
          exact ⟨⟨le_rfl, show 1 ≤ maxBatch by decide, fun htwo => absurd htwo (by simp),
            fun _ _ _ => rfl⟩, (oversizedAfterFull_cons hover).mp h⟩

/-- A small input and an oversized one are submitted together. -/
theorem oversized_not_alone :
    ∃ batch ∈ batches [⟨[1], [], 1⟩, ⟨[2], [], 4097⟩],
      batch.inputs = [⟨[1], [], 1⟩, ⟨[2], [], 4097⟩] ∧ ¬Bounded batch.inputs := by
  have hbatches := batches_inputs [⟨[1], [], 1⟩, ⟨[2], [], 4097⟩] (by simp)
  rw [show firstLength [⟨[1], [], 1⟩, ⟨[2], [], 4097⟩] = 2 by decide] at hbatches
  have hmem : [⟨[1], [], 1⟩, ⟨[2], [], 4097⟩] ∈
      (batches [⟨[1], [], 1⟩, ⟨[2], [], 4097⟩]).map PreparationBatch.inputs := by
    rw [hbatches]
    exact mem_cons_self
  obtain ⟨batch, hbatch, hinputs⟩ := mem_map.mp hmem
  refine ⟨batch, hbatch, hinputs, fun hbounded => ?_⟩
  rw [hinputs] at hbounded
  exact absurd (hbounded.alone ⟨[2], [], 4097⟩ (by simp)
    (show maxModelTokens < 4097 by decide)) (by decide)

end Trufflepig.Semantic
