import Trufflepig.Semantic.EmbeddingCache

/-!
# Batches of preparation (`semantic/preparation/worker.rs`)

The inputs are cut into batches by a scan from the left (`next_batch_end`), and each batch is given
to a worker. A batch that fails is bisected, until the input that fails stands alone.

* `flatten_batches`: the batches that are submitted first are the inputs.
* `runBatchesGrouped_spec`: the batches that are completed concatenate to the inputs, and which of
  the results are errors if the failures come from bad inputs.
-/

namespace Trufflepig.Semantic

open List Lib

/-! ## Inputs and batches -/

/-- `struct EmbeddingInput` (`preparation.rs`). -/
structure EmbeddingInput where
  contentKey : Bytes
  text : Bytes
  tokenCount : ℕ

/-- `MAX_BATCH`. -/
def maxBatch : ℕ := 8

/-- `MAX_MODEL_TOKENS`. -/
def maxModelTokens : ℕ := 4096

/-- `MAX_PADDED_TOKENS`. -/
def maxPaddedTokens : ℕ := 8192

/-- The loop of `next_batch_end` on the inputs from `end` on; `taken` is `end - start`. The product
is of numbers below the limits and does not saturate. -/
def scanBatch (taken maxTokens : ℕ) : List EmbeddingInput → ℕ
  | [] => taken
  | input :: rest =>
    if taken < maxBatch then
      if input.tokenCount > maxModelTokens then taken + 1
      else
        let nextMax := max maxTokens input.tokenCount
        if taken > 0 ∧ nextMax * (taken + 1) > maxPaddedTokens then taken
        else scanBatch (taken + 1) nextMax rest
    else taken

/-- `next_batch_end`. -/
def nextBatchEnd (inputs : List EmbeddingInput) (start : ℕ) : ℕ :=
  max (start + scanBatch 0 0 (inputs.drop start)) (start + 1)

/-- A slice of the inputs with at least one of them. -/
structure PreparationBatch where
  inputs : List EmbeddingInput
  nonempty : inputs ≠ []

/-- The batches that `run_batches_grouped` submits first. -/
def batchesFrom (inputs : List EmbeddingInput) (start : ℕ) : List PreparationBatch :=
  if h : start < inputs.length then
    let stop := nextBatchEnd inputs start
    ⟨(inputs.take stop).drop start, by
      have hstop : start + 1 ≤ stop := le_max_right ..
      rw [Ne, drop_eq_nil_iff, length_take]
      omega⟩ :: batchesFrom inputs stop
  else []
termination_by inputs.length - start
decreasing_by
  have hstop : start + 1 ≤ nextBatchEnd inputs start := le_max_right ..
  omega

/-- The batches of some inputs. -/
def batches (inputs : List EmbeddingInput) : List PreparationBatch := batchesFrom inputs 0

/-! ## The worker -/

/-- Errors that carry a message, as those of `anyhow` do. -/
class MessageError (ε : Type) where
  ofMessage : String → ε
  message : ε → String

/-- `trait EmbeddingWorker`, with the state of the worker. -/
structure EmbeddingWorker (ε σ : Type) where
  embedBatch : σ → List EmbeddingInput → Except ε (List (Except ε Embedding)) × σ
  isRetryableBatchError : σ → ε → Bool
  batchErrorIsUnitFailure : σ → ε → Bool

section Run

variable {ε σ τ : Type} [MessageError ε]

/-- The answer of the worker; another number of results is an error (in `run_one_batch`). -/
def EmbeddingWorker.answer (worker : EmbeddingWorker ε σ) (state : σ)
    (batch : List EmbeddingInput) : Except ε (List (Except ε Embedding)) × σ :=
  match worker.embedBatch state batch with
  | (.ok results, state) =>
    if results.length = batch.length then (.ok results, state)
    else (.error (MessageError.ofMessage
      s!"preparation_worker_failed: worker returned {results.length} results for {batch.length} inputs"),
      state)
  | (.error error, state) => (.error error, state)

/-- What is done with a batch and its results, with the state of the closure. -/
abbrev Completion (ε τ : Type) :=
  τ → List EmbeddingInput → List (Except ε Embedding) → Except ε Unit × τ

/-- The first half of a batch. -/
def PreparationBatch.firstHalf (batch : PreparationBatch) (h : 1 < batch.inputs.length) : PreparationBatch :=
  ⟨batch.inputs.take (batch.inputs.length / 2), by
    rw [Ne, take_eq_nil_iff]
    rintro (hzero | hnil)
    · omega
    · exact batch.nonempty hnil⟩

/-- The second half of a batch. -/
def PreparationBatch.secondHalf (batch : PreparationBatch) (h : 1 < batch.inputs.length) : PreparationBatch :=
  ⟨batch.inputs.drop (batch.inputs.length / 2), by
    rw [Ne, drop_eq_nil_iff]
    omega⟩

theorem PreparationBatch.length_pos (batch : PreparationBatch) : 0 < batch.inputs.length :=
  length_pos_iff.mpr batch.nonempty

/-- `run_one_batch` with `handle_batch_error`. -/
def runOneBatch (worker : EmbeddingWorker ε σ) (complete : Completion ε τ) (batch : PreparationBatch)
    (state : σ) (caller : τ) : Except ε Unit × σ × τ :=
  match worker.answer state batch.inputs with
  | (.ok results, state) =>
    let (done, caller) := complete caller batch.inputs results
    (done, state, caller)
  | (.error error, state) =>
    if worker.isRetryableBatchError state error then (.error error, state, caller)
    else if h : worker.batchErrorIsUnitFailure state error ∨ batch.inputs.length = 1 then
      let message := MessageError.message error
      let (done, caller) := complete caller batch.inputs
        (List.replicate batch.inputs.length (.error (MessageError.ofMessage message)))
      (done, state, caller)
    else
      have hlength : 1 < batch.inputs.length := by
        have hpos := batch.length_pos
        omega
      match runOneBatch worker complete (batch.firstHalf hlength) state caller with
      | (.ok (), state, caller) =>
        runOneBatch worker complete (batch.secondHalf hlength) state caller
      | (.error error, state, caller) => (.error error, state, caller)
termination_by batch.inputs.length
decreasing_by
  · rw [PreparationBatch.firstHalf, length_take]
    omega
  · rw [PreparationBatch.secondHalf, length_drop]
    omega

/-- The loop over the batches (in `run_batches_grouped`). -/
def runBatches (worker : EmbeddingWorker ε σ) (complete : Completion ε τ) :
    List PreparationBatch → σ → τ → Except ε Unit × σ × τ
  | [], state, caller => (.ok (), state, caller)
  | batch :: rest, state, caller =>
    match runOneBatch worker complete batch state caller with
    | (.ok (), state, caller) => runBatches worker complete rest state caller
    | (.error error, state, caller) => (.error error, state, caller)

/-- `run_batches_grouped`. -/
def runBatchesGrouped (worker : EmbeddingWorker ε σ) (inputs : List EmbeddingInput)
    (complete : Completion ε τ) (state : σ) (caller : τ) : Except ε Unit × σ × τ :=
  runBatches worker complete (batches inputs) state caller

end Run

/-! ## What is completed -/

/-- A call of the closure. -/
structure Call (ε : Type) where
  inputs : List EmbeddingInput
  results : List (Except ε Embedding)

section Completed

variable {ε σ τ : Type} [MessageError ε] {worker : EmbeddingWorker ε σ}

/-- A closure, with a log of its calls. -/
def logged (complete : Completion ε τ) : Completion ε (τ × List (Call ε)) :=
  fun (caller, log) batch results =>
    let (done, caller) := complete caller batch results
    (done, caller, log ++ [⟨batch, results⟩])

/-- The calls pass on the inputs in order, each once, and all have a property. -/
structure Completes (holds : Call ε → Prop) (inputs : List EmbeddingInput)
    (calls : List (Call ε)) : Prop where
  covers : calls.flatMap Call.inputs = inputs
  each : ∀ call ∈ calls, holds call

variable {holds : Call ε → Prop}

omit [MessageError ε] in
theorem Completes.append {first second : List EmbeddingInput} {calls more : List (Call ε)}
    (h : Completes holds first calls) (h' : Completes holds second more) :
    Completes holds (first ++ second) (calls ++ more) where
  covers := by rw [flatMap_append, h.covers, h'.covers]
  each call hcall := (mem_append.mp hcall).elim (h.each call) (h'.each call)

/-- A property of the calls with results of the worker, and of those with errors in their place. -/
structure EachCall (worker : EmbeddingWorker ε σ) (holds : Call ε → Prop) : Prop where
  answered : ∀ state batch results state',
    worker.answer state batch = (.ok results, state') → holds ⟨batch, results⟩
  failed : ∀ state batch error state', worker.answer state batch = (.error error, state') →
    worker.batchErrorIsUnitFailure state' error = true ∨ batch.length = 1 →
      holds ⟨batch, List.replicate batch.length
        (.error (MessageError.ofMessage (MessageError.message error)))⟩

variable {complete : Completion ε τ}

omit [MessageError ε] in
theorem completes_call {batch : List EmbeddingInput} {results : List (Except ε Embedding)}
    (hholds : holds ⟨batch, results⟩) {caller after : τ × List (Call ε)} {done : Except ε Unit}
    (hcomplete : logged complete caller batch results = (done, after)) :
    ∃ calls, after.2 = caller.2 ++ calls ∧ Completes holds batch calls := by
  refine ⟨[⟨batch, results⟩], ?_, ⟨flatMap_singleton .., ?_⟩⟩
  · rw [← show (logged complete caller batch results).2 = after from congrArg Prod.snd hcomplete]
    rfl
  · intro call hcall
    rw [mem_singleton.mp hcall]
    exact hholds

section Each

variable (heach : EachCall worker holds) (complete : Completion ε τ) (state : σ)
  (caller : τ × List (Call ε)) {state' : σ} {caller' : τ × List (Call ε)}
include heach

theorem runOneBatch_completes (batch : PreparationBatch)
    (hrun : runOneBatch worker (logged complete) batch state caller = (.ok (), state', caller')) :
    ∃ calls, caller'.2 = caller.2 ++ calls ∧ Completes holds batch.inputs calls := by
  fun_induction runOneBatch worker (logged complete) batch state caller generalizing state' caller' with
  | case1 batch state caller results next hanswer done after hcomplete =>
    rw [← show after = caller' from congrArg (·.2.2) hrun]
    exact completes_call (heach.answered _ _ _ _ hanswer) hcomplete
  | case2 => exact nomatch congrArg (·.1) hrun
  | case3 batch state caller error next hanswer hretry halone message =>
    rename_i done after hcomplete
    rw [← show after = caller' from congrArg (·.2.2) hrun]
    exact completes_call (heach.failed _ _ _ _ hanswer halone) hcomplete
  | case4 batch state caller error next hanswer hretry halone hlength middle between hfirst ihfirst ihsecond =>
    obtain ⟨calls, hcalls, hcompletes⟩ := ihfirst hfirst
    obtain ⟨more, hmore, hcompletes'⟩ := ihsecond hrun
    refine ⟨calls ++ more, by rw [hmore, hcalls, append_assoc], ?_⟩
    have happend := hcompletes.append hcompletes'
    rwa [PreparationBatch.firstHalf, PreparationBatch.secondHalf, take_append_drop] at happend
  | case5 => exact nomatch congrArg (·.1) hrun

theorem runBatches_completes (list : List PreparationBatch)
    (hrun : runBatches worker (logged complete) list state caller = (.ok (), state', caller')) :
    ∃ calls, caller'.2 = caller.2 ++ calls ∧
      Completes holds (list.flatMap PreparationBatch.inputs) calls := by
  fun_induction runBatches worker (logged complete) list state caller with
  | case1 state caller =>
    have hcaller : caller = caller' := congrArg (·.2.2) hrun
    exact ⟨[], by rw [hcaller, append_nil], rfl, fun call hcall => nomatch hcall⟩
  | case2 state caller batch rest next between hfirst ih =>
    obtain ⟨calls, hcalls, hcompletes⟩ := runOneBatch_completes heach complete _ _ _ hfirst
    obtain ⟨more, hmore, hcompletes'⟩ := ih hrun
    exact ⟨calls ++ more, by rw [hmore, hcalls, append_assoc], hcompletes.append hcompletes'⟩
  | case3 => exact nomatch congrArg (·.1) hrun

end Each

section Ok

variable (hcomplete : ∀ caller batch results, (complete caller batch results).1 = .ok ())
  (hretry : ∀ state batch error state', worker.answer state batch = (.error error, state') →
    worker.isRetryableBatchError state' error = false) (state : σ) (caller : τ)
include hcomplete hretry

/-- Without errors of the closure and retryable errors of the worker, all batches are run. -/
theorem runOneBatch_ok (batch : PreparationBatch) :
    (runOneBatch worker complete batch state caller).1 = .ok () := by
  fun_induction runOneBatch worker complete batch state caller with
  | case1 batch state caller results next hanswer done after hdone =>
    rw [← show (complete caller batch.inputs _).1 = done from congrArg Prod.fst hdone]
    exact hcomplete ..
  | case2 batch state caller error next hanswer h => exact absurd h (by simp [hretry _ _ _ _ hanswer])
  | case3 batch state caller error next hanswer _ halone message done after hdone =>
    rw [← show (complete caller batch.inputs _).1 = done from congrArg Prod.fst hdone]
    exact hcomplete ..
  | case4 batch state caller error next hanswer _ halone hlength middle between hfirst _ ihsecond =>
    exact ihsecond
  | case5 batch state caller error next hanswer _ halone hlength failure middle between hfirst ihfirst =>
    rw [hfirst] at ihfirst
    exact nomatch ihfirst

theorem runBatches_ok (list : List PreparationBatch) :
    (runBatches worker complete list state caller).1 = .ok () := by
  fun_induction runBatches worker complete list state caller with
  | case1 => rfl
  | case2 state caller batch rest next between hfirst ih => exact ih
  | case3 batch rest state caller failure next between hfirst =>
    have hok := runOneBatch_ok hcomplete hretry state caller batch
    rw [hfirst] at hok
    exact nomatch hok

end Ok

end Completed

/-! ## The cut of the inputs -/

theorem nextBatchEnd_drop (inputs : List EmbeddingInput) (k start : ℕ) :
    nextBatchEnd inputs (k + start) = k + nextBatchEnd (inputs.drop k) start := by
  unfold nextBatchEnd
  rw [drop_drop]
  omega

theorem batchesFrom_drop (inputs : List EmbeddingInput) (k start : ℕ) :
    batchesFrom (inputs.drop k) start = batchesFrom inputs (k + start) := by
  fun_induction batchesFrom (inputs.drop k) start with
  | case1 start hstart stop ih =>
    have hlength : k + start < inputs.length := by
      rw [length_drop] at hstart
      omega
    conv_rhs => rw [batchesFrom, dif_pos hlength]
    dsimp only
    have hstop : nextBatchEnd inputs (k + start) = k + stop := nextBatchEnd_drop inputs k start
    rw [ih]
    congr 1
    · congr 1
      rw [hstop, drop_take, drop_take, drop_drop, Nat.add_sub_add_left]
    · rw [hstop]
  | case2 start hstart =>
    have hlength : ¬k + start < inputs.length := by
      rw [length_drop] at hstart
      omega
    rw [batchesFrom, dif_neg hlength]

/-- The inputs of the first batch. -/
def firstLength (inputs : List EmbeddingInput) : ℕ := nextBatchEnd inputs 0

theorem firstLength_pos (inputs : List EmbeddingInput) : 0 < firstLength inputs := by
  unfold firstLength nextBatchEnd
  omega

theorem batches_inputs (inputs : List EmbeddingInput) (h : inputs ≠ []) :
    (batches inputs).map PreparationBatch.inputs =
      inputs.take (firstLength inputs) ::
        (batches (inputs.drop (firstLength inputs))).map PreparationBatch.inputs := by
  have hlength : 0 < inputs.length := length_pos_iff.mpr h
  rw [batches, batchesFrom, dif_pos hlength]
  unfold batches
  rw [batchesFrom_drop]
  rfl

theorem batches_nil : batches [] = [] := by
  rw [batches, batchesFrom]
  rfl

theorem flatten_batches (inputs : List EmbeddingInput) :
    (batches inputs).flatMap PreparationBatch.inputs = inputs := by
  by_cases h : inputs = []
  · rw [h, batches_nil]
    rfl
  · have ih := flatten_batches (inputs.drop (firstLength inputs))
    rw [flatMap_def] at ih ⊢
    rw [batches_inputs inputs h, flatten_cons, ih, take_append_drop]
termination_by inputs.length
decreasing_by
  have hlength : 0 < inputs.length := length_pos_iff.mpr h
  have hpos := firstLength_pos inputs
  rw [length_drop]
  omega

/-! ## Bad inputs -/

section Bad

variable {ε σ τ : Type} [MessageError ε]

/-- The worker fails on the batches with a bad input, and only on these. -/
structure FailsExactlyOn (worker : EmbeddingWorker ε σ) (bad : EmbeddingInput → Prop) : Prop where
  fails : ∀ state batch, (∃ input ∈ batch, bad input) → ∃ error state',
    worker.embedBatch state batch = (.error error, state') ∧
      worker.isRetryableBatchError state' error = false
  embeds : ∀ state batch, (∀ input ∈ batch, ¬bad input) → ∃ (vectors : List Embedding) (state' : σ),
    worker.embedBatch state batch = (.ok (vectors.map .ok), state') ∧
      vectors.length = batch.length

/-- A bad input receives an error, another one an embedding. -/
def Receives (bad : EmbeddingInput → Prop) (input : EmbeddingInput)
    (result : Except ε Embedding) : Prop :=
  (bad input ∧ ∃ error, result = .error error) ∨ (¬bad input ∧ ∃ vector, result = .ok vector)

variable {worker : EmbeddingWorker ε σ} {bad : EmbeddingInput → Prop}

theorem FailsExactlyOn.answer (h : FailsExactlyOn worker bad) (state : σ)
    (batch : List EmbeddingInput) :
    ((∃ input ∈ batch, bad input) ∧ ∃ error state',
      worker.answer state batch = (.error error, state') ∧
        worker.isRetryableBatchError state' error = false) ∨
    ((∀ input ∈ batch, ¬bad input) ∧ ∃ (vectors : List Embedding) (state' : σ),
      worker.answer state batch = (.ok (vectors.map .ok), state') ∧
        vectors.length = batch.length) := by
  unfold EmbeddingWorker.answer
  by_cases hbad : ∃ input ∈ batch, bad input
  · obtain ⟨error, state', hembed, hretry⟩ := h.fails state batch hbad
    exact .inl ⟨hbad, error, state', by rw [hembed], hretry⟩
  · push Not at hbad
    obtain ⟨vectors, state', hembed, hlength⟩ := h.embeds state batch hbad
    refine .inr ⟨hbad, vectors, state', ?_, hlength⟩
    rw [hembed]
    dsimp only
    rw [if_pos (by rw [length_map, hlength])]

theorem length_of_answer {state state' : σ} {batch : List EmbeddingInput}
    {results : List (Except ε Embedding)}
    (h : worker.answer state batch = (.ok results, state')) : results.length = batch.length := by
  unfold EmbeddingWorker.answer at h
  split at h
  · split_ifs at h with hlength
    · cases h
      exact hlength
    · exact nomatch congrArg (·.1) h
  · exact nomatch congrArg (·.1) h

theorem eachCall_length (worker : EmbeddingWorker ε σ) :
    EachCall worker fun call => call.results.length = call.inputs.length where
  answered _ _ _ _ hanswer := length_of_answer hanswer
  failed _ _ _ _ _ _ := length_replicate

theorem FailsExactlyOn.eachCall (h : FailsExactlyOn worker bad)
    (hunit : ∀ state error, worker.batchErrorIsUnitFailure state error = false) :
    EachCall worker fun call => List.Forall₂ (Receives bad) call.inputs call.results where
  answered state batch results state' hanswer := by
    rcases h.answer state batch with ⟨-, error, after, herror, -⟩ | ⟨hgood, vectors, after, hok, hlength⟩
    · rw [hanswer] at herror
      exact nomatch congrArg (·.1) herror
    · rw [hanswer] at hok
      cases hok
      rw [forall₂_map_right_iff]
      refine forall₂_iff_zip.mpr ⟨hlength.symm, fun {input vector} hzip => ?_⟩
      exact .inr ⟨hgood input (of_mem_zip hzip).1, vector, rfl⟩
  failed state batch error state' hanswer halone := by
    rcases h.answer state batch with ⟨hbad, -⟩ | ⟨-, vectors, after, hok, -⟩
    · -- the errors are not unit failures, so the batch is one input
      have hone : batch.length = 1 := halone.resolve_left (by simp [hunit])
      obtain ⟨input, rfl⟩ := length_eq_one_iff.mp hone
      obtain ⟨other, hother, hbad⟩ := hbad
      rw [mem_singleton.mp hother] at hbad
      exact .cons (.inl ⟨hbad, _, rfl⟩) .nil
    · rw [hanswer] at hok
      exact nomatch congrArg (·.1) hok

/-- A run that returns has passed on the inputs in order, each once, with one result for each; and
if the worker fails exactly on the batches with a bad input, the bad inputs have an error and
the others an embedding, and the run returns unless the closure fails. -/
theorem runBatchesGrouped_spec (worker : EmbeddingWorker ε σ)
    (hunit : ∀ state error, worker.batchErrorIsUnitFailure state error = false)
    (inputs : List EmbeddingInput) (complete : Completion ε τ) (state : σ) (caller : τ) :
    (∀ state' caller' log,
      runBatchesGrouped worker inputs (logged complete) state (caller, []) =
          (.ok (), state', caller', log) →
        log.flatMap Call.inputs = inputs ∧
          ∀ call ∈ log, call.results.length = call.inputs.length) ∧
    ∀ bad, FailsExactlyOn worker bad →
      (∀ state' caller' log,
        runBatchesGrouped worker inputs (logged complete) state (caller, []) =
            (.ok (), state', caller', log) →
          ∀ call ∈ log, List.Forall₂ (Receives bad) call.inputs call.results) ∧
      ((∀ caller batch results, (complete caller batch results).1 = .ok ()) →
        (runBatchesGrouped worker inputs (logged complete) state (caller, [])).1 = .ok ()) := by
  have hcompletes : ∀ (holds : Call ε → Prop), EachCall worker holds → ∀ state' caller' log,
      runBatchesGrouped worker inputs (logged complete) state (caller, []) =
        (.ok (), state', caller', log) → Completes holds inputs log := by
    intro holds heach state' caller' log hrun
    obtain ⟨calls, hcalls, h⟩ := runBatches_completes heach complete _ _ _ hrun
    rw [flatten_batches] at h
    rw [show log = calls from hcalls]
    exact h
  refine ⟨fun state' caller' log hrun => ?_, fun bad hbad => ⟨fun state' caller' log hrun => ?_,
    fun hcomplete => ?_⟩⟩
  · have h := hcompletes _ (eachCall_length worker) _ _ _ hrun
    exact ⟨h.covers, h.each⟩
  · exact (hcompletes _ (hbad.eachCall hunit) _ _ _ hrun).each
  · have hlogged : ∀ caller batch results, (logged complete caller batch results).1 = .ok () :=
      fun caller batch results => hcomplete caller.1 batch results
    refine runBatches_ok hlogged ?_ _ _ _
    intro state batch error state' hanswer
    rcases hbad.answer state batch with ⟨-, error', after, herror, hretry⟩ | ⟨-, vectors, after, hok, -⟩
    · rw [hanswer] at herror
      cases herror
      exact hretry
    · rw [hanswer] at hok
      exact nomatch congrArg (·.1) hok

end Bad

instance : MessageError String := ⟨id, id⟩

theorem length_ones : (List.replicate dimensions (1 : Float32)).length = dimensions :=
  length_replicate

/-- A worker that fails on batches with more than 100 tokens in one input. -/
def pickyWorker : EmbeddingWorker String Unit where
  embedBatch _ batch :=
    if batch.any fun input => 100 < input.tokenCount then (.error "model returned no vector", ())
    else (.ok (batch.map fun _ =>
      .ok ⟨List.replicate dimensions 1, length_ones⟩), ())
  isRetryableBatchError _ _ := false
  batchErrorIsUnitFailure _ _ := false

theorem runBatchesGrouped_spec_picky :
    (runBatchesGrouped pickyWorker [⟨[1], [], 7⟩, ⟨[2], [], 700⟩, ⟨[3], [], 70⟩]
      (logged fun (_ : Unit) _ _ => (.ok (), ())) () ((), [])).1 = .ok () := by
  refine ((runBatchesGrouped_spec pickyWorker (fun _ _ => rfl) _ _ _ _).2
    (fun input => 100 < input.tokenCount) ⟨?_, ?_⟩).2 fun _ _ _ => rfl
  · rintro state batch ⟨input, hinput, hbad⟩
    refine ⟨_, (), if_pos ?_, rfl⟩
    exact any_eq_true.mpr ⟨input, hinput, decide_eq_true hbad⟩
  · intro state batch hgood
    refine ⟨batch.map fun _ => ⟨List.replicate dimensions 1, length_replicate⟩, (), ?_,
      length_map _⟩
    refine (if_neg ?_).trans (by rw [map_map]; rfl)
    rw [any_eq_true]
    rintro ⟨input, hinput, hbad⟩
    exact hgood input hinput (of_decide_eq_true hbad)

end Trufflepig.Semantic
