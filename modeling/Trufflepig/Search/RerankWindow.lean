import Trufflepig.Search.Lanes

/-!
# The rerank window (`search/rerank_window.rs`)

The first hits of a ranking are put in the order of the scores of a model, within the tiers of
their evidence.

* `permuteInPlace_perm`, `rerank_perm`: the hits stay the same.
-/

namespace Trufflepig.Search

open Lib Results

/-- `RERANK_WINDOW`. -/
def rerankWindow : ℕ := 32

/-- `BODY_CLAMP_BYTES`. -/
def bodyClampBytes : ℕ := 4096

/-! ## Permutations in place -/

section Permute

variable {α : Type}

/-- The `while` loop at one position (in `permute_in_place`); a position is swapped away at most
once for each element. -/
def permuteAt (i : ℕ) : ℕ → Array α × Array ℕ → Array α × Array ℕ
  | 0, state => state
  | fuel + 1, (slice, destinations) =>
    match destinations[i]? with
    | none => (slice, destinations)
    | some j =>
      if j = i then (slice, destinations)
      else permuteAt i fuel (slice.swapIfInBounds i j, destinations.swapIfInBounds i j)

/-- `permute_in_place`. -/
def permuteInPlace (slice : Array α) (destinations : Array ℕ) : Array α :=
  ((List.range destinations.size).foldl
    (fun state i => permuteAt i (destinations.size + 1) state) (slice, destinations)).1

theorem swapIfInBounds_perm (xs : Array α) (i j : ℕ) : (xs.swapIfInBounds i j).Perm xs := by
  rw [Array.swapIfInBounds_def]
  split_ifs
  · exact Array.swap_perm ..
  · exact .refl xs
  · exact .refl xs

theorem permuteAt_perm (i fuel : ℕ) (state : Array α × Array ℕ) :
    (permuteAt i fuel state).1.Perm state.1 := by
  fun_induction permuteAt i fuel state with
  | case1 state => exact .refl _
  | case2 => exact .refl _
  | case3 => exact .refl _
  | case4 fuel slice destinations j _ _ ih => exact ih.trans (swapIfInBounds_perm slice i j)

theorem permuteInPlace_perm (slice : Array α) (destinations : Array ℕ) :
    (permuteInPlace slice destinations).Perm slice := by
  have hfold : ∀ (positions : List ℕ) (state : Array α × Array ℕ),
      (positions.foldl (fun state i => permuteAt i (destinations.size + 1) state) state).1.Perm
        state.1 := by
    intro positions
    induction positions with
    | nil => exact fun state => .refl _
    | cons i positions ih =>
      intro state
      rw [List.foldl_cons]
      exact (ih _).trans (permuteAt_perm i _ state)
  exact hfold _ _

end Permute

/-! ## Scores -/

/-- `f32::is_finite`. -/
def isFinite (x : Float32) : Bool := x.toBits.toNat % 2 ^ 31 < 0x7f800000

/-- The place of `f32` values in the order of `f32::total_cmp`. -/
def totalKey32 (x : Float32) : ℤ :=
  let bits := x.toBits.toNat
  if bits < 2 ^ 31 then bits else 2 ^ 31 - 1 - bits

/-- `clamp_document`. -/
def clampDocument (bytes : Bytes) : Option Bytes :=
  let clamped := bytes.take bodyClampBytes
  let stop := validUpTo clamped
  if stop = 0 then none else some (clamped.take stop)

/-- `substr(bytes, start + 1, length)` of SQLite: NULL if there are no bytes at all. -/
def sqlSubstr (bytes : Bytes) (start length : ℕ) : Option Bytes :=
  if bytes = [] then none else some ((bytes.drop start).take length)

/-- `rusqlite::Error`, as far as a read of bytes from a NULL gives one. -/
inductive FetchError where
  | invalidColumnType
  deriving DecidableEq, Repr

/-- The contents of the file of a hit. -/
def hitSource (snapshot : Snapshot) (hit : Hit) : Option SourceRow :=
  (snapshot.files.find? fun file => file.path.1 = hit.path).bind snapshot.withContents

/-- The body of a hit in the snapshot (in `fetch_window_bodies`); a hit without a span is one of a
file. -/
def windowBody (snapshot : Snapshot) (hit : Hit) : Except FetchError (Option Bytes) :=
  match hitSource snapshot hit with
  | none => .ok none
  | some source =>
    let (start, stop) := if hit.start = hit.stop then (0, bodyClampBytes) else (hit.start, hit.stop)
    match sqlSubstr source.bytes start (stop - start) with
    | none => .error .invalidColumnType
    | some body => .ok (clampDocument body)

/-- The documents among the bodies, with their positions. -/
def documentsOf (bodies : List (Option Bytes)) : List (Bytes × ℕ) :=
  bodies.zipIdx.filterMap fun (body, position) => body.map fun text => (text, position)

/-- `fetch_window_bodies`. -/
def fetchWindowBodies (snapshot : Snapshot) (window : List Hit) :
    Except FetchError (List (Bytes × ℕ)) := do
  let bodies ← window.mapM (windowBody snapshot)
  return documentsOf bodies

/-- The scores by position: `window_scores` (in `apply`). -/
def windowScores (scored : List (ℕ × Float32)) (position : ℕ) : Option Float32 :=
  (scored.find? fun entry => entry.1 = position).bind fun entry =>
    if isFinite entry.2 then some entry.2 else none

/-- The comparison of two scores. -/
def scoreOrder (left right : Option Float32) : Ordering :=
  match left, right with
  | some left, some right => compare (totalKey32 right) (totalKey32 left)
  | left, right => compare right.isSome left.isSome

variable [Unicode]

/-- The order of the positions. -/
def sourceOrder (policy : FusionPolicy) (window : List Hit) (scores : ℕ → Option Float32)
    (left right : ℕ) : Ordering :=
  let tier := fun position => (window[position]?).map fun hit => (FileEvidence.ofHit hit policy).tier
  ((compare (tier left) (tier right)).then (scoreOrder (scores left) (scores right))).then
    (compare left right)

/-- Where the positions go to. -/
def destinations (sources : List ℕ) : Array ℕ :=
  sources.zipIdx.foldl (fun targets (source, target) => targets.setIfInBounds source target)
    (Array.replicate sources.length 0)

/-- The `RerankScorer`, as a function of the documents. -/
abbrev Scorer := List Bytes → Except String (List Float32)

/-- `apply`, without the status that it adds to the coverage. -/
def rerank (snapshot : Snapshot) (queryText : String) (policy : FusionPolicy) (scorer : Scorer)
    (hits : List Hit) : List Hit :=
  if queryText.isEmpty || hits.isEmpty then hits
  else
    let window := hits.take rerankWindow
    match fetchWindowBodies snapshot window with
    | .error _ => hits
    | .ok fetched =>
      if fetched.isEmpty then hits
      else
        match scorer (fetched.map Prod.fst) with
        | .error _ => hits
        | .ok scores =>
          if scores.length ≠ fetched.length then hits
          else
            let byPosition := windowScores ((fetched.map Prod.snd).zip scores)
            let sources := orderBy (sourceOrder policy window byPosition) (List.range window.length)
            (permuteInPlace window.toArray (destinations sources)).toList ++ hits.drop rerankWindow

theorem rerank_perm (snapshot : Snapshot) (queryText : String) (policy : FusionPolicy)
    (scorer : Scorer) (hits : List Hit) : (rerank snapshot queryText policy scorer hits).Perm hits := by
  fun_cases rerank snapshot queryText policy scorer hits with
  | case1 | case2 | case3 | case4 | case5 => exact .refl _
  | case6 _ window fetched _ _ scores _ _ byPosition sources =>
    have hwindow : (permuteInPlace window.toArray (destinations sources)).toList.Perm window :=
      Array.perm_iff_toList_perm.mp (permuteInPlace_perm ..)
    exact (hwindow.append_right _).trans (.of_eq (List.take_append_drop ..))

end Trufflepig.Search
