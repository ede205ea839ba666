import Trufflepig.Extract.Extraction
import Trufflepig.History.SourceDiff
import Trufflepig.Lib.Groups

/-!
# Declaration correspondence

Model of `src/history/source_diff/correspondence.rs`. A comparison pairs the
declarations of two sources in passes: by mapped position, by a shared change of
a name that is unique on both sides, and by a content that is unique on both
sides. What is left gets candidates, under a budget shared by all rows.

Hash maps are lists of entries. The order in which the source visits them is a
parameter (`HashOrders`), one for each loop over a map.
-/

namespace Trufflepig.History

open Lib Extract

/-- `enum DeclarationRelation`. -/
inductive DeclarationRelation where
  | unchanged | modified | moved | added | deleted | uncertain
  deriving DecidableEq, Repr

/-- `struct DeclarationCorrespondence`. -/
structure DeclarationCorrespondence where
  before : Option ℕ
  after : Option ℕ
  candidates : List ℕ
  candidatesTruncated : Bool
  relation : DeclarationRelation
  deriving DecidableEq, Repr

/-- `type DeclarationKey`. -/
abbrev DeclarationKey := String × String × Option String

/-- `key`. -/
def key (definition : Definition) : DeclarationKey :=
  (definition.name, definition.kind, definition.container)

/-- `struct MatchFact`. -/
structure MatchFact (K C : Type) where
  key : K
  start : ℕ
  content : Option C
  deriving DecidableEq, Repr

/-- `position`. The offsets of the callers start with zero, so the
source neither indexes out of bounds nor subtracts below zero. -/
def position (offsets : List ℕ) (start : ℕ) : ℕ × ℕ :=
  let line := partitionPoint (fun offset => offset ≤ start) offsets - 1
  (line, start - offsets.getD line 0)

/-- `content`. -/
def content (source : Bytes) (definition : Definition) : Option Bytes :=
  if definition.start ≤ definition.stop ∧ definition.stop ≤ source.length then
    let bytes := slice source definition.start definition.stop
    if bytes.isEmpty then none else some bytes
  else none

/-- The arguments of `match_facts`. -/
structure Comparison (K C : Type) where
  before : List (MatchFact K C)
  after : List (MatchFact K C)
  beforeOffsets : List ℕ
  afterOffsets : List ℕ
  complete : Bool
  diff : SourceDiff

/-- The orders in which the loops of `match_facts` visit the entries of their maps:
`before_groups`, the `before_content` of each key, and `after_groups`. -/
structure HashOrders (K C : Type) where
  beforeGroups : Iteration (K × List ℕ)
  beforeContent : K → Iteration (C × List ℕ)
  afterGroups : Iteration (K × List ℕ)

/-- `matches` and `used_after`. -/
structure MatchState where
  matched : ℕ → Option (ℕ × DeclarationRelation)
  usedAfter : ℕ → Bool

/-- `vec![None; ..]` and `vec![false; ..]`. -/
def MatchState.initial : MatchState := ⟨fun _ => none, fun _ => false⟩

/-- `matches[left] = Some((right, relation)); used_after[right] = true`. -/
def MatchState.record (s : MatchState) (left right : ℕ) (relation : DeclarationRelation) :
    MatchState :=
  ⟨Function.update s.matched left (some (right, relation)),
    Function.update s.usedAfter right true⟩

/-- `matches[left].is_none() && !used_after[right]`. -/
def MatchState.free (s : MatchState) (left right : ℕ) : Bool :=
  (s.matched left).isNone && !s.usedAfter right

variable {K C : Type} [DecidableEq K] [DecidableEq C]

/-! ## Groups -/

/-- The key of the fact at an index. -/
def factKey (facts : List (MatchFact K C)) (index : ℕ) : Option K := facts[index]?.map (·.key)

/-- The content of the fact at an index. -/
def factContent (facts : List (MatchFact K C)) (index : ℕ) : Option C :=
  facts[index]?.bind (·.content)

/-- The key and the position of the fact at an index. -/
def factPosition (facts : List (MatchFact K C)) (offsets : List ℕ) (index : ℕ) :
    Option (K × ℕ × ℕ) :=
  facts[index]?.map fun fact => (fact.key, position offsets fact.start)

/-- `group_definitions`. -/
def groupDefinitions (facts : List (MatchFact K C)) : Groups K :=
  groupBy (factKey facts) (List.range facts.length)

/-- `after_positions` (in `match_facts`). The counts of `before_positions` are the lengths of its
entries. -/
def groupPositions (facts : List (MatchFact K C)) (offsets : List ℕ) : Groups (K × ℕ × ℕ) :=
  groupBy (factPosition facts offsets) (List.range facts.length)

/-- `before_content` and `after_content`. -/
def groupContents (facts : List (MatchFact K C)) (indexes : List ℕ) : Groups C :=
  groupBy (factContent facts) indexes

/-! ## The passes -/

/-- The test `equal`. -/
def equalContents (left right : Option C) : Bool :=
  match left, right with
  | some left, some right => left = right
  | _, _ => false

/-- The body of the first loop of `match_facts`: an occurrence whose position maps to the
position of one occurrence with the same key. -/
def matchPosition (c : Comparison K C) (s : MatchState) (index : ℕ) : MatchState :=
  match c.before[index]? with
  | none => s
  | some definition =>
    let (line, column) := position c.beforeOffsets definition.start
    if (getEntry (groupPositions c.before c.beforeOffsets)
        (definition.key, line, column)).map List.length ≠ some 1 then s
    else
      match c.diff.mapBeforeLine line with
      | none => s
      | some mapped =>
        match getEntry (groupPositions c.after c.afterOffsets) (definition.key, mapped, column) with
        | some [candidate] =>
          if s.usedAfter candidate then s
          else
            s.record index candidate
              (if equalContents definition.content (factContent c.after candidate) then .unchanged
                else .modified)
        | _ => s

/-- `position(offsets, facts[index].start).0`. -/
def factLine (facts : List (MatchFact K C)) (offsets : List ℕ) (index : ℕ) : ℕ :=
  (position offsets ((facts[index]?.map (·.start)).getD 0)).1

/-- Lines 163–172: a name unique on both sides whose occurrences share a change. -/
def matchChange (c : Comparison K C) (s : MatchState) : List ℕ → List ℕ → MatchState
  | [left], [right] =>
    if s.free left right then
      if c.diff.sharesChange (factLine c.before c.beforeOffsets left)
          (factLine c.after c.afterOffsets right) then
        s.record left right .modified
      else s
    else s
  | _, _ => s

/-- The body of the loop over `before_content`: a content unique on both sides. -/
def matchMove (afterContent : Groups C) (s : MatchState) (entry : C × List ℕ) : MatchState :=
  match getEntry afterContent entry.1 with
  | none => s
  | some rights =>
    match entry.2, rights with
    | [left], [right] => if s.free left right then s.record left right .moved else s
    | _, _ => s

/-- The body of the loop over `before_groups`. -/
def matchGroup (c : Comparison K C) (orders : HashOrders K C) (s : MatchState)
    (entry : K × List ℕ) : MatchState :=
  match getEntry (groupDefinitions c.after) entry.1 with
  | none => s
  | some afterIndexes =>
    ((orders.beforeContent entry.1).order (groupContents c.before entry.2)).foldl
      (matchMove (groupContents c.after afterIndexes)) (matchChange c s entry.2 afterIndexes)

/-- Lines 114–203: all passes. -/
def matchPasses (c : Comparison K C) (orders : HashOrders K C) : MatchState :=
  (orders.beforeGroups.order (groupDefinitions c.before)).foldl (matchGroup c orders)
    ((List.range c.before.length).foldl (matchPosition c) MatchState.initial)

/-! ## The rows -/

/-- `uncertain_after` and `remaining_groups`. -/
structure Remaining (K : Type) where
  uncertainAfter : ℕ → Bool
  groups : K → Option (List ℕ × ℕ)

/-- The indexes of a group that are not used. -/
def MatchState.unused (s : MatchState) (indexes : List ℕ) : List ℕ :=
  indexes.filter fun index => !s.usedAfter index

/-- The body of the loop over `after_groups`. -/
def remainingGroup (c : Comparison K C) (s : MatchState) (r : Remaining K)
    (entry : K × List ℕ) : Remaining K :=
  let uncertain := (getEntry (groupDefinitions c.before) entry.1).any fun indexes =>
    indexes.any fun index => (s.matched index).isNone
  { uncertainAfter := fun index =>
      if index ∈ s.unused entry.2 then uncertain else r.uncertainAfter index
    groups := Function.update r.groups entry.1
      (some ((s.unused entry.2).take 64, (s.unused entry.2).length)) }

/-- Lines 205–223. -/
def remainingGroups (c : Comparison K C) (orders : HashOrders K C) (s : MatchState) :
    Remaining K :=
  (orders.afterGroups.order (groupDefinitions c.after)).foldl (remainingGroup c s)
    ⟨fun _ => false, fun _ => none⟩

/-- The row of a pair. -/
def pairRow (index after : ℕ) (relation : DeclarationRelation) : DeclarationCorrespondence :=
  ⟨some index, some after, [], false, relation⟩

/-- The row of an unmatched declaration before, for its group's remaining
candidates and `remaining_candidate_links`. -/
def openRow (complete : Bool) (index : ℕ) (remaining : List ℕ × ℕ) (links : ℕ) :
    DeclarationCorrespondence :=
  let candidates := remaining.1.take (min remaining.1.length links)
  ⟨some index, none, candidates, candidates.length < remaining.2,
    if remaining.2 = 0 ∧ complete then .deleted else .uncertain⟩

/-- The loop over the declarations before, with `remaining_candidate_links`. -/
def beforeRows (c : Comparison K C) (s : MatchState) (r : Remaining K) :
    List (MatchFact K C × ℕ) → ℕ → List DeclarationCorrespondence
  | [], _ => []
  | (definition, index) :: rest, links =>
    match s.matched index with
    | some (after, relation) => pairRow index after relation :: beforeRows c s r rest links
    | none =>
      let row := openRow c.complete index ((r.groups definition.key).getD ([], 0)) links
      row :: beforeRows c s r rest (links - row.candidates.length)

/-- The loop over `used_after`. -/
def afterRows (c : Comparison K C) (s : MatchState) (r : Remaining K) :
    List DeclarationCorrespondence :=
  (List.range c.after.length).filterMap fun index =>
    if s.usedAfter index then none
    else
      some ⟨none, some index, [], false,
        if c.complete ∧ r.uncertainAfter index = false then .added else .uncertain⟩

/-- `match_facts`. -/
def matchFacts (c : Comparison K C) (orders : HashOrders K C) : List DeclarationCorrespondence :=
  let s := matchPasses c orders
  let r := remainingGroups c orders s
  beforeRows c s r c.before.zipIdx 4096 ++ afterRows c s r

/-! ## Declarations of two sources -/

/-- The facts of an extraction (in `correspond_declarations`). -/
def declarationFacts (source : Bytes) (extraction : Extraction) :
    List (MatchFact DeclarationKey Bytes) :=
  extraction.definitions.map fun definition =>
    ⟨key definition, definition.start, content source definition⟩

/-- `correspond_declarations`. -/
def correspondDeclarations (orders : HashOrders DeclarationKey Bytes) (before after : Bytes)
    (beforeExtraction afterExtraction : Extraction) (diff : SourceDiff) :
    List DeclarationCorrespondence :=
  matchFacts
    { before := declarationFacts before beforeExtraction
      after := declarationFacts after afterExtraction
      beforeOffsets := lineOffsets before
      afterOffsets := lineOffsets after
      complete := beforeExtraction.status = .complete && afterExtraction.status = .complete
      diff := diff }
    orders

end Trufflepig.History
