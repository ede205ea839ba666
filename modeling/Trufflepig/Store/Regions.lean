import Trufflepig.Extract.Extraction

/-!
# Model of `partition_source`

`src/store/regions.rs` cuts a source into the regions that the full-text index
stores. Definition spans that are valid in the source are swept into a forest;
the outermost nodes of at most `REGION_BYTES` bytes are preferred spans, and
the partition loop closes each region so that no preferred span is cut.

Vectors are lists. A `Vec` that is used as a stack has its top at the head of
the list, and an index that only moves forward through a vector is the list of
the elements it has not passed.
-/

namespace Trufflepig.Store

open Lib Extract

/-- `const REGION_BYTES` (`regions.rs`). -/
def regionBytes : ℕ := 4096

/-- `struct RegionSpan`. -/
structure RegionSpan where
  start : ℕ
  stop : ℕ
  definition : Option ℕ
  deriving DecidableEq, Repr

/-- `struct DefinitionSpan`. -/
structure DefinitionSpan where
  definition : ℕ
  start : ℕ
  stop : ℕ
  deriving DecidableEq, Repr

/-- `struct DefinitionNode`. -/
inductive DefinitionNode where
  | mk (span : DefinitionSpan) (children : List DefinitionNode)

namespace DefinitionNode

/-- `node.span`. -/
def span : DefinitionNode → DefinitionSpan
  | mk span _ => span

/-- `node.children`. -/
def children : DefinitionNode → List DefinitionNode
  | mk _ children => children

/-- `parent.children.push(node)`. -/
def push (parent node : DefinitionNode) : DefinitionNode :=
  mk parent.span (parent.children ++ [node])

@[simp] theorem span_push (parent node : DefinitionNode) : (parent.push node).span = parent.span :=
  rfl

@[simp] theorem children_push (parent node : DefinitionNode) :
    (parent.push node).children = parent.children ++ [node] :=
  rfl

end DefinitionNode

/-! ## Definition spans -/

/-- `is_utf8_boundary`. -/
def isUtf8Boundary (source : Bytes) (offset : ℕ) : Bool :=
  offset = 0 || offset = source.length || source.getD offset 0 &&& 0xc0 != 0x80

/-- The filter of `valid_definition_spans`. -/
def validSpan (source : Bytes) (value : Definition) : Bool :=
  value.start < value.stop && value.stop ≤ source.length &&
    isUtf8Boundary source value.start && isUtf8Boundary source value.stop

/-- The sort key `(span.start, Reverse(span.end), span.definition)`. -/
def spanOrder (a b : DefinitionSpan) : Bool :=
  a.start < b.start ||
    (a.start = b.start && (b.stop < a.stop || (a.stop = b.stop && a.definition ≤ b.definition)))

/-- `valid_definition_spans`. `dedup_by_key` keeps the first of
each run of spans with one `(start, end)`. -/
def validDefinitionSpans (source : Bytes) (definitions : List Definition) : List DefinitionSpan :=
  let spans := definitions.zipIdx.filterMap fun (value, definition) =>
    if validSpan source value then some ⟨definition, value.start, value.stop⟩ else none
  (spans.mergeSort spanOrder).destutter fun a b => (a.start, a.stop) ≠ (b.start, b.stop)

/-- `attach_definition_node`, on `(roots, stack)`. -/
def attachDefinitionNode (roots stack : List DefinitionNode) (node : DefinitionNode) :
    List DefinitionNode × List DefinitionNode :=
  match stack with
  | parent :: stack => (roots, parent.push node :: stack)
  | [] => (roots ++ [node], [])

theorem length_attachDefinitionNode (roots stack : List DefinitionNode) (node : DefinitionNode) :
    (attachDefinitionNode roots stack node).2.length = stack.length := by
  cases stack <;> rfl

/-- `while stack.last().is_some_and(|node| start >= node.span.end)`: attach every open node that
ends at or before `start`. -/
def closeBefore (start : ℕ) (roots : List DefinitionNode) :
    List DefinitionNode → List DefinitionNode × List DefinitionNode
  | [] => (roots, [])
  | node :: stack =>
    if start ≥ node.span.stop then
      closeBefore start (attachDefinitionNode roots stack node).1
        (attachDefinitionNode roots stack node).2
    else (roots, node :: stack)
termination_by stack => stack.length
decreasing_by simp [length_attachDefinitionNode]

/-- `while let Some(node) = stack.pop()`. -/
def closeAll (roots : List DefinitionNode) : List DefinitionNode → List DefinitionNode
  | [] => roots
  | node :: stack =>
    closeAll (attachDefinitionNode roots stack node).1 (attachDefinitionNode roots stack node).2
termination_by stack => stack.length
decreasing_by simp [length_attachDefinitionNode]

/-- The body of `for &span in spans`. A span that ends after
the innermost open node crosses it and is dropped. -/
def sweepSpan (state : List DefinitionNode × List DefinitionNode) (span : DefinitionSpan) :
    List DefinitionNode × List DefinitionNode :=
  let state := closeBefore span.start state.1 state.2
  match state.2 with
  | node :: stack =>
    if span.stop > node.span.stop then state else (state.1, .mk span [] :: node :: stack)
  | [] => (state.1, [.mk span []])

/-- `definition_forest`. -/
def definitionForest (spans : List DefinitionSpan) : List DefinitionNode :=
  let state := spans.foldl sweepSpan ([], [])
  closeAll state.1 state.2

mutual
/-- `collect_preferred_spans`. -/
def collectPreferredSpans : DefinitionNode → List RegionSpan
  | .mk span children =>
    if span.stop - span.start ≤ regionBytes then [⟨span.start, span.stop, some span.definition⟩]
    else collectPreferredList children
/-- `for child in &node.children`. -/
def collectPreferredList : List DefinitionNode → List RegionSpan
  | [] => []
  | node :: nodes => collectPreferredSpans node ++ collectPreferredList nodes
end

/-- The sort key `(span.start, span.end)`. -/
def regionOrder (a b : RegionSpan) : Bool :=
  a.start < b.start || (a.start = b.start && a.stop ≤ b.stop)

/-- `preferred` as the partition loop finds it (in `partition_source`). -/
def preferredSpans (spans : List DefinitionSpan) : List RegionSpan :=
  (collectPreferredList (definitionForest spans)).mergeSort regionOrder

/-- `containing_definition`: `min_by_key` returns the first
minimum. -/
def containingDefinition (start stop : ℕ) (spans : List DefinitionSpan) : Option ℕ :=
  ((spans.filter fun span => span.start ≤ start && stop ≤ span.stop).argmin
    fun span => toLex (span.stop - span.start, span.definition)).map (·.definition)

/-! ## The partition loop -/

/-- `iter().rposition(p)`: the position of the last element satisfying `p`. -/
def rposition {α : Type*} (p : α → Bool) : List α → Option ℕ
  | [] => none
  | x :: xs =>
    match rposition p xs with
    | some i => some (i + 1)
    | none => if p x then some 0 else none

/-- `while candidate > start && !is_utf8_boundary(source, candidate)`. -/
def retreat (source : Bytes) (start : ℕ) : ℕ → ℕ
  | 0 => 0
  | candidate + 1 =>
    if candidate + 1 > start && !isUtf8Boundary source (candidate + 1) then
      retreat source start candidate
    else candidate + 1

/-- `split_boundary`. -/
def splitBoundary (source : Bytes) (start limit : ℕ) : ℕ :=
  let newline := (rposition (· == 10) ((source.drop start).take (limit - start))).map
    fun offset => start + offset + 1
  let boundary := newline.getD limit
  if boundary = source.length || isUtf8Boundary source boundary then boundary
  else retreat source start boundary

/-- `while next_preferred < preferred.len()`, from the spans at
and after `next_preferred` and the current `end`. Returns the final `end`
and the spans that `next_preferred` has not passed. -/
def scanPreferred (source : Bytes) (cursor limit : ℕ) : List RegionSpan → ℕ → ℕ × List RegionSpan
  | [], stop => (stop, [])
  | span :: rest, stop =>
    if span.start < cursor then scanPreferred source cursor limit rest stop
    else if span.start ≥ limit then (splitBoundary source stop limit, span :: rest)
    else if span.stop > limit then (span.start, span :: rest)
    else if span.stop = limit then (span.stop, rest)
    else scanPreferred source cursor limit rest span.stop

/-- The `end` that the scan and the final split propose for the region at
`cursor`. -/
def proposedEnd (source : Bytes) (preferred : List RegionSpan) (cursor limit : ℕ) : ℕ :=
  let scan := scanPreferred source cursor limit preferred cursor
  if scan.1 = cursor then splitBoundary source cursor limit
  else if scan.1 < limit && scan.2.isEmpty then splitBoundary source scan.1 limit
  else scan.1

/-- One iteration of `while cursor < source.len()`: the `end` of
the region that starts at `cursor`, with the guard against malformed
input. -/
def regionEnd (source : Bytes) (preferred : List RegionSpan) (cursor : ℕ) : ℕ :=
  let limit := min (cursor + regionBytes) source.length
  let stop := proposedEnd source preferred cursor limit
  if stop > source.length || stop ≤ cursor then min (max limit (cursor + 1)) source.length
  else stop

/-- The guard alone makes every iteration advance inside the source. -/
theorem regionEnd_progress (source : Bytes) (preferred : List RegionSpan) {cursor : ℕ}
    (h : cursor < source.length) :
    cursor < regionEnd source preferred cursor ∧ regionEnd source preferred cursor ≤ source.length := by
  unfold regionEnd
  dsimp only
  split_ifs with hg <;> simp at * <;> omega

/-- `while preferred[preferred_index].end <= cursor`. -/
def skipPassed (preferred : List RegionSpan) (cursor : ℕ) : List RegionSpan :=
  preferred.dropWhile fun span => span.stop ≤ cursor

/-- `while cursor < source.len()`. -/
def partitionLoop (source : Bytes) (spans : List DefinitionSpan) (preferred : List RegionSpan)
    (cursor : ℕ) : List RegionSpan :=
  if _h : cursor < source.length then
    ⟨cursor, regionEnd source (skipPassed preferred cursor) cursor,
      containingDefinition cursor (regionEnd source (skipPassed preferred cursor) cursor) spans⟩ ::
      partitionLoop source spans (skipPassed preferred cursor)
        (regionEnd source (skipPassed preferred cursor) cursor)
  else []
termination_by source.length - cursor
decreasing_by exact Nat.sub_lt_sub_left _h (regionEnd_progress source _ _h).1

/-- `partition_source`. -/
def partitionSource (source : Bytes) (definitions : List Definition) : List RegionSpan :=
  if source.isEmpty then []
  else
    let spans := validDefinitionSpans source definitions
    partitionLoop source spans (preferredSpans spans) 0

end Trufflepig.Store
