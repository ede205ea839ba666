import Trufflepig.Identity
import Trufflepig.Lib.BinarySearch
import Trufflepig.Lib.Blocks
import Trufflepig.Lib.Interning

/-!
# Line diffs of original bytes

Model of `src/history/source_diff.rs`. Sources are compared by lines with their
terminators. The lines are interned: equal lines get equal numbers, in the order
of first occurrence. The diff library (`imara_diff`, histogram algorithm) sees
the two lists of numbers only and returns hunks; it is the parameter
`DiffLibrary`, with the one property of its hunks that the code relies on.
-/

namespace Trufflepig.History

open Lib

/-- `Range<usize>` over lines. -/
structure LineRange where
  start : ℕ
  stop : ℕ
  deriving DecidableEq, Repr

/-- `Range::contains`. -/
def LineRange.contains (range : LineRange) (line : ℕ) : Bool :=
  range.start ≤ line && line < range.stop

/-- `struct SourceChange`. -/
structure SourceChange where
  before : ByteSpan
  after : ByteSpan
  beforeLines : LineRange
  afterLines : LineRange
  deriving DecidableEq, Repr

/-- `struct LineCorrespondence`. -/
structure LineCorrespondence where
  before : LineRange
  after : LineRange
  deriving DecidableEq, Repr

/-- `struct SourceDiff`. -/
structure SourceDiff where
  changes : List SourceChange
  unchangedLines : List LineCorrespondence
  deriving DecidableEq, Repr

/-- `SourceDiff::default()`. -/
def SourceDiff.default : SourceDiff := ⟨[], []⟩

/-- `SourceDiff::map_before_line`. -/
def SourceDiff.mapBeforeLine (diff : SourceDiff) (line : ℕ) : Option ℕ :=
  match diff.unchangedLines[partitionPoint (fun run => run.before.stop ≤ line)
      diff.unchangedLines]? with
  | none => none
  | some run =>
    if run.before.contains line then some (run.after.start + line - run.before.start) else none

/-- `SourceDiff::shares_change`. -/
def SourceDiff.sharesChange (diff : SourceDiff) (beforeLine afterLine : ℕ) : Bool :=
  match diff.changes[partitionPoint (fun change => change.beforeLines.stop ≤ beforeLine)
      diff.changes]? with
  | none => false
  | some change => change.beforeLines.contains beforeLine && change.afterLines.contains afterLine

/-! ## Lines -/

/-- The tokens of a byte source: its lines, each with its terminator. -/
def byteLines : Bytes → List Bytes
  | [] => []
  | b :: rest =>
    if b = 10 then [b] :: byteLines rest
    else
      match byteLines rest with
      | [] => [[b]]
      | line :: lines => (b :: line) :: lines

/-- The offsets after the newlines of a source that starts at `start`. -/
def newlineEnds (start : ℕ) (source : Bytes) : List ℕ :=
  (source.zipIdx start).filterMap fun (byte, index) => if byte = 10 then some (index + 1) else none

/-- `line_offsets`. -/
def lineOffsets (source : Bytes) : List ℕ :=
  if (0 :: newlineEnds 0 source).getLast? ≠ some source.length then
    0 :: newlineEnds 0 source ++ [source.length]
  else 0 :: newlineEnds 0 source

/-! ## Interning -/

/-- `InternedInput`: the numbers of the tokens of both sides. -/
structure InternedInput where
  before : List ℕ
  after : List ℕ
  deriving DecidableEq, Repr

/-- `InternedInput::new`. -/
def InternedInput.new {τ : Type} [DecidableEq τ] (before after : List τ) : InternedInput where
  before := (internTokens [] before).2
  after := (internTokens (internTokens [] before).1 after).2

/-! ## Hunks -/

/-- `imara_diff::Hunk`. -/
structure Hunk where
  before : LineRange
  after : LineRange
  deriving DecidableEq, Repr

/-- The hunks from the positions `b` and `a` on are sorted, disjoint and in range,
and the tokens outside them are the same on both sides. -/
def ValidHunks {τ : Type} (before after : List τ) : List Hunk → ℕ → ℕ → Prop
  | [], b, a => before.drop b = after.drop a ∧ b ≤ before.length ∧ a ≤ after.length
  | h :: hunks, b, a =>
    b ≤ h.before.start ∧ a ≤ h.after.start ∧
      slice before b h.before.start = slice after a h.after.start ∧
      h.before.start ≤ h.before.stop ∧ h.after.start ≤ h.after.stop ∧
      h.before.stop ≤ before.length ∧ h.after.stop ≤ after.length ∧
      ValidHunks before after hunks h.before.stop h.after.stop

/-- `Diff::compute` with `postprocess_no_heuristic` and `hunks`. -/
structure DiffLibrary where
  hunks : InternedInput → List Hunk
  valid : ∀ input, ValidHunks input.before input.after (hunks input) 0 0

/-! ## `diff_interned` -/

/-- The change of a hunk (in `diff_interned`). -/
def hunkChange (beforeOffsets afterOffsets : List ℕ) (hunk : Hunk) : SourceChange where
  before := ⟨beforeOffsets.getD hunk.before.start 0, beforeOffsets.getD hunk.before.stop 0⟩
  after := ⟨afterOffsets.getD hunk.after.start 0, afterOffsets.getD hunk.after.stop 0⟩
  beforeLines := hunk.before
  afterLines := hunk.after

/-- The run of unchanged lines between two positions, if it is not empty on the
side of `before`. -/
def unchangedRun (beforeEnd beforeStart afterEnd afterStart : ℕ) : List LineCorrespondence :=
  if beforeEnd < beforeStart then [⟨⟨beforeEnd, beforeStart⟩, ⟨afterEnd, afterStart⟩⟩] else []

/-- The loop of `diff_interned` over the hunks left, with `before_end` and
`after_end`. -/
def diffLoop (input : InternedInput) (beforeOffsets afterOffsets : List ℕ) :
    List Hunk → ℕ → ℕ → SourceDiff
  | [], beforeEnd, afterEnd =>
    ⟨[], unchangedRun beforeEnd input.before.length afterEnd input.after.length⟩
  | hunk :: hunks, beforeEnd, afterEnd =>
    ⟨hunkChange beforeOffsets afterOffsets hunk
        :: (diffLoop input beforeOffsets afterOffsets hunks hunk.before.stop hunk.after.stop).changes,
      unchangedRun beforeEnd hunk.before.start afterEnd hunk.after.start
        ++ (diffLoop input beforeOffsets afterOffsets hunks hunk.before.stop
          hunk.after.stop).unchangedLines⟩

/-- `diff_interned`. -/
def diffInterned (library : DiffLibrary) (input : InternedInput)
    (beforeOffsets afterOffsets : List ℕ) : SourceDiff :=
  diffLoop input beforeOffsets afterOffsets (library.hunks input) 0 0

/-- `diff_sources`. -/
def diffSources (library : DiffLibrary) (before after : Bytes) : SourceDiff :=
  diffInterned library (InternedInput.new (byteLines before) (byteLines after))
    (lineOffsets before) (lineOffsets after)

end Trufflepig.History
