import Trufflepig.History.CommitLog
import Trufflepig.History.Lines
import Trufflepig.Lib.Runs
import Trufflepig.Search.Lanes

/-!
# Reading the attributions of lines (`history/blame.rs`)

`blame` selects the lines of a span and reads the porcelain output of Git for them: a header with a
commit and two line numbers, details, and the line itself behind a tab. Neighbouring lines of one
commit are joined into runs, and runs are left out until the reply fits.
-/

namespace Trufflepig.History

open Lib

/-- What `blame` fails with behind the selection of its target. -/
inductive BlameError where
  | incompleteRecord | unexpectedLine | transformed | incompleteCoverage | budgetTooSmall
  | history (error : HistoryError)
  | encode (message : String)
  deriving DecidableEq, Repr

/-- The messages that the source writes. -/
def BlameError.message : BlameError → Option String
  | incompleteRecord => some "history_unavailable: incomplete blame record"
  | unexpectedLine => some "history_unavailable: unexpected blame source line"
  | transformed => some "history_unavailable: Git attributes transformed supplied source bytes"
  | incompleteCoverage => some "history_unavailable: incomplete blame source coverage"
  | budgetTooSmall => some "budget_too_small: attribution run does not fit"
  | history error => error.message
  | encode message => some message

/-! ## The selection -/

/-- The source of a target, and a span inside it. -/
structure BlameTarget where
  bytes : Bytes
  span : ByteSpan
  inside : span.start ≤ span.stop ∧ span.stop ≤ bytes.length
  fits : bytes.length < 2 ^ 63

namespace BlameTarget

/-- The first and the last line (in `blame`). -/
def lineSpan (target : BlameTarget) : ℕ × ℕ :=
  Search.lineSpan target.bytes target.span.start target.span.stop

/-- `count`. -/
def count (target : BlameTarget) : ℕ :=
  if target.span.start = target.span.stop then 0 else target.lineSpan.2 - target.lineSpan.1 + 1

/-- `expected_lines`: lines with their indexes. -/
def expected (target : BlameTarget) : List (Bytes × ℕ) :=
  ((byteLines target.bytes).zipIdx.drop (target.lineSpan.1 - 1)).take target.count

end BlameTarget

/-- `strip_suffix(b"\n").unwrap_or`. -/
def stripNewline (line : Bytes) : Bytes := if line.getLast? = some 10 then line.dropLast else line

/-! ## Lines of the output -/

/-- `pending`: the commit, the line in the commit and the line in the source. -/
structure BlameHeader where
  commit : Bytes
  original : ℕ
  finalLine : ℕ
  deriving DecidableEq, Repr

/-- What a line is attributed to. -/
structure Attribution where
  commit : Bytes
  original : ℕ
  ignored : Bool
  unblamable : Bool
  deriving DecidableEq, Repr

/-- A run of lines. -/
structure BlameRun where
  commit : Bytes
  originalStart : ℕ
  startLine : ℕ
  lines : ℕ
  ignored : Bool
  unblamable : Bool
  deriving DecidableEq, Repr

/-- The variables of the loop. -/
structure BlameState where
  runs : List BlameRun
  used : ℕ
  pending : Option BlameHeader
  ignored : Bool
  unblamable : Bool
  expected : List (Bytes × ℕ)

/-- `HUNK_BYTES` (`staging.rs`). -/
def hunkBytes : ℕ := 8 * 1024 * 1024

/-- The bytes that a run reserves. -/
def runBytes : ℕ := 3 * 1024

/-- `str::parse::<u64>`. -/
def parseU64 (text : Bytes) : Except HistoryError ℕ :=
  let digits :=
    match asciiChars text with
    | '+' :: digits => digits
    | digits => digits
  if digits ≠ [] ∧ digits.all Char.isDigit ∧ Nat.ofDigitChars 10 digits 0 < 2 ^ 64 then
    .ok (Nat.ofDigitChars 10 digits 0)
  else .error .invalidNumber

/-- The addition of two `u64`, without the check for overflow of a debug build. -/
def addU64 (a b : ℕ) : ℕ := (a + b) % 2 ^ 64

/-- A run with a line more, if `can_join`. -/
def joinRun (run : BlameRun) (entry : ℕ × Attribution) : Option BlameRun :=
  if run.commit = entry.2.commit ∧ addU64 run.originalStart run.lines = entry.2.original ∧
      addU64 run.startLine run.lines = entry.1 ∧ run.ignored = entry.2.ignored ∧
      run.unblamable = entry.2.unblamable then
    some { run with lines := run.lines + 1 }
  else none

/-- The run of one line. -/
def singleRun (entry : ℕ × Attribution) : BlameRun :=
  ⟨entry.2.commit, entry.2.original, entry.1, 1, entry.2.ignored, entry.2.unblamable⟩

/-- A line of the source. -/
def stepContent (state : BlameState) (content : Bytes) : Except BlameError BlameState :=
  match state.pending with
  | none => .error .incompleteRecord
  | some header =>
    match state.expected with
    | [] => .error .unexpectedLine
    | (line, index) :: expected =>
      if content = stripNewline line ∧ header.finalLine = index + 1 then
        let entry : ℕ × Attribution :=
          (header.finalLine, ⟨header.commit, header.original, state.ignored, state.unblamable⟩)
        match state.runs.getLast?.bind (joinRun · entry) with
        | some joined =>
          .ok ⟨state.runs.dropLast ++ [joined], state.used, none, false, false, expected⟩
        | none =>
          match reserve hunkBytes state.used runBytes with
          | .error error => .error (.history error)
          | .ok used => .ok ⟨state.runs ++ [singleRun entry], used, none, false, false, expected⟩
      else .error .transformed

/-- The line `ignored`. -/
def ignoredLine : Bytes := [0x69, 0x67, 0x6e, 0x6f, 0x72, 0x65, 0x64]

/-- The line `unblamable`. -/
def unblamableLine : Bytes := [0x75, 0x6e, 0x62, 0x6c, 0x61, 0x6d, 0x61, 0x62, 0x6c, 0x65]

/-- A line of the output as a header; most lines are none. -/
def readHeader (line : Bytes) : Except BlameError (Option BlameHeader) :=
  match fromUtf8 line with
  | .error _ => .ok none
  | .ok text =>
    match splitWhitespace text with
    | commit :: original :: finalLine :: _ =>
      match GitOid.parse commit with
      | .error _ => .ok none
      | .ok _ =>
        match parseU64 original with
        | .error error => .error (.history error)
        | .ok original =>
          match parseU64 finalLine with
          | .error error => .error (.history error)
          | .ok finalLine => .ok (some ⟨commit, original, finalLine⟩)
    | _ => .ok none

/-- The body of the loop. -/
def stepLine (state : BlameState) (line : Bytes) : Except BlameError BlameState :=
  match line with
  | 9 :: content => stepContent state content
  | line =>
    if line = ignoredLine then .ok { state with ignored := true }
    else if line = unblamableLine then .ok { state with unblamable := true }
    else
      match readHeader line with
      | .error error => .error error
      | .ok none => .ok state
      | .ok (some header) => .ok { state with pending := some header }

/-- The loop over the output and what is checked behind it. -/
def blameRuns (target : BlameTarget) (output : Bytes) : Except BlameError (List BlameRun) := do
  let state ← (splitAtByte 10 output).foldlM stepLine ⟨[], 0, none, false, false, target.expected⟩
  if state.expected = [] ∧ state.pending = none then .ok state.runs
  else .error .incompleteCoverage

/-! ## The reply -/

/-- The fields of the reply that depend on the runs. -/
structure BlameReply where
  runs : List BlameRun
  runsTotal : ℕ
  truncated : Bool
  deriving DecidableEq, Repr

/-- The reply with the first `kept` runs. -/
def blameReply (runs : List BlameRun) (kept : ℕ) : BlameReply :=
  ⟨runs.take kept, runs.length, kept < runs.length⟩

section Fit

variable (encode : BlameReply → Except String Bytes) (fits : Bytes → Bool)

/-- The loop that leaves runs out. -/
def fitRuns (runs : List BlameRun) : ℕ → Except BlameError BlameReply
  | 0 =>
    match encode (blameReply runs 0) with
    | .error message => .error (.encode message)
    | .ok text => if fits text && runs.isEmpty then .ok (blameReply runs 0) else .error .budgetTooSmall
  | kept + 1 =>
    match encode (blameReply runs (kept + 1)) with
    | .error message => .error (.encode message)
    | .ok text =>
      if fits text then .ok (blameReply runs (kept + 1)) else fitRuns runs kept

/-- `blame` on the output of Git. -/
def blame (target : BlameTarget) (output : Bytes) : Except BlameError BlameReply := do
  let runs ← blameRuns target output
  fitRuns encode fits runs runs.length

end Fit

end Trufflepig.History
