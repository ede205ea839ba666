import Trufflepig.History.Correspondence
import Trufflepig.Lib.Fallible

/-!
# Comparing fingerprints

Model of `src/history/source_diff/fingerprints.rs`, and of the facts that
`src/diagnostics/sessions/session_snapshot.rs` keeps of a file. A session keeps
the hashes of the lines, of the declarations and of their keys, but no source.
The hash and the serialiser of keys are parameters.
-/

namespace Trufflepig.History

open Lib Extract

/-- What the comparison of fingerprints fails with. -/
inductive FingerprintError where
  | coordinates
  | identity (error : IdentityError)
  deriving DecidableEq, Repr

/-- The message of an error. -/
def FingerprintError.message : FingerprintError → String
  | coordinates => "invalid fingerprint line coordinates"
  | identity error => error.message

/-- `struct FingerprintLines`. -/
structure FingerprintLines where
  offsets : List ℕ
  fingerprints : List ContentRevision

/-- `struct FingerprintFact`. -/
structure FingerprintFact where
  key : ContentRevision
  span : ByteSpan
  fingerprint : ContentRevision

/-- `FingerprintLines::validate`. -/
def FingerprintLines.validate (lines : FingerprintLines) : Except FingerprintError ℕ :=
  if lines.offsets.length = lines.fingerprints.length + 1 ∧ lines.offsets.head? = some 0 ∧
      (windows lines.offsets).all (fun pair => pair.1 < pair.2) then
    .ok (lines.offsets.getLast?.getD 0)
  else .error .coordinates

/-- `fingerprint_lines`. -/
def fingerprintLines (hash : Bytes → ContentRevision) (source : Bytes) : FingerprintLines where
  offsets := lineOffsets source
  fingerprints := (windows (lineOffsets source)).map fun span => hash (slice source span.1 span.2)

/-- `diff_fingerprints`. -/
def diffFingerprints (library : DiffLibrary) (before after : FingerprintLines) :
    Except FingerprintError SourceDiff := do
  let _ ← before.validate
  let _ ← after.validate
  pure (diffInterned library (InternedInput.new before.fingerprints after.fingerprints)
    before.offsets after.offsets)

/-- `usize::MAX`. -/
def usizeMax : ℕ := 2 ^ 64 - 1

/-- The closure `convert` (in `correspond_fingerprints`). -/
def convert : List FingerprintFact → Option ℕ → Except FingerprintError Unit
  | [], _ => .ok ()
  | fact :: facts, length =>
    match fact.span.validate (length.getD usizeMax) with
    | .error error => .error (.identity error)
    | .ok _ => convert facts length

/-- The facts to match. -/
def fingerprintFacts (facts : List FingerprintFact) :
    List (MatchFact ContentRevision ContentRevision) :=
  facts.map fun fact =>
    ⟨fact.key, fact.span.start, if fact.span.start < fact.span.stop then some fact.fingerprint else none⟩

/-- `Option::map(FingerprintLines::validate).transpose()`. -/
def validateLines : Option FingerprintLines → Except FingerprintError (Option ℕ)
  | none => .ok none
  | some lines => lines.validate.map some

/-- `correspond_fingerprints`. -/
def correspondFingerprints (library : DiffLibrary)
    (orders : HashOrders ContentRevision ContentRevision) (before after : List FingerprintFact)
    (beforeComplete afterComplete : Bool) (beforeLines afterLines : Option FingerprintLines) :
    Except FingerprintError (List DeclarationCorrespondence) := do
  let diff ← match beforeLines, afterLines with
    | some before, some after => diffFingerprints library before after
    | _, _ => pure SourceDiff.default
  let beforeLength ← validateLines beforeLines
  let afterLength ← validateLines afterLines
  convert before beforeLength
  convert after afterLength
  pure (matchFacts
    { before := fingerprintFacts before
      after := fingerprintFacts after
      beforeOffsets := (beforeLines.map (·.offsets)).getD [0]
      afterOffsets := (afterLines.map (·.offsets)).getD [0]
      complete := beforeComplete && afterComplete
      diff := diff }
    orders)

/-! ## The facts of a session -/

/-- The key of a declaration in a session: category, name, kind and container
(`capture` in `session_snapshot.rs`). -/
def sessionKey (definition : Definition) : String × String × String × Option String :=
  ("declaration", definition.name, definition.kind, definition.container)

/-- The facts that a session keeps of the declarations of a source
(`capture` in `session_snapshot.rs`). -/
def sessionFacts (hash : Bytes → ContentRevision)
    (keys : Codec (String × String × String × Option String)) (source : Bytes)
    (extraction : Extraction) : List FingerprintFact :=
  extraction.definitions.map fun definition =>
    { key := hash (keys.encode (sessionKey definition))
      span := ⟨definition.start, definition.stop⟩
      fingerprint := hash (slice source definition.start definition.stop) }

end Trufflepig.History
