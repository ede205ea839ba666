import Trufflepig.Lib.SqlGrammar
import Trufflepig.Lib.PrefixRange
import Trufflepig.Store.Paths

/-!
# Path filters

Model of `src/search/path_filter.rs`: the values of `file:` and `-file:`, how they are
bound to the indexed paths, the matcher on paths, and the text of the SQL predicate.
Texts are their bytes. The `files` table is the list of its paths; its errors are left
out.

Values are kept with the proof that they are printable and not empty, which is what
`encoded_value` returns (`encodedValue_spec`).
-/

namespace Trufflepig.Search

open List Lib
open Store (hexValue upperHexDigit)

/-- Visible ASCII. -/
def Printable (text : Bytes) : Prop := ∀ b ∈ text, 0x21 ≤ b ∧ b ≤ 0x7e

instance (text : Bytes) : Decidable (Printable text) := List.decidableBAll _ text

/-- A path as the index stores it. -/
def EncodedPath := { path : Bytes // Printable path }

/-- A value of a filter. -/
def FilterValue := { value : Bytes // value ≠ [] ∧ Printable value }

/-! ## Values -/

/-- The loop that takes `./` off the front of a value. -/
def stripDotSlash : Bytes → Bytes
  | 0x2e :: 0x2f :: rest => stripDotSlash rest
  | value => value

def isAsciiHexdigit (byte : UInt8) : Bool := (hexValue byte).isSome

/-- `u8::to_ascii_uppercase`. -/
def toAsciiUppercase (byte : UInt8) : UInt8 :=
  if 0x61 ≤ byte ∧ byte ≤ 0x7a then byte - 0x20 else byte

/-- `%{byte:02X}`. -/
def percent (byte : UInt8) : Bytes :=
  [0x25, upperHexDigit (byte.toNat / 16), upperHexDigit (byte.toNat % 16)]

/-- A byte of `encoded_value` that starts no escape. -/
def encodeOne (byte : UInt8) : Bytes :=
  if byte = 0x25 then percent byte
  else if 0x21 ≤ byte ∧ byte ≤ 0x7e ∧ byte ≠ 0x3a ∧ byte ≠ 0x40 then [byte]
  else percent byte

/-- The loop of `encoded_value` from its cursor on. -/
def encodeFrom : Bytes → Bytes
  | [] => []
  | byte :: rest =>
    match rest with
    | high :: low :: rest' =>
      if byte = 0x25 ∧ isAsciiHexdigit high ∧ isAsciiHexdigit low then
        [0x25, toAsciiUppercase high, toAsciiUppercase low] ++ encodeFrom rest'
      else encodeOne byte ++ encodeFrom (high :: low :: rest')
    | rest => encodeOne byte ++ encodeFrom rest

/-- `encoded_value`. -/
def encodedValue (value : Bytes) : Option Bytes :=
  let value := stripDotSlash value
  if value = [] then none else some (encodeFrom value)

theorem printable_append {a b : Bytes} (ha : Printable a) (hb : Printable b) :
    Printable (a ++ b) := by
  exact forall_mem_append.mpr ⟨ha, hb⟩

theorem printable_percent (byte : UInt8) : Printable (percent byte) :=
  forall_byte (P := fun byte => Printable (percent byte)) (by decide +kernel) byte

theorem printable_encodeOne (byte : UInt8) : Printable (encodeOne byte) := by
  rw [encodeOne]
  split_ifs with _ h
  · exact printable_percent byte
  · intro b hb
    rw [mem_singleton.mp hb]
    exact ⟨h.1, h.2.1⟩
  · exact printable_percent byte

theorem printable_escape {high low : UInt8} (hhigh : isAsciiHexdigit high = true)
    (hlow : isAsciiHexdigit low = true) :
    Printable [0x25, toAsciiUppercase high, toAsciiUppercase low] := by
  have hdigit : ∀ byte, isAsciiHexdigit byte = true →
      0x21 ≤ toAsciiUppercase byte ∧ toAsciiUppercase byte ≤ 0x7e :=
    forall_byte (by decide +kernel)
  intro b hb
  simp only [mem_cons, not_mem_nil, or_false] at hb
  rcases hb with rfl | rfl | rfl
  · decide
  · exact hdigit high hhigh
  · exact hdigit low hlow

theorem printable_encodeFrom (value : Bytes) : Printable (encodeFrom value) := by
  fun_induction encodeFrom value with
  | case1 => exact fun _ h => absurd h not_mem_nil
  | case2 byte high low rest h ih =>
    exact printable_append (printable_escape h.2.1 h.2.2) ih
  | case3 byte _ _ _ _ ih | case4 byte _ _ ih => exact printable_append (printable_encodeOne byte) ih

theorem encodeOne_ne_nil (byte : UInt8) : encodeOne byte ≠ [] := by
  rw [encodeOne]
  split_ifs
  all_goals exact cons_ne_nil _ _

theorem encodeFrom_ne_nil {value : Bytes} (h : value ≠ []) : encodeFrom value ≠ [] := by
  fun_cases encodeFrom value with
  | case1 => exact absurd rfl h
  | case2 => exact cons_ne_nil _ _
  | case3 byte | case4 byte => exact fun heq => encodeOne_ne_nil byte (append_eq_nil_iff.mp heq).1

/-- What `encoded_value` returns is a value of a filter. -/
theorem encodedValue_spec {value encoded : Bytes} (h : encodedValue value = some encoded) :
    encoded ≠ [] ∧ Printable encoded := by
  rw [encodedValue] at h
  split_ifs at h with hempty
  rw [← Option.some.inj h]
  exact ⟨encodeFrom_ne_nil hempty, printable_encodeFrom _⟩

/-- `encoded_value` with the proof about what it returns. -/
def filterValue (value : Bytes) : Option FilterValue :=
  match h : encodedValue value with
  | none => none
  | some encoded => some ⟨encoded, encodedValue_spec h⟩

structure PathFilter where
  includes : List FilterValue
  excludes : List FilterValue

namespace PathFilter

/-- `PathFilter::default`. -/
def default : PathFilter := ⟨[], []⟩

/-- `include`. -/
def addInclude (filter : PathFilter) (value : Bytes) : PathFilter :=
  match filterValue value with
  | none => filter
  | some value => { filter with includes := filter.includes ++ [value] }

/-- `exclude`. -/
def addExclude (filter : PathFilter) (value : Bytes) : PathFilter :=
  match filterValue value with
  | none => filter
  | some value => { filter with excludes := filter.excludes ++ [value] }

end PathFilter

/-! ## Binding -/

/-- `upper_bound`: the last byte plus one. -/
def upperBound (value : Bytes) : Bytes :=
  match value.getLast? with
  | none => value
  | some last => value.dropLast ++ [last + 1]

/-- The query of `anchors_at_root`: a path from `low` up to `high`. -/
def existsInRange (paths : List EncodedPath) (low high : Bytes) : Bool :=
  paths.any fun path => low ≤ path.1 && path.1 < high

/-- `anchors_at_root`. -/
def anchorsAtRoot (paths : List EncodedPath) (value : Bytes) : Bool :=
  if value.getLast? = some 0x2f then existsInRange paths value (upperBound value)
  else existsInRange paths (value ++ [0x2e]) (value ++ [0x30]) ||
    existsInRange paths value (value ++ [0x01])

/-- A value as `/VALUE`, and whether it is matched at the root only. -/
structure PathNeedle where
  slashed : Bytes
  anchored : Bool
  isSlashed : ∃ value : FilterValue, slashed = 0x2f :: value.1

namespace PathNeedle

def new (value : FilterValue) (anchored : Bool) : PathNeedle :=
  ⟨0x2f :: value.1, anchored, value, rfl⟩

def value (needle : PathNeedle) : Bytes := needle.slashed.drop 1

/-- `PathNeedle::matches`. -/
def matchesPath (needle : PathNeedle) (path : Bytes) : Bool :=
  needle.value <+: path || !needle.anchored && needle.slashed <:+: path

end PathNeedle

/-- A filter with the matching of every value fixed. -/
structure BoundPathFilter where
  includes : List PathNeedle
  excludes : List PathNeedle

/-- `PathFilter::bind`. -/
def PathFilter.bind (filter : PathFilter) (paths : List EncodedPath) : BoundPathFilter where
  includes := filter.includes.map fun value => .new value (anchorsAtRoot paths value.1)
  excludes := filter.excludes.map fun value => .new value false

/-- `BoundPathFilter::matches`. -/
def BoundPathFilter.matchesPath (bound : BoundPathFilter) (path : Bytes) : Bool :=
  (bound.includes.isEmpty || bound.includes.any fun needle => needle.matchesPath path) &&
    !bound.excludes.any fun needle => needle.matchesPath path

/-! ## The SQL predicate -/

/-- `sql_literal`. -/
def sqlLiteral (value : Bytes) : Bytes :=
  ascii "'" ++ (value.flatMap fun b => if b = 39 then ascii "''" else [b]) ++ ascii "'"

/-- The range of `PathNeedle::sql`. -/
def PathNeedle.range (needle : PathNeedle) (column : Bytes) : Bytes :=
  ascii "(" ++ column ++ ascii ">=" ++ sqlLiteral needle.value ++ ascii " AND " ++ column ++
    ascii "<" ++ sqlLiteral (upperBound needle.value) ++ ascii ")"

/-- `PathNeedle::sql`. -/
def PathNeedle.sql (needle : PathNeedle) (column : Bytes) : Bytes :=
  if needle.anchored then needle.range column
  else
    ascii "(" ++ needle.range column ++ ascii " OR instr(" ++ column ++ ascii "," ++
      sqlLiteral needle.slashed ++ ascii ")>0)"

/-- `alternatives.join(" OR ")`. -/
def joinOr : List Bytes → Bytes
  | [] => []
  | first :: rest => first ++ rest.flatMap fun alternative => ascii " OR " ++ alternative

/-- `BoundPathFilter::sql_clause`. -/
def BoundPathFilter.sqlClause (bound : BoundPathFilter) (column : Bytes) : Bytes :=
  (if bound.includes.isEmpty then []
    else ascii " AND (" ++ joinOr (bound.includes.map fun needle => needle.sql column) ++
      ascii ")") ++
  bound.excludes.flatMap fun needle => ascii " AND NOT " ++ needle.sql column

end Trufflepig.Search
