import Trufflepig.Search.PathFilter

/-!
# Path filters select in SQL what they match

* `anchorsAtRoot_iff`: which indexed paths anchor a value.
* `PathNeedle.truth`: the expression of one value is its match.
* `selects_sqlClause`: the predicate of a filter selects the paths that it matches.

The text is read in three steps: what the lexer makes of it, the derivation of the
tokens, and the truth of the expression. Each step goes over one value first and then
along the rows of `OR` and `AND NOT`.
-/

namespace Trufflepig.Search

open List Lib
open Lib.Sql (Token Expr Reads Derives Truth Value)

/-! ## Ranges of paths -/

/-- The bound of a value is the value with its last byte one higher, and that byte
does not wrap. -/
theorem exists_upperBound (value : FilterValue) :
    ∃ init last, value.1 = init ++ [last] ∧ upperBound value.1 = init ++ [last + 1] ∧
      (last + 1).toNat = last.toNat + 1 := by
  obtain ⟨value, hne, hprintable⟩ := value
  obtain ⟨init, last, rfl⟩ := eq_nil_or_concat value |>.resolve_left hne
  have hlast : last ≤ 0x7e := (hprintable last (by simp)).2
  refine ⟨init, last, by simp, by simp [upperBound], ?_⟩
  revert hlast
  exact forall_byte (P := fun b => b ≤ 0x7e → (b + 1).toNat = b.toNat + 1) (by decide +kernel) last

/-- From a value up to its bound are the texts that start with it. -/
theorem range_upperBound_iff (value : FilterValue) (path : Bytes) :
    value.1 ≤ path ∧ path < upperBound value.1 ↔ value.1 <+: path := by
  obtain ⟨init, last, hvalue, hupper, hnext⟩ := exists_upperBound value
  rw [hupper, hvalue]
  exact range_prefix_iff hnext

/-- `.` and `/` are the bytes from `.` up to `0`. -/
theorem range_boundary_iff (value path : Bytes) :
    value ++ [0x2e] ≤ path ∧ path < value ++ [0x30] ↔
      value ++ [0x2e] <+: path ∨ value ++ [0x2f] <+: path := by
  rw [range_iff]
  constructor
  · rintro ⟨x, hlow, hhigh, hextends⟩
    rw [UInt8.le_iff_toNat_le] at hlow
    rw [UInt8.lt_iff_toNat_lt] at hhigh
    have hx : x.toNat = 0x2e ∨ x.toNat = 0x2f := by
      rw [show (0x2e : UInt8).toNat = 0x2e from rfl] at hlow
      rw [show (0x30 : UInt8).toNat = 0x30 from rfl] at hhigh
      omega
    rcases hx with hx | hx
    · rw [UInt8.toNat_inj.mp (show x.toNat = (0x2e : UInt8).toNat from hx)] at hextends
      exact Or.inl hextends
    · rw [UInt8.toNat_inj.mp (show x.toNat = (0x2f : UInt8).toNat from hx)] at hextends
      exact Or.inr hextends
  · rintro (hextends | hextends)
    · exact ⟨0x2e, by decide, by decide, hextends⟩
    · exact ⟨0x2f, by decide, by decide, hextends⟩

/-- Up to `VALUE\x01` there is only the value among printable texts. -/
theorem range_alone_iff (value : Bytes) (path : EncodedPath) :
    value ≤ path.1 ∧ path.1 < value ++ [0x01] ↔ path.1 = value := by
  rw [range_exact_iff]
  refine or_iff_left ?_
  rintro ⟨x, hx, hextends⟩
  have hlow : 0x21 ≤ x := (path.2 x (hextends.subset (by simp))).1
  rw [UInt8.lt_iff_toNat_lt] at hx
  rw [UInt8.le_iff_toNat_le] at hlow
  rw [show (0x21 : UInt8).toNat = 0x21 from rfl] at hlow
  rw [show (0x01 : UInt8).toNat = 0x01 from rfl] at hx
  omega

theorem existsInRange_iff (paths : List EncodedPath) (low high : Bytes) :
    existsInRange paths low high = true ↔ ∃ path ∈ paths, low ≤ path.1 ∧ path.1 < high := by
  rw [existsInRange, any_eq_true]
  refine exists_congr fun path => and_congr_right fun _ => ?_
  rw [Bool.and_eq_true, decide_eq_true_eq, decide_eq_true_eq]

/-- `path` is `value`, goes on after it with `.` or `/`, or starts with it where it
ends in `/`. -/
def Anchors (value path : Bytes) : Prop :=
  path = value ∨ value ++ [0x2e] <+: path ∨ value ++ [0x2f] <+: path ∨
    (value.getLast? = some 0x2f ∧ value <+: path)

theorem anchors_iff_of_slash {value path : Bytes} (h : value.getLast? = some 0x2f) :
    Anchors value path ↔ value <+: path := by
  constructor
  · rintro (rfl | hextends | hextends | ⟨-, hextends⟩)
    · exact prefix_refl path
    · exact (prefix_append value [0x2e]).trans hextends
    · exact (prefix_append value [0x2f]).trans hextends
    · exact hextends
  · exact fun hextends => Or.inr (Or.inr (Or.inr ⟨h, hextends⟩))

theorem anchors_iff_of_not_slash {value path : Bytes} (h : ¬ value.getLast? = some 0x2f) :
    Anchors value path ↔ (value ++ [0x2e] <+: path ∨ value ++ [0x2f] <+: path) ∨ path = value := by
  constructor
  · rintro (heq | hextends | hextends | ⟨hslash, -⟩)
    · exact Or.inr heq
    · exact Or.inl (Or.inl hextends)
    · exact Or.inl (Or.inr hextends)
    · exact absurd hslash h
  · rintro ((hextends | hextends) | heq)
    · exact Or.inr (Or.inl hextends)
    · exact Or.inr (Or.inr (Or.inl hextends))
    · exact Or.inl heq

theorem anchorsAtRoot_iff (paths : List EncodedPath) (value : FilterValue) :
    anchorsAtRoot paths value.1 = true ↔ ∃ path ∈ paths, Anchors value.1 path.1 := by
  by_cases hslash : value.1.getLast? = some 0x2f
  · rw [anchorsAtRoot, if_pos hslash, existsInRange_iff]
    refine exists_congr fun path => and_congr_right fun _ => ?_
    rw [range_upperBound_iff, anchors_iff_of_slash hslash]
  · rw [anchorsAtRoot, if_neg hslash, Bool.or_eq_true, existsInRange_iff, existsInRange_iff,
      ← exists_or]
    refine exists_congr fun path => ?_
    rw [range_boundary_iff, range_alone_iff, ← and_or_left, anchors_iff_of_not_slash hslash]

/-! ## The text of one value -/

/-- A column that the predicate is about. -/
structure Column where
  name : Bytes
  ne_nil : name ≠ []
  word : ∀ b ∈ name, Sql.isWordByte b = true
  isColumn : Sql.IsColumn name

/-- The column in the queries of the repository. -/
def Column.path : Column where
  name := ascii "f.path"
  ne_nil := by decide
  word := by decide +kernel
  isColumn := ⟨by decide, by decide, by decide, by decide, by decide⟩

def rangeTokens (column : Bytes) (low high : Bytes) : List Token :=
  [.opening, .word column, .comparison .ge, .text low, .word (ascii "AND"), .word column,
    .comparison .lt, .text high, .closing]

def instrTokens (column part : Bytes) : List Token :=
  [.word (ascii "instr"), .opening, .word column, .comma, .text part, .closing, .comparison .gt,
    .word (ascii "0")]

def PathNeedle.tokens (needle : PathNeedle) (column : Bytes) : List Token :=
  if needle.anchored then rangeTokens column needle.value (upperBound needle.value)
  else .opening :: (rangeTokens column needle.value (upperBound needle.value) ++
    .word (ascii "OR") :: instrTokens column needle.slashed) ++ [.closing]

section Reading

variable (column : Column) (needle : PathNeedle)

theorem reads_range :
    Reads .start (needle.range column.name)
      (rangeTokens column.name needle.value (upperBound needle.value)) .start := by
  have hopen : Reads .start (ascii "(") [.opening] .start := .of_run rfl
  have hge : Reads (.word column.name) (ascii ">=") [.word column.name, .comparison .ge] .start :=
    .of_run rfl
  have hand : Reads (.quote needle.value) (ascii " AND ")
      [.text needle.value, .word (ascii "AND")] .start :=
    .of_run rfl
  have hlt : Reads (.word column.name) (ascii "<") [.word column.name] .less := .of_run rfl
  have hclose : Reads (.quote (upperBound needle.value)) (ascii ")")
      [.text (upperBound needle.value), .closing] .start :=
    .of_run rfl
  have hcolumn := Sql.reads_word column.ne_nil column.word
  exact (((((((hopen.append hcolumn).append hge).append (Sql.reads_literal _)).append
    hand).append hcolumn).append hlt).append (Sql.reads_less_literal _)).append hclose

theorem reads_sql :
    Reads .start (needle.sql column.name) (needle.tokens column.name) .start := by
  rcases hanchored : needle.anchored with _ | _
  · have hopen : Reads .start (ascii "(") [.opening] .start := .of_run rfl
    have hor : Reads .start (ascii " OR instr(")
        [.word (ascii "OR"), .word (ascii "instr"), .opening] .start :=
      .of_run rfl
    have hcomma : Reads (.word column.name) (ascii ",") [.word column.name, .comma] .start :=
      .of_run rfl
    have hclose : Reads (.quote needle.slashed) (ascii ")>0)")
        [.text needle.slashed, .closing, .comparison .gt, .word (ascii "0"), .closing] .start :=
      .of_run rfl
    have hcolumn := Sql.reads_word column.ne_nil column.word
    have hall := (((((hopen.append (reads_range column needle)).append hor).append
      hcolumn).append hcomma).append (Sql.reads_literal needle.slashed)).append hclose
    rw [PathNeedle.sql, PathNeedle.tokens, hanchored]
    exact hall
  · rw [PathNeedle.sql, PathNeedle.tokens, hanchored]
    exact reads_range column needle

end Reading

/-! ## Its derivation -/

def rangeExpr (column low high : Bytes) : Expr :=
  .and (.compare .ge (.column column) (.text low)) (.compare .lt (.column column) (.text high))

def instrExpr (column part : Bytes) : Expr :=
  .compare .gt (.instr (.column column) (.text part)) (.number 0)

def PathNeedle.expr (needle : PathNeedle) (column : Bytes) : Expr :=
  if needle.anchored then rangeExpr column needle.value (upperBound needle.value)
  else .or (rangeExpr column needle.value (upperBound needle.value))
    (instrExpr column needle.slashed)

section Derivation

variable (column : Column)

theorem derives_range (low high : Bytes) :
    Derives .operand (rangeTokens column.name low high) (rangeExpr column.name low high) := by
  have hcolumn : Derives .operand [.word column.name] (.column column.name) :=
    .column column.isColumn
  have hlow : Derives .not [.word column.name, .comparison .ge, .text low]
      (.compare .ge (.column column.name) (.text low)) := .positive (.compare .ge hcolumn (.text low))
  have hhigh : Derives .not [.word column.name, .comparison .lt, .text high]
      (.compare .lt (.column column.name) (.text high)) :=
    .positive (.compare .lt hcolumn (.text high))
  have hrange := Derives.paren (.disjunct (.and (.conjunct hlow) hhigh))
  exact hrange

theorem derives_instr (part : Bytes) :
    Derives .comparison (instrTokens column.name part) (instrExpr column.name part) := by
  have hor : ∀ {ts e}, Derives .operand ts e → Derives .or ts e :=
    fun h => .disjunct (.conjunct (.positive (.single h)))
  have hcall := Derives.instr (hor (.column column.isColumn)) (hor (.text part))
  have hcompare := hcall.compare .gt (.number (show Sql.isNumber (ascii "0") = true by decide))
  exact hcompare

theorem PathNeedle.derives (needle : PathNeedle) :
    Derives .operand (needle.tokens column.name) (needle.expr column.name) := by
  rw [PathNeedle.tokens, PathNeedle.expr]
  rcases needle.anchored with _ | _
  · have hrange := derives_range column needle.value (upperBound needle.value)
    have hinstr := derives_instr column needle.slashed
    exact .paren (.or (.disjunct (.conjunct (.positive (.single hrange))))
      (.conjunct (.positive hinstr)))
  · exact derives_range column needle.value (upperBound needle.value)

end Derivation

/-! ## Its truth -/

/-- A row of the `files` table: its path, and the other columns of the query. -/
def fileRow (column : Column) (path : EncodedPath) (other : Bytes → Option Bytes) :
    Bytes → Option Bytes :=
  fun name => if name = column.name then some path.1 else other name

section Truth

variable (column : Column) (path : EncodedPath) (other : Bytes → Option Bytes)

theorem eval_column :
    Sql.eval (fileRow column path other) (.column column.name) = some (.text path.1) := by
  rw [Sql.eval, fileRow, if_pos rfl]
  rfl

theorem truth_range (value : FilterValue) :
    Truth (fileRow column path other) (rangeExpr column.name value.1 (upperBound value.1))
      (decide (value.1 <+: path.1)) := by
  have hcolumn := eval_column column path other
  have htext : ∀ text, Sql.eval (fileRow column path other) (.text text) = some (.text text) :=
    fun _ => rfl
  have hboth := (Sql.truth_compare .ge hcolumn (htext value.1)).and
    (Sql.truth_compare .lt hcolumn (htext (upperBound value.1)))
  have hvalue : (Sql.Comparison.holds .ge (.text path.1) (.text value.1) &&
      Sql.Comparison.holds .lt (.text path.1) (.text (upperBound value.1))) =
      decide (value.1 <+: path.1) := by
    rw [Bool.eq_iff_iff, decide_eq_true_eq, ← range_upperBound_iff, ← List.not_lt]
    simp [Sql.Comparison.holds, Value.less]
  rw [← hvalue]
  exact hboth

theorem truth_instr (part : Bytes) :
    Truth (fileRow column path other) (instrExpr column.name part)
      (decide (part <:+: path.1)) := by
  have hcall : Sql.eval (fileRow column path other) (.instr (.column column.name) (.text part)) =
      some (.int (Sql.instrAt path.1 part)) := by
    rw [Sql.eval, eval_column]
    rfl
  have hzero : Sql.eval (fileRow column path other) (.number 0) = some (.int (0 : ℕ)) := rfl
  have hcompare := Sql.truth_compare .gt hcall hzero
  have hvalue : Sql.Comparison.holds .gt (.int (Sql.instrAt path.1 part)) (.int (0 : ℕ)) =
      decide (part <:+: path.1) := by
    rw [Bool.eq_iff_iff, decide_eq_true_eq, ← Sql.instrAt_pos_iff]
    simp [Sql.Comparison.holds, Value.less]
  rw [← hvalue]
  exact hcompare

/-- The expression of a value is its match. -/
theorem PathNeedle.truth (needle : PathNeedle) :
    Truth (fileRow column path other) (needle.expr column.name) (needle.matchesPath path.1) := by
  obtain ⟨slashed, anchored, value, rfl⟩ := needle
  have hrange := truth_range column path other value
  have hinstr := truth_instr column path other (0x2f :: value.1)
  rcases anchored with _ | _
  · exact hrange.or hinstr
  · have hmatches : PathNeedle.matchesPath ⟨0x2f :: value.1, true, value, rfl⟩ path.1 =
        decide (value.1 <+: path.1) := Bool.or_false _
    rw [hmatches]
    exact hrange

end Truth

/-! ## The whole predicate -/

section Clause

variable (column : Column) (bound : BoundPathFilter)

/-- The tokens of the included values, joined by `OR`. -/
def includeTokens (column : Bytes) : List PathNeedle → List Token
  | [] => []
  | first :: rest =>
    .word (ascii "AND") :: (.opening ::
      (first.tokens column ++
        rest.flatMap fun needle => .word (ascii "OR") :: needle.tokens column) ++ [.closing])

def BoundPathFilter.tokens (column : Bytes) : List Token :=
  includeTokens column bound.includes ++
    bound.excludes.flatMap fun needle =>
      .word (ascii "AND") :: (.word (ascii "NOT") :: needle.tokens column)

/-- The condition `1` and the included values. -/
def includeExpr (column : Bytes) : List PathNeedle → Expr
  | [] => .number 1
  | first :: rest =>
    .and (.number 1) (rest.foldl (fun e needle => .or e (needle.expr column)) (first.expr column))

def BoundPathFilter.expr (column : Bytes) : Expr :=
  bound.excludes.foldl (fun e needle => .and e (.not (needle.expr column)))
    (includeExpr column bound.includes)

theorem reads_joinOr (first : PathNeedle) (rest : List PathNeedle) :
    Reads .start (joinOr ((first :: rest).map fun needle => needle.sql column.name))
      (first.tokens column.name ++
        rest.flatMap fun needle => .word (ascii "OR") :: needle.tokens column.name) .start := by
  have hor : Reads .start (ascii " OR ") [.word (ascii "OR")] .start := .of_run rfl
  rw [map_cons, joinOr, flatMap_map]
  exact (reads_sql column first).append
    (Sql.reads_flatMap (fun needle => hor.append (reads_sql column needle)) rest)

theorem reads_sqlClause :
    Reads .start (bound.sqlClause column.name) (bound.tokens column.name) .start := by
  have hexclude : Reads .start (ascii " AND NOT ") [.word (ascii "AND"), .word (ascii "NOT")]
      .start := .of_run rfl
  have hexcludes := Sql.reads_flatMap
    (fun needle : PathNeedle => hexclude.append (reads_sql column needle)) bound.excludes
  rw [BoundPathFilter.sqlClause, BoundPathFilter.tokens]
  refine Reads.append ?_ hexcludes
  rcases bound.includes with _ | ⟨first, rest⟩
  · exact .nil _
  · have hopen : Reads .start (ascii " AND (") [.word (ascii "AND"), .opening] .start := .of_run rfl
    have hclose : Reads .start (ascii ")") [.closing] .start := .of_run rfl
    exact (hopen.append (reads_joinOr column first rest)).append hclose

/-- The clause is empty or starts with a blank. -/
theorem sqlClause_blank :
    bound.sqlClause column.name = [] ∨ ∃ rest, bound.sqlClause column.name = 32 :: rest := by
  obtain ⟨_ | ⟨first, includes⟩, _ | ⟨first', excludes⟩⟩ := bound
  · exact Or.inl rfl
  all_goals exact Or.inr ⟨_, rfl⟩

theorem derives_sqlClause :
    Derives .or (.word (ascii "1") :: bound.tokens column.name) (bound.expr column.name) := by
  have hone : Derives .and [.word (ascii "1")] (.number 1) :=
    .conjunct (.positive (.single (.number (by decide))))
  have hnot : ∀ {ts e}, Derives .operand ts e → Derives .not ts e :=
    fun h => .positive (.single h)
  have hincludes : Derives .and (.word (ascii "1") :: includeTokens column.name bound.includes)
      (includeExpr column.name bound.includes) := by
    rcases bound.includes with _ | ⟨first, rest⟩
    · exact hone
    · have hrow := Derives.or_row
        (fun needle : PathNeedle => .conjunct (hnot (needle.derives column))) rest
        (.disjunct (.conjunct (hnot (first.derives column))))
      exact hone.and (hnot (.paren hrow))
  exact .disjunct (hincludes.and_row
    (fun needle : PathNeedle => .not (hnot (needle.derives column))) bound.excludes)

theorem truth_sqlClause (path : EncodedPath) (other : Bytes → Option Bytes) :
    Truth (fileRow column path other) (bound.expr column.name) (bound.matchesPath path.1) := by
  have hneedle := fun needle : PathNeedle => needle.truth column path other
  have hone : Truth (fileRow column path other) (.number 1) true := rfl
  have hincludes : Truth (fileRow column path other) (includeExpr column.name bound.includes)
      (bound.includes.isEmpty || bound.includes.any fun needle => needle.matchesPath path.1) := by
    rcases bound.includes with _ | ⟨first, rest⟩
    · exact hone
    · exact hone.and ((hneedle first).or_row hneedle rest)
  have hall := hincludes.and_row (fun needle => (hneedle needle).not) bound.excludes
  rw [BoundPathFilter.matchesPath, not_any_eq_all_not]
  exact hall

/-- The predicate of a filter selects the paths that it matches. -/
theorem selects_sqlClause (path : EncodedPath) (other : Bytes → Option Bytes) :
    Sql.selects (ascii "1" ++ bound.sqlClause column.name) (fileRow column path other) =
      some (bound.matchesPath path.1) :=
  Sql.selects_of_derives
    (Sql.lex_word_append (by decide) (by decide +kernel) (sqlClause_blank column bound)
      (reads_sqlClause column bound))
    (derives_sqlClause column bound) (truth_sqlClause column bound path other)

end Clause

/-- `bind` keeps the values in order; an included value is anchored iff some indexed
path anchors it, and the predicate selects what the bound filter matches. -/
theorem bind_selects (filter : PathFilter) (paths : List EncodedPath) (column : Column) :
    List.Forall₂ (fun value needle => needle.value = value.1 ∧
        (needle.anchored = true ↔ ∃ path ∈ paths, Anchors value.1 path.1))
      filter.includes (filter.bind paths).includes ∧
    List.Forall₂ (fun value needle => needle.value = value.1 ∧ needle.anchored = false)
      filter.excludes (filter.bind paths).excludes ∧
    ∀ (path : EncodedPath) (other : Bytes → Option Bytes),
      Sql.selects (ascii "1" ++ (filter.bind paths).sqlClause column.name)
          (fileRow column path other) = some ((filter.bind paths).matchesPath path.1) := by
  refine ⟨?_, ?_, selects_sqlClause column (filter.bind paths)⟩
  · refine forall₂_map_right_iff.mpr (forall₂_same.mpr fun value _ => ⟨rfl, ?_⟩)
    exact anchorsAtRoot_iff paths value
  · exact forall₂_map_right_iff.mpr (forall₂_same.mpr fun value _ => ⟨rfl, rfl⟩)

end Trufflepig.Search
