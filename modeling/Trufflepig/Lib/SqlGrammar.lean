import Trufflepig.Lib.SqlExpr

/-!
# The grammar of SQL expressions

* `Derives`: the grammar, with one level for each strength of binding.
* `parsed_of_derives`: the parser finds the expression of a derivation, by induction
  on the derivation.
* `selects_of_derives`: the rows that a condition with a derivation selects.
-/

namespace Trufflepig.Lib.Sql

open List

/-- The strengths of binding, from operands to `OR`. -/
inductive Level where
  | operand | comparison | not | and | or
  deriving DecidableEq

/-- A word that names a column. -/
structure IsColumn (name : Bytes) : Prop where
  number : isNumber name = false
  and : isKeyword "AND" name = false
  or : isKeyword "OR" name = false
  not : isKeyword "NOT" name = false
  instr : isKeyword "INSTR" name = false

inductive Derives : Level → List Token → Expr → Prop where
  | text (value : Bytes) : Derives .operand [.text value] (.text value)
  | number {name : Bytes} (h : isNumber name = true) :
      Derives .operand [.word name] (.number (numberValue name))
  | column {name : Bytes} (h : IsColumn name) : Derives .operand [.word name] (.column name)
  | instr {as bs : List Token} {a b : Expr} (ha : Derives .or as a) (hb : Derives .or bs b) :
      Derives .operand (.word (ascii "instr") :: .opening :: as ++ .comma :: bs ++ [.closing])
        (.instr a b)
  | paren {ts : List Token} {e : Expr} (h : Derives .or ts e) :
      Derives .operand (.opening :: ts ++ [.closing]) e
  | single {ts : List Token} {e : Expr} (h : Derives .operand ts e) : Derives .comparison ts e
  | compare {as bs : List Token} {a b : Expr} (op : Comparison) (ha : Derives .operand as a)
      (hb : Derives .operand bs b) :
      Derives .comparison (as ++ .comparison op :: bs) (.compare op a b)
  | positive {ts : List Token} {e : Expr} (h : Derives .comparison ts e) : Derives .not ts e
  | not {ts : List Token} {e : Expr} (h : Derives .not ts e) :
      Derives .not (.word (ascii "NOT") :: ts) (.not e)
  | conjunct {ts : List Token} {e : Expr} (h : Derives .not ts e) : Derives .and ts e
  | and {as bs : List Token} {a b : Expr} (ha : Derives .and as a) (hb : Derives .not bs b) :
      Derives .and (as ++ .word (ascii "AND") :: bs) (.and a b)
  | disjunct {ts : List Token} {e : Expr} (h : Derives .and ts e) : Derives .or ts e
  | or {as bs : List Token} {a b : Expr} (ha : Derives .or as a) (hb : Derives .and bs b) :
      Derives .or (as ++ .word (ascii "OR") :: bs) (.or a b)

/-! ## What may follow an expression -/

/-- The tokens do not go on with a comparison. -/
def EndsComparison (rest : List Token) : Prop := ∀ op rest', rest ≠ .comparison op :: rest'

/-- The tokens go on neither with a comparison nor with `AND`. -/
def EndsAnd (rest : List Token) : Prop :=
  EndsComparison rest ∧ ∀ name rest', rest = .word name :: rest' → isKeyword "AND" name = false

/-- The tokens go on with no operator. -/
def EndsOr (rest : List Token) : Prop :=
  EndsAnd rest ∧ ∀ name rest', rest = .word name :: rest' → isKeyword "OR" name = false

theorem endsOr_nil : EndsOr [] := by
  refine ⟨⟨?_, ?_⟩, ?_⟩
  all_goals exact fun _ _ h => absurd h (cons_ne_nil _ _).symm

theorem endsComparison_word (name : Bytes) (rest : List Token) :
    EndsComparison (.word name :: rest) :=
  fun _ _ h => Token.noConfusion (List.cons.inj h).1

theorem endsAnd_or (rest : List Token) : EndsAnd (.word (ascii "OR") :: rest) := by
  refine ⟨endsComparison_word _ rest, fun name rest' h => ?_⟩
  rw [← Token.word.inj (List.cons.inj h).1]
  decide

theorem endsOr_closing (rest : List Token) : EndsOr (.closing :: rest) := by
  refine ⟨⟨?_, ?_⟩, ?_⟩
  all_goals exact fun _ _ h => Token.noConfusion (List.cons.inj h).1

theorem endsOr_comma (rest : List Token) : EndsOr (.comma :: rest) := by
  refine ⟨⟨?_, ?_⟩, ?_⟩
  all_goals exact fun _ _ h => Token.noConfusion (List.cons.inj h).1

/-- The tokens do not start with `NOT`. -/
def StartsPositive (ts : List Token) : Prop :=
  ∀ name rest, ts = .word name :: rest → isKeyword "NOT" name = false

variable {level : Level} {ts : List Token} {e : Expr}

theorem StartsPositive.append (h : StartsPositive ts) (hne : ts ≠ [])
    (rest : List Token) : StartsPositive (ts ++ rest) := by
  obtain ⟨t, ts, rfl⟩ := exists_cons_of_ne_nil hne
  intro name rest' heq
  rw [cons_append] at heq
  exact h name ts (by rw [(List.cons.inj heq).1])

theorem startsPositive_word {name : Bytes} (h : isKeyword "NOT" name = false) (ts : List Token) :
    StartsPositive (.word name :: ts) := by
  intro name' rest heq
  rw [← Token.word.inj (List.cons.inj heq).1]
  exact h

/-! ## The steps of the parser -/

section Steps

variable {n : ℕ} {rest : List Token} {e : Expr}

theorem parseAndTail_end (h : EndsAnd rest) (hn : 1 ≤ n) :
    parseAndTail n e rest = some (e, rest) := by
  obtain ⟨m, rfl⟩ : ∃ m, n = m + 1 := ⟨n - 1, by omega⟩
  rcases rest with _ | ⟨_ | _ | _ | _ | _ | _, rest⟩
  case cons.word name =>
    exact if_neg (show ¬ isKeyword "AND" name = true by rw [h.2 name rest rfl]; decide)
  all_goals rfl

theorem parseOrTail_end (h : EndsOr rest) (hn : 1 ≤ n) :
    parseOrTail n e rest = some (e, rest) := by
  obtain ⟨m, rfl⟩ : ∃ m, n = m + 1 := ⟨n - 1, by omega⟩
  rcases rest with _ | ⟨_ | _ | _ | _ | _ | _, rest⟩
  case cons.word name =>
    exact if_neg (show ¬ isKeyword "OR" name = true by rw [h.2 name rest rfl]; decide)
  all_goals rfl

theorem parseNot_positive (h : StartsPositive rest) :
    parseNot (n + 1) rest = parseComparison n rest := by
  rcases rest with _ | ⟨_ | _ | _ | _ | _ | _, rest⟩
  case cons.word name =>
    exact if_neg (show ¬ isKeyword "NOT" name = true by rw [h name rest rfl]; decide)
  all_goals rfl

theorem parseComparison_single
    (h : parseOperand n ts = some (e, rest)) (hrest : EndsComparison rest) :
    parseComparison (n + 1) ts = some (e, rest) := by
  rw [parseComparison, h]
  rcases rest with _ | ⟨_ | _ | _ | _ | _ | op, rest⟩
  case cons.comparison => exact absurd rfl (hrest op rest)
  all_goals rfl

end Steps

/-! ## Derivations are found -/

/-- What the parser makes of the tokens of a derivation, whatever follows them. The
depth it needs is bounded by the number of tokens; a row of operators uses one
more for each. -/
def Parsed : Level → List Token → Expr → Prop
  | .operand, ts, e => StartsPositive ts ∧ ∀ n rest, 6 * ts.length + 1 ≤ n →
      parseOperand n (ts ++ rest) = some (e, rest)
  | .comparison, ts, e => StartsPositive ts ∧ ∀ n rest, 6 * ts.length + 2 ≤ n →
      EndsComparison rest → parseComparison n (ts ++ rest) = some (e, rest)
  | .not, ts, e => ∀ n rest, 6 * ts.length + 3 ≤ n → EndsComparison rest →
      parseNot n (ts ++ rest) = some (e, rest)
  | .and, ts, e => ∀ n rest, 6 * ts.length + 4 ≤ n → EndsComparison rest →
      ∃ m, n ≤ m + ts.length ∧ parseAnd n (ts ++ rest) = parseAndTail m e rest
  | .or, ts, e => ∀ n rest, 6 * ts.length + 5 ≤ n → EndsAnd rest →
      ∃ m, n ≤ m + ts.length ∧ parseOr n (ts ++ rest) = parseOrTail m e rest

theorem Derives.ne_nil (h : Derives level ts e) :
    ts ≠ [] := by
  induction h <;> simp_all

theorem Derives.length_pos (h : Derives level ts e) :
    1 ≤ ts.length := length_pos_of_ne_nil h.ne_nil

/-- Digits are no letters. -/
theorem isKeyword_of_isNumber {name : Bytes} (h : isNumber name = true) :
    isKeyword "NOT" name = false := by
  have hmap : name.map (fun b => if 97 ≤ b ∧ b ≤ 122 then b - 32 else b) = name := by
    conv_rhs => rw [← map_id name]
    refine map_congr_left fun b hb => ?_
    have hdigit := all_eq_true.mp h b hb
    revert hdigit
    exact forall_byte (P := fun b => (decide (48 ≤ b) && decide (b ≤ 57)) = true →
      (if 97 ≤ b ∧ b ≤ 122 then b - 32 else b) = id b) (by decide +kernel) b
  rw [isKeyword, hmap]
  refine decide_eq_false fun heq => ?_
  rw [heq] at h
  exact absurd h (by decide)

section Parsed

variable {ts as bs : List Token} {e a b : Expr}

/-- A whole row of `AND`. -/
theorem Parsed.and_end (h : Parsed .and ts e) {n : ℕ} {rest : List Token}
    (hn : 6 * ts.length + 4 ≤ n) (hrest : EndsAnd rest) :
    parseAnd n (ts ++ rest) = some (e, rest) := by
  obtain ⟨m, hm, hparse⟩ := h n rest hn hrest.1
  rw [hparse, parseAndTail_end hrest (by omega)]

/-- A whole row of `OR`. -/
theorem Parsed.or_end (h : Parsed .or ts e) {n : ℕ} {rest : List Token}
    (hn : 6 * ts.length + 5 ≤ n) (hrest : EndsOr rest) :
    parseOr n (ts ++ rest) = some (e, rest) := by
  obtain ⟨m, hm, hparse⟩ := h n rest hn hrest.1
  rw [hparse, parseOrTail_end hrest (by omega)]

theorem parsed_text (value : Bytes) : Parsed .operand [.text value] (.text value) := by
  refine ⟨fun _ _ h => Token.noConfusion (List.cons.inj h).1, fun n rest hn => ?_⟩
  obtain ⟨m, rfl⟩ : ∃ m, n = m + 1 := ⟨n - 1, by omega⟩
  rfl

theorem parsed_number {name : Bytes} (h : isNumber name = true) :
    Parsed .operand [.word name] (.number (numberValue name)) := by
  refine ⟨startsPositive_word (isKeyword_of_isNumber h) [], fun n rest hn => ?_⟩
  obtain ⟨m, rfl⟩ : ∃ m, n = m + 1 := ⟨n - 1, by omega⟩
  exact if_pos h

theorem parsed_column {name : Bytes} (h : IsColumn name) :
    Parsed .operand [.word name] (.column name) := by
  refine ⟨startsPositive_word h.not [], fun n rest hn => ?_⟩
  obtain ⟨m, rfl⟩ : ∃ m, n = m + 1 := ⟨n - 1, by omega⟩
  show (if isNumber name = true then some (Expr.number (numberValue name), rest)
    else if (isKeyword "AND" name || isKeyword "OR" name || isKeyword "NOT" name) = true then none
    else if isKeyword "INSTR" name = true then _ else some (.column name, rest)) = _
  rw [h.number, h.and, h.or, h.not, h.instr]
  rfl

theorem parsed_paren (h : Parsed .or ts e) : Parsed .operand (.opening :: ts ++ [.closing]) e := by
  refine ⟨fun _ _ h => Token.noConfusion (List.cons.inj h).1, fun n rest hn => ?_⟩
  rw [length_append, length_cons, length_singleton] at hn
  obtain ⟨m, rfl⟩ : ∃ m, n = m + 1 := ⟨n - 1, by omega⟩
  rw [append_assoc, cons_append]
  show (parseOr m (ts ++ .closing :: rest)).bind _ = _
  rw [h.or_end (by omega) (endsOr_closing rest)]
  rfl

theorem parsed_instr (ha : Parsed .or as a) (hb : Parsed .or bs b) :
    Parsed .operand (.word (ascii "instr") :: .opening :: as ++ .comma :: bs ++ [.closing])
      (.instr a b) := by
  refine ⟨startsPositive_word (by decide) _, fun n rest hn => ?_⟩
  simp only [length_append, length_cons, length_nil] at hn
  obtain ⟨m, rfl⟩ : ∃ m, n = m + 1 := ⟨n - 1, by omega⟩
  have hfirst : parseOr m (as ++ .comma :: (bs ++ .closing :: rest)) =
      some (a, .comma :: (bs ++ .closing :: rest)) := ha.or_end (by omega) (endsOr_comma _)
  have hsecond : parseOr m (bs ++ .closing :: rest) = some (b, .closing :: rest) :=
    hb.or_end (by omega) (endsOr_closing rest)
  have htokens : (.word (ascii "instr") :: .opening :: as ++ .comma :: bs ++ [.closing]) ++ rest =
      .word (ascii "instr") :: .opening :: (as ++ .comma :: (bs ++ .closing :: rest)) := by simp
  rw [htokens]
  show (parseOr m (as ++ .comma :: (bs ++ .closing :: rest))).bind _ = _
  rw [hfirst]
  show (parseOr m (bs ++ .closing :: rest)).bind _ = _
  rw [hsecond]
  rfl

theorem parsed_single (h : Parsed .operand ts e) : Parsed .comparison ts e := by
  refine ⟨h.1, fun n rest hn hrest => ?_⟩
  obtain ⟨m, rfl⟩ : ∃ m, n = m + 1 := ⟨n - 1, by omega⟩
  exact parseComparison_single (h.2 m rest (by omega)) hrest

theorem parsed_compare (op : Comparison) (hne : as ≠ []) (ha : Parsed .operand as a)
    (hb : Parsed .operand bs b) :
    Parsed .comparison (as ++ .comparison op :: bs) (.compare op a b) := by
  refine ⟨ha.1.append hne _, fun n rest hn hrest => ?_⟩
  rw [length_append, length_cons] at hn
  obtain ⟨m, rfl⟩ : ∃ m, n = m + 1 := ⟨n - 1, by omega⟩
  rw [append_assoc, cons_append, parseComparison, ha.2 m _ (by omega)]
  show (parseOperand m (bs ++ rest)).map _ = _
  rw [hb.2 m rest (by omega)]
  rfl

theorem parsed_positive (hne : ts ≠ []) (h : Parsed .comparison ts e) : Parsed .not ts e := by
  intro n rest hn hrest
  obtain ⟨m, rfl⟩ : ∃ m, n = m + 1 := ⟨n - 1, by omega⟩
  rw [parseNot_positive (h.1.append hne rest)]
  exact h.2 m rest (by omega) hrest

theorem parsed_not (h : Parsed .not ts e) : Parsed .not (.word (ascii "NOT") :: ts) (.not e) := by
  intro n rest hn hrest
  rw [length_cons] at hn
  obtain ⟨m, rfl⟩ : ∃ m, n = m + 1 := ⟨n - 1, by omega⟩
  show (parseNot m (ts ++ rest)).map _ = _
  rw [h m rest (by omega) hrest]
  rfl

theorem parsed_conjunct (hpos : 1 ≤ ts.length) (h : Parsed .not ts e) : Parsed .and ts e := by
  intro n rest hn hrest
  obtain ⟨m, rfl⟩ : ∃ m, n = m + 1 := ⟨n - 1, by omega⟩
  refine ⟨m, by omega, ?_⟩
  rw [parseAnd, h m rest (by omega) hrest]
  rfl

theorem parsed_and (ha : Parsed .and as a) (hb : Parsed .not bs b) :
    Parsed .and (as ++ .word (ascii "AND") :: bs) (.and a b) := by
  intro n rest hn hrest
  rw [length_append, length_cons] at hn ⊢
  obtain ⟨m, hm, hfirst⟩ := ha n (.word (ascii "AND") :: (bs ++ rest)) (by omega)
    (endsComparison_word _ _)
  obtain ⟨k, rfl⟩ : ∃ k, m = k + 1 := ⟨m - 1, by omega⟩
  refine ⟨k, by omega, ?_⟩
  rw [append_assoc, cons_append, hfirst]
  show (parseNot k (bs ++ rest)).bind _ = _
  rw [hb k rest (by omega) hrest]
  rfl

theorem parsed_disjunct (hpos : 1 ≤ ts.length) (h : Parsed .and ts e) : Parsed .or ts e := by
  intro n rest hn hrest
  obtain ⟨m, rfl⟩ : ∃ m, n = m + 1 := ⟨n - 1, by omega⟩
  refine ⟨m, by omega, ?_⟩
  rw [parseOr, h.and_end (by omega) hrest]
  rfl

theorem parsed_or (ha : Parsed .or as a) (hb : Parsed .and bs b) :
    Parsed .or (as ++ .word (ascii "OR") :: bs) (.or a b) := by
  intro n rest hn hrest
  rw [length_append, length_cons] at hn ⊢
  obtain ⟨m, hm, hfirst⟩ := ha n (.word (ascii "OR") :: (bs ++ rest)) (by omega) (endsAnd_or _)
  obtain ⟨k, rfl⟩ : ∃ k, m = k + 1 := ⟨m - 1, by omega⟩
  refine ⟨k, by omega, ?_⟩
  rw [append_assoc, cons_append, hfirst]
  show (parseAnd k (bs ++ rest)).bind _ = _
  rw [hb.and_end (by omega) hrest]
  rfl

end Parsed

/-- The parser finds every derivation. -/
theorem parsed_of_derives (h : Derives level ts e) :
    Parsed level ts e := by
  induction h with
  | text value => exact parsed_text value
  | number h => exact parsed_number h
  | column h => exact parsed_column h
  | instr _ _ iha ihb => exact parsed_instr iha ihb
  | paren _ ih => exact parsed_paren ih
  | single _ ih => exact parsed_single ih
  | compare op ha _ iha ihb => exact parsed_compare op ha.ne_nil iha ihb
  | positive h ih => exact parsed_positive h.ne_nil ih
  | not _ ih => exact parsed_not ih
  | conjunct h ih => exact parsed_conjunct h.length_pos ih
  | and _ _ iha ihb => exact parsed_and iha ihb
  | disjunct h ih => exact parsed_disjunct h.length_pos ih
  | or _ _ iha ihb => exact parsed_or iha ihb

theorem parse_of_derives {text : Bytes} (hlex : lex text = some ts)
    (h : Derives .or ts e) : parse text = some e := by
  have hparse : parseOr (10 * ts.length + 10) (ts ++ []) = some (e, []) :=
    (parsed_of_derives h).or_end (by omega) endsOr_nil
  rw [append_nil] at hparse
  rw [parse, hlex]
  show (parseOr (10 * ts.length + 10) ts).bind _ = _
  rw [hparse]
  rfl

/-! ## Truth -/

/-- The condition `e` is `b` on the row. -/
def Truth (row : Bytes → Option Bytes) (e : Expr) (b : Bool) : Prop :=
  (eval row e).bind Value.truth = some b

section Truth

variable {row : Bytes → Option Bytes} {e e' : Expr} {b b' : Bool}

theorem truth_ofBool (b : Bool) : (ofBool b).truth = some b := by cases b <;> rfl

theorem Truth.and (h : Truth row e b) (h' : Truth row e' b') :
    Truth row (.and e e') (b && b') := by
  rw [Truth, eval, h, h']
  exact truth_ofBool _

theorem Truth.or (h : Truth row e b) (h' : Truth row e' b') :
    Truth row (.or e e') (b || b') := by
  rw [Truth, eval, h, h']
  exact truth_ofBool _

theorem Truth.not (h : Truth row e b) : Truth row (.not e) (!b) := by
  rw [Truth, eval, h]
  exact truth_ofBool _

theorem truth_compare {v v' : Value} (op : Comparison) (h : eval row e = some v)
    (h' : eval row e' = some v') : Truth row (.compare op e e') (op.holds v v') := by
  rw [Truth, eval, h, h']
  exact truth_ofBool _

/-- The rows that a condition with a derivation selects. -/
theorem selects_of_derives {text : Bytes} (hlex : lex text = some ts)
    (hderives : Derives .or ts e) (h : Truth row e b) : selects text row = some b := by
  rw [selects, parse_of_derives hlex hderives]
  exact h

end Truth

/-! ## Rows of operators -/

section Rows

variable {α : Type} {row : Bytes → Option Bytes} {ts : List Token} {e : Expr}
  {tokens : α → List Token}

/-- Texts that are read one after the other. -/
theorem reads_flatMap {text : α → Bytes} (h : ∀ a, Reads .start (text a) (tokens a) .start)
    (items : List α) :
    Reads .start (items.flatMap text) (items.flatMap tokens) .start := by
  induction items with
  | nil => exact .nil _
  | cons a items ih =>
    rw [flatMap_cons, flatMap_cons]
    exact (h a).append ih

variable {expr : α → Expr}

theorem Derives.or_row (h : ∀ a, Derives .and (tokens a) (expr a)) (items : List α)
    (hfirst : Derives .or ts e) :
    Derives .or (ts ++ items.flatMap fun a => .word (ascii "OR") :: tokens a)
      (items.foldl (fun e a => .or e (expr a)) e) := by
  induction items generalizing ts e with
  | nil =>
    rw [flatMap_nil, append_nil]
    exact hfirst
  | cons a items ih =>
    rw [flatMap_cons, ← append_assoc]
    exact ih (hfirst.or (h a))

theorem Derives.and_row (h : ∀ a, Derives .not (tokens a) (expr a)) (items : List α)
    (hfirst : Derives .and ts e) :
    Derives .and (ts ++ items.flatMap fun a => .word (ascii "AND") :: tokens a)
      (items.foldl (fun e a => .and e (expr a)) e) := by
  induction items generalizing ts e with
  | nil =>
    rw [flatMap_nil, append_nil]
    exact hfirst
  | cons a items ih =>
    rw [flatMap_cons, ← append_assoc]
    exact ih (hfirst.and (h a))

theorem Truth.or_row {value : α → Bool} {b : Bool} (h : ∀ a, Truth row (expr a) (value a))
    (items : List α) (hfirst : Truth row e b) :
    Truth row (items.foldl (fun e a => .or e (expr a)) e) (b || items.any value) := by
  induction items generalizing e b with
  | nil =>
    rw [any_nil, Bool.or_false]
    exact hfirst
  | cons a items ih =>
    rw [any_cons, ← Bool.or_assoc]
    exact ih (hfirst.or (h a))

theorem Truth.and_row {value : α → Bool} {b : Bool} (h : ∀ a, Truth row (expr a) (value a))
    (items : List α) (hfirst : Truth row e b) :
    Truth row (items.foldl (fun e a => .and e (expr a)) e) (b && items.all value) := by
  induction items generalizing e b with
  | nil =>
    rw [all_nil, Bool.and_true]
    exact hfirst
  | cons a items ih =>
    rw [all_cons, ← Bool.and_assoc]
    exact ih (hfirst.and (h a))

end Rows

/-! ## `instr` -/

theorem instrAt_pos_iff (text part : Bytes) : 0 < instrAt text part ↔ part <:+: text := by
  rw [instrAt]
  rcases hfind : (List.range (text.length + 1)).find? fun i => part.isPrefixOf (text.drop i)
    with _ | i
  · refine iff_of_false (by simp) ?_
    rintro ⟨before, after, rfl⟩
    have hnone := find?_eq_none.mp hfind before.length (by simp)
    simp at hnone
  · have hextends := find?_some hfind
    simp only [List.isPrefixOf_iff_prefix] at hextends
    exact iff_of_true (by simp) (hextends.isInfix.trans (drop_suffix i text).isInfix)

end Trufflepig.Lib.Sql
