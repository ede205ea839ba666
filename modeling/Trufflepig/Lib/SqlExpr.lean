import Trufflepig.Lib.Utf8

/-!
# SQL expressions

A fragment of SQLite's expression language: its text, its grammar and its meaning.
String literals are quoted with `'`, and a quote in one is doubled. `OR` binds
weaker than `AND`, that weaker than `NOT`, and that weaker than comparisons. Texts
are compared byte by byte (the collation `BINARY`).

* `reads_word`, `reads_literal`: the lexer reads a word as itself, and a literal with
  its quotes doubled as the value.
-/

namespace Trufflepig.Lib.Sql

open List

/-! ## Tokens -/

/-- The operators that compare. -/
inductive Comparison where
  | lt | le | gt | ge
  deriving DecidableEq

inductive Token where
  | word (name : Bytes)
  | text (value : Bytes)
  | opening | closing | comma
  | comparison (op : Comparison)
  deriving DecidableEq

/-- Bytes of names, of numbers and of keywords; a qualified name is one word. -/
def isWordByte (b : UInt8) : Bool :=
  48 ≤ b && b ≤ 57 || 65 ≤ b && b ≤ 90 || 97 ≤ b && b ≤ 122 || b = 95 || b = 46

def isSpace (b : UInt8) : Bool := b = 32 || 9 ≤ b && b ≤ 13

/-- What the lexer is reading: nothing, a word, a literal, a literal with a quote
that ends it or is doubled, or a comparison whose second byte may follow. -/
inductive Mode where
  | start
  | word (read : Bytes)
  | literal (read : Bytes)
  | quote (read : Bytes)
  | less
  | greater
  deriving DecidableEq

structure Lexer where
  tokens : List Token
  mode : Mode
  deriving DecidableEq

/-- A byte between tokens. -/
def between (tokens : List Token) (b : UInt8) : Option Lexer :=
  if isSpace b then some ⟨tokens, .start⟩
  else if isWordByte b then some ⟨tokens, .word [b]⟩
  else if b = 39 then some ⟨tokens, .literal []⟩
  else if b = 40 then some ⟨tokens ++ [.opening], .start⟩
  else if b = 41 then some ⟨tokens ++ [.closing], .start⟩
  else if b = 44 then some ⟨tokens ++ [.comma], .start⟩
  else if b = 60 then some ⟨tokens, .less⟩
  else if b = 62 then some ⟨tokens, .greater⟩
  else none

/-- The next byte. -/
def step (lexer : Lexer) (b : UInt8) : Option Lexer :=
  match lexer.mode with
  | .start => between lexer.tokens b
  | .word read =>
    if isWordByte b then some ⟨lexer.tokens, .word (read ++ [b])⟩
    else between (lexer.tokens ++ [.word read]) b
  | .literal read =>
    if b = 39 then some ⟨lexer.tokens, .quote read⟩ else some ⟨lexer.tokens, .literal (read ++ [b])⟩
  | .quote read =>
    if b = 39 then some ⟨lexer.tokens, .literal (read ++ [39])⟩
    else between (lexer.tokens ++ [.text read]) b
  | .less =>
    if b = 61 then some ⟨lexer.tokens ++ [.comparison .le], .start⟩
    else between (lexer.tokens ++ [.comparison .lt]) b
  | .greater =>
    if b = 61 then some ⟨lexer.tokens ++ [.comparison .ge], .start⟩
    else between (lexer.tokens ++ [.comparison .gt]) b

/-- The end of the text. -/
def finish (lexer : Lexer) : Option (List Token) :=
  match lexer.mode with
  | .start => some lexer.tokens
  | .word read => some (lexer.tokens ++ [.word read])
  | .literal _ => none
  | .quote read => some (lexer.tokens ++ [.text read])
  | .less => some (lexer.tokens ++ [.comparison .lt])
  | .greater => some (lexer.tokens ++ [.comparison .gt])

def run (text : Bytes) (lexer : Lexer) : Option Lexer := text.foldlM step lexer

/-- The tokens of a text. -/
def lex (text : Bytes) : Option (List Token) := (run text ⟨[], .start⟩).bind finish

/-! ## Expressions -/

inductive Expr where
  | column (name : Bytes)
  | text (value : Bytes)
  | number (value : ℕ)
  | compare (op : Comparison) (left right : Expr)
  | instr (text part : Expr)
  | and (left right : Expr)
  | or (left right : Expr)
  | not (operand : Expr)
  deriving DecidableEq

/-- Keywords do not distinguish cases. -/
def isKeyword (keyword : String) (name : Bytes) : Bool :=
  name.map (fun b => if 97 ≤ b ∧ b ≤ 122 then b - 32 else b) = ascii keyword

def isNumber (name : Bytes) : Bool := name.all fun b => 48 ≤ b && b ≤ 57

def numberValue (name : Bytes) : ℕ := name.foldl (fun n b => 10 * n + (b.toNat - 48)) 0

/-! The parser takes an expression from the front of the tokens. The first argument
bounds its depth. -/

mutual

def parseOr : ℕ → List Token → Option (Expr × List Token)
  | 0, _ => none
  | n + 1, tokens => (parseAnd n tokens).bind fun r => parseOrTail n r.1 r.2

def parseOrTail : ℕ → Expr → List Token → Option (Expr × List Token)
  | 0, _, _ => none
  | n + 1, left, tokens =>
    match tokens with
    | .word name :: rest =>
      if isKeyword "OR" name then
        (parseAnd n rest).bind fun r => parseOrTail n (.or left r.1) r.2
      else some (left, tokens)
    | _ => some (left, tokens)

def parseAnd : ℕ → List Token → Option (Expr × List Token)
  | 0, _ => none
  | n + 1, tokens => (parseNot n tokens).bind fun r => parseAndTail n r.1 r.2

def parseAndTail : ℕ → Expr → List Token → Option (Expr × List Token)
  | 0, _, _ => none
  | n + 1, left, tokens =>
    match tokens with
    | .word name :: rest =>
      if isKeyword "AND" name then
        (parseNot n rest).bind fun r => parseAndTail n (.and left r.1) r.2
      else some (left, tokens)
    | _ => some (left, tokens)

def parseNot : ℕ → List Token → Option (Expr × List Token)
  | 0, _ => none
  | n + 1, tokens =>
    match tokens with
    | .word name :: rest =>
      if isKeyword "NOT" name then (parseNot n rest).map fun r => (.not r.1, r.2)
      else parseComparison n tokens
    | _ => parseComparison n tokens

def parseComparison : ℕ → List Token → Option (Expr × List Token)
  | 0, _ => none
  | n + 1, tokens =>
    (parseOperand n tokens).bind fun r =>
      match r.2 with
      | .comparison op :: rest => (parseOperand n rest).map fun r' => (.compare op r.1 r'.1, r'.2)
      | _ => some r

def parseOperand : ℕ → List Token → Option (Expr × List Token)
  | 0, _ => none
  | n + 1, tokens =>
    match tokens with
    | .opening :: rest =>
      (parseOr n rest).bind fun r =>
        match r.2 with
        | .closing :: rest => some (r.1, rest)
        | _ => none
    | .text value :: rest => some (.text value, rest)
    | .word name :: rest =>
      if isNumber name then some (.number (numberValue name), rest)
      else if isKeyword "AND" name || isKeyword "OR" name || isKeyword "NOT" name then none
      else if isKeyword "INSTR" name then
        match rest with
        | .opening :: rest =>
          (parseOr n rest).bind fun r =>
            match r.2 with
            | .comma :: rest =>
              (parseOr n rest).bind fun r' =>
                match r'.2 with
                | .closing :: rest => some (.instr r.1 r'.1, rest)
                | _ => none
            | _ => none
        | _ => none
      else some (.column name, rest)
    | _ => none

end

/-- The expression that a text is. -/
def parse (text : Bytes) : Option Expr :=
  (lex text).bind fun tokens =>
    (parseOr (10 * tokens.length + 10) tokens).bind fun r => if r.2 = [] then some r.1 else none

/-! ## Meaning -/

inductive Value where
  | int (value : ℤ)
  | text (value : Bytes)
  deriving DecidableEq

def ofBool (b : Bool) : Value := .int (if b then 1 else 0)

/-- The order of values: numbers before texts. -/
def Value.less : Value → Value → Bool
  | .int a, .int b => a < b
  | .int _, .text _ => true
  | .text _, .int _ => false
  | .text a, .text b => a < b

def Comparison.holds (op : Comparison) (a b : Value) : Bool :=
  match op with
  | .lt => a.less b
  | .gt => b.less a
  | .le => !b.less a
  | .ge => !a.less b

/-- `instr(X, Y)`: where `Y` is first in `X`, counted from one, or zero. -/
def instrAt (text part : Bytes) : ℤ :=
  match (List.range (text.length + 1)).find? fun i => part.isPrefixOf (text.drop i) with
  | some i => i + 1
  | none => 0

/-- Whether a condition holds; a text as a condition is outside the fragment. -/
def Value.truth : Value → Option Bool
  | .int n => some (n ≠ 0)
  | .text _ => none

/-- The value of an expression on a row. -/
def eval (row : Bytes → Option Bytes) : Expr → Option Value
  | .column name => (row name).map .text
  | .text value => some (.text value)
  | .number value => some (.int value)
  | .compare op left right =>
    (eval row left).bind fun a => (eval row right).map fun b => ofBool (op.holds a b)
  | .instr text part =>
    match eval row text, eval row part with
    | some (.text a), some (.text b) => some (.int (instrAt a b))
    | _, _ => none
  | .and left right =>
    ((eval row left).bind Value.truth).bind fun a =>
      ((eval row right).bind Value.truth).map fun b => ofBool (a && b)
  | .or left right =>
    ((eval row left).bind Value.truth).bind fun a =>
      ((eval row right).bind Value.truth).map fun b => ofBool (a || b)
  | .not operand => ((eval row operand).bind Value.truth).map fun a => ofBool (!a)

/-- Whether `WHERE` with a text selects a row. -/
def selects (condition : Bytes) (row : Bytes → Option Bytes) : Option Bool :=
  (parse condition).bind fun expr => (eval row expr).bind Value.truth

/-! ## Reading text -/

/-- The bytes of `text`, read in mode `before`, complete the tokens and leave the
lexer in mode `after`. -/
def Reads (before : Mode) (text : Bytes) (tokens : List Token) (after : Mode) : Prop :=
  ∀ earlier, run text ⟨earlier, before⟩ = some ⟨earlier ++ tokens, after⟩

theorem run_append (a b : Bytes) (lexer : Lexer) :
    run (a ++ b) lexer = (run a lexer).bind (run b) := by
  rw [run, foldlM_append]
  rfl

theorem run_cons (b : UInt8) (text : Bytes) (lexer : Lexer) :
    run (b :: text) lexer = (step lexer b).bind (run text) := rfl

theorem Reads.nil (mode : Mode) : Reads mode [] [] mode := by
  intro earlier
  rw [append_nil]
  rfl

theorem Reads.append {m m' m'' : Mode} {a b : Bytes} {ts ts' : List Token}
    (ha : Reads m a ts m') (hb : Reads m' b ts' m'') : Reads m (a ++ b) (ts ++ ts') m'' := by
  intro earlier
  rw [run_append, ha earlier, ← append_assoc]
  exact hb (earlier ++ ts)

/-- The lexer with tokens before its own. -/
def Lexer.after (earlier : List Token) (lexer : Lexer) : Lexer :=
  ⟨earlier ++ lexer.tokens, lexer.mode⟩

theorem between_after (earlier tokens : List Token) (b : UInt8) :
    between (earlier ++ tokens) b = (between tokens b).map (Lexer.after earlier) := by
  unfold between
  split_ifs
  all_goals simp [Lexer.after]

/-- Tokens are only added: those before do not matter. -/
theorem step_after (earlier : List Token) (lexer : Lexer) (b : UInt8) :
    step (lexer.after earlier) b = (step lexer b).map (Lexer.after earlier) := by
  obtain ⟨tokens, _ | _ | _ | _ | _ | _⟩ := lexer
  case start => exact between_after earlier tokens b
  all_goals
    simp only [step, Lexer.after, append_assoc, between_after]
    split_ifs
    all_goals simp [Lexer.after]

theorem run_after (earlier : List Token) (text : Bytes) (lexer : Lexer) :
    run text (lexer.after earlier) = (run text lexer).map (Lexer.after earlier) := by
  induction text generalizing lexer with
  | nil => rfl
  | cons b text ih =>
    rw [run_cons, run_cons, step_after]
    rcases step lexer b with _ | next
    · rfl
    · exact ih next

variable {text : Bytes} {tokens : List Token}

/-- A text is read the same way whatever tokens are before it. -/
theorem Reads.of_run {before after : Mode} (h : run text ⟨[], before⟩ = some ⟨tokens, after⟩) :
    Reads before text tokens after := by
  intro earlier
  have hrun := run_after earlier text ⟨[], before⟩
  rw [h, Lexer.after, append_nil] at hrun
  exact hrun

variable {b : UInt8}

theorem step_word (tokens : List Token) (read : Bytes) (h : isWordByte b = true) :
    step ⟨tokens, .word read⟩ b = some ⟨tokens, .word (read ++ [b])⟩ := if_pos h

theorem step_literal (tokens : List Token) (read : Bytes) (h : b ≠ 39) :
    step ⟨tokens, .literal read⟩ b = some ⟨tokens, .literal (read ++ [b])⟩ := if_neg h

theorem between_word (h : isWordByte b = true) (tokens : List Token) :
    between tokens b = some ⟨tokens, .word [b]⟩ := by
  have hspace : isSpace b = false := by
    revert b
    exact fun {b} => forall_byte (P := fun b => isWordByte b = true → isSpace b = false)
      (by decide +kernel) b
  rw [between, hspace, h]
  rfl

theorem reads_word_rest {rest : Bytes} (h : ∀ b ∈ rest, isWordByte b = true) (read : Bytes) :
    Reads (.word read) rest [] (.word (read ++ rest)) := by
  induction rest generalizing read with
  | nil =>
    rw [append_nil]
    exact .nil _
  | cons b rest ih =>
    intro earlier
    rw [run_cons, step_word earlier read (h b mem_cons_self)]
    have hrest := ih (fun b' hb' => h b' (mem_cons_of_mem _ hb')) (read ++ [b]) earlier
    rw [append_assoc] at hrest
    exact hrest

/-- Reading a word. -/
theorem reads_word {name : Bytes} (hne : name ≠ []) (h : ∀ b ∈ name, isWordByte b = true) :
    Reads .start name [] (.word name) := by
  obtain ⟨b, rest, rfl⟩ := exists_cons_of_ne_nil hne
  intro earlier
  rw [run_cons, show step ⟨earlier, .start⟩ b = _ from between_word (h b mem_cons_self) earlier]
  exact reads_word_rest (fun b' hb' => h b' (mem_cons_of_mem _ hb')) [b] earlier

/-- The text of a literal without its outer quotes: every quote is doubled. -/
def escape (value : Bytes) : Bytes := value.flatMap fun b => if b = 39 then [39, 39] else [b]

theorem reads_escape (value read : Bytes) :
    Reads (.literal read) (escape value ++ [39]) [] (.quote (read ++ value)) := by
  induction value generalizing read with
  | nil =>
    rw [append_nil]
    intro earlier
    rw [append_nil]
    rfl
  | cons b value ih =>
    intro earlier
    have hrest := ih (read ++ [b]) earlier
    rw [append_assoc] at hrest
    rw [escape, flatMap_cons, append_assoc, run_append]
    by_cases hb : b = 39
    · subst hb
      exact hrest
    · rw [if_neg hb, run_cons, step_literal earlier read hb]
      exact hrest

/-- Reading a literal. -/
theorem reads_literal (value : Bytes) :
    Reads .start (39 :: escape value ++ [39]) [] (.quote value) :=
  reads_escape value []

/-- A literal after `<`. -/
theorem reads_less_literal (value : Bytes) :
    Reads .less (39 :: escape value ++ [39]) [.comparison .lt] (.quote value) := by
  intro earlier
  have hvalue := reads_escape value [] (earlier ++ [.comparison .lt])
  rw [append_nil] at hvalue
  exact hvalue

/-- A word that the text, which is empty or starts with a blank, goes on after. -/
theorem lex_word_append {name : Bytes} (hne : name ≠ []) (hword : ∀ b ∈ name, isWordByte b = true)
    (htext : text = [] ∨ ∃ rest, text = 32 :: rest) (h : Reads .start text tokens .start) :
    lex (name ++ text) = some (.word name :: tokens) := by
  rw [lex, run_append, reads_word hne hword []]
  rcases htext with rfl | ⟨rest, rfl⟩
  · have htokens : tokens = [] := by
      have hnil := h []
      exact ((Lexer.mk.injEq ..).mp (Option.some.inj hnil)).1.symm
    rw [htokens]
    rfl
  · have hblank : run (32 :: rest) ⟨[], .word name⟩ = run (32 :: rest) ⟨[.word name], .start⟩ := rfl
    show (run (32 :: rest) ⟨[], .word name⟩).bind finish = _
    rw [hblank, h [.word name]]
    rfl

end Trufflepig.Lib.Sql
