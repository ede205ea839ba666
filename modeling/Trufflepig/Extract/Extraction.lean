import Trufflepig.Lib.Utf8

/-!
# Extraction facts and the dispatch to extractors

The records of `src/extract.rs`: what an extractor returns for
one file. Spans are half-open byte ranges of the file's source; `target`,
`candidates` and `source` are indices into the file's `definitions`. A field
`end` of the source is `stop` here, since `end` is reserved.

The parsers themselves are parameters (`Parsers`): one per language with its
own extractor, and one per tree-sitter grammar for the languages that
`extract/syntax.rs` handles. `language`, `grammar` and `extract` are the
source's dispatch from a path to them.
-/

namespace Trufflepig.Extract

open Lib

/-- The values of `Extraction::language`. -/
inductive SourceLanguage where
  | rust | typescript | javascript | csharp | php | luau | dreammaker | text
  deriving DecidableEq, Repr

/-- The values of `Extraction::status`, among them those that `read_source`
(`store/scan.rs`) gives to files it does not return. -/
inductive Status where
  | complete | lexicalOnly | invalidEncoding | incompatibleGrammar | cancelled | parseError
  | invalidQuery | depthLimit | factLimit | recovered | recoveredIncomplete
  | read | metadataError | resourceExcluded | readError | binaryExcluded
  deriving DecidableEq, Repr

/-- The text of a status. -/
def Status.text : Status → Bytes
  | complete => ascii "complete"
  | lexicalOnly => ascii "lexical_only"
  | invalidEncoding => ascii "invalid_encoding"
  | incompatibleGrammar => ascii "incompatible_grammar"
  | cancelled => ascii "cancelled"
  | parseError => ascii "parse_error"
  | invalidQuery => ascii "invalid_query"
  | depthLimit => ascii "depth_limit"
  | factLimit => ascii "fact_limit"
  | recovered => ascii "recovered"
  | recoveredIncomplete => ascii "recovered_incomplete"
  | read => ascii "read"
  | metadataError => ascii "metadata_error"
  | resourceExcluded => ascii "resource_excluded"
  | readError => ascii "read_error"
  | binaryExcluded => ascii "binary_excluded"

/-- `struct Definition` (`extract.rs`). -/
@[ext]
structure Definition where
  name : String
  kind : String
  start : ℕ
  stop : ℕ
  container : Option String
  deriving DecidableEq, Repr

/-- `struct Occurrence` (`extract.rs`). -/
structure Occurrence where
  name : String
  start : ℕ
  stop : ℕ
  role : String
  target : Option ℕ
  candidates : List ℕ
  provenance : String
  deriving DecidableEq, Repr

/-- `struct Relationship` (`extract.rs`). -/
structure Relationship where
  source : ℕ
  target : Option ℕ
  kind : String
  evidenceStart : ℕ
  evidenceEnd : ℕ
  provenance : String
  deriving DecidableEq, Repr

/-- `struct Extraction` (`extract.rs`). -/
structure Extraction where
  language : SourceLanguage
  status : Status
  definitions : List Definition
  occurrences : List Occurrence
  relationships : List Relationship
  deriving DecidableEq, Repr

/-! ## Dispatch -/

/-- `path.rsplit('.').next().unwrap_or("")`: what follows the last dot, or the
whole path when it has none. -/
def extension (path : Bytes) : Bytes := path.rtakeWhile (· ≠ 46)

/-- The table of `language` (`extract.rs`). -/
def languageOf (extension : Bytes) : SourceLanguage :=
  if extension ∈ [ascii "rs"] then .rust
  else if extension ∈ [ascii "ts", ascii "tsx", ascii "mts", ascii "cts"] then .typescript
  else if extension ∈ [ascii "js", ascii "jsx", ascii "mjs", ascii "cjs"] then .javascript
  else if extension ∈ [ascii "cs"] then .csharp
  else if extension ∈ [ascii "php", ascii "phtml"] then .php
  else if extension ∈ [ascii "luau", ascii "lua"] then .luau
  else if extension ∈ [ascii "dm", ascii "dme", ascii "dmf"] then .dreammaker
  else .text

/-- `language` (`extract.rs`). -/
def language (path : Bytes) : SourceLanguage := languageOf (extension path)

/-- The tree-sitter grammars of `extract/syntax.rs`. -/
inductive Grammar where
  | rust | tsx | typescript | javascript | luau
  deriving DecidableEq, Repr

/-- `grammar` (`extract/syntax.rs`); its `unreachable!` arm is
`none`. -/
def grammar (path : Bytes) : Option Grammar :=
  match language path with
  | .rust => some .rust
  | .typescript => if ascii ".tsx" <:+ path then some .tsx else some .typescript
  | .javascript => some .javascript
  | .luau => some .luau
  | _ => none

/-- What a parser finds in one source: everything of an `Extraction` but its
language. -/
structure Facts where
  status : Status
  definitions : List Definition
  occurrences : List Occurrence
  relationships : List Relationship

/-- The extractors `csharp::extract`, `php::extract`, `dreammaker::extract`,
and `syntax::extract` with the grammar it selects. -/
structure Parsers where
  csharp : Bytes → Facts
  php : Bytes → Facts
  dreammaker : Bytes → Facts
  syntaxWith : Grammar → Bytes → Facts

/-- The extraction of a language with the facts of its parser. -/
def Facts.toExtraction (facts : Facts) (language : SourceLanguage) : Extraction where
  language := language
  status := facts.status
  definitions := facts.definitions
  occurrences := facts.occurrences
  relationships := facts.relationships

/-- An extraction without facts (`..Extraction::default()`). -/
def Extraction.empty (language : SourceLanguage) (status : Status) : Extraction :=
  ⟨language, status, [], [], []⟩

/-- `extract` (`extract.rs`). -/
def extract (parsers : Parsers) (path source : Bytes) : Extraction :=
  match language path with
  | .csharp => (parsers.csharp source).toExtraction .csharp
  | .php => (parsers.php source).toExtraction .php
  | .dreammaker => (parsers.dreammaker source).toExtraction .dreammaker
  | .text => .empty .text .lexicalOnly
  | language =>
    match grammar path with
    | some grammar => (parsers.syntaxWith grammar source).toExtraction language
    -- unreachable: each of the languages left has a grammar
    | none => .empty language .complete

end Trufflepig.Extract
