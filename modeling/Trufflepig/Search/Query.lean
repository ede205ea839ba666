import Trufflepig.Extract.Extraction
import Trufflepig.Lib.Unicode
import Trufflepig.Search.PathFilter

/-!
# Queries (`search.rs`, `search/concept_query.rs`, `search/path_class.rs`,
`search/path_prior.rs`)

A query, the shapes of its text, the classes of paths and the weight of a path.
-/

namespace Trufflepig.Search

open Lib Extract

/-- `struct Query` (`search.rs`); no language is the empty text. -/
structure Query where
  text : String
  path : PathFilter
  language : Option SourceLanguage
  kind : String
  exact : Bool
  regex : Bool

section Terms

variable [Unicode]

/-- `query_terms` (`search.rs`). -/
def queryTerms (text : List Char) : List (List Char) :=
  (splitTerms (fun c => !Unicode.isAlphanumeric c) text).map Unicode.toLowercase

/-- `path.rsplit('/').next()`. -/
def basename (path : Bytes) : Bytes := path.rtakeWhile (· ≠ 0x2f)

/-- `filename_score` (`search.rs`). -/
def filenameScore (path : Bytes) (terms : List (List Char)) : ℕ :=
  if terms.isEmpty then 1
  else
    let lowerBasename := Unicode.toLowercase (decodeChars (basename path))
    let lowerPath := Unicode.toLowercase (decodeChars path)
    let stem := ((rsplitOnce 0x2e (basename path)).map Prod.fst).getD (basename path)
    if queryTerms (decodeChars stem) = terms then 3
    else if terms.all fun term => containsText term lowerBasename then 2
    else if terms.any fun term => containsText term lowerPath then 1
    else 0

end Terms

/-! ## Classes of paths -/

/-- Whether a component of the directories is one of tests; `next` is the component behind it. -/
def isTestDirectory (directory : Bytes) (next : Option Bytes) : Bool :=
  if directory ∈ [ascii "tests", ascii "__tests__", ascii "spec", ascii "testdata"] then true
  else if directory = ascii "test" then next ≠ some (ascii "src")
  else false

/-- `is_test_path` (`path_class.rs`). -/
def isTestPath (path : Bytes) : Bool :=
  let path := asciiLower path
  let (directories, file) := (rsplitOnce 0x2f path).getD ([], path)
  let (stem, extension) := (splitOnce 0x2e file).getD (file, [])
  let components := path.splitOn 0x2f
  let testDirectory := (directories.splitOn 0x2f).zipIdx.any fun (directory, index) =>
    isTestDirectory directory components[index + 1]?
  testDirectory
    || stem = ascii "tests"
    || ascii "_tests" <:+ stem
    || containsText (ascii ".test.") file
    || containsText (ascii ".spec.") file
    || ascii "_test" <:+ stem && extension ∈ [ascii "go", ascii "py"]
    || ascii "test_" <+: stem && extension = ascii "py"
    || ascii "_spec" <:+ stem && extension = ascii "rb"

/-- `is_doc_pointer_path` (`path_class.rs`). -/
def isDocPointerPath (path : Bytes) : Bool :=
  ascii ".md" <:+ asciiLower path || ascii ".markdown" <:+ asciiLower path

/-! ## The shape of a text -/

/-- `struct IdentifierToken` (`concept_query.rs`). -/
structure IdentifierToken where
  name : List Char
  qualifier : Option (List Char)
  deriving DecidableEq, Repr

/-- `struct ConceptQuery` (`concept_query.rs`); the expressions of the full-text
search are the terms they are built of. -/
structure ConceptQuery where
  anyTerms : Option (List (List Char))
  phrase : Option (List (List Char))
  allTerms : Option (List (List Char))
  identifier : Option IdentifierToken
  literal : Bool
  deriving DecidableEq, Repr

/-- `str::split("::")`. -/
def splitColons : List Char → List (List Char)
  | [] => [[]]
  | ':' :: ':' :: rest => [] :: splitColons rest
  | c :: rest =>
    match splitColons rest with
    | first :: others => (c :: first) :: others
    | [] => [[c]]

section Shape

variable [Unicode]

/-- `IdentifierToken::parse`. -/
def IdentifierToken.parse (text : List Char) : Option IdentifierToken :=
  let segments := splitColons text
  let identifierSegment := fun segment : List Char =>
    !segment.isEmpty && segment.all fun c => Unicode.isAlphanumeric c || c = '_'
  if !segments.all identifierSegment || !text.any Unicode.isAlphabetic then none
  else
    let camel := (text.zip (text.drop 1)).any fun pair =>
      Unicode.isLowercase pair.1 && Unicode.isUppercase pair.2
    let digits := text.any Char.isDigit
    if segments.length = 1 ∧ '_' ∉ text ∧ !camel ∧ !digits then none
    else
      some {
        name := segments.getLastD []
        qualifier := if segments.length > 1 then segments[segments.length - 2]? else none }

/-- `char::is_whitespace`. -/
def isWhitespaceChar (c : Char) : Bool := String.utf8EncodeChar c ∈ whitespace

/-- `str::trim`. -/
def trimChars (text : List Char) : List Char :=
  (text.dropWhile isWhitespaceChar).rdropWhile isWhitespaceChar

/-- `ConceptQuery::parse`. -/
def ConceptQuery.parse (text : List Char) : ConceptQuery :=
  let text := trimChars text
  let inner := (text.drop 1).dropLast
  let literal := 2 ≤ text.length ∧ text.head? = some '"' ∧ text.getLast? = some '"' ∧ '"' ∉ inner
  let body := if literal then inner else text
  let terms := splitTerms (fun c => !Unicode.isAlphanumeric c && c ≠ '_') body
  if terms = [] then ⟨none, none, none, none, literal⟩
  else
    let phrase := if literal ∨ 1 < terms.length then some terms else none
    if literal then ⟨none, phrase, none, none, true⟩
    else {
      anyTerms := some terms
      phrase := phrase
      allTerms := if 1 < terms.length then some terms else none
      identifier := IdentifierToken.parse text
      literal := false }

end Shape

/-! ## The path prior -/

def demotedPathWeight : Float := 0.7

def testTerms : List (List Char) :=
  ["test".toList, "tests".toList, "testing".toList, "spec".toList, "fixture".toList,
    "fixtures".toList]

def docTerms : List (List Char) :=
  ["doc".toList, "docs".toList, "documentation".toList, "readme".toList, "markdown".toList,
    "md".toList, "agents".toList, "claude".toList, "guide".toList]

/-- `struct PathPrior` (`path_prior.rs`). -/
structure PathPrior where
  demoteTests : Bool
  demoteDocs : Bool
  exemptNamed : Bool
  terms : List (List Char)
  deriving DecidableEq, Repr

/-- `selects_tests`. -/
def selectsTests (value : Bytes) : Bool :=
  isTestPath value ||
    (value.splitOn 0x2f).any fun part => !part.isEmpty && isTestPath (part ++ ascii "/x")

/-- `selects_docs`. -/
def selectsDocs (value : Bytes) : Bool :=
  isDocPointerPath value ||
    (value.splitOn 0x2f).any fun part => part ∈ [ascii "doc", ascii "docs"]

namespace PathPrior

variable [Unicode]

/-- `PathPrior::for_query`. -/
def forQuery (query : Query) : PathPrior :=
  let terms := queryTerms query.text.toList
  let names := fun words : List (List Char) => terms.any fun term => term ∈ words
  let filters := query.path.includes.map fun value => asciiLower value.1
  let listing := query.kind = "file"
  { demoteTests := !listing && !names testTerms && !filters.any selectsTests
    demoteDocs := !listing && !names docTerms && query.language ≠ some .text &&
      !filters.any selectsDocs
    exemptNamed := (ConceptQuery.parse query.text.toList).identifier.isNone
    terms := terms }

/-- `names`. -/
def names (prior : PathPrior) (path : Bytes) : Bool :=
  !prior.terms.isEmpty && 2 ≤ filenameScore path prior.terms

/-- `names_exactly`. -/
def namesExactly (prior : PathPrior) (path : Bytes) : Bool :=
  !prior.terms.isEmpty && filenameScore path prior.terms = 3

/-- `weight`. -/
def weight (prior : PathPrior) (path : Bytes) : Float :=
  let demoted := (prior.demoteTests && isTestPath path) ||
    (prior.demoteDocs && isDocPointerPath path)
  if demoted && !(prior.exemptNamed && prior.names path) then demotedPathWeight else 1.0

theorem weight_cases (prior : PathPrior) (path : Bytes) :
    prior.weight path = demotedPathWeight ∨ prior.weight path = 1.0 := by
  rw [weight]
  split_ifs
  · exact .inl rfl
  · exact .inr rfl

/-- The empty path is in no class and has no name. -/
theorem weight_nil (prior : PathPrior) : prior.weight [] = 1.0 := by
  have htest : isTestPath [] = false := by decide
  have hdoc : isDocPointerPath [] = false := by decide
  rw [weight, htest, hdoc, Bool.and_false, Bool.and_false]
  rfl

theorem namesExactly_nil (prior : PathPrior) : prior.namesExactly [] = false := by
  rw [namesExactly]
  cases hterms : prior.terms with
  | nil => rfl
  | cons term terms =>
    have hscore : filenameScore [] (term :: terms) ≠ 3 := by
      rw [filenameScore, if_neg (by simp)]
      dsimp only
      rw [if_neg (by simp [basename, rsplitOnce, decodeChars, queryTerms])]
      split_ifs <;> decide
    simpa using hscore

end PathPrior

end Trufflepig.Search
