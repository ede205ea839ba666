import Trufflepig.Lib.Utf8

/-!
# Result hits (`results.rs`)

Paths and revisions are their bytes, as in the store; names, kinds and other texts are strings.
-/

namespace Trufflepig.Results

open Lib

/-- The lane or step that a hit comes from. -/
inductive Provenance where
  | exactIdentifier | identifierOccurrence | phrase | allTerms | lexical
  | filenameExact | filenameTokens | filenamePartial | semantic | liveRegex | reextracted
  | other (text : String)
  deriving DecidableEq, Repr

/-- `struct DefinitionTarget`. -/
structure DefinitionTarget where
  path : Bytes
  revision : Bytes
  start : ℕ
  stop : ℕ
  name : String
  deriving DecidableEq, Repr

/-- `struct Snippet`. -/
structure Snippet where
  line : ℕ
  text : String
  deriving DecidableEq, Repr

/-- `struct Hit`. -/
structure Hit where
  handle : Bytes
  path : Bytes
  revision : Option Bytes
  start : ℕ
  stop : ℕ
  startLine : ℕ
  endLine : ℕ
  name : String
  kind : String
  container : Option String
  provenance : Option Provenance
  resolution : Option String
  candidates : List DefinitionTarget
  target : Option DefinitionTarget
  snippet : Option Snippet
  repeats : Option ℕ
  deriving DecidableEq, Repr

/-- A hit with the fields that every lane leaves out. -/
def Hit.plain (path : Bytes) (revision : Option Bytes) (start stop startLine endLine : ℕ)
    (name kind : String) (container : Option String) (provenance : Provenance) : Hit where
  handle := []
  path := path
  revision := revision
  start := start
  stop := stop
  startLine := startLine
  endLine := endLine
  name := name
  kind := kind
  container := container
  provenance := some provenance
  resolution := none
  candidates := []
  target := none
  snippet := none
  repeats := none

/-- `MAX_HITS`. -/
def maxHits : ℕ := 10000

/-- `MAX_BYTES`. -/
def maxResultBytes : ℕ := 32 * 1024 * 1024

end Trufflepig.Results
