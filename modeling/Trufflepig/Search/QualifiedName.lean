import Trufflepig.Search.Query

/-!
# Qualified names (`search/qualified_name.rs`)

The last segment of `A::b` is the name of a definition; the qualifier must name the type that the
definition is in, or trail its module path. Texts are lists of characters.
-/

namespace Trufflepig.Search

open Lib

/-- `struct QualifiedName`. -/
structure QualifiedName where
  qualifier : List (List Char)
  name : List Char
  deriving DecidableEq, Repr

/-- `enum QualifierMatch`. -/
inductive QualifierMatch where
  | suffix | subsequence
  deriving DecidableEq, Repr

/-- `Ord` of a derived enumeration. -/
def QualifierMatch.rank : QualifierMatch → ℕ
  | suffix => 0
  | subsequence => 1

/-- The smaller one of two. -/
def QualifierMatch.min (a b : QualifierMatch) : QualifierMatch := if a.rank ≤ b.rank then a else b

/-! ## Pieces of text -/

/-- The characters from the first occurrence of a text on. -/
def fromText (needle : List Char) : List Char → Option (List Char)
  | [] => if needle = [] then some [] else none
  | c :: rest =>
    if needle <+: c :: rest then some (c :: rest) else fromText needle rest

/-- `split(needle).next()`. -/
def beforeText (needle text : List Char) : List Char :=
  match fromText needle text with
  | none => text
  | some found => text.take (text.length - found.length)

/-- `rsplit(needle).next()`. -/
def afterLastText (needle text : List Char) : List Char :=
  (beforeText needle.reverse text.reverse).reverse

/-- `trim_start_matches(needle)` with a text that is not empty. -/
def trimStartText (needle : List Char) : ℕ → List Char → List Char
  | 0, text => text
  | fuel + 1, text =>
    if needle <+: text then trimStartText needle fuel (text.drop needle.length) else text

/-- `strip_prefix`. -/
def stripPrefixText (needle text : List Char) : Option (List Char) :=
  if needle <+: text then some (text.drop needle.length) else none

/-! ## Parsing -/

namespace QualifiedName

def crateWord : List Char := "crate".toList

def selfWord : List Char := "self".toList

def superWord : List Char := "super".toList

/-- The loop that goes up one module for each `super` (in `parse_in`). -/
def dropSupers (qualifier : List (List Char)) :
    List (List Char) → List (List Char) × List (List Char)
  | [] => (qualifier, [])
  | first :: rest =>
    if first = superWord then dropSupers qualifier.dropLast rest
    else (qualifier, first :: rest)

/-- `parse_in`. -/
def parseIn (text : List Char) (modulePath crateRoot : List (List Char)) : QualifiedName :=
  let segments := ((splitColons text).map trimChars).filter fun segment => !segment.isEmpty
  let name := segments.getLastD []
  let rest := segments.dropLast
  let (qualifier, rest) :=
    match rest with
    | [] => ([], [])
    | first :: tail =>
      if first = crateWord then (crateRoot, tail)
      else if first = selfWord then dropSupers modulePath tail
      else if first = superWord then dropSupers modulePath (first :: tail)
      else ([], first :: tail)
  { qualifier := qualifier ++
      rest.filter fun segment => segment ∉ [crateWord, selfWord, superWord]
    name := name }

/-- `parse`. -/
def parse (text : List Char) : QualifiedName := parseIn text [] []

/-- `owner_hint`. -/
def ownerHint (name : QualifiedName) : List Char := name.qualifier.getLastD []

/-- `is_qualified`. -/
def isQualified (name : QualifiedName) : Bool := !name.qualifier.isEmpty

end QualifiedName

/-! ## Owners -/

/-- `is_subsequence`. -/
def isSubsequence : List (List Char) → List (List Char) → Bool
  | [], _ => true
  | _ :: _, [] => false
  | expected :: needle, candidate :: haystack =>
    if candidate = expected then isSubsequence needle haystack
    else isSubsequence (expected :: needle) haystack

/-- `module_segments`. -/
def moduleSegments (path : List Char) : List (List Char) :=
  let stem :=
    match rsplitOnce '.' path with
    | none => path
    | some (stem, extension) => if '/' ∈ extension then path else stem
  ((stem.splitOn '/').filter fun part => part ∉ ["".toList, "src".toList, "mod".toList,
    "lib".toList, "main".toList, "index".toList]).map fun part =>
      part.map fun c => if c = '-' then '_' else c

/-- The text behind the `>` that closes an open `<` (`closing_angle`). -/
def afterClosingAngle : ℕ → List Char → List Char
  | _, [] => []
  | depth, c :: rest =>
    if c = '<' then afterClosingAngle (depth + 1) rest
    else if c = '>' then if depth ≤ 1 then rest else afterClosingAngle (depth - 1) rest
    else afterClosingAngle depth rest

def trimStartChars (text : List Char) : List Char := text.dropWhile isWhitespaceChar

/-- `impl_header`. -/
def implHeader (container : List Char) : Option (List Char) := do
  let rest ← stripPrefixText "impl".toList
    ((stripPrefixText "unsafe ".toList container).getD container)
  let first ← rest.head?
  if first ∉ ['<', ' ', '\n', '\t'] then none
  else
    let rest := trimStartChars rest
    match rest with
    | '<' :: generics => some (trimStartChars (afterClosingAngle 1 generics))
    | rest => some rest

/-- `split_top_level_for`; `before` is what has been read, in reverse. -/
def splitTopLevelFor (depth : ℤ) (before : List Char) :
    List Char → Option (List Char × List Char)
  | [] => none
  | c :: rest =>
    if c ∈ ['<', '(', '['] then splitTopLevelFor (depth + 1) (c :: before) rest
    else if c ∈ ['>', ')', ']'] then splitTopLevelFor (depth - 1) (c :: before) rest
    else if depth = 0 ∧ " for ".toList <+: c :: rest then
      some (before.reverse, (c :: rest).drop 5)
    else splitTopLevelFor depth (c :: before) rest

section Scopes

variable [Unicode]

/-- `type_name`. -/
def typeName (text : List Char) : Option (List Char) :=
  let text := beforeText " where".toList text
  let text := trimChars (text.takeWhile (· ≠ '<'))
  let text := text.dropWhile (· = '&')
  let text := trimStartText "mut ".toList text.length text
  let text := trimStartText "dyn ".toList text.length text
  let text := text.dropWhile (· = '!')
  let name := trimChars (afterLastText "::".toList text)
  if !name.isEmpty && name.all fun c => Unicode.isAlphanumeric c || c = '_' then some name
  else none

/-- `container_scopes`. -/
def containerScopes (container : Option (List Char)) : List (List (List Char)) :=
  match (container.map trimChars).filter fun c => !c.isEmpty with
  | none => [[]]
  | some container =>
    match implHeader container with
    | some header =>
      let (traitPart, typePart) :=
        match splitTopLevelFor 0 [] header with
        | some (traitPart, typePart) => (some traitPart, typePart)
        | none => (none, header)
      let scopes := ((typeName typePart).map fun name => [name]).toList ++
        ((traitPart.bind typeName).map fun name => [name]).toList
      if scopes.isEmpty then [[]] else scopes
    | none =>
      [(splitColons container).flatMap fun part =>
        splitTerms (fun c => c ∈ ['\\', '.', '/']) part]

namespace QualifiedName

/-- What one owner path gives (in `matches`). -/
def scopeMatch (name : QualifiedName) (owner : List (List Char)) : Option QualifierMatch :=
  if name.qualifier <:+ owner then some .suffix
  else if isSubsequence name.qualifier owner then some .subsequence
  else none

/-- The better one of two. -/
def better (old new : Option QualifierMatch) : Option QualifierMatch :=
  match old, new with
  | some old, some new => some (old.min new)
  | old, new => old.or new

/-- `matches`. -/
def matchesOwner (name : QualifiedName) (path : List Char) (container : Option (List Char)) :
    Option QualifierMatch :=
  if name.qualifier.isEmpty then some .suffix
  else
    (containerScopes container).foldl
      (fun best scope => better best (name.scopeMatch (moduleSegments path ++ scope))) none

theorem matchesOwner_of_unqualified {name : QualifiedName} (h : name.isQualified = false)
    (path : List Char) (container : Option (List Char)) :
    name.matchesOwner path container = some .suffix := by
  have hempty : name.qualifier.isEmpty = true := by simpa [isQualified] using h
  rw [matchesOwner, if_pos hempty]

end QualifiedName

end Scopes

end Trufflepig.Search
