import Trufflepig.Lib.Unicode
import Trufflepig.Results.Entries

/-!
# Pages in the `lines` format

Model of `src/output/lines.rs` (the footer), of `src/results/lines.rs` and of
`mark_worktree_differs` (`src/workspace/result_cache/lines.rs`): one line with tabs for each entry,
a line for the coverage, then the footer. Texts are their bytes. The text of the coverage is an
argument.
-/

namespace Trufflepig.Results

open Lib

/-- The bytes of a string. -/
def utf8 (text : String) : Bytes := encodeChars text.toList

/-- `{n}`. -/
def decimal (n : ℕ) : Bytes := encodeChars (Nat.toDigits 10 n)

/-! ## Footer -/

/-- `struct NextCommand`. -/
structure NextCommand where
  verb : Bytes
  cursor : Bytes
  hint : Option Bytes

/-- `COVERAGE_KEY`. -/
def coverageKey : Bytes := ascii "coverage: "

/-- `PAGE_SIZE_HINT`. -/
def pageSizeHint : Bytes := ascii "-n N raises the page size"

/-- `PAGE_BUDGET_HINT`. -/
def pageBudgetHint : Bytes := ascii "-b N raises the token budget"

/-- `footer`. -/
def footer (next : Option NextCommand) (truncated : Bool) : Bytes :=
  (match next with
    | none => []
    | some next =>
      ascii "next: " ++ next.verb ++ ascii " " ++ next.cursor ++ ascii "\n" ++
        match next.hint with
        | none => []
        | some hint => ascii "hint: " ++ hint ++ ascii "\n") ++
  if truncated then ascii "truncated: true\n" else []

/-! ## Entries -/

/-- A line without its end: `\n`, or `\r\n`. -/
def chompLine (line : Bytes) : Bytes :=
  if line.getLast? = some 0x0a then
    if line.dropLast.getLast? = some 0x0d then line.dropLast.dropLast else line.dropLast
  else line

/-- `text.lines().next().unwrap_or_default()`: up to the first line feed, without its end. -/
def firstLine (text : Bytes) : Bytes :=
  match splitOnce 0x0a text with
  | none => text
  | some (line, _) => chompLine (line ++ [0x0a])

/-- A member before a path. -/
def memberPrefix (member : Option Bytes) : Bytes :=
  match member with
  | none => []
  | some member => member ++ ascii "/"

/-- `entry_line`. -/
def entryLine (entry : ResultEntry) (member : Option Bytes) (detail : HitDetail) : Bytes :=
  match entry with
  | .liveSource hit =>
    hit.handle ++ ascii "\t" ++ memberPrefix member ++ hit.path ++ ascii ":" ++
      decimal hit.startLine ++ ascii "-" ++ decimal hit.endLine ++
    -- a region of a file is named after the path, and the snippet shows the text of a match
    (let previewed := detail.snippets && hit.snippet.isSome && hit.provenance = some .liveRegex
      if detail.names && conciseName hit.name && utf8 hit.name ≠ hit.path && !previewed then
        ascii "\t" ++ utf8 hit.name
      else []) ++
    (match hit.resolution with
      | none => []
      | some resolution => ascii "\tresolution=" ++ utf8 resolution) ++
    (match hit.repeats with
      | none => []
      | some repeats => ascii "\t" ++ utf8 "×" ++ decimal repeats) ++
    (match detail.snippets, hit.snippet with
      | true, some snippet =>
        ascii "\n  " ++ decimal snippet.line ++ ascii ": " ++ utf8 snippet.text
      | _, _ => [])
  | .commit commit =>
    commit.handle ++ ascii "\tcommit:" ++ commit.commit.text ++ ascii "\t" ++
      firstLine commit.summary
  | .change change =>
    let path := match change.after.or change.before with
      | none => []
      | some source => source.path
    change.handle ++ ascii "\tchange:" ++ change.status ++ ascii "\t" ++ memberPrefix member ++
      path ++ ascii "\t" ++ change.name

/-! ## Pages -/

/-- `page_text`. -/
def pageText (entries : List (Option Bytes × ResultEntry)) (detail : HitDetail) (coverage : Bytes)
    (next : Option NextCommand) (truncated : Bool) : Bytes :=
  (entries.flatMap fun (member, entry) => entryLine entry member detail ++ ascii "\n") ++
    coverageKey ++ coverage ++ ascii "\n" ++ footer next truncated

/-- `SET@OFFSET`. -/
def cursorText (id : Bytes) (offset : ℕ) : Bytes := id ++ ascii "@" ++ decimal offset

/-- `next_cursor`. -/
def nextCursor (id : Bytes) (offset count total : ℕ) : Option Bytes :=
  if offset + count < total then some (cursorText id (offset + count)) else none

/-- `more_command`. -/
def moreCommand (cursor : Bytes) (offset count limit : ℕ) : NextCommand where
  verb := ascii "more"
  cursor := cursor
  hint := if offset = 0 then some (if count ≥ limit then pageSizeHint else pageBudgetHint) else none

/-- `split_inclusive('\n')`. -/
def splitInclusive : Bytes → List Bytes
  | [] => []
  | byte :: rest =>
    if byte = 0x0a then [byte] :: splitInclusive rest
    else
      match splitInclusive rest with
      | [] => [[byte]]
      | line :: lines => (byte :: line) :: lines

/-- The handles of the live hits that may differ. -/
def differingHandles (hits : List OwnedEntry) : List Bytes :=
  hits.filterMap fun owned =>
    match owned.worktreeDiffers, owned.entry with
    | true, .liveSource hit => some hit.handle
    | _, _ => none

/-- One line of `mark_worktree_differs`. -/
def markLine (differing : List Bytes) (line : Bytes) : Bytes :=
  let body := if line.getLast? = some 0x0a then line.dropLast else line
  body ++
    (match splitOnce 0x09 body with
      | some (handle, _) => if handle ∈ differing then ascii "\tdiffers" else []
      | none => []) ++
    if body.length < line.length then [0x0a] else []

/-- `mark_worktree_differs`. -/
def markWorktreeDiffers (text : Bytes) (hits : List OwnedEntry) : Bytes :=
  if (differingHandles hits).isEmpty then text
  else (splitInclusive text).flatMap (markLine (differingHandles hits))

end Trufflepig.Results
