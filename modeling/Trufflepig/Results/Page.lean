import Trufflepig.Lib.BinarySearch
import Trufflepig.Lib.Fallible
import Trufflepig.Results.Lines
import Trufflepig.Store.Paths

/-!
# Pages of results under a budget

Model of `src/results/page.rs`, of the JSON values of entries (`compact_hit` and its callees in
`src/results.rs`), and of the pages of a workspace (`src/workspace/result_cache.rs`). The two `page`
functions fit a page in the same way (`fitPage`); the one of a single repository also shortens the
candidates of a hit that does not fit alone.

The tokenizer of the budget is any predicate on texts. `serde_json` is a pair of functions: the
text of a value, and the value of an entry that is not written compactly. The text of the coverage
and the compact coverage of a workspace are functions of the stored coverage.
-/

namespace Trufflepig.Results

open Lib
open Store (PathError decodePath encodePath)

/-- What a page fails with. -/
inductive PageError where
  | unavailable (message : String)
  | offsetOutside
  | path (error : PathError)
  | absolutePath
  | escapesRoot
  | noHitFits
  | workspaceDoesNotFit

/-- The message of an error; those of a path are the decoder's. -/
def PageError.message : PageError → Option String
  | unavailable message => some message
  | offsetOutside => some "invalid_cursor: offset outside result set"
  | path _ => none
  | absolutePath => some "result_unavailable: stored path is absolute"
  | escapesRoot => some "result_unavailable: stored path escapes repository root"
  | noHitFits => some
    "budget_too_small: no hit and pagination envelope fit; increase --budget"
  | workspaceDoesNotFit => some
    "budget_too_small: workspace coverage and one result do not fit"

inductive OutputFormat where
  | json | lines
  deriving DecidableEq, Repr

/-- `struct OutputBudget`, with its `fits` for the tokenizer. -/
structure OutputBudget where
  limit : ℕ
  format : OutputFormat
  fits : Bytes → Bool

/-- The functions that pages take from outside: the text of a JSON value and the JSON value of an
entry (`serde_json`), and what is written of the stored coverage. -/
structure PageWriter where
  encode : Json → Bytes
  entryValue : ResultEntry → Json
  singleRepoCoverage : Json → Bytes
  workspaceCoverage : WorkspaceSet → Bytes
  compactCoverage : List Json → List Json

/-! ## JSON values of entries -/

/-- `Path::components` gives only `Component::Normal`: no `..`, and no `.` at the start. -/
def normalComponents (path : Bytes) : Bool :=
  !(path.splitOn 0x2f).contains (ascii "..") && (path.splitOn 0x2f).head? ≠ some (ascii ".")

/-- `Path::join` with a relative path. -/
def joinPath (root relative : Bytes) : Bytes :=
  if root = [] ∨ root.getLast? = some 0x2f then root ++ relative
  else root ++ ascii "/" ++ relative

/-- `file_uri` (`results.rs`). -/
def fileUri (root relative : Bytes) : Except PageError Bytes :=
  match decodePath relative with
  | .error e => .error (.path e)
  | .ok relative =>
    if relative.head? = some 0x2f then .error .absolutePath
    else if !normalComponents relative then .error .escapesRoot
    else
      -- `?` and `#` end the path of a URI
      .ok (ascii "file://" ++ (encodePath (joinPath root relative)).flatMap fun byte =>
        if byte = 0x3f then ascii "%3F" else if byte = 0x23 then ascii "%23" else [byte])

/-- `compact_target`. -/
def compactTarget (target : DefinitionTarget) (root : Bytes) (names : Bool) :
    Except PageError Json := do
  let file ← fileUri root target.path
  return .obj ([("file", .str file), ("start", .num target.start), ("end", .num target.stop)] ++
    if names && conciseName target.name then [("name", .str (utf8 target.name))] else [])

/-- `compact_hit`. -/
def compactHit (hit : Hit) (root : Bytes) (member : Option Bytes) (detail : HitDetail) :
    Except PageError Json := do
  let file ← fileUri root hit.path
  let target ← hit.target.mapM fun target => compactTarget target root detail.names
  let candidates ← hit.candidates.mapM fun target => compactTarget target root detail.names
  return .obj (
    (if hit.handle ≠ [] then [("handle", .str hit.handle)] else []) ++
    (member.map fun member => ("member", Json.str member)).toList ++
    [("file", .str file), ("start_line", .num hit.startLine), ("end_line", .num hit.endLine)] ++
    (if detail.names && conciseName hit.name then [("name", .str (utf8 hit.name))] else []) ++
    (match detail.snippets, hit.snippet with
      | true, some snippet =>
        [("snippet", .obj [("line", .num snippet.line), ("text", .str (utf8 snippet.text))])]
      | _, _ => []) ++
    (hit.resolution.map fun resolution => ("resolution", Json.str (utf8 resolution))).toList ++
    (hit.repeats.map fun repeats => ("repeats", Json.num repeats)).toList ++
    (target.map fun target => ("target", target)).toList ++
    if candidates = [] then [] else [("candidates", .arr candidates)])

/-- `compact_entry_for_page`. -/
def compactEntryForPage (writer : PageWriter) (entry : ResultEntry) (root : Bytes)
    (member : Option Bytes) (detail : HitDetail) (compactLive : Bool) : Except PageError Json :=
  match entry, compactLive with
  | .liveSource hit, true => compactHit hit root member detail
  | entry, _ => .ok (writer.entryValue entry)

/-! ## Fitting -/

/-- `SNIPPET_PAGE_FLOOR`. -/
def snippetPageFloor : ℕ := 8

/-- `largest_fitting`. -/
def largestFitting (max : ℕ) (fits : ℕ → Except PageError Bool) : Except PageError ℕ :=
  lastPassing fits 0 max

/-- The detail with everything. -/
def HitDetail.full : HitDetail := ⟨true, true⟩

/-- The detail without snippets. -/
def HitDetail.ofNames (names : Bool) : HitDetail := ⟨names, false⟩

section Fit

variable (budget : OutputBudget) (maxCount : ℕ)

/-- Whether the budget has room for a page that is written. -/
def fitsPage (page : Except PageError Bytes) : Except PageError Bool := do
  return budget.fits (← page)

/-- `snippet_page`. -/
def snippetPage (render : ℕ → HitDetail → Except PageError Bytes) :
    Except PageError (Option Bytes) := do
  let floor := min maxCount snippetPageFloor
  if floor = 0 then return none
  else
    let count ← largestFitting maxCount fun count => fitsPage budget (render count .full)
    if count ≥ floor then
      let text ← render count .full
      return some text
    else return none

/-- One round of the loop over `names` in `page`, with what is tried when no entry fits. -/
def namesPage (render : ℕ → HitDetail → Except PageError Bytes)
    (shorten : Bool → Except PageError (Option Bytes)) (names : Bool) :
    Except PageError (Option Bytes) := do
  let low ← largestFitting maxCount fun count => fitsPage budget (render count (.ofNames names))
  if low > 0 then
    let named ← render low (.ofNames true)
    if budget.fits named then return some named
    else
      let text ← render low (.ofNames names)
      return some text
  else shorten names

/-- The fitting of both `page` functions, with the error of the one that calls it. -/
def fitPage (available : ℕ) (render : ℕ → HitDetail → Except PageError Bytes)
    (shorten : Bool → Except PageError (Option Bytes)) (tooSmall : PageError) :
    Except PageError Bytes := do
  match ← snippetPage budget maxCount render with
  | some text => return text
  | none =>
  match ← namesPage budget maxCount render shorten false with
  | some text => return text
  | none =>
  match ← namesPage budget maxCount render shorten true with
  | some text => return text
  | none =>
    if available = 0 then
      let text ← render 0 (.ofNames false)
      if budget.fits text then return text else throw tooSmall
    else throw tooSmall

end Fit

/-! ## Pages of a repository -/

/-- The candidates of a hit, cut to a limit. -/
def limitCandidates (limit : ℕ) (hit : Json) : Json :=
  match (hit.get "candidates").items? with
  | none => hit
  | some candidates =>
    if candidates.length > limit then
      ((hit.set "candidates" (.arr (candidates.take limit))).set "candidates_total"
        (.num candidates.length)).set "candidates_truncated" (.bool true)
    else hit

/-- What a call of `page` is about. -/
structure PageCall where
  id : Bytes
  root : Bytes
  offset : ℕ
  limit : ℕ

/-- `set.hits[offset..offset + count]`. -/
def PageCall.shown {α : Type} (call : PageCall) (hits : List α) (count : ℕ) : List α :=
  (hits.drop call.offset).take count

/-- `page_value`. -/
def pageValue (writer : PageWriter) (set : StoredResultSet) (call : PageCall) (count : ℕ)
    (detail : HitDetail) (candidateLimit : Option ℕ) (compactLive : Bool) :
    Except PageError Json := do
  let hits ← (call.shown set.hits count).mapM fun entry =>
    compactEntryForPage writer entry call.root none detail compactLive
  let hits := match candidateLimit with
    | none => hits
    | some limit => hits.map (limitCandidates limit)
  return .obj [("generation", .num set.generation), ("coverage", set.coverage),
    ("tokenizer", .str (ascii "o200k_base")), ("hits", .arr hits),
    ("next", .ofOption .str (nextCursor call.id call.offset count set.hits.length)),
    ("truncated", .bool set.truncated)]

section Single

variable (writer : PageWriter) (set : StoredResultSet) (call : PageCall) (budget : OutputBudget)

/-- Sets of the working tree keep whole entries. -/
def compactLive : Bool :=
  (set.coverage.get "endpoint").text? ≠ some (ascii "published_working_tree")

/-- The closure `render_detail` of `page`. -/
def renderDetail (count : ℕ) (detail : HitDetail) (candidateLimit : Option ℕ) :
    Except PageError Bytes :=
  match budget.format with
  | .json => do
    let value ← pageValue writer set call count detail candidateLimit (compactLive set)
    return writer.encode value ++ ascii "\n"
  | .lines =>
    .ok (pageText ((call.shown set.hits count).map fun entry => (none, entry)) detail
      (writer.singleRepoCoverage set.coverage)
      ((nextCursor call.id call.offset count set.hits.length).map fun cursor =>
        moreCommand cursor call.offset count call.limit)
      set.truncated)

/-- The number of candidates of the first hit of a page. -/
def candidateCount (value : Json) : ℕ :=
  match (value.get "hits").items? with
  | some (hit :: _) => (((hit.get "candidates").items?).map List.length).getD 0
  | _ => 0

/-- A single hit with the most candidates that fit. -/
def shortenCandidates (maxCount : ℕ) (names : Bool) : Except PageError (Option Bytes) :=
  if maxCount > 0 ∧ budget.format = .json then do
    let value ← pageValue writer set call 1 (.ofNames names) none (compactLive set)
    let total := candidateCount value
    let limit ← lastPassing (fun limit =>
      fitsPage budget (renderDetail writer set call budget 1 (.ofNames names) (some limit))) 0 total
    if total > 0 then
      let text ← renderDetail writer set call budget 1 (.ofNames names) (some limit)
      return if budget.fits text then some text else none
    else return none
  else return none

/-- The entries that a page may show: those left, up to the limits. -/
def PageCall.maxCount (call : PageCall) (total : ℕ) (budget : OutputBudget) : ℕ :=
  min (min (total - call.offset) call.limit) budget.limit

/-- `page` of a set that is loaded. -/
def page : Except PageError Bytes :=
  if call.offset > set.hits.length then .error .offsetOutside
  else
    let maxCount := call.maxCount set.hits.length budget
    fitPage budget maxCount (set.hits.length - call.offset)
      (fun count detail => renderDetail writer set call budget count detail none)
      (shortenCandidates writer set call budget maxCount) .noHitFits

end Single

/-! ## Pages of a workspace -/

section Workspace

variable (writer : PageWriter) (set : WorkspaceSet) (call : PageCall) (budget : OutputBudget)

/-- One entry of `page_value` of a workspace. -/
def ownedValue (owned : OwnedEntry) (detail : HitDetail) : Except PageError Json :=
  let owner := set.ownerOf owned
  match decodePath owner.root with
  | .error e => .error (.path e)
  | .ok root => do
    let entry ← compactEntryForPage writer owned.entry root (some owner.name) detail true
    if !entry.isObject then return entry
    let entry := entry.set "member" (.str owner.name)
    let entry := match owned.entry with
      | .liveSource _ => entry
      | _ => entry.set "member_rank" (.num owned.memberRank)
    return if owned.worktreeDiffers then entry.set "differs" (.bool true) else entry

/-- `page_value` of a workspace. -/
def workspacePageValue (count : ℕ) (detail : HitDetail) : Except PageError Json := do
  let hits ← (call.shown set.hits count).mapM fun owned => ownedValue writer set owned detail
  return .obj [("workspace", .str set.workspace), ("home", .ofOption .str set.home),
    ("scope", .ofOption .str set.scope), ("coverage", .arr (writer.compactCoverage set.coverage)),
    ("hits", .arr hits),
    ("next", .ofOption .str (nextCursor call.id call.offset count set.hits.length)),
    ("truncated", .bool set.truncated), ("tokenizer", .str (ascii "o200k_base"))]

/-- The closure `render_detail` of the `page` of a workspace. -/
def renderWorkspace (count : ℕ) (detail : HitDetail) : Except PageError Bytes :=
  match budget.format with
  | .json => do
    let value ← workspacePageValue writer set call count detail
    return writer.encode value ++ ascii "\n"
  | .lines =>
    let shown := call.shown set.hits count
    .ok (markWorktreeDiffers
      (pageText (shown.map fun owned => (some (set.ownerOf owned).name, owned.entry)) detail
        (writer.workspaceCoverage set)
        ((nextCursor call.id call.offset count set.hits.length).map fun cursor =>
          moreCommand cursor call.offset count call.limit)
        set.truncated)
      shown)

/-- `page` of a workspace of a set that is loaded. -/
def workspacePage : Except PageError Bytes :=
  if call.offset > set.hits.length then .error .offsetOutside
  else
    fitPage budget (call.maxCount set.hits.length budget) (set.hits.length - call.offset)
      (renderWorkspace writer set call budget) (fun _ => .ok none) .workspaceDoesNotFit

end Workspace

end Trufflepig.Results
