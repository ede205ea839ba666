import Trufflepig.Lib.Fallible
import Trufflepig.Lib.Rounds
import Trufflepig.Lib.Select
import Trufflepig.Results.Entries

/-!
# A search of the members of a workspace (`workspace/retrieval.rs`)

The members of a query are asked one after the other. Without a selector the home member is asked
first, and the others only if it answers without a hit. The entries of the members are merged in
rounds and saved, which may drop entries from the end (`save` in `workspace/result_cache.rs`, up to
the table of stored sets).

What a member answers is a function of the member, since none is asked twice; a member whose cache
directory cannot be had ends the search instead. A selector is a word `in:NAME`, `ws:home` or
`ws:all`. Of the coverage of a member the row has what `save` reads. The
lengths of the JSON texts of an entry and of a set are parameters.

* `searchMembers_asked`: which members are asked, each once.
* `searchMembers_good`: what the lists and rows have after any number of members.
* `search_spec`: the members asked, and the set that is saved.
-/

namespace Trufflepig.Workspace

open List Lib Results

/-! ## Scope -/

/-- `struct MemberRoot`, with its encoded root. -/
structure MemberRoot where
  name : Bytes
  root : Bytes
  isHome : Bool

/-- The members of a configuration: their names are the keys of a map. -/
structure Members where
  roots : List MemberRoot
  unique : (roots.map MemberRoot.name).Nodup

inductive Selector where
  | home | all | named (name : Bytes)
  deriving DecidableEq

/-- The selectors of a query, of which no two may differ (`scope` in `member_scope.rs`). -/
def mergeSelectors (selection : Option Selector) : List Selector →
    Except String (Option Selector)
  | [] => .ok selection
  | word :: words =>
    if selection.all (· = word) then mergeSelectors (some word) words
    else .error "invalid_scope: conflicting workspace selectors"

/-- `struct Scope`, without the words that are left. -/
structure Scope where
  members : List ℕ
  implicitHome : Bool

namespace Members

variable (members : Members)

def homeName : Option Bytes := (members.roots.find? MemberRoot.isHome).map MemberRoot.name

def root (index : ℕ) : MemberRoot := members.roots.getD index ⟨[], [], false⟩

/-- The member that a selection names; none for all of them (`scope` in `member_scope.rs`). -/
def selected : Option Selector → Except String (Option Bytes)
  | some .home =>
    match members.homeName with
    | some name => .ok (some name)
    | none => .error "member_required: ws:home has no home member"
  | some .all => .ok none
  | none => .ok members.homeName
  | some (.named name) => .ok (some name)

/-- `members.sort_by_key`: the home first, then by name. -/
def scopeOrder : ℕ → ℕ → Ordering :=
  compareLex (compareOn fun i => decide (some (members.root i).name ≠ members.homeName))
    (compareOn fun i => (members.root i).name)

/-- `scope` (`member_scope.rs`). -/
def scope (option : Option Bytes) (words : List Selector) : Except String Scope := do
  let selection ← mergeSelectors (option.map .named) words
  let selected ← members.selected selection
  if selected.all fun name => name ∈ members.roots.map MemberRoot.name then
    .ok {
      members := orderBy members.scopeOrder ((List.range members.roots.length).filter fun i =>
        selected.all fun name => (members.root i).name = name)
      implicitHome := selection.isNone && members.homeName.isSome }
  else .error "invalid_member: member is not configured"

end Members

/-- `implicit_home_scope` (`member_scope.rs`). -/
def implicitHomeScope (others : ℕ) (homeAnswered homeHits : Bool) (homeState : String) :
    String × Bool :=
  let plural := if others = 1 then "" else "s"
  if others = 0 then ("home", false)
  else if !homeAnswered then
    ("home (" ++ homeState.map (fun c => if c = '_' then ' ' else c) ++ "; ws:all searches " ++
      toString others ++ " member" ++ plural ++ ")", false)
  else if !homeHits then ("all (no home hits)", true)
  else ("home (ws:all adds " ++ toString others ++ " member" ++ plural ++ ")", false)

/-! ## Members -/

/-- What a member found: the hits, each with whether its file differs from the index that answered;
`reextraction` tells whether the files of a worktree were read again, and if so whether that was
incomplete. -/
structure MemberFound where
  hits : List (Hit × Bool)
  truncated : Bool
  reextraction : Option Bool
  mapMiss : Option String

/-- `enum MemberAnswer`, or the state of a member that failed. -/
inductive MemberAnswer where
  | found (found : MemberFound)
  | warming
  | timedOut
  | unavailable

/-- `member_state` (`search_with_policy` in `retrieval.rs`). -/
def MemberAnswer.state : MemberAnswer → String
  | found _ => "searched"
  | warming => "warming"
  | timedOut => "timed_out"
  | unavailable => "unavailable"

def MemberAnswer.found? : MemberAnswer → Option MemberFound
  | found answer => some answer
  | _ => none

/-- The entries of a member within its quota of bytes (in `search_with_policy`). -/
def takeEntries (entryLength : OwnedEntry → ℕ) (owner byteQuota : ℕ) :
    ℕ → ℕ → List (Hit × Bool) → List OwnedEntry
  | _, _, [] => []
  | rank, bytes, (hit, differs) :: hits =>
    let entry : OwnedEntry := ⟨owner, rank + 1, .liveSource hit, differs⟩
    let bytes := bytes + entryLength entry
    if byteQuota < bytes then []
    else entry :: takeEntries entryLength owner byteQuota (rank + 1) bytes hits

/-- `member_row` and `searched_row` (`member_coverage.rs`). -/
def memberRow (name : Bytes) (state : String) : Json :=
  .obj [("member", .str name), ("state", .str (ascii state))]

/-- The row of a member that was searched (`search_with_policy` in `retrieval.rs`). -/
def searchedRow (name : Bytes) (retained : ℕ) (truncated reextracted : Bool) : Json :=
  let row := (((memberRow name "searched").set "retained" (.num retained)).set
    "truncated" (.bool truncated))
  if reextracted then (row.set "partial" (.bool true)).set "truncated" (.bool true) else row

/-- The variables of the loop, and the members it has asked. -/
structure SearchState where
  asked : List ℕ
  owners : List MemberSnapshot
  coverage : List Json
  truncated : Bool
  lists : List (List OwnedEntry)
  mapMiss : Option String
  timedOut : Bool

def SearchState.start : SearchState := ⟨[], [], [], false, [], none, false⟩

section Search

variable (members : Members) (answer : ℕ → MemberAnswer) (entryLength : OwnedEntry → ℕ)

/-- The entries that are kept of a member, of as many members as are queued. -/
def memberEntries (queued owner : ℕ) (found : MemberFound) : List OwnedEntry :=
  takeEntries entryLength owner (maxResultBytes / queued) 0 0 (found.hits.take (maxHits / queued))

/-- One turn of the loop, with as many members queued. -/
def visit (queued : ℕ) (state : SearchState) (index : ℕ) : SearchState :=
  let member := members.root index
  match answer index with
  | .found found =>
    let entries := memberEntries entryLength queued state.owners.length found
    let truncated := found.truncated || entries.length < found.hits.length
    { state with
      asked := state.asked ++ [index]
      owners := state.owners ++ [⟨member.name, member.root⟩]
      coverage := state.coverage ++
        [searchedRow member.name entries.length truncated found.reextraction.isSome]
      truncated := state.truncated || truncated
      lists := state.lists ++ [entries]
      mapMiss := state.mapMiss.or found.mapMiss }
  | other =>
    { state with
      asked := state.asked ++ [index]
      coverage := state.coverage ++ [memberRow member.name other.state]
      timedOut := state.timedOut || other.state = "timed_out" }

/-- The scope of an implicit home after its answer, and whether it widens. -/
def homeScope (state : SearchState) (home : ℕ) : String × Bool :=
  let incomplete := match answer home with
    | .found found => found.reextraction = some true
    | _ => false
  implicitHomeScope (members.roots.length - 1) (!state.lists.isEmpty && !incomplete)
    (state.lists.head?.any fun list => !list.isEmpty)
    (if incomplete then "incomplete" else (answer home).state)

/-- The loop over the queue: it can grow only after the first member. -/
def searchMembers (scope : Scope) : SearchState × Option String :=
  match scope.members with
  | [] => (.start, none)
  | first :: queue =>
    let state := visit members answer entryLength (queue.length + 1) .start first
    if scope.implicitHome then
      let (text, widen) := homeScope members answer state first
      let queue :=
        if widen then
          queue ++ (List.range members.roots.length).filter fun i => decide (i ≠ first)
        else queue
      (queue.foldl (visit members answer entryLength (queue.length + 1)) state, some text)
    else (queue.foldl (visit members answer entryLength (queue.length + 1)) state, none)

end Search

/-! ## Saving -/

/-- The first row of a member is changed. -/
def updateFirst (p : Json → Bool) (f : Json → Json) : List Json → List Json
  | [] => []
  | row :: rows => if p row then f row :: rows else row :: updateFirst p f rows

/-- `coverage["retained"] = count`, which a row with a greater count tells as truncated. -/
def recount (count : ℕ) (row : Json) : Json :=
  let row :=
    if (row.get "retained").nat?.any fun old => decide (count < old) then
      row.set "truncated" (.bool true)
    else row
  row.set "retained" (.num count)

def retainedBy (hits : List OwnedEntry) (owner : ℕ) : ℕ := hits.countP fun hit => hit.owner = owner

/-- The rows of some owners, counted from a number. -/
def recountRows (hits : List OwnedEntry) : ℕ → List MemberSnapshot → List Json → List Json
  | _, [], coverage => coverage
  | owner, member :: owners, coverage =>
    recountRows hits (owner + 1) owners (updateFirst
      (fun row => (row.get "member").text? = some member.name)
      (recount (retainedBy hits owner)) coverage)

/-- `refresh_retained_counts` (`result_cache.rs`). -/
def refreshRetainedCounts (set : WorkspaceSet) : WorkspaceSet :=
  { set with coverage := recountRows set.hits 0 set.owners set.coverage }

/-- The handles of a set. -/
def assignHandles (id : Bytes) (hits : List OwnedEntry) : List OwnedEntry :=
  hits.mapIdx fun index hit => { hit with
    entry := hit.entry.withHandle (id ++ ascii ":" ++ ascii (toString (index + 1))) }

variable {count : ℕ}

theorem keep_lt {length : ℕ} (hcount : count ≠ 0) (hlength : maxResultBytes < length) :
    count * maxResultBytes / length - 1 < count := by
  have hle : count * maxResultBytes / length ≤ count :=
    Nat.div_le_of_le_mul (by rw [Nat.mul_comm length]; exact Nat.mul_le_mul_left count hlength.le)
  omega

/-- The loop that drops entries until the text fits (in `save`). -/
def shrink (payloadLength : WorkspaceSet → ℕ) (set : WorkspaceSet) : WorkspaceSet :=
  if _h : maxResultBytes < payloadLength set ∧ set.hits.length ≠ 0 then
    shrink payloadLength (refreshRetainedCounts { set with
      hits := set.hits.take (set.hits.length * maxResultBytes / payloadLength set - 1)
      truncated := true })
  else set
termination_by set.hits.length
decreasing_by
  show (set.hits.take _).length < _
  rw [length_take]
  exact (min_le_left _ _).trans_lt (keep_lt _h.2 _h.1)

/-- A set cut to `MAX_HITS` entries, with their handles. -/
def cutSet (id : Bytes) (set : WorkspaceSet) : WorkspaceSet :=
  { set with
    truncated := set.truncated || maxHits < set.hits.length
    hits := assignHandles id (set.hits.take maxHits) }

/-- The set that `save` stores under an id. -/
def savedSet (payloadLength : WorkspaceSet → ℕ) (id : Bytes) (set : WorkspaceSet) :
    Except String WorkspaceSet :=
  let set := shrink payloadLength (refreshRetainedCounts (cutSet id set))
  if payloadLength set ≤ maxResultBytes then .ok set
  else .error "result_cache_unavailable: workspace metadata exceeds capacity"

/-- The set of a search, with the entries of the members merged (`search_with_policy` in
`retrieval.rs`). -/
def SearchState.toSet (state : SearchState) (workspace : Bytes) (home scope : Option Bytes) :
    WorkspaceSet where
  workspace := workspace
  home := home
  owners := state.owners
  coverage := state.coverage
  hits := rounds state.lists
  truncated := state.truncated
  scope := scope

/-- `search_with_policy` (`retrieval.rs`) up to the page that it shows; `cacheError` is
the failure of `member_cache` for a member, the first of which the search returns. -/
def search (members : Members) (cacheError : ℕ → Option String) (answer : ℕ → MemberAnswer)
    (entryLength : OwnedEntry → ℕ) (payloadLength : WorkspaceSet → ℕ) (workspace id : Bytes)
    (option : Option Bytes) (words : List Selector) : Except String WorkspaceSet := do
  let scope ← members.scope option words
  let (state, text) := searchMembers members answer entryLength scope
  match (state.asked.findSome? cacheError).or
    (if state.lists.all List.isEmpty then state.mapMiss else none) with
  | some error => .error error
  | none =>
    if state.owners.isEmpty && state.timedOut then
      .error "timed_out: query deadline expired before any member answered"
    else if state.owners.isEmpty && !scope.implicitHome then
      .error ("workspace_unavailable: no selected member has an available published index; " ++
        "inspect ws status or use --no-daemon")
    else
      savedSet payloadLength id (state.toSet workspace members.homeName (text.map ascii))

/-! ## The members that are asked -/

variable {members : Members} {answer : ℕ → MemberAnswer} {entryLength : OwnedEntry → ℕ}
  {option : Option Bytes} {words : List Selector} {scope : Scope}

theorem name_injective {i j : ℕ} (hi : i < members.roots.length) (hj : j < members.roots.length)
    (h : (members.root i).name = (members.root j).name) : i = j := by
  apply (getElem?_inj (by simpa using hi) members.unique).mp
  unfold Members.root at h
  rw [getD_eq_getElem _ _ hi, getD_eq_getElem _ _ hj] at h
  rw [getElem?_map, getElem?_map, getElem?_eq_getElem hi,
    getElem?_eq_getElem hj, Option.map_some, Option.map_some, h]

/-- The members of a scope are distinct members of the workspace, and an implicit home is one. -/
theorem scope_members (h : members.scope option words = .ok scope) :
    scope.members.Nodup ∧ (∀ i ∈ scope.members, i < members.roots.length) ∧
      (scope.implicitHome = true → ∃ home, scope.members = [home]) := by
  unfold Members.scope at h
  obtain ⟨selection, -, h⟩ := bind_eq_ok.mp h
  obtain ⟨selected, hselected, h⟩ := bind_eq_ok.mp h
  split_ifs at h
  rw [← Except.ok.inj h]
  have hnodup : ((List.range members.roots.length).filter fun i =>
      selected.all fun name => (members.root i).name = name).Nodup := nodup_range.filter _
  refine ⟨(orderBy_perm ..).nodup_iff.mpr hnodup, fun i hi => ?_, fun himplicit => ?_⟩
  · exact mem_range.mp (mem_of_mem_filter (mem_orderBy.mp hi))
  · obtain ⟨hnone, hhome⟩ := Bool.and_eq_true_iff.mp himplicit
    rw [Option.isNone_iff_eq_none.mp hnone] at hselected
    obtain ⟨name, hname⟩ := Option.isSome_iff_exists.mp hhome
    have hselected : selected = some name := by
      rw [← hname]
      exact (Except.ok.inj hselected).symm
    obtain ⟨root, hfind, rfl⟩ := Option.map_eq_some_iff.mp hname
    obtain ⟨home, hlt, hroot⟩ := getElem_of_mem (mem_of_find?_eq_some hfind)
    have hhome : (members.root home).name = root.name := by
      rw [Members.root, getD_eq_getElem _ _ hlt, hroot]
    refine ⟨home, perm_singleton.mp ((orderBy_perm ..).trans ?_)⟩
    rw [perm_ext_iff_of_nodup hnodup (nodup_singleton home)]
    intro i
    rw [hselected, mem_filter, mem_range, mem_singleton, Option.all_some, decide_eq_true_eq]
    constructor
    · rintro ⟨hi, heq⟩
      exact name_injective hi hlt (heq.trans hhome.symm)
    · rintro rfl
      exact ⟨hlt, hhome⟩

theorem visit_asked (queued : ℕ) (state : SearchState) (index : ℕ) :
    (visit members answer entryLength queued state index).asked = state.asked ++ [index] := by
  unfold visit
  cases answer index <;> rfl

theorem foldl_visit_asked (queued : ℕ) (queue : List ℕ) (state : SearchState) :
    (queue.foldl (visit members answer entryLength queued) state).asked = state.asked ++ queue := by
  induction queue generalizing state with
  | nil => exact (append_nil _).symm
  | cons index queue ih => rw [foldl_cons, ih, visit_asked, append_assoc]; rfl

variable (members answer entryLength) in
/-- The search goes on to all members: an implicit home has answered without a hit. -/
def widens (scope : Scope) : Bool :=
  scope.implicitHome && scope.members.head?.any fun home =>
    (homeScope members answer (visit members answer entryLength scope.members.length .start home)
      home).2

variable (members answer entryLength) in
/-- A search has asked the members of its scope, and the others if it has widened. -/
theorem searchMembers_asked (scope : Scope) :
    (searchMembers members answer entryLength scope).1.asked = scope.members ++
      if widens members answer entryLength scope then
        (List.range members.roots.length).filter fun i => decide (i ∉ scope.members.head?)
      else [] := by
  unfold searchMembers widens
  cases scope.members with
  | nil => simp [SearchState.start]
  | cons first queue =>
    cases scope.implicitHome with
    | false =>
      simp only [Bool.false_eq_true, if_false, Bool.false_and, append_nil]
      rw [foldl_visit_asked, visit_asked]
      rfl
    | true =>
      simp only [if_true, Bool.true_and, head?_cons, Option.any_some, length_cons]
      rw [foldl_visit_asked, visit_asked]
      split_ifs
      · simp [SearchState.start, eq_comm]
      · simp [SearchState.start]

variable (answer entryLength) in
/-- Each member is asked once: those of the scope, or all if the search widens. -/
theorem asked_spec (h : members.scope option words = .ok scope) :
    let asked := (searchMembers members answer entryLength scope).1.asked
    asked.Nodup ∧ ∀ i, i ∈ asked ↔ i ∈ scope.members ∨
      widens members answer entryLength scope = true ∧ i < members.roots.length := by
  obtain ⟨hnodup, hlt, himplicit⟩ := scope_members h
  rw [searchMembers_asked]
  cases hwidens : widens members answer entryLength scope with
  | false => simpa using hnodup
  | true =>
    obtain ⟨home, hhome⟩ := himplicit (Bool.and_elim_left hwidens)
    have hrest : (List.range members.roots.length).filter (fun i => decide (i ∉ some home)) =
        (List.range members.roots.length).filter fun i => decide (i ≠ home) := by
      simp [eq_comm]
    rw [if_pos rfl, hhome, head?_cons, hrest]
    refine ⟨nodup_cons.mpr ⟨by simp, nodup_range.filter _⟩, fun i => ?_⟩
    by_cases hi : i = home
    · simp [hi]
    · simp [hi]

/-! ## What the lists and rows have -/

/-- The entries of an owner: the first hits of its member, with their ranks. -/
def Kept (owner : ℕ) (found : MemberFound) (entries : List OwnedEntry) : Prop :=
  ∀ (j : ℕ) (entry : OwnedEntry), entries[j]? = some entry →
    ∃ hit, found.hits[j]? = some hit ∧ entry = ⟨owner, j + 1, .liveSource hit.1, hit.2⟩

theorem takeEntries_kept (owner byteQuota rank bytes : ℕ) (hits : List (Hit × Bool)) (j : ℕ)
    (entry : OwnedEntry)
    (h : (takeEntries entryLength owner byteQuota rank bytes hits)[j]? = some entry) :
    ∃ hit, hits[j]? = some hit ∧ entry = ⟨owner, rank + j + 1, .liveSource hit.1, hit.2⟩ := by
  induction hits generalizing rank bytes j with
  | nil => exact nomatch h
  | cons hit hits ih =>
    unfold takeEntries at h
    simp only at h
    split_ifs at h
    · exact nomatch h
    · cases j with
      | zero => exact ⟨hit, rfl, (Option.some.inj h).symm⟩
      | succ j =>
        obtain ⟨found, hfound, hentry⟩ := ih (rank + 1) _ j h
        exact ⟨found, hfound, by rw [hentry, Nat.add_right_comm rank 1 j]; rfl⟩

theorem memberEntries_kept (queued owner : ℕ) (found : MemberFound) :
    Kept owner found (memberEntries entryLength queued owner found) := by
  intro j entry h
  obtain ⟨hit, hhit, hentry⟩ := takeEntries_kept _ _ _ _ _ j entry h
  rw [getElem?_take] at hhit
  split_ifs at hhit
  exact ⟨hit, hhit, by rw [hentry, Nat.zero_add]⟩

/-- The row of a member tells how many of its hits are retained, and whether some are not. -/
def RowHolds (coverage : List Json) (name : Bytes) (retained total : ℕ) : Prop :=
  ∃ row ∈ coverage, row.isObject = true ∧ row.get "member" = .str name ∧
    row.get "retained" = .num retained ∧ (retained < total → row.get "truncated" = .bool true)

theorem rowHolds_searchedRow (name : Bytes) (retained total : ℕ) (truncated reextracted : Bool)
    (h : retained < total → truncated = true) :
    RowHolds [searchedRow name retained truncated reextracted] name retained total := by
  refine ⟨_, mem_singleton_self _, ?_⟩
  unfold searchedRow
  cases reextracted with
  | false => exact ⟨rfl, rfl, rfl, fun hlt => congrArg Json.bool (h hlt)⟩
  | true => exact ⟨rfl, rfl, rfl, fun _ => rfl⟩

/-- The member of a row. -/
def memberOf (row : Json) : Option Bytes := (row.get "member").text?

/-- What the loop keeps: a row for each member asked, an owner for each that answered, and for each
owner its entries. -/
structure Good (members : Members) (answer : ℕ → MemberAnswer) (state : SearchState) : Prop where
  rows : state.coverage.map memberOf = state.asked.map fun i => some (members.root i).name
  owners : state.owners.map MemberSnapshot.name =
    (state.asked.filter fun i => (answer i).found?.isSome).map fun i => (members.root i).name
  lists : state.lists.length = state.owners.length
  entries : ∀ k owner, state.owners[k]? = some owner → ∃ i ∈ state.asked, ∃ found entries,
    owner.name = (members.root i).name ∧ answer i = .found found ∧
      state.lists[k]? = some entries ∧ Kept k found entries ∧
      RowHolds state.coverage owner.name entries.length found.hits.length ∧
      (entries.length < found.hits.length → state.truncated = true)

theorem Good.start : Good members answer .start :=
  ⟨rfl, rfl, rfl, fun _ _ h => nomatch h⟩

theorem RowHolds.append {coverage : List Json} {name : Bytes} {retained total : ℕ}
    (h : RowHolds coverage name retained total) (more : List Json) :
    RowHolds (coverage ++ more) name retained total := by
  obtain ⟨row, hrow, h⟩ := h
  exact ⟨row, mem_append_left _ hrow, h⟩

variable {state : SearchState}

/-- A member without an answer has a row and no entries. -/
theorem Good.unanswered (h : Good members answer state) {index : ℕ}
    (hindex : (answer index).found? = none) (memberState : String) (timedOut : Bool) :
    Good members answer { state with
      asked := state.asked ++ [index]
      coverage := state.coverage ++ [memberRow (members.root index).name memberState]
      timedOut := timedOut } := by
  refine ⟨?_, ?_, h.lists, fun k owner hk => ?_⟩
  · simp only [map_append, h.rows, map_singleton]
    rfl
  · rw [filter_append, filter_singleton, hindex]
    simpa using h.owners
  · obtain ⟨i, hi, found, entries, hname, hanswer, hentries, hkept, hrow, htruncated⟩ :=
      h.entries k owner hk
    exact ⟨i, mem_append_left _ hi, found, entries, hname, hanswer, hentries, hkept,
      hrow.append _, htruncated⟩

theorem Good.visit (h : Good members answer state) (queued index : ℕ) :
    Good members answer (visit members answer entryLength queued state index) := by
  unfold Workspace.visit
  cases hanswer : answer index with
  | found found =>
    simp only
    set entries := memberEntries entryLength queued state.owners.length found
    refine ⟨?_, ?_, ?_, fun k owner hk => ?_⟩
    · simp only [map_append, h.rows, map_singleton, searchedRow]
      split <;> rfl
    · rw [filter_append, filter_singleton, hanswer, map_append, h.owners]
      rw [map_append]
      rfl
    · simp only [length_append, length_singleton, h.lists]
    · simp only at hk ⊢
      by_cases hold : k < state.owners.length
      · rw [getElem?_append_left hold] at hk
        obtain ⟨i, hi, found', entries', hname, hanswer', hentries, hkept, hrow, htruncated⟩ :=
          h.entries k owner hk
        refine ⟨i, mem_append_left _ hi, found', entries', hname, hanswer', ?_, hkept,
          hrow.append _, fun hlt => by rw [htruncated hlt, Bool.true_or]⟩
        rwa [getElem?_append_left (by rw [h.lists]; exact hold)]
      · rw [getElem?_append_right (by omega), getElem?_singleton] at hk
        split_ifs at hk with hzero
        have hlast : k = state.owners.length := by omega
        rw [← Option.some.inj hk]
        refine ⟨index, by simp, found, entries, rfl, hanswer, ?_, ?_, ?_, fun hlt => ?_⟩
        · rw [hlast, ← h.lists, getElem?_concat_length]
        · rw [hlast]
          exact memberEntries_kept queued _ found
        · obtain ⟨row, hrow, hholds⟩ := rowHolds_searchedRow (members.root index).name entries.length
            found.hits.length (found.truncated || decide (entries.length < found.hits.length))
            found.reextraction.isSome fun hlt => by rw [decide_eq_true hlt, Bool.or_true]
          exact ⟨row, mem_append_right _ hrow, hholds⟩
        · rw [decide_eq_true hlt, Bool.or_true, Bool.or_true]
  | warming | timedOut | unavailable => exact h.unanswered (by rw [hanswer]; rfl) _ _

theorem Good.foldl_visit (h : Good members answer state) (queued : ℕ) (queue : List ℕ) :
    Good members answer (queue.foldl (Workspace.visit members answer entryLength queued) state) :=
  foldlRecOn queue _ h fun _ h index _ => h.visit queued index

variable (members answer entryLength) in
theorem searchMembers_good (scope : Scope) :
    Good members answer (searchMembers members answer entryLength scope).1 := by
  unfold searchMembers
  cases scope.members with
  | nil => exact Good.start
  | cons first queue =>
    cases scope.implicitHome with
    | true | false => exact (Good.start.visit _ first).foldl_visit _ _

/-! ## What is saved -/

variable {hits : List OwnedEntry}

section Rows

variable {coverage : List Json} {name : Bytes} {retained total : ℕ}

theorem get_recount_member (count : ℕ) (row : Json) :
    (recount count row).get "member" = row.get "member" := by
  unfold recount
  rw [Json.get_set_of_ne (by decide)]
  split_ifs
  · exact Json.get_set_of_ne (by decide) ..
  · rfl

/-- Where each member has one row, the row of the member is changed. -/
theorem updateFirst_eq_map (hunique : (coverage.map memberOf).Nodup) (f : Json → Json) :
    updateFirst (fun row => memberOf row = some name) f coverage =
      coverage.map fun row => if memberOf row = some name then f row else row := by
  induction coverage with
  | nil => rfl
  | cons row coverage ih =>
    obtain ⟨hrow, hunique⟩ := nodup_cons.mp hunique
    rw [updateFirst, map_cons]
    by_cases hname : memberOf row = some name
    · have hrest : ∀ other ∈ coverage, (if memberOf other = some name then f other else other) =
          other := fun other hother => if_neg fun heq =>
        hrow (mem_map.mpr ⟨other, hother, heq.trans hname.symm⟩)
      rw [if_pos (decide_eq_true hname), if_pos hname, map_congr_left hrest, map_id']
    · rw [if_neg (by simp [hname]), if_neg hname, ih hunique]

variable {owners : List MemberSnapshot}

/-- The row of each owner is counted, and the other rows stay. -/
theorem recountRows_eq_map (hits : List OwnedEntry) (s : ℕ)
    (hunique : (coverage.map memberOf).Nodup) (howners : (owners.map MemberSnapshot.name).Nodup) :
    ∃ f : Json → Json, recountRows hits s owners coverage = coverage.map f ∧
      (∀ row, memberOf (f row) = memberOf row) ∧
      (∀ row, memberOf row ∉ owners.map (some ·.name) → f row = row) ∧
      ∀ k owner row, owners[k]? = some owner → memberOf row = some owner.name →
        f row = recount (retainedBy hits (s + k)) row := by
  induction owners generalizing s coverage with
  | nil => exact ⟨id, (map_id _).symm, fun _ => rfl, fun _ _ => rfl, by simp⟩
  | cons first owners ih =>
    obtain ⟨hfirst, howners⟩ := nodup_cons.mp howners
    let g := fun row => if memberOf row = some first.name then recount (retainedBy hits s) row else row
    have hg : ∀ row, memberOf (g row) = memberOf row := by
      intro row
      simp only [g]
      split_ifs
      · exact congrArg Json.text? (get_recount_member ..)
      · rfl
    have hmap : updateFirst (fun row => memberOf row = some first.name) (recount (retainedBy hits s))
        coverage = coverage.map g := updateFirst_eq_map hunique _
    obtain ⟨f, heq, hkeep, hnot, hat⟩ := ih (s + 1) (show ((coverage.map g).map memberOf).Nodup by
      rwa [map_map, show memberOf ∘ g = memberOf from funext hg]) howners
    refine ⟨f ∘ g, ?_, fun row => (hkeep _).trans (hg row), fun row hrow => ?_,
      fun k owner row hk hrow => ?_⟩
    · exact (congrArg (recountRows hits (s + 1) owners) hmap).trans (heq.trans map_map)
    · obtain ⟨hne, hrow⟩ := not_or.mp (mem_cons.not.mp hrow)
      rw [Function.comp_apply, show g row = row from if_neg hne, hnot row hrow]
    · cases k with
      | zero =>
        obtain rfl := Option.some.inj hk
        rw [Function.comp_apply, hnot, show g row = _ from if_pos hrow, Nat.add_zero]
        rw [hg, hrow]
        simpa using hfirst
      | succ k =>
        have hne : memberOf row ≠ some first.name := by
          rw [hrow]
          intro h
          exact hfirst (Option.some.inj h ▸ mem_map_of_mem (mem_of_getElem? hk))
        rw [Function.comp_apply, show g row = row from if_neg hne, hat k owner row hk hrow,
          Nat.add_right_comm, Nat.add_assoc]

/-- Counting fewer hits of a member than before tells that some were dropped. -/
theorem rowHolds_recount (hobject : row.isObject = true) (hname : row.get "member" = .str name)
    (hretained : row.get "retained" = .num retained)
    (htruncated : retained < total → row.get "truncated" = .bool true)
    (hle : count ≤ retained) :
    (recount count row).isObject = true ∧ (recount count row).get "member" = .str name ∧
      (recount count row).get "retained" = .num count ∧
      (count < total → (recount count row).get "truncated" = .bool true) := by
  refine ⟨?_, (get_recount_member count row).trans hname, ?_, fun hlt => ?_⟩
  all_goals unfold recount
  · rw [Json.isObject_set]
    split_ifs
    · rw [Json.isObject_set, hobject]
    · exact hobject
  · apply Json.get_set_self
    split_ifs
    · rw [Json.isObject_set, hobject]
    · exact hobject
  · rw [Json.get_set_of_ne (by decide), hretained]
    by_cases hcut : count < retained
    · rw [if_pos (by simp [Json.nat?, hcut])]
      exact Json.get_set_self hobject ..
    · rw [if_neg (by simp [Json.nat?, hcut])]
      exact htruncated (by omega)

end Rows

/-- A set whose row of an owner tells what is retained of it, and that tells whether something was
dropped. -/
structure Counted (k : ℕ) (owner : MemberSnapshot) (total retained : ℕ) (set : WorkspaceSet) :
    Prop where
  unique : (set.coverage.map memberOf).Nodup
  owners : (set.owners.map MemberSnapshot.name).Nodup
  owned : set.owners[k]? = some owner
  row : RowHolds set.coverage owner.name retained total
  truncated : retained < total → set.truncated = true

variable {set : WorkspaceSet} {k retained total : ℕ} {owner : MemberSnapshot}

theorem Counted.refresh (h : Counted k owner total retained set)
    (hle : retainedBy set.hits k ≤ retained)
    (hdrop : retainedBy set.hits k < retained → set.truncated = true) :
    Counted k owner total (retainedBy set.hits k) (refreshRetainedCounts set) := by
  obtain ⟨f, hmap, hkeep, -, hat⟩ := recountRows_eq_map set.hits 0 h.unique h.owners
  obtain ⟨row, hrow, hobject, hmember, hretained, htruncated⟩ := h.row
  have hcoverage : (refreshRetainedCounts set).coverage = set.coverage.map f := hmap
  have hf := hat k owner row h.owned (congrArg Json.text? hmember)
  rw [Nat.zero_add] at hf
  refine ⟨?_, h.owners, h.owned, ?_, fun hlt => ?_⟩
  · rw [hcoverage, map_map, show memberOf ∘ f = memberOf from funext hkeep]
    exact h.unique
  · rw [hcoverage]
    exact ⟨_, hf ▸ mem_map_of_mem hrow, rowHolds_recount hobject hmember hretained htruncated hle⟩
  · by_cases hcut : retainedBy set.hits k < retained
    · exact hdrop hcut
    · exact h.truncated (by omega)

theorem retainedBy_take_le (hits : List OwnedEntry) (m k : ℕ) :
    retainedBy (hits.take m) k ≤ retainedBy hits k := (take_sublist m hits).countP_le

/-- The loop that drops entries keeps a start of the hits, and the counts. -/
theorem shrink_spec (payloadLength : WorkspaceSet → ℕ) (set : WorkspaceSet) :
    (∀ {k owner total}, Counted k owner total (retainedBy set.hits k) set →
      Counted k owner total (retainedBy (shrink payloadLength set).hits k)
        (shrink payloadLength set)) ∧
      (shrink payloadLength set).owners = set.owners ∧
      ∃ m, (shrink payloadLength set).hits = set.hits.take m := by
  induction set using shrink.induct payloadLength with
  | case1 set hover ih =>
    rw [shrink, dif_pos hover]
    obtain ⟨hcounted, howners, m, hm⟩ := ih
    refine ⟨fun {k owner total} h => hcounted ?_, howners, _, hm.trans take_take⟩
    have hcut : Counted k owner total (retainedBy set.hits k) { set with
        hits := set.hits.take (set.hits.length * maxResultBytes / payloadLength set - 1)
        truncated := true } := ⟨h.unique, h.owners, h.owned, h.row, fun _ => rfl⟩
    exact hcut.refresh (retainedBy_take_le set.hits _ _) fun _ => rfl
  | case2 set hfits =>
    rw [shrink, dif_neg hfits]
    exact ⟨fun h => h, rfl, set.hits.length, take_length.symm⟩

/-- Where an entry stands. -/
def place (entry : OwnedEntry) : ℕ × ℕ := (entry.owner, entry.memberRank)

theorem place_assignHandles (id : Bytes) (hits : List OwnedEntry) :
    (assignHandles id hits).map place = hits.map place := by
  unfold assignHandles
  apply ext_getElem?
  intro i
  rw [getElem?_map, getElem?_map, getElem?_mapIdx]
  cases hits[i]? <;> rfl

variable {id : Bytes}

theorem mem_assignHandles {entry : OwnedEntry} (h : entry ∈ assignHandles id hits) :
    ∃ hit ∈ hits, place entry = place hit ∧ ∃ handle, entry.entry = hit.entry.withHandle handle := by
  obtain ⟨i, hi, rfl⟩ := mem_mapIdx.mp h
  exact ⟨hits[i], getElem_mem hi, rfl, _, rfl⟩

theorem retainedBy_eq (hits : List OwnedEntry) (k : ℕ) :
    retainedBy hits k = (hits.map place).countP fun at_ => at_.1 = k := by
  rw [countP_map]
  rfl

theorem Good.staged {state : SearchState} (h : Good members answer state) :
    Staged OwnedEntry.owner OwnedEntry.memberRank 0 0 state.lists := by
  intro k list hlist j entry hentry
  have hk : k < state.owners.length := by
    rw [← h.lists]
    exact (List.getElem?_eq_some_iff.mp hlist).1
  obtain ⟨i, -, found, entries, -, -, hentries, hkept, -⟩ :=
    h.entries k _ (getElem?_eq_getElem hk)
  rw [hlist] at hentries
  obtain ⟨hit, -, rfl⟩ := hkept j entry (Option.some.inj hentries ▸ hentry)
  exact ⟨(Nat.zero_add k).symm, by rw [Nat.zero_add]⟩

/-- The hits of an owner in the merged list. -/
theorem retainedBy_rounds {lists : List (List OwnedEntry)}
    (h : Staged OwnedEntry.owner OwnedEntry.memberRank 0 0 lists) (k : ℕ) :
    retainedBy (rounds lists) k = ((lists[k]?).getD []).length := by
  rw [retainedBy, countP_eq_length_filter, filter_rounds h]

/-- The set that is saved for a state of the loop: a start of the merged entries with handles, and
rows that tell what it has. -/
theorem savedSet_spec {state : SearchState} (h : Good members answer state)
    (hasked : (state.asked.map fun i => (members.root i).name).Nodup)
    {payloadLength : WorkspaceSet → ℕ} {workspace : Bytes} {home scope : Option Bytes}
    {saved : WorkspaceSet}
    (hsaved : savedSet payloadLength id (state.toSet workspace home scope) = .ok saved) :
    (∀ k owner entries total, state.owners[k]? = some owner → state.lists[k]? = some entries →
      RowHolds state.coverage owner.name entries.length total →
      (entries.length < total → state.truncated = true) →
      Counted k owner total (retainedBy saved.hits k) saved) ∧ saved.owners = state.owners ∧
      ∃ n ≤ maxHits, saved.hits.map place = ((rounds state.lists).take n).map place ∧
        ∀ entry ∈ saved.hits, ∃ hit ∈ rounds state.lists, place entry = place hit ∧
          ∃ handle, entry.entry = hit.entry.withHandle handle := by
  unfold savedSet at hsaved
  simp only at hsaved
  split_ifs at hsaved
  set first := cutSet id (state.toSet workspace home scope)
  have hcount : ∀ k, retainedBy first.hits k = retainedBy ((rounds state.lists).take maxHits) k := by
    intro k
    rw [retainedBy_eq, retainedBy_eq]
    show ((assignHandles id _).map place).countP _ = _
    rw [place_assignHandles]
    rfl
  have hrefreshed : ∀ k owner entries total, state.owners[k]? = some owner →
      state.lists[k]? = some entries → RowHolds state.coverage owner.name entries.length total →
      (entries.length < total → state.truncated = true) →
      Counted k owner total (retainedBy first.hits k) (refreshRetainedCounts first) := by
    intro k owner entries total hk hentries hrow hflag
    have hlength : entries.length = retainedBy (rounds state.lists) k := by
      rw [retainedBy_rounds h.staged, hentries]
      rfl
    have hstart : Counted k owner total entries.length first := by
      refine ⟨?_, h.owners ▸ hasked.sublist (filter_sublist.map _), hk, hrow, fun hlt => ?_⟩
      · show (state.coverage.map memberOf).Nodup
        rw [h.rows]
        simpa [Function.comp_def] using hasked.map (Option.some_injective _)
      · show (state.truncated || _) = true
        rw [hflag hlt, Bool.true_or]
    refine hstart.refresh ?_ fun hlt => ?_
    · rw [hcount, hlength]
      exact retainedBy_take_le ..
    · show (state.truncated || decide (maxHits < (rounds state.lists).length)) = true
      -- an owner loses entries only if there are more than the set can hold
      by_cases hover : maxHits < (rounds state.lists).length
      · rw [decide_eq_true hover, Bool.or_true]
      · rw [hcount, hlength, take_of_length_le (by omega)] at hlt
        omega
  obtain ⟨hcounted, hsame, m, hm⟩ := shrink_spec payloadLength (refreshRetainedCounts first)
  rw [← Except.ok.inj hsaved]
  refine ⟨fun k owner entries total hk hentries hrow hflag =>
    hcounted (hrefreshed k owner entries total hk hentries hrow hflag), hsame, min m maxHits,
    min_le_right _ _, ?_, fun entry hentry => ?_⟩
  · rw [hm, map_take, ← take_take, map_take]
    congr 1
    exact place_assignHandles id _
  · rw [hm] at hentry
    obtain ⟨hit, hhit, hplace⟩ := mem_assignHandles (mem_of_mem_take hentry)
    exact ⟨hit, mem_of_mem_take hhit, hplace⟩

/-- A search asks the members of its scope, and all members if it widens, each of them once. The
owners of what it saves are the members that have answered, in the order in which they were
asked. At most `MAX_HITS` entries are saved, in the order of their ranks and, for one rank, of
their owners; each is the hit of that rank of its owner. The row of each owner tells how many of
its hits are saved, and the row and the set tell when some are not. -/
theorem search_spec {cacheError : ℕ → Option String} {payloadLength : WorkspaceSet → ℕ}
    {workspace id : Bytes} {option : Option Bytes} {words : List Selector} {scope : Scope}
    (hscope : members.scope option words = .ok scope) :
    let asked := (searchMembers members answer entryLength scope).1.asked
    asked.Nodup ∧
      (∀ i, i ∈ asked ↔ i ∈ scope.members ∨
        widens members answer entryLength scope = true ∧ i < members.roots.length) ∧
      ∀ saved, search members cacheError answer entryLength payloadLength workspace id option
          words = .ok saved →
        saved.owners.map MemberSnapshot.name =
          (asked.filter fun i => (answer i).found?.isSome).map (fun i => (members.root i).name) ∧
        saved.hits.length ≤ maxHits ∧
        saved.hits.Pairwise (fun a b => a.memberRank < b.memberRank ∨
          a.memberRank = b.memberRank ∧ a.owner < b.owner) ∧
        (∀ entry ∈ saved.hits, entry.owner < saved.owners.length) ∧
        ∀ k owner, saved.owners[k]? = some owner → ∃ i ∈ asked, ∃ found,
          owner.name = (members.root i).name ∧ answer i = .found found ∧
          (∀ entry ∈ saved.hits, entry.owner = k → ∃ hit handle,
            found.hits[entry.memberRank - 1]? = some hit ∧
              entry.entry = (ResultEntry.liveSource hit.1).withHandle handle) ∧
          RowHolds saved.coverage owner.name (retainedBy saved.hits k) found.hits.length ∧
          (retainedBy saved.hits k < found.hits.length → saved.truncated = true) := by
  intro asked
  obtain ⟨hnodup, hmem⟩ := asked_spec answer entryLength hscope
  have hlt : ∀ i ∈ asked, i < members.roots.length := fun i hi =>
    ((hmem i).mp hi).elim ((scope_members hscope).2.1 i) And.right
  refine ⟨hnodup, hmem, fun saved h => ?_⟩
  unfold search at h
  obtain ⟨scope', hscope', h⟩ := bind_eq_ok.mp h
  obtain rfl := Except.ok.inj (hscope.symm.trans hscope')
  simp only at h
  split at h
  · exact nomatch h
  split_ifs at h
  have hgood := searchMembers_good members answer entryLength scope
  set state := (searchMembers members answer entryLength scope).1
  have hnames : (state.asked.map fun i => (members.root i).name).Nodup :=
    hnodup.map_on fun i hi j hj heq => name_injective (hlt i hi) (hlt j hj) heq
  obtain ⟨hcounted, howners, n, hn, hplaces, hentries⟩ := savedSet_spec hgood hnames h
  -- an entry that is merged stands in the list of its owner
  have hlist : ∀ hit ∈ rounds state.lists, ∃ list, state.lists[hit.owner]? = some list ∧
      hit ∈ list := by
    intro hit hhit
    have hfiltered : hit ∈ (rounds state.lists).filter fun x => x.owner = hit.owner :=
      mem_filter.mpr ⟨hhit, decide_eq_true rfl⟩
    rw [filter_rounds hgood.staged] at hfiltered
    cases hlist : state.lists[hit.owner]? with
    | none =>
      rw [hlist] at hfiltered
      exact absurd hfiltered not_mem_nil
    | some list => exact ⟨list, rfl, by rwa [hlist] at hfiltered⟩
  refine ⟨howners ▸ hgood.owners, ?_, ?_, fun entry hentry => ?_, fun k owner hk => ?_⟩
  · have hlength := congrArg List.length hplaces
    rw [length_map, length_map, length_take] at hlength
    omega
  · have hpairwise := (pairwise_rounds hgood.staged).sublist (take_sublist n _)
    have hmapped := (pairwise_map (f := place) (R := fun p q => p.2 < q.2 ∨
      p.2 = q.2 ∧ p.1 < q.1)).mpr hpairwise
    rw [← hplaces] at hmapped
    exact pairwise_map.mp hmapped
  · obtain ⟨hit, hhit, hplace, -⟩ := hentries entry hentry
    obtain ⟨list, hlist, -⟩ := hlist hit hhit
    rw [howners, ← hgood.lists, (Prod.mk.inj hplace).1]
    exact (List.getElem?_eq_some_iff.mp hlist).1
  · rw [howners] at hk
    obtain ⟨i, hi, found, entries, hname, hanswer, hlist', hkept, hrow, hflag⟩ :=
      hgood.entries k owner hk
    have hcounted := hcounted k owner entries _ hk hlist' hrow hflag
    refine ⟨i, hi, found, hname, hanswer, fun entry hentry howner => ?_, hcounted.row,
      hcounted.truncated⟩
    · obtain ⟨hit, hhit, hplace, handle, hhandle⟩ := hentries entry hentry
      obtain ⟨list, hin, hmem⟩ := hlist hit hhit
      have hsame : entries = list := by
        rw [← (Prod.mk.inj hplace).1, howner, hlist'] at hin
        exact Option.some.inj hin
      obtain ⟨j, hj⟩ := getElem?_of_mem hmem
      obtain ⟨found', hfound', heq⟩ := hkept j hit (by rw [hsame]; exact hj)
      refine ⟨found', handle, ?_, by rw [hhandle, heq]⟩
      rw [(Prod.mk.inj hplace).2, heq]
      exact hfound'

/-- A workspace of a home and two other members. -/
def threeMembers : Members :=
  ⟨[⟨ascii "app", ascii "/app", true⟩, ⟨ascii "lib", ascii "/lib", false⟩,
    ⟨ascii "web", ascii "/web", false⟩], by decide⟩

/-- The home has no hit, the next member has two and the last one has one. -/
def threeAnswers (index : ℕ) : MemberAnswer :=
  let hit := fun path => (Hit.plain path none 0 1 1 1 "a" "file" none .lexical, false)
  .found ⟨[[], [hit (ascii "a"), hit (ascii "b")], [hit (ascii "c")]].getD index [], false, none,
    none⟩

/-- The search widens, and saves the hits of both other members by rank. -/
theorem threeMembers_search :
    let length := fun _ => 10
    threeMembers.scope none [] = .ok ⟨[0], true⟩ ∧
      widens threeMembers threeAnswers length ⟨[0], true⟩ = true ∧
      ∃ saved, search threeMembers (fun _ => none) threeAnswers length (fun _ => 10) [] (ascii "s")
          none [] = .ok saved ∧
        saved.owners.map MemberSnapshot.name = [ascii "app", ascii "lib", ascii "web"] ∧
        saved.hits.map (fun hit => (hit.owner, hit.memberRank)) = [(1, 1), (2, 1), (1, 2)] := by
  intro length
  have hscope : threeMembers.scope none [] = .ok ⟨[0], true⟩ := by
    show Except.ok (Scope.mk (orderBy _ [0]) true) = _
    rw [orderBy, mergeSort_singleton]
  have hok : (search threeMembers (fun _ => none) threeAnswers length (fun _ => 10) [] (ascii "s")
      none []).map (fun saved => saved.hits.map fun hit => (hit.owner, hit.memberRank)) =
        .ok [(1, 1), (2, 1), (1, 2)] := by decide +kernel
  obtain ⟨saved, hsaved, hhits⟩ := map_eq_ok hok
  obtain ⟨-, -, hspec⟩ := search_spec hscope
  exact ⟨hscope, by decide +kernel, saved, hsaved,
    (hspec saved hsaved).1.trans (by decide +kernel), hhits⟩

end Trufflepig.Workspace
