import Trufflepig.Identity
import Trufflepig.Lib.Chain

/-!
# Commits and the log of their first parents

The commits of a repository as Git sees them: the parents of a commit at the
boundary of a shallow clone are not there. `gitLog` is what

`git log --first-parent --no-decorate -z --format=%H%x00%P%x00%ct%x00%<(256,trunc)%s`

prints: the first-parent chain of a commit, four fields for each commit of it.
-/

namespace Trufflepig.History

open Lib

/-- A commit: its parents, the time of `%ct` and the text of `%<(256,trunc)%s`. -/
structure Commit where
  parents : List GitOid
  time : ℕ
  summary : Bytes
  deriving DecidableEq

/-- The commits of a repository. Every parent is a commit, no commit is its own
ancestor, ids are as Git prints them, and a summary ends at a zero byte. -/
structure CommitGraph where
  commit : GitOid → Option Commit
  rank : GitOid → ℕ
  parent_mem : ∀ oid c, commit oid = some c → ∀ p ∈ c.parents, (commit p).isSome
  rank_lt : ∀ oid c, commit oid = some c → ∀ p ∈ c.parents, rank p < rank oid
  canonical : ∀ oid c, commit oid = some c → GitOid.parse oid.text = .ok oid
  summary_text : ∀ oid c, commit oid = some c → 0 ∉ c.summary

namespace CommitGraph

variable (graph : CommitGraph)

/-- The first parent of a commit. -/
def firstParent (oid : GitOid) : Option GitOid := (graph.commit oid).bind (·.parents.head?)

/-- The commit at a depth of the first-parent chain of `tip`. -/
def ancestor (tip : GitOid) (depth : ℕ) : Option GitOid :=
  if (graph.commit tip).isSome then nth graph.firstParent tip depth else none

end CommitGraph

/-! ## The log -/

/-- `%P`: the ids of the parents, separated by spaces. -/
def parentsText (commit : Commit) : Bytes := [32].intercalate (commit.parents.map (·.text))

/-- `%ct`: the time in decimal digits. -/
def timeText (commit : Commit) : Bytes := encodeChars (Nat.toDigits 10 commit.time)

/-- The four fields of a commit. -/
def logFields (oid : GitOid) (commit : Commit) : List Bytes :=
  [oid.text, parentsText commit, timeText commit, commit.summary]

/-- What the log prints for a commit: its fields, each followed by a zero byte. -/
def logRecord (graph : CommitGraph) (oid : GitOid) : Bytes :=
  match graph.commit oid with
  | none => []
  | some commit => (logFields oid commit).flatMap (· ++ [0])

/-- The log from the commit `start` with `--max-count`. -/
def gitLog (graph : CommitGraph) (start : Bytes) (max : ℕ) : Option Bytes :=
  if h : start.length = 40 ∨ start.length = 64 then
    if (graph.commit ⟨start, h⟩).isSome then
      some ((segment graph.firstParent ⟨start, h⟩ max).flatMap (logRecord graph))
    else none
  else none

/-! ## Chains -/

namespace CommitGraph

variable {graph : CommitGraph} {oid tip : GitOid}

theorem commit_of_firstParent {p : GitOid} (h : graph.firstParent oid = some p) :
    (graph.commit p).isSome ∧ graph.rank p < graph.rank oid := by
  obtain ⟨c, hc, hp⟩ := Option.bind_eq_some_iff.mp h
  have hmem : p ∈ c.parents := List.mem_of_head? hp
  exact ⟨graph.parent_mem oid c hc p hmem, graph.rank_lt oid c hc p hmem⟩

variable {i : ℕ}

/-- A chain consists of commits. -/
theorem commit_of_nth (hoid : (graph.commit oid).isSome) {x : GitOid}
    (h : nth graph.firstParent oid i = some x) : (graph.commit x).isSome := by
  cases i with
  | zero =>
    obtain rfl := Option.some.inj h
    exact hoid
  | succ i =>
    obtain ⟨y, -, hx⟩ := Option.bind_eq_some_iff.mp h
    exact (commit_of_firstParent hx).1

theorem commit_of_ancestor (h : graph.ancestor tip i = some oid) : (graph.commit oid).isSome := by
  unfold ancestor at h
  split_ifs at h with htip
  exact commit_of_nth htip h

theorem commit_tip (h : (graph.ancestor tip i).isSome) : (graph.commit tip).isSome := by
  unfold ancestor at h
  split_ifs at h with htip
  · exact htip
  · cases h

theorem ancestor_add (i j : ℕ) :
    graph.ancestor tip (i + j) = (graph.ancestor tip i).bind (graph.ancestor · j) := by
  unfold ancestor
  split_ifs with htip
  · rw [nth_add]
    apply Option.bind_congr
    intro x hx
    rw [if_pos (commit_of_nth htip hx)]
  · rfl

theorem isSome_ancestor_of_le {j : ℕ} (hij : i ≤ j) (h : (graph.ancestor tip j).isSome) :
    (graph.ancestor tip i).isSome := by
  unfold ancestor at h ⊢
  split_ifs at h ⊢ with htip
  · exact isSome_nth_of_le hij h
  · exact h

/-- No commit comes twice. -/
theorem ancestor_injective {j : ℕ} (hi : graph.ancestor tip i = some oid)
    (hj : graph.ancestor tip j = some oid) : i = j := by
  unfold ancestor at hi hj
  split_ifs at hi hj
  exact nth_injective (fun _ _ h => (commit_of_firstParent h).2) hi hj

end CommitGraph

end Trufflepig.History
