import Trufflepig.Identity
import Trufflepig.Lib.Json
import Trufflepig.Results.Hit

/-!
# Stored result entries

Model of `src/results/entries.rs`, of the sets that the two result stores keep (`StoredResultSet`
and `WorkspaceSet` of `src/workspace/result_cache.rs`), and of the detail of a page.
-/

namespace Trufflepig.Results

open Lib

/-- `struct HistoricalSource`. -/
structure HistoricalSource where
  repository : Bytes
  commit : GitOid
  blob : GitOid
  revision : ContentRevision
  path : Bytes
  span : ByteSpan

/-- `struct CommitEntry`. -/
structure CommitEntry where
  handle : Bytes
  repository : Bytes
  commit : GitOid
  parent : Option GitOid
  summary : Bytes
  committerTime : ℤ

/-- `struct ChangeEntry`. -/
structure ChangeEntry where
  handle : Bytes
  name : Bytes
  status : Bytes
  before : Option HistoricalSource
  after : Option HistoricalSource
  correspondence : Bytes

/-- `enum ResultEntry`. -/
inductive ResultEntry where
  | liveSource (hit : Hit)
  | commit (commit : CommitEntry)
  | change (change : ChangeEntry)

namespace ResultEntry

def handle : ResultEntry → Bytes
  | liveSource hit => hit.handle
  | commit entry => entry.handle
  | change entry => entry.handle

/-- `*entry.handle_mut() = handle`. -/
def withHandle (handle : Bytes) : ResultEntry → ResultEntry
  | liveSource hit => liveSource { hit with handle := handle }
  | commit entry => commit { entry with handle := handle }
  | change entry => change { entry with handle := handle }

end ResultEntry

/-- `struct StoredResultSet`. -/
structure StoredResultSet where
  generation : ℤ
  coverage : Json
  truncated : Bool
  hits : List ResultEntry

/-! ## Sets of a workspace -/

/-- What pages read of `struct MemberSnapshot`: the name of a member and its encoded root. -/
structure MemberSnapshot where
  name : Bytes
  root : Bytes

/-- `struct OwnedEntry`. -/
structure OwnedEntry where
  owner : ℕ
  memberRank : ℕ
  entry : ResultEntry
  worktreeDiffers : Bool

/-- `struct WorkspaceSet`. -/
structure WorkspaceSet where
  workspace : Bytes
  home : Option Bytes
  owners : List MemberSnapshot
  coverage : List Json
  hits : List OwnedEntry
  truncated : Bool
  scope : Option Bytes

/-- `set.owners[hit.owner]`; `load` checks that the index is in range. -/
def WorkspaceSet.ownerOf (set : WorkspaceSet) (hit : OwnedEntry) : MemberSnapshot :=
  set.owners.getD hit.owner ⟨[], []⟩

/-! ## Detail -/

/-- `struct HitDetail`. -/
structure HitDetail where
  names : Bool
  snippets : Bool
  deriving DecidableEq, Repr

/-- `COMPACT_NAME_LIMIT`. -/
def compactNameLimit : ℕ := 96

/-- `concise_name`. -/
def conciseName (name : String) : Bool := !name.isEmpty && name.length ≤ compactNameLimit

end Trufflepig.Results
