import Trufflepig.Identity

/-!
# Errors and staging budgets of the history

Model of `src/history/staging.rs`. Every stage reserves a conservative number of
bytes for what it keeps. The charges contain sizes of types and capacities of
strings, which the compiler and the allocator decide; they are parameters
(`Layout`).
-/

namespace Trufflepig.History

open Lib

/-- What operations on the history fail with. An `external` error is one of Git,
of the database or of the file system with its message, where that is read. -/
inductive HistoryError where
  | malformedRecord | malformedEntry | invalidUtf8 | historicalPath | capacityReached
  | countOverflow | cachedPath | cachedPayload | malformedPayload | malformedTraversal
  | invalidNumber | noRows
  | identity (error : IdentityError)
  | git | database | lease
  | external (message : String)
  deriving DecidableEq, Repr

/-- The messages that the source writes; the others come from libraries. -/
def HistoryError.message : HistoryError → Option String
  | malformedRecord => some "history_unavailable: malformed tree record"
  | malformedEntry => some "history_unavailable: malformed tree entry"
  | historicalPath => some "history_resource_limited: historical path staging limit"
  | capacityReached => some "history_resource_limited: retained staging capacity reached"
  | countOverflow => some "history_resource_limited: comparison entry count overflow"
  | cachedPath => some "history_resource_limited: cached path staging limit"
  | cachedPayload => some "history_resource_limited: cached payload staging limit"
  | malformedTraversal => some "history_unavailable: malformed commit traversal"
  | identity error => some error.message
  | external message => some message
  | invalidUtf8 | malformedPayload | invalidNumber | noRows | git | database | lease => none

/-- Sizes of types, and the capacity of the string that `encode_path` builds. -/
structure Layout where
  treeFile : ℕ
  fileChange : ℕ
  string : ℕ
  capacity : Bytes → ℕ
  length_le : ∀ s, s.length ≤ capacity s

/-- `TREE_BYTES`. -/
def treeBytes : ℕ := 6 * 1024 * 1024

/-- `AUXILIARY_BYTES`. -/
def auxiliaryBytes : ℕ := 4 * 1024 * 1024

/-- `CHANGE_BYTES`. -/
def changeBytes : ℕ := 8 * 1024 * 1024

/-- `CACHE_BYTES`. -/
def cacheBytes : ℕ := 8 * 1024 * 1024

/-- `PATH_BYTES`. -/
def pathBytes : ℕ := 128 * 1024

/-- `StagingBudget::reserve` on the bytes used. -/
def reserve (limit used bytes : ℕ) : Except HistoryError ℕ :=
  if bytes ≤ limit - used then .ok (used + bytes) else .error .capacityReached

theorem reserve_ok {limit used bytes used' : ℕ} (hused : used ≤ limit)
    (h : reserve limit used bytes = .ok used') : used' = used + bytes ∧ used' ≤ limit := by
  unfold reserve at h
  split_ifs at h with hle
  obtain rfl := Except.ok.inj h
  exact ⟨rfl, by omega⟩

theorem reserve_eq_ok {limit used bytes : ℕ} (h : used + bytes ≤ limit) :
    reserve limit used bytes = .ok (used + bytes) := by
  rw [reserve, if_pos (by omega)]

end Trufflepig.History
