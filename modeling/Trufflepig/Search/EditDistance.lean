import Trufflepig.Lib.EditDistance
import Trufflepig.Lib.Utf8

/-!
# Edit distances (`search/navigation/structure_map.rs`, `search/path_filter/filter_diagnosis.rs`)

Both `edit_distance` fill a table row by row, from the distances of the parts of the texts that have
been read: one over the characters, the other over the bytes of UTF-8.

* `editDistance_isLeast`: each returns the least number of edits over its elements.
* `editDistance_bytes`: over bytes this is not that over characters.
-/

namespace Trufflepig.Search

open List Lib

section Rows

variable {α : Type*} [DecidableEq α]

/-- The inner loop: the cells of a row behind its first, from the row before and the cell on the
left. -/
def fillRow (x : α) : List α → List ℕ → ℕ → List ℕ
  | y :: ys, diagonal :: above :: previous, left =>
    let cell := min (min (diagonal + if x ≠ y then 1 else 0) (above + 1)) (left + 1)
    cell :: fillRow x ys (above :: previous) cell
  | _, _, _ => []

/-- The two rows of both functions: `previous` before and after each element of the first list. -/
def rowDistance (left right : List α) : ℕ :=
  (left.zipIdx.foldl (fun previous (x, row) => (row + 1) :: fillRow x right previous (row + 1))
    (List.range (right.length + 1))).getD right.length 0

/-- The distances of a list to another one that grows at its head. -/
def distances (xs : List α) : List α → List α → List ℕ
  | read, [] => [distance xs read]
  | read, y :: ys => distance xs read :: distances xs (y :: read) ys

theorem fillRow_distances (x : α) (xs read ys : List α) :
    distance (x :: xs) read :: fillRow x ys (distances xs read ys) (distance (x :: xs) read) =
      distances (x :: xs) read ys := by
  induction ys generalizing read with
  | nil => rfl
  | cons y ys ih =>
    have hcell : min (min (distance xs read + if x ≠ y then 1 else 0) (distance xs (y :: read) + 1))
        (distance (x :: xs) read + 1) = distance (x :: xs) (y :: read) := by
      simp only [distance, ne_eq, ite_not]
    have htail : ∃ cells, distances xs (y :: read) ys = distance xs (y :: read) :: cells := by
      cases ys <;> exact ⟨_, rfl⟩
    obtain ⟨cells, hcells⟩ := htail
    rw [distances, distances, ← ih, hcells, fillRow, hcell]

theorem distances_nil (read ys : List α) :
    distances [] read ys = List.range' read.length (ys.length + 1) := by
  induction ys generalizing read with
  | nil => simp [distances, distance]
  | cons y ys ih =>
    rw [distances, ih, distance]
    rfl

theorem getD_distances (xs read ys : List α) :
    (distances xs read ys).getD ys.length 0 = distance xs (ys.reverse ++ read) := by
  induction ys generalizing read with
  | nil => rfl
  | cons y ys ih => simpa [distances] using ih (y :: read)

theorem foldl_fillRow (left right : List α) :
    left.zipIdx.foldl (fun previous (x, row) => (row + 1) :: fillRow x right previous (row + 1))
      (List.range (right.length + 1)) = distances left.reverse [] right := by
  induction left using List.reverseRecOn with
  | nil => rw [reverse_nil, distances_nil, List.range_eq_range']; rfl
  | append_singleton left x ih =>
    rw [zipIdx_append, foldl_append, ih, reverse_concat, ← fillRow_distances, distance_nil_right]
    simp

theorem isLeast_rowDistance (left right : List α) :
    IsLeast {n | Edits n left right} (rowDistance left right) := by
  rw [rowDistance, foldl_fillRow, getD_distances, append_nil]
  simpa only [edits_reverse_iff] using isLeast_distance left.reverse right.reverse

end Rows

/-- `edit_distance` (`structure_map.rs`). -/
def StructureMap.editDistance (left right : String) : ℕ := rowDistance left.toList right.toList

/-- `edit_distance` (`filter_diagnosis.rs`). -/
def FilterDiagnosis.editDistance (left right : String) : ℕ :=
  rowDistance (encodeChars left.toList) (encodeChars right.toList)

/-- Both functions return the least number of edits, the first over the characters of the texts and
the second over their bytes. -/
theorem editDistance_isLeast (left right : String) :
    IsLeast {n | Edits n left.toList right.toList} (StructureMap.editDistance left right) ∧
      IsLeast {n | Edits n (encodeChars left.toList) (encodeChars right.toList)}
        (FilterDiagnosis.editDistance left right) :=
  ⟨isLeast_rowDistance .., isLeast_rowDistance ..⟩

/-- One character is replaced, but two bytes become one. -/
theorem editDistance_bytes :
    ¬IsLeast {n | Edits n "é".toList "e".toList} (FilterDiagnosis.editDistance "é" "e") := by
  intro h
  have hone : Edits 1 "é".toList "e".toList := .step (.substitute [] [] 'é' 'e') (.refl _)
  have htwo : FilterDiagnosis.editDistance "é" "e" = 2 := by decide
  exact absurd (h.2 hone) (by rw [htwo]; decide)

end Trufflepig.Search
