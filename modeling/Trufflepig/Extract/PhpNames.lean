import Trufflepig.Lib.Unicode

/-!
# PHP names (`extract/php/names.rs`)

`canonical` makes the fully qualified name of a reference. The language looks up the first segment
of a qualified name among the imported classes and namespaces, whatever the name is for;
`canonical` looks it up among the imports of the kind of the reference.

* `canonical_eq_phpName_iff`: for which names both are the same.
* `canonical_qualified_function`: a function of an imported namespace.
-/

namespace Trufflepig.Extract

open Lib

/-- What a name is for: the `kind` of a reference, and of an import. -/
inductive SymbolKind where
  | function | constant | «class»
  deriving DecidableEq, Repr

/-- `struct Import`. -/
structure Import where
  namespaceName : Bytes
  scopeStart : ℕ
  scopeEnd : ℕ
  aliasName : Bytes
  target : Bytes
  kind : SymbolKind
  deriving DecidableEq, Repr

/-- `join`. -/
def joinName (space name : Bytes) : Bytes :=
  if space = [] then name else if name = [] then space else space ++ 0x5c :: name

/-- The names that stand for a class of their surroundings. -/
def reserved (name : Bytes) : Bool :=
  [ascii "self", ascii "static", ascii "parent"].contains (asciiLower name)

/-- The name starts with `namespace\`. A prefix of ASCII bytes ends at a character. -/
def relative (name : Bytes) : Bool := asciiLower (name.take 10) = ascii "namespace\\"

/-- The imports of a kind that a segment names at a position (in `canonical`). Constants keep their
case. -/
def importsNamed (imports : List Import) (kind : SymbolKind) (space segment : Bytes)
    (position : ℕ) : List Import :=
  imports.filter fun entry =>
    asciiLower entry.namespaceName = asciiLower space &&
    (if kind = .constant then entry.aliasName = segment
      else asciiLower entry.aliasName = asciiLower segment) &&
    (entry.scopeStart ≤ position && position < entry.scopeEnd) && entry.kind = kind

/-- The name by the imports of its first segment; `tail` is what follows the segment. -/
def resolveBy (space name tail : Bytes) : List Import → Bytes × Bool
  | [] => (joinName space name, true)
  | [entry] => (if tail = [] then entry.target else joinName entry.target tail, true)
  | _ => (name, false)

/-- `canonical`. -/
def canonical (raw space : Bytes) (imports : List Import) (kind : SymbolKind) (position : ℕ) :
    Bytes × Bool :=
  let name := trim raw
  if name = [] then ([], false)
  else if name.head? = some 0x5c then (name, true)
  else if reserved name then (name, false)
  else if relative name then (joinName space (name.drop 10), true)
  else
    let (head, tail) := (splitOnce 0x5c name).getD (name, [])
    resolveBy space name tail (importsNamed imports kind space head position)

/-- The rules of the language. A reserved name stands for a class only. -/
def phpName (raw space : Bytes) (imports : List Import) (kind : SymbolKind) (position : ℕ) :
    Bytes × Bool :=
  let name := trim raw
  if name = [] ∨ kind = .class ∧ reserved name then (name, false)
  else if name.head? = some 0x5c then (name, true)
  else if relative name then (joinName space (name.drop 10), true)
  else match splitOnce 0x5c name with
    | some (head, tail) => resolveBy space name tail (importsNamed imports .class space head position)
    | none => resolveBy space name [] (importsNamed imports kind space name position)

/-- Two lists of imports of the first segment lead to the same name. -/
def SameName (space name tail : Bytes) : List Import → List Import → Prop
  | [], [] => True
  | [a], [b] => a.target = b.target
  | [a], [] => joinName a.target tail = joinName space name
  | [], [b] => joinName b.target tail = joinName space name
  | _ :: _ :: _, _ :: _ :: _ => True
  | _, _ => False

theorem joinName_nil (space : Bytes) : joinName space [] = space := by
  simp only [joinName]
  split_ifs with h <;> simp_all

theorem joinName_left_inj {a b name : Bytes} : joinName a name = joinName b name ↔ a = b := by
  refine ⟨fun h => ?_, fun h => h ▸ rfl⟩
  by_cases hname : name = []
  · simpa [hname, joinName_nil] using h
  · simp only [joinName, hname, if_false] at h
    split_ifs at h with ha hb hb
    · rw [ha, hb]
    · have hlength := congrArg List.length h
      simp at hlength
      omega
    · have hlength := congrArg List.length h
      simp at hlength
      omega
    · exact List.append_cancel_right h

theorem resolveBy_eq_iff {space name tail : Bytes} {own other : List Import} :
    resolveBy space name tail own = resolveBy space name tail other ↔
      SameName space name tail own other := by
  have htarget : ∀ target, (if tail = [] then target else joinName target tail) =
      joinName target tail := by
    intro target
    split_ifs with h
    · rw [h, joinName_nil]
    · rfl
  rcases own with _ | ⟨a, _ | ⟨a', own⟩⟩ <;> rcases other with _ | ⟨b, _ | ⟨b', other⟩⟩ <;>
    simp [resolveBy, SameName, htarget, joinName_left_inj, eq_comm]

theorem reserved_iff {name : Bytes} : reserved name ↔
    asciiLower name = ascii "self" ∨ asciiLower name = ascii "static" ∨
      asciiLower name = ascii "parent" := by
  simp [reserved]

theorem splitOnce_eq_none {name : Bytes} (h : reserved name) : splitOnce 0x5c name = none := by
  have hnot : (0x5c : UInt8) ∉ name := by
    rw [← mem_asciiLower (by decide)]
    rcases reserved_iff.mp h with h | h | h <;> rw [h] <;> decide
  clear h
  induction name with
  | nil => rfl
  | cons c rest ih =>
    rw [List.mem_cons, not_or] at hnot
    rw [splitOnce, if_neg (Ne.symm hnot.1), ih hnot.2]
    rfl

/-- `canonical` follows the rules except for two kinds of names of functions and constants: a
qualified name whose first segment has other imports as a class, and a reserved name, which
is left as it is. -/
theorem canonical_eq_phpName_iff (raw space : Bytes) (imports : List Import) (kind : SymbolKind)
    (position : ℕ) :
    canonical raw space imports kind position = phpName raw space imports kind position ↔
      let name := trim raw
      name = [] ∨ name.head? = some 0x5c ∨ relative name ∨ kind = .class ∨
        match splitOnce 0x5c name with
        | some (head, tail) => SameName space name tail
            (importsNamed imports kind space head position)
            (importsNamed imports .class space head position)
        | none => reserved name → 2 ≤ (importsNamed imports kind space name position).length := by
  simp only [canonical, phpName]
  generalize trim raw = name
  by_cases hnil : name = []
  · simp [hnil]
  by_cases hfull : name.head? = some 0x5c
  · have hnot : ¬ reserved name := by
      intro h
      cases name with
      | nil => exact hnil rfl
      | cons c rest =>
        have hsplit := splitOnce_eq_none h
        rw [Option.some.inj hfull, splitOnce, if_pos rfl] at hsplit
        exact nomatch hsplit
    simp [hnil, hfull, hnot]
  by_cases hreserved : reserved name
  · have hrelative : relative name = false := by
      rw [relative, asciiLower, List.map_take, ← asciiLower]
      rcases reserved_iff.mp hreserved with h | h | h <;> rw [h] <;> decide
    rw [splitOnce_eq_none hreserved]
    by_cases hclass : kind = .class
    · simp [hnil, hfull, hreserved, hclass]
    · rcases hown : importsNamed imports kind space name position with _ | ⟨a, _ | ⟨b, own⟩⟩ <;>
        simp [hnil, hfull, hreserved, hclass, hrelative, resolveBy]
  by_cases hrelative : relative name
  · simp [hnil, hfull, hreserved, hrelative]
  rcases splitOnce 0x5c name with _ | ⟨head, tail⟩
  · simp [hnil, hfull, hreserved, hrelative]
  · by_cases hclass : kind = .class
    · simp [hnil, hfull, hreserved, hrelative, hclass]
    · simp [hnil, hfull, hreserved, hrelative, hclass, resolveBy_eq_iff]

/-- After `use Lib\A;` the call `A\f()` is of `Lib\A\f`. -/
theorem canonical_qualified_function :
    let imports : List Import := [⟨[], 0, 40, ascii "A", ascii "Lib\\A", .class⟩]
    canonical (ascii "A\\f") [] imports .function 20 = (ascii "A\\f", true) ∧
      phpName (ascii "A\\f") [] imports .function 20 = (ascii "Lib\\A\\f", true) := by
  decide +kernel

end Trufflepig.Extract
