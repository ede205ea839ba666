import Trufflepig.Extract.Extraction
import Trufflepig.Lib.Groups
import Trufflepig.Lib.Select

/-!
# Lexical bindings (`extract/binding_index.rs`)

A name is resolved to the binding with the shortest scope around it, and among several of one scope
to the one that becomes visible last. One pass over the bindings finds it, with a flag for ties.

* `resolve_spec`: where scopes are nested or disjoint, the pass finds a binding exactly if one is
  less than all others, in whatever order they are stored.
-/

namespace Trufflepig.Extract

open List Lib

/-- A `Range<usize>`. -/
@[ext]
structure Scope where
  start : ℕ
  stop : ℕ
  deriving DecidableEq

/-- `Range::contains`. -/
def Scope.contains (scope : Scope) (position : ℕ) : Bool :=
  scope.start ≤ position && position < scope.stop

/-- `Range::len`. -/
def Scope.len (scope : Scope) : ℕ := scope.stop - scope.start

/-- `struct Binding` (`extract/bindings.rs`), without the token. -/
structure Binding where
  definition : ℕ
  scope : Scope
  visible : ℕ
  resolvable : Bool
  blocksBefore : Bool
  functionBoundary : Option ℕ
  namespaces : UInt8
  deriving DecidableEq

/-- `struct BindingIndex`, with the maps that `resolve` reads. -/
structure BindingIndex where
  bindings : List Binding
  names : Groups String

/-- The name of a binding. -/
def Binding.name (result : Extraction) (binding : Binding) : Option String :=
  result.definitions[binding.definition]?.map Definition.name

/-- `BindingIndex::new`. It panics on a definition that the result does not have. -/
def BindingIndex.new (bindings : List Binding) (result : Extraction) : Option BindingIndex :=
  if bindings.all fun binding => binding.definition < result.definitions.length then
    some ⟨bindings, groupBy (fun index => bindings[index]?.bind (Binding.name result))
      (List.range bindings.length)⟩
  else none

/-- The key by which bindings are compared. -/
def Binding.rank (binding : Binding) : ℕ ×ₗ ℕᵒᵈ :=
  toLex (binding.scope.len, OrderDual.toDual binding.visible)

section Resolve

variable (position functionBoundary : ℕ) (nameSpace : UInt8)

/-- The filter of the loop of `resolve`. -/
def Binding.reachable (binding : Binding) : Bool :=
  binding.resolvable && binding.namespaces &&& nameSpace ≠ 0 && binding.scope.contains position &&
    binding.visible ≤ position &&
    binding.functionBoundary.all fun boundary => boundary = functionBoundary

/-- A binding that becomes visible later hides the best one. -/
def Binding.hides (best binding : Binding) : Bool :=
  binding.blocksBefore && binding.namespaces &&& nameSpace ≠ 0 && binding.scope.contains position &&
    binding.visible > position && binding.scope.len ≤ best.scope.len

/-- The binding that `resolve` chooses among those of a name. -/
def Binding.choose (named : List Binding) : Option Binding :=
  let (best, ambiguous) := (named.filter (reachable position functionBoundary nameSpace)).foldl
    (scanLeast rank fun previous binding =>
      previous.scope = binding.scope ∧ previous.visible = binding.visible) (none, false)
  (best.filter fun _ => !ambiguous).filter fun best => !named.any (best.hides position nameSpace)

/-- `resolve`, for the position of a node and the start of its function. -/
def BindingIndex.resolve (index : BindingIndex) (name : String) : Option ℕ × List ℕ × Bool :=
  match getEntry index.names name with
  | none => (none, [], false)
  | some indices =>
    let named := indices.filterMap fun i => index.bindings[i]?
    ((Binding.choose position functionBoundary nameSpace named).map Binding.definition,
      (named.take 64).map Binding.definition, indices.length > 64)

/-- The binding is the sole least one of those that are reachable, and none hides it. -/
def Binding.Wins (named : List Binding) (best : Binding) : Prop :=
  IsSoleLeast rank (named.filter (reachable position functionBoundary nameSpace)) best ∧
    ∀ binding ∈ named, ¬best.hides position nameSpace binding

end Resolve

/-- The scopes are nested or disjoint. -/
def Laminar (bindings : List Binding) : Prop :=
  ∀ a ∈ bindings, ∀ b ∈ bindings,
    Set.Ico a.scope.start a.scope.stop ⊆ Set.Ico b.scope.start b.scope.stop ∨
    Set.Ico b.scope.start b.scope.stop ⊆ Set.Ico a.scope.start a.scope.stop ∨
    Disjoint (Set.Ico a.scope.start a.scope.stop) (Set.Ico b.scope.start b.scope.stop)

/-- The bindings of a name. -/
def bindingsOf (result : Extraction) (bindings : List Binding) (name : String) : List Binding :=
  bindings.filter fun binding => binding.name result = some name

section Spec

variable {result : Extraction} {bindings : List Binding} {index : BindingIndex}
  {position functionBoundary : ℕ} {nameSpace : UInt8} {name : String}

/-- Scopes around one position with one length are equal. -/
theorem scope_eq_of_len (hlaminar : Laminar bindings) {a b : Binding} (ha : a ∈ bindings)
    (hb : b ∈ bindings) (hposition : a.scope.contains position) (hposition' : b.scope.contains position)
    (hlen : a.scope.len = b.scope.len) : a.scope = b.scope := by
  simp only [Scope.contains, Bool.and_eq_true, decide_eq_true_eq] at hposition hposition'
  unfold Scope.len at hlen
  rcases hlaminar a ha b hb with hle | hle | hdisjoint
  case inr.inr => exact (Set.disjoint_left.mp hdisjoint hposition hposition').elim
  all_goals
    have hbounds := (Set.Ico_subset_Ico_iff (by omega)).mp hle
    exact Scope.ext (by omega) (by omega)

/-- The places of a name lead to its bindings. -/
theorem filterMap_indexesOf {α κ : Type} [DecidableEq κ] (key : α → Option κ) (xs : List α) (k : κ) :
    (Lib.indexesOf (fun i => xs[i]?.bind key) (List.range xs.length) k).filterMap (fun i => xs[i]?) =
      xs.filter fun x => key x = some k := by
  induction xs using List.reverseRecOn with
  | nil => rfl
  | append_singleton xs x ih =>
    have hbefore : ∀ i ∈ List.range xs.length, (xs ++ [x])[i]? = xs[i]? :=
      fun i hi => getElem?_append_left (mem_range.mp hi)
    rw [length_append, length_singleton, range_succ, Lib.indexesOf, filter_append,
      filterMap_append, filter_append, ← ih, Lib.indexesOf]
    congr 1
    · rw [filter_congr fun i hi => by rw [hbefore i hi]]
      exact filterMap_congr fun i hi => hbefore i (mem_filter.mp hi).1
    · by_cases hx : key x = some k
      · simp [hx]
      · simp [hx]

theorem choose_eq_some (hlaminar : Laminar bindings) {best : Binding} :
    Binding.choose position functionBoundary nameSpace bindings = some best ↔
      best.Wins position functionBoundary nameSpace bindings := by
  have hsame : ∀ a ∈ bindings.filter (Binding.reachable position functionBoundary nameSpace),
      ∀ b ∈ bindings.filter (Binding.reachable position functionBoundary nameSpace),
        a.scope = b.scope ∧ a.visible = b.visible ↔ a.rank = b.rank := by
    intro a ha b hb
    simp only [mem_filter, Binding.reachable, Bool.and_eq_true] at ha hb
    constructor
    · rintro ⟨hscope, hvisible⟩
      rw [Binding.rank, Binding.rank, hscope, hvisible]
    · intro hrank
      obtain ⟨hlen, hvisible⟩ := Prod.mk.inj (toLex.injective hrank)
      exact ⟨scope_eq_of_len hlaminar ha.1 hb.1 ha.2.1.1.2 hb.2.1.1.2 hlen,
        OrderDual.toDual.injective hvisible⟩
  rw [Binding.Wins, ← foldl_scanLeast_iff hsame, Binding.choose]
  generalize List.foldl _ _ _ = state
  obtain ⟨_ | found, _ | _⟩ := state
  all_goals simp +contextual [Option.filter_some, and_comm]

theorem resolve_eq (hnew : BindingIndex.new bindings result = some index) :
    (index.resolve position functionBoundary nameSpace name).1 =
      (Binding.choose position functionBoundary nameSpace (bindingsOf result bindings name)).map
        Binding.definition := by
  unfold BindingIndex.new at hnew
  split_ifs at hnew
  obtain rfl := Option.some.inj hnew
  rw [bindingsOf, ← filterMap_indexesOf, ← getEntry_groupBy_getD, BindingIndex.resolve]
  cases getEntry (groupBy _ _) name with
  | none => rfl
  | some indices => rfl

/-- A definition is found exactly if the reachable bindings of the name have a sole least one, by
the length of its scope and then by the latest visibility, and no binding that becomes visible
later hides it; and this does not depend on the order of the bindings. -/
theorem resolve_spec (hlaminar : Laminar bindings)
    (hnew : BindingIndex.new bindings result = some index) (name : String)
    (position functionBoundary : ℕ) (nameSpace : UInt8) :
    (∀ definition, (index.resolve position functionBoundary nameSpace name).1 = some definition ↔
      ∃ best : Binding, best.Wins position functionBoundary nameSpace (bindingsOf result bindings name) ∧
        best.definition = definition) ∧
    ∀ bindings', bindings'.Perm bindings → ∃ index', BindingIndex.new bindings' result = some index' ∧
      (index'.resolve position functionBoundary nameSpace name).1 =
        (index.resolve position functionBoundary nameSpace name).1 := by
  have hnamed : Laminar (bindingsOf result bindings name) := fun a ha b hb =>
    hlaminar a (mem_filter.mp ha).1 b (mem_filter.mp hb).1
  refine ⟨fun definition => ?_, fun bindings' hperm => ?_⟩
  · simp only [resolve_eq hnew, Option.map_eq_some_iff, choose_eq_some hnamed]
  · obtain ⟨index', hnew'⟩ : ∃ index', BindingIndex.new bindings' result = some index' := by
      unfold BindingIndex.new at hnew ⊢
      split_ifs at hnew with hvalid
      exact ⟨_, if_pos (hperm.all_eq.trans hvalid)⟩
    refine ⟨index', hnew', ?_⟩
    have hperm : (bindingsOf result bindings' name).Perm (bindingsOf result bindings name) :=
      hperm.filter _
    have hnamed' : Laminar (bindingsOf result bindings' name) := fun a ha b hb =>
      hnamed a (hperm.mem_iff.mp ha) b (hperm.mem_iff.mp hb)
    rw [resolve_eq hnew', resolve_eq hnew]
    refine congrArg _ (Option.ext fun best => ?_)
    rw [choose_eq_some hnamed', choose_eq_some hnamed, Binding.Wins, Binding.Wins]
    simp only [hperm.mem_iff, IsSoleLeast, (hperm.filter _).congr_left _]

/-- A variable of a file, and one of a block in it. -/
def shadowed : List Binding :=
  [⟨0, ⟨0, 90⟩, 5, true, false, none, 1⟩, ⟨1, ⟨20, 40⟩, 25, true, false, none, 1⟩]

def shadowedFile : Extraction :=
  ⟨.luau, .complete, [⟨"x", "variable", 5, 6, none⟩, ⟨"x", "variable", 25, 26, none⟩], [], []⟩

theorem resolve_spec_shadowed :
    ∃ index, BindingIndex.new shadowed shadowedFile = some index ∧
      (index.resolve 30 0 1 "x").1 = some 1 := by
  have hlaminar : Laminar shadowed := by simp [Laminar, shadowed, Set.Ico_subset_Ico_iff]
  obtain ⟨index, hnew⟩ : ∃ index, BindingIndex.new shadowed shadowedFile = some index :=
    ⟨_, if_pos rfl⟩
  refine ⟨index, hnew, ((resolve_spec hlaminar hnew "x" 30 0 1).1 1).mpr
    ⟨⟨1, ⟨20, 40⟩, 25, true, false, none, 1⟩, ⟨⟨[⟨0, ⟨0, 90⟩, 5, true, false, none, 1⟩], ?_, ?_⟩, ?_⟩,
      rfl⟩⟩
  · decide
  · decide
  · decide

end Spec

end Trufflepig.Extract
