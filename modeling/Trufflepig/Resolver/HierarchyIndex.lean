import Trufflepig.Lib.Text

/-!
# The index of PHP classes, methods and parents

Model of `src/store/php_resolver/hierarchy_index.rs`. A hash map that is only read by key
is a function; paths of files are left out.

* `fromFacts_directMethods`: the methods of a class, in terms of the facts.
-/

namespace Trufflepig.Resolver

open List Lib

inductive PhpClassKind where
  | «class» | interface | trait | enum | unknown
  deriving DecidableEq

inductive PhpClassRole where
  | ordinary | proxy | unknown
  deriving DecidableEq

inductive PhpVisibility where
  | «public» | «protected» | «private» | unknown
  deriving DecidableEq

structure PhpClassFact where
  definitionId : ℤ
  fileId : ℤ
  fqcn : Bytes
  canonicalFqcn : Option Bytes
  kind : PhpClassKind
  role : PhpClassRole
  complete : Bool
  conditional : Bool
  hasTraitUse : Bool
  traitUseConditional : Bool
  deriving DecidableEq

structure PhpMethodFact where
  definitionId : ℤ
  ownerClassId : ℤ
  fileId : ℤ
  name : Bytes
  visibility : PhpVisibility
  abstractMethod : Bool
  complete : Bool
  conditional : Bool
  deriving DecidableEq

inductive PhpParentKind where
  | extends | xfcpProxy | unknown
  deriving DecidableEq

inductive PhpParentStatus where
  | candidates | missing | ambiguous | conditional | incomplete | unsupported
  deriving DecidableEq

structure PhpParentCandidate where
  childClassId : ℤ
  declaredName : Bytes
  resolvedName : Option Bytes
  canonicalName : Option Bytes
  evidenceStart : ℤ
  evidenceEnd : ℤ
  kind : PhpParentKind
  candidateClassIds : List ℤ
  status : PhpParentStatus
  conditional : Bool
  executeOrder : Option ℤ
  tieGroup : Option ℤ
  deriving DecidableEq

structure PhpHierarchyIndex where
  classes : List PhpClassFact
  classIdsByRawName : Bytes → Option (List ℕ)
  classIdsByCanonicalName : Bytes → Option (List ℕ)
  classPositionById : ℤ → Option ℕ
  methods : List PhpMethodFact
  methodPositionsByOwnerName : ℤ × Bytes → Option (List ℕ)
  parentsByChild : ℤ → Option (List PhpParentCandidate)

/-! ## Building the index -/

/-- `normalized_class_name`. -/
def normalizedClassName (name : Bytes) : Option Bytes :=
  let name := trimStartByte 0x5c (trim name)
  if name = [] then none else some (asciiLower name)

/-- `insert_class_position`. -/
def insertClassPosition (positionsByName : Bytes → Option (List ℕ)) (name : Bytes)
    (position : ℕ) : Bytes → Option (List ℕ) :=
  match normalizedClassName name with
  | none => positionsByName
  | some key =>
    let positions := (positionsByName key).getD []
    Function.update positionsByName key
      (some (if position ∈ positions then positions else positions ++ [position]))

/-- `is_xfcp_name`. -/
def isXfcpName (name : Bytes) : Bool :=
  (name.splitOn 0x5c).any fun part =>
    5 ≤ part.length && asciiLower (part.take 5) = ascii "xfcp_"

/-- One class of `from_facts`. -/
def addClass (index : PhpHierarchyIndex) (entry : PhpClassFact × ℕ) : PhpHierarchyIndex :=
  let (fact, position) := entry
  let index := { index with
    classPositionById := Function.update index.classPositionById fact.definitionId (some position) }
  if fact.role = .proxy || isXfcpName fact.fqcn then index
  else
    { index with
      classIdsByRawName := insertClassPosition index.classIdsByRawName fact.fqcn position
      classIdsByCanonicalName :=
        match fact.canonicalFqcn with
        | some name => insertClassPosition index.classIdsByCanonicalName name position
        | none => index.classIdsByCanonicalName }

/-- One method of `from_facts`. -/
def addMethod (index : PhpHierarchyIndex) (entry : PhpMethodFact × ℕ) : PhpHierarchyIndex :=
  let (method, position) := entry
  let key := (method.ownerClassId, asciiLower method.name)
  { index with
    methodPositionsByOwnerName := Function.update index.methodPositionsByOwnerName key
      (some ((index.methodPositionsByOwnerName key).getD [] ++ [position])) }

/-- `add_parent_candidate`. -/
def addParentCandidate (index : PhpHierarchyIndex) (candidate : PhpParentCandidate) :
    PhpHierarchyIndex :=
  { index with
    parentsByChild := Function.update index.parentsByChild candidate.childClassId
      (some ((index.parentsByChild candidate.childClassId).getD [] ++ [candidate])) }

/-- An index with the facts but no entries. -/
def emptyIndex (classes : List PhpClassFact) (methods : List PhpMethodFact) : PhpHierarchyIndex where
  classes := classes
  classIdsByRawName := fun _ => none
  classIdsByCanonicalName := fun _ => none
  classPositionById := fun _ => none
  methods := methods
  methodPositionsByOwnerName := fun _ => none
  parentsByChild := fun _ => none

/-- `from_facts`. -/
def fromFacts (classes : List PhpClassFact) (methods : List PhpMethodFact)
    (parents : List PhpParentCandidate) : PhpHierarchyIndex :=
  let index := classes.zipIdx.foldl addClass (emptyIndex classes methods)
  let index := methods.zipIdx.foldl addMethod index
  parents.foldl addParentCandidate index

namespace PhpHierarchyIndex

variable (index : PhpHierarchyIndex)

/-- The facts at positions that a name has. -/
def classesAt (positions : Option (List ℕ)) : List PhpClassFact :=
  (positions.getD []).filterMap fun position => index.classes[position]?

/-- `class_candidates`. -/
def classCandidates (name : Bytes) : List PhpClassFact :=
  index.classesAt ((normalizedClassName name).bind fun key =>
    (index.classIdsByRawName key).or (index.classIdsByCanonicalName key))

/-- `raw_class_candidates`. -/
def rawClassCandidates (name : Bytes) : List PhpClassFact :=
  index.classesAt ((normalizedClassName name).bind index.classIdsByRawName)

/-- `canonical_class_candidates`. -/
def canonicalClassCandidates (name : Bytes) : List PhpClassFact :=
  index.classesAt ((normalizedClassName name).bind index.classIdsByCanonicalName)

/-- `class_fact`. -/
def classFact (definitionId : ℤ) : Option PhpClassFact :=
  (index.classPositionById definitionId).bind fun position => index.classes[position]?

/-- `direct_methods`. -/
def directMethods (ownerClassId : ℤ) (name : Bytes) : List PhpMethodFact :=
  ((index.methodPositionsByOwnerName (ownerClassId, asciiLower name)).getD []).filterMap
    fun position => index.methods[position]?

/-- `parent_candidates`. -/
def parentCandidates (childClassId : ℤ) : List PhpParentCandidate :=
  (index.parentsByChild childClassId).getD []

end PhpHierarchyIndex

/-! ## What the index of facts answers -/

/-- A fold that leaves a projection alone. -/
theorem foldl_project {α σ τ : Type} (f : σ → α → σ) (project : σ → τ)
    (h : ∀ s a, project (f s a) = project s) (xs : List α) (s : σ) :
    project (xs.foldl f s) = project s := by
  induction xs generalizing s with
  | nil => rfl
  | cons a xs ih => rw [foldl_cons, ih, h]

/-- What a class does not write. -/
def methodsAndParents (index : PhpHierarchyIndex) :
    List PhpMethodFact × (ℤ × Bytes → Option (List ℕ)) × (ℤ → Option (List PhpParentCandidate)) :=
  (index.methods, index.methodPositionsByOwnerName, index.parentsByChild)

theorem addClass_frame (index : PhpHierarchyIndex) (entry : PhpClassFact × ℕ) :
    methodsAndParents (addClass index entry) = methodsAndParents index := by
  simp only [addClass]
  split_ifs
  all_goals rfl

section Facts

variable (classes : List PhpClassFact) (methods : List PhpMethodFact)
  (parents : List PhpParentCandidate)

/-- The index after the classes. -/
def classIndex : PhpHierarchyIndex := classes.zipIdx.foldl addClass (emptyIndex classes methods)

theorem classIndex_frame :
    methodsAndParents (classIndex classes methods) = (methods, fun _ => none, fun _ => none) :=
  foldl_project addClass methodsAndParents addClass_frame _ _

/-- The index after the methods. -/
def methodIndex : PhpHierarchyIndex := methods.zipIdx.foldl addMethod (classIndex classes methods)

/-- What the parents do not write. -/
theorem fromFacts_project {τ : Type} (project : PhpHierarchyIndex → τ)
    (h : ∀ s a, project (addParentCandidate s a) = project s) :
    project (fromFacts classes methods parents) = project (methodIndex classes methods) :=
  foldl_project addParentCandidate project h parents _

theorem foldl_addMethod (before : List PhpMethodFact) {index : PhpHierarchyIndex}
    (h : index.methods = before ++ methods) (ownerClassId : ℤ) (name : Bytes) :
    ((methods.zipIdx before.length).foldl addMethod index).directMethods ownerClassId name =
      index.directMethods ownerClassId name ++ methods.filter fun method =>
        method.ownerClassId = ownerClassId ∧ asciiLower method.name = asciiLower name := by
  induction methods generalizing before index with
  | nil => exact (append_nil _).symm
  | cons method methods ih =>
    have hmethods : (addMethod index (method, before.length)).methods =
        before ++ [method] ++ methods := by rwa [append_assoc]
    have hrest := ih (before ++ [method]) hmethods
    rw [length_append, length_singleton] at hrest
    rw [zipIdx_cons, foldl_cons, hrest]
    by_cases hkey : method.ownerClassId = ownerClassId ∧ asciiLower method.name = asciiLower name
    · simp [PhpHierarchyIndex.directMethods, addMethod, hkey, h]
    · have hne : (ownerClassId, asciiLower name) ≠
          (method.ownerClassId, asciiLower method.name) := fun h =>
        hkey ⟨(Prod.mk.inj h).1.symm, (Prod.mk.inj h).2.symm⟩
      simp [PhpHierarchyIndex.directMethods, addMethod, hkey, Function.update_of_ne hne]

/-- The methods of a class with a name, in any case. -/
theorem fromFacts_directMethods (ownerClassId : ℤ) (name : Bytes) :
    (fromFacts classes methods parents).directMethods ownerClassId name =
      methods.filter fun method =>
        method.ownerClassId = ownerClassId ∧ asciiLower method.name = asciiLower name := by
  obtain ⟨hmethods, hframe⟩ := Prod.mk.inj (classIndex_frame classes methods)
  rw [fromFacts_project classes methods parents PhpHierarchyIndex.directMethods fun _ _ => rfl,
    methodIndex, ← length_nil, foldl_addMethod methods [] hmethods, PhpHierarchyIndex.directMethods,
    (Prod.mk.inj hframe).1]
  rfl

end Facts

end Trufflepig.Resolver
