import Trufflepig.Resolver.RegistrationLookup

/-!
# The caches of the XenForo chains hold what a lookup finds

`prepare` keeps lookups under case-folded keys. The names of rows are valid and canonical
names have no leading backslash, so that a key determines what a lookup finds.

* `cachedImplementation_spec`, `cachedBase_spec`: a cached lookup is the lookup.
-/

namespace Trufflepig.Resolver

open List Lib

/-! ## Names and keys -/

theorem normalizedClassName_asciiLower (name : Bytes) :
    normalizedClassName (asciiLower name) = normalizedClassName name := by
  have hnil : ∀ text : Bytes, asciiLower text = [] ↔ text = [] := fun _ => map_eq_nil_iff
  simp only [normalizedClassName, trim_asciiLower, trimStartByte_asciiLower (by decide : NotLetter 0x5c),
    asciiLower_asciiLower, hnil]

theorem mem_intercalate {α : Type} {sep x : α} {parts : List (List α)}
    (h : x ∈ [sep].intercalate parts) : x = sep ∨ ∃ part ∈ parts, x ∈ part := by
  induction parts with
  | nil => exact absurd h not_mem_nil
  | cons part parts ih =>
    cases parts with
    | nil => exact .inr ⟨part, mem_cons_self, by simpa using h⟩
    | cons next parts =>
      have hsplit : [sep].intercalate (part :: next :: parts) =
          part ++ sep :: [sep].intercalate (next :: parts) := by
        simp [List.intercalate]
      rw [hsplit] at h
      rcases mem_append.mp h with h | h
      · exact .inr ⟨part, mem_cons_self, h⟩
      · rcases mem_cons.mp h with h | h
        · exact .inl h
        · rcases ih h with h | ⟨found, hfound, hx⟩
          · exact .inl h
          · exact .inr ⟨found, mem_cons_of_mem _ hfound, hx⟩

theorem spaceByte_of_validIdentifier {segment : Bytes} (h : validIdentifier segment) :
    ∀ b ∈ segment, spaceByte b = false := by
  have hbyte : ∀ b : UInt8, (asciiAlphabetic b || asciiDigit b || b = 0x5f) → spaceByte b = false :=
    forall_byte (P := fun b => (asciiAlphabetic b || asciiDigit b || b = 0x5f) →
      spaceByte b = false) (by decide +kernel)
  cases segment with
  | nil => exact fun _ hb => absurd hb not_mem_nil
  | cons first rest =>
    simp only [validIdentifier, Bool.and_eq_true, all_eq_true] at h
    intro b hb
    apply hbyte
    rcases mem_cons.mp hb with rfl | hb
    · have hfirst := h.1
      simp only [Bool.or_eq_true] at hfirst ⊢
      exact hfirst.imp_left .inl
    · exact h.2 b hb

/-- A valid name is an optional backslash and a name that starts with none. -/
theorem validClassName_split {name : Bytes} (h : validClassName name) :
    trimStartByte 0x5c name ≠ [] ∧ ∀ b ∈ name, spaceByte b = false := by
  have hplain : ∀ stripped : Bytes, (stripped ≠ [] && (stripped.splitOn 0x5c).all validIdentifier) →
      trimStartByte 0x5c stripped = stripped ∧ stripped ≠ [] ∧
        ∀ b ∈ stripped, spaceByte b = false := by
    intro stripped h
    simp only [Bool.and_eq_true, decide_eq_true_eq, all_eq_true] at h
    refine ⟨?_, h.1, ?_⟩
    · cases stripped with
      | nil => rfl
      | cons first rest =>
        apply trimStartByte_cons_of_ne
        rintro rfl
        have hnil : ([] : Bytes) ∈ (0x5c :: rest).splitOn 0x5c := by
          simp [List.splitOn, splitOnP_cons_eq_if_modifyHead]
        exact absurd (h.2 [] hnil) (by decide)
    · intro b hb
      rw [← show [0x5c].intercalate (stripped.splitOn 0x5c) = stripped from
        intercalate_splitOn 0x5c] at hb
      rcases mem_intercalate hb with rfl | ⟨segment, hsegment, hb⟩
      · decide
      · exact spaceByte_of_validIdentifier (h.2 segment hsegment) b hb
  obtain ⟨htrim, hne, hspace⟩ := hplain (stripBackslash name) h
  cases name with
  | nil => exact absurd rfl hne
  | cons first rest =>
    rw [stripBackslash] at htrim hne hspace
    split_ifs at htrim hne hspace with hfirst
    · refine ⟨?_, ?_⟩
      · rwa [trimStartByte, dropWhile_cons_of_pos (by simpa using hfirst), ← trimStartByte,
          htrim]
      · intro b hb
        rcases mem_cons.mp hb with rfl | hb
        · rw [hfirst]
          decide
        · exact hspace b hb
    · exact ⟨htrim.symm ▸ hne, hspace⟩

/-- The key of a valid name is the one that the index uses. -/
theorem normalizedClassName_of_valid {name : Bytes} (h : validClassName name) :
    normalizedClassName name = some (classKey name) := by
  obtain ⟨hne, hspace⟩ := validClassName_split h
  rw [normalizedClassName, trim_eq_self hspace]
  exact if_neg hne

section Canonical

variable {raw name : Bytes} {source : AliasSource}

section

variable (h : canonicalizeClassName raw source = some name)
include h

theorem canonical_trimmed :
    trimStartByte 0x5c name = name := by
  by_cases hissues : source.issues = []
  · rw [canonicalizeClassName_of_complete raw hissues, Option.some.injEq] at h
    rw [← h, AliasSource.trimStartByte_aliased]
  · rw [canonicalizeClassName_of_issues raw hissues] at h
    split_ifs at h
    rw [← Option.some.inj h, trimStartByte_trimStartByte]

theorem canonical_ne_nil (hraw : trimStartByte 0x5c raw ≠ []) : name ≠ [] := by
  by_cases hissues : source.issues = []
  · rw [canonicalizeClassName_of_complete raw hissues, Option.some.injEq] at h
    rcases source.aliased_cases (trimStartByte 0x5c raw) with
      hself | ⟨mapping, -, hname⟩
    · rwa [← h, hself]
    · rw [← h, hname]
      exact append_ne_nil_of_left_ne_nil hraw _
  · rw [canonicalizeClassName_of_issues raw hissues] at h
    split_ifs at h
    rwa [← Option.some.inj h]

/-- What a lookup of a canonical name reads depends on the key. -/
theorem normalizedClassName_canonical :
    normalizedClassName name = normalizedClassName (classKey name) := by
  rw [classKey, canonical_trimmed h, normalizedClassName_asciiLower]

end

end Canonical

/-! ## Rows -/

/-- The names of a row are those that `prepare` computes from its extension. -/
structure PendingRow.Derived (aliases : AliasSource) (row : PendingRow) : Prop where
  base : row.base = canonicalizeClassName row.extension.fromClass aliases
  implementation : row.implementation = canonicalizeClassName row.extension.toClass aliases
  proxy : expectedProxyName row.extension.toClass = .ok row.expectedProxy

theorem PendingRow.Derived.implementation_ne_nil {aliases : AliasSource} {row : PendingRow}
    (h : row.Derived aliases) {name : Bytes} (hname : row.implementation = some name) :
    classKey name ≠ [] := by
  have hcanonical := h.implementation.symm.trans hname
  rw [classKey, canonical_trimmed hcanonical]
  intro hnil
  exact canonical_ne_nil hcanonical (validClassName_split row.extension.toClass_valid).1
    (map_eq_nil_iff.mp hnil)

section Congruence

variable (context : ChainContext)

theorem implementationClass_congr {proxy proxy' : Bytes} (h : classKey proxy = classKey proxy') :
    implementationClass context proxy = implementationClass context proxy' := by
  have hmatches : matchesProxy proxy = matchesProxy proxy' := by
    funext parent
    rw [matchesProxy, matchesProxy, h]
  funext candidate
  rw [implementationClass, implementationClass, proxyOccurrenceOf, proxyOccurrenceOf, hmatches]

/-- The lookup of a row. -/
def PendingRow.resolve (row : PendingRow) : Except PrepareError ImplementationLookup :=
  resolveImplementation context row.extension.toClass row.implementation row.expectedProxy

/-- The classes that the implementation of a row may be, before they are cut off. -/
def PendingRow.candidates (row : PendingRow) : List PhpClassFact :=
  implementationCandidates context row.extension.toClass row.implementation

variable {context} {row row' : PendingRow}

theorem candidates_congr (hrow : row.Derived context.aliases) (hrow' : row'.Derived context.aliases)
    (hraw : classKey row.extension.toClass = classKey row'.extension.toClass)
    (hkey : (row.implementation.map classKey).getD [] = (row'.implementation.map classKey).getD []) :
    row.candidates context = row'.candidates context := by
  have hname := normalizedClassName_of_valid row.extension.toClass_valid
  have hname' := normalizedClassName_of_valid row'.extension.toClass_valid
  rw [PendingRow.candidates, PendingRow.candidates, implementationCandidates.eq_def,
    implementationCandidates.eq_def, PhpHierarchyIndex.rawClassCandidates,
    PhpHierarchyIndex.rawClassCandidates, hname, hname', hraw]
  congr 1
  funext _
  cases hi : row.implementation with
  | none =>
    cases hi' : row'.implementation with
    | none => rfl
    | some name' =>
      rw [hi, hi'] at hkey
      exact absurd hkey.symm (hrow'.implementation_ne_nil hi')
  | some name =>
    cases hi' : row'.implementation with
    | none =>
      rw [hi, hi'] at hkey
      exact absurd hkey (hrow.implementation_ne_nil hi)
    | some name' =>
      rw [hi, hi'] at hkey
      have hkey : classKey name = classKey name' := hkey
      dsimp only
      rw [PhpHierarchyIndex.canonicalClassCandidates, PhpHierarchyIndex.canonicalClassCandidates,
        normalizedClassName_canonical (hrow.implementation.symm.trans hi),
        normalizedClassName_canonical (hrow'.implementation.symm.trans hi'), hkey]

/-- Rows with one cache key have one lookup. -/
theorem resolve_congr (hrow : row.Derived context.aliases) (hrow' : row'.Derived context.aliases)
    (hkey : row.cacheKey = row'.cacheKey) : row.resolve context = row'.resolve context := by
  simp only [PendingRow.cacheKey, Prod.mk.injEq] at hkey
  have hcandidates := candidates_congr hrow hrow' hkey.1 hkey.2.1
  rw [PendingRow.candidates, PendingRow.candidates] at hcandidates
  rw [PendingRow.resolve, PendingRow.resolve, resolveImplementation, resolveImplementation,
    hcandidates, implementationClass_congr context hkey.2.2]

theorem baseClasses_congr {raw raw' base base' : Bytes}
    (h : canonicalizeClassName raw context.aliases = some base)
    (h' : canonicalizeClassName raw' context.aliases = some base')
    (hkey : classKey base = classKey base') : baseClasses context base = baseClasses context base' := by
  rw [baseClasses, baseClasses, PhpHierarchyIndex.classCandidates,
    PhpHierarchyIndex.classCandidates, normalizedClassName_canonical h,
    normalizedClassName_canonical h', hkey]

end Congruence

/-! ## Caches -/

/-- The caches hold what lookups find. -/
structure LookupState.Sound (context : ChainContext) (lookups : LookupState) : Prop where
  implementation : ∀ row : PendingRow, row.Derived context.aliases →
    ∀ lookup, lookups.implementationCache row.cacheKey = some lookup →
      row.resolve context = .ok lookup
  base : ∀ raw base, canonicalizeClassName raw context.aliases = some base →
    ∀ classes, lookups.baseCache (classKey base) = some classes → classes = baseClasses context base

theorem update_eq_some {κ ν : Type} [DecidableEq κ] {cache : κ → Option ν} {key key' : κ}
    {value value' : ν} (h : Function.update cache key (some value) key' = some value') :
    (key' = key ∧ value' = value) ∨ cache key' = some value' := by
  by_cases hkey : key' = key
  · rw [hkey, Function.update_self] at h
    exact .inl ⟨hkey, (Option.some.inj h).symm⟩
  · rw [Function.update_of_ne hkey] at h
    exact .inr h

section Cached

variable {context : ChainContext} {lookups lookups' : LookupState}

theorem implementationLookup_eq_ok {raw proxy : Bytes} {canonical : Option Bytes} {count : ℕ}
    {found : ImplementationLookup × ℕ}
    (h : implementationLookup context raw canonical proxy count = .ok found) :
    resolveImplementation context raw canonical proxy = .ok found.1 := by
  rw [implementationLookup] at h
  obtain ⟨total, -, h⟩ := bind_eq_ok.mp h
  obtain ⟨lookup, hlookup, h⟩ := bind_eq_ok.mp h
  rwa [← Except.ok.inj h]

/-- A cached lookup is the lookup. -/
theorem cachedImplementation_spec (hsound : lookups.Sound context) {row : PendingRow}
    (hrow : row.Derived context.aliases) {lookup : ImplementationLookup}
    (h : cachedImplementation context lookups row = .ok (lookup, lookups')) :
    row.resolve context = .ok lookup ∧ lookups'.Sound context := by
  rw [cachedImplementation] at h
  cases hcache : lookups.implementationCache row.cacheKey with
  | some cached =>
    rw [hcache] at h
    obtain ⟨rfl, rfl⟩ := Prod.mk.inj (Except.ok.inj h)
    exact ⟨hsound.implementation row hrow _ hcache, hsound⟩
  | none =>
    rw [hcache] at h
    obtain ⟨found, hfound, heq⟩ := map_eq_ok h
    obtain ⟨rfl, rfl⟩ := Prod.mk.inj heq
    have hresolve : row.resolve context = .ok found.1 := implementationLookup_eq_ok hfound
    refine ⟨hresolve, ⟨?_, hsound.base⟩⟩
    intro row' hrow' lookup' hlookup'
    rcases update_eq_some (show Function.update lookups.implementationCache _ _ _ = _ from hlookup')
      with ⟨hkey, rfl⟩ | hold
    · rw [resolve_congr hrow' hrow hkey, hresolve]
    · exact hsound.implementation row' hrow' lookup' hold

theorem cachedBase_spec (hsound : lookups.Sound context) {raw base : Bytes}
    (hbase : canonicalizeClassName raw context.aliases = some base) {classes : List ClassTarget × Bool}
    (h : cachedBase context lookups base = .ok (classes, lookups')) :
    classes = baseClasses context base ∧ lookups'.Sound context := by
  rw [cachedBase] at h
  cases hcache : lookups.baseCache (classKey base) with
  | some cached =>
    rw [hcache] at h
    obtain ⟨rfl, rfl⟩ := Prod.mk.inj (Except.ok.inj h)
    exact ⟨hsound.base raw base hbase _ hcache, hsound⟩
  | none =>
    rw [hcache] at h
    obtain ⟨found, hfound, heq⟩ := map_eq_ok h
    obtain ⟨rfl, rfl⟩ := Prod.mk.inj heq
    obtain ⟨count, -, rfl⟩ := map_eq_ok hfound
    refine ⟨rfl, ⟨hsound.implementation, ?_⟩⟩
    intro raw' base' hbase' classes' hclasses'
    rcases update_eq_some (show Function.update lookups.baseCache _ _ _ = _ from hclasses')
      with ⟨hkey, rfl⟩ | hold
    · exact (baseClasses_congr hbase' hbase hkey).symm
    · exact hsound.base raw' base' hbase' classes' hold

end Cached

end Trufflepig.Resolver
