import Trufflepig.Lib.Text

/-!
# Canonical class names

Model of `src/store/php_resolver/xenforo/alias_names.rs`: the name under which XenForo
looks up a class, from the alias rules of the indexed source. A name is its UTF-8 bytes.
`class.get(..n)` has an answer only where a character starts; a namespace is UTF-8, so
the comparison that follows fails anywhere else.

* `canonicalizeClassName_spec`: a name that is found with incomplete rules is the one that
  every completion of the rules finds, and canonical names are their own.
-/

namespace Trufflepig.Resolver

open List Lib

/-- One ordered pair of `getAliasableNamespaces()`. -/
structure AliasableNamespace where
  namespaceName : Bytes
  suffix : Bytes
  deriving DecidableEq

inductive AliasSourceIssue where
  | sourceTooLarge | invalidEncoding | parseCancelled | parseError | depthLimit
  | aliasableHookUnsupported | unaliasableHookUnsupported
  deriving DecidableEq

/-- The issues that leave every rule unknown. -/
def AliasSourceIssue.isGlobal : AliasSourceIssue → Bool
  | .sourceTooLarge | .invalidEncoding | .parseCancelled | .parseError | .depthLimit => true
  | .aliasableHookUnsupported | .unaliasableHookUnsupported => false

structure AliasSource where
  aliasableNamespaces : List AliasableNamespace
  unaliasableNamespaces : List Bytes
  issues : List AliasSourceIssue
  deriving DecidableEq

/-- `valid_identifier` (`alias_source.rs`). -/
def validIdentifier : Bytes → Bool
  | [] => false
  | first :: rest =>
    (asciiAlphabetic first || first = 0x5f) &&
      rest.all fun byte => asciiAlphabetic byte || asciiDigit byte || byte = 0x5f

/-- `valid_suffix` (`alias_source.rs`). -/
def validSuffix (value : Bytes) : Bool := validIdentifier value

/-- `begins_with_namespace`. -/
def beginsWithNamespace (name ns : Bytes) : Bool :=
  eqIgnoreAsciiCase (name.take ns.length) ns && name[ns.length]? = some 0x5c

/-- `contains_namespace`. -/
def containsNamespace (name ns : Bytes) : Bool :=
  if ns = [] then false
  else
    let needle := [0x5c] ++ ns ++ [0x5c]
    (windowsOf needle.length name).any fun window => eqIgnoreAsciiCase window needle

/-- `ends_with_ascii_case_insensitive`. -/
def endsWithAsciiCaseInsensitive (value suffix : Bytes) : Bool :=
  eqIgnoreAsciiCase (value.drop (value.length - suffix.length)) suffix

namespace AliasSource

variable (source : AliasSource)

/-- The first pair whose namespace a name contains. -/
def mappingOf (name : Bytes) : Option AliasableNamespace :=
  source.aliasableNamespaces.find? fun mapping => containsNamespace name mapping.namespaceName

def unaliasable (name : Bytes) : Bool :=
  source.unaliasableNamespaces.any fun ns => beginsWithNamespace name ns

/-- `needs_aliasable_suffix`. -/
def needsAliasableSuffix (name : Bytes) : Bool :=
  match source.mappingOf name with
  | some mapping => !endsWithAsciiCaseInsensitive name mapping.suffix
  | none => false

end AliasSource

/-- `needs_alias_resolution`. -/
def needsAliasResolution (raw : Bytes) (source : AliasSource) : Bool :=
  let name := trimStartByte 0x5c raw
  if !name.contains 0x5c then false
  else if source.issues.any AliasSourceIssue.isGlobal then true
  else
    let aliasableHookUnknown := source.issues.contains .aliasableHookUnsupported
    let unaliasableHookUnknown := source.issues.contains .unaliasableHookUnsupported
    if unaliasableHookUnknown && source.needsAliasableSuffix name then true
    else if aliasableHookUnknown then !(!unaliasableHookUnknown && source.unaliasable name)
    else false

/-- `canonicalize_class_name`. -/
def canonicalizeClassName (raw : Bytes) (source : AliasSource) : Option Bytes :=
  let name := trimStartByte 0x5c raw
  if source.issues ≠ [] && needsAliasResolution name source then none
  else if name = [] then some []
  else if source.issues ≠ [] then some name
  else if source.unaliasable name then some name
  else if !name.contains 0x5c then some name
  else
    match source.mappingOf name with
    | some mapping =>
      if endsWithAsciiCaseInsensitive name mapping.suffix then some name
      else some (name ++ mapping.suffix)
    | none => some name

/-! ## The tests of names, up to case -/

theorem containsNamespace_iff (name ns : Bytes) :
    containsNamespace name ns ↔
      ns ≠ [] ∧ 0x5c :: asciiLower ns ++ [0x5c] <:+: asciiLower name := by
  rw [containsNamespace]
  split_ifs with hns
  · simp [hns]
  · rw [any_windowsOf_eqIgnoreAsciiCase, asciiLower_append]
    exact (and_iff_right hns).symm

theorem endsWithAsciiCaseInsensitive_iff (value suffix : Bytes) :
    endsWithAsciiCaseInsensitive value suffix ↔ asciiLower suffix <:+ asciiLower value := by
  simp only [endsWithAsciiCaseInsensitive, eqIgnoreAsciiCase, decide_eq_true_eq]
  constructor
  · exact fun h => h ▸ (drop_suffix _ value).map lowerByte
  · rintro ⟨front, heq⟩
    obtain ⟨before, tail, rfl, -, htail⟩ := map_eq_append_iff.mp heq.symm
    have hlength : tail.length = suffix.length := by simpa using congrArg List.length htail
    rw [length_append, hlength, Nat.add_sub_cancel, drop_left]
    exact htail

/-! ## Names that an alias rule does not change -/

namespace AliasSource

variable (source : AliasSource)

/-- What complete rules make of a name without leading backslashes. -/
def aliased (name : Bytes) : Bytes :=
  if source.unaliasable name || !name.contains 0x5c then name
  else
    match source.mappingOf name with
    | some mapping =>
      if endsWithAsciiCaseInsensitive name mapping.suffix then name else name ++ mapping.suffix
    | none => name

/-- Every rule of `AliasSource::parse` passes `valid_suffix`. -/
def ValidSuffixes : Prop := ∀ mapping ∈ source.aliasableNamespaces, validSuffix mapping.suffix

/-- A source without issues that agrees with the rules that another one knows. -/
def Completes (complete : AliasSource) : Prop :=
  complete.issues = [] ∧
    (source.issues.any AliasSourceIssue.isGlobal = false →
      (.aliasableHookUnsupported ∉ source.issues →
        complete.aliasableNamespaces = source.aliasableNamespaces) ∧
      (.unaliasableHookUnsupported ∉ source.issues →
        complete.unaliasableNamespaces = source.unaliasableNamespaces))

variable {source}

theorem aliased_eq_self {name : Bytes}
    (h : source.unaliasable name ∨ 0x5c ∉ name ∨ source.needsAliasableSuffix name = false) :
    source.aliased name = name := by
  rw [aliased]
  split_ifs with hplain
  · rfl
  · simp only [Bool.or_eq_true, Bool.not_eq_true', contains_eq_mem, decide_eq_false_iff_not,
      not_or, not_not] at hplain
    have hsuffix : source.needsAliasableSuffix name = false := by
      rcases h with h | h | h
      · exact absurd h hplain.1
      · exact absurd hplain.2 h
      · exact h
    rw [needsAliasableSuffix] at hsuffix
    cases hmapping : source.mappingOf name with
    | none => rfl
    | some mapping =>
      rw [hmapping] at hsuffix
      exact if_pos (by simpa using hsuffix)

/-- A name is kept, or it gets the suffix of the first rule that matches it. -/
theorem aliased_cases (source : AliasSource) (name : Bytes) :
    source.aliased name = name ∨
      ∃ mapping, source.mappingOf name = some mapping ∧
        source.aliased name = name ++ mapping.suffix := by
  rw [aliased]
  split_ifs with hplain
  · exact .inl rfl
  · cases hmapping : source.mappingOf name with
    | none => exact .inl rfl
    | some mapping =>
      dsimp only
      split_ifs with hends
      · exact .inl rfl
      · exact .inr ⟨mapping, rfl, rfl⟩

end AliasSource

section Canonicalize

variable {source : AliasSource} (raw : Bytes)

theorem canonicalizeClassName_of_issues (h : source.issues ≠ []) :
    canonicalizeClassName raw source =
      if needsAliasResolution raw source then none else some (trimStartByte 0x5c raw) := by
  have hneeds : needsAliasResolution (trimStartByte 0x5c raw) source =
      needsAliasResolution raw source := by
    rw [needsAliasResolution, needsAliasResolution, trimStartByte_trimStartByte]
  rw [canonicalizeClassName, hneeds]
  by_cases hname : trimStartByte 0x5c raw = []
  · simp [h, hname]
  · simp [h, hname]

theorem canonicalizeClassName_of_complete (h : source.issues = []) :
    canonicalizeClassName raw source = some (source.aliased (trimStartByte 0x5c raw)) := by
  rw [canonicalizeClassName]
  by_cases hname : trimStartByte 0x5c raw = []
  · simp [h, hname, AliasSource.aliased]
  · simp only [h, ne_eq, not_true_eq_false, decide_false, Bool.false_and, Bool.false_eq_true,
      if_false, if_neg hname, AliasSource.aliased, Bool.or_eq_true]
    by_cases hun : source.unaliasable (trimStartByte 0x5c raw)
    · simp [hun]
    · by_cases hslash : 0x5c ∈ trimStartByte 0x5c raw
      · rw [if_neg hun, if_neg (by simpa using hslash), if_neg (by simpa [hun] using hslash)]
        cases source.mappingOf (trimStartByte 0x5c raw) with
        | none => rfl
        | some mapping => exact (apply_ite some _ _ _).symm
      · simp [hun, hslash]

end Canonicalize

/-! ## Incomplete rules -/

/-- What incomplete rules still decide: a name in no namespace, one that is excluded by
rules that are known, or one that needs no suffix by rules that are known. -/
theorem plain_of_not_needsAliasResolution {raw : Bytes} {source : AliasSource}
    (h : needsAliasResolution raw source = false) (hissues : source.issues ≠ []) :
    0x5c ∉ trimStartByte 0x5c raw ∨
      source.issues.any AliasSourceIssue.isGlobal = false ∧
        (.unaliasableHookUnsupported ∉ source.issues ∧
            source.unaliasable (trimStartByte 0x5c raw) ∨
          .aliasableHookUnsupported ∉ source.issues ∧
            source.needsAliasableSuffix (trimStartByte 0x5c raw) = false) := by
  rw [needsAliasResolution] at h
  dsimp only at h
  split_ifs at h with hslash hglobal hsuffix haliasable
  · exact .inl (by simpa using hslash)
  · refine .inr ⟨by simpa using hglobal, .inl ?_⟩
    simpa [contains_eq_mem] using h
  · have haliasable : AliasSourceIssue.aliasableHookUnsupported ∉ source.issues := by
      simpa [contains_eq_mem] using haliasable
    -- Some issue is reported, and only the one of the excluded namespaces is left.
    obtain ⟨issue, hissue⟩ := exists_mem_of_ne_nil _ hissues
    have hlocal : issue.isGlobal = false := by
      have := any_eq_false.mp (by simpa using hglobal) issue hissue
      simpa using this
    have hunknown : AliasSourceIssue.unaliasableHookUnsupported ∈ source.issues := by
      cases issue with
      | unaliasableHookUnsupported => exact hissue
      | aliasableHookUnsupported => exact absurd hissue haliasable
      | _ => exact absurd hlocal (by decide)
    refine .inr ⟨by simpa using hglobal, .inr ⟨haliasable, ?_⟩⟩
    simpa [hunknown] using hsuffix

/-- A name that incomplete rules decide is the one that every completion finds. -/
theorem canonicalizeClassName_completes {raw name : Bytes} {source complete : AliasSource}
    (hissues : source.issues ≠ []) (hcompletes : source.Completes complete)
    (h : canonicalizeClassName raw source = some name) :
    canonicalizeClassName raw complete = some name := by
  rw [canonicalizeClassName_of_issues raw hissues] at h
  split_ifs at h with hneeds
  obtain rfl := Option.some.inj h
  rw [canonicalizeClassName_of_complete raw hcompletes.1]
  congr 1
  apply AliasSource.aliased_eq_self
  rcases plain_of_not_needsAliasResolution (by simpa using hneeds) hissues with
    hslash | ⟨hglobal, ⟨hknown, hun⟩ | ⟨hknown, hsuffix⟩⟩
  · exact .inr (.inl hslash)
  · left
    rwa [AliasSource.unaliasable, (hcompletes.2 hglobal).2 hknown]
  · right; right
    rwa [AliasSource.needsAliasableSuffix, AliasSource.mappingOf, (hcompletes.2 hglobal).1 hknown]

/-! ## Canonical names are their own -/

theorem backslash_notMem_of_validSuffix {suffix : Bytes} (h : validSuffix suffix) :
    0x5c ∉ suffix := by
  cases suffix with
  | nil => exact not_mem_nil
  | cons first rest =>
    simp only [validSuffix, validIdentifier, Bool.and_eq_true, all_eq_true] at h
    intro hmem
    rcases mem_cons.mp hmem with rfl | hmem
    · exact absurd h.1 (by decide)
    · exact absurd (h.2 _ hmem) (by decide)

theorem containsNamespace_append {name ns tail : Bytes} (htail : 0x5c ∉ tail) :
    containsNamespace (name ++ tail) ns = containsNamespace name ns := by
  have htail : 0x5c ∉ asciiLower tail := (mem_asciiLower (by decide)).not.mpr htail
  rw [Bool.eq_iff_iff, containsNamespace_iff, containsNamespace_iff, asciiLower_append,
    infix_append_iff htail]

namespace AliasSource

variable {source : AliasSource}

theorem mappingOf_append {name tail : Bytes} (htail : 0x5c ∉ tail) :
    source.mappingOf (name ++ tail) = source.mappingOf name := by
  simp only [mappingOf, containsNamespace_append htail]

theorem backslash_notMem_of_mappingOf (hvalid : source.ValidSuffixes) {name : Bytes}
    {mapping : AliasableNamespace} (h : source.mappingOf name = some mapping) :
    0x5c ∉ mapping.suffix :=
  backslash_notMem_of_validSuffix (hvalid mapping (mem_of_find?_eq_some h))

/-- A suffix leaves the rule of a name the same, and a name with the suffix of its rule
gets no other. -/
theorem aliased_aliased (hvalid : source.ValidSuffixes) (name : Bytes) :
    source.aliased (source.aliased name) = source.aliased name := by
  rcases source.aliased_cases name with hself | ⟨mapping, hmapping, hname⟩
  · rw [hself, hself]
  · have htail := backslash_notMem_of_mappingOf hvalid hmapping
    rw [hname]
    apply aliased_eq_self
    right; right
    rw [needsAliasableSuffix, mappingOf_append htail, hmapping]
    have hends : endsWithAsciiCaseInsensitive (name ++ mapping.suffix) mapping.suffix := by
      rw [endsWithAsciiCaseInsensitive_iff, asciiLower_append]
      exact suffix_append _ _
    simp [hends]

/-- No rule puts a backslash in front. -/
theorem trimStartByte_aliased (name : Bytes) :
    trimStartByte 0x5c (source.aliased (trimStartByte 0x5c name)) =
      source.aliased (trimStartByte 0x5c name) := by
  rcases source.aliased_cases (trimStartByte 0x5c name) with
    hself | ⟨mapping, hmapping, hname⟩
  · rw [hself, trimStartByte_trimStartByte]
  · rw [hname]
    cases hfirst : trimStartByte 0x5c name with
    | nil =>
      rw [hfirst] at hmapping
      obtain ⟨hfound, -⟩ := find?_eq_some_iff_append.mp hmapping
      simp only [containsNamespace_iff] at hfound
      exact absurd (eq_nil_of_infix_nil hfound.2) (by simp)
    | cons first rest =>
      exact trimStartByte_cons_of_ne (ne_of_trimStartByte_eq_cons hfirst) _

end AliasSource

theorem canonicalizeClassName_idempotent {raw name : Bytes} {source : AliasSource}
    (hvalid : source.ValidSuffixes) (h : canonicalizeClassName raw source = some name) :
    canonicalizeClassName name source = some name := by
  by_cases hissues : source.issues = []
  · rw [canonicalizeClassName_of_complete raw hissues, Option.some.injEq] at h
    rw [canonicalizeClassName_of_complete name hissues, ← h, AliasSource.trimStartByte_aliased,
      AliasSource.aliased_aliased hvalid]
  · rw [canonicalizeClassName_of_issues raw hissues] at h
    split_ifs at h with hneeds
    obtain rfl := Option.some.inj h
    rw [canonicalizeClassName_of_issues _ hissues, needsAliasResolution,
      trimStartByte_trimStartByte]
    exact if_neg hneeds

/-! ## Lookup keys -/

/-- `class_key` (`chain_adapter/proxy_validation.rs`). -/
def classKey (name : Bytes) : Bytes := asciiLower (trimStartByte 0x5c name)

/-- Canonicalisation under incomplete alias rules commits to no name that a completion of
the rules changes, and it is idempotent where the suffixes are valid. -/
theorem canonicalizeClassName_spec (raw : Bytes) :
    (∀ source complete : AliasSource, source.issues ≠ [] → source.Completes complete →
      ∀ name, canonicalizeClassName raw source = some name →
        canonicalizeClassName raw complete = some name) ∧
      ∀ source : AliasSource, source.ValidSuffixes →
        ∀ name, canonicalizeClassName raw source = some name →
          canonicalizeClassName name source = some name :=
  ⟨fun _ _ hissues hcompletes _ h => canonicalizeClassName_completes hissues hcompletes h,
    fun _ hvalid _ h => canonicalizeClassName_idempotent hvalid h⟩

/-- The names of entities end in `Entity`. -/
def entitySource (unaliasable : List Bytes) (issues : List AliasSourceIssue) : AliasSource :=
  ⟨[⟨ascii "Entity", ascii "Entity"⟩], unaliasable, issues⟩

theorem canonicalizeClassName_spec_entity :
    canonicalizeClassName (ascii "A\\Entity\\UserEntity") (entitySource [ascii "B"] []) =
        some (ascii "A\\Entity\\UserEntity") ∧
      canonicalizeClassName (ascii "A\\Entity\\User") (entitySource [] []) =
        some (ascii "A\\Entity\\UserEntity") ∧
      canonicalizeClassName (ascii "A\\Entity\\UserEntity") (entitySource [] []) =
        some (ascii "A\\Entity\\UserEntity") := by
  have haliased : canonicalizeClassName (ascii "A\\Entity\\User") (entitySource [] []) =
      some (ascii "A\\Entity\\UserEntity") := by decide
  refine ⟨?_, haliased, ?_⟩
  · -- An incomplete source does not know the names that have no alias.
    have hcompletes : (entitySource [] [.unaliasableHookUnsupported]).Completes
        (entitySource [ascii "B"] []) :=
      ⟨rfl, fun _ => ⟨fun _ => rfl, fun h => absurd mem_cons_self h⟩⟩
    exact (canonicalizeClassName_spec (ascii "A\\Entity\\UserEntity")).1 _ _ (by decide)
      hcompletes _ (by decide)
  · exact (canonicalizeClassName_spec (ascii "A\\Entity\\User")).2 _
      (by unfold AliasSource.ValidSuffixes; decide) _ haliased

end Trufflepig.Resolver
