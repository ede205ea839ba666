import Trufflepig.History.Fingerprints
import Trufflepig.History.Lines
import Trufflepig.History.MatchRenaming
import Trufflepig.Lib.Blake3

/-!
# Fingerprints keep the correspondence

* `correspondFingerprints_eq`: if the hash tells apart what is hashed, the
  comparison of fingerprints gives the rows of the comparison of the sources.
-/

namespace Trufflepig.History

open List Lib Extract

/-! ## Lines -/

variable (hash : Bytes → ContentRevision)

theorem fingerprints_eq (source : Bytes) :
    (fingerprintLines hash source).fingerprints = (byteLines source).map hash := by
  have hslices := map_slice_windows [] (byteLines source)
  rw [nil_append, flatten_byteLines, length_nil, ← lineOffsets_eq] at hslices
  conv_rhs => rw [← hslices, map_map]
  rfl

theorem validate_fingerprintLines (source : Bytes) :
    (fingerprintLines hash source).validate = .ok source.length := by
  obtain ⟨rest, hrest⟩ := offsetsFrom_eq_cons 0 (byteLines source)
  have hlen : (lineOffsets source).length =
      (fingerprintLines hash source).fingerprints.length + 1 := by
    rw [fingerprints_eq, length_map, lineOffsets_eq, length_offsetsFrom]
  have hhead : (lineOffsets source).head? = some 0 := by
    rw [lineOffsets_eq, hrest]
    rfl
  have hlt : (windows (lineOffsets source)).all (fun pair => pair.1 < pair.2) = true := by
    rw [all_eq_true, lineOffsets_eq]
    intro w hw
    exact decide_eq_true (windows_lt 0 (byteLines_ne_nil source) w hw)
  have hlast : (lineOffsets source).getLast? = some source.length := by
    rw [lineOffsets_eq, getLast?_offsetsFrom, flatten_byteLines, Nat.zero_add]
  unfold FingerprintLines.validate
  rw [if_pos ⟨hlen, hhead, hlt⟩]
  show Except.ok ((lineOffsets source).getLast?.getD 0) = _
  rw [hlast]
  rfl

/-- The numbers of the tokens depend only on which tokens are equal. -/
theorem internedInput_map {τ υ : Type} [DecidableEq τ] [DecidableEq υ] {f : τ → υ}
    {before after : List τ} (hf : Set.InjOn f {t | t ∈ before ∨ t ∈ after}) :
    InternedInput.new (before.map f) (after.map f) = InternedInput.new before after := by
  have hbefore : internTokens (([] : List τ).map f) (before.map f) =
      ((internTokens [] before).1.map f, (internTokens [] before).2) := by
    apply internTokens_map
    apply hf.mono
    rintro t (ht | ht)
    · cases ht
    · exact Or.inl ht
  have hafter : internTokens ((internTokens [] before).1.map f) (after.map f) =
      ((internTokens (internTokens [] before).1 after).1.map f,
        (internTokens (internTokens [] before).1 after).2) := by
    apply internTokens_map
    apply hf.mono
    rintro t (ht | ht)
    · exact Or.inl (by simpa using internTokens_subset [] before ht)
    · exact Or.inr ht
  rw [map_nil] at hbefore
  simp only [InternedInput.new, hbefore, hafter]

/-- The diff of the fingerprints is the diff of the sources. -/
theorem diffFingerprints_eq (library : DiffLibrary) {before after : Bytes}
    (hhash : Set.InjOn hash {line | line ∈ byteLines before ∨ line ∈ byteLines after}) :
    diffFingerprints library (fingerprintLines hash before) (fingerprintLines hash after) =
      .ok (diffSources library before after) := by
  simp only [diffFingerprints, validate_fingerprintLines, fingerprints_eq,
    internedInput_map hhash, bind, Except.bind, pure, Except.pure]
  rfl

/-! ## Facts -/

/-- The spans of the declarations lie in the source. -/
def InRange (source : Bytes) (extraction : Extraction) : Prop :=
  ∀ definition ∈ extraction.definitions,
    definition.start ≤ definition.stop ∧ definition.stop ≤ source.length

variable (keys : Codec (String × String × String × Option String))
  {source : Bytes} {extraction : Extraction}

theorem convert_sessionFacts (h : InRange source extraction) :
    convert (sessionFacts hash keys source extraction) (some source.length) = .ok () := by
  unfold InRange at h
  unfold sessionFacts
  generalize extraction.definitions = definitions at h ⊢
  induction definitions with
  | nil => rfl
  | cons definition definitions ih =>
    obtain ⟨hle, hlen⟩ := h definition mem_cons_self
    have hspan : (⟨definition.start, definition.stop⟩ : ByteSpan).validate source.length =
        .ok ⟨definition.start, definition.stop⟩ := by
      rw [ByteSpan.validate, if_neg (by simp only; omega)]
    rw [map_cons, convert]
    simp only [Option.getD_some, hspan]
    exact ih fun d hd => h d (mem_cons_of_mem _ hd)

/-- The hash of a key. -/
def hashKey (k : DeclarationKey) : ContentRevision :=
  hash (keys.encode ("declaration", k.1, k.2.1, k.2.2))

/-- The facts of a session are the facts of the declarations, hashed. -/
theorem fingerprintFacts_sessionFacts (h : InRange source extraction) :
    fingerprintFacts (sessionFacts hash keys source extraction) =
      (declarationFacts source extraction).map (·.rename (hashKey hash keys) hash) := by
  unfold fingerprintFacts sessionFacts declarationFacts
  rw [map_map, map_map]
  apply map_congr_left
  intro definition hdefinition
  obtain ⟨hle, hlen⟩ := h definition hdefinition
  have hcontent : content source definition =
      if definition.start < definition.stop then
        some (slice source definition.start definition.stop) else none := by
    have hsize := length_slice source hlen (i := definition.start)
    rw [content, if_pos ⟨hle, hlen⟩]
    simp only [isEmpty_iff_length_eq_zero, hsize]
    split_ifs with hzero hlt hlt
    · omega
    · rfl
    · rfl
    · omega
  simp only [Function.comp_apply, MatchFact.rename, hcontent, apply_ite (Option.map hash),
    Option.map_some, Option.map_none]
  rfl

/-- The hash tells apart the lines, the contents and the keys that are hashed. -/
structure HashInjective (before after : Bytes) (beforeExtraction afterExtraction : Extraction) :
    Prop where
  lines : Set.InjOn hash {line | line ∈ byteLines before ∨ line ∈ byteLines after}
  contents : Set.InjOn hash {bytes |
    (∃ d ∈ beforeExtraction.definitions, bytes = slice before d.start d.stop) ∨
      ∃ d ∈ afterExtraction.definitions, bytes = slice after d.start d.stop}
  keys : Set.InjOn hash {bytes |
    ∃ d ∈ beforeExtraction.definitions ++ afterExtraction.definitions,
      bytes = keys.encode (sessionKey d)}

section Corresponds

variable {hash} {keys} {before after : Bytes} {beforeExtraction afterExtraction : Extraction}

theorem mem_declarationFacts
    {fact : MatchFact DeclarationKey Bytes} (h : fact ∈ declarationFacts source extraction) :
    ∃ d ∈ extraction.definitions, fact = ⟨key d, d.start, content source d⟩ := by
  obtain ⟨d, hd, rfl⟩ := mem_map.mp h
  exact ⟨d, hd, rfl⟩

theorem content_eq_slice {bytes : Bytes} {definition : Definition}
    (h : content source definition = some bytes) :
    bytes = slice source definition.start definition.stop := by
  unfold content at h
  split_ifs at h with hrange
  simp only at h
  split_ifs at h
  exact (Option.some.inj h).symm

variable {c : Comparison DeclarationKey Bytes}

section

variable (hbefore : c.before = declarationFacts before beforeExtraction)
  (hafter : c.after = declarationFacts after afterExtraction)
  (h : HashInjective hash keys before after beforeExtraction afterExtraction)
include hbefore hafter h

theorem hashKey_injOn : Set.InjOn (hashKey hash keys) c.keys := by
  have hkey : ∀ k ∈ c.keys,
      ∃ d ∈ beforeExtraction.definitions ++ afterExtraction.definitions, k = key d := by
    rintro k ⟨fact, hfact, rfl⟩
    rw [hbefore, hafter] at hfact
    rcases mem_append.mp hfact with hfact | hfact
    · obtain ⟨d, hd, rfl⟩ := mem_declarationFacts hfact
      exact ⟨d, mem_append_left _ hd, rfl⟩
    · obtain ⟨d, hd, rfl⟩ := mem_declarationFacts hfact
      exact ⟨d, mem_append_right _ hd, rfl⟩
  intro k hk k' hk' heq
  obtain ⟨d, hd, rfl⟩ := hkey k hk
  obtain ⟨d', hd', rfl⟩ := hkey k' hk'
  have hencode := h.keys ⟨d, hd, rfl⟩ ⟨d', hd', rfl⟩ heq
  have hdecode := congrArg keys.decode hencode
  rw [keys.decode_encode, keys.decode_encode] at hdecode
  exact (Prod.mk.inj (Option.some.inj hdecode)).2

theorem hash_injOn_contents : Set.InjOn hash c.contents := by
  apply h.contents.mono
  rintro bytes ⟨fact, hfact, hbytes⟩
  rw [hbefore, hafter] at hfact
  rcases mem_append.mp hfact with hfact | hfact
  · obtain ⟨d, hd, rfl⟩ := mem_declarationFacts hfact
    exact Or.inl ⟨d, hd, content_eq_slice hbytes⟩
  · obtain ⟨d, hd, rfl⟩ := mem_declarationFacts hfact
    exact Or.inr ⟨d, hd, content_eq_slice hbytes⟩

end

/-- The comparison of what sessions keep of two sources gives the rows of the
comparison of the sources. -/
theorem correspondFingerprints_eq (library : DiffLibrary)
    (orders : HashOrders ContentRevision ContentRevision)
    (orders' : HashOrders DeclarationKey Bytes) (hbefore : InRange before beforeExtraction)
    (hafter : InRange after afterExtraction)
    (hhash : HashInjective hash keys before after beforeExtraction afterExtraction) :
    correspondFingerprints library orders (sessionFacts hash keys before beforeExtraction)
        (sessionFacts hash keys after afterExtraction) (beforeExtraction.status = .complete)
        (afterExtraction.status = .complete) (some (fingerprintLines hash before))
        (some (fingerprintLines hash after)) =
      .ok (correspondDeclarations orders' before after beforeExtraction afterExtraction
        (diffSources library before after)) := by
  simp only [correspondFingerprints, diffFingerprints_eq hash library hhash.lines, validateLines,
    validate_fingerprintLines, Except.map, bind, Except.bind, pure, Except.pure,
    convert_sessionFacts hash keys hbefore, convert_sessionFacts hash keys hafter,
    fingerprintFacts_sessionFacts hash keys hbefore, fingerprintFacts_sessionFacts hash keys hafter]
  rw [correspondDeclarations, ← matchFacts_rename (hashKey_injOn rfl rfl hhash)
    (hash_injOn_contents rfl rfl hhash) orders' orders]
  rfl

end Corresponds

/-- The library on sides that are equal or have no common token: no hunk, or one. -/
def singleHunk : DiffLibrary where
  hunks input :=
    if input.before = input.after then []
    else [⟨⟨0, input.before.length⟩, ⟨0, input.after.length⟩⟩]
  valid input := by
    split_ifs with h
    · exact ⟨by rw [h], Nat.zero_le _, Nat.zero_le _⟩
    · exact ⟨le_rfl, le_rfl, rfl, Nat.zero_le _, Nat.zero_le _, le_rfl, le_rfl, by simp, le_rfl, le_rfl⟩

/-- A source with one declaration. -/
def assignment : Extraction := ⟨.javascript, .complete, [⟨"f", "variable", 0, 3, none⟩], [], []⟩

/-- A serialiser that writes the key of that declaration as `serde_json` does. -/
noncomputable def assignmentKeys : Codec (String × String × String × Option String) :=
  (Codec.ofCountable _).patch ("declaration", "f", "variable", none)
    (ascii "[\"declaration\",\"f\",\"variable\",null]") (Codec.ofCountable_encode_ne (by decide))

theorem correspondFingerprints_assignment :
    correspondFingerprints singleHunk (HashOrders.insertion _ _)
        (sessionFacts blake3 assignmentKeys (ascii "f=1\n") assignment)
        (sessionFacts blake3 assignmentKeys (ascii "f=2\n") assignment) true true
        (some (fingerprintLines blake3 (ascii "f=1\n")))
        (some (fingerprintLines blake3 (ascii "f=2\n"))) =
      .ok [pairRow 0 0 .modified] := by
  have hlines : blake3 (ascii "f=1\n") ≠ blake3 (ascii "f=2\n") := by decide +kernel
  have hcontents : blake3 (ascii "f=1") ≠ blake3 (ascii "f=2") := by decide +kernel
  have hhash : HashInjective blake3 assignmentKeys (ascii "f=1\n") (ascii "f=2\n") assignment
      assignment := by
    constructor
    · apply (Set.injOn_pair.mpr fun h => absurd h hlines).mono
      rintro line (h | h)
      · exact Or.inl (mem_singleton.mp h)
      · exact Or.inr (mem_singleton.mp h)
    · apply (Set.injOn_pair.mpr fun h => absurd h hcontents).mono
      rintro bytes (⟨d, hd, rfl⟩ | ⟨d, hd, rfl⟩)
      · obtain rfl := mem_singleton.mp hd
        exact Or.inl rfl
      · obtain rfl := mem_singleton.mp hd
        exact Or.inr rfl
    · rintro _ ⟨d, hd, rfl⟩ _ ⟨d', hd', rfl⟩ -
      have hone : ∀ d ∈ assignment.definitions ++ assignment.definitions,
          d = ⟨"f", "variable", 0, 3, none⟩ := by simp [assignment]
      rw [hone d hd, hone d' hd']
  have hrange : ∀ source, source.length = 4 → InRange source assignment := by
    intro source hlen d hd
    obtain rfl := mem_singleton.mp hd
    exact ⟨by decide, by rw [hlen]; decide⟩
  have hrows : correspondDeclarations (HashOrders.insertion _ _) (ascii "f=1\n") (ascii "f=2\n")
      assignment assignment (diffSources singleHunk (ascii "f=1\n") (ascii "f=2\n")) =
      [pairRow 0 0 .modified] := by
    decide +kernel
  rw [← hrows]
  exact correspondFingerprints_eq singleHunk _ _ (hrange _ rfl) (hrange _ rfl) hhash

end Trufflepig.History
