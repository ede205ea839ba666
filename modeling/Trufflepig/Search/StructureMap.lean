import Trufflepig.Lib.StableOrder
import Trufflepig.Search.Lanes

/-!
# The outline of a file (`search/navigation/structure_map.rs`)

`file_outline` lists the definitions of a file from the index, `outline_extracted` those of a source
that is not indexed. The index has one more row for a file, of the whole file, which the query
leaves out; with it goes any definition that looks like that row. The resolver adds the rows of
add-ons and class extensions, which it reads from files that are not source.

* `rows_definitions`: the rows of an index, with growing ids.
* `fileOutline_eq_iff`: when both outlines are the same.
-/

namespace Trufflepig.Search

open List Lib Extract Results

/-! ## Outlines -/

/-- `OUTLINE_KINDS`. -/
def outlineKinds : List String :=
  ["addon", "module", "namespace", "struct", "class", "trait", "type", "enum", "impl", "interface",
    "record", "delegate", "xenforo_class_extension", "function", "method", "constructor", "property",
    "field", "event", "constant", "enum_case", "variant", "macro"]

/-- `FOLDED_KINDS`. -/
def foldedKinds : List String := ["field", "enum_case", "variant", "property", "event", "module"]

/-- `FOREIGN_ITEM_CONTAINER`. -/
def foreignItemContainer : String := "extern block"

/-- Folded kinds last, then by the start. -/
def outlineOrder : Definition → Definition → Ordering :=
  compareLex (compareOn fun definition => decide (definition.kind ∈ foldedKinds))
    (compareOn Definition.start)

instance : Std.TransCmp outlineOrder := inferInstanceAs (Std.TransCmp (compareLex _ _))

/-- `outline_extracted`. -/
def outlineExtracted (definitions : List Definition) : List Definition :=
  orderBy outlineOrder (definitions.filter fun definition =>
    definition.kind ∈ outlineKinds && definition.container ≠ some foreignItemContainer)

/-- The name of the whole file. -/
def moduleName (path : EncodedPath) : String := String.ofList (decodeChars path.1)

/-- `d.kind='module' AND d.start=0 AND d.name=f.path AND d.container IS NULL`. -/
def isFileModule (path : EncodedPath) (definition : Definition) : Bool :=
  definition.kind = "module" && definition.start = 0 && definition.name = moduleName path &&
    definition.container.isNone

/-- The columns of a row that are those of its definition. -/
def DefinitionRow.definition (row : DefinitionRow) : Definition :=
  ⟨row.name, row.kind, row.start, row.stop, row.container⟩

/-- The row of a result of `map`. -/
def outlineHit (source : SourceRow) (definition : Definition) : Hit :=
  hitRow source definition.start definition.stop definition.name definition.kind
    definition.container (.other "structural_map")

/-- The condition of the query. -/
def isOutlined (path : EncodedPath) (definition : Definition) : Bool :=
  definition.kind ∈ outlineKinds && !isFileModule path definition &&
    definition.container.getD "" ≠ foreignItemContainer

/-- `ORDER BY CASE WHEN d.kind IN (…) THEN 1 ELSE 0 END,d.start,d.id`. -/
def rowOrder : DefinitionRow → DefinitionRow → Ordering :=
  compareLex (fun a b => outlineOrder a.definition b.definition) (compareOn DefinitionRow.id)

/-- The rows that the query selects. -/
def outlineRows (snapshot : Snapshot) (path : Bytes) : List FoundDefinition :=
  snapshot.definitions.filterMap fun row => (snapshot.source row.fileId).bind fun source =>
    if source.file.path.1 = path && isOutlined source.file.path row.definition then
      some ⟨source, row⟩
    else none

/-- `file_outline`. -/
def fileOutline (snapshot : Snapshot) (path : Bytes) : List Hit :=
  ((orderBy (fun a b => rowOrder a.row b.row) (outlineRows snapshot path)).take (maxHits + 1)).map
    fun found => outlineHit found.source found.row.definition

/-! ## What a scan stores -/

/-- `INSERT INTO definitions`: the id is the next one. -/
def insertDefinition (fileId : ℤ) (rows : List DefinitionRow) (definition : Definition) :
    List DefinitionRow :=
  rows ++ [⟨(rows.map DefinitionRow.id).max?.getD 0 + 1, fileId, definition.name, definition.kind,
    definition.start, definition.stop, definition.container⟩]

/-- A file of a scan that has contents; nothing is extracted from one that is not source
(`extract` in `extract.rs`). -/
structure StagedFile where
  file : IndexedFile
  source : Bytes
  definitions : List Definition
  language : file.language = language file.path.1
  lexical : file.language = .text → definitions = []

/-- The definitions of a file, with that of the whole file (`stage` in `store/scan.rs`). -/
def StagedFile.stored (staged : StagedFile) : List Definition :=
  staged.definitions ++ if staged.file.language = .text then [] else
    [⟨moduleName staged.file.path, "module", 0, staged.source.length, none⟩]

/-- The files that `load_manifests` and `load_extension_files` read
(`store/php_resolver/xenforo.rs`). -/
def isMetadataPath (path : Bytes) : Bool :=
  ascii "src/addons/" <+: path &&
    (ascii "/addon.json" <:+ path || ascii "/_data/class_extensions.xml" <:+ path)

/-- An add-on, or one of its class extensions. -/
inductive AddonFact where
  | manifest (id : String) (byteLen : ℕ)
  | classExtension (toClass addonId : String) (start stop : ℕ)

/-- What the resolver inserts (`resolve` and `publish_extensions` in
`store/php_resolver/xenforo.rs`). -/
def AddonFact.definition : AddonFact → Definition
  | manifest id byteLen => ⟨id, "addon", 0, byteLen, none⟩
  | classExtension toClass addonId start stop =>
    ⟨toClass, "xenforo_class_extension", start, stop, some addonId⟩

/-- An index: the files of a scan, and what the resolver finds in the metadata among them. -/
structure Index where
  files : List StagedFile
  uniqueIds : (files.map fun staged => staged.file.id).Nodup
  facts : List (StagedFile × AddonFact)
  known : ∀ fact ∈ facts, fact.1 ∈ files ∧ isMetadataPath fact.1.file.path.1

/-- The table of definitions after the loop of `stage` over the files. -/
def stageDefinitions (files : List StagedFile) : List DefinitionRow :=
  files.foldl (fun rows staged => staged.stored.foldl (insertDefinition staged.file.id) rows) []

/-- The table of definitions after the resolver. -/
def Index.definitions (index : Index) : List DefinitionRow :=
  index.facts.foldl (fun rows fact => insertDefinition fact.1.file.id rows fact.2.definition)
    (stageDefinitions index.files)

theorem lt_nextId {rows : List DefinitionRow} {row : DefinitionRow} (h : row ∈ rows) :
    row.id < (rows.map DefinitionRow.id).max?.getD 0 + 1 := by
  have hmem := mem_map_of_mem (f := DefinitionRow.id) h
  cases hmax : (rows.map DefinitionRow.id).max? with
  | none =>
    rw [max?_eq_none_iff.mp hmax] at hmem
    exact absurd hmem not_mem_nil
  | some greatest =>
    have hle := (max?_le_iff hmax).mp le_rfl _ hmem
    show row.id < greatest + 1
    omega

theorem rows_definitions (index : Index) : (index.definitions.Pairwise fun a b => a.id < b.id) ∧
      index.definitions.map (fun row => (row.fileId, row.definition)) =
        (index.files.flatMap fun staged => staged.stored.map fun d => (staged.file.id, d)) ++
          index.facts.map fun fact => (fact.1.file.id, fact.2.definition) := by
  have hflat : index.definitions =
      ((index.files.flatMap fun staged => staged.stored.map fun d => (staged.file.id, d)) ++
        index.facts.map fun fact => (fact.1.file.id, fact.2.definition)).foldl
        (fun rows pair => insertDefinition pair.1 rows pair.2) [] := by
    simp only [Index.definitions, stageDefinitions, foldl_append, foldl_flatMap, foldl_map]
  rw [hflat]
  generalize (index.files.flatMap fun staged => staged.stored.map fun d => (staged.file.id, d)) ++
    index.facts.map (fun fact => (fact.1.file.id, fact.2.definition)) = pairs
  induction pairs using List.reverseRecOn with
  | nil => exact ⟨.nil, rfl⟩
  | append_singleton pairs pair ih =>
    rw [foldl_append, foldl_cons, foldl_nil, insertDefinition, map_append, ih.2]
    refine ⟨pairwise_append.mpr ⟨ih.1, pairwise_singleton .., ?_⟩, rfl⟩
    intro a ha b hb
    rw [mem_singleton.mp hb]
    exact lt_nextId ha

variable {index : Index} {staged : StagedFile} {snapshot : Snapshot} {source : SourceRow}

/-- What the resolver adds to a file. -/
def Index.derived (index : Index) (staged : StagedFile) : List Definition :=
  (index.facts.filter fun fact => fact.1.file.id = staged.file.id).map fun fact => fact.2.definition

/-- The rows of one file have its definitions, in their order, and then what the resolver adds. -/
theorem stored_of_fileId (hstaged : staged ∈ index.files) :
    (index.definitions.filter fun row => row.fileId = staged.file.id).map
      DefinitionRow.definition = staged.stored ++ index.derived staged := by
  have hpairs := congrArg (fun pairs => (pairs.filter fun pair : ℤ × Definition =>
    pair.1 = staged.file.id).map Prod.snd) (rows_definitions index).2
  rw [filter_map, map_map] at hpairs
  refine hpairs.trans ?_
  rw [filter_append, map_append, Index.derived]
  have hids := index.uniqueIds
  obtain ⟨before, after, hfiles⟩ := append_of_mem hstaged
  have hother : ∀ others : List StagedFile, (∀ other ∈ others, other.file.id ≠ staged.file.id) →
      (others.flatMap fun other => other.stored.map fun d => (other.file.id, d)).filter
        (fun pair => pair.1 = staged.file.id) = [] := by
    intro others hne
    simp only [filter_eq_nil_iff, mem_flatMap, mem_map, decide_eq_true_eq]
    rintro _ ⟨other, hmem, d, -, rfl⟩
    exact hne other hmem
  rw [hfiles, map_append, map_cons, nodup_append, nodup_cons] at hids
  obtain ⟨-, ⟨hafter, -⟩, hbefore⟩ := hids
  rw [hfiles, flatMap_append, flatMap_cons, filter_append, filter_append, hother before,
    hother after, filter_eq_self.mpr (by simp)]
  · simp [filter_map, Function.comp_def]
  · exact fun other hmem heq => hafter (heq ▸ mem_map_of_mem hmem)
  · exact fun other hmem => hbefore _ (mem_map_of_mem hmem) _ mem_cons_self

theorem language_of_metadata {path : Bytes} (h : isMetadataPath path = true) :
    language path = .text := by
  simp only [isMetadataPath, Bool.and_eq_true, Bool.or_eq_true, decide_eq_true_eq] at h
  have hextension : extension path = ascii "json" ∨ extension path = ascii "xml" := by
    rcases h.2 with ⟨before, rfl⟩ | ⟨before, rfl⟩
    · left
      rw [extension, rtakeWhile, reverse_append]
      rfl
    · right
      rw [extension, rtakeWhile, reverse_append]
      rfl
  rw [language]
  rcases hextension with h | h <;> rw [h] <;> decide

/-- The resolver adds nothing to a file of source. -/
theorem derived_eq_nil (hstaged : staged ∈ index.files) (h : staged.file.language ≠ .text) :
    index.derived staged = [] := by
  rw [Index.derived, map_eq_nil_iff, filter_eq_nil_iff]
  intro fact hfact hid
  obtain ⟨hmem, hpath⟩ := index.known fact hfact
  obtain rfl := inj_on_of_nodup_map index.uniqueIds hmem hstaged (of_decide_eq_true hid)
  exact h (fact.1.language.trans (language_of_metadata hpath))

/-! ## The outline -/

theorem source_file {id : ℤ}
    (h : snapshot.source id = some source) : source.file ∈ snapshot.files ∧ source.file.id = id := by
  obtain ⟨file, hfile, h⟩ := Option.bind_eq_some_iff.mp h
  obtain ⟨revision, -, h⟩ := Option.bind_eq_some_iff.mp h
  obtain ⟨content, -, h⟩ := Option.bind_eq_some_iff.mp h
  obtain rfl := Option.some.inj h
  exact ⟨mem_of_find?_eq_some hfile, by simpa using find?_some hfile⟩

/-- The rows that the query finds are those of the file. -/
theorem found_rows (hsource : snapshot.source staged.file.id = some source) :
    outlineRows snapshot source.file.path.1 =
      ((snapshot.definitions.filter fun row => row.fileId = staged.file.id).filter fun row =>
        isOutlined source.file.path row.definition).map fun row => ⟨source, row⟩ := by
  rw [outlineRows, filter_filter, ← filterMap_eq_map, filterMap_filter]
  refine filterMap_congr fun row _ => ?_
  by_cases hid : row.fileId = staged.file.id
  · simp [hid, hsource]
  · have hpath : ∀ found, snapshot.source row.fileId = some found →
        found.file.path.1 ≠ source.file.path.1 := by
      intro found hfound heq
      obtain ⟨hmem, hid'⟩ := source_file hfound
      obtain ⟨hmem', hid''⟩ := source_file hsource
      rw [← hid', ← hid''] at hid
      exact hid (by rw [inj_on_of_nodup_map snapshot.uniquePaths hmem hmem' heq])
    cases hfound : snapshot.source row.fileId with
    | none => simp [hid]
    | some found => simp [hid, hpath found hfound]

/-- The query selects what `outline_extracted` keeps, without the rows of whole files. -/
theorem filter_isOutlined (path : EncodedPath) (definitions : List Definition) :
    definitions.filter (isOutlined path) = (definitions.filter fun definition =>
      definition.kind ∈ outlineKinds && definition.container ≠ some foreignItemContainer).filter
        fun definition => !isFileModule path definition := by
  rw [filter_filter]
  refine filter_congr fun definition _ => ?_
  have hcontainer : definition.container.getD "" ≠ foreignItemContainer ↔
      definition.container ≠ some foreignItemContainer := by
    cases definition.container with
    | none => simp [foreignItemContainer]
    | some container => simp
  rw [isOutlined, decide_eq_decide.mpr hcontainer, Bool.and_right_comm, Bool.and_comm]

/-- The index outlines the definitions that were stored for a file, and what the resolver adds. -/
theorem fileOutline_eq
    (hrows : snapshot.definitions = index.definitions) (hstaged : staged ∈ index.files)
    (hsource : snapshot.source staged.file.id = some source) :
    fileOutline snapshot source.file.path.1 =
      ((orderBy outlineOrder ((staged.stored ++ index.derived staged).filter
        (isOutlined source.file.path))).take (maxHits + 1)).map (outlineHit source) := by
  rw [fileOutline, found_rows hsource, hrows]
  set rows := (index.definitions.filter fun row => row.fileId = staged.file.id).filter
    fun row => isOutlined source.file.path row.definition
  have hsorted : rows.Pairwise fun a b => a.id < b.id :=
    (rows_definitions index).1.sublist (filter_sublist.trans filter_sublist)
  have hdefinitions : rows.map DefinitionRow.definition =
      (staged.stored ++ index.derived staged).filter (isOutlined source.file.path) := by
    rw [← stored_of_fileId hstaged, filter_map]
    rfl
  have : Std.TransCmp fun a b : DefinitionRow => outlineOrder a.definition b.definition :=
    transCmp_comap ..
  have hids : rows.Pairwise fun a b => (compareOn DefinitionRow.id a b).isLE = true := by
    refine hsorted.imp fun {a b} hab => ?_
    show (compare a.id b.id).isLE = true
    rw [Int.isLE_compare]
    omega
  rw [orderBy_map, ← hdefinitions, orderBy_map, ← map_take, ← map_take, map_map, map_map]
  show ((orderBy rowOrder rows).take _).map _ = _
  rw [rowOrder, orderBy_compareLex hids]
  rfl

theorem outlineHit_injective (source : SourceRow) : Function.Injective (outlineHit source) := by
  intro a b h
  exact Definition.ext (congrArg Hit.name h) (congrArg Hit.kind h) (congrArg Hit.start h)
    (congrArg Hit.stop h) (congrArg Hit.container h)

/-- The index outlines a file as `outline_extracted` does for its definitions exactly if the
resolver adds no row of the outline to it, and none of the definitions looks like the row of the
whole file. -/
theorem fileOutline_eq_iff {snapshot : Snapshot} {source : SourceRow}
    (hrows : snapshot.definitions = index.definitions) (hstaged : staged ∈ index.files)
    (hsource : snapshot.source staged.file.id = some source) (hfile : source.file = staged.file) :
    fileOutline snapshot staged.file.path.1 =
        ((outlineExtracted staged.definitions).take (maxHits + 1)).map (outlineHit source) ↔
      (∀ definition ∈ index.derived staged, ¬isOutlined staged.file.path definition) ∧
        ∀ definition ∈ (outlineExtracted staged.definitions).take (maxHits + 1),
          ¬isFileModule staged.file.path definition := by
  rw [← hfile, fileOutline_eq hrows hstaged hsource, (outlineHit_injective source).list_map.eq_iff,
    hfile]
  by_cases htext : staged.file.language = .text
  · -- Nothing is extracted from the file; the outline is what the resolver adds.
    have hextracted : outlineExtracted [] = [] := mergeSort_nil
    rw [StagedFile.stored, staged.lexical htext, if_pos htext, hextracted, take_nil,
      take_eq_nil_iff, or_iff_right (Nat.succ_ne_zero maxHits), orderBy_eq_nil_iff,
      filter_eq_nil_iff]
    simp
  · -- The file is one of source; the query leaves out what looks like the row of the whole file.
    have hkept : (staged.stored ++ index.derived staged).filter (isOutlined staged.file.path) =
        staged.definitions.filter (isOutlined staged.file.path) := by
      rw [derived_eq_nil hstaged htext, append_nil, StagedFile.stored, if_neg htext, filter_append]
      simp [isOutlined, isFileModule]
    rw [hkept, filter_isOutlined, ← filter_orderBy]
    show (filter _ (outlineExtracted staged.definitions)).take _ = _ ↔ _
    rw [take_filter_eq_take_iff, derived_eq_nil hstaged htext]
    simp

/-- An index of one file `rs` and of the manifest of an add-on. -/
def addonIndex (definitions : List Definition) : Index :=
  let module : StagedFile := ⟨⟨1, ⟨ascii "rs", by decide⟩, some [1], .rust⟩, ascii "mod rs;",
    definitions, by decide, by simp⟩
  let manifest : StagedFile := ⟨⟨2, ⟨ascii "src/addons/A/addon.json", by decide⟩, some [2], .text⟩,
    ascii "\x7b\x7d", [], by decide, fun _ => rfl⟩
  { files := [module, manifest]
    uniqueIds := show [1, 2].Nodup by decide
    facts := [(manifest, .manifest "A" 2)]
    known := by
      intro fact hfact
      rw [mem_singleton.mp hfact]
      exact ⟨mem_cons_of_mem _ mem_cons_self, by decide⟩ }

/-- The tables of an index. -/
def addonSnapshot (definitions : List Definition) : Snapshot where
  files := (addonIndex definitions).files.map StagedFile.file
  uniqueIds := show [1, 2].Nodup by decide
  uniquePaths := show [ascii "rs", ascii "src/addons/A/addon.json"].Nodup by decide
  contents := [([1], ascii "mod rs;"), ([2], ascii "\x7b\x7d")]
  uniqueRevisions := by decide
  definitions := (addonIndex definitions).definitions
  occurrences := []
  regions := []
  fullText := ⟨fun _ _ => false, fun _ _ => 0⟩

theorem fileOutline_eq_iff_addon :
    let definitions : List Definition := [⟨"a", "module", 0, 6, none⟩, ⟨"f", "function", 6, 7, none⟩]
    ∃ source, fileOutline (addonSnapshot definitions) (ascii "rs") =
      ((outlineExtracted definitions).take (maxHits + 1)).map (outlineHit source) := by
  intro definitions
  have hstaged : (addonIndex definitions).files.head (by decide) ∈ (addonIndex definitions).files :=
    head_mem _
  refine ⟨_, (fileOutline_eq_iff rfl hstaged rfl rfl).mpr ⟨?_, ?_⟩⟩
  · decide
  · intro definition h
    have hmem : definition ∈ definitions :=
      (mem_filter.mp (mem_orderBy.mp (mem_of_mem_take h))).1
    clear h
    revert definition
    decide

/-- A module that is named as its file is only in one of the outlines. -/
theorem fileOutline_drops_module :
    let definitions : List Definition := [⟨"rs", "module", 0, 7, none⟩]
    outlineExtracted definitions = definitions ∧
      fileOutline (addonSnapshot definitions) (ascii "rs") = [] := by
  intro definitions
  have hrows : outlineRows (addonSnapshot definitions) (ascii "rs") = [] := by
    apply List.eq_nil_of_length_eq_zero
    decide +kernel
  constructor
  · exact mergeSort_singleton ..
  · rw [fileOutline, hrows]
    simp [orderBy]

end Trufflepig.Search
