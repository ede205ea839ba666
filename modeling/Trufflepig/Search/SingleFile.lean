import Trufflepig.Search.PathFilterSpec

/-!
# The file that a filter names

Model of `resolve_single_file` and `names_file` (`src/search/path_filter.rs`). The
paths of the `files` table are distinct.

`names_file` looks at one occurrence of a value in the path: the one at the start, or else the
first one after a `/`. The text after it says whether the value ends in the last component.

* `afterValue_eq_some_iff`: which occurrence is looked at.
* `resolveSingleFile_eq_some_iff`: what is returned, in terms of first occurrences.
* `names_any_occurrence_iff`: when that is the same for any occurrence.
-/

namespace Trufflepig.Search

open List Lib

instance : DecidableEq EncodedPath := inferInstanceAs (DecidableEq { path : Bytes // Printable path })

/-! ## Names -/

/-- The text after the first occurrence of another: `find`, and the rest. -/
def afterFirst (needle : Bytes) : Bytes → Option Bytes
  | [] => if needle = [] then some [] else none
  | byte :: rest =>
    if needle <+: byte :: rest then some ((byte :: rest).drop needle.length)
    else afterFirst needle rest

/-- The text after a value in `names_file`: `path[end..]`. -/
def afterValue (path value : Bytes) : Option Bytes :=
  if value <+: path then some (path.drop value.length) else afterFirst (0x2f :: value) path

/-- What may follow a value in the last component. -/
def endsName (rest : Bytes) : Bool :=
  (rest.isEmpty || rest.head? = some 0x2e) && !rest.contains 0x2f

/-- `names_file`. -/
def namesFile (path : Bytes) (values : List FilterValue) : Bool :=
  values.any fun value =>
    match afterValue path value.1 with
    | none => false
    | some rest => endsName rest

/-! ## Resolution -/

/-- The path of a filter with one value, if it is indexed. -/
def exactFile (filter : PathFilter) (paths : List EncodedPath) : Option EncodedPath :=
  match filter.includes, filter.excludes with
  | [value], [] => paths.find? fun path => path.1 = value.1
  | _, _ => none

/-- `SELECT path FROM files f WHERE 1{clause} ORDER BY path LIMIT 2`. -/
def selectTwo (bound : BoundPathFilter) (paths : List EncodedPath) : List EncodedPath :=
  ((paths.filter fun path =>
      Sql.selects (ascii "1" ++ bound.sqlClause Column.path.name)
        (fileRow Column.path path fun _ => none) = some true).mergeSort
    fun a b => a.1 ≤ b.1).take 2

/-- `resolve_single_file`. -/
def resolveSingleFile (filter : PathFilter) (paths : List EncodedPath) : Option EncodedPath :=
  match exactFile filter paths with
  | some path => some path
  | none =>
    let bound := filter.bind paths
    if bound.includes.isEmpty then none
    else
      match selectTwo bound paths with
      | [path] => if namesFile path.1 filter.includes then some path else none
      | _ => none

/-! ## Occurrences -/

/-- A value at the start of a path or right after a `/`, and the rest of the path. -/
def OccursBefore (value path rest : Bytes) : Prop :=
  path = value ++ rest ∨ ∃ before, path = before ++ 0x2f :: (value ++ rest)

/-- The first occurrence: the one with the longest rest. -/
def FirstOccursBefore (value path rest : Bytes) : Prop :=
  OccursBefore value path rest ∧ ∀ other, OccursBefore value path other → other.length ≤ rest.length

variable {path rest : Bytes}

theorem afterFirst_eq_some {needle : Bytes} (h : afterFirst needle path = some rest) :
    (∃ before, path = before ++ (needle ++ rest)) ∧
      ∀ before other, path = before ++ (needle ++ other) → other.length ≤ rest.length := by
  fun_induction afterFirst needle path with
  | case1 hempty =>
    obtain rfl := Option.some.inj h
    rw [hempty]
    refine ⟨⟨[], rfl⟩, fun before other hpath => ?_⟩
    have hnil := (append_eq_nil_iff.mp hpath.symm).2
    rw [(append_eq_nil_iff.mp hnil).2]
  | case2 => exact nomatch h
  | case3 byte tail hprefix =>
    obtain rfl := Option.some.inj h
    obtain ⟨after, hafter⟩ := hprefix
    refine ⟨⟨[], ?_⟩, fun before other hpath => ?_⟩
    · rw [← hafter, drop_left, nil_append]
    · have hlength := congrArg List.length hpath
      simp only [length_append] at hlength
      rw [length_drop]
      omega
  | case4 byte tail hprefix ih =>
    obtain ⟨⟨before, hbefore⟩, hfirst⟩ := ih h
    refine ⟨⟨byte :: before, by rw [hbefore]; rfl⟩, fun before' other hpath => ?_⟩
    cases before' with
    | nil => exact absurd ⟨other, hpath.symm⟩ hprefix
    | cons byte' before' => exact hfirst before' other (List.cons.inj hpath).2

theorem afterFirst_eq_none {needle : Bytes} (h : afterFirst needle path = none) :
    ∀ before rest, path ≠ before ++ (needle ++ rest) := by
  fun_induction afterFirst needle path with
  | case1 => exact nomatch h
  | case2 hne =>
    intro before rest hpath
    have hnil := (append_eq_nil_iff.mp hpath.symm).2
    exact hne (append_eq_nil_iff.mp hnil).1
  | case3 => exact nomatch h
  | case4 byte tail hprefix ih =>
    intro before rest hpath
    cases before with
    | nil => exact hprefix ⟨rest, hpath.symm⟩
    | cons byte' before => exact ih h before rest (List.cons.inj hpath).2

variable {value : Bytes}

theorem afterValue_first (h : afterValue path value = some rest) :
    FirstOccursBefore value path rest := by
  unfold afterValue at h
  split_ifs at h with hprefix
  · obtain rfl := Option.some.inj h
    obtain ⟨after, rfl⟩ := hprefix
    rw [drop_left]
    refine ⟨.inl rfl, ?_⟩
    rintro other (hpath | ⟨before, hpath⟩)
    · rw [append_cancel_left hpath]
    · have hlength := congrArg List.length hpath
      simp only [length_append, length_cons] at hlength
      omega
  · obtain ⟨⟨before, hbefore⟩, hfirst⟩ := afterFirst_eq_some h
    refine ⟨.inr ⟨before, hbefore⟩, ?_⟩
    rintro other (hpath | ⟨before', hpath⟩)
    · exact absurd ⟨other, hpath.symm⟩ hprefix
    · exact hfirst before' other hpath

theorem not_occurs_of_afterValue (h : afterValue path value = none) (rest : Bytes) :
    ¬ OccursBefore value path rest := by
  unfold afterValue at h
  split_ifs at h with hprefix
  rintro (hpath | ⟨before, hpath⟩)
  · exact hprefix ⟨rest, hpath.symm⟩
  · exact afterFirst_eq_none h before rest hpath

theorem OccursBefore.drop (h : OccursBefore value path rest) :
    rest = path.drop (path.length - rest.length) := by
  rcases h with rfl | ⟨before, rfl⟩
  · rw [length_append, Nat.add_sub_cancel, drop_left]
  · have hassoc : before ++ 0x2f :: (value ++ rest) = (before ++ 0x2f :: value) ++ rest := by simp
    rw [hassoc, length_append, Nat.add_sub_cancel, drop_left]

/-- The occurrence that is looked at is the first one. -/
theorem afterValue_eq_some_iff :
    afterValue path value = some rest ↔ FirstOccursBefore value path rest := by
  refine ⟨afterValue_first, fun h => ?_⟩
  cases hafter : afterValue path value with
  | none => exact absurd h.1 (not_occurs_of_afterValue hafter rest)
  | some found =>
    have hfound := afterValue_first hafter
    have hlength : found.length = rest.length :=
      Nat.le_antisymm (h.2 found hfound.1) (hfound.2 rest h.1)
    rw [hfound.1.drop, hlength, ← h.1.drop]

/-- A value names a path at an occurrence that is followed by the end or a suffix of the name. -/
def NamesAt (occurs : Bytes → Bytes → Bytes → Prop) (filter : PathFilter) (path : EncodedPath) :
    Prop :=
  ∃ value ∈ filter.includes, ∃ rest, occurs value.1 path.1 rest ∧ endsName rest = true

theorem namesFile_iff (filter : PathFilter) (path : EncodedPath) :
    namesFile path.1 filter.includes = true ↔ NamesAt FirstOccursBefore filter path := by
  unfold namesFile NamesAt
  rw [any_eq_true]
  refine exists_congr fun value => and_congr_right fun _ => ?_
  constructor
  · intro h
    split at h
    · exact nomatch h
    · next rest hrest => exact ⟨rest, afterValue_eq_some_iff.mp hrest, h⟩
  · rintro ⟨rest, hrest, hends⟩
    rw [afterValue_eq_some_iff.mpr hrest]
    exact hends

/-! ## The only path -/

/-- The path is the only indexed one that the bound filter accepts. -/
def OnlyAccepted (filter : PathFilter) (paths : List EncodedPath) (path : EncodedPath) : Prop :=
  (path ∈ paths ∧ (filter.bind paths).matchesPath path.1 = true) ∧
    ∀ other ∈ paths, (filter.bind paths).matchesPath other.1 = true → other = path

theorem selectTwo_eq (bound : BoundPathFilter) (paths : List EncodedPath) :
    selectTwo bound paths =
      ((paths.filter fun path => bound.matchesPath path.1).mergeSort fun a b => a.1 ≤ b.1).take 2 := by
  unfold selectTwo
  congr 2
  refine filter_congr fun path _ => ?_
  rw [selects_sqlClause Column.path bound path fun _ => none]
  simp

theorem take_two_eq_singleton {α : Type} {xs : List α} {a : α} : xs.take 2 = [a] ↔ xs = [a] := by
  rcases xs with _ | ⟨x, _ | ⟨y, xs⟩⟩ <;> simp

theorem selectTwo_eq_singleton_iff {filter : PathFilter} {paths : List EncodedPath}
    (hnodup : paths.Nodup) {path : EncodedPath} :
    selectTwo (filter.bind paths) paths = [path] ↔ OnlyAccepted filter paths path := by
  have hperm := mergeSort_perm
    (paths.filter fun path => (filter.bind paths).matchesPath path.1) fun a b => decide (a.1 ≤ b.1)
  rw [selectTwo_eq, take_two_eq_singleton]
  constructor
  · intro h
    rw [h] at hperm
    have hmem : ∀ other, other ∈ paths ∧ (filter.bind paths).matchesPath other.1 = true ↔
        other = path := by
      intro other
      have hiff := hperm.mem_iff (a := other)
      rw [mem_singleton, mem_filter] at hiff
      exact hiff.symm
    exact ⟨(hmem path).mpr rfl, fun other hother hmatches => (hmem other).mp ⟨hother, hmatches⟩⟩
  · rintro ⟨hpath, honly⟩
    have hsingle : (paths.filter fun path => (filter.bind paths).matchesPath path.1) = [path] := by
      refine perm_singleton.mp ((perm_ext_iff_of_nodup (hnodup.filter _)
        (nodup_singleton path)).mpr fun other => ?_)
      rw [mem_filter, mem_singleton]
      exact ⟨fun h => honly other h.1 h.2, fun h => h ▸ hpath⟩
    rw [hsingle, mergeSort_singleton]

/-- The path that is returned is named at a first occurrence. -/
theorem resolveSingleFile_eq_some_iff {filter : PathFilter} {paths : List EncodedPath}
    (hnodup : paths.Nodup) (hinclude : filter.includes ≠ [])
    (hexact : exactFile filter paths = none) {path : EncodedPath} :
    resolveSingleFile filter paths = some path ↔
      OnlyAccepted filter paths path ∧ NamesAt FirstOccursBefore filter path := by
  have hbound : (filter.bind paths).includes.isEmpty = false := by
    show (filter.includes.map _).isEmpty = false
    rw [isEmpty_map]
    exact isEmpty_eq_false_iff.mpr hinclude
  unfold resolveSingleFile
  rw [hexact]
  dsimp only
  rw [hbound, if_neg (by simp), ← selectTwo_eq_singleton_iff hnodup, ← namesFile_iff]
  constructor
  · intro h
    split at h
    · next found hfound =>
      split_ifs at h with hnames
      obtain rfl := Option.some.inj h
      exact ⟨hfound, hnames⟩
    · exact nomatch h
  · rintro ⟨hselect, hnames⟩
    rw [hselect]
    exact if_pos hnames

/-- The path that is returned is the only accepted one, if any occurrence of a value names it,
exactly when a value that names the only accepted path at any occurrence leaves one that does
at its first. -/
theorem names_any_occurrence_iff (filter : PathFilter) (paths : List EncodedPath)
    (hnodup : paths.Nodup) (hinclude : filter.includes ≠ [])
    (hexact : exactFile filter paths = none) :
    (∀ path, resolveSingleFile filter paths = some path ↔
      OnlyAccepted filter paths path ∧ NamesAt OccursBefore filter path) ↔
    ∀ path, OnlyAccepted filter paths path → NamesAt OccursBefore filter path →
      NamesAt FirstOccursBefore filter path := by
  constructor
  · intro h path honly hnames
    exact ((resolveSingleFile_eq_some_iff hnodup hinclude hexact).mp ((h path).mpr ⟨honly, hnames⟩)).2
  · intro h path
    rw [resolveSingleFile_eq_some_iff hnodup hinclude hexact]
    refine and_congr_right fun honly => ⟨?_, h path honly⟩
    rintro ⟨value, hvalue, rest, hrest, hends⟩
    exact ⟨value, hvalue, rest, hrest.1, hends⟩

/-- The filter of `map src/host`. -/
def srcHost : PathFilter := ⟨[⟨ascii "src/host", by decide +kernel, by decide +kernel⟩], []⟩

/-- The filter of `map host.rs`. -/
def hostRs : PathFilter := ⟨[⟨ascii "host.rs", by decide +kernel, by decide +kernel⟩], []⟩

/-- A file with a name that starts the name of its directory. -/
def nestedHostRs : EncodedPath := ⟨ascii "lib/host.rs.d/host.rs", by decide +kernel⟩

/-- A file that the filter of `map src/host` names. -/
def hostFile : EncodedPath := ⟨ascii "a/src/host.rs", by decide +kernel⟩

theorem names_any_occurrence_srcHost :
    resolveSingleFile srcHost [hostFile, nestedHostRs] = some hostFile ↔
      OnlyAccepted srcHost [hostFile, nestedHostRs] hostFile ∧
        NamesAt OccursBefore srcHost hostFile := by
  refine (names_any_occurrence_iff _ _ (by decide +kernel) (cons_ne_nil _ _)
    (by decide +kernel)).mpr ?_ hostFile
  rintro path ⟨⟨hmem, hmatches⟩, -⟩ -
  rcases mem_cons.mp hmem with rfl | hmem
  · refine (namesFile_iff _ _).mp ?_
    decide +kernel
  · obtain rfl := mem_singleton.mp hmem
    exact absurd hmatches (by decide +kernel)

/-- The only path is named by the value, but not at its first occurrence, and is not returned. -/
theorem second_occurrence_missed :
    resolveSingleFile hostRs [nestedHostRs] = none ∧ exactFile hostRs [nestedHostRs] = none ∧
      OnlyAccepted hostRs [nestedHostRs] nestedHostRs ∧
      NamesAt OccursBefore hostRs nestedHostRs := by
  refine ⟨?_, by decide +kernel, ⟨⟨mem_singleton.mpr rfl, by decide +kernel⟩,
    fun other hother _ => mem_singleton.mp hother⟩, ?_⟩
  · rw [Option.eq_none_iff_forall_ne_some]
    intro path h
    obtain ⟨honly, hnames⟩ := (resolveSingleFile_eq_some_iff (nodup_singleton _)
      (cons_ne_nil _ _) (by decide +kernel)).mp h
    obtain rfl := mem_singleton.mp honly.1.1
    exact absurd ((namesFile_iff _ _).mpr hnames) (by decide +kernel)
  · exact ⟨_, mem_singleton.mpr rfl, [], .inr ⟨ascii "lib/host.rs.d", by decide +kernel⟩,
      by decide +kernel⟩

end Trufflepig.Search
