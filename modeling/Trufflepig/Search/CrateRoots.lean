import Trufflepig.Search.QualifiedName

/-!
# Roots of crates (`search/qualified_name.rs`)

`crate_root_segments` finds the last `src` directory of a path by its text: the last occurrence of
`src/`, if a component begins there. What it finds is compared with the directories of the path.

* `rfindText_src`: the last occurrence is in the last directory whose name ends in `src`.
* `moduleSegments_text`: the segments of a path, by components.
* `crateRootSegments_iff`: the paths whose directories before `src` are found.
-/

namespace Trufflepig.Search

open List Lib

def srcWord : List Char := ['s', 'r', 'c']

/-- `rfind`: the text before the last occurrence of the needle, and the text from there on. -/
def rfindText (needle : List Char) : List Char → Option (List Char × List Char)
  | [] => if needle = [] then some ([], []) else none
  | c :: rest =>
    match rfindText needle rest with
    | some (before, found) => some (c :: before, found)
    | none => if needle <+: c :: rest then some ([], c :: rest) else none

/-- `trim_end_matches('/')`. -/
def trimEndSlashes (text : List Char) : List Char := text.rdropWhile (· = '/')

/-- `crate_root_segments`. -/
def crateRootSegments (path : List Char) : List (List Char) :=
  match rfindText "src/".toList path with
  | some (before, _) =>
    if before = [] ∨ before.getLast? = some '/' then moduleSegments (trimEndSlashes before) else []
  | none => []

/-! ## Paths -/

/-- The path of an indexed file, by components. -/
structure IndexedPath where
  dirs : List (List Char)
  file : List Char
  names : ∀ name ∈ dirs ++ [file], name ≠ [] ∧ '/' ∉ name

/-- Directories, each with its separator. -/
def dirText (dirs : List (List Char)) : List Char := dirs.flatMap fun dir => dir ++ ['/']

def pathText (dirs : List (List Char)) (file : List Char) : List Char := dirText dirs ++ file

/-- The path as the index stores it. -/
def IndexedPath.text (path : IndexedPath) : List Char := pathText path.dirs path.file

/-- The components that are segments of a module, as `module_segments` names them. -/
def segmentNames (parts : List (List Char)) : List (List Char) :=
  (parts.filter fun part => part ∉ ["".toList, "src".toList, "mod".toList,
    "lib".toList, "main".toList, "index".toList]).map fun part =>
      part.map fun c => if c = '-' then '_' else c

/-- The segments of the directories before the last one that is `src`. -/
def rootSegments (dirs : List (List Char)) : List (List Char) :=
  match rsplitOnce srcWord dirs with
  | some (before, _) => segmentNames before
  | none => []

@[simp] theorem dirText_nil : dirText [] = [] := rfl

@[simp] theorem dirText_cons (dir : List Char) (dirs : List (List Char)) :
    dirText (dir :: dirs) = dir ++ '/' :: dirText dirs := by
  simp [dirText]

theorem dirText_append (xs ys : List (List Char)) :
    dirText (xs ++ ys) = dirText xs ++ dirText ys := flatMap_append

theorem dirText_concat (dirs : List (List Char)) (dir : List Char) :
    dirText (dirs ++ [dir]) = pathText dirs dir ++ ['/'] := by
  rw [dirText_append, pathText]
  simp

variable {dirs : List (List Char)}

/-- Directories with their separators end in one. -/
theorem getLast?_dirText (h : dirs ≠ []) : (dirText dirs).getLast? = some '/' := by
  obtain ⟨parents, dir, rfl⟩ := (eq_nil_or_concat' dirs).resolve_left h
  rw [dirText_concat, getLast?_concat]

variable {file : List Char}

theorem splitOn_pathText (hdirs : ∀ dir ∈ dirs, '/' ∉ dir) (hfile : '/' ∉ file) :
    (pathText dirs file).splitOn '/' = dirs ++ [file] := by
  unfold pathText
  induction dirs with
  | nil => exact splitOn_eq_singleton hfile
  | cons dir dirs ih =>
    rw [dirText_cons, append_assoc, cons_append,
      splitOn_append_cons_self_of_not_mem (hdirs dir mem_cons_self),
      ih fun other hother => hdirs other (mem_cons_of_mem dir hother)]
    rfl

/-- A separator of a path is the one of a directory. -/
theorem pathText_eq_append_slash {x rest : List Char} (hdirs : ∀ dir ∈ dirs, '/' ∉ dir)
    (hfile : '/' ∉ file) (h : pathText dirs file = x ++ '/' :: rest) :
    ∃ before dir after, dirs = before ++ dir :: after ∧ x = dirText before ++ dir ∧
      rest = pathText after file := by
  unfold pathText at h
  induction dirs generalizing x with
  | nil =>
    change file = x ++ '/' :: rest at h
    exact absurd (h ▸ by simp) hfile
  | cons dir dirs ih =>
    have hdir : '/' ∉ dir := hdirs dir mem_cons_self
    rw [dirText_cons, append_assoc, cons_append] at h
    -- The separator is the one of `dir`, or comes behind it.
    rcases append_cases h with ⟨c, tail, hdir', htail⟩ | ⟨rfl, htail⟩ | ⟨c, tail, rfl, htail⟩
    · obtain ⟨rfl, -⟩ := List.cons.inj htail
      exact absurd (hdir' ▸ by simp) hdir
    · exact ⟨[], dir, dirs, rfl, rfl, (List.cons.inj htail).2.symm⟩
    · obtain ⟨rfl, hbehind⟩ := List.cons.inj htail
      obtain ⟨before, found, after, rfl, rfl, hrest⟩ :=
        ih (fun other hother => hdirs other (mem_cons_of_mem dir hother)) hbehind
      refine ⟨dir :: before, found, after, rfl, ?_, hrest⟩
      rw [dirText_cons, append_assoc, cons_append]

/-! ## The last occurrence -/

theorem rfindText_eq_none {needle text : List Char} (h : ∀ before found,
    text = before ++ found → ¬needle <+: found) : rfindText needle text = none := by
  induction text with
  | nil =>
    have hne : needle ≠ [] := fun hnil => h [] [] rfl (hnil ▸ nil_prefix)
    rw [rfindText, if_neg hne]
  | cons c rest ih =>
    have hrest := ih fun before found heq => h (c :: before) found (by rw [heq, cons_append])
    rw [rfindText, hrest]
    exact if_neg (h [] (c :: rest) rfl)

theorem rfindText_eq_some {needle before found : List Char} (hneedle : needle ≠ [])
    (hfound : needle <+: found)
    (hlast : ∀ skipped rest, found = skipped ++ rest → needle <+: rest → skipped = []) :
    rfindText needle (before ++ found) = some (before, found) := by
  induction before with
  | nil =>
    cases found with
    | nil => exact absurd (prefix_nil.mp hfound) hneedle
    | cons c rest =>
      have hrest : rfindText needle rest = none := by
        refine rfindText_eq_none fun before found heq hoccurs => ?_
        exact cons_ne_nil c before (hlast (c :: before) found (by rw [heq, cons_append]) hoccurs)
      rw [nil_append, rfindText, hrest]
      exact if_pos hfound
  | cons c before ih =>
    rw [cons_append, rfindText, ih]

theorem suffix_srcWord_of_append {dir x : List Char} (h : x ++ srcWord = dirText dirs ++ dir) :
    srcWord <:+ dir := by
  rcases append_cases h with ⟨next, rest, -, rfl⟩ | ⟨-, rfl⟩ | ⟨next, rest, hdirs, hsrc⟩
  · exact suffix_append ..
  · exact suffix_refl _
  · -- A separator would be a part of `src`.
    have hne : dirs ≠ [] := by
      rintro rfl
      simp at hdirs
    have hlast := getLast?_dirText hne
    rw [hdirs, getLast?_append_cons] at hlast
    have hmem : '/' ∈ srcWord := hsrc ▸ mem_append_left _ (mem_of_getLast? hlast)
    exact absurd hmem (by decide)

/-- An occurrence of `src/` is the end of the name of a directory. -/
theorem occurrence_src {before found : List Char} (hdirs : ∀ dir ∈ dirs, '/' ∉ dir)
    (hfile : '/' ∉ file) (h : pathText dirs file = before ++ found)
    (hfound : "src/".toList <+: found) :
    ∃ parents dir after start, dirs = parents ++ dir :: after ∧ dir = start ++ srcWord ∧
      before = dirText parents ++ start := by
  obtain ⟨rest, rfl⟩ := hfound
  have hslash : pathText dirs file = (before ++ srcWord) ++ '/' :: rest := by
    rw [h, append_assoc]
    rfl
  obtain ⟨parents, dir, after, rfl, hx, -⟩ := pathText_eq_append_slash hdirs hfile hslash
  obtain ⟨start, hstart⟩ := suffix_srcWord_of_append hx
  refine ⟨parents, dir, after, start, rfl, hstart.symm, ?_⟩
  rw [← hstart, ← append_assoc] at hx
  exact append_cancel_right hx

theorem rfindText_src_none (hdirs : ∀ dir ∈ dirs, '/' ∉ dir) (hfile : '/' ∉ file)
    (hnone : ∀ dir ∈ dirs, ¬srcWord <:+ dir) :
    rfindText "src/".toList (pathText dirs file) = none := by
  refine rfindText_eq_none fun before found heq hoccurs => ?_
  obtain ⟨parents, dir, after, start, rfl, hdir, -⟩ := occurrence_src hdirs hfile heq hoccurs
  exact hnone dir (by simp) ⟨start, hdir.symm⟩

variable {after : List (List Char)}

/-- The last occurrence is in the last directory whose name ends in `src`. -/
theorem rfindText_src {parents : List (List Char)} {start : List Char}
    (hafter : ∀ dir ∈ after, '/' ∉ dir) (hfile : '/' ∉ file)
    (hnone : ∀ dir ∈ after, ¬srcWord <:+ dir) :
    rfindText "src/".toList (pathText (parents ++ (start ++ srcWord) :: after) file) =
      some (dirText parents ++ start, pathText (srcWord :: after) file) := by
  have hsplit : pathText (parents ++ (start ++ srcWord) :: after) file =
      (dirText parents ++ start) ++ pathText (srcWord :: after) file := by
    simp [pathText, dirText_append]
  rw [hsplit]
  refine rfindText_eq_some (by decide) ?_ ?_
  · exact ⟨pathText after file, by simp [pathText, srcWord]⟩
  · intro skipped rest heq hoccurs
    have hnames : ∀ dir ∈ srcWord :: after, '/' ∉ dir :=
      forall_mem_cons.mpr ⟨by decide, hafter⟩
    obtain ⟨before, dir, behind, start, hdirs, hdir, rfl⟩ :=
      occurrence_src hnames hfile heq hoccurs
    cases before with
    | nil =>
      have hsrc : srcWord = start ++ srcWord := (List.cons.inj hdirs).1.trans hdir
      have hstart : start = [] := self_eq_append_left.mp hsrc
      rw [hstart]
      rfl
    | cons first before =>
      have hmem : dir ∈ after := by
        rw [(List.cons.inj hdirs).2]
        simp
      exact absurd ⟨start, hdir.symm⟩ (hnone dir hmem)

/-! ## Segments -/

/-- The name of a file without its extension. -/
def stemOf (file : List Char) : List Char :=
  match rsplitOnce '.' file with
  | some (stem, _) => stem
  | none => file

theorem mem_stemOf {c : Char} (h : c ∈ stemOf file) : c ∈ file := by
  unfold stemOf at h
  split at h
  · next stem extension heq =>
    rw [(rsplitOnce_eq_some heq).1]
    exact mem_append_left _ h
  · exact h

/-- The text that `module_segments` splits. -/
theorem stem_pathText (hfile : '/' ∉ file) : (match rsplitOnce '.' (pathText dirs file) with
      | none => pathText dirs file
      | some (stem, extension) => if '/' ∈ extension then pathText dirs file else stem) =
      pathText dirs (stemOf file) := by
  unfold pathText stemOf
  rw [rsplitOnce_append]
  cases hdot : rsplitOnce '.' file with
  | some parts =>
    have hslash : '/' ∉ parts.2 := fun hmem => hfile (by
      rw [(rsplitOnce_eq_some hdot).1]
      exact mem_append_right _ (mem_cons_of_mem _ hmem))
    exact if_neg hslash
  | none =>
    cases hdirs : rsplitOnce '.' (dirText dirs) with
    | none => rfl
    | some parts =>
      -- The last dot is in a directory, whose separator comes behind it.
      obtain ⟨heq, -⟩ := rsplitOnce_eq_some hdirs
      have hne : dirs ≠ [] := by
        rintro rfl
        exact nomatch hdirs
      have hlast : ('.' :: parts.2).getLast? = some '/' := by
        rw [← getLast?_dirText hne, heq, getLast?_append_of_ne_nil _ (cons_ne_nil _ _)]
      have hmem : '/' ∈ '.' :: parts.2 := mem_of_getLast? hlast
      have hslash : '/' ∈ parts.2 ++ file :=
        mem_append_left _ ((mem_cons.mp hmem).resolve_left (by decide))
      exact if_pos hslash

/-- The segments of a path, by components. -/
theorem moduleSegments_text (hdirs : ∀ dir ∈ dirs, '/' ∉ dir) (hfile : '/' ∉ file) :
    moduleSegments (pathText dirs file) = segmentNames (dirs ++ [stemOf file]) := by
  have hstem : moduleSegments (pathText dirs file) =
      segmentNames ((pathText dirs (stemOf file)).splitOn '/') :=
    congrArg (fun stem : List Char => segmentNames (stem.splitOn '/')) (stem_pathText hfile)
  rw [hstem, splitOn_pathText hdirs fun hmem => hfile (mem_stemOf hmem)]

theorem segmentNames_append (xs ys : List (List Char)) :
    segmentNames (xs ++ ys) = segmentNames xs ++ segmentNames ys := by
  unfold segmentNames
  rw [filter_append, map_append]

/-- A name with a dot is a segment. -/
theorem length_segmentNames (name : List Char) :
    (segmentNames [name]).flatten.length ≤ name.length ∧
      ('.' ∈ name → (segmentNames [name]).flatten.length = name.length) := by
  unfold segmentNames
  by_cases hname : name ∈ ["".toList, "src".toList, "mod".toList, "lib".toList, "main".toList,
      "index".toList]
  · have hdot : ∀ name ∈ ["".toList, "src".toList, "mod".toList, "lib".toList, "main".toList,
        "index".toList], '.' ∉ name := by decide
    rw [filter_cons_of_neg (by rwa [decide_eq_true_eq, not_not])]
    exact ⟨Nat.zero_le _, fun hmem => absurd hmem (hdot name hname)⟩
  · rw [filter_cons_of_pos (by rwa [decide_eq_true_eq])]
    simp

/-- The name of a directory with a dot is not a segment without what is behind the dot. -/
theorem segmentNames_stemOf {dir : List Char} :
    segmentNames [stemOf dir] = segmentNames [dir] ↔ '.' ∉ dir := by
  unfold stemOf
  cases hdot : rsplitOnce '.' dir with
  | none => exact iff_of_true rfl (rsplitOnce_eq_none.mp hdot)
  | some parts =>
    obtain ⟨rfl, -⟩ := rsplitOnce_eq_some hdot
    refine iff_of_false (fun hsame => ?_) (by simp)
    have hshorter := (length_segmentNames parts.1).1
    have hlong := (length_segmentNames (parts.1 ++ '.' :: parts.2)).2 (by simp)
    rw [← show segmentNames [parts.1] = _ from hsame, length_append, length_cons] at hlong
    omega

/-- The segments of directories whose text is cut before `src`. -/
theorem moduleSegments_trimEnd (hdirs : ∀ dir ∈ dirs, dir ≠ [] ∧ '/' ∉ dir) :
    moduleSegments (trimEndSlashes (dirText dirs)) = segmentNames dirs ↔
      ∀ dir, dirs.getLast? = some dir → '.' ∉ dir := by
  rcases eq_nil_or_concat' dirs with rfl | ⟨parents, dir, rfl⟩
  · refine iff_of_true ?_ fun dir h => nomatch h
    decide
  · obtain ⟨hne, hslash⟩ := hdirs dir (by simp)
    have htrim : trimEndSlashes (dirText (parents ++ [dir])) = pathText parents dir := by
      unfold trimEndSlashes
      rw [dirText_concat, rdropWhile_concat_pos _ _ _ (by simp), rdropWhile_eq_self_iff]
      intro hpath hlast
      have hlast' : '/' ∈ dir := by
        unfold pathText at hpath hlast
        rw [getLast_append_of_ne_nil _ hne] at hlast
        have hmem := getLast_mem hne
        rwa [of_decide_eq_true hlast] at hmem
      exact hslash hlast'
    rw [htrim, moduleSegments_text (fun other hother => (hdirs other (by simp [hother])).2) hslash,
      segmentNames_append, segmentNames_append, append_right_inj, segmentNames_stemOf,
      getLast?_concat]
    simp

/-! ## Roots -/

/-- The directories for which the root is found: none is `src`; or no directory behind the last
`src` ends in it and the one before it has no dot; or there is nothing to find. -/
def RootFound (dirs : List (List Char)) : Prop :=
  match rsplitOnce srcWord dirs with
  | none => True
  | some (before, after) =>
    if ∃ dir ∈ after, srcWord <:+ dir then segmentNames before = []
    else ∀ dir, before.getLast? = some dir → '.' ∉ dir

/-- The last directory whose name ends in `src`. -/
theorem exists_last_src (dirs : List (List Char)) :
    (∀ dir ∈ dirs, ¬srcWord <:+ dir) ∨ ∃ before start after,
      dirs = before ++ (start ++ srcWord) :: after ∧ ∀ dir ∈ after, ¬srcWord <:+ dir := by
  induction dirs with
  | nil => exact .inl fun dir hdir => nomatch hdir
  | cons dir dirs ih =>
    rcases ih with hnone | ⟨before, start, after, rfl, hafter⟩
    · by_cases hdir : srcWord <:+ dir
      · obtain ⟨start, rfl⟩ := hdir
        exact .inr ⟨[], start, dirs, rfl, hnone⟩
      · exact .inl (forall_mem_cons.mpr ⟨hdir, hnone⟩)
    · exact .inr ⟨dir :: before, start, after, rfl, hafter⟩

theorem srcWord_not_mem (h : ∀ dir ∈ dirs, ¬srcWord <:+ dir) :
    srcWord ∉ dirs := fun hmem => h srcWord hmem (suffix_refl _)

variable {before : List (List Char)}

/-- The root of a path whose last directory with a name in `src` is `src` itself. -/
theorem crateRootSegments_src (hafter : ∀ dir ∈ after, '/' ∉ dir) (hfile : '/' ∉ file)
    (hlast : ∀ dir ∈ after, ¬srcWord <:+ dir) :
    crateRootSegments (pathText (before ++ srcWord :: after) file) =
      moduleSegments (trimEndSlashes (dirText before)) := by
  have hfind : rfindText "src/".toList (pathText (before ++ ([] ++ srcWord) :: after) file) =
      some (dirText before ++ [], pathText (srcWord :: after) file) :=
    rfindText_src hafter hfile hlast
  rw [nil_append, append_nil] at hfind
  have hstart : dirText before = [] ∨ (dirText before).getLast? = some '/' := by
    by_cases hbefore : before = []
    · exact .inl (hbefore ▸ rfl)
    · exact .inr (getLast?_dirText hbefore)
  unfold crateRootSegments
  rw [hfind]
  exact if_pos hstart

/-- A longer name that ends in `src` hides every root. -/
theorem crateRootSegments_hidden {start : List Char} (hafter : ∀ dir ∈ after, '/' ∉ dir)
    (hfile : '/' ∉ file) (hlast : ∀ dir ∈ after, ¬srcWord <:+ dir) (hstart : start ≠ [])
    (hslash : '/' ∉ start) :
    crateRootSegments (pathText (before ++ (start ++ srcWord) :: after) file) = [] := by
  have hinside : ¬(dirText before ++ start = [] ∨
      (dirText before ++ start).getLast? = some '/') := by
    rintro (hnil | hend)
    · exact hstart (append_eq_nil_iff.mp hnil).2
    · rw [getLast?_append_of_ne_nil _ hstart] at hend
      exact hslash (mem_of_getLast? hend)
  unfold crateRootSegments
  rw [rfindText_src hafter hfile hlast]
  exact if_neg hinside

theorem crateRootSegments_none (hdirs : ∀ dir ∈ dirs, '/' ∉ dir) (hfile : '/' ∉ file)
    (hnone : ∀ dir ∈ dirs, ¬srcWord <:+ dir) : crateRootSegments (pathText dirs file) = [] := by
  unfold crateRootSegments
  rw [rfindText_src_none hdirs hfile hnone]

/-- The directories that are compared, by their last `src`. -/
theorem rsplitOnce_src (h : srcWord ∉ after) :
    rsplitOnce srcWord (before ++ srcWord :: after) = some (before, after) := by
  rw [rsplitOnce_append, rsplitOnce, rsplitOnce_eq_none.mpr h]
  simp

/-- The root that is found is the one of the directories exactly if it can be found. -/
theorem crateRootSegments_eq_iff (path : IndexedPath) :
    crateRootSegments path.text = rootSegments path.dirs ↔ RootFound path.dirs := by
  obtain ⟨dirs, file, hnames⟩ := path
  have hdirs : ∀ dir ∈ dirs, dir ≠ [] ∧ '/' ∉ dir := fun dir hdir => hnames dir (by simp [hdir])
  have hfile : '/' ∉ file := (hnames file (by simp)).2
  show crateRootSegments (pathText dirs file) = rootSegments dirs ↔ RootFound dirs
  unfold rootSegments RootFound
  rcases exists_last_src dirs with hnone | ⟨before, start, after, rfl, hafter⟩
  · rw [rsplitOnce_eq_none.mpr (srcWord_not_mem hnone)]
    exact iff_of_true (crateRootSegments_none (fun dir hdir => (hdirs dir hdir).2) hfile hnone)
      trivial
  · have hslash : ∀ dir ∈ after, '/' ∉ dir := fun dir hdir => (hdirs dir (by simp [hdir])).2
    by_cases hstart : start = []
    · subst hstart
      have hno : ¬∃ dir ∈ after, srcWord <:+ dir := fun ⟨dir, hdir, hsrc⟩ => hafter dir hdir hsrc
      rw [nil_append, rsplitOnce_src (srcWord_not_mem hafter),
        crateRootSegments_src hslash hfile hafter]
      simp only [if_neg hno]
      exact moduleSegments_trimEnd fun dir hdir => hdirs dir (by simp [hdir])
    · have hname : '/' ∉ start := fun hmem =>
        (hdirs (start ++ srcWord) (by simp)).2 (mem_append_left _ hmem)
      rw [crateRootSegments_hidden hslash hfile hafter hstart hname]
      -- The last `src` is before the directory that hides it.
      have hne : srcWord ∉ (start ++ srcWord) :: after := by
        rw [mem_cons, not_or]
        refine ⟨fun heq => hstart (self_eq_append_left.mp heq), srcWord_not_mem hafter⟩
      rw [rsplitOnce_append, rsplitOnce_eq_none.mpr hne]
      cases hbefore : rsplitOnce srcWord before with
      | none => exact iff_of_true rfl trivial
      | some parts =>
        have hhidden : ∃ dir ∈ parts.2 ++ (start ++ srcWord) :: after, srcWord <:+ dir :=
          ⟨start ++ srcWord, by simp, suffix_append ..⟩
        simp only [Option.map_some, if_pos hhidden]
        exact eq_comm

/-- The directories before `src` come first in the path. -/
theorem rootSegments_prefix (path : IndexedPath) :
    rootSegments path.dirs <+: moduleSegments path.text := by
  obtain ⟨dirs, file, hnames⟩ := path
  have hdirs : ∀ dir ∈ dirs, '/' ∉ dir := fun dir hdir => (hnames dir (by simp [hdir])).2
  show rootSegments dirs <+: moduleSegments (pathText dirs file)
  rw [moduleSegments_text hdirs (hnames file (by simp)).2]
  unfold rootSegments
  cases hsrc : rsplitOnce srcWord dirs with
  | none => exact nil_prefix
  | some parts =>
    rw [(rsplitOnce_eq_some hsrc).1, append_assoc, segmentNames_append]
    exact prefix_append ..

/-- The paths whose root is the one of their directories, and the start of their segments. -/
theorem crateRootSegments_iff (path : IndexedPath) :
    (crateRootSegments path.text = rootSegments path.dirs ∧
      crateRootSegments path.text <+: moduleSegments path.text) ↔ RootFound path.dirs := by
  rw [← crateRootSegments_eq_iff, and_iff_left_iff_imp]
  intro heq
  rw [heq]
  exact rootSegments_prefix path

/-- The path `crates/core/src/resrc/read.rs`. -/
def resrcPath : IndexedPath where
  dirs := ["crates".toList, "core".toList, "src".toList, "resrc".toList]
  file := "read.rs".toList
  names := by decide

/-- The path `core.d/src/read.rs`. -/
def dottedPath : IndexedPath where
  dirs := ["core.d".toList, "src".toList]
  file := "read.rs".toList
  names := by decide

/-- A directory `resrc` behind `src` hides the root, and the name of the directory before `src` is
cut at its dot, which is no segment of the path. -/
theorem root_lost :
    resrcPath.text = "crates/core/src/resrc/read.rs".toList ∧
    crateRootSegments resrcPath.text = [] ∧
    rootSegments resrcPath.dirs = ["crates".toList, "core".toList] ∧
    dottedPath.text = "core.d/src/read.rs".toList ∧
    crateRootSegments dottedPath.text = ["core".toList] ∧
    rootSegments dottedPath.dirs = ["core.d".toList] ∧
    ¬crateRootSegments dottedPath.text <+: moduleSegments dottedPath.text := by
  decide

end Trufflepig.Search
