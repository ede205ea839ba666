import Trufflepig.Extract.Extraction
import Trufflepig.Lib.Sorting
import Trufflepig.Lib.Unicode

/-!
# Imports of modules (`store/module_resolver.rs`, `normalized` of `store/module_config.rs`)

An import that starts with `./` or `../` is resolved against the directory of its file. The files
that may be meant are the one at the path itself, those at the path with one of eight extensions
behind it, those at the name `index` with one of them below it, and for a path that ends in `.js`
or `.jsx` those with `.ts` and `.tsx` in its place (`locations`). The code looks at the first and
the last of these if the path has an extension, and otherwise at all but the last.

* `mem_locations`, `disjoint_missedPlaces`: where the code looks, and where it does not.
* `relativeImport_exact_iff`: for which imports the candidates are those of `locations`.
* `dotted_module_missed`: `./foo.service` does not find `foo.service.ts`.
-/

namespace Trufflepig.Store

open List Lib Extract

/-- A component of a Unix path. -/
inductive Component where
  | rootDir | curDir | parentDir
  | normal (part : Bytes)

/-- `Path::components`. It has `.` at the start only; the others are kept here as well, since
`normalized` drops them all. -/
def components (path : Bytes) : List Component :=
  (if path.head? = some 0x2f then [.rootDir] else []) ++
  (path.splitOn 0x2f).filterMap fun part =>
    if part = [] then none
    else if part = ascii "." then some .curDir
    else if part = ascii ".." then some .parentDir
    else some (.normal part)

/-- `normalized` (`module_config.rs`): the parts of the path, unless it leaves the
root. -/
def normalized (path : List Component) : Option (List Bytes) :=
  path.foldlM (fun result component =>
    match component with
    | .normal part => some (result ++ [part])
    | .curDir => some result
    | .parentDir => if result = [] then none else some result.dropLast
    | .rootDir => none) []

/-- The components of `directory.join(name)`. -/
def joined (directory : List Bytes) (name : Bytes) : List Component :=
  if name.head? = some 0x2f then components name else directory.map .normal ++ components name

/-! ## Where a module may be -/

/-- The stem and the extension of a file name; a dot at its start is none. -/
def nameParts (name : Bytes) : Bytes × Option Bytes :=
  match rsplitOnce 0x2e name with
  | some (stem, extension) => if stem = [] then (name, none) else (stem, some extension)
  | none => (name, none)

/-- `Path::extension`. -/
def pathExtension (path : List Bytes) : Option Bytes :=
  path.getLast?.bind fun name => (nameParts name).2

/-- `Path::with_extension`. -/
def withExtension (path : List Bytes) (extension : Bytes) : List Bytes :=
  match path.getLast? with
  | some name => path.dropLast ++ [(nameParts name).1 ++ 0x2e :: extension]
  | none => path

def moduleExtensions : List Bytes :=
  [ascii "ts", ascii "tsx", ascii "js", ascii "jsx", ascii "mts", ascii "cts", ascii "mjs",
    ascii "cjs"]

/-- `variants` (`module_resolver.rs`). -/
def variants (path : List Bytes) (language : SourceLanguage) : List (List Bytes) :=
  if language = .dreammaker then [path]
  else
    let extensions := if language = .luau then [ascii "luau", ascii "lua"] else moduleExtensions
    path :: match pathExtension path with
      | none => extensions.flatMap fun extension =>
        [withExtension path extension,
          withExtension (path ++ [ascii (if language = .luau then "init" else "index")]) extension]
      | some extension =>
        if language ≠ .luau ∧ (extension = ascii "js" ∨ extension = ascii "jsx") then
          [withExtension path (ascii "ts"), withExtension path (ascii "tsx")]
        else []

/-! ## The resolver -/

/-- The module definitions by the parts of the paths of their files, as the query of `resolve`
finds them; two files have two of them. `encode_path` maps no two paths to one. -/
structure Modules where
  find : List Bytes → Option ℤ
  inj : ∀ {path place id}, find path = some id → find place = some id → path = place

inductive ImportRole where
  | require | importPath | include
  deriving DecidableEq

inductive ModuleProvenance where
  | relativeModulePath | observedIncludePath | luaurcAlias | configuredRojoMapping | typescriptPaths
  deriving DecidableEq

/-- A row of the first query, without its id and the provenance that it keeps. -/
structure ImportRow where
  name : Bytes
  language : SourceLanguage
  role : ImportRole

/-- The paths that the configuration files of the tree give to a name. -/
structure ModuleConfig where
  luau : List Bytes → Bytes → List (List Bytes)
  rojo : Bytes → List (List Bytes)
  typescript : List Bytes → Bytes → List (List Bytes)

/-- The name starts with `./` or `../`. -/
def ImportRow.relative (row : ImportRow) : Bool :=
  (ascii "./").isPrefixOf row.name || (ascii "../").isPrefixOf row.name

/-- The paths that a row may mean (in `resolve`). -/
def modulePaths (config : ModuleConfig) (directory : List Bytes) (row : ImportRow) :
    List (List Bytes) × ModuleProvenance :=
  if row.role = .include then
    let name := row.name.map fun byte => if byte = 0x5c then 0x2f else byte
    ((normalized (joined directory name)).toList ++ (normalized (components name)).toList,
      .observedIncludePath)
  else if row.relative then ((normalized (joined directory row.name)).toList, .relativeModulePath)
  else
    match row.language with
    | .luau =>
      if row.name.head? = some 0x40 then (config.luau directory row.name, .luaurcAlias)
      else (config.rojo row.name, .configuredRojoMapping)
    | .typescript | .javascript => (config.typescript directory row.name, .typescriptPaths)
    | _ => ([], .relativeModulePath)

/-- What is written to the row. -/
structure Resolved where
  target : Option ℤ
  candidates : List ℤ
  provenance : ModuleProvenance

/-- A name that is passed over. -/
def ImportRow.skipped (row : ImportRow) : Bool :=
  row.name.contains 0x5c && row.role ≠ .include || row.name.contains 0

/-- The loop body of `resolve`; `none` leaves the row as it is. -/
def resolveModule (modules : Modules) (config : ModuleConfig) (directory : List Bytes)
    (row : ImportRow) : Option Resolved :=
  if row.skipped then none
  else
    let found := modulePaths config directory row
    let candidates := sortDedup ((found.1.take 64).flatMap fun path =>
      (variants path row.language).filterMap modules.find)
    let exact := (normalized (joined directory row.name)).bind modules.find
    let target := match candidates with
      | [candidate] =>
        if row.role = .importPath ∧ found.2 = .relativeModulePath ∧ exact = some candidate then
          some candidate
        else none
      | _ => none
    if candidates = [] then none else some ⟨target, candidates, found.2⟩

/-! ## Where it looks -/

variable (path : List Bytes)

/-- The path with an extension behind it. -/
def extended : List (List Bytes) :=
  moduleExtensions.map fun extension =>
    path.dropLast ++ [path.getLast?.getD [] ++ 0x2e :: extension]

/-- The files named `index` below the path. -/
def indexed : List (List Bytes) :=
  moduleExtensions.map fun extension => path ++ [ascii "index" ++ 0x2e :: extension]

/-- The TypeScript files that a path of a JavaScript file may stand for. -/
def scriptTwins : List (List Bytes) :=
  match path.getLast?.bind (rsplitOnce 0x2e) with
  | some (stem, extension) =>
    if extension = ascii "js" ∨ extension = ascii "jsx" then
      [ascii "ts", ascii "tsx"].map fun twin => path.dropLast ++ [stem ++ 0x2e :: twin]
    else []
  | none => []

/-- The places where the module of a path may be. -/
def locations : List (List Bytes) :=
  path :: (extended path ++ indexed path ++ scriptTwins path)

/-- Those of them where `resolve` does not look. -/
def missedPlaces : List (List Bytes) :=
  match pathExtension path with
  | some _ => extended path ++ indexed path
  | none => (if path = [] then extended path else []) ++ scriptTwins path

variable {path} {place : List Bytes} {language : SourceLanguage}

theorem nameParts_of_none {name : Bytes} (h : (nameParts name).2 = none) :
    (nameParts name).1 = name := by
  unfold nameParts at h ⊢
  split at h
  · split_ifs at h ⊢
    rfl
  · rfl

theorem withExtension_concat (directory : List Bytes) (name extension : Bytes) :
    withExtension (directory ++ [name]) extension =
      directory ++ [(nameParts name).1 ++ 0x2e :: extension] := by
  simp [withExtension]

theorem mem_variants (hlanguage : language = .typescript ∨ language = .javascript) :
    place ∈ variants path language ↔ place = path ∨
      match pathExtension path with
      | none => path ≠ [] ∧ place ∈ extended path ∨ place ∈ indexed path
      | some _ => place ∈ scriptTwins path := by
  have hvariants : variants path language = path :: match pathExtension path with
      | none => moduleExtensions.flatMap fun extension =>
        [withExtension path extension, withExtension (path ++ [ascii "index"]) extension]
      | some extension =>
        if extension = ascii "js" ∨ extension = ascii "jsx" then
          [withExtension path (ascii "ts"), withExtension path (ascii "tsx")]
        else [] := by
    rcases hlanguage with rfl | rfl <;> simp [variants]
  have hindex : (nameParts (ascii "index")).1 = ascii "index" := by decide
  rw [hvariants, mem_cons]
  apply or_congr_right'
  intro hne
  have hindexed : ∀ extension, withExtension (path ++ [ascii "index"]) extension =
      path ++ [ascii "index" ++ 0x2e :: extension] := fun extension => by
    rw [withExtension_concat, hindex]
  rcases eq_nil_or_concat' path with rfl | ⟨directory, name, rfl⟩
  · have hnil : ∀ extension, withExtension [] extension = [] := fun _ => rfl
    simp only [nil_append] at hindexed
    simp [pathExtension, indexed, hnil, hindexed, hne, eq_comm]
  · cases hextension : pathExtension (directory ++ [name]) with
    | none =>
      have hname : (nameParts name).1 = name :=
        nameParts_of_none (by simpa [pathExtension] using hextension)
      simp only [hindexed, withExtension_concat, hname, mem_flatMap, mem_cons, not_mem_nil, or_false,
        and_or_left, exists_or]
      simp only [extended, indexed, mem_map, getLast?_concat, dropLast_concat, Option.getD_some,
        @eq_comm _ place]
      simp
    | some extension =>
      have hsplit : rsplitOnce 0x2e name = some ((nameParts name).1, extension) := by
        simp only [pathExtension, getLast?_concat, Option.bind_some, nameParts] at hextension ⊢
        split at hextension
        · split_ifs at hextension with hstem
          simp_all
        · cases hextension
      simp only [withExtension_concat, scriptTwins, getLast?_concat, dropLast_concat, hsplit,
        Option.bind_some]
      simp

/-- The code looks at all places but those of `missedPlaces`. -/
theorem mem_locations (hlanguage : language = .typescript ∨ language = .javascript) :
    place ∈ locations path ↔ place ∈ variants path language ∨ place ∈ missedPlaces path := by
  rw [mem_variants hlanguage, locations, missedPlaces]
  cases pathExtension path with
  | none =>
    by_cases hpath : path = []
    · simp [hpath]; tauto
    · simp [hpath]; tauto
  | some extension => simp; tauto

theorem length_extended (h : place ∈ extended path) :
    path.flatten.length + 3 ≤ place.flatten.length ∧
      place.flatten.length ≤ path.flatten.length + 4 := by
  obtain ⟨extension, hmem, rfl⟩ := mem_map.mp h
  have hlength : ∀ extension ∈ moduleExtensions, 2 ≤ extension.length ∧ extension.length ≤ 3 := by
    decide
  have := hlength extension hmem
  rcases eq_nil_or_concat' path with rfl | ⟨directory, name, rfl⟩
  · simp; omega
  · simp; omega

theorem length_indexed (h : place ∈ indexed path) :
    path.flatten.length + 8 ≤ place.flatten.length := by
  obtain ⟨extension, hmem, rfl⟩ := mem_map.mp h
  have hlength : ∀ extension ∈ moduleExtensions, 8 ≤ (ascii "index" ++ 0x2e :: extension).length := by
    decide
  have := hlength extension hmem
  rw [flatten_append, length_append, flatten_singleton]
  omega

theorem length_scriptTwins (h : place ∈ scriptTwins path) :
    place ≠ path ∧ place.flatten.length ≤ path.flatten.length + 1 := by
  rcases eq_nil_or_concat' path with rfl | ⟨directory, name, rfl⟩
  · cases h
  · simp only [scriptTwins, getLast?_concat, Option.bind_some, dropLast_concat] at h
    split at h
    · rename_i stem extension hsplit
      obtain ⟨rfl, -⟩ := rsplitOnce_eq_some hsplit
      split_ifs at h with hscript
      · obtain ⟨twin, htwin, rfl⟩ := mem_map.mp h
        have htable : ∀ extension ∈ [ascii "js", ascii "jsx"], ∀ twin ∈ [ascii "ts", ascii "tsx"],
            twin ≠ extension ∧ twin.length ≤ extension.length + 1 := by decide
        obtain ⟨hne, hlength⟩ := htable extension (by simpa using hscript) twin htwin
        exact ⟨by simpa using hne, by simp; omega⟩
      · cases h
    · cases h

theorem disjoint_missedPlaces (hlanguage : language = .typescript ∨ language = .javascript)
    (hmissed : place ∈ missedPlaces path) : place ∉ variants path language := by
  rw [mem_variants hlanguage]
  have hextended := @length_extended path place
  have hindexed := @length_indexed path place
  have htwins := @length_scriptTwins path place
  rw [missedPlaces] at hmissed
  -- The places differ in length, and a twin differs from the path.
  cases hextension : pathExtension path with
  | none =>
    simp only [hextension, mem_append, mem_ite_nil_right] at hmissed
    grind
  | some extension =>
    simp only [hextension, mem_append] at hmissed
    grind

variable {modules : Modules} {config : ModuleConfig} {directory : List Bytes} {row : ImportRow}

/-- The candidates of a relative import. -/
theorem mem_candidates (hrole : row.role ≠ .include) (hrelative : row.relative) {id : ℤ} :
    id ∈ ((resolveModule modules config directory row).elim [] Resolved.candidates) ↔
      row.skipped = false ∧ ∃ path, normalized (joined directory row.name) = some path ∧
        ∃ place ∈ variants path row.language, modules.find place = some id := by
  have hpaths : modulePaths config directory row =
      ((normalized (joined directory row.name)).toList, .relativeModulePath) := by
    rw [modulePaths, if_neg hrole, if_pos hrelative]
  have hcandidates : ∀ (target : Option ℤ) (candidates : List ℤ) (provenance : ModuleProvenance),
      (if candidates = [] then none else some (⟨target, candidates, provenance⟩ : Resolved)).elim []
        Resolved.candidates = candidates := by
    intro target candidates provenance
    split_ifs with h
    · exact h.symm
    · rfl
  rw [resolveModule, hpaths]
  cases row.skipped with
  | true => simp
  | false =>
    simp only [Bool.false_eq_true, if_false, hcandidates, mem_sortDedup]
    cases normalized (joined directory row.name) with
    | none => simp
    | some path => simp

/-- A target is the only candidate, and the module at the exact path. -/
theorem target_eq_some {resolved : Resolved} {id : ℤ}
    (h : resolveModule modules config directory row = some resolved)
    (htarget : resolved.target = some id) :
    resolved.candidates = [id] ∧ (normalized (joined directory row.name)).bind modules.find = some id := by
  rw [resolveModule] at h
  split_ifs at h
  dsimp only at h
  split_ifs at h
  obtain rfl := Option.some.inj h
  dsimp only at htarget ⊢
  split at htarget
  · rename_i candidate hsingle
    split_ifs at htarget with hexact
    obtain rfl := Option.some.inj htarget
    exact ⟨hsingle, hexact.2.2⟩
  · cases htarget

/-- The candidates of a relative import of a script are the modules at `locations`, and its target
is the only candidate and at the exact path, exactly if no module is where the code does not
look. -/
theorem relativeImport_exact_iff (modules : Modules) (config : ModuleConfig)
    (directory : List Bytes) (row : ImportRow)
    (hlanguage : row.language = .typescript ∨ row.language = .javascript)
    (hrole : row.role ≠ .include) (hrelative : row.relative) :
    ((∀ id, id ∈ ((resolveModule modules config directory row).elim [] Resolved.candidates) ↔
        ∃ path, normalized (joined directory row.name) = some path ∧
          ∃ place ∈ locations path, modules.find place = some id) ∧
      ∀ resolved id, resolveModule modules config directory row = some resolved →
        resolved.target = some id → resolved.candidates = [id] ∧
          (normalized (joined directory row.name)).bind modules.find = some id) ↔
    ∀ path, normalized (joined directory row.name) = some path →
      ∀ place ∈ (if row.skipped then locations path else missedPlaces path),
        modules.find place = none := by
  rw [and_iff_left fun _ _ => target_eq_some]
  simp only [mem_candidates hrole hrelative]
  constructor
  · intro h path hpath place hplace
    rw [Option.eq_none_iff_forall_ne_some]
    intro id hid
    split_ifs at hplace with hskipped
    · have := ((h id).mpr ⟨path, hpath, place, hplace, hid⟩).1
      rw [hskipped] at this
      cases this
    · obtain ⟨-, path', hpath', place', hplace', hid'⟩ :=
        (h id).mpr ⟨path, hpath, place, (mem_locations hlanguage).mpr (.inr hplace), hid⟩
      obtain rfl := Option.some.inj (hpath.symm.trans hpath')
      obtain rfl := modules.inj hid hid'
      exact disjoint_missedPlaces hlanguage hplace hplace'
  · intro h id
    constructor
    · rintro ⟨-, path, hpath, place, hplace, hid⟩
      exact ⟨path, hpath, place, (mem_locations hlanguage).mpr (.inl hplace), hid⟩
    · rintro ⟨path, hpath, place, hplace, hid⟩
      have hnone := h path hpath place
      cases hskipped : row.skipped with
      | true => simp [hskipped, hplace, hid] at hnone
      | false =>
        rcases (mem_locations hlanguage).mp hplace with hplace | hplace
        · exact ⟨rfl, path, hpath, place, hplace, hid⟩
        · simp [hskipped, hplace, hid] at hnone

/-- The modules of a tree with one file. -/
def Modules.single (path : List Bytes) (id : ℤ) : Modules where
  find place := if place = path then some id else none
  inj {path place id} := by grind

theorem relativeImport_exact_plain :
    let modules : Modules := .single [ascii "a.ts"] 7
    let row : ImportRow := ⟨ascii "./a", .typescript, .importPath⟩
    ∀ id, id ∈ ((resolveModule modules ⟨fun _ _ => [], fun _ => [], fun _ _ => []⟩ [] row).elim []
      Resolved.candidates) ↔ ∃ path, normalized (joined [] row.name) = some path ∧
        ∃ place ∈ locations path, modules.find place = some id := by
  refine ((relativeImport_exact_iff _ _ _ _ (.inl rfl) (by decide) (by decide)).mpr ?_).1
  decide

/-- `./foo.service` has an extension for the code, which then looks for no other one. -/
theorem dotted_module_missed :
    let modules : Modules := .single [ascii "app", ascii "foo.service.ts"] 7
    let row : ImportRow := ⟨ascii "./foo.service", .typescript, .importPath⟩
    (resolveModule modules ⟨fun _ _ => [], fun _ => [], fun _ _ => []⟩ [ascii "app"] row).isNone ∧
    ∃ path ∈ normalized (joined [ascii "app"] row.name), ∃ place ∈ locations path,
      modules.find place = some 7 := by
  decide

end Trufflepig.Store
