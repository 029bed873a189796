/-
# Devscout.Project -- discovery of the project, Cargo and transport models

Discovery reads configuration files, records a digest of exactly the bytes it
parsed, and builds a model from them. Which files those are is the point: the
project model walks the scope for `.csproj` and `.props` files and also looks,
without descending, into every directory between a scope directory and the root;
the Cargo model walks the scope only; the transport inputs read the project files
again and the settings files the source walk listed.
-/

import Devscout.Engine
import Devscout.Freshness.Relevance
import Mathlib

namespace Devscout

open Lib Lib.Text Lib.Files

/-- Relative path to digest, for every configuration file that was parsed. -/
abbrev ConfigDigests := OrderedMap Str Str

variable {F : Facts} (E : Engine F)

/-! ## Paths of configuration files -/

/-- A path's components as two paths are compared by: without the empty ones. -/
def pathComps (path : List Str) : List Str := path.filter (!isHere ·)

def fileName (path : List Str) : Str := path.getLastD []

def isDirectoryBuildProps (path : List Str) : Bool := fileName path == directoryBuildProps

def endsWithCsproj (name : Str) : Bool := csprojExt.isSuffixOf name

/-- `ancestors_up_to`, the directory given with its last component first. -/
def ancestorsFrom (root : List Str) : List Str → List (List Str)
  | [] => []
  | c :: up =>
      if (c :: up).reverse = root then []
      else if up.reverse = root then [up.reverse]
      else up.reverse :: ancestorsFrom root up

/-- The ancestors of `dir`, from its parent up to and including `root`. -/
def ancestorsUpTo (root dir : List Str) : List (List Str) := ancestorsFrom root dir.reverse

example : ancestorsUpTo [['r']] [['r'], ['a'], ['b']] = [[['r'], ['a']], [['r']]] := by decide +kernel

/-- The regular files listed directly in one directory. -/
def directFiles : Dir → List Str
  | .nil => []
  | .file name _ _ rest => name :: directFiles rest
  | .link _ _ rest => directFiles rest
  | .sub _ _ rest => directFiles rest

/-- `scan_ancestor_dir`: the files of a directory the ignore set leaves; a missing
directory has none. -/
def scanAncestorDir (fs : Dir) (root : Root) (ign : Ignored) (dir : List Str) : List (List Str) :=
  match stat fs dir with
  | some (.dir d) =>
      ((directFiles d).map fun name => dir ++ [name]).filter fun path => !isIgnored root path ign
  | _ => []

/-- `scan_ancestor_dirs`: every scope directory's ancestors. -/
def scanAncestorDirs (fs : Dir) (root : Root) (ign : Ignored) (scope : List Str) :
    List (List Str) :=
  scope.flatMap fun d =>
    (ancestorsUpTo root.comps (pathComps (scopeAbs root d))).flatMap (scanAncestorDir fs root ign)

/-! ## The project model -/

/-- One configuration file as it was read. -/
structure ConfigRead where
  path : List Str
  bytes : Bytes
  deriving DecidableEq

def readConfig (fs : Dir) (path : List Str) : Option ConfigRead :=
  (readFile fs path).map (ConfigRead.mk path)

def cannotRead : Str := "cannot read project file".toList

/-- A project file that cannot be read fails the whole discovery. -/
def readProject (fs : Dir) (path : List Str) : Except Str ConfigRead :=
  match readConfig fs path with
  | some read => .ok read
  | none => .error cannotRead

/-- What discovery reads: the props files it could read, then every project file
once. -/
structure ProjectReads where
  props : List ConfigRead
  projects : List ConfigRead

def projectReads (fs : Dir) (root : Root) (scope : List Str) (ign : Ignored) :
    Except Str ProjectReads := do
  let found ← listFilesWithExt fs root [csprojExt, ".props".toList] ign scope
  let walked := found.map fun rel => pathComps (root.join rel)
  let above := scanAncestorDirs fs root ign scope
  let csprojFiles := (walked ++ above).filter fun path => endsWithCsproj (fileName path)
  let propsFiles := (walked ++ above).filter fun path =>
    !endsWithCsproj (fileName path) && isDirectoryBuildProps path
  let projects ← csprojFiles.dedup.mapM (readProject fs)
  pure ⟨propsFiles.filterMap (readConfig fs), projects⟩

def recordDigests (root : Root) (reads : List ConfigRead) (digests : ConfigDigests) :
    ConfigDigests :=
  digests.insertAll (reads.map fun read => (relPath root read.path, E.sha256Hex read.bytes))

/-- `resolve_ref`: a raw `Include` path against the project's own directory; a
climb above the root stays as leading `..`. -/
def resolveRef (csprojDir raw : Str) : Str :=
  let start := if csprojDir.isEmpty then [] else splitSlash csprojDir
  joinSlash ((splitSlash raw).foldl
    (fun stack seg =>
      if isHere seg then stack
      else if isUp seg then
        match stack.getLast? with
        | none => stack ++ [seg]
        | some last => if isUp last then stack ++ [seg] else stack.dropLast
      else stack ++ [seg]) start)

/-- A file name without its extension; a lone leading dot starts no extension. -/
def fileStem (name : Str) : Str :=
  match rsplit '.' name with
  | some (stem, _) => if stem.isEmpty then name else stem
  | none => name

/-- The `IsTestProject` value of the nearest props file above a directory, the
directory given with its last component first. -/
def nearestPropsIsTestProject (root : List Str) (props : OrderedMap (List Str) Str) :
    List Str → Option Bool
  | [] => (props.get? []).bind fun text => (E.scanCsproj text).isTestProject
  | c :: up =>
      match props.get? (c :: up).reverse with
      | some text => (E.scanCsproj text).isTestProject
      | none => if (c :: up).reverse = root then none else nearestPropsIsTestProject root props up

/-- `build_unit`. -/
def buildUnit (root : Root) (props : OrderedMap (List Str) Str) (read : ConfigRead) : ProjectUnit :=
  let dirAbs := read.path.dropLast
  let dir := relPath root dirAbs
  let name := fileStem (fileName read.path)
  let facts := E.scanCsproj (fromUtf8Lossy read.bytes)
  let named := (".Tests".toList.isSuffixOf name || ".Test".toList.isSuffixOf name)
  let test :=
    match facts.isTestProject.or (nearestPropsIsTestProject E root.comps props dirAbs.reverse) with
    | some test => test
    | none => facts.hasTestSdk || named
  { id := relPath root read.path
    name := name
    dir := dir
    refs := facts.projectRefs.map (resolveRef dir)
    test := test }

/-- `ProjectModel::from_units`: the units in `id` order. -/
def ProjectModel.fromUnits (units : List ProjectUnit) : ProjectModel :=
  ⟨units.insertionSort fun a b => a.id ≤ b.id⟩

/-- `project::discover_with_digests`. -/
def discoverProjects (fs : Dir) (root : Root) (scope : List Str) (ign : Ignored)
    (digests : ConfigDigests) : Except Str (Option ProjectModel × ConfigDigests) := do
  let reads ← projectReads fs root scope ign
  let props : OrderedMap (List Str) Str :=
    OrderedMap.empty.insertAll (reads.props.map fun r => (r.path.dropLast, fromUtf8Lossy r.bytes))
  let digests := recordDigests E root (reads.props ++ reads.projects) digests
  if reads.projects.isEmpty then pure (none, digests)
  else pure (some (ProjectModel.fromUnits (reads.projects.map (buildUnit E root props))), digests)

/-- `graph_units`: the units as they are persisted. -/
def graphUnits (model : ProjectModel) : List GraphUnit :=
  model.units.map fun u => ⟨u.id, u.name, u.refs, u.test⟩

/-- Whether a model disagrees with the sidecar the last rebuild wrote. -/
def unitsSidecarDiffers (existing : Option (List GraphUnit)) (model : Option ProjectModel) : Bool :=
  existing != model.map graphUnits

/-! ## The directory of a unit

The sidecar drops a unit's directory. Nothing is lost: it is the directory part of
the unit's own path, whatever the scope and the root look like. -/

section UnitDir

variable {E}

theorem dirOf_of_noSlash {s : Str} (h : '/' ∉ s) : dirOf s = [] := by
  rw [dirOf, rsplit_eq_none_iff.mpr h]

theorem dirOf_append_name (r : Str) {name : Str} (h : '/' ∉ name) : dirOf (r ++ '/' :: name) = r := by
  rw [dirOf, rsplit_append r h]

/-- The path of a file's directory is the directory of its path. -/
theorem relPath_dirOf (root : Root) (dir : List Str) {name : Str} (hslash : '/' ∉ name)
    (hhere : isHere name = false) (hup : isUp name = false) :
    dirOf (relPath root (dir ++ [name])) = relPath root dir := by
  have hnorm : normalize (dir ++ [name]) = normalize dir ++ [name] := by
    simp [normalize, List.foldl_append, hhere, hup]
  simp only [relPath, joinSlash_splitSlash, hnorm]
  generalize hk : utf8Len (absText (normalize root.comps)) + 1 = k
  -- what is cut off in the name itself leaves no directory
  have htail : ∀ j, dirOf ((sliceFrom j name).getD []) = [] := by
    intro j
    refine dirOf_of_noSlash fun hmem => ?_
    cases hs : sliceFrom j name with
    | none => simp [hs] at hmem
    | some r => exact hslash (subset_of_sliceFrom hs (by simpa [hs] using hmem))
  by_cases hempty : normalize dir = []
  · have hone : 1 < k := by
      rw [← hk]
      simp only [absText, utf8Len, List.map_cons, List.sum_cons]
      have := Char.utf8Size_pos '/'
      omega
    rw [hempty]
    show dirOf ((sliceFrom k ('/' :: joinSlash [name])).getD []) = (sliceFrom k ['/']).getD []
    have hslashSize : '/'.utf8Size = 1 := by decide
    have hk0 : ¬k = 0 := by omega
    rw [sliceFrom, if_neg hk0, if_pos (by omega), joinSlash_singleton, htail, sliceFrom, if_neg hk0,
      if_pos (by omega), sliceFrom, if_neg (by omega)]
    rfl
  · have habs : absText (normalize dir ++ [name]) = absText (normalize dir) ++ '/' :: name := by
      simp [absText, joinSlash_append hempty (List.cons_ne_nil name [])]
    -- the cut is in the directory, or after it in the name
    rw [habs, sliceFrom_append_of]
    cases hs : sliceFrom k (absText (normalize dir)) with
    | some r => simpa using dirOf_append_name r hslash
    | none =>
        dsimp only
        split
        · rename_i hlt
          have hslashSize : '/'.utf8Size = 1 := by decide
          rw [sliceFrom, if_neg (by omega), if_pos (by omega), htail]
          rfl
        · rfl

theorem exists_of_mapM {α β ε : Type} {f : α → Except ε β} {xs : List α} {ys : List β}
    (h : xs.mapM f = .ok ys) {y : β} (hy : y ∈ ys) : ∃ x ∈ xs, f x = .ok y := by
  induction xs generalizing ys with
  | nil =>
      cases h
      cases hy
  | cons x xs ih =>
      rw [List.mapM_cons] at h
      cases hx : f x with
      | error e => simp [hx, bind, Except.bind] at h
      | ok b =>
          cases hxs : xs.mapM f with
          | error e => simp [hx, hxs, bind, Except.bind] at h
          | ok bs =>
              simp only [hx, hxs, bind, Except.bind, pure, Except.pure, Except.ok.injEq] at h
              subst h
              rcases List.mem_cons.mp hy with rfl | hmem
              · exact ⟨x, List.mem_cons_self, hx⟩
              · obtain ⟨x', hx', hok⟩ := ih hxs hmem
                exact ⟨x', List.mem_cons_of_mem _ hx', hok⟩

theorem mem_directFiles {d : Dir} {name : Str} (h : name ∈ directFiles d) : name ∈ d.names := by
  induction d with
  | nil => exact h
  | file n b r rest ih =>
      rcases List.mem_cons.mp h with rfl | h
      · exact List.mem_cons_self
      · exact List.mem_cons_of_mem _ (ih h)
  | link n t rest ih => exact List.mem_cons_of_mem _ (ih h)
  | sub n child rest _ ih => exact List.mem_cons_of_mem _ (ih h)

theorem noSlash_of_mem_join {root : Root} {rel name : Str} (h : name ∈ pathComps (root.join rel)) :
    '/' ∉ name := by
  have hjoin := (List.mem_filter.mp h).1
  simp only [Root.join] at hjoin
  split at hjoin
  · exact (mem_splitSlash hjoin).1
  · rcases List.mem_append.mp hjoin with hroot | hrel
    · exact isName_noSlash (root.names _ hroot)
    · exact (mem_splitSlash hrel).1

/-- The files above the scope are named by entries of their directories. -/
theorem noSlash_last_of_scan {fs : Dir} (hfs : fs.wf = true) {root : Root} {ign : Ignored}
    {scope path : List Str} (h : path ∈ scanAncestorDirs fs root ign scope) (hne : path ≠ []) :
    '/' ∉ path.getLast hne := by
  simp only [scanAncestorDirs, List.mem_flatMap] at h
  obtain ⟨d, -, dir, -, hscan⟩ := h
  simp only [scanAncestorDir] at hscan
  split at hscan
  · rename_i child hstat
    obtain ⟨hdirect, -⟩ := List.mem_filter.mp hscan
    obtain ⟨name, hname, rfl⟩ := List.mem_map.mp hdirect
    rw [List.getLast_concat]
    exact isName_noSlash (Dir.wf_isName (stat_wf hfs hstat) (mem_directFiles hname))
  · cases hscan

/-- A project file's path: a directory and a name no path text splits. -/
theorem projectReads_path {fs : Dir} (hfs : fs.wf = true) {root : Root} {scope : List Str}
    {ign : Ignored} {reads : ProjectReads} (h : projectReads fs root scope ign = .ok reads)
    {read : ConfigRead} (hread : read ∈ reads.projects) :
    ∃ dir name, read.path = dir ++ [name] ∧ '/' ∉ name ∧ endsWithCsproj name = true := by
  simp only [projectReads, bind, Except.bind] at h
  split at h
  · cases h
  · rename_i found hfound
    split at h
    · cases h
    · rename_i projects hprojects
      simp only [pure, Except.pure, Except.ok.injEq] at h
      subst h
      obtain ⟨path, hpath, hok⟩ := exists_of_mapM hprojects hread
      have hreadPath : read.path = path := by
        simp only [readProject, readConfig] at hok
        cases hfile : readFile fs path with
        | none => simp [hfile] at hok
        | some bytes =>
            simp only [hfile, Option.map_some, Except.ok.injEq] at hok
            exact hok ▸ rfl
      obtain ⟨hmem, hext⟩ := List.mem_filter.mp (List.mem_dedup.1 hpath)
      have hne : path ≠ [] := by
        rintro rfl
        exact absurd hext (by decide)
      have hlast : fileName path = path.getLast hne := by
        rw [fileName, List.getLastD_eq_getLast?, List.getLast?_eq_some_getLast hne]
        rfl
      refine ⟨path.dropLast, path.getLast hne, ?_, ?_, hlast ▸ hext⟩
      · rw [hreadPath, List.dropLast_append_getLast]
      · -- the path comes from the walk below the scope or from a directory above it
        rcases List.mem_append.mp hmem with hwalk | habove
        · obtain ⟨rel, -, rfl⟩ := List.mem_map.mp hwalk
          exact noSlash_of_mem_join (List.getLast_mem hne)
        · exact noSlash_last_of_scan hfs habove hne

/-- **A unit's directory is that of its project file.** -/
theorem unit_dir {fs : Dir} (hfs : fs.wf = true) {root : Root} {scope : List Str} {ign : Ignored}
    {digests digests' : ConfigDigests} {model : ProjectModel}
    (h : discoverProjects E fs root scope ign digests = .ok (some model, digests')) {u : ProjectUnit}
    (hu : u ∈ model.units) : u.dir = dirOf u.id := by
  simp only [discoverProjects, bind, Except.bind] at h
  split at h
  · cases h
  · rename_i reads hreads
    split at h
    · cases h
    · simp only [pure, Except.pure, Except.ok.injEq, Prod.mk.injEq, Option.some.injEq] at h
      obtain ⟨rfl, -⟩ := h
      obtain ⟨read, hread, rfl⟩ := List.mem_map.mp ((List.mem_insertionSort _).mp hu)
      obtain ⟨dir, name, hpath, hslash, hext⟩ := projectReads_path hfs hreads hread
      -- a project file is longer than any of the names that a path would drop
      have hnot : ∀ s : Str, s.length < 7 → name ≠ s := by
        rintro s hs rfl
        have := (List.isSuffixOf_iff_suffix.mp hext).length_le
        have hlen : csprojExt.length = 7 := by decide
        omega
      have hhere : isHere name = false := by
        simp [isHere, hnot [] (by decide), hnot ['.'] (by decide)]
      have hup : isUp name = false := by
        simp [isUp, hnot ['.', '.'] (by decide)]
      simp only [buildUnit, hpath, List.dropLast_concat]
      exact (relPath_dirOf root dir hslash hhere hup).symm

/-- Two discovered models with one sidecar are one model. -/
theorem model_eq_of_graphUnits {model model' : ProjectModel}
    (h : ∀ u ∈ model.units, u.dir = dirOf u.id) (h' : ∀ u ∈ model'.units, u.dir = dirOf u.id)
    (heq : graphUnits model = graphUnits model') : model = model' := by
  obtain ⟨units⟩ := model
  obtain ⟨units'⟩ := model'
  simp only [graphUnits] at heq h h'
  congr
  induction units generalizing units' with
  | nil => simpa using heq.symm
  | cons u units ih =>
      cases units' with
      | nil => cases heq
      | cons u' units' =>
          simp only [List.map_cons, List.cons.injEq, GraphUnit.mk.injEq] at heq
          obtain ⟨⟨hid, hname, hrefs, htest⟩, hrest⟩ := heq
          have hdir : u.dir = u'.dir := by
            rw [h u List.mem_cons_self, h' u' List.mem_cons_self, hid]
          have hu : u = u' := by
            cases u
            cases u'
            simp_all
          rw [hu, ih (fun v hv => h v (List.mem_cons_of_mem _ hv)) units'
            (fun v hv => h' v (List.mem_cons_of_mem _ hv)) hrest]

end UnitDir

/-! ## The Cargo model -/

/-- The manifests `rsgraph::crates::discover_with_digests` reads. -/
def cargoReads (fs : Dir) (root : Root) (scope : List Str) (ign : Ignored) :
    Except Str (List (Str × Bytes)) := do
  let found ← listFilesWithExt fs root [".toml".toList] ign scope
  pure ((found.filter fun rel => rel == cargoToml || ('/' :: cargoToml).isSuffixOf rel).filterMap
    fun rel => (readFile fs (root.join rel)).map (rel, ·))

/-- The package directory of a manifest's path. -/
def packageDir (rel : Str) : Str :=
  let pre := rel.take (rel.length - cargoToml.length)
  (pre.reverse.dropWhile (· == '/')).reverse

/-- `rsgraph::crates::discover_with_digests`. -/
def discoverCrates (fs : Dir) (root : Root) (scope : List Str) (ign : Ignored) (rsFiles : List Str)
    (digests : ConfigDigests) : Except Str (Option RustCrates × ConfigDigests) := do
  let reads ← cargoReads fs root scope ign
  let digests := digests.insertAll (reads.map fun r => (r.1, E.sha256Hex r.2))
  let packages := reads.filterMap fun r =>
    E.packageOf (packageDir r.1) (fromUtf8Lossy r.2) rsFiles
  let sorted := packages.insertionSort fun a b => a.dir ≤ b.dir
  pure (if sorted.isEmpty then none else some sorted, digests)

def cratesSidecarDiffers (existing crates : Option RustCrates) : Bool := existing != crates

/-! ## The transport inputs -/

def appsettings : Str := "appsettings".toList

/-- `appsettings.json` or `appsettings.<name>.json`. -/
def isSettingsFile (rel : Str) : Bool :=
  let name := nameOf rel
  if ".json".toList.isSuffixOf name then
    let stem := name.take (name.length - ".json".toList.length)
    stem == appsettings ||
      ((appsettings ++ ['.']).isPrefixOf stem && !(stem.drop (appsettings.length + 1)).isEmpty)
  else false

/-- The settings files of one unit among the walked files, with their digests. -/
def unitSettings (fs : Dir) (root : Root) (files : List Str) (dir : Str) : List SettingsFile :=
  let own := files.filter fun f => isSettingsFile f && dirOf f == dir
  let found := own.filterMap fun f =>
    (readFile fs (root.join f)).map fun bytes => SettingsFile.mk f (E.sha256Hex bytes)
  found.insertionSort fun a b => a.file ≤ b.file

/-- `transport::discover`. -/
def discoverTransport (fs : Dir) (root : Root) (model : Option ProjectModel) (files : List Str) :
    TransportInputs :=
  match model with
  | none => ⟨[]⟩
  | some model =>
      ⟨model.units.map fun unit =>
        let csproj := ((readFile fs (root.join unit.id)).map fromUtf8Lossy).getD []
        { unit := unit.id
          namespaces := E.projectNamespaces csproj
          settings := unitSettings E fs root files unit.dir }⟩

/-- A missing sidecar is no difference: the last rebuild found no transport site. -/
def transportSidecarDiffers (existing : Option TransportInputs) (inputs : TransportInputs) : Bool :=
  match existing with
  | some old => old != inputs
  | none => false

end Devscout
