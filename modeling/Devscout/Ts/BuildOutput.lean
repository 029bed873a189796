/-
# Devscout.Ts.BuildOutput -- sources behind build outputs

A package's files may point into the output directory of its compiler. The configs of a
tsconfig chain say where that is and which directory its sources stand in, and a path below
the one is tried below the other with a source extension for its own.

Two things are cut by the text of a path. The extension is taken off at the last dot, wherever
it stands; and a directory that leads outside the repository leaves the same gap behind as one
that was never declared, so the next config's is taken instead.
-/

import Devscout.Ts.Aliases

namespace Devscout.Ts

open Lib Text

/-! ## Reading a chain -/

/-- `dir_of`. -/
def dirOf (rel : Str) : Str := ((rsplit '/' rel).map Prod.fst).getD []

structure RefusedOutputConfig where
  file : Str
  field : Str
  deriving DecidableEq

/-- What a config of a chain says about its output. -/
structure OutputConfig where
  file : Str
  outDir : Option Json := none
  rootDir : Option Json := none
  composite : Option Bool := none

structure Mapping where
  outDir : Str
  rootDir : Option Str
  deriving DecidableEq

def TSCONFIG_CHAIN_LIMIT : Nat := 4

/-- The options of one config; without an object of compiler options it says nothing. -/
def readConfig (file : Str) (value : Json) : OutputConfig :=
  match value.getObject "compilerOptions" with
  | some options =>
      ⟨file, options.get "outDir", options.get "rootDir", options.getBool "composite"⟩
  | none => { file }

/-- The config a relative `extends` names. -/
def nextConfig (file : Str) (value : Json) : Option Str :=
  ((value.getStr "extends").filter fun v => v.head? = some '.').bind fun v =>
    joinRel (dirOf file) (if ".json".toList.isSuffixOf v then v else v ++ ".json".toList)

/-- The configs from a first one on, each read once and so many at most; `files` are those
that can be read. -/
def configChain (files : Str → Option Json) : Nat → List Str → Str → List OutputConfig
  | 0, _, _ => []
  | n + 1, seen, rel =>
      if rel ∈ seen then []
      else
        match files rel with
        | none => []
        | some value =>
            readConfig rel value ::
              match nextConfig rel value with
              | none => []
              | some next => configChain files n (rel :: seen) next

/-- One directory option of one config, where none has been taken yet. -/
def declare (file key : Str) (input : Option Json) (held : Option Str) :
    Except RefusedOutputConfig (Option Str) :=
  match held, input with
  | some dir, _ => .ok (some dir)
  | none, none => .ok none
  | none, some input =>
      match input.asStr.filter (· ≠ []) with
      | none => .error ⟨file, "compilerOptions.".toList ++ key⟩
      | some path => .ok (joinRel (dirOf file) path)

/-- The loop of `read_mapping`. -/
def readLinks : List OutputConfig → Option Str → Option Str → Option Bool →
    Except RefusedOutputConfig (Option Str × Option Str × Option Bool)
  | [], out, root, composite => .ok (out, root, composite)
  | c :: chain, out, root, composite => do
      let out ← declare c.file "outDir".toList c.outDir out
      let root ← declare c.file "rootDir".toList c.rootDir root
      readLinks chain out root (composite.or c.composite)

/-- `read_mapping`, once the chain is read; a composite project has its sources beside its
first config. -/
def mappingOf (chain : List OutputConfig) (startDir : Str) :
    Except RefusedOutputConfig (Option Mapping) := do
  let (out, root, composite) ← readLinks chain none none none
  .ok (out.map fun outDir => ⟨outDir, root.or (if composite = some true then some startDir else none)⟩)

def readMapping (files : Str → Option Json) (start : Str) :
    Except RefusedOutputConfig (Option Mapping) :=
  mappingOf (configChain files TSCONFIG_CHAIN_LIMIT [] start) (dirOf start)

/-! ## Sources -/

def stripPrefix (pre s : Str) : Option Str :=
  if pre.isPrefixOf s then some (s.drop pre.length) else none

example : stripPrefix ['a'] ['a', '/', 'b'] = some ['/', 'b'] := by decide +kernel

def sourceExtensions (suffix : Str) : List Str :=
  if suffix = ".mjs".toList then [".mts".toList, ".mjs".toList]
  else if suffix = ".cjs".toList then [".cts".toList, ".cjs".toList]
  else [".ts".toList, ".tsx".toList, ".js".toList, ".jsx".toList]

/-- The first candidate that is a file. -/
def probeSources (rootDir stem : Str) (fileSet : Str → Bool) : List Str → Option Str
  | [] => none
  | extension :: extensions =>
      (joinRel rootDir (stem ++ extension)).bind fun candidate =>
        if fileSet candidate then some candidate else probeSources rootDir stem fileSet extensions

/-- `BuildOutputs::source`, for the mapping of the package. -/
def Mapping.source (m : Mapping) (target : Str) (fileSet : Str → Bool) : Option Str := do
  let rootDir ← m.rootDir
  let relative ← stripPrefix (m.outDir ++ ['/']) target
  let stem := ((rsplit '.' relative).map Prod.fst).getD relative
  probeSources rootDir stem fileSet (sourceExtensions (relative.drop stem.length))

/-- Alone among the files, the path is found. -/
def Considers (mapping : Except RefusedOutputConfig (Option Mapping)) (target c : Str) : Prop :=
  ∃ m, mapping = .ok (some m) ∧ m.source target (· == c) = some c

/-! ## Paths of a repository -/

/-- The name of a file or directory. -/
def Segment (s : Str) : Prop := s ≠ [] ∧ s ≠ ['.'] ∧ s ≠ ['.', '.'] ∧ '/' ∉ s

structure RepoPath where
  segs : List Str
  proper : ∀ s ∈ segs, Segment s

def RepoPath.text (p : RepoPath) : Str := joinSlash p.segs

theorem foldlM_joinSegment {segs : List Str} (h : ∀ s ∈ segs, Segment s) (parts : List Str) :
    segs.foldlM joinSegment parts = some (parts ++ segs) := by
  induction segs generalizing parts with
  | nil => simp
  | cons s segs ih =>
      obtain ⟨hne, hdot, hdots, -⟩ := h s List.mem_cons_self
      have hone : joinSegment parts s = some (parts ++ [s]) := by
        rw [joinSegment, if_neg (by simp [hne, hdot]), if_neg hdots]
      rw [List.foldlM_cons, hone]
      show segs.foldlM joinSegment (parts ++ [s]) = _
      rw [ih fun t ht => h t (List.mem_cons_of_mem s ht), List.append_assoc]
      rfl

theorem segments_of_joinSegment {segs parts parts' : List Str} (hslash : ∀ s ∈ segs, '/' ∉ s)
    (hparts : ∀ s ∈ parts, Segment s) (h : segs.foldlM joinSegment parts = some parts') :
    ∀ s ∈ parts', Segment s := by
  induction segs generalizing parts with
  | nil =>
      obtain rfl : parts = parts' := by simpa using h
      exact hparts
  | cons s segs ih =>
      rw [List.foldlM_cons] at h
      obtain ⟨next, hnext, hrest⟩ := Option.bind_eq_some_iff.mp h
      refine ih (fun t ht => hslash t (List.mem_cons_of_mem s ht)) ?_ hrest
      unfold joinSegment at hnext
      split at hnext
      · rw [← Option.some.inj hnext]
        exact hparts
      · rename_i hnot
        rw [not_or, List.isEmpty_iff] at hnot
        split at hnext
        · split at hnext
          · cases hnext
          · rw [← Option.some.inj hnext]
            exact fun t ht => hparts t (List.mem_of_mem_dropLast ht)
        · rename_i hdots
          rw [← Option.some.inj hnext]
          intro t ht
          rcases List.mem_append.mp ht with ht | ht
          · exact hparts t ht
          · rw [List.mem_singleton.mp ht]
            exact ⟨hnot.1, hnot.2, hdots, hslash s List.mem_cons_self⟩

/-- **A joined path is a path of the repository.** -/
theorem exists_path_of_joinRel {base rest p : Str} (h : joinRel base rest = some p) :
    ∃ P : RepoPath, P.text = p := by
  obtain ⟨parts, hparts, rfl⟩ := Option.map_eq_some_iff.mp h
  have hslash : ∀ s ∈ (base ++ '/' :: rest).splitOn '/', '/' ∉ s := fun s hs => (mem_splitSlash hs).1
  exact ⟨⟨parts, segments_of_joinSegment hslash (by simp) hparts⟩, rfl⟩

theorem RepoPath.noSlash (p : RepoPath) : ∀ s ∈ p.segs, '/' ∉ s := fun s hs => (p.proper s hs).2.2.2

/-- **Joining names to a path** puts them below it. -/
theorem joinRel_text (base : RepoPath) {names : List Str} (hnames : ∀ s ∈ names, Segment s)
    (hne : names ≠ []) :
    joinRel base.text (joinSlash names) = some (joinSlash (base.segs ++ names)) := by
  have hsplit : (base.text ++ '/' :: joinSlash names).splitOn '/' = splitSlash base.text ++ names := by
    rw [List.splitOn_append_cons_self]
    congr 1
    exact splitSlash_joinSlash (fun s hs => (hnames s hs).2.2.2) hne
  have hbase : (splitSlash base.text).foldlM joinSegment [] = some base.segs := by
    by_cases hnil : base.segs = []
    · rw [RepoPath.text, hnil]
      rfl
    · rw [RepoPath.text, splitSlash_joinSlash base.noSlash hnil, foldlM_joinSegment base.proper]
      rfl
  rw [joinRel, hsplit, List.foldlM_append, hbase]
  show (names.foldlM joinSegment base.segs).map _ = _
  rw [foldlM_joinSegment hnames]
  rfl

/-! ## What a chain declares -/

/-- A declared directory: where it is, or that it leads outside, or that it is no text. -/
inductive Declared where
  | inside (dir : Str)
  | outside
  | unreadable

def readDir (file : Str) (input : Json) : Declared :=
  match input.asStr.filter (· ≠ []) with
  | none => .unreadable
  | some path =>
      match joinRel (dirOf file) path with
      | some dir => .inside dir
      | none => .outside

/-- The values of an option along a chain, the nearest first. -/
def declaredDirs (option : OutputConfig → Option Json) (chain : List OutputConfig) : List Declared :=
  chain.filterMap fun c => (option c).map (readDir c.file)

/-- Values that lead outside passed over, this directory is left. -/
def Settles (values : List Declared) (dir : Str) : Prop :=
  ∃ before after, values = before ++ .inside dir :: after ∧ ∀ v ∈ before, v = .outside

/-- What a loop that holds a directory or none comes to hold after some values. -/
def Scans (held : Option Str) (values : List Declared) (out : Option Str) : Prop :=
  match held with
  | some dir => out = some dir
  | none => (∃ dir, out = some dir ∧ Settles values dir) ∨ out = none ∧ ∀ v ∈ values, v = .outside

theorem scans_nil {held out : Option Str} : Scans held [] out ↔ out = held := by
  cases held with
  | some dir => exact Iff.rfl
  | none =>
      show (_ ∨ _) ↔ out = none
      constructor
      · rintro (⟨dir, -, before, after, heq, -⟩ | ⟨hout, -⟩)
        · simp at heq
        · exact hout
      · exact fun hout => .inr ⟨hout, fun v hv => nomatch hv⟩

/-- **One value more in front.** -/
theorem scans_cons {held out : Option Str} {v : Declared} {values : List Declared} :
    Scans held (v :: values) out ↔
      match held, v with
      | some dir, _ => out = some dir
      | none, .inside dir => out = some dir
      | none, .outside => Scans none values out
      | none, .unreadable => False := by
  cases held with
  | some dir => exact Iff.rfl
  | none =>
      show (_ ∨ _) ↔ _
      constructor
      · rintro (⟨dir, rfl, before, after, heq, hbefore⟩ | ⟨rfl, hall⟩)
        · cases before with
          | nil => obtain ⟨rfl, -⟩ := List.cons.inj heq; rfl
          | cons w before =>
              obtain ⟨rfl, rfl⟩ := List.cons.inj heq
              obtain rfl := hbefore v List.mem_cons_self
              exact .inl ⟨dir, rfl, before, after, rfl,
                fun w hw => hbefore w (List.mem_cons_of_mem _ hw)⟩
        · obtain rfl := hall v List.mem_cons_self
          exact .inr ⟨rfl, fun w hw => hall w (List.mem_cons_of_mem _ hw)⟩
      · intro h
        cases v with
        | inside dir => exact .inl ⟨dir, h, [], values, rfl, fun w hw => nomatch hw⟩
        | unreadable => exact h.elim
        | outside =>
            rcases h with ⟨dir, rfl, before, after, rfl, hbefore⟩ | ⟨rfl, hall⟩
            · refine .inl ⟨dir, rfl, .outside :: before, after, rfl, fun w hw => ?_⟩
              rcases List.mem_cons.mp hw with rfl | hw
              · rfl
              · exact hbefore w hw
            · refine .inr ⟨rfl, fun w hw => ?_⟩
              rcases List.mem_cons.mp hw with rfl | hw
              · rfl
              · exact hall w hw

/-- One option of one config, and what follows it. -/
theorem declare_scans {c : OutputConfig} {key : Str} {option : OutputConfig → Option Json}
    {chain : List OutputConfig} {held next out : Option Str}
    (h : declare c.file key (option c) held = .ok next) :
    Scans held (declaredDirs option (c :: chain)) out ↔ Scans next (declaredDirs option chain) out := by
  unfold declaredDirs
  unfold declare at h
  split at h
  · obtain rfl := Except.ok.inj h
    exact Iff.rfl
  · rename_i hinput
    obtain rfl := Except.ok.inj h
    rw [List.filterMap_cons, hinput]
    rfl
  · rename_i input hinput
    rw [List.filterMap_cons, hinput]
    show Scans none (readDir c.file input :: _) out ↔ _
    rw [scans_cons, readDir]
    split at h
    · cases h
    · rename_i path hpath
      obtain rfl := Except.ok.inj h
      cases joinRel (dirOf c.file) path with
      | some dir => exact Iff.rfl
      | none => exact Iff.rfl

theorem declare_refuses {c : OutputConfig} {key : Str} {option : OutputConfig → Option Json}
    {chain : List OutputConfig} {held out : Option Str} {e : RefusedOutputConfig}
    (h : declare c.file key (option c) held = .error e) :
    ¬ Scans held (declaredDirs option (c :: chain)) out := by
  unfold declare at h
  split at h
  · cases h
  · cases h
  · rename_i input hinput
    unfold declaredDirs
    rw [List.filterMap_cons, hinput]
    show ¬ Scans none (readDir c.file input :: _) out
    rw [scans_cons, readDir]
    split at h
    · exact id
    · cases h

/-- **What the loop comes to.** -/
theorem readLinks_eq_ok_iff {chain : List OutputConfig} {out root out' root' : Option Str}
    {composite composite' : Option Bool} :
    readLinks chain out root composite = .ok (out', root', composite') ↔
      Scans out (declaredDirs OutputConfig.outDir chain) out' ∧
        Scans root (declaredDirs OutputConfig.rootDir chain) root' ∧
          composite' = composite.or (chain.findSome? OutputConfig.composite) := by
  induction chain generalizing out root composite with
  | nil =>
      show Except.ok (out, root, composite) = _ ↔ Scans out [] out' ∧ Scans root [] root' ∧ _
      rw [scans_nil, scans_nil, Except.ok.injEq, Prod.mk.injEq, Prod.mk.injEq]
      simp [eq_comm]
  | cons c chain ih =>
      rw [readLinks]
      cases hout : declare c.file "outDir".toList c.outDir out with
      | error e =>
          refine iff_of_false (fun h => nomatch h) fun h => ?_
          exact declare_refuses hout h.1
      | ok out₁ =>
          cases hroot : declare c.file "rootDir".toList c.rootDir root with
          | error e =>
              refine iff_of_false (fun h => nomatch h) fun h => ?_
              exact declare_refuses hroot h.2.1
          | ok root₁ =>
              show readLinks chain out₁ root₁ _ = _ ↔ _
              rw [ih, declare_scans hout, declare_scans hroot]
              refine and_congr_right fun _ => and_congr_right fun _ => ?_
              rw [List.findSome?_cons]
              cases composite with
              | some b => rfl
              | none =>
                  cases c.composite with
                  | some b => rfl
                  | none => rfl

/-! ## The mapping of a chain -/

/-- The directories left when values that lead outside are passed over; without any source
directory a composite project's is that of its first config. -/
def Reached (chain : List OutputConfig) (startDir outDir rootDir : Str) : Prop :=
  Settles (declaredDirs OutputConfig.outDir chain) outDir ∧
    (Settles (declaredDirs OutputConfig.rootDir chain) rootDir ∨
      (∀ v ∈ declaredDirs OutputConfig.rootDir chain, v = .outside) ∧
        chain.findSome? OutputConfig.composite = some true ∧ rootDir = startDir)

/-- **What the nearest configs declare:** each directory is the nearest value of its option, and
a composite project that declares no source directory has its first config's. -/
def Declares (chain : List OutputConfig) (startDir outDir rootDir : Str) : Prop :=
  (declaredDirs OutputConfig.outDir chain).head? = some (.inside outDir) ∧
    ((declaredDirs OutputConfig.rootDir chain).head? = some (.inside rootDir) ∨
      declaredDirs OutputConfig.rootDir chain = [] ∧
        chain.findSome? OutputConfig.composite = some true ∧ rootDir = startDir)

theorem settles_of_head {values : List Declared} {dir : Str} (h : values.head? = some (.inside dir)) :
    Settles values dir := by
  cases values with
  | nil => cases h
  | cons v values =>
      obtain rfl := Option.some.inj h
      exact ⟨[], values, rfl, fun v hv => nomatch hv⟩

theorem Declares.reached {chain : List OutputConfig} {startDir outDir rootDir : Str}
    (h : Declares chain startDir outDir rootDir) : Reached chain startDir outDir rootDir := by
  obtain ⟨hout, hroot | ⟨hnone, hcomposite, heq⟩⟩ := h
  · exact ⟨settles_of_head hout, .inl (settles_of_head hroot)⟩
  · have hall : ∀ v ∈ declaredDirs OutputConfig.rootDir chain, v = .outside := by
      rw [hnone]
      exact fun v hv => nomatch hv
    exact ⟨settles_of_head hout, .inr ⟨hall, hcomposite, heq⟩⟩

theorem mappingOf_eq_iff {chain : List OutputConfig} {startDir outDir rootDir : Str} :
    mappingOf chain startDir = .ok (some ⟨outDir, some rootDir⟩) ↔
      Reached chain startDir outDir rootDir := by
  unfold mappingOf
  constructor
  · intro h
    cases hread : readLinks chain none none none with
    | error e => rw [hread] at h; cases h
    | ok result =>
        obtain ⟨out, root, composite⟩ := result
        rw [hread] at h
        obtain ⟨hout, hroot, hcomposite⟩ := readLinks_eq_ok_iff.mp hread
        obtain ⟨dir, rfl, hmapping⟩ := Option.map_eq_some_iff.mp (Except.ok.inj h)
        obtain ⟨rfl, hrootDir⟩ := Mapping.mk.inj hmapping
        obtain ⟨dir', hdir', hsettles⟩ | ⟨hnone, -⟩ := hout
        · obtain rfl := Option.some.inj hdir'
          refine ⟨hsettles, ?_⟩
          obtain ⟨root', rfl, hsettles'⟩ | ⟨rfl, hall⟩ := hroot
          · obtain rfl : root' = rootDir := Option.some.inj hrootDir
            exact .inl hsettles'
          · by_cases htrue : composite = some true
            · rw [if_pos htrue] at hrootDir
              obtain rfl : startDir = rootDir := Option.some.inj hrootDir
              rw [Option.none_or] at hcomposite
              exact .inr ⟨hall, by rw [← hcomposite, htrue], rfl⟩
            · rw [if_neg htrue] at hrootDir
              cases hrootDir
        · cases hnone
  · rintro ⟨hout, hroot⟩
    rcases hroot with hsettles | ⟨hall, hcomposite, rfl⟩
    · have hread : readLinks chain none none none =
          .ok (some outDir, some rootDir, chain.findSome? OutputConfig.composite) :=
        readLinks_eq_ok_iff.mpr ⟨.inl ⟨_, rfl, hout⟩, .inl ⟨_, rfl, hsettles⟩, rfl⟩
      rw [hread]
      rfl
    · have hread : readLinks chain none none none =
          .ok (some outDir, none, chain.findSome? OutputConfig.composite) :=
        readLinks_eq_ok_iff.mpr ⟨.inl ⟨_, rfl, hout⟩, .inr ⟨rfl, hall⟩, rfl⟩
      rw [hread, hcomposite]
      rfl

/-! ## Candidates -/

/-- The extension of a file's name: from its last dot on. -/
def suffixOf (base : Str) : Str := ((rsplit '.' base).map fun r => '.' :: r.2).getD []

/-- A file's name without its extension. -/
def stemOf (base : Str) : Str := ((rsplit '.' base).map Prod.fst).getD base

/-- The sources of a file below the output directory: the same path below the source directory,
its last segment with a source extension for its own. -/
def sourcePaths (rootDir : RepoPath) (dirs : List Str) (base : Str) : List Str :=
  (sourceExtensions (suffixOf base)).map fun e =>
    joinSlash (rootDir.segs ++ (dirs ++ [stemOf base ++ e]))

theorem joinSlash_append_last (dirs : List Str) (s e : Str) :
    joinSlash (dirs ++ [s]) ++ e = joinSlash (dirs ++ [s ++ e]) := by
  by_cases h : dirs = []
  · subst h
    simp
  · rw [joinSlash_append h (by simp), joinSlash_append h (by simp)]
    simp

theorem segment_extension {s e suffix : Str} (hs : '/' ∉ s) (he : e ∈ sourceExtensions suffix) :
    Segment (s ++ e) := by
  have hlong : 2 < e.length ∧ '/' ∉ e := by
    unfold sourceExtensions at he
    split at he
    · simp only [List.mem_cons, List.not_mem_nil, or_false] at he
      rcases he with rfl | rfl <;> decide
    · split at he
      · simp only [List.mem_cons, List.not_mem_nil, or_false] at he
        rcases he with rfl | rfl <;> decide
      · simp only [List.mem_cons, List.not_mem_nil, or_false] at he
        rcases he with rfl | rfl | rfl | rfl <;> decide
  have hlen : 2 < (s ++ e).length := by
    rw [List.length_append]
    omega
  refine ⟨fun h => ?_, fun h => ?_, fun h => ?_, by simp [hs, hlong.2]⟩
  all_goals
    rw [h] at hlen
    simp at hlen

theorem probeSources_eq {rootDir stem : Str} {f : Str → Str} {extensions : List Str}
    (h : ∀ e ∈ extensions, joinRel rootDir (stem ++ e) = some (f e)) (fileSet : Str → Bool) :
    probeSources rootDir stem fileSet extensions = (extensions.map f).find? fileSet := by
  induction extensions with
  | nil => rfl
  | cons e extensions ih =>
      rw [probeSources, h e List.mem_cons_self, List.map_cons, List.find?_cons, Option.bind_some,
        ih fun e' he' => h e' (List.mem_cons_of_mem e he')]
      cases fileSet (f e) <;> rfl

/-- Any of these stems ends in a name, and every candidate has that name and an extension. -/
theorem probeSources_stem (rootDir : RepoPath) {dirs : List Str} (hdirs : ∀ s ∈ dirs, Segment s)
    {s : Str} (hs : '/' ∉ s) (suffix c : Str) :
    probeSources rootDir.text (joinSlash (dirs ++ [s])) (· == c) (sourceExtensions suffix) = some c ↔
      c ∈ (sourceExtensions suffix).map fun e => joinSlash (rootDir.segs ++ (dirs ++ [s ++ e])) := by
  have hjoin : ∀ e ∈ sourceExtensions suffix, joinRel rootDir.text (joinSlash (dirs ++ [s]) ++ e) =
      some (joinSlash (rootDir.segs ++ (dirs ++ [s ++ e]))) := by
    intro e he
    rw [joinSlash_append_last]
    refine joinRel_text rootDir (fun t ht => ?_) (by simp)
    rcases List.mem_append.mp ht with ht | ht
    · exact hdirs t ht
    · rw [List.mem_singleton.mp ht]
      exact segment_extension hs he
  rw [probeSources_eq hjoin]
  generalize (sourceExtensions suffix).map _ = paths
  constructor
  · exact List.mem_of_find?_eq_some
  · intro hmem
    cases hfind : paths.find? (· == c) with
    | none => simpa using List.find?_eq_none.mp hfind c hmem
    | some c' =>
        have hc' := List.find?_some hfind
        rw [beq_iff_eq.mp hc']

/-! ## Where a path is cut -/

/-- Below the output directory: some directories and a file. -/
def Below (target outDir : RepoPath) (dirs : List Str) (base : Str) : Prop :=
  target.segs = outDir.segs ++ (dirs ++ [base])

theorem Below.names {target outDir : RepoPath} {dirs : List Str} {base : Str}
    (h : Below target outDir dirs base) : ∀ s ∈ dirs ++ [base], Segment s := by
  intro s hs
  refine target.proper s ?_
  rw [h]
  exact List.mem_append_right _ hs

theorem Below.unique {target outDir : RepoPath} {dirs dirs' : List Str} {base base' : Str}
    (h : Below target outDir dirs base) (h' : Below target outDir dirs' base') :
    dirs = dirs' ∧ base = base' := by
  unfold Below at h h'
  rw [h] at h'
  have heq := List.append_cancel_left h'
  have hbase := List.append_inj_right' heq rfl
  exact ⟨List.append_inj_left' heq rfl, (List.cons.inj hbase).1⟩

/-- A target is taken apart at the output directory, unless that is the repository itself. -/
theorem stripPrefix_iff {target outDir : RepoPath} {relative : Str} :
    stripPrefix (outDir.text ++ ['/']) target.text = some relative ↔
      outDir.segs ≠ [] ∧ ∃ dirs base, Below target outDir dirs base ∧
        relative = joinSlash (dirs ++ [base]) := by
  unfold stripPrefix
  by_cases hnil : outDir.segs = []
  · have hnot : ¬ (outDir.text ++ ['/']).isPrefixOf target.text = true := by
      rw [List.isPrefixOf_iff_prefix, RepoPath.text, hnil]
      rintro ⟨rest, hrest⟩
      -- The first name of a path is not empty.
      have hsplit : splitSlash target.text = [] :: splitSlash rest := by
        rw [← hrest]
        exact List.splitOn_append_cons_self [] rest
      by_cases htarget : target.segs = []
      · rw [RepoPath.text, htarget] at hrest
        cases hrest
      · rw [RepoPath.text, splitSlash_joinSlash target.noSlash htarget] at hsplit
        exact (target.proper [] (by rw [hsplit]; simp)).1 rfl
    rw [if_neg hnot]
    simp [hnil]
  · have hdir : splitSlash outDir.text = outDir.segs := splitSlash_joinSlash outDir.noSlash hnil
    constructor
    · intro h
      split at h
      · rename_i hpre
        rw [List.isPrefixOf_iff_prefix] at hpre
        have htarget : target.segs ≠ [] := by
          intro heq
          obtain ⟨rest, hrest⟩ := hpre
          rw [RepoPath.text, RepoPath.text, heq] at hrest
          simp at hrest
        obtain ⟨t, ht, hsegs⟩ := (dirPrefix_iff target.noSlash htarget).mp hpre
        rw [hdir] at hsegs
        obtain ⟨dirs, base, rfl⟩ : ∃ dirs base, t = dirs ++ [base] :=
          ⟨t.dropLast, t.getLast ht, (List.dropLast_concat_getLast ht).symm⟩
        refine ⟨hnil, dirs, base, hsegs, ?_⟩
        have htext : target.text = outDir.text ++ ['/'] ++ joinSlash (dirs ++ [base]) := by
          rw [RepoPath.text, hsegs, joinSlash_append hnil ht]
          simp [RepoPath.text]
        rw [← Option.some.inj h, htext, List.drop_left]
      · cases h
    · rintro ⟨-, dirs, base, hbelow, rfl⟩
      have htext : target.text = outDir.text ++ ['/'] ++ joinSlash (dirs ++ [base]) := by
        rw [RepoPath.text, hbelow, joinSlash_append hnil (by simp)]
        simp [RepoPath.text]
      rw [htext, if_pos (List.isPrefixOf_iff_prefix.mpr (List.prefix_append _ _)), List.drop_left]

theorem not_mem_joinSlash {c : Char} (hc : c ≠ '/') {segs : List Str} (h : ∀ s ∈ segs, c ∉ s) :
    c ∉ joinSlash segs := by
  induction segs with
  | nil => simp
  | cons s segs ih =>
      have hs := h s List.mem_cons_self
      have hrest := ih fun t ht => h t (List.mem_cons_of_mem s ht)
      by_cases hnil : segs = []
      · subst hnil
        simpa using hs
      · rw [joinSlash_cons hnil]
        simp [hs, hrest, hc]

/-- With a dot in the last segment, or none anywhere, the path is cut at its extension. -/
theorem cut_last {dirs : List Str} {base : Str} (h : '.' ∈ base ∨ ∀ s ∈ dirs, '.' ∉ s) :
    ((rsplit '.' (joinSlash (dirs ++ [base]))).map Prod.fst).getD (joinSlash (dirs ++ [base])) =
        joinSlash (dirs ++ [stemOf base]) ∧
      (joinSlash (dirs ++ [base])).drop (joinSlash (dirs ++ [stemOf base])).length = suffixOf base := by
  unfold stemOf suffixOf
  cases hbase : rsplit '.' base with
  | some parts =>
      obtain ⟨s, b⟩ := parts
      obtain ⟨rfl, hb⟩ := rsplit_eq_some hbase
      have hjoin : joinSlash (dirs ++ [s ++ '.' :: b]) = joinSlash (dirs ++ [s]) ++ '.' :: b :=
        (joinSlash_append_last dirs s ('.' :: b)).symm
      rw [hjoin, rsplit_append _ hb]
      exact ⟨rfl, List.drop_left⟩
  | none =>
      have hdot : '.' ∉ base := rsplit_eq_none_iff.mp hbase
      have hdirs : ∀ s ∈ dirs, '.' ∉ s := h.resolve_left hdot
      have hnone : '.' ∉ joinSlash (dirs ++ [base]) := by
        refine not_mem_joinSlash (by decide) fun s hs => ?_
        rcases List.mem_append.mp hs with hs | hs
        · exact hdirs s hs
        · rwa [List.mem_singleton.mp hs]
      rw [rsplit_eq_none_iff.mpr hnone]
      exact ⟨rfl, List.drop_length⟩

theorem exists_last {α : Type} {p : α → Prop} {l : List α} (h : ¬ ∀ a ∈ l, ¬ p a) :
    ∃ before a after, l = before ++ a :: after ∧ p a ∧ ∀ b ∈ after, ¬ p b := by
  induction l with
  | nil => exact absurd (fun a ha => nomatch ha) h
  | cons a l ih =>
      by_cases hrest : ∀ b ∈ l, ¬ p b
      · refine ⟨[], a, l, rfl, ?_, hrest⟩
        by_contra ha
        exact h fun b hb => (List.mem_cons.mp hb).elim (fun heq => heq ▸ ha) (hrest b)
      · obtain ⟨before, b, after, rfl, hb, hafter⟩ := ih hrest
        exact ⟨a :: before, b, after, rfl, hb, hafter⟩

/-- Otherwise it is cut in a directory, and what follows that is lost. -/
theorem cut_early {dirs : List Str} {base : Str} (hslash : ∀ s ∈ dirs, '/' ∉ s) (hbase : '.' ∉ base)
    (h : ¬ ∀ s ∈ dirs, '.' ∉ s) : ∃ before s x after, dirs = before ++ x :: after ∧ '/' ∉ s ∧
      ((rsplit '.' (joinSlash (dirs ++ [base]))).map Prod.fst).getD (joinSlash (dirs ++ [base])) =
        joinSlash (before ++ [s]) := by
  obtain ⟨before, x, after, rfl, hx, hafter⟩ := exists_last h
  cases hsplit : rsplit '.' x with
  | none => exact absurd hx (rsplit_eq_none_iff.mp hsplit)
  | some parts =>
      obtain ⟨s, b⟩ := parts
      obtain ⟨rfl, hb⟩ := rsplit_eq_some hsplit
      refine ⟨before, s, _, after, rfl, fun hs => hslash (s ++ '.' :: b) (by simp) (by simp [hs]), ?_⟩
      have htail : '.' ∉ joinSlash (after ++ [base]) := by
        refine not_mem_joinSlash (by decide) fun t ht => ?_
        rcases List.mem_append.mp ht with ht | ht
        · exact hafter t ht
        · rwa [List.mem_singleton.mp ht]
      have htext : joinSlash (before ++ (s ++ '.' :: b) :: after ++ [base]) =
          joinSlash (before ++ [s]) ++ '.' :: (b ++ '/' :: joinSlash (after ++ [base])) := by
        rw [show before ++ (s ++ '.' :: b) :: after ++ [base] =
          (before ++ [s ++ '.' :: b]) ++ (after ++ [base]) by simp,
          joinSlash_append (by simp) (by simp), ← joinSlash_append_last]
        simp
      rw [htext, rsplit_append _ (by simp [hb, htail])]
      rfl

/-! ## What is considered -/

theorem exists_path_of_settles {option : OutputConfig → Option Json} {chain : List OutputConfig}
    {dir : Str} (h : Settles (declaredDirs option chain) dir) : ∃ P : RepoPath, P.text = dir := by
  obtain ⟨before, after, hvalues, -⟩ := h
  have hmem : Declared.inside dir ∈ declaredDirs option chain := by rw [hvalues]; simp
  obtain ⟨c, -, hc⟩ := List.mem_filterMap.mp hmem
  obtain ⟨input, -, hread⟩ := Option.map_eq_some_iff.mp hc
  unfold readDir at hread
  split at hread
  · cases hread
  · split at hread
    · rename_i hjoin
      obtain rfl := Declared.inside.inj hread
      exact exists_path_of_joinRel hjoin
    · cases hread

theorem Reached.unique {chain : List OutputConfig} {startDir out root out' root' : Str}
    (h : Reached chain startDir out root) (h' : Reached chain startDir out' root') :
    out = out' ∧ root = root' := by
  have heq := mappingOf_eq_iff.mpr h
  rw [mappingOf_eq_iff.mpr h'] at heq
  obtain ⟨hout, hroot⟩ := Mapping.mk.inj (Option.some.inj (Except.ok.inj heq))
  exact ⟨hout.symm, (Option.some.inj hroot).symm⟩

/-- The candidates of a file below the output directory, cut by its text. -/
def Tried (rootDir : RepoPath) (dirs : List Str) (base c : Str) : Prop :=
  let relative := joinSlash (dirs ++ [base])
  let stem := ((rsplit '.' relative).map Prod.fst).getD relative
  probeSources rootDir.text stem (· == c) (sourceExtensions (relative.drop stem.length)) = some c

section Source

variable {chain : List OutputConfig} {startDir target : RepoPath} {c : Str}

theorem considers_iff : Considers (mappingOf chain startDir.text) target.text c ↔
    ∃ (outDir rootDir : RepoPath) (dirs : List Str) (base : Str),
      Reached chain startDir.text outDir.text rootDir.text ∧ outDir.segs ≠ [] ∧
        Below target outDir dirs base ∧ Tried rootDir dirs base c := by
  constructor
  · rintro ⟨⟨out, root⟩, hmapping, hsource⟩
    obtain ⟨rootDir, hroot, hsource⟩ := Option.bind_eq_some_iff.mp hsource
    obtain rfl : root = some rootDir := hroot
    obtain ⟨relative, hrelative, htried⟩ := Option.bind_eq_some_iff.mp hsource
    have hreached := mappingOf_eq_iff.mp hmapping
    obtain ⟨O, rfl⟩ := exists_path_of_settles hreached.1
    obtain ⟨R, rfl⟩ : ∃ R : RepoPath, R.text = rootDir := by
      rcases hreached.2 with hsettles | ⟨-, -, rfl⟩
      · exact exists_path_of_settles hsettles
      · exact ⟨startDir, rfl⟩
    obtain ⟨hne, dirs, base, hbelow, rfl⟩ := stripPrefix_iff.mp hrelative
    exact ⟨O, R, dirs, base, hreached, hne, hbelow, htried⟩
  · rintro ⟨O, R, dirs, base, hreached, hne, hbelow, htried⟩
    refine ⟨⟨O.text, some R.text⟩, mappingOf_eq_iff.mpr hreached, ?_⟩
    have hstrip := stripPrefix_iff.mpr ⟨hne, dirs, base, hbelow, rfl⟩
    show (stripPrefix (O.text ++ ['/']) target.text).bind _ = _
    rw [hstrip]
    exact htried

/-- Cut at its extension, a file's candidates are its sources. -/
theorem tried_of_cut_last {rootDir : RepoPath} {dirs : List Str} {base : Str}
    (hnames : ∀ s ∈ dirs ++ [base], Segment s) (h : '.' ∈ base ∨ ∀ s ∈ dirs, '.' ∉ s) :
    Tried rootDir dirs base c ↔ c ∈ sourcePaths rootDir dirs base := by
  obtain ⟨hstem, hsuffix⟩ := cut_last h
  have hslash : '/' ∉ stemOf base := by
    have hbase : '/' ∉ base := (hnames base (by simp)).2.2.2
    unfold stemOf
    cases hsplit : rsplit '.' base with
    | none => exact hbase
    | some parts =>
        intro hmem
        rw [(rsplit_eq_some hsplit).1] at hbase
        exact hbase (List.mem_append_left _ hmem)
  unfold Tried
  dsimp only
  rw [hstem, hsuffix]
  exact probeSources_stem rootDir (fun s hs => hnames s (List.mem_append_left _ hs)) hslash _ c

/-- Cut in a directory, its candidates stand in fewer directories than its sources. -/
theorem tried_of_cut_early {rootDir : RepoPath} {dirs : List Str} {base : Str}
    (hnames : ∀ s ∈ dirs ++ [base], Segment s) (h : ¬ ('.' ∈ base ∨ ∀ s ∈ dirs, '.' ∉ s)) :
    (∃ c, Tried rootDir dirs base c) ∧
      ∀ c, Tried rootDir dirs base c → c ∉ sourcePaths rootDir dirs base := by
  rw [not_or] at h
  have hslash : ∀ s ∈ dirs, '/' ∉ s := fun s hs => (hnames s (List.mem_append_left _ hs)).2.2.2
  obtain ⟨before, s, x, after, rfl, hs, hcut⟩ := cut_early hslash h.1 h.2
  have hbefore : ∀ t ∈ before, Segment t := fun t ht => hnames t (by simp [ht])
  have htried : ∀ c, Tried rootDir (before ++ x :: after) base c ↔
      c ∈ (sourceExtensions ((joinSlash (before ++ x :: after ++ [base])).drop
        (joinSlash (before ++ [s])).length)).map
          fun e => joinSlash (rootDir.segs ++ (before ++ [s ++ e])) := fun c => by
    unfold Tried
    dsimp only
    rw [hcut]
    exact probeSources_stem rootDir hbefore hs _ c
  have hextension : ∀ suffix, ∃ e, e ∈ sourceExtensions suffix := by
    intro suffix
    unfold sourceExtensions
    split
    · exact ⟨_, List.mem_cons_self⟩
    · split
      · exact ⟨_, List.mem_cons_self⟩
      · exact ⟨_, List.mem_cons_self⟩
  refine ⟨?_, fun c hc hmem => ?_⟩
  · obtain ⟨e, he⟩ := hextension ((joinSlash (before ++ x :: after ++ [base])).drop
      (joinSlash (before ++ [s])).length)
    exact ⟨_, (htried _).mpr (List.mem_map.mpr ⟨e, he, rfl⟩)⟩
  · obtain ⟨e, he, rfl⟩ := List.mem_map.mp ((htried c).mp hc)
    obtain ⟨e', he', heq⟩ := List.mem_map.mp hmem
    have hbase : '/' ∉ stemOf base := by
      rw [stemOf, rsplit_eq_none_iff.mpr h.1]
      exact (hnames base (by simp)).2.2.2
    -- Both texts are of paths, so they have the same names, and as many.
    have hsegs := congrArg splitSlash heq
    rw [splitSlash_joinSlash ?_ (by simp), splitSlash_joinSlash ?_ (by simp)] at hsegs
    · have hlen := congrArg List.length hsegs
      simp at hlen
    · intro t ht
      rcases List.mem_append.mp ht with ht | ht
      · exact rootDir.noSlash t ht
      · rcases List.mem_append.mp ht with ht | ht
        · exact (hbefore t ht).2.2.2
        · rw [List.mem_singleton.mp ht]
          exact (segment_extension hs he).2.2.2
    · intro t ht
      rcases List.mem_append.mp ht with ht | ht
      · exact rootDir.noSlash t ht
      · rcases List.mem_append.mp ht with ht | ht
        · exact hslash t ht
        · rw [List.mem_singleton.mp ht]
          exact (segment_extension hbase he').2.2.2

/-! ## When outputs map back -/

/-- **The sources of a target,** by what the nearest configs declare. -/
def SourceOf (chain : List OutputConfig) (startDir target : RepoPath) (c : Str) : Prop :=
  ∃ (outDir rootDir : RepoPath) (dirs : List Str) (base : Str),
    Declares chain startDir.text outDir.text rootDir.text ∧ Below target outDir dirs base ∧
      c ∈ sourcePaths rootDir dirs base

/-- A chain and a target for which the mapping is right: where the nearest value of an option
leads outside, no directory a farther config leaves is above the target; and a target below
the declared output directory is not below the repository as a whole, and has a dot in its
last segment or in none. -/
structure MapsBack (chain : List OutputConfig) (startDir target : RepoPath) : Prop where
  nearest : ∀ (outDir rootDir : RepoPath) (dirs : List Str) (base : Str),
    Reached chain startDir.text outDir.text rootDir.text → outDir.segs ≠ [] →
      Below target outDir dirs base → Declares chain startDir.text outDir.text rootDir.text
  cut : ∀ (outDir rootDir : RepoPath) (dirs : List Str) (base : Str),
    Declares chain startDir.text outDir.text rootDir.text → Below target outDir dirs base →
      outDir.segs ≠ [] ∧ ('.' ∈ base ∨ ∀ s ∈ dirs, '.' ∉ s)

/-- A path is told by its text. -/
theorem RepoPath.segs_of_text {P Q : RepoPath} (h : P.text = Q.text) : P.segs = Q.segs := by
  have hsplit : ∀ R : RepoPath, R.segs = if R.text = [] then [] else splitSlash R.text := by
    intro R
    by_cases hnil : R.segs = []
    · rw [RepoPath.text, hnil]
      rfl
    · have hne : R.text ≠ [] := by
        intro heq
        have hsegs := splitSlash_joinSlash R.noSlash hnil
        rw [show joinSlash R.segs = [] from heq] at hsegs
        exact (R.proper [] (by rw [← hsegs]; exact List.mem_singleton_self [])).1 rfl
      rw [if_neg hne, RepoPath.text, splitSlash_joinSlash R.noSlash hnil]
  rw [hsplit P, hsplit Q, h]

theorem exists_sourcePath (rootDir : RepoPath) (dirs : List Str) (base : Str) :
    ∃ c, c ∈ sourcePaths rootDir dirs base := by
  unfold sourcePaths sourceExtensions
  split
  · exact ⟨_, List.mem_cons_self⟩
  · split
    · exact ⟨_, List.mem_cons_self⟩
    · exact ⟨_, List.mem_cons_self⟩

/-- **When the paths considered are the sources.** For every chain and every target, exactly
when the chain and the target map back. -/
theorem considers_sources_iff (chain : List OutputConfig) (startDir target : RepoPath) :
    (∀ c, Considers (mappingOf chain startDir.text) target.text c ↔ SourceOf chain startDir target c) ↔
      MapsBack chain startDir target := by
  constructor
  · intro h
    constructor
    · intro O R dirs base hreached hne hbelow
      -- Something is considered, so it is a source by declared directories, and these are the same.
      have hsome : ∃ c, Tried R dirs base c := by
        by_cases hdot : '.' ∈ base ∨ ∀ s ∈ dirs, '.' ∉ s
        · obtain ⟨c, hc⟩ := exists_sourcePath R dirs base
          exact ⟨c, (tried_of_cut_last hbelow.names hdot).mpr hc⟩
        · exact (tried_of_cut_early hbelow.names hdot).1
      obtain ⟨c, hc⟩ := hsome
      obtain ⟨O', R', -, -, hdeclares, -, -⟩ :=
        (h c).mp (considers_iff.mpr ⟨O, R, dirs, base, hreached, hne, hbelow, hc⟩)
      obtain ⟨hO, hR⟩ := hdeclares.reached.unique hreached
      rwa [hO, hR] at hdeclares
    · intro O R dirs base hdeclares hbelow
      obtain ⟨c, hc⟩ := exists_sourcePath R dirs base
      obtain ⟨O', R', dirs', base', hreached, hne, hbelow', htried⟩ :=
        considers_iff.mp ((h c).mpr ⟨O, R, dirs, base, hdeclares, hbelow, hc⟩)
      obtain ⟨hO, hR⟩ := hdeclares.reached.unique hreached
      have hsegs := RepoPath.segs_of_text hO
      rw [Below, ← hsegs] at hbelow'
      obtain ⟨rfl, rfl⟩ := Below.unique hbelow hbelow'
      refine ⟨by rwa [hsegs], ?_⟩
      by_contra hdot
      refine (tried_of_cut_early hbelow.names hdot).2 c htried ?_
      unfold sourcePaths at hc ⊢
      rwa [← RepoPath.segs_of_text hR]
  · intro h c
    rw [considers_iff]
    constructor
    · rintro ⟨O, R, dirs, base, hreached, hne, hbelow, htried⟩
      have hdeclares := h.nearest O R dirs base hreached hne hbelow
      have hdot := (h.cut O R dirs base hdeclares hbelow).2
      exact ⟨O, R, dirs, base, hdeclares, hbelow, (tried_of_cut_last hbelow.names hdot).mp htried⟩
    · rintro ⟨O, R, dirs, base, hdeclares, hbelow, hc⟩
      obtain ⟨hne, hdot⟩ := h.cut O R dirs base hdeclares hbelow
      exact ⟨O, R, dirs, base, hdeclares.reached, hne, hbelow,
        (tried_of_cut_last hbelow.names hdot).mpr hc⟩

end Source

/-! ## Paths that do not map back -/

/-- A config with an output and a source directory. -/
def outputConfig (outDir rootDir : String) : OutputConfig where
  file := "p/tsconfig.json".toList
  outDir := some (.string outDir.toList)
  rootDir := some (.string rootDir.toList)

def packageDir : RepoPath := ⟨["p".toList], by simp [Segment]⟩

/-- A file without an extension in a directory with a dot. -/
def dottedTarget : RepoPath :=
  ⟨["p".toList, "dist".toList, "v1.2".toList, "cli".toList], by simp [Segment]⟩

def plainTarget : RepoPath := ⟨["p".toList, "dist".toList, "a.js".toList], by simp [Segment]⟩

/-- **Sources are missed and made up.** A dotted directory is cut, and a source directory
outside the repository is replaced by the next config's. -/
theorem outputs_not_mapped_back :
    (Considers (mappingOf [outputConfig "dist" "src"] packageDir.text) dottedTarget.text
        "p/src/v1.ts".toList ∧
      ¬ SourceOf [outputConfig "dist" "src"] packageDir dottedTarget "p/src/v1.ts".toList) ∧
    (Considers (mappingOf [outputConfig "dist" "../../x", outputConfig "dist" "src"] packageDir.text)
        plainTarget.text "p/src/a.ts".toList ∧
      ¬ SourceOf [outputConfig "dist" "../../x", outputConfig "dist" "src"] packageDir plainTarget
        "p/src/a.ts".toList) := by
  refine ⟨⟨⟨⟨"p/dist".toList, some "p/src".toList⟩, by rfl, by decide +kernel⟩, ?_⟩,
    ⟨⟨"p/dist".toList, some "p/src".toList⟩, by rfl, by decide +kernel⟩, ?_⟩
  · rintro ⟨O, R, dirs, base, ⟨hout, hroot⟩, hbelow, hc⟩
    have hO : some (Declared.inside "p/dist".toList) = some (.inside O.text) := hout
    have hR : some (Declared.inside "p/src".toList) = some (.inside R.text) :=
      hroot.resolve_right fun h => nomatch h.1
    have hOsegs : [['p'], "dist".toList] = O.segs :=
      RepoPath.segs_of_text (P := ⟨[['p'], "dist".toList], by simp [Segment]⟩)
      (Declared.inside.inj (Option.some.inj hO))
    have hRsegs : [['p'], "src".toList] = R.segs :=
      RepoPath.segs_of_text (P := ⟨[['p'], "src".toList], by simp [Segment]⟩)
      (Declared.inside.inj (Option.some.inj hR))
    have hthere : Below dottedTarget O ["v1.2".toList] "cli".toList := by
      rw [Below, ← hOsegs]
      rfl
    obtain ⟨rfl, rfl⟩ := hthere.unique hbelow
    rw [sourcePaths, ← hRsegs] at hc
    exact absurd hc (by decide +kernel)
  · rintro ⟨O, R, dirs, base, ⟨-, hroot | ⟨hnone, -⟩⟩, -, -⟩
    · cases hroot
    · cases hnone

end Devscout.Ts
