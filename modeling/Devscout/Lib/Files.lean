/-
# Devscout.Lib.Files -- directory trees with symbolic links, and path resolution

A file system is one tree of directories. A directory lists its entries: regular
files with their bytes, symbolic links with their target text, and
subdirectories. Nothing in the tree points upwards, so a `..` and a link are
resolved the way the operating system does it, with the stack of directories
passed on the way down and a budget of links.

`stat` follows links everywhere, `lstat` everywhere but in the last component,
and `at?` nowhere; `FileTree` is a tree whose names are real names and are
listed once in each directory.
-/

import Devscout.Lib.Text

namespace Devscout.Lib.Files

/-- The entries of one directory. -/
inductive Dir where
  | nil
  | file (name : Str) (bytes : Bytes) (readable : Bool) (rest : Dir)
  | link (name target : Str) (rest : Dir)
  | sub (name : Str) (child rest : Dir)
  deriving DecidableEq

/-- One entry, apart from its name. -/
inductive Item where
  | file (bytes : Bytes) (readable : Bool)
  | link (target : Str)
  | dir (d : Dir)
  deriving DecidableEq

/-- A component an entry can be called. -/
def isName (s : Str) : Bool :=
  s ≠ [] ∧ s ≠ ['.'] ∧ s ≠ ['.', '.'] ∧ '/' ∉ s ∧ Char.ofNat 0 ∉ s

namespace Dir

def names : Dir → List Str
  | nil => []
  | file n _ _ rest => n :: names rest
  | link n _ rest => n :: names rest
  | sub n _ rest => n :: names rest

/-- The entry of that name. -/
def get? : Dir → Str → Option Item
  | nil, _ => none
  | file n b r rest, s => if n = s then some (.file b r) else get? rest s
  | link n t rest, s => if n = s then some (.link t) else get? rest s
  | sub n child rest, s => if n = s then some (.dir child) else get? rest s

/-- The entry reached by names alone, following no link. -/
def at? : Dir → List Str → Option Item
  | d, [] => some (.dir d)
  | d, s :: ss =>
      match d.get? s with
      | some (.dir child) => at? child ss
      | some item => if ss = [] then some item else none
      | none => none

/-- Every directory lists each name once, and every name is one. -/
def wf : Dir → Bool
  | nil => true
  | file n _ _ rest => isName n && !(rest.names.contains n) && wf rest
  | link n _ rest => isName n && !(rest.names.contains n) && wf rest
  | sub n child rest => isName n && !(rest.names.contains n) && wf child && wf rest

theorem get?_mem_names {d : Dir} {s : Str} {item : Item} (h : d.get? s = some item) :
    s ∈ d.names := by
  induction d with
  | nil => simp [get?] at h
  | file n b r rest ih =>
      by_cases hn : n = s
      · simp [names, hn]
      · exact List.mem_cons_of_mem _ (ih (by simpa [get?, hn] using h))
  | link n t rest ih =>
      by_cases hn : n = s
      · simp [names, hn]
      · exact List.mem_cons_of_mem _ (ih (by simpa [get?, hn] using h))
  | sub n child rest _ ih =>
      by_cases hn : n = s
      · simp [names, hn]
      · exact List.mem_cons_of_mem _ (ih (by simpa [get?, hn] using h))

theorem wf_isName {d : Dir} (hd : d.wf) {s : Str} (hs : s ∈ d.names) : isName s := by
  induction d with
  | nil => simp [names] at hs
  | file n b r rest ih =>
      simp only [wf, Bool.and_eq_true] at hd
      rcases List.mem_cons.mp hs with rfl | hs
      · exact hd.1.1
      · exact ih hd.2 hs
  | link n t rest ih =>
      simp only [wf, Bool.and_eq_true] at hd
      rcases List.mem_cons.mp hs with rfl | hs
      · exact hd.1.1
      · exact ih hd.2 hs
  | sub n child rest _ ih =>
      simp only [wf, Bool.and_eq_true] at hd
      rcases List.mem_cons.mp hs with rfl | hs
      · exact hd.1.1.1
      · exact ih hd.2 hs

theorem wf_child {d child : Dir} (hd : d.wf) {s : Str} (h : d.get? s = some (.dir child)) :
    child.wf := by
  induction d with
  | nil => simp [get?] at h
  | file n b r rest ih =>
      simp only [wf, Bool.and_eq_true] at hd
      by_cases hn : n = s
      · simp [get?, hn] at h
      · exact ih hd.2 (by simpa [get?, hn] using h)
  | link n t rest ih =>
      simp only [wf, Bool.and_eq_true] at hd
      by_cases hn : n = s
      · simp [get?, hn] at h
      · exact ih hd.2 (by simpa [get?, hn] using h)
  | sub n c rest _ ih =>
      simp only [wf, Bool.and_eq_true] at hd
      by_cases hn : n = s
      · simp only [get?, hn, if_true, Option.some.injEq, Item.dir.injEq] at h
        exact h ▸ hd.1.2
      · exact ih hd.2 (by simpa [get?, hn] using h)

theorem at?_names {d : Dir} (hd : d.wf) {ss : List Str} {item : Item} (h : d.at? ss = some item) :
    ∀ s ∈ ss, isName s = true := by
  induction ss generalizing d with
  | nil => simp
  | cons s ss ih =>
      simp only [at?] at h
      cases hget : d.get? s with
      | none => simp [hget] at h
      | some found =>
          have hs := wf_isName hd (get?_mem_names hget)
          cases found with
          | dir child => exact List.forall_mem_cons.mpr ⟨hs, ih (wf_child hd hget) (by simpa [hget] using h)⟩
          | file b r =>
              by_cases hss : ss = []
              · simpa [hss] using hs
              · simp [hget, hss] at h
          | link t =>
              by_cases hss : ss = []
              · simpa [hss] using hs
              · simp [hget, hss] at h

@[simp] theorem at?_nil (d : Dir) : d.at? [] = some (.dir d) := by
  cases d <;> rfl

theorem at?_singleton (d : Dir) (s : Str) : d.at? [s] = d.get? s := by
  simp only [at?]
  cases h : d.get? s with
  | none => rfl
  | some item => cases item <;> simp

end Dir

/-! ## Path resolution -/

/-- A component that names no entry: it stays where it is. -/
def isHere (c : Str) : Bool := c = [] ∨ c = ['.']

def isUp (c : Str) : Bool := c = ['.', '.']

/-- Resolve components from a directory, `up` holding the directories above it,
the nearest first. `follow` resolves what remains once a link was met. -/
def resolveStep (follow : Dir → List Dir → Str → List Str → Option Item) :
    Dir → List Dir → List Str → Option Item
  | cur, _, [] => some (.dir cur)
  | cur, up, c :: cs =>
      if isHere c then resolveStep follow cur up cs
      else if isUp c then
        match up with
        | [] => resolveStep follow cur [] cs
        | parent :: up' => resolveStep follow parent up' cs
      else
        match cur.get? c with
        | none => none
        | some (.dir child) => resolveStep follow child (cur :: up) cs
        | some (.file b r) => if cs = [] then some (.file b r) else none
        | some (.link target) => follow cur up target cs

/-- Resolution within a budget of links. -/
def resolve : Nat → Dir → List Dir → List Str → Option Item
  | 0 => resolveStep fun _ _ _ _ => none
  | n + 1 => resolveStep fun cur up target cs =>
      if target.head? = some '/' then
        resolve n ((cur :: up).getLast (List.cons_ne_nil _ _)) [] (Text.splitSlash target ++ cs)
      else resolve n cur up (Text.splitSlash target ++ cs)

/-- How many links one lookup follows. -/
def maxLinks : Nat := 40

/-- What an absolute path names, every link followed. -/
def stat (fs : Dir) (path : List Str) : Option Item := resolve maxLinks fs [] path

/-- What an absolute path names, its last component not followed. -/
def lstat (fs : Dir) (path : List Str) : Option Item :=
  match path.getLast? with
  | none => some (.dir fs)
  | some c =>
      if isHere c || isUp c then stat fs path
      else
        match stat fs path.dropLast with
        | some (.dir d) => d.get? c
        | _ => none

/-- The bytes of the file an absolute path names. -/
def readFile (fs : Dir) (path : List Str) : Option Bytes :=
  match stat fs path with
  | some (.file b true) => some b
  | _ => none

/-- Something is there. -/
def exists? (fs : Dir) (path : List Str) : Bool := (stat fs path).isSome

theorem isName_not_here {s : Str} (h : isName s) : isHere s = false := by
  simp only [isName, decide_eq_true_eq] at h
  simp [isHere, h.1, h.2.1]

theorem isName_not_up {s : Str} (h : isName s) : isUp s = false := by
  simp only [isName, decide_eq_true_eq] at h
  simp [isUp, h.2.2.1]

theorem isName_noSlash {s : Str} (h : isName s) : '/' ∉ s := by
  simp only [isName, decide_eq_true_eq] at h
  exact h.2.2.2.1

theorem isName_ne_nil {s : Str} (h : isName s) : s ≠ [] := by
  simp only [isName, decide_eq_true_eq] at h
  exact h.1

/-! ## Well-formed trees -/

theorem resolveStep_wf {follow : Dir → List Dir → Str → List Str → Option Item}
    (hfollow : ∀ cur up t cs d, cur.wf → (∀ u ∈ up, u.wf) → follow cur up t cs = some (.dir d) → d.wf)
    {cur : Dir} {up : List Dir} {path : List Str} {d : Dir} (hcur : cur.wf)
    (hup : ∀ u ∈ up, u.wf) (h : resolveStep follow cur up path = some (.dir d)) : d.wf := by
  induction path generalizing cur up with
  | nil =>
      simp only [resolveStep, Option.some.injEq, Item.dir.injEq] at h
      exact h ▸ hcur
  | cons c cs ih =>
      simp only [resolveStep] at h
      split at h
      · exact ih hcur hup h
      · split at h
        · cases up with
          | nil => exact ih hcur hup h
          | cons parent up =>
              exact ih (hup parent List.mem_cons_self)
                (fun u hu => hup u (List.mem_cons_of_mem _ hu)) h
        · cases hget : cur.get? c with
          | none => simp [hget] at h
          | some item =>
              cases item with
              | dir child =>
                  exact ih (Dir.wf_child hcur hget) (List.forall_mem_cons.mpr ⟨hcur, hup⟩)
                    (by simpa [hget] using h)
              | file b r => by_cases hcs : cs = [] <;> simp [hget, hcs] at h
              | link t => exact hfollow _ _ _ _ _ hcur hup (by simpa [hget] using h)

theorem resolve_wf {n : Nat} {cur : Dir} {up : List Dir} {path : List Str} {d : Dir}
    (hcur : cur.wf) (hup : ∀ u ∈ up, u.wf) (h : resolve n cur up path = some (.dir d)) : d.wf := by
  induction n generalizing cur up path d with
  | zero => exact resolveStep_wf (by simp) hcur hup h
  | succ n ih =>
      refine resolveStep_wf ?_ hcur hup h
      intro cur up t cs d hcur hup h
      split at h
      · refine ih ?_ (by simp) h
        have hlast := List.getLast_mem (List.cons_ne_nil cur up)
        rcases List.mem_cons.mp hlast with heq | hmem
        · rw [heq]
          exact hcur
        · exact hup _ hmem
      · exact ih hcur hup h

theorem stat_wf {fs d : Dir} {path : List Str} (hfs : fs.wf) (h : stat fs path = some (.dir d)) :
    d.wf :=
  resolve_wf hfs (by simp) h

/-! ## Complete trees

A complete tree holds every path over some names down to some depth, and one
file in each directory. Without links the resolution of a path is its lexical
collapse, and in a complete tree that directory is always there. -/

namespace Dir

/-- One subdirectory for each name, all of them alike. -/
def subs (child : Dir) : List Str → Dir
  | [] => .nil
  | n :: ns => .sub n child (subs child ns)

/-- Every path over `names` down to a depth, with the file `leaf` everywhere. -/
def complete (names : List Str) (leaf : Str) : Nat → Dir
  | 0 => .file leaf [] true .nil
  | k + 1 => .file leaf [] true (subs (complete names leaf k) names)

@[simp] theorem names_subs (child : Dir) (ns : List Str) : (subs child ns).names = ns := by
  induction ns with
  | nil => rfl
  | cons n ns ih => simp [subs, names, ih]

theorem get?_subs {child : Dir} {ns : List Str} {s : Str} (hs : s ∈ ns) :
    (subs child ns).get? s = some (.dir child) := by
  induction ns with
  | nil => simp at hs
  | cons n ns ih =>
      by_cases hn : n = s
      · simp [subs, get?, hn]
      · simp only [subs, get?, hn, if_false]
        exact ih ((List.mem_cons.mp hs).resolve_left (Ne.symm hn))

theorem wf_subs {child : Dir} (hchild : child.wf) {ns : List Str} (hnodup : ns.Nodup)
    (hnames : ∀ s ∈ ns, isName s = true) : (subs child ns).wf := by
  induction ns with
  | nil => rfl
  | cons n ns ih =>
      obtain ⟨hn, hns⟩ := List.nodup_cons.mp hnodup
      simp [subs, wf, hn, hchild, hnames n List.mem_cons_self,
        ih hns fun s hs => hnames s (List.mem_cons_of_mem n hs)]

variable {ns : List Str} {leaf : Str}

theorem get?_complete_leaf (k : Nat) :
    (complete ns leaf k).get? leaf = some (.file [] true) := by
  cases k <;> simp [complete, get?]

theorem get?_complete (hleaf : leaf ∉ ns) {s : Str} (hs : s ∈ ns) (k : Nat) :
    (complete ns leaf (k + 1)).get? s = some (.dir (complete ns leaf k)) := by
  have hne : leaf ≠ s := fun h => hleaf (h ▸ hs)
  simp [complete, get?, hne, get?_subs hs]

theorem wf_complete (hleafName : isName leaf = true) (hleaf : leaf ∉ ns) (hnodup : ns.Nodup)
    (hnames : ∀ s ∈ ns, isName s = true) (k : Nat) : (complete ns leaf k).wf := by
  induction k with
  | zero => simp [complete, wf, hleafName, names]
  | succ k ih => simp [complete, wf, hleafName, hleaf, wf_subs ih hnodup hnames]

theorem at?_complete_leaf (hleaf : leaf ∉ ns) {segs : List Str} (hsegs : ∀ s ∈ segs, s ∈ ns)
    {k : Nat} (hk : segs.length ≤ k) :
    (complete ns leaf k).at? (segs ++ [leaf]) = some (.file [] true) := by
  induction segs generalizing k with
  | nil => simp [at?, get?_complete_leaf]
  | cons s ss ih =>
      obtain ⟨hs, hss⟩ := List.forall_mem_cons.mp hsegs
      cases k with
      | zero => simp at hk
      | succ k =>
          simp only [List.cons_append, at?, get?_complete hleaf hs]
          exact ih hss (by simpa using hk)

end Dir

/-- The lexical collapse of a path, from a directory given by its names. -/
def collapse (start path : List Str) : List Str :=
  path.foldl
    (fun out c => if isHere c then out else if isUp c then out.dropLast else out ++ [c]) start

/-- The directories above depth `j` of a complete tree of depth `N`. -/
def completeUp (ns : List Str) (leaf : Str) (N : Nat) : Nat → List Dir
  | 0 => []
  | j + 1 => Dir.complete ns leaf (N - j) :: completeUp ns leaf N j

theorem resolveStep_complete {follow : Dir → List Dir → Str → List Str → Option Item}
    {ns : List Str} {leaf : Str} (hleaf : leaf ∉ ns) {N : Nat} {path : List Str}
    (hpath : ∀ c ∈ path, isHere c = true ∨ isUp c = true ∨ c ∈ ns) (start : List Str)
    (hN : start.length + path.length ≤ N) :
    resolveStep follow (Dir.complete ns leaf (N - start.length)) (completeUp ns leaf N start.length)
        path = some (.dir (Dir.complete ns leaf (N - (collapse start path).length))) := by
  induction path generalizing start with
  | nil => rfl
  | cons c cs ih =>
      obtain ⟨hc, hcs⟩ := List.forall_mem_cons.mp hpath
      simp only [List.length_cons] at hN
      simp only [resolveStep, collapse, List.foldl_cons]
      by_cases hhere : isHere c
      · simp only [hhere, if_true]
        exact ih hcs start (by omega)
      · by_cases hup : isUp c
        · simp only [hhere, hup, if_true, Bool.false_eq_true, if_false]
          have hdrop : start.dropLast.length = start.length - 1 := List.length_dropLast
          have hrest := ih hcs start.dropLast (by omega)
          cases hlen : start.length with
          | zero => simpa [completeUp, hdrop, hlen, collapse] using hrest
          | succ j => simpa [completeUp, hdrop, hlen, collapse] using hrest
        · have hmem : c ∈ ns := by simpa [hhere, hup] using hc
          have hdepth : N - start.length = N - (start.length + 1) + 1 := by omega
          have hrest := ih hcs (start ++ [c]) (by simp; omega)
          simp only [hhere, hup, Bool.false_eq_true, if_false]
          rw [hdepth, Dir.get?_complete hleaf hmem]
          simp only [List.length_append, List.length_singleton, completeUp] at hrest
          rw [← hdepth]
          exact hrest

/-- Every path over the names of a complete tree is a directory, the one its
lexical collapse names. -/
theorem stat_complete {ns : List Str} {leaf : Str} (hleaf : leaf ∉ ns) {N : Nat} {path : List Str}
    (hpath : ∀ c ∈ path, isHere c = true ∨ isUp c = true ∨ c ∈ ns) (hN : path.length ≤ N) :
    stat (Dir.complete ns leaf N) path =
      some (.dir (Dir.complete ns leaf (N - (collapse [] path).length))) := by
  rw [stat, maxLinks, resolve]
  exact resolveStep_complete hleaf hpath [] (by simpa using hN)

/-- A directory tree a file system can hold. -/
structure FileTree where
  dir : Dir
  wf : dir.wf = true
  deriving DecidableEq

end Devscout.Lib.Files
