/-
# Devscout.Registry -- registering roots in the machine-local registry

Every repository of the machine writes its root into one file. A registration reads the whole
file, changes the entries of its own root or appends one, and puts the result in place with one
rename, so no reader sees half a file. No lock is held from the read to the rename: a
registration that another one committed in between is replaced together with the file.

The file is taken as the value that its text reads as. A run here is any order of the reads and
renames of any number of calls, with failures wherever the code can fail. A run in which every
rename finds the file as its call read it loses nothing, and a lock held over the two steps is
enough for that.
-/

import Devscout.HookInstall
import Mathlib

namespace Devscout.Registry

open Lib Relation

/-! ## One registration -/

def rootsKey : Str := "roots".toList
def rootKey : Str := "root".toList
def kindKey : Str := "kind".toList
def labelKey : Str := "label".toList
def scopeKey : Str := "scope".toList
def initializedKey : Str := "initialized".toList
def lastSeenKey : Str := "last_seen".toList

/-- What stands at the path of the registry. -/
inductive RegistryFile where
  | missing
  | corrupt (detail : Str)
  | holds (v : Value)

def emptyRegistry : Value := .object [(rootsKey, .array [])]

def hasRootsArray (v : Value) : Bool :=
  match v.get rootsKey with
  | some (.array _) => true
  | _ => false

/-- `read_registry_value`. -/
def readRegistryValue (path : Str) : RegistryFile → Except Str Value
  | .missing => .ok emptyRegistry
  | .corrupt detail => .error ("registry at ".toList ++ path ++ " is not valid JSON: ".toList ++ detail)
  | .holds v =>
      if hasRootsArray v then .ok v
      else .error ("registry at ".toList ++ path ++ " has no \"roots\" array".toList)

/-- The arguments of one `register_root` call, with the day it runs on. -/
structure Call where
  root : Str
  kind : Str
  label : Option Str
  scope : List Str
  stamp : Str

/-- `new_entry_value`. -/
def newEntryValue (c : Call) : Value := .object [(rootKey, .string c.root), (kindKey, .string c.kind),
  (labelKey, (c.label.map Value.string).getD .null), (scopeKey, .array (c.scope.map Value.string)),
  (initializedKey, .string c.stamp), (lastSeenKey, .string c.stamp)]

/-- The label is overwritten by one that says something. -/
def updateLabel (entry : Value) : Option Str → Value
  | some (a :: l) => setField entry labelKey (.string (a :: l))
  | _ => entry

def updateScope (entry : Value) : List Str → Value
  | [] => entry
  | d :: ds => setField entry scopeKey (.array ((d :: ds).map Value.string))

/-- `update_entry_value`. -/
def updateEntryValue (entry : Value) (c : Call) : Value :=
  setField (updateScope (updateLabel (setField entry kindKey (.string c.kind)) c.label) c.scope)
    lastSeenKey (.string c.stamp)

/-- The root an entry is filed under. -/
def entryRoot (entry : Value) : Option Str := (entry.get rootKey).bind Value.asStr

/-- The entries of a registry. -/
def rootsOf (registry : Value) : List Value :=
  match registry.get rootsKey with
  | some (.array items) => items
  | _ => []

/-- The loop of `register_root`: the entries of the root are updated, or one is appended. -/
def newRoots (c : Call) (roots : List Value) : List Value :=
  let out := roots.map fun e => if entryRoot e = some c.root then updateEntryValue e c else e
  if roots.any (entryRoot · == some c.root) then out else out ++ [newEntryValue c]

/-- `register_root` between its read and its write. -/
def registered (c : Call) (registry : Value) : Value :=
  setField registry rootsKey (.array (newRoots c (rootsOf registry)))

/-! ## Runs -/

/-- How far a call has come: not begun, past its read, or back with its answer. -/
inductive Phase where
  | start
  | seen (v : Value)
  | returned (answer : Except Str Unit)

/-- The file, and the calls that run over it. -/
structure Sys (n : Nat) where
  file : RegistryFile
  phase : Fin n → Phase

variable {path : Str} {calls : List Call}

/-- Before the first step. -/
def Sys.init (calls : List Call) (file : RegistryFile) : Sys calls.length := ⟨file, fun _ => .start⟩

/-- One step of one call. -/
inductive Step (path : Str) (calls : List Call) : Sys calls.length → Sys calls.length → Prop
  | read (s : Sys calls.length) (i : Fin calls.length) (v : Value) (hphase : s.phase i = .start)
      (hread : readRegistryValue path s.file = .ok v) :
      Step path calls s { s with phase := Function.update s.phase i (.seen v) }
  | refuse (s : Sys calls.length) (i : Fin calls.length) (e : Str) (hphase : s.phase i = .start)
      (hread : readRegistryValue path s.file = .error e) :
      Step path calls s { s with phase := Function.update s.phase i (.returned (.error e)) }
  | rename (s : Sys calls.length) (i : Fin calls.length) (v : Value) (hphase : s.phase i = .seen v) :
      Step path calls s
        ⟨.holds (registered (calls.get i) v), Function.update s.phase i (.returned (.ok ()))⟩
  -- reading the file, creating its directory, writing the temporary file or the rename fails
  | fail (s : Sys calls.length) (i : Fin calls.length) (e : Str)
      (hphase : ∀ a, s.phase i ≠ .returned a) :
      Step path calls s { s with phase := Function.update s.phase i (.returned (.error e)) }

/-- A call that renames finds the registry as it read it. -/
def Current (path : Str) (s s' : Sys calls.length) : Prop :=
  ∀ i v, s.phase i = .seen v → s'.phase i = .returned (.ok ()) → readRegistryValue path s.file = .ok v

/-- No call reads while another one is between its read and its rename. -/
def Exclusive (s s' : Sys calls.length) : Prop :=
  ∀ i v, s.phase i = .start → s'.phase i = .seen v → ∀ j w, s.phase j ≠ .seen w

/-! ## What registrations owe -/

/-- The registry has the root of the call, and under it nothing but the call's kind. -/
structure Holds (c : Call) (registry : Value) : Prop where
  present : ∃ e ∈ rootsOf registry, entryRoot e = some c.root
  kind : ∀ e ∈ rootsOf registry, entryRoot e = some c.root → e.get kindKey = some (.string c.kind)

/-- An entry that is filed under the root of no call. -/
def otherEntry (calls : List Call) (e : Value) : Bool := calls.all fun c => entryRoot e != some c.root

/-- The top-level fields other than the entries. -/
def otherFields (registry : Value) : List (Str × Value) :=
  (registry.asObject.getD []).filter (·.1 != rootsKey)

/-- Nothing but the roots of the calls has changed. -/
structure Framed (calls : List Call) (start registry : Value) : Prop where
  entries : (rootsOf registry).filter (otherEntry calls) = (rootsOf start).filter (otherEntry calls)
  fields : otherFields registry = otherFields start

/-- No registration is lost. -/
structure Registered (calls : List Call) (start final : Value) : Prop where
  holds : ∀ c ∈ calls, Holds c final
  framed : Framed calls start final

/-! ## Fields -/

section Fields

variable {v new : Value} {key key' : Str}

theorem get_setField : (setField v key new).get key = some new := by
  show (setFields (v.asObject.getD []) key new).lookup key = some new
  exact lookup_setFields

theorem lookup_setFields_ne {fields : List (Str × Value)} (h : key' ≠ key) :
    (setFields fields key new).lookup key' = fields.lookup key' := by
  have hmap : (fields.map fun e => if e.1 = key then (e.1, new) else e).lookup key' =
      fields.lookup key' := by
    induction fields with
    | nil => rfl
    | cons e es ih =>
        rw [List.map_cons]
        split
        · rename_i heq
          rw [List.lookup_cons, List.lookup_cons, heq, beq_false_of_ne h]
          exact ih
        · rw [List.lookup_cons, List.lookup_cons, ih]
  rw [setFields]
  split
  · exact hmap
  · rw [List.lookup_append, hmap, List.lookup_cons, beq_false_of_ne h]
    exact Option.or_none

theorem get_setField_ne (h : key' ≠ key) : (setField v key new).get key' = v.get key' := by
  show (setFields (v.asObject.getD []) key new).lookup key' = v.asObject.bind (·.lookup key')
  rw [lookup_setFields_ne h]
  cases v.asObject with
  | none => rfl
  | some fields => rfl

theorem otherFields_setField : otherFields (setField v rootsKey new) = otherFields v := by
  show (setFields (v.asObject.getD []) rootsKey new).filter (·.1 != rootsKey) = _
  rw [otherFields]
  generalize v.asObject.getD [] = fields
  have hmap : (fields.map fun e => if e.1 = rootsKey then (e.1, new) else e).filter (·.1 != rootsKey) =
      fields.filter (·.1 != rootsKey) := by
    induction fields with
    | nil => rfl
    | cons e es ih =>
        rw [List.map_cons, List.filter_cons, List.filter_cons, ih]
        split
        · rename_i heq
          simp [heq]
        · rfl
  rw [setFields]
  split
  · exact hmap
  · rw [List.filter_append, hmap]
    simp

end Fields

/-! ## Entries -/

section Entries

variable {c c' : Call} {e v : Value}

theorem entryRoot_newEntry : entryRoot (newEntryValue c) = some c.root := rfl

theorem kind_newEntry : (newEntryValue c).get kindKey = some (.string c.kind) := rfl

theorem get_updateLabel {key : Str} (h : key ≠ labelKey) (label : Option Str) :
    (updateLabel e label).get key = e.get key := by
  match label with
  | none => rfl
  | some [] => rfl
  | some (a :: l) => exact get_setField_ne h

theorem get_updateScope {key : Str} (h : key ≠ scopeKey) (scope : List Str) :
    (updateScope e scope).get key = e.get key := by
  match scope with
  | [] => rfl
  | d :: ds => exact get_setField_ne h

theorem entryRoot_update : entryRoot (updateEntryValue e c) = entryRoot e := by
  rw [entryRoot, updateEntryValue, get_setField_ne (by decide), get_updateScope (by decide),
    get_updateLabel (by decide), get_setField_ne (by decide), ← entryRoot]

theorem kind_update : (updateEntryValue e c).get kindKey = some (.string c.kind) := by
  rw [updateEntryValue, get_setField_ne (by decide), get_updateScope (by decide),
    get_updateLabel (by decide), get_setField]

/-- What stands in the entries after a registration. -/
theorem mem_newRoots {roots : List Value} (h : e ∈ newRoots c roots) :
    (entryRoot e = some c.root ∧ e.get kindKey = some (.string c.kind)) ∨
      (entryRoot e ≠ some c.root ∧ e ∈ roots) := by
  have hout : e ∈ (roots.map fun e => if entryRoot e = some c.root then updateEntryValue e c else e) →
      (entryRoot e = some c.root ∧ e.get kindKey = some (.string c.kind)) ∨
        (entryRoot e ≠ some c.root ∧ e ∈ roots) := by
    intro hmem
    obtain ⟨old, hold, rfl⟩ := List.mem_map.mp hmem
    split
    · rename_i heq
      exact Or.inl ⟨entryRoot_update.trans heq, kind_update⟩
    · rename_i hne
      exact Or.inr ⟨hne, hold⟩
  rw [newRoots] at h
  split at h
  · exact hout h
  · rcases List.mem_append.mp h with hmem | hnew
    · exact hout hmem
    · rw [List.mem_singleton] at hnew
      subst hnew
      exact Or.inl ⟨entryRoot_newEntry, kind_newEntry⟩

/-- An entry of another root stays. -/
theorem mem_newRoots_of_ne {roots : List Value} (h : e ∈ roots) (hne : entryRoot e ≠ some c.root) :
    e ∈ newRoots c roots := by
  have hout : e ∈ roots.map fun e => if entryRoot e = some c.root then updateEntryValue e c else e :=
    List.mem_map.mpr ⟨e, h, if_neg hne⟩
  rw [newRoots]
  split
  · exact hout
  · exact List.mem_append_left _ hout

theorem exists_newRoots (c : Call) (roots : List Value) :
    ∃ e ∈ newRoots c roots, entryRoot e = some c.root := by
  rw [newRoots]
  split
  · rename_i hany
    obtain ⟨old, hold, heq⟩ := List.any_eq_true.mp hany
    rw [beq_iff_eq] at heq
    exact ⟨updateEntryValue old c, List.mem_map.mpr ⟨old, hold, if_pos heq⟩, entryRoot_update.trans heq⟩
  · exact ⟨newEntryValue c, List.mem_append_right _ List.mem_cons_self, entryRoot_newEntry⟩

/-- The entries of all other roots, in their order. -/
theorem filter_newRoots (hc : c ∈ calls) (roots : List Value) :
    (newRoots c roots).filter (otherEntry calls) = roots.filter (otherEntry calls) := by
  -- an entry of the call's own root is no other entry, before and after it is updated
  have hmine : ∀ e : Value, entryRoot e = some c.root → otherEntry calls e = false := fun e heq =>
    List.all_eq_false.mpr ⟨c, hc, by rw [heq, bne_self_eq_false]; exact Bool.false_ne_true⟩
  have hmap : (roots.map fun e => if entryRoot e = some c.root then updateEntryValue e c else e).filter
      (otherEntry calls) = roots.filter (otherEntry calls) := by
    induction roots with
    | nil => rfl
    | cons e es ih =>
        rw [List.map_cons, List.filter_cons, List.filter_cons, ih]
        split
        · rename_i heq
          rw [hmine _ heq, hmine _ (entryRoot_update.trans heq)]
          rfl
        · rfl
  rw [newRoots]
  split
  · exact hmap
  · rw [List.filter_append, hmap, List.filter_cons, hmine _ entryRoot_newEntry]
    simp

@[simp] theorem rootsOf_registered : rootsOf (registered c v) = newRoots c (rootsOf v) := by
  rw [rootsOf, registered, get_setField]

@[simp] theorem hasRootsArray_registered : hasRootsArray (registered c v) = true := by
  rw [hasRootsArray, registered, get_setField]

/-- What is written can be read. -/
theorem readRegistryValue_registered :
    readRegistryValue path (.holds (registered c v)) = .ok (registered c v) :=
  if_pos hasRootsArray_registered

/-- A registration is in the registry it writes. -/
theorem holds_registered (c : Call) (v : Value) : Holds c (registered c v) := by
  refine ⟨?_, fun e he hroot => ?_⟩
  · rw [rootsOf_registered]
    exact exists_newRoots c _
  · rw [rootsOf_registered] at he
    rcases mem_newRoots he with ⟨-, hkind⟩ | ⟨hne, -⟩
    · exact hkind
    · exact absurd hroot hne

/-- A registration of another root leaves it there. -/
theorem Holds.registered (h : Holds c' v) (hne : c'.root ≠ c.root) : Holds c' (registered c v) := by
  have hother : ∀ {e : Value}, entryRoot e = some c'.root → entryRoot e ≠ some c.root := fun heq hc =>
    hne (Option.some.inj (heq.symm.trans hc))
  refine ⟨?_, fun e he hroot => ?_⟩
  · obtain ⟨e, he, hroot⟩ := h.present
    rw [rootsOf_registered]
    exact ⟨e, mem_newRoots_of_ne he (hother hroot), hroot⟩
  · rw [rootsOf_registered] at he
    rcases mem_newRoots he with ⟨hmine, -⟩ | ⟨-, hold⟩
    · exact absurd hmine (hother hroot)
    · exact h.kind e hold hroot

theorem Framed.registered {start : Value} (h : Framed calls start v) (hc : c ∈ calls) :
    Framed calls start (registered c v) where
  entries := by rw [rootsOf_registered, filter_newRoots hc, h.entries]
  fields := by rw [Registry.registered, otherFields_setField, h.fields]

end Entries

/-! ## Runs whose renames are current -/

/-- The file can be read, it has every call that is back without an error, and it differs from the
first one in the roots of the calls only. -/
def Kept (path : Str) (calls : List Call) (start : Value) (s : Sys calls.length) : Prop :=
  ∃ v, readRegistryValue path s.file = .ok v ∧
    (∀ i, s.phase i = .returned (.ok ()) → Holds (calls.get i) v) ∧ Framed calls start v

variable {start : Value} {s s' : Sys calls.length}

/-- A call that comes no further than an error or a read has registered nothing. -/
theorem back_of_update {i j : Fin calls.length} {p : Phase} (hp : p ≠ .returned (.ok ()))
    (h : Function.update s.phase i p j = .returned (.ok ())) : s.phase j = .returned (.ok ()) := by
  rcases eq_or_ne j i with rfl | hne
  · rw [Function.update_self] at h
    exact absurd h hp
  · rwa [Function.update_of_ne hne] at h

theorem Kept.phase {i : Fin calls.length} {p : Phase} (h : Kept path calls start s)
    (hp : p ≠ .returned (.ok ())) :
    Kept path calls start { s with phase := Function.update s.phase i p } := by
  obtain ⟨v, hread, hholds, hframed⟩ := h
  exact ⟨v, hread, fun j hj => hholds j (back_of_update hp hj), hframed⟩

/-- Different calls have different roots. -/
theorem index_of_root (hroots : (calls.map Call.root).Nodup) {i j : Fin calls.length}
    (h : (calls.get j).root = (calls.get i).root) : j = i := by
  have hcall : calls.get j = calls.get i :=
    List.inj_on_of_nodup_map hroots (List.get_mem calls j) (List.get_mem calls i) h
  exact (List.Nodup.of_map _ hroots).get_inj_iff.mp hcall

/-- One step keeps it, where a rename finds what its call read. -/
theorem Kept.step (hroots : (calls.map Call.root).Nodup) (h : Kept path calls start s)
    (hstep : Step path calls s s') (hcurrent : Current path s s') : Kept path calls start s' := by
  cases hstep with
  | read i v hphase hread => exact h.phase (by simp)
  | refuse i e hphase hread => exact h.phase (by simp)
  | fail i e hphase => exact h.phase (by simp)
  | rename i v hphase =>
      obtain ⟨w, hread, hholds, hframed⟩ := h
      -- what the call read is what stands there now
      have hv := hcurrent i v hphase (Function.update_self ..)
      obtain rfl : w = v := Except.ok.inj (hread.symm.trans hv)
      refine ⟨_, readRegistryValue_registered, fun j hj => ?_,
        hframed.registered (List.get_mem calls i)⟩
      rcases eq_or_ne j i with rfl | hne
      · exact holds_registered _ _
      · have hold : s.phase j = .returned (.ok ()) := (Function.update_of_ne hne _ _).symm.trans hj
        refine (hholds j hold).registered fun heq => hne ?_
        exact index_of_root hroots heq

theorem Kept.run {file : RegistryFile} (hstart : readRegistryValue path file = .ok start)
    (hroots : (calls.map Call.root).Nodup)
    (hrun : ReflTransGen (fun a b => Step path calls a b ∧ Current path a b) (Sys.init calls file) s) :
    Kept path calls start s := by
  induction hrun with
  | refl => exact ⟨start, hstart, nofun, rfl, rfl⟩
  | tail _ hstep ih => exact ih.step hroots hstep.1 hstep.2

/-- **No registration is lost while renames are current.** Once all calls are back, every root of
theirs is in the registry under its kind, and the rest is as it was. -/
theorem registered_of_current (path : Str) (calls : List Call) (file : RegistryFile) (start : Value)
    (s : Sys calls.length) (hstart : readRegistryValue path file = .ok start)
    (hroots : (calls.map Call.root).Nodup)
    (hrun : ReflTransGen (fun a b => Step path calls a b ∧ Current path a b) (Sys.init calls file) s)
    (hback : ∀ i, s.phase i = .returned (.ok ())) :
    ∃ final, readRegistryValue path s.file = .ok final ∧ Registered calls start final := by
  obtain ⟨v, hread, hholds, hframed⟩ := Kept.run hstart hroots hrun
  refine ⟨v, hread, fun c hc => ?_, hframed⟩
  obtain ⟨i, rfl⟩ := List.get_of_mem hc
  exact hholds i (hback i)

/-- Two registrations, one after the other. -/
theorem registered_inTurn :
    Registered [⟨['a'], ['g'], none, [], ['1']⟩, ⟨['b'], ['p'], some ['l'], [['s']], ['2']⟩]
      (.object [(['v'], .null), (rootsKey, .array [])])
      (registered ⟨['b'], ['p'], some ['l'], [['s']], ['2']⟩
        (registered ⟨['a'], ['g'], none, [], ['1']⟩
          (.object [(['v'], .null), (rootsKey, .array [])]))) := by
  let start := Value.object [(['v'], .null), (rootsKey, .array [])]
  let a : Call := ⟨['a'], ['g'], none, [], ['1']⟩
  let b : Call := ⟨['b'], ['p'], some ['l'], [['s']], ['2']⟩
  let first : Sys [a, b].length := Sys.init [a, b] (.holds start)
  let afterRead := { first with phase := Function.update first.phase 0 (.seen start) }
  let afterA : Sys [a, b].length :=
    ⟨.holds (registered a start), Function.update afterRead.phase 0 (.returned (.ok ()))⟩
  let againRead := { afterA with phase := Function.update afterA.phase 1 (.seen (registered a start)) }
  let last : Sys [a, b].length :=
    ⟨.holds (registered b (registered a start)), Function.update againRead.phase 1 (.returned (.ok ()))⟩
  have hrun : ReflTransGen (fun s s' => Step [] [a, b] s s' ∧ Current [] s s') first last := by
    refine .tail (.tail (.tail (.tail .refl ⟨.read first 0 start rfl rfl, ?_⟩)
      ⟨.rename afterRead 0 start rfl, ?_⟩) ⟨.read afterA 1 _ rfl rfl, ?_⟩)
      ⟨.rename againRead 1 _ rfl, ?_⟩
    · intro i v hseen
      exact absurd hseen (by simp [first, Sys.init])
    · intro i v hseen hback
      match i with
      | 0 => exact congrArg Except.ok (Phase.seen.inj hseen)
      | 1 => exact absurd hseen (by simp [first, Sys.init])
    · intro i v hseen
      match i with
      | 0 => exact absurd hseen (by simp)
      | 1 => exact absurd hseen (by simp [afterRead, first, Sys.init])
    · intro i v hseen hback
      match i with
      | 0 => exact absurd hseen (by simp [afterA])
      | 1 => exact congrArg Except.ok (Phase.seen.inj hseen)
  have hback : ∀ i, last.phase i = .returned (.ok ()) := by
    intro i
    match i with
    | 0 => rfl
    | 1 => rfl
  obtain ⟨final, hread, hfinal⟩ :=
    registered_of_current [] [a, b] (.holds start) start last rfl (by decide) hrun hback
  exact Except.ok.inj hread ▸ hfinal

/-- **The second rename takes back the first.** Both calls read the empty registry; the root of the
one that renames first is gone when both are back. -/
theorem firstRoot_lost : ¬∀ (path : Str) (calls : List Call) (file : RegistryFile) (start : Value)
    (s : Sys calls.length), readRegistryValue path file = .ok start → (calls.map Call.root).Nodup →
    ReflTransGen (Step path calls) (Sys.init calls file) s → (∀ i, s.phase i = .returned (.ok ())) →
    ∃ final, readRegistryValue path s.file = .ok final ∧ Registered calls start final := by
  intro h
  let a : Call := ⟨['a'], ['g'], none, [], ['1']⟩
  let b : Call := ⟨['b'], ['g'], none, [], ['1']⟩
  let first : Sys [a, b].length := Sys.init [a, b] .missing
  let readA := { first with phase := Function.update first.phase 0 (.seen emptyRegistry) }
  let readB := { readA with phase := Function.update readA.phase 1 (.seen emptyRegistry) }
  let doneB : Sys [a, b].length :=
    ⟨.holds (registered b emptyRegistry), Function.update readB.phase 1 (.returned (.ok ()))⟩
  let doneA : Sys [a, b].length :=
    ⟨.holds (registered a emptyRegistry), Function.update doneB.phase 0 (.returned (.ok ()))⟩
  have hrun : ReflTransGen (Step [] [a, b]) first doneA :=
    .tail (.tail (.tail (.tail .refl (.read first 0 _ rfl rfl)) (.read readA 1 _ rfl rfl))
      (.rename readB 1 _ rfl)) (.rename doneB 0 _ rfl)
  have hback : ∀ i, doneA.phase i = .returned (.ok ()) := by
    intro i
    match i with
    | 0 => rfl
    | 1 => rfl
  obtain ⟨final, hread, hfinal⟩ := h [] [a, b] .missing emptyRegistry doneA rfl (by decide) hrun hback
  obtain rfl : registered a emptyRegistry = final := Except.ok.inj hread
  obtain ⟨e, he, hroot⟩ := (hfinal.holds b (by simp)).present
  -- the one entry of the registry is the other call's
  have hentry : e = newEntryValue a := List.mem_singleton.mp he
  rw [hentry, entryRoot_newEntry] at hroot
  exact absurd hroot (by decide)

/-! ## A lock from the read to the rename -/

/-- What a call has read is what stands in the file, and one call at a time has read. -/
structure Locked (path : Str) (s : Sys calls.length) : Prop where
  current : ∀ i v, s.phase i = .seen v → readRegistryValue path s.file = .ok v
  single : ∀ i j v w, s.phase i = .seen v → s.phase j = .seen w → i = j

theorem seen_of_update {i j : Fin calls.length} {v : Value} {answer : Except Str Unit}
    (h : Function.update s.phase i (.returned answer) j = .seen v) : j ≠ i ∧ s.phase j = .seen v := by
  rcases eq_or_ne j i with rfl | hne
  · rw [Function.update_self] at h
    exact nomatch h
  · rw [Function.update_of_ne hne] at h
    exact ⟨hne, h⟩

theorem Locked.returned {i : Fin calls.length} {answer : Except Str Unit} (h : Locked path s) :
    Locked path { s with phase := Function.update s.phase i (.returned answer) } where
  current := fun j v hj => h.current j v (seen_of_update hj).2
  single := fun j k v w hj hk => h.single j k v w (seen_of_update hj).2 (seen_of_update hk).2

theorem Locked.step (h : Locked path s) (hstep : Step path calls s s') (hexclusive : Exclusive s s') :
    Locked path s' := by
  cases hstep with
  | refuse i e hphase hread => exact h.returned
  | fail i e hphase => exact h.returned
  | read i v hphase hread =>
      -- the call that reads is the only one between its two steps
      have hnone := hexclusive i v hphase (Function.update_self ..)
      have hmine : ∀ j w, Function.update s.phase i (.seen v) j = .seen w → j = i ∧ w = v := by
        intro j w hj
        rcases eq_or_ne j i with rfl | hne
        · rw [Function.update_self] at hj
          exact ⟨rfl, (Phase.seen.inj hj).symm⟩
        · rw [Function.update_of_ne hne] at hj
          exact absurd hj (hnone j w)
      refine ⟨fun j w hj => ?_, fun j k w x hj hk => (hmine j w hj).1.trans (hmine k x hk).1.symm⟩
      rw [(hmine j w hj).2]
      exact hread
  | rename i v hphase =>
      have hnone : ∀ j w, Function.update s.phase i (.returned (.ok ())) j ≠ .seen w := fun j w hj =>
        (seen_of_update hj).1 (h.single j i w v (seen_of_update hj).2 hphase)
      exact ⟨fun j w hj => absurd hj (hnone j w), fun j k w x hj => absurd hj (hnone j w)⟩

/-- **A lock is enough.** Where no call reads between another one's read and rename, every rename is
current. -/
theorem current_of_exclusive {file : RegistryFile}
    (hrun : ReflTransGen (fun a b => Step path calls a b ∧ Exclusive a b) (Sys.init calls file) s) :
    ReflTransGen (fun a b => Step path calls a b ∧ Current path a b) (Sys.init calls file) s ∧
      Locked path s := by
  induction hrun with
  | refl => exact ⟨.refl, nofun, nofun⟩
  | tail _ hstep ih =>
      exact ⟨ih.1.tail ⟨hstep.1, fun i v hseen _ => ih.2.current i v hseen⟩, ih.2.step hstep.1 hstep.2⟩

/-! ## Registering again -/

section Again

variable {fields : List (Str × Value)} {e v new new' : Value} {key key' : Str} {c : Call}

theorem setFields_eq_self_iff : setFields fields key new = fields ↔
    (∃ e ∈ fields, e.1 = key) ∧ ∀ e ∈ fields, e.1 = key → e.2 = new := by
  have hany : fields.any (·.1 == key) = true ↔ ∃ e ∈ fields, e.1 = key := by
    simp only [List.any_eq_true, beq_iff_eq]
  rw [setFields, ← hany]
  split
  · rename_i h
    rw [map_set_eq_self_iff]
    exact ⟨fun hall => ⟨h, hall⟩, And.right⟩
  · rename_i h
    refine ⟨fun heq => ?_, fun hboth => absurd hboth.1 h⟩
    have hlen := congrArg List.length heq
    rw [List.length_append, List.length_map, List.length_singleton] at hlen
    omega

theorem mem_setFields {f : Str × Value} : f ∈ setFields fields key new ↔
    f = (key, new) ∨ f.1 ≠ key ∧ f ∈ fields := by
  have hmap : f ∈ (fields.map fun e => if e.1 = key then (e.1, new) else e) ↔
      f = (key, new) ∧ (∃ e ∈ fields, e.1 = key) ∨ f.1 ≠ key ∧ f ∈ fields := by
    rw [List.mem_map]
    constructor
    · rintro ⟨e, he, rfl⟩
      split
      · rename_i heq
        exact Or.inl ⟨by rw [heq], e, he, heq⟩
      · rename_i hne
        exact Or.inr ⟨hne, he⟩
    · rintro (⟨rfl, e, he, rfl⟩ | ⟨hne, hf⟩)
      · exact ⟨e, he, if_pos rfl⟩
      · exact ⟨f, hf, if_neg hne⟩
  rw [setFields]
  split
  · rename_i h
    simp only [List.any_eq_true, beq_iff_eq] at h
    rw [hmap, and_iff_left h]
  · rename_i h
    simp only [List.any_eq_true, beq_iff_eq] at h
    rw [List.mem_append, hmap, List.mem_singleton, or_comm, iff_false_intro h, and_false, false_or]

/-- Setting a field again changes nothing. -/
theorem setFields_again : setFields (setFields fields key new) key new = setFields fields key new := by
  refine setFields_eq_self_iff.mpr ⟨⟨_, mem_setFields.mpr (Or.inl rfl), rfl⟩, fun f hf hkey => ?_⟩
  rcases mem_setFields.mp hf with rfl | ⟨hne, -⟩
  · rfl
  · exact absurd hkey hne

/-- A field that is set stays set when another one is. -/
theorem setFields_kept (h : setFields fields key new = fields) (hne : key ≠ key') :
    setFields (setFields fields key' new') key new = setFields fields key' new' := by
  obtain ⟨⟨f, hf, hkey⟩, hall⟩ := setFields_eq_self_iff.mp h
  refine setFields_eq_self_iff.mpr
    ⟨⟨f, mem_setFields.mpr (Or.inr ⟨hkey.trans_ne hne, hf⟩), hkey⟩, fun f hf hkey => ?_⟩
  rcases mem_setFields.mp hf with rfl | ⟨-, hf⟩
  · exact absurd hkey.symm hne
  · exact hall f hf hkey

theorem setField_again : setField (setField v key new) key new = setField v key new :=
  congrArg Value.object setFields_again

theorem setField_kept (h : setField v key new = v) (hne : key ≠ key') :
    setField (setField v key' new') key new = setField v key' new' := by
  have hfields : setFields (v.asObject.getD []) key new = v.asObject.getD [] := by
    conv_rhs => rw [← h]
    rfl
  exact congrArg Value.object (setFields_kept hfields hne)

theorem updateLabel_kept (h : setField e key new = e) (hne : key ≠ labelKey) (label : Option Str) :
    setField (updateLabel e label) key new = updateLabel e label := by
  rcases label with _ | _ | ⟨a, l⟩
  · exact h
  · exact h
  · exact setField_kept h hne

theorem updateScope_kept (h : setField e key new = e) (hne : key ≠ scopeKey) (scope : List Str) :
    setField (updateScope e scope) key new = updateScope e scope := by
  cases scope with
  | nil => exact h
  | cons d ds => exact setField_kept h hne

/-- An entry that a call has updated is left as it is by the same call. -/
theorem updateEntryValue_again : updateEntryValue (updateEntryValue e c) c = updateEntryValue e c := by
  have hkind : setField (updateEntryValue e c) kindKey (.string c.kind) = updateEntryValue e c :=
    setField_kept (updateScope_kept (updateLabel_kept setField_again (by decide) _) (by decide) _)
      (by decide)
  have hlabel : updateLabel (updateEntryValue e c) c.label = updateEntryValue e c := by
    rw [updateEntryValue]
    rcases c.label with _ | _ | ⟨a, l⟩
    · rfl
    · rfl
    · exact setField_kept (updateScope_kept setField_again (by decide) _) (by decide)
  have hscope : updateScope (updateEntryValue e c) c.scope = updateEntryValue e c := by
    rw [updateEntryValue]
    cases c.scope with
    | nil => rfl
    | cons d ds => exact setField_kept setField_again (by decide)
  rw [updateEntryValue, hkind, hlabel, hscope, updateEntryValue, setField_again]

theorem updateEntryValue_newEntry : updateEntryValue (newEntryValue c) c = newEntryValue c := by
  have hkind : setField (newEntryValue c) kindKey (.string c.kind) = newEntryValue c := rfl
  have hlabel : updateLabel (newEntryValue c) c.label = newEntryValue c := by
    rw [newEntryValue]
    rcases c.label with _ | _ | ⟨a, l⟩ <;> rfl
  have hscope : updateScope (newEntryValue c) c.scope = newEntryValue c := by
    rw [newEntryValue]
    cases c.scope <;> rfl
  rw [updateEntryValue, hkind, hlabel, hscope]
  rfl

/-- An entry of the root that a call has written is left as it is by the same call. -/
theorem updateEntryValue_of_mem {roots : List Value} (h : e ∈ newRoots c roots)
    (hroot : entryRoot e = some c.root) : updateEntryValue e c = e := by
  have hout : e ∈ (roots.map fun e => if entryRoot e = some c.root then updateEntryValue e c else e) →
      updateEntryValue e c = e := by
    intro hmem
    obtain ⟨old, -, rfl⟩ := List.mem_map.mp hmem
    split
    · exact updateEntryValue_again
    · rename_i hne
      rw [if_neg hne] at hroot
      exact absurd hroot hne
  rw [newRoots] at h
  split at h
  · exact hout h
  · rcases List.mem_append.mp h with hmem | hnew
    · exact hout hmem
    · rw [List.mem_singleton.mp hnew]
      exact updateEntryValue_newEntry

theorem newRoots_again (c : Call) (roots : List Value) :
    newRoots c (newRoots c roots) = newRoots c roots := by
  obtain ⟨e, he, hroot⟩ := exists_newRoots c roots
  have hany : (newRoots c roots).any (entryRoot · == some c.root) = true :=
    List.any_eq_true.mpr ⟨e, he, beq_iff_eq.mpr hroot⟩
  conv_lhs => rw [newRoots, if_pos hany]
  conv_rhs => rw [← List.map_id (newRoots c roots)]
  refine List.map_congr_left fun e he => ?_
  split
  · rename_i hroot
    exact updateEntryValue_of_mem he hroot
  · rfl

/-- **Registering again changes nothing.** The same call on the same day finds its entry as it would
write it, whatever else the registry holds. -/
theorem registered_again (c : Call) (v : Value) : registered c (registered c v) = registered c v := by
  rw [registered, rootsOf_registered, newRoots_again]
  exact setField_again

end Again

end Devscout.Registry
