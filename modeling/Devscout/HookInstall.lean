/-
# Devscout.HookInstall -- merging the hook entries into the settings

The installer adds its two entries to `hooks.PostToolUse` of a settings file that belongs to
another program. Objects are key lists in document order, and a key may stand in them more
than once: reading takes the first one, writing replaces all of them. An entry counts as
installed when some command holds `scout` and the name of the hook anywhere in it.

The merge is compared with the one that is meant: the missing entries are appended where
`hooks.PostToolUse` is read, and nothing else changes. The two agree exactly where a repeated
key already holds what the merge writes, where the path of the binary does not make the one
command read as the other, and where it makes its own commands recognised.
-/

import Devscout.Manifest

namespace Devscout

open Lib

/-! ## The merge -/

def hooksKey : Str := "hooks".toList
def postToolUseKey : Str := "PostToolUse".toList
def matcherKey : Str := "matcher".toList
def typeKey : Str := "type".toList
def commandKey : Str := "command".toList

/-- `set_field` on the fields of an object: a key that exists is replaced where it stands. -/
def setFields (fields : List (Str × Value)) (key : Str) (new : Value) : List (Str × Value) :=
  let out := fields.map fun e => if e.1 = key then (e.1, new) else e
  if fields.any (·.1 == key) then out else out ++ [(key, new)]

/-- `set_field`. -/
def setField (v : Value) (key : Str) (new : Value) : Value := .object (setFields (v.asObject.getD []) key new)

/-- A field that is absent, or a string. -/
def stringOrAbsent (v : Value) (key : Str) : Bool := (v.get key).all fun x => x.asStr.isSome

/-- `entry_shape_ok`. -/
def entryShapeOk (entry : Value) : Bool :=
  entry.asObject.isSome && stringOrAbsent entry matcherKey &&
    match entry.get hooksKey with
    | none => true
    | some (.array items) => items.all fun item =>
        item.asObject.isSome && stringOrAbsent item typeKey && stringOrAbsent item commandKey
    | some _ => false

/-- `hooks_shape_ok`. -/
def hooksShapeOk (value : Value) : Bool :=
  match value.get hooksKey with
  | none => true
  | some hooks =>
      hooks.asObject.isSome &&
        match hooks.get postToolUseKey with
        | none => true
        | some (.array entries) => entries.all entryShapeOk
        | some _ => false

/-- The command is one of ours by the idempotency rule: it holds `scout` and the marker. -/
def recognised (marker command : Str) : Bool :=
  decide ("scout".toList <:+: command) && decide (marker <:+: command)

/-- `already_has_hook_command`. -/
def alreadyHasHookCommand (entries : List Value) (marker : Str) : Bool :=
  entries.any fun entry =>
    match entry.get hooksKey with
    | some (.array items) => items.any fun item =>
        ((item.get commandKey).bind Value.asStr).any (recognised marker)
    | _ => false

def hookCommand (bin subcmd : Str) : Str := bin ++ " hook ".toList ++ subcmd

def hookEntry (matcher bin subcmd : Str) : Value :=
  .object [(matcherKey, .string matcher),
    (hooksKey, .array [.object [(typeKey, .string commandKey), (commandKey, .string (hookCommand bin subcmd))]])]

def readMarker : Str := "hook read".toList
def bashMarker : Str := "hook bash".toList
def readEntry (bin : Str) : Value := hookEntry "Read".toList bin "read".toList
def bashEntry (bin : Str) : Value := hookEntry "Bash".toList bin "bash".toList

/-- The fields of the first `hooks`. -/
def hooksFields (value : Value) : List (Str × Value) := ((value.get hooksKey).bind Value.asObject).getD []

/-- The entries of the first `PostToolUse` in it. -/
def postToolUse (value : Value) : List Value :=
  match ((value.get hooksKey).getD (.object [])).get postToolUseKey with
  | some (.array items) => items
  | _ => []

/-- `merge_hooks`: the document with the entries, and the matchers of those added. -/
def mergeHooks (value : Value) (bin : Str) : Value × List Str :=
  let hooks := (value.get hooksKey).getD (.object [])
  let entries := postToolUse value
  let read := if alreadyHasHookCommand entries readMarker then [] else [readEntry bin]
  let bash := if alreadyHasHookCommand (entries ++ read) bashMarker then [] else [bashEntry bin]
  let added := (if read.isEmpty then [] else ["Read".toList]) ++ (if bash.isEmpty then [] else ["Bash".toList])
  (setField value hooksKey (setField hooks postToolUseKey (.array (entries ++ read ++ bash))), added)

/-! ## What is meant -/

/-- Sets the first field with the key, or a new last one. -/
def setFirst (key : Str) (new : Value) : List (Str × Value) → List (Str × Value)
  | [] => [(key, new)]
  | e :: es => if e.1 = key then (e.1, new) :: es else e :: setFirst key new es

/-- The values that a repeated key has behind its first one. -/
def later (key : Str) (fields : List (Str × Value)) : List Value :=
  ((fields.filter (·.1 == key)).drop 1).map Prod.snd

/-- The document with these entries where `hooks.PostToolUse` is read, and nothing else changed. -/
def withEntries (fields : List (Str × Value)) (entries : List Value) : Value :=
  .object (setFirst hooksKey
    (.object (setFirst postToolUseKey (.array entries) (hooksFields (.object fields)))) fields)

/-- The hook is installed: by the idempotency rule before the merge, or by an entry appended. -/
def Installed (fields : List (Str × Value)) (more : List Value) (marker : Str) (entry : Value) : Prop :=
  alreadyHasHookCommand (postToolUse (.object fields)) marker = true ∨ entry ∈ more

/-- **The merge that is meant.** -/
structure MergeExact (fields : List (Str × Value)) (bin : Str) : Prop where
  /-- One Read entry and one Bash entry at most are appended, and both hooks are installed. -/
  frame : ∃ more : List Value, more.Sublist [readEntry bin, bashEntry bin] ∧
    Installed fields more readMarker (readEntry bin) ∧ Installed fields more bashMarker (bashEntry bin) ∧
    (mergeHooks (.object fields) bin).1 = withEntries fields (postToolUse (.object fields) ++ more)
  shape : hooksShapeOk (mergeHooks (.object fields) bin).1 = true
  again : (mergeHooks (mergeHooks (.object fields) bin).1 bin).2 = []

/-- The entries that are missing by the idempotency rule. -/
def missingEntries (fields : List (Str × Value)) (bin : Str) : List Value :=
  (if alreadyHasHookCommand (postToolUse (.object fields)) readMarker then [] else [readEntry bin]) ++
    if alreadyHasHookCommand (postToolUse (.object fields)) bashMarker then [] else [bashEntry bin]

/-- **When the merge is the one that is meant.** -/
structure Mergeable (fields : List (Str × Value)) (bin : Str) : Prop where
  /-- A repeated `PostToolUse` already lists what the first one will. -/
  entriesOnce : ∀ v ∈ later postToolUseKey (hooksFields (.object fields)),
    v = .array (postToolUse (.object fields) ++ missingEntries fields bin)
  /-- A repeated `hooks` already is what the first one will be. -/
  hooksOnce : ∀ v ∈ later hooksKey fields, v = .object (setFirst postToolUseKey
    (.array (postToolUse (.object fields) ++ missingEntries fields bin)) (hooksFields (.object fields)))
  /-- Where both entries are missing, the command of the first does not read as the second's. -/
  apart : ¬(alreadyHasHookCommand (postToolUse (.object fields)) readMarker = false ∧
    alreadyHasHookCommand (postToolUse (.object fields)) bashMarker = false ∧
    recognised bashMarker (hookCommand bin "read".toList) = true)
  /-- Where an entry is missing, the path of the binary holds `scout`. -/
  named : missingEntries fields bin ≠ [] → "scout".toList <:+: bin

/-! ## Fields -/

section Fields

variable {fields : List (Str × Value)} {key : Str} {new : Value}

theorem lookup_setFirst : (setFirst key new fields).lookup key = some new := by
  induction fields with
  | nil => rw [setFirst, List.lookup_cons_self]
  | cons e es ih =>
      rw [setFirst]
      split
      · rename_i heq
        rw [heq, List.lookup_cons_self]
      · rename_i hne
        rwa [List.lookup_cons, beq_false_of_ne (Ne.symm hne)]

theorem map_set_eq_self_iff : (fields.map fun e => if e.1 = key then (e.1, new) else e) = fields ↔
    ∀ e ∈ fields, e.1 = key → e.2 = new := by
  have hid : fields = fields.map id := (List.map_id _).symm
  conv_lhs => rhs; rw [hid]
  rw [List.map_inj_left]
  refine forall_congr' fun e => forall_congr' fun _ => ?_
  split
  · rename_i heq
    rw [Prod.ext_iff]
    exact ⟨fun h _ => h.2.symm, fun h => ⟨rfl, (h heq).symm⟩⟩
  · rename_i hne
    exact ⟨fun _ heq => absurd heq hne, fun _ => rfl⟩

/-- **Every occurrence or the first one.** They come to the same where the others already have the
value. -/
theorem setFields_eq_iff : setFields fields key new = setFirst key new fields ↔
    ∀ v ∈ later key fields, v = new := by
  unfold setFields later
  dsimp only
  induction fields with
  | nil => simp [setFirst]
  | cons e es ih =>
      rw [setFirst, List.any_cons, List.map_cons, List.filter_cons]
      by_cases heq : e.1 = key
      · rw [if_pos (by rw [heq, beq_self_eq_true]; rfl), if_pos heq, if_pos heq,
          if_pos (beq_iff_eq.mpr heq), List.cons.injEq, map_set_eq_self_iff, List.drop_succ_cons, List.drop_zero,
          eq_self_iff_true, true_and, List.forall_mem_map]
        simp only [List.mem_filter, beq_iff_eq, and_imp]
      · rw [if_neg heq, if_neg heq, beq_false_of_ne heq, Bool.false_or, if_neg Bool.false_ne_true, ← ih]
        split
        · rw [List.cons.injEq, eq_self_iff_true, true_and]
        · rw [List.cons_append, List.cons.injEq, eq_self_iff_true, true_and]

theorem lookup_setFields : (setFields fields key new).lookup key = some new := by
  unfold setFields
  dsimp only
  induction fields with
  | nil => exact List.lookup_cons_self
  | cons e es ih =>
      rw [List.any_cons, List.map_cons]
      by_cases heq : e.1 = key
      · rw [if_pos (by rw [heq, beq_self_eq_true]; rfl), if_pos heq, heq, List.lookup_cons_self]
      · rw [if_neg heq, beq_false_of_ne heq, Bool.false_or]
        split
        · rename_i hany
          rw [if_pos hany] at ih
          rwa [List.lookup_cons, beq_false_of_ne (Ne.symm heq)]
        · rename_i hany
          rw [if_neg hany] at ih
          rwa [List.cons_append, List.lookup_cons, beq_false_of_ne (Ne.symm heq)]

end Fields

/-! ## Commands -/

/-- What holds no separator stands on one side of it. -/
theorem infix_of_append_cons {needle a b : Str} {c : Char} (hc : c ∉ needle) (h : needle <:+: a ++ c :: b) :
    needle <:+: a ∨ needle <:+: b := by
  obtain ⟨before, after, h⟩ := h
  rcases List.append_eq_append_iff.mp h with ⟨rest, rfl, -⟩ | ⟨rest, hend, hrest⟩
  · exact Or.inl ⟨before, rest, rfl⟩
  · rcases rest with _ | ⟨d, rest⟩
    · exact Or.inl ⟨before, [], by rw [List.append_nil, hend, List.append_nil]⟩
    · obtain ⟨rfl, rfl⟩ := List.cons.inj hrest
      -- the separator stands in what is before the needle, or in the needle
      rcases List.append_eq_append_iff.mp hend with ⟨mid, -, hmid⟩ | ⟨mid, hmid, htail⟩
      · exact absurd (by rw [hmid]; simp) hc
      · rcases mid with _ | ⟨e, mid⟩
        · rw [List.nil_append] at htail
          exact absurd (by rw [← htail]; exact List.mem_cons_self) hc
        · obtain ⟨-, rfl⟩ := List.cons.inj htail
          exact Or.inr ⟨mid, after, rfl⟩

variable {fields : List (Str × Value)} {bin : Str}

/-- A command of ours holds `scout` where the path does. -/
theorem scout_infix_iff {subcmd : Str} (hno : ¬"scout".toList <:+: subcmd) :
    "scout".toList <:+: hookCommand bin subcmd ↔ "scout".toList <:+: bin := by
  constructor
  · intro hinfix
    have hcommand : hookCommand bin subcmd = bin ++ ' ' :: ("hook".toList ++ ' ' :: subcmd) := by
      simp [hookCommand]
    rw [hcommand] at hinfix
    rcases infix_of_append_cons (by decide) hinfix with hbin | hrest
    · exact hbin
    · rcases infix_of_append_cons (by decide) hrest with hhook | hsub
      · exact absurd hhook (by decide)
      · exact absurd hsub hno
  · intro hinfix
    exact hinfix.trans ((List.prefix_append _ _).isInfix.trans (List.prefix_append _ _).isInfix)

theorem scout_infix_read : "scout".toList <:+: hookCommand bin "read".toList ↔ "scout".toList <:+: bin :=
  scout_infix_iff (by decide)

theorem scout_infix_bash : "scout".toList <:+: hookCommand bin "bash".toList ↔ "scout".toList <:+: bin :=
  scout_infix_iff (by decide)

theorem marker_infix (subcmd : Str) : "hook ".toList ++ subcmd <:+: hookCommand bin subcmd :=
  ⟨bin ++ [' '], [], by simp [hookCommand]⟩

theorem alreadyHas_append (a b : List Value) (marker : Str) :
    alreadyHasHookCommand (a ++ b) marker = (alreadyHasHookCommand a marker || alreadyHasHookCommand b marker) :=
  List.any_append

theorem alreadyHas_entry (matcher subcmd marker : Str) :
    alreadyHasHookCommand [hookEntry matcher bin subcmd] marker = recognised marker (hookCommand bin subcmd) := by
  have hitems : (hookEntry matcher bin subcmd).get hooksKey = some (.array
      [.object [(typeKey, .string commandKey), (commandKey, .string (hookCommand bin subcmd))]]) := rfl
  have hcommand : (Value.object [(typeKey, .string commandKey),
      (commandKey, .string (hookCommand bin subcmd))]).get commandKey =
        some (.string (hookCommand bin subcmd)) := rfl
  rw [alreadyHasHookCommand, List.any_cons, List.any_nil, Bool.or_false, hitems]
  dsimp only
  rw [List.any_cons, List.any_nil, Bool.or_false, hcommand]
  rfl

theorem entryShapeOk_entry (matcher subcmd : Str) : entryShapeOk (hookEntry matcher bin subcmd) = true := rfl

/-! ## What the merge appends -/

/-- The entries that the merge appends. -/
def appended (fields : List (Str × Value)) (bin : Str) : List Value :=
  let entries := postToolUse (.object fields)
  let read := if alreadyHasHookCommand entries readMarker then [] else [readEntry bin]
  read ++ if alreadyHasHookCommand (entries ++ read) bashMarker then [] else [bashEntry bin]

theorem mergeHooks_fst : (mergeHooks (.object fields) bin).1 = setField (.object fields) hooksKey
    (setField (((Value.object fields).get hooksKey).getD (.object [])) postToolUseKey
      (.array (postToolUse (.object fields) ++ appended fields bin))) := by
  unfold mergeHooks appended
  dsimp only
  rw [List.append_assoc]

/-- Nothing is added exactly where both hooks are recognised. -/
theorem mergeHooks_snd (value : Value) : (mergeHooks value bin).2 = [] ↔
    alreadyHasHookCommand (postToolUse value) readMarker = true ∧
      alreadyHasHookCommand (postToolUse value) bashMarker = true := by
  unfold mergeHooks
  dsimp only
  cases hread : alreadyHasHookCommand (postToolUse value) readMarker
  · simp
  · rw [if_pos rfl, List.append_nil]
    cases alreadyHasHookCommand (postToolUse value) bashMarker <;> simp

theorem appended_sublist : (appended fields bin).Sublist [readEntry bin, bashEntry bin] := by
  unfold appended
  dsimp only
  split <;> split <;> simp

theorem readEntry_ne_bashEntry : readEntry bin ≠ bashEntry bin := by
  intro h
  obtain ⟨hmatcher, -⟩ := List.cons.inj (Value.object.inj h)
  have hname := Value.string.inj (Prod.mk.inj hmatcher).2
  exact absurd hname (by decide)

theorem installed_read : Installed fields (appended fields bin) readMarker (readEntry bin) := by
  unfold Installed appended
  dsimp only
  split
  · exact Or.inl ‹_›
  · exact Or.inr (List.mem_append_left _ List.mem_cons_self)

/-- **The two commands stay apart** exactly where both end up installed, and then what is missing is
what is appended. -/
theorem installed_bash : Installed fields (appended fields bin) bashMarker (bashEntry bin) ↔
    ¬(alreadyHasHookCommand (postToolUse (.object fields)) readMarker = false ∧
      alreadyHasHookCommand (postToolUse (.object fields)) bashMarker = false ∧
      recognised bashMarker (hookCommand bin "read".toList) = true) := by
  have hentry : alreadyHasHookCommand [readEntry bin] bashMarker =
      recognised bashMarker (hookCommand bin "read".toList) := alreadyHas_entry _ _ _
  unfold Installed appended
  dsimp only
  rw [alreadyHas_append]
  cases hread : alreadyHasHookCommand (postToolUse (.object fields)) readMarker <;>
    cases hbash : alreadyHasHookCommand (postToolUse (.object fields)) bashMarker
  · have hne : bashEntry bin ≠ readEntry bin := readEntry_ne_bashEntry.symm
    rw [if_neg Bool.false_ne_true, hentry]
    cases recognised bashMarker (hookCommand bin "read".toList)
    · simp
    · simp [hne]
  · simp
  · simp [alreadyHasHookCommand]
  · simp

theorem appended_eq_missing (h : Installed fields (appended fields bin) bashMarker (bashEntry bin)) :
    appended fields bin = missingEntries fields bin := by
  have hapart := installed_bash.mp h
  have hentry : alreadyHasHookCommand [readEntry bin] bashMarker =
      recognised bashMarker (hookCommand bin "read".toList) := alreadyHas_entry _ _ _
  unfold appended missingEntries
  dsimp only
  rw [alreadyHas_append]
  cases hread : alreadyHasHookCommand (postToolUse (.object fields)) readMarker <;>
    cases hbash : alreadyHasHookCommand (postToolUse (.object fields)) bashMarker
  · have hrec : recognised bashMarker (hookCommand bin "read".toList) = false :=
      Bool.eq_false_iff.mpr fun hrec => hapart ⟨hread, hbash, hrec⟩
    rw [if_neg Bool.false_ne_true, hentry, hrec]
    rfl
  · rfl
  · rw [if_pos rfl]
    rfl
  · rfl

/-! ## The result -/

/-- The first `hooks` of an accepted document is an object, or there is none. -/
theorem getD_hooks (h : hooksShapeOk (.object fields) = true) :
    ((Value.object fields).get hooksKey).getD (.object []) = .object (hooksFields (.object fields)) := by
  unfold hooksShapeOk at h
  unfold hooksFields
  cases hget : (Value.object fields).get hooksKey with
  | none => rfl
  | some hooks =>
      rw [hget] at h
      cases hooks with
      | object A => rfl
      | _ => cases h

theorem postToolUse_shape (h : hooksShapeOk (.object fields) = true) :
    (postToolUse (.object fields)).all entryShapeOk = true := by
  unfold hooksShapeOk at h
  unfold postToolUse
  cases hget : (Value.object fields).get hooksKey with
  | none => rfl
  | some hooks =>
      rw [hget, Bool.and_eq_true] at h
      rw [Option.getD_some]
      cases hentries : hooks.get postToolUseKey with
      | none => rfl
      | some entries =>
          rw [hentries] at h
          cases entries with
          | array items => exact h.2
          | _ => rfl

theorem mergeHooks_eq (h : hooksShapeOk (.object fields) = true) : (mergeHooks (.object fields) bin).1 =
    .object (setFields fields hooksKey (.object (setFields (hooksFields (.object fields)) postToolUseKey
      (.array (postToolUse (.object fields) ++ appended fields bin))))) := by
  rw [mergeHooks_fst, getD_hooks h]
  rfl

/-- What the merged document is read as: the old entries, and those appended. -/
theorem get_merged (h : hooksShapeOk (.object fields) = true) :
    ∃ A, (mergeHooks (.object fields) bin).1.get hooksKey = some (.object A) ∧
      (Value.object A).get postToolUseKey =
        some (.array (postToolUse (.object fields) ++ appended fields bin)) := by
  rw [mergeHooks_eq h]
  exact ⟨_, lookup_setFields, lookup_setFields⟩

theorem postToolUse_merged (h : hooksShapeOk (.object fields) = true) :
    postToolUse (mergeHooks (.object fields) bin).1 = postToolUse (.object fields) ++ appended fields bin := by
  obtain ⟨A, hhooks, hentries⟩ := get_merged h
  rw [postToolUse, hhooks, Option.getD_some, hentries]

theorem shape_merged (h : hooksShapeOk (.object fields) = true) :
    hooksShapeOk (mergeHooks (.object fields) bin).1 = true := by
  obtain ⟨A, hhooks, hentries⟩ := get_merged h
  have hold := postToolUse_shape h
  have hnew : (appended fields bin).all entryShapeOk = true := by
    refine List.all_eq_true.mpr fun e he => ?_
    rcases List.mem_cons.mp (appended_sublist.subset he) with rfl | he
    · exact entryShapeOk_entry _ _
    · rw [List.mem_singleton.mp he]
      exact entryShapeOk_entry _ _
  rw [hooksShapeOk, hhooks]
  dsimp only
  rw [hentries]
  dsimp only
  rw [List.all_append, hold, hnew]
  rfl

/-- **The frame.** Every occurrence of the keys is written, so nothing else changes exactly where the
repeated ones already have what is written. -/
theorem frame_iff (h : hooksShapeOk (.object fields) = true) (entries : List Value) :
    (mergeHooks (.object fields) bin).1 = withEntries fields entries ↔
      entries = postToolUse (.object fields) ++ appended fields bin ∧
      (∀ v ∈ later postToolUseKey (hooksFields (.object fields)), v = .array entries) ∧
      ∀ v ∈ later hooksKey fields,
        v = .object (setFirst postToolUseKey (.array entries) (hooksFields (.object fields))) := by
  rw [mergeHooks_eq h, withEntries, ← setFields_eq_iff, ← setFields_eq_iff]
  constructor
  · intro heq
    have hfields := Value.object.inj heq
    have hhooks := congrArg (List.lookup hooksKey) hfields
    rw [lookup_setFields, lookup_setFirst] at hhooks
    have hA := Value.object.inj (Option.some.inj hhooks)
    have hentries := congrArg (List.lookup postToolUseKey) hA
    rw [lookup_setFields, lookup_setFirst] at hentries
    have hlist := Value.array.inj (Option.some.inj hentries)
    rw [hA] at hfields
    rw [hlist] at hA
    exact ⟨hlist.symm, hA, hfields⟩
  · rintro ⟨rfl, hA, hfields⟩
    rw [hA, hfields]

/-- What recognises an entry of ours has found `scout` in the path. -/
theorem scout_of_entry {e : Value} {marker : Str} (he : e ∈ [readEntry bin, bashEntry bin])
    (h : alreadyHasHookCommand [e] marker = true) : "scout".toList <:+: bin := by
  rcases List.mem_cons.mp he with rfl | he
  · rw [readEntry, alreadyHas_entry, recognised, Bool.and_eq_true, decide_eq_true_eq] at h
    exact scout_infix_read.mp h.1
  · obtain rfl := List.mem_singleton.mp he
    rw [bashEntry, alreadyHas_entry, recognised, Bool.and_eq_true, decide_eq_true_eq] at h
    exact scout_infix_bash.mp h.1

theorem scout_of_more {more : List Value} {marker : Str} (hmore : more ⊆ [readEntry bin, bashEntry bin])
    (h : alreadyHasHookCommand more marker = true) : "scout".toList <:+: bin := by
  obtain ⟨e, he, hmarker⟩ := List.any_eq_true.mp h
  refine @scout_of_entry bin e marker (hmore he) ?_
  rw [alreadyHasHookCommand, List.any_cons, hmarker]
  rfl

theorem alreadyHas_of_mem {more : List Value} {e : Value} {marker : Str} (he : e ∈ more)
    (h : alreadyHasHookCommand [e] marker = true) : alreadyHasHookCommand more marker = true := by
  rw [alreadyHasHookCommand, List.any_cons, List.any_nil, Bool.or_false] at h
  exact List.any_eq_true.mpr ⟨e, he, h⟩

theorem missing_ne_nil_iff : missingEntries fields bin ≠ [] ↔
    alreadyHasHookCommand (postToolUse (.object fields)) readMarker = false ∨
      alreadyHasHookCommand (postToolUse (.object fields)) bashMarker = false := by
  unfold missingEntries
  cases alreadyHasHookCommand (postToolUse (.object fields)) readMarker <;>
    cases alreadyHasHookCommand (postToolUse (.object fields)) bashMarker <;> simp

/-- A hook that is installed is recognised, where the path holds `scout`. -/
theorem Installed.recognised {more : List Value} {marker : Str} {e : Value}
    (h : Installed fields more marker e) (he : more ≠ [] → alreadyHasHookCommand [e] marker = true) :
    alreadyHasHookCommand (postToolUse (.object fields) ++ more) marker = true := by
  rw [alreadyHas_append, Bool.or_eq_true]
  rcases h with hold | hmem
  · exact Or.inl hold
  · exact Or.inr (alreadyHas_of_mem hmem (he (List.ne_nil_of_mem hmem)))

theorem recognised_read (h : "scout".toList <:+: bin) : alreadyHasHookCommand [readEntry bin] readMarker = true := by
  rw [readEntry, alreadyHas_entry, recognised, Bool.and_eq_true, decide_eq_true_eq, decide_eq_true_eq]
  exact ⟨scout_infix_read.mpr h, marker_infix "read".toList⟩

theorem recognised_bash (h : "scout".toList <:+: bin) : alreadyHasHookCommand [bashEntry bin] bashMarker = true := by
  rw [bashEntry, alreadyHas_entry, recognised, Bool.and_eq_true, decide_eq_true_eq, decide_eq_true_eq]
  exact ⟨scout_infix_bash.mpr h, marker_infix "bash".toList⟩

/-- **Again adds nothing** exactly where what was added is recognised. -/
theorem again_iff (h : hooksShapeOk (.object fields) = true)
    (hbash : Installed fields (appended fields bin) bashMarker (bashEntry bin)) :
    (mergeHooks (mergeHooks (.object fields) bin).1 bin).2 = [] ↔
      (missingEntries fields bin ≠ [] → "scout".toList <:+: bin) := by
  have hmissing := appended_eq_missing hbash
  have hread := @installed_read fields bin
  have hsub : appended fields bin ⊆ [readEntry bin, bashEntry bin] := appended_sublist.subset
  rw [hmissing] at hbash hread hsub
  rw [mergeHooks_snd, postToolUse_merged h, hmissing]
  constructor
  · rintro ⟨hhasRead, hhasBash⟩ hne
    rw [alreadyHas_append] at hhasRead hhasBash
    rcases missing_ne_nil_iff.mp hne with hno | hno
    · rw [hno, Bool.false_or] at hhasRead
      exact scout_of_more hsub hhasRead
    · rw [hno, Bool.false_or] at hhasBash
      exact scout_of_more hsub hhasBash
  · intro hscout
    exact ⟨hread.recognised fun hne => recognised_read (hscout hne),
      hbash.recognised fun hne => recognised_bash (hscout hne)⟩

/-- **When the merge is the one that is meant**, for every accepted document and every path. -/
theorem mergeExact_iff (h : hooksShapeOk (.object fields) = true) :
    MergeExact fields bin ↔ Mergeable fields bin := by
  constructor
  · rintro ⟨⟨more, -, -, hbash, hframe⟩, -, hagain⟩
    obtain ⟨heq, hentries, hhooks⟩ := (frame_iff h _).mp hframe
    obtain rfl := List.append_cancel_left heq
    have hmissing := appended_eq_missing hbash
    rw [hmissing] at hentries hhooks
    exact ⟨hentries, hhooks, installed_bash.mp hbash, (again_iff h hbash).mp hagain⟩
  · rintro ⟨hentries, hhooks, hapart, hnamed⟩
    have hbash := installed_bash.mpr hapart
    rw [← appended_eq_missing hbash] at hentries hhooks
    exact ⟨⟨appended fields bin, appended_sublist, installed_read, hbash,
      (frame_iff h _).mpr ⟨rfl, hentries, hhooks⟩⟩, shape_merged h, (again_iff h hbash).mpr hnamed⟩

/-- An empty settings object, merged by a binary whose path holds `scout`. -/
theorem mergeExact_empty : hooksShapeOk (.object []) = true ∧ MergeExact [] "/usr/bin/devscout".toList :=
  ⟨rfl, (mergeExact_iff rfl).mpr
    ⟨fun v hv => absurd hv List.not_mem_nil, fun v hv => absurd hv List.not_mem_nil, by decide, fun _ => by decide⟩⟩

/-- The second `hooks` of a document, with hooks of another kind, is lost to the merge. -/
theorem secondHooks_lost : ¬∀ (fields : List (Str × Value)) (bin : Str),
    hooksShapeOk (.object fields) = true → MergeExact fields bin := by
  intro hall
  have h := hall [(hooksKey, .object []), (hooksKey, .object [("PreToolUse".toList, .array [])])]
    "/usr/bin/devscout".toList (by decide)
  obtain ⟨⟨more, -, -, -, hframe⟩, -, -⟩ := h
  obtain ⟨-, -, hhooks⟩ := (frame_iff (by decide) _).mp hframe
  have hsecond := hhooks (.object [("PreToolUse".toList, .array [])]) (List.mem_singleton.mpr rfl)
  have hfields := Value.object.inj hsecond
  obtain ⟨hkey, -⟩ := List.cons.inj hfields
  exact absurd (Prod.mk.inj hkey).1 (by decide)

end Devscout
