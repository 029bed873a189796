/-
# Devscout.RegistryRead -- reading the registry back

Queries read the registry through the small JSON reader, and keep of every entry the six fields
they know; a field that is missing or of another kind counts as empty. What a registration has
written comes back as it was written: the text that the JSON library prints is a text of RFC 8259
without surrogate escapes, and the two readers agree on those. They agree on every text but those
in which a number is spelt as RFC 8259 does not have it.
-/

import Devscout.JsonExact
import Devscout.Registry

namespace Devscout.RegistryRead

open Lib Lib.JsonGrammar Registry JsonReader

/-! ## The reader of the registry -/

structure RegistryEntry where
  root : Str
  kind : Str
  label : Option Str
  scope : List Str
  initialized : Str
  lastSeen : Str
  deriving DecidableEq

inductive RegistryError where
  | notValidJson (path detail : Str)
  | noRootsArray (path : Str)

/-- The text of the error. -/
def RegistryError.display : RegistryError → Str
  | notValidJson path detail => "registry at ".toList ++ path ++ " is not valid JSON: ".toList ++ detail
  | noRootsArray path => "registry at ".toList ++ path ++ " has no \"roots\" array".toList

def Tree.fields : Tree → List (Str × Tree)
  | .object fields => fields
  | _ => []

def Tree.asString : Tree → Option Str
  | .string s => some s
  | _ => none

/-- `entry_from_json`. -/
def entryFromJson (value : Tree) : RegistryEntry where
  root := (((Tree.fields value).lookup rootKey).bind Tree.asString).getD []
  kind := (((Tree.fields value).lookup kindKey).bind Tree.asString).getD []
  label := ((Tree.fields value).lookup labelKey).bind Tree.asString
  scope :=
    match (Tree.fields value).lookup scopeKey with
    | some (.array items) => items.filterMap Tree.asString
    | _ => []
  initialized := (((Tree.fields value).lookup initializedKey).bind Tree.asString).getD []
  lastSeen := (((Tree.fields value).lookup lastSeenKey).bind Tree.asString).getD []

/-- What there is at the path: nothing, a file that cannot be read, or its text. -/
inductive FileText where
  | missing
  | unreadable (detail : Str)
  | text (s : Str)

/-- `read_registry`. The reader always answers, so the last case of its outcome does not come up. -/
def readRegistry (path : Str) : FileText → Except RegistryError (List RegistryEntry)
  | .missing => .ok []
  | .unreadable detail => .error (.notValidJson path detail)
  | .text s =>
      match parse s with
      | .ok value _ =>
          match (Tree.fields value).lookup rootsKey with
          | some (.array items) => .ok (items.map entryFromJson)
          | _ => .error (.noRootsArray path)
      | .error detail => .error (.notValidJson path detail)
      | .outOfFuel => .error (.notValidJson path [])

/-! ## What is written -/

section Tree

variable (numText : Number → Str)

mutual

/-- The value tree of a registry value, with its numbers as they are printed. -/
def tree : Value → Tree
  | .null => .null
  | .bool b => .bool b
  | .number n => .number (numText n)
  | .string s => .string s
  | .array items => .array (trees items)
  | .object fields => .object (treeFields fields)

def trees : List Value → List Tree
  | [] => []
  | v :: items => tree v :: trees items

def treeFields : List (Str × Value) → List (Str × Tree)
  | [] => []
  | (key, v) :: fields => (key, tree v) :: treeFields fields

end

end Tree

/-- The text of a field. -/
def textAt (entry : Value) (key : Str) : Option Str := (entry.get key).bind Value.asStr

/-- The texts of a list field. -/
def textsAt (entry : Value) (key : Str) : List Str :=
  match entry.get key with
  | some (.array items) => items.filterMap Value.asStr
  | _ => []

/-- What an entry says in the fields that are known. -/
def entryOf (entry : Value) : RegistryEntry where
  root := (entryRoot entry).getD []
  kind := (textAt entry kindKey).getD []
  label := textAt entry labelKey
  scope := textsAt entry scopeKey
  initialized := (textAt entry initializedKey).getD []
  lastSeen := (textAt entry lastSeenKey).getD []

/-- The entry that a call writes for a root that is new. -/
def RegistryEntry.fresh (c : Call) : RegistryEntry :=
  ⟨c.root, c.kind, c.label, c.scope, c.stamp, c.stamp⟩

/-- The entry that a call leaves of one of its root: the kind and the day are the call's, and so are
the label and the scope that it brings. -/
def RegistryEntry.updated (entry : RegistryEntry) (c : Call) : RegistryEntry :=
  { entry with
    kind := c.kind
    label := if c.label.all List.isEmpty then entry.label else c.label
    scope := if c.scope.isEmpty then entry.scope else c.scope
    lastSeen := c.stamp }

/-- The entries after a registration. -/
def registeredEntries (c : Call) (registry : Value) : List RegistryEntry :=
  let out := (rootsOf registry).map fun e =>
    if entryRoot e = some c.root then (entryOf e).updated c else entryOf e
  if (rootsOf registry).any (entryRoot · == some c.root) then out else out ++ [.fresh c]

/-- The reader agrees with RFC 8259 on a text, and reads what a registration wrote there. -/
structure ReadersAgree (text : Str) : Prop where
  accepts : ∀ v, Doc rfc8259Paired text v → parse text = .ok v []
  rejects : (∀ v, ¬Doc rfc8259 text v) → ∃ message, parse text = .error message
  registry : ∀ (path : Str) (numText : Number → Str) (c : Call) (registry : Value),
    Doc rfc8259Paired text (tree numText (registered c registry)) →
      readRegistry path (.text (text ++ ['\n'])) = .ok (registeredEntries c registry)

/-! ## Fields -/

section Fields

variable {numText : Number → Str}

theorem trees_eq (items : List Value) : trees numText items = items.map (tree numText) := by
  induction items with
  | nil => rfl
  | cons v items ih => rw [trees, ih, List.map_cons]

theorem lookup_treeFields (fields : List (Str × Value)) (key : Str) :
    (treeFields numText fields).lookup key = (fields.lookup key).map (tree numText) := by
  induction fields with
  | nil => rfl
  | cons e fields ih =>
      rw [treeFields, List.lookup_cons, List.lookup_cons, ih]
      cases key == e.1 <;> rfl

theorem lookup_tree (v : Value) (key : Str) :
    (Tree.fields (tree numText v)).lookup key = (v.get key).map (tree numText) := by
  cases v with
  | object fields => exact lookup_treeFields fields key
  | null | bool | number | string | array => rfl

theorem asString_tree (v : Value) : Tree.asString (tree numText v) = v.asStr := by
  cases v <;> rfl

theorem text_tree (v : Value) (key : Str) :
    ((Tree.fields (tree numText v)).lookup key).bind Tree.asString = textAt v key := by
  rw [lookup_tree, textAt, Option.bind_map]
  exact congrArg _ (funext asString_tree)

/-- An entry is read as what it says. -/
theorem entryFromJson_tree (e : Value) : entryFromJson (tree numText e) = entryOf e := by
  have hscope : (match (Tree.fields (tree numText e)).lookup scopeKey with
      | some (.array items) => items.filterMap Tree.asString
      | _ => []) = textsAt e scopeKey := by
    rw [lookup_tree, textsAt]
    cases e.get scopeKey with
    | none => rfl
    | some v =>
        cases v with
        | array items =>
            show (trees numText items).filterMap Tree.asString = items.filterMap Value.asStr
            rw [trees_eq, List.filterMap_map]
            exact congrArg (List.filterMap · items) (funext asString_tree)
        | null | bool | number | string | object => rfl
  rw [entryFromJson, entryOf, hscope, text_tree, text_tree, text_tree, text_tree, text_tree]
  rfl

end Fields

/-! ## Entries -/

section Entries

variable {c : Call} {e : Value}

theorem texts_map (items : List Str) : (items.map Value.string).filterMap Value.asStr = items := by
  rw [List.filterMap_map]
  exact List.filterMap_some

theorem entryOf_newEntry : entryOf (newEntryValue c) = .fresh c := by
  have hlabel : textAt (newEntryValue c) labelKey = c.label := by
    show ((c.label.map Value.string).getD .null).asStr = c.label
    cases c.label <;> rfl
  have hscope : textsAt (newEntryValue c) scopeKey = c.scope := texts_map c.scope
  rw [entryOf, hlabel, hscope]
  rfl

theorem textAt_setField (key : Str) (s : Str) : textAt (setField e key (.string s)) key = some s := by
  rw [textAt, get_setField]
  rfl

theorem textAt_setField_ne {key key' : Str} {new : Value} (h : key' ≠ key) :
    textAt (setField e key new) key' = textAt e key' := by
  rw [textAt, get_setField_ne h, textAt]

theorem textsAt_setField_ne {key key' : Str} {new : Value} (h : key' ≠ key) :
    textsAt (setField e key new) key' = textsAt e key' := by
  rw [textsAt, get_setField_ne h, textsAt]

theorem textAt_updateLabel (label : Option Str) :
    textAt (updateLabel e label) labelKey =
      if label.all List.isEmpty then textAt e labelKey else label := by
  match label with
  | none => rfl
  | some [] => rfl
  | some (a :: l) => exact textAt_setField labelKey (a :: l)

theorem textsAt_updateScope (scope : List Str) :
    textsAt (updateScope e scope) scopeKey = if scope.isEmpty then textsAt e scopeKey else scope := by
  match scope with
  | [] => rfl
  | d :: ds =>
      rw [textsAt, updateScope, get_setField]
      exact texts_map (d :: ds)

/-- A field that only one step of the update touches is as it was before the others. -/
theorem get_update {key : Str} (hlabel : key ≠ labelKey) (hscope : key ≠ scopeKey)
    (hkind : key ≠ kindKey) (hseen : key ≠ lastSeenKey) :
    (updateEntryValue e c).get key = e.get key := by
  rw [updateEntryValue, get_setField_ne hseen, get_updateScope hscope, get_updateLabel hlabel,
    get_setField_ne hkind]

theorem entryOf_update : entryOf (updateEntryValue e c) = (entryOf e).updated c := by
  have hroot : entryRoot (updateEntryValue e c) = entryRoot e := entryRoot_update
  have hkind : textAt (updateEntryValue e c) kindKey = some c.kind := by
    rw [textAt, kind_update]
    rfl
  have hlabel : textAt (updateEntryValue e c) labelKey =
      if c.label.all List.isEmpty then textAt e labelKey else c.label := by
    rw [updateEntryValue, textAt_setField_ne (by decide), textAt, get_updateScope (by decide), ← textAt,
      textAt_updateLabel, textAt_setField_ne (by decide)]
  have hscope : textsAt (updateEntryValue e c) scopeKey =
      if c.scope.isEmpty then textsAt e scopeKey else c.scope := by
    rw [updateEntryValue, textsAt_setField_ne (by decide), textsAt_updateScope, textsAt,
      get_updateLabel (by decide), get_setField_ne (by decide), ← textsAt]
  have hinitialized : textAt (updateEntryValue e c) initializedKey = textAt e initializedKey := by
    rw [textAt, get_update (by decide) (by decide) (by decide) (by decide), ← textAt]
  have hseen : textAt (updateEntryValue e c) lastSeenKey = some c.stamp :=
    textAt_setField lastSeenKey c.stamp
  rw [entryOf, hroot, hkind, hlabel, hscope, hinitialized, hseen]
  rfl

theorem registeredEntries_eq (c : Call) (registry : Value) :
    registeredEntries c registry = (rootsOf (registered c registry)).map entryOf := by
  have hmap : (rootsOf registry).map (fun e =>
      if entryRoot e = some c.root then (entryOf e).updated c else entryOf e) =
      ((rootsOf registry).map fun e =>
        if entryRoot e = some c.root then updateEntryValue e c else e).map entryOf := by
    rw [List.map_map]
    refine List.map_congr_left fun e _ => ?_
    rw [Function.comp_apply]
    split
    · exact entryOf_update.symm
    · rfl
  rw [rootsOf_registered, newRoots, registeredEntries, hmap]
  split
  · rfl
  · rw [List.map_append, List.map_singleton, entryOf_newEntry]

end Entries

/-! ## The two readers -/

/-- What a registration writes is read as what it wrote. -/
theorem readRegistry_registered {path text : Str} {numText : Number → Str} {c : Call} {registry : Value}
    (h : Doc rfc8259Paired text (tree numText (registered c registry))) :
    readRegistry path (.text (text ++ ['\n'])) = .ok (registeredEntries c registry) := by
  have hnewline : ∀ c ∈ ['\n'], isWs c = true := forall_chars (by decide)
  have hparse := parse_of_doc ((doc_of_paired h).append hnewline)
  have hroots : (Tree.fields (tree numText (registered c registry))).lookup rootsKey =
      some (.array (trees numText (newRoots c (rootsOf registry)))) := by
    rw [lookup_tree, registered, get_setField]
    rfl
  rw [readRegistry, hparse]
  dsimp only
  rw [hroots]
  dsimp only
  rw [trees_eq, List.map_map, registeredEntries_eq, rootsOf_registered]
  exact congrArg Except.ok (List.map_congr_left fun e _ => entryFromJson_tree e)

/-- **The readers agree where numbers are spelt as RFC 8259 has them.** -/
theorem readersAgree_iff (text : Str) : ReadersAgree text ↔ NumbersSpelt text := by
  constructor
  · exact fun h => rejects_iff.mp h.rejects
  · exact fun h => ⟨fun v hv => parse_of_doc (doc_of_paired hv), rejects_iff.mpr h,
      fun path numText c registry hwritten => readRegistry_registered hwritten⟩

/-- **A zero before another digit.** The text is no JSON, and the reader takes it. -/
theorem leadingZero_accepted : ¬∀ text : Str, ReadersAgree text := by
  intro h
  have hno : ∀ v, ¬Doc rfc8259 ['0', '1'] v := by
    intro v hv
    have htokens := hv.tokens rfc8259_lexical
    have hnumber : JsonNumber ['0', '1'] := hv.numbers_mem _ (htokens ▸ by decide)
    obtain ⟨p, heq, hshaped, -, hzero, -⟩ := hnumber
    -- both digits are the integer of the number
    have hparts := splitNumber_text hshaped
    rw [← heq] at hparts
    have hint : p.int = ['0', '1'] := (congrArg (fun r => r.1.int) hparts).symm
    rw [hint] at hzero
    exact absurd (hzero rfl) (by decide)
  obtain ⟨message, herror⟩ := (h ['0', '1']).rejects hno
  exact nomatch (show parse ['0', '1'] = .ok (.number ['0', '1']) [] from rfl).symm.trans herror

/-! ## The text that is written -/

section Pretty

variable (numText : Number → Str)

/-- A new line with two blanks for each level. -/
def newline (n : Nat) : Str := '\n' :: List.replicate (2 * n) ' '

mutual

/-- `to_string_pretty`, of a value at a level. -/
def pretty (n : Nat) : Value → Str
  | .null => ['n', 'u', 'l', 'l']
  | .bool b => if b then ['t', 'r', 'u', 'e'] else ['f', 'a', 'l', 's', 'e']
  | .number t => numText t
  | .string s => JsonText.quote s
  | .array items => '[' :: prettyItems n true items
  | .object fields => '\x7b' :: prettyFields n true fields

/-- The items to the closing bracket; a comma stands before all but the first. -/
def prettyItems (n : Nat) (first : Bool) : List Value → Str
  | [] => if first then [']'] else newline n ++ [']']
  | v :: items =>
      (if first then [] else [',']) ++ (newline (n + 1) ++ (pretty (n + 1) v ++ prettyItems n false items))

def prettyFields (n : Nat) (first : Bool) : List (Str × Value) → Str
  | [] => if first then ['\x7d'] else newline n ++ ['\x7d']
  | (key, v) :: fields =>
      (if first then [] else [',']) ++ (newline (n + 1) ++
        (JsonText.quote key ++ ':' :: ' ' :: (pretty (n + 1) v ++ prettyFields n false fields)))

end

/-- What `write_registry_value` writes. -/
def registryText (v : Value) : Str := pretty numText 0 v ++ ['\n']

end Pretty

/-! ## It is a text of the grammar -/

section Written

variable {D : Dialect} {numText : Number → Str}

theorem ws_newline (n : Nat) (r : Str) : Ws (newline n ++ r) r := by
  refine ⟨newline n, fun c hc => ?_, rfl⟩
  rcases List.mem_cons.mp hc with rfl | hc
  · rfl
  · rw [List.eq_of_mem_replicate hc]
    rfl

/-- The escape of a control character spells it. -/
theorem body_controlEscape {c : Char} {s x r : Str} (hc : c.toNat < 32) (h : Body D s x r) :
    Body D ('\\' :: (JsonText.controlEscape c.toNat ++ s)) (c :: x) r := by
  have hdigit : ∀ d < 16, toDigit16 (JsonText.hexDigit d) = some d := by decide
  have hchar : c = Char.ofNat c.toNat := (Char.ofNat_toNat c).symm
  generalize c.toNat = n at hc hchar ⊢
  rw [hchar]
  unfold JsonText.controlEscape
  split
  · rename_i heq
    subst heq
    exact .short rfl h
  · split
    · rename_i heq
      subst heq
      exact .short rfl h
    · split
      · rename_i heq
        subst heq
        exact .short rfl h
      · split
        · rename_i heq
          subst heq
          exact .short rfl h
        · split
          · rename_i heq
            subst heq
            exact .short rfl h
          · exact .unit ⟨'0', '0', _, _, 0, 0, n / 16, n % 16, rfl, rfl, rfl, hdigit _ (by omega),
              hdigit _ (by omega), by omega⟩ (Or.inl (by omega)) h

theorem body_quote (s r : Str) : Body D (s.flatMap JsonText.escapeChar ++ '"' :: r) s r := by
  induction s with
  | nil => exact .close r
  | cons c s ih =>
      rw [List.flatMap_cons, List.append_assoc, JsonText.escapeChar]
      split
      · rename_i hspecial
        refine .short ?_ ih
        rcases hspecial with rfl | rfl <;> rfl
      · rename_i hplain
        split
        · rename_i hlow
          exact body_controlEscape hlow ih
        · rename_i hhigh
          exact .plain hhigh (fun h => hplain (Or.inl h)) (fun h => hplain (Or.inr h)) ih

theorem quote_append (s r : Str) :
    JsonText.quote s ++ r = '"' :: (s.flatMap JsonText.escapeChar ++ '"' :: r) := by
  rw [JsonText.quote, List.cons_append, List.append_assoc]
  rfl

theorem ws_blank (r : Str) : Ws (' ' :: r) r :=
  ⟨[' '], fun c hc => by rw [List.mem_singleton.mp hc]; rfl, rfl⟩

mutual

theorem value_pretty (hnum : ∀ t, D.number (numText t)) (n : Nat) (r : Str) :
    (v : Value) → JsonGrammar.Value D (pretty numText n v ++ r) (tree numText v) r
  | .null => .null r
  | .bool true => .true r
  | .bool false => .false r
  | .number t => .number (hnum t) r
  | .string s => by
      rw [pretty, quote_append]
      exact .string (body_quote s r)
  | .array [] => .emptyArray (Ws.refl _)
  | .array (v :: items) => by
      have hv := value_pretty hnum (n + 1) (prettyItems numText n false items ++ r) v
      have hitems := (items_pretty hnum n items hv).before (ws_newline (n + 1) _)
      simpa [pretty, prettyItems, tree, trees] using JsonGrammar.Value.array hitems
  | .object [] => .emptyObject (Ws.refl _)
  | .object ((key, v) :: fields) => by
      have hv := value_pretty hnum (n + 1) (prettyFields numText n false fields ++ r) v
      have hfields := (fields_pretty hnum n fields key hv).before (ws_newline (n + 1) _)
      simpa [pretty, prettyFields, tree, treeFields] using JsonGrammar.Value.object hfields

theorem items_pretty (hnum : ∀ t, D.number (numText t)) (n : Nat) {s r : Str} {v : Tree} :
    (items : List Value) → JsonGrammar.Value D s v (prettyItems numText n false items ++ r) →
      Items D s (v :: trees numText items) r
  | [], h => by
      have hend : prettyItems numText n false [] ++ r = newline n ++ ']' :: r := by simp [prettyItems]
      rw [hend] at h
      exact .last ⟨Ws.refl s, h, ws_newline n _⟩
  | w :: items, h => by
      have hw := value_pretty hnum (n + 1) (prettyItems numText n false items ++ r) w
      have hcomma : prettyItems numText n false (w :: items) ++ r = ',' :: (newline (n + 1) ++
          (pretty numText (n + 1) w ++ (prettyItems numText n false items ++ r))) := by
        simp [prettyItems]
      rw [hcomma] at h
      exact .more ⟨Ws.refl s, h, Ws.refl _⟩ ((items_pretty hnum n items hw).before (ws_newline (n + 1) _))

theorem fields_pretty (hnum : ∀ t, D.number (numText t)) (n : Nat) {s r : Str} {v : Tree} :
    (fields : List (Str × Value)) → (key : Str) →
      JsonGrammar.Value D s v (prettyFields numText n false fields ++ r) →
      Members D (JsonText.quote key ++ ':' :: ' ' :: s) ((key, v) :: treeFields numText fields) r
  | [], key, h => by
      have hend : prettyFields numText n false [] ++ r = newline n ++ '\x7d' :: r := by
        simp [prettyFields]
      rw [hend] at h
      rw [quote_append]
      exact .last (Ws.refl _) (body_quote key _) (Ws.refl _) ⟨ws_blank s, h, ws_newline n _⟩
  | (key', w) :: fields, key, h => by
      have hw := value_pretty hnum (n + 1) (prettyFields numText n false fields ++ r) w
      have hcomma : prettyFields numText n false ((key', w) :: fields) ++ r = ',' :: (newline (n + 1) ++
          (JsonText.quote key' ++ ':' :: ' ' ::
            (pretty numText (n + 1) w ++ (prettyFields numText n false fields ++ r)))) := by
        simp [prettyFields]
      rw [hcomma] at h
      rw [quote_append]
      exact .more (Ws.refl _) (body_quote key _) (Ws.refl _) ⟨ws_blank s, h, Ws.refl _⟩
        ((fields_pretty hnum n fields key' hw).before (ws_newline (n + 1) _))

end

/-- What is printed is a text of the grammar. -/
theorem doc_pretty (hnum : ∀ t, D.number (numText t)) (v : Value) :
    Doc D (pretty numText 0 v) (tree numText v) := by
  have h := value_pretty hnum 0 [] v
  rw [List.append_nil] at h
  exact ⟨Ws.refl _, h, Ws.refl _⟩

end Written

/-! ## Reading it back -/

section ReadBack

variable {numText : Number → Str}

theorem doc_registryText (hnum : ∀ t, JsonNumber (numText t)) (v : Value) :
    Doc reader (registryText numText v) (tree numText v) :=
  (doc_of_paired (doc_pretty hnum v)).append (forall_chars (by decide))

theorem jsonNumber_zero : JsonNumber ['0'] :=
  ⟨⟨[], ['0'], [], []⟩, rfl, ⟨Or.inl rfl, forall_chars (by decide), Or.inl rfl, Or.inl rfl⟩, by decide,
    fun _ => rfl, rfl, rfl⟩

/-- The entries of a registry are read as what they say. -/
theorem readRegistry_registryText (hnum : ∀ t, JsonNumber (numText t)) (path : Str) {registry : Value}
    (hroots : hasRootsArray registry = true) :
    readRegistry path (.text (registryText numText registry)) =
      .ok ((rootsOf registry).map entryOf) := by
  have hlookup : (Tree.fields (tree numText registry)).lookup rootsKey =
      some (.array (trees numText (rootsOf registry))) := by
    rw [lookup_tree]
    unfold hasRootsArray at hroots
    unfold rootsOf
    split at hroots
    · rename_i items hget
      rw [hget]
      rfl
    · cases hroots
  rw [readRegistry, parse_of_doc (doc_registryText hnum registry)]
  dsimp only
  rw [hlookup]
  dsimp only
  rw [trees_eq, List.map_map]
  exact congrArg Except.ok (List.map_congr_left fun e _ => entryFromJson_tree e)

theorem hasRootsArray_of_read {path : Str} {file : RegistryFile} {v : Value}
    (h : readRegistryValue path file = .ok v) : hasRootsArray v = true := by
  cases file with
  | missing =>
      obtain rfl := Except.ok.inj h
      rfl
  | corrupt _ => cases h
  | holds w =>
      rw [readRegistryValue] at h
      split at h
      · rename_i hroots
        obtain rfl := Except.ok.inj h
        exact hroots
      · cases h

/-- A call that is alone, where there is no registry. -/
theorem exclusive_alone (path : Str) (c : Call) :
    Relation.ReflTransGen (fun s s' => Step path [c] s s' ∧ Exclusive s s') (Sys.init [c] .missing)
      ⟨.holds (registered c emptyRegistry), fun _ => .returned (.ok ())⟩ := by
  let first : Sys [c].length := Sys.init [c] .missing
  let afterRead := { first with phase := Function.update first.phase 0 (.seen emptyRegistry) }
  have hone : ∀ i : Fin [c].length, i = 0 := fun i => Fin.fin_one_eq_zero i
  have hlast : Function.update afterRead.phase 0 (.returned (.ok ())) = fun _ => .returned (.ok ()) :=
    funext fun i => by rw [hone i, Function.update_self]
  rw [← hlast]
  refine .tail (.tail .refl ⟨.read first 0 emptyRegistry rfl rfl, ?_⟩)
    ⟨.rename afterRead 0 emptyRegistry rfl, ?_⟩
  · intro i v _ _ j w hseen
    exact absurd hseen (by simp [Sys.init])
  · intro i v hstart
    rw [hone i] at hstart
    exact absurd hstart (by simp)

end ReadBack

end Devscout.RegistryRead
