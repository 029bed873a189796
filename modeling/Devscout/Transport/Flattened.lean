/-
# Devscout.Transport.Flattened -- lookups against the flattened document

The .NET provider does not walk a document: it flattens it, member names and array indices
joined by colons down to each scalar, and compares whole paths. Walking segment by segment
comes to the same where every segment is one member's whole name, stated once. A name with a
colon of its own, an array and a section written twice are where the two part.
-/

import Devscout.Transport.SettingsText

namespace Devscout.Transport

open Lib

/-! ## Flattening -/

mutual

/-- The scalars of a document, each with the names and indices down to it; of a string the
characters. -/
def leaves (path : List Str) : Doc → List (List Str × Option Str)
  | .str s => [(path, some s)]
  | .scalar => [(path, none)]
  | .object members => leavesMembers path members
  | .array elements => leavesElements path 0 elements

def leavesMembers (path : List Str) : List (Str × Doc) → List (List Str × Option Str)
  | [] => []
  | (key, d) :: members => leaves (path ++ [key]) d ++ leavesMembers path members

def leavesElements (path : List Str) (i : Nat) : List Doc → List (List Str × Option Str)
  | [] => []
  | d :: elements => leaves (path ++ [(toString i).toList]) d ++ leavesElements path (i + 1) elements

end

def joinColon (path : List Str) : Str := List.intercalate [':'] path

/-- The flattened document: paths and what stands at them. -/
def flattened (members : List (Str × Doc)) : List (Str × Option Str) :=
  (leavesMembers [] members).map fun leaf => (joinColon leaf.1, leaf.2)

/-- What the flattened document states at a key. -/
def stated (members : List (Str × Doc)) (key : Str) : List (Option Str) :=
  (flattened members).filterMap fun e => if eqIgnoreAsciiCase e.1 key then some e.2 else none

/-- Something is stated below a key. -/
def SectionUnder (members : List (Str × Doc)) (key : Str) : Prop :=
  ∃ e ∈ flattened members, (key ++ [':']).map Char.toLower <+: e.1.map Char.toLower

/-- **A lookup agrees with the flattened document:** the one string at a key is found, a key is
missing only where nothing is stated at it or below, and of several values none is given. -/
structure Agrees (members : List (Str × Doc)) (key : Str) (found : Found) : Prop where
  text : ∀ v, stated members key = [some v] → found = .text v
  missing : found = .missing → stated members key = [] ∧ ¬ SectionUnder members key
  several : 2 ≤ (stated members key).length → ∀ v, found ≠ .text v

/-! ## The way of a key -/

/-- The values of the members with a name. -/
def named (part : Str) : Doc → List Doc
  | .object members => (members.filter fun m => eqIgnoreAsciiCase m.1 part).map Prod.snd
  | _ => []

/-- Each part is the whole name of one member, down to some value. -/
inductive Way : Doc → List Str → Doc → Prop
  | here {d} : Way d [] d
  | step {d e f part parts} : named part d = [e] → Way e parts f → Way d (part :: parts) f

/-- Down the way of a key a name is stated twice. -/
inductive Doubled : Doc → List Str → Prop
  | here {d part parts} : 2 ≤ (named part d).length → Doubled d (part :: parts)
  | step {d e part parts} : named part d = [e] → Doubled e parts → Doubled d (part :: parts)

theorem eraseMembers_eq (members : List (Str × Doc)) :
    eraseMembers members = members.map fun m => (m.1, m.2.erase) := by
  induction members with
  | nil => rfl
  | cons m members ih => rw [eraseMembers, ih]; rfl

theorem lookupParts_object (members : List (Str × Doc)) (part : Str) (parts : List Str) :
    lookupParts (Doc.object members).erase (part :: parts) =
      match named part (.object members) with
      | [] => .missing
      | [e] => lookupParts e.erase parts
      | _ => .unreadable := by
  have hnamed : named part (.object members) =
      (members.filter fun m => eqIgnoreAsciiCase m.1 part).map Prod.snd := rfl
  rw [Doc.erase, lookupParts, eraseMembers_eq, List.filter_map, hnamed]
  have hsame : ((fun e : Str × Json => eqIgnoreAsciiCase e.1 part) ∘
      fun m : Str × Doc => (m.1, m.2.erase)) = fun m => eqIgnoreAsciiCase m.1 part := rfl
  rw [hsame]
  cases members.filter fun m => eqIgnoreAsciiCase m.1 part with
  | nil => rfl
  | cons m ms =>
      cases ms with
      | nil => rfl
      | cons m' ms => rfl

/-- A name stated twice has no value. -/
example : lookupParts (.object [(['a'], .str ['x']), (['A'], .str ['y'])]) [['a']] = .unreadable := by
  decide +kernel

/-- One part of a key is looked up. -/
theorem lookupParts_cons (d : Doc) (part : Str) (parts : List Str) :
    lookupParts d.erase (part :: parts) =
      match named part d with
      | [] => .missing
      | [e] => lookupParts e.erase parts
      | _ => .unreadable := by
  cases d with
  | object members => exact lookupParts_object members part parts
  | str s => rfl
  | scalar => rfl
  | array elements => rfl

theorem way_nil_iff {d e : Doc} : Way d [] e ↔ d = e := by
  constructor
  · rintro ⟨⟩
    rfl
  · rintro rfl
    exact .here

theorem way_cons_iff {d f : Doc} {part : Str} {parts : List Str} :
    Way d (part :: parts) f ↔ ∃ e, named part d = [e] ∧ Way e parts f := by
  constructor
  · rintro ⟨⟩
    rename_i e hnamed hway
    exact ⟨e, hnamed, hway⟩
  · rintro ⟨e, hnamed, hway⟩
    exact .step hnamed hway

theorem doubled_cons_iff {d : Doc} {part : Str} {parts : List Str} :
    Doubled d (part :: parts) ↔
      2 ≤ (named part d).length ∨ ∃ e, named part d = [e] ∧ Doubled e parts := by
  constructor
  · rintro (h | ⟨hnamed, h⟩)
    · exact .inl h
    · exact .inr ⟨_, hnamed, h⟩
  · rintro (h | ⟨e, hnamed, h⟩)
    · exact .here h
    · exact .step hnamed h

theorem not_doubled_nil {d : Doc} : ¬ Doubled d [] := by rintro ⟨⟩

/-- **A lookup gives a text** when the way of the key ends at one. -/
theorem lookupParts_eq_text_iff {d : Doc} {parts : List Str} {v : Str} :
    lookupParts d.erase parts = .text v ↔ Way d parts (.str v) := by
  induction parts generalizing d with
  | nil =>
      rw [way_nil_iff]
      cases d with
      | str s =>
          show Found.text s = .text v ↔ _
          simp
      | scalar => simp [Doc.erase, lookupParts]
      | object members => simp [Doc.erase, lookupParts]
      | array elements => simp [Doc.erase, lookupParts]
  | cons part parts ih =>
      rw [lookupParts_cons, way_cons_iff]
      match named part d with
      | [] => simp
      | [e] =>
          show lookupParts e.erase parts = .text v ↔ _
          rw [ih]
          simp
      | _ :: _ :: _ => simp

/-- **A lookup finds nothing** when the way breaks off at a name that no member has. -/
theorem lookupParts_eq_missing_iff {d : Doc} {parts : List Str} :
    lookupParts d.erase parts = .missing ↔ ¬ Doubled d parts ∧ ¬ ∃ e, Way d parts e := by
  induction parts generalizing d with
  | nil =>
      have hway : ∃ e, Way d [] e := ⟨d, .here⟩
      cases d <;> simp [Doc.erase, lookupParts, hway]
  | cons part parts ih =>
      rw [lookupParts_cons]
      simp only [way_cons_iff, doubled_cons_iff]
      match named part d with
      | [] => simp
      | [e] =>
          show lookupParts e.erase parts = .missing ↔ _
          rw [ih]
          simp
      | _ :: _ :: _ => simp

/-! ## What stands at the end of a way -/

theorem mem_leavesMembers {path : List Str} {members : List (Str × Doc)} {m : Str × Doc}
    (hm : m ∈ members) {leaf : List Str × Option Str} (h : leaf ∈ leaves (path ++ [m.1]) m.2) :
    leaf ∈ leavesMembers path members := by
  induction members with
  | nil => cases hm
  | cons m' members ih =>
      show leaf ∈ leaves (path ++ [m'.1]) m'.2 ++ leavesMembers path members
      rw [List.mem_append]
      rcases List.mem_cons.mp hm with rfl | hm
      · exact .inl h
      · exact .inr (ih hm)

theorem exists_member_of_named {d e : Doc} {part : Str} (h : e ∈ named part d) :
    ∃ members m, d = .object members ∧ m ∈ members ∧ eqIgnoreAsciiCase m.1 part = true ∧ m.2 = e := by
  cases d with
  | object members =>
      obtain ⟨m, hm, rfl⟩ := List.mem_map.mp h
      rw [List.mem_filter] at hm
      exact ⟨members, m, rfl, hm.1, hm.2, rfl⟩
  | str s => cases h
  | scalar => cases h
  | array elements => cases h

theorem Way.leaf {d : Doc} {parts : List Str} {v : Str} (h : Way d parts (.str v)) (path : List Str) :
    ∃ names, names.map (·.map Char.toLower) = parts.map (·.map Char.toLower) ∧
      (path ++ names, some v) ∈ leaves path d := by
  generalize hend : Doc.str v = f at h
  induction h generalizing path with
  | here => subst hend; exact ⟨[], rfl, by simp [leaves]⟩
  | @step d e f part parts hnamed _ ih =>
      obtain ⟨members, m, rfl, hm, hname, rfl⟩ :=
        exists_member_of_named (by rw [hnamed]; exact List.mem_singleton_self e : e ∈ named part d)
      obtain ⟨names, hnames, hleaf⟩ := ih (path ++ [m.1]) hend
      refine ⟨m.1 :: names, ?_, mem_leavesMembers hm ?_⟩
      · rw [List.map_cons, List.map_cons, hnames, beq_iff_eq.mp hname]
      · rwa [List.append_assoc] at hleaf

theorem map_joinColon {f : Char → Char} (hf : f ':' = ':') (path : List Str) :
    (joinColon path).map f = joinColon (path.map (·.map f)) := by
  induction path with
  | nil => rfl
  | cons name path ih =>
      cases path with
      | nil => simp [joinColon]
      | cons name' path =>
          rw [joinColon, List.intercalate_cons_cons, List.map_append, List.map_append]
          show _ ++ [f ':'] ++ (joinColon (name' :: path)).map f = _
          rw [ih, hf, joinColon, List.map_cons, List.map_cons, joinColon, List.map_cons,
            List.intercalate_cons_cons]

/-- What the way of a key ends at is stated at the key. -/
theorem Way.stated {members : List (Str × Doc)} {key v : Str}
    (h : Way (.object members) (key.splitOn ':') (.str v)) :
    some v ∈ Transport.stated members key := by
  obtain ⟨names, hnames, hleaf⟩ := h.leaf []
  refine List.mem_filterMap.mpr ⟨(joinColon names, some v), List.mem_map.mpr ⟨_, hleaf, rfl⟩, if_pos ?_⟩
  have hkey : joinColon (key.splitOn ':') = key := List.intercalate_splitOn ':'
  rw [eqIgnoreAsciiCase, beq_iff_eq]
  conv_rhs => rw [← hkey]
  rw [map_joinColon (by decide), map_joinColon (by decide), hnames]

/-! ## When the two agree -/

/-- **A key that a document cannot mislead.** The one string at the key is reached by whole
member names, each stated once; where something is stated at the key or below, its parts are
member names down to the end or to a name stated twice; and a key whose way ends at a string
is stated by nothing else. -/
structure Unmistaken (members : List (Str × Doc)) (key : Str) : Prop where
  only : ∀ v, stated members key = [some v] → Way (.object members) (key.splitOn ':') (.str v)
  leads : stated members key ≠ [] ∨ SectionUnder members key →
    Doubled (.object members) (key.splitOn ':') ∨ ∃ e, Way (.object members) (key.splitOn ':') e
  once : ∀ v, Way (.object members) (key.splitOn ':') (.str v) → (stated members key).length ≤ 1

theorem agrees_iff (members : List (Str × Doc)) (key : Str) :
    Agrees members key (lookup (Doc.object members).erase key) ↔ Unmistaken members key := by
  have htext : ∀ v, lookup (Doc.object members).erase key = .text v ↔
      Way (.object members) (key.splitOn ':') (.str v) := fun v => lookupParts_eq_text_iff
  have hmissing : lookup (Doc.object members).erase key = .missing ↔
      ¬ Doubled (.object members) (key.splitOn ':') ∧
        ¬ ∃ e, Way (.object members) (key.splitOn ':') e := lookupParts_eq_missing_iff
  constructor
  · intro h
    refine ⟨fun v hv => (htext v).mp (h.text v hv), fun hunder => ?_, fun v hway => ?_⟩
    · by_contra hnot
      rw [not_or] at hnot
      obtain ⟨hnone, hno⟩ := h.missing (hmissing.mpr hnot)
      rcases hunder with hne | hsection
      · exact hne hnone
      · exact hno hsection
    · by_contra hlen
      exact h.several (by omega) v ((htext v).mpr hway)
  · intro h
    refine ⟨fun v hv => (htext v).mpr (h.only v hv), fun hfound => ?_, fun hlen v hfound => ?_⟩
    · obtain ⟨hdoubled, hway⟩ := hmissing.mp hfound
      constructor
      · by_contra hne
        rcases h.leads (.inl hne) with hd | hw
        · exact hdoubled hd
        · exact hway hw
      · intro hsection
        rcases h.leads (.inr hsection) with hd | hw
        · exact hdoubled hd
        · exact hway hw
    · have := h.once v ((htext v).mp hfound)
      omega

/-- **Where lookups agree with the flattened document.** A settings text is read as what it
states, and the lookup of a key agrees exactly when the document does not mislead it. -/
theorem lookup_agrees_iff {members : List (Str × Doc)} {text : Str} (h : SettingsText members text)
    (key : Str) : ∃ json, parse text = some json ∧
      (Agrees members key (lookup json key) ↔ Unmistaken members key) :=
  ⟨_, parse_settingsText h, agrees_iff members key⟩

/-! ## A name with a colon -/

/-- One member, whose name has a colon. -/
def colonName : List (Str × Doc) := [("A:B".toList, .str ['x'])]

theorem settingsText_colonName : SettingsText colonName "\x7b\"A:B\":\"x\"\x7d".toList := by
  have hkey : StringText "A:B".toList ['A', ':', 'B', '"'] :=
    .plain (by decide) (by decide) (by decide) (.plain (by decide) (by decide) (by decide)
      (.plain (by decide) (by decide) (by decide) .close))
  have hvalue : Spells (.str ['x']) ['"', 'x', '"'] :=
    .str (.plain (by decide) (by decide) (by decide) .close)
  exact ⟨[], [], _, [], .inl rfl, .nil, .object (.last (.mk .nil hkey .nil .nil hvalue .nil)),
    .inl .nil, rfl⟩

/-- The theorem at a name with a colon. -/
theorem lookup_agrees_iff_colonName : SettingsText colonName "\x7b\"A:B\":\"x\"\x7d".toList ∧
    ∃ json, parse "\x7b\"A:B\":\"x\"\x7d".toList = some json ∧
      (Agrees colonName "A:B".toList (lookup json "A:B".toList) ↔ Unmistaken colonName "A:B".toList) :=
  ⟨settingsText_colonName, lookup_agrees_iff settingsText_colonName "A:B".toList⟩

/-- **A lookup misses a value that the flattened document states.** -/
theorem colonName_not_agrees : SettingsText colonName "\x7b\"A:B\":\"x\"\x7d".toList ∧
    ∃ json, parse "\x7b\"A:B\":\"x\"\x7d".toList = some json ∧
      ¬ Agrees colonName "A:B".toList (lookup json "A:B".toList) := by
  refine ⟨settingsText_colonName, _, parse_settingsText settingsText_colonName, fun h => ?_⟩
  have htext := h.text ['x'] (by decide +kernel)
  exact absurd htext (by decide +kernel)

end Devscout.Transport
