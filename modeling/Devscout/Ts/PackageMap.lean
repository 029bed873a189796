/-
# Devscout.Ts.PackageMap -- the targets of a package's `exports` and `imports`

A package maps subpaths, or specifiers that begin with `#`, to targets. A target is a path, a
`null` that forbids the subpath, a list of alternatives, or an object whose keys are conditions:
the first condition that is active in the importing file's mode decides. Keys may be patterns
with one `*`, and the text it stands for is put into the target.

The rule the map is read by is that of Node. There an object is asked condition by condition
until one has an answer, and a nested object without an active condition has none. The code asks
the first active condition and takes what it gets. What this loses is stated against the rule,
value by value.
-/

import Devscout.Lib.Foremost
import Devscout.Lib.Text

namespace Devscout.Ts

open Lib

/-! ## Reading a map -/

inductive OrderedValue
  | null
  | bool (b : Bool)
  | number
  | string (path : Str)
  | array (values : List OrderedValue)
  | object (entries : List (Str × OrderedValue))

inductive Mode
  | node10
  | node16
  | nodeNext
  | bundler
  | classic
  deriving DecidableEq

inductive MapMatch
  | notMatched
  | noCondition
  | targets (paths : List Str)
  deriving DecidableEq

/-- What an import is resolved under. -/
structure Conditions where
  usage : Str
  mode : Mode
  custom : List Str

def typesCondition : Str := ['t', 'y', 'p', 'e', 's']
def defaultCondition : Str := ['d', 'e', 'f', 'a', 'u', 'l', 't']
def nodeCondition : Str := ['n', 'o', 'd', 'e']

/-- A condition is active. -/
def Conditions.active (c : Conditions) (condition : Str) : Bool :=
  condition ≠ typesCondition &&
    (condition = defaultCondition || condition = c.usage ||
      (condition = nodeCondition && c.mode ≠ .bundler) || condition ∈ c.custom)

/-- A path with the captured text put in. -/
def substituted (path capture : Str) : Str :=
  if '*' ∈ path then path.flatMap fun ch => if ch = '*' then capture else [ch]
  else if capture ≠ [] ∧ path.getLast? = some '/' then path ++ capture
  else path

example : substituted ['.', '/', '*'] ['a'] = ['.', '/', 'a'] ∧ substituted ['a', '/'] ['b'] = ['a', '/', 'b'] := by
  decide +kernel

namespace MapMatch

def paths : MapMatch → List Str
  | targets paths => paths
  | _ => []

/-- Some paths, if there are any. -/
def ofPaths (paths : List Str) : MapMatch := if paths.isEmpty then noCondition else targets paths

@[simp] theorem paths_ofPaths (paths : List Str) : (ofPaths paths).paths = paths := by
  cases paths <;> rfl

end MapMatch

section Target

variable (c : Conditions) (capture : Str)

mutual

/-- `target`. -/
def target : OrderedValue → MapMatch
  | .null => .noCondition
  | .string path => .targets [substituted path capture]
  | .array values => .ofPaths (targetsOf values)
  | .object entries => firstActive entries
  | .bool _ | .number => .noCondition

/-- The targets of an array's values, together. -/
def targetsOf : List OrderedValue → List Str
  | [] => []
  | value :: values => (target value).paths ++ targetsOf values

/-- The target of the first active condition of an object. -/
def firstActive : List (Str × OrderedValue) → MapMatch
  | [] => .noCondition
  | (condition, value) :: entries => if c.active condition then target value else firstActive entries

end

end Target

/-- The value at a key. -/
def valueAt (entries : List (Str × OrderedValue)) (key : Str) : Option OrderedValue :=
  (entries.find? fun e => e.1 = key).map Prod.snd

/-- A pattern that a specifier matches. Lengths are in characters: prefixes of one specifier
compare as they do in bytes, and so do suffixes. -/
structure Candidate where
  prefixLength : Nat
  suffixLength : Nat
  capture : Str
  value : OrderedValue

/-- A key with a `*` that the specifier matches. -/
def candidate (spec : Str) (entry : Str × OrderedValue) : Option Candidate :=
  if '*' ∈ entry.1 then
    let star := entry.1.idxOf '*'
    let before := entry.1.take star
    let after := entry.1.drop (star + 1)
    if before.isPrefixOf spec && after.isSuffixOf spec && before.length + after.length ≤ spec.length then
      some ⟨before.length, after.length,
        (spec.take (spec.length - after.length)).drop before.length, entry.2⟩
    else none
  else none

/-- The order of candidates: the longer prefix first, then the longer suffix. -/
def Candidate.before (a b : Candidate) : Prop :=
  b.prefixLength < a.prefixLength ∨ b.prefixLength = a.prefixLength ∧ b.suffixLength ≤ a.suffixLength

instance : DecidableRel Candidate.before := fun a b => by
  unfold Candidate.before
  infer_instance

/-- `select_key`. -/
def selectKey (c : Conditions) (map : OrderedValue) (spec : Str) : MapMatch :=
  match map with
  | .object entries =>
      match valueAt entries spec with
      | some value => target c [] value
      | none =>
          match ((entries.filterMap (candidate spec)).insertionSort Candidate.before).head? with
          | some chosen => target c chosen.capture chosen.value
          | none => .notMatched
  | _ => .notMatched

/-- An object that maps subpaths, and not conditions. -/
def OrderedValue.mapsSubpaths : OrderedValue → Bool
  | .object entries => entries.any fun e => e.1.head? = some '.'
  | _ => false

/-- `exports`. -/
def exports (c : Conditions) (map : OrderedValue) (subpath : Str) : MapMatch :=
  if map.mapsSubpaths then selectKey c map subpath
  else if subpath ≠ ['.'] then .notMatched
  else target c [] map

/-- `imports`. -/
def imports (c : Conditions) (map : OrderedValue) (spec : Str) : MapMatch := selectKey c map spec

/-! ## The rule -/

/-- What a value yields by the rule: nothing at all, an exclusion, or targets. -/
inductive Yield
  | nothing
  | excluded
  | targets (paths : List Str)
  deriving DecidableEq

namespace Yield

def paths : Yield → List Str
  | targets paths => paths
  | _ => []

/-- What two alternatives yield together: the targets of both, an exclusion where one excludes
and none has targets. -/
def join : Yield → Yield → Yield
  | nothing, b => b
  | a, nothing => a
  | excluded, b => b
  | a, excluded => a
  | targets as, targets bs => targets (as ++ bs)

@[simp] theorem paths_join (a b : Yield) : (a.join b).paths = a.paths ++ b.paths := by
  cases a <;> cases b <;> simp [join, paths]

end Yield

section Rule

variable (c : Conditions) (capture : Str)

mutual

/-- The rule: `null` excludes, and an object yields what its first active condition yields that
yields something. -/
def yields : OrderedValue → Yield
  | .null | .bool _ | .number => .excluded
  | .string path => .targets [substituted path capture]
  | .array [] => .excluded
  | .array (value :: values) => (yields value).join (yieldsOf values)
  | .object entries => firstYield entries

def yieldsOf : List OrderedValue → Yield
  | [] => .nothing
  | value :: values => (yields value).join (yieldsOf values)

def firstYield : List (Str × OrderedValue) → Yield
  | [] => .nothing
  | (condition, value) :: entries =>
      if c.active condition then
        match yields value with
        | .nothing => firstYield entries
        | some_ => some_
      else firstYield entries

end

end Rule

/-- What the rule's yield answers: an exclusion and nothing at all both leave no target. -/
def Yield.answer (y : Yield) : MapMatch := .ofPaths y.paths

/-- The key stands for a pattern that the specifier matches: it has a `*`, the first one of
which stands for some text of the specifier. -/
def StandsFor (spec : Str) (entry : Str × OrderedValue) (p : Candidate) : Prop :=
  ∃ before after, entry.1 = before ++ '*' :: after ∧ '*' ∉ before ∧
    spec = before ++ (p.capture ++ after) ∧ p.prefixLength = before.length ∧
    p.suffixLength = after.length ∧ p.value = entry.2

/-- How long a pattern's key is. -/
def Candidate.keyLength (p : Candidate) : Nat := p.prefixLength + 1 + p.suffixLength

/-- The rule's order of patterns: the longer prefix, then the longer key. -/
def Candidate.AsSpecific (a b : Candidate) : Prop :=
  b.prefixLength < a.prefixLength ∨ b.prefixLength = a.prefixLength ∧ b.keyLength ≤ a.keyLength

/-- The value a map has for a specifier, and the text its `*` stands for: that of the key that
is the specifier, and where there is none, that of the most specific pattern. -/
def Keyed (entries : List (Str × OrderedValue)) (spec capture : Str) (value : OrderedValue) : Prop :=
  valueAt entries spec = some value ∧ capture = [] ∨
    valueAt entries spec = none ∧
      ∃ p, ForemostOf (StandsFor spec) Candidate.AsSpecific entries p ∧
        p.capture = capture ∧ p.value = value

/-- The value an `imports` map has for a specifier. -/
def ImportsEntry (map : OrderedValue) (spec capture : Str) (value : OrderedValue) : Prop :=
  match map with
  | .object entries => Keyed entries spec capture value
  | _ => False

/-- The value an `exports` map has for a subpath. A map that does not map subpaths is the value
of the package itself. -/
def ExportsEntry (map : OrderedValue) (subpath capture : Str) (value : OrderedValue) : Prop :=
  if map.mapsSubpaths then ImportsEntry map subpath capture value
  else subpath = ['.'] ∧ capture = [] ∧ value = map

/-- The rule's answer, given what entry a map has. -/
def Answers (c : Conditions) (entry : Str → OrderedValue → Prop) (answer : MapMatch) : Prop :=
  (∃ capture value, entry capture value ∧ answer = (yields c capture value).answer) ∨
    (∀ capture value, ¬entry capture value) ∧ answer = .notMatched

/-! ## What the first active condition loses -/

section Lost

variable (c : Conditions) (capture : Str)

mutual

/-- Nothing is lost in a value: wherever the first active condition of an object yields nothing,
the conditions after it have no target either. Of an object only the first active condition is
looked into, of an array every value. -/
def NothingLost : OrderedValue → Prop
  | .array values => NothingLostIn values
  | .object entries => NothingLostAt entries
  | _ => True

def NothingLostIn : List OrderedValue → Prop
  | [] => True
  | value :: values => NothingLost value ∧ NothingLostIn values

def NothingLostAt : List (Str × OrderedValue) → Prop
  | [] => True
  | (condition, value) :: entries =>
      if c.active condition then
        if yields c capture value = .nothing then (firstYield c capture entries).paths = []
        else NothingLost value
      else NothingLostAt entries

end

variable {c capture}

theorem paths_yields_array (values : List OrderedValue) :
    (yields c capture (.array values)).paths = (yieldsOf c capture values).paths := by
  cases values with
  | nil => simp [yields, yieldsOf, Yield.paths]
  | cons value values => rw [yields, yieldsOf]

mutual

/-- The code's targets are targets by the rule. -/
theorem target_sublist (v : OrderedValue) :
    (target c capture v).paths.Sublist (yields c capture v).paths := by
  cases v with
  | null => simp [target, yields, MapMatch.paths, Yield.paths]
  | bool b => simp [target, yields, MapMatch.paths, Yield.paths]
  | number => simp [target, yields, MapMatch.paths, Yield.paths]
  | string path => simp [target, yields, MapMatch.paths, Yield.paths]
  | array values =>
      rw [target, MapMatch.paths_ofPaths, paths_yields_array]
      exact targetsOf_sublist values
  | object entries =>
      rw [target, yields]
      exact firstActive_sublist entries

theorem targetsOf_sublist (vs : List OrderedValue) :
    (targetsOf c capture vs).Sublist (yieldsOf c capture vs).paths := by
  cases vs with
  | nil => simp [targetsOf]
  | cons value values =>
      rw [targetsOf, yieldsOf, Yield.paths_join]
      exact (target_sublist value).append (targetsOf_sublist values)

theorem firstActive_sublist (es : List (Str × OrderedValue)) :
    (firstActive c capture es).paths.Sublist (firstYield c capture es).paths := by
  cases es with
  | nil => simp [firstActive, MapMatch.paths]
  | cons e entries =>
      obtain ⟨condition, value⟩ := e
      rw [firstActive, firstYield]
      by_cases hactive : c.active condition
      · rw [if_pos hactive, if_pos hactive]
        have hvalue := target_sublist value
        cases hy : yields c capture value with
        | nothing =>
            -- the rule goes on to the next condition, and the code has stopped empty-handed
            rw [hy] at hvalue
            rw [List.sublist_nil.mp hvalue]
            exact List.nil_sublist _
        | excluded => rwa [hy] at hvalue
        | targets paths => rwa [hy] at hvalue
      · rw [if_neg hactive, if_neg hactive]
        exact firstActive_sublist entries

end

/-- Two lists that lie within two others make up their whole only as wholes. -/
theorem append_eq_iff_of_sublist {a a' b b' : List Str} (ha : a.Sublist a') (hb : b.Sublist b') :
    a ++ b = a' ++ b' ↔ a = a' ∧ b = b' := by
  constructor
  · intro h
    -- neither part can be shorter, or the whole would be
    have hlen := congrArg List.length h
    have hla := ha.length_le
    have hlb := hb.length_le
    simp only [List.length_append] at hlen
    exact ⟨ha.eq_of_length (by omega), hb.eq_of_length (by omega)⟩
  · rintro ⟨rfl, rfl⟩
    rfl

mutual

/-- A value's targets are all the rule has exactly if nothing is lost in it. -/
theorem target_paths_iff (v : OrderedValue) :
    (target c capture v).paths = (yields c capture v).paths ↔ NothingLost c capture v := by
  cases v with
  | null => exact iff_of_true rfl trivial
  | bool b => exact iff_of_true rfl trivial
  | number => exact iff_of_true rfl trivial
  | string path => exact iff_of_true rfl trivial
  | array values =>
      rw [target, MapMatch.paths_ofPaths, paths_yields_array, NothingLost]
      exact targetsOf_iff values
  | object entries =>
      rw [target, yields, NothingLost]
      exact firstActive_iff entries

theorem targetsOf_iff (vs : List OrderedValue) :
    targetsOf c capture vs = (yieldsOf c capture vs).paths ↔ NothingLostIn c capture vs := by
  cases vs with
  | nil => exact iff_of_true rfl trivial
  | cons value values =>
      rw [targetsOf, yieldsOf, Yield.paths_join, NothingLostIn,
        append_eq_iff_of_sublist (target_sublist value) (targetsOf_sublist values),
        target_paths_iff value, targetsOf_iff values]

theorem firstActive_iff (es : List (Str × OrderedValue)) :
    (firstActive c capture es).paths = (firstYield c capture es).paths ↔ NothingLostAt c capture es := by
  cases es with
  | nil => exact iff_of_true rfl trivial
  | cons e entries =>
      obtain ⟨condition, value⟩ := e
      rw [firstActive, firstYield, NothingLostAt]
      by_cases hactive : c.active condition
      · rw [if_pos hactive, if_pos hactive, if_pos hactive]
        by_cases hnothing : yields c capture value = .nothing
        · have hvalue : (target c capture value).paths.Sublist (yields c capture value).paths :=
            target_sublist value
          -- the code has no target here, so what the rule finds further on is lost
          rw [hnothing] at hvalue
          rw [if_pos hnothing, hnothing, List.sublist_nil.mp hvalue]
          exact eq_comm
        · rw [if_neg hnothing, ← target_paths_iff value]
          cases hy : yields c capture value with
          | nothing => exact absurd hy hnothing
          | excluded => rfl
          | targets paths => rfl
      · rw [if_neg hactive, if_neg hactive, if_neg hactive]
        exact firstActive_iff entries

end

mutual

theorem target_eq_ofPaths (v : OrderedValue) :
    target c capture v = .ofPaths (target c capture v).paths := by
  cases v with
  | null => rfl
  | bool b => rfl
  | number => rfl
  | string path => rfl
  | array values => rw [target, MapMatch.paths_ofPaths]
  | object entries =>
      rw [target]
      exact firstActive_eq_ofPaths entries

theorem firstActive_eq_ofPaths (es : List (Str × OrderedValue)) :
    firstActive c capture es = .ofPaths (firstActive c capture es).paths := by
  cases es with
  | nil => rfl
  | cons e entries =>
      obtain ⟨condition, value⟩ := e
      rw [firstActive]
      by_cases hactive : c.active condition
      · rw [if_pos hactive]
        exact target_eq_ofPaths value
      · rw [if_neg hactive]
        exact firstActive_eq_ofPaths entries

end

/-- **A value's answer.** The code answers by the rule exactly where nothing is lost. -/
theorem target_eq_answer_iff (v : OrderedValue) :
    target c capture v = (yields c capture v).answer ↔ NothingLost c capture v := by
  rw [← target_paths_iff, Yield.answer, target_eq_ofPaths]
  constructor
  · intro h
    simpa using congrArg MapMatch.paths h
  · intro h
    rw [MapMatch.paths_ofPaths] at h
    rw [h]

end Lost

/-! ## Which entry is chosen -/

/-- A key is cut at its first `*`. -/
theorem candidate_star {spec before after : Str} (hbefore : '*' ∉ before) (value : OrderedValue) :
    candidate spec (before ++ '*' :: after, value) =
      if before.isPrefixOf spec && after.isSuffixOf spec && before.length + after.length ≤ spec.length then
        some ⟨before.length, after.length,
          (spec.take (spec.length - after.length)).drop before.length, value⟩
      else none := by
  have hstar : (before ++ '*' :: after).idxOf '*' = before.length := by
    rw [List.idxOf_append_of_notMem hbefore, List.idxOf_cons_self, Nat.add_zero]
  have hafter : (before ++ '*' :: after).drop (before.length + 1) = after := by
    rw [← List.drop_drop, List.drop_left, List.drop_one, List.tail_cons]
  rw [candidate, if_pos (by simp)]
  simp only [hstar, List.take_left, hafter]

/-- What a prefix and a suffix leave. -/
theorem drop_take_middle (before capture after : Str) :
    ((before ++ (capture ++ after)).take ((before ++ (capture ++ after)).length - after.length)).drop
      before.length = capture := by
  have hlen : (before ++ (capture ++ after)).length - after.length = (before ++ capture).length := by
    simp only [List.length_append]
    omega
  rw [hlen, ← List.append_assoc, List.take_left, List.drop_left]

theorem candidate_eq_some_iff {spec : Str} (entry : Str × OrderedValue) (p : Candidate) :
    candidate spec entry = some p ↔ StandsFor spec entry p := by
  obtain ⟨key, value⟩ := entry
  constructor
  · intro h
    by_cases hmem : '*' ∈ key
    · obtain ⟨before, after, rfl, hbefore⟩ := List.eq_append_cons_of_mem hmem
      rw [candidate_star hbefore] at h
      split at h
      · next hfits =>
          cases h
          simp only [Bool.and_eq_true, List.isPrefixOf_iff_prefix, List.isSuffixOf_iff_suffix,
            decide_eq_true_eq] at hfits
          obtain ⟨⟨hpre, rest, rfl⟩, hlen⟩ := hfits
          -- the prefix ends before the suffix begins
          have hrest : before <+: rest := by
            refine List.prefix_of_prefix_length_le hpre (List.prefix_append rest after) ?_
            rw [List.length_append] at hlen
            omega
          obtain ⟨capture, rfl⟩ := hrest
          refine ⟨before, after, rfl, hbefore, ?_, rfl, rfl, rfl⟩
          simp only [List.append_assoc, drop_take_middle]
      · cases h
    · rw [candidate, if_neg hmem] at h
      cases h
  · rintro ⟨before, after, rfl, hbefore, rfl, hpre, hsuf, hvalue⟩
    have hfits : (before.isPrefixOf (before ++ (p.capture ++ after)) &&
        after.isSuffixOf (before ++ (p.capture ++ after)) &&
        decide (before.length + after.length ≤ (before ++ (p.capture ++ after)).length)) = true := by
      simp only [Bool.and_eq_true, List.isPrefixOf_iff_prefix, List.isSuffixOf_iff_suffix,
        decide_eq_true_eq, List.length_append]
      exact ⟨⟨List.prefix_append _ _, before ++ p.capture, List.append_assoc ..⟩, by omega⟩
    rw [candidate_star hbefore, if_pos hfits, drop_take_middle, ← hpre, ← hsuf]
    exact congrArg (fun v => some (Candidate.mk _ _ _ v)) hvalue.symm

theorem asSpecific_iff {a b : Candidate} : a.before b ↔ a.AsSpecific b := by
  rw [Candidate.before, Candidate.AsSpecific, Candidate.keyLength, Candidate.keyLength]
  omega

theorem before_total (a b : Candidate) : a.before b ∨ b.before a := by
  rw [Candidate.before, Candidate.before]
  omega

theorem before_trans (a b c : Candidate) (hab : a.before b) (hbc : b.before c) : a.before c := by
  rw [Candidate.before] at *
  omega

theorem foremostOf_of_head? {entries : List (Str × OrderedValue)} {spec : Str} {p : Candidate}
    (h : ((entries.filterMap (candidate spec)).insertionSort Candidate.before).head? = some p) :
    ForemostOf (StandsFor spec) Candidate.AsSpecific entries p := by
  have hforemost := foremost_of_head?_insertionSort before_total before_trans h
  have heq : Candidate.before = Candidate.AsSpecific := by
    funext a b
    exact propext asSpecific_iff
  rw [heq] at hforemost
  exact (foremost_filterMap_iff candidate_eq_some_iff).mp hforemost

/-- Where no key is a candidate, no pattern stands for the specifier. -/
theorem not_foremostOf_of_head? {entries : List (Str × OrderedValue)} {spec : Str}
    (h : ((entries.filterMap (candidate spec)).insertionSort Candidate.before).head? = none)
    (p : Candidate) : ¬ForemostOf (StandsFor spec) Candidate.AsSpecific entries p := by
  rintro ⟨xs, e, ys, rfl, hstands, -⟩
  have hmem : p ∈ (xs ++ e :: ys).filterMap (candidate spec) :=
    List.mem_filterMap.mpr ⟨e, by simp, (candidate_eq_some_iff e p).mpr hstands⟩
  rw [← (List.perm_insertionSort Candidate.before _).mem_iff, List.head?_eq_none_iff.mp h] at hmem
  cases hmem

/-- A map has one entry for a specifier. -/
theorem Keyed.unique {entries : List (Str × OrderedValue)} {spec capture capture' : Str}
    {value value' : OrderedValue} (h : Keyed entries spec capture value)
    (h' : Keyed entries spec capture' value') : capture = capture' ∧ value = value' := by
  rcases h with ⟨hat, rfl⟩ | ⟨hnone, p, hp, rfl, rfl⟩
  · rcases h' with ⟨hat', rfl⟩ | ⟨hnone', -⟩
    · rw [hat] at hat'
      exact ⟨rfl, Option.some.inj hat'⟩
    · rw [hat] at hnone'
      cases hnone'
  · rcases h' with ⟨hat', rfl⟩ | ⟨-, q, hq, rfl, rfl⟩
    · rw [hnone] at hat'
      cases hat'
    · -- no two patterns are both the most specific
      have hpq := ((foremost_filterMap_iff candidate_eq_some_iff).mpr hp).unique
        ((foremost_filterMap_iff candidate_eq_some_iff).mpr hq)
      rw [hpq]
      exact ⟨rfl, rfl⟩

/-- **Selecting a key.** The code reads the entry the rule reads, and answers by it. -/
theorem selectKey_reads (c : Conditions) (map : OrderedValue) (spec : Str) :
    (∃ capture value, ImportsEntry map spec capture value ∧
        selectKey c map spec = target c capture value) ∨
      (∀ capture value, ¬ImportsEntry map spec capture value) ∧
        selectKey c map spec = .notMatched := by
  cases map with
  | object entries =>
      rw [selectKey]
      cases hat : valueAt entries spec with
      | some value => exact .inl ⟨[], value, .inl ⟨hat, rfl⟩, rfl⟩
      | none =>
          cases hhead : ((entries.filterMap (candidate spec)).insertionSort Candidate.before).head? with
          | some p => exact .inl ⟨_, _, .inr ⟨hat, p, foremostOf_of_head? hhead, rfl, rfl⟩, rfl⟩
          | none =>
              refine .inr ⟨fun capture value hkeyed => ?_, rfl⟩
              rcases hkeyed with ⟨hat', -⟩ | ⟨-, p, hp, -⟩
              · rw [hat] at hat'
                cases hat'
              · exact not_foremostOf_of_head? hhead p hp
  | _ => exact .inr ⟨fun _ _ h => h, rfl⟩

theorem ImportsEntry.unique {map : OrderedValue} {spec capture capture' : Str}
    {value value' : OrderedValue} (h : ImportsEntry map spec capture value)
    (h' : ImportsEntry map spec capture' value') :
    capture = capture' ∧ value = value' := by
  cases map with
  | object entries => exact Keyed.unique h h'
  | _ => exact h.elim

/-- Nothing is lost in the value an entry holds. -/
def EntryKept (c : Conditions) (entry : Str → OrderedValue → Prop) : Prop :=
  ∀ capture value, entry capture value → NothingLost c capture value

/-- An answer by the one entry of a map follows the rule exactly where nothing is lost in it. -/
theorem answers_iff {c : Conditions} {entry : Str → OrderedValue → Prop} {answer : MapMatch}
    (hunique : ∀ capture value capture' value', entry capture value → entry capture' value' →
      capture = capture' ∧ value = value')
    (hreads : (∃ capture value, entry capture value ∧ answer = target c capture value) ∨
      (∀ capture value, ¬entry capture value) ∧ answer = .notMatched) :
    Answers c entry answer ↔ EntryKept c entry := by
  rcases hreads with ⟨capture, value, hentry, rfl⟩ | ⟨hno, rfl⟩
  · have hone {capture' : Str} {value' : OrderedValue} (h : entry capture' value') :
        capture = capture' ∧ value = value' := hunique _ _ _ _ hentry h
    constructor
    · rintro (⟨capture', value', h, hanswer⟩ | ⟨hno, -⟩)
      · obtain ⟨rfl, rfl⟩ := hone h
        intro capture' value' h'
        obtain ⟨rfl, rfl⟩ := hone h'
        exact target_eq_answer_iff value |>.mp hanswer
      · exact absurd hentry (hno capture value)
    · intro hkept
      exact .inl ⟨capture, value, hentry, (target_eq_answer_iff value).mpr (hkept capture value hentry)⟩
  · refine iff_of_true (.inr ⟨hno, rfl⟩) fun capture value h => absurd h (hno capture value)

/-- **Conditional targets.** For every map, subpath or specifier, usage, mode and custom
conditions, `exports` and `imports` answer by the rule if and only if nothing is lost in the
value that the map has. -/
theorem package_map_follows_rule_iff (c : Conditions) (map : OrderedValue) (spec : Str) :
    (Answers c (ExportsEntry map spec) (exports c map spec) ↔ EntryKept c (ExportsEntry map spec)) ∧
      (Answers c (ImportsEntry map spec) (imports c map spec) ↔ EntryKept c (ImportsEntry map spec)) := by
  constructor
  · by_cases hsub : map.mapsSubpaths
    · have hentry : ExportsEntry map spec = ImportsEntry map spec := by
        funext capture value
        rw [ExportsEntry, if_pos hsub]
      rw [hentry, exports, if_pos hsub]
      exact answers_iff (fun _ _ _ _ => ImportsEntry.unique) (selectKey_reads c map spec)
    · -- the map as a whole is the one entry, and only of the package itself
      have hentry (capture : Str) (value : OrderedValue) :
          ExportsEntry map spec capture value ↔ spec = ['.'] ∧ capture = [] ∧ value = map := by
        rw [ExportsEntry, if_neg hsub]
      refine answers_iff (fun capture value capture' value' h h' => ?_) ?_
      · obtain ⟨-, rfl, rfl⟩ := (hentry _ _).mp h
        obtain ⟨-, rfl, rfl⟩ := (hentry _ _).mp h'
        exact ⟨rfl, rfl⟩
      · rw [exports, if_neg hsub]
        by_cases hroot : spec = ['.']
        · exact .inl ⟨[], map, (hentry _ _).mpr ⟨hroot, rfl, rfl⟩, by simp [hroot]⟩
        · refine .inr ⟨fun capture value h => hroot ((hentry _ _).mp h).1, ?_⟩
          simp [hroot]
  · exact answers_iff (fun _ _ _ _ => ImportsEntry.unique) (selectKey_reads c map spec)

/-- An import of `{"import": {"browser": "b"}, "default": "d"}` outside a browser: `import` is
active, what it holds has no active condition, and `default` would have answered. -/
theorem nested_condition_lost :
    ¬∀ (c : Conditions) (map : OrderedValue) (spec : Str),
      Answers c (ExportsEntry map spec) (exports c map spec) ∧
        Answers c (ImportsEntry map spec) (imports c map spec) := by
  intro h
  let c : Conditions := ⟨['i', 'm', 'p', 'o', 'r', 't'], .node16, []⟩
  let browser : OrderedValue := .object [(['b', 'r', 'o', 'w', 's', 'e', 'r'], .string ['b'])]
  let map : OrderedValue :=
    .object [(['i', 'm', 'p', 'o', 'r', 't'], browser), (defaultCondition, .string ['d'])]
  -- the code stops at `import`, the rule goes on to `default`
  have hcode : exports c map ['.'] = .noCondition := by decide
  have hrule : (yields c [] map).answer = .targets [['d']] := by decide
  have hentry (capture : Str) (value : OrderedValue) :
      ExportsEntry map ['.'] capture value ↔ ['.'] = ['.'] ∧ capture = [] ∧ value = map := by
    rw [ExportsEntry, if_neg (by decide)]
  rcases (h c map ['.']).1 with ⟨capture, value, hvalue, hanswer⟩ | ⟨hno, -⟩
  · obtain ⟨-, rfl, rfl⟩ := (hentry _ _).mp hvalue
    rw [hcode, hrule] at hanswer
    cases hanswer
  · exact hno [] map ((hentry _ _).mpr ⟨rfl, rfl, rfl⟩)

end Devscout.Ts
