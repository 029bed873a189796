/-
# Devscout.Audit.Scoring -- edges of the graph against the records of a compiler

The audit joins two lists on a source line: the member edges that the resolver wrote, and the
references that a compiler recorded. This module has the rows of both and the rules of the
join: when a record vouches for an edge, when its target is one that the graph knows at all,
and when an edge cannot be right because the projects do not see each other.
-/

import Devscout.Lib.Tally
import Devscout.Lib.Text
import Mathlib

namespace Devscout.Audit

open Lib

/-! ## Rows -/

/-- A resolver tier. -/
inductive Tier where
  | precise
  | ext
  | guess
  | heuristic
  | semantic
  | semanticDiscovered
  deriving DecidableEq

def Tier.ORDER : List Tier := [.precise, .ext, .guess, .heuristic, .semantic, .semanticDiscovered]

def Tier.key : Tier → String
  | .precise => "precise"
  | .ext => "ext"
  | .guess => "guess"
  | .heuristic => "heuristic"
  | .semantic => "semantic"
  | .semanticDiscovered => "semantic-discovered"

/-- A `uses-member` edge. -/
structure EdgeRow where
  fromFile : Str
  fromLine : Nat
  to_ : Str
  toFile : Str
  tier : Tier
  member : Option Str
  deriving DecidableEq

/-- A definition, of the graph or of the compiler. -/
structure DefRow where
  id : Str
  file : Str
  test : Bool
  deriving DecidableEq

/-- A reference that the compiler recorded. -/
structure OracleRef where
  file : Str
  startLine : Nat
  shape : Str
  receiverKind : Str
  member : Str
  target : Option Str
  targetKind : Option Str
  targetFile : Option Str
  external : Bool
  ambiguous : Bool
  deriving DecidableEq

/-- A compiled project. -/
structure CompiledUnit where
  name : Str
  status : Str
  refs : List Str
  files : List Str
  deriving DecidableEq

/-- What one audit run is given. The lane is passed on as it is. -/
structure Inputs where
  root : Str
  graphDefs : List DefRow
  oracleDefs : List DefRow
  edges : List EdgeRow
  records : List OracleRef
  units : List CompiledUnit
  universe_ : List Str
  lane : Str
  discoveredShapes : OrderedMap (Str × Nat × Str) Str
  collectFpSites : Bool

/-! ## The rules of the join -/

/-- `is_unjudged_discovered_edge`. -/
def isUnjudgedDiscoveredEdge (e : EdgeRow) (shapes : OrderedMap (Str × Nat × Str) Str) : Bool :=
  if e.tier ≠ .semanticDiscovered then false
  else
    match e.member with
    | none => false
    | some member => (shapes.get? (e.fromFile, e.fromLine, member)).any (· == "identifier".toList)

def enumMember : Str := "enum-member".toList

/-- The bare type of an enum member's id. -/
def enumOf (r : OracleRef) : Option Str :=
  if r.targetKind = some enumMember then r.target.bind fun t => (Text.rsplit '.' t).map Prod.fst else none

/-- `target_matches`: the id itself, or the enum that a member of it belongs to. -/
def targetMatches (r : OracleRef) (edgeTo : Str) : Bool :=
  match r.target with
  | none => false
  | some t => t == edgeTo || (enumOf r).any (· == edgeTo)

/-- `member_matches`: an edge without a member matches all. -/
def memberMatches (edgeMember : Option Str) (recordMember : Str) : Bool :=
  match edgeMember with
  | some m => m == recordMember
  | none => true

/-- `target_known`. -/
def targetKnown (defsById : OrderedMap Str DefRow) (r : OracleRef) : Bool :=
  match r.target with
  | none => false
  | some t => (defsById.get? t).isSome || (enumOf r).any fun id => (defsById.get? id).isSome

/-- `short_name`: what stands behind the last `.` or `+`. -/
def shortName (id : Str) : Str := id.rtakeWhile fun c => c != '.' && c != '+'

example : shortName ['A', '.', 'B', '+', 'C'] = ['C'] := by decide +kernel

/-! ## Structure -/

/-- `file_to_unit`: the first unit that lists a file. -/
def fileToUnit (units : List CompiledUnit) : OrderedMap Str Str :=
  (units.flatMap fun u => u.files.map (·, u.name)).foldl (fun m e => m.upsert e.1 e.2 id) OrderedMap.empty

/-- The loop of `reach`, the top of the stack first. -/
def reachLoop (byName : OrderedMap Str CompiledUnit) : Nat → List Str → List Str → List Str
  | 0, seen, _ => seen
  | _ + 1, seen, [] => seen
  | fuel + 1, seen, n :: stack =>
      if n ∈ seen then reachLoop byName fuel seen stack
      else
        let seen := seen ++ [n]
        let pushed := ((byName.get? n).elim [] CompiledUnit.refs).filter (· ∉ seen)
        reachLoop byName fuel seen (pushed.reverse ++ stack)

/-- `reach`: what every unit reaches through its references. -/
def reach (units : List CompiledUnit) : OrderedMap Str (List Str) :=
  let byName := OrderedMap.empty.insertAll (units.map fun u => (u.name, u))
  OrderedMap.empty.insertAll
    (units.map fun u => (u.name, reachLoop byName ((units.flatMap CompiledUnit.refs).length + 1) [] [u.name]))

/-- `is_structural`: none where it cannot be checked. -/
def isStructural (e : EdgeRow) (unitsMethod : Bool) (fileUnit : OrderedMap Str Str)
    (reachMap : OrderedMap Str (List Str)) (testById : OrderedMap Str Bool) (testFiles : List Str) : Option Bool :=
  if unitsMethod then do
    let u1 ← fileUnit.get? e.fromFile
    let u2 ← fileUnit.get? e.toFile
    some !((reachMap.get? u1).any fun s => s.contains u2)
  else do
    let targetTest ← testById.get? e.to_
    if targetTest then some !(testFiles.contains e.fromFile) else some false

/-! ## The walk over units ends -/

/-- The references of the units that were not seen. -/
def refsLeft (units : List CompiledUnit) (seen : List Str) : Nat :=
  (units.map fun u => if u.name ∈ seen then 0 else u.refs.length).sum

/-- What the walk may still take off its stack. -/
def reachLeft (units : List CompiledUnit) (seen stack : List Str) : Nat := stack.length + refsLeft units seen

theorem refsLeft_mono (units : List CompiledUnit) (seen : List Str) (n : Str) :
    refsLeft units (seen ++ [n]) ≤ refsLeft units seen := by
  induction units with
  | nil => exact Nat.le_refl _
  | cons u units ih =>
      unfold refsLeft at ih ⊢
      rw [List.map_cons, List.map_cons, List.sum_cons, List.sum_cons]
      by_cases hu : u.name ∈ seen
      · rw [if_pos hu, if_pos (List.mem_append_left [n] hu)]
        omega
      · rw [if_neg hu]
        split <;> omega

theorem refsLeft_seen {units : List CompiledUnit} {u : CompiledUnit} (hu : u ∈ units) {seen : List Str}
    (hnew : u.name ∉ seen) : refsLeft units (seen ++ [u.name]) + u.refs.length ≤ refsLeft units seen := by
  induction units with
  | nil => cases hu
  | cons v units ih =>
      have hmono := refsLeft_mono units seen u.name
      unfold refsLeft at ih hmono ⊢
      rw [List.map_cons, List.map_cons, List.sum_cons, List.sum_cons]
      rcases List.mem_cons.mp hu with rfl | hu
      · rw [if_neg hnew, if_pos (List.mem_append_right seen (List.mem_singleton_self u.name))]
        omega
      · have hrest := ih hu
        by_cases hv : v.name ∈ seen
        · rw [if_pos hv, if_pos (List.mem_append_left _ hv)]
          omega
        · rw [if_neg hv]
          split <;> omega

/-- The references of a name. -/
abbrev refsNamed (byName : OrderedMap Str CompiledUnit) (n : Str) : List Str :=
  (byName.get? n).elim [] CompiledUnit.refs

/-- A name taken off the stack for the first time leaves less to do. -/
theorem reachLeft_enter {units : List CompiledUnit} {byName : OrderedMap Str CompiledUnit} {n : Str}
    (hunits : ∀ n u, byName.get? n = some u → u ∈ units ∧ u.name = n) {fuel : Nat} {seen stack : List Str}
    (hfuel : reachLeft units seen (n :: stack) ≤ fuel + 1) (hnew : n ∉ seen) :
    reachLeft units (seen ++ [n])
      (((refsNamed byName n).filter (· ∉ seen ++ [n])).reverse ++ stack) ≤ fuel := by
  unfold reachLeft at hfuel
  unfold reachLeft refsNamed
  rw [List.length_cons] at hfuel
  rw [List.length_append, List.length_reverse]
  rcases hget : byName.get? n with _ | u
  · -- a name that no unit has pushes nothing
    have hmono := refsLeft_mono units seen n
    show 0 + stack.length + _ ≤ fuel
    omega
  · obtain ⟨hu, rfl⟩ := hunits n u hget
    have hless := refsLeft_seen hu hnew
    have hpushed : (((some u).elim [] CompiledUnit.refs).filter (· ∉ seen ++ [u.name])).length ≤
        u.refs.length := List.length_filter_le _ _
    omega

/-- Every turn of the walk uses up some of what is left, so that more turns change nothing. -/
theorem reachLoop_more {units : List CompiledUnit} {byName : OrderedMap Str CompiledUnit}
    (hunits : ∀ n u, byName.get? n = some u → u ∈ units ∧ u.name = n) {fuel : Nat} {seen stack : List Str}
    (hfuel : reachLeft units seen stack ≤ fuel) (more : Nat) :
    reachLoop byName (fuel + more) seen stack = reachLoop byName fuel seen stack := by
  induction fuel generalizing seen stack with
  | zero =>
      have hnil : stack = [] := List.length_eq_zero_iff.mp (by unfold reachLeft at hfuel; omega)
      rw [hnil]
      rcases more with _ | more <;> rfl
  | succ fuel ih =>
      rw [Nat.add_right_comm]
      rcases stack with _ | ⟨n, stack⟩
      · rfl
      · rw [reachLoop, reachLoop]
        split
        · refine ih ?_
          unfold reachLeft at hfuel ⊢
          rw [List.length_cons] at hfuel
          omega
        · rename_i hnew
          exact ih (reachLeft_enter hunits hfuel hnew)

theorem mem_byName {units : List CompiledUnit} {n : Str} {u : CompiledUnit}
    (h : (OrderedMap.empty.insertAll (units.map fun u => (u.name, u))).get? n = some u) : u ∈ units ∧ u.name = n := by
  rw [OrderedMap.get?_insertAll, OrderedMap.get?_empty, Option.or_none] at h
  obtain ⟨v, hv, heq⟩ := List.mem_map.mp (List.mem_reverse.mp (OrderedMap.mem_of_lookup h))
  cases heq
  exact ⟨hv, rfl⟩

/-- **The walk over the units ends**: it is not cut off. -/
theorem reach_ends (units : List CompiledUnit) (n : Str) (more : Nat) :
    let byName := OrderedMap.empty.insertAll (units.map fun u => (u.name, u))
    reachLoop byName ((units.flatMap CompiledUnit.refs).length + 1 + more) [] [n] =
      reachLoop byName ((units.flatMap CompiledUnit.refs).length + 1) [] [n] := by
  refine reachLoop_more (fun n u h => mem_byName h) ?_ more
  have hrefs : refsLeft units [] = (units.flatMap CompiledUnit.refs).length := by
    rw [List.length_flatMap]
    rfl
  show 1 + refsLeft units [] ≤ _
  omega

/-! ## What the walk reaches -/

/-- A name refers to the references of the last unit of that name, and to nothing if no unit has it. -/
def Refers (units : List CompiledUnit) (n m : Str) : Prop :=
  ∃ u, units.reverse.find? (fun u => decide (u.name = n)) = some u ∧ m ∈ u.refs

section Reached

variable {units : List CompiledUnit} {byName : OrderedMap Str CompiledUnit} {n : Str}

theorem lookup_map_key {K V : Type} [DecidableEq K] (key : V → K) (vs : List V) (k : K) :
    (vs.map fun v => (key v, v)).lookup k = vs.find? fun v => decide (key v = k) := by
  induction vs with
  | nil => rfl
  | cons v vs ih =>
      by_cases h : key v = k
      · simp [h]
      · have hkey : (k == key v) = false := beq_eq_false_iff_ne.mpr (Ne.symm h)
        simp [List.lookup_cons, hkey, h, ih]

theorem refers_iff {m : Str} : Refers units n m ↔
    m ∈ refsNamed (OrderedMap.empty.insertAll (units.map fun u => (u.name, u))) n := by
  rw [refsNamed, OrderedMap.get?_insertAll, OrderedMap.get?_empty, Option.or_none, ← List.map_reverse,
    lookup_map_key, Refers]
  cases units.reverse.find? fun u => decide (u.name = n) with
  | none => simp
  | some u => simp

/-- The walk ends with everything that was on its stack, closed under references, and with nothing
that its start does not reach. -/
theorem reachLoop_spec {start : Str} (hunits : ∀ n u, byName.get? n = some u → u ∈ units ∧ u.name = n)
    {fuel : Nat} {seen stack : List Str} (hfuel : reachLeft units seen stack ≤ fuel)
    (hclosed : ∀ x ∈ seen, ∀ d ∈ refsNamed byName x, d ∈ seen ∨ d ∈ stack)
    (hreached : ∀ x, x ∈ seen ∨ x ∈ stack → Relation.ReflTransGen
      (fun x d => d ∈ refsNamed byName x) start x) :
    (∀ x, x ∈ seen ∨ x ∈ stack → x ∈ reachLoop byName fuel seen stack) ∧
      (∀ x ∈ reachLoop byName fuel seen stack, ∀ d ∈ refsNamed byName x,
        d ∈ reachLoop byName fuel seen stack) ∧
      ∀ x ∈ reachLoop byName fuel seen stack, Relation.ReflTransGen
        (fun x d => d ∈ refsNamed byName x) start x := by
  have hend : ∀ seen : List Str, (∀ x ∈ seen, ∀ d ∈ refsNamed byName x, d ∈ seen ∨ d ∈ []) →
      ∀ x ∈ seen, ∀ d ∈ refsNamed byName x, d ∈ seen := fun seen h x hx d hd =>
    (h x hx d hd).resolve_right List.not_mem_nil
  induction fuel generalizing seen stack with
  | zero =>
      obtain rfl : stack = [] := List.length_eq_zero_iff.mp (by unfold reachLeft at hfuel; omega)
      exact ⟨fun x hx => hx.resolve_right List.not_mem_nil, hend seen hclosed,
        fun x hx => hreached x (Or.inl hx)⟩
  | succ fuel ih =>
      rcases stack with _ | ⟨n, stack⟩
      · exact ⟨fun x hx => hx.resolve_right List.not_mem_nil, hend seen hclosed,
          fun x hx => hreached x (Or.inl hx)⟩
      · rw [reachLoop]
        split
        · rename_i hseen
          have hback : ∀ x, x ∈ n :: stack → x ∈ seen ∨ x ∈ stack := by
            intro x hx
            rcases List.mem_cons.mp hx with rfl | hx
            · exact Or.inl hseen
            · exact Or.inr hx
          obtain ⟨hall, hrest⟩ := ih (by unfold reachLeft at hfuel ⊢; rw [List.length_cons] at hfuel; omega)
            (fun x hx d hd => (hclosed x hx d hd).elim Or.inl (hback d))
            fun x hx => hreached x (hx.imp_right (List.mem_cons_of_mem n))
          exact ⟨fun x hx => hall x (hx.elim Or.inl (hback x)), hrest⟩
        · rename_i hnew
          have hn := hreached n (Or.inr List.mem_cons_self)
          -- what the name refers to is seen or pushed
          have hnext : ∀ d ∈ refsNamed byName n, d ∈ seen ++ [n] ∨
              d ∈ ((refsNamed byName n).filter (· ∉ seen ++ [n])).reverse ++ stack := by
            intro d hd
            by_cases hin : d ∈ seen ++ [n]
            · exact Or.inl hin
            · exact Or.inr (List.mem_append_left _
                (List.mem_reverse.mpr (List.mem_filter.mpr ⟨hd, decide_eq_true hin⟩)))
          have hold : ∀ x, x ∈ seen ∨ x ∈ n :: stack → x ∈ seen ++ [n] ∨
              x ∈ ((refsNamed byName n).filter (· ∉ seen ++ [n])).reverse ++ stack := by
            rintro x (hx | hx)
            · exact Or.inl (List.mem_append_left _ hx)
            · rcases List.mem_cons.mp hx with rfl | hx
              · exact Or.inl (List.mem_append_right _ (List.mem_singleton_self _))
              · exact Or.inr (List.mem_append_right _ hx)
          have hclosed' : ∀ x ∈ seen ++ [n], ∀ d ∈ refsNamed byName x, d ∈ seen ++ [n] ∨
              d ∈ ((refsNamed byName n).filter (· ∉ seen ++ [n])).reverse ++ stack := by
            intro x hx d hd
            rcases List.mem_append.mp hx with hx | hx
            · exact hold d (hclosed x hx d hd)
            · obtain rfl := List.mem_singleton.mp hx
              exact hnext d hd
          obtain ⟨hall, hrest⟩ := ih (reachLeft_enter hunits hfuel hnew) hclosed' fun x hx => by
            rcases hx with hx | hx
            · rcases List.mem_append.mp hx with hx | hx
              · exact hreached x (Or.inl hx)
              · rwa [List.mem_singleton.mp hx]
            · rcases List.mem_append.mp hx with hx | hx
              · exact hn.tail (List.mem_filter.mp (List.mem_reverse.mp hx)).1
              · exact hreached x (Or.inr (List.mem_cons_of_mem n hx))
          exact ⟨fun x hx => hall x (hold x hx), hrest⟩

end Reached

/-- **A unit reaches what a chain of references leads to**, itself and names of no unit included; a
name that is no unit's has no entry. -/
theorem reach_iff (units : List CompiledUnit) (n m : Str) :
    (((reach units).get? n).any fun s => s.contains m) = true ↔
      (∃ u ∈ units, u.name = n) ∧ Relation.ReflTransGen (Refers units) n m := by
  let byName := OrderedMap.empty.insertAll (units.map fun u => (u.name, u))
  let walked (n : Str) := reachLoop byName ((units.flatMap CompiledUnit.refs).length + 1) [] [n]
  have hentry : ∀ s, (reach units).get? n = some s ↔ (∃ u ∈ units, u.name = n) ∧ s = walked n := by
    intro s
    have hfun : ∀ e ∈ units.map fun u => (u.name, walked u.name),
        ∀ e' ∈ units.map fun u => (u.name, walked u.name), e.1 = e'.1 → e.2 = e'.2 := by
      intro e he e' he' heq
      obtain ⟨u, -, rfl⟩ := List.mem_map.mp he
      obtain ⟨u', -, rfl⟩ := List.mem_map.mp he'
      exact congrArg walked heq
    refine (OrderedMap.get?_insertAll_iff hfun).trans ?_
    rw [List.mem_map]
    constructor
    · rintro ⟨u, hu, heq⟩
      obtain ⟨rfl, rfl⟩ := Prod.mk.inj heq
      exact ⟨⟨u, hu, rfl⟩, rfl⟩
    · rintro ⟨⟨u, hu, rfl⟩, rfl⟩
      exact ⟨u, hu, rfl⟩
  have hrefers : Refers units = fun x d => d ∈ refsNamed byName x :=
    funext fun x => funext fun d => propext refers_iff
  have hfuel : reachLeft units [] [n] ≤ (units.flatMap CompiledUnit.refs).length + 1 := by
    have hrefs : refsLeft units [] = (units.flatMap CompiledUnit.refs).length := by
      rw [List.length_flatMap]
      rfl
    show 1 + refsLeft units [] ≤ _
    omega
  have hstart : ∀ x, x ∈ ([] : List Str) ∨ x ∈ [n] →
      Relation.ReflTransGen (fun x d => d ∈ refsNamed byName x) n x := by
    intro x hx
    rw [List.mem_singleton.mp (hx.resolve_left List.not_mem_nil)]
  obtain ⟨hall, hclosed, hreached⟩ := reachLoop_spec (fun n u h => mem_byName h) hfuel
    (fun x hx => absurd hx List.not_mem_nil) hstart
  have hwalked : m ∈ walked n ↔ Relation.ReflTransGen (Refers units) n m := by
    rw [hrefers]
    refine ⟨hreached m, fun h => ?_⟩
    induction h with
    | refl => exact hall n (Or.inr (List.mem_singleton_self n))
    | tail _ hstep ih => exact hclosed _ ih _ hstep
  rw [Option.any_eq_true, ← hwalked]
  constructor
  · rintro ⟨s, hget, hm⟩
    obtain ⟨hunit, rfl⟩ := (hentry s).mp hget
    exact ⟨hunit, List.contains_iff_mem.mp hm⟩
  · rintro ⟨hunit, hm⟩
    exact ⟨walked n, (hentry _).mpr ⟨hunit, rfl⟩, List.contains_iff_mem.mpr hm⟩

end Devscout.Audit
