/-
# Devscout.Resolve.Calls -- the ladder with the calls it makes

A reference asks the ladder for others: a dotted one for its qualifier and for its head, a
nested candidate for the base lists around its site, and every base of those lists is a
reference too. Here each such question is a call, calls are nested as deep as a bound
allows, and the walk over base lists takes no more turns than that either.

A base is asked bare and without a type stack, so it asks for nothing further. What is left
is the qualifier of a dotted name: a segment shorter than the name, unless the head of the
name is an alias. An alias whose target begins with an alias again can keep the qualifiers
coming for ever.
-/

import Devscout.Lib.Fuel
import Devscout.Lib.Saturate
import Devscout.Resolve.Ladder

namespace Devscout.Resolve

open Lib Fuel

/-- A resolver that has not finished everywhere. -/
abbrev Call := FragRef → FileContext → Str → Option Resolution

section Calls

variable (index : DefIndex) (contexts : Contexts) (resolve : Call)

/-- `resolve_ref_by_arity`. -/
def callByArity (probe : FragRef) (arity : Option Nat) (ctx : FileContext) (ns : Str) :
    Option Resolution :=
  match arity with
  | none => resolve probe ctx ns
  | some n =>
      let full := (ctx.aliases.get? probe.name).getD probe.name
      let simple := (full.splitOn '.').getLastD full
      let shared := decide (2 ≤ ((index.simpleNameToDefs.get? simple).getD []).length)
      if shared then do
        match ← resolve { probe with typeArgCount := some n } ctx ns with
        | .external => resolve { probe with typeArgCount := none } ctx ns
        | exact => some exact
      else resolve probe ctx ns

/-- What one entry of a base list names. -/
def callBase (cur : Nat) (ctx : FileContext) (base : Str) : Option Resolution :=
  let ns := (index.def_ cur).namespace_
  callByArity index resolve (nameProbe base ns []) (some (baseArity index cur base)) ctx ns

/-- The definitions a definition's base list names. -/
def callBases (cur : Nat) : Option (List Nat) :=
  match contexts.get? (index.def_ cur).file with
  | none => some []
  | some ctx => do
      let answers ← mapCalls (callBase index resolve cur ctx) (index.lists cur).bases
      some (answers.filterMap fun
        | .resolved idx _ => some idx
        | _ => none)

/-- The loop of `inheritance_walk_find`. -/
def callWalk (found : Nat → Bool) : Nat → List Nat → List Nat → Option (Option Nat)
  | _, _, [] => some none
  | 0, _, _ :: _ => none
  | turns + 1, seen, cur :: stack =>
      if found cur then some (some cur)
      else do
        let bases ← callBases index contexts resolve cur
        let next := pushBases (seen, stack) bases
        callWalk found turns next.1 next.2

variable (turns : Nat)

/-- `inheritance_walk_matches`, for one definition. -/
def callInherits (start owner : Nat) : Option Bool :=
  (callWalk index contexts resolve (· == owner) turns [start] [start]).map Option.isSome

/-- `nested_candidate_visible_from_site`. -/
def callNestedVisible (r : FragRef) (ns : Str) (candidate : Nat) : Option Bool :=
  match Text.rsplit '+' (index.def_ candidate).id with
  | none => some true
  | some (enclosing, _) =>
      match index.qualifiedNameToDef.get? enclosing with
      | none => some false
      | some owner =>
          let site := (List.range r.outerTypes.length).reverse.findSome? fun i =>
            index.qualifiedNameToDef.get? (enclosingType ns r.outerTypes (i + 1))
          match site with
          | none => some false
          | some site => callInherits index contexts resolve turns site owner

/-- Steps 0 to 3 of a bare name, which ask for nothing. -/
def beforeGlobal (r : FragRef) (ctx : FileContext) (ns : Str) : Option Resolution :=
  match ctx.aliases.get? r.name with
  | some target =>
      match typeCandidate index target r.typeArgCount with
      | some idx => some (.resolved idx .alias)
      | none => some .external
  | none =>
      match nestedInEnclosing index r ns with
      | some idx => some (.resolved idx .nested)
      | none =>
          let prefixes := namespacePrefixes ns
          prefixes.findSome? (resolveAtLevel index r ctx.usings prefixes)

/-- The ladder of a bare name. -/
def callBare : Call := fun r ctx ns =>
  match beforeGlobal index r ctx ns with
  | some found => some found
  | none => do
      let matches_ ←
        filterCalls (callNestedVisible index contexts resolve turns r ns) (simplePool index r)
      some ((ofCandidates .global matches_).getD .external)

/-- The nested definitions of a pool whose owners a type inherits from. -/
def callInherited (qidx : Nat) (pool : List Nat) : Option (List Nat) :=
  filterCalls (fun idx =>
    match (Text.rsplit '+' (index.def_ idx).id).bind fun e => index.qualifiedNameToDef.get? e.1 with
    | some enclosing => callInherits index contexts resolve turns qidx enclosing
    | none => some false) pool

/-- Step 1b. -/
def callSuffix (r : FragRef) (ctx : FileContext) (ns written : Str) : Option (List Nat) :=
  let pool := simplePool index r
  let ending := pool.filter fun idx => defPathEndsWith (index.def_ idx).id written
  if ending.isEmpty && pool.any fun idx => (index.def_ idx).id.contains '+' then
    match Text.rsplit '.' written with
    | none => some []
    | some (qualifier, _) => do
        match ← resolve (qualifierProbe qualifier ns r.outerTypes) ctx ns with
        | .resolved qidx _ => callInherited index contexts resolve turns qidx pool
        | _ => some []
  else some ending

/-- Step 1.5: the head of one segment is a bare reference, longer heads are looked up. -/
def callCrossing (r : FragRef) (ctx : FileContext) (ns qualified : Str) : Option (Option Nat) :=
  let segs := qualified.splitOn '.'
  let leafKnown := (segs.getLast?.bind index.simpleNameToDefs.get?).isSome
  let walk := fun i (start : Nat) => walkSegments index r.typeArgCount start (segs.drop (i + 1))
  if leafKnown then
    firstCall (fun i =>
      if i = 0 then do
        match ← resolve { r with name := segs.headD [], qualified := none, typeArgCount := none }
            ctx ns with
        | .resolved idx _ => some (walk i idx)
        | _ => some none
      else
        let head := (namespacePrefixes ns).findSome? fun pre =>
          typeCandidate index (under pre (joinDots (segs.take (i + 1)))) none
        some (head.bind (walk i))) (List.range (segs.length - 1))
  else some none

/-- The ladder of a dotted name, after the exact path. -/
def callDotted (r : FragRef) (ctx : FileContext) (ns qualified : Str) : Option Resolution :=
  let written := writtenTypePath qualified
  let expanded := expandAlias ctx written
  match expanded.bind fun path => typeCandidate index path r.typeArgCount with
  | some idx => some (.resolved idx .qualified)
  | none => do
      let matches_ ← callSuffix index contexts resolve turns r ctx ns (expanded.getD written)
      match ofCandidates .suffix matches_ with
      | some found => some found
      | none =>
          let crossed ← if extractorVouchesInstance r then some none
            else callCrossing index resolve r ctx ns qualified
          some (match crossed with
            | some idx => .resolved idx .qualified
            | none => .external)

/-- One call of `resolve_ref`. -/
def callLadder : Call := fun r ctx ns =>
  match r.qualified with
  | none => callBare index contexts resolve turns r ctx ns
  | some qualified =>
      match resolveExact index r qualified ns with
      | some idx => some (.resolved idx .qualified)
      | none => callDotted index contexts resolve turns r ctx ns qualified

end Calls

/-- `resolve_ref` with as many nested calls as are allowed; none when they do not suffice. -/
def resolveCall (index : DefIndex) (contexts : Contexts) : Nat → Call
  | 0 => fun _ _ _ => none
  | bound + 1 => callLadder index contexts (resolveCall index contexts bound) bound

/-- **`resolve_ref` finishes:** some bound on its nested calls suffices. -/
def Finishes (index : DefIndex) (contexts : Contexts) (r : FragRef) (ctx : FileContext) (ns : Str) :
    Prop :=
  ∃ bound, (resolveCall index contexts bound r ctx ns).isSome

/-! ## More calls, the same result -/

section Stays

variable {index : DefIndex} {contexts : Contexts} {resolve resolve' : Call}
  (h : ∀ r ctx ns, Stays (resolve r ctx ns) (resolve' r ctx ns))

include h in
theorem callByArity_stays (probe : FragRef) (arity : Option Nat) (ctx : FileContext) (ns : Str) :
    Stays (callByArity index resolve probe arity ctx ns)
      (callByArity index resolve' probe arity ctx ns) := by
  unfold callByArity
  split
  · exact h _ _ _
  · dsimp only
    split
    · refine (h _ _ _).bind fun res => ?_
      split
      · exact h _ _ _
      · exact .refl _
    · exact h _ _ _

include h in
theorem callBases_stays (cur : Nat) :
    Stays (callBases index contexts resolve cur) (callBases index contexts resolve' cur) := by
  unfold callBases
  split
  · exact .refl _
  · rename_i ctx _
    have hbase : ∀ base, Stays (callBase index resolve cur ctx base)
        (callBase index resolve' cur ctx base) := by
      intro base
      unfold callBase
      exact callByArity_stays h _ _ _ _
    exact (mapCalls_stays hbase _).bind fun _ => .refl _

include h in
theorem callWalk_stays (found : Nat → Bool) {turns turns' : Nat} (hle : turns ≤ turns')
    (seen stack : List Nat) :
    Stays (callWalk index contexts resolve found turns seen stack)
      (callWalk index contexts resolve' found turns' seen stack) := by
  induction turns generalizing turns' seen stack with
  | zero =>
      cases stack with
      | nil => cases turns' <;> exact .refl _
      | cons cur stack => exact stays_none _
  | succ turns ih =>
      obtain ⟨turns', rfl⟩ : ∃ k, turns' = k + 1 := ⟨turns' - 1, by omega⟩
      cases stack with
      | nil => exact .refl _
      | cons cur stack =>
          rw [callWalk, callWalk]
          split
          · exact .refl _
          · exact (callBases_stays h cur).bind fun bases => ih (by omega) _ _

variable {turns turns' : Nat} (hle : turns ≤ turns')

include h hle in
theorem callInherits_stays (start owner : Nat) :
    Stays (callInherits index contexts resolve turns start owner)
      (callInherits index contexts resolve' turns' start owner) :=
  (callWalk_stays h _ hle _ _).map _

include h hle in
theorem callNestedVisible_stays (r : FragRef) (ns : Str) (candidate : Nat) :
    Stays (callNestedVisible index contexts resolve turns r ns candidate)
      (callNestedVisible index contexts resolve' turns' r ns candidate) := by
  unfold callNestedVisible
  split
  · exact .refl _
  · split
    · exact .refl _
    · dsimp only
      split
      · exact .refl _
      · exact callInherits_stays h hle _ _

include h hle in
theorem callBare_stays (r : FragRef) (ctx : FileContext) (ns : Str) :
    Stays (callBare index contexts resolve turns r ctx ns)
      (callBare index contexts resolve' turns' r ctx ns) := by
  unfold callBare
  split
  · exact .refl _
  · exact (filterCalls_stays (callNestedVisible_stays h hle r ns) _).bind fun _ => .refl _

include h hle in
theorem callSuffix_stays (r : FragRef) (ctx : FileContext) (ns written : Str) :
    Stays (callSuffix index contexts resolve turns r ctx ns written)
      (callSuffix index contexts resolve' turns' r ctx ns written) := by
  unfold callSuffix
  dsimp only
  split
  · split
    · exact .refl _
    · refine (h _ _ _).bind fun res => ?_
      split
      · refine filterCalls_stays (fun idx => ?_) _
        split
        · exact callInherits_stays h hle _ _
        · exact .refl _
      · exact .refl _
  · exact .refl _

include h in
theorem callCrossing_stays (r : FragRef) (ctx : FileContext) (ns qualified : Str) :
    Stays (callCrossing index resolve r ctx ns qualified)
      (callCrossing index resolve' r ctx ns qualified) := by
  unfold callCrossing
  dsimp only
  split
  · refine firstCall_stays (fun i => ?_) _
    split
    · refine (h _ _ _).bind fun res => ?_
      split <;> exact .refl _
    · exact .refl _
  · exact .refl _

include h hle in
theorem callDotted_stays (r : FragRef) (ctx : FileContext) (ns qualified : Str) :
    Stays (callDotted index contexts resolve turns r ctx ns qualified)
      (callDotted index contexts resolve' turns' r ctx ns qualified) := by
  unfold callDotted
  dsimp only
  split
  · exact .refl _
  · refine (callSuffix_stays h hle r ctx ns _).bind fun matches_ => ?_
    split
    · exact .refl _
    · split
      · exact .refl _
      · exact (callCrossing_stays h r ctx ns qualified).bind fun _ => .refl _

include h hle in
theorem callLadder_stays (r : FragRef) (ctx : FileContext) (ns : Str) :
    Stays (callLadder index contexts resolve turns r ctx ns)
      (callLadder index contexts resolve' turns' r ctx ns) := by
  unfold callLadder
  split
  · exact callBare_stays h hle r ctx ns
  · split
    · exact .refl _
    · exact callDotted_stays h hle r ctx ns _

end Stays

section Finishing

variable {index : DefIndex} {contexts : Contexts}

/-- **A larger bound changes no result.** -/
theorem resolveCall_stays {bound bound' : Nat} (hle : bound ≤ bound') (r : FragRef)
    (ctx : FileContext) (ns : Str) :
    Stays (resolveCall index contexts bound r ctx ns) (resolveCall index contexts bound' r ctx ns) := by
  induction bound generalizing bound' r ctx ns with
  | zero => exact stays_none _
  | succ bound ih =>
      obtain ⟨bound', rfl⟩ : ∃ k, bound' = k + 1 := ⟨bound' - 1, by omega⟩
      exact callLadder_stays (fun r ctx ns => ih (by omega) r ctx ns) (by omega) r ctx ns

/-! ## Base lists -/

/-- A bare reference without a type stack asks for nothing. -/
theorem callBare_isSome_of_no_stack (resolve : Call) (turns : Nat) {r : FragRef}
    (hstack : r.outerTypes = []) (ctx : FileContext) (ns : Str) :
    (callBare index contexts resolve turns r ctx ns).isSome := by
  unfold callBare
  split
  · rfl
  · have hvisible : ∀ candidate ∈ simplePool index r,
        (callNestedVisible index contexts resolve turns r ns candidate).isSome := by
      intro candidate _
      unfold callNestedVisible
      rw [hstack]
      split
      · rfl
      · split <;> rfl
    obtain ⟨found, hfound⟩ := Option.isSome_iff_exists.mp (filterCalls_isSome hvisible)
    rw [hfound]
    rfl

theorem resolveCall_isSome_of_no_stack {bound : Nat} {r : FragRef} (hbare : r.qualified = none)
    (hstack : r.outerTypes = []) (ctx : FileContext) (ns : Str) :
    (resolveCall index contexts (bound + 1) r ctx ns).isSome := by
  rw [resolveCall, callLadder, hbare]
  exact callBare_isSome_of_no_stack _ _ hstack ctx ns

/-- A base list is resolved with calls nested once. -/
theorem callBases_isSome (bound cur : Nat) :
    (callBases index contexts (resolveCall index contexts (bound + 1)) cur).isSome := by
  unfold callBases
  split
  · rfl
  · rename_i ctx _
    have hbase : ∀ base ∈ (index.lists cur).bases,
        (callBase index (resolveCall index contexts (bound + 1)) cur ctx base).isSome := by
      intro base _
      have hprobe : ∀ arity, (resolveCall index contexts (bound + 1)
          { nameProbe base (index.def_ cur).namespace_ [] with typeArgCount := arity } ctx
            (index.def_ cur).namespace_).isSome :=
        fun _ => resolveCall_isSome_of_no_stack rfl rfl ctx _
      unfold callBase callByArity
      dsimp only
      split
      · obtain ⟨res, hres⟩ :=
          Option.isSome_iff_exists.mp (hprobe (some (baseArity index cur base)))
        rw [hres]
        cases res with
        | resolved idx via => rfl
        | ambiguous candidates via => rfl
        | external => exact hprobe none
      · exact hprobe none
    obtain ⟨answers, hanswers⟩ := Option.isSome_iff_exists.mp (mapCalls_isSome hbase)
    rw [hanswers]
    rfl

/-! ## The walk over base lists -/

/-- What a base list names, by calls nested once. -/
def basesAtOnce (index : DefIndex) (contexts : Contexts) (cur : Nat) : List Nat :=
  (callBases index contexts (resolveCall index contexts 1) cur).getD []

theorem callBases_eq (bound cur : Nat) :
    callBases index contexts (resolveCall index contexts (bound + 1)) cur =
      some (basesAtOnce index contexts cur) := by
  obtain ⟨bases, hbases⟩ := Option.isSome_iff_exists.mp
    (@callBases_isSome index contexts 0 cur)
  have hmore : ∀ r ctx ns, Stays (resolveCall index contexts 1 r ctx ns)
      (resolveCall index contexts (bound + 1) r ctx ns) :=
    fun r ctx ns => resolveCall_stays (Nat.le_add_left 1 bound) r ctx ns
  rw [basesAtOnce, hbases]
  exact callBases_stays hmore cur bases hbases

/-- Every base some definition lists. -/
def allBases (index : DefIndex) (contexts : Contexts) : List Nat :=
  (List.range index.defs.length).flatMap (basesAtOnce index contexts)

theorem mem_allBases {cur base : Nat} (h : base ∈ basesAtOnce index contexts cur) :
    base ∈ allBases index contexts := by
  by_cases hcur : cur < index.defs.length
  · exact List.mem_flatMap.mpr ⟨cur, List.mem_range.mpr hcur, h⟩
  · -- An index without a definition lists nothing.
    have hlists : index.lists cur = {} := by
      rw [DefIndex.lists, List.getD_eq_getElem?_getD, List.getElem?_eq_none (by omega)]
      rfl
    have hbases : basesAtOnce index contexts cur = [] := by
      unfold basesAtOnce callBases
      rw [hlists]
      split <;> rfl
    rw [hbases] at h
    cases h

/-- What is pushed was not seen: the stack grows by no more than is left to see. -/
theorem pushBases_measure {nodes bases : List Nat} (hbases : ∀ b ∈ bases, b ∈ nodes)
    (acc : List Nat × List Nat) :
    (pushBases acc bases).2.length + missing nodes (pushBases acc bases).1 ≤
      acc.2.length + missing nodes acc.1 := by
  unfold pushBases
  induction bases generalizing acc with
  | nil => exact Nat.le_refl _
  | cons b bases ih =>
      rw [List.foldl_cons]
      have hrest := fun acc => ih (fun c hc => hbases c (List.mem_cons_of_mem b hc)) acc
      by_cases hb : b ∈ acc.1
      · rw [if_pos hb]
        exact hrest acc
      · rw [if_neg hb]
        have hlt : missing nodes (b :: acc.1) < missing nodes acc.1 :=
          missing_lt (fun c hc => List.mem_cons_of_mem b hc) (hbases b List.mem_cons_self) hb
            List.mem_cons_self
        have hle := hrest (b :: acc.1, b :: acc.2)
        simp only [List.length_cons] at hle ⊢
        omega

/-- **The walk ends,** cyclic base lists or not: every turn takes a definition off the stack,
and none is pushed twice. -/
theorem callWalk_isSome (bound : Nat) (found : Nat → Bool) {turns : Nat} {seen stack : List Nat}
    (henough : stack.length + missing (allBases index contexts) seen ≤ turns) :
    (callWalk index contexts (resolveCall index contexts (bound + 1)) found turns seen
      stack).isSome := by
  induction turns generalizing seen stack with
  | zero =>
      cases stack with
      | nil => rfl
      | cons cur stack => simp at henough
  | succ turns ih =>
      cases stack with
      | nil => rfl
      | cons cur stack =>
          rw [callWalk]
          split
          · rfl
          · rw [callBases_eq]
            have hpushed := pushBases_measure
              (fun (b : Nat) (hb : b ∈ basesAtOnce index contexts cur) => mem_allBases hb) (seen, stack)
            simp only [List.length_cons] at henough hpushed
            exact ih (by omega)

/-- A bound that suffices for every bare reference. -/
def bareBound (index : DefIndex) (contexts : Contexts) : Nat := (allBases index contexts).length + 2

theorem callInherits_isSome {bound : Nat} (hbound : bareBound index contexts ≤ bound + 1)
    (start owner : Nat) :
    (callInherits index contexts (resolveCall index contexts (bound + 1)) (bound + 1) start
      owner).isSome := by
  have hmissing : missing (allBases index contexts) [start] ≤ (allBases index contexts).length :=
    List.countP_le_length
  unfold bareBound at hbound
  rw [callInherits, Option.isSome_map]
  refine callWalk_isSome bound (· == owner) ?_
  rw [List.length_singleton]
  omega

/-- **A bare reference finishes.** -/
theorem callBare_isSome {bound : Nat} (hbound : bareBound index contexts ≤ bound + 1) (r : FragRef)
    (ctx : FileContext) (ns : Str) :
    (callBare index contexts (resolveCall index contexts (bound + 1)) (bound + 1) r ctx ns).isSome := by
  unfold callBare
  split
  · rfl
  · have hvisible : ∀ candidate ∈ simplePool index r, (callNestedVisible index contexts
        (resolveCall index contexts (bound + 1)) (bound + 1) r ns candidate).isSome := by
      intro candidate _
      unfold callNestedVisible
      split
      · rfl
      · split
        · rfl
        · dsimp only
          split
          · rfl
          · exact callInherits_isSome hbound _ _
    obtain ⟨found, hfound⟩ := Option.isSome_iff_exists.mp (filterCalls_isSome hvisible)
    rw [hfound]
    rfl

theorem resolveCall_isSome_of_bare {bound : Nat} (hbound : bareBound index contexts < bound)
    {r : FragRef} (hbare : r.qualified = none) (ctx : FileContext) (ns : Str) :
    (resolveCall index contexts bound r ctx ns).isSome := by
  obtain ⟨bound, rfl⟩ : ∃ k, bound = k + 2 := ⟨bound - 2, by unfold bareBound at hbound; omega⟩
  rw [resolveCall, callLadder, hbare]
  exact callBare_isSome (by omega) r ctx ns

/-! ## Qualifiers -/

/-- The question of step 1b: the qualifier of a name no definition ends with, when a nested
definition has its last segment. -/
def suffixAsks (index : DefIndex) (r : FragRef) (ns written : Str) : Option FragRef :=
  let pool := simplePool index r
  let ending := pool.filter fun idx => defPathEndsWith (index.def_ idx).id written
  if ending.isEmpty && pool.any fun idx => (index.def_ idx).id.contains '+' then
    (Text.rsplit '.' written).map fun q => qualifierProbe q.1 ns r.outerTypes
  else none

/-- The qualifier a reference asks for: none for a bare one, and none for a dotted one whose
path the index has, as written or with its alias expanded. -/
def asksQualifier (index : DefIndex) (ctx : FileContext) (ns : Str) (r : FragRef) : Option FragRef :=
  match r.qualified with
  | none => none
  | some qualified =>
      match resolveExact index r qualified ns with
      | some _ => none
      | none =>
          let written := writtenTypePath qualified
          let expanded := expandAlias ctx written
          match expanded.bind fun path => typeCandidate index path r.typeArgCount with
          | some _ => none
          | none => suffixAsks index r ns (expanded.getD written)

/-- The reference asked for after so many questions, each one of the reference before. -/
def qualifierAfter (index : DefIndex) (ctx : FileContext) (ns : Str) : Nat → FragRef → Option FragRef
  | 0, r => some r
  | n + 1, r => (asksQualifier index ctx ns r).bind (qualifierAfter index ctx ns n)

/-- The qualifiers come to an end. -/
def QualifiersEnd (index : DefIndex) (ctx : FileContext) (ns : Str) (r : FragRef) : Prop :=
  ∃ n, qualifierAfter index ctx ns n r = none

theorem callSuffix_asked {resolve : Call} {turns : Nat} {r probe : FragRef} {ctx : FileContext}
    {ns written : Str} (hask : suffixAsks index r ns written = some probe)
    (h : (callSuffix index contexts resolve turns r ctx ns written).isSome) :
    (resolve probe ctx ns).isSome := by
  unfold suffixAsks at hask
  unfold callSuffix at h
  dsimp only at hask h
  split at hask
  · rename_i hnested
    rw [if_pos hnested] at h
    obtain ⟨⟨qualifier, leaf⟩, hsplit, rfl⟩ := Option.map_eq_some_iff.mp hask
    rw [hsplit] at h
    dsimp only at h ⊢
    cases hres : resolve (qualifierProbe qualifier ns r.outerTypes) ctx ns with
    | some _ => rfl
    | none => rw [hres] at h; cases h
  · cases hask

/-- Step 1b finishes when its qualifier does. -/
theorem callSuffix_isSome {bound : Nat} (hbound : bareBound index contexts ≤ bound + 1) {r : FragRef}
    {ctx : FileContext} {ns written : Str}
    (hask : ∀ probe, suffixAsks index r ns written = some probe →
      (resolveCall index contexts (bound + 1) probe ctx ns).isSome) :
    (callSuffix index contexts (resolveCall index contexts (bound + 1)) (bound + 1) r ctx ns
      written).isSome := by
  unfold suffixAsks at hask
  unfold callSuffix
  dsimp only at hask ⊢
  split
  · rename_i hnested
    rw [if_pos hnested] at hask
    split
    · rfl
    · rename_i qualifier leaf hsplit
      rw [hsplit] at hask
      obtain ⟨res, hres⟩ := Option.isSome_iff_exists.mp (hask _ rfl)
      dsimp only at hres
      rw [hres]
      cases res with
      | resolved qidx via =>
          refine filterCalls_isSome fun idx _ => ?_
          split
          · exact callInherits_isSome hbound _ _
          · rfl
      | ambiguous candidates via => rfl
      | external => rfl
  · rfl

/-- Heads of a path are asked bare. -/
theorem callCrossing_isSome {bound : Nat} (hbound : bareBound index contexts < bound) (r : FragRef)
    (ctx : FileContext) (ns qualified : Str) :
    (callCrossing index (resolveCall index contexts bound) r ctx ns qualified).isSome := by
  unfold callCrossing
  dsimp only
  split
  · refine firstCall_isSome fun i _ => ?_
    split
    · have hhead : (resolveCall index contexts bound
          { r with name := (qualified.splitOn '.').headD [], qualified := none, typeArgCount := none }
          ctx ns).isSome := resolveCall_isSome_of_bare hbound rfl ctx ns
      obtain ⟨res, hres⟩ := Option.isSome_iff_exists.mp hhead
      rw [hres]
      cases res <;> rfl
    · rfl
  · rfl

/-- A reference that finishes has had its qualifier resolved. -/
theorem resolveCall_asked {bound : Nat} {r probe : FragRef} {ctx : FileContext} {ns : Str}
    (hask : asksQualifier index ctx ns r = some probe)
    (h : (resolveCall index contexts (bound + 1) r ctx ns).isSome) :
    (resolveCall index contexts bound probe ctx ns).isSome := by
  unfold asksQualifier at hask
  rw [resolveCall, callLadder] at h
  split at hask
  · cases hask
  · rename_i qualified hqualified
    rw [hqualified] at h
    dsimp only at h
    split at hask
    · cases hask
    · rename_i hexact
      rw [hexact] at h
      unfold callDotted at h
      dsimp only at hask h
      split at hask
      · cases hask
      · rename_i hexpanded
        rw [hexpanded] at h
        refine @callSuffix_asked index contexts _ bound r probe ctx ns _ hask ?_
        by_contra hnone
        rw [Option.not_isSome_iff_eq_none.mp hnone] at h
        cases h

/-- A reference finishes when its qualifier does. -/
theorem resolveCall_isSome_of_asked {bound : Nat} (hbound : bareBound index contexts < bound)
    {r : FragRef} {ctx : FileContext} {ns : Str}
    (hask : ∀ probe, asksQualifier index ctx ns r = some probe →
      (resolveCall index contexts bound probe ctx ns).isSome) :
    (resolveCall index contexts (bound + 1) r ctx ns).isSome := by
  obtain ⟨bound, rfl⟩ : ∃ k, bound = k + 1 := ⟨bound - 1, by omega⟩
  rw [resolveCall, callLadder]
  unfold asksQualifier at hask
  split
  · exact callBare_isSome (by omega) r ctx ns
  · rename_i qualified hqualified
    rw [hqualified] at hask
    dsimp only at hask
    split
    · rfl
    · rename_i hexact
      rw [hexact] at hask
      unfold callDotted
      dsimp only at hask ⊢
      split
      · rfl
      · rename_i hexpanded
        rw [hexpanded] at hask
        obtain ⟨found, hfound⟩ := Option.isSome_iff_exists.mp
          (callSuffix_isSome (Nat.le_of_lt hbound) hask)
        rw [hfound]
        dsimp only [bind, Option.bind]
        split
        · rfl
        · split
          · rfl
          · obtain ⟨crossed, hcrossed⟩ := Option.isSome_iff_exists.mp
              (callCrossing_isSome hbound r ctx ns qualified)
            rw [hcrossed]
            rfl

theorem qualifierAfter_none_of_isSome {bound : Nat} {r : FragRef} {ctx : FileContext} {ns : Str}
    (h : (resolveCall index contexts bound r ctx ns).isSome) :
    qualifierAfter index ctx ns bound r = none := by
  induction bound generalizing r with
  | zero => cases h
  | succ bound ih =>
      rw [qualifierAfter]
      cases hask : asksQualifier index ctx ns r with
      | none => rfl
      | some probe => exact ih (resolveCall_asked hask h)

theorem isSome_of_qualifierAfter_none {n : Nat} {r : FragRef} {ctx : FileContext} {ns : Str}
    (h : qualifierAfter index ctx ns n r = none) :
    (resolveCall index contexts (bareBound index contexts + 1 + n) r ctx ns).isSome := by
  induction n generalizing r with
  | zero => cases h
  | succ n ih =>
      rw [← Nat.add_assoc]
      refine resolveCall_isSome_of_asked (by omega) fun probe hask => ih ?_
      rw [qualifierAfter, hask] at h
      exact h

/-- **Resolution finishes exactly when the qualifiers come to an end,** whatever the base
lists are. -/
theorem finishes_iff (index : DefIndex) (contexts : Contexts) (r : FragRef) (ctx : FileContext)
    (ns : Str) :
    Finishes index contexts r ctx ns ↔ QualifiersEnd index ctx ns r := by
  constructor
  · rintro ⟨bound, h⟩
    exact ⟨bound, qualifierAfter_none_of_isSome h⟩
  · rintro ⟨n, h⟩
    exact ⟨_, isSome_of_qualifierAfter_none h⟩

/-! ## Files without an alias -/

theorem afterAliasQualifier_suffix {s rest : Str} (h : afterAliasQualifier s = some rest) :
    rest <:+ s := by
  fun_induction afterAliasQualifier s with
  | case1 rest' =>
      obtain rfl := Option.some.inj h
      exact ⟨[':', ':'], rfl⟩
  | case2 c s _ ih => exact (ih h).trans (List.suffix_cons c s)
  | case3 => cases h

theorem length_writtenTypePath_le (qualified : Str) :
    (writtenTypePath qualified).length ≤ qualified.length := by
  have hafter : ∀ s : Str, ((afterAliasQualifier s).getD s).length ≤ s.length := by
    intro s
    cases hafter : afterAliasQualifier s with
    | none => exact Nat.le_refl _
    | some rest => exact (afterAliasQualifier_suffix hafter).length_le
  have houtside : ∀ (depth : Nat) (s : Str), (outsideAngles depth s).length ≤ s.length := by
    intro depth s
    induction s generalizing depth with
    | nil => exact Nat.le_refl _
    | cons c cs ih =>
        have hrest := ih depth
        have hin := ih (depth + 1)
        have hout := ih (depth - 1)
        unfold outsideAngles
        split_ifs <;> simp only [List.length_cons] <;> omega
  unfold writtenTypePath
  dsimp only
  split
  · exact Nat.le_trans (houtside 0 _) (hafter qualified)
  · exact hafter qualified

/-- Where the name begins with no alias, the qualifier asked for is shorter. -/
theorem asksQualifier_shorter {ctx : FileContext} {ns qualified : Str} {r probe : FragRef}
    (hqualified : r.qualified = some qualified)
    (halias : expandAlias ctx (writtenTypePath qualified) = none)
    (hask : asksQualifier index ctx ns r = some probe) :
    ∀ shorter, probe.qualified = some shorter → shorter.length < qualified.length := by
  intro shorter hshorter
  unfold asksQualifier at hask
  rw [hqualified] at hask
  dsimp only at hask
  split at hask
  · cases hask
  · rw [halias] at hask
    dsimp only [Option.bind, Option.getD] at hask
    unfold suffixAsks at hask
    dsimp only at hask
    split at hask
    · obtain ⟨⟨qualifier, leaf⟩, hsplit, rfl⟩ := Option.map_eq_some_iff.mp hask
      have hwritten := length_writtenTypePath_le qualified
      rw [(Text.rsplit_eq_some hsplit).1, List.length_append, List.length_cons] at hwritten
      -- The probe keeps the whole qualifier, or is bare when that is one segment.
      have hkept : shorter = qualifier := by
        unfold qualifierProbe at hshorter
        split at hshorter
        · exact (Option.some.inj hshorter).symm
        · cases hshorter
      rw [hkept]
      omega
    · cases hask

/-- **A file without aliases resolves every reference.** -/
theorem qualifiersEnd_of_no_alias {ctx : FileContext} (hno : ∀ name, ctx.aliases.get? name = none)
    (ns : Str) (r : FragRef) : QualifiersEnd index ctx ns r := by
  have hexpand : ∀ written, expandAlias ctx written = none := by
    intro written
    unfold expandAlias
    split
    · rw [hno]; rfl
    · rfl
  -- By the length of the dotted name; a bare reference asks for nothing.
  induction hlength : (r.qualified.getD []).length using Nat.strong_induction_on generalizing r with
  | _ length ih =>
      cases hask : asksQualifier index ctx ns r with
      | none => exact ⟨1, by rw [qualifierAfter, hask]; rfl⟩
      | some probe =>
          suffices hprobe : QualifiersEnd index ctx ns probe by
            obtain ⟨n, hn⟩ := hprobe
            exact ⟨n + 1, by rw [qualifierAfter, hask]; exact hn⟩
          cases hqualified : r.qualified with
          | none =>
              unfold asksQualifier at hask
              rw [hqualified] at hask
              cases hask
          | some qualified =>
              cases hshorter : probe.qualified with
              | none => exact ⟨1, by rw [qualifierAfter, asksQualifier, hshorter]; rfl⟩
              | some shorter =>
                  have hlt := asksQualifier_shorter hqualified (hexpand _) hask shorter hshorter
                  rw [hqualified] at hlength
                  refine ih shorter.length (by rw [← hlength]; exact hlt) probe ?_
                  rw [hshorter]
                  rfl

/-! ## An alias that begins with itself -/

theorem qualifierAfter_self {ctx : FileContext} {ns : Str} {r : FragRef}
    (hself : asksQualifier index ctx ns r = some r) (n : Nat) :
    qualifierAfter index ctx ns n r = some r := by
  induction n with
  | zero => rfl
  | succ n ih => rw [qualifierAfter, hself]; exact ih

def classNamed (id name : String) (line : Nat) : FragDef where
  id := id.toList
  name := name.toList
  namespace_ := []
  kind := "class".toList
  line := line

/-- `using A = A.B;`, in a tree with the nested types `Q+B` and `Z+N`. -/
def aliasOfItself : Fragments :=
  [("a.cs".toList,
    { defs := [classNamed "Q" "Q" 2, classNamed "Q+B" "B" 3, classNamed "Z" "Z" 4,
        classNamed "Z+N" "N" 5],
      usings := [.alias "A".toList "A.B".toList false] })]

/-- `A.N` asks for `A.B`, and `A.B` asks for `A.B`. -/
theorem aliasOfItself_not_finishes : ¬ ∀ index contexts r ctx ns, Finishes index contexts r ctx ns := by
  intro hall
  let index := buildDefIndex aliasOfItself
  let contexts := buildFileContexts aliasOfItself none index
  let ctx := (contexts.get? "a.cs".toList).getD ⟨{}, .empty⟩
  let asked : FragRef := { kind := .usesType, name := "N".toList, qualified := some "A.N".toList }
  let probe := qualifierProbe "A.B".toList [] []
  obtain ⟨bound, h⟩ := hall index contexts asked ctx []
  have hfirst : asksQualifier index ctx [] asked = some probe := by rfl
  have hself : asksQualifier index ctx [] probe = some probe := by rfl
  have hend := qualifierAfter_none_of_isSome h
  cases bound with
  | zero => cases hend
  | succ bound =>
      rw [qualifierAfter, hfirst, Option.bind_some, qualifierAfter_self hself] at hend
      cases hend

end Finishing

end Devscout.Resolve
