/-
# Devscout.Resolve.BaseWalk -- the first base that declares a member

The bases of a type are asked in declaration order, classes before interfaces, each with
everything below it before its later siblings. That is what the walk is documented to do;
what it does is mark a base when the type that lists it is reached, and not when the base
itself is. A base that two types list is then asked in the place of the first, which may
be behind types the second one's list comes before.

Every base of the start has a walk of its own, over a fresh set of marks in which the start
is marked. The start is asked all the same when it lists itself.
-/

import Devscout.Lib.DepthFirst
import Devscout.Resolve.Dispatch

namespace Devscout.Resolve

open Lib DepthFirst

/-- The bases of a type in the order they are asked. -/
def orderedBases (index : DefIndex) (contexts : Contexts) (skipInterfaces : Bool) (cur : Nat) : List Nat :=
  classesFirst index skipInterfaces (basesOf index contexts cur)

/-- **The first in declaration order.** There is a depth-first order of the bases of the start,
it holds every type the start reaches and not the start, and whatever is asked, the answer
is the first in it of which that is true. -/
def FindsFirst (index : DefIndex) (contexts : Contexts) (start : Nat) (skipInterfaces : Bool) : Prop :=
  ∃ order, Entered (orderedBases index contexts skipInterfaces) [start]
      (orderedBases index contexts skipInterfaces start) order ∧
    (∀ d, d ∈ order ↔ d ≠ start ∧
      Relation.ReflTransGen (fun a b => b ∈ orderedBases index contexts skipInterfaces a) start d) ∧
    ∀ declares, firstBaseDeclaring index contexts start skipInterfaces declares = order.find? declares

/-! ## Listing bases -/

section Listing

variable {index : DefIndex} {contexts : Contexts} {skipInterfaces : Bool}

theorem freshBases_eq (seen bases : List Nat) :
    freshBases seen bases = (fresh seen bases, seen ++ fresh seen bases) := by
  have hloop : ∀ (bases listed seen : List Nat),
      bases.foldl (fun acc b => if b ∈ acc.2 then acc else (acc.1 ++ [b], acc.2 ++ [b])) (listed, seen) =
        (listed ++ fresh seen bases, seen ++ fresh seen bases) := by
    intro bases
    induction bases with
    | nil => simp [fresh]
    | cons b bases ih =>
        intro listed seen
        rw [List.foldl_cons, fresh]
        by_cases hb : b ∈ seen
        · rw [if_pos hb, if_pos hb, ih]
        · have hcongr : fresh (seen ++ [b]) bases = fresh (b :: seen) bases :=
            fresh_congr (fun d => by simp [or_comm]) _
          rw [if_neg hb, if_neg hb, ih, hcongr, List.append_assoc, List.append_assoc]
          rfl
  exact hloop bases [] seen

/-- What no walk asks. -/
def dropped (index : DefIndex) (skipInterfaces : Bool) (d : Nat) : Bool :=
  skipInterfaces && isInterface index d

/-- **The bases a type lists are its ordered bases, less those marked.** -/
theorem classesFirst_fresh {seen seen' : List Nat}
    (h : ∀ d, dropped index skipInterfaces d = false → (d ∈ seen ↔ d ∈ seen')) (bases : List Nat) :
    classesFirst index skipInterfaces (fresh seen bases) =
      fresh seen' (classesFirst index skipInterfaces bases) := by
  unfold classesFirst
  have hclasses : (fresh seen bases).filter (fun d => !isInterface index d) =
      fresh seen' (bases.filter fun d => !isInterface index d) :=
    fresh_filter _ (fun d hd => h d (by simp_all [dropped])) bases
  cases hskip : skipInterfaces with
  | true => simpa using hclasses
  | false =>
      have hinterfaces : (fresh seen bases).filter (isInterface index) =
          fresh seen' (bases.filter (isInterface index)) :=
        fresh_filter _ (fun d _ => h d (by simp [dropped, hskip])) bases
      rw [hclasses, if_neg (by simp), if_neg (by simp), hinterfaces, ← fresh_append]
      intro d hd hd'
      have hnot := (List.mem_filter.mp hd).2
      rw [(List.mem_filter.mp hd').2] at hnot
      cases hnot

theorem not_dropped_of_mem {bases : List Nat} {d : Nat}
    (h : d ∈ classesFirst index skipInterfaces bases) :
    dropped index skipInterfaces d = false := by
  rcases List.mem_append.mp h with hclass | hinterface
  · have := (List.mem_filter.mp hclass).2
    simp_all [dropped]
  · cases hskip : skipInterfaces with
    | true => simp [hskip] at hinterface
    | false => rfl

/-- A type with bases is one of the index. -/
theorem lt_of_orderedBases {cur : Nat} (h : orderedBases index contexts skipInterfaces cur ≠ []) :
    cur < index.defs.length := by
  by_contra hge
  have hlists : index.lists cur = {} := by
    rw [DefIndex.lists, List.getD_eq_getElem?_getD, List.getElem?_eq_none (by omega)]
    rfl
  have hbases : basesOf index contexts cur = [] := by
    unfold basesOf
    split
    · rfl
    · rw [hlists]
      rfl
  apply h
  rw [orderedBases, hbases, classesFirst]
  cases skipInterfaces <;> rfl

end Listing

/-! ## The walk of one branch -/

section Branch

variable {index : DefIndex} {contexts : Contexts} {skipInterfaces : Bool}

/-- The marks of the code and those of a walk tell the same of everything a walk asks. -/
def AgreeOn (index : DefIndex) (skipInterfaces : Bool) (seen seen' : List Nat) : Prop :=
  ∀ d, dropped index skipInterfaces d = false → (d ∈ seen ↔ d ∈ seen')

/-- The loop over some bases of a nested call. -/
def askAll (index : DefIndex) (contexts : Contexts) (skipInterfaces : Bool) (declares : Nat → Bool)
    (fuel : Nat) (acc : Option Nat × List Nat) (bases : List Nat) : Option Nat × List Nat :=
  bases.foldl (fun acc b =>
    match acc.1 with
    | some _ => acc
    | none => declaresInBaseClosure index contexts skipInterfaces declares fuel acc.2 b) acc

theorem askAll_some (declares : Nat → Bool) (fuel d : Nat) (seen bases : List Nat) :
    askAll index contexts skipInterfaces declares fuel (some d, seen) bases = (some d, seen) := by
  induction bases with
  | nil => rfl
  | cons b bases ih => exact ih

theorem declaresInBaseClosure_succ (declares : Nat → Bool) (fuel cur : Nat) (seen : List Nat) :
    declaresInBaseClosure index contexts skipInterfaces declares (fuel + 1) seen cur =
      if declares cur then (some cur, seen)
      else askAll index contexts skipInterfaces declares fuel
        (none, seen ++ fresh seen (basesOf index contexts cur))
        (classesFirst index skipInterfaces (fresh seen (basesOf index contexts cur))) := by
  rw [declaresInBaseClosure, freshBases_eq]
  rfl

/-- Calls enough to walk some marked bases: one for a type without bases, and otherwise one
for every type of the index not marked, and two more. -/
def Enough (index : DefIndex) (contexts : Contexts) (skipInterfaces : Bool) (fuel : Nat)
    (seen bases : List Nat) : Prop :=
  (∀ c ∈ bases, orderedBases index contexts skipInterfaces c = [] ∧ 1 ≤ fuel) ∨
    missing (List.range index.defs.length) seen + 2 ≤ fuel

theorem Enough.below {fuel : Nat} {seen bases : List Nat} {c : Nat}
    (h : Enough index contexts skipInterfaces (fuel + 1) seen (c :: bases)) :
    Enough index contexts skipInterfaces fuel
      (seen ++ fresh seen (orderedBases index contexts skipInterfaces c))
      (fresh seen (orderedBases index contexts skipInterfaces c)) := by
  rcases h with hleaf | hmany
  · rw [(hleaf c List.mem_cons_self).1]
    exact Or.inl fun _ h => nomatch h
  · by_cases hleaves : ∀ d ∈ fresh seen (orderedBases index contexts skipInterfaces c),
        orderedBases index contexts skipInterfaces d = []
    · exact Or.inl fun d hd => ⟨hleaves d hd, by omega⟩
    · push Not at hleaves
      obtain ⟨d, hd, hbases⟩ := hleaves
      have hlt : missing (List.range index.defs.length)
          (seen ++ fresh seen (orderedBases index contexts skipInterfaces c)) <
          missing (List.range index.defs.length) seen :=
        missing_lt (fun e he => List.mem_append_left _ he)
          (List.mem_range.mpr (lt_of_orderedBases hbases)) (mem_fresh.mp hd).2
          (List.mem_append_right _ hd)
      exact Or.inr (by omega)

theorem Enough.rest {fuel : Nat} {seen seen' bases : List Nat} {c : Nat}
    (h : Enough index contexts skipInterfaces fuel seen (c :: bases)) (hsub : ∀ d ∈ seen, d ∈ seen') :
    Enough index contexts skipInterfaces fuel seen' bases := by
  rcases h with hleaf | hmany
  · exact Or.inl fun d hd => hleaf d (List.mem_cons_of_mem c hd)
  · have hle : missing (List.range index.defs.length) seen' ≤
        missing (List.range index.defs.length) seen := missing_mono hsub
    exact Or.inr (by omega)

/-- **The code's loop is a marking walk, cut off at the first answer.** The order of the walk
does not depend on what is asked. -/
theorem exists_marked (fuel : Nat) (bases seen : List Nat)
    (henough : Enough index contexts skipInterfaces fuel seen bases) (hmarked : ∀ c ∈ bases, c ∈ seen) :
    ∃ order, Marked (orderedBases index contexts skipInterfaces) seen bases order ∧
      ∀ declares seenC, AgreeOn index skipInterfaces seenC seen → ∃ seenC',
        askAll index contexts skipInterfaces declares fuel (none, seenC) bases =
            (order.find? declares, seenC') ∧
          (order.find? declares = none → AgreeOn index skipInterfaces seenC' (seen ++ order)) := by
  induction fuel generalizing bases seen with
  | zero =>
      cases bases with
      | nil => exact ⟨[], .done, fun _ seenC h => ⟨seenC, rfl, fun _ => by rwa [List.append_nil]⟩⟩
      | cons c bases =>
          rcases henough with hleaf | hmany
          · exact absurd (hleaf c List.mem_cons_self).2 (by omega)
          · omega
  | succ fuel ihfuel =>
      induction bases generalizing seen with
      | nil => exact ⟨[], .done, fun _ seenC h => ⟨seenC, rfl, fun _ => by rwa [List.append_nil]⟩⟩
      | cons c bases ih =>
          obtain ⟨below, hbelow, hdown⟩ := ihfuel _ _ henough.below
            fun d hd => List.mem_append_right _ hd
          obtain ⟨after, hafter, hrest⟩ := ih (seen ++ c :: below)
            (henough.rest fun d hd => List.mem_append_left _ hd)
            fun d hd => List.mem_append_left _ (hmarked d (List.mem_cons_of_mem c hd))
          refine ⟨_, .enter hbelow hafter, fun declares seenC hagree => ?_⟩
          have hc : c ∈ seen := hmarked c List.mem_cons_self
          have hcall : askAll index contexts skipInterfaces declares (fuel + 1) (none, seenC) (c :: bases) =
              askAll index contexts skipInterfaces declares (fuel + 1)
                (declaresInBaseClosure index contexts skipInterfaces declares (fuel + 1) seenC c) bases :=
            rfl
          rw [hcall, declaresInBaseClosure_succ]
          cases hdeclares : declares c with
          | true =>
              rw [if_pos rfl, askAll_some, List.find?_cons_of_pos hdeclares]
              exact ⟨seenC, rfl, fun h => absurd h (Option.some_ne_none c)⟩
          | false =>
              rw [if_neg (by simp), List.find?_cons_of_neg (by simp [hdeclares]), List.find?_append,
                classesFirst_fresh hagree]
              -- What the code marks beyond the walk is dropped wherever it is listed.
              have hagree' : AgreeOn index skipInterfaces
                  (seenC ++ fresh seenC (basesOf index contexts c))
                  (seen ++ fresh seen (orderedBases index contexts skipInterfaces c)) := by
                intro d hd
                have hbases : d ∈ orderedBases index contexts skipInterfaces c ↔
                    d ∈ basesOf index contexts c := by
                  unfold orderedBases classesFirst
                  cases hi : isInterface index d <;> cases hs : skipInterfaces <;>
                    simp_all [dropped]
                rw [List.mem_append, List.mem_append, mem_fresh, mem_fresh, hagree d hd, hbases]
              obtain ⟨seenB, hcode, hnone⟩ := hdown declares _ hagree'
              rw [show fresh seen (classesFirst index skipInterfaces (basesOf index contexts c)) =
                fresh seen (orderedBases index contexts skipInterfaces c) from rfl, hcode]
              cases hfind : below.find? declares with
              | some d =>
                  rw [askAll_some]
                  exact ⟨seenB, rfl, fun h => absurd h (Option.some_ne_none d)⟩
              | none =>
                  have hagreeB : AgreeOn index skipInterfaces seenB (seen ++ c :: below) := by
                    intro d hd
                    have hfresh := hbelow.list_entered d
                    rw [hnone hfind d hd]
                    simp only [List.mem_append, List.mem_cons]
                    constructor
                    · rintro ((hs | hf) | hb)
                      · exact Or.inl hs
                      · exact Or.inr (Or.inr (hfresh hf))
                      · exact Or.inr (Or.inr hb)
                    · rintro (hs | rfl | hb)
                      · exact Or.inl (Or.inl hs)
                      · exact Or.inl (Or.inl hc)
                      · exact Or.inr hb
                  obtain ⟨seenA, hcodeA, hnoneA⟩ := hrest declares seenB hagreeB
                  refine ⟨seenA, hcodeA, fun h => ?_⟩
                  have := hnoneA h
                  rwa [List.append_assoc] at this

/-- What one branch answers, the start and its root marked. -/
theorem exists_branch {start c : Nat} (hstart : start < index.defs.length) :
    ∃ order, Marked (orderedBases index contexts skipInterfaces) [start, c] [c] order ∧ ∀ declares,
      (declaresInBaseClosure index contexts skipInterfaces declares (index.defs.length + 1) [start, c]
        c).1 = order.find? declares := by
  have hlt : missing (List.range index.defs.length) [start, c] <
      missing (List.range index.defs.length) [] :=
    missing_lt (fun _ h => nomatch h) (List.mem_range.mpr hstart) (by simp) (by simp)
  have hall : missing (List.range index.defs.length) [] = index.defs.length := by simp [missing]
  obtain ⟨order, hmarked, hcode⟩ := @exists_marked index contexts skipInterfaces
    (index.defs.length + 1) [c] [start, c] (Or.inr (by omega)) (by simp)
  refine ⟨order, hmarked, fun declares => ?_⟩
  obtain ⟨seen, hresult, -⟩ := hcode declares [start, c] fun _ _ => Iff.rfl
  exact congrArg Prod.fst hresult

/-- **Branches answer for the code.** Whatever has been asked in vain and is closed need not be
asked again. -/
theorem exists_branches {start : Nat} (hstart : start < index.defs.length) (bases before : List Nat)
    (hclosed : Closed (orderedBases index contexts skipInterfaces) [start] before)
    (hne : start ∉ bases) :
    ∃ order, Branches (orderedBases index contexts skipInterfaces) [start] before bases order ∧
      ∀ declares, (∀ d ∈ before, declares d = false) →
        (bases.findSome? fun b => (declaresInBaseClosure index contexts skipInterfaces declares
          (index.defs.length + 1) [start, b] b).1) = order.find? declares := by
  induction bases generalizing before with
  | nil => exact ⟨[], .done, fun _ _ => rfl⟩
  | cons c bases ih =>
      rw [List.mem_cons, not_or] at hne
      obtain ⟨branch, hbranch, hcode⟩ :=
        @exists_branch index contexts skipInterfaces start c hstart
      have hbounds : ∀ p ∈ before, ∀ d ∈ orderedBases index contexts skipInterfaces p,
          d ∈ [start, c] ∨ d ∈ before := by
        intro p hp d hd
        refine (List.mem_append.mp (hclosed p hp d hd)).imp_left fun h => ?_
        rw [List.mem_singleton.mp h]
        exact List.mem_cons_self
      -- On what was asked in vain the answer is no, so the walk may as well leave it out.
      have hfind : ∀ declares : Nat → Bool, (∀ d ∈ before, declares d = false) →
          branch.find? declares = (branch.filter (· ∉ before)).find? declares := by
        intro declares hvain
        rw [List.find?_filter]
        congr 1
        funext d
        cases hd : declares d with
        | false => simp
        | true =>
            have hnot : d ∉ before := fun h => by rw [hvain d h] at hd; cases hd
            simp [hnot]
      by_cases hc : c ∈ before
      · obtain ⟨order, horder, hrest⟩ := ih before hclosed hne.2
        refine ⟨order, .again (List.mem_append_right _ hc) horder, fun declares hvain => ?_⟩
        have hinside : ∀ z ∈ branch, z ∈ before := hbranch.subset (by simpa using hc) hbounds
        have hnone : branch.find? declares = none :=
          List.find?_eq_none.mpr fun z hz => by simp [hvain z (hinside z hz)]
        rw [List.findSome?_cons, hcode, hnone]
        exact hrest declares hvain
      · have hmarked : Marked (orderedBases index contexts skipInterfaces) ([start] ++ before ++ [c]) [c]
            (branch.filter (· ∉ before)) := by
          have hfiltered := hbranch.filter hbounds
          rw [List.filter_cons_of_pos (by simpa using hc), List.filter_nil] at hfiltered
          refine hfiltered.congr fun d => ?_
          simp only [List.mem_append, List.mem_cons, List.not_mem_nil, or_false]
          tauto
        have hnew : c ∉ [start] ++ before := by
          simpa using ⟨Ne.symm hne.1, hc⟩
        obtain ⟨order, horder, hrest⟩ := ih _ (hclosed.branch hmarked) hne.2
        refine ⟨_, .enter hnew hmarked horder, fun declares hvain => ?_⟩
        rw [List.findSome?_cons, hcode, List.find?_append, hfind declares hvain]
        cases hbr : (branch.filter (· ∉ before)).find? declares with
        | some d => rfl
        | none =>
            refine hrest declares fun d hd => ?_
            rcases List.mem_append.mp hd with hd | hd
            · exact hvain d hd
            · simpa using List.find?_eq_none.mp hbr d hd

end Branch

/-! ## When the first in declaration order is found -/

section Found

variable (index : DefIndex) (contexts : Contexts) (start : Nat) (skipInterfaces : Bool)

/-- **When the base walk finds the first in declaration order.** Exactly when the start does not
list itself, and depth first no base is entered out of turn: with one still to be entered
that was listed only after the base was, by a type entered since, or by the same type ahead
of it. -/
theorem findsFirst_iff :
    FindsFirst index contexts start skipInterfaces ↔
      start ∉ orderedBases index contexts skipInterfaces start ∧
        ∀ order, Entered (orderedBases index contexts skipInterfaces) [start]
            (orderedBases index contexts skipInterfaces start) order →
          InTurn (orderedBases index contexts skipInterfaces) [] order := by
  have hfinite : ∀ c, orderedBases index contexts skipInterfaces c ≠ [] →
      c ∈ List.range index.defs.length := fun c hc => List.mem_range.mpr (lt_of_orderedBases hc)
  have hclosed : Closed (orderedBases index contexts skipInterfaces) [start] [] := fun _ h => nomatch h
  -- What the branches enter, and how the code answers by it.
  have hbranches : start ∉ orderedBases index contexts skipInterfaces start →
      ∃ out, Branches (orderedBases index contexts skipInterfaces) [start] []
          (orderedBases index contexts skipInterfaces start) out ∧
        ∀ declares, firstBaseDeclaring index contexts start skipInterfaces declares =
          out.find? declares := by
    intro hself
    by_cases hleaf : orderedBases index contexts skipInterfaces start = []
    · refine ⟨[], by rw [hleaf]; exact .done, fun declares => ?_⟩
      show (orderedBases index contexts skipInterfaces start).findSome? _ = none
      rw [hleaf]
      rfl
    · obtain ⟨out, hout, hcode⟩ := exists_branches (lt_of_orderedBases hleaf)
        (orderedBases index contexts skipInterfaces start) [] hclosed hself
      exact ⟨out, hout, fun declares => hcode declares fun _ h => nomatch h⟩
  constructor
  · rintro ⟨order, horder, -, hfirst⟩
    have hself : start ∉ orderedBases index contexts skipInterfaces start := by
      intro hmem
      -- Asked for the start alone, the code answers with it.
      have hasked : (firstBaseDeclaring index contexts start skipInterfaces (· == start)).isSome := by
        show ((orderedBases index contexts skipInterfaces start).findSome? _).isSome
        rw [List.findSome?_isSome_iff]
        refine ⟨start, hmem, ?_⟩
        rw [declaresInBaseClosure_succ, if_pos (by simp)]
        rfl
      rw [hfirst, List.find?_isSome] at hasked
      obtain ⟨d, hd, heq⟩ := hasked
      exact horder.not_mem_before d hd (by simpa using heq)
    refine ⟨hself, fun order' horder' => ?_⟩
    obtain ⟨out, hout, hcode⟩ := hbranches hself
    obtain rfl := horder.deterministic horder'
    refine (hout.eq_iff_inTurn hclosed horder).mp ?_
    exact eq_of_find? (hout.new hclosed).1 horder.nodup fun p => by rw [← hcode, hfirst]
  · rintro ⟨hself, hturn⟩
    obtain ⟨order, horder⟩ := Entered.exists_order hfinite [start]
      (orderedBases index contexts skipInterfaces start)
    obtain ⟨out, hout, hcode⟩ := hbranches hself
    have heq : out = order := (hout.eq_iff_inTurn hclosed horder).mpr (hturn order horder)
    exact ⟨order, horder, horder.mem_iff_reached, fun declares => by rw [hcode, heq]⟩

end Found

/-! ## A base listed twice -/

def interfaceNamed (name : String) (line : Nat) (bases : List String) : FragDef where
  id := name.toList
  name := name.toList
  namespace_ := []
  kind := "interface".toList
  line := line
  bases := bases.map String.toList

/-- `Mid` lists `Left` and `Right`, and `Left` lists `Right` and then `Low`. -/
def listedTwice : Fragments :=
  [("a.cs".toList,
    { defs := [interfaceNamed "Start" 1 ["Mid"], interfaceNamed "Mid" 2 ["Left", "Right"],
        interfaceNamed "Left" 3 ["Right", "Low"], interfaceNamed "Right" 4 [],
        interfaceNamed "Low" 5 []] })]

/-- Asked for `Right` and `Low`, the walk answers with `Low`; depth first `Right` comes before. -/
theorem listedTwice_not_first : ¬ ∀ index contexts start skipInterfaces,
    FindsFirst index contexts start skipInterfaces := by
  intro hall
  obtain ⟨order, horder, -, hfirst⟩ := hall (buildDefIndex listedTwice)
    (buildFileContexts listedTwice none (buildDefIndex listedTwice)) 0 false
  generalize hchildren : orderedBases (buildDefIndex listedTwice)
    (buildFileContexts listedTwice none (buildDefIndex listedTwice)) false = children at horder
  have hbases : [0, 1, 2, 3, 4].map children = [[1], [2, 3], [3, 4], [], []] := by
    rw [← hchildren]
    decide +kernel
  obtain ⟨h0, h1, h2, h3, h4⟩ : children 0 = [1] ∧ children 1 = [2, 3] ∧ children 2 = [3, 4] ∧
      children 3 = [] ∧ children 4 = [] := by simpa using hbases
  have hdepth : Entered children [0] (children 0) [1, 2, 3, 4] := by
    have hright : Entered children [0, 1, 2] (children 2) [3, 4] := by
      rw [h2]
      show Entered children [0, 1, 2] [3, 4] (3 :: ([] ++ (4 :: ([] ++ []))))
      exact .enter (by decide) (by rw [h3]; exact .done)
        (.enter (by decide) (by rw [h4]; exact .done) .done)
    have hleft : Entered children [0, 1] (children 1) [2, 3, 4] := by
      rw [h1]
      show Entered children [0, 1] [2, 3] (2 :: ([3, 4] ++ []))
      exact .enter (by decide) hright (.again (by decide) .done)
    rw [h0]
    show Entered children [0] [1] (1 :: ([2, 3, 4] ++ []))
    exact .enter (by decide) hleft .done
  obtain rfl := horder.deterministic hdepth
  have hasked := hfirst fun d => d == 3 || d == 4
  have hcode : firstBaseDeclaring (buildDefIndex listedTwice)
      (buildFileContexts listedTwice none (buildDefIndex listedTwice)) 0 false
        (fun d => d == 3 || d == 4) = some 4 := by decide +kernel
  rw [hcode] at hasked
  exact absurd hasked (by decide)

end Devscout.Resolve
