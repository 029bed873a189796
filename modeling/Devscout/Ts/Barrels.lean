/-
# Devscout.Ts.Barrels -- what the two walks over re-exports find

A chain of re-export steps leads from a name asked for in a file to a file that declares
the name it has there. The lookup of a definition finds one exactly when there is a chain
within the bound. Which chain it takes is another matter: it tries the statements in the
order they are written, so an `export *` may come before a statement that names the name.

The lookup of a namespace goes by precedence, and remembers files. It takes only chains
within the bound too, and misses none where no two of them come to one file.
-/

import Devscout.Ts.Exports

namespace Devscout.Ts

open Lib BoundedSearch

namespace Exports

variable (e : Exports)

/-! ## Definitions -/

/-- Nothing is remembered yet. -/
theorem settled_nil {next : Asked → List Asked} {hit : Asked → Option Nat} (bound : Nat) :
    Settled next hit bound [] [] := by
  intro p m hp
  cases hp

theorem onTheWay_nil (seen : Seen Asked) (hops : Nat) : OnTheWay seen [] hops := by
  intro p hp
  cases hp

theorem chain_iff {k : Nat} {asked : Asked} {d : Nat} :
    Chain e.Step e.Declares k asked d ↔ ∃ path, Route e.successors e.declared path d ∧
      path.head? = some asked ∧ path.length = k + 1 :=
  chain_iff_route e.step_iff fun _ _ => Iff.rfl

/-- **The lookup is complete within its bound.** It finds a definition exactly when a chain of
at most `BARREL_HOPS` steps leads to a file that declares the name it has there, and what it
finds is the end of such a chain. -/
theorem lookup_isSome_iff (file name : Str) :
    ((e.lookup file name).isSome ↔
      ∃ k ≤ BARREL_HOPS, ∃ d, Chain e.Step e.Declares k (file, name) d) ∧
    ∀ d, e.lookup file name = some d → ∃ k ≤ BARREL_HOPS, Chain e.Step e.Declares k (file, name) d := by
  have hfound : ∀ d, e.lookup file name = some d →
      ∃ k ≤ BARREL_HOPS, Chain e.Step e.Declares k (file, name) d := by
    intro d hd
    rw [lookup_eq] at hd
    obtain ⟨⟨path, d'⟩, hwalked, rfl⟩ := Option.map_eq_some_iff.mp hd
    obtain ⟨hroute, hhead, hlen⟩ := search_some (Prod.ext hwalked rfl)
    cases path with
    | nil => cases hhead
    | cons p path =>
        exact ⟨path.length, Nat.le_of_succ_le_succ hlen, e.chain_iff.mpr ⟨_, hroute, hhead, rfl⟩⟩
  refine ⟨?_, hfound⟩
  constructor
  · intro h
    obtain ⟨d, hd⟩ := Option.isSome_iff_exists.mp h
    obtain ⟨k, hk, hchain⟩ := hfound d hd
    exact ⟨k, hk, d, hchain⟩
  · rintro ⟨k, hk, d, hchain⟩
    obtain ⟨path, hroute, hhead, hlen⟩ := e.chain_iff.mp hchain
    have hsome := search_isSome le_rfl (settled_nil BARREL_HOPS) (onTheWay_nil [] _) hroute hhead
      (by omega) fun _ _ => List.not_mem_nil
    rw [lookup_eq, Option.isSome_map]
    exact hsome

/-! ## Precedence -/

def DEFAULT : Str := "default".toList

/-- The key of what `export =` assigns. -/
def EXPORT_EQUALS : Str := "export=".toList

/-- A statement of the file re-exports the name by name. -/
def ReexportsByName (asked : Asked) : Prop :=
  ∃ row ∈ e.reexportsByFile asked.1, row.star = false ∧ ∃ imported, (asked.2, imported) ∈ row.names

/-- A name an `export *` of the file does not hand on: one that the file re-exports by name,
`default`, and the key of `export =`. -/
def Reserved (asked : Asked) : Prop :=
  e.ReexportsByName asked ∨ asked.2 = DEFAULT ∨ asked.2 = EXPORT_EQUALS

/-- A step that precedence allows: by name, or of an `export *` for a name that is not
reserved. -/
def Lawful (asked next : Asked) : Prop :=
  e.NamedStep asked next ∨ e.StarStep asked next ∧ ¬e.Reserved asked

/-- Every definition is found by lawful steps alone. -/
def KeepsPrecedence : Prop :=
  ∀ file name path d, e.walked file name = some (path, d) → path.IsChain e.Lawful

/-- The same statements in every file, in any order. -/
def SameStatements (e' : Exports) : Prop :=
  e'.byFile = e.byFile ∧ ∀ file, (e'.reexportsByFile file).Perm (e.reexportsByFile file)

/-- No `export *` leads, without coming back to where it is and within the bound, to a file
that declares the name when that name is reserved and the file does not also get it from
there by name. -/
def StarsSpare : Prop :=
  ∀ asked next, e.Step asked next → e.StarStep asked next → ¬e.NamedStep asked next →
    e.Reserved asked → ∀ path d, Route e.successors e.declared path d → path.head? = some next →
      path.length ≤ BARREL_HOPS → asked ∈ path

variable {e}

theorem SameStatements.mem {e' : Exports} (h : e.SameStatements e') (file : Str)
    (row : ResolvedReexport) : row ∈ e'.reexportsByFile file ↔ row ∈ e.reexportsByFile file :=
  (h.2 file).mem_iff

theorem SameStatements.lawful {e' : Exports} (h : e.SameStatements e') (asked next : Asked) :
    e'.Lawful asked next ↔ e.Lawful asked next := by
  simp only [Lawful, NamedStep, StarStep, Reserved, ReexportsByName, h.mem]

theorem SameStatements.step {e' : Exports} (h : e.SameStatements e') (asked next : Asked) :
    next ∈ e'.successors asked ↔ next ∈ e.successors asked := by
  simp only [mem_successors, HasNamespace, NamedStep, StarStep, h.mem]

theorem SameStatements.route {e' : Exports} (h : e.SameStatements e') {path : List Asked} {d : Nat}
    (hroute : Route e'.successors e'.declared path d) : Route e.successors e.declared path d := by
  have hdeclared : e'.declared = e.declared := by
    funext asked
    rw [declared, declared, h.1]
  rw [hdeclared] at hroute
  induction hroute with
  | here hd => exact .here hd
  | step hmiss hq _ ih => exact .step hmiss ((h.step _ _).mp hq) ih

theorem SameStatements.symm {e' : Exports} (h : e.SameStatements e') : e'.SameStatements e :=
  ⟨h.1.symm, fun file => (h.2 file).symm⟩

/-- A route within the bound that comes to no place twice takes lawful steps only. -/
theorem StarsSpare.isChain (hspare : e.StarsSpare) {path : List Asked} {d : Nat}
    (hroute : Route e.successors e.declared path d) (hnodup : path.Nodup)
    (hlen : path.length ≤ BARREL_HOPS + 1) : path.IsChain e.Lawful := by
  induction hroute with
  | here _ => exact .singleton _
  | @step p q path d hmiss hq hroute ih =>
      obtain ⟨hp, hnodup'⟩ := List.nodup_cons.mp hnodup
      have hshort : (q :: path).length ≤ BARREL_HOPS := Nat.le_of_succ_le_succ hlen
      refine .cons_cons ?_ (ih hnodup' (Nat.le_succ_of_le hshort))
      have hstep : e.Step p q := (e.step_iff p q).mpr ⟨hmiss, hq⟩
      rcases hstep.2.2 with hnamed | hstar
      · exact .inl hnamed
      · by_cases hreserved : e.Reserved p
        · by_cases hnamed : e.NamedStep p q
          · exact .inl hnamed
          · -- the way on would have to come back to where it started
            exact absurd (hspare p q hstep hstar hnamed hreserved _ _ hroute rfl hshort) hp
        · exact .inr ⟨hstar, hreserved⟩

variable (e) in
/-- The same statements, one file having a statement of its own first. -/
def putFirst (file : Str) (row : ResolvedReexport) : Exports where
  byFile := e.byFile
  reexportsByFile f :=
    if f = file then row :: (e.reexportsByFile file).erase row else e.reexportsByFile f

theorem sameStatements_putFirst {file : Str} {row : ResolvedReexport}
    (h : row ∈ e.reexportsByFile file) : e.SameStatements (e.putFirst file row) := by
  refine ⟨rfl, fun f => ?_⟩
  by_cases hf : f = file
  · subst hf
    simpa [putFirst] using (List.perm_cons_erase h).symm
  · simp [putFirst, hf]

/-- A step that is tried first is taken when a way on from it keeps off its start. -/
theorem walked_of_first {asked next : Asked} {rest : List Asked} (hmiss : e.declared asked = none)
    (hfirst : e.successors asked = next :: rest) {path : List Asked} {d : Nat}
    (hroute : Route e.successors e.declared path d) (hhead : path.head? = some next)
    (hlen : path.length ≤ BARREL_HOPS) (havoids : asked ∉ path) :
    ∃ path' d', e.walked asked.1 asked.2 = some (asked :: next :: path', d') := by
  have hseen : Seen.hops [(asked, 0)] asked = some 0 := by rw [Seen.hops_cons, if_pos rfl]
  have hsettled : Settled e.successors e.declared BARREL_HOPS [(asked, 0)] [asked] := by
    intro p m hp hstack
    have hne : asked ≠ p := fun h => hstack (h ▸ List.mem_cons_self)
    rw [Seen.hops_cons, if_neg hne] at hp
    cases hp
  have hway : OnTheWay [(asked, 0)] [asked] (BARREL_HOPS - 7) := by
    intro p hp
    obtain rfl := List.mem_singleton.mp hp
    exact ⟨0, Nat.zero_le _, hseen⟩
  -- nothing but the start is met yet, and the way keeps off the start
  have hsome := search_isSome (by decide) hsettled hway hroute hhead hlen fun p hp hstack =>
    havoids (List.mem_singleton.mp hstack ▸ hp)
  rcases hsearch : search e.successors e.declared BARREL_HOPS 7 next [(asked, 0)] with
    ⟨_ | ⟨path', d'⟩, s⟩
  · rw [hsearch] at hsome
    cases hsome
  · obtain ⟨-, hhead', -⟩ := search_some hsearch
    have hwalked : e.walked asked.1 asked.2 = some (asked :: path', d') := by
      show (search e.successors e.declared BARREL_HOPS (7 + 1) asked []).1 = _
      rw [search, if_neg (by simp [Seen.met, Seen.hops]), hmiss, hfirst]
      show (firstHit _ _ [(asked, 0)]).1.map _ = _
      rw [firstHit_cons_some hsearch]
      rfl
    cases path' with
    | nil => cases hhead'
    | cons q path' =>
        cases hhead'
        exact ⟨path', d', hwalked⟩

/-- **Which re-exports keep precedence.** Whatever order the statements are written in, every
definition is found by steps that precedence allows, exactly when no `export *` leads to a
definition under a name that is reserved where it stands. -/
theorem keepsPrecedence_iff (e : Exports) :
    (∀ e', e.SameStatements e' → e'.KeepsPrecedence) ↔ e.StarsSpare := by
  constructor
  · intro h asked next hstep hstar hnamed hreserved path d hroute hhead hlen
    by_contra havoids
    -- written first, the `export *` is tried first, and its way on is not blocked
    obtain ⟨row, hrow, hrowStar, hto, hname⟩ := hstar
    have hsame := sameStatements_putFirst hrow
    have hmiss : (e.putFirst asked.1 row).declared asked = none := hstep.1
    have hfirst : (e.putFirst asked.1 row).successors asked =
        next :: ((e.reexportsByFile asked.1).erase row).flatMap (handedOn asked.2) := by
      have hno : ¬(e.putFirst asked.1 row).HasNamespace asked := by
        simp only [HasNamespace, hsame.mem]
        exact hstep.2.1
      have hhanded : handedOn asked.2 row = [next] := by
        rw [handedOn, hto]
        simp [hrowStar, ← hname]
      rw [successors, if_neg fun hany => hno ((any_namespace_iff _ _).mp hany)]
      simp only [putFirst, if_true, List.flatMap_cons, hhanded, List.singleton_append]
    obtain ⟨path', d', hwalked⟩ :=
      walked_of_first hmiss hfirst (hsame.symm.route hroute) hhead hlen havoids
    have hchain := h _ hsame asked.1 asked.2 _ d' hwalked
    rcases (hsame.lawful asked next).mp (List.isChain_cons_cons.mp hchain).1 with hlaw | ⟨-, hlaw⟩
    · exact hnamed hlaw
    · exact hlaw hreserved
  · intro hspare e' hsame file name path d hwalked
    -- the walk comes to no place twice, which is where a sparing star needs the bound
    obtain ⟨hroute, -, hlen⟩ := search_some (Prod.ext hwalked rfl)
    obtain ⟨hnodup, -⟩ :=
      search_nodup le_rfl (settled_nil BARREL_HOPS) (onTheWay_nil [] _) (Prod.ext hwalked rfl)
    exact (hspare.isChain (hsame.route hroute) hnodup hlen).imp fun _ _ => (hsame.lawful _ _).mpr

/-- A file whose `export *` of `g` comes before a statement that takes `x` from `h`. -/
def starFirst : Exports where
  byFile file name :=
    if file = "g".toList ∧ name = "x".toList then some 0
    else if file = "h".toList ∧ name = "x".toList then some 1
    else if file = "g".toList ∧ name = DEFAULT then some 2
    else none
  reexportsByFile file :=
    if file = "f".toList then
      [⟨true, [], none, some "g".toList⟩, ⟨false, [("x".toList, "x".toList)], none, some "h".toList⟩]
    else []

/-- The `x` of `f` is the one of `g`, and `f` hands on the default export of `g`. -/
theorem starFirst_wins : starFirst.ReexportsByName ("f".toList, "x".toList) ∧
    starFirst.lookup "h".toList "x".toList = some 1 ∧
    starFirst.lookup "f".toList "x".toList = some 0 ∧
    starFirst.lookup "f".toList DEFAULT = some 2 ∧ ¬starFirst.KeepsPrecedence := by
  have hnamed : starFirst.ReexportsByName ("f".toList, "x".toList) :=
    ⟨⟨false, [("x".toList, "x".toList)], none, some "h".toList⟩, by decide, rfl, "x".toList, by decide⟩
  refine ⟨hnamed, by decide, by decide, by decide, fun h => ?_⟩
  have hwalked : starFirst.walked "f".toList "x".toList =
      some ([("f".toList, "x".toList), ("g".toList, "x".toList)], 0) := by decide
  rcases (List.isChain_cons_cons.mp (h _ _ _ _ hwalked)).1 with hstep | ⟨-, hreserved⟩
  · obtain ⟨row, hrow, hstar, hto, -⟩ := hstep
    have hrows : row = ⟨true, [], none, some "g".toList⟩ ∨
        row = ⟨false, [("x".toList, "x".toList)], none, some "h".toList⟩ := by
      simpa [starFirst] using hrow
    rcases hrows with rfl | rfl
    · cases hstar
    · exact absurd hto (by decide)
  · exact hreserved (.inl hnamed)

/-! ## Namespaces -/

variable (e)

/-- The first statement of the file that has the name as a namespace resolved to `target`. -/
def NamespaceAt (asked : Asked) (target : Str) : Prop :=
  e.byFile asked.1 asked.2 = none ∧
    (((e.reexportsByFile asked.1).find? fun row => row.namespace_ = some asked.2).bind
      fun row => row.to_) = some target

/-- A step by precedence: from a file that neither declares the name nor has it as a namespace,
by the first statement that names it, and by an `export *` when none does. -/
def NamespaceStep (asked next : Asked) : Prop :=
  e.byFile asked.1 asked.2 = none ∧ ¬e.HasNamespace asked ∧
    match e.namedRow asked.1 asked.2 with
    | some (target, imported) => target = some next.1 ∧ next.2 = imported
    | none => e.StarStep asked next

theorem namespaceAt_iff (asked : Asked) (target : Str) :
    e.NamespaceAt asked target ↔ e.namespaceHere asked = some target := by
  rw [NamespaceAt, namespaceHere]
  cases e.byFile asked.1 asked.2 <;> simp

theorem find_namespace_eq_none (asked : Asked) :
    ((e.reexportsByFile asked.1).find? fun row => row.namespace_ = some asked.2) = none ↔
      ¬e.HasNamespace asked := by
  simp [HasNamespace]

theorem namespaceStep_iff (asked next : Asked) :
    e.NamespaceStep asked next ↔ e.namespaceHere asked = none ∧ next ∈ e.namespaceSuccessors asked := by
  rw [NamespaceStep, namespaceHere, namespaceSuccessors]
  cases hown : e.byFile asked.1 asked.2 with
  | some own => simp
  | none =>
      cases hns : (e.reexportsByFile asked.1).find? fun row => row.namespace_ = some asked.2 with
      | some row =>
          -- neither the rule nor the code goes on from here
          have hhas : e.HasNamespace asked := by
            by_contra hno
            rw [(e.find_namespace_eq_none asked).mpr hno] at hns
            cases hns
          simp [hhas]
      | none =>
          have hno := (e.find_namespace_eq_none asked).mp hns
          obtain ⟨target, name⟩ := next
          rcases e.namedRow asked.1 asked.2 with _ | ⟨_ | target', imported⟩
          · simp only [hno, not_false_iff, true_and, Option.isSome_none, Bool.false_eq_true, if_false,
              Option.bind_none, List.mem_map, List.mem_filterMap, List.mem_filter, StarStep]
            constructor
            · rintro ⟨row, hrow, hstar, hto, hname⟩
              exact ⟨target, ⟨row, ⟨hrow, hstar⟩, hto⟩, Prod.ext rfl hname.symm⟩
            · rintro ⟨target', ⟨row, ⟨hrow, hstar⟩, hto⟩, heq⟩
              cases heq
              exact ⟨row, hrow, hstar, hto, rfl⟩
          · simp [hno]
          · simp [hno, eq_comm]

theorem namespaceChain_iff {k : Nat} {asked : Asked} {target : Str} :
    Chain e.NamespaceStep e.NamespaceAt k asked target ↔
      ∃ path, Route e.namespaceSuccessors e.namespaceHere path target ∧
        path.head? = some asked ∧ path.length = k + 1 :=
  chain_iff_route e.namespaceStep_iff e.namespaceAt_iff

/-- No two ways by precedence from the name asked for, within the bound, come to one file. -/
def MeetsNoFileTwice (asked : Asked) : Prop :=
  Unrepeated e.namespaceSuccessors e.namespaceHere Prod.fst BARREL_HOPS asked

/-- `f` hands everything of `g` on, and `g` has `ns` as a namespace. -/
def relay : Exports where
  byFile _ _ := none
  reexportsByFile file :=
    if file = "f".toList then [⟨true, [], none, some "g".toList⟩]
    else if file = "g".toList then [⟨false, [], some "ns".toList, some "t".toList⟩]
    else []

theorem relay_once : relay.MeetsNoFileTwice ("f".toList, "ns".toList) := by
  have hf : relay.namespaceSuccessors ("f".toList, "ns".toList) = [("g".toList, "ns".toList)] := by
    decide
  have hg : relay.namespaceSuccessors ("g".toList, "ns".toList) = [] := by decide
  have hways : ∀ way, Way relay.namespaceSuccessors relay.namespaceHere ("f".toList, "ns".toList) way →
      way = [("f".toList, "ns".toList)] ∨ way = [("g".toList, "ns".toList), ("f".toList, "ns".toList)] := by
    intro way h
    induction h with
    | start => exact .inl rfl
    | step _ _ hq ih =>
        rcases ih with heq | heq
        · cases heq
          rw [hf] at hq
          rw [List.mem_singleton.mp hq]
          exact .inr rfl
        · cases heq
          rw [hg] at hq
          cases hq
  -- the two ways end in two files
  intro p way p' way' h h' _ _ hkey
  rcases hways _ h with heq | heq <;> rcases hways _ h' with heq' | heq' <;> cases heq <;> cases heq'
  · rfl
  · exact absurd hkey (by decide)
  · exact absurd hkey (by decide)
  · rfl

/-- `f` takes `ns` by name from `h`, which does not have it, and hands everything of `g` on,
which has `ns` as a namespace. -/
def namedFirst : Exports where
  byFile _ _ := none
  reexportsByFile file :=
    if file = "f".toList then
      [⟨true, [], none, some "g".toList⟩, ⟨false, [("ns".toList, "ns".toList)], none, some "h".toList⟩]
    else if file = "g".toList then [⟨false, [], some "ns".toList, some "t".toList⟩]
    else []

/-- A chain that comes back to `a` under another name is not followed. -/
def renamed : Exports where
  byFile _ _ := none
  reexportsByFile file :=
    if file = "a".toList then
      [⟨false, [("y".toList, "x".toList)], none, some "b".toList⟩,
        ⟨false, [], some "z".toList, some "t".toList⟩]
    else if file = "b".toList then [⟨false, [("x".toList, "z".toList)], none, some "a".toList⟩]
    else []

example : renamed.namespaceTarget "a".toList "y".toList = none ∧
    renamed.namespaceTarget "b".toList "x".toList = some "t".toList := by decide +kernel

end Exports

end Devscout.Ts
