/-
# Devscout.Resolve.ArityPasses -- one pass of the ladder for two

A name written with a number of type arguments is resolved at that number first and then,
when nothing was found, without it. Where no two definitions share the simple name one pass
is taken for both. The definitions that share a simple name are the types: an enum member
has its id and nothing else, and the pass without a number finds it by that id. A generic
type that is alone among the types but has an enum member for a namesake is where the one
pass and the two part.
-/

import Devscout.Resolve.Ids

namespace Devscout.Resolve

open Lib

/-- The passes `resolve_ref_by_arity` makes for a shared name. -/
def bothPasses (resolve : Resolver) (probe : FragRef) (n : Nat) (ctx : FileContext) (ns : Str) :
    Resolution :=
  match resolve { probe with typeArgCount := some n } ctx ns with
  | .external => resolve { probe with typeArgCount := none } ctx ns
  | exact => exact

/-! ## What a bare name asks for -/

/-- The ids a bare name is looked up by: its alias target, or the name itself below some scope. -/
def Asked (ctx : FileContext) (name id : Str) : Prop :=
  match ctx.aliases.get? name with
  | some target => id = target
  | none => id = name ∨ ∃ scope, id = scope ++ '.' :: name ∨ id = scope ++ '+' :: name

theorem asked_under {ctx : FileContext} {name : Str} (halias : ctx.aliases.get? name = none)
    (level : Str) : Asked ctx name (under level name) := by
  rw [Asked, halias]
  show under level name = name ∨ _
  unfold under
  split
  · exact .inl rfl
  · exact .inr ⟨level, .inl rfl⟩

theorem asked_imported {ctx : FileContext} {name : Str} (halias : ctx.aliases.get? name = none)
    (pre directive : Str) : Asked ctx name (under pre (directive ++ '.' :: name)) := by
  rw [Asked, halias]
  show _ ∨ ∃ scope, under pre (directive ++ '.' :: name) = scope ++ '.' :: name ∨ _
  unfold under
  split
  · exact .inr ⟨directive, .inl rfl⟩
  · exact .inr ⟨pre ++ '.' :: directive, .inl (by simp)⟩

theorem asked_nested {ctx : FileContext} {name : Str} (halias : ctx.aliases.get? name = none)
    (enclosing : Str) : Asked ctx name (enclosing ++ '+' :: name) := by
  rw [Asked, halias]
  exact .inr ⟨enclosing, .inr rfl⟩

section Passes

variable {index : DefIndex} {inherits : Nat → Nat → Bool} {r : FragRef} {ctx : FileContext} {ns : Str}

/-- **The bare ladder reads no more than its lookups:** where two numbers of type arguments
find the same, they resolve to the same. -/
theorem resolveBare_congr {a b : Option Nat}
    (hlook : ∀ id, Asked ctx r.name id → typeCandidate index id a = typeCandidate index id b)
    (hpool : ctx.aliases.get? r.name = none →
      simplePool index { r with typeArgCount := a } = simplePool index { r with typeArgCount := b }) :
    resolveBare index inherits { r with typeArgCount := a } ctx ns =
      resolveBare index inherits { r with typeArgCount := b } ctx ns := by
  unfold resolveBare
  dsimp only
  cases halias : ctx.aliases.get? r.name with
  | some target =>
      dsimp only
      rw [hlook target (by rw [Asked, halias])]
  | none =>
      have hnested : nestedInEnclosing index { r with typeArgCount := a } ns =
          nestedInEnclosing index { r with typeArgCount := b } ns := by
        unfold nestedInEnclosing
        dsimp only
        congr 1
        exact funext fun i => hlook _ (asked_nested halias _)
      have himported : ∀ directives prefixes, importedAtLevel index directives prefixes
          { r with typeArgCount := a } =
          importedAtLevel index directives prefixes { r with typeArgCount := b } := by
        intro directives prefixes
        unfold importedAtLevel
        congr 2
        funext directive
        unfold importedBy
        congr 1
        exact funext fun pre => hlook _ (asked_imported halias _ _)
      have hlevel : ∀ prefixes, resolveAtLevel index { r with typeArgCount := a } ctx.usings prefixes =
          resolveAtLevel index { r with typeArgCount := b } ctx.usings prefixes := by
        intro prefixes
        funext level
        unfold resolveAtLevel
        rw [himported]
        dsimp only
        rw [hlook _ (asked_under halias level)]
      have hvisible : nestedCandidateVisible index inherits { r with typeArgCount := a } ns =
          nestedCandidateVisible index inherits { r with typeArgCount := b } ns := rfl
      dsimp only
      rw [hnested, hlevel, hpool halias, hvisible]

/-- Where nothing is found there is nothing to resolve to. -/
theorem resolveBare_external
    (hlook : ∀ id, Asked ctx r.name id → typeCandidate index id r.typeArgCount = none)
    (hpool : ctx.aliases.get? r.name = none → simplePool index r = []) :
    resolveBare index inherits r ctx ns = .external := by
  unfold resolveBare
  cases halias : ctx.aliases.get? r.name with
  | some target =>
      dsimp only
      rw [hlook target (by rw [Asked, halias])]
  | none =>
      have hnested : nestedInEnclosing index r ns = none := by
        unfold nestedInEnclosing
        exact List.findSome?_eq_none_iff.mpr fun i _ => hlook _ (asked_nested halias _)
      have hlevel : ∀ prefixes level, resolveAtLevel index r ctx.usings prefixes level = none := by
        intro prefixes level
        have himported : importedAtLevel index (ctx.usings.atLevel level) prefixes r = [] := by
          have hnone : (ctx.usings.atLevel level).filterMap (importedBy index prefixes r) = [] := by
            refine List.filterMap_eq_nil_iff.mpr fun directive _ => ?_
            exact List.findSome?_eq_none_iff.mpr fun pre _ => hlook _ (asked_imported halias _ _)
          unfold importedAtLevel
          rw [hnone]
          rfl
        unfold resolveAtLevel
        rw [hlook _ (asked_under halias level), himported]
        rfl
      dsimp only
      rw [hnested]
      dsimp only
      rw [List.findSome?_eq_none_iff.mpr fun level _ => hlevel _ level, hpool halias]
      rfl

end Passes

/-! ## Lookups by one number of type parameters -/

theorem findIdx?_congr {α : Type} {p q : α → Bool} {l : List α} (h : ∀ a ∈ l, p a = q a) :
    l.findIdx? p = l.findIdx? q := by
  induction l with
  | nil => rfl
  | cons a l ih =>
      rw [List.findIdx?_cons, List.findIdx?_cons, h a List.mem_cons_self,
        ih fun b hb => h b (List.mem_cons_of_mem a hb)]

section Index

variable {index : DefIndex} (hl : Lookups index)

include hl in
/-- Definitions of an id that all have one number are found by that number and by no other. -/
theorem typeCandidate_of_oneArity {id : Str} {arity : Nat}
    (hone : ∀ s ∈ index.shapes, s.id = id → s.arity = arity) (n : Nat) :
    typeCandidate index id (some n) = if n = arity then typeCandidate index id none else none := by
  rw [typeCandidate, typeCandidate, hl.byArity, hl.byId]
  split
  · rename_i hn
    refine findIdx?_congr fun s hs => ?_
    by_cases hid : s.id = id
    · simp [hid, hone s hs hid, hn]
    · simp [hid]
  · rename_i hn
    refine List.findIdx?_eq_none_iff.mpr fun s hs => ?_
    by_cases hid : s.id = id
    · simp [hid, hone s hs hid, Ne.symm hn]
    · simp [hid]

theorem mem_carriers {name : Str} {i : Nat} :
    i ∈ carriers index.shapes name ↔ ∃ s, index.shapes[i]? = some s ∧ s.carries name = true := by
  unfold carriers
  rw [List.mem_filter, List.mem_range]
  constructor
  · rintro ⟨-, h⟩
    cases hs : index.shapes[i]? with
    | none => rw [hs] at h; cases h
    | some s => exact ⟨s, rfl, by rw [hs] at h; exact h⟩
  · rintro ⟨s, hs, hcarries⟩
    exact ⟨(List.getElem?_eq_some_iff.mp hs).1, by rw [hs]; exact hcarries⟩

include hl in
theorem simplePool_eq (r : FragRef) : simplePool index r =
    (carriers index.shapes r.name).filter fun idx =>
      match r.typeArgCount with
      | none => true
      | some n => (index.lists idx).typeParams.length == n := by
  rw [simplePool, hl.byName] <;> rfl

end Index

/-! ## One number for a name -/

/-- Where names are read: neither the name nor an alias target of the file has a `+`, which only
ids have. -/
def Written (ctx : FileContext) (name : Str) : Prop :=
  '+' ∉ name ∧ ∀ key target, ctx.aliases.get? key = some target → '+' ∉ target

/-- What a name stands for in a file. -/
def fullName (ctx : FileContext) (name : Str) : Str := (ctx.aliases.get? name).getD name

theorem Written.fullName {ctx : FileContext} {name : Str} (h : Written ctx name) :
    '+' ∉ Resolve.fullName ctx name := by
  unfold Resolve.fullName
  cases halias : ctx.aliases.get? name with
  | none => exact h.1
  | some target => exact h.2 name target halias

theorem lastName_of_asked {ctx : FileContext} {name id : Str} (h : Asked ctx name id) :
    lastName id = lastName (fullName ctx name) := by
  unfold Asked at h
  unfold fullName
  split at h
  · rename_i target halias
    rw [h, halias]
    rfl
  · rename_i halias
    rw [halias]
    rcases h with rfl | ⟨scope, rfl | rfl⟩
    · rfl
    · exact lastName_append (.inl rfl)
    · exact lastName_append (.inr rfl)

section OneArity

variable {index : DefIndex} (hl : Lookups index) (hf : ∀ s ∈ index.shapes, s.Formed)
  {inherits : Nat → Nat → Bool} {ctx : FileContext} {ns name : Str} {outer : List Str}

include hl hf in
/-- **Where all definitions of a name have one number of type parameters,** one pass stands
for both: at that number it is the pass without one, at any other it finds nothing. -/
theorem bothPasses_of_oneArity {arity : Nat}
    (hone : ∀ s ∈ index.shapes, s.name = lastName (fullName ctx name) → s.arity = arity) (n : Nat) :
    bothPasses (resolveBare index inherits) (nameProbe name ns outer) n ctx ns =
      resolveBare index inherits (nameProbe name ns outer) ctx ns := by
  have hid : ∀ id, Asked ctx name id → ∀ s ∈ index.shapes, s.id = id → s.arity = arity := by
    intro id hasked s hs hid
    refine hone s hs ?_
    rw [← lastName_of_asked hasked, ← hid, (hf s hs).lastName]
  have hcarried : ctx.aliases.get? name = none → ∀ i ∈ carriers index.shapes name,
      (index.lists i).typeParams.length = arity := by
    intro halias i hi
    obtain ⟨s, hs, hcarries⟩ := mem_carriers.mp hi
    have hmem : s ∈ index.shapes := List.mem_of_getElem? hs
    have hname : s.name = name := (by simpa [Shape.carries] using hcarries : s.name = name ∧ _).1
    rw [(lists_of_shapes hs).1]
    refine hone s hmem ?_
    rw [fullName, halias, Option.getD_none, ← hname, lastName_plain (hf s hmem).plain]
  unfold bothPasses
  by_cases hn : n = arity
  · have hsame : resolveBare index inherits { nameProbe name ns outer with typeArgCount := some n }
        ctx ns =
        resolveBare index inherits { nameProbe name ns outer with typeArgCount := none } ctx ns := by
      refine resolveBare_congr (fun id hasked => ?_) fun halias => ?_
      · rw [typeCandidate_of_oneArity hl (hid id hasked), if_pos hn]
      · rw [simplePool_eq hl, simplePool_eq hl]
        refine List.filter_congr fun i hi => ?_
        simp [hcarried halias i hi, hn]
    rw [hsame]
    split
    · rfl
    · rfl
  · have hnone : resolveBare index inherits { nameProbe name ns outer with typeArgCount := some n }
        ctx ns = .external := by
      refine resolveBare_external (fun id hasked => ?_) fun halias => ?_
      · rw [typeCandidate_of_oneArity hl (hid id hasked), if_neg hn]
      · rw [simplePool_eq hl]
        refine List.filter_eq_nil_iff.mpr fun i hi => ?_
        simp [hcarried halias i hi, Ne.symm hn]
    rw [hnone]
    rfl

end OneArity

/-- **No enum member has the name of a generic type that is alone of its name.** -/
def SparesGenerics (index : DefIndex) : Prop :=
  ∀ m ∈ index.shapes, m.isMember = true → ∀ t, (index.simpleNameToDefs.get? m.name).getD [] = [t] →
    (index.lists t).typeParams = []

/-- Where no two definitions share a simple name, all definitions of it have one number. -/
theorem exists_oneArity {index : DefIndex} (hl : Lookups index) (hf : ∀ s ∈ index.shapes, s.Formed)
    (hspares : SparesGenerics index) {name : Str} (hlone : (carriers index.shapes name).length < 2) :
    ∃ arity, ∀ s ∈ index.shapes, s.name = name → s.arity = arity := by
  have hcarrier : ∀ s ∈ index.shapes, s.name = name → s.isMember = false →
      ∃ i, carriers index.shapes name = [i] ∧ index.shapes[i]? = some s := by
    intro s hs hname hmember
    obtain ⟨i, hi⟩ := List.mem_iff_getElem?.mp hs
    have hmem : i ∈ carriers index.shapes name :=
      mem_carriers.mpr ⟨s, hi, by simp [Shape.carries, hname, hmember]⟩
    rcases hcarriers : carriers index.shapes name with _ | ⟨j, _ | ⟨k, rest⟩⟩
    · rw [hcarriers] at hmem
      cases hmem
    · rw [hcarriers, List.mem_singleton] at hmem
      exact ⟨i, by rw [hmem], hi⟩
    · rw [hcarriers] at hlone
      simp only [List.length_cons] at hlone
      omega
  by_cases hm : ∃ m ∈ index.shapes, m.name = name ∧ m.isMember = true
  · obtain ⟨m, hmem, rfl, hmember⟩ := hm
    refine ⟨0, fun s hs hname => ?_⟩
    cases hkind : s.isMember with
    | true => exact ((hf s hs).member hkind).1
    | false =>
        obtain ⟨i, hcarriers, hi⟩ := hcarrier s hs hname hkind
        have hparams := hspares m hmem hmember i (by rw [hl.byName, hcarriers])
        rw [← (lists_of_shapes hi).1, hparams]
        rfl
  · by_cases hs : ∃ s ∈ index.shapes, s.name = name
    · obtain ⟨s, hs, hname⟩ := hs
      refine ⟨s.arity, fun u hu hname' => ?_⟩
      have htype : ∀ v ∈ index.shapes, v.name = name → v.isMember = false :=
        fun v hv hv' => by_contra fun hne => hm ⟨v, hv, hv', by simpa using hne⟩
      obtain ⟨i, hcarriers, hi⟩ := hcarrier s hs hname (htype s hs hname)
      obtain ⟨j, hcarriers', hj⟩ := hcarrier u hu hname' (htype u hu hname')
      rw [hcarriers] at hcarriers'
      obtain rfl := (List.cons.inj hcarriers').1
      rw [hi] at hj
      rw [Option.some.inj hj]
    · exact ⟨0, fun s hs' hname => absurd ⟨s, hs', hname⟩ hs⟩

/-! ## A site that tells the passes apart -/

theorem range_reverse_succ (n : Nat) : (List.range (n + 1)).reverse = n :: (List.range n).reverse := by
  rw [List.range_succ, List.reverse_append, List.reverse_singleton, List.singleton_append]

theorem namespacePrefixes_eq (ns : Str) : ∃ rest, namespacePrefixes ns = ns :: rest := by
  unfold namespacePrefixes
  dsimp only
  rw [range_reverse_succ, List.map_cons, List.take_length]
  refine ⟨_, congrArg (· :: _) ?_⟩
  cases ns with
  | nil => rfl
  | cons c ns => exact List.intercalate_splitOn '.'

theorem nil_mem_namespacePrefixes (ns : Str) : [] ∈ namespacePrefixes ns := by
  unfold namespacePrefixes
  refine List.mem_map.mpr ⟨0, List.mem_reverse.mpr (List.mem_range.mpr (by omega)), ?_⟩
  rw [List.take_zero]
  rfl

/-- A file whose one directive, at the top, is a scope. -/
def importing (scope : Str) : FileContext := ⟨FileUsings.insert {} [] scope, .empty⟩

theorem written_importing {scope name : Str} (h : '+' ∉ name) : Written (importing scope) name :=
  ⟨h, fun _ _ hget => nomatch hget⟩

theorem atLevel_importing (scope : Str) : (importing scope).usings.atLevel [] = [scope] := rfl

section Site

variable {index : DefIndex} {inherits : Nat → Nat → Bool} {r : FragRef} {ns scope : Str}

/-- Inside a definition's own scope its id is the first a name is looked up by. -/
theorem resolveBare_first {typeStack : List Str} (hstack : r.outerTypes = typeStack) {e : Nat}
    (hfound : typeCandidate index (typeId r.name ns typeStack) r.typeArgCount = some e) :
    ∃ via, resolveBare index inherits r (importing scope) ns = .resolved e via := by
  have halias : (importing scope).aliases.get? r.name = none := rfl
  unfold resolveBare
  rw [halias]
  dsimp only
  cases hlength : typeStack.length with
  | zero =>
      obtain rfl := List.length_eq_zero_iff.mp hlength
      obtain ⟨rest, hprefixes⟩ := namespacePrefixes_eq ns
      have hnested : nestedInEnclosing index r ns = none := by
        unfold nestedInEnclosing
        rw [hstack]
        rfl
      have hlevel : resolveAtLevel index r (importing scope).usings (namespacePrefixes ns) ns =
          some (.resolved e .namespace_) := by
        have hid : typeId r.name ns [] = under ns r.name := by
          simp [typeId, joinPlus, List.intercalate]
        unfold resolveAtLevel
        rw [← hid, hfound]
        rfl
      rw [hnested]
      dsimp only
      have hfirst : (namespacePrefixes ns).findSome? (resolveAtLevel index r (importing scope).usings
          (namespacePrefixes ns)) = some (.resolved e .namespace_) := by
        conv_lhs => rw [hprefixes]
        rw [List.findSome?_cons, ← hprefixes, hlevel]
      rw [hfirst]
      exact ⟨_, rfl⟩
  | succ depth =>
      have hne : typeStack ≠ [] := fun hnil => by rw [hnil] at hlength; cases hlength
      have hnested : nestedInEnclosing index r ns = some e := by
        unfold nestedInEnclosing
        rw [hstack, hlength, range_reverse_succ, List.findSome?_cons]
        have hid : enclosingType ns typeStack (depth + 1) ++ '+' :: r.name =
            typeId r.name ns typeStack := by
          rw [enclosingType, ← hlength, List.take_length, typeId, joinPlus_concat hne]
          unfold under
          split <;> simp
        rw [hid, hfound]
      rw [hnested]
      exact ⟨_, rfl⟩

/-- A definition below the imported scope keeps a name from being external. -/
theorem resolveBare_ne_external {m : Nat}
    (hfound : typeCandidate index (scope ++ '.' :: r.name) r.typeArgCount = some m) :
    resolveBare index inherits r (importing scope) ns ≠ .external := by
  have halias : (importing scope).aliases.get? r.name = none := rfl
  unfold resolveBare
  rw [halias]
  dsimp only
  cases hnested : nestedInEnclosing index r ns with
  | some e => simp
  | none =>
      have himported : (importedBy index (namespacePrefixes ns) r scope).isSome := by
        unfold importedBy
        refine List.findSome?_isSome_iff.mpr ⟨[], nil_mem_namespacePrefixes ns, ?_⟩
        rw [show under [] (scope ++ '.' :: r.name) = scope ++ '.' :: r.name from rfl, hfound]
        rfl
      obtain ⟨i, hi⟩ := Option.isSome_iff_exists.mp himported
      have hlevel : (resolveAtLevel index r (importing scope).usings (namespacePrefixes ns)
          []).isSome := by
        have hlist : importedAtLevel index [scope] (namespacePrefixes ns) r = [i] := by
          simp [importedAtLevel, hi]
        have hreach : ∀ idx, (importing scope).usings.reaches idx = true := fun _ => rfl
        unfold resolveAtLevel
        rw [atLevel_importing, hlist, List.filter_cons_of_pos (hreach i)]
        cases typeCandidate index (under [] r.name) r.typeArgCount with
        | none => rfl
        | some e => rfl
      dsimp only
      have hsome : ((namespacePrefixes ns).findSome? (resolveAtLevel index r
          (importing scope).usings (namespacePrefixes ns))).isSome :=
        List.findSome?_isSome_iff.mpr ⟨[], nil_mem_namespacePrefixes ns, hlevel⟩
      obtain ⟨found, hfound⟩ := Option.isSome_iff_exists.mp hsome
      rw [hfound]
      obtain ⟨level, -, hlevel⟩ := List.exists_of_findSome?_eq_some hfound
      unfold resolveAtLevel at hlevel
      split at hlevel
      · cases hlevel; simp
      · split at hlevel
        · cases hlevel
        · cases hlevel; simp
        · cases hlevel; simp

end Site

section Index

variable {index : DefIndex} (hl : Lookups index)

include hl in
theorem arity_of_typeCandidate {id : Str} {n e : Nat} (h : typeCandidate index id (some n) = some e) :
    (index.lists e).typeParams.length = n := by
  rw [typeCandidate, hl.byArity] at h
  obtain ⟨hlt, hp, -⟩ := List.findIdx?_eq_some_iff_getElem.mp h
  rw [(lists_of_shapes (List.getElem?_eq_getElem hlt)).1]
  exact (by simpa using hp : _ ∧ index.shapes[e].arity = n).2

include hl in
/-- What a name resolves to at a number has that number. -/
theorem arity_of_resolved {inherits : Nat → Nat → Bool} {r : FragRef} {ctx : FileContext} {ns : Str}
    {n e : Nat} {via : Via} (hr : r.typeArgCount = some n)
    (h : resolveBare index inherits r ctx ns = .resolved e via) :
    (index.lists e).typeParams.length = n := by
  have hfound : ∀ id, typeCandidate index id r.typeArgCount = some e →
      (index.lists e).typeParams.length = n := fun id hid => arity_of_typeCandidate hl (hr ▸ hid)
  unfold resolveBare at h
  split at h
  · split at h
    · rename_i hid
      cases h
      exact hfound _ hid
    · cases h
  · split at h
    · rename_i hid
      cases h
      obtain ⟨i, -, hid⟩ := List.exists_of_findSome?_eq_some hid
      exact hfound _ hid
    · dsimp only at h
      split at h
      · rename_i found hlevels
        subst h
        obtain ⟨level, -, hlevel⟩ := List.exists_of_findSome?_eq_some hlevels
        unfold resolveAtLevel at hlevel
        split at hlevel
        · rename_i hid
          cases hlevel
          exact hfound _ (Option.filter_eq_some_iff.mp hid).1
        · split at hlevel
          · cases hlevel
          · -- the only import is a candidate of some directive
            rename_i idx himports
            cases hlevel
            have hmem : e ∈ importedAtLevel index (ctx.usings.atLevel level) (namespacePrefixes ns) r :=
              List.mem_of_mem_filter (himports ▸ List.mem_singleton_self e)
            rcases mem_of_mem_foldl_new hmem with hnil | hmem
            · cases hnil
            · obtain ⟨directive, -, hdirective⟩ := List.mem_filterMap.mp hmem
              obtain ⟨pre, -, hid⟩ := List.exists_of_findSome?_eq_some hdirective
              exact hfound _ hid
          · cases hlevel
      · -- the one of its name that is in sight
        have hpool : e ∈ simplePool index r := by
          generalize hvisible : (simplePool index r).filter _ = visible at h
          match visible with
          | [] => cases h
          | [i] =>
              cases h
              exact List.mem_of_mem_filter (hvisible ▸ List.mem_singleton_self e)
          | _ :: _ :: _ => cases h
        rw [simplePool_eq hl, List.mem_filter, hr] at hpool
        simpa using hpool.2

end Index

/-! ## The shortcut -/

/-- **The shortcut stands for both passes,** whatever the file, the site, the name and the
number written. -/
def ShortcutAgrees (index : DefIndex) : Prop :=
  ∀ contexts fuel ctx ns outer name n, Written ctx name →
    resolveRefByArity index (resolveRef index contexts (fuel + 1)) (nameProbe name ns outer) (some n)
        ctx ns =
      bothPasses (resolveRef index contexts (fuel + 1)) (nameProbe name ns outer) n ctx ns

/-- The shortcut makes both passes for a shared name, and else the one without a number. -/
theorem resolveRefByArity_eq {index : DefIndex} (hl : Lookups index) (resolve : Resolver)
    (name ns : Str) (outer : List Str) (n : Nat) (ctx : FileContext) (hw : Written ctx name) :
    resolveRefByArity index resolve (nameProbe name ns outer) (some n) ctx ns =
      if 2 ≤ (carriers index.shapes (lastName (fullName ctx name))).length then
        bothPasses resolve (nameProbe name ns outer) n ctx ns
      else resolve (nameProbe name ns outer) ctx ns := by
  rw [← hl.byName, ← lastName_eq_lastSegment hw.fullName]
  unfold resolveRefByArity bothPasses fullName
  simp only [decide_eq_true_eq]
  rfl

/-- A generic type alone of its name, with an enum member for a namesake, tells the passes
apart: inside its own scope the pass without a number finds one of the two, and the pass at
the number of the other finds that one. -/
theorem exists_not_agrees {index : DefIndex} (hl : Lookups index) (hf : ∀ s ∈ index.shapes, s.Formed)
    {m : Shape} (hm : m ∈ index.shapes) (hmember : m.isMember = true) {t : Nat}
    (hlone : (index.simpleNameToDefs.get? m.name).getD [] = [t])
    (hgeneric : (index.lists t).typeParams ≠ []) : ¬ ShortcutAgrees index := by
  intro hagrees
  rw [hl.byName] at hlone
  obtain ⟨s, hs, hcarries⟩ := mem_carriers.mp (hlone ▸ List.mem_singleton_self t)
  obtain ⟨hname, htype⟩ : s.name = m.name ∧ s.isMember = false := by
    simpa [Shape.carries] using hcarries
  have hformed := hf s (List.mem_of_getElem? hs)
  obtain ⟨typeStack, hid⟩ := hformed.type htype
  obtain ⟨harity, enumId, hmid⟩ := (hf m hm).member hmember
  have hplain : PlainName s.name := hformed.plain
  rw [← hname] at hlone hmid
  -- At this site the shortcut makes the one pass.
  have hone : ∀ n, resolveBare index (inheritsFrom index .empty)
      (nameProbe s.name s.namespace_ typeStack) (importing enumId) s.namespace_ =
      bothPasses (resolveBare index (inheritsFrom index .empty))
        (nameProbe s.name s.namespace_ typeStack) n (importing enumId) s.namespace_ := by
    intro n
    have hw : Written (importing enumId) s.name := written_importing hplain.2
    have hnotShared :
        ¬ 2 ≤ (carriers index.shapes (lastName (fullName (importing enumId) s.name))).length := by
      rw [show fullName (importing enumId) s.name = s.name from rfl, lastName_plain hplain, hlone]
      simp
    have hagree := hagrees .empty 0 (importing enumId) s.namespace_ typeStack s.name n hw
    rw [resolveRefByArity_eq hl _ _ _ _ _ _ hw, if_neg hnotShared] at hagree
    exact hagree
  obtain ⟨b, hb⟩ : ∃ b, typeCandidate index s.id none = some b := by
    rw [typeCandidate, hl.byId]
    refine Option.isSome_iff_exists.mp (List.findIdx?_isSome.trans ?_)
    exact List.any_eq_true.mpr ⟨s, List.mem_of_getElem? hs, beq_self_eq_true _⟩
  obtain ⟨via, hblind⟩ := @resolveBare_first index (inheritsFrom index .empty)
    (nameProbe s.name s.namespace_ typeStack) s.namespace_ enumId typeStack rfl b (hid ▸ hb)
  by_cases hbt : b = t
  · -- without a number the type is found, at no type argument the member
    have hfound : ∃ i, typeCandidate index (enumId ++ '.' :: s.name) (some 0) = some i := by
      rw [typeCandidate, hl.byArity]
      refine Option.isSome_iff_exists.mp (List.findIdx?_isSome.trans ?_)
      exact List.any_eq_true.mpr ⟨m, hm, by simp [hmid, harity]⟩
    obtain ⟨i, hi⟩ := hfound
    have hne : resolveBare index (inheritsFrom index .empty)
        { nameProbe s.name s.namespace_ typeStack with typeArgCount := some 0 } (importing enumId)
        s.namespace_ ≠ .external := resolveBare_ne_external hi
    have hzero := hone 0
    rw [hblind, bothPasses] at hzero
    split at hzero
    · exact hne ‹_›
    · have hparams := arity_of_resolved hl rfl (hbt ▸ hzero.symm)
      exact hgeneric (List.length_eq_zero_iff.mp hparams)
  · -- at its own number the type is found, without one a namesake of the same id
    have hexact : typeCandidate index s.id (some s.arity) = some t := by
      rw [typeCandidate, hl.byArity]
      have hsome : (index.shapes.findIdx? fun u => u.id == s.id && u.arity == s.arity).isSome := by
        refine List.findIdx?_isSome.trans ?_
        exact List.any_eq_true.mpr ⟨s, List.mem_of_getElem? hs, by simp⟩
      obtain ⟨j, hj⟩ := Option.isSome_iff_exists.mp hsome
      obtain ⟨hlt, hp, -⟩ := List.findIdx?_eq_some_iff_getElem.mp hj
      obtain ⟨hlt', hst⟩ := List.getElem?_eq_some_iff.mp hs
      have hp : index.shapes[j].id = s.id ∧ index.shapes[j].arity = s.arity := by simpa using hp
      rw [hj]
      congr 1
      by_contra hjt
      rcases Nat.lt_or_gt_of_ne hjt with hlt'' | hlt''
      · exact List.pairwise_iff_getElem.mp hl.distinct j t hlt hlt' hlt'' (by rw [hst]; exact hp)
      · exact List.pairwise_iff_getElem.mp hl.distinct t j hlt' hlt hlt''
          (by rw [hst]; exact ⟨hp.1.symm, hp.2.symm⟩)
    obtain ⟨via', hresolved⟩ := @resolveBare_first index (inheritsFrom index .empty)
      { nameProbe s.name s.namespace_ typeStack with typeArgCount := some s.arity } s.namespace_ enumId
      typeStack rfl t (hid ▸ hexact)
    have hown := hone s.arity
    rw [hblind, bothPasses, hresolved] at hown
    exact hbt (Resolution.resolved.inj hown).1

/-- **The shortcut stands for both passes exactly when no enum member has the name of a generic
type that is alone of its name.** -/
theorem shortcutAgrees_iff (fragments : Fragments) (hextracted : Extracted fragments) :
    ShortcutAgrees (buildDefIndex fragments) ↔ SparesGenerics (buildDefIndex fragments) := by
  obtain ⟨hl, hfrom, -⟩ := lookups_buildDefIndex fragments
  have hf : ∀ s ∈ (buildDefIndex fragments).shapes, s.Formed := by
    intro s hs
    obtain ⟨f, hf, d, hd, rfl⟩ := hfrom s hs
    exact hextracted f hf d hd
  constructor
  · intro hagrees m hm hmember t hlone
    by_contra hgeneric
    exact exists_not_agrees hl hf hm hmember hlone hgeneric hagrees
  · intro hspares contexts fuel ctx ns outer name n hw
    rw [resolveRefByArity_eq hl _ _ _ _ _ _ hw]
    split
    · rfl
    · rename_i hlone
      obtain ⟨arity, hone⟩ := exists_oneArity hl hf hspares (Nat.lt_of_not_le hlone)
      exact (bothPasses_of_oneArity hl hf hone n).symm

/-! ## An enum member and a type of its name -/

def defIn (id ns name kind : String) (typeParams : List String) : FragDef where
  id := id.toList
  name := name.toList
  namespace_ := ns.toList
  kind := kind.toList
  line := 1
  typeParams := typeParams.map String.toList

/-- The enum `App.Status` with its member `Active`, and a type `Lib.Active`. -/
def namesakes (typeParams : List String) : Fragments :=
  [("status.cs".toList,
    { defs := [defIn "App.Status" "App" "Status" "enum" [],
        defIn "App.Status.Active" "App" "Active" "enum-member" []] }),
   ("active.cs".toList, { defs := [defIn "Lib.Active" "Lib" "Active" "class" typeParams] })]

theorem namesakes_extracted (typeParams : List String) : Extracted (namesakes typeParams) := by
  have hplain : PlainName "Active".toList ∧ PlainName "Status".toList := by
    unfold PlainName
    decide
  have htype : ("class".toList == "enum-member".toList) = false := by decide
  intro f hf d hd
  simp only [namesakes, List.mem_cons, List.not_mem_nil, or_false] at hf
  rcases hf with rfl | rfl
  · rcases List.mem_cons.mp hd with rfl | hd
    · exact ⟨hplain.2, fun _ => ⟨[], rfl⟩, fun h => absurd h (by decide)⟩
    · obtain rfl := List.mem_singleton.mp hd
      exact ⟨hplain.1, fun h => absurd h (by decide), fun _ => ⟨rfl, "App.Status".toList, rfl⟩⟩
  · obtain rfl := List.mem_singleton.mp hd
    exact ⟨hplain.1, fun _ => ⟨[], rfl⟩, fun h => absurd (htype.symm.trans h) (by decide)⟩

theorem shortcutAgrees_namesakes : ShortcutAgrees (buildDefIndex (namesakes [])) := by
  refine (shortcutAgrees_iff (namesakes []) (namesakes_extracted [])).mpr ?_
  intro m hm hmember t hlone
  have hall : ∀ m ∈ (buildDefIndex (namesakes [])).shapes, m.isMember = true →
      ((buildDefIndex (namesakes [])).simpleNameToDefs.get? m.name).getD [] = [2] := by decide +kernel
  rw [hall m hm hmember] at hlone
  obtain rfl := (List.cons.inj hlone).1
  decide +kernel

/-- A base written `Active<int>` under `using static App.Status;` and `using Lib;`. -/
def bothImported : FileContext :=
  ⟨FileUsings.insert (FileUsings.insert {} [] "App.Status".toList) [] "Lib".toList, .empty⟩

/-- The one pass finds the member and the type, both passes the type. -/
theorem namesakes_not_agree : ¬ ∀ fragments, Extracted fragments →
    ShortcutAgrees (buildDefIndex fragments) := by
  intro hall
  have hagree := hall (namesakes ["T"]) (namesakes_extracted ["T"]) .empty 0 bothImported [] []
    "Active".toList 1 ⟨by decide, fun _ _ hget => nomatch hget⟩
  revert hagree
  decide +kernel

end Devscout.Resolve
