/-
# Devscout.Rust.Ambiguity -- what an ambiguous edge stands for

A lookup may find modules beside items, and an ambiguous edge lists the items only. So a
segment with several candidates can give an edge that lists one.

Everything a lookup finds is an item of the tables: it was bound from one, came through a
`use` leaf that found it, or was put under its type. That holds of the tables as they are
built, of every evaluation of a leaf, and so of whatever the two loops over the leaves stop
at.
-/

import Devscout.Rust.Emit

namespace Devscout.Rust

open Lib Resolve

/-! ## Items that are there -/

/-- The items among some targets are among the first `n`. -/
def InRange (n : Nat) (targets : List Target) : Prop := ∀ d, Target.def_ d ∈ targets → d < n

section InRange

variable {n : Nat} {v w : List Target}

theorem inRange_nil : InRange n [] := fun _ h => nomatch h

theorem inRange_module (m : Nat) : InRange n [.module m] := fun d h => by simp at h

theorem InRange.mono {n' : Nat} (h : InRange n v) (hle : n ≤ n') : InRange n' v :=
  fun d hd => Nat.lt_of_lt_of_le (h d hd) hle

theorem InRange.of_subset (h : InRange n v) (hsub : ∀ t ∈ w, t ∈ v) : InRange n w :=
  fun d hd => h d (hsub _ hd)

theorem InRange.append (hv : InRange n v) (hw : InRange n w) : InRange n (v ++ w) := by
  intro d hd
  rcases List.mem_append.mp hd with h | h
  · exact hv d h
  · exact hw d h

theorem InRange.extendUnique (hv : InRange n v) (hw : InRange n w) :
    InRange n (extendUnique v w) := by
  unfold Rust.extendUnique
  induction w generalizing v with
  | nil => exact hv
  | cons t w ih =>
      have hrest : InRange n w := hw.of_subset fun _ h => List.mem_cons_of_mem t h
      have hone : InRange n [t] := hw.of_subset fun _ h => by simp_all
      rw [List.foldl_cons]
      split
      · exact ih hv hrest
      · exact ih (hv.append hone) hrest

end InRange

/-- Every list a table binds a name to. -/
structure Tables.Sound (t : Tables) : Prop where
  items : ∀ module name ns, InRange t.defs.length ((t.itemAt module name).get ns)
  assoc : ∀ owner name, ∀ i ∈ (t.assoc.lookup (owner, name)).getD [], i < t.defs.length

/-- What leaves resolved to. -/
def ResolvedIn (n : Nat) (resolved : List Bound) : Prop :=
  ∀ l ns, InRange n ((resolved.getD l {}).get ns)

/-! ## Lookups -/

section Lookups

variable {t : Tables} {resolved : List Bound} (ht : t.Sound)
  (hr : ResolvedIn t.defs.length resolved)

include hr in
theorem level_inRange {found : List Target} {leaves : List Nat} {ns : Ns} {v : List Target}
    (hfound : InRange t.defs.length found) (h : level found leaves resolved ns = .found v) :
    InRange t.defs.length v := by
  have hall : ∀ (leaves : List Nat) found, InRange t.defs.length found → InRange t.defs.length
      (leaves.foldl (fun out l => extendUnique out ((resolved.getD l {}).get ns)) found) := by
    intro leaves
    induction leaves with
    | nil => exact fun _ h => h
    | cons l leaves ih => exact fun found h => ih _ (h.extendUnique (hr l ns))
  unfold level at h
  dsimp only at h
  split at h
  · cases h
    exact hall leaves found hfound
  · split at h <;> cases h

include ht hr in
theorem explicit_inRange {module : Nat} {name : Str} {ns : Ns} {v : List Target}
    (h : (t.explicit resolved module name ns).value = .found v) : InRange t.defs.length v :=
  level_inRange hr (ht.items module name ns) h

include ht hr in
theorem globWalk_inRange {name : Str} {ns : Ns} {fuel : Nat} {seen queue : List Nat} {g : Globbed}
    (hg : InRange t.defs.length g.found) :
    InRange t.defs.length (t.globWalk resolved name ns fuel seen queue g).value.found := by
  induction fuel generalizing seen queue g with
  | zero => exact hg
  | succ fuel ih =>
      rw [Tables.globWalk]
      split
      · exact hg
      · rename_i m rest _
        rw [Logged.value_bind]
        cases hlevel : (t.explicit resolved m name ns).value with
        | found v => exact ih (hg.extendUnique (explicit_inRange ht hr hlevel))
        | shadowed => exact ih hg
        | empty => exact ih hg

include ht hr in
theorem throughGlobs_inRange (globs : List Nat) (name : Str) (ns : Ns) :
    InRange t.defs.length (t.throughGlobs resolved globs name ns).value.found :=
  globWalk_inRange ht hr inRange_nil

theorem globbed_inRange {n : Nat} {g : Globbed} {isImport : Bool} {v : List Target}
    (hg : InRange n g.found) (h : globbed g isImport = some v) : InRange n v := by
  unfold globbed at h
  split at h
  · split at h
    · cases h
    · cases h
      exact inRange_nil
  · split at h
    · cases h
      exact hg
    · cases h

include ht hr in
theorem inModule_inRange {module : Nat} {name : Str} {ns : Ns} {isImport : Bool} {v : List Target}
    (h : (t.inModule resolved module name ns isImport).value = some v) :
    InRange t.defs.length v := by
  rw [Tables.inModule, Logged.value_bind] at h
  cases hlevel : (t.explicit resolved module name ns).value with
  | found w =>
      rw [hlevel] at h
      cases h
      exact explicit_inRange ht hr hlevel
  | shadowed =>
      rw [hlevel] at h
      cases h
      exact inRange_nil
  | empty =>
      rw [hlevel] at h
      dsimp only at h
      split at h
      · split at h
        · cases h
        · cases h
          exact inRange_nil
      · exact globbed_inRange (throughGlobs_inRange ht hr _ name ns) h

include ht hr in
theorem inBlocksFrom_inRange {file : Nat} {name : Str} {ns : Ns} {isImport : Bool} {fuel : Nat}
    {block : Option Nat} {v : List Target}
    (h : (t.inBlocksFrom resolved file name ns isImport fuel block).value = some v) :
    InRange t.defs.length v := by
  induction fuel generalizing block with
  | zero => cases h
  | succ fuel ih =>
      cases block with
      | none => cases h
      | some b =>
          rw [Tables.inBlocksFrom] at h
          cases hlevel : level [] (t.blockNamed file b name) resolved ns with
          | found w =>
              rw [hlevel] at h
              cases h
              exact level_inRange hr inRange_nil hlevel
          | shadowed =>
              rw [hlevel] at h
              cases h
              exact inRange_nil
          | empty =>
              rw [hlevel] at h
              dsimp only at h
              rw [Logged.value_bind] at h
              cases hglob : globbed (t.throughGlobs resolved (t.blockGlobs file b) name ns).value
                  isImport with
              | some w =>
                  rw [hglob] at h
                  cases h
                  exact globbed_inRange (throughGlobs_inRange ht hr _ name ns) hglob
              | none =>
                  rw [hglob] at h
                  exact ih h

end Lookups

/-! ## Paths -/

section Paths

variable {b : Binder} {resolved : List Bound} (hb : b.t.Sound)
  (hr : ResolvedIn b.t.defs.length resolved)

include hb hr in
theorem inScope_inRange (site : From) (name : Str) (ns : Ns) :
    InRange b.t.defs.length (b.inScope resolved site name ns).value := by
  unfold Binder.inScope
  rw [Logged.value_bind]
  cases hblocks : (b.t.inBlocks resolved site.file site.block name ns site.isImport).value with
  | some v => exact inBlocksFrom_inRange hb hr hblocks
  | none =>
      dsimp only
      rw [Logged.value_bind]
      cases hmodule : (b.t.inModule resolved site.module name ns site.isImport).value with
      | some v => exact inModule_inRange hb hr hmodule
      | none =>
          dsimp only
          split
          · exact inRange_module _
          · exact inRange_nil

include hb in
theorem associated_inRange (d : Nat) (name : Str) (ns : Ns) :
    InRange b.t.defs.length (b.associated d name ns) := by
  unfold Binder.associated
  split
  · exact inRange_nil
  · intro i hi
    obtain ⟨j, hj, hij⟩ := List.mem_map.mp hi
    cases hij
    exact hb.assoc d name i (List.mem_filter.mp hj).1

theorem parent_inRange {n : Nat} (module : Nat) : InRange n (b.parent module) := by
  intro d hd
  obtain ⟨p, hp⟩ := Option.mem_toList.mp hd |> Option.map_eq_some_iff.mp
  exact absurd hp.2 (by simp)

include hb hr in
theorem segment_inRange {site : From} (hself : ∀ d, site.selfDef = some d → d < b.t.defs.length)
    (current : Option Target) (name : Str) (ns : Ns) :
    InRange b.t.defs.length (b.segment resolved site current name ns).value := by
  match current with
  | none =>
      rw [Binder.segment]
      split
      · exact inRange_module _
      · split
        · exact inRange_module _
        · split
          · exact parent_inRange _
          · split
            · intro d hd
              obtain ⟨e, he, hde⟩ := Option.map_eq_some_iff.mp (Option.mem_toList.mp hd)
              cases hde
              exact hself d he
            · exact inScope_inRange hb hr site name ns
  | some (.module m) =>
      rw [Binder.segment]
      split
      · exact parent_inRange _
      · rw [Logged.value_bind]
        cases hmodule : (b.t.inModule resolved m name ns false).value with
        | some v => exact inModule_inRange hb hr hmodule
        | none => exact inRange_nil
  | some (.def_ d) => exact associated_inRange hb d name ns

/-- What a step found. -/
def Step.targets : Step → List Target
  | .bound t => [t]
  | .ambiguous v => v
  | .skip | .nothing => []

include hb hr in
theorem walkFrom_inRange {site : From} (hself : ∀ d, site.selfDef = some d → d < b.t.defs.length)
    {ns : Ns} {segs : List Str} {current : Option Target} :
    ∀ step ∈ (b.walkFrom resolved site ns current segs).value, InRange b.t.defs.length step.targets := by
  induction segs generalizing current with
  | nil => exact fun _ h => nomatch h
  | cons seg segs ih =>
      rw [Binder.walkFrom, Logged.value_bind]
      have hfound := segment_inRange hb hr hself current seg (if segs.isEmpty then ns else .type)
      generalize (b.segment resolved site current seg (if segs.isEmpty then ns else .type)).value
        = found at hfound ⊢
      match found with
      | [] =>
          intro step hstep
          rw [List.mem_singleton.mp hstep]
          exact inRange_nil
      | [one] =>
          intro step hstep
          rcases List.mem_cons.mp hstep with rfl | hrest
          · exact hfound
          · exact ih step hrest
      | one :: two :: more =>
          intro step hstep
          rw [List.mem_singleton.mp hstep]
          exact hfound

include hb hr in
theorem walk_inRange {site : From} (hself : ∀ d, site.selfDef = some d → d < b.t.defs.length)
    {ns : Ns} (segs : List Str) :
    ∀ step ∈ (b.walk resolved site segs ns).value, InRange b.t.defs.length step.targets := by
  unfold Binder.walk
  split
  · split
    · intro step hstep
      rcases List.mem_cons.mp hstep with rfl | hrest
      · exact inRange_nil
      · rcases List.mem_cons.mp hrest with rfl | hrest
        · exact inRange_module _
        · exact walkFrom_inRange hb hr hself step hrest
    · intro step hstep
      have hcases : step = .skip ∨ step = .nothing := by simpa using hstep
      rcases hcases with rfl | rfl
      · exact inRange_nil
      · exact inRange_nil
  · exact walkFrom_inRange hb hr hself

include hb hr in
theorem leafTargets_inRange (leaf : Leaf) (ns : Ns) :
    InRange b.t.defs.length (b.leafTargets resolved leaf ns).value := by
  have hsteps : ∀ step ∈ (b.walk resolved ⟨leaf.module, leaf.file, leaf.block, none, true⟩ leaf.segments
      ns).value, InRange b.t.defs.length step.targets :=
    walk_inRange hb hr (by intro d h; cases h) leaf.segments
  rw [Binder.leafTargets, Logged.value_bind, Logged.value_pure]
  refine InRange.of_subset ?_ fun t ht => (List.mem_filter.mp ht).1
  unfold Binder.lastTargets
  split
  · split
    · rename_i t hlast
      exact hsteps _ (List.mem_of_getLast? hlast)
    · rename_i v hlast
      exact hsteps _ (List.mem_of_getLast? hlast)
    · exact inRange_nil
  · exact inRange_nil

include hb hr in
theorem resolveLeaf_inRange (leaf : Leaf) (ns : Ns) :
    InRange b.t.defs.length ((b.resolveLeaf resolved leaf).value.get ns) := by
  have htypes := leafTargets_inRange hb hr leaf .type
  have hvalues := leafTargets_inRange hb hr leaf .value
  rw [Binder.resolveLeaf, Logged.value_bind]
  split
  · cases ns with
    | type => exact htypes
    | value => exact inRange_nil
  · cases ns with
    | type => exact htypes
    | value => exact hvalues

end Paths

/-! ## The loops over the leaves -/

theorem ResolvedIn.set {n : Nat} {resolved : List Bound} (h : ResolvedIn n resolved) {l : Nat}
    {r : Bound} (hr : ∀ ns, InRange n (r.get ns)) : ResolvedIn n (resolved.set l r) := by
  intro c ns
  by_cases hc : c = l ∧ l < resolved.length
  · obtain ⟨rfl, hlt⟩ := hc
    rw [List.getD_eq_getElem?_getD, List.getElem?_set_self hlt]
    exact hr ns
  · have hsame : (resolved.set l r)[c]? = resolved[c]? := by
      rw [List.getElem?_set]
      split
      · rename_i hlc
        subst hlc
        rw [if_neg (fun hlt => hc ⟨rfl, hlt⟩), List.getElem?_eq_none (by omega)]
      · rfl
    rw [List.getD_eq_getElem?_getD, hsame, ← List.getD_eq_getElem?_getD]
    exact h c ns

/-- Whatever the loops stop at, a leaf resolves to items of the tables. -/
theorem resolveLeaves_inRange {b : Binder} (hb : b.t.Sound) :
    ResolvedIn b.t.defs.length b.resolveLeaves := by
  have hset : ∀ values l, ResolvedIn b.t.defs.length values →
      ResolvedIn b.t.defs.length (values.set l (b.network.eval values l).value) :=
    fun values l h => h.set (resolveLeaf_inRange hb h (b.t.leaf l))
  have hstart : ResolvedIn b.t.defs.length b.unresolved := by
    intro l ns
    have hempty : b.unresolved.getD l {} = {} := by
      rw [Binder.unresolved, List.getD_eq_getElem?_getD, List.getElem?_replicate]
      split <;> rfl
    rw [hempty]
    cases ns with
    | type => exact inRange_nil
    | value => exact inRange_nil
  refine b.network.rounds_induct hset ?_
  exact b.network.values_run_induct hset hstart

/-! ## The tables -/

/-- Each item of the tables is an item of the file it records. -/
def ItemsRecorded (fragments : Fragments) (t : Tables) : Prop :=
  ∀ d < t.defs.length, ∃ f ∈ fragments[(t.defAt d).file]?, ∃ item ∈ f.2.items,
    item.path = (t.defAt d).path

section Build

variable {fragments : Fragments} {tree : ModTree} {t : Tables}

/-- What building the tables keeps: before the associated items, none is put anywhere. -/
structure BuiltFrom (fragments : Fragments) (t : Tables) : Prop where
  items : ∀ key ns, InRange t.defs.length (((t.items.lookup key).getD {}).get ns)
  assoc : t.assoc = []
  recorded : ItemsRecorded fragments t

theorem BuiltFrom.sound (h : BuiltFrom fragments t) : t.Sound where
  items _ _ ns := h.items _ ns
  assoc owner name i hi := by
    rw [h.assoc] at hi
    cases hi

theorem push_inRange {n : Nat} {bound : Bound} {target : Target} {ns : Ns}
    (h : ∀ ns, InRange n (bound.get ns)) (htarget : InRange n [target]) (ns' : Ns) :
    InRange n ((bound.push ns target).get ns') := by
  unfold Bound.push
  split
  · exact h ns'
  · cases ns <;> cases ns'
    · exact (h .type).append htarget
    · exact h .value
    · exact h .type
    · exact (h .value).append htarget

theorem bindItem_inRange {n : Nat} {items : List ((Nat × Str) × Bound)} {module : Nat} {name : Str}
    {ns : Ns} {target : Target} (h : ∀ key ns, InRange n (((items.lookup key).getD {}).get ns))
    (htarget : InRange n [target]) (key : Nat × Str) (ns' : Ns) :
    InRange n ((((bindItem items module name ns target).lookup key).getD {}).get ns') := by
  unfold bindItem
  rw [List.lookup_cons]
  cases hkey : key == (module, name) with
  | true => exact push_inRange (h _) htarget ns'
  | false => exact h key ns'

theorem BuiltFrom.addItem (h : BuiltFrom fragments t) {file : Nat} {f : Str × RsFragment}
    (hfile : fragments[file]? = some f) {ctors : List Str} {item : RsItem} (hitem : item ∈ f.2.items) :
    BuiltFrom fragments (addItem tree file ctors t item) := by
  have hgrown : BuiltFrom fragments
      { t with defs := t.defs ++ [⟨file, item.name, item.kind, item.path⟩] } := by
    refine ⟨fun key ns => (h.items key ns).mono (by simp), h.assoc, ?_⟩
    intro d hd
    by_cases hlt : d < t.defs.length
    · have hsame : Tables.defAt { t with defs := t.defs ++ [⟨file, item.name, item.kind, item.path⟩] } d
          = t.defAt d := by
        simp [Tables.defAt, List.getD_eq_getElem?_getD, List.getElem?_append_left hlt]
      rw [hsame]
      exact h.recorded d hlt
    · obtain rfl : d = t.defs.length := by
        have : d < t.defs.length + 1 := by simpa using hd
        omega
      refine ⟨f, ?_, item, hitem, ?_⟩ <;> simp [Tables.defAt, hfile]
  have hbind : ∀ {t' : Tables} {module : Nat} {ns : Ns} {target : Target},
      BuiltFrom fragments t' → InRange t'.defs.length [target] →
        BuiltFrom fragments { t' with items := bindItem t'.items module item.name ns target } :=
    fun h' htarget => ⟨bindItem_inRange h'.items htarget, h'.assoc, h'.recorded⟩
  have hself : InRange (t.defs ++ [(⟨file, item.name, item.kind, item.path⟩ : DefRef)]).length
      [.def_ t.defs.length] := by
    intro d hd
    cases List.mem_singleton.mp hd
    simp
  unfold Rust.addItem
  dsimp only
  split
  · exact hgrown
  · split
    · split
      · exact hbind hgrown (inRange_module _)
      · exact hgrown
    all_goals first
      | exact hgrown
      | exact hbind hgrown hself
      | split
        · exact hbind (hbind hgrown hself) hself
        · exact hbind hgrown hself

theorem BuiltFrom.addFragment (h : BuiltFrom fragments t) {file : Nat} {f : Str × RsFragment}
    (hfile : fragments[file]? = some f) : BuiltFrom fragments (Rust.addFragment tree t (f.2, file)) := by
  have hitems : ∀ (items : List RsItem) (t : Tables), (∀ item ∈ items, item ∈ f.2.items) →
      BuiltFrom fragments t → BuiltFrom fragments (items.foldl (Rust.addItem tree file f.2.ctors) t) := by
    intro items
    induction items with
    | nil => exact fun _ _ h => h
    | cons item items ih =>
        exact fun t hsub h => ih _ (fun i hi => hsub i (List.mem_cons_of_mem item hi))
          (h.addItem hfile (hsub item List.mem_cons_self))
  -- Leaves and opaque scopes leave the items, and what they are recorded under, alone.
  have hleaves : ∀ (uses : List RsUse) (t : Tables), BuiltFrom fragments t →
      BuiltFrom fragments (uses.foldl (addLeaf tree file) t) := by
    intro uses
    induction uses with
    | nil => exact fun _ h => h
    | cons u uses ih =>
        intro t h
        refine ih _ ?_
        unfold addLeaf
        split
        · exact h
        · exact ⟨h.items, h.assoc, h.recorded⟩
  have hopaque : ∀ (scopes : List Str) (t : Tables), BuiltFrom fragments t →
      BuiltFrom fragments (scopes.foldl (addOpaque tree file) t) := by
    intro scopes
    induction scopes with
    | nil => exact fun _ h => h
    | cons scope scopes ih =>
        intro t h
        refine ih _ ?_
        unfold addOpaque
        split
        · exact h
        · exact ⟨h.items, h.assoc, h.recorded⟩
  exact hopaque _ _ (hleaves _ _ (hitems _ _ (fun _ hi => hi) h))

theorem builtFrom_tables : BuiltFrom fragments (tables tree fragments) := by
  have hfold : ∀ (entries : List (RsFragment × Nat)) (t : Tables),
      (∀ e ∈ entries, ∃ f, fragments[e.2]? = some f ∧ e.1 = f.2) → BuiltFrom fragments t →
        BuiltFrom fragments (entries.foldl (addFragment tree) t) := by
    intro entries
    induction entries with
    | nil => exact fun _ _ h => h
    | cons e entries ih =>
        intro t hentries h
        obtain ⟨f, hfile, hfragment⟩ := hentries e List.mem_cons_self
        refine ih _ (fun e he => hentries e (List.mem_cons_of_mem _ he)) ?_
        have hadded : BuiltFrom fragments (addFragment tree t (f.2, e.2)) := h.addFragment hfile
        rwa [← hfragment] at hadded
  refine hfold _ _ (fun e he => ?_) ⟨fun key ns => ?_, rfl, fun d hd => absurd hd (Nat.not_lt_zero d)⟩
  · obtain ⟨f, hf⟩ : ∃ f, fragments[e.2]? = some f ∧ f.2 = e.1 := by
      have := List.mem_zipIdx_iff_getElem?.mp he
      simpa using this
    exact ⟨f, hf.1, hf.2.symm⟩
  · cases ns with
    | type => exact inRange_nil
    | value => exact inRange_nil

/-! ### The associated items -/

/-- Tables with associated items: the items themselves stay as they were built. -/
structure Tables.SoundOver (t₀ t : Tables) : Prop where
  defs : t.defs = t₀.defs
  sound : t.Sound

theorem defByPath_lt {file : Nat} {path : Str} {d : Nat} (h : t.defByPath file path = some d) :
    d < t.defs.length :=
  List.mem_range.mp (List.mem_reverse.mp (List.mem_of_find?_eq_some h))

theorem Tables.SoundOver.addAssociated {t₀ : Tables} (h : t₀.SoundOver t) {owner item : Nat}
    (hitem : item < t.defs.length) : t₀.SoundOver (t.addAssociated owner item) := by
  unfold Tables.addAssociated
  dsimp only
  split
  · exact h
  · refine ⟨h.defs, h.sound.items, fun d name i hi => ?_⟩
    rw [List.lookup_cons] at hi
    cases hkey : (d, name) == (owner, (t.defAt item).name) with
    | true =>
        rw [hkey] at hi
        rcases List.mem_append.mp hi with hold | hnew
        · exact h.sound.assoc _ _ i hold
        · exact List.mem_singleton.mp hnew ▸ hitem
    | false =>
        rw [hkey] at hi
        exact h.sound.assoc d name i hi

theorem Tables.SoundOver.indexTraitItem {t₀ : Tables} (h : t₀.SoundOver t) {item : Nat}
    (hitem : item < t₀.defs.length) : t₀.SoundOver (indexTraitItem t item) := by
  unfold Rust.indexTraitItem
  dsimp only
  split
  · exact h
  · split
    · split
      · exact h.addAssociated (h.defs ▸ hitem)
      · exact h
    · exact h

/-- The items put under their types so far, and the types of `impl` blocks, are items. -/
structure Associated.SoundOver (t₀ : Tables) (s : Associated) : Prop extends t₀.SoundOver s.t where
  implSelf : ∀ key d, s.implSelf.lookup key = some d → d < t₀.defs.length

theorem Associated.SoundOver.indexImpl {t₀ : Tables} {resolved : List Bound} {s : Associated}
    (h : s.SoundOver t₀) (hr : ResolvedIn t₀.defs.length resolved) {file : Nat}
    (entry : RsImpl × Nat) : (indexImpl tree resolved file s entry).SoundOver t₀ := by
  unfold Rust.indexImpl
  dsimp only
  split
  · exact h
  · rename_i module _
    split
    · exact h
    · rename_i owner howner
      split
      · exact h
      · have hsteps : ∀ step ∈ ((Binder.mk tree s.t).walk resolved ⟨module, file, none, none, false⟩
            (splitColons entry.1.selfType) .type).value, InRange s.t.defs.length step.targets :=
          @walk_inRange ⟨tree, s.t⟩ resolved h.sound (h.defs ▸ hr) _ (by intro d hd; cases hd) .type _
        have hlt : owner < t₀.defs.length := by
          unfold boundDef at howner
          split at howner
          · rename_i d hlast
            split at howner
            · cases howner
              have hmem := hsteps _ (List.mem_of_getLast? hlast) owner List.mem_cons_self
              exact h.defs ▸ hmem
            · cases howner
          · cases howner
        have hitems : ∀ add : Tables → Str → Tables, (∀ t path, t₀.SoundOver t → t₀.SoundOver (add t path)) →
            ∀ (paths : List Str) (t : Tables), t₀.SoundOver t → t₀.SoundOver (paths.foldl add t) := by
          intro add hadd paths
          induction paths with
          | nil => exact fun _ h => h
          | cons path paths ih => exact fun t ht => ih _ (hadd t path ht)
        refine ⟨hitems _ (fun t path ht => ?_) _ _ h.toSoundOver, fun key d hd => ?_⟩
        · split
          · rename_i item hitem
            exact ht.addAssociated (defByPath_lt hitem)
          · exact ht
        · rw [List.lookup_cons] at hd
          split at hd
          · cases hd
            exact hlt
          · exact h.implSelf key d hd

theorem soundOver_indexAssociated {resolved : List Bound} (ht : t.Sound)
    (hr : ResolvedIn t.defs.length resolved) :
    (indexAssociated tree resolved fragments t).SoundOver t := by
  have himpls : ∀ (file : Nat) (entries : List (RsImpl × Nat)) (s : Associated), s.SoundOver t →
      (entries.foldl (indexImpl tree resolved file) s).SoundOver t := by
    intro file entries
    induction entries with
    | nil => exact fun _ h => h
    | cons e entries ih => exact fun s h => ih _ (h.indexImpl hr e)
  have hfiles : ∀ (files : List ((Str × RsFragment) × Nat)) (s : Associated), s.SoundOver t →
      (files.foldl (fun s e => e.1.2.impls.zipIdx.foldl (indexImpl tree resolved e.2) s) s).SoundOver t := by
    intro files
    induction files with
    | nil => exact fun _ h => h
    | cons e files ih => exact fun s h => ih _ (himpls e.2 _ s h)
  have htraits : ∀ (items : List Nat) (t' : Tables), (∀ i ∈ items, i < t.defs.length) →
      t.SoundOver t' → t.SoundOver (items.foldl indexTraitItem t') := by
    intro items
    induction items with
    | nil => exact fun _ _ h => h
    | cons i items ih =>
        exact fun t' hlt h => ih _ (fun j hj => hlt j (List.mem_cons_of_mem i hj))
          (h.indexTraitItem (hlt i List.mem_cons_self))
  have himpl := hfiles fragments.zipIdx ⟨t, []⟩ ⟨⟨rfl, ht⟩, fun key d hd => by cases hd⟩
  unfold indexAssociated
  dsimp only
  refine ⟨htraits _ _ (fun i hi => ?_) himpl.toSoundOver, himpl.implSelf⟩
  rw [himpl.defs] at hi
  exact List.mem_range.mp hi

end Build

/-! ## Ambiguous steps -/

section Steps

variable {b : Binder} {resolved : List Bound}

/-- A walk stops at the first segment with several candidates. -/
theorem ambiguous_of_walkFrom {site : From} {ns : Ns} {segs : List Str} {current : Option Target}
    {i : Nat} {v : List Target}
    (h : (b.walkFrom resolved site ns current segs).value[i]? = some (.ambiguous v)) :
    (b.walkFrom resolved site ns current segs).value.length = i + 1 ∧ 2 ≤ v.length := by
  induction segs generalizing current i with
  | nil => cases h
  | cons seg segs ih =>
      rw [Binder.walkFrom, Logged.value_bind] at h ⊢
      generalize (b.segment resolved site current seg (if segs.isEmpty then ns else .type)).value
        = found at h ⊢
      match found with
      | [] =>
          cases i with
          | zero => cases h
          | succ i => cases h
      | [one] =>
          cases i with
          | zero => cases h
          | succ i =>
              obtain ⟨hlen, htwo⟩ := ih h
              exact ⟨congrArg Nat.succ hlen, htwo⟩
      | one :: two :: more =>
          cases i with
          | zero =>
              cases h
              exact ⟨rfl, by simp⟩
          | succ i => cases h

theorem ambiguous_of_walk {site : From} {ns : Ns} {segs : List Str} {i : Nat} {v : List Target}
    (h : (b.walk resolved site segs ns).value[i]? = some (.ambiguous v)) :
    (b.walk resolved site segs ns).value.length = i + 1 ∧ 2 ≤ v.length := by
  unfold Binder.walk at h ⊢
  split at h
  · rename_i rest
    cases hroot : rest.head?.bind (b.externNamed site.module) with
    | some root =>
        rw [hroot] at h
        match i with
        | 0 => cases h
        | 1 => cases h
        | i + 2 =>
            obtain ⟨hlen, htwo⟩ := ambiguous_of_walkFrom (by simpa using h)
            exact ⟨by simpa using hlen, htwo⟩
    | none =>
        rw [hroot] at h
        match i with
        | 0 => cases h
        | 1 => cases h
        | i + 2 => cases h
  · exact ambiguous_of_walkFrom h

end Steps

/-! ## What an ambiguous edge promises -/

namespace Bindings

variable (fragments : Fragments) (s : Bindings)

def steps (file : Nat) (site : RsSite) : List Step :=
  siteSteps s.binder s.implSelf s.resolved file site

/-- An ambiguous edge, and the segment of a site it was pushed for. -/
structure AmbiguousAt (e : RsEdge) (file : Nat) (site : RsSite) (i : Nat) (found : List Target) :
    Prop where
  given : ∃ f, fragments[file]? = some f ∧ site ∈ f.2.sites ∧
    stepEdge fragments s.binder f.1 site i (.ambiguous found) = some e
  step : (s.steps file site)[i]? = some (.ambiguous found)

/-- **A real ambiguity.** At least two candidates; up to five of them are listed, in the order
of their ids, no id twice, each the id of an item; and the walk of the site chose none: it
ends at the segment. -/
structure Real (e : RsEdge) (file : Nat) (site : RsSite) (i : Nat) : Prop where
  candidates : ∃ origin rel line raw listed count,
    e = .ambiguous origin rel line raw listed count ∧ 2 ≤ count ∧
    listed.length = min AMBIGUOUS_CAP count ∧
    (listed.map Candidate.id).Pairwise (· < ·) ∧
    ∀ c ∈ listed, ∃ f ∈ fragments, ∃ item ∈ f.2.items, c.id = rsDefId f.1 item.path ∧ c.file = f.1
  chosen : (s.steps file site).length = i + 1

/-- The items among what a lookup found, whatever modules it found beside them, have one id. -/
def OneItem (found : List Target) : Prop :=
  ∀ d ∈ defsIn found, ∀ c ∈ defsIn found,
    idOf fragments s.binder d = idOf fragments s.binder c

end Bindings

/-! ### The tables of a whole pass -/

section Pass

variable {fragments : Fragments} {crates : Option RustCrates}

theorem bindings_sound : (bindings fragments crates).binder.t.Sound ∧
    ResolvedIn (bindings fragments crates).binder.t.defs.length (bindings fragments crates).resolved ∧
    ItemsRecorded fragments (bindings fragments crates).binder.t ∧
    ∀ key d, (bindings fragments crates).implSelf.lookup key = some d →
      d < (bindings fragments crates).binder.t.defs.length := by
  have hbuilt : BuiltFrom fragments (binder fragments crates).t := builtFrom_tables
  have hr := resolveLeaves_inRange hbuilt.sound
  have hover : (indexAssociated (binder fragments crates).tree _ fragments
      (binder fragments crates).t).SoundOver (binder fragments crates).t :=
    soundOver_indexAssociated hbuilt.sound hr
  have hdefs := hover.defs
  refine ⟨hover.sound, ?_, ?_, ?_⟩
  · show ResolvedIn (indexAssociated _ _ _ _).t.defs.length _
    rw [hdefs]
    exact hr
  · show ItemsRecorded fragments (indexAssociated _ _ _ _).t
    unfold ItemsRecorded Tables.defAt
    rw [hdefs]
    exact hbuilt.recorded
  · show ∀ key d, _ → d < (indexAssociated _ _ _ _).t.defs.length
    rw [hdefs]
    exact hover.implSelf

theorem steps_inRange {file : Nat} {site : RsSite} :
    ∀ step ∈ (bindings fragments crates).steps file site,
      InRange (bindings fragments crates).binder.t.defs.length step.targets := by
  obtain ⟨hsound, hr, -, himpl⟩ := @bindings_sound fragments crates
  unfold Bindings.steps siteSteps
  split
  · exact fun _ h => nomatch h
  · refine walk_inRange hsound hr (fun d hd => ?_) _
    have hself : selfDef (bindings fragments crates).binder (bindings fragments crates).implSelf
        file site = some d := hd
    unfold selfDef at hself
    split at hself
    · exact himpl _ d hself
    · obtain ⟨path, -, hpath⟩ := Option.bind_eq_some_iff.mp hself
      exact defByPath_lt hpath

/-- The id and the file of an item of the tables are those of an item of a fragment. -/
theorem exists_item {d : Nat} (hd : d < (bindings fragments crates).binder.t.defs.length) :
    ∃ f ∈ fragments, ∃ item ∈ f.2.items,
      idOf fragments (bindings fragments crates).binder d = rsDefId f.1 item.path ∧
        relOf fragments (bindings fragments crates).binder d = f.1 := by
  obtain ⟨f, hf, item, hitem, hpath⟩ := bindings_sound.2.2.1 d hd
  have hfile : fragments[((bindings fragments crates).binder.def_ d).file]? = some f := hf
  have hrel : relOf fragments (bindings fragments crates).binder d = f.1 := by
    rw [relOf, hfile]
    rfl
  refine ⟨f, List.mem_of_getElem? hfile, item, hitem, ?_, hrel⟩
  rw [idOf, hrel, hpath]
  rfl

theorem mem_defsIn {targets : List Target} {d : Nat} : d ∈ defsIn targets ↔ Target.def_ d ∈ targets := by
  unfold defsIn
  rw [List.mem_filterMap]
  constructor
  · rintro ⟨t, ht, htd⟩
    cases t with
    | module m => cases htd
    | def_ e =>
        cases htd
        exact ht
  · intro h
    exact ⟨_, h, rfl⟩

/-- The ambiguous edges of the pass are those a segment of a site was given. -/
theorem exists_ambiguousAt_iff {e : RsEdge} :
    (∃ file site i found, (bindings fragments crates).AmbiguousAt fragments e file site i found) ↔
      e ∈ (appendRustEdges fragments crates).1 ∧
        ∃ origin rel line raw listed count, e = .ambiguous origin rel line raw listed count := by
  constructor
  · rintro ⟨file, site, i, found, ⟨f, hfile, hsite, hedge⟩, hstep⟩
    constructor
    · refine List.mem_flatMap.mpr ⟨(f, file), List.mem_zipIdx_iff_getElem?.mpr hfile, ?_⟩
      refine List.mem_flatMap.mpr ⟨site, hsite, List.mem_filterMap.mpr ⟨(.ambiguous found, i), ?_, hedge⟩⟩
      exact List.mem_zipIdx_iff_getElem?.mpr hstep
    · obtain ⟨origin, -, he⟩ := Option.map_eq_some_iff.mp hedge
      exact ⟨_, _, _, _, _, _, he.symm⟩
  · rintro ⟨hmem, origin, rel, line, raw, listed, count, rfl⟩
    obtain ⟨⟨f, file⟩, hfile, hsites⟩ := List.mem_flatMap.mp hmem
    obtain ⟨site, hsite, hsteps⟩ := List.mem_flatMap.mp hsites
    obtain ⟨⟨step, i⟩, hstep, hedge⟩ := List.mem_filterMap.mp hsteps
    have hfile' : fragments[file]? = some f := List.mem_zipIdx_iff_getElem?.mp hfile
    have hstep' := List.mem_zipIdx_iff_getElem?.mp hstep
    -- A bound segment gives an edge to a definition, so the step is an ambiguous one.
    match step with
    | .ambiguous found => exact ⟨file, site, i, found, ⟨f, hfile', hsite, hedge⟩, hstep'⟩
    | .bound (.def_ d) =>
        dsimp only [stepEdge] at hedge
        split at hedge
        · obtain ⟨kind, -, he⟩ := Option.map_eq_some_iff.mp hedge
          cases kind <;> cases he
        · cases hedge
    | .bound (.module m) => cases hedge
    | .skip => cases hedge
    | .nothing => cases hedge

/-- An ambiguous edge is real exactly when two items of different ids were found. -/
theorem Bindings.AmbiguousAt.real_iff {e : RsEdge} {file : Nat} {site : RsSite} {i : Nat}
    {found : List Target} (h : (bindings fragments crates).AmbiguousAt fragments e file site i found) :
    (bindings fragments crates).Real fragments e file site i ↔
      ¬ (bindings fragments crates).OneItem fragments found := by
  obtain ⟨⟨f, hfile, hsite, hedge⟩, hstep⟩ := h
  obtain ⟨origin, hedge⟩ : ∃ origin : EdgeKind, e = .ambiguous origin.label f.1
      (site.segmentLines.getD i site.line)
      (List.intercalate "::".toList ((splitColons site.path).take (i + 1)))
      (((candidateDefs fragments (bindings fragments crates).binder found).take AMBIGUOUS_CAP).map
        fun d => ⟨idOf fragments (bindings fragments crates).binder d,
          relOf fragments (bindings fragments crates).binder d⟩)
      (candidateDefs fragments (bindings fragments crates).binder found).length := by
    obtain ⟨origin, -, he⟩ := Option.map_eq_some_iff.mp hedge
    exact ⟨origin, he.symm⟩
  have htwo : 2 ≤ (candidateDefs fragments (bindings fragments crates).binder found).length ↔
      ¬ (bindings fragments crates).OneItem fragments found := by
    rw [candidateDefs, two_le_length_sortedByKey, Bindings.OneItem]
    push Not
    rfl
  constructor
  · rintro ⟨⟨_, _, _, _, _, count, he, hcount, -⟩, -⟩
    rw [hedge] at he
    cases he
    exact htwo.mp hcount
  · intro hmany
    refine ⟨⟨_, _, _, _, _, _, hedge, htwo.mpr hmany, ?_, ?_, ?_⟩, ?_⟩
    · rw [List.length_map, List.length_take]
    · rw [List.map_map, List.pairwise_map]
      exact pairwise_sortedByKey.sublist (List.take_sublist _ _)
    · intro c hc
      obtain ⟨d, hd, rfl⟩ := List.mem_map.mp hc
      have hfound := mem_defsIn.mp (mem_of_mem_sortedByKey (List.mem_of_mem_take hd))
      exact exists_item (steps_inRange _ (List.mem_of_getElem? hstep) d hfound)
    · unfold Bindings.steps siteSteps at hstep ⊢
      split at hstep
      · cases hstep
      · exact (ambiguous_of_walk hstep).1

/-- **When every ambiguity of a set of files is real.** Exactly when no segment that gives an
ambiguous edge found, beside modules, items of one id only. -/
theorem ambiguity_real_iff (fragments : Fragments) (crates : Option RustCrates) :
    (∀ e file site i found, (bindings fragments crates).AmbiguousAt fragments e file site i found →
        (bindings fragments crates).Real fragments e file site i) ↔
      ∀ e file site i found, (bindings fragments crates).AmbiguousAt fragments e file site i found →
        ¬ (bindings fragments crates).OneItem fragments found := by
  constructor
  · intro hreal e file site i found h
    exact h.real_iff.mp (hreal e file site i found h)
  · intro hmany e file site i found h
    exact h.real_iff.mpr (hmany e file site i found h)

end Pass

/-! ## A module and a struct of one name -/

/-- Under one condition `Foo` is a module and under the other a struct, and one type
position names it. -/
def moduleOrStruct : Fragments :=
  [("src/lib.rs".toList,
    { items := [⟨"Foo".toList, .mod_, "Foo".toList⟩, ⟨"Foo".toList, .struct_, "Foo-2".toList⟩]
      sites := [{ role := .type_, path := "Foo".toList, line := 9 }] })]

theorem moduleOrStruct_not_real : ¬ ∀ e file site i found,
    (bindings moduleOrStruct none).AmbiguousAt moduleOrStruct e file site i found →
      (bindings moduleOrStruct none).Real moduleOrStruct e file site i := by
  intro hreal
  have hat : (bindings moduleOrStruct none).AmbiguousAt moduleOrStruct
      (.ambiguous "uses-type".toList "src/lib.rs".toList 9 "Foo".toList
        [⟨"src/lib.rs#Foo-2".toList, "src/lib.rs".toList⟩] 1)
      0 { role := .type_, path := "Foo".toList, line := 9 } 0 [.module 1, .def_ 1] :=
    ⟨⟨_, rfl, List.mem_cons_self, by decide⟩, by decide⟩
  obtain ⟨_, _, _, _, _, count, he, hcount, -⟩ := (hreal _ _ _ _ _ hat).candidates
  cases he
  omega

end Devscout.Rust
