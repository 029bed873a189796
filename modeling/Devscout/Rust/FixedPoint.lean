/-
# Devscout.Rust.FixedPoint -- when every leaf binds what it resolves to

A module-level leaf reads other leaves only through modules it logs, and only their
module-level leaves. So the record the worklist keeps is enough: a leaf that is not
waiting resolves to what it is bound to. Block-level leaves change nothing that a
module-level one can see.

What can go wrong is that a count runs out. Leaves may depend on one another in a chain
longer than the rounds allowed, or undo each other for ever; the bindings returned are a
fixed point exactly when neither count cut anything.
-/

import Devscout.Rust.Bind

namespace Devscout.Rust

open Lib Logged

/-! ## What a lookup reads -/

namespace Tables

variable {t : Tables}

/-- A leaf that lookups in a module can read. -/
def Reads (t : Tables) (l module : Nat) : Prop :=
  l < t.leaves.length ∧ (t.leaf l).block = none ∧ (t.leaf l).module = module

theorem mem_leavesWhere {p : Leaf → Bool} {l : Nat} :
    l ∈ t.leavesWhere p ↔ l < t.leaves.length ∧ p (t.leaf l) = true := by
  unfold leavesWhere
  rw [List.mem_filter, List.mem_range]

theorem reads_moduleNamed {module : Nat} {name : Str} {l : Nat}
    (h : l ∈ t.moduleNamed module name) : t.Reads l module := by
  obtain ⟨hl, hp⟩ := mem_leavesWhere.mp h
  simp only [Bool.and_eq_true, Option.isNone_iff_eq_none, beq_iff_eq] at hp
  exact ⟨hl, hp.1.1.1, hp.1.1.2⟩

theorem reads_moduleGlobs {module : Nat} {l : Nat} (h : l ∈ t.moduleGlobs module) :
    t.Reads l module := by
  obtain ⟨hl, hp⟩ := mem_leavesWhere.mp h
  simp only [Bool.and_eq_true, Option.isNone_iff_eq_none, beq_iff_eq] at hp
  exact ⟨hl, hp.1.1, hp.1.2⟩

end Tables

section Congruence

variable {resolved resolved' : List Bound} {leaves : List Nat}

theorem getD_congr (h : ∀ l ∈ leaves, resolved'[l]? = resolved[l]?) :
    ∀ l ∈ leaves, resolved'.getD l {} = resolved.getD l {} := by
  intro l hl
  rw [List.getD_eq_getElem?_getD, List.getD_eq_getElem?_getD, h l hl]

theorem level_congr (h : ∀ l ∈ leaves, resolved'[l]? = resolved[l]?) (found : List Target) (ns : Ns) :
    level found leaves resolved' ns = level found leaves resolved ns := by
  have hget := getD_congr h
  have hfold : ∀ out, leaves.foldl (fun out l => extendUnique out ((resolved'.getD l {}).get ns)) out =
      leaves.foldl (fun out l => extendUnique out ((resolved.getD l {}).get ns)) out := fun out =>
    List.foldl_ext _ _ out fun out l hl => by rw [hget l hl]
  have hany : (leaves.any fun l => (resolved'.getD l {}).isEmpty) =
      leaves.any fun l => (resolved.getD l {}).isEmpty := by
    rw [Bool.eq_iff_iff, List.any_eq_true, List.any_eq_true]
    exact exists_congr fun l => and_congr_right fun hl => by rw [hget l hl]
  unfold level
  rw [hfold, hany]

theorem globTargets_congr (h : ∀ l ∈ leaves, resolved'[l]? = resolved[l]?) :
    globTargets resolved' leaves = globTargets resolved leaves := by
  have hget := getD_congr h
  have hmap : (leaves.map fun g => modulesIn (resolved'.getD g {}).types) =
      leaves.map fun g => modulesIn (resolved.getD g {}).types :=
    List.map_congr_left fun g hg => by rw [hget g hg]
  unfold globTargets
  rw [hmap]

end Congruence

namespace Tables

variable {t : Tables} {resolved resolved' : List Bound}

theorem explicit_framed (module : Nat) (name : Str) (ns : Ns) :
    Framed t.Reads fun resolved => t.explicit resolved module name ns := by
  intro resolved resolved' hagree
  have hleaves : ∀ l ∈ t.moduleNamed module name, resolved'[l]? = resolved[l]? := fun l hl =>
    hagree l module (reads_moduleNamed hl) (List.mem_append_left _ List.mem_cons_self)
  show t.explicit resolved' module name ns = t.explicit resolved module name ns
  unfold explicit
  rw [level_congr hleaves]

theorem moduleGlobs_agree {keys : List Nat} {module : Nat} (hagree : Agree t.Reads keys resolved resolved')
    (h : module ∈ keys) :
    globTargets resolved' (t.moduleGlobs module) = globTargets resolved (t.moduleGlobs module) :=
  globTargets_congr fun l hl => hagree l module (reads_moduleGlobs hl) h

theorem mem_keys_explicit (module : Nat) (name : Str) (ns : Ns) :
    module ∈ (t.explicit resolved module name ns).keys :=
  List.mem_append_left _ List.mem_cons_self

/-- The glob walk looks at a module before it reads that module's globs. -/
theorem globWalk_framed (name : Str) (ns : Ns) (fuel : Nat) (seen queue : List Nat) (g : Globbed) :
    Framed t.Reads fun resolved => t.globWalk resolved name ns fuel seen queue g := by
  induction fuel generalizing seen queue g with
  | zero => exact framed_const t.Reads (pure g)
  | succ fuel ih =>
      unfold globWalk
      cases queue.dropWhile fun m => decide (m ∈ seen ∨ t.size ≤ m) with
      | nil => exact framed_const t.Reads (pure g)
      | cons m rest =>
          apply (explicit_framed m name ns).bind_of
          intro resolved resolved' hknown hagree
          -- only below an empty level is more read, and then the globs of `m`
          cases hlevel : (t.explicit resolved m name ns).value with
          | found v =>
              rw [hlevel] at hagree
              exact ih _ _ _ resolved resolved' hagree
          | shadowed =>
              rw [hlevel] at hagree
              exact ih _ _ _ resolved resolved' hagree
          | empty =>
              have hglobs := moduleGlobs_agree hknown (mem_keys_explicit m name ns)
              rw [hlevel] at hagree
              dsimp only at hagree ⊢
              rw [hglobs]
              exact ih _ _ _ resolved resolved' hagree

theorem inModule_framed (module : Nat) (name : Str) (ns : Ns) (isImport : Bool) :
    Framed t.Reads fun resolved => t.inModule resolved module name ns isImport := by
  unfold inModule
  apply (explicit_framed module name ns).bind_of
  intro resolved resolved' hknown hagree
  cases hlevel : (t.explicit resolved module name ns).value with
  | found v => rfl
  | shadowed => rfl
  | empty =>
      have hglobs := moduleGlobs_agree hknown (mem_keys_explicit module name ns)
      rw [hlevel] at hagree
      dsimp only at hagree ⊢
      by_cases hopaque : t.isOpaque module = true
      · rw [if_pos hopaque, if_pos hopaque]
      · rw [if_neg hopaque, keys_bind] at hagree
        rw [if_neg hopaque, if_neg hopaque]
        unfold throughGlobs at hagree ⊢
        dsimp only at hagree ⊢
        have hwalk := globWalk_framed name ns t.size [] _ _ resolved resolved'
          (hagree.of_subset fun k hk => List.mem_append_left _ hk)
        dsimp only at hwalk
        rw [hglobs, hwalk]

end Tables

/-! ## What a leaf reads -/

namespace Binder

variable {b : Binder}

/-- A path outside any block reads what the modules it logs bind. -/
theorem inScope_framed {site : From} (hblock : site.block = none) (name : Str) (ns : Ns) :
    Framed b.t.Reads fun resolved => b.inScope resolved site name ns := by
  unfold inScope
  rw [hblock]
  apply (framed_const b.t.Reads (pure none)).bind
  intro blocks
  cases blocks with
  | some v => exact framed_const b.t.Reads (pure v)
  | none =>
      apply (Tables.inModule_framed site.module name ns site.isImport).bind
      intro found
      cases found with
      | some v => exact framed_const b.t.Reads (pure v)
      | none => exact framed_const b.t.Reads _

theorem segment_framed {site : From} (hblock : site.block = none) (current : Option Target)
    (name : Str) (ns : Ns) :
    Framed b.t.Reads fun resolved => b.segment resolved site current name ns := by
  unfold segment
  cases current with
  | none =>
      dsimp only
      split
      · exact framed_const b.t.Reads _
      · split
        · exact framed_const b.t.Reads _
        · split
          · exact framed_const b.t.Reads _
          · split
            · exact framed_const b.t.Reads _
            · exact inScope_framed hblock name ns
  | some target =>
      cases target with
      | def_ d => exact framed_const b.t.Reads _
      | module m =>
          dsimp only
          split
          · exact framed_const b.t.Reads _
          · exact (Tables.inModule_framed m name ns false).bind fun found =>
              framed_const b.t.Reads (pure (found.getD []))

theorem walkFrom_framed {site : From} (hblock : site.block = none) (lastNs : Ns)
    (current : Option Target) (segs : List Str) :
    Framed b.t.Reads fun resolved => b.walkFrom resolved site lastNs current segs := by
  induction segs generalizing current with
  | nil => exact framed_const b.t.Reads (pure [])
  | cons seg segs ih =>
      unfold walkFrom
      apply (segment_framed hblock current seg _).bind
      intro found
      match found with
      | [] => exact framed_const b.t.Reads _
      | [one] => exact (ih (some one)).bind fun steps => framed_const b.t.Reads _
      | _ :: _ :: _ => exact framed_const b.t.Reads _

theorem walk_framed {site : From} (hblock : site.block = none) (segs : List Str) (lastNs : Ns) :
    Framed b.t.Reads fun resolved => b.walk resolved site segs lastNs := by
  unfold walk
  split
  · rename_i rest
    cases rest.head?.bind (b.externNamed site.module) with
    | none => exact framed_const b.t.Reads _
    | some root =>
        exact (walkFrom_framed hblock lastNs (some (.module root)) rest.tail).bind fun steps =>
          framed_const b.t.Reads _
  · exact walkFrom_framed hblock lastNs none segs

/-- **A module-level leaf is framed.** What it resolves to depends only on module-level
leaves of modules it logs. -/
theorem resolveLeaf_framed {leaf : Leaf} (hblock : leaf.block = none) :
    Framed b.t.Reads fun resolved => b.resolveLeaf resolved leaf := by
  have htargets : ∀ ns, Framed b.t.Reads fun resolved => b.leafTargets resolved leaf ns := by
    intro ns
    unfold leafTargets
    exact (walk_framed hblock leaf.segments ns).bind fun steps => framed_const b.t.Reads _
  unfold resolveLeaf
  apply (htargets .type).bind
  intro types
  split
  · exact framed_const b.t.Reads _
  · exact (htargets .value).bind fun values => framed_const b.t.Reads _

/-! ## The two loops at rest -/

variable (b)

/-- Every leaf is bound to what it resolves to over the bindings themselves. -/
def FixedPoint (resolved : List Bound) : Prop :=
  ∀ l < b.t.leaves.length, resolved[l]? = some (b.resolveLeaf resolved (b.t.leaf l)).value

/-- The bindings after so many rounds over the block-level leaves. -/
def afterRounds (n : Nat) : List Bound :=
  b.network.rounds b.blockLeaves n (b.afterEvaluations b.budget)

/-- The worklist, left to run, still changes a binding after `n` evaluations. -/
def EvaluationChanges (n : Nat) : Prop := b.afterEvaluations (n + 1) ≠ b.afterEvaluations n

/-- The rounds, left to run, still change a binding after `n` of them. -/
def RoundChanges (n : Nat) : Prop := b.afterRounds (n + 1) ≠ b.afterRounds n

variable {b}

theorem mem_moduleLeaves {l : Nat} :
    l ∈ b.moduleLeaves ↔ l < b.t.leaves.length ∧ (b.t.leaf l).block = none := by
  unfold moduleLeaves
  rw [Tables.mem_leavesWhere, Option.isNone_iff_eq_none]

theorem mem_blockLeaves {l : Nat} :
    l ∈ b.blockLeaves ↔ l < b.t.leaves.length ∧ (b.t.leaf l).block ≠ none := by
  unfold blockLeaves
  rw [Tables.mem_leavesWhere, Option.isSome_iff_ne_none]

theorem nodup_blockLeaves : b.blockLeaves.Nodup := List.nodup_range.filter _

theorem network_framed : b.network.Framed b.moduleLeaves := by
  intro l hl
  exact (resolveLeaf_framed (mem_moduleLeaves.mp hl).2).mono fun c m hc => hc.2.2

theorem tracked_start : b.network.Tracked b.moduleLeaves (Network.start b.unresolved b.moduleLeaves) :=
  Network.tracked_start fun l hl => by
    rw [unresolved, List.length_replicate]
    exact (mem_moduleLeaves.mp hl).1

theorem length_afterEvaluations (n : Nat) : (b.afterEvaluations n).length = b.t.leaves.length := by
  unfold afterEvaluations
  rw [Network.length_values_run]
  exact List.length_replicate

/-- The worklist left every module-level leaf bound to what it resolves to exactly when no
later evaluation changes a binding. -/
theorem moduleLeaves_settled_iff (n : Nat) :
    (∀ l ∈ b.moduleLeaves, b.network.Settled (b.afterEvaluations n) l) ↔
      ∀ m, b.EvaluationChanges m → m < n := by
  have hiff := tracked_start.run_settled_iff (network_framed (b := b)) n
  exact hiff.trans (changes_lt_iff (f := b.afterEvaluations)).symm

theorem blockLeaves_settled_iff (n : Nat) :
    (∀ l ∈ b.blockLeaves, b.network.Settled (b.afterRounds n) l) ↔
      ∀ m, b.RoundChanges m → m < n := by
  have hbounded : ∀ l ∈ b.blockLeaves, l < (b.afterEvaluations b.budget).length := by
    intro l hl
    rw [length_afterEvaluations]
    exact (mem_blockLeaves.mp hl).1
  have hiff := b.network.rounds_settled_iff nodup_blockLeaves hbounded n
  exact hiff.trans (changes_lt_iff (f := b.afterRounds)).symm

/-- Rounds over block-level leaves change nothing for a module-level one. -/
theorem settled_afterRounds_iff {l : Nat} (hl : l ∈ b.moduleLeaves) (n : Nat) :
    b.network.Settled (b.afterRounds n) l ↔ b.network.Settled (b.afterEvaluations b.budget) l := by
  have hother : ∀ c ∈ b.moduleLeaves,
      (b.afterRounds n)[c]? = (b.afterEvaluations b.budget)[c]? := by
    intro c hc
    refine Network.rounds_other (fun hblock => ?_) n _
    exact (mem_blockLeaves.mp hblock).2 (mem_moduleLeaves.mp hc).2
  have heval : b.network.eval (b.afterRounds n) l =
      b.network.eval (b.afterEvaluations b.budget) l := by
    refine resolveLeaf_framed (mem_moduleLeaves.mp hl).2 _ _ fun c m hc _ => ?_
    exact hother c (mem_moduleLeaves.mpr ⟨hc.1, hc.2.1⟩)
  unfold Network.Settled
  rw [hother l hl, heval]

theorem fixedPoint_iff : b.FixedPoint b.resolveLeaves ↔
    (∀ l ∈ b.moduleLeaves, b.network.Settled (b.afterEvaluations b.budget) l) ∧
      ∀ l ∈ b.blockLeaves, b.network.Settled (b.afterRounds ROUNDS) l := by
  constructor
  · intro h
    refine ⟨fun l hl => ?_, fun l hl => h l (mem_blockLeaves.mp hl).1⟩
    exact (settled_afterRounds_iff hl ROUNDS).mp (h l (mem_moduleLeaves.mp hl).1)
  · rintro ⟨hmodules, hblocks⟩ l hl
    by_cases hblock : (b.t.leaf l).block = none
    · have hmem := mem_moduleLeaves.mpr ⟨hl, hblock⟩
      exact (settled_afterRounds_iff hmem ROUNDS).mpr (hmodules l hmem)
    · exact hblocks l (mem_blockLeaves.mpr ⟨hl, hblock⟩)

end Binder

/-- **Import resolution reaches a fixed point exactly when it comes to rest in time**: when
every evaluation that changes a module-level binding is within the budget, and every round
that changes a block-level one is among the eight. -/
theorem resolveLeaves_fixedPoint_iff (fragments : Fragments) (crates : Option RustCrates) :
    (binder fragments crates).FixedPoint (binder fragments crates).resolveLeaves ↔
      (∀ n, (binder fragments crates).EvaluationChanges n → n < (binder fragments crates).budget) ∧
        ∀ n, (binder fragments crates).RoundChanges n → n < Binder.ROUNDS := by
  rw [Binder.fixedPoint_iff, Binder.moduleLeaves_settled_iff, Binder.blockLeaves_settled_iff]

/-! ## A chain longer than the rounds -/

/-- A file with one function and a block that imports it through nine renames, each
written before the one it needs. -/
def chainFile : RsFragment where
  items := [⟨"target".toList, .fn_, "target".toList⟩]
  blocks := [⟨none⟩]
  uses := [("l2", "l1"), ("l3", "l2"), ("l4", "l3"), ("l5", "l4"), ("l6", "l5"), ("l7", "l6"),
    ("l8", "l7"), ("l9", "l8"), ("target", "l9")].map fun (path, name) =>
      ⟨[], some 0, path.toList, name.toList⟩

/-- Eight rounds leave the first import of the chain unbound, and one more would bind it. -/
theorem chain_not_fixedPoint :
    ¬ (binder [("src/lib.rs".toList, chainFile)] none).FixedPoint
      (binder [("src/lib.rs".toList, chainFile)] none).resolveLeaves := by
  intro h
  have hfirst := h 0 (by decide +kernel)
  revert hfirst
  decide +kernel

end Devscout.Rust
