/-
# Devscout.Query.Brakes -- what the brakes hold back, and what they report

Taking the brakes off only adds edges to follow and files to go on through, so it only adds
files, and a file that it adds lies behind an edge or a hub that the braked walk refused and
reported. Not every report stands for something held back: an interface that is inherited
but never used is reported, and so is a hub with nothing new in it.
-/

import Devscout.Query.Guesses

namespace Devscout.Query

open Lib

/-- The settings with both brakes off. -/
def Settings.unbraked (settings : Settings) : Settings :=
  { settings with ifaceMaxFanin := 0, hubMaxIndegree := 0 }

/-! ## What is reported -/

section Reported

variable {index : GraphIndex} {settings : Settings} {seedFiles seedIds : List Str} {w : WalkState}
  {hop hops n : Nat} {more : Bool} {es : List (Str × Hit)} {f name : Str}

theorem braked_settle (hit : Str × Hit) :
    (settle index settings seedFiles hop more w hit).braked = w.braked := by
  obtain ⟨-, -, -, hbraked, -⟩ := rest_recordVisit index settings seedFiles hop w hit
  rcases settle_cases w hit with ⟨ds, heq, -⟩ | ⟨heq, -⟩
  · rw [heq, rest_foldl_openDef.2.1, hbraked]
  · rw [heq]
    exact hbraked

theorem braked_foldl_settle :
    (es.foldl (settle index settings seedFiles hop more) w).braked = w.braked := by
  induction es generalizing w with
  | nil => rfl
  | cons hit es ih => rw [List.foldl_cons, ih, braked_settle]

/-- A hit is refused: it is solid, its file is a hub, and the walk was going on. -/
def Refused (index : GraphIndex) (settings : Settings) (more : Bool) (hit : Str × Hit) : Prop :=
  hit.2.onlyGuessed = false ∧ isHub index settings.hubMaxIndegree hit.1 = true ∧ more = true

theorem mem_brakedFiles_settle (hit : Str × Hit) :
    f ∈ (settle index settings seedFiles hop more w hit).brakedFiles.keys ↔
      f ∈ w.brakedFiles.keys ∨ (hit.1 = f ∧ Refused index settings more hit) := by
  obtain ⟨-, -, -, -, hfiles⟩ := rest_recordVisit index settings seedFiles hop w hit
  unfold settle Refused
  dsimp only
  by_cases hguess : hit.2.onlyGuessed = true
  · rw [if_pos hguess, hfiles]
    simp [hguess]
  · rw [if_neg hguess]
    by_cases hhub : isHub index settings.hubMaxIndegree hit.1 = true
    · rw [if_pos hhub]
      cases more with
      | true =>
          rw [if_pos rfl]
          show f ∈ ((recordVisit index settings seedFiles hop hit.1 hit.2 w).brakedFiles.insert _ _).keys ↔ _
          rw [OrderedMap.mem_keys_insert, hfiles]
          simp [hguess, hhub, eq_comm]
      | false =>
          rw [if_neg (by decide), hfiles]
          simp
    · rw [if_neg hhub, rest_foldl_openDef.2.2, hfiles]
      simp [hhub]

theorem mem_brakedFiles_foldl_settle :
    f ∈ (es.foldl (settle index settings seedFiles hop more) w).brakedFiles.keys ↔
      f ∈ w.brakedFiles.keys ∨ ∃ hit ∈ es, hit.1 = f ∧ Refused index settings more hit := by
  induction es generalizing w with
  | nil => simp
  | cons hit es ih =>
      rw [List.foldl_cons, ih, mem_brakedFiles_settle, List.exists_mem_cons_iff, or_assoc]

theorem mem_braked_round :
    name ∈ (round index settings seedFiles hop more w).braked.keys ↔
      name ∈ w.braked.keys ∨ ∃ d ∈ w.frontier, name ∈ (brakesAt index settings d).map Prod.fst := by
  unfold round
  rw [braked_foldl_settle, OrderedMap.mem_keys_insertAll]
  refine or_congr_right ?_
  simp only [List.map_flatMap, List.mem_flatMap]

theorem mem_brakedFiles_round :
    f ∈ (round index settings seedFiles hop more w).brakedFiles.keys ↔
      f ∈ w.brakedFiles.keys ∨
        ∃ h, (roundHits index settings w).get? f = some h ∧ Refused index settings more (f, h) := by
  unfold round
  rw [mem_brakedFiles_foldl_settle]
  refine or_congr_right ?_
  constructor
  · rintro ⟨⟨g, h⟩, hmem, rfl, hrefused⟩
    exact ⟨h, OrderedMap.get?_eq_some_of_mem hmem, hrefused⟩
  · rintro ⟨h, hhit, hrefused⟩
    exact ⟨(f, h), OrderedMap.mem_of_get?_eq_some hhit, rfl, hrefused⟩

theorem mem_braked_walkAt :
    name ∈ (walkAt index settings seedIds hops n).braked.keys ↔
      ∃ m < n, ∃ d ∈ (walkAt index settings seedIds hops m).frontier,
        name ∈ (brakesAt index settings d).map Prod.fst := by
  induction n with
  | zero => simp [walkAt, startState]
  | succ n ih =>
      rw [walkAt, mem_braked_round, ih]
      simp only [Nat.exists_lt_succ_right]

theorem mem_brakedFiles_walkAt :
    f ∈ (walkAt index settings seedIds hops n).brakedFiles.keys ↔
      ∃ m < n, ∃ h, (hitsAt index settings seedIds hops m).get? f = some h ∧
        Refused index settings (decide (m + 1 < hops)) (f, h) := by
  induction n with
  | zero => simp [walkAt, startState]
  | succ n ih =>
      rw [walkAt, mem_brakedFiles_round, ih]
      simp only [Nat.exists_lt_succ_right]
      rfl

/-- An interface is reported when its brake fires somewhere. -/
theorem exists_braked_iff :
    (∃ b ∈ (impactWalk index seedIds hops settings).braked, b.iface = name) ↔
      ∃ m < hops, ∃ d ∈ (walkAt index settings seedIds hops m).frontier,
        name ∈ (brakesAt index settings d).map Prod.fst := by
  rw [← mem_braked_walkAt]
  have hwalk : rounds index settings (seedFilesOf index seedIds) hops 1 (startState seedIds) =
      walkAt index settings seedIds hops hops := rounds_walkAt (Nat.zero_add hops)
  unfold impactWalk
  dsimp only
  rw [hwalk]
  simp [OrderedMap.keys, (List.perm_insertionSort widestFirst _).mem_iff]

/-- A hub is reported when it is hit in earnest before the last round. -/
theorem exists_brakedFile_iff :
    (∃ b ∈ (impactWalk index seedIds hops settings).brakedFiles, b.file = f) ↔
      isHub index settings.hubMaxIndegree f = true ∧
        ∃ m, m + 1 < hops ∧ ∃ h, (hitsAt index settings seedIds hops m).get? f = some h ∧
          h.onlyGuessed = false := by
  have hwalk : rounds index settings (seedFilesOf index seedIds) hops 1 (startState seedIds) =
      walkAt index settings seedIds hops hops := rounds_walkAt (Nat.zero_add hops)
  have hkeys : (∃ b ∈ (impactWalk index seedIds hops settings).brakedFiles, b.file = f) ↔
      f ∈ (walkAt index settings seedIds hops hops).brakedFiles.keys := by
    unfold impactWalk
    dsimp only
    rw [hwalk]
    simp [OrderedMap.keys, (List.perm_insertionSort widestFirst _).mem_iff]
  rw [hkeys, mem_brakedFiles_walkAt]
  unfold Refused
  constructor
  · rintro ⟨m, -, h, hhit, hsolid, hhub, hmore⟩
    exact ⟨hhub, m, of_decide_eq_true hmore, h, hhit, hsolid⟩
  · rintro ⟨hhub, m, hmore, h, hhit, hsolid⟩
    exact ⟨m, by omega, h, hhit, hsolid, hhub, decide_eq_true hmore⟩

end Reported

/-! ## What the brakes refuse -/

section Refusing

variable (graph : Graph) (opts : IndexOptions) (settings : Settings)

/-- A reference to the definition through the interface is one the brake skips: an injection
behind it, or a use of an interface of that name that the definition implements. -/
inductive SkippedAt (d name : Str) : Prop
  | injection {fromFile : Str} {fromLine : Nat}
      (he : .ctorDi fromFile fromLine name (some d) ∈ graph.edges)
  | use {iface : Str} {e : Edge}
      (himpl : iface ∈ (loadGraphIndexWith graph opts).implementedInterfaces d)
      (hname : ifaceName (loadGraphIndexWith graph opts) iface = name)
      (he : e ∈ graph.edges) (h : UsesPrecisely iface e)

variable {graph opts settings} {d e f name : Str} {solid : Bool} {hop : Option BusOrigin}

/-- The brake of a name fires at a definition that is injected behind it, or that implements
an interface of that name which something refers to. -/
theorem mem_brakesAt_iff :
    name ∈ (brakesAt (loadGraphIndexWith graph opts) settings d).map Prod.fst ↔
      settings.iface = true ∧
      brakeFanin (loadGraphIndexWith graph opts) settings.ifaceMaxFanin name ≠ none ∧
      ((∃ fromFile fromLine, .ctorDi fromFile fromLine name (some d) ∈ graph.edges) ∨
        ∃ iface ∈ (loadGraphIndexWith graph opts).implementedInterfaces d,
          ifaceName (loadGraphIndexWith graph opts) iface = name ∧
          ∃ e ∈ graph.edges, Precise opts iface e) := by
  unfold brakesAt referredInterfaces
  by_cases hiface : settings.iface = true
  · rw [if_pos hiface, List.map_append, List.mem_append]
    simp only [List.mem_map, List.mem_filterMap, List.mem_filter, has_inbound_iff]
    constructor
    · -- an interface is braked where it is injected or where it is referred to
      rintro (⟨x, ⟨e, he, hx⟩, rfl⟩ | ⟨x, ⟨iface, ⟨himpl, hreferred⟩, hx⟩, rfl⟩)
      · obtain ⟨hmem, fromFile, fromLine, iface, rfl⟩ := mem_ctorDiByTo.mp he
        obtain ⟨fanin, hfanin, rfl⟩ := Option.map_eq_some_iff.mp hx
        exact ⟨hiface, by rw [hfanin]; exact Option.some_ne_none _, Or.inl ⟨_, _, hmem⟩⟩
      · obtain ⟨fanin, hfanin, rfl⟩ := Option.map_eq_some_iff.mp hx
        exact ⟨hiface, by rw [hfanin]; exact Option.some_ne_none _, Or.inr ⟨iface, himpl, rfl, hreferred⟩⟩
    · rintro ⟨-, hbrake, hat⟩
      obtain ⟨fanin, hfanin⟩ := Option.ne_none_iff_exists'.mp hbrake
      rcases hat with ⟨fromFile, fromLine, hmem⟩ | ⟨iface, himpl, rfl, hreferred⟩
      · refine Or.inl ⟨(name, fanin), ⟨_, mem_ctorDiByTo.mpr ⟨hmem, _, _, _, rfl⟩, ?_⟩, rfl⟩
        dsimp only
        rw [hfanin]
        rfl
      · refine Or.inr ⟨(_, fanin), ⟨iface, ⟨himpl, hreferred⟩, ?_⟩, rfl⟩
        rw [hfanin]
        rfl
  · rw [if_neg hiface]
    simp [hiface]

/-- Where a brake holds an edge back, it fires. -/
theorem refers_or_brakesAt (h : Refers graph opts settings.unbraked d f solid hop) :
    Refers graph opts settings d f solid hop ∨
      ∃ name, name ∈ (brakesAt (loadGraphIndexWith graph opts) settings d).map Prod.fst := by
  cases h with
  | precise he h hfile => exact Or.inl (.precise he h hfile)
  | ambiguous he h => exact Or.inl (.ambiguous he h)
  | handles he hbus hfile => exact Or.inl (.handles he hbus hfile)
  | @injects fromLine iface he hiface _ =>
      by_cases hbrake : brakeFanin (loadGraphIndexWith graph opts) settings.ifaceMaxFanin iface = none
      · exact Or.inl (.injects he hiface hbrake)
      · exact Or.inr ⟨iface, mem_brakesAt_iff.mpr ⟨hiface, hbrake, Or.inl ⟨_, _, he⟩⟩⟩
  | @interface iface e he h hfile hiface himpl _ =>
      by_cases hbrake : brakeFanin (loadGraphIndexWith graph opts) settings.ifaceMaxFanin
          (ifaceName (loadGraphIndexWith graph opts) iface) = none
      · exact Or.inl (.interface he h hfile hiface himpl hbrake)
      · exact Or.inr ⟨_, mem_brakesAt_iff.mpr
          ⟨hiface, hbrake, Or.inr ⟨iface, himpl, rfl, e, he, h.precise⟩⟩⟩
  | guess he h hfile => exact Or.inl (.guess he h hfile)

/-- With the brakes off every edge is still there. -/
theorem Refers.unbraked (h : Refers graph opts settings d f solid hop) :
    Refers graph opts settings.unbraked d f solid hop := by
  cases h with
  | precise he h hfile => exact .precise he h hfile
  | ambiguous he h => exact .ambiguous he h
  | handles he hbus hfile => exact .handles he hbus hfile
  | injects he hiface _ => exact .injects he hiface rfl
  | interface he h hfile hiface himpl _ => exact .interface he h hfile hiface himpl rfl
  | guess he h hfile => exact .guess he h hfile

theorem isHub_unbraked {index : GraphIndex}
    (h : isHub index settings.hubMaxIndegree f = false) :
    isHub index settings.unbraked.hubMaxIndegree f = false := by
  unfold isHub at h ⊢
  rw [Bool.or_eq_false_iff] at h
  rw [h.1]
  rfl

theorem Step.unbraked (h : Step graph opts settings d e) : Step graph opts settings.unbraked d e := by
  obtain ⟨f, ⟨hop, hrefers⟩, hhub, hdeclares⟩ := h
  exact ⟨f, ⟨hop, hrefers.unbraked⟩, isHub_unbraked hhub, hdeclares⟩

variable {seedIds : List Str} {hops n : Nat}

theorem ReachedIn.unbraked (h : ReachedIn graph opts settings seedIds n f) :
    ReachedIn graph opts settings.unbraked seedIds n f := by
  obtain ⟨m, rfl, d, hchain, solid, hop, hrefers⟩ := h
  exact ⟨m, rfl, d, hchain.mono (fun _ => id) (fun _ _ => Step.unbraked), solid, hop, hrefers.unbraked⟩

end Refusing

/-! ## Nothing narrows in silence -/

section Narrowing

variable (graph : Graph) (opts : IndexOptions) (settings : Settings) (seedIds : List Str) (hops : Nat)

/-- What the brakes owe their reader: a file that only the walk without them visits shows in
a report, no file is visited sooner than without them, and every report stands for something
held back at the point of the walk where its brake fired. -/
structure NarrowingTold : Prop where
  told : ∀ f,
    (∃ v, (impactWalk (loadGraphIndexWith graph opts) seedIds hops settings.unbraked).visited.get? f = some v) →
    (impactWalk (loadGraphIndexWith graph opts) seedIds hops settings).visited.get? f = none →
    (impactWalk (loadGraphIndexWith graph opts) seedIds hops settings).braked ≠ [] ∨
      (impactWalk (loadGraphIndexWith graph opts) seedIds hops settings).brakedFiles ≠ []
  sooner : ∀ f v,
    (impactWalk (loadGraphIndexWith graph opts) seedIds hops settings).visited.get? f = some v →
    ∃ v', (impactWalk (loadGraphIndexWith graph opts) seedIds hops settings.unbraked).visited.get? f =
      some v' ∧ v'.hop ≤ v.hop
  ifaces : ∀ b ∈ (impactWalk (loadGraphIndexWith graph opts) seedIds hops settings).braked,
    ∃ m < hops, ∃ d ∈ (walkAt (loadGraphIndexWith graph opts) settings seedIds hops m).frontier,
      SkippedAt graph opts d b.iface
  files : ∀ b ∈ (impactWalk (loadGraphIndexWith graph opts) seedIds hops settings).brakedFiles,
    ∃ m, m + 1 < hops ∧
      (∃ h, (hitsAt (loadGraphIndexWith graph opts) settings seedIds hops m).get? b.file = some h ∧
        h.onlyGuessed = false) ∧
      ∃ x ∈ (loadGraphIndexWith graph opts).byFile b.file,
        x.id ∉ (walkAt (loadGraphIndexWith graph opts) settings seedIds hops m).seenDefs

/-- Every brake in reach has something to hold back: an interface over the bound that a
definition in reach implements and something refers to is injected or used, and a hub in
reach declares something that no shorter chain leads to. -/
structure BrakesHold : Prop where
  ifaces : ∀ n < hops, ∀ d, Chain (· ∈ seedIds) (Step graph opts settings) n d →
    settings.iface = true →
    ∀ iface ∈ (loadGraphIndexWith graph opts).implementedInterfaces d,
    ∀ e ∈ graph.edges, Precise opts iface e →
    brakeFanin (loadGraphIndexWith graph opts) settings.ifaceMaxFanin
      (ifaceName (loadGraphIndexWith graph opts) iface) ≠ none →
    ∃ m < hops, ∃ d', Chain (· ∈ seedIds) (Step graph opts settings) m d' ∧
      SkippedAt graph opts d' (ifaceName (loadGraphIndexWith graph opts) iface)
  files : ∀ n < hops, ∀ f, SolidIn graph opts settings seedIds n f →
    isHub (loadGraphIndexWith graph opts) settings.hubMaxIndegree f = true →
    ∃ m < hops, SolidIn graph opts settings seedIds m f ∧
      ∃ d, Declares graph f d ∧ ∀ k < m, ¬ Chain (· ∈ seedIds) (Step graph opts settings) k d

variable {graph opts settings seedIds hops} {n m : Nat} {d f name : Str}

/-- What holds at some definition of a frontier holds at the end of some chain. -/
theorem exists_frontier_iff {P : Str → Prop} :
    (∃ m < n, ∃ d ∈ (walkAt (loadGraphIndexWith graph opts) settings seedIds hops m).frontier, P d) ↔
      ∃ m < n, ∃ d, Chain (· ∈ seedIds) (Step graph opts settings) m d ∧ P d := by
  simp only [searched_walkAt.frontier_iff]
  constructor
  · rintro ⟨m, hlt, d, hlayer, hd⟩
    exact ⟨m, hlt, d, hlayer.1, hd⟩
  · rintro ⟨m, hlt, d, hchain, hd⟩
    obtain ⟨k, hle, hlayer⟩ := hchain.exists_layer
    exact ⟨k, by omega, d, hlayer, hd⟩

/-- A file is hit in earnest when a definition of the layer refers to it by a solid edge. -/
theorem exists_solidHit_iff :
    (∃ h, (hitsAt (loadGraphIndexWith graph opts) settings seedIds hops m).get? f = some h ∧
        h.onlyGuessed = false) ↔
      LayerTouches (· ∈ seedIds) (Step graph opts settings) (SolidTouch graph opts settings) m f := by
  have hlayer : ∀ h, (hitsAt (loadGraphIndexWith graph opts) settings seedIds hops m).get? f = some h →
      (h.onlyGuessed = false ↔
        LayerTouches (· ∈ seedIds) (Step graph opts settings) (SolidTouch graph opts settings) m f) := by
    intro h hhit
    refine (not_onlyGuessed_iff hhit).trans ?_
    simp only [searched_walkAt.frontier_iff]
    rfl
  constructor
  · rintro ⟨h, hhit, hsolid⟩
    exact (hlayer h hhit).mp hsolid
  · intro htouch
    obtain ⟨d, hd, hop, hrefers⟩ := htouch
    obtain ⟨h, hhit⟩ := exists_hitsAt_iff.mpr ⟨d, hd, true, hop, hrefers⟩
    exact ⟨h, hhit, (hlayer h hhit).mpr ⟨d, hd, hop, hrefers⟩⟩

theorem mem_seenDefs_iff :
    d ∈ (walkAt (loadGraphIndexWith graph opts) settings seedIds hops m).seenDefs ↔
      ∃ k ≤ m, Chain (· ∈ seedIds) (Step graph opts settings) k d := by
  refine (searched_walkAt.seen_iff d).trans ?_
  constructor
  · rintro ⟨k, hle, hk⟩
    exact ⟨k, hle, hk.1⟩
  · rintro ⟨k, hle, hk⟩
    obtain ⟨j, hj, hlayer⟩ := hk.exists_layer
    exact ⟨j, by omega, hlayer⟩

/-- With no interface reported, no edge of a definition in reach is held back. -/
theorem Refers.of_unbraked {solid : Bool} {hop : Option BusOrigin}
    (hbraked : (impactWalk (loadGraphIndexWith graph opts) seedIds hops settings).braked = [])
    (hn : n < hops) (hchain : Chain (· ∈ seedIds) (Step graph opts settings) n d)
    (h : Refers graph opts settings.unbraked d f solid hop) : Refers graph opts settings d f solid hop := by
  refine (refers_or_brakesAt h).resolve_right ?_
  rintro ⟨name, hname⟩
  obtain ⟨b, hb, -⟩ := exists_braked_iff.mpr
    (exists_frontier_iff.mpr ⟨n, hn, d, hchain, hname⟩)
  rw [hbraked] at hb
  cases hb

/-- A hub that a chain reaches in earnest before the last round is reported. -/
theorem SolidIn.exists_brakedFile (h : SolidIn graph opts settings seedIds n f) (hn : n < hops)
    (hhub : isHub (loadGraphIndexWith graph opts) settings.hubMaxIndegree f = true) :
    ∃ b ∈ (impactWalk (loadGraphIndexWith graph opts) seedIds hops settings).brakedFiles, b.file = f := by
  obtain ⟨m, rfl, hsolid⟩ := h
  obtain ⟨k, hle, hlayer⟩ := hsolid.exists_layer
  have hlt : k + 1 < hops := by omega
  exact exists_brakedFile_iff.mpr ⟨hhub, k, hlt, exists_solidHit_iff.mpr hlayer⟩

/-- With nothing reported, every chain of the walk without brakes is one of the walk with
them, as far as its files are gone on through. -/
theorem chain_of_unbraked
    (hbraked : (impactWalk (loadGraphIndexWith graph opts) seedIds hops settings).braked = [])
    (hfiles : (impactWalk (loadGraphIndexWith graph opts) seedIds hops settings).brakedFiles = [])
    (h : Chain (· ∈ seedIds) (Step graph opts settings.unbraked) n d) (hn : n < hops) :
    Chain (· ∈ seedIds) (Step graph opts settings) n d := by
  induction h with
  | here hseed => exact .here hseed
  | @next n d e _ hstep ih =>
      have hchain := ih (by omega)
      obtain ⟨f, ⟨hop, hrefers⟩, -, hdeclares⟩ := hstep
      have hbraked' := hrefers.of_unbraked hbraked (by omega) hchain
      refine .next hchain ⟨f, ⟨hop, hbraked'⟩, ?_, hdeclares⟩
      -- a hub here would have been hit in earnest, a round before the last
      rw [Bool.eq_false_iff]
      intro hhub
      have hsolid : SolidIn graph opts settings seedIds (n + 1) f := ⟨n, rfl, d, hchain, hop, hbraked'⟩
      obtain ⟨b, hb, -⟩ := hsolid.exists_brakedFile hn hhub
      rw [hfiles] at hb
      cases hb

/-- A file that only the walk without brakes visits shows in a report. -/
theorem told_impactWalk
    (hvisited : ∃ v, (impactWalk (loadGraphIndexWith graph opts) seedIds hops
      settings.unbraked).visited.get? f = some v)
    (hbraked : (impactWalk (loadGraphIndexWith graph opts) seedIds hops settings).visited.get? f = none) :
    (impactWalk (loadGraphIndexWith graph opts) seedIds hops settings).braked ≠ [] ∨
      (impactWalk (loadGraphIndexWith graph opts) seedIds hops settings).brakedFiles ≠ [] := by
  by_contra hsilent
  rw [not_or, not_ne_iff, not_ne_iff] at hsilent
  obtain ⟨hifaces, hfiles⟩ := hsilent
  obtain ⟨hseed, n, hle, m, rfl, d, hchain, solid, hop, hrefers⟩ := exists_visited_iff.mp hvisited
  have hchain' := chain_of_unbraked hifaces hfiles hchain (by omega)
  obtain ⟨v, hv⟩ := exists_visited_iff.mpr
    ⟨hseed, m + 1, hle, m, rfl, d, hchain', solid, hop, hrefers.of_unbraked hifaces (by omega) hchain'⟩
  rw [hbraked] at hv
  cases hv

/-- A file is visited no sooner with the brakes on. -/
theorem sooner_impactWalk {v : VisitedEntry}
    (hv : (impactWalk (loadGraphIndexWith graph opts) seedIds hops settings).visited.get? f = some v) :
    ∃ v', (impactWalk (loadGraphIndexWith graph opts) seedIds hops settings.unbraked).visited.get? f =
      some v' ∧ v'.hop ≤ v.hop := by
  obtain ⟨hseed, n, hle, hreached⟩ := exists_visited_iff.mp ⟨v, hv⟩
  obtain ⟨v', hv'⟩ := exists_visited_iff.mpr ⟨hseed, n, hle, hreached.unbraked⟩
  refine ⟨v', hv', Nat.le_of_not_lt fun hlt => ?_⟩
  exact (hop_of_visited hv').2 _ hlt (hop_of_visited hv).1.unbraked

theorem braked_ifaces_iff :
    (∀ b ∈ (impactWalk (loadGraphIndexWith graph opts) seedIds hops settings).braked,
      ∃ m < hops, ∃ d ∈ (walkAt (loadGraphIndexWith graph opts) settings seedIds hops m).frontier,
        SkippedAt graph opts d b.iface) ↔
    ∀ name, (∃ m < hops, ∃ d, Chain (· ∈ seedIds) (Step graph opts settings) m d ∧
        name ∈ (brakesAt (loadGraphIndexWith graph opts) settings d).map Prod.fst) →
      ∃ m < hops, ∃ d, Chain (· ∈ seedIds) (Step graph opts settings) m d ∧ SkippedAt graph opts d name := by
  constructor
  · intro h name hat
    obtain ⟨b, hb, rfl⟩ := exists_braked_iff.mpr (exists_frontier_iff.mpr hat)
    exact exists_frontier_iff.mp (h b hb)
  · exact fun h b hb => exists_frontier_iff.mpr
      (h b.iface (exists_frontier_iff.mp (exists_braked_iff.mp ⟨b, hb, rfl⟩)))

theorem braked_files_iff :
    (∀ b ∈ (impactWalk (loadGraphIndexWith graph opts) seedIds hops settings).brakedFiles,
      ∃ m, m + 1 < hops ∧
        (∃ h, (hitsAt (loadGraphIndexWith graph opts) settings seedIds hops m).get? b.file = some h ∧
          h.onlyGuessed = false) ∧
        ∃ x ∈ (loadGraphIndexWith graph opts).byFile b.file,
          x.id ∉ (walkAt (loadGraphIndexWith graph opts) settings seedIds hops m).seenDefs) ↔
    ∀ n < hops, ∀ f, SolidIn graph opts settings seedIds n f →
      isHub (loadGraphIndexWith graph opts) settings.hubMaxIndegree f = true →
      ∃ m < hops, SolidIn graph opts settings seedIds m f ∧
        ∃ d, Declares graph f d ∧ ∀ k < m, ¬ Chain (· ∈ seedIds) (Step graph opts settings) k d := by
  constructor
  · intro h n hn f hsolid hhub
    obtain ⟨b, hb, rfl⟩ := hsolid.exists_brakedFile hn hhub
    obtain ⟨j, hj, hhit, x, hx, hnew⟩ := h b hb
    refine ⟨j + 1, hj, ⟨j, rfl, (exists_solidHit_iff.mp hhit).touched⟩, x.id,
      exists_byFile_iff.mp ⟨x, hx, rfl⟩, fun i hi hchain => ?_⟩
    exact hnew (mem_seenDefs_iff.mpr ⟨i, by omega, hchain⟩)
  · intro h b hb
    obtain ⟨hhub, j, hj, hhit⟩ := exists_brakedFile_iff.mp ⟨b, hb, rfl⟩
    obtain ⟨m, hm, ⟨i, rfl, hsolid⟩, d, hdeclares, hnew⟩ :=
      h (j + 1) hj b.file ⟨j, rfl, (exists_solidHit_iff.mp hhit).touched⟩ hhub
    -- the walk hits the file at its first solid hop, which is no later
    obtain ⟨k, hle, hlayer⟩ := hsolid.exists_layer
    obtain ⟨x, hx, rfl⟩ := exists_byFile_iff.mpr hdeclares
    refine ⟨k, by omega, exists_solidHit_iff.mpr hlayer, x, hx, fun hseen => ?_⟩
    obtain ⟨i', hi', hchain⟩ := mem_seenDefs_iff.mp hseen
    exact hnew i' (by omega) hchain

/-- **When narrowing is told as it is.** No file is lost in silence or visited too soon; the
reports are right if and only if every brake in reach has something to hold back. -/
theorem narrowingTold_iff (graph : Graph) (opts : IndexOptions) (settings : Settings)
    (seedIds : List Str) (hops : Nat) :
    NarrowingTold graph opts settings seedIds hops ↔ BrakesHold graph opts settings seedIds hops := by
  constructor
  · rintro ⟨-, -, hifaces, hfiles⟩
    refine ⟨fun n hn d hchain hiface iface himpl e he hprecise hbrake => ?_, braked_files_iff.mp hfiles⟩
    refine braked_ifaces_iff.mp hifaces _ ⟨n, hn, d, hchain, mem_brakesAt_iff.mpr ⟨hiface, hbrake, ?_⟩⟩
    exact Or.inr ⟨iface, himpl, rfl, e, he, hprecise⟩
  · rintro ⟨hifaces, hfiles⟩
    refine ⟨fun f => told_impactWalk, fun f v => sooner_impactWalk, braked_ifaces_iff.mpr ?_,
      braked_files_iff.mpr hfiles⟩
    rintro name ⟨n, hn, d, hchain, hbrakes⟩
    obtain ⟨hiface, hbrake, hat⟩ := mem_brakesAt_iff.mp hbrakes
    rcases hat with ⟨fromFile, fromLine, he⟩ | ⟨iface, himpl, rfl, e, he, hprecise⟩
    · exact ⟨n, hn, d, hchain, .injection he⟩
    · exact hifaces n hn d hchain hiface iface himpl e he hprecise hbrake

end Narrowing

/-! ## A report of nothing -/

/-- `Program.cs` has top-level statements that use `Core`, and declares nothing. -/
def emptyHub : Graph where
  defs := [⟨"Core".toList, "Core".toList, "class".toList, "core.cs".toList, [], []⟩]
  edges := [.usesType "Program.cs".toList 3 "Core".toList "core.cs".toList false]
  unitIsTest := fun _ => false

/-- The file is reported as a hub that was not gone on through, with nothing to go on to. -/
theorem emptyHub_not_told :
    ¬ NarrowingTold emptyHub ⟨true, true, true⟩ ⟨true, 8, 34⟩ ["Core".toList] 2 := by
  intro h
  have hreported : (impactWalk (loadGraphIndexWith emptyHub ⟨true, true, true⟩) ["Core".toList] 2
      ⟨true, 8, 34⟩).brakedFiles = [⟨"Program.cs".toList, 0⟩] := by decide +kernel
  have hdeclares : (loadGraphIndexWith emptyHub ⟨true, true, true⟩).byFile "Program.cs".toList = [] := by
    decide +kernel
  obtain ⟨m, -, -, x, hx, -⟩ := h.files ⟨"Program.cs".toList, 0⟩
    (by rw [hreported]; exact List.mem_singleton_self _)
  rw [hdeclares] at hx
  cases hx

end Devscout.Query
