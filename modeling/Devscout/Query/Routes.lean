/-
# Devscout.Query.Routes -- which rows are possible routes only

A chain that crosses a message bus shows a possible route, and what it carries is the last
bus hop it crossed. A row is to be marked when every chain within the bound crosses a bus
hop, and then with the least that one of them carries. The walk fixes the mark of a file in
the first round that reaches it, and what a definition carries at the first file that opens
it, with the guesses at that file counted in. So the marks are right when the files through
which a definition is first reached agree, and when no longer chain knows better.
-/

import Devscout.Query.Refs

namespace Devscout.Query

open Lib

/-! ## Ways and what they carry -/

section Ways

variable (graph : Graph) (opts : IndexOptions) (settings : Settings) (seedIds : List Str)

/-- A step of a chain, with the bus hop it is. -/
def CrossStep (d e : Str) (hop : Option BusOrigin) : Prop :=
  ∃ f, Refers graph opts settings d f true hop ∧
    isHub (loadGraphIndexWith graph opts) settings.hubMaxIndegree f = false ∧ Declares graph f e

/-- A chain of `n` steps leads to the definition and carries `o`. -/
def Carries (n : Nat) (d : Str) (o : Option BusOrigin) : Prop :=
  Carried (· ∈ seedIds) (CrossStep graph opts settings) n d o

/-- A chain of `m + 1` steps leads to the file and carries `o`. -/
def Way (m : Nat) (f : Str) (o : Option BusOrigin) : Prop :=
  ∃ d hop o', (∃ solid, Refers graph opts settings d f solid hop) ∧
    Carries graph opts settings seedIds m d o' ∧ o = hop.or o'

/-- A way that is shortest up to its last step. -/
def FirstWay (m : Nat) (f : Str) (o : Option BusOrigin) : Prop :=
  ∃ d hop o', (Layer (· ∈ seedIds) (Step graph opts settings) m d ∧
      ∃ solid, Refers graph opts settings d f solid hop) ∧
    Carries graph opts settings seedIds m d o' ∧ o = hop.or o'

/-- What a row is to say: it is marked when every way crosses a bus hop, and then with the
least that one carries. -/
structure RowExact (hops : Nat) (f : Str) (row : ImpactRow) : Prop where
  busOnly : row.busOnly = true ↔ ∀ m < hops, ∀ o, Way graph opts settings seedIds m f o → o ≠ none
  busOrigin : row.busOnly = true → ∃ o, row.busOrigin = some o ∧
    (∃ m < hops, Way graph opts settings seedIds m f (some o)) ∧
    ∀ m < hops, ∀ o', Way graph opts settings seedIds m f (some o') → o ≤ o'

/-- The files through which a definition is first reached all say of the bus what the
shortest chains to the definition carry, and no guess at them says otherwise. -/
def OpenersAgree (hops : Nat) : Prop :=
  ∀ m, m + 1 < hops → ∀ e, Layer (· ∈ seedIds) (Step graph opts settings) (m + 1) e →
    ∀ f, LayerTouches (· ∈ seedIds) (Step graph opts settings) (SolidTouch graph opts settings) m f →
    isHub (loadGraphIndexWith graph opts) settings.hubMaxIndegree f = false → Declares graph f e →
    ∀ r, Verdict (FirstWay graph opts settings seedIds m f) r →
      Verdict (Carries graph opts settings seedIds (m + 1) e) r

/-- The shortest chains to a file decide: no longer one within the bound avoids the bus where
they all cross it, or carries a lesser hop. -/
def FirstChainsDecide (hops : Nat) : Prop :=
  ∀ f, f ∉ seedFilesOf (loadGraphIndexWith graph opts) seedIds → ∀ m < hops,
    (∀ k < m, ¬ ReachedIn graph opts settings seedIds (k + 1) f) →
    ∀ r, Verdict (Way graph opts settings seedIds m f) r →
      Verdict (fun o => ∃ k < hops, Way graph opts settings seedIds k f o) r

end Ways

/-! ## What a round knows -/

section Taints

variable {graph : Graph} {opts : IndexOptions} {settings : Settings} {seedIds seedFiles : List Str}
  {index : GraphIndex} {w : WalkState} {ds : List Def} {es : List (Str × Hit)} {h : Hit} {d f : Str}
  {origin o : Option BusOrigin} {hop hops m : Nat} {more : Bool}

/-- A definition that was seen keeps what it carries. -/
theorem defTaint_foldl_openDef_of_mem (hd : d ∈ w.seenDefs) :
    (ds.foldl (openDef h) w).defTaint.get? d = w.defTaint.get? d := by
  induction ds generalizing w with
  | nil => rfl
  | cons x ds ih =>
      rw [List.foldl_cons]
      by_cases hx : x.id ∈ w.seenDefs
      · rw [show openDef h w x = w from if_pos hx, ih hd]
      · have hne : d ≠ x.id := fun heq => hx (heq ▸ hd)
        have hopen : (openDef h w x).defTaint.get? d = w.defTaint.get? d ∧ d ∈ (openDef h w x).seenDefs := by
          unfold openDef
          rw [if_neg hx]
          exact ⟨(OrderedMap.get?_insert ..).trans (if_neg hne), List.mem_append_left _ hd⟩
        rw [ih hopen.2, hopen.1]

/-- A new one is given what the file says of the bus. -/
theorem defTaint_foldl_openDef (hd : d ∉ w.seenDefs) (hex : ∃ x ∈ ds, x.id = d) :
    (ds.foldl (openDef h) w).defTaint.get? d = some h.taint := by
  induction ds generalizing w with
  | nil =>
      obtain ⟨x, hx, -⟩ := hex
      cases hx
  | cons x ds ih =>
      rw [List.foldl_cons]
      by_cases hdx : x.id = d
      · -- the first of that id opens it, and those after it find it open
        subst hdx
        have hopen : (openDef h w x).defTaint.get? x.id = some h.taint ∧
            x.id ∈ (openDef h w x).seenDefs := by
          unfold openDef
          rw [if_neg hd]
          exact ⟨(OrderedMap.get?_insert ..).trans (if_pos rfl),
            List.mem_append_right _ (List.mem_singleton_self _)⟩
        rw [defTaint_foldl_openDef_of_mem hopen.2, hopen.1]
      · obtain ⟨y, hy, rfl⟩ := hex
        have hmem : y ∈ ds := (List.mem_cons.mp hy).resolve_left fun heq => hdx (heq ▸ rfl)
        refine ih (fun hseen => ?_) ⟨y, hmem, rfl⟩
        unfold openDef at hseen
        split at hseen
        · exact hd hseen
        · rcases List.mem_append.mp hseen with hseen | hseen
          · exact hd hseen
          · exact hdx (List.mem_singleton.mp hseen).symm

theorem defTaint_settle_of_mem {hit : Str × Hit} (hd : d ∈ w.seenDefs) :
    (settle index settings seedFiles hop more w hit).defTaint.get? d = w.defTaint.get? d := by
  obtain ⟨hseen, -, htaint, -, -⟩ := rest_recordVisit index settings seedFiles hop w hit
  rcases settle_cases w hit with ⟨ds, heq, -⟩ | ⟨heq, -⟩
  · rw [heq, defTaint_foldl_openDef_of_mem (hseen ▸ hd), htaint]
  · rw [heq]
    show (recordVisit index settings seedFiles hop hit.1 hit.2 w).defTaint.get? d = _
    rw [htaint]

theorem defTaint_settle {hit : Str × Hit} (hd : d ∉ w.seenDefs) (hopens : Opens index settings hit d) :
    (settle index settings seedFiles hop more w hit).defTaint.get? d = some hit.2.taint := by
  obtain ⟨hseen, -, -, -, -⟩ := rest_recordVisit index settings seedFiles hop w hit
  rcases settle_cases w hit with ⟨ds, heq, hds⟩ | ⟨-, -, hhub, -⟩
  · rw [heq, defTaint_foldl_openDef (hseen ▸ hd) ((hds d).mpr hopens)]
  · exact absurd (hhub.symm.trans hopens.2.1) (by decide)

theorem defTaint_foldl_settle_of_mem (hd : d ∈ w.seenDefs) :
    (es.foldl (settle index settings seedFiles hop more) w).defTaint.get? d = w.defTaint.get? d := by
  induction es generalizing w with
  | nil => rfl
  | cons hit es ih =>
      rw [List.foldl_cons, ih ((seenDefs_settle hit).mpr (Or.inl hd)), defTaint_settle_of_mem hd]

/-- What a round opens carries what some hit that opens it says of the bus. -/
theorem opened_foldl_settle (hd : d ∈ (es.foldl (settle index settings seedFiles hop more) w).seenDefs)
    (hnew : d ∉ w.seenDefs) : ∃ hit ∈ es, Opens index settings hit d ∧
      (es.foldl (settle index settings seedFiles hop more) w).defTaint.get? d = some hit.2.taint := by
  induction es generalizing w with
  | nil => exact absurd hd hnew
  | cons hit es ih =>
      rw [List.foldl_cons] at hd ⊢
      by_cases hopens : Opens index settings hit d
      · refine ⟨hit, List.mem_cons_self, hopens, ?_⟩
        rw [defTaint_foldl_settle_of_mem ((seenDefs_settle hit).mpr (Or.inr hopens)),
          defTaint_settle hnew hopens]
      · have hnew' : d ∉ (settle index settings seedFiles hop more w hit).seenDefs := by
          rw [seenDefs_settle]
          exact not_or.mpr ⟨hnew, hopens⟩
        obtain ⟨hit', hmem, hrest⟩ := ih hd hnew'
        exact ⟨hit', List.mem_cons_of_mem hit hmem, hrest⟩

/-- The touches of a definition carry what it carries. -/
theorem origin_of_mem_touches {t : Touch} (ht : t ∈ touches index settings d origin) : t.origin = origin := by
  unfold touches at ht
  simp only [List.mem_append, or_assoc] at ht
  -- the five lists of touches, each made with the origin it is given
  rcases ht with ht | ht | ht | ht | ht
  · obtain ⟨slot, -, ht⟩ := List.mem_flatMap.mp ht
    obtain ⟨e, -, rfl⟩ := List.mem_map.mp ht
    rfl
  · obtain ⟨e, -, rfl⟩ := List.mem_map.mp ht
    rfl
  · obtain ⟨file, -, ht⟩ := List.mem_flatMap.mp ht
    obtain ⟨e, -, het⟩ := List.mem_filterMap.mp ht
    split at het
    · cases het
      rfl
    · cases het
  · split at ht
    · rcases List.mem_append.mp ht with ht | ht
      · obtain ⟨e, -, het⟩ := List.mem_filterMap.mp ht
        split at het
        · split at het
          · cases het
          · cases het
            rfl
        · cases het
      · obtain ⟨r, -, rfl⟩ := List.mem_map.mp ht
        rfl
    · cases ht
  · obtain ⟨slot, -, ht⟩ := List.mem_flatMap.mp ht
    obtain ⟨e, -, rfl⟩ := List.mem_map.mp ht
    rfl

end Taints

/-! ## What a hit says of the bus -/

section Verdicts

variable {graph : Graph} {opts : IndexOptions} {settings : Settings} {seedIds : List Str}
  {d e f : Str} {h : Hit} {o r : Option BusOrigin} {hops m : Nat}

/-- What a definition of a frontier carries there. -/
def taintAt (index : GraphIndex) (settings : Settings) (seedIds : List Str) (hops m : Nat) (d : Str) :
    Option BusOrigin :=
  ((walkAt index settings seedIds hops m).defTaint.get? d).join

/-- The marks of the touches of a file in a round, told by the edges. -/
theorem exists_mark_iff :
    (∃ t ∈ (roundTouches (loadGraphIndexWith graph opts) settings
          (walkAt (loadGraphIndexWith graph opts) settings seedIds hops m)).filter fun t => t.file = f,
        t.mark = o) ↔
      ∃ d hop, (Layer (· ∈ seedIds) (Step graph opts settings) m d ∧
          ∃ solid, Refers graph opts settings d f solid hop) ∧
        o = hop.or (taintAt (loadGraphIndexWith graph opts) settings seedIds hops m d) := by
  unfold roundTouches
  simp only [List.mem_filter, List.mem_flatMap, decide_eq_true_eq]
  constructor
  · rintro ⟨t, ⟨⟨d, hd, ht⟩, hf⟩, rfl⟩
    have hrefers := exists_touch_iff.mp ⟨t, ht, hf, rfl, rfl⟩
    refine ⟨d, t.crossed, ⟨(searched_walkAt.frontier_iff d).mp hd, _, hrefers⟩, ?_⟩
    rw [Touch.mark, origin_of_mem_touches ht]
    rfl
  · rintro ⟨d, hop, ⟨hd, solid, hrefers⟩, rfl⟩
    obtain ⟨t, ht, hf, -, rfl⟩ := exists_touch_iff.mpr hrefers
    refine ⟨t, ⟨⟨d, (searched_walkAt.frontier_iff d).mpr hd, ht⟩, hf⟩, ?_⟩
    rw [Touch.mark, origin_of_mem_touches ht]
    rfl

/-- A hit is the sum of some touches. -/
theorem touches_ne_nil_of_hit
    (hhit : (hitsAt (loadGraphIndexWith graph opts) settings seedIds hops m).get? f = some h) :
    (roundTouches (loadGraphIndexWith graph opts) settings
      (walkAt (loadGraphIndexWith graph opts) settings seedIds hops m)).filter (fun t => t.file = f) ≠ [] := by
  intro hnil
  unfold hitsAt roundHits at hhit
  rw [OrderedMap.get?_gather, if_pos hnil] at hhit
  cases hhit

/-- As long as every definition of the frontier carries what its chains come to, so does
every file that the round hits. -/
theorem verdict_hit
    (hcarries : ∀ d, Layer (· ∈ seedIds) (Step graph opts settings) m d →
      Verdict (Carries graph opts settings seedIds m d)
        (taintAt (loadGraphIndexWith graph opts) settings seedIds hops m d))
    (hhit : (hitsAt (loadGraphIndexWith graph opts) settings seedIds hops m).get? f = some h) :
    Verdict (FirstWay graph opts settings seedIds m f) h.taint := by
  have hmarks := Hit.verdict_taint (touches_ne_nil_of_hit hhit)
  rw [← eq_of_hit hhit] at hmarks
  have hedges := (verdict_congr fun o => exists_mark_iff).mp hmarks
  refine (verdict_through fun d hop htouch => ?_).mp hedges
  exact hcarries d htouch.1

/-- Only seeds are reached in no step, and they carry nothing. -/
theorem carries_zero (hd : d ∈ seedIds) : Verdict (Carries graph opts settings seedIds 0 d) none := .here hd

/-- A definition of the next frontier carries what some hit that opens it says of the bus. -/
theorem exists_opener (hd : Layer (· ∈ seedIds) (Step graph opts settings) (m + 1) d) :
    ∃ f h, (hitsAt (loadGraphIndexWith graph opts) settings seedIds hops m).get? f = some h ∧
      Opens (loadGraphIndexWith graph opts) settings (f, h) d ∧
      taintAt (loadGraphIndexWith graph opts) settings seedIds hops (m + 1) d = h.taint := by
  have hfrontier : d ∈ (walkAt (loadGraphIndexWith graph opts) settings seedIds hops (m + 1)).frontier :=
    (searched_walkAt.frontier_iff d).mpr hd
  obtain ⟨hnew, -⟩ := frontier_round.mp hfrontier
  obtain ⟨⟨f, h⟩, hmem, hopens, htaint⟩ :=
    opened_foldl_settle (seenDefs_round.mpr (Or.inr hfrontier)) hnew
  refine ⟨f, h, OrderedMap.get?_eq_some_of_mem hmem, hopens, ?_⟩
  unfold taintAt
  rw [walkAt]
  exact congrArg Option.join htaint

/-- **What a definition carries.** Where the files that first open the definitions agree,
every definition of a frontier carries what its shortest chains come to. -/
theorem verdict_taintAt (hopeners : OpenersAgree graph opts settings seedIds hops) (hm : m < hops)
    (hd : Layer (· ∈ seedIds) (Step graph opts settings) m d) :
    Verdict (Carries graph opts settings seedIds m d)
      (taintAt (loadGraphIndexWith graph opts) settings seedIds hops m d) := by
  induction m generalizing d with
  | zero => exact carries_zero (layer_zero.mp hd)
  | succ m ih =>
      obtain ⟨f, h, hhit, ⟨hsolid, hhub, hdeclares⟩, htaint⟩ :=
        @exists_opener graph opts settings seedIds d hops m hd
      have hverdict := verdict_hit (fun d hd => ih (by omega) hd) hhit
      rw [htaint]
      exact hopeners m hm d hd f (exists_solidHit_iff.mp ⟨h, hhit, hsolid⟩) hhub
        (exists_byFile_iff.mp hdeclares) _ hverdict

theorem Carries.toChain (h : Carries graph opts settings seedIds m d o) :
    Chain (· ∈ seedIds) (Step graph opts settings) m d := by
  refine h.chain.mono (fun _ => id) ?_
  rintro a b ⟨hop, f, hrefers, hhub, hdeclares⟩
  exact ⟨f, ⟨hop, hrefers⟩, hhub, hdeclares⟩

/-- Where a file is first reached, its ways are shortest up to their last step. -/
theorem firstWay_iff (hfirst : ∀ k < m, ¬ ReachedIn graph opts settings seedIds (k + 1) f) :
    FirstWay graph opts settings seedIds m f o ↔ Way graph opts settings seedIds m f o := by
  constructor
  · rintro ⟨d, hop, o', ⟨-, hrefers⟩, hcarries, rfl⟩
    exact ⟨d, hop, o', hrefers, hcarries, rfl⟩
  · rintro ⟨d, hop, o', ⟨solid, hrefers⟩, hcarries, rfl⟩
    refine ⟨d, hop, o', ⟨⟨hcarries.toChain, fun k hlt hk => ?_⟩, solid, hrefers⟩, hcarries, rfl⟩
    exact hfirst k hlt ⟨k, rfl, d, hk, solid, hop, hrefers⟩

theorem reachedIn_of_way (h : Way graph opts settings seedIds m f o) :
    ReachedIn graph opts settings seedIds (m + 1) f := by
  obtain ⟨d, hop, o', ⟨solid, hrefers⟩, hcarries, -⟩ := h
  exact ⟨m, rfl, d, hcarries.toChain, solid, hop, hrefers⟩

/-- A row is exact when its mark is what all the ways within the bound come to. -/
theorem rowExact_iff {n : Nat} {infra : Bool}
    (hhit : (hitsAt (loadGraphIndexWith graph opts) settings seedIds hops m).get? f = some h) :
    RowExact graph opts settings seedIds hops f
        (impactRow (loadGraphIndexWith graph opts) f (buildVisitedEntry n infra h)) ↔
      Verdict (fun o => ∃ k < hops, Way graph opts settings seedIds k f o) h.taint := by
  have hbusOnly : (buildVisitedEntry n infra h).busOnly = true ↔ h.taint ≠ none := by
    rw [eq_of_hit hhit]
    exact Hit.busOnly_iff (touches_ne_nil_of_hit hhit)
  have hplain : (∀ k < hops, ∀ o, Way graph opts settings seedIds k f o → o ≠ none) ↔
      ¬ ∃ k < hops, Way graph opts settings seedIds k f none := by
    constructor
    · rintro hall ⟨k, hk, hway⟩
      exact hall k hk none hway rfl
    · rintro hnone k hk o hway rfl
      exact hnone ⟨k, hk, hway⟩
  constructor
  · rintro ⟨honly, horigin⟩
    have honly' := hbusOnly.symm.trans (honly.trans hplain)
    -- unmarked, the row claims a way without origin; marked, the least origin
    cases htaint : h.taint with
    | none => exact not_not.mp fun hnone => (honly'.mpr hnone) htaint
    | some o =>
        have hmarked : h.taint ≠ none := by rw [htaint]; exact Option.some_ne_none o
        obtain ⟨o', ho', ⟨k, hk, hway⟩, hleast⟩ := horigin (hbusOnly.mpr hmarked)
        have heq : o' = o := Option.some.inj (ho'.symm.trans htaint)
        subst heq
        refine ⟨honly'.mp hmarked, ⟨k, hk, hway⟩, ?_⟩
        rintro o'' ⟨j, hj, hway'⟩
        exact hleast j hj o'' hway'
  · intro hverdict
    refine ⟨?_, fun hmarked => ?_⟩
    · show (buildVisitedEntry n infra h).busOnly = true ↔ _
      rw [hbusOnly, hplain, ne_eq, hverdict.eq_none_iff]
    · obtain ⟨o, ho⟩ := Option.ne_none_iff_exists'.mp (hbusOnly.mp hmarked)
      rw [ho] at hverdict
      obtain ⟨-, ⟨k, hk, hway⟩, hleast⟩ := hverdict
      exact ⟨o, ho, ⟨k, hk, hway⟩, fun j hj o' hway' => hleast o' ⟨j, hj, hway'⟩⟩

/-- The rows are exact if and only if the shortest chains decide, where the openers agree. -/
theorem rowsExact_iff (hopeners : OpenersAgree graph opts settings seedIds hops) :
    (∀ f v, (impactWalk (loadGraphIndexWith graph opts) seedIds hops settings).visited.get? f = some v →
        RowExact graph opts settings seedIds hops f (impactRow (loadGraphIndexWith graph opts) f v)) ↔
      FirstChainsDecide graph opts settings seedIds hops := by
  have hway : ∀ f m h, m < hops → (∀ k < m, ¬ ReachedIn graph opts settings seedIds (k + 1) f) →
      (hitsAt (loadGraphIndexWith graph opts) settings seedIds hops m).get? f = some h →
      Verdict (Way graph opts settings seedIds m f) h.taint := by
    intro f m h hm hfirst hhit
    exact (verdict_congr fun o => firstWay_iff hfirst).mp
      (verdict_hit (fun d hd => verdict_taintAt hopeners hm hd) hhit)
  constructor
  · intro hrows f hseed m hm hfirst r hr
    have hreached := reachedIn_of_way hr.mem
    obtain ⟨v, hv⟩ := exists_visited_iff.mpr ⟨hseed, m + 1, hm, hreached⟩
    have hexact := hrows f v hv
    obtain ⟨-, m', hm', hfirst', h, hhit, rfl⟩ := visited_impactWalk_iff.mp hv
    -- the hop of a row is the first that reaches its file
    obtain rfl : m' = m := by
      rcases Nat.lt_trichotomy m' m with hlt | heq | hlt
      · exact absurd (reachedIn_succ.mpr (exists_hitsAt_iff.mp ⟨h, hhit⟩).touched) (hfirst m' hlt)
      · exact heq
      · exact absurd hreached (hfirst' m hlt)
    rw [hr.unique (hway f m' h hm hfirst hhit)]
    exact (rowExact_iff hhit).mp hexact
  · intro hdecide f v hv
    obtain ⟨hseed, m, hm, hfirst, h, hhit, rfl⟩ := visited_impactWalk_iff.mp hv
    exact (rowExact_iff hhit).mpr (hdecide f hseed m hm hfirst _ (hway f m h hm hfirst hhit))

end Verdicts

/-! ## No order matters -/

/-- The same graph in another order; where two definitions share an id, it means the same
one of them. -/
structure Reordered (graph graph' : Graph) : Prop where
  defs : ∀ x, x ∈ graph'.defs ↔ x ∈ graph.defs
  edges : ∀ e, e ∈ graph'.edges ↔ e ∈ graph.edges
  meant : ∀ id, graph'.defs.reverse.find? (·.id == id) = graph.defs.reverse.find? (·.id == id)

theorem Reordered.symm {graph graph' : Graph} (h : Reordered graph graph') : Reordered graph' graph where
  defs x := (h.defs x).symm
  edges e := (h.edges e).symm
  meant id := (h.meant id).symm

section Order

variable {graph graph' : Graph} {opts : IndexOptions} {settings : Settings} {d f : Str}

theorem nodup_eraseDups {α : Type} [BEq α] [LawfulBEq α] (xs : List α) : xs.eraseDups.Nodup := by
  induction hn : xs.length using Nat.strong_induction_on generalizing xs with
  | _ n ih =>
      cases xs with
      | nil => exact List.nodup_nil
      | cons x xs =>
          rw [List.eraseDups_cons, List.nodup_cons]
          refine ⟨fun hx => ?_, ih _ ?_ _ rfl⟩
          · rw [List.mem_eraseDups, List.mem_filter] at hx
            simp at hx
          · rw [← hn]
            exact Nat.lt_succ_of_le (List.length_filter_le _ xs)

/-- How many distinct things a list has is told by its members. -/
theorem length_eraseDups_congr {α : Type} [BEq α] [LawfulBEq α] {xs ys : List α}
    (h : ∀ x, x ∈ xs ↔ x ∈ ys) :
    xs.eraseDups.length = ys.eraseDups.length := by
  refine List.Perm.length_eq ((List.perm_ext_iff_of_nodup (nodup_eraseDups xs) (nodup_eraseDups ys)).mpr ?_)
  intro x
  rw [List.mem_eraseDups, List.mem_eraseDups, h]

namespace Reordered

variable (h : Reordered graph graph')
include h

theorem findDef (id : Str) :
    (loadGraphIndexWith graph' opts).findDef id = (loadGraphIndexWith graph opts).findDef id :=
  h.meant id

theorem defFiles (id : Str) :
    (loadGraphIndexWith graph' opts).defFiles id = (loadGraphIndexWith graph opts).defFiles id := by
  unfold GraphIndex.defFiles
  rw [h.findDef id]

theorem ifaceName (id : Str) :
    Devscout.Query.ifaceName (loadGraphIndexWith graph' opts) id =
      Devscout.Query.ifaceName (loadGraphIndexWith graph opts) id := by
  unfold Devscout.Query.ifaceName
  rw [h.findDef id]

theorem hubIndegree (file : Str) :
    (loadGraphIndexWith graph' opts).hubIndegree file = (loadGraphIndexWith graph opts).hubIndegree file := by
  unfold GraphIndex.hubIndegree
  refine length_eraseDups_congr fun x => ?_
  simp only [loadGraphIndexWith, List.mem_map, List.mem_filter, List.mem_flatMap, h.edges]

theorem ctorDiFanin (iface : Str) :
    (loadGraphIndexWith graph' opts).ctorDiFanin iface = (loadGraphIndexWith graph opts).ctorDiFanin iface := by
  unfold GraphIndex.ctorDiFanin
  refine length_eraseDups_congr fun x => ?_
  simp only [loadGraphIndexWith, List.mem_map, List.mem_filter, List.mem_flatMap, h.edges]

theorem brakeFanin (max : Nat) (name : Str) :
    Devscout.Query.brakeFanin (loadGraphIndexWith graph' opts) max name =
      Devscout.Query.brakeFanin (loadGraphIndexWith graph opts) max name := by
  unfold Devscout.Query.brakeFanin
  rw [h.ctorDiFanin name]

theorem isHub (max : Nat) (file : Str) :
    Devscout.Query.isHub (loadGraphIndexWith graph' opts) max file =
      Devscout.Query.isHub (loadGraphIndexWith graph opts) max file := by
  unfold Devscout.Query.isHub
  rw [h.hubIndegree file]

theorem mem_implementedInterfaces (id iface : Str) :
    iface ∈ (loadGraphIndexWith graph' opts).implementedInterfaces id ↔
      iface ∈ (loadGraphIndexWith graph opts).implementedInterfaces id := by
  have hat : ∀ file slot e, e ∈ SlotTable.at (loadGraphIndexWith graph' opts).outboundByFile file slot ↔
      e ∈ SlotTable.at (loadGraphIndexWith graph opts).outboundByFile file slot := by
    intro file slot e
    simp only [loadGraphIndexWith, mem_fileSlots, h.edges]
  unfold GraphIndex.implementedInterfaces
  simp only [List.mem_eraseDups, List.mem_flatMap, List.mem_filterMap, List.mem_append, hat, h.defFiles,
    h.findDef]

/-- The edges lead to the same files. -/
theorem refers {solid : Bool} {hop : Option BusOrigin} (hr : Refers graph opts settings d f solid hop) :
    Refers graph' opts settings d f solid hop := by
  cases hr with
  | precise he hp hfile => exact .precise ((h.edges _).mpr he) hp hfile
  | ambiguous he hp => exact .ambiguous ((h.edges _).mpr he) hp
  | handles he hbus hfile => exact .handles ((h.edges _).mpr he) hbus (by rw [h.defFiles]; exact hfile)
  | injects he hiface hbrake =>
      exact .injects ((h.edges _).mpr he) hiface (by rw [h.brakeFanin]; exact hbrake)
  | interface he hp hfile hiface himpl hbrake =>
      refine .interface ((h.edges _).mpr he) hp hfile hiface ((h.mem_implementedInterfaces _ _).mpr himpl) ?_
      rw [h.ifaceName, h.brakeFanin]
      exact hbrake
  | guess he hp hfile => exact .guess ((h.edges _).mpr he) hp hfile

theorem refers_iff {solid : Bool} {hop : Option BusOrigin} :
    Refers graph' opts settings d f solid hop ↔ Refers graph opts settings d f solid hop :=
  ⟨h.symm.refers, h.refers⟩

theorem declares_iff : Declares graph' f d ↔ Declares graph f d := by
  unfold Declares
  simp only [h.defs]

theorem step_eq : Step graph' opts settings = Step graph opts settings := by
  funext a b
  unfold Step
  simp only [h.refers_iff, h.isHub, h.declares_iff]

theorem crossStep_eq : CrossStep graph' opts settings = CrossStep graph opts settings := by
  funext a b hop
  unfold CrossStep
  simp only [h.refers_iff, h.isHub, h.declares_iff]

theorem touches_eq : Touches graph' opts settings = Touches graph opts settings := by
  funext a b
  unfold Touches
  simp only [h.refers_iff]

theorem solidTouch_eq : SolidTouch graph' opts settings = SolidTouch graph opts settings := by
  funext a b
  unfold SolidTouch
  simp only [h.refers_iff]

variable {seedIds seedIds' : List Str} (hseeds : ∀ d, d ∈ seedIds' ↔ d ∈ seedIds)
include hseeds

theorem reachedIn_iff {n : Nat} :
    ReachedIn graph' opts settings seedIds' n f ↔ ReachedIn graph opts settings seedIds n f := by
  unfold ReachedIn
  simp only [hseeds, h.step_eq, h.touches_eq]

theorem carries_eq : Carries graph' opts settings seedIds' = Carries graph opts settings seedIds := by
  funext n a o
  unfold Carries
  simp only [hseeds, h.crossStep_eq]

theorem way_eq : Way graph' opts settings seedIds' = Way graph opts settings seedIds := by
  funext m a o
  unfold Way
  simp only [h.refers_iff, h.carries_eq hseeds]

theorem firstWay_eq : FirstWay graph' opts settings seedIds' = FirstWay graph opts settings seedIds := by
  funext m a o
  unfold FirstWay
  simp only [hseeds, h.step_eq, h.refers_iff, h.carries_eq hseeds]

theorem mem_seedFilesOf : f ∈ seedFilesOf (loadGraphIndexWith graph' opts) seedIds' ↔
    f ∈ seedFilesOf (loadGraphIndexWith graph opts) seedIds := by
  unfold seedFilesOf
  simp only [List.mem_eraseDups, List.mem_flatMap, hseeds, h.defFiles]

theorem openersAgree {hops : Nat} (hopeners : OpenersAgree graph opts settings seedIds hops) :
    OpenersAgree graph' opts settings seedIds' hops := by
  unfold OpenersAgree at hopeners ⊢
  simp only [hseeds, h.step_eq, h.solidTouch_eq, h.isHub, h.declares_iff, h.carries_eq hseeds,
    h.firstWay_eq hseeds]
  exact hopeners

theorem firstChainsDecide {hops : Nat} (hdecide : FirstChainsDecide graph opts settings seedIds hops) :
    FirstChainsDecide graph' opts settings seedIds' hops := by
  unfold FirstChainsDecide at hdecide ⊢
  simp only [h.mem_seedFilesOf hseeds, h.reachedIn_iff hseeds, h.way_eq hseeds]
  exact hdecide

theorem exists_visited_iff {hops : Nat} :
    (∃ v, (impactWalk (loadGraphIndexWith graph' opts) seedIds' hops settings).visited.get? f = some v) ↔
      ∃ v, (impactWalk (loadGraphIndexWith graph opts) seedIds hops settings).visited.get? f = some v := by
  rw [Query.exists_visited_iff, Query.exists_visited_iff, h.mem_seedFilesOf hseeds]
  simp only [h.reachedIn_iff hseeds]

end Reordered

end Order

/-! ## Exact marks -/

section Exact

variable (graph : Graph) (opts : IndexOptions) (settings : Settings) (seedIds : List Str) (hops : Nat)

/-- The marks of a file's row. -/
def routeMarks (f : Str) : Option (Bool × Option BusOrigin) :=
  ((impactWalk (loadGraphIndexWith graph opts) seedIds hops settings).visited.get? f).map fun v =>
    ((impactRow (loadGraphIndexWith graph opts) f v).busOnly,
      (impactRow (loadGraphIndexWith graph opts) f v).busOrigin)

/-- Every row says what it is to say, and no order of definitions, edges or seeds makes any
difference to that. -/
structure MarksExact : Prop where
  rows : ∀ f v, (impactWalk (loadGraphIndexWith graph opts) seedIds hops settings).visited.get? f = some v →
    RowExact graph opts settings seedIds hops f (impactRow (loadGraphIndexWith graph opts) f v)
  stable : ∀ graph' seedIds', Reordered graph graph' → (∀ d, d ∈ seedIds' ↔ d ∈ seedIds) →
    ∀ f, routeMarks graph' opts settings seedIds' hops f = routeMarks graph opts settings seedIds hops f

variable {graph opts settings seedIds hops} {f : Str}

/-- Where every definition has one file and nothing is guessed at, the openers agree. -/
theorem openersAgree_of_sole
    (hsole : ∀ e f f', Declares graph f e → Declares graph f' e → f = f')
    (hearnest : ∀ d f hop, ¬ Refers graph opts settings d f false hop) :
    OpenersAgree graph opts settings seedIds hops := by
  intro m hm e hlayer f htouch hhub hdeclares r hr
  refine (verdict_congr fun o => ?_).mp hr
  show FirstWay graph opts settings seedIds m f o ↔
    Carried (· ∈ seedIds) (CrossStep graph opts settings) (m + 1) e o
  rw [carried_succ]
  constructor
  · rintro ⟨d, hop, o', ⟨-, solid, hrefers⟩, hcarries, rfl⟩
    cases solid with
    | true => exact ⟨d, hop, o', hcarries, ⟨f, hrefers, hhub, hdeclares⟩, rfl⟩
    | false => exact absurd hrefers (hearnest d f hop)
  · rintro ⟨d, hop, o', hcarries, ⟨f', hrefers, hhub', hdeclares'⟩, rfl⟩
    obtain rfl := hsole e f' f hdeclares' hdeclares
    have hchain : Chain (· ∈ seedIds) (Step graph opts settings) m d :=
      Carries.toChain hcarries
    refine ⟨d, hop, o', ⟨⟨hchain, fun k hlt hk => ?_⟩, true, hrefers⟩, hcarries, rfl⟩
    exact hlayer.2 (k + 1) (Nat.succ_lt_succ hlt) (.next hk ⟨f', ⟨hop, hrefers⟩, hhub', hdeclares'⟩)

/-- The marks of an exact row are the verdict on its ways. -/
theorem exists_verdict_of_exact {v : VisitedEntry}
    (hv : (impactWalk (loadGraphIndexWith graph opts) seedIds hops settings).visited.get? f = some v)
    (hexact : RowExact graph opts settings seedIds hops f (impactRow (loadGraphIndexWith graph opts) f v)) :
    ∃ r, Verdict (fun o => ∃ k < hops, Way graph opts settings seedIds k f o) r ∧
      routeMarks graph opts settings seedIds hops f = some (r.isSome, r) := by
  obtain ⟨-, m, -, -, h, hhit, rfl⟩ := visited_impactWalk_iff.mp hv
  refine ⟨h.taint, (rowExact_iff hhit).mp hexact, ?_⟩
  have hbusOnly : (buildVisitedEntry (m + 1) (isHub (loadGraphIndexWith graph opts) settings.hubMaxIndegree f)
      h).busOnly = h.taint.isSome := by
    rw [Bool.eq_iff_iff, Option.isSome_iff_ne_none, eq_of_hit hhit]
    exact Hit.busOnly_iff (touches_ne_nil_of_hit hhit)
  unfold routeMarks
  rw [hv]
  exact congrArg some (Prod.ext hbusOnly rfl)

/-- **When the marks are right.** Where the files through which definitions are first
reached agree, the marks are exact, in whatever order, if and only if the shortest chains to
every file decide. -/
theorem marksExact_iff (graph : Graph) (opts : IndexOptions) (settings : Settings) (seedIds : List Str)
    (hops : Nat) (hopeners : OpenersAgree graph opts settings seedIds hops) :
    MarksExact graph opts settings seedIds hops ↔ FirstChainsDecide graph opts settings seedIds hops := by
  constructor
  · exact fun h => (rowsExact_iff hopeners).mp h.rows
  · intro hdecide
    -- both walks are exact, and the least origin does not depend on the order
    have hrows := (rowsExact_iff hopeners).mpr hdecide
    refine ⟨hrows, fun graph' seedIds' hsame hseeds f => ?_⟩
    have hrows' := (rowsExact_iff (hsame.openersAgree hseeds hopeners)).mpr
      (hsame.firstChainsDecide hseeds hdecide)
    have hvisited := @Reordered.exists_visited_iff graph graph' opts settings f hsame seedIds seedIds'
      hseeds hops
    cases hv : (impactWalk (loadGraphIndexWith graph opts) seedIds hops settings).visited.get? f with
    | none =>
        have hnone : (impactWalk (loadGraphIndexWith graph' opts) seedIds' hops settings).visited.get? f =
            none := by
          rw [Option.eq_none_iff_forall_ne_some]
          intro v' hv'
          obtain ⟨v, hv''⟩ := hvisited.mp ⟨v', hv'⟩
          rw [hv] at hv''
          cases hv''
        unfold routeMarks
        rw [hv, hnone]
        rfl
    | some v =>
        obtain ⟨v', hv'⟩ := hvisited.mpr ⟨v, hv⟩
        obtain ⟨r, hr, hmarks⟩ := exists_verdict_of_exact hv (hrows f v hv)
        obtain ⟨r', hr', hmarks'⟩ := exists_verdict_of_exact hv' (hrows' f v' hv')
        rw [hsame.way_eq hseeds] at hr'
        rw [hmarks, hmarks', hr.unique hr']

end Exact

/-! ## A way that comes too late -/

/-- `core.cs` publishes a message that `handler.cs` handles, and `Handler` uses `Shell`,
which uses `Core`. -/
def lateRoute : Graph where
  defs := [⟨"Core".toList, "Core".toList, "class".toList, "core.cs".toList, [], []⟩,
    ⟨"Shell".toList, "Shell".toList, "class".toList, "shell.cs".toList, [], []⟩,
    ⟨"Handler".toList, "Handler".toList, "class".toList, "handler.cs".toList, [], []⟩]
  edges := [.busHop "core.cs".toList 7 "Order".toList "Handler".toList "handler.cs".toList,
    .usesType "shell.cs".toList 3 "Core".toList "core.cs".toList false,
    .usesType "handler.cs".toList 4 "Shell".toList "shell.cs".toList false]
  unitIsTest := fun _ => false

/-- Its definitions have a file each and nothing is guessed at, so the openers agree. -/
theorem lateRoute_marks : OpenersAgree lateRoute ⟨true, true, true⟩ ⟨true, 8, 34⟩ ["Core".toList] 2 ∧
    (MarksExact lateRoute ⟨true, true, true⟩ ⟨true, 8, 34⟩ ["Core".toList] 2 ↔
      FirstChainsDecide lateRoute ⟨true, true, true⟩ ⟨true, 8, 34⟩ ["Core".toList] 2) := by
  have hopeners : OpenersAgree lateRoute ⟨true, true, true⟩ ⟨true, 8, 34⟩ ["Core".toList] 2 := by
    refine openersAgree_of_sole ?_ ?_
    · have hsole : ∀ x ∈ lateRoute.defs, ∀ y ∈ lateRoute.defs, x.id = y.id →
          x.file = y.file ∧ x.alsoIn = [] ∧ y.alsoIn = [] := by decide +kernel
      rintro e f f' ⟨x, hx, rfl, hf⟩ ⟨y, hy, hid, hf'⟩
      obtain ⟨hfile, hx', hy'⟩ := hsole x hx y hy hid.symm
      rw [hx', List.mem_nil_iff, or_false] at hf
      rw [hy', List.mem_nil_iff, or_false] at hf'
      rw [← hf, ← hf', hfile]
    · intro d f hop hrefers
      cases hrefers with
      | @guess e he hguess hfile =>
          simp only [lateRoute, List.mem_cons, List.not_mem_nil, or_false] at he
          rcases he with rfl | rfl | rfl <;> cases hguess
  exact ⟨hopeners, marksExact_iff lateRoute _ _ _ _ hopeners⟩

/-- The row of `handler.cs` stays a possible route although a chain of two steps reaches it
without the bus. -/
theorem lateRoute_not_exact :
    ¬ MarksExact lateRoute ⟨true, true, true⟩ ⟨true, 8, 34⟩ ["Core".toList] 2 := by
  intro h
  have hmarked : ((impactWalk (loadGraphIndexWith lateRoute ⟨true, true, true⟩) ["Core".toList] 2
      ⟨true, 8, 34⟩).visited.get? "handler.cs".toList).map
        (fun v => (impactRow (loadGraphIndexWith lateRoute ⟨true, true, true⟩) "handler.cs".toList v).busOnly) =
      some true := by decide +kernel
  obtain ⟨v, hv, hbusOnly⟩ := Option.map_eq_some_iff.mp hmarked
  refine (h.rows _ v hv).busOnly.mp hbusOnly 1 (by decide) none ?_ rfl
  refine ⟨"Shell".toList, none, none, ⟨true, ?_⟩,
    @Carried.next _ _ _ _ 0 "Core".toList _ none none (.here List.mem_cons_self) ?_, rfl⟩
  · exact .precise (e := .usesType "handler.cs".toList 4 "Shell".toList "shell.cs".toList false)
      (by decide) (.usesType _ _ _) rfl
  · refine ⟨"shell.cs".toList, ?_, by decide +kernel, ?_⟩
    · exact .precise (e := .usesType "shell.cs".toList 3 "Core".toList "core.cs".toList false)
        (by decide) (.usesType _ _ _) rfl
    · exact ⟨_, List.mem_cons_of_mem _ List.mem_cons_self, rfl, Or.inl rfl⟩

end Devscout.Query
