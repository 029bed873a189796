/-
# Devscout.Transport.Refused -- a refused site leaves no trace

The sites of a file that are kept form a forest, whatever positions they name as parents: a
site is kept when it passes its checks and names no parent, or an earlier one that is kept.
Every search behind a fact either goes up from a kept site or runs over the kept ones, so the
facts are those of the list from which the other sites were deleted. `emit_remaining` says so,
and with it that no search misses a position or runs for ever.
-/

import Mathlib
import Devscout.Transport.Assemble

namespace Devscout.Transport

open Lib

/-- The kept sites of a file, with the parents renumbered. -/
def remaining (ctx : Ctx) (file : Str) (sites : List TransportSite) : List TransportSite :=
  Forest.compacted TransportSite.parent (fun p s => { s with parent := p })
    (FileFacts.new ctx file sites).kept sites

namespace FileFacts

/-- What is built from the remaining sites. -/
abbrev rest (ctx : Ctx) (file : Str) (sites : List TransportSite) : FileFacts :=
  new ctx file (remaining ctx file sites)

section Remaining

variable {ctx : Ctx} {file : Str} {sites : List TransportSite}

/-- A kept site and its place among the remaining ones. -/
def Same (ctx : Ctx) (file : Str) (sites : List TransportSite) (i i' : Nat) : Prop :=
  (new ctx file sites).kept[i]? = some true ∧ i' = Forest.rank (new ctx file sites).kept i

/-- The site itself, in both lists. -/
def Moved (ctx : Ctx) (file : Str) (sites : List TransportSite) (s s' : TransportSite) : Prop :=
  s' = { s with parent := s'.parent } ∧ Option.Rel (Same ctx file sites) s.parent s'.parent

theorem same_unique {i j i' j' : Nat} (hi : Same ctx file sites i i') (hj : Same ctx file sites j j') :
    i = j ↔ i' = j' := by
  obtain ⟨hi, rfl⟩ := hi
  obtain ⟨hj, rfl⟩ := hj
  exact ⟨fun h => by rw [h], Forest.rank_injective hi hj⟩

theorem same_eq_some {o o' : Option Nat} {i i' : Nat} (ho : Option.Rel (Same ctx file sites) o o')
    (hi : Same ctx file sites i i') : o = some i ↔ o' = some i' := by
  cases ho with
  | none => exact iff_of_false (by simp) (by simp)
  | some hj => rw [Option.some.injEq, Option.some.injEq, same_unique hj hi]

theorem same_of_rank {o o' : Option Nat} (h : o' = o.map (Forest.rank (new ctx file sites).kept))
    (hkept : ∀ q ∈ o, (new ctx file sites).kept[q]? = some true) :
    Option.Rel (Same ctx file sites) o o' := by
  subst h
  cases o with
  | none => exact .none
  | some q => exact .some ⟨hkept q rfl, rfl⟩

variable {i i' : Nat} (h : Same ctx file sites i i')

include h

theorem sites_both :
    Both (Moved ctx file sites) (new ctx file sites).sites[i]?
      (rest ctx file sites).sites[i']? := by
  obtain ⟨hkept, rfl⟩ := h
  obtain ⟨s, hs, -, hup⟩ := Forest.kept_spec hkept
  have hmoved : (remaining ctx file sites)[Forest.rank (new ctx file sites).kept i]? =
      some { s with parent := s.parent.map (Forest.rank (new ctx file sites).kept) } :=
    Forest.getElem?_compacted Forest.length_keptOf hkept hs
  exact ⟨s, _, hs, hmoved, rfl, same_of_rank rfl fun p hp => (hup p hp).2⟩

theorem entries_both :
    Both Eq (new ctx file sites).entries[i]? (rest ctx file sites).entries[i']? := by
  obtain ⟨s, s', hs, hs', hmoved, -⟩ := sites_both h
  refine ⟨entryOf ctx s.member, entryOf ctx s'.member, ?_, ?_, by rw [hmoved]⟩
  · exact (List.getElem?_map ..).trans (by rw [show sites[i]? = some s from hs]; rfl)
  · exact (List.getElem?_map ..).trans
      (by rw [show (remaining ctx file sites)[i']? = some s' from hs']; rfl)

theorem actAt_same :
    (new ctx file sites).actAt i = (rest ctx file sites).actAt i' := by
  obtain ⟨e, he, he'⟩ := (entries_both h).eq
  rw [actAt, actAt, he, he']

/-- The way up from a kept site, for what the sites say apart from their parents. -/
theorem climb_same {found : TransportSite → Bool} (hfound : ∀ p s, found { s with parent := p } = found s) :
    Both (Option.Rel (Same ctx file sites))
      (do
        let site ← (new ctx file sites).sites[i]?
        Forest.climb TransportSite.parent sites found sites.length site.parent)
      (do
        let site ← (rest ctx file sites).sites[i']?
        Forest.climb TransportSite.parent (remaining ctx file sites) found
          (remaining ctx file sites).length site.parent) := by
  refine .bind (sites_both h) fun s s' hmoved => ?_
  have hparents := hmoved.2
  revert hparents
  generalize s.parent = o
  generalize s'.parent = o'
  intro hparents
  cases hparents with
  | none =>
      refine ⟨none, none, ?_, ?_, .none⟩
      · unfold Forest.climb; rfl
      · unfold Forest.climb; rfl
  | @some p p' hp =>
      obtain ⟨hkept, rfl⟩ := hp
      have hlt : p < sites.length := by
        have hlen : (new ctx file sites).kept.length = sites.length := Forest.length_keptOf
        rw [← hlen]
        exact (List.getElem?_eq_some_iff.mp hkept).1
      have hrank : Forest.rank (new ctx file sites).kept p < (remaining ctx file sites).length := by
        have hlen : (remaining ctx file sites).length = (new ctx file sites).kept.count true :=
          Forest.length_compacted Forest.length_keptOf
        rw [hlen, ← Forest.rank_length]
        exact Forest.rank_lt_of_lt hkept (List.getElem?_eq_some_iff.mp hkept).1
      exact (Forest.climb_both (fun _ _ => rfl) hfound hkept hlt hrank).weaken
        fun o o' ho => same_of_rank ho.1 ho.2

theorem ancestor_both (act : Act) :
    Both (Option.Rel (Same ctx file sites)) ((new ctx file sites).ancestor i act)
      ((rest ctx file sites).ancestor i' act) :=
  climb_same h fun _ _ => rfl

theorem definitionOf_both :
    Both (Option.Rel (Same ctx file sites)) ((new ctx file sites).definitionOf i)
      ((rest ctx file sites).definitionOf i') :=
  climb_same h fun _ _ => rfl

omit h in
/-- A gathering whose parts are the same in both lists is the same. -/
theorem mapM_both {α α' β : Type} {R : α → α' → Prop} {m : α → Option β} {m' : α' → Option β}
    {l : List α} {l' : List α'} (hl : List.Forall₂ R l l') (hm : ∀ a a', R a a' → Both Eq (m a) (m' a')) :
    Both Eq (l.mapM m) (l'.mapM m') :=
  (Both.mapM hl hm).weaken fun _ _ hbs => by rwa [List.forall₂_eq_eq_eq] at hbs

omit h in
theorem keptPositions_same :
    List.Forall₂ (Same ctx file sites) (Forest.keptPositions (new ctx file sites).kept)
      (Forest.keptPositions (rest ctx file sites).kept) := by
  have hmap : Forest.keptPositions (rest ctx file sites).kept =
      (Forest.keptPositions (new ctx file sites).kept).map (Forest.rank (new ctx file sites).kept) :=
    Forest.keptPositions_compacted (fun _ _ => rfl) fun _ _ => rfl
  rw [hmap, List.forall₂_map_right_iff, List.forall₂_same]
  exact fun i hi => ⟨Forest.mem_keptPositions.mp hi, rfl⟩

omit h in
theorem keptWith_same (act : Act) :
    List.Forall₂ (Same ctx file sites) ((new ctx file sites).keptWith act)
      ((rest ctx file sites).keptWith act) := by
  refine List.rel_filter (fun i i' h => ?_) keptPositions_same
  show decide ((new ctx file sites).actAt i = some act) = true ↔
    decide ((rest ctx file sites).actAt i' = some act) = true
  rw [actAt_same h]

theorem value_both (val : Val) : Both Eq ((new ctx file sites).value i val) ((rest ctx file sites).value i' val) :=
  (sites_both h).map fun s s' hs => by rw [hs.1]; rfl

theorem types_both : Both Eq ((new ctx file sites).types i) ((rest ctx file sites).types i') :=
  (sites_both h).map fun s s' hs => by rw [hs.1]; rfl

theorem word_both : Both Eq ((new ctx file sites).word i) ((rest ctx file sites).word i') :=
  (entries_both h).map fun e e' he => by rw [he]

theorem base_both (kind : String) :
    Both Eq ((new ctx file sites).base i kind) ((rest ctx file sites).base i' kind) := by
  refine .bind (sites_both h) fun s s' hs => ?_
  refine .bind (ancestor_both h .bus) fun bus bus' hbus => ?_
  have hlines : Both (Option.Rel Eq)
      (bus.mapM fun b => ((new ctx file sites).sites[b]?).map TransportSite.line)
      (bus'.mapM fun b => ((rest ctx file sites).sites[b]?).map TransportSite.line) :=
    .mapMOption hbus fun b b' hb => (sites_both hb).map fun s s' hs => by rw [hs.1]
  refine .bind hlines fun line line' hline => .pure ?_
  obtain rfl := eq_of_rel_eq hline
  rw [hs.1]
  cases hbus <;> rfl

/-- Sites right below a kept one are right below it in both lists. -/
theorem below_both (l l' : List Nat) (hl : List.Forall₂ (Same ctx file sites) l l') :
    Both (List.Forall₂ (Same ctx file sites))
      (l.filterM fun t => ((new ctx file sites).sites[t]?).map fun s => decide (s.parent = some i))
      (l'.filterM fun t => ((rest ctx file sites).sites[t]?).map fun s => decide (s.parent = some i')) :=
  .filterM hl fun t t' ht => (sites_both ht).map fun s s' hs => by
    rw [decide_eq_decide]
    exact same_eq_some hs.2 h

/-- So are the sites that have a kept one for their first ancestor of some kind. -/
theorem under_both (act : Act) (l l' : List Nat) (hl : List.Forall₂ (Same ctx file sites) l l') :
    Both (List.Forall₂ (Same ctx file sites))
      (l.filterM fun t => ((new ctx file sites).ancestor t act).map fun b => decide (b = some i))
      (l'.filterM fun t => ((rest ctx file sites).ancestor t act).map fun b => decide (b = some i')) :=
  .filterM hl fun t t' ht => (ancestor_both ht act).map fun b b' hb => by
    rw [decide_eq_decide]
    exact same_eq_some hb h

theorem transport_both :
    Both Eq ((new ctx file sites).transport i) ((rest ctx file sites).transport i') := by
  refine .bindEq (word_both h) fun own => ?_
  cases own with
  | some word => exact .pure rfl
  | none =>
      refine .bind (below_both h _ _ (keptWith_same .transport)) fun below below' hbelow => ?_
      exact .bindEq (mapM_both hbelow fun t t' ht => word_both ht) fun words => .pure rfl

theorem transportOf_both :
    Both Eq ((new ctx file sites).transportOf i) ((rest ctx file sites).transportOf i') := by
  refine .bind (ancestor_both h .bus) fun bus bus' hbus => ?_
  cases hbus with
  | none => exact .pure rfl
  | some hb => exact .bindEq (transport_both hb) fun t => .pure rfl

theorem hostTransport_both :
    Both Eq ((new ctx file sites).hostTransport i) ((rest ctx file sites).hostTransport i') := by
  refine .bindEq (transportOf_both h) fun stated => ?_
  cases stated with
  | some t => exact .pure rfl
  | none => exact (entries_both h).map fun e e' he => by rw [he]

theorem hostScope_both :
    Both Eq ((new ctx file sites).hostScope i) ((rest ctx file sites).hostScope i') := by
  have hvals : List.Forall₂ Eq [Val.hostName, .hostUri, .virtualHost, .region]
      [Val.hostName, .hostUri, .virtualHost, .region] := List.forall₂_same.mpr fun _ _ => rfl
  refine .bindEq (mapM_both hvals fun val val' hval => ?_) fun parts => ?_
  · subst hval
    exact (value_both h val).map fun r r' hr => by rw [hr]
  · exact .bindEq (hostTransport_both h) fun transport => .pure rfl

theorem busScope_both :
    Both Eq ((new ctx file sites).busScope i) ((rest ctx file sites).busScope i') := by
  refine .bind (under_both h .bus _ _ (keptWith_same .host)) fun below below' hbelow => ?_
  refine .bindEq (mapM_both hbelow fun b b' hb => hostScope_both hb) fun hosts => ?_
  exact .bindEq (transport_both h) fun transport => .pure rfl

theorem addressFact_both (kind : String) (val : Val) :
    Both Eq ((new ctx file sites).addressFact i kind val) ((rest ctx file sites).addressFact i' kind val) := by
  refine .bindEq (base_both h kind) fun fact => ?_
  refine .bindEq (value_both h val) fun resolved => ?_
  refine .bind (ancestor_both h .bus) fun bus bus' hbus => ?_
  refine .bind (.mapMOption hbus fun b b' hb => busScope_both hb) fun scope scope' hscope => ?_
  obtain rfl := eq_of_rel_eq hscope
  exact .bindEq (transportOf_both h) fun transport => .pure rfl

/-! ## The facts -/

theorem busFact_both : Both Eq ((new ctx file sites).busFact i) ((rest ctx file sites).busFact i') := by
  refine .bindEq (base_both h "bus") fun fact => ?_
  refine .bindEq (transport_both h) fun transport => ?_
  refine .bindEq (types_both h) fun types => ?_
  exact .bindEq (busScope_both h) fun scope => .pure rfl

theorem hostFact_both :
    Both Eq ((new ctx file sites).hostFact i) ((rest ctx file sites).hostFact i') := by
  refine .bindEq (base_both h "host") fun fact => ?_
  exact .bindEq (hostScope_both h) fun scope => .pure rfl

theorem configuredTypes_both :
    Both Eq ((new ctx file sites).configuredTypes i) ((rest ctx file sites).configuredTypes i') :=
  (sites_both h).map fun s s' hs => by rw [hs.1]; rfl

theorem receiveFact_both :
    Both Eq ((new ctx file sites).receiveFact i) ((rest ctx file sites).receiveFact i') := by
  refine .bindEq (addressFact_both h "receive-endpoint" .name) fun fact => ?_
  refine .bind (under_both h .receive _ _ (keptWith_same .configured)) fun below below' hbelow => ?_
  exact .bindEq (mapM_both hbelow fun c c' hc => configuredTypes_both hc) fun types => .pure rfl

theorem registrationFact_both :
    Both Eq ((new ctx file sites).registrationFact i) ((rest ctx file sites).registrationFact i') := by
  refine .bindEq (base_both h "registration") fun fact => ?_
  refine .bindEq (word_both h) fun word => ?_
  exact .bindEq (types_both h) fun types => .pure rfl

theorem typedAddress_both (kind : String) (val : Val) :
    Both Eq ((new ctx file sites).typedAddress i kind val) ((rest ctx file sites).typedAddress i' kind val) := by
  refine .bindEq (addressFact_both h kind val) fun fact => ?_
  exact .bindEq (types_both h) fun types => .pure rfl

omit h in
/-- The types of a site that was found on the way up. -/
theorem foundTypes_both {o o' : Option Nat} (ho : Option.Rel (Same ctx file sites) o o') :
    Both Eq (o.mapM (new ctx file sites).types) (o'.mapM (rest ctx file sites).types) :=
  (Both.mapMOption ho fun _ _ hb => types_both hb).weaken fun _ _ => eq_of_rel_eq

theorem entityFact_both :
    Both Eq ((new ctx file sites).entityFact i) ((rest ctx file sites).entityFact i') := by
  refine .bindEq (entries_both h) fun e => ?_
  split
  · refine .bindEq (addressFact_both h "entity-name" _) fun fact => ?_
    exact .bindEq (types_both h) fun types => .pure rfl
  · refine .bindEq (addressFact_both h "entity-name" .entityName) fun fact => ?_
    refine .bind (ancestor_both h .topology) fun topology topology' htopology => ?_
    exact .bindEq (foundTypes_both htopology) fun types => .pure rfl

theorem endpointNameFact_both :
    Both Eq ((new ctx file sites).endpointNameFact i) ((rest ctx file sites).endpointNameFact i') := by
  refine .bindEq (addressFact_both h "endpoint-name" .name) fun fact => ?_
  refine .bind (definitionOf_both h) fun definition definition' hdefinition => ?_
  exact .bindEq (foundTypes_both hdefinition) fun types => .pure rfl

omit h in
theorem setFormatter_both {bus bus' : Option Nat} (hbus : Option.Rel (Same ctx file sites) bus bus') :
    Both (Option.Rel (Same ctx file sites)) ((new ctx file sites).setFormatter bus)
      ((rest ctx file sites).setFormatter bus') := by
  cases hbus with
  | none => exact .pure .none
  | some hb =>
      refine .bind (under_both hb .bus _ _ (keptWith_same .formatter)) fun below below' hbelow => ?_
      exact .pure (rel_getLast? hbelow)

theorem formatterInForce_both :
    Both Eq ((new ctx file sites).formatterInForce i) ((rest ctx file sites).formatterInForce i') := by
  refine .bind (sites_both h) fun s s' hs => ?_
  have hown : s'.formatter = s.formatter := by rw [hs.1]
  rw [hown]
  cases s.formatter with
  | some formatter => exact .pure (by rw [hs.1]; rfl)
  | none =>
      refine .bind (ancestor_both h .bus) fun bus bus' hbus => ?_
      refine .bind (setFormatter_both hbus) fun set set' hset => ?_
      cases hset with
      | none => exact .pure rfl
      | some hsetter =>
          -- the setter states a formatter itself, or the word of its member
          refine .bind (sites_both hsetter) fun t t' ht => ?_
          have hformatter : t'.formatter = t.formatter := by rw [ht.1]
          rw [hformatter]
          cases t.formatter with
          | some formatter => exact .pure (by rw [ht.1]; rfl)
          | none => exact .bindEq (word_both hsetter) fun word => .pure rfl

theorem configureEndpointsFact_both :
    Both Eq ((new ctx file sites).configureEndpointsFact i)
      ((rest ctx file sites).configureEndpointsFact i') := by
  refine .bindEq (base_both h "configure-endpoints") fun fact => ?_
  refine .bindEq (formatterInForce_both h) fun inForce => ?_
  exact .bind (sites_both h) fun s s' hs => .pure (by rw [hs.1])

theorem optionsKey_both :
    Both Eq ((new ctx file sites).optionsKey i) ((rest ctx file sites).optionsKey i') := by
  refine .bindEq (value_both h .key) fun own => ?_
  cases own with
  | some r => exact .pure rfl
  | none =>
      refine .bind (below_both h _ _ keptPositions_same) fun below below' hbelow => ?_
      have hfirst : Option.Rel (Same ctx file sites)
          (below.find? fun k => (new ctx file sites).actAt k = some .optionsKey)
          (below'.find? fun k => (rest ctx file sites).actAt k = some .optionsKey) :=
        rel_find? hbelow fun k k' hk => by rw [actAt_same hk]
      revert hfirst
      generalize below.find? _ = first
      generalize below'.find? _ = first'
      intro hfirst
      cases hfirst with
      | none => exact .pure rfl
      | some hk => exact value_both hk .key

theorem optionsFact_both :
    Both Eq ((new ctx file sites).optionsFact i) ((rest ctx file sites).optionsFact i') := by
  refine .bindEq (base_both h "options-binding") fun fact => ?_
  refine .bindEq (types_both h) fun types => ?_
  refine .bindEq (optionsKey_both h) fun keyed => ?_
  exact .bind (sites_both h) fun s s' hs => .pure (by rw [hs.1]; rfl)

theorem outboxFact_both :
    Both Eq ((new ctx file sites).outboxFact i) ((rest ctx file sites).outboxFact i') := by
  refine .bindEq (base_both h "outbox") fun fact => ?_
  exact .bindEq (types_both h) fun types => .pure rfl

/-- One fact, whichever its kind. -/
theorem fact_both : Both Eq ((new ctx file sites).fact i) ((rest ctx file sites).fact i') := by
  have hsome : ∀ {m m' : Option TransportFact}, Both Eq m m' → Both Eq (some <$> m) (some <$> m') :=
    fun hm => hm.map fun _ _ hf => by rw [hf]
  unfold fact
  rw [← actAt_same h]
  split
  · exact .pure rfl
  · exact hsome (busFact_both h)
  · exact hsome (hostFact_both h)
  · exact hsome (receiveFact_both h)
  · exact hsome (configureEndpointsFact_both h)
  · exact hsome (registrationFact_both h)
  · exact hsome (addressFact_both h "send-address" .address)
  · exact hsome (typedAddress_both h "request-address" .address)
  · exact hsome (typedAddress_both h "endpoint-convention" .address)
  · exact hsome (entityFact_both h)
  · exact hsome (endpointNameFact_both h)
  · exact hsome (optionsFact_both h)
  · exact hsome (outboxFact_both h)
  · exact .pure rfl

omit h in
theorem emit_both : Both Eq (new ctx file sites).emit (rest ctx file sites).emit :=
  .bindEq (mapM_both keptPositions_same fun _ _ hi => fact_both hi) fun _ => .pure rfl

end Remaining

/-- **A refused site leaves no trace.** A site is kept exactly when it and all above it pass,
each parent standing before its child. The assembly always ends with facts, and they are those
of the remaining sites, all of which are kept. -/
theorem emit_remaining (ctx : Ctx) (file : Str) (sites : List TransportSite) :
    (∀ i : Nat, (new ctx file sites).kept[i]? = some true ↔
        Forest.Standing TransportSite.parent (checks ctx file) sites i) ∧
      (∀ i < (remaining ctx file sites).length, (rest ctx file sites).kept[i]? = some true) ∧
      ∃ facts, (new ctx file sites).emit = some facts ∧ (rest ctx file sites).emit = some facts := by
  refine ⟨fun i => Forest.keptOf_iff, fun i hi => ?_, emit_both.eq⟩
  exact Forest.kept_of_lt_length_compacted (fun _ _ => rfl) (fun _ _ => rfl) hi

/-! ## A parent that stands later -/

/-- The second position is that of the parent of the first. -/
def Above (sites : List TransportSite) (i p : Nat) : Prop :=
  ∃ s, sites[i]? = some s ∧ s.parent = some p

/-- An attribute is read without the members of the catalogue and without the repository. -/
def attributeCtx : Ctx where
  memberByKey _ := none
  catalogueType _ := none
  imports _ _ _ := false
  shadows _ _ _ := false
  qualify _ _ _ _ := .nothing
  receiverFits _ _ _ _ := false
  resolve _ _ _ := .unknown "expression".toList
  settingsFiles _ := []
  configuredValue _ _ _ := .unknown "expression".toList none

/-- Two attributes, of which the first names the second as its parent. -/
def forwardSites : List TransportSite :=
  [{ line := 1, member := "MassTransit.EntityNameAttribute".toList, parent := some 1 },
    { line := 2, member := "MassTransit.EntityNameAttribute".toList }]

/-- A parent that stands later is not waited for: the site is refused, though it and all above
it pass. -/
theorem forwardSites_refused :
    ¬((new attributeCtx "Order.cs".toList forwardSites).kept[0]? = some true ↔
      ∀ a, Relation.ReflTransGen (Above forwardSites) 0 a →
        ∃ s, forwardSites[a]? = some s ∧ checks attributeCtx "Order.cs".toList s = true) := by
  intro hiff
  have hrefused : (new attributeCtx "Order.cs".toList forwardSites).kept[0]? = some false := by
    decide +kernel
  have hpass : ∀ a, Relation.ReflTransGen (Above forwardSites) 0 a → a = 0 ∨ a = 1 := by
    intro a ha
    induction ha with
    | refl => exact .inl rfl
    | tail _ hstep ih =>
        obtain ⟨s, hs, hparent⟩ := hstep
        rcases ih with rfl | rfl
        · obtain rfl := Option.some.inj hs
          exact .inr (Option.some.inj hparent).symm
        · obtain rfl := Option.some.inj hs
          cases hparent
  have hkept := hiff.mpr fun a ha => by
    rcases hpass a ha with rfl | rfl
    · exact ⟨_, rfl, by decide +kernel⟩
    · exact ⟨_, rfl, by decide +kernel⟩
  rw [hrefused] at hkept
  cases hkept

end FileFacts

end Devscout.Transport
