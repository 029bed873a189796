/-
# Devscout.Semantic.FactSet -- records of one site, and the facts they come to

A site of an artifact can have several records, and the artifact promises neither their
order nor that none is written twice. What a lookup may use of a record is its fact: the
signature written in it, and the target it speaks for or the uncertainty it leaves. Is
the answer at a site one of the set of its facts?

Not always. Arity narrowing counts records, so a record written twice is no longer the
one that fits; the first uncertainty met is the one reported; and equal targets are
dropped only where they are neighbours. What follows is exactly when none of the three
matters.
-/

import Devscout.Semantic.Discovered
import Mathlib

namespace Devscout.Semantic

open Lib Resolve

/-! ## Facts -/

/-- What a record comes to in an index. -/
structure Fact where
  overloadSignature : Option Str
  reading : SemanticTarget ⊕ Uncertainty

namespace Fact

def target (f : Fact) : Option SemanticTarget := f.reading.getLeft?

def uncertainty (f : Fact) : Option Uncertainty := f.reading.getRight?

/-- Whether a caller's argument count is that of the written signature. -/
def fits (callerArgCount : Option Nat) (f : Fact) : Bool :=
  callerArgCount.isSome && f.overloadSignature.bind overloadArgCount == callerArgCount

end Fact

/-- The fact of one record. -/
def SemanticLayer.factOf (layer : SemanticLayer) (index : DefIndex) (member : Str)
    (occ : RawOccurrence) : Fact where
  overloadSignature := occ.targetOverloadSignature
  reading := match layer.spoken index member occ with
    | some target => .inl target
    | none => .inr (layer.silence occ)

/-- The facts of the records at a key. -/
def SemanticLayer.factsAt (layer : SemanticLayer) (index : DefIndex) (key : SiteKey) : List Fact :=
  (layer.atSite key).map (layer.factOf index key.2.2)

/-- Two layers that come to the same set of facts at a key. -/
def SameFacts (index : DefIndex) (key : SiteKey) (layer layer' : SemanticLayer) : Prop :=
  layer.freshness = layer'.freshness ∧
    ∀ f, f ∈ layer.factsAt index key ↔ f ∈ layer'.factsAt index key

/-- Outcomes that differ in the order of their targets at most. -/
inductive LookupOutcome.Same : LookupOutcome → LookupOutcome → Prop where
  | refl (o : LookupOutcome) : Same o o
  | many {ts us : List SemanticTarget} (h : ts.Perm us) : Same (.confirmedMany ts) (.confirmedMany us)

theorem LookupOutcome.Same.perm {o o' : LookupOutcome} (h : o.Same o') {ts us : List SemanticTarget}
    (ho : o = .confirmedMany ts) (ho' : o' = .confirmedMany us) : ts.Perm us := by
  cases h with
  | refl =>
      rw [ho, LookupOutcome.confirmedMany.injEq] at ho'
      exact ho' ▸ List.Perm.refl ts
  | many hperm =>
      cases ho
      cases ho'
      exact hperm

theorem LookupOutcome.Same.symm {o o' : LookupOutcome} (h : o.Same o') : o'.Same o := by
  cases h with
  | refl => exact .refl _
  | many hperm => exact .many hperm.symm

theorem LookupOutcome.Same.trans {o o' o'' : LookupOutcome} (h : o.Same o') (h' : o'.Same o'') :
    o.Same o'' := by
  cases h with
  | refl => exact h'
  | many hperm =>
      cases h' with
      | refl => exact .many hperm
      | many hperm' => exact .many (hperm.trans hperm')

/-- The site an edge with a member stands at. -/
def siteOf : Edge → Option SiteKey
  | .usesMember fromFile fromLine _ _ _ _ member _ _ => member.map fun m => (fromFile, fromLine, m)
  | _ => none

/-- The edges a projection appends at a site. -/
def projectedAt (layer : SemanticLayer) (index : DefIndex) (sites : List SiteKey) (key : SiteKey) :
    List Edge :=
  (project layer index sites).filter fun e => siteOf e == some key

/-- **Compiler lookups read a set of facts.** Layers with the same facts at a key have one
outcome there and append the same edges, no edge twice. -/
structure ReadsFactSet (layer : SemanticLayer) (index : DefIndex) (key : SiteKey)
    (callerArgCount : Option Nat) : Prop where
  outcome : ∀ layer', SameFacts index key layer layer' →
    (layer.lookup index key.1 key.2.1 key.2.2 callerArgCount).Same
      (layer'.lookup index key.1 key.2.1 key.2.2 callerArgCount)
  edges : ∀ layer', SameFacts index key layer layer' → ∀ sites,
    (projectedAt layer index sites key).Perm (projectedAt layer' index sites key)
  distinct : ∀ sites, (projectedAt layer index sites key).Nodup

/-- The facts name one target at most, or else one uncertainty; and the only one that fits
the caller's count is not a silent one beside one that speaks. -/
structure OneAnswer (callerArgCount : Option Nat) (facts : List Fact) : Prop where
  oneTarget : ∀ f ∈ facts, ∀ g ∈ facts, ∀ t u, f.target = some t → g.target = some u → t = u
  oneSilence : (∀ f ∈ facts, f.target = none) → ∀ f ∈ facts, ∀ g ∈ facts, f.reading = g.reading
  singledOut : ∀ f ∈ facts, f.fits callerArgCount → (∀ g ∈ facts, g.fits callerArgCount → g = f) →
    f.target = none → ∀ g ∈ facts, g.target = none

/-! ## The outcome, read off the facts -/

/-- `narrowed`, on facts. -/
def narrowedFacts (callerArgCount : Option Nat) (facts : List Fact) : List Fact :=
  if facts.length ≤ 1 then facts
  else if (facts.filter (Fact.fits callerArgCount)).length = 1 then
    facts.filter (Fact.fits callerArgCount)
  else facts

/-- What the facts left after narrowing come to. -/
def answer (facts : List Fact) : LookupOutcome :=
  match dedup (facts.filterMap Fact.target) with
  | [] => ((facts.filterMap Fact.uncertainty).head?.map LookupOutcome.other).getD .noFact
  | [target] => .confirmed target
  | targets => .confirmedMany targets

variable {layer layer' : SemanticLayer} {index : DefIndex} {key : SiteKey} {member : Str}

theorem target_factOf (occ : RawOccurrence) :
    (layer.factOf index member occ).target = layer.spoken index member occ := by
  unfold SemanticLayer.factOf Fact.target
  cases layer.spoken index member occ <;> rfl

theorem uncertainty_factOf (occ : RawOccurrence) :
    (layer.factOf index member occ).uncertainty =
      if (layer.spoken index member occ).isSome then none else some (layer.silence occ) := by
  unfold SemanticLayer.factOf Fact.uncertainty
  cases layer.spoken index member occ <;> rfl

/-- The uncertainty the loop keeps is the first one met. -/
theorem collect_silence (records : List RawOccurrence)
    (acc : List SemanticTarget × Option Uncertainty) :
    (records.foldl (layer.collect index member) acc).2 =
      acc.2.or ((records.map (layer.factOf index member)).filterMap Fact.uncertainty).head? := by
  induction records generalizing acc with
  | nil => simp
  | cons occ records ih =>
      rw [List.foldl_cons, ih, List.map_cons, List.filterMap_cons, uncertainty_factOf]
      unfold SemanticLayer.collect
      cases hspoken : layer.spoken index member occ with
      | some target => simp
      | none => cases acc.2 <;> simp

theorem map_narrowed (callerArgCount : Option Nat) (records : List RawOccurrence) :
    (narrowed callerArgCount records).map (layer.factOf index member) =
      narrowedFacts callerArgCount (records.map (layer.factOf index member)) := by
  unfold narrowed narrowedFacts
  rw [List.length_map]
  by_cases hone : records.length ≤ 1
  · rw [if_pos hone, if_pos hone]
  · rw [if_neg hone, if_neg hone, List.filter_map, List.length_map]
    cases callerArgCount with
    | none =>
        have hnone : records.filter (Fact.fits none ∘ layer.factOf index member) = [] :=
          List.filter_eq_nil_iff.mpr fun occ _ => by simp [Fact.fits]
        rw [hnone]
        rfl
    | some want =>
        have hfits : Fact.fits (some want) ∘ layer.factOf index member =
            fun occ => occ.targetOverloadSignature.bind overloadArgCount == some want := by
          funext occ
          simp [Fact.fits, SemanticLayer.factOf]
        simp only [hfits]
        split <;> rfl

/-- **A fresh layer's lookup is the answer of the facts at the key.** -/
theorem lookup_eq_answer (hfresh : layer.freshness = .fresh) (callerArgCount : Option Nat) :
    layer.lookup index key.1 key.2.1 key.2.2 callerArgCount =
      answer (narrowedFacts callerArgCount (layer.factsAt index key)) := by
  unfold SemanticLayer.lookup answer SemanticLayer.factsAt
  rw [hfresh, ← map_narrowed]
  dsimp only
  cases hrecords : layer.atSite key with
  | nil => simp [narrowed, dedup]
  | cons first rest =>
      dsimp only
      have htarget : Fact.target ∘ layer.factOf index key.2.2 = layer.spoken index key.2.2 :=
        funext target_factOf
      rw [collect_targets, collect_silence, List.nil_append, Option.none_or, ← htarget,
        List.filterMap_map, List.filterMap_map] <;> rfl

/-! ## Narrowing, and what is answered -/

section Answers

variable {callerArgCount : Option Nat} {facts facts' : List Fact}

/-- Narrowing leaves all, or the one fact that fits. -/
theorem narrowedFacts_cases : narrowedFacts callerArgCount facts = facts ∨
    ∃ f ∈ facts, f.fits callerArgCount ∧ (∀ g ∈ facts, g.fits callerArgCount → g = f) ∧
      narrowedFacts callerArgCount facts = [f] := by
  unfold narrowedFacts
  by_cases hshort : facts.length ≤ 1
  · exact Or.inl (if_pos hshort)
  · rw [if_neg hshort]
    by_cases hone : (facts.filter (Fact.fits callerArgCount)).length = 1
    · rw [if_pos hone]
      obtain ⟨f, hf⟩ := List.length_eq_one_iff.mp hone
      have hfits : ∀ g, g ∈ facts ∧ g.fits callerArgCount ↔ g = f := fun g => by
        rw [← List.mem_filter, hf, List.mem_singleton]
      have hself := (hfits f).mpr rfl
      exact Or.inr ⟨f, hself.1, hself.2, fun g hg hfit => (hfits g).mp ⟨hg, hfit⟩, hf⟩
    · exact Or.inl (if_neg hone)

/-- Nothing is narrowed where every fact stands twice. -/
theorem narrowedFacts_doubled {extra : List Fact} (hextra : ∀ f ∈ extra, f ∈ facts) :
    narrowedFacts callerArgCount (extra ++ (facts ++ facts)) = extra ++ (facts ++ facts) := by
  unfold narrowedFacts
  have hlength : ((extra ++ (facts ++ facts)).filter (Fact.fits callerArgCount)).length ≠ 1 := by
    intro hone
    simp only [List.filter_append, List.length_append] at hone
    have hsome : 0 < (extra.filter (Fact.fits callerArgCount)).length := by omega
    obtain ⟨f, hf⟩ := List.exists_mem_of_length_pos hsome
    have hmem : f ∈ facts.filter (Fact.fits callerArgCount) :=
      List.mem_filter.mpr ⟨hextra f (List.mem_filter.mp hf).1, (List.mem_filter.mp hf).2⟩
    have hpos := List.length_pos_of_mem hmem
    omega
  rw [if_neg hlength, ite_self]

theorem answer_target {t : SemanticTarget} (hsome : ∃ f ∈ facts, f.target = some t)
    (hall : ∀ f ∈ facts, ∀ u, f.target = some u → u = t) : answer facts = .confirmed t := by
  have hone : dedup (facts.filterMap Fact.target) = [t] :=
    dedup_filterMap_eq_singleton_iff.mpr ⟨hsome, hall⟩
  unfold answer
  rw [hone]

theorem answer_silent {f : Fact} {rest : List Fact} (hall : ∀ g ∈ f :: rest, g.target = none)
    {u : Uncertainty} (hf : f.reading = .inr u) : answer (f :: rest) = .other u := by
  have hnone : (f :: rest).filterMap Fact.target = [] := List.filterMap_eq_nil_iff.mpr hall
  have hfirst : f.uncertainty = some u := by rw [Fact.uncertainty, hf]; rfl
  unfold answer
  rw [hnone, List.filterMap_cons, hfirst]
  rfl

theorem exists_uncertainty {f : Fact} (h : f.target = none) : ∃ u, f.reading = .inr u := by
  unfold Fact.target at h
  cases hf : f.reading with
  | inl t => simp [hf] at h
  | inr u => exact ⟨u, rfl⟩

namespace OneAnswer

variable (h : OneAnswer callerArgCount facts)
include h

/-- One that speaks, and it is confirmed, whatever narrowing leaves. -/
theorem answer_speaks {f : Fact} (hf : f ∈ facts) {t : SemanticTarget} (ht : f.target = some t) :
    answer (narrowedFacts callerArgCount facts) = .confirmed t := by
  have hall : ∀ g ∈ facts, ∀ u, g.target = some u → u = t :=
    fun g hg u hu => h.oneTarget g hg f hf u t hu ht
  rcases @narrowedFacts_cases callerArgCount facts with
    hkeep | ⟨g, hg, hfits, honly, hkeep⟩
  · rw [hkeep]
    exact answer_target ⟨f, hf, ht⟩ hall
  · -- the one left would have to be silent, and then so would `f`
    have hspeaks : g.target ≠ none := fun hnone => by
      have := h.singledOut g hg hfits honly hnone f hf
      rw [ht] at this
      cases this
    obtain ⟨u, hu⟩ := Option.ne_none_iff_exists'.mp hspeaks
    rw [hkeep]
    refine answer_target ⟨g, List.mem_singleton_self g, by rw [hu, hall g hg u hu]⟩ ?_
    intro g' hg' u' hu'
    rw [List.mem_singleton.mp hg'] at hu'
    exact hall g hg u' hu'

/-- None that speaks, and the one uncertainty is reported. -/
theorem answer_silence (hnone : ∀ f ∈ facts, f.target = none) {f : Fact} (hf : f ∈ facts)
    {u : Uncertainty} (hu : f.reading = .inr u) :
    answer (narrowedFacts callerArgCount facts) = .other u := by
  rcases @narrowedFacts_cases callerArgCount facts with
    hkeep | ⟨g, hg, -, -, hkeep⟩
  · rw [hkeep]
    cases facts with
    | nil => cases hf
    | cons first rest =>
        refine answer_silent hnone ?_
        rw [h.oneSilence hnone first List.mem_cons_self f hf, hu]
  · rw [hkeep]
    refine answer_silent (fun g' hg' => ?_) ((h.oneSilence hnone g hg f hf).trans hu)
    rw [List.mem_singleton.mp hg']
    exact hnone g hg

theorem congr (hsame : ∀ f, f ∈ facts ↔ f ∈ facts') : OneAnswer callerArgCount facts' where
  oneTarget f hf g hg := h.oneTarget f ((hsame f).mpr hf) g ((hsame g).mpr hg)
  oneSilence hnone f hf g hg :=
    h.oneSilence (fun f hf => hnone f ((hsame f).mp hf)) f ((hsame f).mpr hf) g ((hsame g).mpr hg)
  singledOut f hf hfits honly hnone g hg :=
    h.singledOut f ((hsame f).mpr hf) hfits (fun g hg => honly g ((hsame g).mp hg)) hnone g
      ((hsame g).mpr hg)

/-- **One answer of one set.** -/
theorem answer_eq (hsame : ∀ f, f ∈ facts ↔ f ∈ facts') :
    answer (narrowedFacts callerArgCount facts) = answer (narrowedFacts callerArgCount facts') := by
  have h' : OneAnswer callerArgCount facts' := h.congr hsame
  by_cases hnone : ∀ f ∈ facts, f.target = none
  · cases hfacts : facts with
    | nil =>
        have hempty : facts' = [] := List.eq_nil_iff_forall_not_mem.mpr fun f hf => by
          have := (hsame f).mpr hf
          rw [hfacts] at this
          cases this
        rw [hempty]
    | cons f rest =>
        have hf : f ∈ facts := by rw [hfacts]; exact List.mem_cons_self
        obtain ⟨u, hu⟩ := exists_uncertainty (hnone f hf)
        rw [← hfacts, h.answer_silence hnone hf hu,
          h'.answer_silence (fun g hg => hnone g ((hsame g).mpr hg)) ((hsame f).mp hf) hu]
  · push Not at hnone
    obtain ⟨f, hf, hspeaks⟩ := hnone
    obtain ⟨t, ht⟩ := Option.ne_none_iff_exists'.mp hspeaks
    rw [h.answer_speaks hf ht, h'.answer_speaks ((hsame f).mp hf) ht]

end OneAnswer

/-! ## Where the set does not decide -/

theorem dedup_cons_head {α : Type} [DecidableEq α] (a : α) (as : List α) :
    ∃ rest, dedup (a :: as) = a :: rest := by
  unfold dedup
  cases dedup as with
  | nil => exact ⟨[], rfl⟩
  | cons b bs =>
      by_cases hab : a = b
      · exact ⟨bs, by simp [hab]⟩
      · exact ⟨b :: bs, by simp [hab]⟩

theorem dedup_cons_cons {α : Type} [DecidableEq α] {a b : α} (hab : a ≠ b) (as : List α) :
    dedup (a :: b :: as) = a :: dedup (b :: as) := by
  obtain ⟨rest, hrest⟩ := dedup_cons_head b as
  rw [dedup, hrest]
  exact if_neg hab

theorem answer_many {ts : List SemanticTarget} (hts : dedup (facts.filterMap Fact.target) = ts)
    (hlong : 2 ≤ ts.length) : answer facts = .confirmedMany ts := by
  unfold answer
  rw [hts]
  match ts, hlong with
  | _ :: _ :: _, _ => rfl

/-- All arrangements of one set of facts have one outcome. -/
def OrderBlind (callerArgCount : Option Nat) (facts : List Fact) : Prop :=
  ∀ left right : List Fact, (∀ f, f ∈ left ↔ f ∈ facts) → (∀ f, f ∈ right ↔ f ∈ facts) →
    (answer (narrowedFacts callerArgCount left)).Same (answer (narrowedFacts callerArgCount right))

/-- The facts twice over, some of them once more in front. -/
theorem OrderBlind.doubled (h : OrderBlind callerArgCount facts) {extra extra' : List Fact}
    (hextra : ∀ f ∈ extra, f ∈ facts) (hextra' : ∀ f ∈ extra', f ∈ facts) :
    (answer (extra ++ (facts ++ facts))).Same (answer (extra' ++ (facts ++ facts))) := by
  have hset : ∀ {more : List Fact}, (∀ f ∈ more, f ∈ facts) →
      ∀ f, f ∈ more ++ (facts ++ facts) ↔ f ∈ facts := fun hmore f => by
    rw [List.mem_append, List.mem_append, or_self]
    exact ⟨fun hf => hf.elim (hmore f) id, Or.inr⟩
  have hboth := h _ _ (hset hextra) (hset hextra')
  rwa [narrowedFacts_doubled hextra, narrowedFacts_doubled hextra'] at hboth

/-- Two targets, and one more turn between them makes the list of them longer. -/
theorem OrderBlind.oneTarget (h : OrderBlind callerArgCount facts) {f g : Fact} (hf : f ∈ facts)
    (hg : g ∈ facts) {t u : SemanticTarget} (ht : f.target = some t) (hu : g.target = some u) :
    t = u := by
  by_contra hne
  have hsame : (answer ([f] ++ (facts ++ facts))).Same (answer ([g, f] ++ (facts ++ facts))) :=
    h.doubled (by simpa using hf) (by simpa using ⟨hg, hf⟩)
  set more := (facts ++ facts).filterMap Fact.target with hmore
  have hfirst : ([f] ++ (facts ++ facts)).filterMap Fact.target = t :: more := by
    simp [ht, hmore]
  have hsecond : ([g, f] ++ (facts ++ facts)).filterMap Fact.target = u :: t :: more := by
    simp [ht, hu, hmore]
  have hlong : 2 ≤ (dedup (t :: more)).length := by
    obtain ⟨rest, hrest⟩ := dedup_cons_head t more
    cases rest with
    | cons b bs => simp [hrest]
    | nil =>
        have hum : u ∈ t :: more := List.mem_cons_of_mem _ (by
          rw [hmore, List.filterMap_append]
          exact List.mem_append_left _ (List.mem_filterMap.mpr ⟨g, hg, hu⟩))
        exact absurd ((dedup_eq_singleton_iff.mp hrest).2 u hum).symm hne
  rw [answer_many (congrArg dedup hfirst) hlong, answer_many (congrArg dedup hsecond) (by
    rw [dedup_cons_cons (Ne.symm hne)]; simp; omega), dedup_cons_cons (Ne.symm hne)] at hsame
  have hlength := (hsame.perm rfl rfl).length_eq
  rw [List.length_cons] at hlength
  omega

/-- Two uncertainties, and the one in front is reported. -/
theorem OrderBlind.oneSilence (h : OrderBlind callerArgCount facts)
    (hnone : ∀ f ∈ facts, f.target = none) {f g : Fact} (hf : f ∈ facts) (hg : g ∈ facts) :
    f.reading = g.reading := by
  obtain ⟨u, hu⟩ := exists_uncertainty (hnone f hf)
  obtain ⟨v, hv⟩ := exists_uncertainty (hnone g hg)
  have hquiet : ∀ x ∈ facts ++ facts, x.target = none := fun x hx =>
    hnone x ((List.mem_append.mp hx).elim id id)
  have hsame : (answer ([f] ++ (facts ++ facts))).Same (answer ([g] ++ (facts ++ facts))) :=
    h.doubled (by simpa using hf) (by simpa using hg)
  rw [List.singleton_append, List.singleton_append,
    answer_silent (List.forall_mem_cons.mpr ⟨hnone f hf, hquiet⟩) hu,
    answer_silent (List.forall_mem_cons.mpr ⟨hnone g hg, hquiet⟩) hv] at hsame
  cases hsame
  rw [hu, hv]

/-- A silent fact that alone fits: written once it is the answer, written twice it is
not. -/
theorem OrderBlind.singledOut (h : OrderBlind callerArgCount facts) {f : Fact} (hf : f ∈ facts)
    (hfits : f.fits callerArgCount) (honly : ∀ g ∈ facts, g.fits callerArgCount → g = f)
    (hnone : f.target = none) : ∀ g ∈ facts, g.target = none := by
  classical
  intro g hg
  by_contra hspeaks
  obtain ⟨t, ht⟩ := Option.ne_none_iff_exists'.mp hspeaks
  obtain ⟨u, hu⟩ := exists_uncertainty hnone
  have hgf : g ≠ f := fun hgf => by rw [hgf] at hspeaks; exact hspeaks hnone
  set once := f :: facts.filter fun x => decide (x ≠ f) with honce
  have hset : ∀ x, x ∈ once ↔ x ∈ facts := fun x => by
    rw [honce, List.mem_cons, List.mem_filter, decide_eq_true_eq]
    by_cases hxf : x = f
    · simpa [hxf] using hf
    · simp [hxf]
  have hleft : once.filter (Fact.fits callerArgCount) = [f] := by
    rw [honce, List.filter_cons_of_pos hfits]
    have hrest : (facts.filter fun x => decide (x ≠ f)).filter (Fact.fits callerArgCount) = [] :=
      List.filter_eq_nil_iff.mpr fun x hx hfit =>
        of_decide_eq_true (List.mem_filter.mp hx).2 (honly x (List.mem_filter.mp hx).1 hfit)
    rw [hrest]
  have hlong : ¬ once.length ≤ 1 := by
    have hmem : g ∈ facts.filter fun x => decide (x ≠ f) :=
      List.mem_filter.mpr ⟨hg, decide_eq_true hgf⟩
    have hpos := List.length_pos_of_mem hmem
    rw [honce, List.length_cons]
    omega
  have honceAnswer : answer (narrowedFacts callerArgCount once) = .other u := by
    unfold narrowedFacts
    rw [if_neg hlong, hleft, List.length_singleton, if_pos rfl]
    exact answer_silent (fun x hx => by rw [List.mem_singleton.mp hx, hnone]) hu
  have htwice : answer (narrowedFacts callerArgCount (facts ++ facts)) = .confirmed t := by
    rw [← List.nil_append (facts ++ facts), narrowedFacts_doubled (List.forall_mem_nil _)]
    refine answer_target ⟨g, by simp [hg], ht⟩ fun x hx u hxu => ?_
    exact h.oneTarget (by simpa using hx) hg hxu ht
  have hsame := h once (facts ++ facts) hset (fun x => by rw [List.mem_append, or_self])
  rw [honceAnswer, htwice] at hsame
  cases hsame

theorem oneAnswer_iff : OneAnswer callerArgCount facts ↔ OrderBlind callerArgCount facts := by
  constructor
  · intro h left right hleft hright
    have hsets : ∀ f, f ∈ left ↔ f ∈ right := fun f => (hleft f).trans (hright f).symm
    rw [(h.congr fun f => (hleft f).symm).answer_eq hsets]
    exact .refl _
  · intro h
    exact
      { oneTarget := fun f hf g hg t u ht hu => h.oneTarget hf hg ht hu
        oneSilence := fun hnone f hf g hg => h.oneSilence hnone hf hg
        singledOut := fun f hf hfits honly hnone => h.singledOut hf hfits honly hnone }

end Answers

/-! ## Layers and projections -/

/-- Any arrangement of the facts at a key is that of some artifact: the records written in
that order, so often. -/
theorem exists_arranged {facts : List Fact} (h : ∀ f, f ∈ facts ↔ f ∈ layer.factsAt index key) :
    ∃ layer', SameFacts index key layer layer' ∧ layer'.factsAt index key = facts := by
  have hrecords : ∃ records : List {occ // occ ∈ layer.atSite key},
      records.map (fun occ => layer.factOf index key.2.2 occ.1) = facts := by
    have hrange : ∀ f ∈ facts, f ∈ Set.range fun occ : {occ // occ ∈ layer.atSite key} =>
        layer.factOf index key.2.2 occ.1 := fun f hf => by
      obtain ⟨occ, hocc, hfact⟩ := List.mem_map.mp ((h f).mp hf)
      exact ⟨⟨occ, hocc⟩, hfact⟩
    have hall : facts ∈ Set.range (List.map fun occ : {occ // occ ∈ layer.atSite key} =>
        layer.factOf index key.2.2 occ.1) := by
      rw [Set.range_list_map]
      exact hrange
    exact hall
  obtain ⟨records, hfacts⟩ := hrecords
  let layer' : SemanticLayer := { layer with occurrences := records.map Subtype.val }
  have hsite : layer'.atSite key = records.map Subtype.val :=
    List.filter_eq_self.mpr fun occ hocc => by
      obtain ⟨⟨occ, hmem⟩, -, rfl⟩ := List.mem_map.mp hocc
      exact (List.mem_filter.mp hmem).2
  have hat : layer'.factsAt index key = facts := by
    rw [SemanticLayer.factsAt, hsite, List.map_map, ← hfacts]
    rfl
  exact ⟨layer', ⟨rfl, fun f => by rw [hat]; exact (h f).symm⟩, hat⟩

theorem lookup_stale {reason : Str} (h : layer.freshness = .stale reason) {file : Str} {line : Nat}
    {callerArgCount : Option Nat} :
    layer.lookup index file line member callerArgCount = .other (.stale reason) := by
  unfold SemanticLayer.lookup
  rw [h]

theorem siteOf_of_mem_discoveredAt {e : Edge} (h : e ∈ discoveredAt layer index key) :
    siteOf e = some key := by
  unfold discoveredAt at h
  split at h
  · rw [List.mem_singleton.mp h]
    rfl
  · split at h
    · obtain ⟨target, -, rfl⟩ := List.mem_map.mp h
      rfl
    · cases h
  · cases h

theorem discoveredAt_of_no_record (h : key ∉ layer.siteKeys) : discoveredAt layer index key = [] := by
  have hnone : layer.atSite key = [] := List.filter_eq_nil_iff.mpr fun occ hocc hkey => by
    refine h (((List.perm_insertionSort siteKeyLe _).mem_iff).mpr ?_)
    rw [mem_unionNew]
    exact Or.inr (List.mem_filterMap.mpr ⟨occ, hocc, beq_iff_eq.mp hkey⟩)
  unfold discoveredAt SemanticLayer.lookup
  cases layer.freshness with
  | stale reason => rfl
  | fresh => rw [hnone]

theorem nodup_siteKeys : layer.siteKeys.Nodup :=
  ((List.perm_insertionSort siteKeyLe _).nodup_iff).mpr (nodup_unionNew List.nodup_nil)

theorem flatMap_of_sole {α β : Type} [DecidableEq α] {f : α → List β} {as : List α} {k : α}
    (hnodup : as.Nodup) (hother : ∀ a ∈ as, a ≠ k → f a = []) :
    as.flatMap f = if k ∈ as then f k else [] := by
  induction as with
  | nil => rfl
  | cons a as ih =>
      obtain ⟨ha, hnodup⟩ := List.nodup_cons.mp hnodup
      rw [List.flatMap_cons, ih hnodup fun b hb => hother b (List.mem_cons_of_mem a hb)]
      by_cases hak : a = k
      · subst hak
        rw [if_neg ha, if_pos List.mem_cons_self, List.append_nil]
      · rw [hother a List.mem_cons_self hak, List.nil_append]
        simp only [List.mem_cons, Ne.symm hak, false_or]

/-- The edges appended at a site are those of its own lookup, if no reference stands
there. -/
theorem projectedAt_eq (sites : List SiteKey) :
    projectedAt layer index sites key = if key ∈ sites then [] else discoveredAt layer index key := by
  unfold projectedAt project
  rw [List.filter_flatMap]
  have hhere : ∀ k, (discoveredAt layer index k).filter (fun e => siteOf e == some key) =
      if k = key then discoveredAt layer index k else [] := by
    intro k
    by_cases hk : k = key
    · rw [if_pos hk]
      exact List.filter_eq_self.mpr fun e he =>
        beq_iff_eq.mpr ((siteOf_of_mem_discoveredAt he).trans (congrArg some hk))
    · rw [if_neg hk]
      refine List.filter_eq_nil_iff.mpr fun e he hsite => hk ?_
      exact Option.some.inj ((siteOf_of_mem_discoveredAt he).symm.trans (beq_iff_eq.mp hsite))
  rw [flatMap_of_sole (k := key) (nodup_siteKeys.filter _) fun k _ hk => by rw [hhere, if_neg hk],
    hhere, if_pos rfl]
  simp only [List.mem_filter, decide_eq_true_eq]
  by_cases hsites : key ∈ sites
  · rw [if_pos hsites, if_neg fun h => h.2 hsites]
  · rw [if_neg hsites]
    by_cases hkey : key ∈ layer.siteKeys
    · rw [if_pos ⟨hkey, hsites⟩]
    · rw [if_neg fun h => hkey h.1, discoveredAt_of_no_record hkey]

/-! ## The law -/

/-- A site whose facts give one answer projects one edge at most. -/
theorem length_discoveredAt_le (hfresh : layer.freshness = .fresh)
    (h : OneAnswer none (layer.factsAt index key)) : (discoveredAt layer index key).length ≤ 1 := by
  unfold discoveredAt
  rw [lookup_eq_answer hfresh]
  by_cases hnone : ∀ f ∈ layer.factsAt index key, f.target = none
  · cases hfacts : layer.factsAt index key with
    | nil => exact Nat.zero_le 1
    | cons f rest =>
        have hf : f ∈ layer.factsAt index key := by rw [hfacts]; exact List.mem_cons_self
        obtain ⟨u, hu⟩ := exists_uncertainty (hnone f hf)
        rw [← hfacts, h.answer_silence hnone hf hu]
        exact Nat.zero_le 1
  · push Not at hnone
    obtain ⟨f, hf, hspeaks⟩ := hnone
    obtain ⟨t, ht⟩ := Option.ne_none_iff_exists'.mp hspeaks
    rw [h.answer_speaks hf ht]
    exact Nat.le_refl 1

/-- Without a caller's count nothing is narrowed, and nothing is singled out. -/
theorem OneAnswer.uncounted {callerArgCount : Option Nat} {facts : List Fact}
    (h : OneAnswer callerArgCount facts) : OneAnswer none facts where
  oneTarget := h.oneTarget
  oneSilence := h.oneSilence
  singledOut f _ hfits := by simp [Fact.fits] at hfits

/-- Of a stale artifact every lookup says the same, and nothing is projected. -/
theorem readsFactSet_of_stale {callerArgCount : Option Nat} {reason : Str}
    (hstale : layer.freshness = .stale reason) : ReadsFactSet layer index key callerArgCount := by
  have hnothing : ∀ {layer' : SemanticLayer}, layer'.freshness = .stale reason →
      ∀ sites, projectedAt layer' index sites key = [] := fun hl sites => by
    rw [projectedAt_eq, discoveredAt, lookup_stale hl, ite_self]
  refine ⟨fun layer' hsame => ?_, fun layer' hsame sites => ?_, fun sites => ?_⟩
  · rw [lookup_stale hstale, lookup_stale (hsame.1 ▸ hstale)]
    exact .refl _
  · rw [hnothing hstale, hnothing (hsame.1 ▸ hstale)]
  · rw [hnothing hstale]
    exact List.nodup_nil

/-- **When a site is read as a set of facts.** The artifact is stale, and every answer says
so; or the facts at the site give one answer: one target among those that speak, or else
one uncertainty, and the only fact of the caller's arity is not a silent one beside one
that speaks. -/
theorem readsFactSet_iff (layer : SemanticLayer) (index : DefIndex) (key : SiteKey)
    (callerArgCount : Option Nat) :
    ReadsFactSet layer index key callerArgCount ↔
      (∃ reason, layer.freshness = .stale reason) ∨
        OneAnswer callerArgCount (layer.factsAt index key) := by
  constructor
  · intro h
    cases hfresh : layer.freshness with
    | stale reason => exact Or.inl ⟨reason, rfl⟩
    | fresh =>
        right
        refine oneAnswer_iff.mpr fun left right hleft hright => ?_
        -- both arrangements are those of some artifact, and so have the layer's outcome
        obtain ⟨layer₁, hsame₁, hfacts₁⟩ := exists_arranged hleft
        obtain ⟨layer₂, hsame₂, hfacts₂⟩ := exists_arranged hright
        have h₁ := h.outcome layer₁ hsame₁
        have h₂ := h.outcome layer₂ hsame₂
        rw [lookup_eq_answer hfresh, lookup_eq_answer (hsame₁.1 ▸ hfresh), hfacts₁] at h₁
        rw [lookup_eq_answer hfresh, lookup_eq_answer (hsame₂.1 ▸ hfresh), hfacts₂] at h₂
        exact h₁.symm.trans h₂
  · rintro (⟨reason, hstale⟩ | h)
    · exact readsFactSet_of_stale hstale
    · cases hfresh : layer.freshness with
      | stale reason => exact readsFactSet_of_stale hfresh
      | fresh =>
          have hlookup : ∀ {count : Option Nat} {layer' : SemanticLayer},
              SameFacts index key layer layer' → OneAnswer count (layer.factsAt index key) →
              layer.lookup index key.1 key.2.1 key.2.2 count =
                layer'.lookup index key.1 key.2.1 key.2.2 count := fun hsame hone => by
            rw [lookup_eq_answer hfresh, lookup_eq_answer (hsame.1 ▸ hfresh), hone.answer_eq hsame.2]
          refine ⟨fun layer' hsame => ?_, fun layer' hsame sites => ?_, fun sites => ?_⟩
          · rw [hlookup hsame h]
            exact .refl _
          · rw [projectedAt_eq, projectedAt_eq, discoveredAt, discoveredAt, hlookup hsame h.uncounted]
          · rw [projectedAt_eq]
            split
            · exact List.nodup_nil
            · have hlength := length_discoveredAt_le hfresh h.uncounted
              match discoveredAt layer index key, hlength with
              | [], _ => exact List.nodup_nil
              | [e], _ => simp

/-! ## A record written twice -/

/-- One class, and nothing else. -/
def oneClassIndex : DefIndex :=
  buildDefIndex [("Shop/Order.cs".toList,
    { defs := [{ id := "Shop.Order".toList, name := "Order".toList, namespace_ := "Shop".toList
                 kind := "class".toList, line := 3 }] })]

/-- A confirmed call of one overload, at one site. -/
def confirmedCall (signature : String) : RawOccurrence where
  file := "Shop/Cart.cs".toList
  nameLine := 7
  resolution := "confirmed".toList
  targetType := some "Shop.Order".toList
  targetMember := some "Create".toList
  compilationIdentity := .null
  targetOverloadSignature := some signature.toList

/-- Two overloads called on one line, the first of them recorded again after the
second. -/
def recordedAgain : SemanticLayer where
  freshness := .fresh
  occurrences := [confirmedCall "(int)->void", confirmedCall "()->void", confirmedCall "(int)->void"]
  compilations := []

theorem recordedAgain_not_set : ¬ ∀ layer index key callerArgCount,
    ReadsFactSet layer index key callerArgCount := by
  intro h
  have hdistinct := (h recordedAgain oneClassIndex
    ("Shop/Cart.cs".toList, 7, "Create".toList) none).distinct []
  exact absurd hdistinct (by decide)

end Devscout.Semantic
