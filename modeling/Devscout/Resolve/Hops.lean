/-
# Devscout.Resolve.Hops -- when the hops of a run are the right ones

Two properties of the hops, each with the exact condition under which it holds. A hop
goes to every handler once, and to no one else, as long as reading a definition's
messages in its own file, first listings only, makes no difference. And no message is
routed to itself through a base that registrations taught, as long as no sent message
lists such a base with itself as the argument.
-/

import Devscout.Resolve.BusRoutes

namespace Devscout.Resolve

open Lib

section Hops

variable (resolve : Resolver) (fragments : Fragments) (index : DefIndex) (contexts : Contexts)

/-- The vocabulary of a run, without the registrations' say. -/
def runVocabulary : BusVocabulary := (busVocabulary resolve fragments index contexts).1

/-- Every kept site reaches each definition that handles its message once, and no other. -/
def EachHandlerOnce : Prop :=
  ∀ publish ∈ keptPublishSites resolve fragments index contexts, ∀ defIdx,
    (HandlesWhereWritten resolve fragments index contexts
        (runVocabulary resolve fragments index contexts) defIdx publish.message →
      (handlersOf resolve fragments index contexts publish).countP (·.defIdx = defIdx) = 1) ∧
    (¬HandlesWhereWritten resolve fragments index contexts
        (runVocabulary resolve fragments index contexts) defIdx publish.message →
      (handlersOf resolve fragments index contexts publish).countP (·.defIdx = defIdx) = 0)

/-- For every sent message, what the declarations of a definition mean where they are
written and what its taken texts mean in its own file come to the same. -/
def PartsReadAlike : Prop :=
  ∀ publish ∈ keptPublishSites resolve fragments index contexts, ∀ defIdx,
    HandlesWhereWritten resolve fragments index contexts
        (runVocabulary resolve fragments index contexts) defIdx publish.message ↔
      HandlesInOwnFile resolve fragments index contexts
        (runVocabulary resolve fragments index contexts) defIdx publish.message

variable {resolve fragments index contexts}

/-- The edges a run adds are the hops of its sites, site by site. -/
theorem appendBusEdges_edges (l : Ledger) :
    (appendBusEdges resolve fragments index contexts l).1.edges =
      l.edges ++ (keptPublishSites resolve fragments index contexts).flatMap fun publish =>
        (handlersOf resolve fragments index contexts publish).map (hopEdge index publish) := by
  show _ = l.edges ++ busHops resolve fragments index contexts
  unfold appendBusEdges
  by_cases hquiet : (fragments.all fun f => f.2.publishes.isEmpty) = true
  · -- without any publish site no site is kept
    have hkept : keptPublishSites resolve fragments index contexts = [] := by
      unfold keptPublishSites
      rw [List.flatMap_eq_nil_iff]
      intro f hf
      have hnone : f.2.publishes = [] := by simpa using List.all_eq_true.mp hquiet f hf
      split
      · rfl
      · rw [hnone, List.filterMap_nil]
    simp [hquiet, busHops, hkept]
  · cases hhops : busHops resolve fragments index contexts with
    | nil => simp
    | cons hop hops => simp [hquiet]

/-- A site reaches a definition once when it handles the message in its own file, and
else not at all. -/
theorem countP_handlersOf (publish : KeptPublish) (defIdx : Nat) :
    (HandlesInOwnFile resolve fragments index contexts
        (runVocabulary resolve fragments index contexts) defIdx publish.message →
      (handlersOf resolve fragments index contexts publish).countP (·.defIdx = defIdx) = 1) ∧
    (¬HandlesInOwnFile resolve fragments index contexts
        (runVocabulary resolve fragments index contexts) defIdx publish.message →
      (handlersOf resolve fragments index contexts publish).countP (·.defIdx = defIdx) = 0) := by
  set v := runVocabulary resolve fragments index contexts with hv
  have hcount : (handlersOf resolve fragments index contexts publish).countP (·.defIdx = defIdx) =
      ((resolvedConsumers resolve fragments index contexts v).map
        fun r => (r.defIdx, r.message)).count (defIdx, publish.message) := by
    unfold handlersOf busConsumers
    rw [List.countP_filter, List.count, List.countP_map]
    refine List.countP_congr fun r _ => ?_
    simp
  have hmem : (defIdx, publish.message) ∈ (resolvedConsumers resolve fragments index contexts v).map
      (fun r => (r.defIdx, r.message)) ↔
        HandlesInOwnFile resolve fragments index contexts v defIdx publish.message := by
    rw [← mem_resolvedConsumers_iff, List.mem_map]
    simp only [Prod.mk.injEq]
  rw [hcount, ← hmem]
  exact ⟨List.count_eq_one_of_mem resolvedConsumers_nodup, List.count_eq_zero_of_not_mem⟩

variable (resolve fragments index contexts)

/-- A base that registrations taught, by themselves or through intermediates. -/
inductive AdmittedBase : Str → Prop where
  | registered {f : Str × Fragment} {registration : FragHandlerRegistration} {base : Str} :
      f ∈ fragments → registration ∈ f.2.handlerRegistrations →
      Registers resolve fragments index contexts (sentMessages resolve fragments index contexts)
        f.1 registration base → AdmittedBase base
  | intermediate {d : FragDef} {base : Str} : d ∈ allDeclarations fragments →
      (declaredIndex index d).isSome → base ∈ d.bases → passesThrough d base = true →
      AdmittedBase base → AdmittedBase (simpleName d.id)

/-- A hop that a base of its handler stands behind. -/
structure EmittedThrough (publish : KeptPublish) (consumer : ResolvedConsumer) (base : Str) : Prop where
  hop : consumer ∈ handlersOf resolve fragments index contexts publish
  carried : ∃ t text, Taken (runVocabulary resolve fragments index contexts)
      (listings fragments index) consumer.defIdx base t ∧ t.text = some text ∧
    meaningIn resolve index contexts consumer.defIdx text (index.def_ consumer.defIdx).file =
      some publish.message

/-- No hop through a taught base leads to the definition its message is. -/
def NoSelfRoute : Prop :=
  ∀ publish ∈ keptPublishSites resolve fragments index contexts, ∀ consumer base,
    EmittedThrough resolve fragments index contexts publish consumer base →
      AdmittedBase resolve fragments index contexts base → base ∉ CONSUMER_BASES →
        consumer.defIdx ≠ publish.message.defIdx

/-- No sent message lists a taught base whose argument means the message itself. -/
def NoSentSelfCarrier : Prop :=
  ∀ publish ∈ keptPublishSites resolve fragments index contexts, ∀ base t text,
    AdmittedBase resolve fragments index contexts base → base ∉ CONSUMER_BASES →
      firstListing (listings fragments index) publish.message.defIdx base = some t →
        t.text = some text →
          meaningIn resolve index contexts publish.message.defIdx text
            (index.def_ publish.message.defIdx).file ≠ some publish.message

variable {resolve fragments index contexts}

/-- A taught base is in the vocabulary of the run. -/
theorem AdmittedBase.mem_runVocabulary {base : Str}
    (h : AdmittedBase resolve fragments index contexts base) :
    base ∈ (runVocabulary resolve fragments index contexts).consumerBases := by
  refine mem_consumerBases_iff.mpr ?_
  induction h with
  | registered hf hr hregisters => exact .registered hf hr hregisters
  | intermediate hd hindexed hbase hpass _ ih => exact .intermediate hd hindexed hbase hpass ih

/-- A taken listing that means a message stands behind a hop from its sites. -/
theorem exists_emittedThrough {publish : KeptPublish} {defIdx : Nat} {base text : Str} {t : Listing}
    (htaken : Taken (runVocabulary resolve fragments index contexts) (listings fragments index)
      defIdx base t) (htext : t.text = some text)
    (hmeans : meaningIn resolve index contexts defIdx text (index.def_ defIdx).file =
      some publish.message) :
    ∃ consumer, consumer.defIdx = defIdx ∧
      EmittedThrough resolve fragments index contexts publish consumer base := by
  obtain ⟨r, hr, hd, hm⟩ := mem_resolvedConsumers_iff.mpr
    ⟨text, MessageText.listed htaken htext, hmeans⟩
  refine ⟨r, hd, List.mem_filter.mpr ⟨hr, by simpa using hm⟩, t, text, ?_, htext, ?_⟩
  · rw [hd]
    exact htaken
  · rw [hd]
    exact hmeans

/-- **No route to itself, exactly when no sent message carries itself.** -/
theorem noSelfRoute_iff :
    NoSelfRoute resolve fragments index contexts ↔
      NoSentSelfCarrier resolve fragments index contexts := by
  constructor
  · intro h publish hpublish base t text hadmitted hseed hfirst htext hmeans
    obtain ⟨consumer, hd, hthrough⟩ :=
      exists_emittedThrough ⟨hadmitted.mem_runVocabulary, hfirst⟩ htext hmeans
    exact h publish hpublish consumer base hthrough hadmitted hseed hd
  · intro h publish hpublish consumer base hthrough hadmitted hseed hself
    obtain ⟨t, text, htaken, htext, hmeans⟩ := hthrough.carried
    rw [hself] at htaken hmeans
    exact h publish hpublish base t text hadmitted hseed htaken.first htext hmeans

end Hops

/-! ## Two small repositories -/

/-- A class with at most one base and the one argument of it. -/
def sampleClass (namespace_ name : String) (base : Option (String × String)) : FragDef where
  id := (namespace_ ++ "." ++ name).toList
  name := name.toList
  namespace_ := namespace_.toList
  kind := "class".toList
  line := 1
  bases := base.toList.map fun b => b.1.toList
  baseGenericArgs := match base with
    | some (b, arg) => OrderedMap.empty.insert b.toList [arg.toList]
    | none => .empty

def sampleUsing (text : String) : FragUsing := .plain text.toList false []

def publishOrder : FragPublish where
  verb := "Publish".toList
  message := "Order".toList
  namespace_ := "App".toList
  line := 7
  argCount := 1

/-- `App.Handler` in two parts: the first is written where `Order` is `Billing.Order`,
the second, where it is `Sales.Order`, lists the handler base. `Sales.Order` is sent. -/
def splitHandler : Fragments :=
  [("A.cs".toList, { defs := [sampleClass "App" "Handler" none], usings := [sampleUsing "Billing"] }),
    ("B.cs".toList, { defs := [sampleClass "App" "Handler" (some ("IConsumer", "Order"))]
                      usings := [sampleUsing "Sales"] }),
    ("Sales.cs".toList, { defs := [sampleClass "Sales" "Order" none] }),
    ("Billing.cs".toList, { defs := [sampleClass "Billing" "Order" none] }),
    ("P.cs".toList, { defs := [], usings := [sampleUsing "Sales"], publishes := [publishOrder] })]

/-- `App.Ledger` is registered, receives an `Order` and is `IEquatable<Order>`; so is
`App.Order` itself, which is sent. -/
def selfCarrier : Fragments :=
  [("Ledger.cs".toList,
      { defs := [{ sampleClass "App" "Ledger" (some ("IEquatable", "Order")) with
                    methodParams := OrderedMap.empty.insert "Take".toList [["Order".toList]] }]
        handlerRegistrations := [⟨"Ledger".toList, "App".toList, 3⟩] }),
    ("Order.cs".toList, { defs := [sampleClass "App" "Order" (some ("IEquatable", "Order"))]
                          publishes := [publishOrder] })]

section Samples

variable (fragments : Fragments)

def sampleIndex : DefIndex := buildDefIndex fragments

def sampleContexts : Contexts := buildFileContexts fragments none (sampleIndex fragments)

def sampleResolver : Resolver := resolveRef (sampleIndex fragments) (sampleContexts fragments) 2

end Samples

/-- The ledger's registration teaches the base. -/
theorem ledger_admits :
    AdmittedBase (sampleResolver selfCarrier) selfCarrier (sampleIndex selfCarrier)
      (sampleContexts selfCarrier) "IEquatable".toList := by
  refine .registered List.mem_cons_self List.mem_cons_self ⟨?_⟩
  have hctx : ((sampleContexts selfCarrier).get? "Ledger.cs".toList).isSome = true := by decide +kernel
  obtain ⟨ctx, hctx⟩ := Option.isSome_iff_exists.mp hctx
  have hhandler : ((sampleContexts selfCarrier).get? "Ledger.cs".toList).bind (fun ctx =>
      resolveTypeText (sampleResolver selfCarrier) "Ledger".toList "App".toList [] ctx) = some 0 := by
    decide +kernel
  rw [hctx, Option.bind_some] at hhandler
  refine ⟨ctx, 0, hctx, hhandler, by decide +kernel, by decide +kernel, ("Ledger.cs".toList, _),
    List.mem_cons_self, by decide +kernel, List.mem_cons_self, "Order".toList, false, by decide +kernel, ?_⟩
  decide +kernel

/-- The sent order is routed to the order. -/
theorem order_routed_to_itself :
    ¬NoSelfRoute (sampleResolver selfCarrier) selfCarrier (sampleIndex selfCarrier)
      (sampleContexts selfCarrier) := by
  intro h
  have hkept : keptPublishSites (sampleResolver selfCarrier) selfCarrier
      (sampleIndex selfCarrier) (sampleContexts selfCarrier) = [⟨"Order.cs".toList, 7, ⟨1, 0⟩⟩] := by
    decide +kernel
  have hfirst : firstListing (listings selfCarrier (sampleIndex selfCarrier)) 1 "IEquatable".toList =
      some ⟨"Order.cs".toList, sampleClass "App" "Order" (some ("IEquatable", "Order")), 1,
        "IEquatable".toList⟩ := rfl
  have hmeans : meaningIn (sampleResolver selfCarrier) (sampleIndex selfCarrier)
      (sampleContexts selfCarrier) 1 "Order".toList ((sampleIndex selfCarrier).def_ 1).file =
        some (⟨"Order.cs".toList, 7, ⟨1, 0⟩⟩ : KeptPublish).message := by
    decide +kernel
  obtain ⟨consumer, hself, hthrough⟩ :=
    exists_emittedThrough ⟨ledger_admits.mem_runVocabulary, hfirst⟩ rfl hmeans
  exact h _ (by rw [hkept]; exact List.mem_cons_self) consumer _ hthrough ledger_admits
    (by decide +kernel) hself

end Devscout.Resolve
