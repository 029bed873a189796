/-
# Devscout.Resolve.BusRoutes -- which hops a run emits

The scan of the declarations, read off as a set: of the listings of a handler base in
the declarations of one definition the first is taken, with the message its argument
names, and a definition recognized by a taken listing or by a binding-only base adds
what its properties bind. Every text taken is then read in the definition's own file.
-/

import Devscout.Resolve.Bus
import Devscout.Resolve.Vocabulary

namespace Devscout.Resolve

open Lib

/-- A base that a declaration lists, with the file it is written in. -/
structure Listing where
  file : Str
  decl : FragDef
  defIdx : Nat
  base : Str

/-- The message the listed base carries. -/
def Listing.text (t : Listing) : Option Str := (baseArgument t.decl t.base).map Prod.fst

/-- A message that a declaration binds on a property. -/
structure Binding where
  file : Str
  defIdx : Nat
  text : Str

/-- Every base of every declaration, in file-walk order. -/
def listings (fragments : Fragments) (index : DefIndex) : List Listing :=
  (declarations fragments).flatMap fun e =>
    match declaredIndex index e.2 with
    | none => []
    | some defIdx => e.2.bases.map fun base => ⟨e.1, e.2, defIdx, base⟩

def bindings (fragments : Fragments) (index : DefIndex) : List Binding :=
  (declarations fragments).flatMap fun e =>
    match declaredIndex index e.2 with
    | none => []
    | some defIdx => e.2.propertyMessageArgs.map fun text => ⟨e.1, defIdx, text⟩

/-! ## The first listing of a base -/

section Taken

variable {ts : List Listing} {t u : Listing} {defIdx : Nat} {base : Str} {v : BusVocabulary}

/-- The first of some listings of a base by a definition. -/
def firstListing (ts : List Listing) (defIdx : Nat) (base : Str) : Option Listing :=
  ts.find? fun t => t.defIdx == defIdx && t.base == base

/-- A listing the scan takes a message from: the first one of a handler base. -/
structure Taken (v : BusVocabulary) (ts : List Listing) (defIdx : Nat) (base : Str)
    (t : Listing) : Prop where
  handler : base ∈ v.consumerBases
  first : firstListing ts defIdx base = some t

theorem firstListing_concat_of_ne (h : ¬(t.defIdx = defIdx ∧ t.base = base)) :
    firstListing (ts ++ [t]) defIdx base = firstListing ts defIdx base := by
  have hone : (t.defIdx == defIdx && t.base == base) = false := by
    rw [Bool.eq_false_iff]
    simpa using h
  unfold firstListing
  rw [List.find?_append, List.find?_singleton, hone]
  exact Option.or_none

theorem firstListing_concat_of_some (h : firstListing ts defIdx base = some u) :
    firstListing (ts ++ [t]) defIdx base = some u := by
  unfold firstListing at h ⊢
  rw [List.find?_append, h, Option.some_or]

theorem firstListing_concat_self (h : firstListing ts t.defIdx t.base = none) :
    firstListing (ts ++ [t]) t.defIdx t.base = some t := by
  unfold firstListing at h ⊢
  rw [List.find?_append, h, Option.none_or, List.find?_singleton]
  simp

/-- A listing of no handler base, or of one already listed, takes nothing. -/
theorem taken_concat_of_skip
    (h : t.base ∉ v.consumerBases ∨ ∃ w, firstListing ts t.defIdx t.base = some w) :
    Taken v (ts ++ [t]) defIdx base u ↔ Taken v ts defIdx base u := by
  by_cases hkey : t.defIdx = defIdx ∧ t.base = base
  · obtain ⟨rfl, rfl⟩ := hkey
    rcases h with hno | ⟨w, hw⟩
    · exact ⟨fun h => absurd h.handler hno, fun h => absurd h.handler hno⟩
    · have hconcat := firstListing_concat_of_some (t := t) hw
      exact ⟨fun h => ⟨h.handler, by rw [hw, ← hconcat, h.first]⟩,
        fun h => ⟨h.handler, by rw [hconcat, ← hw, h.first]⟩⟩
  · have hsame : firstListing (ts ++ [t]) defIdx base = firstListing ts defIdx base :=
      firstListing_concat_of_ne hkey
    exact ⟨fun h => ⟨h.handler, hsame ▸ h.first⟩, fun h => ⟨h.handler, hsame ▸ h.first⟩⟩

/-- The first listing of a handler base is taken. -/
theorem taken_concat_of_new (hbase : t.base ∈ v.consumerBases)
    (hnone : firstListing ts t.defIdx t.base = none) :
    Taken v (ts ++ [t]) defIdx base u ↔
      Taken v ts defIdx base u ∨ defIdx = t.defIdx ∧ base = t.base ∧ u = t := by
  have hself := firstListing_concat_self hnone
  by_cases hkey : t.defIdx = defIdx ∧ t.base = base
  · obtain ⟨rfl, rfl⟩ := hkey
    constructor
    · intro h
      exact Or.inr ⟨rfl, rfl, Option.some.inj (h.first.symm.trans hself)⟩
    · rintro (h | ⟨-, -, rfl⟩)
      · exact absurd (h.first.symm.trans hnone) (by simp)
      · exact ⟨hbase, hself⟩
  · have hsame : firstListing (ts ++ [t]) defIdx base = firstListing ts defIdx base :=
      firstListing_concat_of_ne hkey
    constructor
    · exact fun h => Or.inl ⟨h.handler, hsame ▸ h.first⟩
    · rintro (h | ⟨rfl, rfl, -⟩)
      · exact ⟨h.handler, hsame ▸ h.first⟩
      · exact absurd ⟨rfl, rfl⟩ hkey

/-- What is taken after a new listing, up to the base it is taken for. -/
theorem exists_taken_concat_of_new (hbase : t.base ∈ v.consumerBases)
    (hnone : firstListing ts t.defIdx t.base = none) (Q : Listing → Prop) :
    (∃ base u, Taken v (ts ++ [t]) defIdx base u ∧ Q u) ↔
      (∃ base u, Taken v ts defIdx base u ∧ Q u) ∨ t.defIdx = defIdx ∧ Q t := by
  simp only [taken_concat_of_new hbase hnone, or_and_right, exists_or]
  refine or_congr Iff.rfl ⟨?_, ?_⟩
  · rintro ⟨_, _, ⟨rfl, rfl, rfl⟩, hQ⟩
    exact ⟨rfl, hQ⟩
  · rintro ⟨rfl, hQ⟩
    exact ⟨t.base, t, ⟨rfl, rfl, rfl⟩, hQ⟩

end Taken

/-! ## The scan of the base lists -/

section Scan

variable {v : BusVocabulary} {ts : List Listing} {s : RawScan} {fragments : Fragments}
  {index : DefIndex}

theorem baseMessage_text (d : FragDef) (base : Str) :
    (baseMessage d base).map Prod.fst = (baseArgument d base).map Prod.fst := by
  unfold baseMessage
  rw [Option.map_map]
  rfl

/-- What the scan of some listings holds. -/
structure ScanOf (v : BusVocabulary) (ts : List Listing) (s : RawScan) : Prop where
  seen : ∀ defIdx base, (defIdx, base) ∈ s.seen ↔ ∃ t, Taken v ts defIdx base t
  out : ∀ defIdx message, (∃ c ∈ s.out, c.defIdx = defIdx ∧ c.message = message) ↔
    ∃ base t, Taken v ts defIdx base t ∧ t.text = some message
  recognized : ∀ defIdx, defIdx ∈ s.recognized ↔
    (∃ base t, Taken v ts defIdx base t ∧ t.text.isSome) ∨
      ∃ t ∈ ts, t.defIdx = defIdx ∧ t.base ∉ v.consumerBases ∧ t.base ∈ v.bindingOnlyBases

theorem scanOf_nil : ScanOf v [] ⟨[], [], []⟩ := by
  have hnone : ∀ defIdx base t, ¬Taken v [] defIdx base t := fun _ _ _ h => by cases h.first
  exact ⟨fun _ _ => by simp [hnone], fun _ _ => by simp [hnone], fun _ => by simp [hnone]⟩

/-- A listing of a handler base recognizes nobody as binding only. -/
theorem exists_bindingOnly_concat {t : Listing} (hconsumer : t.base ∈ v.consumerBases) (defIdx : Nat) :
    (∃ u ∈ ts ++ [t], u.defIdx = defIdx ∧ u.base ∉ v.consumerBases ∧ u.base ∈ v.bindingOnlyBases) ↔
      ∃ u ∈ ts, u.defIdx = defIdx ∧ u.base ∉ v.consumerBases ∧ u.base ∈ v.bindingOnlyBases := by
  simp [hconsumer, or_and_right, exists_or]

/-- A handler base listed for the first time. -/
theorem scanOf_concat_new (h : ScanOf v ts s) {t : Listing} (hconsumer : t.base ∈ v.consumerBases)
    (hseen : (t.defIdx, t.base) ∉ s.seen) :
    ScanOf v (ts ++ [t])
      (match baseMessage t.decl t.base with
        | some (message, evidence) =>
            { out := s.out ++ [⟨t.defIdx, message, evidence⟩]
              seen := s.seen ++ [(t.defIdx, t.base)]
              recognized := s.recognized ++ [t.defIdx] }
        | none => { s with seen := s.seen ++ [(t.defIdx, t.base)] }) := by
  have hnone : firstListing ts t.defIdx t.base = none := by
    rw [Option.eq_none_iff_forall_ne_some]
    intro w hw
    exact hseen ((h.seen _ _).mpr ⟨w, hconsumer, hw⟩)
  have hseenNew : ∀ d b, (d, b) ∈ s.seen ++ [(t.defIdx, t.base)] ↔
      ∃ u, Taken v (ts ++ [t]) d b u := by
    intro d b
    rw [List.mem_append, h.seen, List.mem_singleton, Prod.mk.injEq]
    simp only [taken_concat_of_new hconsumer hnone, exists_or, exists_and_left, exists_eq, and_true]
  have htext := baseMessage_text t.decl t.base
  -- a base without a message is seen all the same
  cases hmessage : baseMessage t.decl t.base with
  | none =>
      have hnoText : t.text = none := by
        rw [Listing.text, ← htext, hmessage]
        rfl
      refine ⟨hseenNew, fun d m => ?_, fun d => ?_⟩
      · rw [h.out, exists_taken_concat_of_new hconsumer hnone fun u => u.text = some m]
        simp [hnoText]
      · rw [h.recognized, exists_taken_concat_of_new hconsumer hnone fun u => u.text.isSome = true,
          exists_bindingOnly_concat hconsumer]
        simp [hnoText]
  | some found =>
      obtain ⟨message, evidence⟩ := found
      have hsomeText : t.text = some message := by
        rw [Listing.text, ← htext, hmessage]
        rfl
      refine ⟨hseenNew, fun d m => ?_, fun d => ?_⟩
      · rw [exists_taken_concat_of_new hconsumer hnone fun u => u.text = some m, ← h.out, hsomeText]
        simp [or_and_right, exists_or]
      · rw [exists_taken_concat_of_new hconsumer hnone fun u => u.text.isSome = true,
          exists_bindingOnly_concat hconsumer, or_right_comm, ← h.recognized, hsomeText]
        simp [eq_comm]

/-- One listing more. -/
theorem scanOf_concat (h : ScanOf v ts s) (t : Listing) :
    ScanOf v (ts ++ [t]) (scanBase v t.defIdx t.decl s t.base) := by
  unfold scanBase
  by_cases hconsumer : t.base ∈ v.consumerBases
  · rw [if_pos hconsumer]
    by_cases hseen : (t.defIdx, t.base) ∈ s.seen
    · rw [if_pos hseen]
      -- an earlier declaration has listed this base already
      obtain ⟨w, hw⟩ := (h.seen _ _).mp hseen
      have hskip : ∀ {defIdx base u}, Taken v (ts ++ [t]) defIdx base u ↔ Taken v ts defIdx base u :=
        taken_concat_of_skip (Or.inr ⟨w, hw.first⟩)
      refine ⟨fun d b => ?_, fun d m => ?_, fun d => ?_⟩
      · simp only [hskip, h.seen]
      · simp only [hskip, h.out]
      · simp only [hskip, exists_bindingOnly_concat hconsumer, h.recognized]
    · rw [if_neg hseen]
      exact scanOf_concat_new h hconsumer hseen
  · have hskip : ∀ {defIdx base u}, Taken v (ts ++ [t]) defIdx base u ↔ Taken v ts defIdx base u :=
      taken_concat_of_skip (Or.inl hconsumer)
    rw [if_neg hconsumer]
    split
    · rename_i hbinding
      refine ⟨fun d b => ?_, fun d m => ?_, fun d => ?_⟩
      · simp only [hskip, h.seen]
      · simp only [hskip, h.out]
      · rw [List.mem_append, h.recognized, List.mem_singleton, eq_comm (a := d)]
        simp only [hskip, List.mem_append, List.mem_singleton, or_and_right, exists_or, exists_eq_left,
          hconsumer, hbinding, not_false_eq_true, and_true, or_assoc]
    · rename_i hbinding
      refine ⟨fun d b => ?_, fun d m => ?_, fun d => ?_⟩
      · simp only [hskip, h.seen]
      · simp only [hskip, h.out]
      · rw [h.recognized]
        simp only [hskip, List.mem_append, List.mem_singleton, or_and_right, exists_or, exists_eq_left,
          hbinding, and_false, or_false]

/-- The scan of some listings. -/
theorem scanOf_foldl (ts : List Listing) :
    ScanOf v ts (ts.foldl (fun acc t => scanBase v t.defIdx t.decl acc t.base) ⟨[], [], []⟩) := by
  induction ts using List.reverseRecOn with
  | nil => exact scanOf_nil
  | append_singleton ts t ih =>
      rw [List.foldl_append, List.foldl_cons, List.foldl_nil]
      exact scanOf_concat ih t

/-- The scan of the declarations is the scan of their listings. -/
theorem scanBases_eq (fragments : Fragments) (index : DefIndex) (v : BusVocabulary) :
    scanBases fragments index v =
      (listings fragments index).foldl (fun acc t => scanBase v t.defIdx t.decl acc t.base)
        ⟨[], [], []⟩ := by
  unfold scanBases allDeclarations listings
  rw [List.foldl_map, List.foldl_flatMap]
  congr 1
  funext acc e
  unfold scanDeclaration
  split <;> simp [*, List.foldl_map]

theorem scanOf_scanBases (fragments : Fragments) (index : DefIndex) (v : BusVocabulary) :
    ScanOf v (listings fragments index) (scanBases fragments index v) :=
  scanBases_eq fragments index v ▸ scanOf_foldl (listings fragments index)

end Scan

/-! ## The messages of a definition -/

section Messages

variable (fragments : Fragments) (index : DefIndex) (v : BusVocabulary)

/-- A definition recognized as a handler by what the scan takes. -/
def Recognized (defIdx : Nat) : Prop :=
  (∃ base t, Taken v (listings fragments index) defIdx base t ∧ t.text.isSome) ∨
    ∃ t ∈ listings fragments index,
      t.defIdx = defIdx ∧ t.base ∉ v.consumerBases ∧ t.base ∈ v.bindingOnlyBases

/-- The texts a definition's messages are read from: those of its taken listings, and the
ones its properties bind, when it is recognized and they are not themselves the name of
a handler base it lists. -/
inductive MessageText (defIdx : Nat) : Str → Prop where
  | listed {base text : Str} {t : Listing} :
      Taken v (listings fragments index) defIdx base t → t.text = some text → MessageText defIdx text
  | bound {b : Binding} : Recognized fragments index v defIdx → b ∈ bindings fragments index →
      b.defIdx = defIdx → (∀ t, ¬Taken v (listings fragments index) defIdx b.text t) →
      MessageText defIdx b.text

variable {fragments index v}

/-- What the scan of some bindings of recognized definitions has found, from a start. -/
structure BoundOf (start : RawScan) (bs : List Binding) (s : RawScan) : Prop where
  seen : ∀ defIdx text, (defIdx, text) ∈ s.seen ↔
    (defIdx, text) ∈ start.seen ∨ ∃ b ∈ bs, b.defIdx = defIdx ∧ b.text = text
  out : ∀ defIdx text, (∃ c ∈ s.out, c.defIdx = defIdx ∧ c.message = text) ↔
    (∃ c ∈ start.out, c.defIdx = defIdx ∧ c.message = text) ∨
      (defIdx, text) ∉ start.seen ∧ ∃ b ∈ bs, b.defIdx = defIdx ∧ b.text = text

theorem boundOf_concat {start s : RawScan} {bs : List Binding} (h : BoundOf start bs s) (b : Binding) :
    BoundOf start (bs ++ [b]) (scanProperty b.defIdx s b.text) := by
  have hmore : ∀ d m, (∃ c ∈ bs ++ [b], c.defIdx = d ∧ c.text = m) ↔
      (∃ c ∈ bs, c.defIdx = d ∧ c.text = m) ∨ b.defIdx = d ∧ b.text = m := by
    intro d m
    simp [or_and_right, exists_or]
  unfold scanProperty
  by_cases hseen : (b.defIdx, b.text) ∈ s.seen
  · rw [if_pos hseen]
    -- the pair is there, from the start or from an earlier binding
    have hheld := (h.seen _ _).mp hseen
    refine ⟨fun d m => ?_, fun d m => ?_⟩
    · rw [h.seen, hmore, ← or_assoc]
      constructor
      · exact Or.inl
      · rintro (hold | ⟨rfl, rfl⟩)
        · exact hold
        · exact hheld
    · rw [h.out, hmore]
      refine or_congr Iff.rfl (and_congr_right fun hfresh => ⟨Or.inl, ?_⟩)
      rintro (hold | ⟨rfl, rfl⟩)
      · exact hold
      · exact hheld.resolve_left hfresh
  · rw [if_neg hseen]
    have hfresh : (b.defIdx, b.text) ∉ start.seen := fun hold => hseen ((h.seen _ _).mpr (Or.inl hold))
    refine ⟨fun d m => ?_, fun d m => ?_⟩
    · rw [List.mem_append, h.seen, hmore, List.mem_singleton, Prod.mk.injEq, or_assoc, eq_comm (a := d),
        eq_comm (a := m)]
    · simp only [List.mem_append, List.mem_singleton, or_and_right, exists_or, exists_eq_left, h.out,
        and_or_left, or_assoc]
      refine or_congr Iff.rfl (or_congr Iff.rfl ⟨?_, And.right⟩)
      rintro ⟨rfl, rfl⟩
      exact ⟨hfresh, rfl, rfl⟩

theorem boundOf_foldl (start : RawScan) (bs : List Binding) :
    BoundOf start bs (bs.foldl (fun acc b => scanProperty b.defIdx acc b.text) start) := by
  -- from the right, as each binding is scanned after those before it
  induction bs using List.reverseRecOn with
  | nil => exact ⟨by simp, by simp⟩
  | append_singleton bs b ih =>
      rw [List.foldl_append, List.foldl_cons, List.foldl_nil]
      exact boundOf_concat ih b

/-- The scan of the properties, as a scan of bindings. -/
theorem scanProperties_eq (recognized : List Nat) (start : RawScan) :
    (allDeclarations fragments).foldl (scanProperties index recognized) start =
      ((bindings fragments index).filter fun b => b.defIdx ∈ recognized).foldl
        (fun acc b => scanProperty b.defIdx acc b.text) start := by
  unfold allDeclarations bindings
  rw [List.foldl_map, List.filter_flatMap, List.foldl_flatMap]
  congr 1
  funext acc e
  unfold scanProperties
  cases hindex : declaredIndex index e.2 with
  | none => rfl
  | some defIdx =>
      by_cases hmem : defIdx ∈ recognized
      · simp [hmem, List.filter_map, Function.comp_def, List.foldl_map]
      · simp [hmem, List.filter_map, Function.comp_def]

/-- **The entries of the scan** are the message texts. -/
theorem mem_rawConsumers_iff {defIdx : Nat} {text : Str} :
    (∃ c ∈ rawConsumers fragments index v, c.defIdx = defIdx ∧ c.message = text) ↔
      MessageText fragments index v defIdx text := by
  have hscan := scanOf_scanBases fragments index v
  show (∃ c ∈ ((allDeclarations fragments).foldl
    (scanProperties index (scanBases fragments index v).recognized)
    (scanBases fragments index v)).out, _) ↔ _
  rw [scanProperties_eq, (boundOf_foldl _ _).out, hscan.out]
  simp only [List.mem_filter, decide_eq_true_eq, hscan.recognized, hscan.seen]
  constructor
  · rintro (⟨base, t, htaken, htext⟩ | ⟨hfresh, b, ⟨hb, hrecognized⟩, rfl, rfl⟩)
    · exact .listed htaken htext
    · exact .bound hrecognized hb rfl fun t htaken => hfresh ⟨t, htaken⟩
  · rintro (⟨htaken, htext⟩ | ⟨hrecognized, hb, rfl, hfresh⟩)
    · exact Or.inl ⟨_, _, htaken, htext⟩
    · exact Or.inr ⟨fun ⟨t, htaken⟩ => hfresh t htaken, _, ⟨hb, hrecognized⟩, rfl, rfl⟩

end Messages

/-! ## The handlers of an identity -/

section Handlers

variable (resolve : Resolver) (fragments : Fragments) (index : DefIndex) (contexts : Contexts)
  (v : BusVocabulary)

/-- A definition some of whose message texts, read in its own file, means the message. -/
def HandlesInOwnFile (defIdx : Nat) (message : MessageIdentity) : Prop :=
  ∃ text, MessageText fragments index v defIdx text ∧
    meaningIn resolve index contexts defIdx text (index.def_ defIdx).file = some message

/-- A definition recognized as a handler by any of its listings. -/
def RecognizedAnywhere (defIdx : Nat) : Prop :=
  ∃ t ∈ listings fragments index, t.defIdx = defIdx ∧
    ((t.base ∈ v.consumerBases ∧ t.text.isSome) ∨
      (t.base ∉ v.consumerBases ∧ t.base ∈ v.bindingOnlyBases))

/-- A definition some declaration of which says that it handles the message: a handler
base or, for a recognized handler, a bound property, each read in the file that wrote
it. -/
def HandlesWhereWritten (defIdx : Nat) (message : MessageIdentity) : Prop :=
  (∃ t ∈ listings fragments index, t.defIdx = defIdx ∧ t.base ∈ v.consumerBases ∧
    ∃ text, t.text = some text ∧
      meaningIn resolve index contexts defIdx text t.file = some message) ∨
  (RecognizedAnywhere fragments index v defIdx ∧ ∃ b ∈ bindings fragments index,
    b.defIdx = defIdx ∧ meaningIn resolve index contexts defIdx b.text b.file = some message)

variable {resolve fragments index contexts v}

/-- An entry resolved: there is one for a definition and a message exactly when some
entry of the definition means the message. -/
theorem mem_resolvedConsumers_iff {defIdx : Nat} {message : MessageIdentity} :
    (∃ r ∈ resolvedConsumers resolve fragments index contexts v,
        r.defIdx = defIdx ∧ r.message = message) ↔
      HandlesInOwnFile resolve fragments index contexts v defIdx message := by
  unfold resolvedConsumers
  rw [foldl_gain_iff (fun out : List ResolvedConsumer => ∃ r ∈ out, r.defIdx = defIdx ∧ r.message = message)
    (fun c : RawConsumer => c.defIdx = defIdx ∧
      meaningIn resolve index contexts defIdx c.message (index.def_ defIdx).file = some message)]
  · unfold HandlesInOwnFile
    simp only [← mem_rawConsumers_iff]
    constructor
    · rintro (⟨r, hr, -⟩ | ⟨c, hc, rfl, hmeans⟩)
      · cases hr
      · exact ⟨c.message, ⟨c, hc, rfl, rfl⟩, hmeans⟩
    · rintro ⟨_, ⟨c, hc, rfl, rfl⟩, hmeans⟩
      exact Or.inr ⟨c, hc, rfl, hmeans⟩
  · intro c _ out
    unfold addResolved
    cases hmeans : meaningIn resolve index contexts c.defIdx c.message (index.def_ c.defIdx).file with
    | none =>
        constructor
        · exact Or.inl
        · rintro (h | ⟨rfl, hm⟩)
          · exact h
          · rw [hmeans] at hm
            cases hm
    | some m =>
        -- a pair that is there is not added again
        by_cases hheld : (out.any fun r => r.defIdx == c.defIdx && r.message == m) = true
        · simp only [hheld, if_true]
          constructor
          · exact Or.inl
          · rintro (h | ⟨rfl, hm⟩)
            · exact h
            · obtain rfl := Option.some.inj (hmeans.symm.trans hm)
              simpa using hheld
        · simp only [hheld, Bool.false_eq_true, if_false, List.mem_append, List.mem_singleton,
            or_and_right, exists_or, exists_eq_left]
          refine or_congr Iff.rfl ⟨?_, ?_⟩
          · rintro ⟨rfl, rfl⟩
            exact ⟨rfl, hmeans⟩
          · rintro ⟨rfl, hm⟩
            exact ⟨rfl, Option.some.inj (hmeans.symm.trans hm)⟩

/-- No definition stands twice with one message. -/
theorem resolvedConsumers_nodup :
    ((resolvedConsumers resolve fragments index contexts v).map
      fun r => (r.defIdx, r.message)).Nodup := by
  unfold resolvedConsumers
  generalize rawConsumers fragments index v = raw
  induction raw using List.reverseRecOn with
  | nil => exact List.nodup_nil
  | append_singleton raw c ih =>
      rw [List.foldl_append, List.foldl_cons, List.foldl_nil]
      unfold addResolved
      split
      · exact ih
      · rename_i m hmeans
        split
        · exact ih
        · rename_i hfresh
          rw [List.map_append, List.nodup_append']
          refine ⟨ih, List.nodup_singleton _, List.disjoint_singleton.mpr fun hmem => hfresh ?_⟩
          obtain ⟨r, hr, heq⟩ := List.mem_map.mp hmem
          obtain ⟨hd, hm⟩ := Prod.mk.inj heq
          exact List.any_eq_true.mpr ⟨r, hr, by simp [hd, hm]⟩

end Handlers

end Devscout.Resolve
