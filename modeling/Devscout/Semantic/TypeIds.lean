/-
# Devscout.Semantic.TypeIds -- displayed types and the definitions they are read as

The compiler displays a type as its namespace, the types around it and its own name, with
dots between all of them and the type parameters behind each name that has some. An id has a
plus below a type and no parameters at all. Translating drops the parameters and guesses
where the namespace ends: the shortest one is taken under which every name on the way is an
id, and of the definitions with the id reached the first.

So types that differ in their parameters alone are read as the first of them, and a type with
the name of a namespace hides what the namespace has under the same names.
-/

import Devscout.Resolve.Ids
import Devscout.Semantic.Layer

namespace Devscout.Semantic

open Lib Resolve

/-! ## Displays -/

/-- Whether the angle brackets of a text match, so many being open before it. -/
def balancedFrom : Nat → Str → Bool
  | depth, [] => depth == 0
  | depth, c :: cs =>
      if c = '<' then balancedFrom (depth + 1) cs
      else if c = '>' then 0 < depth && balancedFrom (depth - 1) cs
      else balancedFrom depth cs

example : balancedFrom 0 ['A', '<', 'B', '>'] = true ∧ balancedFrom 0 ['>', '<'] = false := by decide +kernel

/-- A type as it stands in a parameter list. -/
def TypeText (text : Str) : Prop := balancedFrom 0 text = true

/-- An identifier. -/
structure NameText (name : Str) : Prop where
  nonempty : name ≠ []
  plain : PlainName name
  noAngles : '<' ∉ name ∧ '>' ∉ name

/-- A type's own part of a display. -/
structure Displayed where
  name : Str
  params : List Str

namespace Displayed

structure Formed (t : Displayed) : Prop where
  name : NameText t.name
  params : ∀ p ∈ t.params, TypeText p

def text (t : Displayed) : Str :=
  if t.params = [] then t.name
  else t.name ++ '<' :: (List.intercalate ", ".toList t.params ++ ['>'])

end Displayed

/-- The segments of a namespace; the global one has none. -/
def nsSegments (ns : Str) : List Str := if ns = [] then [] else ns.splitOn '.'

/-- Namespace segments, enclosing types and the type itself, with dots between them. -/
def displayString (ns : Str) (types : List Displayed) : Str :=
  joinDot (nsSegments ns ++ types.map Displayed.text)

/-- A definition's display, inside types of the given names. The definition has as many
parameters as it declares; what stands for a parameter can be any type. -/
def DisplayOf (s : Shape) (outer : List Str) (raw : Str) : Prop :=
  s.isMember = false ∧ s.id = typeId s.name s.namespace_ outer ∧
    (∀ seg ∈ nsSegments s.namespace_, NameText seg) ∧
    ∃ (around : List Displayed) (own : Displayed), around.map Displayed.name = outer ∧
      own.name = s.name ∧ own.params.length = s.arity ∧ (∀ t ∈ around ++ [own], t.Formed) ∧
      raw = displayString s.namespace_ (around ++ [own])

/-! ## Taking a display apart -/

/-- The scan takes a whole text into the current segment. -/
def Scanned (text : Str) : Prop :=
  ∀ rest current, splitSegments (text ++ rest) current 0 = splitSegments rest (current ++ text) 0

theorem NameText.scanned {name : Str} (h : NameText name) : Scanned name := by
  obtain ⟨-, ⟨hdot, -⟩, hopen, hclose⟩ := h
  intro rest current
  induction name generalizing current with
  | nil => simp
  | cons c cs ih =>
      have hc : c ≠ '<' ∧ c ≠ '>' ∧ c ≠ '.' :=
        ⟨fun h => hopen (by simp [h]), fun h => hclose (by simp [h]), fun h => hdot (by simp [h])⟩
      rw [List.cons_append, splitSegments, if_neg hc.1, if_neg hc.2.1, if_neg fun h => hc.2.2 h.1,
        ih (fun h => hdot (List.mem_cons_of_mem c h)) (fun h => hopen (List.mem_cons_of_mem c h))
          (fun h => hclose (List.mem_cons_of_mem c h))]
      simp

theorem balancedFrom_append {depth : Nat} {a b : Str} (ha : balancedFrom depth a = true)
    (hb : balancedFrom 0 b = true) : balancedFrom depth (a ++ b) = true := by
  induction a generalizing depth with
  | nil =>
      have hdepth : depth = 0 := by simpa [balancedFrom] using ha
      rw [hdepth]
      exact hb
  | cons c cs ih =>
      rw [balancedFrom] at ha
      rw [List.cons_append, balancedFrom]
      split at ha
      · rw [if_pos ‹_›]
        exact ih ha
      · rw [if_neg ‹_›]
        split at ha
        · rw [Bool.and_eq_true] at ha
          rw [if_pos ‹_›, Bool.and_eq_true]
          exact ⟨ha.1, ih ha.2⟩
        · rw [if_neg ‹_›]
          exact ih ha

theorem balancedFrom_params {params : List Str} (h : ∀ p ∈ params, TypeText p) :
    balancedFrom 0 (List.intercalate ", ".toList params) = true := by
  induction params with
  | nil => rfl
  | cons p params ih =>
      have hp : balancedFrom 0 p = true := h p List.mem_cons_self
      have hrest := ih fun q hq => h q (List.mem_cons_of_mem p hq)
      by_cases hnil : params = []
      · subst hnil
        rw [List.intercalate_singleton]
        exact hp
      · rw [List.intercalate_cons_of_ne_nil hnil, List.append_assoc]
        exact balancedFrom_append hp hrest

/-- Inside an argument list no dot ends a segment. -/
theorem splitSegments_balanced {depth : Nat} {text rest current : Str}
    (h : balancedFrom depth text = true) :
    splitSegments (text ++ rest) current (1 + depth) = splitSegments rest (current ++ text) 1 := by
  induction text generalizing depth current with
  | nil =>
      have hdepth : depth = 0 := by simpa [balancedFrom] using h
      subst hdepth
      simp
  | cons c cs ih =>
      have hcurrent : current ++ c :: cs = current ++ [c] ++ cs := by simp
      rw [balancedFrom] at h
      rw [List.cons_append, splitSegments, hcurrent]
      split at h
      · rw [if_pos ‹_›, ← ih h]
        rfl
      · rw [if_neg ‹_›]
        split at h
        · obtain ⟨hpos, h⟩ := (Bool.and_eq_true _ _).mp h
          have hdepth : 0 < depth := of_decide_eq_true hpos
          rw [if_pos ‹_›, ← ih h]
          congr 1
          omega
        · rw [if_neg ‹_›, if_neg (by omega)]
          exact ih h

theorem Displayed.Formed.scanned {t : Displayed} (h : t.Formed) : Scanned t.text := by
  unfold Displayed.text
  split
  · exact h.name.scanned
  · intro rest current
    have hparams := balancedFrom_params h.params
    rw [List.append_assoc, h.name.scanned, List.cons_append, splitSegments, if_pos rfl,
      List.append_assoc, show (0 : Int) + 1 = 1 + (0 : Nat) from rfl, splitSegments_balanced hparams,
      List.singleton_append, splitSegments, if_neg (by decide), if_pos rfl]
    simp

theorem Displayed.Formed.text_ne_nil {t : Displayed} (h : t.Formed) : t.text ≠ [] := by
  unfold Displayed.text
  split
  · exact h.name.nonempty
  · simp

theorem splitSegments_joinDot {segs : List Str} (hscanned : ∀ seg ∈ segs, Scanned seg)
    (hne : ∀ seg ∈ segs, seg ≠ []) : splitSegments (joinDot segs) [] 0 = segs := by
  induction segs with
  | nil => rfl
  | cons seg segs ih =>
      have hseg : Scanned seg := hscanned seg List.mem_cons_self
      by_cases hnil : segs = []
      · subst hnil
        rw [joinDot, List.intercalate_singleton, ← List.append_nil seg, hseg]
        simp [splitSegments, hne seg List.mem_cons_self]
      · rw [joinDot, List.intercalate_cons_of_ne_nil hnil, List.append_assoc, hseg,
          List.singleton_append, splitSegments, if_neg (by decide), if_neg (by decide),
          if_pos ⟨rfl, rfl⟩, List.nil_append]
        congr 1
        exact ih (fun s hs => hscanned s (List.mem_cons_of_mem seg hs))
          fun s hs => hne s (List.mem_cons_of_mem seg hs)

theorem takeWhile_text {t : Displayed} (h : t.Formed) : t.text.takeWhile (· ≠ '<') = t.name := by
  have hname : ∀ c ∈ t.name, decide (c ≠ '<') = true := by
    intro c hc
    exact decide_eq_true fun heq => h.name.noAngles.1 (heq ▸ hc)
  unfold Displayed.text
  split
  · exact List.takeWhile_eq_self_iff.mpr hname
  · rw [List.takeWhile_append_of_pos hname]
    simp

/-- **The segments of a display** are those of the namespace and the names of the types. -/
theorem splitQualifiedType_displayString {ns : Str} {types : List Displayed}
    (hns : ∀ seg ∈ nsSegments ns, NameText seg) (htypes : ∀ t ∈ types, t.Formed) :
    splitQualifiedType (displayString ns types) = nsSegments ns ++ types.map Displayed.name := by
  have hsegs : splitSegments (displayString ns types) [] 0 =
      nsSegments ns ++ types.map Displayed.text := by
    refine splitSegments_joinDot (fun seg hseg => ?_) fun seg hseg => ?_
    all_goals rcases List.mem_append.mp hseg with hseg | hseg
    · exact (hns seg hseg).scanned
    · obtain ⟨t, ht, rfl⟩ := List.mem_map.mp hseg
      exact (htypes t ht).scanned
    · exact (hns seg hseg).nonempty
    · obtain ⟨t, ht, rfl⟩ := List.mem_map.mp hseg
      exact (htypes t ht).text_ne_nil
  rw [splitQualifiedType, hsegs, List.map_append, List.map_map]
  congr 1
  · conv_rhs => rw [← List.map_id (nsSegments ns)]
    refine List.map_congr_left fun seg hseg => List.takeWhile_eq_self_iff.mpr fun c hc => ?_
    exact decide_eq_true fun heq => (hns seg hseg).noAngles.1 (heq ▸ hc)
  · exact List.map_congr_left fun t ht => takeWhile_text (htypes t ht)

/-! ## Readings of the segments -/

/-- The id of what stands below a type, through the names. -/
def nestedId (id : Str) (names : List Str) : Str := names.foldl (fun id name => id ++ '+' :: name) id

def HasId (index : DefIndex) (id : Str) : Prop := ∃ s ∈ index.shapes, s.id = id

/-- Of the definitions of an id the first. -/
def FirstOf (index : DefIndex) (id : Str) (i : Nat) : Prop :=
  (∃ s, index.shapes[i]? = some s ∧ s.id = id) ∧ ∀ j < i, ∀ s, index.shapes[j]? = some s → s.id ≠ id

/-- Segments read with the first `k` as the namespace: the next is a type there, and each
further one a type in the one before it. -/
def Reads (index : DefIndex) (segs : List Str) (k : Nat) : Prop :=
  k < segs.length ∧ ∀ j ≤ segs.length - (k + 1),
    HasId index (nestedId (joinDot (segs.take (k + 1))) ((segs.drop (k + 1)).take j))

/-- The id that a reading comes to. -/
def readId (segs : List Str) (k : Nat) : Str :=
  nestedId (joinDot (segs.take (k + 1))) (segs.drop (k + 1))

/-- The reading with the shortest namespace. -/
def Shortest (index : DefIndex) (segs : List Str) (k : Nat) : Prop :=
  Reads index segs k ∧ ∀ k' < k, ¬ Reads index segs k'

theorem nestedId_concat (id : Str) (names : List Str) (name : Str) :
    nestedId id (names ++ [name]) = nestedId id names ++ '+' :: name := by
  rw [nestedId, List.foldl_append]
  rfl

theorem findSome?_range {α : Type} {f : Nat → Option α} {n : Nat} {a : α} :
    (List.range n).findSome? f = some a ↔ ∃ k < n, f k = some a ∧ ∀ j < k, f j = none := by
  induction n with
  | zero => simp
  | succ n ih =>
      rw [List.range_succ, List.findSome?_append, List.findSome?_singleton, Option.or_eq_some_iff, ih,
        List.findSome?_eq_none_iff]
      constructor
      · rintro (⟨k, hk, hfound⟩ | ⟨hnone, hfound⟩)
        · exact ⟨k, by omega, hfound⟩
        · exact ⟨n, by omega, hfound, fun j hj => hnone j (List.mem_range.mpr hj)⟩
      · rintro ⟨k, hk, hfound, hnone⟩
        by_cases hlast : k = n
        · subst hlast
          exact .inr ⟨fun j hj => hnone j (List.mem_range.mp hj), hfound⟩
        · exact .inl ⟨k, by omega, hfound, hnone⟩

section Translate

variable {index : DefIndex} (hl : Lookups index)

include hl in
theorem get?_eq_some_iff {id : Str} {i : Nat} :
    index.qualifiedNameToDef.get? id = some i ↔ FirstOf index id i := by
  rw [hl.byId, List.findIdx?_eq_some_iff_getElem]
  constructor
  · rintro ⟨hlt, hid, hfirst⟩
    refine ⟨⟨_, List.getElem?_eq_getElem hlt, by simpa using hid⟩, fun j hj s hs hsid => ?_⟩
    obtain ⟨_, rfl⟩ := List.getElem?_eq_some_iff.mp hs
    exact hfirst j hj (by simpa using hsid)
  · rintro ⟨⟨s, hs, hid⟩, hfirst⟩
    obtain ⟨hlt, rfl⟩ := List.getElem?_eq_some_iff.mp hs
    refine ⟨hlt, by simpa using hid, fun j hj => ?_⟩
    simpa using hfirst j hj _ (List.getElem?_eq_getElem (by omega))

include hl in
theorem get?_eq_none_iff {id : Str} :
    index.qualifiedNameToDef.get? id = none ↔ ¬ HasId index id := by
  rw [hl.byId, List.findIdx?_eq_none_iff]
  constructor
  · rintro hnone ⟨s, hs, hid⟩
    simpa [hid] using hnone s hs
  · intro hnone s hs
    simpa using fun hid => hnone ⟨s, hs, hid⟩

theorem FirstOf.hasId {id : Str} {i : Nat} (h : FirstOf index id i) : HasId index id := by
  obtain ⟨⟨s, hs, hid⟩, -⟩ := h
  exact ⟨s, List.mem_of_getElem? hs, hid⟩

theorem FirstOf.def_id {id : Str} {i : Nat} (h : FirstOf index id i) : (index.def_ i).id = id := by
  obtain ⟨⟨s, hs, hid⟩, -⟩ := h
  rw [(lists_of_shapes hs).2, hid]

theorem FirstOf.unique {id : Str} {i j : Nat} (hi : FirstOf index id i) (hj : FirstOf index id j) :
    i = j := by
  obtain ⟨⟨s, hs, hsid⟩, hbefore⟩ := hi
  obtain ⟨⟨t, ht, htid⟩, hbefore'⟩ := hj
  rcases Nat.lt_trichotomy i j with hlt | heq | hlt
  · exact absurd hsid (hbefore' i hlt s hs)
  · exact heq
  · exact absurd htid (hbefore j hlt t ht)

include hl in
/-- **A walk gets through** when each name on the way is an id, and ends at the last one's. -/
theorem walkNested_eq_some_iff {id : Str} {cur i : Nat} (hcur : FirstOf index id cur)
    (names : List Str) :
    walkNested index cur names = some i ↔
      (∀ j ≤ names.length, HasId index (nestedId id (names.take j))) ∧
        FirstOf index (nestedId id names) i := by
  induction names generalizing id cur with
  | nil =>
      show some cur = some i ↔ _ ∧ FirstOf index id i
      constructor
      · intro heq
        obtain rfl := Option.some.inj heq
        exact ⟨fun j _ => by rw [List.take_nil]; exact hcur.hasId, hcur⟩
      · rintro ⟨-, hi⟩
        rw [hcur.unique hi]
  | cons name names ih =>
      rw [walkNested, hcur.def_id]
      cases hnext : index.qualifiedNameToDef.get? (id ++ '+' :: name) with
      | none =>
          show none = some i ↔ _
          have hno := (get?_eq_none_iff hl).mp hnext
          refine iff_of_false (by simp) ?_
          rintro ⟨hall, -⟩
          exact hno (hall 1 (by simp))
      | some next =>
          have hfirst := (get?_eq_some_iff hl).mp hnext
          show walkNested index next names = some i ↔ _
          rw [ih hfirst]
          refine and_congr_left fun _ => ⟨fun hall j hj => ?_, fun hall j hj => ?_⟩
          · cases j with
            | zero => exact hcur.hasId
            | succ j => exact hall j (by simpa using hj)
          · exact hall (j + 1) (by simpa using hj)

/-- One head, with all that follows it. -/
def fromHead (index : DefIndex) (segs : List Str) (k : Nat) : Option Nat :=
  match index.qualifiedNameToDef.get? (joinDot (segs.take (k + 1))) with
  | some start => walkNested index start (segs.drop (k + 1))
  | none => none

include hl in
theorem fromHead_eq_some_iff {segs : List Str} {k i : Nat} (hk : k < segs.length) :
    fromHead index segs k = some i ↔ Reads index segs k ∧ FirstOf index (readId segs k) i := by
  unfold fromHead
  cases hstart : index.qualifiedNameToDef.get? (joinDot (segs.take (k + 1))) with
  | none =>
      show none = some i ↔ _
      have hno := (get?_eq_none_iff hl).mp hstart
      refine iff_of_false (by simp) ?_
      rintro ⟨⟨-, hall⟩, -⟩
      exact hno (hall 0 (Nat.zero_le _))
  | some start =>
      show walkNested index start _ = some i ↔ _
      rw [walkNested_eq_some_iff hl ((get?_eq_some_iff hl).mp hstart), List.length_drop]
      exact and_congr_left fun _ => ⟨fun hall => ⟨hk, hall⟩, fun hreads => hreads.2⟩

include hl in
/-- Whatever reads has a definition. -/
theorem Reads.exists_first {segs : List Str} {k : Nat} (h : Reads index segs k) :
    ∃ i, FirstOf index (readId segs k) i := by
  have hid : HasId index (readId segs k) := by
    have hall := h.2 _ (Nat.le_refl _)
    rwa [← List.length_drop, List.take_length] at hall
  cases hget : index.qualifiedNameToDef.get? (readId segs k) with
  | none => exact absurd hid ((get?_eq_none_iff hl).mp hget)
  | some i => exact ⟨i, (get?_eq_some_iff hl).mp hget⟩

include hl in
theorem fromHead_eq_none_iff {segs : List Str} {k : Nat} (hk : k < segs.length) :
    fromHead index segs k = none ↔ ¬ Reads index segs k := by
  rw [Option.eq_none_iff_forall_ne_some]
  constructor
  · intro hnone hreads
    obtain ⟨i, hi⟩ := hreads.exists_first hl
    exact hnone i ((fromHead_eq_some_iff hl hk).mpr ⟨hreads, hi⟩)
  · intro hno i hi
    exact hno ((fromHead_eq_some_iff hl hk).mp hi).1

include hl in
/-- **What a text translates to:** the first definition of its shortest reading. -/
theorem translateTypeId_eq_some_iff {raw : Str} {i : Nat} :
    translateTypeId raw index = some i ↔
      ∃ k, Shortest index (splitQualifiedType raw) k ∧
        FirstOf index (readId (splitQualifiedType raw) k) i := by
  show (List.range _).findSome? (fromHead index (splitQualifiedType raw)) = some i ↔ _
  rw [findSome?_range]
  constructor
  · rintro ⟨k, hk, hfound, hnone⟩
    obtain ⟨hreads, hi⟩ := (fromHead_eq_some_iff hl hk).mp hfound
    exact ⟨k, ⟨hreads, fun j hj => (fromHead_eq_none_iff hl (by omega)).mp (hnone j hj)⟩, hi⟩
  · rintro ⟨k, ⟨hreads, hshortest⟩, hi⟩
    have hk := hreads.1
    exact ⟨k, hk, (fromHead_eq_some_iff hl hk).mpr ⟨hreads, hi⟩,
      fun j hj => (fromHead_eq_none_iff hl (by omega)).mpr (hshortest j hj)⟩

include hl in
theorem translateTypeId_eq_none_iff {raw : Str} :
    translateTypeId raw index = none ↔ ∀ k, ¬ Reads index (splitQualifiedType raw) k := by
  show (List.range _).findSome? (fromHead index (splitQualifiedType raw)) = none ↔ _
  rw [List.findSome?_eq_none_iff]
  constructor
  · intro hnone k hreads
    have hk := hreads.1
    exact (fromHead_eq_none_iff hl hk).mp (hnone k (List.mem_range.mpr hk)) hreads
  · intro hno k hk
    exact (fromHead_eq_none_iff hl (List.mem_range.mp hk)).mpr (hno k)

end Translate

/-! ## A display and the id of its definition -/

theorem joinDot_nsSegments (ns name : Str) : joinDot (nsSegments ns ++ [name]) = under ns name := by
  unfold nsSegments under
  cases ns with
  | nil => exact List.intercalate_singleton
  | cons c ns =>
      rw [if_neg (by simp), if_neg (by simp), joinDot,
        Text.intercalate_concat (List.splitOn_ne_nil _ _), List.intercalate_splitOn]

theorem nestedId_append (a b : Str) (names : List Str) :
    nestedId (a ++ b) names = a ++ nestedId b names := by
  induction names generalizing b with
  | nil => rfl
  | cons name names ih =>
      show nestedId (a ++ b ++ '+' :: name) names = _
      rw [List.append_assoc, ih]
      rfl

theorem joinPlus_cons (name : Str) (names : List Str) : joinPlus (name :: names) = nestedId name names := by
  induction names generalizing name with
  | nil => exact List.intercalate_singleton
  | cons name' names ih =>
      show joinPlus (name :: name' :: names) = nestedId (name ++ '+' :: name') names
      rw [joinPlus, List.intercalate_cons_cons, ← joinPlus, ih,
        show name ++ '+' :: name' = (name ++ ['+']) ++ name' by simp, nestedId_append]

theorem under_joinPlus (ns first : Str) (rest : List Str) :
    under ns (joinPlus (first :: rest)) = nestedId (under ns first) rest := by
  rw [joinPlus_cons]
  unfold under
  split
  · rfl
  · rw [show ns ++ '.' :: first = (ns ++ ['.']) ++ first by simp, nestedId_append]
    simp

/-- With its own namespace a type's segments read as its id. -/
theorem readId_typeId (ns name : Str) (outer : List Str) :
    readId (nsSegments ns ++ (outer ++ [name])) (nsSegments ns).length = typeId name ns outer := by
  obtain ⟨first, rest, hsplit⟩ := List.exists_cons_of_ne_nil (by simp : outer ++ [name] ≠ [])
  rw [readId, typeId, hsplit, under_joinPlus, List.take_length_add_append, List.drop_length_add_append,
    List.take_succ_cons, List.take_zero, List.drop_succ_cons, List.drop_zero, joinDot_nsSegments]

theorem count_nestedId {id : Str} {names : List Str} (h : ∀ name ∈ names, '+' ∉ name) :
    (nestedId id names).count '+' = id.count '+' + names.length := by
  induction names generalizing id with
  | nil => rfl
  | cons name names ih =>
      have hname : name.count '+' = 0 := List.count_eq_zero.mpr (h name List.mem_cons_self)
      show (nestedId (id ++ '+' :: name) names).count '+' = _
      rw [ih fun n hn => h n (List.mem_cons_of_mem name hn), List.count_append, List.count_cons_self,
        List.length_cons]
      omega

theorem plus_not_mem_joinDot {segs : List Str} (h : ∀ seg ∈ segs, '+' ∉ seg) : '+' ∉ joinDot segs := by
  induction segs with
  | nil => simp [joinDot]
  | cons seg segs ih =>
      have hseg := h seg List.mem_cons_self
      have hrest := ih fun s hs => h s (List.mem_cons_of_mem seg hs)
      by_cases hnil : segs = []
      · subst hnil
        rwa [joinDot, List.intercalate_singleton]
      · rw [joinDot, List.intercalate_cons_of_ne_nil hnil]
        simpa [hseg, joinDot] using hrest

/-- An id has as many pluses as there are nested types, so readings that part the segments
differently come to different ids. -/
theorem readId_injective {segs : List Str} (h : ∀ seg ∈ segs, '+' ∉ seg) {k l : Nat}
    (hk : k < segs.length) (hl : l < segs.length) (heq : readId segs k = readId segs l) : k = l := by
  have hcount : ∀ m, (readId segs m).count '+' = segs.length - (m + 1) := by
    intro m
    have hhead : (joinDot (segs.take (m + 1))).count '+' = 0 :=
      List.count_eq_zero.mpr (plus_not_mem_joinDot fun s hs => h s (List.mem_of_mem_take hs))
    rw [readId, count_nestedId fun s hs => h s (List.mem_of_mem_drop hs), hhead, List.length_drop,
      Nat.zero_add]
  have hcounts := hcount k
  rw [heq, hcount l] at hcounts
  omega

/-! ## Enclosing types -/

/-- Where a nested type is recorded, the type around it is recorded with it. -/
def EnclosingRecorded (fragments : Fragments) : Prop :=
  ∀ f ∈ fragments, ∀ d ∈ f.2.defs, ∀ outer rest, d.id = outer ++ '+' :: rest →
    ∃ e ∈ f.2.defs, e.id = outer

section Enclosing

variable {fragments : Fragments} (hrecorded : EnclosingRecorded fragments)

include hrecorded in
theorem hasId_outer {outer rest : Str} (h : HasId (buildDefIndex fragments) (outer ++ '+' :: rest)) :
    HasId (buildDefIndex fragments) outer := by
  obtain ⟨-, hfrom, hdeclared⟩ := lookups_buildDefIndex fragments
  obtain ⟨s, hs, hid⟩ := h
  obtain ⟨f, hf, d, hd, rfl⟩ := hfrom s hs
  obtain ⟨e, he, houter⟩ := hrecorded f hf d hd outer rest hid
  obtain ⟨t, ht, htid⟩ := hdeclared f hf e he
  exact ⟨t, ht, htid.trans houter⟩

include hrecorded in
theorem hasId_take {id : Str} {names : List Str}
    (h : HasId (buildDefIndex fragments) (nestedId id names)) (j : Nat) :
    HasId (buildDefIndex fragments) (nestedId id (names.take j)) := by
  induction names using List.reverseRecOn with
  | nil => rwa [List.take_nil]
  | append_singleton names name ih =>
      by_cases hj : j ≤ names.length
      · rw [List.take_append_of_le_length hj]
        rw [nestedId_concat] at h
        exact ih (hasId_outer hrecorded h)
      · rwa [List.take_of_length_le (by rw [List.length_append, List.length_singleton]; omega)]

include hrecorded in
/-- **A type reads with its own namespace.** -/
theorem reads_own {s : Shape} {outer : List Str} (hs : s ∈ (buildDefIndex fragments).shapes)
    (hid : s.id = typeId s.name s.namespace_ outer) :
    Reads (buildDefIndex fragments) (nsSegments s.namespace_ ++ (outer ++ [s.name]))
      (nsSegments s.namespace_).length := by
  refine ⟨by simp, fun j _ => hasId_take hrecorded ?_ j⟩
  show HasId _ (readId _ _)
  rw [readId_typeId]
  exact ⟨s, hs, hid⟩

end Enclosing

/-! ## Translating displays -/

theorem DisplayOf.split {s : Shape} {outer : List Str} {raw : Str} (h : DisplayOf s outer raw) :
    splitQualifiedType raw = nsSegments s.namespace_ ++ (outer ++ [s.name]) ∧
      ∀ seg ∈ nsSegments s.namespace_ ++ (outer ++ [s.name]), '+' ∉ seg := by
  obtain ⟨-, -, hns, around, own, haround, hown, -, hformed, rfl⟩ := h
  rw [splitQualifiedType_displayString hns hformed, List.map_append, haround, List.map_singleton, hown]
  refine ⟨rfl, fun seg hseg => ?_⟩
  rcases List.mem_append.mp hseg with hseg | hseg
  · exact (hns seg hseg).plain.2
  · rw [← haround, ← hown, ← List.map_singleton (f := Displayed.name), ← List.map_append] at hseg
    obtain ⟨t, ht, rfl⟩ := List.mem_map.mp hseg
    exact (hformed t ht).name.plain.2

/-- A part of a type's namespace is the name of a type that leads to one of the same names. -/
def Hidden (index : DefIndex) (s : Shape) (outer : List Str) : Prop :=
  ∃ k < (nsSegments s.namespace_).length,
    Reads index (nsSegments s.namespace_ ++ (outer ++ [s.name])) k

/-- **A displayed type translates to a definition,** to the type's own exactly when no earlier
definition has its id and no part of its namespace is a type that hides it. What any text
translates to is the first definition of its shortest reading, and a text without a reading
translates to nothing. -/
theorem translateTypeId_display {fragments : Fragments} (hrecorded : EnclosingRecorded fragments) :
    let index := buildDefIndex fragments
    (∀ i s outer raw, index.shapes[i]? = some s → DisplayOf s outer raw →
      (∃ j, translateTypeId raw index = some j) ∧
        (translateTypeId raw index = some i ↔ FirstOf index s.id i ∧ ¬ Hidden index s outer)) ∧
      (∀ raw i, translateTypeId raw index = some i ↔
        ∃ k, Shortest index (splitQualifiedType raw) k ∧
          FirstOf index (readId (splitQualifiedType raw) k) i) ∧
      ∀ raw, translateTypeId raw index = none ↔ ∀ k, ¬ Reads index (splitQualifiedType raw) k := by
  intro index
  have hl : Lookups index := (lookups_buildDefIndex fragments).1
  refine ⟨?_, fun raw i => translateTypeId_eq_some_iff hl, fun raw => translateTypeId_eq_none_iff hl⟩
  intro i s outer raw hi hdisplay
  have hid : s.id = typeId s.name s.namespace_ outer := hdisplay.2.1
  obtain ⟨hsplit, hplus⟩ := hdisplay.split
  have hown := reads_own hrecorded (List.mem_of_getElem? hi) hid
  have hreadId := readId_typeId s.namespace_ s.name outer
  constructor
  · cases htranslate : translateTypeId raw index with
    | some j => exact ⟨j, rfl⟩
    | none =>
        have hno := (translateTypeId_eq_none_iff hl).mp htranslate
        rw [hsplit] at hno
        exact absurd hown (hno _)
  · rw [translateTypeId_eq_some_iff hl, hsplit]
    constructor
    · rintro ⟨k, ⟨hreads, hshortest⟩, hfirst⟩
      -- The definition found has the id of the reading, and it is the type itself.
      have hk : k = (nsSegments s.namespace_).length := by
        refine readId_injective hplus hreads.1 hown.1 ?_
        obtain ⟨⟨t, ht, htid⟩, -⟩ := hfirst
        rw [hi] at ht
        rw [hreadId, ← htid, ← Option.some.inj ht, hid]
      subst hk
      rw [hreadId, ← hid] at hfirst
      exact ⟨hfirst, fun ⟨k, hk, hreads⟩ => hshortest k hk hreads⟩
    · rintro ⟨hfirst, hhidden⟩
      refine ⟨_, ⟨hown, fun k hk hreads => hhidden ⟨k, hk, hreads⟩⟩, ?_⟩
      rwa [hreadId, ← hid]

/-! ## Types that are not told apart -/

/-- Every display of a type translates to that type. -/
def TranslatesOwn (index : DefIndex) : Prop :=
  ∀ i s outer raw, index.shapes[i]? = some s → DisplayOf s outer raw → translateTypeId raw index = some i

/-- A text that displays no type of the index translates to nothing. -/
def TranslatesNoOther (index : DefIndex) : Prop :=
  ∀ raw, (∀ s ∈ index.shapes, ∀ outer, ¬ DisplayOf s outer raw) → translateTypeId raw index = none

/-- A class as the extractor records it. -/
def classDef (name ns : Str) (typeStack typeParams : List Str) : FragDef :=
  { id := typeId name ns typeStack, name := name, namespace_ := ns, kind := "class".toList, line := 1
    typeParams := typeParams }

/-- A class without type parameters. -/
def lone : Fragments := [("a.cs".toList, { defs := [classDef ['F'] [] [] []] })]

/-- The same with a namesake that has one. -/
def siblings : Fragments :=
  [("a.cs".toList, { defs := [classDef ['F'] [] [] [], classDef ['F'] [] [] [['T']]] })]

/-- A class with a nested class, and a namespace of its name with a class of that one's. -/
def shadowed : Fragments :=
  [("a.cs".toList, { defs := [classDef ['A'] [] [] [], classDef ['B'] [] [['A']] []] }),
    ("b.cs".toList, { defs := [classDef ['B'] ['A'] [] []] })]

theorem nameText_letter {c : Char} (h : c ≠ '.' ∧ c ≠ '+' ∧ c ≠ '<' ∧ c ≠ '>') : NameText [c] where
  nonempty := by simp
  plain := by simp [PlainName, h.1.symm, h.2.1.symm]
  noAngles := by simp [h.2.2.1.symm, h.2.2.2.symm]

theorem displayOf_sibling :
    DisplayOf (classDef ['F'] [] [] [['T']]).shape [] "F<int>".toList := by
  refine ⟨rfl, rfl, by simp [nsSegments, FragDef.shape, classDef], [], ⟨['F'], ["int".toList]⟩, rfl, rfl,
    rfl, ?_, rfl⟩
  intro t ht
  obtain rfl := List.mem_singleton.mp ht
  refine ⟨nameText_letter (by decide), fun p hp => ?_⟩
  obtain rfl := List.mem_singleton.mp hp
  exact rfl

theorem displayOf_shadowed : DisplayOf (classDef ['B'] ['A'] [] []).shape [] "A.B".toList := by
  refine ⟨rfl, rfl, fun seg hseg => ?_, [], ⟨['B'], []⟩, rfl, rfl, rfl, ?_, by decide⟩
  · have hseg : seg ∈ [['A']] := hseg
    obtain rfl := List.mem_singleton.mp hseg
    exact nameText_letter (by decide)
  · intro t ht
    obtain rfl := List.mem_singleton.mp ht
    exact ⟨nameText_letter (by decide), fun p hp => nomatch hp⟩

/-- Texts without a plus are no nested type's ids. -/
theorem not_nested {id outer rest : Str} (h : '+' ∉ id) : id ≠ outer ++ '+' :: rest := by
  intro heq
  exact h (by rw [heq]; simp)

theorem enclosingRecorded_shadowed : EnclosingRecorded shadowed := by
  intro f hf d hd outer rest hid
  rcases List.mem_cons.mp hf with rfl | hf
  · rcases List.mem_cons.mp hd with rfl | hd
    · exact absurd hid (not_nested (by decide))
    · obtain rfl := List.mem_singleton.mp hd
      refine ⟨_, List.mem_cons_self, ?_⟩
      -- The nested class has one plus in its id, behind the outer class's name.
      have hsplit : ['A', '+', 'B'] = outer ++ '+' :: rest := hid
      match outer, hsplit with
      | [_], hsplit => simp at hsplit; rw [← hsplit.1]; rfl
      | [_, _], hsplit => simp at hsplit
      | _ :: _ :: _ :: outer, hsplit => simp at hsplit
  · obtain rfl := List.mem_singleton.mp hf
    obtain rfl := List.mem_singleton.mp hd
    exact absurd hid (not_nested (by decide))

/-- The theorem at a namespace that a class hides. -/
theorem translateTypeId_display_shadowed :
    EnclosingRecorded shadowed ∧
      ∃ j, translateTypeId "A.B".toList (buildDefIndex shadowed) = some j :=
  ⟨enclosingRecorded_shadowed,
    ((translateTypeId_display enclosingRecorded_shadowed).1 2 _ [] _ (by decide +kernel)
      displayOf_shadowed).1⟩

/-- A display without parameters of its own is no display of a generic one. -/
theorem not_displayOf_lone (outer : List Str) :
    ¬ DisplayOf (classDef ['F'] [] [] []).shape outer "F<int>".toList := by
  rintro ⟨-, hid, -, around, own, haround, hown, harity, -, hraw⟩
  obtain rfl : outer = [] := by
    by_contra hne
    refine not_nested (by decide) (?_ : (classDef ['F'] [] [] []).shape.id = joinPlus outer ++ '+' :: ['F'])
    rw [hid, ← joinPlus_concat hne]
    rfl
  obtain rfl := List.map_eq_nil_iff.mp haround
  have hparams : own.params = [] := List.length_eq_zero_iff.mp harity
  rw [displayString, List.nil_append, List.map_singleton, Displayed.text, if_pos hparams, hown] at hraw
  exact absurd hraw (by decide)

/-- **Translations go wrong** for a class with a namesake before it, for one that another
hides, and for a display with parameters where the one class of the name has none. -/
theorem displays_not_told_apart :
    ¬ TranslatesOwn (buildDefIndex siblings) ∧ ¬ TranslatesOwn (buildDefIndex shadowed) ∧
      ¬ TranslatesNoOther (buildDefIndex lone) := by
  refine ⟨fun h => ?_, fun h => ?_, fun h => ?_⟩
  · have htranslate := h 1 _ _ _ (by decide +kernel) displayOf_sibling
    exact absurd htranslate (by decide +kernel)
  · have htranslate := h 2 _ _ _ (by decide +kernel) displayOf_shadowed
    exact absurd htranslate (by decide +kernel)
  · have hshapes : (buildDefIndex lone).shapes = [(classDef ['F'] [] [] []).shape] := by decide +kernel
    have htranslate := h "F<int>".toList fun s hs outer => by
      rw [hshapes] at hs
      rw [List.mem_singleton.mp hs]
      exact not_displayOf_lone outer
    exact absurd htranslate (by decide +kernel)

end Devscout.Semantic
