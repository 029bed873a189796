/-
# Devscout.Lib.OrderedMap -- maps that remember insertion order

An ordered map is a list of entries in which no key occurs twice, and that fact
is part of the map. Inserting at a key that is there replaces the value where it
stands; any other key goes to the end. Read by key it is a finite map, read from
the front it is the order the keys first came in.
-/

import Mathlib

namespace Devscout.Lib

variable {K V α : Type} [DecidableEq K]

/-- Entries in insertion order, no key twice. -/
structure OrderedMap (K V : Type) where
  entries : List (K × V)
  nodup : (entries.map Prod.fst).Nodup

namespace OrderedMap

/-- Replace the value at `k` where it stands, or put a new entry at the end. -/
def insertEntry (k : K) (v : V) : List (K × V) → List (K × V)
  | [] => [(k, v)]
  | e :: es => if e.1 = k then (k, v) :: es else e :: insertEntry k v es

theorem keys_insertEntry (k : K) (v : V) (es : List (K × V)) :
    (insertEntry k v es).map Prod.fst =
      if k ∈ es.map Prod.fst then es.map Prod.fst else es.map Prod.fst ++ [k] := by
  induction es with
  | nil => simp [insertEntry]
  | cons e es ih =>
      by_cases he : e.1 = k
      · simp [insertEntry, he]
      · rw [insertEntry, if_neg he, List.map_cons, ih]
        by_cases hk : k ∈ es.map Prod.fst
        · simp [hk]
        · have hne : k ≠ e.1 := Ne.symm he
          rw [if_neg hk, List.map_cons, if_neg (by simpa [hne] using hk), List.cons_append]

def empty : OrderedMap K V := ⟨[], List.nodup_nil⟩

def keys (m : OrderedMap K V) : List K := m.entries.map Prod.fst

def size (m : OrderedMap K V) : Nat := m.entries.length

def get? (m : OrderedMap K V) (k : K) : Option V := m.entries.lookup k

def insert (m : OrderedMap K V) (k : K) (v : V) : OrderedMap K V where
  entries := insertEntry k v m.entries
  nodup := by
    rw [keys_insertEntry]
    split
    · exact m.nodup
    · rename_i hk
      exact List.nodup_append'.mpr
        ⟨m.nodup, List.nodup_singleton k, List.disjoint_singleton.mpr hk⟩

/-- The entries of a list, inserted from the front. -/
def insertAll (m : OrderedMap K V) (es : List (K × V)) : OrderedMap K V :=
  es.foldl (fun m e => m.insert e.1 e.2) m

def mapValues (f : V → α) (m : OrderedMap K V) : OrderedMap K α where
  entries := m.entries.map fun e => (e.1, f e.2)
  nodup := by simpa [Function.comp_def] using m.nodup

omit [DecidableEq K] in
theorem lookup_cons_ne [BEq K] [LawfulBEq K] {k k' : K} (h : k ≠ k') (v : V) (es : List (K × V)) :
    ((k', v) :: es).lookup k = es.lookup k := by
  rw [List.lookup_cons, beq_false_of_ne h]

@[simp] theorem get?_empty (k : K) : (empty : OrderedMap K V).get? k = none := rfl
omit [DecidableEq K] in
@[simp] theorem keys_empty : (empty : OrderedMap K V).keys = [] := rfl
@[simp] theorem insertAll_nil (m : OrderedMap K V) : m.insertAll [] = m := rfl
@[simp] theorem insertAll_cons (m : OrderedMap K V) (e : K × V) (es : List (K × V)) :
    m.insertAll (e :: es) = (m.insert e.1 e.2).insertAll es := rfl

theorem lookup_insertEntry (k k' : K) (v : V) (es : List (K × V)) :
    (insertEntry k v es).lookup k' = if k' = k then some v else es.lookup k' := by
  induction es with
  | nil =>
      by_cases h : k' = k
      · simp [insertEntry, h]
      · simp [insertEntry, h, lookup_cons_ne]
  | cons e es ih =>
      obtain ⟨ke, ve⟩ := e
      by_cases he : ke = k
      · subst he
        by_cases h : k' = ke
        · simp [insertEntry, h]
        · simp [insertEntry, lookup_cons_ne, h]
      · by_cases h : k' = ke
        · subst h
          simp [insertEntry, he]
        · simp [insertEntry, he, lookup_cons_ne, h, ih]

theorem get?_insert (m : OrderedMap K V) (k k' : K) (v : V) :
    (m.insert k v).get? k' = if k' = k then some v else m.get? k' :=
  lookup_insertEntry k k' v m.entries

theorem keys_insert (m : OrderedMap K V) (k : K) (v : V) :
    (m.insert k v).keys = if k ∈ m.keys then m.keys else m.keys ++ [k] :=
  keys_insertEntry k v m.entries

theorem get?_eq_some_of_mem {m : OrderedMap K V} {k : K} {v : V} (h : (k, v) ∈ m.entries) :
    m.get? k = some v := by
  obtain ⟨es, hnodup⟩ := m
  rw [get?]
  induction es with
  | nil => simp at h
  | cons e es ih =>
      obtain ⟨ke, ve⟩ := e
      simp only [List.map_cons, List.nodup_cons] at hnodup
      rcases List.mem_cons.mp h with heq | hmem
      · cases heq
        simp
      · have hne : k ≠ ke := by
          rintro rfl
          exact hnodup.1 (List.mem_map_of_mem hmem)
        simpa [lookup_cons_ne hne] using ih hnodup.2 hmem

theorem mem_of_lookup {es : List (K × V)} {k : K} {v : V} (h : es.lookup k = some v) :
    (k, v) ∈ es := by
  induction es with
  | nil => simp at h
  | cons e es ih =>
      obtain ⟨ke, ve⟩ := e
      by_cases hk : k = ke
      · subst hk
        simp only [List.lookup_cons_self, Option.some.injEq] at h
        simp [h]
      · exact List.mem_cons_of_mem _ (ih (by simpa [lookup_cons_ne hk] using h))

theorem mem_of_get?_eq_some {m : OrderedMap K V} {k : K} {v : V} (h : m.get? k = some v) :
    (k, v) ∈ m.entries := mem_of_lookup h

theorem mem_keys_iff {m : OrderedMap K V} {k : K} : k ∈ m.keys ↔ ∃ v, m.get? k = some v := by
  constructor
  · intro h
    obtain ⟨⟨k', v⟩, hmem, rfl⟩ := List.mem_map.mp h
    exact ⟨v, get?_eq_some_of_mem hmem⟩
  · rintro ⟨v, hv⟩
    exact List.mem_map_of_mem (mem_of_get?_eq_some hv)

theorem get?_mapValues (f : V → α) (m : OrderedMap K V) (k : K) :
    (m.mapValues f).get? k = (m.get? k).map f := by
  obtain ⟨es, hnodup⟩ := m
  change (es.map fun e => (e.1, f e.2)).lookup k = (es.lookup k).map f
  clear hnodup
  induction es with
  | nil => rfl
  | cons e es ih =>
      obtain ⟨ke, ve⟩ := e
      by_cases hk : k = ke
      · simp [hk]
      · simp [lookup_cons_ne hk, ih]

/-- After inserting a list, a key's value is the last one inserted for it. -/
theorem get?_insertAll (m : OrderedMap K V) (es : List (K × V)) (k : K) :
    (m.insertAll es).get? k = ((es.reverse.lookup k).or (m.get? k)) := by
  induction es generalizing m with
  | nil => simp
  | cons e es ih =>
      obtain ⟨ke, ve⟩ := e
      rw [insertAll_cons, ih, List.reverse_cons, List.lookup_append, get?_insert]
      cases es.reverse.lookup k with
      | some v => simp
      | none => by_cases hk : k = ke <;> simp [lookup_cons_ne, hk]

theorem mem_keys_insert (m : OrderedMap K V) (k k' : K) (v : V) :
    k' ∈ (m.insert k v).keys ↔ k' ∈ m.keys ∨ k' = k := by
  rw [keys_insert]
  split
  · constructor
    · exact Or.inl
    · rintro (hk | rfl)
      · exact hk
      · assumption
  · rw [List.mem_append, List.mem_singleton]

theorem mem_keys_insertAll (m : OrderedMap K V) (es : List (K × V)) (k : K) :
    k ∈ (m.insertAll es).keys ↔ k ∈ m.keys ∨ k ∈ es.map Prod.fst := by
  induction es generalizing m with
  | nil => simp
  | cons e es ih =>
      rw [insertAll_cons, ih, keys_insert]
      by_cases h : e.1 ∈ m.keys
      · rw [if_pos h, List.map_cons, List.mem_cons]
        constructor
        · rintro (hk | hk)
          · exact Or.inl hk
          · exact Or.inr (Or.inr hk)
        · rintro (hk | rfl | hk)
          · exact Or.inl hk
          · exact Or.inl h
          · exact Or.inr hk
      · rw [if_neg h, List.mem_append, List.mem_singleton, List.map_cons, List.mem_cons, or_assoc]

theorem insertEntry_of_not_mem {k : K} {v : V} {es : List (K × V)} (h : k ∉ es.map Prod.fst) :
    insertEntry k v es = es ++ [(k, v)] := by
  induction es with
  | nil => rfl
  | cons e es ih =>
      simp only [List.map_cons, List.mem_cons, not_or] at h
      rw [insertEntry, if_neg (Ne.symm h.1), ih h.2, List.cons_append]

/-- Entries of different keys are kept as they come. -/
theorem entries_insertAll {m : OrderedMap K V} {es : List (K × V)}
    (h : (m.keys ++ es.map Prod.fst).Nodup) : (m.insertAll es).entries = m.entries ++ es := by
  induction es generalizing m with
  | nil => simp
  | cons e es ih =>
      have hnew : e.1 ∉ m.keys := by
        intro hmem
        exact (List.nodup_append'.mp h).2.2 hmem (by simp)
      have hentries : (m.insert e.1 e.2).entries = m.entries ++ [e] := insertEntry_of_not_mem hnew
      have hkeys : (m.insert e.1 e.2).keys = m.keys ++ [e.1] := by
        rw [keys_insert, if_neg hnew]
      rw [insertAll_cons, ih (by simpa [hkeys] using h), hentries]
      simp

/-- Reading back entries of which no two bind one key to different values. -/
theorem get?_insertAll_iff {es : List (K × V)} (hfun : ∀ e ∈ es, ∀ e' ∈ es, e.1 = e'.1 → e.2 = e'.2)
    {k : K} {v : V} : (empty.insertAll es).get? k = some v ↔ (k, v) ∈ es := by
  rw [get?_insertAll, get?_empty, Option.or_none]
  constructor
  · exact fun h => List.mem_reverse.mp (mem_of_lookup h)
  · intro hmem
    cases hlookup : es.reverse.lookup k with
    | none =>
        have hkeys := List.lookup_eq_none_iff.mp hlookup (k, v) (List.mem_reverse.mpr hmem)
        simp at hkeys
    | some w => exact congrArg some (hfun _ (List.mem_reverse.mp (mem_of_lookup hlookup)) _ hmem rfl)

/-- A key bound to one value only, however often it was inserted. -/
theorem get?_insertAll_of_forall {es : List (K × V)} {k : K} {o : Option V}
    (hall : ∀ e ∈ es, e.1 = k → some e.2 = o) (hkey : o ≠ none → k ∈ es.map Prod.fst) :
    (empty.insertAll es).get? k = o := by
  rw [get?_insertAll, get?_empty, Option.or_none]
  cases hlookup : es.reverse.lookup k with
  | none =>
      by_contra hne
      obtain ⟨e, hmem, rfl⟩ := List.mem_map.mp (hkey (Ne.symm hne))
      have hkeys := List.lookup_eq_none_iff.mp hlookup e (List.mem_reverse.mpr hmem)
      simp at hkeys
  | some v => exact hall (k, v) (List.mem_reverse.mp (mem_of_lookup hlookup)) rfl

/-! ## Gathering by key -/

variable {T : Type} (key : T → K) (add : V → T → V) (start : V)

/-- Add each item to what is kept under its key, `start` when nothing is. -/
def gather (m : OrderedMap K V) (ts : List T) : OrderedMap K V :=
  ts.foldl (fun m t => m.insert (key t) (add ((m.get? (key t)).getD start) t)) m

theorem gather_cons (m : OrderedMap K V) (t : T) (ts : List T) :
    m.gather key add start (t :: ts) =
      (m.insert (key t) (add ((m.get? (key t)).getD start) t)).gather key add start ts := rfl

/-- What is kept under a key are the items of that key, added up in order. -/
theorem get?_gather (m : OrderedMap K V) (ts : List T) (k : K) :
    (m.gather key add start ts).get? k =
      if ts.filter (fun t => key t = k) = [] then m.get? k
      else some ((ts.filter fun t => key t = k).foldl add ((m.get? k).getD start)) := by
  induction ts generalizing m with
  | nil => rfl
  | cons t ts ih =>
      rw [gather_cons, ih, get?_insert]
      by_cases hk : key t = k
      · subst hk
        simp only [if_true, decide_true, List.filter_cons_of_pos, List.foldl_cons, reduceCtorEq, if_false]
        split
        · rename_i hnil
          rw [hnil]
          rfl
        · rfl
      · rw [if_neg (Ne.symm hk), List.filter_cons_of_neg (by simpa using hk)]

theorem mem_keys_gather {ts : List T} {k : K} :
    k ∈ ((empty : OrderedMap K V).gather key add start ts).keys ↔ ∃ t ∈ ts, key t = k := by
  rw [mem_keys_iff, get?_gather]
  constructor
  · rintro ⟨v, hv⟩
    split at hv
    · simp at hv
    · rename_i hne
      obtain ⟨t, ht⟩ := List.exists_mem_of_ne_nil _ hne
      simp only [List.mem_filter, decide_eq_true_eq] at ht
      exact ⟨t, ht.1, ht.2⟩
  · rintro ⟨t, ht, hk⟩
    have hne : ts.filter (fun t => key t = k) ≠ [] :=
      List.ne_nil_of_mem (List.mem_filter.mpr ⟨ht, by simpa using hk⟩)
    exact ⟨_, if_neg hne⟩

/-! ## Tables with a key -/

/-- Every entry is as `P` says. -/
def All (P : K → V → Prop) (m : OrderedMap K V) : Prop := ∀ k v, m.get? k = some v → P k v

/-- Insert a row, or update the one already under its key. -/
def upsert (m : OrderedMap K V) (k : K) (fresh : V) (update : V → V) : OrderedMap K V :=
  m.insert k (((m.get? k).map update).getD fresh)

/-- Update the row under a key, if there is one. -/
def amend (m : OrderedMap K V) (k : K) (update : V → V) : OrderedMap K V :=
  match m.get? k with
  | some v => m.insert k (update v)
  | none => m

theorem get?_upsert (m : OrderedMap K V) (k k' : K) (fresh : V) (update : V → V) :
    (m.upsert k fresh update).get? k' =
      if k' = k then some (((m.get? k).map update).getD fresh) else m.get? k' :=
  get?_insert m k k' _

theorem get?_amend (m : OrderedMap K V) (k k' : K) (update : V → V) :
    (m.amend k update).get? k' = if k' = k then (m.get? k).map update else m.get? k' := by
  unfold amend
  cases hget : m.get? k with
  | none =>
      by_cases hk : k' = k
      · rw [if_pos hk, hk, hget, Option.map_none]
      · rw [if_neg hk]
  | some v => exact get?_insert m k k' _

/-- Rows of one value before the others. -/
theorem lookup_const_append (ks : List K) (v : V) (es : List (K × V)) (k : K) :
    (ks.map (·, v) ++ es).lookup k = if k ∈ ks then some v else es.lookup k := by
  induction ks with
  | nil => rfl
  | cons k' ks ih =>
      rw [List.map_cons, List.cons_append]
      by_cases hk : k = k'
      · subst hk
        simp
      · rw [lookup_cons_ne hk, ih]
        simp [hk]

theorem lookup_ne_none {es : List (K × V)} {e : K × V} (h : e ∈ es) : es.lookup e.1 ≠ none := by
  rw [Ne, List.lookup_eq_none_iff]
  intro hnone
  have := hnone e h
  simp at this

/-- Rows that go in only where there is none yet: the one there stays, else the first given. -/
theorem get?_foldl_upsert_id (es : List (K × V)) (m : OrderedMap K V) (k : K) :
    (es.foldl (fun m e => m.upsert e.1 e.2 id) m).get? k = (m.get? k).or (es.lookup k) := by
  induction es generalizing m with
  | nil => exact (Option.or_none).symm
  | cons e es ih =>
      obtain ⟨ke, ve⟩ := e
      rw [List.foldl_cons, ih, upsert, get?_insert]
      by_cases hk : k = ke
      · subst hk
        cases hget : m.get? k <;> simp
      · rw [if_neg hk, lookup_cons_ne hk]

variable {P Q : K → V → Prop} {m : OrderedMap K V} {k : K} {fresh : V} {update : V → V}

theorem All.nil : (empty : OrderedMap K V).All P := by
  intro k v hv
  rw [get?_empty] at hv
  cases hv

theorem All.mono (h : m.All P) (hPQ : ∀ k v, P k v → Q k v) : m.All Q := by
  intro k v hv
  exact hPQ k v (h k v hv)

theorem All.insert {v : V} (h : m.All P) (hv : P k v) : (m.insert k v).All P := by
  intro k' v' hget
  rw [get?_insert] at hget
  split at hget
  · rename_i heq
    obtain rfl := Option.some.inj hget
    rw [heq]
    exact hv
  · exact h k' v' hget

/-- A row written whole or updated. -/
theorem All.upsert (h : m.All P) (hfresh : P k fresh) (hupdate : ∀ v, P k v → P k (update v)) :
    (m.upsert k fresh update).All P := by
  refine h.insert ?_
  cases hget : m.get? k with
  | none => exact hfresh
  | some v => exact hupdate v (h k v hget)

theorem All.amend (h : m.All P) (hupdate : ∀ v, P k v → P k (update v)) :
    (m.amend k update).All P := by
  unfold OrderedMap.amend
  split
  · rename_i v hget
    exact h.insert (hupdate v (h k v hget))
  · exact h

end OrderedMap

end Devscout.Lib
