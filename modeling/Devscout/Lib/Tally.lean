/-
# Devscout.Lib.Tally -- tables whose order of filling does not show

A pass over a list fills a table: under the key of each item something is added up. The order
of the items shows in the order of the entries and, where what is added up is a list, in the
values. Whatever is read off the table without looking at either is the same for all orders of
the items: two such tables are permutations of each other, and sorted by a total order they
are one list.
-/

import Devscout.Lib.OrderedMap
import Mathlib

namespace Devscout.Lib

namespace OrderedMap

variable {K V W T : Type} [DecidableEq K]

/-- Maps with equal values hold the same entries. -/
theorem entries_perm {m m' : OrderedMap K V} (h : ∀ k, m.get? k = m'.get? k) : m.entries.Perm m'.entries := by
  have hnodup (m : OrderedMap K V) : m.entries.Nodup := List.Nodup.of_map Prod.fst m.nodup
  refine (List.perm_ext_iff_of_nodup (hnodup m) (hnodup m')).mpr fun e => ?_
  constructor
  · intro he
    exact mem_of_get?_eq_some (by rw [← h, get?_eq_some_of_mem he])
  · intro he
    exact mem_of_get?_eq_some (by rw [h, get?_eq_some_of_mem he])

section Gather

variable (key : T → K) (add : V → T → V) (start : V)

/-- **The order of the items does not show** in what is read off the sums without it. -/
theorem gather_perm {read : V → W} (hread : ∀ ts ts' : List T, ts.Perm ts' →
    read (ts.foldl add start) = read (ts'.foldl add start)) {ts ts' : List T} (h : ts.Perm ts') :
    (((empty : OrderedMap K V).gather key add start ts).mapValues read).entries.Perm
      (((empty : OrderedMap K V).gather key add start ts').mapValues read).entries := by
  refine entries_perm fun k => ?_
  have hfilter : (ts.filter fun t => key t = k).Perm (ts'.filter fun t => key t = k) := h.filter _
  rw [get?_mapValues, get?_mapValues, get?_gather, get?_gather]
  by_cases hnil : ts.filter (fun t => key t = k) = []
  · have hnil' : ts'.filter (fun t => key t = k) = [] := by
      rw [hnil] at hfilter
      exact hfilter.nil_eq.symm
    rw [if_pos hnil, if_pos hnil']
  · have hne' : ts'.filter (fun t => key t = k) ≠ [] := by
      intro hnil'
      rw [hnil'] at hfilter
      exact hnil hfilter.eq_nil
    rw [if_neg hnil, if_neg hne', Option.map_some, Option.map_some]
    exact congrArg some (hread _ _ hfilter)

end Gather

theorem foldl_append_singleton (acc ts : List T) : ts.foldl (fun acc t => acc ++ [t]) acc = acc ++ ts := by
  induction ts generalizing acc with
  | nil => exact (List.append_nil acc).symm
  | cons t ts ih => rw [List.foldl_cons, ih, List.append_assoc, List.singleton_append]

/-- Grouped by key, the items of a key in order. -/
theorem get?_group (key : T → K) (ts : List T) (k : K) :
    ((empty : OrderedMap K (List T)).gather key (fun acc t => acc ++ [t]) [] ts).get? k =
      if ts.filter (fun t => key t = k) = [] then none else some (ts.filter fun t => key t = k) := by
  rw [get?_gather, get?_empty]
  simp only [foldl_append_singleton, Option.getD_none, List.nil_append]

/-- How often each key comes. -/
def tally (m : OrderedMap K Nat) (ks : List K) : OrderedMap K Nat := m.gather id (fun n _ => n + 1) 0 ks

omit [DecidableEq K] in
theorem foldl_count (ks : List K) (n : Nat) : ks.foldl (fun n _ => n + 1) n = n + ks.length := by
  induction ks generalizing n with
  | nil => rfl
  | cons k ks ih =>
      rw [List.foldl_cons, ih, List.length_cons]
      omega

theorem tally_perm {ks ks' : List K} (h : ks.Perm ks') :
    (empty.tally ks).entries.Perm (empty.tally ks').entries := by
  refine entries_perm fun k => ?_
  have hlength : (ks.filter fun t => id t = k).length = (ks'.filter fun t => id t = k).length :=
    (h.filter _).length_eq
  unfold tally
  rw [get?_gather, get?_gather]
  simp only [foldl_count, ← List.length_eq_zero_iff, hlength]

def total (m : OrderedMap K Nat) : Nat := (m.entries.map Prod.snd).sum

theorem sum_insertEntry (k : K) (n : Nat) (es : List (K × Nat)) :
    ((insertEntry k n es).map Prod.snd).sum + (es.lookup k).getD 0 = (es.map Prod.snd).sum + n := by
  induction es with
  | nil => simp [insertEntry]
  | cons e es ih =>
      obtain ⟨ke, ne⟩ := e
      by_cases hk : ke = k
      · subst hk
        simp [insertEntry]
        omega
      · rw [insertEntry, if_neg hk, lookup_cons_ne (Ne.symm hk), List.map_cons, List.map_cons, List.sum_cons,
          List.sum_cons]
        omega

/-- The counts of a tally add up to the number of keys. -/
theorem total_tally (m : OrderedMap K Nat) (ks : List K) : (m.tally ks).total = m.total + ks.length := by
  induction ks generalizing m with
  | nil => rfl
  | cons k ks ih =>
      have hstep : (m.insert k ((m.get? k).getD 0 + 1)).total = m.total + 1 := by
        have hsum := sum_insertEntry k ((m.get? k).getD 0 + 1) m.entries
        unfold total insert
        rw [get?] at hsum
        dsimp only at hsum ⊢
        rw [get?]
        omega
      show ((m.insert k ((m.get? k).getD 0 + 1)).tally ks).total = _
      rw [ih, hstep, List.length_cons]
      omega

/-- **Added up key by key**, items that each belong to one key of a table add up to their
sum. -/
theorem sum_by_key {E : Type} (m : OrderedMap K V) (belongs : E → K → Bool) (weight : E → Nat) {es : List E}
    (hone : ∀ e ∈ es, ∃ k ∈ m.keys, ∀ k', belongs e k' = true ↔ k' = k) :
    (m.keys.map fun k => ((es.filter fun e => belongs e k).map weight).sum).sum = (es.map weight).sum := by
  induction es with
  | nil => simp
  | cons e es ih =>
      obtain ⟨k, hk, hbelongs⟩ := hone e List.mem_cons_self
      have hsplit : ∀ k', (((e :: es).filter fun e => belongs e k').map weight).sum =
          (if k' = k then weight e else 0) + ((es.filter fun e => belongs e k').map weight).sum := by
        intro k'
        by_cases h : k' = k
        · have he : belongs e k' = true := (hbelongs k').mpr h
          rw [List.filter_cons, if_pos he, if_pos h, List.map_cons, List.sum_cons]
        · have he : ¬belongs e k' = true := fun he => h ((hbelongs k').mp he)
          rw [List.filter_cons, if_neg he, if_neg h, Nat.zero_add]
      have hsingle : (m.keys.map fun k' => if k' = k then weight e else 0).sum = weight e := by
        have hcount : m.keys.count k = 1 := List.count_eq_one_of_mem m.nodup hk
        rw [List.sum_map_eq_nsmul_single k _ fun k' hne _ => if_neg hne, hcount, if_pos rfl, one_nsmul]
      simp only [hsplit]
      rw [List.sum_map_add, hsingle, ih fun e' he' => hone e' (List.mem_cons_of_mem _ he'), List.map_cons,
        List.sum_cons]

end OrderedMap

/-- Sorted by a total order, permutations are one list. -/
theorem insertionSort_eq_of_perm {α : Type} (le : α → α → Prop) [DecidableRel le] [Std.Total le] [IsTrans α le]
    [Std.Antisymm le] {l l' : List α} (h : l.Perm l') : l.insertionSort le = l'.insertionSort le := by
  refine List.Perm.eq_of_pairwise (fun a b _ _ => antisymm_of le) (List.pairwise_insertionSort le l)
    (List.pairwise_insertionSort le l') ?_
  exact ((List.perm_insertionSort le l).trans h).trans (List.perm_insertionSort le l').symm

end Devscout.Lib
