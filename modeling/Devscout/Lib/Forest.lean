/-
# Devscout.Lib.Forest -- records that name their parents by position

A list of records may say of each where its parent stands, and one pass over it keeps a record
when it passes a test and its parent was kept before it. Whatever positions the records name,
what is kept is a forest: a record is kept exactly when the way up from it passes only records
that pass, each standing before the one it was reached from, and ends.

Deleting the records that are not kept and renumbering the parents gives a list in which all
are kept. A way up from a record that is kept never leaves the forest, so it leads to the same
record in both lists; a program that looks at records only along such ways and among those that
are kept cannot tell the lists apart. `Both` is for showing that, one operation at a time.
-/

import Mathlib

namespace Devscout.Lib

/-! ## Two runs side by side -/

section Both

variable {α α' β β' : Type}

/-- Both runs return, and what they return is related. -/
def Both (R : α → α' → Prop) (m : Option α) (m' : Option α') : Prop :=
  ∃ a a', m = some a ∧ m' = some a' ∧ R a a'

variable {R : α → α' → Prop} {T : β → β' → Prop} {m : Option α} {m' : Option α'}

theorem Both.pure {a : α} {a' : α'} (h : R a a') : Both R (pure a) (pure a') := ⟨a, a', rfl, rfl, h⟩

theorem Both.bind {f : α → Option β} {f' : α' → Option β'} (h : Both R m m')
    (hf : ∀ a a', R a a' → Both T (f a) (f' a')) : Both T (m >>= f) (m' >>= f') := by
  obtain ⟨a, a', rfl, rfl, ha⟩ := h
  exact hf a a' ha

theorem Both.map {f : α → β} {f' : α' → β'} (h : Both R m m') (hf : ∀ a a', R a a' → T (f a) (f' a')) :
    Both T (m.map f) (m'.map f') := by
  obtain ⟨a, a', rfl, rfl, ha⟩ := h
  exact ⟨_, _, rfl, rfl, hf a a' ha⟩

theorem Both.weaken {R' : α → α' → Prop} (h : Both R m m') (hR : ∀ a a', R a a' → R' a a') :
    Both R' m m' := by
  obtain ⟨a, a', hm, hm', ha⟩ := h
  exact ⟨a, a', hm, hm', hR a a' ha⟩

/-- Two runs that return the same. -/
theorem Both.eq {m m' : Option α} (h : Both Eq m m') : ∃ a, m = some a ∧ m' = some a := by
  obtain ⟨a, _, hm, hm', rfl⟩ := h
  exact ⟨a, hm, hm'⟩

theorem Both.mapM {f : α → Option β} {f' : α' → Option β'} {l : List α} {l' : List α'}
    (h : List.Forall₂ R l l') (hf : ∀ a a', R a a' → Both T (f a) (f' a')) :
    Both (List.Forall₂ T) (l.mapM f) (l'.mapM f') := by
  induction h with
  | nil => exact .pure .nil
  | cons ha _ ih =>
      rw [List.mapM_cons, List.mapM_cons]
      exact .bind (hf _ _ ha) fun b b' hb => .bind ih fun bs bs' hbs => .pure (.cons hb hbs)

theorem Both.filterM {f : α → Option Bool} {f' : α' → Option Bool} {l : List α} {l' : List α'}
    (h : List.Forall₂ R l l') (hf : ∀ a a', R a a' → Both Eq (f a) (f' a')) :
    Both (List.Forall₂ R) (l.filterM f) (l'.filterM f') := by
  have hgo : ∀ {acc acc'}, List.Forall₂ R acc acc' →
      Both (List.Forall₂ R) (List.filterAuxM f l acc) (List.filterAuxM f' l' acc') := by
    induction h with
    | nil => exact fun hacc => .pure hacc
    | cons ha _ ih =>
        intro acc acc' hacc
        refine .bind (hf _ _ ha) fun b b' hb => ?_
        subst hb
        cases b with
        | false => exact ih hacc
        | true => exact ih (.cons ha hacc)
  exact .bind (hgo .nil) fun acc acc' hacc => .pure (List.rel_reverse hacc)

/-- Where both runs return the same, it is one value. -/
theorem Both.bindEq {m m' : Option α} {f : α → Option β} {f' : α → Option β'} (h : Both Eq m m')
    (hf : ∀ a, Both T (f a) (f' a)) : Both T (m >>= f) (m' >>= f') :=
  h.bind fun a _ ha => ha ▸ hf a

theorem Both.mapMOption {f : α → Option β} {f' : α' → Option β'} {o : Option α} {o' : Option α'}
    (h : Option.Rel R o o') (hf : ∀ a a', R a a' → Both T (f a) (f' a')) :
    Both (Option.Rel T) (o.mapM f) (o'.mapM f') := by
  cases h with
  | none => exact .pure .none
  | some ha =>
      obtain ⟨b, b', hb, hb', hT⟩ := hf _ _ ha
      exact ⟨some b, some b', by rw [Option.mapM_some, hb]; rfl, by rw [Option.mapM_some, hb']; rfl, .some hT⟩

theorem rel_getLast? {l : List α} {l' : List α'} (h : List.Forall₂ R l l') :
    Option.Rel R l.getLast? l'.getLast? := by
  have hhead : ∀ {l l'}, List.Forall₂ R l l' → Option.Rel R l.head? l'.head? := by
    intro l l' h
    cases h with
    | nil => exact .none
    | cons ha _ => exact .some ha
  rw [← List.head?_reverse, ← List.head?_reverse]
  exact hhead (List.rel_reverse h)

theorem rel_find? {l : List α} {l' : List α'} {p : α → Bool} {p' : α' → Bool} (h : List.Forall₂ R l l')
    (hp : ∀ a a', R a a' → p a = p' a') : Option.Rel R (l.find? p) (l'.find? p') := by
  induction h with
  | nil => exact .none
  | cons ha _ ih =>
      rw [List.find?_cons, List.find?_cons, ← hp _ _ ha]
      split
      · exact .some ha
      · exact ih

theorem eq_of_rel_eq {o o' : Option α} (h : Option.Rel Eq o o') : o = o' := by
  cases h with
  | none => rfl
  | some ha => rw [ha]

end Both

namespace Forest

variable {R : Type} (parent : R → Option Nat)

/-! ## What is kept -/

section Kept

variable (ok : R → Bool)

/-- The next record is kept: it passes, and its parent stands before it and is kept. -/
def keepsNext (kept : List Bool) (r : R) : Bool :=
  ((parent r).all fun p => decide (p < kept.length) && kept.getD p false) && ok r

def keptOf (rs : List R) : List Bool := rs.foldl (fun kept r => kept ++ [keepsNext parent ok kept r]) []

/-- The way up from a record passes only records that pass, each before the last, and ends. -/
inductive Standing (rs : List R) : Nat → Prop
  | root {i : Nat} {r : R} (hr : rs[i]? = some r) (hparent : parent r = none) (hok : ok r = true) :
      Standing rs i
  | child {i p : Nat} {r : R} (hr : rs[i]? = some r) (hparent : parent r = some p) (hlt : p < i)
      (hp : Standing rs p) (hok : ok r = true) : Standing rs i

variable {parent ok} {rs : List R} {r : R} {i : Nat}

theorem keptOf_concat : keptOf parent ok (rs ++ [r]) =
    keptOf parent ok rs ++ [keepsNext parent ok (keptOf parent ok rs) r] := by
  rw [keptOf, List.foldl_append]
  rfl

@[simp] theorem length_keptOf : (keptOf parent ok rs).length = rs.length := by
  induction rs using List.reverseRecOn with
  | nil => rfl
  | append_singleton rs r ih => rw [keptOf_concat, List.length_append, List.length_append, ih]; rfl

/-- Each record is judged by what was kept before it. -/
theorem getElem?_keptOf (hr : rs[i]? = some r) :
    (keptOf parent ok rs)[i]? = some (keepsNext parent ok ((keptOf parent ok rs).take i) r) := by
  induction rs using List.reverseRecOn with
  | nil => cases hr
  | append_singleton rs last ih =>
      rw [keptOf_concat]
      by_cases hlt : i < rs.length
      · rw [List.getElem?_append_left hlt] at hr
        have hlt' : i < (keptOf parent ok rs).length := by rw [length_keptOf]; exact hlt
        rw [List.getElem?_append_left hlt', ih hr, List.take_append_of_le_length (Nat.le_of_lt hlt')]
      · obtain ⟨hi, hlast⟩ := List.getElem?_eq_some_iff.mp hr
        rw [List.length_append, List.length_singleton] at hi
        obtain rfl : i = rs.length := by omega
        rw [List.getElem?_concat_length] at hr
        obtain rfl := Option.some.inj hr
        have hlen : rs.length = (keptOf parent ok rs).length := length_keptOf.symm
        rw [hlen, List.getElem?_concat_length, List.take_left']
        rfl

/-- **What is kept** stands on a way up that passes. -/
theorem keptOf_iff : (keptOf parent ok rs)[i]? = some true ↔ Standing parent ok rs i := by
  induction i using Nat.strongRecOn with
  | ind i ih =>
      cases hr : rs[i]? with
      | none =>
          have hnone : (keptOf parent ok rs)[i]? = none := by
            rw [List.getElem?_eq_none_iff, length_keptOf]
            exact List.getElem?_eq_none_iff.mp hr
          rw [hnone]
          refine iff_of_false (by simp) ?_
          rintro (⟨hr', -, -⟩ | ⟨hr', -, -, -, -⟩) <;> rw [hr] at hr' <;> cases hr'
      | some r =>
          have hi : i < rs.length := (List.getElem?_eq_some_iff.mp hr).1
          rw [getElem?_keptOf hr, Option.some.injEq, keepsNext, Bool.and_eq_true]
          cases hparent : parent r with
          | none =>
              refine ⟨fun h => .root hr hparent h.2, ?_⟩
              rintro (⟨hr', -, hok⟩ | ⟨hr', hparent', -, -, -⟩)
              · obtain rfl := Option.some.inj (hr.symm.trans hr')
                exact ⟨rfl, hok⟩
              · obtain rfl := Option.some.inj (hr.symm.trans hr')
                rw [hparent] at hparent'
                cases hparent'
          | some p =>
              have hkept : ((some p).all fun p => decide (p < ((keptOf parent ok rs).take i).length) &&
                  ((keptOf parent ok rs).take i).getD p false) = true ↔
                    p < i ∧ (keptOf parent ok rs)[p]? = some true := by
                have hlen : ((keptOf parent ok rs).take i).length = i := by
                  rw [List.length_take, length_keptOf]
                  omega
                rw [Option.all_some, Bool.and_eq_true, decide_eq_true_eq, hlen]
                refine and_congr_right fun hlt => ?_
                have hp : p < (keptOf parent ok rs).length := by rw [length_keptOf]; omega
                rw [List.getD_eq_getElem?_getD, List.getElem?_take_of_lt hlt, List.getElem?_eq_getElem hp]
                simp
              rw [hkept]
              constructor
              · rintro ⟨⟨hlt, hp⟩, hok⟩
                exact .child hr hparent hlt ((ih p hlt).mp hp) hok
              · rintro (⟨hr', hparent', -⟩ | ⟨hr', hparent', hlt, hp, hok⟩)
                · obtain rfl := Option.some.inj (hr.symm.trans hr')
                  rw [hparent] at hparent'
                  cases hparent'
                · obtain rfl := Option.some.inj (hr.symm.trans hr')
                  obtain rfl := Option.some.inj (hparent.symm.trans hparent')
                  exact ⟨⟨hlt, (ih _ hlt).mpr hp⟩, hok⟩

end Kept

/-! ## Deleting the rest -/

/-- How many records before a position are kept: the position of a kept record once the others
are deleted. -/
def rank (kept : List Bool) (i : Nat) : Nat := (kept.take i).count true

/-- The positions of the kept records. -/
def keptPositions (kept : List Bool) : List Nat :=
  (List.range kept.length).filter fun i => decide (kept[i]? = some true)

section Rank

variable {kept : List Bool} {i j : Nat} {b : Bool}

theorem rank_of_le (hi : i ≤ kept.length) : rank (kept ++ [b]) i = rank kept i := by
  rw [rank, List.take_append_of_le_length hi]
  rfl

theorem rank_length : rank kept kept.length = kept.count true := by
  rw [rank, List.take_length]

theorem rank_mono (h : i ≤ j) : rank kept i ≤ rank kept j :=
  ((List.take_prefix_take_left h).sublist).count_le true

/-- A kept record counts from the next position on. -/
theorem rank_lt_of_lt (hi : kept[i]? = some true) (h : i < j) : rank kept i < rank kept j := by
  have hsucc : rank kept (i + 1) = rank kept i + 1 := by
    rw [rank, List.take_add_one, hi, List.count_append]
    rfl
  have hmono : rank kept (i + 1) ≤ rank kept j := rank_mono h
  omega

theorem rank_injective (hi : kept[i]? = some true) (hj : kept[j]? = some true)
    (h : rank kept i = rank kept j) : i = j := by
  rcases Nat.lt_trichotomy i j with hlt | heq | hgt
  · exact absurd h (Nat.ne_of_lt (rank_lt_of_lt hi hlt))
  · exact heq
  · exact absurd h.symm (Nat.ne_of_lt (rank_lt_of_lt hj hgt))

theorem mem_keptPositions : i ∈ keptPositions kept ↔ kept[i]? = some true := by
  rw [keptPositions, List.mem_filter, List.mem_range, decide_eq_true_eq]
  exact and_iff_right_of_imp fun h => (List.getElem?_eq_some_iff.mp h).1

theorem keptPositions_concat :
    keptPositions (kept ++ [b]) = keptPositions kept ++ if b then [kept.length] else [] := by
  rw [keptPositions, List.length_append, List.length_singleton, List.range_succ, List.filter_append]
  congr 1
  · refine List.filter_congr fun i hi => ?_
    rw [List.getElem?_append_left (List.mem_range.mp hi)]
  · rw [List.filter_singleton, List.getElem?_concat_length]
    cases b <;> rfl

/-- The ranks of the kept positions are all numbers up to how many there are. -/
theorem map_rank_keptPositions : (keptPositions kept).map (rank kept) = List.range (kept.count true) := by
  induction kept using List.reverseRecOn with
  | nil => rfl
  | append_singleton kept b ih =>
      have hrank : ∀ i ∈ keptPositions kept, rank (kept ++ [b]) i = rank kept i := fun i hi =>
        rank_of_le (Nat.le_of_lt (List.getElem?_eq_some_iff.mp (mem_keptPositions.mp hi)).1)
      rw [keptPositions_concat, List.map_append, List.map_congr_left hrank, ih, List.count_append]
      cases b with
      | false => exact List.append_nil _
      | true =>
          rw [if_pos rfl, List.map_singleton, rank_of_le (Nat.le_refl _), rank_length]
          exact List.range_succ.symm

end Rank

section Compacted

variable (move : Option Nat → R → R)

/-- The kept records, with the parents renumbered. -/
def compacted (kept : List Bool) (rs : List R) : List R :=
  (rs.zip kept).filterMap fun x => if x.2 then some (move ((parent x.1).map (rank kept)) x.1) else none

variable {parent move} {rs : List R} {r : R} {kept : List Bool} {i : Nat}

/-- A kept record is found at its rank. -/
theorem getElem?_compacted (hlen : kept.length = rs.length) (hi : kept[i]? = some true)
    (hr : rs[i]? = some r) :
    (compacted parent move kept rs)[rank kept i]? = some (move ((parent r).map (rank kept)) r) := by
  have hgo : ∀ (g : R → R), ((rs.zip kept).filterMap fun x => if x.2 then some (g x.1) else none)[
      rank kept i]? = some (g r) := by
    intro g
    induction rs generalizing kept i with
    | nil => cases hr
    | cons r' rs ih =>
        cases kept with
        | nil => cases hi
        | cons b kept =>
            cases i with
            | zero =>
                obtain rfl : b = true := Option.some.inj hi
                obtain rfl : r' = r := Option.some.inj hr
                rfl
            | succ i =>
                have hrest := ih (Nat.succ.inj hlen) hi hr
                cases b with
                | false =>
                    rw [List.zip_cons_cons, List.filterMap_cons_none (by rfl), rank, List.take_succ_cons,
                      List.count_cons_of_ne (by decide)]
                    exact hrest
                | true =>
                    rw [List.zip_cons_cons, List.filterMap_cons_some (by rfl), rank, List.take_succ_cons,
                      List.count_cons_self, List.getElem?_cons_succ]
                    exact hrest
  exact hgo fun r => move ((parent r).map (rank kept)) r

theorem length_compacted (hlen : kept.length = rs.length) :
    (compacted parent move kept rs).length = kept.count true := by
  have hgo : ∀ (g : R → R),
      ((rs.zip kept).filterMap fun x => if x.2 then some (g x.1) else none).length = kept.count true := by
    intro g
    induction rs generalizing kept with
    | nil =>
        obtain rfl := List.length_eq_zero_iff.mp hlen
        rfl
    | cons r' rs ih =>
        cases kept with
        | nil => cases hlen
        | cons b kept =>
            have hrest := ih (Nat.succ.inj hlen)
            cases b with
            | false =>
                rw [List.zip_cons_cons, List.filterMap_cons_none (by rfl), hrest,
                  List.count_cons_of_ne (by decide)]
            | true =>
                rw [List.zip_cons_cons, List.filterMap_cons_some (by rfl), List.length_cons, hrest,
                  List.count_cons_self]
  exact hgo fun r => move ((parent r).map (rank kept)) r

end Compacted

/-! ## Nothing is lost -/

section Kept

variable {parent} {ok : R → Bool} {move : Option Nat → R → R} {rs : List R} {r : R} {i p : Nat}

/-- A record that is kept, and a parent that it names. -/
theorem kept_spec (hi : (keptOf parent ok rs)[i]? = some true) :
    ∃ r, rs[i]? = some r ∧ ok r = true ∧
      ∀ p, parent r = some p → p < i ∧ (keptOf parent ok rs)[p]? = some true := by
  rcases keptOf_iff.mp hi with ⟨hr, hparent, hok⟩ | ⟨hr, hparent, hlt, hp, hok⟩
  · refine ⟨_, hr, hok, fun p hp => ?_⟩
    rw [hparent] at hp
    cases hp
  · refine ⟨_, hr, hok, fun p' hp' => ?_⟩
    obtain rfl := Option.some.inj (hparent.symm.trans hp')
    exact ⟨hlt, keptOf_iff.mpr hp⟩

/-- **All that is left is kept again.** -/
theorem keptOf_compacted (hparent : ∀ p r, parent (move p r) = p) (hok : ∀ p r, ok (move p r) = ok r)
    (hi : (keptOf parent ok rs)[i]? = some true) :
    (keptOf parent ok (compacted parent move (keptOf parent ok rs) rs))[
      rank (keptOf parent ok rs) i]? = some true := by
  induction i using Nat.strongRecOn with
  | ind i ih =>
      obtain ⟨r, hr, hpasses, hup⟩ := kept_spec hi
      have hmoved := @getElem?_compacted R parent move _ _ _ _ length_keptOf hi hr
      rw [keptOf_iff]
      cases hp : parent r with
      | none =>
          exact .root hmoved (by rw [hparent, hp, Option.map_none]) ((hok _ r).trans hpasses)
      | some p =>
          obtain ⟨hlt, hkept⟩ := hup p hp
          exact .child hmoved (by rw [hparent, hp, Option.map_some]) (rank_lt_of_lt hkept hlt)
            (keptOf_iff.mp (ih p hlt hkept)) ((hok _ r).trans hpasses)

theorem kept_of_lt_length_compacted (hparent : ∀ p r, parent (move p r) = p)
    (hok : ∀ p r, ok (move p r) = ok r)
    (hi : i < (compacted parent move (keptOf parent ok rs) rs).length) :
    (keptOf parent ok (compacted parent move (keptOf parent ok rs) rs))[i]? = some true := by
  -- every number below the count is the rank of a kept record
  rw [length_compacted length_keptOf, ← List.mem_range, ← map_rank_keptPositions] at hi
  obtain ⟨j, hj, rfl⟩ := List.mem_map.mp hi
  exact keptOf_compacted hparent hok (mem_keptPositions.mp hj)

theorem keptPositions_compacted (hparent : ∀ p r, parent (move p r) = p)
    (hok : ∀ p r, ok (move p r) = ok r) :
    keptPositions (keptOf parent ok (compacted parent move (keptOf parent ok rs) rs)) =
      (keptPositions (keptOf parent ok rs)).map (rank (keptOf parent ok rs)) := by
  have hlen : (compacted parent move (keptOf parent ok rs) rs).length =
      (keptOf parent ok rs).count true := length_compacted length_keptOf
  rw [map_rank_keptPositions, keptPositions, length_keptOf, ← hlen, List.filter_eq_self]
  exact fun i hi => decide_eq_true (kept_of_lt_length_compacted hparent hok (List.mem_range.mp hi))

/-! ## The way up -/

variable (parent) in
/-- The first record on the way up that is looked for; it stops where a position is out of
range, or when the fuel is gone. -/
def climb (rs : List R) (found : R → Bool) : Nat → Option Nat → Option (Option Nat)
  | _, none => some none
  | 0, some _ => none
  | fuel + 1, some p => do
      let r ← rs[p]?
      if found r then pure (some p) else climb rs found fuel (parent r)

/-- **The way up from a record that is kept** ends, stays among those that are kept, and leads to
the same record when the others are deleted. -/
theorem climb_both {found : R → Bool} (hparent : ∀ p r, parent (move p r) = p)
    (hfound : ∀ p r, found (move p r) = found r) {fuel fuel' : Nat}
    (hp : (keptOf parent ok rs)[p]? = some true) (hfuel : p < fuel)
    (hfuel' : rank (keptOf parent ok rs) p < fuel') :
    Both (fun o o' => o' = o.map (rank (keptOf parent ok rs)) ∧
        ∀ q ∈ o, (keptOf parent ok rs)[q]? = some true)
      (climb parent rs found fuel (some p))
      (climb parent (compacted parent move (keptOf parent ok rs) rs) found fuel'
        (some (rank (keptOf parent ok rs) p))) := by
  induction p using Nat.strongRecOn generalizing fuel fuel' with
  | ind p ih =>
      obtain ⟨fuel, rfl⟩ : ∃ n, fuel = n + 1 := ⟨fuel - 1, by omega⟩
      obtain ⟨fuel', rfl⟩ : ∃ n, fuel' = n + 1 := ⟨fuel' - 1, by omega⟩
      obtain ⟨r, hr, -, hup⟩ := kept_spec hp
      have hmoved := @getElem?_compacted R parent move _ _ _ _ length_keptOf hp hr
      rw [climb, climb, hr, hmoved, Option.bind_eq_bind, Option.bind_some, Option.bind_some, hfound, hparent]
      split
      · refine .pure ⟨rfl, fun q hq => ?_⟩
        obtain rfl := Option.mem_some_iff.mp hq
        exact hp
      · cases hq : parent r with
        | none =>
            refine ⟨none, none, ?_, ?_, rfl, fun q hq => nomatch hq⟩
            · unfold climb; rfl
            · unfold climb; rfl
        | some q =>
            obtain ⟨hlt, hkept⟩ := hup q hq
            have hrank := rank_lt_of_lt hkept hlt
            exact ih q hlt hkept (by omega) (by omega)

end Kept

end Forest

end Devscout.Lib
