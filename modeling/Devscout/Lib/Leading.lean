/-
# Devscout.Lib.Leading -- the first few with different labels

Rows are sorted by a key, and from the front the first of each label is taken until there are
enough. Which rows that are is said here of the list as it was before it was sorted: a row is
shown when none of a smaller key has its label and the smaller keys have few enough labels.
Rows of one key are in each other's way, and the sort leaves them as they stood; the rows taken
are the same in every order of the list where rows of a key that is shown do not differ.
-/

import Mathlib

namespace Devscout.Lib

variable {α ν κ : Type}

/-! ## The first of each label -/

section Pick

variable [DecidableEq ν] (label : α → ν)

/-- The first of each label that is not seen yet, `n` of them at most. -/
def pick : Nat → List ν → List α → List α
  | 0, _, _ => []
  | _ + 1, _, [] => []
  | n + 1, seen, a :: rest =>
      if label a ∈ seen then pick (n + 1) seen rest else a :: pick n (label a :: seen) rest

variable {label}

theorem pick_sublist (n : Nat) (seen : List ν) (l : List α) : (pick label n seen l).Sublist l := by
  induction l generalizing n seen with
  | nil => cases n <;> exact List.Sublist.refl _
  | cons a rest ih =>
      match n with
      | 0 => exact List.nil_sublist _
      | n + 1 =>
          rw [pick]
          split
          · exact (ih _ _).cons a
          · exact (ih _ _).cons_cons a

example : pick (fun n : Nat => n % 2) 2 [] [1, 3, 4] = [1, 4] := by decide +kernel

theorem label_not_seen {n : Nat} {seen : List ν} {l : List α} {a : α} (h : a ∈ pick label n seen l) :
    label a ∉ seen := by
  induction l generalizing n seen with
  | nil => cases n <;> exact absurd h List.not_mem_nil
  | cons b rest ih =>
      match n with
      | 0 => exact absurd h List.not_mem_nil
      | n + 1 =>
          rw [pick] at h
          split at h
          · exact ih h
          · rename_i hnew
            rcases List.mem_cons.mp h with rfl | h
            · exact hnew
            · exact fun hseen => ih h (List.mem_cons_of_mem _ hseen)

theorem pick_labels_nodup (n : Nat) (seen : List ν) (l : List α) :
    ((pick label n seen l).map label).Nodup := by
  induction l generalizing n seen with
  | nil => cases n <;> exact List.nodup_nil
  | cons a rest ih =>
      match n with
      | 0 => exact List.nodup_nil
      | n + 1 =>
          rw [pick]
          split
          · exact ih _ _
          · refine List.nodup_cons.mpr ⟨fun hmem => ?_, ih _ _⟩
            obtain ⟨b, hb, hlabel⟩ := List.mem_map.mp hmem
            exact label_not_seen hb (hlabel ▸ List.mem_cons_self)

/-- One more label is seen. -/
theorem card_labels_cons {x : ν} {seen : List ν} {s : Finset ν} (hx : x ∉ seen) :
    (insert x s \ seen.toFinset).card = (s \ (x :: seen).toFinset).card + 1 := by
  have hset : insert x s \ seen.toFinset = insert x (s \ (x :: seen).toFinset) := by
    ext y
    simp only [Finset.mem_sdiff, Finset.mem_insert, List.mem_toFinset, List.mem_cons, not_or]
    constructor
    · rintro ⟨rfl | hy, hseen⟩
      · exact Or.inl rfl
      · exact (eq_or_ne y x).imp_right fun hne => ⟨hy, hne, hseen⟩
    · rintro (rfl | ⟨hy, -, hseen⟩)
      · exact ⟨Or.inl rfl, hx⟩
      · exact ⟨Or.inr hy, hseen⟩
  rw [hset, Finset.card_insert_of_notMem fun h => (Finset.mem_sdiff.mp h).2 (by simp)]

/-- **What is picked**: the first of its label, with few enough labels before it. -/
theorem mem_pick {n : Nat} {seen : List ν} {l : List α} {a : α} :
    a ∈ pick label n seen l ↔ ∃ before after, l = before ++ a :: after ∧ label a ∉ seen ∧
      label a ∉ before.map label ∧ ((before.map label).toFinset \ seen.toFinset).card < n := by
  induction l generalizing n seen with
  | nil =>
      refine ⟨fun h => ?_, ?_⟩
      · cases n <;> exact absurd h List.not_mem_nil
      · rintro ⟨before, after, heq, -⟩
        exact absurd heq.symm (by simp)
  | cons b rest ih =>
      match n with
      | 0 =>
          exact ⟨fun h => absurd h List.not_mem_nil,
            fun ⟨_, _, _, _, _, hfew⟩ => absurd hfew (Nat.not_lt_zero _)⟩
      | n + 1 =>
          rw [pick]
          by_cases hb : label b ∈ seen
          · rw [if_pos hb, ih]
            -- a label that is seen counts for nothing
            have hcard (s : Finset ν) : insert (label b) s \ seen.toFinset = s \ seen.toFinset :=
              Finset.insert_sdiff_of_mem s (List.mem_toFinset.mpr hb)
            constructor
            · rintro ⟨before, after, rfl, hseen, hbefore, hfew⟩
              refine ⟨b :: before, after, rfl, hseen, ?_, ?_⟩
              · rw [List.map_cons, List.mem_cons, not_or]
                exact ⟨fun heq => hseen (heq ▸ hb), hbefore⟩
              · rwa [List.map_cons, List.toFinset_cons, hcard]
            · rintro ⟨before, after, heq, hseen, hbefore, hfew⟩
              rcases List.cons_eq_append_iff.mp heq with ⟨rfl, heq⟩ | ⟨before', rfl, hrest⟩
              · obtain ⟨rfl, -⟩ := List.cons.inj heq
                exact absurd hb hseen
              · rw [List.map_cons, List.toFinset_cons, hcard] at hfew
                exact ⟨before', after, hrest, hseen, fun h => hbefore (List.mem_cons_of_mem _ h), hfew⟩
          · rw [if_neg hb, List.mem_cons, ih]
            constructor
            · rintro (rfl | ⟨before, after, rfl, hseen, hbefore, hfew⟩)
              · exact ⟨[], rest, rfl, hb, List.not_mem_nil, by simp⟩
              · rw [List.mem_cons, not_or] at hseen
                refine ⟨b :: before, after, rfl, hseen.2, ?_, ?_⟩
                · rw [List.map_cons, List.mem_cons, not_or]
                  exact ⟨hseen.1, hbefore⟩
                · rw [List.map_cons, List.toFinset_cons, card_labels_cons hb]
                  exact Nat.succ_lt_succ hfew
            · rintro ⟨before, after, heq, hseen, hbefore, hfew⟩
              rcases List.cons_eq_append_iff.mp heq with ⟨rfl, heq⟩ | ⟨before', rfl, hrest⟩
              · exact Or.inl (List.cons.inj heq).1.symm
              · rw [List.map_cons, List.toFinset_cons, card_labels_cons hb] at hfew
                rw [List.map_cons, List.mem_cons, not_or] at hbefore
                exact Or.inr ⟨before', after, hrest, List.not_mem_cons_of_ne_of_not_mem hbefore.1 hseen,
                  hbefore.2, Nat.lt_of_succ_lt_succ hfew⟩

end Pick

/-! ## Of a sorted list -/

section Leading

variable [DecidableEq ν] [LinearOrder κ] (label : α → ν) (key : α → κ)

/-- The first `cap` of different labels, in the order of the keys. -/
def leading (cap : Nat) (l : List α) : List α :=
  pick label cap [] (l.insertionSort fun a b => key a ≤ key b)

/-- No row of a smaller key has the label, and the rows of smaller keys have fewer than `cap`. -/
def Leads (cap : Nat) (l : List α) (a : α) : Prop :=
  (∀ b ∈ l, key b < key a → label b ≠ label a) ∧
    ((l.filter fun b => key b < key a).map label).toFinset.card < cap

instance (cap : Nat) (l : List α) (a : α) : Decidable (Leads label key cap l a) :=
  inferInstanceAs (Decidable (_ ∧ _))

variable {label key} {cap : Nat} {l l' : List α} {a b : α}

theorem Leads.perm (h : l.Perm l') : Leads label key cap l a ↔ Leads label key cap l' a := by
  rw [Leads, Leads, List.toFinset_eq_of_perm _ _ ((h.filter _).map label)]
  exact and_congr_left fun _ => forall_congr' fun b => imp_congr_left h.mem_iff

variable (hlabel : ∀ a b : α, key a = key b → label a = label b)

include hlabel in
theorem Leads.congr (h : key a = key b) (ha : Leads label key cap l a) : Leads label key cap l b := by
  rw [Leads, ← h, ← hlabel a b h]
  exact ha

theorem sorted_insertionSort (key : α → κ) (l : List α) :
    (l.insertionSort fun a b => key a ≤ key b).Pairwise fun a b => key a ≤ key b := by
  have htrans : IsTrans α fun a b => key a ≤ key b := ⟨fun _ _ _ => le_trans⟩
  have htotal : Std.Total fun a b : α => key a ≤ key b := ⟨fun _ _ => le_total _ _⟩
  exact List.pairwise_insertionSort _ l

include hlabel in
/-- In a sorted list: what is shown and stands first of its key. -/
theorem mem_pick_sorted (hsorted : l.Pairwise fun a b => key a ≤ key b) :
    a ∈ pick label cap [] l ↔
      (∃ before after, l = before ++ a :: after ∧ ∀ b ∈ before, key b < key a) ∧
        Leads label key cap l a := by
  -- before the first of a key stand the rows of smaller keys and no others
  have hfilter : ∀ before after, l = before ++ a :: after → (∀ b ∈ before, key b < key a) →
      l.filter (fun b => key b < key a) = before := by
    rintro before after rfl hbefore
    have hafter := (List.pairwise_cons.mp (List.pairwise_append.mp hsorted).2.1).1
    rw [List.filter_append, List.filter_cons_of_neg (by simp),
      List.filter_eq_self.mpr (by simpa using hbefore),
      List.filter_eq_nil_iff.mpr (by simpa using hafter),
      List.append_nil]
  rw [mem_pick]
  constructor
  · rintro ⟨before, after, heq, -, hnew, hfew⟩
    have hbefore : ∀ b ∈ before, key b < key a := fun b hb => by
      have hle : key b ≤ key a := by
        rw [heq, List.pairwise_append] at hsorted
        exact hsorted.2.2 b hb a List.mem_cons_self
      exact lt_of_le_of_ne hle fun hkey => hnew (hlabel b a hkey ▸ List.mem_map_of_mem hb)
    refine ⟨⟨before, after, heq, hbefore⟩, fun b hb hlt hsame => ?_, ?_⟩
    · have hmem : b ∈ l.filter fun b => key b < key a := List.mem_filter.mpr ⟨hb, by simpa using hlt⟩
      rw [hfilter before after heq hbefore] at hmem
      exact hnew (hsame ▸ List.mem_map_of_mem hmem)
    · rw [hfilter before after heq hbefore]
      simpa using hfew
  · rintro ⟨⟨before, after, heq, hbefore⟩, hdistinct, hfew⟩
    rw [hfilter before after heq hbefore] at hfew
    refine ⟨before, after, heq, List.not_mem_nil, fun hmem => ?_, by simpa using hfew⟩
    obtain ⟨b, hb, hsame⟩ := List.mem_map.mp hmem
    exact hdistinct b (heq ▸ List.mem_append_left _ hb) (hbefore b hb) hsame

theorem mem_of_mem_leading (h : a ∈ leading label key cap l) : a ∈ l :=
  (List.mem_insertionSort _).mp ((pick_sublist _ _ _).subset h)

variable (label key cap l) in
theorem leading_labels_nodup : ((leading label key cap l).map label).Nodup := pick_labels_nodup _ _ _

include hlabel in
/-- What leads stands in the order of the keys, which are all different. -/
theorem leading_pairwise : (leading label key cap l).Pairwise fun a b => key a < key b := by
  have hle : (leading label key cap l).Pairwise fun a b => key a ≤ key b :=
    (sorted_insertionSort key l).sublist (pick_sublist cap [] _)
  have hne := List.pairwise_map.mp (leading_labels_nodup label key cap l)
  exact hle.imp₂ (fun a b hab hlab => lt_of_le_of_ne hab fun heq => hlab (hlabel a b heq)) hne

include hlabel in
theorem mem_leading_iff (htie : ∀ a ∈ l, ∀ b ∈ l, key a = key b → Leads label key cap l a → a = b) :
    a ∈ leading label key cap l ↔ a ∈ l ∧ Leads label key cap l a := by
  have hperm := List.perm_insertionSort (fun a b => key a ≤ key b) l
  rw [leading, mem_pick_sorted hlabel (sorted_insertionSort key l), Leads.perm hperm]
  constructor
  · rintro ⟨⟨before, after, heq, -⟩, hshown⟩
    exact ⟨hperm.mem_iff.mp (heq ▸ List.mem_append_right _ List.mem_cons_self), hshown⟩
  · rintro ⟨ha, hshown⟩
    -- the first of the key is the row itself
    have hsome : ((l.insertionSort fun a b => key a ≤ key b).find? fun b => key b = key a).isSome :=
      List.find?_isSome.mpr ⟨a, hperm.mem_iff.mpr ha, decide_eq_true rfl⟩
    obtain ⟨b, hb⟩ := Option.isSome_iff_exists.mp hsome
    obtain ⟨hkey, before, after, heq, hbefore⟩ := List.find?_eq_some_iff_append.mp hb
    replace hkey : key b = key a := of_decide_eq_true hkey
    have hsorted := sorted_insertionSort key l
    rw [heq, List.pairwise_append] at hsorted
    obtain rfl : a = b := htie a ha b (hperm.mem_iff.mp (heq ▸ by simp)) hkey.symm hshown
    refine ⟨⟨before, after, heq, fun c hc => ?_⟩, hshown⟩
    exact lt_of_le_of_ne (hsorted.2.2 c hc a List.mem_cons_self) (by simpa using hbefore c hc)

include hlabel in
/-- **The same rows in every order**, where rows of a key that is shown do not differ. -/
theorem leading_perm (htie : ∀ a ∈ l, ∀ b ∈ l, key a = key b → Leads label key cap l a → a = b)
    (h : l'.Perm l) : leading label key cap l' = leading label key cap l := by
  have htie' : ∀ a ∈ l', ∀ b ∈ l', key a = key b → Leads label key cap l' a → a = b := by
    intro a ha b hb hkey hshown
    exact htie a (h.mem_iff.mp ha) b (h.mem_iff.mp hb) hkey ((Leads.perm h).mp hshown)
  have hmem : ∀ a, a ∈ leading label key cap l' ↔ a ∈ leading label key cap l := fun a => by
    rw [mem_leading_iff hlabel htie, mem_leading_iff hlabel htie', h.mem_iff, Leads.perm h]
  have hperm := (List.perm_ext_iff_of_nodup (leading_labels_nodup label key cap l').of_map
    (leading_labels_nodup label key cap l).of_map).mpr hmem
  exact hperm.eq_of_pairwise (fun a b _ _ hab hba => absurd hba hab.not_gt)
    (leading_pairwise hlabel) (leading_pairwise hlabel)

include hlabel in
/-- Of the rows of a key that is shown, the one at the front is taken. -/
theorem head_mem_leading (h : Leads label key cap (a :: l) a) : a ∈ leading label key cap (a :: l) := by
  have hperm := List.perm_insertionSort (fun a b => key a ≤ key b) (a :: l)
  rw [leading, mem_pick_sorted hlabel (sorted_insertionSort key _), Leads.perm hperm]
  refine ⟨?_, h⟩
  rw [List.insertionSort_cons, List.orderedInsert_eq_take_drop]
  refine ⟨_, _, rfl, fun b hb => ?_⟩
  have hnot := List.all_eq_true.mp List.all_takeWhile b hb
  exact not_le.mp (by simpa using hnot)

end Leading

end Devscout.Lib
