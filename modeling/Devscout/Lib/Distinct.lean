/-
# Devscout.Lib.Distinct -- a list that takes what it does not know yet

Entries are pushed one by one, and one that is known already is passed over. What counts
as known is the caller's own: being in the list, or having the name of one that is.

A list sorted by a key, equal neighbours dropped, holds one entry of each key.
-/

import Mathlib

namespace Devscout.Lib

section Distinct

variable {α : Type} {known : List α → α → Prop} [∀ acc a, Decidable (known acc a)]
variable {held more : List α}

theorem mem_of_mem_foldl_new {a : α}
    (h : a ∈ more.foldl (fun acc b => if known acc b then acc else acc ++ [b]) held) :
    a ∈ held ∨ a ∈ more := by
  induction more generalizing held with
  | nil => exact Or.inl h
  | cons b bs ih =>
      rw [List.foldl_cons] at h
      rcases ih h with hheld | hmore
      · by_cases hknown : known held b
        · rw [if_pos hknown] at hheld
          exact Or.inl hheld
        · rw [if_neg hknown, List.mem_append, List.mem_singleton] at hheld
          exact hheld.imp_right fun hab => List.mem_cons.mpr (Or.inl hab)
      · exact Or.inr (List.mem_cons_of_mem b hmore)

theorem mem_foldl_new_of_held {a : α} (h : a ∈ held) :
    a ∈ more.foldl (fun acc b => if known acc b then acc else acc ++ [b]) held := by
  induction more generalizing held with
  | nil => exact h
  | cons b bs ih =>
      rw [List.foldl_cons]
      refine ih ?_
      by_cases hknown : known held b
      · rwa [if_pos hknown]
      · rw [if_neg hknown]
        exact List.mem_append_left _ h

/-- What is known only when it is there is there in the end. -/
theorem mem_foldl_new_of_mem (hknown : ∀ acc b, known acc b → b ∈ acc) {a : α} (h : a ∈ more) :
    a ∈ more.foldl (fun acc b => if known acc b then acc else acc ++ [b]) held := by
  induction more generalizing held with
  | nil => cases h
  | cons b bs ih =>
      rw [List.foldl_cons]
      rcases List.mem_cons.mp h with rfl | hrest
      · refine mem_foldl_new_of_held ?_
        by_cases hb : known held a
        · rw [if_pos hb]
          exact hknown held a hb
        · rw [if_neg hb]
          exact List.mem_append_right _ (List.mem_singleton_self a)
      · exact ih hrest

/-- Where an entry that is there is known, no entry is there twice. -/
theorem nodup_foldl_new (hnew : ∀ acc b, ¬ known acc b → b ∉ acc) (h : held.Nodup) :
    (more.foldl (fun acc b => if known acc b then acc else acc ++ [b]) held).Nodup := by
  induction more generalizing held with
  | nil => exact h
  | cons b bs ih =>
      rw [List.foldl_cons]
      refine ih ?_
      by_cases hb : known held b
      · rwa [if_pos hb]
      · rw [if_neg hb, ← List.concat_eq_append]
        exact List.Nodup.concat (hnew held b hb) h

end Distinct

section Set

variable {α : Type} [∀ (acc : List α) b, Decidable (b ∈ acc)]

/-- A list in which each entry is kept once holds the same entries in any order. -/
theorem foldl_new_perm {more more' : List α} (h : more.Perm more') :
    (more.foldl (fun acc b => if b ∈ acc then acc else acc ++ [b]) []).Perm
      (more'.foldl (fun acc b => if b ∈ acc then acc else acc ++ [b]) []) := by
  have hnodup (more : List α) : (more.foldl (fun acc b => if b ∈ acc then acc else acc ++ [b]) []).Nodup :=
    @nodup_foldl_new α (fun acc b => b ∈ acc) _ [] more (fun _ _ hnot => hnot) List.nodup_nil
  have hmem (more : List α) (a : α) :
      a ∈ more.foldl (fun acc b => if b ∈ acc then acc else acc ++ [b]) [] ↔ a ∈ more := by
    constructor
    · exact fun ha => (mem_of_mem_foldl_new ha).resolve_left List.not_mem_nil
    · exact fun ha => @mem_foldl_new_of_mem α (fun acc b => b ∈ acc) _ [] more (fun _ _ hin => hin) a ha
  refine (List.perm_ext_iff_of_nodup (hnodup more) (hnodup more')).mpr fun a => ?_
  rw [hmem, hmem, h.mem_iff]

end Set

/-! ## The first of each key -/

section FirstOfKey

variable {α κ : Type} {key : α → κ} [∀ (acc : List α) b, Decidable (key b ∈ acc.map key)]
  {held more : List α} {a : α}

/-- What is added to the entries held is the first with its key, and none held has it. -/
theorem mem_foldl_newKey :
    a ∈ more.foldl (fun acc b => if key b ∈ acc.map key then acc else acc ++ [b]) held ↔
      a ∈ held ∨ ∃ pre post, more = pre ++ a :: post ∧ key a ∉ held.map key ∧
        ∀ b ∈ pre, key b ≠ key a := by
  induction more generalizing held with
  | nil =>
      refine ⟨Or.inl, fun h => h.resolve_right ?_⟩
      rintro ⟨pre, post, hsplit, -⟩
      exact absurd hsplit.symm (by simp)
  | cons b bs ih =>
      rw [List.foldl_cons, ih]
      by_cases hb : key b ∈ held.map key
      · rw [if_pos hb]
        refine or_congr_right ⟨?_, ?_⟩
        · rintro ⟨pre, post, rfl, hnew, hpre⟩
          refine ⟨b :: pre, post, rfl, hnew, fun c hc => ?_⟩
          rcases List.mem_cons.mp hc with rfl | hc
          · exact fun heq => hnew (heq ▸ hb)
          · exact hpre c hc
        · rintro ⟨pre, post, hsplit, hnew, hpre⟩
          rcases List.cons_eq_append_iff.mp hsplit with ⟨rfl, heq⟩ | ⟨pre', rfl, hbs⟩
          · obtain ⟨rfl, -⟩ := List.cons.inj heq
            exact absurd hb hnew
          · exact ⟨pre', post, hbs, hnew, fun c hc => hpre c (List.mem_cons_of_mem b hc)⟩
      · rw [if_neg hb, List.mem_append, List.mem_singleton, or_assoc]
        refine or_congr_right ⟨?_, ?_⟩
        · rintro (rfl | ⟨pre, post, rfl, hnew, hpre⟩)
          · exact ⟨[], bs, rfl, hb, fun c hc => absurd hc List.not_mem_nil⟩
          · rw [List.map_append, List.mem_append, not_or] at hnew
            refine ⟨b :: pre, post, rfl, hnew.1, fun c hc => ?_⟩
            rcases List.mem_cons.mp hc with rfl | hc
            · exact fun heq => hnew.2 (by rw [← heq]; exact List.mem_singleton_self _)
            · exact hpre c hc
        · rintro ⟨pre, post, hsplit, hnew, hpre⟩
          rcases List.cons_eq_append_iff.mp hsplit with ⟨rfl, heq⟩ | ⟨pre', rfl, hbs⟩
          · exact Or.inl (List.cons.inj heq).1
          · refine Or.inr ⟨pre', post, hbs, ?_, fun c hc => hpre c (List.mem_cons_of_mem b hc)⟩
            rw [List.map_append, List.mem_append, not_or]
            refine ⟨hnew, fun hmem => hpre b List.mem_cons_self ?_⟩
            exact (List.mem_singleton.mp hmem).symm

theorem nodup_keys_foldl_newKey (h : (held.map key).Nodup) :
    ((more.foldl (fun acc b => if key b ∈ acc.map key then acc else acc ++ [b]) held).map key).Nodup := by
  induction more generalizing held with
  | nil => exact h
  | cons b bs ih =>
      rw [List.foldl_cons]
      refine ih ?_
      by_cases hb : key b ∈ held.map key
      · rwa [if_pos hb]
      · rw [if_neg hb, List.map_append]
        exact List.nodup_append_comm.mp (List.nodup_cons.mpr ⟨hb, h⟩)

end FirstOfKey

/-! ## One of each key -/

section Keys

variable {α β : Type} [LinearOrder β] (key : α → β)

/-- Sorted by a key, and of neighbours with one key the first. -/
def sortedByKey (l : List α) : List α :=
  (l.insertionSort fun a b => key a ≤ key b).destutter fun a b => key a ≠ key b

variable {key} {l : List α}

theorem mem_of_mem_sortedByKey {a : α} (h : a ∈ sortedByKey key l) : a ∈ l :=
  (List.mem_insertionSort _).mp ((List.destutter_sublist _ _).subset h)

theorem pairwise_sortedByKey : (sortedByKey key l).Pairwise fun a b => key a < key b := by
  have htrans : IsTrans α fun a b => key a ≤ key b := ⟨fun _ _ _ => le_trans⟩
  have htotal : Std.Total fun a b : α => key a ≤ key b := ⟨fun _ _ => le_total _ _⟩
  have hsorted : (sortedByKey key l).Pairwise fun a b => key a ≤ key b :=
    (List.pairwise_insertionSort _ l).sublist (List.destutter_sublist _ _)
  have hchain : (sortedByKey key l).IsChain fun a b => key a < key b :=
    List.isChain_iff_getElem.mpr fun i hi =>
      lt_of_le_of_ne (hsorted.isChain.getElem i hi) ((List.isChain_destutter _ _).getElem i hi)
  have htrans' : IsTrans α fun a b => key a < key b := ⟨fun _ _ _ => lt_trans⟩
  exact hchain.pairwise

/-- No key is lost. -/
theorem exists_mem_sortedByKey {a : α} (h : a ∈ l) : ∃ b ∈ sortedByKey key l, key b = key a := by
  have hrun : ∀ (l : List α) (x a : α), a = x ∨ a ∈ l →
      ∃ b ∈ l.destutter' (fun a b => key a ≠ key b) x, key b = key a := by
    intro l
    induction l with
    | nil => exact fun x a ha => ⟨x, List.mem_singleton.mpr rfl, by simp_all⟩
    | cons y l ih =>
        intro x a ha
        by_cases hxy : key x ≠ key y
        · rw [List.destutter'_cons, if_pos hxy]
          rcases ha with rfl | ha
          · exact ⟨a, List.mem_cons_self, rfl⟩
          · obtain ⟨b, hb, hkey⟩ := ih y a (List.mem_cons.mp ha)
            exact ⟨b, List.mem_cons_of_mem x hb, hkey⟩
        · rw [List.destutter'_cons, if_neg hxy]
          rcases ha with rfl | ha
          · exact ih a a (Or.inl rfl)
          · rcases List.mem_cons.mp ha with rfl | ha
            · obtain ⟨b, hb, hkey⟩ := ih x x (Or.inl rfl)
              exact ⟨b, hb, hkey.trans (not_not.mp hxy)⟩
            · exact ih x a (Or.inr ha)
  have hmem : a ∈ l.insertionSort fun a b => key a ≤ key b := (List.mem_insertionSort _).mpr h
  unfold sortedByKey
  cases hsort : l.insertionSort fun a b => key a ≤ key b with
  | nil =>
      rw [hsort] at hmem
      cases hmem
  | cons x rest =>
      rw [hsort] at hmem
      exact hrun rest x a (List.mem_cons.mp hmem)

/-- Two entries are left exactly when there are two keys. -/
theorem two_le_length_sortedByKey :
    2 ≤ (sortedByKey key l).length ↔ ∃ a ∈ l, ∃ b ∈ l, key a ≠ key b := by
  have hpair : (sortedByKey key l).Pairwise fun a b => key a < key b := pairwise_sortedByKey
  constructor
  · intro hlen
    match hl : sortedByKey key l with
    | [] => simp [hl] at hlen
    | [_] => simp [hl] at hlen
    | a :: b :: rest =>
        rw [hl] at hpair
        have hlt : key a < key b := (List.pairwise_cons.mp hpair).1 b List.mem_cons_self
        exact ⟨a, mem_of_mem_sortedByKey (hl ▸ List.mem_cons_self), b,
          mem_of_mem_sortedByKey (hl ▸ List.mem_cons_of_mem a List.mem_cons_self), hlt.ne⟩
  · rintro ⟨a, ha, b, hb, hne⟩
    obtain ⟨a', ha', hkeya⟩ : ∃ a' ∈ sortedByKey key l, key a' = key a := exists_mem_sortedByKey ha
    obtain ⟨b', hb', hkeyb⟩ : ∃ b' ∈ sortedByKey key l, key b' = key b := exists_mem_sortedByKey hb
    by_contra hlen
    match hl : sortedByKey key l with
    | [] => simp [hl] at ha'
    | [c] =>
        rw [hl, List.mem_singleton] at ha' hb'
        exact hne (by rw [← hkeya, ← hkeyb, ha', hb'])
    | _ :: _ :: _ => simp [hl] at hlen

end Keys

end Devscout.Lib
