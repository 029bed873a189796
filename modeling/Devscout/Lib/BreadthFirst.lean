/-
# Devscout.Lib.BreadthFirst -- what a queue comes to

A search keeps what it has seen, a queue of what it has seen and not yet looked at, and what
it found. It takes the front of the queue and puts everything next to it that it has not seen
at the end. Each entry of the queue was new when it went in, so among finitely many nodes the
queue runs empty, and then it has seen exactly what the start reaches.
-/

import Devscout.Lib.Saturate
import Mathlib

namespace Devscout.Lib

namespace BreadthFirst

variable {α : Type} [DecidableEq α]

/-- What was seen, what of it is still to be looked at, and what was found. -/
structure Search (α : Type) where
  seen : List α
  queue : List α
  found : List α

def start (a : α) : Search α := ⟨[a], [a], []⟩

/-- A node is found when it is first seen. -/
def push (s : Search α) (a : α) : Search α :=
  if a ∈ s.seen then s
  else { seen := s.seen ++ [a], queue := s.queue ++ [a], found := s.found ++ [a] }

/-- Look at the front of the queue. -/
def look (next : α → List α) (s : Search α) : Search α :=
  match s.queue with
  | [] => s
  | a :: rest => (next a).foldl push { s with queue := rest }

/-- At most so many looks. -/
def search (next : α → List α) : Nat → Search α → Search α
  | 0, s => s
  | fuel + 1, s => if s.queue = [] then s else search next fuel (look next s)

variable {next : α → List α} {s : Search α} {a : α}

/-! ## One look -/

/-- What a list of nodes adds: each of them that was not seen, once. -/
theorem pushes_spec (s : Search α) (bs : List α) :
    ∃ new, bs.foldl push s = ⟨s.seen ++ new, s.queue ++ new, s.found ++ new⟩ ∧
      (∀ z ∈ new, z ∈ bs ∧ z ∉ s.seen) ∧ (∀ z ∈ bs, z ∈ s.seen ++ new) ∧ new.Nodup := by
  induction bs generalizing s with
  | nil => exact ⟨[], by simp, nofun, nofun, List.nodup_nil⟩
  | cons b bs ih =>
      rw [List.foldl_cons]
      by_cases hb : b ∈ s.seen
      · have hpush : push s b = s := if_pos hb
        obtain ⟨new, heq, hnew, hall, hnodup⟩ := ih s
        rw [hpush]
        refine ⟨new, heq, fun z hz => ⟨List.mem_cons_of_mem b (hnew z hz).1, (hnew z hz).2⟩, ?_, hnodup⟩
        intro z hz
        rcases List.mem_cons.mp hz with rfl | hz
        · exact List.mem_append_left new hb
        · exact hall z hz
      · have hpush : push s b = ⟨s.seen ++ [b], s.queue ++ [b], s.found ++ [b]⟩ := if_neg hb
        obtain ⟨new, heq, hnew, hall, hnodup⟩ := ih (push s b)
        rw [hpush] at heq hnew hall
        rw [hpush]
        refine ⟨b :: new, by simpa using heq, ?_, ?_, List.nodup_cons.mpr ⟨fun hmem => ?_, hnodup⟩⟩
        · intro z hz
          rcases List.mem_cons.mp hz with rfl | hz
          · exact ⟨List.mem_cons_self, hb⟩
          · exact ⟨List.mem_cons_of_mem b (hnew z hz).1,
              fun hseen => (hnew z hz).2 (List.mem_append_left [b] hseen)⟩
        · intro z hz
          rcases List.mem_cons.mp hz with rfl | hz
          · simp
          · simpa using hall z hz
        · exact (hnew b hmem).2 (by simp)

theorem look_eq (next : α → List α) {c : α} {rest : List α} (h : s.queue = c :: rest) :
    ∃ new, look next s = ⟨s.seen ++ new, rest ++ new, s.found ++ new⟩ ∧
      (∀ z ∈ new, z ∈ next c ∧ z ∉ s.seen) ∧ (∀ z ∈ next c, z ∈ s.seen ++ new) ∧ new.Nodup := by
  unfold look
  rw [h]
  exact pushes_spec { s with queue := rest } (next c)

/-- What a search keeps: it has seen only what its start reaches, and everything next to a node
that it has looked at; it has found what it has seen beyond its start. -/
structure Inv (next : α → List α) (a : α) (s : Search α) : Prop where
  reached : ∀ z ∈ s.seen, Relation.ReflTransGen (fun x y => y ∈ next x) a z
  begun : a ∈ s.seen
  waiting : ∀ z ∈ s.queue, z ∈ s.seen
  looked : ∀ z ∈ s.seen, z ∉ s.queue → ∀ y ∈ next z, y ∈ s.seen
  found : ∀ z, z ∈ s.found ↔ z ∈ s.seen ∧ z ≠ a

omit [DecidableEq α] in
theorem inv_start (a : α) : Inv next a (start a) where
  reached z hz := by
    rw [List.mem_singleton.mp hz]
  begun := List.mem_singleton_self a
  waiting _ hz := hz
  looked _ hz hno := absurd hz hno
  found z := by
    simp [start]

theorem inv_look (h : Inv next a s) : Inv next a (look next s) := by
  rcases hqueue : s.queue with _ | ⟨c, rest⟩
  · have hlook : look next s = s := by
      unfold look
      rw [hqueue]
    rwa [hlook]
  · obtain ⟨new, hlook, hnew, hall, -⟩ := look_eq next hqueue
    have hc : c ∈ s.seen := h.waiting c (by rw [hqueue]; exact List.mem_cons_self)
    rw [hlook]
    refine ⟨fun z hz => ?_, List.mem_append_left new h.begun, fun z hz => ?_, fun z hz hno y hy => ?_, fun z => ?_⟩
    · rcases List.mem_append.mp hz with hz | hz
      · exact h.reached z hz
      · exact (h.reached c hc).tail (hnew z hz).1
    · rcases List.mem_append.mp hz with hz | hz
      · exact List.mem_append_left new (h.waiting z (by rw [hqueue]; exact List.mem_cons_of_mem c hz))
      · exact List.mem_append_right s.seen hz
    · -- a node that waits no longer was looked at before, or is the one looked at now
      have hnot : z ∉ rest ∧ z ∉ new := by
        simpa using hno
      have hz := (List.mem_append.mp hz).resolve_right hnot.2
      by_cases hzc : z = c
      · exact hall y (hzc ▸ hy)
      · refine List.mem_append_left new (h.looked z hz ?_ y hy)
        rw [hqueue]
        simpa [hzc] using hnot.1
    · rw [List.mem_append, List.mem_append, h.found z]
      constructor
      · rintro (⟨hseen, hne⟩ | hz)
        · exact ⟨.inl hseen, hne⟩
        · refine ⟨.inr hz, ?_⟩
          rintro rfl
          exact (hnew z hz).2 h.begun
      · rintro ⟨hseen | hz, hne⟩
        · exact .inl ⟨hseen, hne⟩
        · exact .inr hz

/-! ## The whole search -/

theorem inv_search (fuel : Nat) (h : Inv next a s) : Inv next a (search next fuel s) := by
  induction fuel generalizing s with
  | zero => exact h
  | succ fuel ih =>
      unfold search
      split
      · exact h
      · exact ih (inv_look h)

section Finite

variable {nodes : List α} (hnodes : ∀ c, ∀ d ∈ next c, d ∈ nodes)

/-- New nodes are as many fewer that are missing. -/
theorem missing_append {held new : List α} (hin : ∀ z ∈ new, z ∈ nodes) (hnot : ∀ z ∈ new, z ∉ held)
    (hnodup : new.Nodup) : missing nodes (held ++ new) + new.length ≤ missing nodes held := by
  induction new generalizing held with
  | nil => simp
  | cons b new ih =>
      obtain ⟨hb, hrest⟩ := List.nodup_cons.mp hnodup
      have hfewer : missing nodes (held ++ [b]) < missing nodes held :=
        missing_lt (fun c hc => List.mem_append_left [b] hc) (hin b List.mem_cons_self)
          (hnot b List.mem_cons_self) (by simp)
      have hmore := @ih (held ++ [b]) (fun z hz => hin z (List.mem_cons_of_mem b hz))
        (fun z hz hmem => by
          rcases List.mem_append.mp hmem with hmem | hmem
          · exact hnot z (List.mem_cons_of_mem b hz) hmem
          · exact hb (List.mem_singleton.mp hmem ▸ hz)) hrest
      rw [List.append_assoc, List.singleton_append] at hmore
      rw [List.length_cons]
      omega

include hnodes

/-- **The queue runs empty** after as many looks as there are nodes waiting or unseen. -/
theorem search_queue {fuel : Nat} (hfuel : s.queue.length + missing nodes s.seen ≤ fuel) :
    (search next fuel s).queue = [] := by
  induction fuel generalizing s with
  | zero =>
      unfold search
      exact List.length_eq_zero_iff.mp (by omega)
  | succ fuel ih =>
      unfold search
      split
      · assumption
      · rename_i hne
        obtain ⟨c, rest, hqueue⟩ := List.exists_cons_of_ne_nil hne
        obtain ⟨new, hlook, hnew, -, hnodup⟩ := look_eq next hqueue
        have hfewer : missing nodes (s.seen ++ new) + new.length ≤ missing nodes s.seen :=
          missing_append (fun z hz => hnodes c z (hnew z hz).1) (fun z hz => (hnew z hz).2) hnodup
        rw [hqueue, List.length_cons] at hfuel
        refine ih ?_
        rw [hlook]
        show (rest ++ new).length + missing nodes (s.seen ++ new) ≤ fuel
        rw [List.length_append]
        omega

/-- **A breadth-first search finds exactly what its start reaches**, itself left out. -/
theorem mem_found_iff (a z : α) {fuel : Nat} (hfuel : nodes.length < fuel) :
    z ∈ (search next fuel (start a)).found ↔ Relation.ReflTransGen (fun x y => y ∈ next x) a z ∧ z ≠ a := by
  have hinv : Inv next a (search next fuel (start a)) := inv_search fuel (inv_start a)
  have hqueue : (search next fuel (start a)).queue = [] := by
    refine search_queue hnodes ?_
    have hmissing : missing nodes (start a).seen ≤ nodes.length := List.countP_le_length
    show 1 + _ ≤ fuel
    omega
  rw [hinv.found z]
  refine and_congr_left fun hne => ⟨hinv.reached z, fun hreach => ?_⟩
  clear hne
  induction hreach with
  | refl => exact hinv.begun
  | tail _ hstep ih => exact hinv.looked _ ih (by rw [hqueue]; exact List.not_mem_nil) _ hstep

end Finite

end BreadthFirst

end Devscout.Lib
