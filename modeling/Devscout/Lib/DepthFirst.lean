/-
# Devscout.Lib.DepthFirst -- going down before going on

A depth-first walk enters a node, then everything below it, and then the later ones of the
list it was in; a node entered already is passed over. A walk that marks nodes when it
lists them, and not when it enters them, goes down only to what nobody has listed: a node
that waits in some list is not entered from below an earlier one of that list.

The two enter the same nodes. Their orders agree exactly when depth first no node is
entered ahead of one that was listed after it.
-/

import Devscout.Lib.Saturate
import Mathlib

namespace Devscout.Lib

namespace DepthFirst

variable {α : Type} (children : α → List α)

/-- **Depth first:** the nodes already entered, a list to enter, and the nodes entered from
it in order. -/
inductive Entered : List α → List α → List α → Prop
  | done {before : List α} : Entered before [] []
  | again {before cs order : List α} {c : α} (held : c ∈ before) (rest : Entered before cs order) :
      Entered before (c :: cs) order
  | enter {before cs below after : List α} {c : α} (new : c ∉ before)
      (down : Entered (before ++ [c]) (children c) below)
      (rest : Entered (before ++ c :: below) cs after) :
      Entered before (c :: cs) (c :: (below ++ after))

namespace Entered

variable {children} {before cs ds order : List α} {c : α}

theorem append {order' : List α} (h : Entered children before cs order)
    (h' : Entered children (before ++ order) ds order') :
    Entered children before (cs ++ ds) (order ++ order') := by
  induction h with
  | done => simpa using h'
  | again held _ ih => exact .again held (ih h')
  | @enter before cs below after c new down _ _ ih =>
      have hrest := ih (by simpa using h')
      have hall := Entered.enter new down hrest
      simpa using hall

/-- What is entered first, with everything else still to enter. -/
theorem cases_first (h : Entered children before cs order) :
    (order = [] ∧ ∀ c ∈ cs, c ∈ before) ∨
      ∃ z order' skipped rest, order = z :: order' ∧ cs = skipped ++ z :: rest ∧
        (∀ c ∈ skipped, c ∈ before) ∧ z ∉ before ∧
          Entered children (before ++ [z]) (children z ++ rest) order' := by
  induction h with
  | done => exact Or.inl ⟨rfl, fun _ h => nomatch h⟩
  | @again before cs order c held _ ih =>
      rcases ih with ⟨horder, hall⟩ | ⟨z, order', skipped, rest, horder, hcs, hskipped, hz, hrest⟩
      · exact Or.inl ⟨horder, List.forall_mem_cons.mpr ⟨held, hall⟩⟩
      · exact Or.inr ⟨z, order', c :: skipped, rest, horder, by rw [hcs]; rfl,
          List.forall_mem_cons.mpr ⟨held, hskipped⟩, hz, hrest⟩
  | @enter before cs below after c new down rest _ _ =>
      refine Or.inr ⟨c, below ++ after, [], cs, rfl, rfl, fun _ h => (by cases h), new, ?_⟩
      exact down.append (by simpa using rest)

theorem deterministic {order' : List α} (h : Entered children before cs order)
    (h' : Entered children before cs order') : order = order' := by
  induction h generalizing order' with
  | done =>
      cases h'
      rfl
  | again held _ ih =>
      cases h' with
      | again _ rest => exact ih rest
      | enter new _ _ => exact absurd held new
  | enter new _ _ ihdown ihrest =>
      cases h' with
      | again held _ => exact absurd held new
      | enter _ down rest =>
          obtain rfl := ihdown down
          rw [ihrest rest]

theorem not_mem_before (h : Entered children before cs order) : ∀ z ∈ order, z ∉ before := by
  induction h with
  | done => exact fun _ h => nomatch h
  | again _ _ ih => exact ih
  | enter new _ _ ihdown ihrest =>
      intro z hz
      rcases List.mem_cons.mp hz with rfl | hz
      · exact new
      · rcases List.mem_append.mp hz with hbelow | hafter
        · exact fun hb => ihdown z hbelow (List.mem_append_left _ hb)
        · exact fun hb => ihrest z hafter (List.mem_append_left _ hb)

theorem nodup (h : Entered children before cs order) : order.Nodup := by
  induction h with
  | done => exact List.nodup_nil
  | again _ _ ih => exact ih
  | enter _ down rest ihdown ihrest =>
      refine List.nodup_cons.mpr ⟨fun hmem => ?_, List.nodup_append'.mpr ⟨ihdown, ihrest, ?_⟩⟩
      · rcases List.mem_append.mp hmem with hbelow | hafter
        · exact down.not_mem_before _ hbelow (by simp)
        · exact rest.not_mem_before _ hafter (by simp)
      · exact fun z hbelow hafter => rest.not_mem_before z hafter (by simp [hbelow])

theorem list_entered (h : Entered children before cs order) : ∀ c ∈ cs, c ∈ before ++ order := by
  induction h with
  | done => exact fun _ h => nomatch h
  | again held _ ih =>
      exact List.forall_mem_cons.mpr ⟨List.mem_append_left _ held, ih⟩
  | @enter before cs below after c _ _ _ _ ihrest =>
      refine List.forall_mem_cons.mpr ⟨by simp, fun d hd => ?_⟩
      simpa using ihrest d hd

/-- What is entered is closed: a child of a node entered is entered too. -/
theorem children_entered (h : Entered children before cs order) :
    ∀ z ∈ order, ∀ d ∈ children z, d ∈ before ++ order := by
  induction h with
  | done => exact fun _ h => nomatch h
  | again _ _ ih => exact ih
  | @enter before cs below after c _ down rest ihdown ihrest =>
      intro z hz d hd
      rcases List.mem_cons.mp hz with rfl | hz
      · have := down.list_entered d hd
        simp only [List.mem_append, List.mem_cons, List.not_mem_nil] at this ⊢
        tauto
      · rcases List.mem_append.mp hz with hbelow | hafter
        · have := ihdown z hbelow d hd
          simp only [List.mem_append, List.mem_cons, List.not_mem_nil] at this ⊢
          tauto
        · have := ihrest z hafter d hd
          simp only [List.mem_append, List.mem_cons] at this ⊢
          tauto

theorem reached (h : Entered children before cs order) :
    ∀ z ∈ order, ∃ c ∈ cs, Relation.ReflTransGen (fun a b => b ∈ children a) c z := by
  induction h with
  | done => exact fun _ h => nomatch h
  | again _ _ ih =>
      intro z hz
      obtain ⟨c, hc, hreach⟩ := ih z hz
      exact ⟨c, List.mem_cons_of_mem _ hc, hreach⟩
  | @enter before cs below after c _ _ _ ihdown ihrest =>
      intro z hz
      rcases List.mem_cons.mp hz with rfl | hz
      · exact ⟨z, List.mem_cons_self, .refl⟩
      · rcases List.mem_append.mp hz with hbelow | hafter
        · obtain ⟨d, hd, hreach⟩ := ihdown z hbelow
          exact ⟨c, List.mem_cons_self, .head hd hreach⟩
        · obtain ⟨d, hd, hreach⟩ := ihrest z hafter
          exact ⟨d, List.mem_cons_of_mem _ hd, hreach⟩

/-- **From the children of a node are entered exactly the other nodes it reaches.** -/
theorem mem_iff_reached {start : α} (h : Entered children [start] (children start) order) (z : α) :
    z ∈ order ↔ z ≠ start ∧ Relation.ReflTransGen (fun a b => b ∈ children a) start z := by
  constructor
  · intro hz
    obtain ⟨c, hc, hreach⟩ := h.reached z hz
    exact ⟨fun heq => h.not_mem_before z hz (List.mem_singleton.mpr heq), .head hc hreach⟩
  · rintro ⟨hne, hreach⟩
    have hall : z ∈ [start] ++ order := by
      clear hne
      induction hreach with
      | refl => simp
      | @tail a b _ hab ih =>
          rcases List.mem_append.mp ih with hstart | ha
          · rw [List.mem_singleton.mp hstart] at hab
            exact h.list_entered b hab
          · exact h.children_entered a ha b hab
    exact (List.mem_append.mp hall).resolve_left fun hstart => hne (List.mem_singleton.mp hstart)

end Entered

section Finite

variable [DecidableEq α]

variable {children} {nodes : List α} (hfinite : ∀ c, children c ≠ [] → c ∈ nodes)

include hfinite in
/-- Among finitely many nodes with children, a depth-first walk ends. -/
theorem Entered.exists_order (before cs : List α) : ∃ order, Entered children before cs order := by
  induction hk : missing nodes before using Nat.strongRecOn generalizing before cs with
  | ind k ihk =>
      subst hk
      -- The later nodes of the list find at most as many missing as this one.
      have hlist : ∀ cs before', missing nodes before' ≤ missing nodes before →
          ∃ order, Entered children before' cs order := by
        intro cs
        induction cs with
        | nil => exact fun _ _ => ⟨[], .done⟩
        | cons c cs ih =>
            intro before' hle
            by_cases hc : c ∈ before'
            · obtain ⟨order, horder⟩ := ih before' hle
              exact ⟨order, .again hc horder⟩
            · have hdown : ∃ below, Entered children (before' ++ [c]) (children c) below := by
                by_cases hleaf : children c = []
                · rw [hleaf]
                  exact ⟨[], .done⟩
                · have hlt : missing nodes (before' ++ [c]) < missing nodes before' :=
                    missing_lt (fun d hd => List.mem_append_left _ hd) (hfinite c hleaf) hc (by simp)
                  exact ihk _ (Nat.lt_of_lt_of_le hlt hle) _ _ rfl
              obtain ⟨below, hbelow⟩ := hdown
              obtain ⟨after, hafter⟩ := ih (before' ++ c :: below)
                (Nat.le_trans (missing_mono fun d hd => List.mem_append_left _ hd) hle)
              exact ⟨_, .enter hc hbelow hafter⟩
      exact hlist cs before (Nat.le_refl _)

end Finite

/-! ## Marking what is listed -/

section Marking

variable [DecidableEq α]

/-- The nodes of a list that are not marked, each once. -/
def fresh : List α → List α → List α
  | _, [] => []
  | seen, c :: cs => if c ∈ seen then fresh seen cs else c :: fresh (c :: seen) cs

theorem mem_fresh {seen cs : List α} {d : α} : d ∈ fresh seen cs ↔ d ∈ cs ∧ d ∉ seen := by
  induction cs generalizing seen with
  | nil => simp [fresh]
  | cons c cs ih =>
      rw [fresh]
      by_cases hc : c ∈ seen
      · rw [if_pos hc, ih, List.mem_cons]
        constructor
        · exact fun ⟨hd, hnot⟩ => ⟨Or.inr hd, hnot⟩
        · rintro ⟨rfl | hd, hnot⟩
          · exact absurd hc hnot
          · exact ⟨hd, hnot⟩
      · rw [if_neg hc, List.mem_cons, ih, List.mem_cons, List.mem_cons]
        by_cases hdc : d = c
        · simp [hdc, hc]
        · simp [hdc]

example : fresh [1] [1, 2, 3, 2] = [2, 3] := by decide +kernel

theorem fresh_congr {seen seen' : List α} (h : ∀ d, d ∈ seen ↔ d ∈ seen') (cs : List α) :
    fresh seen cs = fresh seen' cs := by
  induction cs generalizing seen seen' with
  | nil => rfl
  | cons c cs ih =>
      have hrest : fresh (c :: seen) cs = fresh (c :: seen') cs :=
        ih fun d => by rw [List.mem_cons, List.mem_cons, h d]
      rw [fresh, fresh, ih h, hrest]
      simp only [h c]

theorem fresh_filter (p : α → Bool) {seen seen' : List α}
    (h : ∀ d, p d = true → (d ∈ seen ↔ d ∈ seen')) (l : List α) :
    (fresh seen l).filter p = fresh seen' (l.filter p) := by
  induction l generalizing seen seen' with
  | nil => rfl
  | cons c l ih =>
      rw [fresh]
      cases hp : p c with
      | true =>
          have hc := h c hp
          rw [List.filter_cons_of_pos hp, fresh]
          by_cases hseen : c ∈ seen
          · rw [if_pos hseen, if_pos (hc.mp hseen), ih h]
          · have hrest : (fresh (c :: seen) l).filter p = fresh (c :: seen') (l.filter p) :=
              ih fun d hd => by rw [List.mem_cons, List.mem_cons, h d hd]
            rw [if_neg hseen, if_neg (fun h => hseen (hc.mpr h)), List.filter_cons_of_pos hp, hrest]
      | false =>
          rw [List.filter_cons_of_neg (by simp [hp])]
          by_cases hseen : c ∈ seen
          · rw [if_pos hseen, ih h]
          · rw [if_neg hseen, List.filter_cons_of_neg (by simp [hp])]
            refine ih fun d hd => ?_
            have hdc : d ≠ c := fun heq => by rw [heq, hp] at hd; cases hd
            rw [List.mem_cons, h d hd]
            exact ⟨fun h => h.resolve_left hdc, Or.inr⟩

theorem fresh_append (seen l m : List α) (hdisjoint : ∀ d ∈ l, d ∉ m) :
    fresh seen (l ++ m) = fresh seen l ++ fresh seen m := by
  induction l generalizing seen with
  | nil => rfl
  | cons c l ih =>
      have hrest := fun d hd => hdisjoint d (List.mem_cons_of_mem c hd)
      have hc := hdisjoint c List.mem_cons_self
      rw [List.cons_append, fresh, fresh]
      by_cases hseen : c ∈ seen
      · rw [if_pos hseen, if_pos hseen, ih _ hrest]
      · rw [if_neg hseen, if_neg hseen, ih _ hrest, List.cons_append]
        refine congrArg (fun x => c :: (fresh (c :: seen) l ++ x)) ?_
        have hall : ∀ d ∈ m, d ≠ c := fun d hd heq => hc (heq ▸ hd)
        have hfilter : (fresh (c :: seen) m).filter (fun d => decide (d ≠ c)) =
            fresh seen (m.filter fun d => decide (d ≠ c)) := fresh_filter _ (fun d hd => by simp_all) m
        have hm : m.filter (fun d => decide (d ≠ c)) = m :=
          List.filter_eq_self.mpr fun d hd => by simpa using hall d hd
        rw [hm] at hfilter
        rw [← hfilter]
        refine (List.filter_eq_self.mpr fun d hd => ?_).symm
        simpa using hall d (mem_fresh.mp hd).1

theorem nodup_fresh (seen cs : List α) : (fresh seen cs).Nodup := by
  induction cs generalizing seen with
  | nil => exact List.nodup_nil
  | cons c cs ih =>
      rw [fresh]
      split
      · exact ih seen
      · exact List.nodup_cons.mpr ⟨fun hmem => (mem_fresh.mp hmem).2 List.mem_cons_self, ih _⟩

/-- They stand in the order of the list. -/
theorem pairwise_fresh (seen cs : List α) :
    (fresh seen cs).Pairwise fun a b => cs.idxOf a < cs.idxOf b := by
  induction cs generalizing seen with
  | nil => exact .nil
  | cons c cs ih =>
      have hshift : ∀ seen', c ∈ seen' →
          (fresh seen' cs).Pairwise fun a b => (c :: cs).idxOf a < (c :: cs).idxOf b := by
        intro seen' hseen'
        refine (ih seen').imp_of_mem fun {a b} ha hb hlt => ?_
        have hac : c ≠ a := fun h => (mem_fresh.mp ha).2 (h ▸ hseen')
        have hbc : c ≠ b := fun h => (mem_fresh.mp hb).2 (h ▸ hseen')
        rw [List.idxOf_cons_ne _ hac, List.idxOf_cons_ne _ hbc]
        omega
      rw [fresh]
      split
      · rename_i hc
        exact hshift seen hc
      · refine List.pairwise_cons.mpr ⟨fun b hb => ?_, hshift _ List.mem_cons_self⟩
        have hbc : c ≠ b := fun h => (mem_fresh.mp hb).2 (h ▸ List.mem_cons_self)
        rw [List.idxOf_cons_self, List.idxOf_cons_ne _ hbc]
        omega

/-- **Marking when listing:** the nodes marked so far, a list of marked ones to enter, and
the nodes entered from it in order. -/
inductive Marked : List α → List α → List α → Prop
  | done {seen : List α} : Marked seen [] []
  | enter {seen cs below after : List α} {c : α}
      (down : Marked (seen ++ fresh seen (children c)) (fresh seen (children c)) below)
      (rest : Marked (seen ++ c :: below) cs after) :
      Marked seen (c :: cs) (c :: (below ++ after))

namespace Marked

variable {children} {seen cs ds order : List α} {c : α}

theorem congr (h : Marked children seen cs order) {seen' : List α} (hseen : ∀ d, d ∈ seen ↔ d ∈ seen') :
    Marked children seen' cs order := by
  induction h generalizing seen' with
  | done => exact .done
  | @enter seen cs below after c _ _ ihdown ihrest =>
      have hfresh := fresh_congr hseen (children c)
      refine .enter (hfresh ▸ ihdown fun d => ?_) (ihrest fun d => ?_)
      · rw [List.mem_append, List.mem_append, hseen d]
      · rw [List.mem_append, List.mem_append, hseen d]

theorem list_entered (h : Marked children seen cs order) : ∀ c ∈ cs, c ∈ order := by
  induction h with
  | done => exact fun _ h => nomatch h
  | enter _ _ _ ihrest =>
      refine List.forall_mem_cons.mpr ⟨List.mem_cons_self, fun d hd => ?_⟩
      exact List.mem_cons_of_mem _ (List.mem_append_right _ (ihrest d hd))

theorem append {order' : List α} (h : Marked children seen cs order)
    (h' : Marked children (seen ++ order) ds order') :
    Marked children seen (cs ++ ds) (order ++ order') := by
  induction h with
  | done => simpa using h'
  | @enter seen cs below after c down _ _ ih =>
      have hrest := ih (by simpa using h')
      have hall := Marked.enter down hrest
      simpa using hall

/-- The first of the list is entered, and what it adds to the list is put before the rest. -/
theorem next (h : Marked children seen (c :: cs) order) (hc : c ∈ seen) :
    ∃ order', order = c :: order' ∧
      Marked children (seen ++ fresh seen (children c)) (fresh seen (children c) ++ cs) order' := by
  cases h with
  | @enter _ _ below after _ down rest =>
      refine ⟨below ++ after, rfl, down.append (rest.congr fun d => ?_)⟩
      have hfresh := down.list_entered d
      simp only [List.mem_append, List.mem_cons]
      constructor
      · rintro (hd | rfl | hd)
        · exact Or.inl (Or.inl hd)
        · exact Or.inl (Or.inl hc)
        · exact Or.inr hd
      · rintro ((hd | hd) | hd)
        · exact Or.inl hd
        · exact Or.inr (Or.inr (hfresh hd))
        · exact Or.inr (Or.inr hd)

end Marked

/-! ## Where the two orders agree -/

/-- Of two nodes listed by nodes entered, the one whose turn comes later: it was listed
already when the first node to list the other was entered, or by that node and behind the
other. -/
def WaitsBehind (entered : List α) (z u : α) : Prop :=
  ∃ front p back, entered = front ++ p :: back ∧ u ∈ children p ∧ (∀ q ∈ front, u ∉ children q) ∧
    ((∃ q ∈ front, z ∈ children q) ∨ (z ∈ children p ∧ (children p).idxOf u < (children p).idxOf z))

/-- **In turn:** no node is entered while one that it waits behind is still to be entered. -/
def InTurn (before order : List α) : Prop :=
  ∀ front z back, order = front ++ z :: back → ∀ u ∈ back, ¬ WaitsBehind children (before ++ front) z u

variable {children}

theorem WaitsBehind.mono {entered more : List α} {z u : α} (h : WaitsBehind children entered z u) :
    WaitsBehind children (entered ++ more) z u := by
  obtain ⟨front, p, back, rfl, hrest⟩ := h
  exact ⟨front, p, back ++ more, by simp, hrest⟩

theorem WaitsBehind.listed {entered : List α} {z u : α} (h : WaitsBehind children entered z u) :
    ∃ p ∈ entered, u ∈ children p := by
  obtain ⟨front, p, back, rfl, hu, -⟩ := h
  exact ⟨p, by simp, hu⟩

/-- Of two nodes one waits behind the other. -/
theorem WaitsBehind.asymm {entered : List α} {z u : α} (h : WaitsBehind children entered z u)
    (h' : WaitsBehind children entered u z) : False := by
  obtain ⟨front, p, back, hentered, hu, hfirst, hz⟩ := h
  obtain ⟨front', q, back', hentered', hz', hfirst', hu'⟩ := h'
  -- Neither first lister stands in front of the other, so they are one place.
  have hfront : ¬ ∃ more, front' = front ++ p :: more := by
    rintro ⟨more, rfl⟩
    rcases hz with ⟨r, hr, hzr⟩ | ⟨hzp, -⟩
    · exact hfirst' r (List.mem_append_left _ hr) hzr
    · exact hfirst' p (by simp) hzp
  have hfront' : ¬ ∃ more, front = front' ++ q :: more := by
    rintro ⟨more, rfl⟩
    rcases hu' with ⟨r, hr, hur⟩ | ⟨huq, -⟩
    · exact hfirst r (List.mem_append_left _ hr) hur
    · exact hfirst q (by simp) huq
  have hsame : front = front' ∧ p = q := by
    rw [hentered] at hentered'
    rcases List.append_eq_append_iff.mp hentered' with ⟨more, hmore, hrest⟩ | ⟨more, hmore, hrest⟩
    · cases more with
      | nil =>
          rw [List.append_nil] at hmore
          exact ⟨hmore.symm, (List.cons.inj hrest).1⟩
      | cons r more =>
          rw [← (List.cons.inj hrest).1] at hmore
          exact absurd ⟨more, hmore⟩ hfront
    · cases more with
      | nil =>
          rw [List.append_nil] at hmore
          exact ⟨hmore, (List.cons.inj hrest).1.symm⟩
      | cons r more =>
          rw [← (List.cons.inj hrest).1] at hmore
          exact absurd ⟨more, hmore⟩ hfront'
  obtain ⟨rfl, rfl⟩ := hsame
  rcases hz with ⟨r, hr, hzr⟩ | ⟨-, hlt⟩
  · exact hfirst' r hr hzr
  · rcases hu' with ⟨r, hr, hur⟩ | ⟨-, hlt'⟩
    · exact hfirst r hr hur
    · omega

variable (children) in
/-- What a marking walk has on its list: what was listed and is not entered, the first of it
waiting behind nothing. Nodes out of bounds are marked and never entered. -/
structure Waiting (bounds before seen stack : List α) : Prop where
  listed : ∀ u, u ∈ stack ↔ u ∉ bounds ∧ u ∉ before ∧ ∃ p ∈ before, u ∈ children p
  marked : ∀ u, u ∈ seen ↔ u ∈ bounds ∨ u ∈ before ∨ u ∈ stack
  nodup : stack.Nodup
  turns : stack.Pairwise fun a b => WaitsBehind children before b a

/-- Entering the first of the list keeps all that. -/
theorem Waiting.enter {bounds before seen stack : List α} {c : α}
    (h : Waiting children bounds before seen (c :: stack)) :
    Waiting children bounds (before ++ [c]) (seen ++ fresh seen (children c))
      (fresh seen (children c) ++ stack) where
  listed u := by
    have hu := h.listed u
    have hseen := h.marked u
    have hc := List.nodup_cons.mp h.nodup
    simp only [List.mem_append, mem_fresh, List.mem_cons, List.not_mem_nil, or_false] at hu hseen ⊢
    constructor
    · rintro (⟨huc, hnot⟩ | hstack)
      · refine ⟨fun hb => hnot (hseen.mpr (Or.inl hb)), ?_, c, Or.inr rfl, huc⟩
        rintro (hb | rfl)
        · exact hnot (hseen.mpr (Or.inr (Or.inl hb)))
        · exact hnot (hseen.mpr (Or.inr (Or.inr (Or.inl rfl))))
      · obtain ⟨hbounds, hbefore, p, hp, hup⟩ := hu.mp (Or.inr hstack)
        refine ⟨hbounds, ?_, p, Or.inl hp, hup⟩
        rintro (hb | rfl)
        · exact hbefore hb
        · exact hc.1 hstack
    · rintro ⟨hbounds, hbefore, p, hp, hup⟩
      rcases hp with hp | rfl
      · refine Or.inr ((hu.mpr ⟨hbounds, fun hb => hbefore (Or.inl hb), p, hp, hup⟩).resolve_left ?_)
        exact fun huc => hbefore (Or.inr huc)
      · by_cases hmark : u ∈ seen
        · rcases hseen.mp hmark with hb | hb | rfl | hstack
          · exact absurd hb hbounds
          · exact absurd (Or.inl hb) hbefore
          · exact absurd (Or.inr rfl) hbefore
          · exact Or.inr hstack
        · exact Or.inl ⟨hup, hmark⟩
  marked u := by
    have hseen := h.marked u
    simp only [List.mem_append, mem_fresh, List.mem_cons, List.not_mem_nil, or_false] at hseen ⊢
    tauto
  nodup := by
    refine List.nodup_append'.mpr ⟨nodup_fresh _ _, (List.nodup_cons.mp h.nodup).2, fun u hu hstack => ?_⟩
    exact (mem_fresh.mp hu).2 ((h.marked u).mpr (Or.inr (Or.inr (List.mem_cons_of_mem c hstack))))
  turns := by
    have hold : stack.Pairwise fun a b => WaitsBehind children (before ++ [c]) b a :=
      (List.pairwise_cons.mp h.turns).2.imp fun hab => hab.mono
    -- Nothing new was listed before, or it would be marked.
    have hfirst : ∀ a ∈ fresh seen (children c), ∀ q ∈ before, a ∉ children q := by
      intro a ha q hq haq
      have hnot := fun hm => (mem_fresh.mp ha).2 ((h.marked a).mpr hm)
      exact hnot (Or.inr (Or.inr ((h.listed a).mpr
        ⟨fun hb => hnot (Or.inl hb), fun hb => hnot (Or.inr (Or.inl hb)), q, hq, haq⟩)))
    refine List.pairwise_append.mpr ⟨?_, hold, fun a ha b hb => ?_⟩
    · refine (pairwise_fresh seen (children c)).imp_of_mem fun {a b} ha hb hlt => ?_
      exact ⟨before, c, [], rfl, (mem_fresh.mp ha).1, hfirst a ha, Or.inr ⟨(mem_fresh.mp hb).1, hlt⟩⟩
    · obtain ⟨-, -, p, hp, hbp⟩ := (h.listed b).mp (List.mem_cons_of_mem c hb)
      exact ⟨before, c, [], rfl, (mem_fresh.mp ha).1, hfirst a ha, Or.inl ⟨p, hp, hbp⟩⟩

/-- A marking walk enters what it listed, each node once. -/
theorem Marked.new {bounds before seen stack order : List α} (h : Marked children seen stack order)
    (hw : Waiting children bounds before seen stack) :
    order.Nodup ∧ ∀ u ∈ order, u ∉ bounds ∧ u ∉ before := by
  induction horder : order.length generalizing before seen stack order with
  | zero =>
      rw [List.length_eq_zero_iff.mp horder]
      exact ⟨List.nodup_nil, fun _ h => nomatch h⟩
  | succ n ih =>
      cases stack with
      | nil =>
          cases h
          simp at horder
      | cons c stack =>
          obtain ⟨order', rfl, hrest⟩ := h.next ((hw.marked c).mpr (Or.inr (Or.inr List.mem_cons_self)))
          obtain ⟨hnodup, hnew⟩ := ih hrest hw.enter (by simpa using horder)
          have hc := (hw.listed c).mp List.mem_cons_self
          refine ⟨List.nodup_cons.mpr ⟨fun hmem => (hnew c hmem).2 (by simp), hnodup⟩, ?_⟩
          refine List.forall_mem_cons.mpr ⟨⟨hc.1, hc.2.1⟩, fun u hu => ⟨(hnew u hu).1, ?_⟩⟩
          exact fun hb => (hnew u hu).2 (List.mem_append_left _ hb)

/-- A marking walk enters in turn. -/
theorem Marked.inTurn {bounds before seen stack order : List α} (h : Marked children seen stack order)
    (hw : Waiting children bounds before seen stack) (front : List α) (z : α)
    (back : List α) (hsplit : order = front ++ z :: back) (u : α)
    (hu : u ∉ bounds ∧ u ∉ before ++ front ∧ u ≠ z) :
    ¬ WaitsBehind children (before ++ front) z u := by
  induction front generalizing before seen stack order with
  | nil =>
      cases stack with
      | nil => cases h; simp at hsplit
      | cons c stack =>
          obtain ⟨order', horder, -⟩ := h.next ((hw.marked c).mpr (Or.inr (Or.inr List.mem_cons_self)))
          rw [horder] at hsplit
          obtain rfl : c = z := (List.cons.inj hsplit).1
          rw [List.append_nil] at hu ⊢
          intro hwaits
          have hstack : u ∈ c :: stack := (hw.listed u).mpr ⟨hu.1, hu.2.1, hwaits.listed⟩
          have hrest : u ∈ stack := (List.mem_cons.mp hstack).resolve_left hu.2.2
          exact hwaits.asymm ((List.pairwise_cons.mp hw.turns).1 u hrest)
  | cons a front ih =>
      cases stack with
      | nil => cases h; simp at hsplit
      | cons c stack =>
          obtain ⟨order', horder, hrest⟩ :=
            h.next ((hw.marked c).mpr (Or.inr (Or.inr List.mem_cons_self)))
          rw [horder] at hsplit
          obtain ⟨rfl, hsplit'⟩ := List.cons.inj hsplit
          have hshift : before ++ c :: front = before ++ [c] ++ front := by simp
          rw [hshift] at hu ⊢
          exact ih hrest hw.enter hsplit' hu

/-- A depth-first walk that enters in turn goes with the marking walk. -/
theorem Marked.eq_of_inTurn {bounds before seen stack cs order order' : List α}
    (h : Marked children seen stack order) (hw : Waiting children bounds before seen stack)
    (hsame : ∀ u, u ∉ bounds ++ before → (u ∈ cs ↔ u ∈ stack))
    (h' : Entered children (bounds ++ before) cs order') (hturn : InTurn children before order') :
    order = order' := by
  induction hlen : order.length generalizing before seen stack cs order order' with
  | zero =>
      obtain rfl := List.length_eq_zero_iff.mp hlen
      cases h
      rcases h'.cases_first with ⟨rfl, -⟩ | ⟨z, _, skipped, rest, -, hcs, -, hz, -⟩
      · rfl
      · have hstack : z ∈ [] := (hsame z hz).mp (by simp [hcs])
        cases hstack
  | succ n ih =>
      cases stack with
      | nil =>
          cases h
          simp at hlen
      | cons c stack =>
          obtain ⟨rest, rfl, hrest⟩ := h.next ((hw.marked c).mpr (Or.inr (Or.inr List.mem_cons_self)))
          have hc := (hw.listed c).mp List.mem_cons_self
          have hcnew : c ∉ bounds ++ before := fun hmem =>
            (List.mem_append.mp hmem).elim hc.1 hc.2.1
          have hccs : c ∈ cs := (hsame c hcnew).mpr List.mem_cons_self
          rcases h'.cases_first with ⟨-, hall⟩ | ⟨z, rest', skipped, more, rfl, hcs, hskipped, hz, hnext⟩
          · exact absurd (hall c hccs) hcnew
          · have hzstack : z ∈ c :: stack := (hsame z hz).mp (by simp [hcs])
            -- Were it not the first of the list, it would wait behind that one.
            have hzc : z = c := by
              by_contra hne
              have hback : c ∈ rest' := by
                have := h'.list_entered c hccs
                rw [List.mem_append, List.mem_cons] at this
                exact (this.resolve_left hcnew).resolve_left (Ne.symm hne)
              refine hturn [] z rest' rfl c hback ?_
              rw [List.append_nil]
              exact (List.pairwise_cons.mp hw.turns).1 z ((List.mem_cons.mp hzstack).resolve_left hne)
            subst hzc
            have hturn' : InTurn children (before ++ [z]) rest' := by
              intro front y back hsplit u hu
              have := hturn (z :: front) y back (by rw [hsplit]; rfl) u hu
              rwa [List.append_assoc, List.singleton_append]
            have hsame' : ∀ u, u ∉ bounds ++ (before ++ [z]) →
                (u ∈ children z ++ more ↔ u ∈ fresh seen (children z) ++ stack) := by
              intro u hu
              have hunew : u ∉ bounds ++ before := fun hmem => hu (by simp at hmem ⊢; tauto)
              have huz : u ≠ z := fun heq => hu (by simp [heq])
              have hcsu : u ∈ cs ↔ u ∈ more := by
                rw [hcs, List.mem_append, List.mem_cons]
                constructor
                · rintro (hskip | heq | hmore)
                  · exact absurd (hskipped u hskip) hunew
                  · exact absurd heq huz
                  · exact hmore
                · exact fun hmore => Or.inr (Or.inr hmore)
              have hstack : u ∈ more ↔ u ∈ stack := by
                rw [← hcsu, hsame u hunew, List.mem_cons]
                exact ⟨fun h => h.resolve_left huz, Or.inr⟩
              rw [List.mem_append, List.mem_append, mem_fresh, hstack]
              constructor
              · rintro (huc | hus)
                · by_cases hmark : u ∈ seen
                  · rcases (hw.marked u).mp hmark with hb | hb | hb
                    · exact absurd (List.mem_append_left _ hb) hunew
                    · exact absurd (List.mem_append_right _ hb) hunew
                    · exact Or.inr ((List.mem_cons.mp hb).resolve_left huz)
                  · exact Or.inl ⟨huc, hmark⟩
                · exact Or.inr hus
              · exact fun h => h.imp_left And.left
            rw [ih hrest hw.enter hsame' (by simpa using hnext) hturn' (by simpa using hlen)]

/-! ## A marking walk for every node of a list -/

/-- The nodes entered are closed: nothing below them is left but what is out of bounds. -/
def Closed (children : α → List α) (bounds before : List α) : Prop :=
  ∀ p ∈ before, ∀ d ∈ children p, d ∈ bounds ++ before

variable (children) in
/-- **Branches:** every node of a list that is not entered yet is the root of a marking walk of
its own, and the walk marks nothing of the list but that root. -/
inductive Branches (bounds : List α) : List α → List α → List α → Prop
  | done {before : List α} : Branches bounds before [] []
  | again {before cs order : List α} {c : α} (held : c ∈ bounds ++ before)
      (rest : Branches bounds before cs order) : Branches bounds before (c :: cs) order
  | enter {before cs branch after : List α} {c : α} (new : c ∉ bounds ++ before)
      (walk : Marked children (bounds ++ before ++ [c]) [c] branch)
      (rest : Branches bounds (before ++ branch) cs after) :
      Branches bounds before (c :: cs) (branch ++ after)

theorem Marked.children_entered {seen cs order : List α} (h : Marked children seen cs order) :
    ∀ z ∈ order, ∀ d ∈ children z, d ∈ seen ++ order := by
  induction h with
  | done => exact fun _ h => nomatch h
  | @enter seen cs below after c down _ ihdown ihrest =>
      have hfresh : ∀ d ∈ fresh seen (children c), d ∈ below := down.list_entered
      intro z hz d hd
      simp only [List.mem_append, List.mem_cons] at hz ihdown ihrest ⊢
      rcases hz with rfl | hbelow | hafter
      · by_cases hmark : d ∈ seen
        · exact Or.inl hmark
        · exact Or.inr (Or.inr (Or.inl (hfresh d (mem_fresh.mpr ⟨hd, hmark⟩))))
      · rcases ihdown z hbelow d hd with (hs | hf) | hb
        · exact Or.inl hs
        · exact Or.inr (Or.inr (Or.inl (hfresh d hf)))
        · exact Or.inr (Or.inr (Or.inl hb))
      · have := ihrest z hafter d hd
        tauto

/-- A walk stays in a set whose children are marked or in it. -/
theorem Marked.subset {seen cs order within : List α} (h : Marked children seen cs order)
    (hcs : ∀ c ∈ cs, c ∈ within) (hclosed : ∀ p ∈ within, ∀ d ∈ children p, d ∈ seen ∨ d ∈ within) :
    ∀ z ∈ order, z ∈ within := by
  induction h with
  | done => exact fun _ h => nomatch h
  | @enter seen cs below after c _ _ ihdown ihrest =>
      have hmore : ∀ more p, p ∈ within → ∀ d ∈ children p, d ∈ seen ++ more ∨ d ∈ within :=
        fun more p hp d hd => (hclosed p hp d hd).imp_left (List.mem_append_left _)
      have hc : c ∈ within := hcs c List.mem_cons_self
      have hbelow := ihdown (fun d hd => ?_) (hmore _)
      · have hafter := ihrest (fun d hd => hcs d (List.mem_cons_of_mem c hd)) (hmore _)
        exact List.forall_mem_cons.mpr
          ⟨hc, fun z hz => (List.mem_append.mp hz).elim (hbelow z) (hafter z)⟩
      · obtain ⟨hd, hnot⟩ := mem_fresh.mp hd
        exact (hclosed c hc d hd).resolve_left hnot

theorem filter_fresh (seen before cs : List α) :
    (fresh seen cs).filter (· ∉ before) = fresh (seen ++ before) cs := by
  induction cs generalizing seen with
  | nil => rfl
  | cons c cs ih =>
      rw [fresh, fresh]
      by_cases hc : c ∈ seen
      · rw [if_pos hc, if_pos (List.mem_append_left _ hc), ih]
      · by_cases hb : c ∈ before
        · rw [if_neg hc, if_pos (List.mem_append_right _ hb), List.filter_cons_of_neg (by simpa using hb),
            ih]
          refine fresh_congr (fun d => ?_) cs
          simp only [List.mem_append, List.mem_cons]
          constructor
          · rintro ((rfl | hd) | hd)
            · exact Or.inr hb
            · exact Or.inl hd
            · exact Or.inr hd
          · rintro (hd | hd)
            · exact Or.inl (Or.inr hd)
            · exact Or.inr hd
        · have hnot : c ∉ seen ++ before := fun h => (List.mem_append.mp h).elim hc hb
          rw [if_neg hc, if_neg hnot, List.filter_cons_of_pos (by simpa using hb), ih]
          rfl

/-- To mark beforehand what is closed leaves out of a walk just that. -/
theorem Marked.filter {seen cs order before : List α} (h : Marked children seen cs order)
    (hclosed : ∀ p ∈ before, ∀ d ∈ children p, d ∈ seen ∨ d ∈ before) :
    Marked children (seen ++ before) (cs.filter (· ∉ before)) (order.filter (· ∉ before)) := by
  induction h with
  | done => exact .done
  | @enter seen cs below after c down _ ihdown ihrest =>
      have hmore : ∀ more p, p ∈ before → ∀ d ∈ children p, d ∈ seen ++ more ∨ d ∈ before :=
        fun more p hp d hd => (hclosed p hp d hd).imp_left (List.mem_append_left _)
      have hdown := ihdown (hmore _)
      have hrest := ihrest (hmore _)
      by_cases hc : c ∈ before
      · -- The branch of such a node is closed too, and drops out with it.
        have hbelow : ∀ z ∈ below, z ∈ before := by
          refine down.subset (fun d hd => ?_) (hmore _)
          obtain ⟨hd, hnot⟩ := mem_fresh.mp hd
          exact (hclosed c hc d hd).resolve_left hnot
        have hnone : below.filter (· ∉ before) = [] :=
          List.filter_eq_nil_iff.mpr fun z hz => by simpa using hbelow z hz
        rw [List.filter_cons_of_neg (by simpa using hc), List.filter_cons_of_neg (by simpa using hc),
          List.filter_append, hnone, List.nil_append]
        refine hrest.congr fun d => ?_
        simp only [List.mem_append, List.mem_cons]
        constructor
        · rintro ((hd | rfl | hd) | hd)
          · exact Or.inl hd
          · exact Or.inr hc
          · exact Or.inr (hbelow d hd)
          · exact Or.inr hd
        · rintro (hd | hd)
          · exact Or.inl (Or.inl hd)
          · exact Or.inr hd
      · rw [List.filter_cons_of_pos (by simpa using hc), List.filter_cons_of_pos (by simpa using hc),
          List.filter_append]
        refine .enter ?_ ?_
        · rw [filter_fresh] at hdown
          refine hdown.congr fun d => ?_
          simp only [List.mem_append, mem_fresh]
          tauto
        · refine hrest.congr fun d => ?_
          simp only [List.mem_append, List.mem_cons, List.mem_filter, decide_eq_true_eq]
          tauto

/-- The root is entered, and the rest of its branch is a walk over what it lists. -/
theorem Marked.branch {bounds before branch : List α} {c : α} (hclosed : Closed children bounds before)
    (h : Marked children (bounds ++ before ++ [c]) [c] branch) :
    ∃ below seen stack, branch = c :: below ∧ Marked children seen stack below ∧
      Waiting children bounds (before ++ [c]) seen stack ∧
      ∀ u, u ∉ bounds ++ (before ++ [c]) → (u ∈ children c ↔ u ∈ stack) := by
  obtain ⟨below, rfl, hbelow⟩ := h.next (by simp)
  rw [List.append_nil] at hbelow
  have hmem : ∀ u, u ∈ fresh (bounds ++ before ++ [c]) (children c) ↔
      u ∈ children c ∧ u ∉ bounds ++ (before ++ [c]) := fun u => by rw [mem_fresh, List.append_assoc]
  refine ⟨below, _, _, rfl, hbelow, ⟨fun u => ?_, fun u => ?_, nodup_fresh _ _, ?_⟩, fun u hu => ?_⟩
  · rw [hmem, List.mem_append, not_or]
    constructor
    · exact fun ⟨huc, hbounds, hbefore⟩ => ⟨hbounds, hbefore, c, by simp, huc⟩
    · rintro ⟨hbounds, hbefore, p, hp, hup⟩
      rcases List.mem_append.mp hp with hp | hp
      · exact absurd (hclosed p hp u hup) fun h => (List.mem_append.mp h).elim hbounds
          fun hb => hbefore (List.mem_append_left _ hb)
      · rw [List.mem_singleton.mp hp] at hup
        exact ⟨hup, hbounds, hbefore⟩
  · rw [List.mem_append, List.append_assoc, List.mem_append, or_assoc]
  · refine (pairwise_fresh _ (children c)).imp_of_mem fun {a b} ha hb hlt => ?_
    have ha' := (hmem a).mp ha
    refine ⟨before, c, [], rfl, ha'.1, fun q hq haq => ?_, Or.inr ⟨((hmem b).mp hb).1, hlt⟩⟩
    refine ha'.2 ((List.mem_append.mp (hclosed q hq a haq)).elim (List.mem_append_left _) fun hb => ?_)
    exact List.mem_append_right _ (List.mem_append_left _ hb)
  · rw [hmem]
    exact ⟨fun h => ⟨h, hu⟩, And.left⟩

theorem Closed.branch {bounds before branch : List α} {c : α} (hclosed : Closed children bounds before)
    (h : Marked children (bounds ++ before ++ [c]) [c] branch) :
    Closed children bounds (before ++ branch) := by
  intro p hp d hd
  rcases List.mem_append.mp hp with hp | hp
  · have := hclosed p hp d hd
    simp only [List.mem_append] at this ⊢
    tauto
  · have hc := h.list_entered c (by simp)
    have := h.children_entered p hp d hd
    simp only [List.mem_append, List.mem_singleton] at this ⊢
    rcases this with ((hb | hb) | rfl) | hb
    · exact Or.inl hb
    · exact Or.inr (Or.inl hb)
    · exact Or.inr (Or.inr hc)
    · exact Or.inr (Or.inr hb)

theorem InTurn.append_left {before order more : List α} (h : InTurn children before (order ++ more)) :
    InTurn children before order := by
  intro front z back hsplit u hu
  exact h front z (back ++ more) (by rw [hsplit]; simp) u (List.mem_append_left _ hu)

theorem InTurn.append_right {before order more : List α} (h : InTurn children before (order ++ more)) :
    InTurn children (before ++ order) more := by
  intro front z back hsplit u hu
  rw [List.append_assoc]
  exact h (order ++ front) z back (by rw [hsplit]; simp) u hu

namespace Branches

variable {bounds before cs order : List α}

theorem new (hclosed : Closed children bounds before) (h : Branches children bounds before cs order) :
    order.Nodup ∧ ∀ u ∈ order, u ∉ bounds ∧ u ∉ before := by
  induction h with
  | done => exact ⟨List.nodup_nil, fun _ h => nomatch h⟩
  | again _ _ ih => exact ih hclosed
  | @enter before cs branch after c hnew walk _ ih =>
      obtain ⟨hafter, hafternew⟩ := ih (hclosed.branch walk)
      obtain ⟨below, seen, stack, rfl, hbelow, hw, -⟩ := walk.branch hclosed
      obtain ⟨hnodup, hbelownew⟩ := hbelow.new hw
      have hc : c ∉ bounds ∧ c ∉ before := not_or.mp fun h => hnew (List.mem_append.mpr h)
      refine ⟨List.nodup_append'.mpr ⟨List.nodup_cons.mpr ⟨fun hmem => ?_, hnodup⟩, hafter,
        fun u hu hu' => (hafternew u hu').2 (List.mem_append_right _ hu)⟩, fun u hu => ?_⟩
      · exact (hbelownew c hmem).2 (by simp)
      · rcases List.mem_append.mp hu with hu | hu
        · rcases List.mem_cons.mp hu with rfl | hu
          · exact hc
          · exact ⟨(hbelownew u hu).1, fun hb => (hbelownew u hu).2 (List.mem_append_left _ hb)⟩
        · exact ⟨(hafternew u hu).1, fun hb => (hafternew u hu).2 (List.mem_append_left _ hb)⟩

/-- Branches enter in turn. -/
theorem inTurn (hclosed : Closed children bounds before) (h : Branches children bounds before cs order) :
    InTurn children before order := by
  induction h with
  | done =>
      intro front z back hsplit
      simp at hsplit
  | again _ _ ih => exact ih hclosed
  | @enter before cs branch after c hnew walk rest ih =>
      have hall := (Branches.enter hnew walk rest).new hclosed
      have hafter := ih (hclosed.branch walk)
      obtain ⟨below, seen, stack, rfl, hbelow, hw, -⟩ := walk.branch hclosed
      intro front z back hsplit u hu
      have hu' : u ∉ bounds ∧ u ∉ before ++ front ∧ u ≠ z := by
        have hmem : u ∈ c :: below ++ after := by rw [hsplit]; simp [hu]
        have hnodup := hall.1
        rw [hsplit, List.nodup_append'] at hnodup
        refine ⟨(hall.2 u hmem).1, fun h => ?_, fun h => ?_⟩
        · rcases List.mem_append.mp h with h | h
          · exact (hall.2 u hmem).2 h
          · exact hnodup.2.2 h (List.mem_cons_of_mem z hu)
        · exact (List.nodup_cons.mp hnodup.2.1).1 (h ▸ hu)
      rcases List.append_eq_append_iff.mp hsplit with ⟨more, hfront, hrest⟩ | ⟨more, hbranch, hrest⟩
      · rw [hfront, ← List.append_assoc]
        exact hafter more z back hrest u hu
      · cases more with
        | nil =>
            rw [List.append_nil] at hbranch
            have := hafter [] z back hrest.symm u hu
            rwa [hbranch, List.append_nil] at this
        | cons y more =>
            obtain ⟨rfl, -⟩ := List.cons.inj hrest
            cases front with
            | nil =>
                -- The root waits behind nothing: what is entered before it is closed.
                intro hwaits
                obtain ⟨p, hp, hup⟩ := hwaits.listed
                rw [List.append_nil] at hp hu'
                exact (List.mem_append.mp (hclosed p hp u hup)).elim hu'.1 hu'.2.1
            | cons a front =>
                obtain ⟨rfl, hbelow'⟩ := List.cons.inj hbranch
                have hshift : before ++ c :: front = before ++ [c] ++ front := by simp
                rw [hshift] at hu' ⊢
                exact hbelow.inTurn hw front z more hbelow' u hu'

/-- **Branches and a depth-first walk enter in one order exactly when the walk enters in
turn.** -/
theorem eq_iff_inTurn {order' : List α} (hclosed : Closed children bounds before)
    (h : Branches children bounds before cs order) (h' : Entered children (bounds ++ before) cs order') :
    order = order' ↔ InTurn children before order' := by
  constructor
  · rintro rfl
    exact h.inTurn hclosed
  · intro hturn
    induction h generalizing order' with
    | done =>
        cases h'
        rfl
    | again held _ ih =>
        cases h' with
        | again _ rest => exact ih hclosed rest hturn
        | enter new _ _ => exact absurd held new
    | @enter before cs branch after c hnew walk _ ih =>
        cases h' with
        | again held _ => exact absurd held hnew
        | @enter _ _ below' after' _ _ down rest =>
            have hclosed' := hclosed.branch walk
            obtain ⟨below, seen, stack, rfl, hbelow, hw, hsame⟩ := walk.branch hclosed
            have hturn' : InTurn children before ([c] ++ (below' ++ after')) := hturn
            have heq : below = below' :=
              hbelow.eq_of_inTurn hw hsame (by rwa [List.append_assoc] at down)
                hturn'.append_right.append_left
            subst heq
            have hrest : InTurn children (before ++ c :: below) after' :=
              InTurn.append_right hturn
            have hafter := ih hclosed' (by rwa [List.append_assoc] at rest) hrest
            rw [hafter]
            rfl

end Branches

/-- Two lists without repetitions that answer every question alike are the same. -/
theorem eq_of_find? {l l' : List α} (hl : l.Nodup) (hl' : l'.Nodup)
    (h : ∀ p : α → Bool, l.find? p = l'.find? p) : l = l' := by
  induction l generalizing l' with
  | nil =>
      cases l' with
      | nil => rfl
      | cons b l' => exact absurd (h fun _ => true) (by simp)
  | cons a l ih =>
      cases l' with
      | nil => exact absurd (h fun _ => true) (by simp)
      | cons b l' =>
          obtain rfl : a = b := by simpa using h fun _ => true
          have hl := List.nodup_cons.mp hl
          have hl' := List.nodup_cons.mp hl'
          refine congrArg (a :: ·) (ih hl.2 hl'.2 fun p => ?_)
          -- The same question, asked of everything but the head.
          have hskip : ∀ m : List α, a ∉ m → (a :: m).find? (fun c => p c && decide (c ≠ a)) = m.find? p := by
            intro m hm
            rw [List.find?_cons_of_neg (by simp)]
            induction m with
            | nil => rfl
            | cons c m ihm =>
                rw [List.mem_cons, not_or] at hm
                rw [List.find?_cons, List.find?_cons, ihm hm.2]
                simp [Ne.symm hm.1]
          rw [← hskip l hl.1, ← hskip l' hl'.1]
          exact h _

end Marking

end DepthFirst

end Devscout.Lib
