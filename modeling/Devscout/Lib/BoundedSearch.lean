/-
# Devscout.Lib.BoundedSearch -- depth-first search with a bound on the steps

From a place a search tries its successors in order and returns the first hit it comes
to, at most so many steps away. It remembers places, so that a graph with cycles or with
many ways to one place is not walked again and again. What it remembers decides what it
can miss.

The first search remembers the fewest steps each place was entered after, and enters it
again only after fewer. It misses nothing within its bound: when it fails, every place it
entered after `m` steps has all its successors entered after `m + 1` at most, those on the
way to the place it is at excepted, so a route of at most so many steps to a hit would
have been walked to its end.

The second search remembers keys of places, and does not enter a place whose key it has
met. It misses nothing where no two ways from its start come to places of one key.
-/

import Mathlib

namespace Devscout.Lib.BoundedSearch

variable {P D R S : Type}

/-! ## Trying one after another -/

/-- The first result of `f` over a list, the state passed along. -/
def firstHit (f : P → S → Option R × S) : List P → S → Option R × S
  | [], s => (none, s)
  | p :: ps, s =>
      match f p s with
      | (some r, s) => (some r, s)
      | (none, s) => firstHit f ps s

theorem firstHit_cons_none {f : P → S → Option R × S} {p : P} {s s' : S} (h : f p s = (none, s'))
    (ps : List P) : firstHit f (p :: ps) s = firstHit f ps s' := by
  rw [firstHit, h]

theorem firstHit_cons_some {f : P → S → Option R × S} {p : P} {s s' : S} {r : R}
    (h : f p s = (some r, s')) (ps : List P) : firstHit f (p :: ps) s = (some r, s') := by
  rw [firstHit, h]

/-- A result is one of the list's, from a state with whatever every failure keeps. -/
theorem exists_of_firstHit_some {f : P → S → Option R × S} {I : S → Prop}
    (hfail : ∀ p s s', I s → f p s = (none, s') → I s') {ps : List P} {s s' : S} {r : R} (hs : I s)
    (h : firstHit f ps s = (some r, s')) : ∃ p ∈ ps, ∃ s₁ s₂, I s₁ ∧ f p s₁ = (some r, s₂) := by
  induction ps generalizing s with
  | nil => cases h
  | cons p ps ih =>
      rcases hp : f p s with ⟨_ | r', s₁⟩
      · rw [firstHit_cons_none hp] at h
        obtain ⟨q, hq, hfound⟩ := ih (hfail p s s₁ hs hp) h
        exact ⟨q, List.mem_cons_of_mem p hq, hfound⟩
      · rw [firstHit_cons_some hp] at h
        cases h
        exact ⟨p, List.mem_cons_self, s, s', hs, hp⟩

/-- When all fail, each does its part from what the ones before it left, and those after it keep
that. `I` is kept beside the state, with what the proof knows of it. -/
theorem forall_of_firstHit_none {G : Type} {f : P → S → Option R × S} (I : S → G → Prop)
    (keeps : G → G → Prop) (done : P → G → Prop) (hrefl : ∀ g, keeps g g)
    (htrans : ∀ {g₁ g₂ g₃}, keeps g₁ g₂ → keeps g₂ g₃ → keeps g₁ g₃)
    (hdone : ∀ {p g g'}, keeps g g' → done p g → done p g') {ps : List P}
    (hfail : ∀ p ∈ ps, ∀ s g s', I s g → f p s = (none, s') →
      ∃ g', I s' g' ∧ keeps g g' ∧ done p g')
    {s s' : S} {g : G} (hs : I s g) (h : firstHit f ps s = (none, s')) :
    ∃ g', I s' g' ∧ keeps g g' ∧ ∀ p ∈ ps, done p g' := by
  induction ps generalizing s g with
  | nil =>
      cases h
      exact ⟨g, hs, hrefl g, fun p hp => by cases hp⟩
  | cons p ps ih =>
      rcases hp : f p s with ⟨_ | r, s₁⟩
      · rw [firstHit_cons_none hp] at h
        obtain ⟨g₁, hs₁, hkeeps, hdone₁⟩ := hfail p List.mem_cons_self s g s₁ hs hp
        obtain ⟨g', hs', hkeeps', hrest⟩ := ih (fun q hq => hfail q (List.mem_cons_of_mem p hq)) hs₁ h
        refine ⟨g', hs', htrans hkeeps hkeeps', fun q hq => ?_⟩
        rcases List.mem_cons.mp hq with rfl | hq
        · exact hdone hkeeps' hdone₁
        · exact hrest q hq
      · rw [firstHit_cons_some hp] at h
        cases h

/-- Two functions that differ in what they return alone hit at the same places. -/
theorem firstHit_map {R' : Type} {f : P → S → Option R × S} {g : P → S → Option R' × S}
    (m : R' → R) (h : ∀ p s, f p s = ((g p s).1.map m, (g p s).2)) (ps : List P) (s : S) :
    firstHit f ps s = ((firstHit g ps s).1.map m, (firstHit g ps s).2) := by
  induction ps generalizing s with
  | nil => rfl
  | cons p ps ih =>
      rcases hg : g p s with ⟨_ | r, s₁⟩
      · have hf : f p s = (none, s₁) := by rw [h, hg]; rfl
        rw [firstHit_cons_none hf, firstHit_cons_none hg, ih]
      · have hf : f p s = (some (m r), s₁) := by rw [h, hg]; rfl
        rw [firstHit_cons_some hf, firstHit_cons_some hg]
        rfl

theorem firstHit_singleton (f : P → S → Option R × S) (p : P) (s : S) : firstHit f [p] s = f p s := by
  rcases h : f p s with ⟨_ | r, s'⟩
  · rw [firstHit_cons_none h]
    rfl
  · rw [firstHit_cons_some h]

theorem firstHit_list_map {P' : Type} (f : P → S → Option R × S) (m : P' → P) (ps : List P') (s : S) :
    firstHit f (ps.map m) s = firstHit (fun p s => f (m p) s) ps s := by
  induction ps generalizing s with
  | nil => rfl
  | cons p ps ih =>
      rcases h : f (m p) s with ⟨_ | r, s'⟩
      · rw [List.map_cons, firstHit_cons_none h, ih, firstHit, h]
      · rw [List.map_cons, firstHit_cons_some h, firstHit, h]

/-! ## Routes -/

/-- A route: places, each a successor of the one before and only the last one a hit. -/
inductive Route (next : P → List P) (hit : P → Option D) : List P → D → Prop
  | here {p : P} {d : D} : hit p = some d → Route next hit [p] d
  | step {p q : P} {path : List P} {d : D} : hit p = none → q ∈ next p →
      Route next hit (q :: path) d → Route next hit (p :: q :: path) d

/-- So many steps from a place to one where something is found. -/
inductive Chain (step : P → P → Prop) (found : P → D → Prop) : Nat → P → D → Prop
  | here {p : P} {d : D} : found p d → Chain step found 0 p d
  | step {p q : P} {k : Nat} {d : D} : step p q → Chain step found k q d → Chain step found (k + 1) p d

/-- Routes are the chains of the steps a search makes. -/
theorem chain_iff_route {step : P → P → Prop} {found : P → D → Prop} {next : P → List P}
    {hit : P → Option D} (hstep : ∀ p q, step p q ↔ hit p = none ∧ q ∈ next p)
    (hfound : ∀ p d, found p d ↔ hit p = some d) {k : Nat} {p : P} {d : D} :
    Chain step found k p d ↔
      ∃ path, Route next hit path d ∧ path.head? = some p ∧ path.length = k + 1 := by
  constructor
  · intro h
    induction h with
    | here h => exact ⟨[_], .here ((hfound _ _).mp h), rfl, rfl⟩
    | step h _ ih =>
        obtain ⟨path, hroute, hhead, hlen⟩ := ih
        cases path with
        | nil => cases hhead
        | cons q path =>
            cases hhead
            obtain ⟨hmiss, hq⟩ := (hstep _ _).mp h
            exact ⟨_, .step hmiss hq hroute, rfl, by rw [List.length_cons, hlen]⟩
  · rintro ⟨path, hroute, hhead, hlen⟩
    induction hroute generalizing k p with
    | here h =>
        cases hhead
        obtain rfl : k = 0 := by simpa using hlen.symm
        exact .here ((hfound _ _).mpr h)
    | step hmiss hq _ ih =>
        cases hhead
        cases k with
        | zero => simp at hlen
        | succ k => exact .step ((hstep _ _).mpr ⟨hmiss, hq⟩) (ih rfl (Nat.succ.inj hlen))

/-! ## Remembering the fewest steps -/

section Fewest

variable [DecidableEq P]

/-- Places with the steps after which they were entered, the latest first. -/
abbrev Seen (P : Type) := List (P × Nat)

/-- After how many steps a place was entered last. -/
def Seen.hops (seen : Seen P) (p : P) : Option Nat := (seen.find? fun e => e.1 = p).map Prod.snd

/-- A place was entered after so many steps or fewer. -/
def Seen.met (seen : Seen P) (p : P) (hops : Nat) : Bool := (seen.hops p).any (· ≤ hops)

theorem Seen.hops_cons (seen : Seen P) (p q : P) (n : Nat) :
    Seen.hops ((p, n) :: seen) q = if p = q then some n else seen.hops q := by
  by_cases h : p = q <;> simp [Seen.hops, h]

theorem Seen.met_iff {seen : Seen P} {p : P} {hops : Nat} :
    seen.met p hops = true ↔ ∃ m ≤ hops, seen.hops p = some m := by
  cases h : seen.hops p <;> simp [Seen.met, h]

variable (next : P → List P) (hit : P → Option D) (bound : Nat)

/-- The search from a place with `left` steps left of `bound`: the places on the way to the
hit, with it. -/
def search : Nat → P → Seen P → Option (List P × D) × Seen P
  | 0, p, seen =>
      if seen.met p bound then (none, seen)
      else ((hit p).map fun d => ([p], d), (p, bound) :: seen)
  | left + 1, p, seen =>
      if seen.met p (bound - (left + 1)) then (none, seen)
      else
        match hit p with
        | some d => (some ([p], d), (p, bound - (left + 1)) :: seen)
        | none =>
            let found := firstHit (search left) (next p) ((p, bound - (left + 1)) :: seen)
            (found.1.map fun x => (p :: x.1, x.2), found.2)

variable {next hit bound}

/-- The way back to `0` is not gone a second time. -/
example : (search (fun n : Nat => [n - 1, n + 1]) (fun n => if n = 3 then some 'd' else none) 4 4 1 []).1 =
    some ([1, 2, 3], 'd') := by decide +kernel

/-- A search that hits: at its place, or at one of the successors. -/
theorem search_eq_some {left : Nat} {p : P} {seen seen' : Seen P} {path : List P} {d : D}
    (h : search next hit bound left p seen = (some (path, d), seen')) :
    seen.met p (bound - left) = false ∧ (hit p = some d ∧ path = [p] ∨
      ∃ left' path', left = left' + 1 ∧ hit p = none ∧ path = p :: path' ∧
        firstHit (search next hit bound left') (next p) ((p, bound - left) :: seen) =
          (some (path', d), seen')) := by
  cases left with
  | zero =>
      rw [search] at h
      split at h
      · cases h
      · next hmet =>
          refine ⟨Bool.not_eq_true _ ▸ hmet, .inl ?_⟩
          cases hd : hit p with
          | none => simp [hd] at h
          | some d' =>
              rw [hd] at h
              cases h
              exact ⟨rfl, rfl⟩
  | succ left =>
      rw [search] at h
      split at h
      · cases h
      · next hmet =>
          refine ⟨Bool.not_eq_true _ ▸ hmet, ?_⟩
          cases hd : hit p with
          | some d' =>
              rw [hd] at h
              cases h
              exact .inl ⟨rfl, rfl⟩
          | none =>
              simp only [hd, Prod.mk.injEq, Option.map_eq_some_iff] at h
              obtain ⟨⟨⟨path', d'⟩, hfound, hpath⟩, hseen⟩ := h
              obtain ⟨rfl, rfl⟩ := hpath
              exact .inr ⟨left, path', rfl, rfl, rfl, Prod.ext hfound hseen⟩

/-- A search that fails: its place was met, or is no hit and has no steps left or no successor
that hits. -/
theorem search_eq_none {left : Nat} {p : P} {seen seen' : Seen P}
    (h : search next hit bound left p seen = (none, seen')) :
    seen.met p (bound - left) = true ∧ seen' = seen ∨
      seen.met p (bound - left) = false ∧ hit p = none ∧
        (left = 0 ∧ seen' = (p, bound - left) :: seen ∨ ∃ left', left = left' + 1 ∧
          firstHit (search next hit bound left') (next p) ((p, bound - left) :: seen) =
            (none, seen')) := by
  cases left with
  | zero =>
      rw [search] at h
      split at h
      · next hmet =>
          cases h
          exact .inl ⟨hmet, rfl⟩
      · next hmet =>
          obtain ⟨hmiss, rfl⟩ : hit p = none ∧ (p, bound) :: seen = seen' := by simpa using h
          exact .inr ⟨Bool.not_eq_true _ ▸ hmet, hmiss, .inl ⟨rfl, rfl⟩⟩
  | succ left =>
      rw [search] at h
      split at h
      · next hmet =>
          cases h
          exact .inl ⟨hmet, rfl⟩
      · next hmet =>
          cases hmiss : hit p with
          | some d => simp [hmiss] at h
          | none =>
              simp only [hmiss, Prod.mk.injEq, Option.map_eq_none_iff] at h
              exact .inr ⟨Bool.not_eq_true _ ▸ hmet, rfl, .inr ⟨left, rfl, Prod.ext h.1 h.2⟩⟩

/-- A hit is at the end of a route within the bound. -/
theorem search_some {left : Nat} {p : P} {seen seen' : Seen P} {path : List P} {d : D}
    (h : search next hit bound left p seen = (some (path, d), seen')) :
    Route next hit path d ∧ path.head? = some p ∧ path.length ≤ left + 1 := by
  induction left using Nat.strong_induction_on generalizing p seen seen' path d with
  | h left ih =>
      obtain ⟨-, ⟨hd, rfl⟩ | ⟨left, path, rfl, hmiss, rfl, hfound⟩⟩ := search_eq_some h
      · exact ⟨.here hd, rfl, by simp⟩
      · obtain ⟨q, hq, s₁, s₂, -, hq'⟩ :=
          exists_of_firstHit_some (fun _ _ _ _ _ => trivial) trivial hfound
        obtain ⟨hroute, hhead, hlen⟩ := ih left (Nat.lt_succ_self left) hq'
        cases path with
        | nil => cases hhead
        | cons q' path =>
            obtain rfl : q' = q := Option.some.inj hhead
            exact ⟨.step hmiss hq hroute, rfl, Nat.succ_le_succ hlen⟩

/-! ## Nothing is missed -/

variable (next hit bound) in
/-- Every place entered, those on the way to the present one excepted, is no hit and has its
successors entered after one step more at most. -/
def Settled (seen : Seen P) (stack : List P) : Prop :=
  ∀ p m, seen.hops p = some m → p ∉ stack → hit p = none ∧
    (m < bound → ∀ q ∈ next p, ∃ m' ≤ m + 1, seen.hops q = some m')

/-- What a failing search leaves: places entered stay so, after as many steps or fewer, and
those on the way to it after as many. -/
structure Kept (seen seen' : Seen P) (stack : List P) : Prop where
  fewer : ∀ p m, seen.hops p = some m → ∃ m' ≤ m, seen'.hops p = some m'
  stack : ∀ p ∈ stack, seen'.hops p = seen.hops p

theorem Kept.refl (seen : Seen P) (stack : List P) : Kept seen seen stack :=
  ⟨fun _ m h => ⟨m, le_rfl, h⟩, fun _ _ => rfl⟩

theorem Kept.trans {s₁ s₂ s₃ : Seen P} {stack : List P} (h : Kept s₁ s₂ stack)
    (h' : Kept s₂ s₃ stack) : Kept s₁ s₃ stack := by
  refine ⟨fun p m hp => ?_, fun p hp => (h'.stack p hp).trans (h.stack p hp)⟩
  obtain ⟨m₂, hle₂, hp₂⟩ := h.fewer p m hp
  obtain ⟨m₃, hle₃, hp₃⟩ := h'.fewer p m₂ hp₂
  exact ⟨m₃, le_trans hle₃ hle₂, hp₃⟩

/-- The places on the way were entered after no more steps than `hops`. -/
def OnTheWay (seen : Seen P) (stack : List P) (hops : Nat) : Prop :=
  ∀ p ∈ stack, ∃ m ≤ hops, seen.hops p = some m

theorem OnTheWay.kept {seen seen' : Seen P} {stack : List P} {hops : Nat}
    (h : OnTheWay seen stack hops) (hkept : Kept seen seen' stack) : OnTheWay seen' stack hops := by
  intro p hp
  obtain ⟨m, hle, hm⟩ := h p hp
  exact ⟨m, hle, (hkept.stack p hp).trans hm⟩

theorem OnTheWay.not_mem {seen : Seen P} {stack : List P} {p : P} {hops : Nat}
    (h : OnTheWay seen stack hops) (hnew : seen.met p hops = false) : p ∉ stack := by
  intro hp
  rw [Seen.met_iff.mpr (h p hp)] at hnew
  cases hnew

/-- Entering a place puts it on the way. -/
theorem Settled.enter {seen : Seen P} {stack : List P} {p : P} {hops : Nat}
    (h : Settled next hit bound seen stack) (hnew : seen.met p hops = false) :
    Settled next hit bound ((p, hops) :: seen) (p :: stack) := by
  intro q m hq hstack
  have hne : p ≠ q := fun heq => hstack (heq ▸ List.mem_cons_self)
  rw [Seen.hops_cons, if_neg hne] at hq
  obtain ⟨hmiss, hnext⟩ := h q m hq fun hmem => hstack (List.mem_cons_of_mem p hmem)
  refine ⟨hmiss, fun hm r hr => ?_⟩
  obtain ⟨m', hle, hr'⟩ := hnext hm r hr
  rw [Seen.hops_cons]
  by_cases hpr : p = r
  · subst hpr
    -- it was entered before, but not after so few steps
    have hlt : hops < m' := by
      by_contra hge
      have hmet := Seen.met_iff.mpr ⟨m', not_lt.mp hge, hr'⟩
      rw [hnew] at hmet
      cases hmet
    exact ⟨hops, by omega, if_pos rfl⟩
  · exact ⟨m', hle, by rw [if_neg hpr]; exact hr'⟩

theorem kept_enter {seen : Seen P} {stack : List P} {p : P} {hops : Nat}
    (hnew : seen.met p hops = false) (hway : OnTheWay seen stack hops) :
    Kept seen ((p, hops) :: seen) stack := by
  refine ⟨fun q m hq => ?_, fun q hq => ?_⟩
  · rw [Seen.hops_cons]
    by_cases hpq : p = q
    · subst hpq
      have hlt : hops ≤ m := by
        by_contra hge
        have hmet := Seen.met_iff.mpr ⟨m, le_of_lt (not_le.mp hge), hq⟩
        rw [hnew] at hmet
        cases hmet
      exact ⟨hops, hlt, if_pos rfl⟩
    · exact ⟨m, le_rfl, by rw [if_neg hpq]; exact hq⟩
  · have hpq : p ≠ q := fun heq => hway.not_mem hnew (heq ▸ hq)
    rw [Seen.hops_cons, if_neg hpq]

theorem OnTheWay.enter {seen : Seen P} {stack : List P} {p : P} {hops : Nat}
    (h : OnTheWay seen stack hops) (hnew : seen.met p hops = false) :
    OnTheWay ((p, hops) :: seen) (p :: stack) (hops + 1) := by
  intro q hq
  rcases List.mem_cons.mp hq with rfl | hq
  · exact ⟨hops, Nat.le_succ hops, by rw [Seen.hops_cons, if_pos rfl]⟩
  · obtain ⟨m, hle, hm⟩ := h.kept (kept_enter hnew h) q hq
    exact ⟨m, Nat.le_succ_of_le hle, hm⟩

/-- **A failing search settles what it enters.** -/
theorem search_none {left : Nat} {p : P} {seen seen' : Seen P} {stack : List P} (hleft : left ≤ bound)
    (hsettled : Settled next hit bound seen stack) (hway : OnTheWay seen stack (bound - left))
    (h : search next hit bound left p seen = (none, seen')) :
    Settled next hit bound seen' stack ∧ Kept seen seen' stack ∧
      ∃ m ≤ bound - left, seen'.hops p = some m := by
  induction left using Nat.strong_induction_on generalizing p seen seen' stack with
  | h left ih =>
      rcases search_eq_none h with ⟨hmet, rfl⟩ | ⟨hmet, hmiss, hrest⟩
      · exact ⟨hsettled, .refl _ _, Seen.met_iff.mp hmet⟩
      have hp : Seen.hops ((p, bound - left) :: seen) p = some (bound - left) := by
        rw [Seen.hops_cons, if_pos rfl]
      have hkept : Kept seen ((p, bound - left) :: seen) stack := kept_enter hmet hway
      rcases hrest with ⟨rfl, rfl⟩ | ⟨left, rfl, hfirst⟩
      · -- no steps are left, so nothing is asked of the successors
        refine ⟨fun q m hq hstack => ?_, hkept, _, le_rfl, hp⟩
        by_cases hpq : q = p
        · subst hpq
          rw [hp] at hq
          cases hq
          exact ⟨hmiss, fun hlt => absurd hlt (lt_irrefl _)⟩
        · exact hsettled.enter hmet q m hq fun hmem => (List.mem_cons.mp hmem).elim hpq hstack
      · have hway' : OnTheWay ((p, bound - (left + 1)) :: seen) (p :: stack) (bound - left) := by
          rw [show bound - left = bound - (left + 1) + 1 by omega]
          exact hway.enter hmet
        -- each successor fails in turn, and what it leaves is settled for the next one
        obtain ⟨_, ⟨rfl, hs', -⟩, hkept', hnext⟩ := forall_of_firstHit_none
          (fun s g => s = g ∧ Settled next hit bound s (p :: stack) ∧
            OnTheWay s (p :: stack) (bound - left))
          (fun g g' => Kept g g' (p :: stack)) (fun q g => ∃ m ≤ bound - left, g.hops q = some m)
          (fun g => .refl g _) .trans
          (fun hkept hq => by
            obtain ⟨m, hle, hm⟩ := hq
            obtain ⟨m', hle', hm'⟩ := hkept.fewer _ m hm
            exact ⟨m', le_trans hle' hle, hm'⟩)
          (fun q _ s _ s' hs hq => by
            obtain ⟨rfl, hs, hsway⟩ := hs
            obtain ⟨hs', hkept, hq'⟩ := ih left (Nat.lt_succ_self left) (by omega) hs hsway hq
            exact ⟨s', ⟨rfl, hs', hsway.kept hkept⟩, hkept, hq'⟩)
          ⟨rfl, hsettled.enter hmet, hway'⟩ hfirst
        have hp' : seen'.hops p = some (bound - (left + 1)) :=
          (hkept'.stack p List.mem_cons_self).trans hp
        refine ⟨fun q m hq hstack => ?_, ?_, _, le_rfl, hp'⟩
        · by_cases hpq : q = p
          · subst hpq
            rw [hp'] at hq
            cases hq
            refine ⟨hmiss, fun _ r hr => ?_⟩
            obtain ⟨m', hle, hm'⟩ := hnext r hr
            exact ⟨m', by omega, hm'⟩
          · exact hs' q m hq fun hmem => (List.mem_cons.mp hmem).elim hpq hstack
        · exact hkept.trans ⟨hkept'.fewer, fun q hq => hkept'.stack q (List.mem_cons_of_mem p hq)⟩

/-- In settled places no route within the bound leads on from a place that was entered. -/
theorem Settled.no_route {seen : Seen P} {stack path : List P} {d : D}
    (h : Settled next hit bound seen stack) (hroute : Route next hit path d)
    (havoids : ∀ q ∈ path, q ∉ stack) {p : P} (hhead : path.head? = some p) {m : Nat}
    (hp : seen.hops p = some m) (hlen : m + path.length ≤ bound + 1) : False := by
  induction hroute generalizing p m with
  | here hd =>
      cases hhead
      rw [(h _ _ hp (havoids _ List.mem_cons_self)).1] at hd
      cases hd
  | step _ hq _ ih =>
      cases hhead
      simp only [List.length_cons] at hlen
      obtain ⟨m', hle, hm'⟩ := (h _ _ hp (havoids _ List.mem_cons_self)).2 (by omega) _ hq
      exact ih (fun r hr => havoids r (List.mem_cons_of_mem _ hr)) rfl hm'
        (by simp only [List.length_cons]; omega)

/-- **The search is complete within its bound**, for routes that keep off the way to where
it starts. -/
theorem search_isSome {left : Nat} {p : P} {seen : Seen P} {stack path : List P} {d : D}
    (hleft : left ≤ bound) (hsettled : Settled next hit bound seen stack)
    (hway : OnTheWay seen stack (bound - left)) (hroute : Route next hit path d)
    (hhead : path.head? = some p) (hlen : path.length ≤ left + 1) (havoids : ∀ q ∈ path, q ∉ stack) :
    (search next hit bound left p seen).1.isSome := by
  rcases h : search next hit bound left p seen with ⟨_ | r, seen'⟩
  · obtain ⟨hs', -, m, hm, hp⟩ := search_none hleft hsettled hway h
    exact absurd (by omega) fun hle => hs'.no_route hroute havoids hhead hp hle
  · rfl

/-- A found route comes to no place twice, and to none on the way to its start. -/
theorem search_nodup {left : Nat} {p : P} {seen seen' : Seen P} {stack path : List P} {d : D}
    (hleft : left ≤ bound) (hsettled : Settled next hit bound seen stack)
    (hway : OnTheWay seen stack (bound - left))
    (h : search next hit bound left p seen = (some (path, d), seen')) :
    path.Nodup ∧ ∀ q ∈ path, q ∉ stack := by
  induction left using Nat.strong_induction_on generalizing p seen seen' path stack d with
  | h left ih =>
      obtain ⟨hmet, hfound⟩ := search_eq_some h
      have hp : p ∉ stack := hway.not_mem hmet
      rcases hfound with ⟨-, rfl⟩ | ⟨left, path, rfl, -, rfl, hfirst⟩
      · exact ⟨List.nodup_singleton p, fun q hq => List.mem_singleton.mp hq ▸ hp⟩
      have hway' : OnTheWay ((p, bound - (left + 1)) :: seen) (p :: stack) (bound - left) := by
        rw [show bound - left = bound - (left + 1) + 1 by omega]
        exact hway.enter hmet
      -- the successors before the one that hit kept the places on the way
      obtain ⟨q, -, s₁, s₂, ⟨hs₁, hway₁⟩, hq⟩ := exists_of_firstHit_some
        (fun q s s' (hs : Settled next hit bound s (p :: stack) ∧
            OnTheWay s (p :: stack) (bound - left)) hq => by
          obtain ⟨hs', hkept, -⟩ := search_none (by omega) hs.1 hs.2 hq
          exact ⟨hs', hs.2.kept hkept⟩)
        ⟨hsettled.enter hmet, hway'⟩ hfirst
      obtain ⟨hnodup, havoids⟩ := ih left (Nat.lt_succ_self left) (by omega) hs₁ hway₁ hq
      refine ⟨List.nodup_cons.mpr ⟨fun hmem => havoids p hmem List.mem_cons_self, hnodup⟩, ?_⟩
      intro r hr
      rcases List.mem_cons.mp hr with rfl | hr
      · exact hp
      · exact fun hstack => havoids r hr (List.mem_cons_of_mem p hstack)

end Fewest

/-! ## Remembering keys -/

section Guarded

variable {K : Type} (next : P → List P) (hit : P → Option D) (key : P → K)

/-- The search that enters at most `left` places one after another, and none whose key was
met. -/
def guarded [DecidableEq K] : Nat → P → List K → Option D × List K
  | 0, _, met => (none, met)
  | left + 1, p, met =>
      if key p ∈ met then (none, met)
      else
        match hit p with
        | some d => (some d, key p :: met)
        | none => firstHit (guarded left) (next p) (key p :: met)

/-- A way from a place, the last step first: none of the places before the last is a hit. -/
inductive Way (root : P) : List P → Prop
  | start : Way root [root]
  | step {p q : P} {way : List P} : Way root (p :: way) → hit p = none → q ∈ next p →
      Way root (q :: p :: way)

/-- No two ways of at most `bound` places come to places of one key. -/
def Unrepeated (bound : Nat) (root : P) : Prop :=
  ∀ p way p' way', Way next hit root (p :: way) → Way next hit root (p' :: way') →
    (p :: way).length ≤ bound → (p' :: way').length ≤ bound → key p = key p' →
      p :: way = p' :: way'

variable {next hit key}

theorem guarded_some [DecidableEq K] {left : Nat} {p : P} {met met' : List K} {d : D}
    (h : guarded next hit key left p met = (some d, met')) :
    ∃ path, Route next hit path d ∧ path.head? = some p ∧ path.length ≤ left := by
  induction left generalizing p met met' with
  | zero => cases h
  | succ left ih =>
      rw [guarded] at h
      split at h
      · cases h
      · cases hd : hit p with
        | some d' =>
            rw [hd] at h
            cases h
            exact ⟨[p], .here hd, rfl, by simp⟩
        | none =>
            rw [hd] at h
            obtain ⟨q, hq, s₁, s₂, -, hq'⟩ :=
              exists_of_firstHit_some (fun _ _ _ _ _ => trivial) trivial h
            obtain ⟨path, hroute, hhead, hlen⟩ := ih hq'
            cases path with
            | nil => cases hhead
            | cons q' path =>
                obtain rfl : q' = q := Option.some.inj hhead
                exact ⟨p :: q' :: path, .step hd hq hroute, rfl, Nat.succ_le_succ hlen⟩

variable (next hit key) in
/-- What was entered, as the ways it was entered on: every key met is one's, and every one,
those on the way excepted, is no hit and has its successors entered. -/
structure Entered (bound : Nat) (root : P) (entered : Set (List P)) (met : List K)
    (stack : List (List P)) : Prop where
  way : ∀ w ∈ entered, Way next hit root w ∧ w.length ≤ bound
  keys : ∀ k ∈ met, ∃ p w, p :: w ∈ entered ∧ key p = k
  closed : ∀ p w, p :: w ∈ entered → p :: w ∉ stack → hit p = none ∧
    ((p :: w).length < bound → ∀ q ∈ next p, q :: p :: w ∈ entered)

variable {bound : Nat} {root : P}

/-- Entering a place puts the way to it on the way. -/
theorem Entered.enter {entered : Set (List P)} {met : List K} {stack : List (List P)} {p : P}
    {w : List P} (h : Entered next hit key bound root entered met stack)
    (hway : Way next hit root (p :: w)) (hle : (p :: w).length ≤ bound) :
    Entered next hit key bound root (insert (p :: w) entered) (key p :: met) ((p :: w) :: stack) := by
  refine ⟨fun u hu => ?_, fun k hk => ?_, fun q u hu hstack => ?_⟩
  · rcases hu with rfl | hu
    · exact ⟨hway, hle⟩
    · exact h.way u hu
  · rcases List.mem_cons.mp hk with rfl | hk
    · exact ⟨p, w, .inl rfl, rfl⟩
    · obtain ⟨q, u, hu, hkey⟩ := h.keys k hk
      exact ⟨q, u, .inr hu, hkey⟩
  · rcases hu with hu | hu
    · exact absurd (hu ▸ List.mem_cons_self) hstack
    · obtain ⟨hq, hnext⟩ := h.closed q u hu fun hmem => hstack (List.mem_cons_of_mem _ hmem)
      exact ⟨hq, fun hlt r hr => .inr (hnext hlt r hr)⟩

/-- **A failing search enters what it comes to.** -/
theorem guarded_none [DecidableEq K] (hunique : Unrepeated next hit key bound root)
    {left : Nat} {p : P} {w : List P} {met met' : List K} {stack : List (List P)}
    {entered : Set (List P)} (hlen : (p :: w).length + left = bound + 1)
    (hway : Way next hit root (p :: w)) (hentered : Entered next hit key bound root entered met stack)
    (h : guarded next hit key left p met = (none, met')) :
    ∃ entered', Entered next hit key bound root entered' met' stack ∧ entered ⊆ entered' ∧
      ((p :: w).length ≤ bound → p :: w ∈ entered') := by
  induction left generalizing p w met met' stack entered with
  | zero =>
      cases h
      exact ⟨entered, hentered, subset_rfl, fun hle => by omega⟩
  | succ left ih =>
      have hle : (p :: w).length ≤ bound := by omega
      rw [guarded] at h
      by_cases hmet : key p ∈ met
      · -- some place of this key was entered, and by hypothesis it is this one
        rw [if_pos hmet] at h
        cases h
        obtain ⟨p', w', hmem, hkey⟩ := hentered.keys _ hmet
        obtain ⟨hway', hle'⟩ := hentered.way _ hmem
        have hsame := hunique p w p' w' hway hway' hle hle' hkey.symm
        exact ⟨entered, hentered, subset_rfl, fun _ => hsame ▸ hmem⟩
      rw [if_neg hmet] at h
      cases hmiss : hit p with
      | some d => simp [hmiss] at h
      | none =>
          rw [hmiss] at h
          obtain ⟨e', he', hsub', hnext⟩ := forall_of_firstHit_none
            (fun m e => Entered next hit key bound root e m ((p :: w) :: stack)) (· ⊆ ·)
            (fun q e => (q :: p :: w).length ≤ bound → q :: p :: w ∈ e)
            (fun _ => subset_rfl) .trans (fun hsub hq hlen => hsub (hq hlen))
            (fun q hq m e m' he hfail => by
              have hlen' : (q :: p :: w).length + left = bound + 1 := by
                rw [List.length_cons]
                omega
              exact ih hlen' (.step hway hmiss hq) he hfail)
            (hentered.enter hway hle) h
          have hmem : p :: w ∈ e' := hsub' (.inl rfl)
          refine ⟨e', ⟨he'.way, he'.keys, fun q u hu hstack => ?_⟩,
            fun u hu => hsub' (.inr hu), fun _ => hmem⟩
          by_cases heq : q :: u = p :: w
          · cases heq
            exact ⟨hmiss, fun hlt r hr => hnext r hr (by rw [List.length_cons]; exact hlt)⟩
          · exact he'.closed q u hu fun hin => (List.mem_cons.mp hin).elim heq hstack

theorem Entered.no_route {entered : Set (List P)} {met : List K} {path : List P} {d : D}
    (h : Entered next hit key bound root entered met []) (hroute : Route next hit path d) {p : P}
    {w : List P} (hhead : path.head? = some p) (hmem : p :: w ∈ entered)
    (hlen : w.length + path.length ≤ bound) : False := by
  induction hroute generalizing p w with
  | here hd =>
      cases hhead
      rw [(h.closed _ _ hmem (by simp)).1] at hd
      cases hd
  | step _ hq _ ih =>
      cases hhead
      simp only [List.length_cons] at hlen
      have hnext := (h.closed _ _ hmem (by simp)).2 (by rw [List.length_cons]; omega) _ hq
      exact ih rfl hnext (by simp only [List.length_cons]; omega)

/-- The guarded search is complete where no two ways come to one key. -/
theorem guarded_isSome [DecidableEq K] (hunique : Unrepeated next hit key bound root)
    {path : List P} {d : D} (hroute : Route next hit path d) (hhead : path.head? = some root)
    (hlen : path.length ≤ bound) : (guarded next hit key bound root []).1.isSome := by
  rcases h : guarded next hit key bound root [] with ⟨_ | r, met'⟩
  · have hstart : Entered next hit key bound root ∅ [] [] :=
      ⟨fun w hw => hw.elim, fun k hk => (List.not_mem_nil hk).elim, fun p w hw => hw.elim⟩
    obtain ⟨e', he', -, hmem⟩ := guarded_none hunique (by rw [List.length_singleton]; omega)
      .start hstart h
    have hpos : [root].length ≤ bound := by
      cases path with
      | nil => cases hhead
      | cons p path => exact le_trans (by simp) hlen
    exact (he'.no_route hroute hhead (hmem hpos) (by simpa using hlen)).elim
  · rfl

end Guarded

end Devscout.Lib.BoundedSearch
