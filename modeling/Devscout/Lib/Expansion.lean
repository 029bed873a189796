/-
# Devscout.Lib.Expansion -- texts read through the texts they stand for

An entry is read by reading its parts from left to right and then, when it stands for
another entry, that one. Some entries cannot be read, and the first of these ends the whole
reading. Nothing says that an entry is smaller than one it leads to: an entry may stand for
one that has it among its parts.

Where an entry leads to finitely many, the reading ends exactly when no entry that is asked
for asks for itself again. An entry asks for a part when the parts before it read well, and
that an entry reads well is a matter of what it leads to alone.
-/

import Devscout.Lib.Fuel
import Mathlib

namespace Devscout.Lib

open Fuel Relation

/-- What entries are made of and stand for. What an entry stands for may itself take a
call, and then more nested calls change nothing. -/
structure Expansion (α : Type) where
  /-- none for an entry that cannot be read -/
  parts : α → Option (List α)
  standsFor : Nat → α → Option (Option α)
  stays : ∀ {m n : Nat} (a : α), m ≤ n → Stays (standsFor m a) (standsFor n a)

namespace Expansion

variable {α : Type} (E : Expansion α)

/-- Whether an entry reads well, with so many nested calls. -/
def read : Nat → α → Option Bool
  | 0, _ => none
  | n + 1, a =>
      match E.parts a with
      | none => some false
      | some parts => do
          if ← allCalls (read n) parts then
            match ← E.standsFor n a with
            | none => some true
            | some b => read n b
          else some false

/-- The reading ends. -/
def Reads (a : α) : Prop := ∃ n, (E.read n a).isSome

/-! ## What an entry leads to -/

def Follows (a b : α) : Prop := ∃ n, E.standsFor n a = some (some b)

/-- What an entry stands for is found out. -/
def Settles (a : α) : Prop := ∃ n, (E.standsFor n a).isSome

/-- A part, or what a readable entry stands for. -/
def Leads (a b : α) : Prop := ∃ parts, E.parts a = some parts ∧ (b ∈ parts ∨ E.Follows a b)

/-- All that the entry leads to is readable, and none of it leads to itself. -/
def Sound (a : α) : Prop :=
  ∀ e, ReflTransGen E.Leads a e → (E.parts e).isSome ∧ E.Settles e ∧ ¬ TransGen E.Leads e e

/-- A part before which all is sound, or what an entry with sound parts stands for. -/
def Asks (a b : α) : Prop :=
  ∃ parts, E.parts a = some parts ∧
    ((∃ before after, parts = before ++ b :: after ∧ ∀ c ∈ before, E.Sound c) ∨
      ((∀ c ∈ parts, E.Sound c) ∧ E.Follows a b))

/-- **No entry asked for asks for itself again,** and what an entry with sound parts stands
for is found out. -/
def Ends (a : α) : Prop :=
  ∀ e, ReflTransGen E.Asks a e → ¬ TransGen E.Asks e e ∧
    ∀ parts, E.parts e = some parts → (∀ c ∈ parts, E.Sound c) → E.Settles e

variable {E}

theorem Sound.of_leads {a b : α} (h : E.Sound a) (hleads : E.Leads a b) : E.Sound b :=
  fun e he => h e (.head hleads he)

/-! ## Relations that use up a bound -/

section Descends

variable {R : α → α → Prop} {P : Nat → α → Prop}
  (hR : ∀ n a b, P n a → R a b → ∃ m < n, P m b)

include hR in
theorem descends_refl {n : Nat} {a b : α} (ha : P n a) (h : ReflTransGen R a b) : ∃ m ≤ n, P m b := by
  induction h with
  | refl => exact ⟨n, Nat.le_refl n, ha⟩
  | tail _ hbc ih =>
      obtain ⟨m, hm, hb⟩ := ih
      obtain ⟨k, hk, hc⟩ := hR _ _ _ hb hbc
      exact ⟨k, by omega, hc⟩

include hR in
/-- What uses up a bound does not come back to where it began. -/
theorem descends_irrefl {n : Nat} {a : α} (ha : P n a) : ¬ TransGen R a a := by
  induction n using Nat.strong_induction_on with
  | _ n ih =>
      intro hcycle
      obtain ⟨b, hab, hba⟩ := TransGen.head'_iff.mp hcycle
      obtain ⟨m, hm, hb⟩ := hR _ _ _ ha hab
      obtain ⟨k, hk, ha'⟩ := descends_refl hR hb hba
      exact ih k (by omega) ha' hcycle

end Descends

/-! ## Readings -/

theorem read_stays {m n : Nat} (hle : m ≤ n) (a : α) : Stays (E.read m a) (E.read n a) := by
  induction m generalizing n a with
  | zero => exact stays_none _
  | succ m ih =>
      obtain ⟨n, rfl⟩ : ∃ k, n = k + 1 := ⟨n - 1, by omega⟩
      have hle : m ≤ n := by omega
      rw [read, read]
      cases E.parts a with
      | none => exact .refl _
      | some parts =>
          refine (allCalls_stays (fun b => ih hle b) parts).bind fun readable => ?_
          split
          · refine (E.stays a hle).bind fun next => ?_
            cases next with
            | none => exact .refl _
            | some b => exact ih hle b
          · exact .refl _

/-- The part of the entry `1` cannot be read. -/
example : (⟨fun n => if n = 0 then none else some [n - 1], fun _ _ => some none, fun _ _ => .refl _⟩ :
    Expansion Nat).read 3 1 = some false := by decide +kernel

/-- What an entry that reads well leads to reads well, with fewer calls. -/
theorem read_true_leads (n : Nat) (a b : α) (ha : E.read n a = some true) (h : E.Leads a b) :
    ∃ m < n, E.read m b = some true := by
  cases n with
  | zero => cases ha
  | succ n =>
      refine ⟨n, Nat.lt_succ_self n, ?_⟩
      obtain ⟨parts, hparts, hb⟩ := h
      rw [read, hparts] at ha
      dsimp only at ha
      obtain ⟨readable, hreadable, hnext⟩ := Option.bind_eq_some_iff.mp ha
      cases readable with
      | false => cases hnext
      | true =>
          rcases hb with hb | ⟨k, hk⟩
          · exact allCalls_eq_true.mp hreadable b hb
          · obtain ⟨next, hn, hread⟩ := Option.bind_eq_some_iff.mp hnext
            -- Both bounds agree on what the entry stands for.
            have hmax := E.stays a (Nat.le_max_left n k) next hn
            rw [E.stays a (Nat.le_max_right n k) (some b) hk] at hmax
            obtain rfl := Option.some.inj hmax
            exact hread

theorem sound_of_read {n : Nat} {a : α} (ha : E.read n a = some true) : E.Sound a := by
  intro e he
  obtain ⟨m, -, hread⟩ := descends_refl read_true_leads ha he
  refine ⟨?_, ?_, descends_irrefl read_true_leads hread⟩
  all_goals
    cases m with
    | zero => cases hread
    | succ m =>
        rw [read] at hread
        cases hparts : E.parts e with
        | none => rw [hparts] at hread; cases hread
        | some parts =>
            rw [hparts] at hread
            obtain ⟨readable, hreadable, hnext⟩ := Option.bind_eq_some_iff.mp hread
            cases readable with
            | false => cases hnext
            | true =>
                obtain ⟨next, hn, -⟩ := Option.bind_eq_some_iff.mp hnext
                first
                  | rfl
                  | exact ⟨m, by rw [hn]; rfl⟩

theorem read_eq_true_of_sound {n : Nat} {a : α} (hsound : E.Sound a) {readable : Bool}
    (h : E.read n a = some readable) : readable = true := by
  induction n generalizing a readable with
  | zero => cases h
  | succ n ih =>
      obtain ⟨parts, hparts⟩ := Option.isSome_iff_exists.mp (hsound a .refl).1
      rw [read, hparts] at h
      obtain ⟨all, hall, hnext⟩ := Option.bind_eq_some_iff.mp h
      cases all with
      | false =>
          obtain ⟨b, hb, hfalse⟩ := exists_of_allCalls_eq_false hall
          exact absurd (ih (hsound.of_leads ⟨parts, hparts, .inl hb⟩) hfalse) (by decide)
      | true =>
          obtain ⟨next, hn, hread⟩ := Option.bind_eq_some_iff.mp hnext
          cases next with
          | none => exact (Option.some.inj hread).symm
          | some b => exact ih (hsound.of_leads ⟨parts, hparts, .inr ⟨n, hn⟩⟩) hread

/-! ## A reading that ends -/

/-- An entry whose reading ends has had all it asks for read, with fewer calls. -/
theorem read_asks (n : Nat) (a b : α) (ha : (E.read n a).isSome) (h : E.Asks a b) :
    ∃ m < n, (E.read m b).isSome := by
  cases n with
  | zero => cases ha
  | succ n =>
      refine ⟨n, Nat.lt_succ_self n, ?_⟩
      have hsound : ∀ c, E.Sound c → ∀ readable, E.read n c = some readable → readable = true :=
        fun c hc _ hread => read_eq_true_of_sound hc hread
      obtain ⟨parts, hparts, hpart | ⟨hall, k, hk⟩⟩ := h
      all_goals
        obtain ⟨readable, ha⟩ := Option.isSome_iff_exists.mp ha
        rw [read, hparts] at ha
        obtain ⟨answer, hanswer, hnext⟩ := Option.bind_eq_some_iff.mp ha
      · obtain ⟨before, after, rfl, hbefore⟩ := hpart
        exact allCalls_reaches (fun c hc => hsound c (hbefore c hc)) (by rw [hanswer]; rfl)
      · have htrue : answer = true := by
          by_contra hfalse
          rw [Bool.not_eq_true] at hfalse
          obtain ⟨c, hc, hread⟩ := exists_of_allCalls_eq_false (hfalse ▸ hanswer)
          exact absurd (hsound c (hall c hc) false hread) (by decide)
        rw [htrue] at hnext
        obtain ⟨next, hn, hread⟩ := Option.bind_eq_some_iff.mp hnext
        have hmax := E.stays a (Nat.le_max_left n k) next hn
        rw [E.stays a (Nat.le_max_right n k) (some b) hk] at hmax
        obtain rfl := Option.some.inj hmax
        dsimp only at hread
        rw [hread]
        rfl

theorem ends_of_reads {a : α} (h : E.Reads a) : E.Ends a := by
  obtain ⟨n, hn⟩ := h
  intro e he
  obtain ⟨m, -, hm⟩ := descends_refl read_asks hn he
  refine ⟨descends_irrefl read_asks hm, fun parts hparts hsound => ?_⟩
  cases m with
  | zero => cases hm
  | succ m =>
      obtain ⟨readable, hread⟩ := Option.isSome_iff_exists.mp hm
      rw [read, hparts] at hread
      obtain ⟨answer, hanswer, hnext⟩ := Option.bind_eq_some_iff.mp hread
      cases answer with
      | false =>
          obtain ⟨c, hc, hfalse⟩ := exists_of_allCalls_eq_false hanswer
          exact absurd (read_eq_true_of_sound (hsound c hc) hfalse) (by decide)
      | true =>
          obtain ⟨next, hn, -⟩ := Option.bind_eq_some_iff.mp hnext
          exact ⟨m, by rw [hn]; rfl⟩

/-- The parts of an entry are read when each that is asked for is. -/
theorem allCalls_isSome_of_asks {a : α} {parts : List α} (hparts : E.parts a = some parts)
    (ih : ∀ b, E.Asks a b → E.Reads b) : ∃ n, (allCalls (E.read n) parts).isSome := by
  suffices hrest : ∀ rest before, parts = before ++ rest → (∀ c ∈ before, E.Sound c) →
      ∃ n, (allCalls (E.read n) rest).isSome from hrest parts [] rfl (by simp)
  intro rest
  induction rest with
  | nil => intro _ _ _; exact ⟨0, rfl⟩
  | cons b rest ihrest =>
      intro before hsplit hbefore
      obtain ⟨n, hn⟩ := ih b ⟨parts, hparts, .inl ⟨before, rest, hsplit, hbefore⟩⟩
      obtain ⟨readable, hread⟩ := Option.isSome_iff_exists.mp hn
      cases readable with
      | false => exact ⟨n, by rw [allCalls, hread]; rfl⟩
      | true =>
          obtain ⟨m, hm⟩ := ihrest (before ++ [b]) (by rw [hsplit, List.append_assoc]; rfl) (by
            intro c hc
            rcases List.mem_append.mp hc with hc | hc
            · exact hbefore c hc
            · rw [List.mem_singleton.mp hc]
              exact sound_of_read hread)
          refine ⟨max n m, ?_⟩
          rw [allCalls, read_stays (Nat.le_max_left n m) b true hread]
          exact (allCalls_stays (read_stays (Nat.le_max_right n m)) rest).isSome hm

/-- One entry, when all it asks for is read and what it stands for is found out. -/
theorem reads_of_asks {a : α} (ih : ∀ b, E.Asks a b → E.Reads b)
    (hsettles : ∀ parts, E.parts a = some parts → (∀ c ∈ parts, E.Sound c) → E.Settles a) :
    E.Reads a := by
  cases hparts : E.parts a with
  | none => exact ⟨1, by rw [read, hparts]; rfl⟩
  | some parts =>
      obtain ⟨n, hn⟩ := allCalls_isSome_of_asks hparts ih
      obtain ⟨readable, hread⟩ := Option.isSome_iff_exists.mp hn
      cases readable with
      | false => exact ⟨n + 1, by rw [read, hparts]; dsimp only; rw [hread]; rfl⟩
      | true =>
          have hsound : ∀ c ∈ parts, E.Sound c :=
            fun c hc => sound_of_read (allCalls_eq_true.mp hread c hc)
          obtain ⟨k, hk⟩ := hsettles parts hparts hsound
          obtain ⟨next, hnext⟩ := Option.isSome_iff_exists.mp hk
          -- One bound for the parts, for what the entry stands for, and for reading that.
          have hread' : ∀ m, n ≤ m → allCalls (E.read m) parts = some true :=
            fun m hm => allCalls_stays (read_stays hm) parts true hread
          have hnext' : ∀ m, k ≤ m → E.standsFor m a = some next := fun m hm => E.stays a hm next hnext
          cases next with
          | none =>
              refine ⟨max n k + 1, ?_⟩
              rw [read, hparts]
              dsimp only
              rw [hread' _ (Nat.le_max_left n k), hnext' _ (Nat.le_max_right n k)]
              rfl
          | some b =>
              obtain ⟨j, hj⟩ := ih b ⟨parts, hparts, .inr ⟨hsound, k, hnext⟩⟩
              refine ⟨max n (max k j) + 1, ?_⟩
              rw [read, hparts]
              dsimp only
              rw [hread' _ (Nat.le_max_left _ _), hnext' (max n (max k j)) (by omega)]
              exact (read_stays (by omega) b).isSome hj

theorem leads_of_asks {a b : α} (h : E.Asks a b) : E.Leads a b := by
  obtain ⟨parts, hparts, ⟨before, after, rfl, -⟩ | ⟨-, hfollows⟩⟩ := h
  · exact ⟨_, hparts, .inl (by simp)⟩
  · exact ⟨parts, hparts, .inr hfollows⟩

theorem reads_of_ends {a : α} {nodes : List α} (hnodes : ∀ e, ReflTransGen E.Leads a e → e ∈ nodes)
    (h : E.Ends a) : E.Reads a := by
  -- What is asked for from the entry is finite and without a cycle.
  let Below := {e // ReflTransGen E.Asks a e}
  have hfinite : Finite Below := by
    refine Set.Finite.subset nodes.finite_toSet ?_
    intro e he
    refine hnodes e ?_
    induction he with
    | refl => exact .refl
    | tail _ hbc hreached => exact hreached.tail (leads_of_asks hbc)
  have htrans : IsTrans Below fun y x => TransGen E.Asks x.1 y.1 := ⟨fun _ _ _ hyx hzy => hzy.trans hyx⟩
  have hirrefl : Std.Irrefl fun (y x : Below) => TransGen E.Asks x.1 y.1 := ⟨fun e => (h e.1 e.2).1⟩
  have hwf : WellFounded fun (y x : Below) => TransGen E.Asks x.1 y.1 :=
    Finite.wellFounded_of_trans_of_irrefl _
  suffices hbelow : ∀ e : Below, E.Reads e.1 from hbelow ⟨a, .refl⟩
  intro e
  induction e using hwf.induction with
  | _ e ih =>
      refine reads_of_asks (fun b hb => ?_) (h e.1 e.2).2
      exact ih ⟨b, e.2.tail hb⟩ (.single hb)

/-- **A reading ends exactly when nothing asked for asks for itself again,** where entries
lead to finitely many. -/
theorem reads_iff_ends {a : α} {nodes : List α} (hnodes : ∀ e, ReflTransGen E.Leads a e → e ∈ nodes) :
    E.Reads a ↔ E.Ends a :=
  ⟨ends_of_reads, reads_of_ends hnodes⟩

end Expansion

end Devscout.Lib
