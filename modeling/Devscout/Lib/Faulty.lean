/-
# Devscout.Lib.Faulty -- programs whose operations may fail

A program runs atomic operations on a shared state, and any of them may fail. A failed
operation gives the program up unless somebody stands by with a default. It has either
left the state alone or done all of its work and lost only the report of it, so a
failure tells the program nothing about the state.

Which operations fail is a list of fates, one for each operation in the order they run;
operations beyond its end succeed. A specification names the states a program may start
in, what holds when it returns, and what holds of the state it leaves when it gives up.
-/

import Mathlib

namespace Devscout.Lib

/-- What becomes of one operation. -/
inductive Fate where
  | done
  | refused
  | lost
  deriving DecidableEq

/-- A program over the state `S`: given the fates of its operations it returns or gives
up, and says which fates are left and what the state is. -/
def Faulty (S α : Type) : Type := List Fate → S → Option α × List Fate × S

namespace Faulty

variable {S α β : Type}

def ret (a : α) : Faulty S α := fun fates s => (some a, fates, s)

def fail : Faulty S α := fun fates s => (none, fates, s)

/-- Sequencing: giving up ends the whole program. -/
def bind (m : Faulty S α) (f : α → Faulty S β) : Faulty S β := fun fates s =>
  match m fates s with
  | (some a, fates', s') => f a fates' s'
  | (none, fates', s') => (none, fates', s')

instance : Monad (Faulty S) where
  pure := ret
  bind := bind

/-- One atomic operation. -/
def op (f : S → α × S) : Faulty S α
  | [], s => (some (f s).1, [], (f s).2)
  | .done :: fates, s => (some (f s).1, fates, (f s).2)
  | .refused :: fates, s => (none, fates, s)
  | .lost :: fates, s => (none, fates, (f s).2)

/-- An operation that only looks. -/
def look (f : S → α) : Faulty S α := op fun s => (f s, s)

/-- An operation that only changes the state. -/
def change (f : S → S) : Faulty S Unit := op fun s => ((), f s)

/-- A computation outside the shared state, which may refuse. -/
def lift {ε : Type} : Except ε α → Faulty S α
  | .ok a => ret a
  | .error _ => fail

/-- The program with a default for when it gives up. -/
def orElse (m : Faulty S α) (a : α) : Faulty S α := fun fates s =>
  match m fates s with
  | (some b, rest) => (some b, rest)
  | (none, rest) => (some a, rest)

/-! ## Specifications -/

/-- From every state in `P` and whatever fails, the program returns with `Q` or gives up
in a state in `E`. -/
def Triple (P : S → Prop) (m : Faulty S α) (Q : α → S → Prop) (E : S → Prop) : Prop :=
  ∀ fates s, P s →
    match m fates s with
    | (some a, _, s') => Q a s'
    | (none, _, s') => E s'

variable {P P' E E' : S → Prop} {Q Q' : α → S → Prop} {m : Faulty S α}

/-- **Consequence.** -/
theorem Triple.weaken (h : Triple P m Q E) (hP : ∀ s, P' s → P s)
    (hQ : ∀ a s, Q a s → Q' a s) (hE : ∀ s, E s → E' s) : Triple P' m Q' E' := by
  intro fates s hs
  have hm := h fates s (hP s hs)
  revert hm
  rcases m fates s with ⟨_ | a, rest, s'⟩
  · exact fun hm => hE s' hm
  · exact fun hm => hQ a s' hm

/-- A fact about the values that came before is used outside the program. -/
theorem Triple.assume {φ : Prop} (h : φ → Triple P m Q E) : Triple (fun s => P s ∧ φ) m Q E := by
  intro fates s hs
  exact h hs.2 fates s hs.1

theorem Triple.ret {a : α} (h : ∀ s, P s → Q a s) : Triple P (pure a) Q E := by
  intro fates s hs
  exact h s hs

/-- **Sequencing.** A specification of the second program from what the first returns. -/
theorem Triple.bind {R : β → S → Prop} {f : α → Faulty S β} (hm : Triple P m Q E)
    (hf : ∀ a, Triple (Q a) (f a) R E) : Triple P (m >>= f) R E := by
  intro fates s hs
  have hfirst := hm fates s hs
  show match Faulty.bind m f fates s with
    | (some a, _, s') => R a s'
    | (none, _, s') => E s'
  unfold Faulty.bind
  revert hfirst
  rcases m fates s with ⟨_ | a, rest, s'⟩
  · exact fun hfirst => hfirst
  · exact fun hfirst => hf a rest s' hfirst

/-- **An operation** has to leave the state allowed whether or not its report arrives. -/
theorem Triple.op {f : S → α × S} (hdone : ∀ s, P s → Q (f s).1 (f s).2)
    (hkept : ∀ s, P s → E s) (hlost : ∀ s, P s → E (f s).2) : Triple P (op f) Q E := by
  intro fates s hs
  rcases fates with _ | ⟨_ | _ | _, fates⟩
  · exact hdone s hs
  · exact hdone s hs
  · exact hkept s hs
  · exact hlost s hs

/-- A look changes nothing. -/
theorem Triple.look {f : S → α} (hdone : ∀ s, P s → Q (f s) s) (hkept : ∀ s, P s → E s) :
    Triple P (look f) Q E :=
  Triple.op hdone hkept hkept

theorem Triple.change {f : S → S} {R : Unit → S → Prop} (hdone : ∀ s, P s → R () (f s))
    (hkept : ∀ s, P s → E s) (hlost : ∀ s, P s → E (f s)) : Triple P (change f) R E :=
  Triple.op hdone hkept hlost

theorem Triple.lift {ε : Type} {x : Except ε α} (hok : ∀ a s, P s → Q a s)
    (hkept : ∀ s, P s → E s) : Triple P (lift x) Q E := by
  intro fates s hs
  cases x with
  | ok a => exact hok a s hs
  | error _ => exact hkept s hs

/-- **Standing by.** What the program leaves behind when it gives up is where the default
returns. -/
theorem Triple.orElse {a : α} (hm : Triple P m Q (Q a)) : Triple P (m.orElse a) Q E := by
  intro fates s hs
  have hrun := hm fates s hs
  unfold Faulty.orElse
  revert hrun
  rcases m fates s with ⟨_ | b, rest, s'⟩
  · exact fun hrun => hrun
  · exact fun hrun => hrun

/-! ## Runs that lose no report -/

/-- As a triple, over the runs in which no operation loses its report: what fails has left the
state alone. -/
def Reported (P : S → Prop) (m : Faulty S α) (Q : α → S → Prop) (E : S → Prop) : Prop :=
  ∀ fates s, Fate.lost ∉ fates → P s →
    match m fates s with
    | (some a, rest, s') => Fate.lost ∉ rest ∧ Q a s'
    | (none, rest, s') => Fate.lost ∉ rest ∧ E s'

theorem Reported.weaken (h : Reported P m Q E) (hP : ∀ s, P' s → P s)
    (hQ : ∀ a s, Q a s → Q' a s) (hE : ∀ s, E s → E' s) : Reported P' m Q' E' := by
  intro fates s hfates hs
  have hm := h fates s hfates (hP s hs)
  revert hm
  rcases m fates s with ⟨_ | a, rest, s'⟩
  · exact fun hm => ⟨hm.1, hE s' hm.2⟩
  · exact fun hm => ⟨hm.1, hQ a s' hm.2⟩

theorem Reported.assume {φ : Prop} (h : φ → Reported P m Q E) : Reported (fun s => P s ∧ φ) m Q E := by
  intro fates s hfates hs
  exact h hs.2 fates s hfates hs.1

theorem Reported.ret {a : α} (h : ∀ s, P s → Q a s) : Reported P (pure a) Q E := by
  intro fates s hfates hs
  exact ⟨hfates, h s hs⟩

theorem Reported.bind {R : β → S → Prop} {f : α → Faulty S β} (hm : Reported P m Q E)
    (hf : ∀ a, Reported (Q a) (f a) R E) : Reported P (m >>= f) R E := by
  intro fates s hfates hs
  have hfirst := hm fates s hfates hs
  show match Faulty.bind m f fates s with
    | (some a, rest, s') => Fate.lost ∉ rest ∧ R a s'
    | (none, rest, s') => Fate.lost ∉ rest ∧ E s'
  unfold Faulty.bind
  revert hfirst
  rcases m fates s with ⟨_ | a, rest, s'⟩
  · exact fun hfirst => hfirst
  · exact fun hfirst => hf a rest s' hfirst.1 hfirst.2

theorem Reported.op {f : S → α × S} (hdone : ∀ s, P s → Q (f s).1 (f s).2) (hkept : ∀ s, P s → E s) :
    Reported P (op f) Q E := by
  intro fates s hfates hs
  rcases fates with _ | ⟨_ | _ | _, fates⟩
  · exact ⟨hfates, hdone s hs⟩
  · exact ⟨List.not_mem_of_not_mem_cons hfates, hdone s hs⟩
  · exact ⟨List.not_mem_of_not_mem_cons hfates, hkept s hs⟩
  · exact absurd List.mem_cons_self hfates

theorem Reported.look {f : S → α} (hdone : ∀ s, P s → Q (f s) s) (hkept : ∀ s, P s → E s) :
    Reported P (look f) Q E :=
  Reported.op hdone hkept

theorem Reported.change {f : S → S} {R : Unit → S → Prop} (hdone : ∀ s, P s → R () (f s))
    (hkept : ∀ s, P s → E s) : Reported P (change f) R E :=
  Reported.op hdone hkept

theorem Reported.lift {ε : Type} {x : Except ε α} (hok : ∀ a s, x = .ok a → P s → Q a s)
    (hkept : ∀ s, P s → E s) : Reported P (lift x) Q E := by
  intro fates s hfates hs
  cases x with
  | ok a => exact ⟨hfates, hok a s rfl hs⟩
  | error _ => exact ⟨hfates, hkept s hs⟩

theorem Reported.orElse {a : α} (hm : Reported P m Q (Q a)) : Reported P (m.orElse a) Q E := by
  intro fates s hfates hs
  have hrun := hm fates s hfates hs
  unfold Faulty.orElse
  revert hrun
  rcases m fates s with ⟨_ | b, rest, s'⟩
  · exact fun hrun => hrun
  · exact fun hrun => hrun

end Faulty

end Devscout.Lib
