/-
# Devscout.Lib.Atomic -- programs of atomic observations and writes

A program here is a finite tree of atomic actions over a shared world: it looks
at the world, or it performs one write, and every action is one indivisible
step. Between two actions anything the environment is allowed to do may happen.

Four readings of one program live in this module:

    Step     one action at a time, for systems that interleave several programs;
    Exec     a whole run among an environment, for reading off what it saw when;
    Safe     a rely/guarantee triple: whatever the environment does within `R`,
             every write obeys `G` and a completed run ends in `Q`;
    trace    the quiet run, in which nothing else moves; its writes are a list,
             so a run that dies part way performed a prefix of that list.

`Safe` is the weakest precondition of the first two readings and the quiet run is
the one under the identity environment, so a fact proved once about a program is
available in every setting it runs in.
-/

import Mathlib

namespace Devscout.Lib.Atomic

/-- A program over a world `W`: it returns, gives up with a message, looks at the
whole world once, or performs one write. A `tag` names the observation, so that
a system can tell one kind of look from another. -/
inductive Prog (W Tag Op α : Type) : Type
  | ret (a : α)
  | fail (msg : List Char)
  | look (tag : Tag) (k : W → Prog W Tag Op α)
  | put (op : Op) (next : Prog W Tag Op α)

namespace Prog

variable {W Tag Op α β γ ι : Type}

/-- Sequencing: the second program starts where the first one returned. -/
def bind : Prog W Tag Op α → (α → Prog W Tag Op β) → Prog W Tag Op β
  | ret a, f => f a
  | fail msg, _ => fail msg
  | look tag k, f => look tag fun w => (k w).bind f
  | put op p, f => put op (p.bind f)

instance : Monad (Prog W Tag Op) where
  pure := ret
  bind := bind

@[simp] theorem pure_eq (a : α) : (pure a : Prog W Tag Op α) = ret a := rfl
@[simp] theorem ret_bind (a : α) (f : α → Prog W Tag Op β) : ret a >>= f = f a := rfl
@[simp] theorem fail_bind (msg : List Char) (f : α → Prog W Tag Op β) :
    fail msg >>= f = fail msg := rfl
@[simp] theorem look_bind (tag : Tag) (k : W → Prog W Tag Op α) (f : α → Prog W Tag Op β) :
    look tag k >>= f = look tag fun w => k w >>= f := rfl
@[simp] theorem put_bind (op : Op) (p : Prog W Tag Op α) (f : α → Prog W Tag Op β) :
    put op p >>= f = put op (p >>= f) := rfl

theorem bind_assoc (p : Prog W Tag Op α) (f : α → Prog W Tag Op β)
    (g : β → Prog W Tag Op γ) : p >>= f >>= g = p >>= fun a => f a >>= g := by
  induction p with
  | ret a => rfl
  | fail msg => rfl
  | look tag k ih => simp only [look_bind, ih]
  | put op p ih => simp only [put_bind, ih]

theorem bind_ret (p : Prog W Tag Op α) : p >>= ret = p := by
  induction p with
  | ret a => rfl
  | fail msg => rfl
  | look tag k ih => simp only [look_bind, ih]
  | put op p ih => simp only [put_bind, ih]

instance : LawfulMonad (Prog W Tag Op) :=
  LawfulMonad.mk' _ (fun p => bind_ret p) (fun _ _ => rfl) bind_assoc

/-- One observation. -/
def read (tag : Tag) (f : W → α) : Prog W Tag Op α := look tag fun w => ret (f w)

/-- One write. -/
def write (op : Op) : Prog W Tag Op Unit := put op (ret ())

/-- One observation that may refuse: an error gives the whole program up. -/
def readOr (tag : Tag) (f : W → Except (List Char) α) : Prog W Tag Op α :=
  look tag fun w =>
    match f w with
    | .ok a => ret a
    | .error msg => fail msg

/-- One observation for each element, in order, each at a moment of its own. -/
def readEach (tag : Tag) (f : ι → W → α) : List ι → Prog W Tag Op (List α)
  | [] => ret []
  | x :: xs => look tag fun w => (readEach tag f xs).bind fun ys => ret (f x w :: ys)

/-- The program at a wider world, of which it sees a part. -/
def through {W' Tag' : Type} (view : W' → W) (tag : Tag → Tag') : Prog W Tag Op α → Prog W' Tag' Op α
  | ret a => ret a
  | fail msg => fail msg
  | look t k => look (tag t) fun w => (k (view w)).through view tag
  | put op p => put op (p.through view tag)

/-- Whatever it observes, the program observes and writes only what `tags` and
`ops` allow. -/
def Within (tags : Tag → Prop) (ops : Op → Prop) : Prog W Tag Op α → Prop
  | ret _ => True
  | fail _ => True
  | look tag k => tags tag ∧ ∀ w, Within tags ops (k w)
  | put op p => ops op ∧ Within tags ops p

/-- The program performs no write. -/
def Silent : Prog W Tag Op α → Prop := Within (fun _ => True) (fun _ => False)

/-- A write of the `final` kind is the last action of the program. -/
def Closing (final : Op → Prop) : Prog W Tag Op α → Prop
  | ret _ => True
  | fail _ => True
  | look _ k => ∀ w, Closing final (k w)
  | put op p => (final op → ∃ a, p = .ret a) ∧ Closing final p

variable {tags tags' : Tag → Prop} {ops ops' : Op → Prop}

/-- A program that writes nothing of that kind may go before. -/
theorem Closing.bind {final : Op → Prop} {p : Prog W Tag Op α} {f : α → Prog W Tag Op β}
    (hp : p.Within (fun _ => True) (fun op => ¬final op)) (hf : ∀ a, (f a).Closing final) :
    (p >>= f).Closing final := by
  induction p with
  | ret a => exact hf a
  | fail msg => trivial
  | look tag k ih => exact fun w => ih w (hp.2 w)
  | put op p ih => exact ⟨fun h => absurd h hp.1, ih hp.2⟩

theorem Within.mono {p : Prog W Tag Op α} (htags : ∀ t, tags t → tags' t)
    (hops : ∀ op, ops op → ops' op) (h : p.Within tags ops) : p.Within tags' ops' := by
  induction p with
  | ret a => trivial
  | fail msg => trivial
  | look tag k ih => exact ⟨htags _ h.1, fun w => ih w (h.2 w)⟩
  | put op p ih => exact ⟨hops _ h.1, ih h.2⟩

theorem Within.bind {p : Prog W Tag Op α} {f : α → Prog W Tag Op β} (hp : p.Within tags ops)
    (hf : ∀ a, (f a).Within tags ops) : (p >>= f).Within tags ops := by
  induction p with
  | ret a => exact hf a
  | fail msg => trivial
  | look tag k ih => exact ⟨hp.1, fun w => ih w (hp.2 w)⟩
  | put op p ih => exact ⟨hp.1, ih hp.2⟩

theorem within_read {tag : Tag} (h : tags tag) (f : W → α) :
    (read tag f : Prog W Tag Op α).Within tags ops := ⟨h, fun _ => trivial⟩

theorem within_readOr {tag : Tag} (h : tags tag) (f : W → Except (List Char) α) :
    (readOr tag f : Prog W Tag Op α).Within tags ops := by
  refine ⟨h, fun w => ?_⟩
  dsimp only
  cases f w <;> trivial

theorem within_readEach {tag : Tag} (h : tags tag) (f : ι → W → α) (xs : List ι) :
    (readEach tag f xs : Prog W Tag Op (List α)).Within tags ops := by
  induction xs with
  | nil => trivial
  | cons x xs ih => exact ⟨h, fun w => Within.bind ih fun _ => trivial⟩

/-- A program that writes nothing writes nothing at a wider world. -/
theorem Silent.through {W' Tag' : Type} (view : W' → W) (tag : Tag → Tag') {p : Prog W Tag Op α}
    (hp : p.Silent) : (p.through view tag).Silent := by
  induction p with
  | ret a => trivial
  | fail msg => trivial
  | look t k ih => exact ⟨trivial, fun w => ih (view w) (hp.2 (view w))⟩
  | put op p ih => exact hp.1.elim

theorem within_write {op : Op} (h : ops op) : (write op : Prog W Tag Op Unit).Within tags ops :=
  ⟨h, trivial⟩

theorem silent_readEach (tag : Tag) (f : ι → W → α) (xs : List ι) :
    (readEach tag f xs : Prog W Tag Op (List α)).Silent :=
  within_readEach trivial f xs

end Prog

/-! ## Rely and guarantee -/

/-- How actions move a state. A program observes a view of the state; a write moves
the state, and an observation moves at most bookkeeping that no view shows. -/
structure Sem (S W Tag Op : Type) where
  view : S → W
  see : Tag → S → S
  apply : Op → S → S

/-- The world itself as the state: observations leave no trace. -/
def Sem.plain {W Op : Type} (Tag : Type) (apply : Op → W → W) : Sem W W Tag Op where
  view := id
  see := fun _ w => w
  apply := apply

/-- A state seen through a view by a program that moves nothing. -/
def Sem.watching {S W : Type} (Tag Op : Type) (view : S → W) : Sem S W Tag Op where
  view := view
  see := fun _ s => s
  apply := fun _ s => s

section Safe

variable {S W Tag Op α β ι : Type} (M : Sem S W Tag Op) (R : S → S → Prop) (G : S → Op → Prop)

/-- From `s`, with the environment moving the state within `R` before every
action, each write happens in a state `G` allows and a completed run ends in
`Q`. -/
def Safe (Q : α → S → Prop) : Prog W Tag Op α → S → Prop
  | .ret a, s => ∀ s', R s s' → Q a s'
  | .fail _, _ => True
  | .look tag k, s => ∀ s', R s s' → Safe Q (k (M.view s')) (M.see tag s')
  | .put op p, s => ∀ s', R s s' → G s' op ∧ Safe Q p (M.apply op s')

variable {M R G}

/-- What holds whatever the environment does holds after it did something. -/
theorem Safe.env (htrans : ∀ a b c, R a b → R b c → R a c) {Q : α → S → Prop}
    {p : Prog W Tag Op α} {s s' : S} (h : Safe M R G Q p s) (hR : R s s') :
    Safe M R G Q p s' := by
  cases p with
  | ret a => exact fun s'' hs => h s'' (htrans _ _ _ hR hs)
  | fail msg => trivial
  | look tag k => exact fun s'' hs => h s'' (htrans _ _ _ hR hs)
  | put op p => exact fun s'' hs => h s'' (htrans _ _ _ hR hs)

theorem Safe.mono {Q Q' : α → S → Prop} (hQ : ∀ a s, Q a s → Q' a s) {p : Prog W Tag Op α}
    {s : S} (h : Safe M R G Q p s) : Safe M R G Q' p s := by
  induction p generalizing s with
  | ret a => exact fun s' hs => hQ a s' (h s' hs)
  | fail msg => trivial
  | look tag k ih => exact fun s' hs => ih _ (h s' hs)
  | put op p ih => exact fun s' hs => ⟨(h s' hs).1, ih (h s' hs).2⟩

theorem Safe.bind (hrefl : ∀ s, R s s) {Q : β → S → Prop} {p : Prog W Tag Op α}
    {f : α → Prog W Tag Op β} {s : S}
    (h : Safe M R G (fun a s' => Safe M R G Q (f a) s') p s) :
    Safe M R G Q (p >>= f) s := by
  induction p generalizing s with
  | ret a => exact h s (hrefl s)
  | fail msg => trivial
  | look tag k ih => exact fun s' hs => ih _ (h s' hs)
  | put op p ih => exact fun s' hs => ⟨(h s' hs).1, ih (h s' hs).2⟩

/-- **The confinement rule.** A program keeps whatever the environment and each of
the actions it is confined to keep. -/
theorem Prog.Within.safe {tags : Tag → Prop} {ops : Op → Prop} {I : S → Prop}
    (henv : ∀ s s', I s → R s s' → I s') (hsee : ∀ tag s, tags tag → I s → I (M.see tag s))
    (hput : ∀ op s, ops op → I s → G s op ∧ I (M.apply op s))
    {p : Prog W Tag Op α} (hp : p.Within tags ops) {s : S} (hI : I s) :
    Safe M R G (fun _ => I) p s := by
  induction p generalizing s with
  | ret a => exact fun s' hs => henv s s' hI hs
  | fail msg => trivial
  | look tag k ih =>
      exact fun s' hs => ih _ (hp.2 _) (hsee tag s' hp.1 (henv s s' hI hs))
  | put op p ih =>
      intro s' hs
      obtain ⟨hG, hI'⟩ := hput op s' hp.1 (henv s s' hI hs)
      exact ⟨hG, ih hp.2 hI'⟩

/-- A look whose answer does not matter keeps what the environment and looks keep. -/
theorem safe_read_keep {I : S → Prop} (henv : ∀ s s', I s → R s s' → I s')
    (hsee : ∀ tag s, I s → I (M.see tag s)) {Q : β → S → Prop} {tag : Tag} {f : W → α}
    {g : α → Prog W Tag Op β} {s : S} (hI : I s) (h : ∀ a s', I s' → Safe M R G Q (g a) s') :
    Safe M R G Q (Prog.read tag f >>= g) s :=
  fun s' hs => h _ _ (hsee tag s' (henv s s' hI hs))

theorem safe_readOr_keep {I : S → Prop} (henv : ∀ s s', I s → R s s' → I s')
    (hsee : ∀ tag s, I s → I (M.see tag s)) {Q : β → S → Prop} {tag : Tag}
    {f : W → Except (List Char) α} {g : α → Prog W Tag Op β} {s : S} (hI : I s)
    (h : ∀ a s', I s' → Safe M R G Q (g a) s') : Safe M R G Q (Prog.readOr tag f >>= g) s := by
  intro s' hs
  dsimp only [Prog.readOr]
  cases f (M.view s') with
  | ok a => exact h a _ (hsee tag s' (henv s s' hI hs))
  | error msg => trivial

end Safe

/-! ## One action at a time -/

section Step

variable {S W Tag Op α β : Type} (M : Sem S W Tag Op) (R : S → S → Prop)

/-- One action of one program. -/
inductive Step : Prog W Tag Op α × S → Prog W Tag Op α × S → Prop
  | look (tag : Tag) (k : W → Prog W Tag Op α) (s : S) :
      Step (.look tag k, s) (k (M.view s), M.see tag s)
  | put (op : Op) (p : Prog W Tag Op α) (s : S) : Step (.put op p, s) (p, M.apply op s)

/-- A whole run among an environment that moves within `R` between any two
actions. -/
inductive Exec : Prog W Tag Op α → S → α → S → Prop
  | ret {a : α} {s s' : S} : R s s' → Exec (.ret a) s a s'
  | look {tag : Tag} {k : W → Prog W Tag Op α} {s s' s'' : S} {a : α} :
      R s s' → Exec (k (M.view s')) (M.see tag s') a s'' → Exec (.look tag k) s a s''
  | put {op : Op} {p : Prog W Tag Op α} {s s' s'' : S} {a : α} :
      R s s' → Exec p (M.apply op s') a s'' → Exec (.put op p) s a s''

variable {M R} {G : S → Op → Prop}

theorem Safe.step (hrefl : ∀ s, R s s) {Q : α → S → Prop} {p p' : Prog W Tag Op α} {s s' : S}
    (h : Safe M R G Q p s) (hs : Step M (p, s) (p', s')) : Safe M R G Q p' s' := by
  cases hs with
  | look tag k => exact h s (hrefl s)
  | put op => exact (h s (hrefl s)).2

theorem Safe.exec {Q : α → S → Prop} {p : Prog W Tag Op α} {s s' : S} {a : α}
    (h : Safe M R G Q p s) (hrun : Exec M R p s a s') : Q a s' := by
  induction hrun with
  | ret hR => exact h _ hR
  | look hR _ ih => exact ih (h _ hR)
  | put hR _ ih => exact ih (h _ hR).2

theorem exec_ret {a b : α} {s s' : S} : Exec M R (.ret a) s b s' ↔ a = b ∧ R s s' := by
  constructor
  · rintro ⟨hR⟩
    exact ⟨rfl, hR⟩
  · rintro ⟨rfl, hR⟩
    exact .ret hR

theorem exec_read_bind {tag : Tag} {f : W → β} {g : β → Prog W Tag Op α} {s s'' : S} {a : α} :
    Exec M R (Prog.read tag f >>= g) s a s'' ↔
      ∃ s', R s s' ∧ Exec M R (g (f (M.view s'))) (M.see tag s') a s'' := by
  constructor
  · intro h
    cases h with
    | look hR hrest => exact ⟨_, hR, hrest⟩
  · rintro ⟨s', hR, hrest⟩
    exact .look hR hrest

theorem not_exec_fail {msg : List Char} {s s' : S} {a : α} :
    ¬Exec M R (.fail msg : Prog W Tag Op α) s a s' := nofun

/-- A sequence is its first half, then its second half from where that ended. -/
theorem Exec.of_bind (hrefl : ∀ s, R s s) {p : Prog W Tag Op β} {g : β → Prog W Tag Op α}
    {s s'' : S} {a : α} (h : Exec M R (p >>= g) s a s'') :
    ∃ b s', Exec M R p s b s' ∧ Exec M R (g b) s' a s'' := by
  induction p generalizing s with
  | ret b => exact ⟨b, s, .ret (hrefl s), h⟩
  | fail msg => exact absurd h not_exec_fail
  | look tag k ih =>
      cases h with
      | look hR hrest =>
          obtain ⟨b, s', hp, hg⟩ := ih _ hrest
          exact ⟨b, s', .look hR hp, hg⟩
  | put op p ih =>
      cases h with
      | put hR hrest =>
          obtain ⟨b, s', hp, hg⟩ := ih hrest
          exact ⟨b, s', .put hR hp, hg⟩

theorem Exec.env (htrans : ∀ a b c, R a b → R b c → R a c) {p : Prog W Tag Op α} {s s' s'' : S}
    {a : α} (h : Exec M R p s a s') (hR : R s' s'') : Exec M R p s a s'' := by
  induction h with
  | ret h => exact .ret (htrans _ _ _ h hR)
  | look h _ ih => exact .look h (ih hR)
  | put h _ ih => exact .put h (ih hR)

/-- While a watching program runs only the environment moves the state. -/
theorem Exec.reaches {view : S → W} (htrans : ∀ a b c, R a b → R b c → R a c)
    {p : Prog W Tag Op α} {s s' : S} {a : α} (h : Exec (Sem.watching Tag Op view) R p s a s') :
    R s s' := by
  induction h with
  | ret hR => exact hR
  | look hR _ ih => exact htrans _ _ _ hR ih
  | put hR _ ih => exact htrans _ _ _ hR ih

end Step

/-! ## Quiet runs -/

section Quiet

variable {W Tag Op α β ι : Type} (apply : Op → W → W)

/-- The world after a list of writes. -/
def applyAll (ops : List Op) (w : W) : W := ops.foldl (fun w op => apply op w) w

/-- The writes of a run nothing interferes with, and what it returned. -/
def trace : Prog W Tag Op α → W → List Op × Option α
  | .ret a, _ => ([], some a)
  | .fail _, _ => ([], none)
  | .look _ k, w => trace (k w) w
  | .put op p, w =>
      let rest := trace p (apply op w)
      (op :: rest.1, rest.2)

/-- The world a quiet run that dies after `n` writes leaves behind. -/
def crash (n : Nat) (p : Prog W Tag Op α) (w : W) : W :=
  applyAll apply ((trace apply p w).1.take n) w

/-- The world a quiet run leaves behind. -/
def exec (p : Prog W Tag Op α) (w : W) : W := applyAll apply (trace apply p w).1 w

variable {apply}

@[simp] theorem applyAll_nil (w : W) : applyAll apply [] w = w := rfl
@[simp] theorem applyAll_cons (op : Op) (ops : List Op) (w : W) :
    applyAll apply (op :: ops) w = applyAll apply ops (apply op w) := rfl

theorem applyAll_append (xs ys : List Op) (w : W) :
    applyAll apply (xs ++ ys) w = applyAll apply ys (applyAll apply xs w) :=
  List.foldl_append ..

@[simp] theorem trace_ret (a : α) (w : W) :
    trace apply (.ret a : Prog W Tag Op α) w = ([], some a) := rfl
@[simp] theorem trace_fail (msg : List Char) (w : W) :
    trace apply (.fail msg : Prog W Tag Op α) w = ([], none) := rfl
@[simp] theorem trace_look (tag : Tag) (k : W → Prog W Tag Op α) (w : W) :
    trace apply (.look tag k) w = trace apply (k w) w := rfl
@[simp] theorem trace_put (op : Op) (p : Prog W Tag Op α) (w : W) :
    trace apply (.put op p) w =
      (op :: (trace apply p (apply op w)).1, (trace apply p (apply op w)).2) := rfl

/-- The run of a sequence is the run of its first half, followed, when that one
returned, by the run of the second half from where it ended. -/
theorem trace_bind (p : Prog W Tag Op α) (f : α → Prog W Tag Op β) (w : W) :
    trace apply (p >>= f) w =
      match (trace apply p w).2 with
      | none => ((trace apply p w).1, none)
      | some a =>
          ((trace apply p w).1 ++ (trace apply (f a) (exec apply p w)).1,
            (trace apply (f a) (exec apply p w)).2) := by
  induction p generalizing w with
  | ret a => rfl
  | fail msg => rfl
  | look tag k ih => exact ih w w
  | put op p ih =>
      rw [Prog.put_bind, trace_put, ih]
      cases h : (trace apply p (apply op w)).2 <;> simp [h, exec]

theorem Prog.Silent.trace_fst {p : Prog W Tag Op α} (hp : p.Silent) (w : W) :
    (trace apply p w).1 = [] := by
  induction p with
  | ret a => rfl
  | fail msg => rfl
  | look tag k ih => exact ih w (hp.2 w)
  | put op p ih => exact hp.1.elim

theorem Prog.Silent.exec_eq {p : Prog W Tag Op α} (hp : p.Silent) (w : W) :
    exec apply p w = w := by
  rw [exec, hp.trace_fst w, applyAll_nil]

@[simp] theorem trace_readEach (tag : Tag) (f : ι → W → α) (xs : List ι) (w : W) :
    trace apply (Prog.readEach tag f xs : Prog W Tag Op (List α)) w =
      ([], some (xs.map fun x => f x w)) := by
  induction xs with
  | nil => rfl
  | cons x xs ih =>
      have hsilent : (Prog.readEach tag f xs : Prog W Tag Op (List α)).Silent :=
        Prog.silent_readEach tag f xs
      change trace apply (Prog.readEach tag f xs >>= fun ys => Prog.ret (f x w :: ys)) w = _
      rw [trace_bind, ih]
      simp [hsilent.exec_eq]

@[simp] theorem trace_read_bind (tag : Tag) (f : W → β) (g : β → Prog W Tag Op α) (w : W) :
    trace apply (Prog.read tag f >>= g) w = trace apply (g (f w)) w := rfl

@[simp] theorem trace_write_bind (op : Op) (g : Unit → Prog W Tag Op α) (w : W) :
    trace apply (Prog.write op >>= g) w =
      (op :: (trace apply (g ()) (apply op w)).1, (trace apply (g ()) (apply op w)).2) := rfl

theorem trace_readEach_bind (tag : Tag) (f : ι → W → β) (xs : List ι)
    (g : List β → Prog W Tag Op α) (w : W) :
    trace apply (Prog.readEach tag f xs >>= g) w = trace apply (g (xs.map fun x => f x w)) w := by
  have hsilent : (Prog.readEach tag f xs : Prog W Tag Op (List β)).Silent :=
    Prog.silent_readEach tag f xs
  rw [trace_bind, trace_readEach]
  simp [hsilent.exec_eq]

theorem trace_readOr_bind (tag : Tag) (f : W → Except (List Char) β) (g : β → Prog W Tag Op α)
    {w : W} {b : β} (h : f w = .ok b) :
    trace apply (Prog.readOr tag f >>= g) w = trace apply (g b) w := by
  simp only [Prog.readOr, Prog.look_bind, trace_look, h, Prog.ret_bind]

/-- A quiet run past a refusing observation returned only if that one did. -/
theorem trace_readOr_bind_eq_some {tag : Tag} {f : W → Except (List Char) β}
    {g : β → Prog W Tag Op α} {w : W} {a : α} :
    (trace apply (Prog.readOr tag f >>= g) w).2 = some a ↔
      ∃ b, f w = .ok b ∧ (trace apply (g b) w).2 = some a := by
  cases h : f w with
  | ok b =>
      rw [trace_readOr_bind tag f g h]
      simp
  | error msg => simp [Prog.readOr, h]

/-- In a world that stands still a program that writes nothing has one run. -/
theorem Exec.of_trace {S : Type} {view : S → W} {R : S → S → Prop} (hrefl : ∀ s, R s s)
    {p : Prog W Tag Op α} (hp : p.Silent) {s : S} {a : α}
    (h : (trace apply p (view s)).2 = some a) : Exec (Sem.watching Tag Op view) R p s a s := by
  induction p with
  | ret b =>
      cases h
      exact .ret (hrefl s)
  | fail msg => cases h
  | look tag k ih => exact .look (hrefl s) (ih _ (hp.2 _) h)
  | put op p ih => exact hp.1.elim

/-- **Crash safety from the triple.** Under the identity environment every prefix
of a safe program's writes is a prefix of writes `G` allows, so an invariant `G`
carries over each single write holds wherever the run dies. -/
theorem Safe.crash {G : W → Op → Prop} {Q : α → W → Prop} {I : W → Prop}
    (hG : ∀ w op, I w → G w op → I (apply op w)) {p : Prog W Tag Op α} {w : W}
    (h : Safe (Sem.plain Tag apply) Eq G Q p w) (hI : I w) (n : Nat) : I (crash apply n p w) := by
  induction p generalizing w n with
  | ret a => simpa [Atomic.crash] using hI
  | fail msg => simpa [Atomic.crash] using hI
  | look tag k ih => exact ih w (h w rfl) hI n
  | put op p ih =>
      cases n with
      | zero => simpa [Atomic.crash] using hI
      | succ n =>
          have hput := h w rfl
          exact ih hput.2 (hG w op hI hput.1) n

end Quiet

end Devscout.Lib.Atomic
