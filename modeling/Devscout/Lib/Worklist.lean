/-
# Devscout.Lib.Worklist -- cells that read one another

A store of cells in which each cell's value is computed from the others, and every
computation says under which keys it looked. Two loops bring such a store to rest. A
worklist evaluates queued cells and, when a value changes, queues again whoever looked
under that cell's key. A round evaluates every cell in turn, and rounds go on until one
changes nothing.

Neither loop need come to rest: the computations are arbitrary, so two cells may undo each
other for ever. Both are therefore cut off by a count, and the question about a cut is
always the same. The cut did no harm exactly when no evaluation after it would have
changed anything, and that is exactly when every cell holds what it computes.
-/

import Devscout.Lib.Saturate

namespace Devscout.Lib

/-! ## Computations that log where they looked -/

section Logs

variable {V Key α β : Type}

/-- A result, and the keys looked under on the way to it. -/
structure Logged (Key α : Type) where
  value : α
  keys : List Key

namespace Logged

instance : Monad (Logged Key) where
  pure a := ⟨a, []⟩
  bind x f := ⟨(f x.value).value, x.keys ++ (f x.value).keys⟩

/-- Looking under a key. -/
def look (k : Key) : Logged Key Unit := ⟨(), [k]⟩

@[simp] theorem value_pure (a : α) : (pure a : Logged Key α).value = a := rfl
@[simp] theorem keys_pure (a : α) : (pure a : Logged Key α).keys = [] := rfl

@[simp] theorem value_bind (x : Logged Key α) (f : α → Logged Key β) :
    (x >>= f).value = (f x.value).value := rfl

@[simp] theorem keys_bind (x : Logged Key α) (f : α → Logged Key β) :
    (x >>= f).keys = x.keys ++ (f x.value).keys := rfl

@[simp] theorem value_look (k : Key) : (look k).value = () := rfl
@[simp] theorem keys_look (k : Key) : (look k).keys = [k] := rfl

/-- Two stores agree on every cell that can be read under one of some keys. -/
def Agree (reads : Nat → Key → Prop) (keys : List Key) (values values' : List V) : Prop :=
  ∀ c k, reads c k → k ∈ keys → values'[c]? = values[c]?

theorem Agree.of_subset {reads : Nat → Key → Prop} {keys keys' : List Key} {values values' : List V}
    (h : Agree reads keys values values') (hsub : ∀ k ∈ keys', k ∈ keys) :
    Agree reads keys' values values' :=
  fun c k hc hk => h c k hc (hsub k hk)

/-- A computation over a store that depends on nothing but the cells under its keys. -/
def Framed (reads : Nat → Key → Prop) (f : List V → Logged Key α) : Prop :=
  ∀ values values', Agree reads (f values).keys values values' → f values' = f values

theorem framed_const (reads : Nat → Key → Prop) (x : Logged Key α) :
    Framed (V := V) reads fun _ => x :=
  fun _ _ _ => rfl

/-- What follows a framed computation may also depend on the cells it logged. -/
theorem Framed.bind_of {reads : Nat → Key → Prop} {f : List V → Logged Key α}
    {g : α → List V → Logged Key β} (hf : Framed reads f)
    (hg : ∀ values values', Agree reads (f values).keys values values' →
      Agree reads (g (f values).value values).keys values values' →
        g (f values).value values' = g (f values).value values) :
    Framed reads fun values => f values >>= fun a => g a values := by
  intro values values' hagree
  dsimp only at hagree ⊢
  rw [keys_bind] at hagree
  have hknown := hagree.of_subset fun k hk => List.mem_append_left _ hk
  have hfirst := hf values values' hknown
  have hrest := hg values values' hknown (hagree.of_subset fun k hk => List.mem_append_right _ hk)
  rw [hfirst]
  show Logged.mk (g (f values).value values').value ((f values).keys ++ (g (f values).value values').keys) = _
  rw [hrest]
  rfl

/-- Framed computations compose. -/
theorem Framed.bind {reads : Nat → Key → Prop} {f : List V → Logged Key α}
    {g : α → List V → Logged Key β} (hf : Framed reads f) (hg : ∀ a, Framed reads (g a)) :
    Framed reads fun values => f values >>= fun a => g a values :=
  hf.bind_of fun values values' _ hagree => hg (f values).value values values' hagree

theorem Framed.mono {reads reads' : Nat → Key → Prop} {f : List V → Logged Key α}
    (hf : Framed reads f) (hsub : ∀ c k, reads c k → reads' c k) : Framed reads' f :=
  fun values values' hagree => hf values values' fun c k hc => hagree c k (hsub c k hc)

end Logged

end Logs

/-- A sequence changes nowhere from `n` on exactly when it stays what it is at `n`. -/
theorem changes_lt_iff {α : Type} {f : Nat → α} {n : Nat} :
    (∀ m, f (m + 1) ≠ f m → m < n) ↔ ∀ k, f (n + k) = f n := by
  constructor
  · intro h k
    induction k with
    | zero => rfl
    | succ k ih =>
        have hstep : f (n + k + 1) = f (n + k) := by
          by_contra hne
          have hlt := h (n + k) hne
          omega
        rw [← Nat.add_assoc, hstep, ih]
  · intro h m hne
    by_contra hle
    obtain ⟨k, rfl⟩ := Nat.exists_eq_add_of_le (Nat.le_of_not_lt hle)
    exact hne ((h (k + 1)).trans (h k).symm)

/-! ## Networks of cells -/

section Cells

variable {V Key : Type} [DecidableEq V] [DecidableEq Key]

/-- The cells, each under a key, and what a cell computes over a store. -/
structure Network (V Key : Type) where
  keyOf : Nat → Key
  eval : List V → Nat → Logged Key V

namespace Network

variable (net : Network V Key)

/-- A cell holds what it computes. -/
def Settled (values : List V) (l : Nat) : Prop := values[l]? = some (net.eval values l).value

instance (values : List V) (l : Nat) : Decidable (net.Settled values l) :=
  inferInstanceAs (Decidable (_ = _))

/-- Each of these cells' computations depends only on the cells under the keys it looked
under. -/
def Framed (cells : List Nat) : Prop :=
  ∀ l ∈ cells, Logged.Framed (fun c k => net.keyOf c = k) fun values => net.eval values l

/-! ## The worklist -/

/-- The values so far, the cells waiting, and which cells have looked under which keys. -/
structure Worklist (V Key : Type) where
  values : List V
  queue : List Nat
  dependents : List (Key × Nat)

/-- Every cell waits, and none has been evaluated. -/
def start (values : List V) (cells : List Nat) : Worklist V Key :=
  { values, queue := cells, dependents := [] }

/-- Evaluate one cell. A changed value queues, in order, every cell that has looked under
this cell's key and is not waiting already. -/
def evaluate (w : Worklist V Key) (l : Nat) (rest : List Nat) : Worklist V Key :=
  let result := (net.eval w.values l).value
  let dependents := (net.eval w.values l).keys.map (·, l) ++ w.dependents
  if w.values[l]? = some result then { w with queue := rest, dependents }
  else
    let next := (List.range w.values.length).filter fun d => (net.keyOf l, d) ∈ dependents
    { values := w.values.set l result
      queue := rest ++ next.filter fun d => d ∉ rest
      dependents }

/-- At most `budget` evaluations, from the front of the queue. -/
def run : Nat → Worklist V Key → Worklist V Key
  | 0, w => w
  | budget + 1, w =>
      match w.queue with
      | [] => w
      | l :: rest => run budget (net.evaluate w l rest)

theorem run_of_queue_nil {w : Worklist V Key} (h : w.queue = []) (budget : Nat) :
    net.run budget w = w := by
  cases budget with
  | zero => rfl
  | succ budget => simp [run, h]

theorem run_succ_of_queue {w : Worklist V Key} {l : Nat} {rest : List Nat}
    (h : w.queue = l :: rest) (budget : Nat) :
    net.run (budget + 1) w = net.run budget (net.evaluate w l rest) := by
  simp [run, h]

/-- What holds of the values and survives every evaluation holds after a run. -/
theorem values_run_induct {P : List V → Prop}
    (hset : ∀ values l, P values → P (values.set l (net.eval values l).value)) {budget : Nat}
    {w : Worklist V Key} (h : P w.values) : P (net.run budget w).values := by
  induction budget generalizing w with
  | zero => exact h
  | succ budget ih =>
      cases hqueue : w.queue with
      | nil => rwa [net.run_of_queue_nil hqueue]
      | cons l rest =>
          rw [net.run_succ_of_queue hqueue]
          refine ih ?_
          unfold evaluate
          dsimp only
          split
          · exact h
          · exact hset w.values l h

theorem run_add (m n : Nat) (w : Worklist V Key) :
    net.run (m + n) w = net.run n (net.run m w) := by
  induction m generalizing w with
  | zero => rw [Nat.zero_add, run]
  | succ m ih =>
      rw [Nat.succ_add]
      cases hqueue : w.queue with
      | nil => rw [net.run_of_queue_nil hqueue, net.run_of_queue_nil hqueue,
          net.run_of_queue_nil hqueue]
      | cons l rest =>
          rw [net.run_succ_of_queue hqueue, net.run_succ_of_queue hqueue, ih]

section Evaluate

variable {net} {w : Worklist V Key} {l : Nat} {rest : List Nat}

theorem evaluate_settled (h : net.Settled w.values l) :
    net.evaluate w l rest =
      { w with queue := rest, dependents := (net.eval w.values l).keys.map (·, l) ++ w.dependents } := by
  unfold Settled at h
  simp [evaluate, h]

theorem dependents_evaluate :
    (net.evaluate w l rest).dependents =
      (net.eval w.values l).keys.map (·, l) ++ w.dependents := by
  unfold evaluate
  dsimp only
  split <;> rfl

theorem mem_dependents_evaluate {k : Key} {d : Nat} :
    (k, d) ∈ (net.evaluate w l rest).dependents ↔
      (k ∈ (net.eval w.values l).keys ∧ d = l) ∨ (k, d) ∈ w.dependents := by
  rw [dependents_evaluate, List.mem_append, List.mem_map]
  constructor
  · rintro (⟨k', hk', heq⟩ | h)
    · obtain ⟨rfl, rfl⟩ := Prod.mk.inj heq
      exact Or.inl ⟨hk', rfl⟩
    · exact Or.inr h
  · rintro (⟨hk, rfl⟩ | h)
    · exact Or.inl ⟨k, hk, rfl⟩
    · exact Or.inr h

theorem length_values_evaluate :
    (net.evaluate w l rest).values.length = w.values.length := by
  unfold evaluate
  dsimp only
  split
  · rfl
  · exact List.length_set

/-- A change queues whoever has looked under the changed cell's key. -/
theorem queue_evaluate (hl : ¬ net.Settled w.values l) :
    (net.evaluate w l rest).queue =
      rest ++ ((List.range w.values.length).filter fun d =>
        (net.keyOf l, d) ∈ (net.evaluate w l rest).dependents).filter fun d => d ∉ rest := by
  rw [dependents_evaluate]
  unfold Settled at hl
  simp [evaluate, hl]

theorem mem_queue_evaluate_of_rest {d : Nat} (h : d ∈ rest) :
    d ∈ (net.evaluate w l rest).queue := by
  by_cases hl : net.Settled w.values l
  · rw [evaluate_settled hl]
    exact h
  · rw [queue_evaluate hl]
    exact List.mem_append_left _ h

theorem mem_queue_evaluate {d : Nat} (hl : ¬ net.Settled w.values l) (hd : d < w.values.length)
    (hdep : (net.keyOf l, d) ∈ (net.evaluate w l rest).dependents) :
    d ∈ (net.evaluate w l rest).queue := by
  by_cases hrest : d ∈ rest
  · exact mem_queue_evaluate_of_rest hrest
  · rw [queue_evaluate hl]
    apply List.mem_append_right
    rw [List.mem_filter, List.mem_filter, List.mem_range]
    exact ⟨⟨hd, decide_eq_true hdep⟩, decide_eq_true hrest⟩

/-- An evaluation touches no value but the evaluated cell's. -/
theorem values_evaluate_other {c : Nat} (hc : c ≠ l) :
    (net.evaluate w l rest).values[c]? = w.values[c]? := by
  unfold evaluate
  dsimp only
  split
  · rfl
  · exact List.getElem?_set_ne (Ne.symm hc)

theorem values_evaluate_self (hl : l < w.values.length) :
    (net.evaluate w l rest).values[l]? = some (net.eval w.values l).value := by
  unfold evaluate
  dsimp only
  split
  · assumption
  · exact List.getElem?_set_self hl

end Evaluate

theorem length_values_run (budget : Nat) (w : Worklist V Key) :
    (net.run budget w).values.length = w.values.length := by
  induction budget generalizing w with
  | zero => rfl
  | succ budget ih =>
      cases hqueue : w.queue with
      | nil => rw [net.run_of_queue_nil hqueue]
      | cons l rest => rw [net.run_succ_of_queue hqueue, ih, length_values_evaluate]

/-! ## What the worklist keeps -/

/-- Every waiting cell is one of `cells`, and each of `cells` waits, or holds what it
computes and is on record under every key it looked under. -/
structure Tracked (cells : List Nat) (w : Worklist V Key) : Prop where
  bounded : ∀ l ∈ cells, l < w.values.length
  waiting : ∀ l ∈ w.queue, l ∈ cells
  recorded : ∀ e ∈ w.dependents, e.2 ∈ cells
  settled : ∀ l ∈ cells, l ∈ w.queue ∨
    (net.Settled w.values l ∧ ∀ k ∈ (net.eval w.values l).keys, (k, l) ∈ w.dependents)

variable {net}

omit [DecidableEq V] [DecidableEq Key] in
theorem tracked_start {values : List V} {cells : List Nat}
    (h : ∀ l ∈ cells, l < values.length) : net.Tracked cells (start values cells) where
  bounded := h
  waiting _ hl := hl
  recorded _ he := by cases he
  settled _ hl := Or.inl hl

section Tracked

variable {cells : List Nat} {w : Worklist V Key} {l : Nat} {rest : List Nat}

theorem Tracked.waiting_evaluate (h : net.Tracked cells w) (hqueue : w.queue = l :: rest)
    {d : Nat} (hd : d ∈ (net.evaluate w l rest).queue) : d ∈ cells := by
  have hrest : ∀ d ∈ rest, d ∈ cells := fun d hd =>
    h.waiting d (hqueue ▸ List.mem_cons_of_mem l hd)
  have hl : l ∈ cells := h.waiting l (hqueue ▸ List.mem_cons_self)
  have hrecorded : ∀ k, (k, d) ∈ (net.evaluate w l rest).dependents → d ∈ cells := by
    intro k hk
    rcases mem_dependents_evaluate.mp hk with ⟨_, rfl⟩ | hold
    · exact hl
    · exact h.recorded _ hold
  by_cases hsettled : net.Settled w.values l
  · rw [evaluate_settled hsettled] at hd
    exact hrest d hd
  · rw [queue_evaluate hsettled, List.mem_append, List.mem_filter, List.mem_filter] at hd
    rcases hd with hd | ⟨⟨_, hdep⟩, _⟩
    · exact hrest d hd
    · exact hrecorded (net.keyOf l) (of_decide_eq_true hdep)

/-- A cell that looked under nothing the evaluation changed computes what it did. -/
theorem eval_evaluate (rest : List Nat) (hframed : net.Framed cells) {d : Nat} (hd : d ∈ cells)
    (hkey : net.keyOf l ∉ (net.eval w.values d).keys) :
    net.eval (net.evaluate w l rest).values d = net.eval w.values d := by
  apply hframed d hd
  intro c k hc hk
  by_cases hcl : c = l
  · subst hcl
    subst hc
    exact absurd hk hkey
  · exact values_evaluate_other hcl

/-- The evaluated cell waits again, or it is settled and on record. -/
theorem Tracked.settled_self (hframed : net.Framed cells) (h : net.Tracked cells w) (hl : l ∈ cells) :
    l ∈ (net.evaluate w l rest).queue ∨
      (net.Settled (net.evaluate w l rest).values l ∧
        ∀ k ∈ (net.eval (net.evaluate w l rest).values l).keys,
          (k, l) ∈ (net.evaluate w l rest).dependents) := by
  have hbound := h.bounded l hl
  have hrecord : ∀ k ∈ (net.eval w.values l).keys, (k, l) ∈ (net.evaluate w l rest).dependents :=
    fun k hk => mem_dependents_evaluate.mpr (Or.inl ⟨hk, rfl⟩)
  by_cases hsettled : net.Settled w.values l
  · right
    have hvalues : (net.evaluate w l rest).values = w.values := by rw [evaluate_settled hsettled]
    rw [hvalues]
    exact ⟨hsettled, hrecord⟩
  · by_cases hkey : net.keyOf l ∈ (net.eval w.values l).keys
    · exact Or.inl (mem_queue_evaluate hsettled hbound (hrecord _ hkey))
    · right
      have heval := eval_evaluate rest hframed hl hkey
      unfold Settled
      rw [heval]
      exact ⟨values_evaluate_self hbound, hrecord⟩

/-- Another cell waits, or it is settled and on record still. -/
theorem Tracked.settled_other (hframed : net.Framed cells) (h : net.Tracked cells w)
    (hqueue : w.queue = l :: rest) {d : Nat} (hd : d ∈ cells) (hne : d ≠ l) :
    d ∈ (net.evaluate w l rest).queue ∨
      (net.Settled (net.evaluate w l rest).values d ∧
        ∀ k ∈ (net.eval (net.evaluate w l rest).values d).keys,
          (k, d) ∈ (net.evaluate w l rest).dependents) := by
  rcases h.settled d hd with hwait | ⟨hsettled, hrecord⟩
  · left
    have hrest : d ∈ rest := (List.mem_cons.mp (hqueue ▸ hwait)).resolve_left hne
    exact mem_queue_evaluate_of_rest hrest
  · have hkept : ∀ k ∈ (net.eval w.values d).keys, (k, d) ∈ (net.evaluate w l rest).dependents :=
      fun k hk => mem_dependents_evaluate.mpr (Or.inr (hrecord k hk))
    by_cases hl : net.Settled w.values l
    · right
      have hvalues : (net.evaluate w l rest).values = w.values := by rw [evaluate_settled hl]
      rw [hvalues]
      exact ⟨hsettled, hkept⟩
    · by_cases hkey : net.keyOf l ∈ (net.eval w.values d).keys
      · exact Or.inl (mem_queue_evaluate hl (h.bounded d hd) (hkept _ hkey))
      · right
        have heval := eval_evaluate rest hframed hd hkey
        unfold Settled at hsettled ⊢
        rw [heval, values_evaluate_other hne]
        exact ⟨hsettled, hkept⟩

/-- One evaluation keeps the record complete. -/
theorem Tracked.evaluate (hframed : net.Framed cells) (h : net.Tracked cells w)
    (hqueue : w.queue = l :: rest) : net.Tracked cells (net.evaluate w l rest) where
  bounded d hd := by
    rw [length_values_evaluate]
    exact h.bounded d hd
  waiting d hd := h.waiting_evaluate hqueue hd
  recorded e he := by
    obtain ⟨k, d⟩ := e
    rcases mem_dependents_evaluate.mp he with ⟨_, rfl⟩ | hold
    · exact h.waiting d (hqueue ▸ List.mem_cons_self)
    · exact h.recorded _ hold
  settled d hd := by
    by_cases hdl : d = l
    · subst hdl
      exact h.settled_self hframed hd
    · exact h.settled_other hframed hqueue hd hdl

/-- A run keeps the record complete. -/
theorem Tracked.run (hframed : net.Framed cells) (h : net.Tracked cells w) (budget : Nat) :
    net.Tracked cells (net.run budget w) := by
  induction budget generalizing w with
  | zero => exact h
  | succ budget ih =>
      cases hqueue : w.queue with
      | nil =>
          rw [net.run_of_queue_nil hqueue]
          exact h
      | cons l rest =>
          rw [net.run_succ_of_queue hqueue]
          exact ih (h.evaluate hframed hqueue)

/-! ## Rest -/

/-- Once every cell holds what it computes, no evaluation changes a value. -/
theorem Tracked.values_run_of_settled (hframed : net.Framed cells) (h : net.Tracked cells w)
    (hsettled : ∀ l ∈ cells, net.Settled w.values l) (k : Nat) :
    (net.run k w).values = w.values := by
  induction k generalizing w with
  | zero => rfl
  | succ k ih =>
      cases hqueue : w.queue with
      | nil => rw [net.run_of_queue_nil hqueue]
      | cons l rest =>
          have hl : l ∈ cells := h.waiting l (hqueue ▸ List.mem_cons_self)
          have hvalues : (net.evaluate w l rest).values = w.values := by
            rw [evaluate_settled (hsettled l hl)]
          rw [net.run_succ_of_queue hqueue, ih (h.evaluate hframed hqueue) (by rwa [hvalues]), hvalues]

/-- If no evaluation changes a value, every waiting cell holds what it computes. -/
theorem settled_of_values_run (hbounded : ∀ l ∈ w.queue, l < w.values.length)
    (hquiet : ∀ k, (net.run k w).values = w.values) : ∀ l ∈ w.queue, net.Settled w.values l := by
  obtain ⟨values, queue, dependents⟩ := w
  dsimp only at hbounded hquiet ⊢
  induction queue generalizing dependents with
  | nil => simp
  | cons l rest ih =>
      have hstep := fun k => net.run_succ_of_queue (w := ⟨values, l :: rest, dependents⟩) rfl k
      have hl : net.Settled values l := by
        have hself : (net.evaluate ⟨values, l :: rest, dependents⟩ l rest).values[l]? =
            some (net.eval values l).value := values_evaluate_self (hbounded l List.mem_cons_self)
        have hsame := hquiet 1
        rw [hstep 0, Network.run] at hsame
        rw [hsame] at hself
        exact hself
      have heval : net.evaluate ⟨values, l :: rest, dependents⟩ l rest =
          ⟨values, rest, (net.eval values l).keys.map (·, l) ++ dependents⟩ := evaluate_settled hl
      intro d hd
      rcases List.mem_cons.mp hd with rfl | hd
      · exact hl
      · refine ih ((net.eval values l).keys.map (·, l) ++ dependents) (fun d hd => hbounded d (List.mem_cons_of_mem l hd)) (fun k => ?_) d hd
        have hsame := hquiet (k + 1)
        rw [hstep k, heval] at hsame
        exact hsame

/-- **A budget does no harm exactly when the store is at rest.** After `budget` evaluations
every cell holds what it computes if and only if no larger budget gives other values. -/
theorem Tracked.run_settled_iff (hframed : net.Framed cells) (h : net.Tracked cells w) (budget : Nat) :
    (∀ l ∈ cells, net.Settled (net.run budget w).values l) ↔
      ∀ k, (net.run (budget + k) w).values = (net.run budget w).values := by
  have hrun := h.run hframed budget
  constructor
  · intro hsettled k
    rw [net.run_add]
    exact hrun.values_run_of_settled hframed hsettled k
  · intro hquiet l hl
    rcases hrun.settled l hl with hwait | ⟨hsettled, _⟩
    · refine settled_of_values_run (fun d hd => hrun.bounded d (hrun.waiting d hd)) ?_ l hwait
      intro k
      rw [← net.run_add]
      exact hquiet k
    · exact hsettled

end Tracked

/-! ## Rounds -/

variable (net)

/-- Evaluate a cell where it stands; nothing when it holds what it computes. -/
def visitCell (l : Nat) (values : List V) : Option (List V) :=
  if net.Settled values l then none else some (values.set l (net.eval values l).value)

/-- Rounds over the cells, until one changes nothing or `rounds` are over. -/
def rounds (cells : List Nat) (count : Nat) (values : List V) : List V :=
  saturate (visitAll net.visitCell cells) count values

variable {net}

omit [DecidableEq Key]

theorem visitCell_of_settled {l : Nat} {values : List V} (h : net.Settled values l) :
    net.visitCell l values = none := by
  unfold visitCell
  exact if_pos h

theorem visitCell_of_not_settled {l : Nat} {values : List V} (h : ¬ net.Settled values l) :
    net.visitCell l values = some (values.set l (net.eval values l).value) := by
  unfold visitCell
  exact if_neg h

/-- What holds of the values and survives every evaluation holds after any rounds. -/
theorem rounds_induct {P : List V → Prop}
    (hset : ∀ values l, P values → P (values.set l (net.eval values l).value)) {cells : List Nat}
    {count : Nat} {values : List V} (h : P values) : P (net.rounds cells count values) := by
  refine saturate_induct (fun s hs => visitAll_induct (fun l _ s t hvisit hs => ?_) hs) h
  by_cases hl : net.Settled s l
  · rw [visitCell_of_settled hl] at hvisit
    cases hvisit
  · rw [visitCell_of_not_settled hl] at hvisit
    cases hvisit
    exact hset s l hs

theorem visitOne_visitCell_other {acc : List V × Bool} {l c : Nat} (hc : c ≠ l) :
    (visitOne net.visitCell acc l).1[c]? = acc.1[c]? := by
  unfold visitOne
  by_cases hl : net.Settled acc.1 l
  · rw [visitCell_of_settled hl]
  · rw [visitCell_of_not_settled hl]
    exact List.getElem?_set_ne (Ne.symm hc)

variable (net) in
/-- A round touches no cell but its own. -/
theorem foldl_visitCell_other {cells : List Nat} {c : Nat} (hc : c ∉ cells)
    (acc : List V × Bool) : (cells.foldl (visitOne net.visitCell) acc).1[c]? = acc.1[c]? := by
  induction cells generalizing acc with
  | nil => rfl
  | cons l cells ih =>
      rw [List.mem_cons, not_or] at hc
      rw [List.foldl_cons, ih hc.2, visitOne_visitCell_other hc.1]

/-- Over cells that all hold what they compute, a round changes nothing and says so. -/
theorem foldl_visitCell_of_settled {cells : List Nat} (acc : List V × Bool)
    (h : ∀ l ∈ cells, net.Settled acc.1 l) : cells.foldl (visitOne net.visitCell) acc = acc := by
  induction cells with
  | nil => rfl
  | cons l cells ih =>
      have hl : visitOne net.visitCell acc l = acc := by
        unfold visitOne
        rw [visitCell_of_settled (h l List.mem_cons_self)]
      rw [List.foldl_cons, hl]
      exact ih fun d hd => h d (List.mem_cons_of_mem l hd)

/-- A round that gives the values back found every cell settled: each cell is visited
once, so what one visit changes no later visit undoes. -/
theorem settled_of_foldl_visitCell {cells : List Nat} (hnodup : cells.Nodup)
    (acc : List V × Bool) (hbounded : ∀ l ∈ cells, l < acc.1.length)
    (hsame : (cells.foldl (visitOne net.visitCell) acc).1 = acc.1) :
    ∀ l ∈ cells, net.Settled acc.1 l := by
  induction cells with
  | nil => simp
  | cons l cells ih =>
      obtain ⟨hnot, hnodup⟩ := List.nodup_cons.mp hnodup
      rw [List.foldl_cons] at hsame
      have hl : net.Settled acc.1 l := by
        by_contra hl
        have hvisit : (visitOne net.visitCell acc l).1 = acc.1.set l (net.eval acc.1 l).value := by
          unfold visitOne
          rw [visitCell_of_not_settled hl]
        have hafter := net.foldl_visitCell_other hnot (visitOne net.visitCell acc l)
        rw [hsame, hvisit, List.getElem?_set_self (hbounded l List.mem_cons_self)] at hafter
        exact hl hafter
      have hacc : visitOne net.visitCell acc l = acc := by
        unfold visitOne
        rw [visitCell_of_settled hl]
      rw [hacc] at hsame
      have hrest := ih hnodup (fun d hd => hbounded d (List.mem_cons_of_mem l hd)) hsame
      intro d hd
      rcases List.mem_cons.mp hd with rfl | hd
      · exact hl
      · exact hrest d hd

theorem length_rounds (cells : List Nat) (count : Nat) (values : List V) :
    (net.rounds cells count values).length = values.length := by
  refine saturate_induct (P := fun v : List V => v.length = values.length) (fun v hv => ?_) rfl
  refine visitAll_induct (P := fun v : List V => v.length = values.length) (fun l _ v v' hvisit hlen => ?_) hv
  by_cases hl : net.Settled v l
  · rw [visitCell_of_settled hl] at hvisit
    cases hvisit
  · rw [visitCell_of_not_settled hl, Option.some.injEq] at hvisit
    rw [← hvisit, List.length_set, hlen]

/-- Rounds touch no cell but those they are over. -/
theorem rounds_other {cells : List Nat} {c : Nat} (hc : c ∉ cells) (count : Nat)
    (values : List V) : (net.rounds cells count values)[c]? = values[c]? := by
  refine saturate_induct (P := fun v : List V => v[c]? = values[c]?) (fun v hv => ?_) rfl
  exact (net.foldl_visitCell_other hc (v, false)).trans hv

theorem rounds_of_settled {cells : List Nat} {values : List V}
    (h : ∀ l ∈ cells, net.Settled values l) (count : Nat) :
    net.rounds cells count values = values := by
  have hround : visitAll net.visitCell cells values = (values, false) :=
    foldl_visitCell_of_settled (values, false) h
  cases count with
  | zero => rfl
  | succ count => simp [rounds, saturate, hround]

theorem rounds_add (cells : List Nat) (m n : Nat) (values : List V) :
    net.rounds cells (m + n) values = net.rounds cells n (net.rounds cells m values) := by
  induction m generalizing values with
  | zero => rw [Nat.zero_add]; rfl
  | succ m ih =>
      rw [Nat.succ_add]
      unfold rounds
      rw [saturate, saturate]
      split
      · exact ih _
      · rename_i hquiet
        obtain ⟨hsame, hnone⟩ := visitAll_quiet (by simpa using hquiet)
        rw [hsame]
        symm
        apply rounds_of_settled
        intro l hl
        by_contra hnot
        have hl := hnone l hl
        rw [visitCell_of_not_settled hnot] at hl
        cases hl

variable (net) in
/-- **A count of rounds does no harm exactly when the cells are at rest.** After `count`
rounds every cell holds what it computes if and only if no further round changes a value. -/
theorem rounds_settled_iff {cells : List Nat} (hnodup : cells.Nodup) {values : List V}
    (hbounded : ∀ l ∈ cells, l < values.length) (count : Nat) :
    (∀ l ∈ cells, net.Settled (net.rounds cells count values) l) ↔
      ∀ k, net.rounds cells (count + k) values = net.rounds cells count values := by
  constructor
  · intro h k
    rw [rounds_add]
    exact rounds_of_settled h k
  · intro h
    have hone := h 1
    rw [rounds_add] at hone
    have hround : (visitAll net.visitCell cells (net.rounds cells count values)).1 =
        net.rounds cells count values := by
      have hstep : ∀ v, net.rounds cells 1 v = (visitAll net.visitCell cells v).1 := by
        intro v
        simp [rounds, saturate]
      rw [← hstep]
      exact hone
    refine settled_of_foldl_visitCell hnodup (net.rounds cells count values, false)
      (fun l hl => ?_) hround
    rw [length_rounds]
    exact hbounded l hl

end Network

end Cells

end Devscout.Lib
