/-
# Devscout.Hook.Delivered -- a stub stands for a text the agent has

Every digest in the databases stands for a text that some invocation let through, for
the same hook, session and agent. An invocation that goes on to record its own digest
will let its own text through, so while it runs the digest counts as given; one that
answers with a stub changes no digest of its own and found its ground in the ledger of
the invocations before it. Both hold whichever store operations fail, and with them the
invariant passes from one invocation to the next.
-/

import Devscout.Hook.Handlers

namespace Devscout.Hook

open Lib Lib.Faulty

/-- Two texts have the same bytes only if they are one text. -/
theorem asBytes_injective : Function.Injective asBytes := by
  intro a b h
  have hbytes : a.utf8Encode = b.utf8Encode := congrArg List.toByteArray h
  rw [← String.toByteArray_ofList, ← String.toByteArray_ofList, String.toByteArray_inj] at hbytes
  exact String.ofList_injective hbytes

/-- The text an invocation carries as a whole: a read that is no slice, the output of a
command that was not interrupted. -/
def wholeText (platform : Platform) (hook : HookKind) (input : Value) : Option Str :=
  match hook with
  | .read =>
      if isPartialRead platform input then none else extractText (field input "tool_response")
  | .bash =>
      (field input "tool_response").bind fun resp =>
        if isTrue (field resp "interrupted") then none else strField resp "stdout"

/-! ## Notes are no stubs -/

theorem not_isStub_none : ¬IsStub none := Bool.false_ne_true

/-- What an envelope says of the tool's output is what it was made with. -/
theorem isStub_envelope_iff {key : String} {v : Value} :
    IsStub (some (envelope key v)) ↔ "updatedToolOutput".toList = key.toList := by
  have hname : ("updatedToolOutput".toList == "hookEventName".toList) = false := by decide
  simp only [IsStub, envelope, object, field, Value.get, Value.asObject, List.map_cons, List.map_nil,
    Option.bind_some, Option.bind_eq_bind, List.lookup_cons, beq_self_eq_true]
  simp only [hname, List.lookup_nil]
  generalize "updatedToolOutput".toList = stub
  by_cases h : stub = key.toList
  · simp [h]
  · have hne : (stub == key.toList) = false := by simpa using h
    simp [h, hne]

theorem not_isStub_additionalContext (text : Str) : ¬IsStub (some (additionalContext text)) := by
  rw [additionalContext, isStub_envelope_iff]
  decide

theorem isStub_envelope (v : Value) : IsStub (some (envelope "updatedToolOutput" v)) :=
  isStub_envelope_iff.mpr rfl

theorem isStub_stubEnvelope (stubText : Str) (origFile : Option Value) (filePath : Str) (lines : Int) :
    IsStub (some (stubEnvelope stubText origFile filePath lines)) := by
  unfold stubEnvelope
  split
  · exact isStub_envelope _
  · exact isStub_envelope _
  · exact isStub_envelope _

section Notes

variable {Root : Type} {platform : Platform} {w : World Root} {root : Root} {filePath rel : Str}
  {input : Value} {answer : Option Value}

theorem not_isStub_offerAnswer : ¬IsStub (offerAnswer w root filePath rel input) := by
  unfold offerAnswer
  split
  · exact not_isStub_none
  · cases w.gitHead root with
    | none => exact not_isStub_none
    | some head =>
        show ¬IsStub ((w.offer root filePath rel head input).map additionalContext)
        cases w.offer root filePath rel head input with
        | none => exact not_isStub_none
        | some offer => exact not_isStub_additionalContext offer

theorem not_isStub_partialAnswer (h : partialAnswer platform w root filePath rel input = .ok answer) :
    ¬IsStub answer := by
  unfold partialAnswer at h
  cases hm : w.readManifest root with
  | error msg =>
      rw [hm] at h
      cases h
  | ok manifest =>
      rw [hm] at h
      cases manifest with
      | none =>
          cases h
          exact not_isStub_offerAnswer
      | some m =>
          change (if headMoved platform (w.gitHead root) m then pure none
            else pure (offerAnswer w root filePath rel input)) = Except.ok answer at h
          split at h
          · cases h
            exact not_isStub_none
          · cases h
            exact not_isStub_offerAnswer

theorem not_isStub_freshAnswer (h : freshAnswer platform w root filePath rel input = .ok answer) :
    ¬IsStub answer := by
  unfold freshAnswer at h
  cases hm : w.readManifest root with
  | error msg =>
      rw [hm] at h
      cases h
  | ok manifest =>
      rw [hm] at h
      cases manifest with
      | none =>
          cases h
          exact not_isStub_offerAnswer
      | some m =>
          change (if headMoved platform (w.gitHead root) m && !w.refreshNeeded root then
              (w.writeRefreshNeeded root >>= fun _ => pure (some manifestStale))
            else pure (offerAnswer w root filePath rel input)) = Except.ok answer at h
          split at h
          · cases hw : w.writeRefreshNeeded root with
            | error msg =>
                rw [hw] at h
                cases h
            | ok _ =>
                rw [hw] at h
                cases h
                exact not_isStub_additionalContext _
          · cases h
            exact not_isStub_offerAnswer

end Notes

/-! ## What one invocation does

`l` is the ledger of the invocations before, `l'` also has the text of this one. -/

/-- How a hook ends: in a stub on the grounds of the old ledger, every digest still backed
by it, or in no stub and with every digest backed by the new one. -/
def Ends {Root : Type} (l l' : Ledger) (grounds : Prop) (answer : Option Value) (s : Stores Root) :
    Prop :=
  IsStub answer ∧ Backed l s ∧ grounds ∨ ¬IsStub answer ∧ Backed l' s

section Invocation

variable {Root : Type} {platform : Platform} {w : World Root} {root : Root} {filePath : Str}
  {key : RowKey} {text hash rootStr rel : Str} {input resp : Value} {l l' : Ledger} {grounds : Prop}

/-- A stub ends the hook well where its grounds are there. -/
theorem triple_stub {stub : Value} (hstub : IsStub (some stub)) (hgrounds : grounds) :
    Triple (Backed l) (pure (some stub) : StoreM Root _) (Ends l l' grounds) (Backed l') :=
  Triple.ret fun _ h => Or.inl ⟨hstub, h, hgrounds⟩

/-- So does an answer computed without the databases that is no stub. -/
theorem triple_answer {ε : Type} {x : Except ε (Option Value)}
    (hx : ∀ answer, x = .ok answer → ¬IsStub answer) :
    Triple (Backed l') (lift x : StoreM Root _) (Ends l l' grounds) (Backed l') := by
  cases x with
  | ok answer => exact Triple.ret fun _ h => Or.inr ⟨hx answer rfl, h⟩
  | error msg => exact fun _ _ h => h

theorem triple_nothing (hl : l.Within l') :
    Triple (Backed l) (pure none : StoreM Root _) (Ends l l' grounds) (Backed l') :=
  Triple.ret fun _ h => Or.inr ⟨not_isStub_none, h.mono hl⟩

/-- **The content store.** It offers a stub only for a digest of the old ledger, and all it
may leave behind otherwise is the digest at hand. -/
theorem contentDedup_spec {size : Nat} {lines : Int} (hl : l.Within l')
    (hown : l' .read key.sessionId key.agentId hash) :
    Triple (Backed l) (contentDedup w key hash rootStr rel size lines)
      (fun stub s => stub.elim (Backed l' s) fun _ =>
        Backed l s ∧ l .read key.sessionId key.agentId hash)
      (fun _ => False) := by
  refine Triple.orElse ?_
  show Triple (Backed l) _ _ (Backed l')
  have hgiveUp : ∀ s : Stores Root, Backed l s → Backed l' s := fun _ h => h.mono hl
  refine Triple.bind (openStore_keeps.weaken (fun _ h => h) (fun _ _ h => h) hgiveUp) fun _ => ?_
  refine Triple.bind (lookupContent_finds.weaken (fun _ h => h) (fun _ _ h => h) hgiveUp) fun found => ?_
  refine Triple.assume fun hfound => ?_
  cases found with
  | none =>
      refine Triple.bind ((recordContent_keeps hown).weaken hgiveUp (fun _ _ h => h) fun _ h => h)
        fun _ => ?_
      exact Triple.ret fun _ h => h
  | some hit =>
      dsimp only
      split
      · exact Triple.ret hgiveUp
      · refine Triple.bind (bumpContentStub_keeps.weaken (fun _ h => h) (fun _ _ h => h) hgiveUp)
          fun _ => ?_
        exact Triple.ret fun _ h => ⟨h, hfound hit rfl⟩

variable [DecidableEq Root]

theorem handlePartialRead_spec (hl : l.Within l') :
    Triple (Backed l) (handlePartialRead platform w root filePath key text input)
      (Ends l l' grounds) (Backed l') := by
  refine Triple.weaken (P := Backed l') ?_ (fun _ h => h.mono hl) (fun _ _ h => h) (fun _ h => h)
  refine Triple.bind openStore_keeps fun _ => ?_
  refine Triple.bind recordSpend_keeps fun _ => ?_
  exact triple_answer fun _ => not_isStub_partialAnswer

theorem handleWholeRead_spec (hl : l.Within l')
    (hown : l' .read key.sessionId key.agentId (platform.sha256Hex (asBytes text))) :
    Triple (Backed l) (handleWholeRead platform w root filePath key text input)
      (Ends l l' (l .read key.sessionId key.agentId (platform.sha256Hex (asBytes text))))
      (Backed l') := by
  have hgiveUp : ∀ s : Stores Root, Backed l s → Backed l' s := fun _ h => h.mono hl
  unfold handleWholeRead
  dsimp only
  generalize hhash : platform.sha256Hex (asBytes text) = hash at hown ⊢
  refine Triple.bind (openStore_keeps.weaken (fun _ h => h) (fun _ _ h => h) hgiveUp) fun _ => ?_
  refine Triple.bind (lookupRead_finds.weaken (fun _ h => h) (fun _ _ h => h) hgiveUp) fun prior => ?_
  refine Triple.assume fun hprior => ?_
  split
  · rename_i hsame
    obtain ⟨row, hrow, hsha⟩ := Option.map_eq_some_iff.mp hsame
    -- the row without a digest is never the row of a text
    have hne : row.sha256 ≠ [] := by
      rw [hsha, ← hhash]
      exact platform.sha256Hex_ne_nil _
    have hgrounds := (hprior row hrow).resolve_left hne
    rw [hsha] at hgrounds
    refine Triple.bind (bumpStub_keeps.weaken (fun _ h => h) (fun _ _ h => h) hgiveUp) fun _ => ?_
    exact triple_stub (isStub_stubEnvelope _ _ _ _) hgrounds
  · refine Triple.bind ((contentDedup_spec hl hown).weaken (fun _ h => h) (fun _ _ h => h)
      fun _ h => h.elim) fun crossStub => ?_
    cases crossStub with
    | some stubText =>
        refine Triple.assume fun hgrounds => ?_
        refine Triple.bind ((recordFresh_keeps hgrounds).weaken (fun _ h => h) (fun _ _ h => h) hgiveUp)
          fun _ => ?_
        exact triple_stub (isStub_stubEnvelope _ _ _ _) hgrounds
    | none =>
        refine Triple.bind (recordFresh_keeps hown) fun _ => ?_
        exact triple_answer fun _ => not_isStub_freshAnswer

theorem handleCommand_spec {stdout : Str} (hl : l.Within l')
    (hown : l' .bash key.sessionId key.agentId (platform.sha256Hex (asBytes stdout))) :
    Triple (Backed l) (handleCommand platform root key resp stdout)
      (Ends l l' (l .bash key.sessionId key.agentId (platform.sha256Hex (asBytes stdout))))
      (Backed l') := by
  have hgiveUp : ∀ s : Stores Root, Backed l s → Backed l' s := fun _ h => h.mono hl
  unfold handleCommand
  dsimp only
  refine Triple.bind (openStore_keeps.weaken (fun _ h => h) (fun _ _ h => h) hgiveUp) fun _ => ?_
  refine Triple.bind (lookupBash_finds.weaken (fun _ h => h) (fun _ _ h => h) hgiveUp) fun prior => ?_
  refine Triple.assume fun hprior => ?_
  split
  · rename_i hsame
    obtain ⟨row, hrow, hsha⟩ := Option.map_eq_some_iff.mp hsame
    have hgrounds := hprior row hrow
    rw [hsha] at hgrounds
    refine Triple.bind (bumpBashStub_keeps.weaken (fun _ h => h) (fun _ _ h => h) hgiveUp) fun _ => ?_
    exact triple_stub (isStub_envelope _) hgrounds
  · refine Triple.bind ((recordBashFresh_keeps hown).weaken hgiveUp (fun _ _ h => h) fun _ h => h)
      fun _ => ?_
    exact Triple.ret fun _ h => Or.inr ⟨not_isStub_none, h⟩

/-- The text at hand and the grounds for a stub in place of it. -/
def Grounds (platform : Platform) (l : Ledger) (hook : HookKind) (input : Value) : Prop :=
  ∃ text, wholeText platform hook input = some text ∧
    l hook (sessionIdOf input) (agentScope input) (platform.sha256Hex (asBytes text))

/-- The new ledger has the text at hand. -/
def Owns (platform : Platform) (l : Ledger) (hook : HookKind) (input : Value) : Prop :=
  ∀ text, wholeText platform hook input = some text →
    l hook (sessionIdOf input) (agentScope input) (platform.sha256Hex (asBytes text))

omit [DecidableEq Root] in
theorem Ends.imp {grounds' : Prop} {answer : Option Value} {s : Stores Root}
    (himp : grounds → grounds') (h : Ends l l' grounds answer s) : Ends l l' grounds' answer s :=
  h.imp_left fun hstub => ⟨hstub.1, hstub.2.1, himp hstub.2.2⟩

/-- **The read hook.** -/
theorem handleRead_spec (hl : l.Within l') (hown : Owns platform l' .read input) :
    Triple (Backed l) (handleRead platform w input) (Ends l l' (Grounds platform l .read input))
      (Backed l') := by
  unfold handleRead
  split
  · rename_i filePath text hfile htext
    split
    · exact triple_nothing hl
    · rename_i root hroot
      by_cases hpartial : isPartialRead platform input = true
      · rw [if_pos hpartial]
        exact handlePartialRead_spec hl
      · have hwhole : wholeText platform .read input = some text := by
          show (if isPartialRead platform input then none
            else extractText (field input "tool_response")) = some text
          rw [if_neg hpartial, htext]
        rw [if_neg hpartial]
        refine (handleWholeRead_spec hl (hown text hwhole)).weaken (fun _ h => h) ?_ (fun _ h => h)
        exact fun _ _ => Ends.imp fun hgrounds => ⟨text, hwhole, hgrounds⟩
  · exact triple_nothing hl

/-- **The bash hook.** -/
theorem handleBash_spec (hl : l.Within l') (hown : Owns platform l' .bash input) :
    Triple (Backed l) (handleBash platform w input) (Ends l l' (Grounds platform l .bash input))
      (Backed l') := by
  unfold handleBash
  dsimp only
  split
  · rename_i command resp stdout hcommand hresp hstdout
    split
    · exact triple_nothing hl
    · rename_i hpassed
      split
      · exact triple_nothing hl
      · rename_i root hroot
        have hwhole : wholeText platform .bash input = some stdout := by
          have hinterrupted : isTrue (field resp "interrupted") = false := by
            simp only [passedOver, Bool.or_eq_true, not_or, Bool.not_eq_true] at hpassed
            exact hpassed.1.1.1
          rw [hresp] at hstdout
          simp only [wholeText, hresp, Option.bind_some, hinterrupted, Bool.false_eq_true, if_false]
          exact hstdout
        refine (handleCommand_spec hl (hown stdout hwhole)).weaken (fun _ h => h) ?_ (fun _ h => h)
        exact fun _ _ => Ends.imp fun hgrounds => ⟨stdout, hwhole, hgrounds⟩
  · exact triple_nothing hl

end Invocation

/-! ## Runs -/

section Runs

variable {Root : Type} [DecidableEq Root] (platform : Platform)

/-- One call of a hook: what it was handed, nothing when that did not parse, and what the
world around it does meanwhile. -/
structure Invocation (Root : Type) where
  hook : HookKind
  payload : Option Value
  world : World Root

/-- An invocation with the output it ended in. -/
structure Exchange (Root : Type) where
  invocation : Invocation Root
  answer : Option Value

/-- `run_read` and `run_bash`. -/
def Invocation.handle (i : Invocation Root) : StoreM Root (Option Value) :=
  match i.payload with
  | none => pure none
  | some input =>
      match i.hook with
      | .read => handleRead platform i.world input
      | .bash => handleBash platform i.world input

/-- The output and the databases afterwards; an error is no output. -/
def Invocation.serve (i : Invocation Root) (s : Stores Root) : Option Value × Stores Root :=
  match i.handle platform i.world.fates s with
  | (answer, _, s') => (answer.join, s')

/-- Invocations one after the other, with what they were answered. -/
def run : List (Invocation Root) → Stores Root → List (Exchange Root) × Stores Root
  | [], s => ([], s)
  | i :: is, s =>
      let (answer, s') := i.serve platform s
      let (exchanges, s'') := run is s'
      (⟨i, answer⟩ :: exchanges, s'')

/-- The invocation carries the text as a whole, for that hook, session and agent. -/
def Invocation.Carries (i : Invocation Root) (hook : HookKind) (session agent text : Str) : Prop :=
  i.hook = hook ∧ ∃ input, i.payload = some input ∧ sessionIdOf input = session ∧
    agentScope input = agent ∧ wholeText platform hook input = some text

/-- The text went through to the agent: the invocation carried it and ended in no stub. -/
def Exchange.Delivered (e : Exchange Root) (hook : HookKind) (session agent text : Str) : Prop :=
  e.invocation.Carries platform hook session agent text ∧ ¬IsStub e.answer

/-- The digests of the texts delivered so far. -/
def ledgerOf (past : List (Exchange Root)) : Ledger := fun hook session agent sha =>
  ∃ e ∈ past, ∃ text, e.Delivered platform hook session agent text ∧
    sha = platform.sha256Hex (asBytes text)

variable {platform} {past : List (Exchange Root)} {i : Invocation Root} {s : Stores Root}

/-- An error is an answer without a stub. -/
theorem ends_serve {l l' : Ledger} {grounds : Prop}
    (hspec : Triple (Backed l) (i.handle platform) (Ends l l' grounds) (Backed l'))
    (h : Backed l s) : Ends l l' grounds (i.serve platform s).1 (i.serve platform s).2 := by
  have hrun := hspec i.world.fates s h
  unfold Invocation.serve
  revert hrun
  rcases i.handle platform i.world.fates s with ⟨_ | answer, fates, s'⟩
  · exact fun hrun => Or.inr ⟨not_isStub_none, hrun⟩
  · exact fun hrun => hrun

/-- What either hook does, in the words of the invocation. -/
theorem handle_spec {l l' : Ledger} (hl : l.Within l')
    (hown : ∀ hook session agent text, i.Carries platform hook session agent text →
      l' hook session agent (platform.sha256Hex (asBytes text))) :
    Triple (Backed l) (i.handle platform)
      (Ends l l' (∃ hook session agent text, i.Carries platform hook session agent text ∧
        l hook session agent (platform.sha256Hex (asBytes text)))) (Backed l') := by
  unfold Invocation.handle
  split
  · exact triple_nothing hl
  · rename_i input hinput
    have howns : Owns platform l' i.hook input := by
      intro text htext
      exact hown i.hook _ _ text ⟨rfl, input, hinput, rfl, rfl, htext⟩
    have hgrounds : Grounds platform l i.hook input → ∃ hook session agent text,
        i.Carries platform hook session agent text ∧
        l hook session agent (platform.sha256Hex (asBytes text)) := by
      rintro ⟨text, htext, hsha⟩
      exact ⟨i.hook, _, _, text, ⟨rfl, input, hinput, rfl, rfl, htext⟩, hsha⟩
    split
    · rename_i hhook
      rw [hhook] at howns hgrounds
      exact (handleRead_spec hl howns).weaken (fun _ h => h) (fun _ _ => Ends.imp hgrounds) fun _ h => h
    · rename_i hhook
      rw [hhook] at howns hgrounds
      exact (handleBash_spec hl howns).weaken (fun _ h => h) (fun _ _ => Ends.imp hgrounds) fun _ h => h

/-- **One invocation** keeps the digests backed, and gives a stub only in place of a text
whose digest was delivered before. -/
theorem serve_spec (h : Backed (ledgerOf platform past) s) :
    Backed (ledgerOf platform (past ++ [⟨i, (i.serve platform s).1⟩])) (i.serve platform s).2 ∧
      (IsStub (i.serve platform s).1 → ∃ hook session agent text,
        i.Carries platform hook session agent text ∧
        ledgerOf platform past hook session agent (platform.sha256Hex (asBytes text))) := by
  -- while it runs, the text at hand counts as delivered
  let l' : Ledger := fun hook session agent sha =>
    ledgerOf platform past hook session agent sha ∨
      ∃ text, i.Carries platform hook session agent text ∧ sha = platform.sha256Hex (asBytes text)
  have hspec : Triple (Backed (ledgerOf platform past)) (i.handle platform) _ (Backed l') :=
    handle_spec (fun _ _ _ _ => Or.inl) fun _ _ _ text hcarries => Or.inr ⟨text, hcarries, rfl⟩
  have hpast : (ledgerOf platform past).Within
      (ledgerOf platform (past ++ [⟨i, (i.serve platform s).1⟩])) := by
    rintro hook session agent sha ⟨e, he, hdelivered⟩
    exact ⟨e, List.mem_append_left _ he, hdelivered⟩
  rcases ends_serve hspec h with ⟨hstub, hbacked, hgrounds⟩ | ⟨hstub, hbacked⟩
  · exact ⟨hbacked.mono hpast, fun _ => hgrounds⟩
  · refine ⟨hbacked.mono ?_, fun h => absurd h hstub⟩
    rintro hook session agent sha (hsha | ⟨text, hcarries, hsha⟩)
    · exact hpast hook session agent sha hsha
    · exact ⟨_, List.mem_append_right _ (List.mem_singleton_self _), text, ⟨hcarries, hstub⟩, hsha⟩

/-- **A run** from a past that backs the databases: a stub in it stands for a digest
delivered before it, in that past or in the run. -/
theorem run_spec {invocations : List (Invocation Root)} {k : Nat} {e : Exchange Root}
    (h : Backed (ledgerOf platform past) s) (he : (run platform invocations s).1[k]? = some e)
    (hstub : IsStub e.answer) : ∃ hook session agent text,
      e.invocation.Carries platform hook session agent text ∧
      ledgerOf platform (past ++ (run platform invocations s).1.take k) hook session agent
        (platform.sha256Hex (asBytes text)) := by
  induction invocations generalizing past s k with
  | nil => simp [run] at he
  | cons i is ih =>
      obtain ⟨hbacked, hgrounds⟩ := serve_spec (i := i) h
      have hsplit : run platform (i :: is) s =
          (⟨i, (i.serve platform s).1⟩ :: (run platform is (i.serve platform s).2).1,
            (run platform is (i.serve platform s).2).2) := rfl
      rw [hsplit] at he ⊢
      cases k with
      | zero =>
          obtain rfl := Option.some.inj he
          rw [List.take_zero, List.append_nil]
          exact hgrounds hstub
      | succ k =>
          rw [List.take_succ_cons, List.append_cons]
          exact ih hbacked he

/-- **A stub hides nothing.** Whatever invocations run in whatever order, with whatever
store operations failing: one answered by a stub carried a text that an earlier one, of
the same hook, session and agent, had carried as a whole and let through. -/
theorem stub_was_delivered (hinjective : Function.Injective platform.sha256Hex)
    (invocations : List (Invocation Root)) (k : Nat) (e : Exchange Root)
    (he : (run platform invocations Stores.empty).1[k]? = some e) (hstub : IsStub e.answer) :
    ∃ hook session agent text, e.invocation.Carries platform hook session agent text ∧
      ∃ earlier ∈ (run platform invocations Stores.empty).1.take k,
        earlier.Delivered platform hook session agent text := by
  have hempty : Backed (ledgerOf platform ([] : List (Exchange Root))) (Stores.empty : Stores Root) :=
    Backed.empty
  obtain ⟨hook, session, agent, text, hcarries, earlier, hearlier, given, hgiven, hsha⟩ :=
    run_spec hempty he hstub
  obtain rfl : text = given := asBytes_injective (hinjective hsha)
  exact ⟨hook, session, agent, text, hcarries, earlier, hearlier, hgiven⟩

end Runs

/-! ## A file read twice -/

/-- The digest of `abc`; any other text has its bytes for a digest. -/
def abcPlatform : Platform where
  sha256Hex bytes :=
    if bytes = asBytes "abc".toList then
      "ba7816bf8f01cfea414140de5dae2223b00361a396177a9cb410ff61f20015ad".toList
    else '#' :: bytes.map Char.ofUInt8
  sha256Hex_ne_nil := by
    intro bytes
    split
    · decide
    · exact List.cons_ne_nil _ _
  lt
    | .int m, .int n => decide (m < n)
    | _, _ => false
  toI64 _ := 0
  nonzero _ := true

theorem abcPlatform_injective : Function.Injective abcPlatform.sha256Hex := by
  have hchar : Function.Injective Char.ofUInt8 := by
    intro a b h
    have hval : a.toUInt32 = b.toUInt32 := congrArg Char.val h
    exact UInt8.toUInt32_inj.mp hval
  intro a b h
  simp only [abcPlatform] at h
  split at h
  · rename_i ha
    split at h
    · rename_i hb
      rw [ha, hb]
    · simp at h
  · split at h
    · simp at h
    · exact hchar.list_map (List.cons.inj h).2

/-- One repository without a manifest, and no offers. -/
def plainWorld (fates : List Fate) : World Unit where
  findScoutRoot _ := some ()
  relPath _ path := path
  toStringLossy _ := "/repo".toList
  currentDir := "/".toList
  contentDbPath := "/content.db".toList
  gitHead _ := none
  readManifest _ := .ok none
  refreshNeeded _ := false
  writeRefreshNeeded _ := .ok ()
  offer _ _ _ _ _ := none
  fates := fates

/-- A read of one file whose text is `abc`. -/
def abcRead (fates : List Fate) : Invocation Unit where
  hook := .read
  payload := some (object
    [("session_id", string "s1"),
     ("tool_input", object [("file_path", string "/repo/a.txt")]),
     ("tool_response", object [("file", object [("content", string "abc")])])])
  world := plainWorld fates

/-- The second read is answered by a stub although the content store was out of reach at
the first, and the first let the text through. -/
theorem reread_was_delivered :
    ∃ hook session agent text, (abcRead []).Carries abcPlatform hook session agent text ∧
      ∃ earlier ∈ (run abcPlatform [abcRead [.done, .done, .refused], abcRead []]
        Stores.empty).1.take 1, earlier.Delivered abcPlatform hook session agent text :=
  stub_was_delivered abcPlatform_injective
    [abcRead [.done, .done, .refused], abcRead []] 1 ⟨abcRead [], _⟩ rfl (by decide +kernel)

end Devscout.Hook
