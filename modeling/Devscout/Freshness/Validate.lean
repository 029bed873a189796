/-
# Devscout.Freshness.Validate -- the query side of freshness

One validation for each query: `begin` snapshots the record before the query
opens an artifact, `finish` asks Git what changed, compares the candidates by
their bytes and closes the bracket by reading the record and both identities
again. Three caps bound the work; past one the verdict is `unknown`.

A query is a program of single observations like a run is, so anything may happen
between two of them. It writes nothing.
-/

import Devscout.Freshness.Status

namespace Devscout

open Lib Lib.Text Lib.Files Lib.Atomic

variable {F : Facts} (E : Engine F)

/-- The most candidate paths one validation hashes. -/
def CANDIDATE_PATH_CAP : Nat := 2048

/-- The most candidate bytes one validation reads. -/
def CANDIDATE_BYTE_CAP : Nat := 16 * 1024 * 1024

inductive UnknownReason where
  | noIndexState
  | gitUnavailable
  | otherWorktree
  | validationBudget
  | indexChanged
  deriving DecidableEq

inductive FreshnessState where
  | fresh
  | stale (indexedHead currentHead : Str) (changedFiles : Nat)
  | unknown (reason : UnknownReason)
  deriving DecidableEq

/-- A verdict that speaks for the index, one way or the other. -/
def FreshnessState.verified : FreshnessState → Bool
  | .unknown _ => false
  | _ => true

/-- The verdict with the stderr line that belongs to it. -/
structure Validation where
  state : FreshnessState
  warning : Option Str
  deriving DecidableEq

/-! ## The stderr lines -/

def repoId (root : Root) : Str := root.comps.getLastD "repo".toList

def indexFor (repo : Str) : Str := "devscout: index for ".toList ++ repo

def staleLine (repo indexedHead currentHead : Str) (changed : Nat) : Str :=
  indexFor repo ++ " is stale (indexed at ".toList ++ indexedHead.take 7 ++ ", HEAD ".toList ++
    currentHead.take 7 ++ "; ".toList ++ (toString changed).toList ++
    " changed files) — rebuild with devscout map".toList

def otherWorktreeLine (repo : Str) : Str :=
  indexFor repo ++ " was built in another worktree — run devscout map here to use it".toList

def indexChangedLine (repo : Str) : Str :=
  indexFor repo ++ (" changed while this query ran, or a map is running or was interrupted" ++
    " — re-run the query, or rebuild with devscout map").toList

def validationBudgetLine (repo : Str) : Str :=
  "devscout: freshness of the index for ".toList ++ repo ++
    (" could not be verified (more changes than the check reads)" ++
      " — rebuild with devscout map").toList

def uncertifiableLine (repo : Str) : Str :=
  indexFor repo ++ (" has no freshness record this version can verify" ++
    " — rebuild with devscout map").toList

def unknown (reason : UnknownReason) (warning : Option Str) : Validation :=
  ⟨.unknown reason, warning⟩

def indexChanged (root : Root) : Validation :=
  unknown .indexChanged (some (indexChangedLine (repoId root)))

def overBudget (root : Root) : Validation :=
  unknown .validationBudget (some (validationBudgetLine (repoId root)))

/-! ## The stages of `finish` -/

/-- The record arms that decide before any Git work. -/
def certifiableRecord (wt : Worktree) (asking : Option Str) :
    RecordState → Except Validation Record
  | .missing => .error (unknown .noIndexState none)
  | .uncertifiable => .error (unknown .noIndexState (some (uncertifiableLine (repoId wt.root))))
  | .inProgress _ => .error (indexChanged wt.root)
  | .published record =>
      if wt.owner = some record.owner ∧ asking = some record.owner then .ok record
      else .error (unknown .otherWorktree (some (otherWorktreeLine (repoId wt.root))))

/-- `status_pathspecs`. -/
def statusPathspecs (record : Record) : List Str :=
  scopePathspecs record.scope ++ configPathspecs record.scope ++
    record.configInputs.keys.map (literalMagic ++ ·)

/-- The candidate paths: the relevant ones Git reports and the ones the run
recorded as already changed. -/
def candidatesOf (root : Root) (record : Record) (status : Except StatusError (List Str)) :
    Except Validation (List Str) :=
  match status with
  | .error .gitUnavailable => .error (unknown .gitUnavailable none)
  | .error .budgetExceeded => .error (overBudget root)
  | .ok paths =>
      let candidates :=
        (paths.filter (isRelevant · record.scope) ++ record.dirtyAtMap.getD []).dedup
      if CANDIDATE_PATH_CAP < candidates.length then .error (overBudget root) else .ok candidates

/-- The size of what is there when it is a regular file itself. -/
def regularSize (fs : Dir) (path : List Str) : Nat :=
  match lstat fs path with
  | some (.file bytes _) => bytes.length
  | _ => 0

def isRegular (fs : Dir) (path : List Str) : Bool :=
  match lstat fs path with
  | some (.file _ _) => true
  | _ => false

structure CandidateRead where
  path : Str
  digest : Option Str
  bytes : Option Nat
  regular : Bool
  deriving DecidableEq

/-- `read_candidate`. -/
def readCandidate (root : Root) (rel : Str) (fs : Dir) : CandidateRead :=
  let path := root.join rel
  let read := readFile fs path
  ⟨rel, read.map E.sha256Hex, read.map List.length, isRegular fs path⟩

/-- `recorded_digest`: a configuration input's digest is in the record, any other
path's in the table. -/
def recordedDigest (record : Record) (digests : Option DigestTable) (rel : Str) : Option Str :=
  if isConfigInput rel record.scope then record.configInputs.get? rel
  else digests.bind fun table => table.files.get? rel

/-- Whether a candidate differs from what the index recorded. -/
def differs (record : Record) (digests : Option DigestTable) (read : CandidateRead) : Bool :=
  match recordedDigest record digests read.path with
  | some expected => !(read.regular && read.digest == some expected)
  | none => read.regular

/-- `read_digests`: the table, if its file stayed the same file while it was read. -/
def readDigests : MapProg F (Option DigestTable) := do
  let before ← Prog.read .digestsBefore fun w => w.store.digests.map Stamped.ident
  let text ← Prog.read .digestsText fun w => w.store.digests.map Stamped.content
  let after ← Prog.read .digestsAfter fun w => w.store.digests.map Stamped.ident
  pure (if before.isNone || before != after then none else text)

/-- `changed_candidates`, or nothing past the byte cap. -/
def changedCandidates (root : Root) (record : Record) (digests : Option DigestTable)
    (candidates : List Str) : MapProg F (Option Nat) := do
  let sizes ← Prog.readEach .candidateSize
    (fun rel (w : World F) => regularSize w.fs.dir (root.join rel)) candidates
  if CANDIDATE_BYTE_CAP < sizes.sum then pure none
  else do
    let reads ← Prog.readEach .candidate
      (fun rel (w : World F) => readCandidate E root rel w.fs.dir) candidates
    if CANDIDATE_BYTE_CAP < (reads.filterMap CandidateRead.bytes).sum then pure none
    else pure (some (reads.countP (differs record digests)))

/-- `end_changed`: the record and the two artifacts, read again. -/
def endChanged (record : Record) : MapProg F Bool := do
  let closing ← Prog.read .endRecord fun w => w.store.readRecord
  match closing with
  | .published last =>
      if last.generation = record.generation then do
        let graph ← Prog.read .endGraph fun w => w.store.graphIdentity
        if graph ≠ record.artifacts.graph then pure true
        else do
          let manifest ← Prog.read .endManifest fun w => w.store.manifestIdentity
          pure (manifest != record.artifacts.manifest)
      else pure true
  | _ => pure true

/-- A verdict and the digest table it was reached with. -/
structure Finished where
  validation : Validation
  digests : Option DigestTable

/-- The verdict once the bracket has closed. -/
def verdict (root : Root) (record : Record) (head : Str) (changed : Nat) : Validation :=
  if record.indexedHead = some head ∧ changed = 0 then ⟨.fresh, none⟩
  else
    let indexedHead := record.indexedHead.getD []
    ⟨.stale indexedHead head changed,
      some (staleLine (repoId root) indexedHead head changed)⟩

/-- The stages of `finish` that follow the candidates. -/
def compareAndClose (root : Root) (record : Record) (head : Str) (candidates : List Str)
    (digests : Option DigestTable) : MapProg F Finished := do
  match ← changedCandidates E root record digests candidates with
  | none => pure ⟨overBudget root, digests⟩
  | some changed =>
      if ← endChanged record then pure ⟨indexChanged root, digests⟩
      else pure ⟨verdict root record head changed, digests⟩

/-- `finish` for a record that passed the first arms. -/
def finishRecord (root : Root) (record : Record) : MapProg F Finished := do
  let head ← Prog.read .queryHead fun w => E.gitHead w.fs.dir (w.git root) root
  match head with
  | none => pure ⟨unknown .gitUnavailable none, none⟩
  | some head => do
      let status ← Prog.read .queryStatus fun w =>
        gitStatusPaths E w.fs.dir (w.git root) root (statusPathspecs record) (some STATUS_ENTRY_CAP)
      match candidatesOf root record status with
      | .error validation => pure ⟨validation, none⟩
      | .ok candidates =>
          -- a clean tree opens no digest table at all
          if candidates.isEmpty then compareAndClose E root record head candidates none
          else do
            match ← readDigests with
            | none => pure ⟨indexChanged root, none⟩
            | some table =>
                if table.generation = record.generation then
                  compareAndClose E root record head candidates (some table)
                else pure ⟨indexChanged root, none⟩

/-- `Begin::finish`. -/
def finish (wt : Worktree) (asking : Option Str) (snapshot : RecordState) :
    MapProg F Finished :=
  match certifiableRecord wt asking snapshot with
  | .error validation => pure ⟨validation, none⟩
  | .ok record => finishRecord E wt.root record

/-- What one query saw: the record, the two artifact files it opened, the verdict. -/
structure Answer (F : Facts) where
  snapshot : RecordState
  graph : Option (StateFile (Graph F))
  manifest : Option (StateFile Value)
  finished : Finished

/-- A query: `begin`, its two artifacts, `finish`. -/
def query (wt : Worktree) (asking : Option Str) : MapProg F (Answer F) := do
  let snapshot ← Prog.read .beginRecord fun w => w.store.readRecord
  let graph ← Prog.read .queryGraph fun w => w.store.graph
  let manifest ← Prog.read .queryManifest fun w => w.store.manifest
  let finished ← finish E wt asking snapshot
  pure ⟨snapshot, graph, manifest, finished⟩

/-- A published record is what the slot holds. -/
theorem content_of_readRecord {store : Store F} {r : Record}
    (h : store.readRecord = .published r) :
    store.record.map Stamped.content = some (.published r) := by
  simp only [Store.readRecord] at h
  split at h
  · cases h
  · rename_i file hfile
    split at h
    · cases h
    · rename_i record hcontent
      split at h
      · cases h
        simp [hfile, hcontent]
      · cases h
    · cases h

/-! ## A query writes nothing -/

theorem silent_endChanged (record : Record) : (endChanged record : MapProg F Bool).Silent := by
  refine Prog.Within.bind (Prog.within_read trivial _) fun closing => ?_
  split
  · split
    · refine Prog.Within.bind (Prog.within_read trivial _) fun graph => ?_
      split
      · trivial
      · exact Prog.Within.bind (Prog.within_read trivial _) fun _ => trivial
    · trivial
  · trivial

theorem silent_compareAndClose (root : Root) (record : Record) (head : Str) (candidates : List Str)
    (digests : Option DigestTable) :
    (compareAndClose E root record head candidates digests).Silent := by
  refine Prog.Within.bind ?_ fun changed => ?_
  · refine Prog.Within.bind (Prog.within_readEach trivial _ _) fun sizes => ?_
    split
    · trivial
    · refine Prog.Within.bind (Prog.within_readEach trivial _ _) fun reads => ?_
      split <;> trivial
  · cases changed with
    | none => trivial
    | some changed =>
        refine Prog.Within.bind (silent_endChanged record) fun ended => ?_
        cases ended <;> trivial

theorem silent_finishRecord (root : Root) (record : Record) :
    (finishRecord E root record).Silent := by
  refine Prog.Within.bind (Prog.within_read trivial _) fun head => ?_
  cases head with
  | none => trivial
  | some head =>
      refine Prog.Within.bind (Prog.within_read trivial _) fun status => ?_
      split
      · trivial
      · split
        · exact silent_compareAndClose E root record head _ none
        · refine Prog.Within.bind ?_ fun table => ?_
          · iterate 3 refine Prog.Within.bind (Prog.within_read trivial _) fun _ => ?_
            trivial
          · cases table with
            | none => trivial
            | some table =>
                dsimp only
                split
                · exact silent_compareAndClose E root record head _ (some table)
                · trivial

theorem silent_query (wt : Worktree) (asking : Option Str) : (query E wt asking).Silent := by
  iterate 3 refine Prog.Within.bind (Prog.within_read trivial _) fun _ => ?_
  refine Prog.Within.bind ?_ fun _ => trivial
  rw [finish]
  split
  · trivial
  · exact silent_finishRecord E wt.root _

/-! ## What a verified query saw -/

section Bracket

variable {E} {S : Type} {view : S → World F} {R : S → S → Prop} {root : Root} {record : Record}
  {s s' : S}

theorem candidatesOf_error {status : Except StatusError (List Str)} {validation : Validation}
    (h : candidatesOf root record status = .error validation) :
    validation.state.verified = false := by
  rcases status with (_ | _) | paths
  · cases h
    rfl
  · cases h
    rfl
  · simp only [candidatesOf] at h
    split at h
    · cases h
      rfl
    · cases h

theorem certifiableRecord_error {wt : Worktree} {asking : Option Str} {snapshot : RecordState}
    {validation : Validation} (h : certifiableRecord wt asking snapshot = .error validation) :
    validation.state.verified = false := by
  cases snapshot with
  | published record =>
      simp only [certifiableRecord] at h
      split at h
      · cases h
      · cases h
        rfl
  | _ =>
      cases h
      rfl

/-- Only a published record of the asking worktree goes on to the checks. -/
theorem certifiableRecord_ok {wt : Worktree} {asking : Option Str} {snapshot : RecordState}
    (h : certifiableRecord wt asking snapshot = .ok record) :
    snapshot = .published record ∧ wt.owner = some record.owner ∧ asking = some record.owner := by
  cases snapshot with
  | published r =>
      simp only [certifiableRecord] at h
      split at h
      · rename_i howner
        cases h
        exact ⟨rfl, howner⟩
      · cases h
  | _ => cases h

/-- An unchanged ending saw the record's own two identities. -/
theorem exec_endChanged
    (h : Exec (Sem.watching Look (WriteOp F) view) R (endChanged record) s false s') :
    ∃ s₁ s₂ s₃, R s s₁ ∧ R s₁ s₂ ∧ R s₂ s₃ ∧ R s₃ s' ∧
      (view s₂).store.graphIdentity = record.artifacts.graph ∧
      (view s₃).store.manifestIdentity = record.artifacts.manifest := by
  obtain ⟨s₁, h₁, h⟩ := exec_read_bind.mp h
  refine ⟨s₁, ?_⟩
  split at h
  · split at h
    · obtain ⟨s₂, h₂, h⟩ := exec_read_bind.mp h
      split at h
      · simp [Prog.pure_eq, exec_ret] at h
      · rename_i hgraph
        obtain ⟨s₃, h₃, h⟩ := exec_read_bind.mp h
        obtain ⟨hmanifest, h₄⟩ := exec_ret.mp h
        exact ⟨s₂, s₃, h₁, h₂, h₃, h₄, not_not.mp hgraph,
          by simpa [Sem.watching] using hmanifest⟩
    · simp [Prog.pure_eq, exec_ret] at h
  · simp [Prog.pure_eq, exec_ret] at h

variable (hrefl : ∀ s, R s s) (htrans : ∀ a b c, R a b → R b c → R a c)

include hrefl htrans in
/-- A verdict means the ending was unchanged. -/
theorem exec_compareAndClose {head : Str} {candidates : List Str} {digests : Option DigestTable}
    {res : Finished} (h : Exec (Sem.watching Look (WriteOp F) view) R
      (compareAndClose E root record head candidates digests) s res s')
    (hv : res.validation.state.verified = true) :
    res.digests = digests ∧ ∃ s₁, R s s₁ ∧
      Exec (Sem.watching Look (WriteOp F) view) R (endChanged record) s₁ false s' := by
  obtain ⟨changed, s₁, h₁, h⟩ := h.of_bind hrefl
  cases changed with
  | none =>
      obtain ⟨rfl, -⟩ := exec_ret.mp h
      cases hv
  | some changed =>
      obtain ⟨ended, s₂, h₂, h⟩ := h.of_bind hrefl
      cases ended with
      | true =>
          obtain ⟨rfl, -⟩ := exec_ret.mp h
          cases hv
      | false =>
          obtain ⟨rfl, h₃⟩ := exec_ret.mp h
          exact ⟨rfl, s₁, h₁.reaches htrans, h₂.env htrans h₃⟩

include htrans in
/-- The table a verdict was reached with was in place at some moment, and it is of
the record's generation. -/
theorem exec_readDigests {table : DigestTable}
    (h : Exec (Sem.watching Look (WriteOp F) view) R readDigests s (some table) s') :
    ∃ s₁, R s s₁ ∧ R s₁ s' ∧ (view s₁).store.digests.map Stamped.content = some table := by
  obtain ⟨s₁, h₁, h⟩ := exec_read_bind.mp h
  obtain ⟨s₂, h₂, h⟩ := exec_read_bind.mp h
  obtain ⟨s₃, h₃, h⟩ := exec_read_bind.mp h
  obtain ⟨htable, h₄⟩ := exec_ret.mp h
  refine ⟨s₂, htrans _ _ _ h₁ h₂, htrans _ _ _ h₃ h₄, ?_⟩
  split at htable
  · cases htable
  · exact htable

/-- What a query with a verdict saw, in the order it looked: the record, the two
artifacts it answered from, the digest table if it opened one, and the record's two
identities at the end. -/
structure Bracketed (view : S → World F) (R : S → S → Prop) (s s' : S) (answer : Answer F)
    (record : Record) : Prop where
  snapshot : answer.snapshot = .published record
  seen : ∃ s₁ s₂ s₃ s₄ s₅ s₆, R s s₁ ∧ R s₁ s₂ ∧ R s₂ s₃ ∧ R s₃ s₄ ∧ R s₄ s₅ ∧ R s₅ s₆ ∧ R s₆ s' ∧
    (view s₁).store.readRecord = .published record ∧
    (view s₂).store.graph = answer.graph ∧
    (view s₃).store.manifest = answer.manifest ∧
    (∀ table, answer.finished.digests = some table →
      (view s₄).store.digests.map Stamped.content = some table ∧
        table.generation = record.generation) ∧
    (view s₅).store.graphIdentity = record.artifacts.graph ∧
    (view s₆).store.manifestIdentity = record.artifacts.manifest

include hrefl htrans in
theorem exec_finishRecord {res : Finished}
    (h : Exec (Sem.watching Look (WriteOp F) view) R (finishRecord E root record) s res s')
    (hv : res.validation.state.verified = true) :
    ∃ s₁ s₂, R s s₁ ∧ R s₁ s₂ ∧
      (∀ table, res.digests = some table →
        (view s₁).store.digests.map Stamped.content = some table ∧
          table.generation = record.generation) ∧
      Exec (Sem.watching Look (WriteOp F) view) R (endChanged record) s₂ false s' := by
  obtain ⟨s₁, h₁, h⟩ := exec_read_bind.mp h
  split at h
  · obtain ⟨rfl, -⟩ := exec_ret.mp h
    cases hv
  · obtain ⟨s₂, h₂, h⟩ := exec_read_bind.mp h
    have hs₂ : R s s₂ := htrans _ _ _ h₁ h₂
    split at h
    · rename_i herror
      obtain ⟨rfl, -⟩ := exec_ret.mp h
      rw [candidatesOf_error herror] at hv
      cases hv
    · split at h
      · obtain ⟨hdigests, s₃, h₃, h⟩ := exec_compareAndClose hrefl htrans h hv
        refine ⟨s₂, s₃, hs₂, h₃, ?_, h⟩
        simp [hdigests]
      · obtain ⟨read, s₃, h₃, h⟩ := h.of_bind hrefl
        cases read with
        | none =>
            obtain ⟨rfl, -⟩ := exec_ret.mp h
            cases hv
        | some table =>
            obtain ⟨s₄, h₄, h₅, htable⟩ := exec_readDigests htrans h₃
            dsimp only at h
            split at h
            · rename_i hgen
              obtain ⟨hdigests, s₅, h₆, h⟩ := exec_compareAndClose hrefl htrans h hv
              refine ⟨s₄, s₅, htrans _ _ _ hs₂ h₄, htrans _ _ _ h₅ h₆, ?_, h⟩
              rintro t ht
              obtain rfl : table = t := by simpa [hdigests] using ht
              exact ⟨htable, hgen⟩
            · obtain ⟨rfl, -⟩ := exec_ret.mp h
              cases hv

include hrefl htrans in
/-- **Every verdict is bracketed.** -/
theorem exec_query {wt : Worktree} {asking : Option Str} {answer : Answer F}
    (h : Exec (Sem.watching Look (WriteOp F) view) R (query E wt asking) s answer s')
    (hv : answer.finished.validation.state.verified = true) :
    ∃ record, Bracketed view R s s' answer record := by
  obtain ⟨s₁, h₁, h⟩ := exec_read_bind.mp h
  obtain ⟨s₂, h₂, h⟩ := exec_read_bind.mp h
  obtain ⟨s₃, h₃, h⟩ := exec_read_bind.mp h
  obtain ⟨finished, s₄, h₄, h⟩ := h.of_bind hrefl
  obtain ⟨rfl, h₅⟩ := exec_ret.mp h
  rw [finish] at h₄
  split at h₄
  · rename_i herror
    obtain ⟨rfl, -⟩ := exec_ret.mp h₄
    rw [certifiableRecord_error herror] at hv
    cases hv
  · rename_i record hok
    obtain ⟨hsnapshot, -⟩ := certifiableRecord_ok hok
    obtain ⟨a₁, a₂, ha₁, ha₂, htable, hend⟩ := exec_finishRecord hrefl htrans h₄ hv
    obtain ⟨b₁, b₂, b₃, hb₁, hb₂, hb₃, hb₄, hgraph, hmanifest⟩ := exec_endChanged hend
    exact ⟨record, hsnapshot, s₁, s₂, s₃, a₁, b₂, b₃, h₁, h₂, h₃, ha₁,
      htrans _ _ _ ha₂ (htrans _ _ _ hb₁ hb₂), hb₃, htrans _ _ _ hb₄ h₅, hsnapshot, rfl, rfl,
      htable, hgraph, hmanifest⟩

end Bracket

end Devscout
