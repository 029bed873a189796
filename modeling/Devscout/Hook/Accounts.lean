/-
# Devscout.Hook.Accounts -- what the counters of the read tables add up to

A row of the read table counts the reads of its key and the bytes of those that went through;
a stub in its place is counted apart. The statistics take the bytes saved to be the size a row
has times its stubs, and the shared content store is added up the same way.

Over any invocations of the read hook that succeed, the first two counters are exact. The
stubs are not counted for good: a row that is recorded fresh starts again with none, because
its size is that of another text from then on. What the statistics show is therefore what the
stubs saved since each row was last recorded, and in the content store all that its stubs ever
did. `read_accounts` says so for every run.
-/

import Devscout.Hook.Delivered
import Devscout.Lib.Tally

namespace Devscout.Hook

open Lib Lib.Faulty

/-! ## The statistics -/

/-- `StatsFor`. -/
structure StatsFor where
  distinctFiles : Nat
  totalStubs : Nat
  linesSaved : Int
  bytesSaved : Nat
  deriving DecidableEq

/-- `stats_for`. -/
def statsFor (c : Cache) : StatsFor where
  distinctFiles := (c.reads.entries.map fun e => e.1.item).dedup.length
  totalStubs := (c.reads.entries.map fun e => e.2.stubCount).sum
  linesSaved := (c.reads.entries.map fun e => e.2.lines * (e.2.stubCount : Int)).sum
  bytesSaved := (c.reads.entries.map fun e => e.2.size * e.2.stubCount).sum

/-- `ContentStats`. -/
structure ContentStats where
  distinctContents : Nat
  totalStubs : Nat
  bytesSaved : Nat
  deriving DecidableEq

/-- `content_stats_for`. -/
def contentStatsFor (c : ContentStore) : ContentStats where
  distinctContents := c.entries.length
  totalStubs := (c.entries.map fun e => e.2.stubCount).sum
  bytesSaved := (c.entries.map fun e => e.2.size * e.2.stubCount).sum

section Served

variable {Root : Type}

/-! ## What a read is about -/

/-- The row a read goes to, the file it named and the text it brought. -/
structure ReadTarget (Root : Type) where
  root : Root
  filePath : Str
  key : RowKey
  text : Str

/-- None where the payload names no file or no text, or the file lies under no root. -/
def readTarget (w : World Root) (input : Value) : Option (ReadTarget Root) :=
  match (field input "tool_input").bind (strField · "file_path"),
      extractText (field input "tool_response") with
  | some filePath, some text =>
      (w.findScoutRoot filePath).map fun root =>
        ⟨root, filePath, ⟨sessionIdOf input, agentScope input, w.relPath root filePath⟩, text⟩
  | _, _ => none

def ReadTarget.size (t : ReadTarget Root) : Nat := Text.utf8Len t.text

/-- The digest of the text. -/
def ReadTarget.hash (platform : Platform) (t : ReadTarget Root) : Str :=
  platform.sha256Hex (asBytes t.text)

/-- The key of its content row. -/
def ReadTarget.contentKey (platform : Platform) (t : ReadTarget Root) : RowKey :=
  { t.key with item := t.hash platform }

theorem handleRead_eq [DecidableEq Root] (platform : Platform) (w : World Root) (input : Value) :
    handleRead platform w input =
      match readTarget w input with
      | none => pure none
      | some t =>
          if isPartialRead platform input then
            handlePartialRead platform w t.root t.filePath t.key t.text input
          else handleWholeRead platform w t.root t.filePath t.key t.text input := by
  unfold handleRead readTarget
  rcases (field input "tool_input").bind (strField · "file_path") with _ | filePath
  · rfl
  rcases extractText (field input "tool_response") with _ | text
  · rfl
  dsimp only
  cases w.findScoutRoot filePath <;> rfl

/-! ## What is written -/

def Stores.changeReads [DecidableEq Root] (s : Stores Root) (root : Root)
    (f : OrderedMap RowKey ReadRow → OrderedMap RowKey ReadRow) : Stores Root :=
  s.updateCache root fun c => { c with reads := f c.reads }

section Reading

variable [DecidableEq Root] {s : Stores Root} {root root' : Root} {path path' : Str}
  {f : OrderedMap RowKey ReadRow → OrderedMap RowKey ReadRow} {g : ContentStore → ContentStore}

@[simp] theorem changeReads_content : (s.changeReads root f).content = s.content := rfl

theorem reads_changeReads :
    ((s.changeReads root f).cache root').reads =
      if root' = root then f (s.cache root).reads else (s.cache root').reads := by
  show (Function.update s.cache root _ root').reads = _
  by_cases h : root' = root
  · rw [if_pos h, h, Function.update_self]
  · rw [if_neg h, Function.update_of_ne h]

omit [DecidableEq Root] in
@[simp] theorem updateContent_cache : (s.updateContent path g).cache = s.cache := rfl

omit [DecidableEq Root] in
theorem content_updateContent :
    (s.updateContent path g).content path' =
      if path' = path then g (s.content path) else s.content path' := by
  show Function.update s.content path _ path' = _
  by_cases h : path' = path
  · rw [if_pos h, h, Function.update_self]
  · rw [if_neg h, Function.update_of_ne h]

end Reading

/-- The read is a slice: its row counts it and its bytes. -/
def spent [DecidableEq Root] (t : ReadTarget Root) (s : Stores Root) : Stores Root :=
  s.changeReads t.root (·.upsert t.key ⟨[], 0, 0, 0, 1, t.size⟩ (spend t.size))

/-- A stub in place of the text its row has. -/
def stubbed [DecidableEq Root] (t : ReadTarget Root) (s : Stores Root) : Stores Root :=
  s.changeReads t.root (·.amend t.key fun old =>
    { old with stubCount := old.stubCount + 1, readCount := old.readCount + 1 })

def freshRecord (platform : Platform) (t : ReadTarget Root) (lines : Int) (delivered : Bool) :
    RecordFresh :=
  ⟨t.key, t.hash platform, t.size, lines, delivered⟩

/-- The text goes to its row. -/
def recorded [DecidableEq Root] (platform : Platform) (t : ReadTarget Root) (lines : Int)
    (delivered : Bool) (s : Stores Root) : Stores Root :=
  s.changeReads t.root (·.upsert t.key (freshRecord platform t lines delivered).row
    (freshRecord platform t lines delivered).update)

/-- A stub in place of content that another path brought. -/
def contentStubbed (path : Str) (key : RowKey) (s : Stores Root) : Stores Root :=
  s.updateContent path (·.amend key fun old => { old with stubCount := old.stubCount + 1 })

/-- The content store has the digest, or it has it from now on, or it was out of reach. -/
def ContentNoted (path : Str) (key : RowKey) (size : Nat) (s s' : Stores Root) : Prop :=
  s' = s ∨ (s.content path).get? key = none ∧ ∃ (root rel : Str) (lines : Int),
    s' = s.updateContent path (·.upsert key ⟨root, rel, size, lines, 0⟩ id)

/-- **What a read that succeeds does**, and how it is answered. -/
inductive Served [DecidableEq Root] (platform : Platform) (w : World Root) (input : Value)
    (t : ReadTarget Root) (s : Stores Root) : Option Value → Stores Root → Prop
  | slice {answer : Option Value} (hpart : isPartialRead platform input = true)
      (hanswer : ¬IsStub answer) : Served platform w input t s answer (spent t s)
  | unchanged {row : ReadRow} {origFile : Option Value} {lines : Int}
      (hpart : isPartialRead platform input = false)
      (hrow : (s.cache t.root).reads.get? t.key = some row) (hsha : row.sha256 = t.hash platform) :
      Served platform w input t s
        (some (stubEnvelope (unchangedStub lines (t.hash platform)) origFile t.filePath lines))
        (stubbed t s)
  | identical {hit : ContentRow} {origFile : Option Value} {lines : Int}
      (hpart : isPartialRead platform input = false)
      (hrow : (s.content w.contentDbPath).get? (t.contentKey platform) = some hit) :
      Served platform w input t s
        (some (stubEnvelope (contentStub hit.relPath lines (t.hash platform)) origFile t.filePath lines))
        (recorded platform t lines false (contentStubbed w.contentDbPath (t.contentKey platform) s))
  | fresh {answer : Option Value} {lines : Int} {s' : Stores Root}
      (hpart : isPartialRead platform input = false) (hanswer : ¬IsStub answer)
      (hnoted : ContentNoted w.contentDbPath (t.contentKey platform) t.size s s') :
      Served platform w input t s answer (recorded platform t lines true s')

/-! ## What a read that succeeds does -/

variable [DecidableEq Root] {platform : Platform} {w : World Root} {input : Value} {t : ReadTarget Root}
  {s : Stores Root}

omit [DecidableEq Root] in
/-- The content store names a path for the digest, and its row counts a stub; or it has no say,
and at most the digest is noted. -/
theorem contentDedup_reported {lines : Int} {rootStr : Str} :
    Reported (· = s)
      (contentDedup w t.key (t.hash platform) rootStr t.key.item t.size lines)
      (fun stub s' => match stub with
        | some text => ∃ hit,
            (s.content w.contentDbPath).get? (t.contentKey platform) = some hit ∧
              text = contentStub hit.relPath lines (t.hash platform) ∧
              s' = contentStubbed w.contentDbPath (t.contentKey platform) s
        | none => ContentNoted w.contentDbPath (t.contentKey platform) t.size s s')
      (fun _ => False) := by
  refine Reported.orElse ?_
  have hkept : ∀ s', s' = s → ContentNoted w.contentDbPath (t.contentKey platform) t.size s s' :=
    fun _ => Or.inl
  refine Reported.bind (Q := fun _ s' => s' = s) (Reported.look (fun _ h => h) hkept) fun _ => ?_
  refine Reported.bind
    (Q := fun found s' => s' = s ∧ found = (s.content w.contentDbPath).get? (t.contentKey platform))
    (Reported.look (fun _ h => ⟨h, by rw [h]; rfl⟩) hkept) fun found => ?_
  refine Reported.assume fun hfound => ?_
  cases found with
  | none =>
      refine Reported.bind (Q := fun _ s' => ContentNoted _ _ _ s s') (Reported.change ?_ hkept)
        fun _ => Reported.ret fun _ h => h
      rintro _ rfl
      exact Or.inr ⟨hfound.symm, _, _, _, rfl⟩
  | some hit =>
      dsimp only
      split
      · exact Reported.ret hkept
      · refine Reported.bind
          (Q := fun _ s' => s' = contentStubbed w.contentDbPath (t.contentKey platform) s)
          (Reported.change ?_ hkept) fun _ => Reported.ret fun _ h => ⟨hit, hfound.symm, rfl, h⟩
        rintro _ rfl
        rfl

theorem handlePartialRead_reported (hpart : isPartialRead platform input = true) :
    Reported (· = s) (handlePartialRead platform w t.root t.filePath t.key t.text input)
      (Served platform w input t s) (fun _ => True) := by
  refine Reported.bind (Q := fun _ s' => s' = s) (Reported.look (fun _ h => h) fun _ _ => trivial)
    fun _ => ?_
  refine Reported.bind (Q := fun _ s' => s' = spent t s) (Reported.change ?_ fun _ _ => trivial)
    fun _ => ?_
  · rintro _ rfl
    rfl
  · refine Reported.lift ?_ fun _ _ => trivial
    rintro answer _ hanswer rfl
    exact .slice hpart (not_isStub_partialAnswer hanswer)

theorem handleWholeRead_reported (hpart : isPartialRead platform input = false) :
    Reported (· = s) (handleWholeRead platform w t.root t.filePath t.key t.text input)
      (Served platform w input t s) (fun _ => True) := by
  unfold handleWholeRead
  dsimp only
  generalize Option.getD _ (countLines t.text) = lines
  refine Reported.bind (Q := fun _ s' => s' = s) (Reported.look (fun _ h => h) fun _ _ => trivial)
    fun _ => ?_
  refine Reported.bind
    (Q := fun prior s' => s' = s ∧ prior = (s.cache t.root).reads.get? t.key)
    (Reported.look (fun _ h => ⟨h, by rw [h]⟩) fun _ _ => trivial) fun prior => ?_
  refine Reported.assume fun hprior => ?_
  split
  · rename_i hsame
    obtain ⟨row, rfl, hsha⟩ := Option.map_eq_some_iff.mp hsame
    refine Reported.bind (Q := fun _ s' => s' = stubbed t s) (Reported.change ?_ fun _ _ => trivial)
      fun _ => Reported.ret ?_
    · rintro _ rfl
      rfl
    · rintro _ rfl
      exact .unchanged hpart hprior.symm hsha
  · refine Reported.bind (contentDedup_reported.weaken (fun _ h => h) (fun _ _ h => h)
      fun _ h => h.elim) fun crossStub => ?_
    cases crossStub with
    | some stubText =>
        refine Reported.bind (Q := fun _ s' => ∃ hit,
            (s.content w.contentDbPath).get? (t.contentKey platform) = some hit ∧
              stubText = contentStub hit.relPath lines (t.hash platform) ∧
              s' = recorded platform t lines false
                (contentStubbed w.contentDbPath (t.contentKey platform) s))
          (Reported.change ?_ fun _ _ => trivial) fun _ => Reported.ret ?_
        · rintro _ ⟨hit, hhit, rfl, rfl⟩
          exact ⟨hit, hhit, rfl, rfl⟩
        · rintro _ ⟨hit, hhit, rfl, rfl⟩
          exact .identical hpart hhit
    | none =>
        refine Reported.bind (Q := fun _ s' => ∃ noted,
            ContentNoted w.contentDbPath (t.contentKey platform) t.size s noted ∧
              s' = recorded platform t lines true noted)
          (Reported.change ?_ fun _ _ => trivial) fun _ => Reported.lift ?_ fun _ _ => trivial
        · intro noted hnoted
          exact ⟨noted, hnoted, rfl⟩
        · rintro answer _ hanswer ⟨noted, hnoted, rfl⟩
          exact .fresh hpart (not_isStub_freshAnswer hanswer) hnoted

/-- **The read hook.** A read about nothing changes nothing, any other is served. -/
theorem handleRead_reported :
    Reported (· = s) (handleRead platform w input)
      (fun answer s' => match readTarget w input with
        | none => answer = none ∧ s' = s
        | some t => Served platform w input t s answer s') (fun _ => True) := by
  rw [handleRead_eq]
  cases readTarget w input with
  | none => exact Reported.ret fun _ h => ⟨rfl, h⟩
  | some t =>
      dsimp only
      split
      · rename_i hpart
        exact handlePartialRead_reported hpart
      · rename_i hpart
        exact handleWholeRead_reported (Bool.eq_false_iff.mpr hpart)

end Served

/-! ## How a read was answered -/

/-- The text an answer puts in place of the file's. -/
def stubText (answer : Option Value) : Option Str :=
  let output := (answer.bind (field · "hookSpecificOutput")).bind (field · "updatedToolOutput")
  ((output.bind (field · "file")).bind (strField · "content")).or (output.bind (strField · "text"))

/-- The stub for a path whose text is the same. -/
def isUnchanged (answer : Option Value) : Bool :=
  (stubText answer).any ("[devscout: unchanged".toList.isPrefixOf ·)

/-- The stub for content that another path brought. -/
def isIdentical (answer : Option Value) : Bool :=
  (stubText answer).any ("[devscout: identical".toList.isPrefixOf ·)

/-- A field of an object is looked up by its name. -/
theorem field_object (fields : List (String × Value)) (key : String) :
    field (object fields) key = (fields.find? fun e => key == e.1).map Prod.snd := by
  show (fields.map fun e => (e.1.toList, e.2)).lookup key.toList = _
  induction fields with
  | nil => rfl
  | cons e fields ih =>
      rw [List.map_cons, List.lookup_cons, List.find?_cons, ih]
      by_cases h : key = e.1
      · rw [h, beq_self_eq_true, beq_self_eq_true]
        rfl
      · have hlist : key.toList ≠ e.1.toList := fun heq => h (String.toList_inj.mp heq)
        rw [beq_false_of_ne h, beq_false_of_ne hlist]

theorem stubText_stubEnvelope {text filePath : Str} {origFile : Option Value} {lines : Int} :
    stubText (some (stubEnvelope text origFile filePath lines)) = some text := by
  unfold stubEnvelope
  split <;> simp [stubText, envelope, field_object, strField, string, Value.asStr]

theorem stubText_eq_none {answer : Option Value} (h : ¬IsStub answer) : stubText answer = none := by
  have hnone : (answer.bind (field · "hookSpecificOutput")).bind (field · "updatedToolOutput") = none := by
    rw [← Option.not_isSome_iff_eq_none]
    exact h
  unfold stubText
  rw [hnone]
  rfl

@[simp] theorem isUnchanged_unchangedStub {lines : Int} {hash filePath : Str} {origFile : Option Value} :
    isUnchanged (some (stubEnvelope (unchangedStub lines hash) origFile filePath lines)) = true := by
  rw [isUnchanged, stubText_stubEnvelope]
  rfl

@[simp] theorem isUnchanged_contentStub {lines : Int} {rel hash filePath : Str} {origFile : Option Value} :
    isUnchanged (some (stubEnvelope (contentStub rel lines hash) origFile filePath lines)) = false := by
  rw [isUnchanged, stubText_stubEnvelope]
  rfl

@[simp] theorem isIdentical_unchangedStub {lines : Int} {hash filePath : Str} {origFile : Option Value} :
    isIdentical (some (stubEnvelope (unchangedStub lines hash) origFile filePath lines)) = false := by
  rw [isIdentical, stubText_stubEnvelope]
  rfl

@[simp] theorem isIdentical_contentStub {lines : Int} {rel hash filePath : Str} {origFile : Option Value} :
    isIdentical (some (stubEnvelope (contentStub rel lines hash) origFile filePath lines)) = true := by
  rw [isIdentical, stubText_stubEnvelope]
  rfl

theorem isUnchanged_of_not_isStub {answer : Option Value} (h : ¬IsStub answer) :
    isUnchanged answer = false := by
  rw [isUnchanged, stubText_eq_none h]
  rfl

theorem isIdentical_of_not_isStub {answer : Option Value} (h : ¬IsStub answer) :
    isIdentical answer = false := by
  rw [isIdentical, stubText_eq_none h]
  rfl

/-! ## The exchanges of a row -/

section Past

variable {Root : Type}

def Exchange.target (e : Exchange Root) : Option (ReadTarget Root) :=
  e.invocation.payload.bind (readTarget e.invocation.world)

/-- The bytes of the text that was read. -/
def Exchange.size (e : Exchange Root) : Nat := (e.target.map ReadTarget.size).getD 0

def Exchange.isSlice (platform : Platform) (e : Exchange Root) : Bool :=
  e.invocation.payload.any (isPartialRead platform)

/-- The exchange is about the content row that its text has in a store. -/
def Exchange.isOfContent (platform : Platform) (e : Exchange Root) (path : Str) (key : RowKey) : Bool :=
  e.invocation.world.contentDbPath == path && e.target.any fun t => t.contentKey platform == key

variable [DecidableEq Root]

/-- The exchange is about a row. -/
def Exchange.isOf (e : Exchange Root) (root : Root) (key : RowKey) : Bool :=
  e.target.any fun t => decide (t.root = root) && t.key == key

/-- The exchange records a row fresh: a whole read, not answered by the stub for the same
text. -/
def Exchange.recordsFresh (platform : Platform) (e : Exchange Root) (root : Root) (key : RowKey) :
    Bool :=
  e.isOf root key && !e.isSlice platform && !isUnchanged e.answer

/-- A later exchange records the row of an earlier one fresh. -/
def Exchange.overtakes (platform : Platform) (later earlier : Exchange Root) : Bool :=
  earlier.target.any fun t => later.recordsFresh platform t.root t.key

/-- The exchanges answered by the stub for the same text whose row was not recorded fresh
since. -/
def standing (platform : Platform) : List (Exchange Root) → List (Exchange Root)
  | [] => []
  | e :: later =>
      if isUnchanged e.answer && !later.any (·.overtakes platform e) then e :: standing platform later
      else standing platform later

def totalSize (past : List (Exchange Root)) : Nat := (past.map Exchange.size).sum

variable {platform : Platform} {past : List (Exchange Root)} {e : Exchange Root} {root : Root}
  {key : RowKey}

theorem standing_concat :
    standing platform (past ++ [e]) =
      (standing platform past).filter (fun x => !e.overtakes platform x) ++
        if isUnchanged e.answer then [e] else [] := by
  induction past with
  | nil => cases h : isUnchanged e.answer <;> simp [standing, h]
  | cons x past ih =>
      rw [List.cons_append, standing, standing, List.any_append, List.any_cons, List.any_nil, Bool.or_false,
        ih]
      cases isUnchanged x.answer <;> cases past.any (·.overtakes platform x) <;>
        cases h : e.overtakes platform x <;> simp [h]

theorem mem_of_mem_standing (h : e ∈ standing platform past) : e ∈ past := by
  induction past with
  | nil => exact h
  | cons x past ih =>
      rw [standing] at h
      split at h
      · rcases List.mem_cons.mp h with rfl | h
        · exact List.mem_cons_self
        · exact List.mem_cons_of_mem _ (ih h)
      · exact List.mem_cons_of_mem _ (ih h)

omit [DecidableEq Root] in
theorem totalSize_append (past past' : List (Exchange Root)) :
    totalSize (past ++ past') = totalSize past + totalSize past' := by
  rw [totalSize, List.map_append, List.sum_append]
  rfl

/-- Overtaken are the exchanges of a row that is recorded fresh. -/
theorem overtakes_eq_of_isOf {x : Exchange Root} (hx : x.isOf root key = true) : e.overtakes platform x = e.recordsFresh platform root key := by
  unfold Exchange.isOf at hx
  unfold Exchange.overtakes
  cases ht : x.target with
  | none =>
      rw [ht] at hx
      cases hx
  | some t =>
      rw [ht] at hx
      simp only [Option.any_some, Bool.and_eq_true, decide_eq_true_eq, beq_iff_eq] at hx
      rw [Option.any_some, hx.1, hx.2]

theorem overtakes_eq_false (h : ∀ root key, e.recordsFresh platform root key = false) (x : Exchange Root) :
    e.overtakes platform x = false := by
  unfold Exchange.overtakes
  cases x.target with
  | none => rfl
  | some t => exact h t.root t.key

/-! ## The account of a row -/

/-- The exchanges of a row that let the text through. -/
def lettingThrough (past : List (Exchange Root)) (root : Root) (key : RowKey) : List (Exchange Root) :=
  past.filter fun e => e.isOf root key && !decide (IsStub e.answer)

/-- The exchanges of a row whose stub still counts. -/
def standingAt (platform : Platform) (past : List (Exchange Root)) (root : Root) (key : RowKey) :
    List (Exchange Root) :=
  (standing platform past).filter (·.isOf root key)

/-- What the row of a key, where there is one, says of the exchanges so far; and its size is
that of the text its digest stands for. -/
structure RowAccount (platform : Platform) (past : List (Exchange Root)) (root : Root) (key : RowKey)
    (row : Option ReadRow) : Prop where
  readCount : row.elim 0 ReadRow.readCount = past.countP (·.isOf root key)
  delivered : row.elim 0 ReadRow.bytesDelivered = totalSize (lettingThrough past root key)
  saved : (row.elim 0 fun r => r.size * r.stubCount) = totalSize (standingAt platform past root key)
  sized : ∀ r, row = some r →
    r.sha256 = [] ∨ ∃ text, r.sha256 = platform.sha256Hex (asBytes text) ∧ r.size = Text.utf8Len text

variable {row : Option ReadRow}

theorem standingAt_concat :
    standingAt platform (past ++ [e]) root key =
      (if e.recordsFresh platform root key then [] else standingAt platform past root key) ++
        if isUnchanged e.answer && e.isOf root key then [e] else [] := by
  have hlast : (if isUnchanged e.answer then [e] else []).filter (·.isOf root key) =
      if isUnchanged e.answer && e.isOf root key then [e] else [] := by
    cases isUnchanged e.answer <;> cases h : e.isOf root key <;> simp [h]
  rw [standingAt, standing_concat, List.filter_append, hlast, List.filter_filter]
  congr 1
  have hovertakes : ∀ x ∈ standing platform past, (x.isOf root key && !e.overtakes platform x) =
      (x.isOf root key && !e.recordsFresh platform root key) := by
    intro x _
    cases hx : x.isOf root key with
    | false => rfl
    | true => rw [overtakes_eq_of_isOf hx]
  rw [List.filter_congr hovertakes]
  cases e.recordsFresh platform root key <;> simp [standingAt]

theorem lettingThrough_concat :
    lettingThrough (past ++ [e]) root key =
      lettingThrough past root key ++
        if e.isOf root key && !decide (IsStub e.answer) then [e] else [] := by
  rw [lettingThrough, List.filter_append, List.filter_singleton, Bool.cond_eq_ite]
  rfl

/-- An exchange about something else. -/
theorem RowAccount.other (h : RowAccount platform past root key row) (he : e.isOf root key = false) :
    RowAccount platform (past ++ [e]) root key row where
  readCount := by simp [h.readCount, he]
  delivered := by simp [h.delivered, lettingThrough_concat, he]
  saved := by simp [h.saved, standingAt_concat, Exchange.recordsFresh, he]
  sized := h.sized

/-- A slice is counted, and so are its bytes. -/
theorem RowAccount.slice (h : RowAccount platform past root key row) (he : e.isOf root key = true)
    (hslice : e.isSlice platform = true) (hstub : ¬IsStub e.answer) :
    RowAccount platform (past ++ [e]) root key
      (some ((row.map (spend e.size)).getD ⟨[], 0, 0, 0, 1, e.size⟩)) := by
  have hanswer := isUnchanged_of_not_isStub hstub
  constructor
  · rw [List.countP_append, ← h.readCount]
    cases row <;> simp [he, spend]
  · rw [lettingThrough_concat, totalSize_append, ← h.delivered]
    cases row <;> simp [he, hstub, spend, totalSize]
  · rw [standingAt_concat, Exchange.recordsFresh, hslice, hanswer, totalSize_append]
    simp only [Bool.not_true, Bool.and_false, Bool.false_and, Bool.false_eq_true, if_false, ← h.saved]
    cases row <;> simp [spend, totalSize]
  · intro r hr
    cases row with
    | none => exact Or.inl (by rw [← Option.some.inj hr]; rfl)
    | some old =>
        have hold := h.sized old rfl
        obtain rfl := Option.some.inj hr
        exact hold

/-- A stub for the same text is counted, and saves the bytes its row has. -/
theorem RowAccount.unchanged {r : ReadRow} (h : RowAccount platform past root key (some r))
    (he : e.isOf root key = true) (hanswer : isUnchanged e.answer = true) (hstub : IsStub e.answer)
    (hsize : r.size = e.size) :
    RowAccount platform (past ++ [e]) root key
      (some { r with stubCount := r.stubCount + 1, readCount := r.readCount + 1 }) where
  readCount := by
    rw [List.countP_append, ← h.readCount]
    simp [he]
  delivered := by
    rw [lettingThrough_concat, totalSize_append, ← h.delivered]
    simp [hstub, totalSize]
  saved := by
    rw [standingAt_concat, Exchange.recordsFresh, hanswer, totalSize_append, Bool.not_true, Bool.and_false]
    simp only [Bool.false_eq_true, if_false, ← h.saved, he, Bool.and_self, if_true, Option.elim_some]
    rw [Nat.mul_succ, totalSize, List.map_singleton, List.sum_singleton, hsize]
  sized := by
    intro r' hr'
    obtain rfl := Option.some.inj hr'
    exact h.sized r rfl

/-- A text recorded fresh: it is counted, its bytes if they went through, and the stubs of the
text before it no more. -/
theorem RowAccount.fresh (h : RowAccount platform past root key row) (he : e.isOf root key = true)
    (hslice : e.isSlice platform = false) (hanswer : isUnchanged e.answer = false) {p : RecordFresh}
    {text : Str} (hsha : p.sha256 = platform.sha256Hex (asBytes text)) (hsize : p.size = Text.utf8Len text)
    (hown : p.size = e.size) (hdelivered : p.delivered = !decide (IsStub e.answer)) :
    RowAccount platform (past ++ [e]) root key (some ((row.map p.update).getD p.row)) := by
  have hfresh : e.recordsFresh platform root key = true := by
    rw [Exchange.recordsFresh, he, hslice, hanswer]
    rfl
  constructor
  · rw [List.countP_append, ← h.readCount]
    cases row <;> simp [he, RecordFresh.update, RecordFresh.row]
  · rw [lettingThrough_concat, totalSize_append, ← h.delivered, he, Bool.true_and, ← hdelivered]
    cases hp : p.delivered <;> cases row <;>
      simp [RecordFresh.update, RecordFresh.row, RecordFresh.bytesDelivered, hp, totalSize, hown]
  · rw [standingAt_concat, hfresh, hanswer]
    cases row <;> simp [RecordFresh.update, RecordFresh.row, totalSize]
  · intro r hr
    obtain rfl := Option.some.inj hr
    refine Or.inr ⟨text, ?_⟩
    cases row <;> exact ⟨hsha, hsize⟩

/-! ## The account of a content row -/

/-- The exchanges answered by the stub of a content row. -/
def replacedBy (platform : Platform) (past : List (Exchange Root)) (path : Str) (key : RowKey) :
    List (Exchange Root) :=
  past.filter fun e => isIdentical e.answer && e.isOfContent platform path key

structure ContentAccount (platform : Platform) (past : List (Exchange Root)) (path : Str) (key : RowKey)
    (row : Option ContentRow) : Prop where
  saved : (row.elim 0 fun r => r.size * r.stubCount) = totalSize (replacedBy platform past path key)
  known : row = none → replacedBy platform past path key = []
  sized : ∀ r, row = some r →
    ∃ text, key.item = platform.sha256Hex (asBytes text) ∧ r.size = Text.utf8Len text

variable {path : Str} {content : Option ContentRow}

omit [DecidableEq Root] in
theorem replacedBy_concat :
    replacedBy platform (past ++ [e]) path key =
      replacedBy platform past path key ++
        if isIdentical e.answer && e.isOfContent platform path key then [e] else [] := by
  rw [replacedBy, List.filter_append, List.filter_singleton, Bool.cond_eq_ite]
  rfl

omit [DecidableEq Root] in
theorem ContentAccount.other (h : ContentAccount platform past path key content)
    (he : (isIdentical e.answer && e.isOfContent platform path key) = false) :
    ContentAccount platform (past ++ [e]) path key content := by
  have hpast : replacedBy platform (past ++ [e]) path key = replacedBy platform past path key := by
    rw [replacedBy_concat, he, if_neg Bool.false_ne_true, List.append_nil]
  exact ⟨by rw [hpast, h.saved], by rw [hpast]; exact h.known, h.sized⟩

omit [DecidableEq Root] in
/-- A digest that is noted has no stubs yet. -/
theorem ContentAccount.noted (h : ContentAccount platform past path key none) {r : ContentRow}
    {text : Str} (hkey : key.item = platform.sha256Hex (asBytes text)) (hsize : r.size = Text.utf8Len text)
    (hstubs : r.stubCount = 0) : ContentAccount platform past path key (some r) where
  saved := by
    rw [h.known rfl, Option.elim_some, hstubs, Nat.mul_zero]
    rfl
  known := by
    intro hnone
    cases hnone
  sized := by
    intro r' hr'
    obtain rfl := Option.some.inj hr'
    exact ⟨text, hkey, hsize⟩

omit [DecidableEq Root] in
theorem ContentAccount.identical {r : ContentRow} (h : ContentAccount platform past path key (some r))
    (hanswer : isIdentical e.answer = true) (he : e.isOfContent platform path key = true)
    (hsize : r.size = e.size) :
    ContentAccount platform (past ++ [e]) path key (some { r with stubCount := r.stubCount + 1 }) where
  saved := by
    rw [replacedBy_concat, hanswer, he, totalSize_append, ← h.saved, Option.elim_some, Option.elim_some,
      Nat.mul_succ, hsize]
    simp [totalSize]
  known := by
    intro hnone
    cases hnone
  sized := by
    intro r' hr'
    obtain rfl := Option.some.inj hr'
    exact h.sized r rfl

/-! ## One exchange -/

/-- **The invariant.** Every row of the tables says what the exchanges so far were. -/
structure Accounts (platform : Platform) (past : List (Exchange Root)) (s : Stores Root) : Prop where
  reads : ∀ root key, RowAccount platform past root key ((s.cache root).reads.get? key)
  content : ∀ path key, ContentAccount platform past path key ((s.content path).get? key)

theorem Accounts.empty : Accounts platform ([] : List (Exchange Root)) Stores.empty where
  reads := fun _ _ => ⟨rfl, rfl, rfl, fun _ h => nomatch h⟩
  content := fun _ _ => ⟨rfl, fun _ => rfl, fun _ h => nomatch h⟩

variable {i : Invocation Root} {input : Value} {t : ReadTarget Root} {s s' : Stores Root}
  {answer : Option Value}

/-- The row of an exchange. -/
theorem isOf_iff (ht : e.target = some t) {root : Root} {key : RowKey} :
    e.isOf root key = true ↔ root = t.root ∧ key = t.key := by
  rw [Exchange.isOf, ht, Option.any_some, Bool.and_eq_true, decide_eq_true_eq, beq_iff_eq]
  exact and_congr eq_comm eq_comm

/-- Every row but that of the exchange stays as it is. -/
theorem rowAccount_of_change
    (h : ∀ root key, RowAccount platform past root key ((s.cache root).reads.get? key))
    (ht : e.target = some t) {f : OrderedMap RowKey ReadRow → OrderedMap RowKey ReadRow}
    (hother : ∀ key, key ≠ t.key → (f (s.cache t.root).reads).get? key = (s.cache t.root).reads.get? key)
    (hown : RowAccount platform (past ++ [e]) t.root t.key ((f (s.cache t.root).reads).get? t.key))
    (root : Root) (key : RowKey) :
    RowAccount platform (past ++ [e]) root key (((s.changeReads t.root f).cache root).reads.get? key) := by
  rw [reads_changeReads]
  by_cases hroot : root = t.root
  · subst hroot
    rw [if_pos rfl]
    by_cases hkey : key = t.key
    · subst hkey
      exact hown
    · rw [hother key hkey]
      exact (h t.root key).other (Bool.eq_false_iff.mpr fun he => hkey ((isOf_iff ht).mp he).2)
  · rw [if_neg hroot]
    exact (h root key).other (Bool.eq_false_iff.mpr fun he => hroot ((isOf_iff ht).mp he).1)

/-- A text that is recorded fresh, whether it went through or a content row stood in for it. -/
theorem rowAccount_recorded
    (h : ∀ root key, RowAccount platform past root key ((s.cache root).reads.get? key))
    (ht : e.target = some t) (hslice : e.isSlice platform = false)
    (hanswer : isUnchanged e.answer = false) {lines : Int} {delivered : Bool}
    (hdelivered : delivered = !decide (IsStub e.answer)) (root : Root) (key : RowKey) :
    RowAccount platform (past ++ [e]) root key
      (((recorded platform t lines delivered s).cache root).reads.get? key) := by
  refine rowAccount_of_change h ht (fun key hkey => ?_) ?_ root key
  · rw [OrderedMap.get?_upsert, if_neg hkey]
  · rw [OrderedMap.get?_upsert, if_pos rfl]
    have hown : t.size = e.size := by rw [Exchange.size, ht]; rfl
    have hsha : t.hash platform = platform.sha256Hex (asBytes t.text) := rfl
    have hsize : t.size = Text.utf8Len t.text := rfl
    exact (h t.root t.key).fresh ((isOf_iff ht).mpr ⟨rfl, rfl⟩) hslice hanswer hsha hsize hown
      hdelivered

omit [DecidableEq Root] in
/-- An exchange that no content row answers leaves the accounts of all of them. -/
theorem contentAccount_of_not_identical
    (h : ∀ path key, ContentAccount platform past path key ((s.content path).get? key))
    (hanswer : isIdentical e.answer = false) (path : Str) (key : RowKey) :
    ContentAccount platform (past ++ [e]) path key ((s.content path).get? key) :=
  (h path key).other (by rw [hanswer, Bool.false_and])

/-- **One read** keeps the accounts. -/
theorem Accounts.served (hinjective : Function.Injective platform.sha256Hex)
    (h : Accounts platform past s) (hinput : i.payload = some input)
    (ht : readTarget i.world input = some t) (hserved : Served platform i.world input t s answer s') :
    Accounts platform (past ++ [⟨i, answer⟩]) s' := by
  have htarget : ∀ answer, Exchange.target ⟨i, answer⟩ = some t := fun _ => by
    rw [Exchange.target, hinput, Option.bind_some, ht]
  have hslice : ∀ answer, Exchange.isSlice platform ⟨i, answer⟩ = isPartialRead platform input :=
    fun _ => by rw [Exchange.isSlice, hinput, Option.any_some]
  have hsize : ∀ answer, Exchange.size ⟨i, answer⟩ = t.size := fun answer => by
    rw [Exchange.size, htarget answer, Option.map_some, Option.getD_some]
  have hself : ∀ answer, Exchange.isOf ⟨i, answer⟩ t.root t.key = true := fun answer =>
    (isOf_iff (htarget answer)).mpr ⟨rfl, rfl⟩
  -- a digest stands for one text
  have htext : ∀ text, t.hash platform = platform.sha256Hex (asBytes text) → text = t.text :=
    fun text heq => (asBytes_injective (hinjective heq)).symm
  cases hserved with
  | slice hpart hanswer =>
      refine ⟨rowAccount_of_change h.reads (htarget answer) (fun key hkey => ?_) ?_,
        contentAccount_of_not_identical h.content (isIdentical_of_not_isStub hanswer)⟩
      · rw [OrderedMap.get?_upsert, if_neg hkey]
      · rw [OrderedMap.get?_upsert, if_pos rfl, ← hsize answer]
        exact (h.reads t.root t.key).slice (hself answer) ((hslice answer).trans hpart) hanswer
  | @unchanged row origFile lines hpart hrow hsha =>
      refine ⟨rowAccount_of_change h.reads (htarget _) (fun key hkey => ?_) ?_,
        contentAccount_of_not_identical h.content isIdentical_unchangedStub⟩
      · rw [OrderedMap.get?_amend, if_neg hkey]
      · have hold := h.reads t.root t.key
        rw [OrderedMap.get?_amend, if_pos rfl, hrow, Option.map_some]
        rw [hrow] at hold
        refine hold.unchanged (hself _) isUnchanged_unchangedStub (isStub_stubEnvelope _ _ _ _) ?_
        -- the row without a digest is never the row of a text
        have hne : row.sha256 ≠ [] := by
          rw [hsha]
          exact platform.sha256Hex_ne_nil _
        obtain ⟨text, htextsha, htextsize⟩ := (hold.sized row rfl).resolve_left hne
        rw [hsize, htextsize, htext text (hsha.symm.trans htextsha)]
        rfl
  | @identical hit origFile lines hpart hrow =>
      have hstub := isStub_stubEnvelope (contentStub hit.relPath lines (t.hash platform)) origFile
        t.filePath lines
      refine ⟨rowAccount_recorded h.reads (htarget _) ((hslice _).trans hpart)
        isUnchanged_contentStub (by rw [decide_eq_true hstub]; rfl), fun path key => ?_⟩
      show ContentAccount _ _ path key
        (((contentStubbed i.world.contentDbPath (t.contentKey platform) s).content path).get? key)
      rw [contentStubbed, content_updateContent]
      by_cases hown : path = i.world.contentDbPath ∧ key = t.contentKey platform
      · obtain ⟨rfl, rfl⟩ := hown
        have hold := h.content i.world.contentDbPath (t.contentKey platform)
        rw [hrow] at hold
        rw [if_pos rfl, OrderedMap.get?_amend, if_pos rfl, hrow, Option.map_some]
        refine hold.identical isIdentical_contentStub ?_ ?_
        · rw [Exchange.isOfContent, htarget, Option.any_some, beq_self_eq_true, beq_self_eq_true]
          rfl
        · obtain ⟨text, htextsha, htextsize⟩ := hold.sized hit rfl
          rw [hsize, htextsize, htext text htextsha]
          rfl
      · have hother : Exchange.isOfContent platform
            ⟨i, some (stubEnvelope (contentStub hit.relPath lines (t.hash platform)) origFile
              t.filePath lines)⟩ path key = false := by
          rw [Exchange.isOfContent, htarget, Option.any_some, Bool.and_eq_false_iff, beq_eq_false_iff_ne,
            beq_eq_false_iff_ne]
          by_contra hboth
          push Not at hboth
          exact hown ⟨hboth.1.symm, hboth.2.symm⟩
        have hrest := (h.content path key).other (by rw [hother, Bool.and_false])
        split_ifs with hpath
        · rw [OrderedMap.get?_amend, if_neg fun hkey => hown ⟨hpath, hkey⟩, ← hpath]
          exact hrest
        · exact hrest
  | @fresh _ lines noted hpart hanswer hnoted =>
      have hcache : noted.cache = s.cache := by
        rcases hnoted with rfl | ⟨-, root, rel, lines, rfl⟩ <;> rfl
      have hreads : ∀ root key, RowAccount platform past root key ((noted.cache root).reads.get? key) := by
        rw [hcache]
        exact h.reads
      refine ⟨rowAccount_recorded hreads (htarget answer) ((hslice answer).trans hpart)
        (isUnchanged_of_not_isStub hanswer) (by rw [decide_eq_false hanswer]; rfl),
        contentAccount_of_not_identical (s := noted) (fun path key => ?_)
          (isIdentical_of_not_isStub hanswer)⟩
      rcases hnoted with rfl | ⟨hnone, root, rel, lines, rfl⟩
      · exact h.content path key
      · rw [content_updateContent]
        split_ifs with hpath
        · subst hpath
          rw [OrderedMap.get?_upsert, hnone]
          split_ifs with hkey
          · subst hkey
            have hold := h.content i.world.contentDbPath (t.contentKey platform)
            rw [hnone] at hold
            exact hold.noted rfl rfl rfl
          · exact h.content i.world.contentDbPath key
        · exact h.content path key

/-! ## Runs -/

/-- The invocation succeeds: nothing fails that the hook does not see to, and no operation loses
its report. -/
def Invocation.Succeeds (platform : Platform) (i : Invocation Root) (s : Stores Root) : Prop :=
  Fate.lost ∉ i.world.fates ∧ (i.handle platform i.world.fates s).1.isSome

/-- Every invocation of a run succeeds. -/
def AllSucceed (platform : Platform) : List (Invocation Root) → Stores Root → Prop
  | [], _ => True
  | i :: is, s => i.Succeeds platform s ∧ AllSucceed platform is (i.serve platform s).2

/-- An exchange without a target is in no account. -/
theorem Accounts.untouched (h : Accounts platform past s) (ht : e.target = none) :
    Accounts platform (past ++ [e]) s where
  reads := fun root key => (h.reads root key).other (by rw [Exchange.isOf, ht]; rfl)
  content := fun path key => (h.content path key).other (by
    rw [Exchange.isOfContent, ht, Option.any_none, Bool.and_false, Bool.and_false])

/-- **One invocation** that succeeds keeps the accounts. -/
theorem Accounts.serve (hinjective : Function.Injective platform.sha256Hex)
    (h : Accounts platform past s) (hread : i.hook = .read) (hok : i.Succeeds platform s) :
    Accounts platform (past ++ [⟨i, (i.serve platform s).1⟩]) (i.serve platform s).2 := by
  obtain ⟨hfates, hsome⟩ := hok
  unfold Invocation.serve
  unfold Invocation.handle at hsome ⊢
  cases hinput : i.payload with
  | none =>
      refine h.untouched ?_
      rw [Exchange.target, hinput, Option.bind_none]
  | some input =>
      rw [hinput, hread] at hsome
      simp only [hread] at hsome ⊢
      have hrun := @handleRead_reported Root _ platform i.world input s i.world.fates s hfates rfl
      revert hrun hsome
      rcases handleRead platform i.world input i.world.fates s with ⟨_ | answer, rest, s'⟩
      · intro hsome
        cases hsome
      · rintro - ⟨-, hrun⟩
        cases ht : readTarget i.world input with
        | none =>
            rw [ht] at hrun
            obtain ⟨rfl, rfl⟩ := hrun
            refine h.untouched ?_
            rw [Exchange.target, hinput, Option.bind_some, ht]
        | some t =>
            rw [ht] at hrun
            exact h.served hinjective hinput ht hrun

theorem Accounts.run (hinjective : Function.Injective platform.sha256Hex)
    {invocations : List (Invocation Root)} (h : Accounts platform past s)
    (hread : ∀ i ∈ invocations, i.hook = .read) (hok : AllSucceed platform invocations s) :
    Accounts platform (past ++ (run platform invocations s).1) (run platform invocations s).2 := by
  induction invocations generalizing past s with
  | nil =>
      rw [Hook.run, List.append_nil]
      exact h
  | cons i is ih =>
      have hstep := h.serve hinjective (hread i List.mem_cons_self) hok.1
      have hrest := ih hstep (fun i hi => hread i (List.mem_cons_of_mem _ hi)) hok.2
      rw [List.append_assoc, List.singleton_append] at hrest
      exact hrest

/-! ## The totals -/

/-- The exchanges answered by the stub for the same text, of one root, that still count. -/
def standingIn (platform : Platform) (past : List (Exchange Root)) (root : Root) : List (Exchange Root) :=
  (standing platform past).filter fun e => e.target.any fun t => decide (t.root = root)

/-- The exchanges answered by a stub of one content store. -/
def replacedIn (past : List (Exchange Root)) (path : Str) : List (Exchange Root) :=
  past.filter fun e => isIdentical e.answer && e.invocation.world.contentDbPath == path &&
    e.target.isSome

theorem statsFor_bytesSaved (h : Accounts platform past s) (root : Root) :
    (statsFor (s.cache root)).bytesSaved = totalSize (standingIn platform past root) := by
  have hrows : (statsFor (s.cache root)).bytesSaved =
      ((s.cache root).reads.keys.map fun key => totalSize (standingAt platform past root key)).sum := by
    show ((s.cache root).reads.entries.map _).sum = (((s.cache root).reads.entries.map Prod.fst).map _).sum
    rw [List.map_map]
    refine congrArg List.sum (List.map_congr_left fun e he => ?_)
    have hrow := (h.reads root e.1).saved
    rw [OrderedMap.get?_eq_some_of_mem he] at hrow
    exact hrow
  have hfilter : ∀ key, standingAt platform past root key =
      (standingIn platform past root).filter (·.isOf root key) := by
    intro key
    rw [standingAt, standingIn, List.filter_filter]
    refine List.filter_congr fun e _ => ?_
    unfold Exchange.isOf
    cases e.target with
    | none => rfl
    | some t => cases h : decide (t.root = root) <;> simp [h]
  rw [hrows]
  simp only [hfilter]
  refine OrderedMap.sum_by_key (s.cache root).reads (fun e key => e.isOf root key) Exchange.size ?_
  intro e he
  obtain ⟨hstanding, hroot⟩ := List.mem_filter.mp he
  cases ht : e.target with
  | none =>
      rw [ht] at hroot
      cases hroot
  | some t =>
      rw [ht, Option.any_some, decide_eq_true_eq] at hroot
      subst hroot
      refine ⟨t.key, ?_, fun key => (isOf_iff ht).trans (and_iff_right rfl)⟩
      -- a key that was read has a row
      rw [OrderedMap.mem_keys_iff]
      cases hget : (s.cache t.root).reads.get? t.key with
      | some row => exact ⟨row, rfl⟩
      | none =>
          have hcount := (h.reads t.root t.key).readCount
          rw [hget, Option.elim_none, eq_comm, List.countP_eq_zero] at hcount
          exact absurd ((isOf_iff ht).mpr ⟨rfl, rfl⟩) (hcount e (mem_of_mem_standing hstanding))

theorem contentStatsFor_bytesSaved (h : Accounts platform past s) (path : Str) :
    (contentStatsFor (s.content path)).bytesSaved = totalSize (replacedIn past path) := by
  have hrows : (contentStatsFor (s.content path)).bytesSaved =
      ((s.content path).keys.map fun key => totalSize (replacedBy platform past path key)).sum := by
    show ((s.content path).entries.map _).sum = (((s.content path).entries.map Prod.fst).map _).sum
    rw [List.map_map]
    refine congrArg List.sum (List.map_congr_left fun e he => ?_)
    have hrow := (h.content path e.1).saved
    rw [OrderedMap.get?_eq_some_of_mem he] at hrow
    exact hrow
  have hfilter : ∀ key, replacedBy platform past path key =
      (replacedIn past path).filter fun e => e.target.any fun t => t.contentKey platform == key := by
    intro key
    rw [replacedBy, replacedIn, List.filter_filter]
    refine List.filter_congr fun e _ => ?_
    unfold Exchange.isOfContent
    cases e.target with
    | none => simp
    | some t => cases isIdentical e.answer <;> simp [Bool.and_comm]
  rw [hrows]
  simp only [hfilter]
  refine OrderedMap.sum_by_key (s.content path)
    (fun e key => e.target.any fun t => t.contentKey platform == key) Exchange.size ?_
  intro e he
  obtain ⟨hpast, htest⟩ := List.mem_filter.mp he
  rw [Bool.and_eq_true, Bool.and_eq_true] at htest
  obtain ⟨t, ht⟩ := Option.isSome_iff_exists.mp htest.2
  refine ⟨t.contentKey platform, ?_, fun key => ?_⟩
  · rw [OrderedMap.mem_keys_iff]
    cases hget : (s.content path).get? (t.contentKey platform) with
    | some row => exact ⟨row, rfl⟩
    | none =>
        have hnone := (h.content path (t.contentKey platform)).known hget
        rw [replacedBy, List.filter_eq_nil_iff] at hnone
        refine absurd ?_ (hnone e hpast)
        rw [Exchange.isOfContent, ht, htest.1.1, htest.1.2, Option.any_some, beq_self_eq_true]
        rfl
  · rw [ht, Option.any_some, beq_iff_eq, eq_comm]

/-- **What the tables say of a run.** After any invocations of the read hook that succeed, the row
of every key counts its reads and the bytes of those that were answered without a stub. The
bytes saved are, of a root, those of the stubs for the same text whose row was not recorded
fresh since; of a content store, those of all its stubs. -/
theorem read_accounts (hinjective : Function.Injective platform.sha256Hex)
    (invocations : List (Invocation Root)) (hread : ∀ i ∈ invocations, i.hook = .read)
    (hok : AllSucceed platform invocations Stores.empty) (past : List (Exchange Root)) (s : Stores Root)
    (hrun : run platform invocations Stores.empty = (past, s)) :
    (∀ root key,
      ((s.cache root).reads.get? key).elim 0 ReadRow.readCount = past.countP (·.isOf root key) ∧
        ((s.cache root).reads.get? key).elim 0 ReadRow.bytesDelivered =
          totalSize (lettingThrough past root key)) ∧
      (∀ root, (statsFor (s.cache root)).bytesSaved = totalSize (standingIn platform past root)) ∧
      ∀ path, (contentStatsFor (s.content path)).bytesSaved = totalSize (replacedIn past path) := by
  have haccounts : Accounts platform past s := by
    have h := Accounts.run hinjective (@Accounts.empty Root _ platform) hread hok
    rw [hrun, List.nil_append] at h
    exact h
  refine ⟨fun root key => ?_, statsFor_bytesSaved haccounts, contentStatsFor_bytesSaved haccounts⟩
  exact ⟨(haccounts.reads root key).readCount, (haccounts.reads root key).delivered⟩

end Past

/-! ## A file that changes after a stub -/

/-- The file of `abcRead` once a letter was added to it. -/
def abcdRead : Invocation Unit where
  hook := .read
  payload := some (object
    [("session_id", string "s1"),
     ("tool_input", object [("file_path", string "/repo/a.txt")]),
     ("tool_response", object [("file", object [("content", string "abcd")])])])
  world := plainWorld []

/-- The file is read, read again, and read once more when it has changed. -/
def changedRun : List (Exchange Unit) × Stores Unit :=
  run abcPlatform [abcRead [], abcRead [], abcdRead] Stores.empty

theorem changedRun_succeeds : AllSucceed abcPlatform [abcRead [], abcRead [], abcdRead] Stores.empty :=
  ⟨⟨by decide, by decide +kernel⟩, ⟨by decide, by decide +kernel⟩, ⟨by decide, by decide +kernel⟩, trivial⟩

/-- Its row has three reads, and seven bytes that went through. -/
theorem changedRun_accounts :
    let key : RowKey := ⟨"s1".toList, [], "/repo/a.txt".toList⟩
    (((changedRun.2.cache ()).reads.get? key).elim 0 ReadRow.readCount = 3 ∧
      ((changedRun.2.cache ()).reads.get? key).elim 0 ReadRow.bytesDelivered = 7) ∧
      (statsFor (changedRun.2.cache ())).bytesSaved = 0 := by
  obtain ⟨hrows, hroots, -⟩ := read_accounts abcPlatform_injective [abcRead [], abcRead [], abcdRead]
    (by simp [abcRead, abcdRead]) changedRun_succeeds changedRun.1 changedRun.2 rfl
  refine ⟨?_, ?_⟩
  · rw [(hrows () _).1, (hrows () _).2]
    decide +kernel
  · rw [hroots]
    decide +kernel

/-- The stub in between kept three bytes from the reader, and neither table shows them. -/
theorem changedRun_forgets :
    AllSucceed abcPlatform [abcRead [], abcRead [], abcdRead] Stores.empty ∧
      totalSize (changedRun.1.filter fun e => decide (IsStub e.answer)) = 3 ∧
      (statsFor (changedRun.2.cache ())).bytesSaved +
        (contentStatsFor (changedRun.2.content "/content.db".toList)).bytesSaved = 0 :=
  ⟨changedRun_succeeds, by decide +kernel, by decide +kernel⟩

end Devscout.Hook
