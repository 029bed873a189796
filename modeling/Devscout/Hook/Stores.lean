/-
# Devscout.Hook.Stores -- the read, command and content caches

Two databases carry what the hooks remember. Every repository root has a cache of its
own with a table of file reads and a table of commands; the content store is shared and
remembers digests whatever path they were read under. A row belongs to a session and to
an agent in it, both part of its key.

A row has the digest its key was last seen with, and counters that reports read. One
row kind has no digest: a read of a slice is paid for but nothing about it may be
cached, so a row it creates carries the empty text, which no digest is.
-/

import Devscout.Lib.Faulty
import Devscout.Lib.OrderedMap
import Devscout.Lib.Text
import Mathlib

namespace Devscout.Hook

open Lib

/-- A row of `reads`. -/
structure ReadRow where
  sha256 : Str
  size : Nat
  lines : Int
  stubCount : Nat
  readCount : Nat
  bytesDelivered : Nat
  deriving DecidableEq

/-- A row of `bash_reads`. -/
structure BashRow where
  sha256 : Str
  size : Nat
  lines : Int
  stubCount : Nat
  deriving DecidableEq

/-- A row of `content`: the path that brought the content first keeps its name. -/
structure ContentRow where
  root : Str
  relPath : Str
  size : Nat
  lines : Int
  stubCount : Nat
  deriving DecidableEq

/-- The key of a row: session, agent, and a path, a command or a digest. -/
structure RowKey where
  sessionId : Str
  agentId : Str
  item : Str
  deriving DecidableEq

/-- `cache.db` of one root. -/
structure Cache where
  reads : OrderedMap RowKey ReadRow := OrderedMap.empty
  bashReads : OrderedMap RowKey BashRow := OrderedMap.empty

/-- `content.db`. -/
abbrev ContentStore := OrderedMap RowKey ContentRow

/-- All databases: a cache for each root, a content store for each path the environment
may name. -/
structure Stores (Root : Type) where
  cache : Root → Cache
  content : Str → ContentStore

/-- Nothing was ever recorded. -/
def Stores.empty {Root : Type} : Stores Root := ⟨fun _ => {}, fun _ => OrderedMap.empty⟩

variable {Root : Type}

def Stores.updateCache [DecidableEq Root] (s : Stores Root) (root : Root) (f : Cache → Cache) :
    Stores Root :=
  { s with cache := Function.update s.cache root (f (s.cache root)) }

def Stores.updateContent (s : Stores Root) (path : Str) (f : ContentStore → ContentStore) :
    Stores Root :=
  { s with content := Function.update s.content path (f (s.content path)) }

/-! ## The statements

Each is one operation that succeeds or fails as a whole. Opening a database creates the
tables that are missing and leaves every row as it is. -/

abbrev StoreM (Root : Type) := Faulty (Stores Root)

/-- `open_store` and `open_content_store`. -/
def openStore : StoreM Root Unit := Faulty.look fun _ => ()

def lookupRead (root : Root) (key : RowKey) : StoreM Root (Option ReadRow) :=
  Faulty.look fun s => (s.cache root).reads.get? key

def lookupBash (root : Root) (key : RowKey) : StoreM Root (Option BashRow) :=
  Faulty.look fun s => (s.cache root).bashReads.get? key

def lookupContent (path : Str) (key : RowKey) : StoreM Root (Option ContentRow) :=
  Faulty.look fun s => (s.content path).get? key

/-- A freshly cached file read; `delivered` tells whether its bytes reached the reader. -/
structure RecordFresh where
  key : RowKey
  sha256 : Str
  size : Nat
  lines : Int
  delivered : Bool

namespace RecordFresh

def bytesDelivered (p : RecordFresh) : Nat := if p.delivered then p.size else 0

/-- The row inserted when the key is new. -/
def row (p : RecordFresh) : ReadRow := ⟨p.sha256, p.size, p.lines, 0, 1, p.bytesDelivered⟩

/-- The row its key has from now on. -/
def update (p : RecordFresh) (old : ReadRow) : ReadRow :=
  { old with
    sha256 := p.sha256
    size := p.size
    lines := p.lines
    stubCount := 0
    readCount := old.readCount + 1
    bytesDelivered := old.bytesDelivered + p.bytesDelivered }

end RecordFresh

def recordFresh [DecidableEq Root] (root : Root) (p : RecordFresh) : StoreM Root Unit :=
  Faulty.change fun s => s.updateCache root fun c =>
    { c with reads := c.reads.upsert p.key p.row p.update }

/-- A read of a slice moves the counters only. -/
def spend (size : Nat) (old : ReadRow) : ReadRow :=
  { old with readCount := old.readCount + 1, bytesDelivered := old.bytesDelivered + size }

def recordSpend [DecidableEq Root] (root : Root) (key : RowKey) (size : Nat) : StoreM Root Unit :=
  Faulty.change fun s => s.updateCache root fun c =>
    { c with reads := c.reads.upsert key ⟨[], 0, 0, 0, 1, size⟩ (spend size) }

def bumpStub [DecidableEq Root] (root : Root) (key : RowKey) : StoreM Root Unit :=
  Faulty.change fun s => s.updateCache root fun c =>
    { c with
      reads := c.reads.amend key fun old =>
        { old with stubCount := old.stubCount + 1, readCount := old.readCount + 1 } }

/-- A freshly cached command replaces the row its key had. -/
def recordBashFresh [DecidableEq Root] (root : Root) (key : RowKey) (sha256 : Str) (size : Nat)
    (lines : Int) : StoreM Root Unit :=
  Faulty.change fun s => s.updateCache root fun c =>
    { c with bashReads := c.bashReads.upsert key ⟨sha256, size, lines, 0⟩ fun _ =>
        ⟨sha256, size, lines, 0⟩ }

def bumpBashStub [DecidableEq Root] (root : Root) (key : RowKey) : StoreM Root Unit :=
  Faulty.change fun s => s.updateCache root fun c =>
    { c with
      bashReads := c.bashReads.amend key fun old => { old with stubCount := old.stubCount + 1 } }

/-- `ON CONFLICT DO NOTHING`: the row its digest already has stays. -/
def recordContent (path : Str) (key : RowKey) (row : ContentRow) : StoreM Root Unit :=
  Faulty.change fun s => s.updateContent path fun c => c.upsert key row id

def bumpContentStub (path : Str) (key : RowKey) : StoreM Root Unit :=
  Faulty.change fun s => s.updateContent path fun c =>
    c.amend key fun old => { old with stubCount := old.stubCount + 1 }

/-! ## Rows that are backed

What the digests stand for is kept apart from the tables: a ledger says for which hook,
session, agent and digest a text was given out. -/

inductive HookKind where
  | read
  | bash
  deriving DecidableEq

/-- Which digests stand for a text that a hook let through to a session's agent. -/
abbrev Ledger := HookKind → Str → Str → Str → Prop

/-- One ledger is part of another. -/
def Ledger.Within (l l' : Ledger) : Prop :=
  ∀ hook session agent sha, l hook session agent sha → l' hook session agent sha

/-- **The invariant of the databases.** Every digest stands for a text given out: a file
row's, unless it has none, and a content row's by a read, a command row's by a command. -/
structure Backed (l : Ledger) (s : Stores Root) : Prop where
  reads : ∀ root, (s.cache root).reads.All fun key row =>
    row.sha256 = [] ∨ l .read key.sessionId key.agentId row.sha256
  bashReads : ∀ root, (s.cache root).bashReads.All fun key row =>
    l .bash key.sessionId key.agentId row.sha256
  content : ∀ path, (s.content path).All fun key _ => l .read key.sessionId key.agentId key.item

variable {l l' : Ledger} {s : Stores Root} {root : Root} {path : Str} {key : RowKey}

theorem Backed.empty : Backed l (Stores.empty : Stores Root) :=
  ⟨fun _ => OrderedMap.All.nil, fun _ => OrderedMap.All.nil, fun _ => OrderedMap.All.nil⟩

theorem Backed.mono (h : Backed l s) (hl : l.Within l') : Backed l' s where
  reads := fun root => (h.reads root).mono fun _ _ => Or.imp_right (hl .read _ _ _)
  bashReads := fun root => (h.bashReads root).mono fun _ _ => hl .bash _ _ _
  content := fun path => (h.content path).mono fun _ _ => hl .read _ _ _

/-- A cache is changed table by table. -/
theorem Backed.updateCache [DecidableEq Root] (h : Backed l s) {f : Cache → Cache}
    (hreads : (f (s.cache root)).reads.All fun key row =>
      row.sha256 = [] ∨ l .read key.sessionId key.agentId row.sha256)
    (hbash : (f (s.cache root)).bashReads.All fun key row =>
      l .bash key.sessionId key.agentId row.sha256) :
    Backed l (s.updateCache root f) := by
  refine ⟨?_, ?_, h.content⟩
  · intro root'
    show (Function.update s.cache root (f (s.cache root)) root').reads.All _
    by_cases hroot : root' = root
    · rw [hroot, Function.update_self]
      exact hreads
    · rw [Function.update_of_ne hroot]
      exact h.reads root'
  · intro root'
    show (Function.update s.cache root (f (s.cache root)) root').bashReads.All _
    by_cases hroot : root' = root
    · rw [hroot, Function.update_self]
      exact hbash
    · rw [Function.update_of_ne hroot]
      exact h.bashReads root'

theorem Backed.updateContent (h : Backed l s) {f : ContentStore → ContentStore}
    (hcontent : (f (s.content path)).All fun key _ => l .read key.sessionId key.agentId key.item) :
    Backed l (s.updateContent path f) := by
  refine ⟨h.reads, h.bashReads, ?_⟩
  intro path'
  show (Function.update s.content path (f (s.content path)) path').All _
  by_cases hpath : path' = path
  · rw [hpath, Function.update_self]
    exact hcontent
  · rw [Function.update_of_ne hpath]
    exact h.content path'

/-! ## What each statement needs and keeps -/

open Faulty

theorem openStore_keeps :
    Triple (Backed l) (openStore : StoreM Root Unit) (fun _ => Backed l) (Backed l) :=
  Triple.look (fun _ h => h) (fun _ h => h)

/-- A row found is backed. -/
theorem lookupRead_finds : Triple (Backed l) (lookupRead root key)
    (fun found s => Backed l s ∧ ∀ row ∈ found,
      row.sha256 = [] ∨ l .read key.sessionId key.agentId row.sha256) (Backed l) :=
  Triple.look (fun _ h => ⟨h, fun row hrow => h.reads root key row hrow⟩) (fun _ h => h)

theorem lookupBash_finds : Triple (Backed l) (lookupBash root key)
    (fun found s => Backed l s ∧ ∀ row ∈ found, l .bash key.sessionId key.agentId row.sha256)
    (Backed l) :=
  Triple.look (fun _ h => ⟨h, fun row hrow => h.bashReads root key row hrow⟩) (fun _ h => h)

theorem lookupContent_finds : Triple (Backed l) (lookupContent path key : StoreM Root _)
    (fun found s => Backed l s ∧ ∀ row ∈ found, l .read key.sessionId key.agentId key.item)
    (Backed l) :=
  Triple.look (fun _ h => ⟨h, fun row hrow => h.content path key row hrow⟩) (fun _ h => h)

/-- A change that keeps the invariant keeps it whether or not it is reported. -/
theorem change_keeps {f : Stores Root → Stores Root} (hf : ∀ s, Backed l s → Backed l (f s)) :
    Triple (Backed l) (change f) (fun _ => Backed l) (Backed l) :=
  Triple.change hf (fun _ h => h) hf

theorem recordFresh_keeps [DecidableEq Root] {p : RecordFresh}
    (hp : l .read p.key.sessionId p.key.agentId p.sha256) :
    Triple (Backed l) (recordFresh root p) (fun _ => Backed l) (Backed l) := by
  refine change_keeps fun s h => h.updateCache ?_ (h.bashReads root)
  exact (h.reads root).upsert (Or.inr hp) fun _ _ => Or.inr hp

/-- A slice leaves the digest of the row as it was. -/
theorem recordSpend_keeps [DecidableEq Root] {size : Nat} :
    Triple (Backed l) (recordSpend root key size) (fun _ => Backed l) (Backed l) := by
  refine change_keeps fun s h => h.updateCache ?_ (h.bashReads root)
  exact (h.reads root).upsert (Or.inl rfl) fun _ hrow => hrow

theorem bumpStub_keeps [DecidableEq Root] :
    Triple (Backed l) (bumpStub root key) (fun _ => Backed l) (Backed l) := by
  refine change_keeps fun s h => h.updateCache ?_ (h.bashReads root)
  exact (h.reads root).amend fun _ hrow => hrow

theorem recordBashFresh_keeps [DecidableEq Root] {sha256 : Str} {size : Nat} {lines : Int}
    (hsha : l .bash key.sessionId key.agentId sha256) :
    Triple (Backed l) (recordBashFresh root key sha256 size lines) (fun _ => Backed l)
      (Backed l) := by
  refine change_keeps fun s h => h.updateCache (h.reads root) ?_
  exact (h.bashReads root).upsert hsha fun _ _ => hsha

theorem bumpBashStub_keeps [DecidableEq Root] :
    Triple (Backed l) (bumpBashStub root key) (fun _ => Backed l) (Backed l) := by
  refine change_keeps fun s h => h.updateCache (h.reads root) ?_
  exact (h.bashReads root).amend fun _ hrow => hrow

theorem recordContent_keeps {row : ContentRow}
    (hkey : l .read key.sessionId key.agentId key.item) :
    Triple (Backed l) (recordContent path key row : StoreM Root Unit) (fun _ => Backed l)
      (Backed l) := by
  refine change_keeps fun s h => h.updateContent ?_
  exact (h.content path).upsert hkey fun _ _ => hkey

theorem bumpContentStub_keeps :
    Triple (Backed l) (bumpContentStub path key : StoreM Root Unit) (fun _ => Backed l)
      (Backed l) := by
  refine change_keeps fun s h => h.updateContent ?_
  exact (h.content path).amend fun _ hrow => hrow

end Devscout.Hook
