import Heph.Lib.Machine
import Heph.Addr.Addr

/-!
# The queue of the cache

The local cache keeps its entries in a database. Any number of threads read it, but only one writes:
a writer thread, which takes **commands** – a write or a delete of one entry – off a channel, in
batches, and applies a batch in one transaction. A batch that fails is not applied at all.

So that a thread sees what it has queued, the key of a command is *pending* until its batch is done.
To each command belongs a **slot** that is completed then, and the tracker maps a key to the slot of
its last command; a reader that finds one waits for it (`SqliteCache.find`) before it looks at the
database. Registering a slot and sending the command are one critical section
(`SqliteCache.registerAndSend`).

The writer may die, by a panic anywhere in its loop. On the way out it completes the slots that are
in the map (`SqliteCache.drain`), and then its end of the channel goes, with the commands that
are still in it. From then on nothing can be queued.

A reader looks at the database twice. First it **selects** the rowid of the entry and the length of
its data, and then it opens the data of the row that has this rowid. Nothing keeps the row there in
between, and a rowid that has become free may be given again (`CacheTable.newRowId`).

A critical section is one step here, and so are a transaction, a look at the database, and the
completion of a command.
-/

namespace Heph

/-! ### Commands -/

/-- The key of an entry. -/
structure EntryKey where
  addr : Text
  hashin : Text
  name : Text
  deriving DecidableEq

/-- What is done to an entry. -/
inductive CacheOp where
  | write (data : List UInt8)
  | delete
  deriving DecidableEq

/-- `WriterCmd`. A slot is known by its number. -/
structure WriterCmd where
  key : EntryKey
  op : CacheOp
  slot : ℕ
  deriving DecidableEq

namespace WriterCmd

/-- What the entry is after it. -/
def entry (c : WriterCmd) : Option (List UInt8) :=
  match c.op with
  | .write data => some data
  | .delete => none

/-- `write_bytes`. -/
def writeBytes (c : WriterCmd) : ℕ :=
  match c.op with
  | .write data => data.length
  | .delete => 0

/-- The last command for a key. -/
def lastFor (key : EntryKey) (cmds : List WriterCmd) : Option WriterCmd :=
  cmds.reverse.find? (·.key = key)

end WriterCmd

/-! ### The database -/

/-- A row of `artifacts`. -/
structure CacheRow where
  rowId : ℕ
  key : EntryKey
  data : List UInt8
  deriving DecidableEq

/-- The table `artifacts`: **no two rows have the same rowid, and no two the same key.** -/
structure CacheTable where
  rows : List CacheRow
  rowIds : (rows.map (·.rowId)).Nodup
  keys : (rows.map (·.key)).Nodup

namespace CacheTable

/-- The table of a new database. -/
def empty : CacheTable := ⟨[], .nil, .nil⟩

variable (t : CacheTable)

/-- The row of an entry. -/
def row (key : EntryKey) : Option CacheRow := t.rows.find? (·.key = key)

/-- The row with a rowid. -/
def rowAt (rowId : ℕ) : Option CacheRow := t.rows.find? (·.rowId = rowId)

/-- The data of an entry. -/
def entry (key : EntryKey) : Option (List UInt8) := (t.row key).map (·.data)

/-- The rowid that a new row gets is **one more than the largest that there is**. (A table whose
largest rowid is `i64::MAX`, where it is drawn at random, is left out.) -/
def newRowId : ℕ := (t.rows.map (·.rowId)).foldr max 0 + 1

theorem lt_newRowId {row : CacheRow} (h : row ∈ t.rows) : row.rowId < t.newRowId :=
  Nat.lt_succ_of_le (List.le_max_of_le (List.mem_map_of_mem h) le_rfl)

/-- `DELETE`. -/
def delete (key : EntryKey) : CacheTable where
  rows := t.rows.filter (·.key ≠ key)
  rowIds := t.rowIds.sublist (List.filter_sublist.map _)
  keys := t.keys.sublist (List.filter_sublist.map _)

/-- `INSERT OR REPLACE`. The rowid is chosen before the row goes that is replaced. -/
def insertOrReplace (key : EntryKey) (data : List UInt8) : CacheTable where
  rows := ⟨t.newRowId, key, data⟩ :: (t.delete key).rows
  rowIds := by
    refine List.nodup_cons.mpr ⟨fun h => ?_, (t.delete key).rowIds⟩
    obtain ⟨row, hrow, heq⟩ := List.mem_map.mp h
    exact (t.lt_newRowId (List.mem_of_mem_filter hrow)).ne heq
  keys := by
    refine List.nodup_cons.mpr ⟨fun h => ?_, (t.delete key).keys⟩
    obtain ⟨row, hrow, heq⟩ := List.mem_map.mp h
    exact absurd heq (by simpa using List.of_mem_filter hrow)

/-- One command, in a transaction. -/
def apply (c : WriterCmd) : CacheTable :=
  match c.op with
  | .write data => t.insertOrReplace c.key data
  | .delete => t.delete c.key

end CacheTable

/-! ### The writer thread and the tracker -/

/-- `i64::MAX`. -/
def i64Max : ℕ := 2 ^ 63 - 1

/-- `WRITE_BATCH_MAX`. -/
def writeBatchMax : ℕ := 64

/-- `WRITE_BATCH_MAX_BYTES`. -/
def writeBatchMaxBytes : ℕ := 32 * 1024 * 1024

/-- Where the writer thread is. -/
inductive WriterPoint where
  /-- At the channel, in `recv`. -/
  | receiving
  /-- `collect_batch`, with the bytes of the batch so far. -/
  | collecting (batch : List WriterCmd) (bytes : ℕ)
  /-- Before the transaction. -/
  | processing (batch : List WriterCmd)
  /-- After it, with the commands that are still to be completed. -/
  | completing (batch : List WriterCmd)
  /-- Out of the loop. -/
  | unwinding
  /-- The slots that were registered have been released. -/
  | drained
  /-- Its end of the channel is gone. -/
  | dropped
  deriving DecidableEq

namespace WriterPoint

/-- The commands that it has taken off the channel and not completed. -/
def batch : WriterPoint → List WriterCmd
  | collecting batch _ => batch
  | processing batch => batch
  | completing batch => batch
  | _ => []

/-- The writer is in its loop. -/
def Alive : WriterPoint → Prop
  | unwinding => False
  | drained => False
  | dropped => False
  | _ => True

instance : (w : WriterPoint) → Decidable w.Alive
  | receiving => isTrue trivial
  | collecting _ _ => isTrue trivial
  | processing _ => isTrue trivial
  | completing _ => isTrue trivial
  | unwinding => isFalse id
  | drained => isFalse id
  | dropped => isFalse id

end WriterPoint

/-- The cache: the tracker, the channel, the slots, the writer and the database. -/
structure SqliteCache where
  /-- `PendingTracker`: the slot of a key. -/
  map : AList fun _ : EntryKey => ℕ
  /-- The channel. -/
  queue : List WriterCmd
  /-- How many slots there are. -/
  slots : ℕ
  /-- Those that are completed. -/
  completed : List ℕ
  writer : WriterPoint
  db : CacheTable
  /-- The commands whose batch has succeeded: for what is to be said of them. -/
  committed : List WriterCmd

namespace SqliteCache

/-- The cache when it is opened. -/
def new (db : CacheTable) : SqliteCache := ⟨∅, [], 0, [], .receiving, db, []⟩

variable (s : SqliteCache)

/-- The commands that have been queued and are not completed, in their order. -/
def inFlight : List WriterCmd := s.writer.batch ++ s.queue

/-! ### The tracker -/

/-- `register_and_send`: the slot that is returned, if the command could be queued. If not, the
slot that it would have displaced is completed. -/
def registerAndSend (key : EntryKey) (op : CacheOp) : Option ℕ × SqliteCache :=
  if s.writer = .dropped then
    (none, { s with
      map := s.map.erase key
      completed := (s.map.lookup key).toList ++ s.completed })
  else
    (some s.slots, { s with
      map := s.map.insert key s.slots
      queue := s.queue ++ [⟨key, op, s.slots⟩]
      slots := s.slots + 1 })

/-- `find`. -/
def find (key : EntryKey) : Option ℕ := s.map.lookup key

/-- `complete`: the key is no longer pending, unless a newer command has it. -/
def complete (c : WriterCmd) : SqliteCache :=
  { s with
    map := if s.map.lookup c.key = some c.slot then s.map.erase c.key else s.map
    completed := c.slot :: s.completed }

/-- `DrainOnExit`. -/
def drain : SqliteCache :=
  { s with map := ∅, completed := s.map.entries.map Sigma.snd ++ s.completed }

/-! ### The writer thread -/

/-- What the writer does next. -/
inductive WriterEvent where
  | recv
  | collect
  | process (succeeds : Bool)
  | complete
  /-- It leaves its loop: by a panic, or as there is nobody left to send. -/
  | exit
  | drain
  | dropReceiver
  deriving DecidableEq

/-- `collect_batch`, one round of its loop. -/
def collect (batch : List WriterCmd) (bytes : ℕ) : SqliteCache :=
  if batch.length < writeBatchMax ∧ bytes < writeBatchMaxBytes then
    match s.queue with
    | c :: queue =>
      { s with
        queue
        writer := .collecting (batch ++ [c]) (min (bytes + c.writeBytes) i64Max) }
    | [] => { s with writer := .processing batch }
  else { s with writer := .processing batch }

/-- `process_batch`. -/
def process (batch : List WriterCmd) (succeeds : Bool) : SqliteCache :=
  if succeeds then
    { s with
      db := batch.foldl CacheTable.apply s.db
      committed := s.committed ++ batch
      writer := .completing batch }
  else { s with writer := .completing batch }

/-- `writer_loop`, and what follows it. -/
def writerStep : WriterEvent → Option SqliteCache
  | .recv =>
    match s.writer, s.queue with
    | .receiving, c :: queue => some { s with queue, writer := .collecting [c] c.writeBytes }
    | _, _ => none
  | .collect =>
    match s.writer with
    | .collecting batch bytes => some (s.collect batch bytes)
    | _ => none
  | .process succeeds =>
    match s.writer with
    | .processing batch => some (s.process batch succeeds)
    | _ => none
  | .complete =>
    match s.writer with
    | .completing (c :: batch) => some { s.complete c with writer := .completing batch }
    | .completing [] => some { s with writer := .receiving }
    | _ => none
  | .exit => if s.writer.Alive then some { s with writer := .unwinding } else none
  | .drain => if s.writer = .unwinding then some { s.drain with writer := .drained } else none
  | .dropReceiver =>
    if s.writer = .drained then some { s with queue := [], writer := .dropped } else none

end SqliteCache

/-! ### Its callers -/

/-- What `reader` gives. -/
inductive ReadResult where
  | notFound
  /-- `SizedReader`: the size, and the bytes that come from it. -/
  | sized (size : ℕ) (bytes : List UInt8)
  /-- There is no row with the rowid any more. A small entry gives an error then, and a large one,
  which is piped, a reader that ends before its first byte. -/
  | gone
  deriving DecidableEq

/-- What there is to read of an entry. -/
def ReadResult.ofEntry : Option (List UInt8) → ReadResult
  | some data => .sized data.length data
  | none => .notFound

/-- Where a thread is that uses the cache. -/
inductive ClientPoint where
  | idle
  /-- `delete` waits for its command. -/
  | deleting (key : EntryKey) (slot : ℕ)
  | deleted (key : EntryKey) (slot : ℕ)
  /-- `reader` has been called, when there were so many slots. -/
  | reading (key : EntryKey) (since : ℕ)
  /-- It waits for a slot that it has found. -/
  | waiting (key : EntryKey) (since slot : ℕ)
  /-- It has nothing to wait for. -/
  | ready (key : EntryKey) (since : ℕ)
  /-- It has selected the rowid of the entry and the length of its data. -/
  | selected (key : EntryKey) (since rowId blobLen : ℕ)
  /-- It has been given the entry. -/
  | returned (key : EntryKey) (since : ℕ) (result : ReadResult)
  deriving DecidableEq

/-- What a thread does next. -/
inductive ClientEvent where
  | commit (key : EntryKey) (data : List UInt8)
  | delete (key : EntryKey)
  | reader (key : EntryKey)
  | find
  | wake
  | lookup
  | blobOpen
  /-- It is done with what it was told. -/
  | finish
  deriving DecidableEq

namespace SqliteCache

/-- `SqliteCacheWriter::commit`: what is too large is not queued. -/
def commit (s : SqliteCache) (key : EntryKey) (data : List UInt8) : SqliteCache :=
  if data.length ≤ i64Max then (s.registerAndSend key (.write data)).2 else s

/-- One step of a thread. -/
def callerStep (s : SqliteCache) : ClientPoint → ClientEvent → Option (SqliteCache × ClientPoint)
  | .idle, .commit key data => some (s.commit key data, .idle)
  | .idle, .delete key =>
    match s.registerAndSend key .delete with
    | (some slot, s') => some (s', .deleting key slot)
    | (none, s') => some (s', .idle)
  | .deleting key slot, .wake =>
    if slot ∈ s.completed then some (s, .deleted key slot) else none
  | .idle, .reader key => some (s, .reading key s.slots)
  | .reading key since, .find =>
    match s.find key with
    | some slot => some (s, .waiting key since slot)
    | none => some (s, .ready key since)
  | .waiting key since slot, .wake =>
    if slot ∈ s.completed then some (s, .ready key since) else none
  | .ready key since, .lookup =>
    match s.db.row key with
    | some row => some (s, .selected key since row.rowId row.data.length)
    | none => some (s, .returned key since .notFound)
  | .selected key since rowId blobLen, .blobOpen =>
    match s.db.rowAt rowId with
    | some row => some (s, .returned key since (.sized blobLen row.data))
    | none => some (s, .returned key since .gone)
  | .deleted _ _, .finish => some (s, .idle)
  | .returned _ _ _, .finish => some (s, .idle)
  | _, _ => none

end SqliteCache

/-- The cache and the threads `ι` that use it. -/
structure SqliteSystem (ι : Type) where
  cache : SqliteCache
  callers : ι → ClientPoint

/-- A step of the writer, or of another thread. -/
inductive SqliteEvent (ι : Type) where
  | writer (e : SqliteCache.WriterEvent)
  | caller (i : ι) (e : ClientEvent)
  deriving DecidableEq

namespace SqliteSystem

variable {ι : Type} [DecidableEq ι]

/-- One step. -/
def step (s : SqliteSystem ι) : SqliteEvent ι → Option (SqliteSystem ι)
  | .writer e => (s.cache.writerStep e).map fun cache => { s with cache }
  | .caller i e =>
    (s.cache.callerStep (s.callers i) e).map fun r => ⟨r.1, Function.update s.callers i r.2⟩

/-- The cache, opened on a database, as a machine. -/
def machine (ι : Type) [DecidableEq ι] (db : CacheTable) :
    Machine (SqliteSystem ι) (SqliteEvent ι) :=
  ⟨⟨.new db, fun _ => .idle⟩, step⟩

end SqliteSystem

end Heph
