import Heph.Lib.Faulty
import Heph.Lib.FileTree
import Heph.Cache.Sqlite

/-!
# The two backends of the cache

What is small is kept in the database, the *primary*, and what is large in a file: `LocalCacheSpill`
puts the two together. A blob that grows past a threshold while it is written to the primary is
**promoted** (`SpillWriter.spill`): what is staged so far is committed to the primary, read
back from there, copied into a new file, and deleted from the primary again. What comes then goes to
the file. The manifest of a revision stays in the primary whatever its size. A lookup asks the
primary first and the file store when the primary does not have the entry.

The backends are maps: an operation on one is done at once, or it fails and has done nothing, as a
tape tells. A backend that takes only a part of what it is given to write is one that was given
less.
-/

namespace Heph

open Function Faulty

/-! ### Backends -/

/-- A backend: the database, or the files. -/
inductive Backend where
  | primary
  | blobs
  deriving DecidableEq

/-- What is asked of a backend, or of one of its writers. -/
inductive BackendCall where
  | reader
  | seekableReader
  | writer
  | write
  | flush
  | commit
  | exists
  | existsCommitted
  | delete
  | filePath
  | adoptFile
  /-- `io::copy` of what the primary has into the file. -/
  | copy
  deriving DecidableEq

structure BackendOp where
  backend : Backend
  call : BackendCall
  deriving DecidableEq

/-- The entries of a backend. -/
abbrev CacheDb : Type := EntryKey → Option (List UInt8)

/-- The two backends. -/
structure Backends where
  entries : Backend → CacheDb
  /-- What a promotion has committed to the primary last: for what is to be said of it. -/
  promoted : Option (List UInt8)

/-- Another entry in a backend. -/
def Backends.put (s : Backends) (backend : Backend) (key : EntryKey)
    (entry : Option (List UInt8)) : Backends :=
  ⟨update s.entries backend (update (s.entries backend) key entry), s.promoted⟩

/-- `LocalCacheSpill`, and what of it fails. -/
abbrev SpillCache : Type := Faulty BackendOp Backends

inductive SpillError where
  /-- `NotFoundError`. -/
  | notFound
  /-- The error of a backend. -/
  | backend (op : BackendOp)
  /-- `drop stale spilled blob for {addr} {name}`. -/
  | dropStaleBlob (key : EntryKey) (e : SpillError)
  /-- `open primary cache writer for {addr} {name}`. -/
  | openPrimary (key : EntryKey) (e : SpillError)
  /-- `stat {src} for adoption into {addr} {name}`. -/
  | statSource (key : EntryKey) (e : IoError)
  /-- `probe primary for superseded blob {addr} {name}`. -/
  | probePrimary (key : EntryKey) (e : SpillError)
  /-- `drop stale primary blob for {addr} {name}`. -/
  | dropStalePrimary (key : EntryKey) (e : SpillError)
  /-- `cannot commit cache file {dest}: an earlier write failed`. -/
  | earlierWriteFailed (key : EntryKey)
  /-- `spill writer for {addr} {name} has no open backend writer to commit`. -/
  | noOpenWriter (key : EntryKey)
  /-- `commit {backend} blob {name} for {addr}`; the file store is called `spilled`. -/
  | commit (backend : Backend) (key : EntryKey) (e : SpillError)
  /-- `spill called without an open primary writer`. The source panics there (`expect`). -/
  | spillWithoutWriter
  /-- `primary writer missing before spill`. The source panics there (`expect`). -/
  | primaryWriterMissing
  deriving DecidableEq

/-- Computations on the backends. -/
abbrev CacheM (α : Type) : Type := ExceptT SpillError (StateM SpillCache) α

namespace Backend

variable (backend : Backend) (c : BackendCall)

/-- An operation, which may fail. -/
def call : CacheM PUnit :=
  attempt ⟨backend, c⟩ (.backend ⟨backend, c⟩)

/-- A look at an entry. -/
def lookUp (key : EntryKey) :
    CacheM (Option (List UInt8)) := do
  backend.call c
  return (← get).state.entries backend key

/-- A change of an entry. -/
def change (key : EntryKey) (entry : Option (List UInt8)) :
    CacheM PUnit := do
  backend.call c
  modify (·.update (·.put backend key entry))

/-- The bytes of an entry. -/
def read (key : EntryKey) : CacheM (List UInt8) := do
  match ← backend.lookUp c key with
  | some data => return data
  | none => throw .notFound

def reader (backend : Backend) : EntryKey → CacheM (List UInt8) := backend.read .reader

def seekableReader (backend : Backend) : EntryKey → CacheM (List UInt8) :=
  backend.read .seekableReader

def exists? (backend : Backend) (c : BackendCall) (key : EntryKey) : CacheM Bool := do
  return (← backend.lookUp c key).isSome

def delete (backend : Backend) (key : EntryKey) : CacheM PUnit := backend.change .delete key none

/-- `file_path` of the file store, which has one file for a key. An error is no path. -/
def filePath (key : EntryKey) : CacheM (Option EntryKey) := do
  if ← succeeds ⟨.blobs, .filePath⟩ then
    return if ((← get).state.entries .blobs key).isSome then some key else none
  else return none

/-- `adopt_file` of the file store. It declines if the file cannot be renamed. -/
def adoptFile (key : EntryKey) (data : List UInt8) (renames : Bool) : CacheM Bool := do
  if renames then
    change .blobs .adoptFile key (some data)
    return true
  else
    Backend.blobs.call .adoptFile
    return false

end Backend

/-! ### The writer -/

/-- `AtomicFileWriter`. -/
structure BlobWriter where
  staged : List UInt8
  failed : Bool
  deriving DecidableEq

/-- `SpillWriter`. The writer of the primary is what it has staged. -/
structure SpillWriter where
  key : EntryKey
  threshold : ℕ
  size : ℕ
  primaryWriter : Option (List UInt8)
  blobWriter : Option BlobWriter

/-- Computations with a writer. -/
abbrev WriterM (ω α : Type) : Type := ExceptT SpillError (StateM (ω × SpillCache)) α

namespace SpillWriter

/-- The writer, as it is now. -/
def self : WriterM SpillWriter SpillWriter := return (← get).1

def setSelf (w : SpillWriter) : WriterM SpillWriter PUnit := modify fun s => (w, s.2)

/-- The second half of `spill`: what has been committed to the primary is copied to a file, and
deleted. -/
def migrate (w : SpillWriter) : WriterM SpillWriter PUnit := do
  onSnd (Backend.blobs.call .writer)
  let data ← onSnd (Backend.primary.reader w.key)
  onSnd (Backend.blobs.call .copy)
  onSnd (Backend.primary.delete w.key)
  setSelf { w with blobWriter := some ⟨data, false⟩ }

/-- `spill`: a blob is promoted. -/
def spill : WriterM SpillWriter PUnit := do
  let w ← self
  match w.primaryWriter with
  | none => throw .spillWithoutWriter
  | some staged =>
    setSelf { w with primaryWriter := none }
    onSnd (Backend.primary.call .flush)
    onSnd (Backend.primary.change .commit w.key (some staged))
    onSnd (modify (·.update ({ · with promoted := some staged })))
    migrate { w with primaryWriter := none }

/-- An operation of the file's writer, which notes that it has failed. -/
def blobCall (w : SpillWriter) (b : BlobWriter) (c : BackendCall) :
    WriterM SpillWriter PUnit := do
  if ← onSnd (succeeds ⟨.blobs, c⟩) then return
  else
    setSelf { w with blobWriter := some { b with failed := true } }
    throw (.backend ⟨.blobs, c⟩)

def write (data : List UInt8) : WriterM SpillWriter ℕ := do
  let w ← self
  match w.blobWriter with
  | some b =>
    blobCall w b .write
    setSelf { w with
      size := w.size + data.length, blobWriter := some { b with staged := b.staged ++ data } }
    return data.length
  | none =>
    match w.primaryWriter with
    | none => throw .primaryWriterMissing
    | some staged =>
      onSnd (Backend.primary.call .write)
      setSelf { w with
        size := w.size + data.length, primaryWriter := some (staged ++ data) }
      if w.size + data.length > w.threshold then spill
      return data.length

def flush : WriterM SpillWriter PUnit := do
  let w ← self
  match w.blobWriter, w.primaryWriter with
  | some b, _ => blobCall w b .flush
  | none, some _ => onSnd (Backend.primary.call .flush)
  | none, none => return

/-- `commit`. The writer is consumed. -/
def commit (w : SpillWriter) : CacheM PUnit :=
  match w.blobWriter, w.primaryWriter with
  | some b, _ => mapError (.commit .blobs w.key) do
    if b.failed then throw (.earlierWriteFailed w.key)
    else Backend.blobs.change .commit w.key (some b.staged)
  | none, some staged =>
    mapError (.commit .primary w.key) (Backend.primary.change .commit w.key (some staged))
  | none, none => throw (.noOpenWriter w.key)

end SpillWriter

/-! ### The cache -/

/-- `MANIFEST_V1`. -/
def manifestV1 : Text := "manifest-v1.borsh".toList

/-- What `writer` returns: the writer of the primary, with what it has staged, or one that may
spill. -/
inductive EntryWriter where
  | primary (key : EntryKey) (staged : List UInt8)
  | spill (w : SpillWriter)

namespace SpillCache

/-- A lookup that asks the primary first. -/
def primaryFirst (look : Backend → CacheM (List UInt8)) : CacheM (List UInt8) :=
  tryCatch (look .primary) fun
    | .notFound => look .blobs
    | e => throw e

def reader (key : EntryKey) : CacheM (List UInt8) := primaryFirst (·.reader key)

/-- `seekable_reader`: a backend that has the entry has one. -/
def seekableReader (key : EntryKey) : CacheM (List UInt8) := primaryFirst (·.seekableReader key)

/-- The first thing that `writer` does: a file of the key goes. -/
def dropStaleBlob (key : EntryKey) : CacheM PUnit := do
  match ← Backend.filePath key with
  | none => return
  | some _ => mapError (.dropStaleBlob key) (Backend.blobs.delete key)

def writer (threshold : ℕ) (key : EntryKey) : CacheM EntryWriter := do
  if key.name = manifestV1 then
    Backend.primary.call .writer
    return .primary key []
  else
    dropStaleBlob key
    mapError (.openPrimary key) (Backend.primary.call .writer)
    return .spill ⟨key, threshold, 0, some [], none⟩

/-- The last thing that `adopt_file` does: what the primary has for the key goes. -/
def dropStalePrimary (key : EntryKey) : CacheM PUnit := do
  match ← mapError (.probePrimary key) (Backend.primary.exists? .existsCommitted key) with
  | true => mapError (.dropStalePrimary key) (Backend.primary.delete key)
  | false => return

/-- `adopt_file`, of a file with these bytes. -/
def adoptFile (threshold : ℕ) (key : EntryKey) (src : Except IoError (List UInt8))
    (renames : Bool) : CacheM Bool := do
  if key.name = manifestV1 then return false
  else
    match src with
    | .error e => throw (.statSource key e)
    | .ok data =>
      if data.length ≤ threshold then return false
      else
        match ← Backend.adoptFile key data renames with
        | true =>
          dropStalePrimary key
          return true
        | false => return false

/-- `exists`. -/
def exists? (key : EntryKey) : CacheM Bool := do
  match ← Backend.primary.exists? .exists key with
  | true => return true
  | false => Backend.blobs.exists? .exists key

def delete (key : EntryKey) : CacheM PUnit := do
  Backend.primary.delete key
  Backend.blobs.delete key

/-- `file_path`. It declines when the primary has the entry too, or when that is not known. -/
def filePath (key : EntryKey) : CacheM (Option EntryKey) := do
  match ← Backend.filePath key with
  | none => return none
  | some path =>
    tryCatch (do return if ← Backend.primary.exists? .existsCommitted key then none else some path)
      fun _ => return none

end SpillCache

/-! ### The life of a writer -/

/-- What is done with a writer before it is committed or dropped. -/
inductive WriterCall where
  | write (data : List UInt8)
  | flush
  deriving DecidableEq

namespace EntryWriter

/-- A call on the writer of the primary. -/
def primaryCall : WriterCall → WriterM (List UInt8) ℕ
  | .write data => do
    onSnd (Backend.primary.call .write)
    modify fun s => (s.1 ++ data, s.2)
    return data.length
  | .flush => do
    onSnd (Backend.primary.call .flush)
    return 0

def spillCall : WriterCall → WriterM SpillWriter ℕ
  | .write data => SpillWriter.write data
  | .flush => do
    SpillWriter.flush
    return 0

/-- A call on a writer: how many bytes it has taken, if it has not failed. -/
def call (c : WriterCall) : EntryWriter × SpillCache →
    Except SpillError ℕ × EntryWriter × SpillCache
  | (.primary key staged, s) =>
    let r := exec (primaryCall c) (staged, s)
    (r.1, .primary key r.2.1, r.2.2)
  | (.spill w, s) =>
    let r := exec (spillCall c) (w, s)
    (r.1, .spill r.2.1, r.2.2)

def commit : EntryWriter → CacheM PUnit
  | .primary key staged => Backend.primary.change .commit key (some staged)
  | .spill w => w.commit

end EntryWriter

/-- What the bytes of a call are. -/
def WriterCall.data : WriterCall → List UInt8
  | .write data => data
  | .flush => []

/-- A writer that is used: the bytes it has taken so far. -/
structure Writing where
  writer : EntryWriter
  cache : SpillCache
  accepted : List UInt8

/-- One call. Its owner may go on after one that fails. -/
def Writing.call (s : Writing) (c : WriterCall) : Writing :=
  match EntryWriter.call c (s.writer, s.cache) with
  | (.ok n, writer, cache) => ⟨writer, cache, s.accepted ++ c.data.take n⟩
  | (.error _, writer, cache) => ⟨writer, cache, s.accepted⟩

/-- What is left of a write. -/
structure Written where
  cache : SpillCache
  /-- The bytes that the writer has taken. -/
  accepted : List UInt8
  /-- It has been committed, and that has not failed. -/
  committed : Bool

/-- A writer is committed, or dropped: then it does nothing more. -/
def Writing.finish (s : Writing) (commits : Bool) : Written :=
  if commits then
    match exec s.writer.commit s.cache with
    | (.ok _, cache) => ⟨cache, s.accepted, true⟩
    | (.error _, cache) => ⟨cache, s.accepted, false⟩
  else ⟨s.cache, s.accepted, false⟩

/-- **A writer is opened, used, and committed or dropped.** -/
def writeEntry (threshold : ℕ) (key : EntryKey) (calls : List WriterCall) (commits : Bool)
    (s : SpillCache) : Written :=
  match exec (SpillCache.writer threshold key) s with
  | (.error _, cache) => ⟨cache, [], false⟩
  | (.ok writer, cache) => (calls.foldl Writing.call ⟨writer, cache, []⟩).finish commits

/-! ### When nothing fails -/

section Settled

variable {s : SpillCache} {backend : Backend} {c : BackendCall} {key : EntryKey}
  {entry : Option (List UInt8)} {b : Backends} {backend' : Backend}

@[simp] theorem entries_put :
    (b.put backend key entry).entries backend key = entry := by
  simp [Backends.put]

theorem entries_put_of_ne
    (h : backend' ≠ backend) : (b.put backend key entry).entries backend' = b.entries backend' :=
  update_of_ne h ..

theorem entries_put_of_key_ne {key' : EntryKey}
    (h : key' ≠ key) :
    (b.put backend key entry).entries backend' key' = b.entries backend' key' := by
  rcases eq_or_ne backend' backend with rfl | hne
  · simp [Backends.put, update_of_ne h]
  · simp [Backends.put, update_of_ne hne]

@[simp] theorem exec_lookUp_settled :
    exec (backend.lookUp c key) s.settled = (.ok (s.state.entries backend key), s.settled) := rfl

/-- What is read of an entry that may be there. -/
def readOf : Option (List UInt8) → Except SpillError (List UInt8)
  | some data => .ok data
  | none => .error .notFound

@[simp] theorem exec_read_settled : exec (backend.read c key) s.settled =
    (readOf (s.state.entries backend key), s.settled) := by
  rw [Backend.read, exec_bind, exec_lookUp_settled]
  cases s.state.entries backend key <;> rfl

/-- The entry, as a lookup finds it: what the primary has, or else what the file store has. -/
def SpillCache.found (s : SpillCache) (key : EntryKey) : Option (List UInt8) :=
  (s.state.entries .primary key).or (s.state.entries .blobs key)

/-- Exactly one backend has the entry. -/
def SpillCache.HeldOnce (s : SpillCache) (key : EntryKey) : Prop :=
  ∃! backend, (s.state.entries backend key).isSome

theorem heldOnce_of {data : List UInt8} (h : s.state.entries backend key = some data)
    (hother : ∀ backend', backend' ≠ backend → s.state.entries backend' key = none) :
    s.HeldOnce key := by
  refine ⟨backend, by simp [h], fun backend' h' => ?_⟩
  by_contra hne
  simp [hother backend' hne] at h'

theorem exec_primaryFirst_settled : exec (SpillCache.primaryFirst (·.read c key)) s.settled =
    (readOf (s.found key), s.settled) := by
  rw [SpillCache.primaryFirst, exec_tryCatch, exec_read_settled, SpillCache.found]
  cases s.state.entries .primary key with
  | some data => rfl
  | none => exact exec_read_settled

theorem exec_reader_settled :
    exec (SpillCache.reader key) s.settled = (readOf (s.found key), s.settled) :=
  exec_primaryFirst_settled

end Settled

/-! ### What the operations ensure -/

section Operations

variable {s : SpillCache} {backend : Backend} {c : BackendCall} {key : EntryKey}
  {Q : Except SpillError PUnit → SpillCache → Prop} {entry : Option (List UInt8)}

theorem ensures_call (hok : Q (.ok ⟨⟩) s.next)
    (hfail : s.faults ≠ [] → ∀ e, Q (.error e) (s.fail ⟨backend, c⟩)) :
    Ensures (backend.call c) s Q :=
  ensures_attempt hok fun h => hfail h _

theorem ensures_change (hok : Q (.ok ⟨⟩) (s.next.update (·.put backend key entry)))
    (hfail : s.faults ≠ [] → ∀ e, Q (.error e) (s.fail ⟨backend, c⟩)) :
    Ensures (backend.change c key entry) s Q :=
  ensures_bind (ensures_call hok hfail)

theorem ensures_filePath {Q : Except SpillError (Option EntryKey) → SpillCache → Prop}
    (hnone : s.state.entries .blobs key = none → Q (.ok none) s.next)
    (hsome : s.state.entries .blobs key ≠ none → Q (.ok (some key)) s.next)
    (hfail : s.faults ≠ [] → Q (.ok none) (s.fail ⟨.blobs, .filePath⟩)) :
    Ensures (Backend.filePath key) s Q := by
  refine ensures_bind (ensures_succeeds ?_ hfail)
  change Q (.ok (if (s.state.entries .blobs key).isSome then some key else none)) s.next
  cases hentry : s.state.entries .blobs key with
  | none => exact hnone hentry
  | some data => exact hsome (by simp [hentry])

variable {data : List UInt8} {α : Type} {w w' : SpillWriter}
  {Q : Except SpillError α → SpillWriter × SpillCache → Prop} {f : PUnit → WriterM SpillWriter α}

theorem ensures_reader {Q : Except SpillError (List UInt8) → SpillCache → Prop}
    (hdata : s.state.entries backend key = some data) (hok : Q (.ok data) s.next)
    (hfail : s.faults ≠ [] → ∀ e, Q (.error e) (s.fail ⟨backend, .reader⟩)) :
    Ensures (backend.reader key) s Q := by
  refine ensures_bind (ensures_bind (ensures_call ?_ hfail))
  change Ensures (match s.state.entries backend key with
    | some data => pure data
    | none => throw .notFound) s.next Q
  rw [hdata]
  exact hok

theorem ensures_self_bind {f : SpillWriter → WriterM SpillWriter α} (h : Ensures (f w) (w, s) Q) :
    Ensures (SpillWriter.self >>= f) (w, s) Q := h

theorem ensures_setSelf_bind (h : Ensures (f ⟨⟩) (w', s) Q) :
    Ensures (SpillWriter.setSelf w' >>= f) (w, s) Q := h

theorem ensures_modify_bind {g : SpillCache → SpillCache}
    (h : Ensures (f ⟨⟩) (w, g s) Q) : Ensures (onSnd (modify g) >>= f) (w, s) Q := h

/-- An operation on the backends, and then the rest. -/
theorem ensures_onSnd_bind {β : Type} {x : CacheM β} {f : β → WriterM SpillWriter α}
    (h : Ensures x s
      (ByResult (fun b s' => Ensures (f b) (w, s') Q) fun e s' => Q (.error e) (w, s'))) :
    Ensures (onSnd x >>= f) (w, s) Q :=
  ensures_bind (ensures_onSnd (h.imp fun r _ hr => by cases r <;> exact hr))

theorem ensures_call_bind (hok : Ensures (f ⟨⟩) (w, s.next) Q)
    (hfail : s.faults ≠ [] → ∀ e, Q (.error e) (w, s.fail ⟨backend, c⟩)) :
    Ensures (onSnd (backend.call c) >>= f) (w, s) Q :=
  ensures_onSnd_bind (ensures_call hok hfail)

theorem ensures_change_bind (hok : Ensures (f ⟨⟩) (w, s.next.update (·.put backend key entry)) Q)
    (hfail : s.faults ≠ [] → ∀ e, Q (.error e) (w, s.fail ⟨backend, c⟩)) :
    Ensures (onSnd (backend.change c key entry) >>= f) (w, s) Q :=
  ensures_onSnd_bind (ensures_change hok hfail)

theorem ensures_reader_bind {f : List UInt8 → WriterM SpillWriter α}
    (hdata : s.state.entries backend key = some data) (hok : Ensures (f data) (w, s.next) Q)
    (hfail : s.faults ≠ [] → ∀ e, Q (.error e) (w, s.fail ⟨backend, .reader⟩)) :
    Ensures (onSnd (backend.reader key) >>= f) (w, s) Q :=
  ensures_onSnd_bind (ensures_reader hdata hok hfail)

/-- A call that the file's writer fails. -/
theorem ensures_blobCall {Q : Except SpillError PUnit → SpillWriter × SpillCache → Prop}
    {b : BlobWriter} (hok : Q (.ok ⟨⟩) (w, s.next)) (hfail : s.faults ≠ [] → ∀ e, Q (.error e)
      ({ w with blobWriter := some { b with failed := true } }, s.fail ⟨.blobs, c⟩)) :
    Ensures (SpillWriter.blobCall w b c) (w, s) Q := by
  refine ensures_onSnd_bind (ensures_succeeds ?_ ?_)
  · exact hok
  · exact fun h => hfail h _

end Operations

end Heph
