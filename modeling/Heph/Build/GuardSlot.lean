import Heph.Lib.Holders
import Heph.Lib.Machine
import Heph.Key.Expand

/-!
# The riding read of a revision

The artifacts that a request hands out share a read lock on their revision, which is dropped with
the last of them: the request remembers a **weak** reference to it (`GuardSlot`). Whoever comes
later upgrades the reference if the lock is still there. Otherwise it takes a new lock and
**validates** the revision: the manifest must have the hashouts that were handed out before.

The process reads the manifest through its **memory tier** (`LocalCacheMem`). A copy that is there
is what the reader gets, and a reader that finds none reads the database and leaves a copy behind,
unless the manifest is too large (`GuardSlot.read`). The copy goes when the process itself writes
the entry, or for want of room. What another process writes does not touch it.

The callers are those of one request, any number of them, and a call may be cancelled wherever it
waits. The other processes are there as one that takes the write lock, stores or deletes a manifest
as long as it has it, and gives it back; that the write lock excludes the reads is what is assumed
of the result lock.

Two things happen to the manifest without the write lock. One that was mirrored from a remote is
queued for a while, and the readers of the process wait for it. And a caller whose artifacts have
become unavailable executes the target again under its read (`execute_and_cache`), and fails only
afterwards if other hashouts came out of it.
-/

namespace Heph

/-! ### Hashouts -/

/-- The output and support artifacts of a manifest. -/
def handedOut (m : List Artifact) : List Artifact := m.filter fun x => x.type ≠ .log

/-- `manifest_hashouts`. -/
def manifestHashouts (m : List Artifact) : List Text :=
  ((handedOut m).map (·.hashout)).insertionSort (· ≤ ·)

/-- `Resolved`: the revision, as the request has resolved it. -/
inductive Resolved where
  | hit (m : List Artifact)
  | executed (metas : List Artifact)
  deriving DecidableEq, Repr

namespace Resolved

/-- The artifacts that the request has resolved. -/
def artifacts : Resolved → List Artifact
  | hit m => handedOut m
  | executed metas => metas

/-- `Resolved::hashouts`. -/
def hashouts : Resolved → List Text
  | hit m => manifestHashouts m
  | executed metas => (metas.map (·.hashout)).insertionSort (· ≤ ·)

end Resolved

/-- `reconcile_rebuilt_hashouts`: the same artifacts came out, in the same groups. -/
def reconcile (m m' : List Artifact) : Bool := (handedOut m).isPerm (handedOut m')

/-! ### The callers -/

/-- The calls that end with a guard. -/
inductive SlotCall where
  /-- `resolve_locked_inner`, which makes the slot. -/
  | resolve
  /-- `GuardSlot::hold`. -/
  | hold
  /-- `MemoResult::claim`. -/
  | claim
  deriving DecidableEq, Repr

/-- Where a caller is. A guard is known by its number. -/
inductive SlotPoint where
  | idle
  /-- The reference could not be upgraded, and a new lock is awaited. -/
  | awaiting (c : SlotCall)
  /-- The revision is about to be validated, under the new lock. -/
  | validating (c : SlotCall) (g : ℕ)
  /-- The revision is valid, and the reference is about to be replaced. -/
  | validated (c : SlotCall) (g : ℕ)
  /-- The call has returned `Ok`, and what it returned has the guard. -/
  | returned (c : SlotCall) (g : ℕ)
  /-- `claim` has returned `Ok`, for a result without artifacts. -/
  | unguarded
  /-- The call has failed. -/
  | failed (c : SlotCall)
  deriving DecidableEq, Repr

/-- The steps of a caller. -/
inductive CallerEvent where
  /-- The revision is found in the local cache, as the process reads it. -/
  | resolveHit
  /-- The revision is found on a remote, and its manifest is mirrored. -/
  | resolveRemote (m : List Artifact)
  /-- The target is executed under the write lock, and its manifest lands in the cache or is
  lost. -/
  | resolveExecuted (m : List Artifact) (landed : Bool)
  | hold
  /-- `claim`, of a result with artifacts or without. -/
  | claim (artifacts : Bool)
  /-- The new lock is granted. -/
  | acquire
  | validate
  /-- The reference is replaced, and the call returns. -/
  | fill
  /-- The artifacts are unavailable, and the target is executed under the read. -/
  | rebuild (m : List Artifact) (landed : Bool)
  /-- The call fails where it waits, or is cancelled. -/
  | fail
  /-- What was returned is dropped. -/
  | drop
  deriving DecidableEq, Repr

/-- The steps of a caller, of another process, of the writer thread, and of the memory tier. -/
inductive SlotEvent (ι : Type) where
  | caller (i : ι) (e : CallerEvent)
  /-- Another process gets the write lock. -/
  | lockWrite
  /-- It stores a manifest, or deletes the one that there is. -/
  | store (m : Option (List Artifact))
  /-- It gives the lock back. -/
  | unlockWrite
  /-- The manifest that is queued lands in the cache. -/
  | land
  /-- The manifest that is queued is lost. -/
  | lose
  /-- Somebody else in the process reads the manifest. -/
  | read
  /-- What a reader has found in the database is put into the memory tier. -/
  | insert (m : List Artifact)
  /-- The copy in the memory tier goes: there is no room for it, or somebody else in the process
  writes the entry. -/
  | evict
  deriving DecidableEq, Repr

/-- The slot, the revision, and the callers of the request. -/
structure GuardSlot (ι : Type) where
  /-- The manifest of the revision, as other processes see it. -/
  stored : Option (List Artifact)
  /-- The manifest that is on its way to the cache. -/
  queued : Option (List Artifact)
  /-- The copy in the memory tier of the process. -/
  resident : Option (List Artifact)
  /-- What readers of the process have found in the database and not put into the memory tier. -/
  found : List (List Artifact)
  /-- What the slot was made with, once there is one. -/
  resolved : Option Resolved
  /-- The guard that the weak reference is to. There is no guard `0`. -/
  weak : ℕ
  /-- The number of the next guard. -/
  next : ℕ
  /-- The guard that each of the callers keeps alive. -/
  guards : Holders ι ℕ
  /-- Another process has the write lock. -/
  writing : Bool
  points : ι → SlotPoint

namespace GuardSlot

variable {ι : Type} [DecidableEq ι]

/-- The revision is in the cache or is not, the process has read it before or has not, and the
request has not resolved it. -/
def new (stored resident : Option (List Artifact)) : GuardSlot ι :=
  ⟨stored, none, resident, [], none, 0, 1, .free, false, fun _ => .idle⟩

/-! ### What a step does -/

variable (s : GuardSlot ι)

/-- The caller goes on, and keeps the guard that it has. -/
def goto (i : ι) (p : SlotPoint) : GuardSlot ι :=
  { s with points := Function.update s.points i p }

/-- The caller keeps a guard alive, a new one or one that there is. -/
def keep (i : ι) (g : ℕ) (p : SlotPoint) : GuardSlot ι :=
  { s with guards := s.guards.take i g }.goto i p

/-- The caller gives up its guard, if it has one. -/
def giveUp (i : ι) (p : SlotPoint) : GuardSlot ι :=
  { s with guards := s.guards.release i }.goto i p

/-- `GuardSlot::new`: the slot, with the read that the resolution ends with. -/
def create (i : ι) (r : Resolved) : GuardSlot ι :=
  { s with resolved := some r, weak := s.next, next := s.next + 1 }.keep i s.next
    (.returned .resolve s.next)

/-- `LocalCacheMem::reader`, for the manifest. It is only without a copy that a reader comes to the
database, and there it waits for the queue. -/
def read : Option (Option (List Artifact) × GuardSlot ι) :=
  match s.resident, s.queued with
  | some m, _ => some (some m, s)
  | none, none => some (s.stored, { s with found := s.stored.toList ++ s.found })
  | none, some _ => none

/-- The process writes the manifest, which it does without its copy (`LocalCacheMem::writer`). The
write lands in the database, or is lost. -/
def write (m : List Artifact) (landed : Bool) : GuardSlot ι :=
  { s with stored := if landed then some m else s.stored, resident := none }

/-! ### The steps -/

variable [Fintype ι] (s : GuardSlot ι) (i : ι)

/-- The request resolves the revision, which it does once, and under the lock. -/
def resolve : CallerEvent → Option (GuardSlot ι)
  | .resolveHit =>
    match s.read with
    | some (some m, s) => some (s.create i (.hit m))
    | _ => none
  | .resolveRemote m => some ({ s with queued := some m, resident := none }.create i (.hit m))
  | .resolveExecuted m landed => some ((s.write m landed).create i (.executed (handedOut m)))
  | _ => none

/-- The beginning of `hold`: the reference is upgraded if its guard is alive. -/
def upgrade (c : SlotCall) : GuardSlot ι :=
  if s.guards.HeldAs s.weak then s.keep i s.weak (.returned c s.weak) else s.goto i (.awaiting c)

/-- A caller begins: with the resolution, with `hold`, or with `claim`, which needs no guard for
a result without artifacts. -/
def call (e : CallerEvent) : Option (GuardSlot ι) :=
  match s.resolved, e with
  | none, e => if s.writing then none else s.resolve i e
  | some _, .hold => some (s.upgrade i .hold)
  | some _, .claim true => some (s.upgrade i .claim)
  | some _, .claim false => some (s.goto i .unguarded)
  | some _, _ => none

/-- `validate`: the manifest that the process reads has the hashouts, or the call fails. -/
def validate (c : SlotCall) (g : ℕ) : Option (GuardSlot ι) :=
  match s.read, s.resolved with
  | some (manifest, s), some r =>
    if manifest.any fun m => manifestHashouts m == r.hashouts then
      some (s.goto i (.validated c g))
    else some (s.giveUp i (.failed c))
  | _, _ => none

/-- A caller executes the target under its guard, and keeps it only if the outputs are those that
were promised. -/
def rebuild (c : SlotCall) (m : List Artifact) (landed : Bool) :
    Option (GuardSlot ι) :=
  match s.queued, s.resolved with
  | none, some (.hit promised) =>
    if reconcile promised m then some (s.write m landed)
    else some ((s.write m landed).giveUp i (.failed c))
  | _, _ => none

/-- What is done with what was returned: it is handed to `claim`, the target is executed under it,
or it is dropped. -/
def use (c : SlotCall) (g : ℕ) : CallerEvent → Option (GuardSlot ι)
  | .claim artifacts =>
    match c, artifacts with
    | .claim, _ => none
    | _, true => some (s.goto i (.returned .claim g))
    | _, false => some (s.giveUp i .unguarded)
  | .rebuild m landed =>
    match c with
    | .claim => none
    | _ => s.rebuild i c m landed
  | .drop => some (s.giveUp i .idle)
  | _ => none

/-- One step of a caller. -/
def callerStep (e : CallerEvent) : Option (GuardSlot ι) :=
  match s.points i, e with
  | .idle, e => s.call i e
  | .awaiting c, .acquire =>
    if s.writing then none
    else some ({ s with next := s.next + 1 }.keep i s.next (.validating c s.next))
  | .awaiting c, .fail => some (s.goto i (.failed c))
  | .validating c g, .validate => s.validate i c g
  | .validating c _, .fail => some (s.giveUp i (.failed c))
  | .validated c g, .fill => some ({ s with weak := g }.goto i (.returned c g))
  | .validated c _, .fail => some (s.giveUp i (.failed c))
  | .returned c g, e => s.use i c g e
  | .unguarded, .drop => some (s.goto i .idle)
  | .failed _, .drop => some (s.goto i .idle)
  | _, _ => none

/-- One step. -/
def step : SlotEvent ι → Option (GuardSlot ι)
  | .caller i e => s.callerStep i e
  | .lockWrite =>
    if s.writing = false ∧ s.guards.Unheld then some { s with writing := true } else none
  | .store m => if s.writing then some { s with stored := m } else none
  | .unlockWrite => if s.writing then some { s with writing := false } else none
  | .land =>
    match s.queued with
    | some m => some { s with stored := some m, queued := none }
    | none => none
  | .lose =>
    match s.queued with
    | some _ => some { s with queued := none }
    | none => none
  | .read =>
    match s.read with
    | some (_, s) => some s
    | none => none
  | .insert m =>
    if m ∈ s.found then some { s with resident := some m, found := s.found.erase m } else none
  | .evict => some { s with resident := none }

/-- The slot as a machine. -/
def machine (ι : Type) [DecidableEq ι] [Fintype ι] (stored resident : Option (List Artifact)) :
    Machine (GuardSlot ι) (SlotEvent ι) := ⟨new stored resident, step⟩

end GuardSlot

end Heph
