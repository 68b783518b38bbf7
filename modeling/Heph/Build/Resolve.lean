import Heph.Lock.Gateway

/-!
# Resolving a target under its lock

Any number of processes resolve one revision of a target (`resolve_locked_inner`, for a target
that may be cached). Each probes the cache under a read lock, and shares a **hit**. On a **miss** it
drops the read and tries for the write lock; if that is taken it waits for the gateway, probes again
and goes round. Under the write lock it probes a last time, asks the remote caches, and else
executes the target and caches what it made. The result is handed out under a read, for which the
write lock is downgraded and not dropped.

A guard is granted only if it is compatible with those of the other processes
(`ResultGuard.Compatible`); that the lock does so is `ResultLock.compatible_of_run`. A `try_write`
may also fail for no reason that is seen here.

A manifest that is written is first **queued** on the writer thread of the process, where no other
process sees it. The thread commits it some time later – or fails to, and drops it with a line in
the log. Who caches what it executed waits until the thread is through with it, either way; who
mirrors the manifest of a remote does not wait.
-/

namespace Heph

open Function

/-- What a process resolves to, with the manifest `μ` of the revision. -/
inductive Resolution (μ : Type) where
  /-- The manifest was in the local cache. -/
  | localHit (m : μ)
  /-- The manifest was located on a remote, and mirrored into the local cache. -/
  | remoteHit (m : μ)
  /-- The target was executed, and the manifest is of what it made. -/
  | executed (m : μ)
  deriving DecidableEq, Repr

/-- Why a process ends without a result. -/
inductive ResolveError where
  /-- `HashUnknownError`: the request may only hash, and the target would have to be built. -/
  | hashUnknown
  /-- `CancelledError`. -/
  | cancelled
  /-- A lock, the cache or the target itself has failed. -/
  | failed
  deriving DecidableEq, Repr

/-- Where a process is. -/
inductive ResolvePoint (μ : Type) where
  /-- It awaits its optimistic read. -/
  | start
  /-- It is about to probe the cache, under the read. -/
  | probing
  /-- It has missed, and still has the read. -/
  | missed
  /-- It is about to try for the write lock. -/
  | trying
  /-- `contend_for_write` awaits the gateway. -/
  | gateway
  /-- It has got the gateway, and is about to drop it. -/
  | passing
  /-- It awaits the read to probe again. -/
  | contending
  /-- It is about to probe again, under the read. -/
  | reprobing
  /-- It has missed again, and still has the read. -/
  | reprobed
  /-- It is about to try for the write lock again. -/
  | retrying
  /-- It sleeps before it goes round. -/
  | backoff
  /-- It has the write lock, and is about to probe a last time. -/
  | rechecking
  /-- It has missed for good, and asks the remote caches. -/
  | locating
  /-- It has to execute the target. -/
  | building
  /-- The target runs. -/
  | executing
  /-- What it made is cached: the process waits for its writer thread. -/
  | caching (m : μ)
  /-- It has a result, under the write lock. -/
  | resolved (r : Resolution μ)
  /-- The write lock is being downgraded, and only the gateway is held. -/
  | downgrading (r : Resolution μ)
  /-- It has the upgradable read, and awaits the plain one. -/
  | downgraded (r : Resolution μ)
  /-- It has both reads. -/
  | riding (r : Resolution μ)
  /-- It has returned `Ok`. -/
  | returned (r : Resolution μ)
  /-- The caller has dropped the read that was returned. -/
  | dropped
  | failed (e : ResolveError)
  deriving DecidableEq, Repr

namespace ResolvePoint

/-- The process has been handed the result, or an error. -/
def finished {μ : Type} : ResolvePoint μ → Bool
  | returned _ => true
  | dropped => true
  | failed _ => true
  | _ => false

/-- The process is in `execute_and_cache_inner`. -/
def inExecute {μ : Type} : ResolvePoint μ → Bool
  | executing => true
  | caching _ => true
  | _ => false

end ResolvePoint

/-- The steps of a process, and of its writer thread. -/
inductive ResolveEvent (μ : Type) where
  /-- The lock that is asked for is granted. -/
  | acquire
  /-- `try_write` finds the lock taken. -/
  | contended
  /-- The manifest is read from the local cache. -/
  | probe
  /-- A guard is dropped. -/
  | release
  /-- The backoff is over. -/
  | wake
  /-- `probe_remote_revision` answers. -/
  | locate (found : Option μ)
  /-- `execute_and_cache_inner` is entered. -/
  | execute
  /-- The target has run, and its manifest is queued. -/
  | produce (m : μ)
  /-- The writer thread is through, and `execute_and_cache_inner` returns `Ok`. -/
  | cached
  /-- The downgrade begins. -/
  | downgrade
  /-- The call ends with an error, or is cancelled. -/
  | fail (e : ResolveError)
  /-- The caller drops the read. -/
  | drop
  /-- The writer thread commits the queued manifest. -/
  | commit
  /-- The batch with the queued manifest fails, and is dropped. -/
  | lose
  deriving DecidableEq, Repr

/-- What the request of a process allows. -/
structure ResolveOptions where
  /-- `rs.hash_only()`: the request may not build anything. -/
  hashOnly : Bool
  /-- `remote_attempted`: the target allows it, and there is a remote cache to read. -/
  remoteAttempted : Bool
  deriving DecidableEq, Repr

/-- The guards of two processes get along. -/
def Apart (l l' : List (ResultGuard Unit)) : Prop := ∀ g ∈ l, ∀ g' ∈ l', g.Compatible g'

instance (l l' : List (ResultGuard Unit)) : Decidable (Apart l l') :=
  inferInstanceAs (Decidable (∀ g ∈ l, ∀ g' ∈ l', g.Compatible g'))

/-- The revision in the cache, the locks, and the processes. -/
structure Resolvers (ι μ : Type) where
  /-- The manifest that is committed to the local cache. -/
  manifest : Option μ
  /-- The manifest that is queued on the writer thread of each of the processes. -/
  queued : ι → Option μ
  /-- The guards of each of the processes. -/
  locks : Holders ι (List (ResultGuard Unit))
  points : ι → ResolvePoint μ

namespace Resolvers

variable {ι μ : Type} [DecidableEq ι]

/-- Nobody has begun, and the cache is as it is. -/
def new (manifest : Option μ) : Resolvers ι μ :=
  ⟨manifest, fun _ => none, .free, fun _ => .start⟩

/-! ### What a step does -/

variable (s : Resolvers ι μ)

/-- The process goes on, and keeps its guards. -/
def goto (i : ι) (p : ResolvePoint μ) : Resolvers ι μ :=
  { s with points := update s.points i p }

/-- The process goes on with these guards. -/
def hold (i : ι) (l : List (ResultGuard Unit)) (p : ResolvePoint μ) :
    Resolvers ι μ :=
  { s with locks := s.locks.take i l }.goto i p

/-- The process goes on without a guard. -/
def free (i : ι) (p : ResolvePoint μ) : Resolvers ι μ :=
  { s with locks := s.locks.release i }.goto i p

/-- The process queues a manifest on its writer thread. -/
def queue (i : ι) (m : μ) : Resolvers ι μ :=
  { s with queued := update s.queued i (some m) }

/-- A guard is granted, beside the ones that the process keeps. -/
def grant [Fintype ι] (s : Resolvers ι μ) (i : ι) (g : ResultGuard Unit)
    (kept : List (ResultGuard Unit)) (p : ResolvePoint μ) : Option (Resolvers ι μ) :=
  if s.locks.Admits Apart i [g] then some (s.hold i (g :: kept) p) else none

/-! ### The steps -/

/-- A lock is granted. -/
def acquire [Fintype ι] (s : Resolvers ι μ) (i : ι) : Option (Resolvers ι μ) :=
  match s.points i with
  | .start => s.grant i (.read ()) [] .probing
  | .trying => s.grant i (.write ()) [] .rechecking
  | .gateway => s.grant i .target [] .passing
  | .contending => s.grant i (.read ()) [] .reprobing
  | .retrying => s.grant i (.write ()) [] .rechecking
  | .downgrading r => s.grant i (.upgradable ()) [] (.downgraded r)
  | .downgraded r => s.grant i (.read ()) [.upgradable ()] (.riding r)
  | _ => none

/-- The write lock is not granted. -/
def contended (i : ι) : Option (Resolvers ι μ) :=
  match s.points i with
  | .trying => some (s.goto i .gateway)
  | .retrying => some (s.goto i .backoff)
  | _ => none

/-- The local cache is probed. A hit is returned with the read, and under the write lock it is
what the process resolves to. -/
def probe (i : ι) : Option (Resolvers ι μ) :=
  match s.points i, s.manifest with
  | .probing, some m => some (s.goto i (.returned (.localHit m)))
  | .probing, none => some (s.goto i .missed)
  | .reprobing, some m => some (s.goto i (.returned (.localHit m)))
  | .reprobing, none => some (s.goto i .reprobed)
  | .rechecking, some m => some (s.goto i (.resolved (.localHit m)))
  | .rechecking, none => some (s.goto i .locating)
  | _, _ => none

/-- A guard is dropped. -/
def release (opts : ι → ResolveOptions) (s : Resolvers ι μ) (i : ι) : Option (Resolvers ι μ) :=
  match s.points i with
  | .missed =>
    if (opts i).hashOnly then some (s.free i (.failed .hashUnknown)) else some (s.free i .trying)
  | .passing => some (s.free i .contending)
  | .reprobed => some (s.free i .retrying)
  | .riding r => some (s.hold i [.read ()] (.returned r))
  | _ => none

/-- The process goes round. -/
def wake (i : ι) : Option (Resolvers ι μ) :=
  match s.points i with
  | .backoff => some (s.goto i .gateway)
  | _ => none

/-- The remote caches have the revision, and its manifest is mirrored, or they do not. -/
def locate (opts : ι → ResolveOptions) (s : Resolvers ι μ) (i : ι) :
    Option μ → Option (Resolvers ι μ)
  | some m =>
    match s.points i with
    | .locating =>
      if (opts i).remoteAttempted then some ((s.queue i m).goto i (.resolved (.remoteHit m)))
      else none
    | _ => none
  | none =>
    match s.points i with
    | .locating => some (s.goto i .building)
    | _ => none

variable (i : ι)

/-- The target is executed. -/
def execute : Option (Resolvers ι μ) :=
  match s.points i with
  | .building => some (s.goto i .executing)
  | _ => none

/-- The target has run. Its manifest is the last thing that is queued. -/
def produce (m : μ) : Option (Resolvers ι μ) :=
  match s.points i with
  | .executing => some ((s.queue i m).goto i (.caching m))
  | _ => none

/-- The writer thread is through with the manifest. It is not asked what became of it. -/
def cached : Option (Resolvers ι μ) :=
  match s.points i, s.queued i with
  | .caching m, none => some (s.goto i (.resolved (.executed m)))
  | _, _ => none

/-- The write lock is let go, and the gateway is not. -/
def downgrade : Option (Resolvers ι μ) :=
  match s.points i with
  | .resolved r => some (s.hold i [.target] (.downgrading r))
  | _ => none

/-- The call fails. Its guards are dropped, and what it has queued stays queued. -/
def fail (e : ResolveError) : Option (Resolvers ι μ) :=
  if (s.points i).finished then none else some (s.free i (.failed e))

/-- The caller drops the read. -/
def drop : Option (Resolvers ι μ) :=
  match s.points i with
  | .returned _ => some (s.free i .dropped)
  | _ => none

/-- The writer thread of the process commits what is queued. -/
def commit : Option (Resolvers ι μ) :=
  (s.queued i).map fun m =>
    { s with manifest := some m, queued := update s.queued i none }

/-- The writer thread of the process drops what is queued. -/
def lose : Option (Resolvers ι μ) :=
  (s.queued i).map fun _ => { s with queued := update s.queued i none }

/-- One step of one process, or of its writer thread. -/
def step [Fintype ι] (opts : ι → ResolveOptions) (s : Resolvers ι μ) (e : ι × ResolveEvent μ) :
    Option (Resolvers ι μ) :=
  match e.2 with
  | .acquire => s.acquire e.1
  | .contended => s.contended e.1
  | .probe => s.probe e.1
  | .release => s.release opts e.1
  | .wake => s.wake e.1
  | .locate found => s.locate opts e.1 found
  | .execute => s.execute e.1
  | .produce m => s.produce e.1 m
  | .cached => s.cached e.1
  | .downgrade => s.downgrade e.1
  | .fail err => s.fail e.1 err
  | .drop => s.drop e.1
  | .commit => s.commit e.1
  | .lose => s.lose e.1

/-- The processes as a machine. -/
def machine [Fintype ι] (opts : ι → ResolveOptions) (manifest : Option μ) :
    Machine (Resolvers ι μ) (ι × ResolveEvent μ) := ⟨new manifest, step opts⟩

end Resolvers

end Heph
