import Heph.Lib.Holders
import Heph.Lib.Machine

/-!
# The result lock

The lock of a target is made of two. The **gateway** is one exclusive lock for the whole
target; a **revision** lock is a reader–writer lock for one revision of it. A plain read takes
the revision lock only. An upgradable read and a write take the gateway first and the
revision lock then, and keep the gateway while they turn into one another. The target as a
whole is held through the gateway alone, and who holds it so may write single revisions.

A task is one call with the guard that it returns, and a party has any number of tasks.
Several things happen in a call that take a lock each, and between any two of them the other
tasks may do anything. Whenever a call waits it may also end, with an error or because it is
cancelled. The locks themselves are taken to be right: they are granted to compatible holders
only (`Holders.Admits`), and an acquire that fails has not got anything.
-/

namespace Heph

/-- The guards on the target and on its revisions `ρ`. -/
inductive ResultGuard (ρ : Type) where
  /-- `ResultReadGuard`. -/
  | read (r : ρ)
  /-- `ResultUpgradableGuard`. -/
  | upgradable (r : ρ)
  /-- `ResultWriteGuard`. -/
  | write (r : ρ)
  /-- `TargetGuard`. -/
  | target
  /-- `RevisionWriteGuard`. -/
  | revisionWrite (r : ρ)
  deriving DecidableEq, Repr

/-- The two guards of a `TBridge` that turn into one another. -/
inductive BridgeKind where
  | upgradable
  | write
  deriving DecidableEq, Repr

namespace BridgeKind

/-- How the revision lock is held. -/
def mode : BridgeKind → LockMode
  | upgradable => .shared
  | write => .exclusive

/-- The guard. -/
def guard {ρ : Type} : BridgeKind → ρ → ResultGuard ρ
  | upgradable, r => .upgradable r
  | write, r => .write r

end BridgeKind

/-- Where a task is. -/
inductive LockTask (ι ρ : Type) where
  | idle
  /-- `read` awaits the revision lock. -/
  | read (r : ρ)
  /-- `upgradable_read` or `write` awaits the gateway. -/
  | outer (k : BridgeKind) (r : ρ)
  /-- It has the gateway, and awaits the revision lock. -/
  | inner (k : BridgeKind) (r : ρ)
  /-- `try_upgradable_read` or `try_write` has the gateway, and is about to try the revision
  lock. -/
  | tryInner (k : BridgeKind) (r : ρ)
  /-- `upgrade` or `downgrade` has the gateway, and awaits the revision lock in its new
  mode. -/
  | transform (k : BridgeKind) (r : ρ)
  /-- `lock_target` awaits the gateway. -/
  | target
  /-- `write_revision` awaits the revision lock. It has borrowed the guard of the task `t`. -/
  | revision (t : ι) (r : ρ)
  /-- The gateway is about to be given back. -/
  | releasing
  | guard (g : ResultGuard ρ)
  deriving DecidableEq, Repr

/-- The task whose guard is borrowed. -/
def LockTask.borrowed {ι ρ : Type} : LockTask ι ρ → Option ι
  | revision t _ => some t
  | _ => none

/-- The steps of a task. -/
inductive LockEvent (ι ρ : Type) where
  | read (r : ρ)
  | upgradableRead (r : ρ)
  | write (r : ρ)
  | tryRead (r : ρ)
  | tryUpgradableRead (r : ρ)
  | tryWrite (r : ρ)
  | lockTarget
  | tryLockTarget
  | tryWriteRevision (t : ι) (r : ρ)
  | writeRevision (t : ι) (r : ρ)
  | upgrade
  | downgrade
  /-- The guard is dropped. -/
  | drop
  /-- The call goes on: it gets the lock that it awaits, tries the one that it is to try, or
  gives the gateway back. -/
  | proceed
  /-- The call ends with an error, or is cancelled where it waits. -/
  | fail
  deriving DecidableEq, Repr

/-- The locks of a target, and the tasks. -/
structure ResultLock (ι ρ : Type) where
  /-- The holder of the gateway. -/
  gateway : Holders ι Unit
  /-- The holders of each of the revisions. -/
  revisions : ρ → Holders ι LockMode
  tasks : ι → LockTask ι ρ

namespace ResultLock

variable {ι ρ : Type} [DecidableEq ι] [DecidableEq ρ]

/-- Nothing is held, and nobody is waiting. -/
def new : ResultLock ι ρ := ⟨.free, fun _ => .free, fun _ => .idle⟩

/-! ### What a step does -/

variable (s : ResultLock ι ρ) (p : ι)

/-- The task goes on, and no lock changes hands. -/
def goto (t : LockTask ι ρ) : ResultLock ι ρ :=
  { s with tasks := Function.update s.tasks p t }

/-- The task gets the gateway. -/
def takeGateway (t : LockTask ι ρ) : ResultLock ι ρ :=
  { s with gateway := s.gateway.take p () }.goto p t

/-- The task gives the gateway back. -/
def releaseGateway (t : LockTask ι ρ) : ResultLock ι ρ :=
  { s with gateway := s.gateway.release p }.goto p t

/-- The task gets a revision lock. -/
def takeRevision (r : ρ) (m : LockMode) (t : LockTask ι ρ) :
    ResultLock ι ρ :=
  { s with revisions := Function.update s.revisions r ((s.revisions r).take p m) }.goto p t

/-- The task gives a revision lock back. -/
def releaseRevision (r : ρ) (t : LockTask ι ρ) : ResultLock ι ρ :=
  { s with revisions := Function.update s.revisions r ((s.revisions r).release p) }.goto p t

variable [Fintype ι] (s : ResultLock ι ρ) (p : ι)

/-- The gateway is awaited: the step waits until it is free. -/
def awaitGateway (t : LockTask ι ρ) : Option (ResultLock ι ρ) :=
  if s.gateway.Admits Incompatible p () then some (s.takeGateway p t) else none

/-- The gateway is tried: the task ends up at `t`, or at `busy` if somebody else holds it. -/
def tryGateway (t busy : LockTask ι ρ) : ResultLock ι ρ :=
  if s.gateway.Admits Incompatible p () then s.takeGateway p t else s.goto p busy

/-- A revision lock is awaited. -/
def awaitRevision (r : ρ) (m : LockMode) (t : LockTask ι ρ) :
    Option (ResultLock ι ρ) :=
  if (s.revisions r).Admits LockMode.Compatible p m then some (s.takeRevision p r m t) else none

/-- A revision lock is tried. -/
def tryRevision (r : ρ) (m : LockMode) (t busy : LockTask ι ρ) :
    ResultLock ι ρ :=
  if (s.revisions r).Admits LockMode.Compatible p m then s.takeRevision p r m t else s.goto p busy

/-- No call has borrowed the guard of the task. -/
def Unborrowed (t : ι) : Prop := ∀ q, (s.tasks q).borrowed ≠ some t

instance (s : ResultLock ι ρ) (t : ι) : Decidable (s.Unborrowed t) :=
  inferInstanceAs (Decidable (∀ q, (s.tasks q).borrowed ≠ some t))

/-! ### The calls -/

/-- A call of a task that is idle. The `try` calls are made at once, as far as their first
lock goes. -/
def call : LockEvent ι ρ → Option (ResultLock ι ρ)
  | .read r => some (s.goto p (.read r))
  | .upgradableRead r => some (s.goto p (.outer .upgradable r))
  | .write r => some (s.goto p (.outer .write r))
  | .tryRead r => some (s.tryRevision p r .shared (.guard (.read r)) .idle)
  | .tryUpgradableRead r => some (s.tryGateway p (.tryInner .upgradable r) .idle)
  | .tryWrite r => some (s.tryGateway p (.tryInner .write r) .idle)
  | .lockTarget => some (s.goto p .target)
  | .tryLockTarget => some (s.tryGateway p (.guard .target) .idle)
  | .tryWriteRevision t r =>
    if s.tasks t = .guard .target then
      some (s.tryRevision p r .exclusive (.guard (.revisionWrite r)) .idle)
    else none
  | .writeRevision t r =>
    if s.tasks t = .guard .target then some (s.goto p (.revision t r)) else none
  | _ => none

/-- The guard is dropped: the revision lock first, and then the gateway. -/
def dropGuard : ResultGuard ρ → Option (ResultLock ι ρ)
  | .read r => some (s.releaseRevision p r .idle)
  | .upgradable r => some (s.releaseRevision p r .releasing)
  | .write r => some (s.releaseRevision p r .releasing)
  | .target => if s.Unborrowed p then some (s.releaseGateway p .idle) else none
  | .revisionWrite r => some (s.releaseRevision p r .idle)

/-- What is done with a guard. -/
def useGuard (g : ResultGuard ρ) :
    LockEvent ι ρ → Option (ResultLock ι ρ)
  | .upgrade =>
    match g with
    | .upgradable r => some (s.releaseRevision p r (.transform .write r))
    | _ => none
  | .downgrade =>
    match g with
    | .write r => some (s.releaseRevision p r (.transform .upgradable r))
    | _ => none
  | .drop => s.dropGuard p g
  | _ => none

/-- A call goes on. -/
def proceed : Option (ResultLock ι ρ) :=
  match s.tasks p with
  | .read r => s.awaitRevision p r .shared (.guard (.read r))
  | .outer k r => s.awaitGateway p (.inner k r)
  | .inner k r => s.awaitRevision p r k.mode (.guard (k.guard r))
  | .tryInner k r => some (s.tryRevision p r k.mode (.guard (k.guard r)) .releasing)
  | .transform k r => s.awaitRevision p r k.mode (.guard (k.guard r))
  | .target => s.awaitGateway p (.guard .target)
  | .revision _ r => s.awaitRevision p r .exclusive (.guard (.revisionWrite r))
  | .releasing => some (s.releaseGateway p .idle)
  | .idle => none
  | .guard _ => none

/-- A call ends without a guard: what it holds is the gateway, if anything, and that is
dropped with the call. -/
def fail : Option (ResultLock ι ρ) :=
  match s.tasks p with
  | .read _ => some (s.goto p .idle)
  | .outer _ _ => some (s.goto p .idle)
  | .inner _ _ => some (s.releaseGateway p .idle)
  | .tryInner _ _ => some (s.releaseGateway p .idle)
  | .transform _ _ => some (s.releaseGateway p .idle)
  | .target => some (s.goto p .idle)
  | .revision _ _ => some (s.goto p .idle)
  | .releasing => none
  | .idle => none
  | .guard _ => none

/-- One step of one task. -/
def step (e : ι × LockEvent ι ρ) : Option (ResultLock ι ρ) :=
  match e.2 with
  | .proceed => s.proceed e.1
  | .fail => s.fail e.1
  | ev =>
    match s.tasks e.1 with
    | .idle => s.call e.1 ev
    | .guard g => s.useGuard e.1 g ev
    | _ => none

/-- The lock as a machine. -/
def machine (ι ρ : Type) [DecidableEq ι] [DecidableEq ρ] [Fintype ι] :
    Machine (ResultLock ι ρ) (ι × LockEvent ι ρ) := ⟨new, step⟩

end ResultLock

end Heph
