import Heph.Lib.Machine

/-!
# The memoizer's task cells, on one key

`TaskInner` of `hmemoizer/task_cell.rs` runs one body per key: the first caller of
`process` stores a cell in the map, later callers find it and wait for its outcome, and
a cell nobody waits for any more is evicted and its task aborted. An abort is only a
request, so the aborted task's handle is parked in the key's **grave**, and the next
cell's task awaits what it finds there before it starts its own body.

Every operation of the map is confined to one key, so the model is of one key. The
cells stored under it, one after the other, are its **generations**, numbered from `0`;
a join handle is the number of the generation whose task it is the handle of. A step is
a critical section of the source, or one atomic operation outside of them:

| step | in the source |
| --- | --- |
| `process` | `TaskInner::process`, up to the poll, the spawn or the wait |
| `awaited`, `drain` | the two arms of the loop of `BodyTask::run` |
| `finish`, `publish` | `fut.await` returns; `BodyTask::publish` |
| `drop` | the future is dropped: `BodyTask::drop` |
| `resolve` | the join handle of a task that has ended resolves |
| `spawn`, `spawnFails`, `polled` | what follows the inline poll, and `spawn_body` |
| `wake` | `wait_done` returns the value, and the disarmed guard drops |
| `leave` | the waiting future is dropped, or panics on poison: the armed guard drops |
| `cancel`, `abort` | `cancel_abandoned`: its critical section; the `abort()` after it |
| `evictIf` | `TaskInner::evict_if` |

A body counts as started from the drain that finds no grave, and as ended when it has
returned or its future has been dropped; the future owns the body, which is dropped
before `BodyTask::drop` runs. The diagnostic fields (`created`, `inline`, `tag`) and the
wake-ups (`notify`) are left out.
-/

namespace Heph

open Function

/-- `Grave`: the handle of an aborted predecessor, and its restart count. -/
structure Grave where
  /-- The generation whose task the handle belongs to. -/
  handle : ℕ
  /-- The restarts accumulated so far, a 32-bit count. -/
  restarts : ℕ
  deriving DecidableEq, Repr

/-- `TaskCell`: what the callers of one generation share. -/
structure TaskCell (V : Type) where
  /-- The terminal state, written once: the value, or the message of the poison. -/
  outcome : Option (Except String V)
  /-- The callers currently interested. -/
  interest : ℕ
  /-- Whether the task slot holds the handle of the cell's own task. -/
  task : Bool
  /-- How many aborted predecessors the key has had. -/
  restarts : ℕ

namespace TaskCell

variable {V : Type} (c : TaskCell V)

/-- `TaskCell::peek`: the published value. -/
def peek : Option V :=
  match c.outcome with
  | some (.ok v) => some v
  | _ => none

/-- `TaskCell::is_done`: a published value, not a poison. -/
def isDone : Bool := c.peek.isSome

/-- `TaskCell::acquire_interest`. -/
def acquireInterest : TaskCell V := { c with interest := c.interest + 1 }

/-- `TaskCell::release_interest`. -/
def releaseInterest : TaskCell V := { c with interest := c.interest - 1 }

/-- `OnceLock::set`: only the first write takes effect. -/
def setOutcome (o : Except String V) (c : TaskCell V) : TaskCell V :=
  { c with outcome := some (c.outcome.getD o) }

end TaskCell

/-- Where the future of `BodyTask::run` is. -/
inductive Phase (V : Type) where
  /-- In the loop, with `self.grave`: the body has not been started. -/
  | waiting (grave : Option Grave)
  /-- The body has been started. -/
  | running
  /-- The body has returned, and its value is about to be published. -/
  | finished (v : V)
  /-- The value has been published: the future is complete. -/
  | published (v : V)
  /-- The future has been dropped without publishing. -/
  | dropped

namespace Phase

variable {V : Type}

/-- The body has been started, and has neither returned nor been dropped. -/
def isRunning : Phase V → Bool
  | running => true
  | _ => false

/-- The body is running, or may still be started. -/
def isAlive : Phase V → Bool
  | waiting _ | running => true
  | _ => false

/-- The future is complete, or has been dropped. -/
def isOver : Phase V → Bool
  | published _ | dropped => true
  | _ => false

/-- A poll of the future can return `Pending`: it awaits a handle, or its body. -/
def suspends : Phase V → Bool
  | waiting (some _) | running => true
  | _ => false

end Phase

/-- The task of a generation, as its handles see it. -/
structure BodyTask (V : Type) where
  /-- Where its future is. -/
  phase : Phase V
  /-- Whether an abort has been requested. -/
  aborted : Bool
  /-- Whether its handle has resolved. -/
  resolved : Bool

/-- A call of `process`, with the generation it works on. -/
inductive Caller (V : Type) where
  /-- Polling the body inline, or about to spawn it. -/
  | driving (g : ℕ)
  /-- Waiting for the outcome, behind an armed guard. -/
  | joined (g : ℕ)
  /-- The guard has released the last interest and is about to cancel. -/
  | leaving (g : ℕ)
  /-- The cancellation has parked the handle and is about to abort the task. -/
  | aborting (g : ℕ)
  /-- The call has returned a value. -/
  | returned (g : ℕ) (v : V)
  /-- The call was dropped, or has panicked. -/
  | gone (g : ℕ)

namespace Caller

variable {V : Type}

/-- The generation the call found or created. -/
def gen : Caller V → ℕ
  | driving g | joined g | leaving g | aborting g | returned g _ | gone g => g

/-- A live joiner of a generation: the call holds an interest in it. -/
def holds (g : ℕ) : Caller V → Bool
  | driving h | joined h => h == g
  | _ => false

end Caller

/-- Why a future is dropped before it is complete. -/
inductive DropCause where
  | aborted
  | panicked
  | shutdown

/-- The atomic steps. -/
inductive MemoEvent (V : Type) where
  | process (spawned : Bool)
  | awaited (g : ℕ)
  | drain (g : ℕ)
  | finish (g : ℕ) (v : V)
  | publish (g : ℕ)
  | drop (g : ℕ) (cause : DropCause)
  | resolve (g : ℕ)
  | spawn (c : ℕ)
  | spawnFails (c : ℕ)
  | polled (c : ℕ)
  | wake (c : ℕ)
  | leave (c : ℕ)
  | cancel (c : ℕ)
  | abort (c : ℕ)
  | evictIf (pred : V → Bool)

/-- The memoizer's state for one key. -/
structure Memo (V : Type) where
  /-- The map's entry: the generation stored under the key. -/
  entry : Option ℕ
  /-- The key's grave. -/
  grave : Option Grave
  /-- The cells of the generations. -/
  cells : ℕ → TaskCell V
  /-- Their tasks. -/
  bodies : ℕ → BodyTask V
  /-- How many generations there have been. -/
  size : ℕ
  /-- The calls of `process`, in the order they were made. -/
  callers : List (Caller V)

namespace Memo

variable {V : Type}

/-- `TaskInner::new`, on the one key: no cell and no grave. -/
def new : Memo V where
  entry := none
  grave := none
  cells := fun _ => ⟨none, 0, false, 0⟩
  bodies := fun _ => ⟨.dropped, false, true⟩
  size := 0
  callers := []

/-! ### Writing to the state -/

variable (s : Memo V)

/-- Writing to a cell. -/
def modifyCell (g : ℕ) (f : TaskCell V → TaskCell V) : Memo V :=
  { s with cells := update s.cells g (f (s.cells g)) }

/-- Writing to a task. -/
def modifyBody (g : ℕ) (f : BodyTask V → BodyTask V) : Memo V :=
  { s with bodies := update s.bodies g (f (s.bodies g)) }

/-- Moving a future on. -/
def setPhase (g : ℕ) (p : Phase V) : Memo V :=
  s.modifyBody g fun b => { b with phase := p }

/-- Moving a call on. -/
def setCaller (c : ℕ) (x : Caller V) : Memo V :=
  { s with callers := s.callers.set c x }

/-- Where the future of a generation is. -/
def phase (s : Memo V) (g : ℕ) : Phase V := (s.bodies g).phase

/-! ### The critical sections -/

/-- The vacant arm of `TaskInner::process`: it takes the grave out of the map and stores a
fresh cell. `task` says whether the body has been spawned under the lock. -/
def create (task : Bool) : Memo V where
  entry := some s.size
  grave := none
  cells := update s.cells s.size
    ⟨none, 1, task, s.grave.elim 0 fun gr => (gr.restarts + 1) % 2 ^ 32⟩
  bodies := update s.bodies s.size ⟨.waiting s.grave, false, false⟩
  size := s.size + 1
  callers := s.callers ++ [if task then .joined s.size else .driving s.size]

/-- `TaskInner::process`, from the lookup to the inline poll, the spawn or the wait. The
occupied arm returns a published value at once and joins an unfinished cell. `spawned`
says whether the spawn under the lock succeeds, where the body is not polled inline
first. -/
def process (inlineFirst spawned : Bool) (s : Memo V) : Memo V :=
  match s.entry with
  | some g =>
    match (s.cells g).peek with
    | some v => { s with callers := s.callers ++ [.returned g v] }
    | none =>
      let s := s.modifyCell g TaskCell.acquireInterest
      { s with callers := s.callers ++ [.joined g] }
  | none => s.create (!inlineFirst && spawned)

/-- The `None` arm of the loop of `BodyTask::run`: the next handle in the grave, or the
start of the body. -/
def drain (g : ℕ) : Memo V :=
  match s.grave with
  | some gr => { s with grave := none }.setPhase g (.waiting (some gr))
  | none => s.setPhase g .running

/-- `BodyTask::publish`. -/
def publish (g : ℕ) (v : V) : Memo V :=
  (s.modifyCell g fun c => { c.setOutcome (.ok v) with task := false }).setPhase g (.published v)

/-- `BodyTask::drop`, of a future that has not published: it parks the handle it was
awaiting, under the restart count of its own cell, and poisons the cell. -/
def dropBody (g : ℕ) : Memo V :=
  let s :=
    match s.phase g with
    | .waiting (some gr) => { s with grave := some ⟨gr.handle, (s.cells g).restarts⟩ }
    | _ => s
  (s.modifyCell g (TaskCell.setOutcome (.error
    "memoized task dropped without publishing (body panicked or its runtime shut down)"))).setPhase
    g .dropped

/-- The failing arm of `spawn_body`: the spawn has dropped the future. -/
def spawnFails (g : ℕ) : Memo V :=
  (s.dropBody g).modifyCell g
    (TaskCell.setOutcome (.error "memoized task could not spawn (runtime shut down)"))

/-- The drop of an armed `TaskAbandonGuard`, up to its call of `cancel_abandoned`. -/
def leave (c g : ℕ) : Memo V :=
  let s := s.modifyCell g TaskCell.releaseInterest
  if (s.cells g).interest ≠ 0 ∨ (s.cells g).isDone then s.setCaller c (.gone g)
  else s.setCaller c (.leaving g)

/-- The critical section of `TaskInner::cancel_abandoned`. -/
def cancelAbandoned (c g : ℕ) : Memo V :=
  if (s.cells g).interest ≠ 0 ∨ (s.cells g).isDone then s.setCaller c (.gone g)
  else
    let s := if s.entry = some g then { s with entry := none } else s
    if (s.cells g).task then
      { s.modifyCell g (fun c => { c with task := false }) with
        grave := some ⟨g, (s.cells g).restarts⟩ }.setCaller c (.aborting g)
    else s.setCaller c (.gone g)

/-- `TaskInner::evict_if`. -/
def evictIf (pred : V → Bool) : Memo V :=
  match s.entry with
  | some g => if (s.cells g).peek.any pred then { s with entry := none } else s
  | none => s

/-! ### The steps -/

/-- When an incomplete future can be dropped: after an abort request, by a panic of its
body, or with its runtime. -/
def canDrop (g : ℕ) : DropCause → Bool
  | .aborted => (s.phase g).isAlive && (s.bodies g).aborted
  | .panicked => (s.phase g).isRunning
  | .shutdown => (s.phase g).isAlive

/-- **One atomic step**, `none` where it is not enabled. `inlineFirst` is the process-wide
`inline_first()`. -/
def step (inlineFirst : Bool) (s : Memo V) : MemoEvent V → Option (Memo V)
  | .process spawned => some (s.process inlineFirst spawned)
  | .awaited g =>
    match s.phase g with
    | .waiting (some gr) =>
      if (s.bodies gr.handle).resolved then some (s.setPhase g (.waiting none)) else none
    | _ => none
  | .drain g =>
    match s.phase g with
    | .waiting none => some (s.drain g)
    | _ => none
  | .finish g v => if (s.phase g).isRunning then some (s.setPhase g (.finished v)) else none
  | .publish g =>
    match s.phase g with
    | .finished v => some (s.publish g v)
    | _ => none
  | .drop g cause => if s.canDrop g cause then some (s.dropBody g) else none
  | .resolve g =>
    if (s.phase g).isOver then some (s.modifyBody g fun b => { b with resolved := true }) else none
  | .spawn c =>
    match s.callers[c]? with
    | some (.driving g) =>
      if (s.phase g).suspends then
        some ((s.modifyCell g fun c => { c with task := true }).setCaller c (.joined g))
      else none
    | _ => none
  | .spawnFails c =>
    match s.callers[c]? with
    | some (.driving g) =>
      if (s.phase g).isAlive then some ((s.spawnFails g).setCaller c (.joined g)) else none
    | _ => none
  | .polled c =>
    match s.callers[c]? with
    | some (.driving g) => if (s.phase g).isOver then some (s.setCaller c (.joined g)) else none
    | _ => none
  | .wake c =>
    match s.callers[c]? with
    | some (.joined g) =>
      match (s.cells g).peek with
      | some v => some ((s.modifyCell g TaskCell.releaseInterest).setCaller c (.returned g v))
      | none => none
    | _ => none
  | .leave c =>
    match s.callers[c]? with
    | some (.joined g) => some (s.leave c g)
    | _ => none
  | .cancel c =>
    match s.callers[c]? with
    | some (.leaving g) => some (s.cancelAbandoned c g)
    | _ => none
  | .abort c =>
    match s.callers[c]? with
    | some (.aborting g) =>
      some ((s.modifyBody g fun b => { b with aborted := true }).setCaller c (.gone g))
    | _ => none
  | .evictIf pred => some (s.evictIf pred)

/-- The memoizer as a machine. -/
def machine (V : Type) (inlineFirst : Bool) : Machine (Memo V) (MemoEvent V) :=
  ⟨new, step inlineFirst⟩

end Memo

end Heph
