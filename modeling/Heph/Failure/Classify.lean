import Heph.Addr.Addr
import Heph.Lib.Machine

/-!
# Who is to blame for a failure

When a target fails, everything that depends on it fails with it. What the user is shown is the
targets that failed **on their own**, and these are kept in a registry of the request
(`Failures`). Whatever depends on them gets a marker, `UpstreamFailed`, which says no more
than whose failure it is. Every frame of `result_addr` decides with `classifyFailure` which of the
two its error is.

On its way an error is given contexts, and is shared among the waiters of a memoizer; neither
hides it (`Failure.bare`). The errors of several dependencies are aggregated, unless the
request fails fast: then the first one is taken, and the others are not waited for.

A frame is one call of `result_addr`. There may be several of one target – for other outputs, or
because the memoizer is not involved yet – and a frame takes the results of its dependencies from
any of their frames. The frames come in any order in which each comes after those that it takes
its results from.
-/

namespace Heph

/-! ### Errors -/

/-- `LogTail`. -/
structure LogTail where
  text : Text
  startLine : ℕ
  deriving DecidableEq, Repr

/-- `FailureLog`: where it is, and what the reading of its tail gives. -/
structure FailureLog where
  path : Option Text
  tail : Option LogTail
  deriving DecidableEq, Repr

/-- What an error is given as a context: a text, or `FailureSlot`. -/
inductive FailureContext where
  | text (t : Text)
  | slot (log : Option FailureLog)
  deriving DecidableEq, Repr

/-- `ShellNeedsSingleTarget`. -/
inductive ShellNeedsSingleTarget where
  | selection (query : Text)
  | group (addr : Addr) (members : List Addr)
  | notInteractive (addr : Addr)
  deriving DecidableEq

/-- An error, by the type that it is downcast to. -/
inductive Failure where
  /-- `CancelledError`. -/
  | cancelled
  /-- `CycleError`. -/
  | cycle (source target : Addr)
  /-- `HashUnknownError`. -/
  | hashUnknown (addr : Addr)
  | shell (e : ShellNeedsSingleTarget)
  /-- `UpstreamFailed`. -/
  | upstream (root : Addr)
  /-- `MultiError`. -/
  | multi (es : List Failure)
  /-- `TargetFailure`, which is what a direct caller is shown. -/
  | target (addr : Addr) (logTail : Option LogTail) (log : Option FailureLog) (source : Failure)
  /-- Any other error. -/
  | other (message : Text)
  | context (c : FailureContext) (e : Failure)
  /-- `SharedAnyhow`: what a memoizer hands to several waiters. -/
  | shared (e : Failure)

/-- What happens to an error on its way. -/
inductive Wrapper where
  | context (c : FailureContext)
  | shared
  deriving DecidableEq, Repr

namespace Failure

/-- What is below the contexts and the sharing. It is there that `downcast_chain_ref` finds the
type that it looks for. -/
def bare : Failure → Failure
  | context _ e => e.bare
  | shared e => e.bare
  | e => e

/-- `failure_slot_log`: the outermost slot. -/
def slotLog : Failure → Option FailureLog
  | context (.slot log) _ => log
  | context (.text _) e => e.slotLog
  | shared e => e.slotLog
  | _ => none

/-- The error has been wrapped on its way. -/
def wrap : List Wrapper → Failure → Failure
  | [], e => e
  | .context c :: ws, e => context c (e.wrap ws)
  | .shared :: ws, e => shared (e.wrap ws)

variable (e : Failure)

/-- The error is `ShellNeedsSingleTarget`. -/
def shell? : Option ShellNeedsSingleTarget :=
  match e.bare with
  | shell e => some e
  | _ => none

/-- The error is `UpstreamFailed`. -/
def root? : Option Addr :=
  match e.bare with
  | upstream root => some root
  | _ => none

/-- The error is `CancelledError`. -/
def isCancelled : Bool :=
  match e.bare with
  | cancelled => true
  | _ => false

/-- There is nothing in the error to blame a target for that is not recorded already. -/
def isCollateral : Bool := e.root?.isSome || e.isCancelled

/-- The error is about the target itself: it is no marker and no property of the request, and if
it aggregates others then there is one among them that is neither. -/
def isGenuine : Bool :=
  match e.bare with
  | cancelled => false
  | cycle _ _ => false
  | hashUnknown _ => false
  | shell _ => false
  | upstream _ => false
  | multi es => es.all (fun e => e.shell?.isNone) && es.any fun e => !e.isCollateral
  | _ => true

end Failure

/-! ### The registry -/

/-- `TargetFailure`. -/
structure TargetFailure where
  addr : Addr
  logTail : Option LogTail
  log : Option FailureLog
  source : Failure

/-- The failures of a request, in the order in which they came. -/
structure Failures where
  entries : List (Addr × TargetFailure)
  nodup : (entries.map (·.1)).Nodup

namespace Failures

/-- No failure yet. -/
def empty : Failures := ⟨[], List.nodup_nil⟩

variable (fs : Failures)

/-- The targets with a failure. -/
def addrs : List Addr := fs.entries.map (·.1)

/-- `record_failure`: the first one stays. -/
def record (a : Addr) (f : TargetFailure) : Failures :=
  if h : a ∈ fs.addrs then fs
  else ⟨fs.entries ++ [(a, f)], by
    rw [List.map_append, List.nodup_append]
    exact ⟨fs.nodup, List.nodup_singleton a, fun b hb c hc hbc => by
      obtain rfl : c = a := List.mem_singleton.mp hc
      exact h (hbc ▸ hb)⟩⟩

end Failures

/-! ### Classification -/

/-- The error is the target's own: it is recorded, and a marker is passed on. The log is shown
only if the user has not seen it. -/
def blame (fs : Failures) (addr : Addr) (interactive : Bool) (e : Failure) : Failures × Failure :=
  let log := if interactive then none else e.slotLog
  (fs.record addr ⟨addr, log.bind FailureLog.tail, log, e⟩, .upstream addr)

/-- `classify_failure`. -/
def classifyFailure (fs : Failures) (addr : Addr) (interactive : Bool) (e : Failure) :
    Failures × Failure :=
  match e.bare with
  | .cancelled => (fs, e)
  | .cycle _ _ => (fs, e)
  | .hashUnknown _ => (fs, e)
  | .shell _ => (fs, e)
  | .upstream root => (fs, .upstream root)
  | .multi es =>
    match es.findSome? Failure.shell? with
    | some sh => (fs, .shell sh)
    | none =>
      if es.all Failure.isCollateral then
        (fs, .upstream ((es.findSome? Failure.root?).getD addr))
      else blame fs addr interactive e
  | _ => blame fs addr interactive e

/-! ### The frames of a request -/

/-- How the work of a target ends. -/
inductive Outcome where
  | success
  /-- It fails, with an error of its own. -/
  | own (e : Failure) (genuine : e.isGenuine = true)
  | cancelled

/-- The targets that a request may come to. -/
structure Targets where
  /-- The inputs of a target, as often as they are named. -/
  deps : Addr → List Addr
  outcome : Addr → Outcome
  interactive : Addr → Bool
  failFast : Bool

/-- The result of a dependency: the frame that it is taken from, and what happens to its error on
the way. -/
structure Taken where
  frame : ℕ
  wrappers : List Wrapper
  deriving DecidableEq, Repr

/-- How a frame ends. -/
inductive FrameEvent where
  /-- With the results of all its dependencies. -/
  | finish (addr : Addr) (inputs : List Taken) (ws : List Wrapper)
  /-- With the first error of a dependency. -/
  | failFast (addr : Addr) (input : Taken) (ws : List Wrapper)

/-- What the request has come to: the registry, and the results of the frames so far. -/
structure Frames where
  failures : Failures
  results : List (Addr × Except Failure Unit)

namespace Frames

/-- No frame has come to an end. -/
def new : Frames := ⟨.empty, []⟩

/-- The result of a dependency, as it comes to the frame that takes it. -/
def take (s : Frames) (t : Taken) : Option (Addr × Except Failure Unit) :=
  match s.results[t.frame]? with
  | some (a, .ok ()) => some (a, .ok ())
  | some (a, .error e) => some (a, .error (e.wrap t.wrappers))
  | none => none

/-- The results of the dependencies, as they come to the frame that takes them. -/
def gather (s : Frames) (inputs : List Taken) : List (Addr × Except Failure Unit) :=
  inputs.filterMap s.take

/-- The errors among the results. -/
def errors (rs : List (Addr × Except Failure Unit)) : List Failure :=
  rs.filterMap fun r =>
    match r.2 with
    | .ok () => none
    | .error e => some e

/-- `join_all_failable`, for a request that does not fail fast: a sole error surfaces directly. -/
def joinAllFailable : List Failure → Option Failure
  | [] => none
  | [e] => some e
  | es => some (.multi es)

/-- A frame ends well. -/
def succeed (s : Frames) (a : Addr) : Frames := { s with results := s.results ++ [(a, .ok ())] }

/-- A frame ends with an error, which is classified. -/
def fail (t : Targets) (s : Frames) (a : Addr) (e : Failure) : Frames :=
  let r := classifyFailure s.failures a (t.interactive a) e
  ⟨r.1, s.results ++ [(a, .error r.2)]⟩

/-- One step. -/
def step (t : Targets) (s : Frames) : FrameEvent → Option Frames
  | .finish a inputs ws =>
    match t.outcome a with
    | .cancelled => some (s.fail t a (Failure.cancelled.wrap ws))
    | outcome =>
      if (s.gather inputs).map (·.1) ≠ t.deps a then none
      else
        match joinAllFailable (errors (s.gather inputs)), outcome with
        | some e, _ => if t.failFast then none else some (s.fail t a (e.wrap ws))
        | none, .own e _ => some (s.fail t a (e.wrap ws))
        | none, _ => some (s.succeed a)
  | .failFast a input ws =>
    match t.outcome a, s.take input with
    | .cancelled, _ => none
    | _, some (d, .error e) =>
      if t.failFast ∧ d ∈ t.deps a then some (s.fail t a (e.wrap ws)) else none
    | _, _ => none

/-- The request as a machine. -/
def machine (t : Targets) : Machine Frames FrameEvent := ⟨new, step t⟩

end Frames

end Heph
