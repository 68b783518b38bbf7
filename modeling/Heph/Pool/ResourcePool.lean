import Heph.Lib.Machine
import Heph.Lib.SortedMap

/-!
# The resource pool

`ResourcePool` of `engine/resource_pool.rs` admits targets against per-pool capacities. A
request names several pools and is granted all of them at once, or queues; the queue is
served from its head only. A **grant** is a `Reservation`, which gives its amounts back
when it is dropped. It reaches its requester at once, or through a oneshot channel; a
channel dropped with the grant inside drops the grant.

One lane is modelled, with everything that lives outside of its lock: the `Acquire`
futures, each with the slot its grant is put into, and the reservations that targets own.
A step is one critical section, or one drop:

| step | in the source |
| --- | --- |
| `acquire` | `ResourcePool::acquire`: `resolve`, then `grant_now` or `enqueue` |
| `poll` | `Acquire::poll` is ready: the grant is observed, or the sender is gone |
| `dropGuard` | `WaitGuard::drop` of a dropped `Acquire`: `cancel` |
| `dropSlot` | its receiver, or its unobserved grant, is dropped |
| `dropReservation` | a target drops its reservation: `release` |

An `Acquire` drops its guard before its receiver; as either order is meant to be sound,
both are allowed. The grants are numbered in the order in which they are made, and the
numbers of those that have been given back are listed in `returned`: the code tells its
reservations apart by their being different values. The instants (`since`) that only
the snapshots read are left out.
-/

namespace Heph

/-- `PoolName`: a string, as the list of its characters. -/
abbrev PoolName := List Char

namespace PoolName

/-- `PoolName::CPU`. -/
def cpu : PoolName := ['c', 'p', 'u']

end PoolName

/-- `Limit`: the capacity of a pool. -/
inductive Limit where
  /-- At most this much is held at once. -/
  | bounded (n : UInt64)
  /-- Every request fits. -/
  | unbounded
  deriving DecidableEq, Repr

/-- `Demand`: the declared pools of a target, with their amounts. -/
abbrev Demand := SortedMap PoolName UInt64

/-- `Resources::DEFAULT_CPU_MICROS`: one CPU. -/
def defaultCpuMicros : UInt64 := 1000000

/-- `u64::MAX`, where `take` saturates. -/
def maxU64 : ℕ := 2 ^ 64 - 1

/-- Amounts by the index of their pool. -/
abbrev Need := List (ℕ × ℕ)

/-- `AcquireError`, as far as `acquire` returns it. -/
inductive AcquireError where
  | zeroCapacity (pool : PoolName)
  | unknownPool (pool : PoolName)
  deriving DecidableEq, Repr

/-- `GrantError`. -/
inductive GrantError where
  | unknown
  | zeroCapacity
  deriving DecidableEq, Repr

/-- `GrantError::naming`. -/
def GrantError.naming : GrantError → PoolName → AcquireError
  | unknown, pool => .unknownPool pool
  | zeroCapacity, pool => .zeroCapacity pool

/-- `Lane`, without its state: the pools and their capacities, in name order. -/
structure Lane where
  /-- The capacity of each pool. -/
  pools : SortedMap PoolName Limit

namespace Lane

/-- `ResourcePool::new`: a pool given twice keeps the last capacity. -/
def new (capacities : List (PoolName × Limit)) : Lane := ⟨.ofList capacities⟩

/-- The capacities by index. -/
def capacity (lane : Lane) : List Limit := lane.pools.values

/-- `Lane::index`. -/
def index (lane : Lane) (pool : PoolName) : Option ℕ := lane.pools.keys.idxOf? pool

/-- `Lane::grant`: the amount of one pool is added to the need, clamped to the capacity; a
zero amount is checked but adds nothing. -/
def grant (lane : Lane) (idx : Option ℕ) (amount : ℕ) (acc : Need × Bool) :
    Except GrantError (Need × Bool) :=
  match idx with
  | none => .error .unknown
  | some idx =>
    match lane.capacity[idx]? with
    | some .unbounded => .ok (if amount ≠ 0 then (acc.1 ++ [(idx, amount)], acc.2) else acc)
    | none => .error .zeroCapacity
    | some (.bounded capacity) =>
      if capacity = 0 then .error .zeroCapacity
      else
        let granted := min amount capacity.toNat
        .ok (if amount ≠ 0 then (acc.1 ++ [(idx, granted)], acc.2 || granted < amount) else acc)

/-- The loop of `ResourcePool::resolve` over the declared pools. -/
def resolveAll (lane : Lane) : List (PoolName × UInt64) → Need × Bool →
    Except AcquireError (Need × Bool)
  | [], acc => .ok acc
  | (pool, amount) :: rest, acc =>
    match lane.grant (lane.index pool) amount.toNat acc with
    | .error e => .error (e.naming pool)
    | .ok acc => resolveAll lane rest acc

/-- `ResourcePool::resolve`: the declared amounts, and one CPU where `cpu` is not declared;
with whether any amount was clamped. -/
def resolve (lane : Lane) (request : Demand) : Except AcquireError (Need × Bool) :=
  match lane.resolveAll request.entries ([], false) with
  | .error e => .error e
  | .ok acc =>
    if (request.get? PoolName.cpu).isNone then
      match lane.grant (lane.index PoolName.cpu) defaultCpuMicros.toNat acc with
      | .error e => .error (e.naming PoolName.cpu)
      | .ok acc => .ok acc
    else .ok acc

/-- The need has an amount of a bounded pool. -/
def bounded (lane : Lane) (need : Need) : Bool :=
  need.any fun e =>
    match lane.capacity[e.1]? with
    | some (.bounded _) => true
    | _ => false

end Lane

/-! ### Amounts -/

/-- `fits`: an unbounded pool always does. -/
def fits (capacity : List Limit) (held : List ℕ) (need : Need) : Bool :=
  need.all fun e =>
    match capacity[e.1]?, held[e.1]? with
    | some .unbounded, some _ => true
    | some (.bounded cap), some h => e.2 ≤ cap.toNat - h
    | _, _ => false

/-- `take`, saturating. -/
def take (held : List ℕ) (need : Need) : List ℕ :=
  need.foldl (fun held e => held.modify e.1 fun h => min (h + e.2) maxU64) held

/-- `give`, never below nothing held. -/
def give (held : List ℕ) (granted : Need) : List ℕ :=
  granted.foldl (fun held e => held.modify e.1 fun h => h - e.2) held

/-! ### The state -/

/-- `Reservation`: a grant, with its number. -/
structure Reservation where
  granted : Need
  clamped : Bool
  number : ℕ
  deriving DecidableEq, Repr

/-- `Waiter`: a queued request, with the `Acquire` at the other end of its channel. -/
structure Waiter where
  need : Need
  clamped : Bool
  tx : ℕ
  deriving DecidableEq, Repr

/-- Where the grant of an `Acquire` is put: the value of its `Ready` state, or the receiver
of its channel. -/
inductive Slot where
  /-- Nothing has been sent. -/
  | empty
  /-- The grant is there, unobserved. -/
  | full (r : Reservation)
  /-- The grant has been observed, or the slot dropped. -/
  | gone
  deriving DecidableEq, Repr

/-- The grant in the slot. -/
def Slot.grant? : Slot → Option Reservation
  | full r => some r
  | _ => none

/-- `Acquire`: its need, the sequence number of its guard if it has queued and whether the
guard is armed, its slot, and the number of the grant it was sent. -/
structure Acquire where
  need : Need
  seq : Option ℕ
  armed : Bool
  slot : Slot
  number : Option ℕ
  deriving DecidableEq, Repr

/-- The state of a lane, and of what lives outside of its lock. -/
structure Pool where
  /-- What is granted and not yet released, by the index of the pool. -/
  held : List ℕ
  /-- The queue, by arrival sequence. -/
  waiters : SortedMap ℕ Waiter
  /-- The next sequence number, which wraps. -/
  nextSeq : ℕ
  /-- The `Acquire` futures, in the order of their calls. -/
  acquires : List Acquire
  /-- The reservations that targets own. -/
  owned : List Reservation
  /-- How many grants have been made. -/
  numbers : ℕ
  /-- The numbers of the grants given back. -/
  returned : List ℕ

/-- The steps. -/
inductive PoolEvent where
  | acquire (request : Demand)
  | poll (i : ℕ)
  | dropGuard (i : ℕ)
  | dropSlot (i : ℕ)
  | dropReservation (j : ℕ)

namespace Pool

/-- `Lane::new`: nothing held, nobody waiting. -/
def new (lane : Lane) : Pool where
  held := List.replicate lane.capacity.length 0
  waiters := .empty
  nextSeq := 0
  acquires := []
  owned := []
  numbers := 0
  returned := []

variable (p : Pool)

/-- Writing to an `Acquire`. -/
def setAcquire (i : ℕ) (a : Acquire) : Pool :=
  { p with acquires := p.acquires.set i a }

/-! ### Granting -/

/-- Counting the need as held, for a new grant. -/
def charge (need : Need) : Pool :=
  { p with held := take p.held need, numbers := p.numbers + 1 }

/-- Giving a grant back. -/
def credit (r : Reservation) : Pool :=
  { p with held := give p.held r.granted, returned := p.returned ++ [r.number] }

/-- `waiter.tx.send(reservation)`, and what `grant_chain` does when it fails. -/
def send (tx : ℕ) (r : Reservation) : Pool :=
  match p.acquires[tx]? with
  | some a =>
    match a.slot with
    | .empty => p.setAcquire tx { a with slot := .full r, number := some r.number }
    | _ => p.credit r
  | none => p.credit r

/-- One iteration of `Lane::grant_chain`, for a head that fits. -/
def grantHead (seq : ℕ) (w : Waiter) : Pool :=
  let q := { p with waiters := p.waiters.remove seq }
  (q.charge w.need).send w.tx ⟨w.need, w.clamped, p.numbers⟩

/-- The loop of `Lane::grant_chain`. Every iteration takes the head out of the queue, so its
length bounds the number of iterations. -/
def grantLoop (lane : Lane) : ℕ → Pool → Pool
  | 0, p => p
  | n + 1, p =>
    match p.waiters.entries with
    | [] => p
    | (seq, w) :: _ =>
      if fits lane.capacity p.held w.need then grantLoop lane n (p.grantHead seq w) else p

/-- `Lane::grant_chain`: grant from the head while the head fits. -/
def grantChain (lane : Lane) (p : Pool) : Pool := grantLoop lane p.waiters.entries.length p

/-- `Lane::release`: an empty grant frees nothing. -/
def release (lane : Lane) (p : Pool) (r : Reservation) : Pool :=
  if r.granted.isEmpty then p.credit r else grantChain lane (p.credit r)

/-- `Lane::cancel`: leave the queue and run the chain. -/
def cancel (lane : Lane) (p : Pool) (seq : ℕ) : Pool :=
  if (p.waiters.get? seq).isSome then grantChain lane { p with waiters := p.waiters.remove seq }
  else p

/-- A grant on arrival: `Lane::grant_now`, and the fast path of `Lane::enqueue`. -/
def grantNow (need : Need) (clamped : Bool) : Pool :=
  { p.charge need with acquires := p.acquires ++
      [⟨need, none, false, .full ⟨need, clamped, p.numbers⟩, some p.numbers⟩] }

/-- An arrival that waits: the slow path of `Lane::enqueue`, before the chain is run. -/
def push (need : Need) (clamped : Bool) : Pool :=
  { p with
    waiters := p.waiters.insert p.nextSeq ⟨need, clamped, p.acquires.length⟩
    nextSeq := (p.nextSeq + 1) % 2 ^ 64
    acquires := p.acquires ++ [⟨need, some p.nextSeq, true, .empty, none⟩] }

/-- `Lane::enqueue`. -/
def enqueue (lane : Lane) (p : Pool) (need : Need) (clamped : Bool) : Pool :=
  if p.waiters.entries.isEmpty ∧ fits lane.capacity p.held need then p.grantNow need clamped
  else grantChain lane (p.push need clamped)

/-- `ResourcePool::acquire`. -/
def acquire (lane : Lane) (p : Pool) (request : Demand) : Except AcquireError Pool :=
  match lane.resolve request with
  | .error e => .error e
  | .ok (need, clamped) =>
    .ok (if lane.bounded need then p.enqueue lane need clamped else p.grantNow need clamped)

/-! ### The steps -/

/-- The sender of a channel is in the queue. -/
def senderAlive (i : ℕ) : Bool := p.waiters.entries.any fun e => e.2.tx == i

/-- **One step**, `none` where it is not enabled. A refused request changes nothing. -/
def step (lane : Lane) (p : Pool) : PoolEvent → Option Pool
  | .acquire request =>
    match p.acquire lane request with
    | .error _ => some p
    | .ok p => some p
  | .poll i =>
    match p.acquires[i]? with
    | some a =>
      match a.slot with
      | .full r =>
        some { p.setAcquire i { a with armed := false, slot := .gone } with
          owned := p.owned ++ [r] }
      | .empty =>
        if p.senderAlive i then none
        else some (p.setAcquire i { a with armed := false, slot := .gone })
      | .gone => none
    | none => none
  | .dropGuard i =>
    match p.acquires[i]? with
    | some a =>
      match a.armed, a.seq with
      | true, some seq => some (cancel lane (p.setAcquire i { a with armed := false }) seq)
      | _, _ => none
    | none => none
  | .dropSlot i =>
    match p.acquires[i]? with
    | some a =>
      match a.slot with
      | .full r => some (release lane (p.setAcquire i { a with slot := .gone }) r)
      | .empty => some (p.setAcquire i { a with slot := .gone })
      | .gone => none
    | none => none
  | .dropReservation j =>
    match p.owned[j]? with
    | some r => some (release lane { p with owned := p.owned.eraseIdx j } r)
    | none => none

/-- The pool as a machine. -/
def machine (lane : Lane) : Machine Pool PoolEvent := ⟨new lane, step lane⟩

/-- The outstanding grants: the reservations that targets own, and the grants sent but not
yet observed. -/
def outstanding : List Reservation :=
  p.owned ++ p.acquires.filterMap fun a => a.slot.grant?

end Pool

end Heph
