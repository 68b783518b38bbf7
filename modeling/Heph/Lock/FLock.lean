import Heph.Lib.Advisory
import Heph.Lib.Parties

/-!
# The file lock

An `FLockState` takes an advisory lock on the file at its path. The exclusive lock is given
back by removing the file, so the file may be gone – or be another one – by the time that a
process that opened it gets its lock. Every fresh acquire therefore compares the inode that
it locked with the one that the path names, and starts over where they differ.

A process is here a party (`Parties`) that makes **one system call at a time**, on a
`Disk`. Its calls to one `FLockState` exclude each other, since the state is behind a
mutex for the whole of a call; between two system calls of one process the others may do
anything. A system call may fail, and a process may be killed, at any time. `flock` is
called again when it is interrupted, which changes nothing and is not a step.

Two `FLockState`s of one process have each their own open file, and are two parties.
-/

namespace Heph.Lock

/-- The errors of an acquire. -/
inductive LockError where
  /-- `opening flock file {path}`. -/
  | opening
  /-- `flock syscall failed`. -/
  | flock
  /-- `fd must be open to validate`. -/
  | notOpen
  /-- `fstat-ing held lock fd`. -/
  | fstat
  /-- `stat-ing lock file {path}`. -/
  | stat
  deriving DecidableEq, Repr

/-- What is left to do once the file is closed. -/
inductive After where
  /-- Start over, with so many attempts left. -/
  | retry (op : LockMode) (left : ℕ)
  /-- Report that the lock is held elsewhere. -/
  | busy
  /-- Return from a release. -/
  | released
  deriving DecidableEq, Repr

/-- The system call that a process is about to make, with the attempts that are left to
`try_lock_fresh` after the current one. -/
inductive Pc where
  | idle
  | opening (op : LockMode) (left : ℕ)
  | locking (op : LockMode) (left : ℕ)
  | fstat (op : LockMode) (left : ℕ)
  | stat (op : LockMode) (left : ℕ)
  | unlinking
  | unlocking (after : After)
  | closing (after : After)
  deriving DecidableEq, Repr

/-- `FdState`, but for the file, which is on the disk. -/
structure FdState where
  readers : ℕ
  writer : Bool
  staleWarned : Bool
  deriving DecidableEq, Repr

/-- A process: its `FLockState`, the guards that it has, and what the last acquire
returned. -/
structure Process where
  fd : FdState
  pc : Pc
  /-- The `FReadGuard`s that are not dropped. -/
  readGuards : ℕ
  /-- The `FWriteGuard`s that are not dropped. -/
  writeGuards : ℕ
  result : Option (Except LockError Bool)

/-- `STALE_RETRIES`. -/
def staleRetries : ℕ := 16

namespace Process

/-- `FLockState::new`. -/
def new : Process := ⟨⟨0, false, false⟩, .idle, 0, 0, none⟩

variable (c : Process)

/-- The acquire returns. -/
def ret (r : Except LockError Bool) : Process :=
  { c with pc := .idle, result := some r }

/-- The head of the loop of `try_lock_fresh`, with the attempts that are left. -/
def tryLockFresh (op : LockMode) : ℕ → Process
  | 0 => { c with fd.staleWarned := true }.ret (.ok false)
  | left + 1 => { c with pc := .opening op left }

/-- What follows the closing of the file. -/
def resume : After → Process
  | .retry op left => c.tryLockFresh op left
  | .busy => c.ret (.ok false)
  | .released => { c with pc := .idle }

/-- `discard_fd`: unlock and close, if a file is open. -/
def discardFd (isOpen : Bool) (after : After) : Process :=
  if isOpen then { c with pc := .unlocking after } else c.resume after

/-- `maybe_close`, at the end of a release. -/
def maybeClose (isOpen : Bool) : Process :=
  if c.fd.readers = 0 ∧ c.fd.writer = false then c.discardFd isOpen .released
  else { c with pc := .idle }

/-- `try_acquire_read`, up to its first system call. -/
def tryAcquireRead : Process :=
  if c.fd.writer then c.ret (.ok false)
  else if 0 < c.fd.readers then
    { c with fd.readers := c.fd.readers + 1, readGuards := c.readGuards + 1 }.ret (.ok true)
  else c.tryLockFresh .shared staleRetries

/-- `try_acquire_write`, up to its first system call. -/
def tryAcquireWrite : Process :=
  if c.fd.writer ∨ 0 < c.fd.readers then c.ret (.ok false)
  else c.tryLockFresh .exclusive staleRetries

/-- `try_lock_fresh` has succeeded: the ends of `try_acquire_read` and
`try_acquire_write`. -/
def acquired : LockMode → Process
  | .shared =>
    { c with fd.staleWarned := false, fd.readers := 1, readGuards := c.readGuards + 1 }.ret
      (.ok true)
  | .exclusive =>
    { c with fd.staleWarned := false, fd.writer := true, writeGuards := c.writeGuards + 1 }.ret
      (.ok true)

/-- `release_read`, up to its first system call. -/
def releaseRead (isOpen : Bool) : Process :=
  { c with fd.readers := c.fd.readers - 1, readGuards := c.readGuards - 1 }.maybeClose isOpen

/-- `release_write`, up to its first system call. -/
def releaseWrite (isOpen : Bool) : Process :=
  let c := { c with fd.writer := false, writeGuards := c.writeGuards - 1 }
  if isOpen then { c with pc := .unlinking } else c.maybeClose isOpen

end Process

/-! ### Steps -/

/-- What a process does next. -/
inductive Event (ν : Type) where
  | tryAcquireRead
  | tryAcquireWrite
  /-- An `FReadGuard` is dropped. -/
  | releaseRead
  /-- An `FWriteGuard` is dropped. -/
  | releaseWrite
  /-- The next system call is made; a file that it creates is on the inode `fresh`. -/
  | proceed (fresh : ν)
  /-- The next system call fails. -/
  | fail
  /-- The process is killed, and another one may be started. -/
  | kill
  deriving DecidableEq, Repr

variable {ι ν : Type} [DecidableEq ι] [DecidableEq ν] [Fintype ι]

/-- The next system call of the process, and what the process does with the answer. -/
def proceed (p : ι) (d : Disk ι ν) (c : Process) (fresh : ν) : Option (Disk ι ν × Process) :=
  match c.pc with
  | .idle => none
  | .opening op left =>
    -- `ensure_open`: an earlier attempt that failed may have left the file open
    if (d.files p).isSome then some (d, { c with pc := .locking op left })
    else (d.openCreate p fresh).map fun d' => (d', { c with pc := .locking op left })
  | .locking op left =>
    some ((d.tryLock p op).1,
      if (d.tryLock p op).2 then { c with pc := .fstat op left }
      else { c with pc := .closing .busy })
  | .fstat op left =>
    some (d, if (d.files p).isSome then { c with pc := .stat op left } else c.ret (.error .notOpen))
  | .stat op left =>
    some (d,
      if d.Named p then c.acquired op
      else c.discardFd (d.files p).isSome (.retry op left))
  | .unlinking => some (d.unlink, c.maybeClose (d.files p).isSome)
  | .unlocking after => some (d.unlock p, { c with pc := .closing after })
  | .closing after => some (d.close p, c.resume after)

/-- The next system call of the process fails. An acquire returns the error, and leaves the
file as it is; a release goes on. -/
def fail (isOpen : Bool) (c : Process) : Option Process :=
  match c.pc with
  | .idle => none
  | .opening _ _ => if isOpen then none else some (c.ret (.error .opening))
  | .locking _ _ => some (c.ret (.error .flock))
  | .fstat _ _ => some (c.ret (.error .fstat))
  | .stat _ _ => some (c.ret (.error .stat))
  | .unlinking => some (c.maybeClose isOpen)
  | .unlocking after => some { c with pc := .closing after }
  | .closing _ => none

/-- One step of a process. A call begins when no other call of the process is going on. -/
def step (p : ι) (d : Disk ι ν) (c : Process) : Event ν → Option (Disk ι ν × Process)
  | .tryAcquireRead => if c.pc = .idle then some (d, c.tryAcquireRead) else none
  | .tryAcquireWrite => if c.pc = .idle then some (d, c.tryAcquireWrite) else none
  | .releaseRead =>
    if c.pc = .idle ∧ 0 < c.readGuards then some (d, c.releaseRead (d.files p).isSome) else none
  | .releaseWrite =>
    if c.pc = .idle ∧ 0 < c.writeGuards then some (d, c.releaseWrite (d.files p).isSome) else none
  | .proceed fresh => proceed p d c fresh
  | .fail => (fail (d.files p).isSome c).map fun c' => (d, c')
  | .kill => some (d.close p, .new)

/-- The processes `ι` on one path, with the lock file that they find there, if any. -/
def flock (ι : Type) {ν : Type} [DecidableEq ι] [DecidableEq ν] [Fintype ι] (entry : Option ν) :
    Parties ι (Disk ι ν) Process (Event ν) where
  init := ⟨entry, fun _ => none⟩
  start := .new
  step := step

end Heph.Lock
