import Heph.Lib.Machine

/-!
# The credential store on disk

One key has an entry file on disk, and a directory with the files that a producer has made.
Processes share it. To acquire, a process first looks for an entry **without a lock** (`get`), and
on a miss once more under the lock of the key; on a second miss it takes the material from the
source, moves the files into place (`promote_staged`) and writes the entry (`put`), and then gives
the lock back. An entry that is not usable any more is removed by the `get` that finds it, and its
files with it, under the lock or not.

A step is one system call. A directory is removed file by file. The entry is written into a new file
(`create_new`), which is not readable as an entry until it is complete, and may be gone before.
Whether the source has files, and when it expires, is left to the event. Times are in nanoseconds;
an entry has them in seconds, and `put` **drops the rest** of the acquisition time: so a `get` may
find an entry not usable up to half a second before the material is not usable any more.
-/

namespace Heph

/-- A second. -/
def second : ℕ := 1000000000

/-- `SKEW_MARGIN`. -/
def skewMargin : ℕ := 60 * second

/-- What of a material matters to the store: its files, by their names in the directory, and when it
expires, in seconds. -/
structure StoreMaterial (ν β : Type) where
  files : List (ν × β)
  expiresAt : Option ℕ
  deriving DecidableEq

/-- Whether the material may still be handed out. -/
def StoreMaterial.UsableAt {ν β : Type} (m : StoreMaterial ν β) (now acquiredAt : ℕ) : Prop :=
  match m.expiresAt with
  | none => True
  | some expiresAt =>
    let expiry := expiresAt * second
    let lifetime := expiry - acquiredAt
    let margin := min skewMargin (lifetime / 2)
    now < expiry - margin

instance {ν β : Type} (m : StoreMaterial ν β) (now acquiredAt : ℕ) :
    Decidable (m.UsableAt now acquiredAt) :=
  match h : m.expiresAt with
  | none => isTrue (by simp [StoreMaterial.UsableAt, h])
  | some expiresAt =>
    decidable_of_iff (now < expiresAt * second -
      min skewMargin ((expiresAt * second - acquiredAt) / 2)) (by simp [StoreMaterial.UsableAt, h])

/-- An entry, with the time of its acquisition in seconds. -/
structure StoreEntry (ν β : Type) where
  material : StoreMaterial ν β
  acquiredAt : ℕ
  deriving DecidableEq

namespace StoreEntry

variable {ν β : Type} (e : StoreEntry ν β)

/-- Usable, with the entry's own acquisition time. -/
def UsableAt (now : ℕ) : Prop := e.material.UsableAt now (e.acquiredAt * second)

instance (now : ℕ) : Decidable (e.UsableAt now) :=
  inferInstanceAs (Decidable (e.material.UsableAt now (e.acquiredAt * second)))

end StoreEntry

/-- What `put` is given: the material, and the time of its acquisition. -/
structure PutMaterial (ν β : Type) where
  material : StoreMaterial ν β
  acquiredAt : ℕ
  deriving DecidableEq

namespace PutMaterial

variable {ν β : Type} (x : PutMaterial ν β)

/-- The entry that `put` writes: the acquisition time is cut to seconds (`unix_secs`). -/
def entry : StoreEntry ν β := ⟨x.material, x.acquiredAt / second⟩

/-- Usable, with the acquisition time as it was. -/
def UsableAt (now : ℕ) : Prop := x.material.UsableAt now x.acquiredAt

instance (now : ℕ) : Decidable (x.UsableAt now) :=
  inferInstanceAs (Decidable (x.material.UsableAt now x.acquiredAt))

end PutMaterial

/-- Where a process is in its use of the store. -/
inductive StorePoint (ν β : Type) where
  | idle
  /-- `get` has found nothing. -/
  | missed
  /-- `get` has found an entry that may not be used, and is about to remove the file; what was the
  state of the store then, and whether the files are to go too. -/
  | stale (e : StoreEntry ν β) (version : ℕ) (withFiles : Bool)
  /-- The files of such an entry are being removed. -/
  | sweeping (e : StoreEntry ν β) (version : ℕ)
  /-- The source has yielded material. -/
  | acquired (m : StoreMaterial ν β)
  /-- `promote_staged` is removing what is in the directory. -/
  | clearing (m : StoreMaterial ν β)
  /-- The files are in place. -/
  | promoted (m : StoreMaterial ν β)
  /-- `put` has created the file of the entry, which has the given number. -/
  | writing (x : PutMaterial ν β) (file : ℕ)
  deriving DecidableEq

inductive StoreEvent (ι ν β : Type) where
  | tick (t : ℕ)
  /-- `get`, up to its decision, with a time that was taken before. -/
  | read (p : ι) (now : ℕ)
  | removeEntry (p : ι)
  /-- A file of the directory is removed, by `get` or by `promote_staged`. -/
  | unlink (p : ι) (n : ν)
  /-- `get` is done with the directory. -/
  | swept (p : ι)
  | lock (p : ι)
  /-- The source yields material. -/
  | acquire (p : ι) (m : StoreMaterial ν β)
  /-- The material has an expiry, and files to be promoted or none. -/
  | promote (p : ι)
  | rename (p : ι)
  /-- `put`, up to where the file is created. -/
  | create (p : ι) (acquiredAt : ℕ)
  | write (p : ι)
  /-- The process is done with the store, or anything has gone wrong. -/
  | leave (p : ι)
  deriving DecidableEq

/-- What a key has on disk, the lock, and the processes. Two fields are kept for what is to be said:
the number of times that a directory was put in place or a file created, and what the last `put`
that was completed was given, if none has started since. -/
structure CredStore (ι ν β : Type) where
  clock : ℕ
  /-- The number of the entry file, and the entry if it can be read. -/
  entry : Option (ℕ × Option (StoreEntry ν β))
  dir : List (ν × β)
  holder : Option ι
  point : ι → StorePoint ν β
  version : ℕ
  live : Option (PutMaterial ν β)

namespace CredStore

variable {ι ν β : Type} [DecidableEq ι] [DecidableEq ν] (s : CredStore ι ν β)

/-- The process is at a point. -/
def moveTo (p : ι) (q : StorePoint ν β) : CredStore ι ν β :=
  { s with point := Function.update s.point p q }

/-- What `get` does with what it has read. -/
def judge (now : ℕ) : Option (ℕ × Option (StoreEntry ν β)) → StorePoint ν β
  | none | some (_, none) => .missed
  | some (_, some e) =>
    if e.material.expiresAt = none then .stale e s.version false
    else if ¬ e.UsableAt now then .stale e s.version true
    else .idle

/-- The path, once the file with the number is complete: nothing changes if it does not lead there
any more. -/
def completed (file : ℕ) (e : StoreEntry ν β) :
    Option (ℕ × Option (StoreEntry ν β)) → Option (ℕ × Option (StoreEntry ν β))
  | none => none
  | some (g, c) => if g = file then some (g, some e) else some (g, c)

/-- One step. -/
def step : StoreEvent ι ν β → Option (CredStore ι ν β)
  | .tick t => some { s with clock := s.clock + t }
  | .read p now =>
    match s.point p with
    | .idle => if now ≤ s.clock then some (s.moveTo p (s.judge now s.entry)) else none
    | _ => none
  | .removeEntry p =>
    match s.point p with
    | .stale e v withFiles =>
      some { s.moveTo p (if withFiles then .sweeping e v else .missed) with entry := none }
    | _ => none
  | .unlink p n =>
    match s.point p with
    | .sweeping .. | .clearing _ => some { s with dir := s.dir.filter (·.1 ≠ n) }
    | _ => none
  | .swept p =>
    match s.point p with
    | .sweeping .. => some (s.moveTo p .missed)
    | _ => none
  | .lock p =>
    match s.point p, s.holder with
    | .missed, none => some { s.moveTo p .idle with holder := some p }
    | _, _ => none
  | .acquire p m =>
    match s.point p with
    | .missed => if s.holder = some p then some (s.moveTo p (.acquired m)) else none
    | _ => none
  | .promote p =>
    match s.point p with
    | .acquired m =>
      if m.expiresAt = none then none
      else some (s.moveTo p (if m.files.isEmpty then .promoted m else .clearing m))
    | _ => none
  | .rename p =>
    match s.point p with
    | .clearing m =>
      if s.dir.isEmpty then
        some { s.moveTo p (.promoted m) with dir := m.files, version := s.version + 1 }
      else none
    | _ => none
  | .create p acquiredAt =>
    match s.point p with
    | .promoted m =>
      some { s.moveTo p (.writing ⟨m, acquiredAt⟩ (s.version + 1)) with
        entry := some (s.version + 1, none), version := s.version + 1, live := none }
    | _ => none
  | .write p =>
    match s.point p with
    | .writing x file =>
      some { s.moveTo p .idle with entry := completed file x.entry s.entry, live := some x }
    | _ => none
  | .leave p =>
    some { s.moveTo p .idle with holder := if s.holder = some p then none else s.holder }

/-- All the interleavings of the processes, from whatever is on the disk. -/
def machine {ι ν β : Type} [DecidableEq ι] [DecidableEq ν] (clock : ℕ)
    (entry : Option (StoreEntry ν β)) (dir : List (ν × β)) :
    Machine (CredStore ι ν β) (StoreEvent ι ν β) :=
  ⟨⟨clock, entry.map fun e => (0, some e), dir, none, fun _ => .idle, 0, none⟩, fun s => s.step⟩

/-! ### What a step does -/

section Did

variable {s s' : CredStore ι ν β} {ev : StoreEvent ι ν β}

/-- **What a step can do**, and what it tells of the state before. -/
inductive Did (s : CredStore ι ν β) : StoreEvent ι ν β → CredStore ι ν β → Prop
  | ticked (t : ℕ) : Did s (.tick t) { s with clock := s.clock + t }
  | read {p now} (hp : s.point p = .idle) (hnow : now ≤ s.clock) :
      Did s (.read p now) (s.moveTo p (s.judge now s.entry))
  | removedEntry {p e v withFiles} (hp : s.point p = .stale e v withFiles) :
      Did s (.removeEntry p)
        { s.moveTo p (if withFiles then .sweeping e v else .missed) with entry := none }
  | unlinked {p n} (hp : (∃ e v, s.point p = .sweeping e v) ∨ ∃ m, s.point p = .clearing m) :
      Did s (.unlink p n) { s with dir := s.dir.filter (·.1 ≠ n) }
  | swept {p e v} (hp : s.point p = .sweeping e v) : Did s (.swept p) (s.moveTo p .missed)
  | locked {p} (hp : s.point p = .missed) (hfree : s.holder = none) :
      Did s (.lock p) { s.moveTo p .idle with holder := some p }
  | acquired {p m} (hp : s.point p = .missed) (hheld : s.holder = some p) :
      Did s (.acquire p m) (s.moveTo p (.acquired m))
  | promoted {p m} (hp : s.point p = .acquired m) (hexpires : m.expiresAt ≠ none) :
      Did s (.promote p) (s.moveTo p (if m.files.isEmpty then .promoted m else .clearing m))
  | renamed {p m} (hp : s.point p = .clearing m) (hempty : s.dir.isEmpty) :
      Did s (.rename p)
        { s.moveTo p (.promoted m) with dir := m.files, version := s.version + 1 }
  | created {p m a} (hp : s.point p = .promoted m) :
      Did s (.create p a) { s.moveTo p (.writing ⟨m, a⟩ (s.version + 1)) with
        entry := some (s.version + 1, none), version := s.version + 1, live := none }
  | wrote {p x file} (hp : s.point p = .writing x file) :
      Did s (.write p)
        { s.moveTo p .idle with entry := completed file x.entry s.entry, live := some x }
  | left (p : ι) :
      Did s (.leave p)
        { s.moveTo p .idle with holder := if s.holder = some p then none else s.holder }

theorem did_of_step (h : s.step ev = some s') : Did s ev s' := by
  cases ev with
  | tick t =>
    cases h
    exact .ticked t
  | leave p =>
    cases h
    exact .left p
  | read p now =>
    rw [step] at h
    split at h
    · next hp =>
      split at h
      · next hnow =>
        cases h
        exact .read hp hnow
      · simp at h
    · simp at h
  | removeEntry p =>
    rw [step] at h
    split at h
    · next hp =>
      cases h
      exact .removedEntry hp
    · simp at h
  | unlink p n =>
    rw [step] at h
    split at h
    · next e v hp =>
      cases h
      exact .unlinked (.inl ⟨e, v, hp⟩)
    · next m hp =>
      cases h
      exact .unlinked (.inr ⟨m, hp⟩)
    · simp at h
  | swept p =>
    rw [step] at h
    split at h
    · next hp =>
      cases h
      exact .swept hp
    · simp at h
  | lock p =>
    rw [step] at h
    split at h
    · next hp hfree =>
      cases h
      exact .locked hp hfree
    · simp at h
  | acquire p m =>
    rw [step] at h
    split at h
    · next hp =>
      split at h
      · next hheld =>
        cases h
        exact .acquired hp hheld
      · simp at h
    · simp at h
  | promote p =>
    rw [step] at h
    split at h
    · next hp =>
      split at h
      · simp at h
      · next hexpires =>
        cases h
        exact .promoted hp hexpires
    · simp at h
  | rename p =>
    rw [step] at h
    split at h
    · next hp =>
      split at h
      · next hempty =>
        cases h
        exact .renamed hp hempty
      · simp at h
    · simp at h
  | create p a =>
    rw [step] at h
    split at h
    · next hp =>
      cases h
      exact .created hp
    · simp at h
  | write p =>
    rw [step] at h
    split at h
    · next hp =>
      cases h
      exact .wrote hp
    · simp at h

end Did

end CredStore

end Heph
