import Heph.Lib.Holders
import Heph.Lib.Parties
import Heph.Scratch.Store

/-!
# Acquiring a scratch directory

A consumer takes the lock of the slot, shared or exclusive as the declaration says, and prepares
the directory of its scope under it. A directory that is not there is copied from that of another
scope, if there is one to fall back to. One that is larger than it may be is dropped. One that is
empty is filled from a remote cache. A copy or a download that fails **is removed**, so that nobody
takes what is left of it for a cache.

Every step may fail, and the steps of all consumers may come in any order that the lock allows. A
tree is copied, unpacked and removed entry by entry.

A consumer may be **cancelled** while it prepares its directory. The lock is given back with it,
but what runs on the blocking pool (`hcore::blocking::run`) is not stopped by that: a job that has
begun runs to its end, without the lock.
-/

namespace Heph.Scratch

open Option PathMap

/-- What is on the disk: a file is known by its size. -/
abbrev Files := PathMap Text ℕ

/-- What the acquisition reads of the declaration and of the options of the run. -/
structure Consumer where
  access : LockMode
  maxSize : Option Text
  remote : Bool
  scope : Text
  restoreScopes : List Text
  seedOnFork : Bool
  /-- `--no-scratch`: the name of the run. -/
  audit : Option Text

/-- A job on the blocking pool. -/
inductive Job where
  /-- `copy_tree`, from this scope. -/
  | copy (source : Text)
  /-- `remove_dir_all`. -/
  | remove
  /-- `create_dir_all`. -/
  | mkdir
  | unpack
  deriving DecidableEq

/-- Where a consumer is. -/
inductive Phase where
  | idle
  /-- `resolve_scope_dir`, before it looks. -/
  | resolve
  /-- With the scopes that are left to be copied from. -/
  | seed (fallbacks : List Text)
  /-- `copy_tree`, from this scope. -/
  | copy (source : Text) (fallbacks : List Text)
  /-- What has been copied is removed. -/
  | uncopy (fallbacks : List Text)
  /-- `enforce_max_size`, before it measures. -/
  | measure
  | drop
  | create (dropped : Bool)
  /-- `pull_if_cold`, before it looks. -/
  | pull
  /-- `unpack`. -/
  | unpack
  /-- What has been unpacked is removed. -/
  | unpull
  | recreate
  /-- The directory is handed to the consumer. -/
  | held
  /-- The consumer was cancelled, and its job runs on. -/
  | detached (job : Job)
  deriving DecidableEq

/-- The job that is waited for. -/
def Phase.job : Phase → Option Job
  | .copy source _ => some (.copy source)
  | .uncopy _ | .drop | .unpull => some .remove
  | .create _ => some .mkdir
  | .unpack => some .unpack
  | _ => none

/-- The consumer has the lock. -/
def Phase.locked : Phase → Bool
  | .idle | .detached _ => false
  | _ => true

/-- Where a consumer is after it was cancelled: with a job that has begun, or without. -/
def Phase.cancelled (l : Phase) (begun : Bool) : Phase :=
  if begun then (l.job.map .detached).getD .idle else .idle

/-- What a consumer does next, and how it goes. -/
inductive Action where
  | acquire
  | look
  | fallBack
  | copyEntry (rel : Path)
  | copyEnd (ok : Bool)
  | unlink (p : Path)
  | removeEnd (ok : Bool)
  | measure
  | mkdir (ok : Bool)
  /-- The remote has a snapshot, or not. -/
  | lookRemote (head : Bool)
  | unpackEntry (rel : Path) (e : PathEntry ℕ)
  | unpackEnd (ok : Bool)
  /-- The consumer writes into its directory, or removes something in it. -/
  | work (p : Path) (e : Option (PathEntry ℕ))
  | release
  /-- The consumer is cancelled, and what it waits for has begun or not. -/
  | cancel (begun : Bool)
  /-- The job of a cancelled consumer is over. -/
  | jobEnd

/-- A consumer is cancelled, and its job runs on. -/
def Action.detaches : Action → Bool
  | .cancel begun => begun
  | _ => false

/-- The bytes of an entry. -/
def bytes : PathEntry ℕ → ℕ
  | .file n => n
  | _ => 0

/-- The bytes below a directory. -/
def measure (disk : Files) (d : Path) : ℕ := ((disk.below d).map fun e => bytes e.2).sum

variable (parseSize : Text → Option ℕ) (slot : Slot)

/-- The directory of a consumer. -/
def Consumer.dir (c : Consumer) : Path :=
  match c.audit with
  | some run => auditDir slot run
  | none => headDir slot c.scope

/-- The cap, if there is one that can be read. -/
def Consumer.cap (c : Consumer) : Option ℕ := c.maxSize.bind parseSize

/-- An entry in the directory is removed. -/
def Consumer.remove (c : Consumer) (disk : Files) (p : Path) : Option Files :=
  if c.dir slot <+: p then disk.unlink p else none

/-- The disk, and who holds the lock. -/
structure Shared (ι : Type) where
  disk : Files
  guards : Holders ι LockMode

section Step

variable {ι : Type}

/-- The disk has changed, or not, and the consumer goes on. -/
def Shared.go (s : Shared ι) (next : Phase) (disk : Files) : Shared ι × Phase :=
  ({ s with disk := disk }, next)

variable [DecidableEq ι] [Fintype ι] (consumer : ι → Consumer)

/-- One step of a consumer, in `acquire_scratch`, `prepare_scratch_dir`, or with its directory. -/
def step (i : ι) (s : Shared ι) (l : Phase) (a : Action) : Option (Shared ι × Phase) :=
  let c := consumer i
  let own := c.dir slot
  let disk := s.disk
  match l, a with
  | l, .cancel begun =>
    if l.locked ∧ l ≠ .held then
      some ({ s with guards := s.guards.release i }, l.cancelled begun)
    else none
  | .idle, .acquire =>
    if s.guards.Admits LockMode.Compatible i c.access then
      some ({ s with guards := s.guards.take i c.access },
        if c.audit.isSome then .create false else .resolve)
    else none
  | .resolve, .look =>
    some (s.go (if ¬disk.IsDir own ∧ c.seedOnFork then .seed c.restoreScopes else .measure) disk)
  | .seed [], .fallBack => some (s.go .measure disk)
  | .seed (f :: rest), .fallBack =>
    some (s.go (if f ≠ c.scope ∧ disk.IsDir (headDir slot f) then .copy f rest else .seed rest)
      disk)
  | .copy f _, .copyEntry rel =>
    (disk.get? (headDir slot f ++ rel)).bind fun e => (disk.put (own ++ rel) e).map (s.go l)
  | .copy _ rest, .copyEnd ok => some (s.go (if ok then .measure else .uncopy rest) disk)
  | .uncopy rest, .unlink p => (c.remove slot disk p).map (s.go (.uncopy rest))
  | .uncopy rest, .removeEnd _ => some (s.go (.seed rest) disk)
  | .measure, .measure =>
    some (s.go (if ∃ n ∈ c.cap parseSize, n < measure disk own then .drop else .create false) disk)
  | .drop, .unlink p => (c.remove slot disk p).map (s.go .drop)
  | .drop, .removeEnd ok =>
    if ok ∧ disk.Has own then none else some (s.go (.create ok) disk)
  | .create dropped, .mkdir true =>
    (disk.put own .dir).map
      (s.go (if c.remote ∧ c.audit = none ∧ ¬dropped then .pull else .held))
  | .create _, .mkdir false => some ({ s with guards := s.guards.release i }, .idle)
  | .pull, .lookRemote head =>
    some (s.go (if (disk.IsDir own → disk.below own = []) ∧ head then .unpack else .held) disk)
  | .unpack, .unpackEntry rel e => (disk.put (own ++ rel) e).map (s.go .unpack)
  -- a file that is in the way is removed first
  | .unpack, .unlink p => (c.remove slot disk p).map (s.go .unpack)
  | .unpack, .unpackEnd ok => some (s.go (if ok then .held else .unpull) disk)
  | .unpull, .unlink p => (c.remove slot disk p).map (s.go .unpull)
  | .unpull, .removeEnd _ => some (s.go .recreate disk)
  | .recreate, .mkdir true => (disk.put own .dir).map (s.go .held)
  | .recreate, .mkdir false => some (s.go .held disk)
  | .held, .work p none => (c.remove slot disk p).map (s.go .held)
  | .held, .work p (some e) =>
    if own <+: p then (disk.put p e).map (s.go .held) else none
  | .held, .release => some ({ s with guards := s.guards.release i }, .idle)
  | .detached (.copy f), .copyEntry rel =>
    (disk.get? (headDir slot f ++ rel)).bind fun e => (disk.put (own ++ rel) e).map (s.go l)
  | .detached .remove, .unlink p => (c.remove slot disk p).map (s.go l)
  | .detached .mkdir, .mkdir true => (disk.put own .dir).map (s.go .idle)
  | .detached .unpack, .unpackEntry rel e => (disk.put (own ++ rel) e).map (s.go l)
  | .detached .unpack, .unlink p => (c.remove slot disk p).map (s.go l)
  | .detached _, .jobEnd => some (s.go .idle disk)
  | _, _ => none

/-- The consumers of a slot, with what is on the disk at the start. The jobs of those that are
cancelled run on, or that is left out. -/
def consumers (outlive : Bool) (disk : Files) : Parties ι (Shared ι) Phase Action where
  init := ⟨disk, .free⟩
  start := .idle
  step i s l a :=
    if (a.detaches && !outlive) = true then none else step parseSize slot consumer i s l a

/-! ### What a step can do -/

/-- A consumer in this phase removes something. -/
def Phase.Removes : Phase → Prop
  | .uncopy _ | .drop | .unpack | .unpull | .detached .remove | .detached .unpack => True
  | _ => False

/-- The consumer has another scope to copy from. -/
def Consumer.Seeds (c : Consumer) : Prop :=
  c.seedOnFork = true ∧ ∃ f ∈ c.restoreScopes, f ≠ c.scope

/-- A consumer that may have to remove its directory. -/
def Consumer.Deletes (c : Consumer) : Prop :=
  c.audit = none ∧ ((c.cap parseSize).isSome ∨ c.remote = true ∨ c.Seeds)

/-- The phases that a consumer can come to. -/
def Consumer.Visits (c : Consumer) : Phase → Prop
  | .seed rest => c.audit = none ∧ c.seedOnFork = true ∧ ∀ f ∈ rest, f ∈ c.restoreScopes
  | .copy _ rest | .uncopy rest =>
    c.audit = none ∧ c.Seeds ∧ ∀ f ∈ rest, f ∈ c.restoreScopes
  | .drop => c.audit = none ∧ (c.cap parseSize).isSome
  | .pull | .unpack | .unpull | .recreate => c.audit = none ∧ c.remote = true
  | .resolve | .measure => c.audit = none
  | .detached .remove | .detached .unpack => c.Deletes parseSize
  | _ => True

/-- How a step treats the lock. -/
inductive Guarded (i : ι) (m : LockMode) : Shared ι → Phase → Shared ι → Phase → Prop
  | keep {s s' : Shared ι} {l l' : Phase} (h : s'.guards = s.guards)
    (hl : l'.locked = true → l.locked = true) : Guarded i m s l s' l'
  | take {s s' : Shared ι} {l' : Phase} (h : s'.guards = s.guards.take i m)
    (hadmits : s.guards.Admits LockMode.Compatible i m) : Guarded i m s .idle s' l'
  | release {s s' : Shared ι} {l l' : Phase} (h : s'.guards = s.guards.release i)
    (hl' : l'.locked = false) : Guarded i m s l s' l'

variable {parseSize slot consumer} {i : ι} {s s' : Shared ι} {l l' : Phase} {a : Action}
  {c : Consumer} {next : Phase}

/-- **Only a consumer that may have to removes its directory.** -/
theorem Consumer.Visits.deletes (h : c.Visits parseSize l) (hl : l.Removes) :
    c.Deletes parseSize := by
  cases l with
  | uncopy rest => exact ⟨h.1, .inr (.inr h.2.1)⟩
  | drop => exact ⟨h.1, .inl h.2⟩
  | unpack | unpull => exact ⟨h.1, .inr (.inl h.2)⟩
  | detached job =>
    cases job with
    | remove | unpack => exact h
    | copy | mkdir => exact hl.elim
  | _ => exact hl.elim

/-- A consumer that is cancelled leaves a job of the phase behind. -/
theorem Consumer.Visits.cancelled (h : c.Visits parseSize l) (begun : Bool) :
    c.Visits parseSize (l.cancelled begun) ∧ (l.cancelled begun).locked = false := by
  cases begun with
  | false => exact ⟨trivial, rfl⟩
  | true =>
    cases l with
    | uncopy | drop | unpack | unpull => exact ⟨h.deletes trivial, rfl⟩
    | _ => exact ⟨trivial, rfl⟩

/-- **What a step does**: it leads to a phase that the consumer can come to, it treats the lock as
one does, and unless the consumer is removing something, or has its directory, nothing is taken
away. A job runs on without the lock only after the consumer was cancelled. -/
structure StepSpec (parseSize : Text → Option ℕ) (slot : Slot) (c : Consumer) (i : ι)
    (s : Shared ι) (l : Phase) (a : Action) (s' : Shared ι) (l' : Phase) : Prop where
  visits : c.Visits parseSize l'
  guarded : Guarded i c.access s l s' l'
  keeps : l.Removes ∨ l = .held ∨ s.disk.Keeps s'.disk
  attached : l'.locked = true ∨ l' = .idle ∨ a.detaches = true ∨ ∃ job, l = .detached job

section

variable (hl : l.locked = true)

include hl

omit [Fintype ι] in
theorem stepSpec_go {disk : Files} (hnext : next.locked = true ∧ c.Visits parseSize next)
    (hkeeps : l.Removes ∨ l = .held ∨ s.disk.Keeps disk)
    (h : s.go next disk = (s', l')) : StepSpec parseSize slot c i s l a s' l' := by
  cases h
  exact ⟨hnext.2, .keep rfl fun _ => hl, hkeeps, .inl hnext.1⟩

omit [Fintype ι] in
/-- An entry is removed, in a phase in which that is done. -/
theorem stepSpec_remove {p : Path} (hvisits : c.Visits parseSize l)
    (hremoves : l.Removes ∨ l = .held) (h : (c.remove slot s.disk p).map (s.go l) = some (s', l')) :
    StepSpec parseSize slot c i s l a s' l' := by
  obtain ⟨disk, -, h⟩ := map_eq_some_iff.mp h
  exact stepSpec_go hl ⟨hl, hvisits⟩ (hremoves.imp_right .inl) h

omit [Fintype ι] in
/-- An entry is written. -/
theorem stepSpec_put {p : Path} {e : PathEntry ℕ}
    (h : (s.disk.put p e).map (s.go next) = some (s', l'))
    (hnext : next.locked = true ∧ c.Visits parseSize next) :
    StepSpec parseSize slot c i s l a s' l' := by
  obtain ⟨disk, hput, h⟩ := map_eq_some_iff.mp h
  exact stepSpec_go hl hnext (.inr (.inr (keeps_of_put hput))) h

omit [Fintype ι] in
/-- Nothing is done to the disk. -/
theorem stepSpec_move (h : some (s.go next s.disk) = some (s', l'))
    (hnext : next.locked = true ∧ c.Visits parseSize next) :
    StepSpec parseSize slot c i s l a s' l' :=
  stepSpec_go hl hnext (.inr (.inr (.refl _))) (some.inj h)

end

section

variable {job : Job} (hnext : next = .detached job ∧ c.Visits parseSize (.detached job) ∨
  next = .idle)

include hnext

omit [Fintype ι] in
/-- A step of a job that runs on. -/
theorem stepSpec_job {disk : Files}
    (hkeeps : (Phase.detached job).Removes ∨ s.disk.Keeps disk)
    (h : s.go next disk = (s', l')) : StepSpec parseSize slot c i s (.detached job) a s' l' := by
  cases h
  have hunlocked : l'.locked = false := by
    rcases hnext with ⟨rfl, -⟩ | rfl <;> rfl
  refine ⟨?_, .keep rfl fun hnot => by simp [hunlocked] at hnot, hkeeps.imp_right .inr,
    .inr (.inr (.inr ⟨job, rfl⟩))⟩
  rcases hnext with ⟨rfl, hvisits⟩ | rfl
  · exact hvisits
  · trivial

omit [Fintype ι] in
theorem stepSpec_jobPut {p : Path} {e : PathEntry ℕ}
    (h : (s.disk.put p e).map (s.go next) = some (s', l')) :
    StepSpec parseSize slot c i s (.detached job) a s' l' := by
  obtain ⟨disk, hput, h⟩ := map_eq_some_iff.mp h
  exact stepSpec_job hnext (.inr (keeps_of_put hput)) h

omit [Fintype ι] in
theorem stepSpec_jobRemove {p : Path} (hremoves : (Phase.detached job).Removes)
    (h : (c.remove slot s.disk p).map (s.go next) = some (s', l')) :
    StepSpec parseSize slot c i s (.detached job) a s' l' := by
  obtain ⟨disk, -, h⟩ := map_eq_some_iff.mp h
  exact stepSpec_job hnext (.inl hremoves) h

end

theorem step_spec (hvisits : (consumer i).Visits parseSize l)
    (h : step parseSize slot consumer i s l a = some (s', l')) :
    StepSpec parseSize slot (consumer i) i s l a s' l' := by
  unfold step at h
  dsimp only at h
  split at h
  · next begun =>
    split at h
    · cases h
      obtain ⟨hnext, hlocked⟩ := hvisits.cancelled begun
      refine ⟨hnext, .release rfl hlocked, .inr (.inr (.refl _)), ?_⟩
      cases begun with
      | false => exact .inr (.inl rfl)
      | true => exact .inr (.inr (.inl rfl))
    · cases h
  · -- the lock
    split at h
    · next hadmits =>
      cases h
      split
      · exact ⟨trivial, .take rfl hadmits, .inr (.inr (.refl _)), .inl rfl⟩
      · next haudit =>
        refine ⟨?_, .take rfl hadmits, .inr (.inr (.refl _)), .inl rfl⟩
        simpa [Consumer.Visits] using haudit
    · cases h
  · refine stepSpec_move rfl h ?_
    split
    · next hseed => exact ⟨rfl, hvisits, hseed.2, fun f hf => hf⟩
    · exact ⟨rfl, hvisits⟩
  · exact stepSpec_move rfl h ⟨rfl, hvisits.1⟩
  · next f rest =>
    refine stepSpec_move rfl h ?_
    have hrest : ∀ g ∈ rest, g ∈ (consumer i).restoreScopes :=
      fun g hg => hvisits.2.2 g (List.mem_cons_of_mem f hg)
    split
    · next hf => exact ⟨rfl, hvisits.1, ⟨hvisits.2.1, f, hvisits.2.2 f (.head _), hf.1⟩, hrest⟩
    · exact ⟨rfl, hvisits.1, hvisits.2.1, hrest⟩
  · obtain ⟨e, -, h⟩ := bind_eq_some_iff.mp h
    exact stepSpec_put rfl h ⟨rfl, hvisits⟩
  · refine stepSpec_move rfl h ?_
    split
    · exact ⟨rfl, hvisits.1⟩
    · exact ⟨rfl, hvisits⟩
  · exact stepSpec_remove rfl hvisits (.inl trivial) h
  · exact stepSpec_move rfl h ⟨rfl, hvisits.1, hvisits.2.1.1, hvisits.2.2⟩
  · refine stepSpec_move rfl h ?_
    split
    · next hover =>
      obtain ⟨n, hn, -⟩ := hover
      exact ⟨rfl, hvisits, isSome_iff_exists.mpr ⟨n, hn⟩⟩
    · exact ⟨rfl, trivial⟩
  · exact stepSpec_remove rfl hvisits (.inl trivial) h
  · split at h
    · cases h
    · exact stepSpec_move rfl h ⟨rfl, trivial⟩
  · refine stepSpec_put rfl h ?_
    split
    · next hpull => exact ⟨rfl, hpull.2.1, hpull.1⟩
    · exact ⟨rfl, trivial⟩
  · cases h
    exact ⟨trivial, .release rfl rfl, .inr (.inr (.refl _)), .inr (.inl rfl)⟩
  · refine stepSpec_move rfl h ?_
    split
    · exact ⟨rfl, hvisits⟩
    · exact ⟨rfl, trivial⟩
  · exact stepSpec_put rfl h ⟨rfl, hvisits⟩
  · exact stepSpec_remove rfl hvisits (.inl trivial) h
  · refine stepSpec_move rfl h ?_
    split
    · exact ⟨rfl, trivial⟩
    · exact ⟨rfl, hvisits⟩
  · exact stepSpec_remove rfl hvisits (.inl trivial) h
  · exact stepSpec_move rfl h ⟨rfl, hvisits⟩
  · exact stepSpec_put rfl h ⟨rfl, trivial⟩
  · exact stepSpec_move rfl h ⟨rfl, trivial⟩
  · exact stepSpec_remove rfl trivial (.inr rfl) h
  · split at h
    · exact stepSpec_put rfl h ⟨rfl, trivial⟩
    · cases h
  · cases h
    exact ⟨trivial, .release rfl rfl, .inr (.inl rfl), .inr (.inl rfl)⟩
  · -- a job runs on
    obtain ⟨e, -, h⟩ := bind_eq_some_iff.mp h
    exact stepSpec_jobPut (.inl ⟨rfl, hvisits⟩) h
  · exact stepSpec_jobRemove (.inl ⟨rfl, hvisits⟩) trivial h
  · exact stepSpec_jobPut (.inr rfl) h
  · exact stepSpec_jobPut (.inl ⟨rfl, hvisits⟩) h
  · exact stepSpec_jobRemove (.inl ⟨rfl, hvisits⟩) trivial h
  · exact stepSpec_job (.inr rfl) (.inr (.refl _)) (some.inj h)
  · cases h

end Step

end Heph.Scratch
