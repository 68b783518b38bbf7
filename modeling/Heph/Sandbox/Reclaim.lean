import Heph.Lib.Machine

/-!
# Reclaiming sandboxes

Before a target runs, what an earlier run has left in its sandbox is removed; when it is done, the
sandbox is removed as well. Each removal is a **job**, run by another thread at some later time, and
nothing stops it: the run that queued it may be cancelled, and another one of the same target may
have begun. So each run **claims** the sandbox, which counts up the generation of its path, and a
job carries the generation of the run that queued it. A job takes the walk lock of the path,
compares its generation with the current one, and only then walks; another run may claim the path
while it walks.

One sandbox path is looked at, with the run that has claimed it, all jobs that were ever queued for
it and the files in it. Runs exclude each other from the claim to the moment their teardown is
decided. A run may be cancelled wherever it is.

A job never deletes a file of a later run than its own, it does not walk while a later run creates
its files, and a teardown queues at most one job (`Sandbox.reclaim_safe`).
-/

namespace Heph

open List Option

/-! ### Jobs -/

/-- Where a removal job is, in `run_if_current`. -/
inductive JobPoint where
  | queued
  /-- It has the walk lock, and has not looked at the generation. -/
  | locked
  | walking
  | finished (ok : Bool)
  deriving DecidableEq

/-- The job has the walk lock. -/
def JobPoint.Holds : JobPoint → Prop
  | .locked | .walking => True
  | .queued | .finished _ => False

/-- A removal job for the path, with the generation it carries. -/
structure RemovalJob where
  claimed : ℕ
  point : JobPoint
  deriving DecidableEq

/-! ### The teardown -/

/-- `SandboxTeardown` of the path. Of the job of the bridge it is only seen whether there is one. -/
structure SandboxTeardown where
  generation : ℕ
  job : Bool
  armed : Bool
  deriving DecidableEq

/-- How a teardown is decided. -/
inductive TeardownEnd where
  | complete
  | leaveForDiagnostics
  /-- The run is cancelled or unwinds. -/
  | abandon
  deriving DecidableEq

namespace SandboxTeardown

/-- `SandboxTeardown::arm`. -/
def arm (generation : ℕ) : SandboxTeardown := ⟨generation, false, true⟩

variable (t : SandboxTeardown)

/-- `SandboxTeardown::set_job`. -/
def setJob (job : Bool) : SandboxTeardown := { t with job }

/-- `Drop` for the teardown: the generations of the jobs it queues. -/
def drop : List ℕ := if t.armed then [t.generation] else []

/-- The body of `complete`: the job of the bridge is queued, if there is one. -/
def complete : SandboxTeardown × List ℕ :=
  ({ t with armed := false, job := false }, if t.job then [t.generation] else [])

/-- The body of `leave_for_diagnostics`. -/
def leaveForDiagnostics : SandboxTeardown :=
  { t with armed := false, job := false }

/-- The generations of the jobs that are queued when the teardown is decided. `complete` and
`leave_for_diagnostics` own the teardown, which is dropped at their end. -/
def resolve : TeardownEnd → List ℕ
  | .complete => t.complete.2 ++ t.complete.1.drop
  | .leaveForDiagnostics => t.leaveForDiagnostics.drop
  | .abandon => t.drop

/-- **A teardown queues at most one job**, which carries its generation. -/
theorem resolve_cases (how : TeardownEnd) :
    t.resolve how = [] ∨ t.resolve how = [t.generation] ∧ how ≠ .leaveForDiagnostics := by
  rcases t with ⟨g, job, armed⟩
  cases how <;> cases job <;> cases armed <;>
    simp [resolve, complete, leaveForDiagnostics, drop]

end SandboxTeardown

/-! ### The sandbox -/

/-- Where a run is. -/
inductive ExecutePoint where
  | claimed
  /-- It awaits the job that removes what is in the sandbox. -/
  | awaiting (stale : ℕ)
  /-- That job is done, and the run creates its files. -/
  | creating (stale : ℕ)
  /-- The driver has responded; what it left in the sandbox is read. -/
  | responded (stale : ℕ)
  deriving DecidableEq

/-- The job a run has queued before it creates its files. -/
def ExecutePoint.stale? : ExecutePoint → Option ℕ
  | .claimed => none
  | .awaiting k | .creating k | .responded k => some k

/-- The files of the run are in the sandbox. -/
def ExecutePoint.InUse : ExecutePoint → Prop
  | .claimed | .awaiting _ => False
  | .creating _ | .responded _ => True

/-- A run that has claimed the path. -/
structure Execute where
  teardown : SandboxTeardown
  point : ExecutePoint
  deriving DecidableEq

/-- A file in the sandbox, and the generation of the run that has created it. -/
structure SandboxFile where
  path : String
  createdBy : ℕ
  deriving DecidableEq

/-- A sandbox path: its gate, the jobs queued for it, the run that has claimed it, and its files.
The last three fields are kept for what is to be said. -/
structure Sandbox where
  /-- How often the path was claimed: a `u64` in the source, and here a number that does not
  overflow. -/
  generation : ℕ
  /-- The job that has the walk lock. -/
  walk : Option ℕ
  jobs : List RemovalJob
  live : Option Execute
  files : List SandboxFile
  /-- The generation of the job and the file, for each file that was deleted. -/
  deleted : List (ℕ × SandboxFile)
  /-- The generations of the teardowns that queued a job, once for each job. -/
  enqueued : List ℕ
  /-- The generations of the teardowns that left the sandbox for diagnostics. -/
  left : List ℕ
  deriving DecidableEq

/-- What happens next at the path. -/
inductive SandboxEvent where
  /-- A run claims the path and arms its teardown. -/
  | claim
  /-- It queues `remove_stale`. -/
  | queueStale
  /-- `remove_stale` has returned `Ok`. -/
  | proceed
  | create (path : String)
  /-- The driver responds, with a cleanup job or without one. -/
  | respond (job : Bool)
  /-- The teardown is decided: the run is over. -/
  | resolve (how : TeardownEnd)
  /-- A job gets the walk lock. -/
  | lock (j : ℕ)
  /-- A job compares its generation with the current one. -/
  | check (j : ℕ)
  /-- A job deletes a file on its walk. -/
  | unlink (j : ℕ) (file : SandboxFile)
  /-- The walk of a job ends. -/
  | finish (j : ℕ) (ok : Bool)
  deriving DecidableEq

namespace Sandbox

/-- The job is somewhere else. -/
def setPoint (s : Sandbox) (j : ℕ) (p : JobPoint) : List RemovalJob :=
  s.jobs.modify j fun job => { job with point := p }

/-- One step. -/
def step (s : Sandbox) : SandboxEvent → Option Sandbox
  | .claim =>
    if s.live = none then
      some { s with
        generation := s.generation + 1
        live := some ⟨.arm (s.generation + 1), .claimed⟩ }
    else none
  | .queueStale => do
    let x ← s.live
    guard (x.point = .claimed)
    some { s with
      jobs := s.jobs ++ [⟨x.teardown.generation, .queued⟩]
      live := some { x with point := .awaiting s.jobs.length } }
  | .proceed => do
    let x ← s.live
    let k ← x.point.stale?
    let job ← s.jobs[k]?
    guard (x.point = .awaiting k ∧ job.point = .finished true)
    some { s with live := some { x with point := .creating k } }
  | .create path => do
    let x ← s.live
    let k ← x.point.stale?
    guard (x.point = .creating k)
    some { s with files := s.files ++ [⟨path, x.teardown.generation⟩] }
  | .respond job => do
    let x ← s.live
    let k ← x.point.stale?
    guard (x.point = .creating k)
    some { s with live := some ⟨x.teardown.setJob job, .responded k⟩ }
  | .resolve how => do
    let x ← s.live
    some { s with
      jobs := s.jobs ++ (x.teardown.resolve how).map fun g => ⟨g, .queued⟩
      live := none
      enqueued := s.enqueued ++ x.teardown.resolve how
      left := if how = .leaveForDiagnostics then s.left ++ [x.teardown.generation] else s.left }
  | .lock j => do
    let job ← s.jobs[j]?
    guard (job.point = .queued ∧ s.walk = none)
    some { s with jobs := s.setPoint j .locked, walk := some j }
  | .check j => do
    let job ← s.jobs[j]?
    guard (job.point = .locked)
    -- a job that was overtaken declines, which is not an error
    some (if s.generation = job.claimed then { s with jobs := s.setPoint j .walking }
      else { s with jobs := s.setPoint j (.finished true), walk := none })
  | .unlink j file => do
    let job ← s.jobs[j]?
    guard (job.point = .walking ∧ file ∈ s.files)
    some { s with files := s.files.erase file, deleted := s.deleted ++ [(job.claimed, file)] }
  | .finish j ok => do
    -- a walk may end with an error wherever it is, and files may be created after it
    let job ← s.jobs[j]?
    guard (job.point = .walking)
    some { s with jobs := s.setPoint j (.finished ok), walk := none }

/-- A path that was never used. -/
def machine : Machine Sandbox SandboxEvent := ⟨⟨0, none, [], none, [], [], [], []⟩, step⟩

/-! ### What a step does -/

variable {s s' : Sandbox} {j : ℕ} {p : JobPoint} {job : RemovalJob} {gs : List ℕ}
  {how : TeardownEnd} {file : SandboxFile}

/-- The run that has claimed the path, in a step that asks for it. -/
theorem step_claim (h : s.step .claim = some s') :
    s.live = none ∧ s' = { s with
      generation := s.generation + 1
      live := some ⟨.arm (s.generation + 1), .claimed⟩ } := by
  simp only [step, ite_none_right_eq_some, some.injEq] at h
  exact ⟨h.1, h.2.symm⟩

theorem step_queueStale (h : s.step .queueStale = some s') :
    ∃ x, s.live = some x ∧ x.point = .claimed ∧ s' = { s with
      jobs := s.jobs ++ [⟨x.teardown.generation, .queued⟩]
      live := some { x with point := .awaiting s.jobs.length } } := by
  simpa [step, bind_eq_some_iff, guard_eq_some', eq_comm (a := s')] using h

theorem step_proceed (h : s.step .proceed = some s') :
    ∃ x k job, s.live = some x ∧ s.jobs[k]? = some job ∧ x.point = .awaiting k ∧
      job.point = .finished true ∧
        s' = { s with live := some { x with point := .creating k } } := by
  simp only [step, bind_eq_bind, bind_eq_some_iff, guard_eq_some',
    some.injEq] at h
  obtain ⟨x, hx, k, -, job, hjob, -, ⟨hp, hok⟩, rfl⟩ := h
  exact ⟨x, k, job, hx, hjob, hp, hok, rfl⟩

theorem step_create {path : String} (h : s.step (.create path) = some s') :
    ∃ x k, s.live = some x ∧ x.point = .creating k ∧
      s' = { s with files := s.files ++ [⟨path, x.teardown.generation⟩] } := by
  simp only [step, bind_eq_bind, bind_eq_some_iff, guard_eq_some',
    some.injEq] at h
  obtain ⟨x, hx, k, -, -, hp, rfl⟩ := h
  exact ⟨x, k, hx, hp, rfl⟩

theorem step_respond {job : Bool} (h : s.step (.respond job) = some s') :
    ∃ x k, s.live = some x ∧ x.point = .creating k ∧
      s' = { s with live := some ⟨x.teardown.setJob job, .responded k⟩ } := by
  simp only [step, bind_eq_bind, bind_eq_some_iff, guard_eq_some',
    some.injEq] at h
  obtain ⟨x, hx, k, -, -, hp, rfl⟩ := h
  exact ⟨x, k, hx, hp, rfl⟩

theorem step_resolve (h : s.step (.resolve how) = some s') :
    ∃ x, s.live = some x ∧ s' = { s with
      jobs := s.jobs ++ (x.teardown.resolve how).map fun g => ⟨g, .queued⟩
      live := none
      enqueued := s.enqueued ++ x.teardown.resolve how
      left :=
        if how = .leaveForDiagnostics then s.left ++ [x.teardown.generation] else s.left } := by
  simpa [step, bind_eq_some_iff, eq_comm (a := s')] using h

theorem step_lock (h : s.step (.lock j) = some s') :
    ∃ job, s.jobs[j]? = some job ∧ job.point = .queued ∧ s.walk = none ∧
      s' = { s with jobs := s.setPoint j .locked, walk := some j } := by
  simpa [step, bind_eq_some_iff, guard_eq_some', and_assoc, eq_comm (a := s')] using h

theorem step_check (h : s.step (.check j) = some s') :
    ∃ job, s.jobs[j]? = some job ∧ job.point = .locked ∧
      (s.generation = job.claimed ∧ s' = { s with jobs := s.setPoint j .walking } ∨
        s' = { s with jobs := s.setPoint j (.finished true), walk := none }) := by
  simp only [step, bind_eq_bind, bind_eq_some_iff, guard_eq_some',
    some.injEq] at h
  obtain ⟨job, hjob, -, hp, rfl⟩ := h
  refine ⟨job, hjob, hp, ?_⟩
  split
  · next hg => exact .inl ⟨hg, rfl⟩
  · exact .inr rfl

theorem step_unlink (h : s.step (.unlink j file) = some s') :
    ∃ job, s.jobs[j]? = some job ∧ job.point = .walking ∧ file ∈ s.files ∧
      s' = { s with
        files := s.files.erase file
        deleted := s.deleted ++ [(job.claimed, file)] } := by
  simpa [step, bind_eq_some_iff, guard_eq_some', and_assoc, eq_comm (a := s')] using h

theorem step_finish {ok : Bool} (h : s.step (.finish j ok) = some s') :
    ∃ job, s.jobs[j]? = some job ∧ job.point = .walking ∧
      s' = { s with jobs := s.setPoint j (.finished ok), walk := none } := by
  simpa [step, bind_eq_some_iff, guard_eq_some', and_assoc, eq_comm (a := s')] using h

/-! ### The jobs of a path -/

/-- A job that carries the generation is on its walk. -/
def Walks (s : Sandbox) (g : ℕ) : Prop :=
  ∃ j : ℕ, s.jobs[j]? = some ⟨g, .walking⟩

/-- The job is done, if there is one. -/
def Done (s : Sandbox) (j : ℕ) : Prop := ∃ g ok, s.jobs[j]? = some ⟨g, .finished ok⟩

/-- **One job at a time has the walk lock.** -/
def WalkLocked (s : Sandbox) : Prop :=
  ∀ j job, s.jobs[j]? = some job → job.point.Holds → s.walk = some j

theorem WalkLocked.unique {i : ℕ} {job' : RemovalJob} (h : s.WalkLocked)
    (hj : s.jobs[j]? = some job) (hholds : job.point.Holds) (hi : s.jobs[i]? = some job')
    (hholds' : job'.point.Holds) : i = j :=
  (some.inj ((h j job hj hholds).symm.trans (h i job' hi hholds'))).symm

/-- A job after another one has moved. -/
theorem getElem?_setPoint {i : ℕ}
    (h : (s.setPoint j p)[i]? = some job) :
    (i = j ∧ ∃ job₀, s.jobs[j]? = some job₀ ∧ job = { job₀ with point := p }) ∨
      (i ≠ j ∧ s.jobs[i]? = some job) := by
  rw [setPoint] at h
  by_cases hij : j = i
  · subst hij
    obtain ⟨job₀, h₀, rfl⟩ : ∃ job₀, s.jobs[j]? = some job₀ ∧ { job₀ with point := p } = job := by
      simpa using h
    exact .inl ⟨rfl, job₀, h₀, rfl⟩
  · exact .inr ⟨fun h => hij h.symm, by simpa [hij] using h⟩

/-- A job after others were queued. -/
theorem getElem?_queued {i : ℕ}
    (h : (s.jobs ++ gs.map fun g => (⟨g, .queued⟩ : RemovalJob))[i]? = some job) :
    s.jobs[i]? = some job ∨ job.point = .queued := by
  rw [getElem?_append] at h
  split at h
  · exact .inl h
  · obtain ⟨g, -, rfl⟩ := mem_map.mp (mem_of_getElem? h)
    exact .inr rfl

theorem Walks.of_queued {g : ℕ}
    (hjobs : s'.jobs = s.jobs ++ gs.map fun g => (⟨g, .queued⟩ : RemovalJob)) (h : s'.Walks g) :
    s.Walks g := by
  obtain ⟨i, hi⟩ := h
  rw [hjobs] at hi
  exact ⟨i, (getElem?_queued hi).resolve_right (by simp)⟩

theorem WalkLocked.queued (h : s.WalkLocked)
    (hjobs : s'.jobs = s.jobs ++ gs.map fun g => (⟨g, .queued⟩ : RemovalJob))
    (hwalk : s'.walk = s.walk) : s'.WalkLocked := by
  intro i job hi hholds
  rw [hjobs] at hi
  rcases getElem?_queued hi with hi | hq
  · exact hwalk.trans (h i job hi hholds)
  · rw [hq] at hholds
    exact hholds.elim

/-- No job is on its walk when the job that has the lock gives it up. -/
theorem not_walks_setPoint {g : ℕ} {w : Option ℕ}
    (hlock : s.WalkLocked) (hjob : s.jobs[j]? = some job) (hholds : job.point.Holds)
    (hp : p ≠ .walking) : ¬ ({ s with jobs := s.setPoint j p, walk := w } : Sandbox).Walks g := by
  rintro ⟨i, hi⟩
  rcases getElem?_setPoint hi with ⟨-, job₀, -, hq⟩ | ⟨hne, hi⟩
  · exact hp (congrArg RemovalJob.point hq).symm
  · -- two jobs would have the lock
    exact hne (hlock.unique hjob hholds hi trivial)

/-! ### The invariant -/

/-- **What holds whatever has happened.** The two fields that matter are the last but one, by which
a walk only ever meets files that are not of a later run, and the one before it, by which the walk
that is still under way when the job of the live run is done is one of its own. -/
structure Guarded (s : Sandbox) : Prop where
  live_generation : ∀ x, s.live = some x → x.teardown.generation = s.generation
  files_le : ∀ f ∈ s.files, f.createdBy ≤ s.generation
  walkLocked : s.WalkLocked
  stale : ∀ x k, s.live = some x → x.point.stale? = some k →
    k < s.jobs.length ∧ (x.point.InUse → s.Done k)
  fresh : ∀ x k, s.live = some x → x.point.stale? = some k → s.Done k →
    ∀ g, s.Walks g → g = s.generation
  walks_files : ∀ g, s.Walks g → ∀ f ∈ s.files, f.createdBy ≤ g
  deleted_le : ∀ d ∈ s.deleted, d.2.createdBy ≤ d.1

namespace Guarded

theorem init : machine.init.Guarded := by
  constructor <;> simp [machine, WalkLocked, Walks]

section

variable (hI : s.Guarded) {ok : Bool}

include hI

theorem claim (h : s.step .claim = some s') : s'.Guarded := by
  obtain ⟨-, rfl⟩ := step_claim h
  refine ⟨?_, fun f hf => (hI.files_le f hf).trans (Nat.le_succ _), hI.walkLocked, ?_, ?_,
    hI.walks_files, hI.deleted_le⟩
  · rintro x ⟨⟩
    rfl
  · rintro x k ⟨⟩ ⟨⟩
  · rintro x k ⟨⟩ ⟨⟩

theorem queueStale (h : s.step .queueStale = some s') : s'.Guarded := by
  obtain ⟨x, hx, -, rfl⟩ := step_queueStale h
  have hjobs : s.jobs ++ [⟨x.teardown.generation, .queued⟩] =
      s.jobs ++ [x.teardown.generation].map fun g => (⟨g, .queued⟩ : RemovalJob) := rfl
  refine ⟨?_, hI.files_le, hI.walkLocked.queued hjobs rfl, ?_, ?_,
    fun g hg => hI.walks_files g (.of_queued hjobs hg), hI.deleted_le⟩
  · rintro y ⟨⟩
    exact hI.live_generation x hx
  · rintro y k ⟨⟩ ⟨⟩
    exact ⟨by simp, False.elim⟩
  · -- the job that was queued just now is not done
    rintro y k ⟨⟩ ⟨⟩ ⟨g, ok, hdone⟩
    simp at hdone

theorem proceed (h : s.step .proceed = some s') : s'.Guarded := by
  obtain ⟨x, k, job, hx, hjob, hp, hok, rfl⟩ := step_proceed h
  have hk : x.point.stale? = some k := by rw [hp]; rfl
  have hdone : s.Done k := ⟨job.claimed, true, by rw [hjob, ← hok]⟩
  refine ⟨?_, hI.files_le, hI.walkLocked, ?_, ?_, hI.walks_files, hI.deleted_le⟩
  · rintro y ⟨⟩
    exact hI.live_generation x hx
  · rintro y _ ⟨⟩ ⟨⟩
    exact ⟨(hI.stale x k hx hk).1, fun _ => hdone⟩
  · rintro y _ ⟨⟩ ⟨⟩
    exact hI.fresh x k hx hk

theorem create {path : String} (h : s.step (.create path) = some s') :
    s'.Guarded := by
  obtain ⟨x, k, hx, hp, rfl⟩ := step_create h
  have hk : x.point.stale? = some k := by rw [hp]; rfl
  have hdone : s.Done k := (hI.stale x k hx hk).2 (by rw [hp]; trivial)
  refine ⟨hI.live_generation, ?_, hI.walkLocked, hI.stale, hI.fresh, ?_, hI.deleted_le⟩
  · intro f hf
    rcases mem_append.mp hf with hf | hf
    · exact hI.files_le f hf
    · obtain rfl := mem_singleton.mp hf
      exact (hI.live_generation x hx).le
  · -- whoever walks now carries the generation of the run that creates the file
    intro g hg f hf
    rcases mem_append.mp hf with hf | hf
    · exact hI.walks_files g hg f hf
    · obtain rfl := mem_singleton.mp hf
      exact ((hI.live_generation x hx).trans (hI.fresh x k hx hk hdone g hg).symm).le

theorem respond {job : Bool} (h : s.step (.respond job) = some s') :
    s'.Guarded := by
  obtain ⟨x, k, hx, hp, rfl⟩ := step_respond h
  have hk : x.point.stale? = some k := by rw [hp]; rfl
  refine ⟨?_, hI.files_le, hI.walkLocked, ?_, ?_, hI.walks_files, hI.deleted_le⟩
  · rintro y ⟨⟩
    exact hI.live_generation x hx
  · rintro y _ ⟨⟩ ⟨⟩
    exact ⟨(hI.stale x k hx hk).1, fun _ => (hI.stale x k hx hk).2 (by rw [hp]; trivial)⟩
  · rintro y _ ⟨⟩ ⟨⟩
    exact hI.fresh x k hx hk

theorem resolve (h : s.step (.resolve how) = some s') :
    s'.Guarded := by
  obtain ⟨x, hx, rfl⟩ := step_resolve h
  refine ⟨?_, hI.files_le, hI.walkLocked.queued rfl rfl, ?_, ?_,
    fun g hg => hI.walks_files g (.of_queued rfl hg), hI.deleted_le⟩
  · rintro y ⟨⟩
  · rintro y k ⟨⟩
  · rintro y k ⟨⟩

/-- A job that is not done moves: what is left to show is about the walks. -/
theorem setPoint {p : JobPoint} {w : Option ℕ}
    (hjob : s.jobs[j]? = some job) (hundone : ∀ ok, job.point ≠ .finished ok)
    (hs' : s' = { s with jobs := s.setPoint j p, walk := w })
    (hlock : s'.WalkLocked)
    (hfresh : ∀ x k, s.live = some x → x.point.stale? = some k → s'.Done k →
      ∀ g, s'.Walks g → g = s.generation)
    (hfiles : ∀ g, s'.Walks g → ∀ f ∈ s.files, f.createdBy ≤ g) : s'.Guarded := by
  subst hs'
  refine ⟨hI.live_generation, hI.files_le, hlock, ?_, hfresh, hfiles, hI.deleted_le⟩
  intro x k hx hk
  obtain ⟨hlt, hdone⟩ := hI.stale x k hx hk
  refine ⟨by simpa [setPoint] using hlt, fun huse => ?_⟩
  obtain ⟨g, ok, hgk⟩ := hdone huse
  have hne : j ≠ k := by
    rintro rfl
    exact hundone ok (by rw [some.inj (hjob.symm.trans hgk)])
  exact ⟨g, ok, by simpa [setPoint, getElem?_modify, hne] using hgk⟩

theorem lock (h : s.step (.lock j) = some s') : s'.Guarded := by
  obtain ⟨job, hjob, hp, hwalk, hs'⟩ := step_lock h
  have hwalks : ∀ g, s'.Walks g → s.Walks g := by
    rintro g ⟨i, hi⟩
    subst hs'
    rcases getElem?_setPoint hi with ⟨-, job₀, -, hq⟩ | ⟨-, hi⟩
    · simp at hq
    · exact ⟨i, hi⟩
  have hdone : ∀ k, s'.Done k → s.Done k := by
    rintro k ⟨g, ok, hk⟩
    subst hs'
    rcases getElem?_setPoint hk with ⟨-, job₀, -, hq⟩ | ⟨-, hk⟩
    · simp at hq
    · exact ⟨g, ok, hk⟩
  refine hI.setPoint hjob (by simp [hp]) hs' ?_ ?_ fun g hg => hI.walks_files g (hwalks g hg)
  · intro i job' hi hholds
    subst hs'
    rcases getElem?_setPoint hi with ⟨rfl, -⟩ | ⟨-, hi⟩
    · rfl
    · -- the lock was free
      have := hI.walkLocked i job' hi hholds
      rw [hwalk] at this
      cases this
  · exact fun x k hx hk hd g hg => hI.fresh x k hx hk (hdone k hd) g (hwalks g hg)

/-- The job that has the lock gives it up: nothing walks. -/
theorem unlock (hjob : s.jobs[j]? = some job) (hholds : job.point.Holds)
    (hs' : s' = { s with jobs := s.setPoint j (.finished ok), walk := none }) : s'.Guarded := by
  have hwalks : ∀ g, ¬ s'.Walks g := fun g => by
    rw [hs']
    exact not_walks_setPoint hI.walkLocked hjob hholds (by simp)
  refine hI.setPoint hjob ?_ hs' ?_ (fun x k _ _ _ g hg => (hwalks g hg).elim)
    fun g hg => (hwalks g hg).elim
  · intro ok' hok
    rw [hok] at hholds
    exact hholds
  · intro i job' hi hholds'
    subst hs'
    rcases getElem?_setPoint hi with ⟨-, job₀, -, rfl⟩ | ⟨hne, hi⟩
    · exact hholds'.elim
    · exact absurd (hI.walkLocked.unique hjob hholds hi hholds') hne

theorem check (h : s.step (.check j) = some s') : s'.Guarded := by
  obtain ⟨job, hjob, hp, ⟨hgen, hs'⟩ | hs'⟩ := step_check h
  · -- the walk begins, with the current generation
    have hholds : job.point.Holds := by rw [hp]; trivial
    have hwalks : ∀ g, s'.Walks g → g = s.generation := by
      rintro g ⟨i, hi⟩
      subst hs'
      rcases getElem?_setPoint hi with ⟨-, job₀, h₀, hq⟩ | ⟨hne, hi⟩
      · obtain rfl := some.inj (hjob.symm.trans h₀)
        exact (congrArg RemovalJob.claimed hq).trans hgen.symm
      · exact absurd (hI.walkLocked.unique hjob hholds hi trivial) hne
    refine hI.setPoint hjob (by simp [hp]) hs' ?_ (fun x k _ _ _ g hg => hwalks g hg) ?_
    · intro i job' hi hholds'
      subst hs'
      rcases getElem?_setPoint hi with ⟨rfl, -⟩ | ⟨-, hi⟩
      · exact hI.walkLocked i job hjob hholds
      · exact hI.walkLocked i job' hi hholds'
    · intro g hg f hf
      rw [hwalks g hg]
      exact hI.files_le f hf
  · exact hI.unlock hjob (by rw [hp]; trivial) hs'

theorem unlink
    (h : s.step (.unlink j file) = some s') : s'.Guarded := by
  obtain ⟨job, hjob, hp, hf, rfl⟩ := step_unlink h
  have hwalks : s.Walks job.claimed := ⟨j, by rw [hjob, ← hp]⟩
  refine ⟨hI.live_generation, fun f hf' => hI.files_le f (mem_of_mem_erase hf'),
    hI.walkLocked, hI.stale, hI.fresh,
    fun g hg f hf' => hI.walks_files g hg f (mem_of_mem_erase hf'), ?_⟩
  intro d hd
  rcases mem_append.mp hd with hd | hd
  · exact hI.deleted_le d hd
  · obtain rfl := mem_singleton.mp hd
    exact hI.walks_files _ hwalks file hf

theorem finish (h : s.step (.finish j ok) = some s') :
    s'.Guarded := by
  obtain ⟨job, hjob, hp, hs'⟩ := step_finish h
  exact hI.unlock hjob (by rw [hp]; trivial) hs'

end

/-- **One step keeps it.** -/
theorem step (e : SandboxEvent) (hI : s.Guarded) (h : s.step e = some s') : s'.Guarded := by
  cases e with
  | claim => exact hI.claim h
  | queueStale => exact hI.queueStale h
  | proceed => exact hI.proceed h
  | create path => exact hI.create h
  | respond job => exact hI.respond h
  | resolve how => exact hI.resolve h
  | lock j => exact hI.lock h
  | check j => exact hI.check h
  | unlink j file => exact hI.unlink h
  | finish j ok => exact hI.finish h

theorem run {es : List SandboxEvent} (h : machine.run es = some s) : s.Guarded :=
  Machine.run_invariant init (fun _ e _ hI h => hI.step e h) h

end Guarded

/-! ### The decisions -/

/-- **Each teardown is decided once**: the generations of those that queued a job or left the
sandbox are behind the one of the run that is live. -/
structure DecidedOnce (s : Sandbox) : Prop where
  live_generation : ∀ x, s.live = some x → x.teardown.generation = s.generation
  le : ∀ g ∈ s.enqueued ++ s.left, g ≤ s.generation
  lt : s.live ≠ none → ∀ g ∈ s.enqueued ++ s.left, g < s.generation
  nodup : s.enqueued.Nodup
  disjoint : s.enqueued.Disjoint s.left

namespace DecidedOnce

theorem init : machine.init.DecidedOnce := by
  constructor <;> simp [machine]

/-- A step after which the same decisions have been made, and the same run or no other is live. -/
theorem of_eq (hI : s.DecidedOnce) (hg : s'.generation = s.generation)
    (hlive : ∀ x, s'.live = some x →
      ∃ y, s.live = some y ∧ x.teardown.generation = y.teardown.generation)
    (he : s'.enqueued = s.enqueued) (hl : s'.left = s.left) : s'.DecidedOnce := by
  refine ⟨?_, by rw [he, hl, hg]; exact hI.le, ?_, by rw [he]; exact hI.nodup,
    by rw [he, hl]; exact hI.disjoint⟩
  · intro x hx
    obtain ⟨y, hy, hxy⟩ := hlive x hx
    rw [hxy, hg]
    exact hI.live_generation y hy
  · intro hne
    rw [he, hl, hg]
    obtain ⟨x, hx⟩ := ne_none_iff_exists'.mp hne
    obtain ⟨y, hy, -⟩ := hlive x hx
    exact hI.lt (by rw [hy]; simp)

theorem resolve (hI : s.DecidedOnce) (h : s.step (.resolve how) = some s') :
    s'.DecidedOnce := by
  obtain ⟨x, hx, rfl⟩ := step_resolve h
  have hgen := hI.live_generation x hx
  have hlt := hI.lt (by rw [hx]; simp)
  have hnew : s.generation ∉ s.enqueued ++ s.left := fun hm => (hlt _ hm).false
  rw [mem_append, not_or] at hnew
  rcases x.teardown.resolve_cases how with hr | ⟨hr, hhow⟩
  · -- no job is queued; the sandbox may be left as it is
    refine ⟨by rintro y ⟨⟩, ?_, fun hne => absurd rfl hne, ?_, ?_⟩
    · intro g hg
      rw [hr, append_nil] at hg
      split at hg
      · rw [← append_assoc] at hg
        rcases mem_append.mp hg with hg | hg
        · exact hI.le g hg
        · exact (mem_singleton.mp hg).le.trans hgen.le
      · exact hI.le g hg
    · rw [hr, append_nil]
      exact hI.nodup
    · rw [hr, append_nil]
      split
      · exact disjoint_append_right.mpr ⟨hI.disjoint, by simpa [hgen] using hnew.1⟩
      · exact hI.disjoint
  · -- one job is queued, for a generation that is not there yet
    rw [hr, if_neg hhow, hgen]
    refine ⟨by rintro y ⟨⟩, ?_, fun hne => absurd rfl hne, ?_, ?_⟩
    · intro g hg
      rw [append_assoc] at hg
      rcases mem_append.mp hg with hg | hg
      · exact hI.le g (mem_append_left _ hg)
      · rcases mem_append.mp hg with hg | hg
        · exact (mem_singleton.mp hg).le
        · exact hI.le g (mem_append_right _ hg)
    · exact nodup_append'.mpr ⟨hI.nodup, nodup_singleton _, by simpa using hnew.1⟩
    · exact disjoint_append_left.mpr ⟨hI.disjoint, by simpa using hnew.2⟩

/-- **One step keeps it.** -/
theorem step (e : SandboxEvent) (hI : s.DecidedOnce) (h : s.step e = some s') :
    s'.DecidedOnce := by
  have hsame : ∀ x, s.live = some x →
      ∃ y, s.live = some y ∧ x.teardown.generation = y.teardown.generation :=
    fun x hx => ⟨x, hx, rfl⟩
  cases e with
  | claim =>
    obtain ⟨-, rfl⟩ := step_claim h
    refine ⟨?_, fun g hg => (hI.le g hg).trans (Nat.le_succ _),
      fun _ g hg => Nat.lt_succ_of_le (hI.le g hg), hI.nodup, hI.disjoint⟩
    rintro x ⟨⟩
    rfl
  | queueStale =>
    obtain ⟨x, hx, -, rfl⟩ := step_queueStale h
    exact hI.of_eq rfl (by rintro y ⟨⟩; exact ⟨x, hx, rfl⟩) rfl rfl
  | proceed =>
    obtain ⟨x, k, job, hx, -, -, -, rfl⟩ := step_proceed h
    exact hI.of_eq rfl (by rintro y ⟨⟩; exact ⟨x, hx, rfl⟩) rfl rfl
  | create path =>
    obtain ⟨x, k, -, -, rfl⟩ := step_create h
    exact hI.of_eq rfl hsame rfl rfl
  | respond job =>
    obtain ⟨x, k, hx, -, rfl⟩ := step_respond h
    exact hI.of_eq rfl (by rintro y ⟨⟩; exact ⟨x, hx, rfl⟩) rfl rfl
  | resolve how => exact hI.resolve h
  | lock j =>
    obtain ⟨job, -, -, -, rfl⟩ := step_lock h
    exact hI.of_eq rfl hsame rfl rfl
  | check j =>
    obtain ⟨job, -, -, ⟨-, rfl⟩ | rfl⟩ := step_check h
    · exact hI.of_eq rfl hsame rfl rfl
    · exact hI.of_eq rfl hsame rfl rfl
  | unlink j file =>
    obtain ⟨job, -, -, -, rfl⟩ := step_unlink h
    exact hI.of_eq rfl hsame rfl rfl
  | finish j ok =>
    obtain ⟨job, -, -, rfl⟩ := step_finish h
    exact hI.of_eq rfl hsame rfl rfl

theorem run {es : List SandboxEvent} (h : machine.run es = some s) : s.DecidedOnce :=
  Machine.run_invariant init (fun _ e _ hI h => hI.step e h) h

end DecidedOnce

/-! ### Sandboxes that are in use are left alone -/

/-- **No job deletes what a later run has created.** However the runs and the jobs of a path take
turns: no file was deleted by a job of an earlier generation than that of the run that created it;
no job of an earlier generation walks while a run creates its files or they are read; no teardown
has queued two jobs; and one that left the sandbox for diagnostics has queued none. -/
theorem reclaim_safe (es : List SandboxEvent) (s : Sandbox) (h : machine.run es = some s) :
    (∀ d ∈ s.deleted, d.2.createdBy ≤ d.1) ∧
      (∀ x job, s.live = some x → x.point.InUse → job ∈ s.jobs → job.point = .walking →
        x.teardown.generation ≤ job.claimed) ∧
      s.enqueued.Nodup ∧ ∀ g ∈ s.left, g ∉ s.enqueued := by
  have hI := Guarded.run h
  have hD := DecidedOnce.run h
  refine ⟨hI.deleted_le, ?_, hD.nodup, fun g hl he => hD.disjoint he hl⟩
  intro x job hx huse hjob hp
  obtain ⟨j, hj⟩ := mem_iff_getElem?.mp hjob
  obtain ⟨k, hk⟩ : ∃ k, x.point.stale? = some k := by
    cases hpoint : x.point <;> simp_all [ExecutePoint.stale?, ExecutePoint.InUse]
  have hwalks : s.Walks job.claimed := ⟨j, by rw [hj, ← hp]⟩
  have hg := hI.fresh x k hx hk ((hI.stale x k hx hk).2 huse) job.claimed hwalks
  exact ((hI.live_generation x hx).trans hg.symm).le

/-- A run is cancelled while the job it queued is on its walk. The next one claims the path and
waits; the walk deletes what the first one found, the job of the next one gets the lock after it,
and the job that the cancelled run's teardown has queued declines. -/
theorem reclaim_safe_cancelled :
    ∃ es s, machine.run es = some s ∧ s.generation = 3 ∧ s.enqueued = [1, 2] ∧
      s.deleted = [(2, ⟨"out", 1⟩)] ∧ s.files = [⟨"out", 3⟩] ∧
      ((∀ d ∈ s.deleted, d.2.createdBy ≤ d.1) ∧
        (∀ x job, s.live = some x → x.point.InUse → job ∈ s.jobs → job.point = .walking →
          x.teardown.generation ≤ job.claimed) ∧
        s.enqueued.Nodup ∧ ∀ g ∈ s.left, g ∉ s.enqueued) := by
  have h : machine.run [.claim, .queueStale, .lock 0, .check 0, .finish 0 true, .proceed,
      .create "out", .respond true, .resolve .complete,
      .claim, .queueStale, .lock 2, .check 2, .resolve .abandon,
      .claim, .queueStale, .unlink 2 ⟨"out", 1⟩, .finish 2 true, .lock 3, .check 3, .lock 4,
      .check 4, .finish 4 true, .proceed, .create "out", .lock 1, .check 1] =
      some ⟨3, none, [⟨1, .finished true⟩, ⟨1, .finished true⟩, ⟨2, .finished true⟩,
        ⟨2, .finished true⟩, ⟨3, .finished true⟩], some ⟨⟨3, false, true⟩, .creating 4⟩,
        [⟨"out", 3⟩], [(2, ⟨"out", 1⟩)], [1, 2], []⟩ := by decide
  exact ⟨_, _, h, rfl, rfl, rfl, rfl, reclaim_safe _ _ h⟩

end Sandbox

end Heph
