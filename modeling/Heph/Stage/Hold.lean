import Heph.Lib.Holders
import Heph.Lib.Parties
import Heph.Lib.SortedMap

/-!
# Holding a stage entry

Artifacts that are only read are unpacked once, into a **stage** that all processes share, and
consumers link to what is there. Next to the directory of an entry are a marker, `.ready`, which
says that the entry is complete, and a lock file. Whoever unpacks an entry has the lock
exclusively, and so has whoever clears the stage; a run that links to an entry **holds** it with a
shared lock.

Neither unpacking nor clearing is atomic, and a process may crash anywhere. The order does it: the
marker is written last and removed first, so that it is only ever there over a complete entry.
Between unpacking an entry and holding it there is a moment without a lock, in which the entry may
be cleared; so the marker is looked at again under the shared lock. From then on until the hold
is dropped, the entry is complete and nobody touches it (`Stage.held_complete`).

The lock is taken to be a correct reader–writer lock that a crash releases.
-/

namespace Heph.Stage

open Option Holders LockMode Machine List

/-! ### An entry and its users -/

section

variable {ι P ν : Type} [LinearOrder P]

/-- A stage entry: what is in its directory, if there is one, by path; its marker; and who has its
lock. -/
structure Entry (ι P ν : Type) [LinearOrder P] where
  tree : Option (SortedMap P ν)
  ready : Bool
  lock : Holders ι LockMode

/-- Where a task is that uses the entry. -/
inductive Phase (P ν : Type) where
  | idle
  /-- `ensure_materialized`, before it looks at the marker. -/
  | check
  /-- It waits for the exclusive lock. -/
  | lock
  /-- The job, before it looks at the marker again. -/
  | recheck
  /-- `materialize`: what may be left of an entry is removed. -/
  | removeOld
  | create
  /-- With what is still to be written. -/
  | unpack (todo : List (P × ν))
  /-- The marker is written. -/
  | publish
  /-- The job is over. -/
  | unlock (ok : Bool)
  /-- `try_hold`: it waits for the shared lock. -/
  | share
  /-- Before it looks at the marker under the shared lock. -/
  | recheckShared
  /-- Before it looks at the directory. -/
  | stat
  /-- There is no entry to hold. -/
  | retry
  /-- `hold_entry` has returned. -/
  | held
  /-- `clear_stage`, before it tries to lock the entry. -/
  | clearLock
  | clearReady
  | clearTree
  | clearUnlock
  deriving DecidableEq

/-- A task: where it is, how often it still tries, and whether anyone waits for it. -/
structure Task (P ν : Type) where
  phase : Phase P ν
  attempts : ℕ
  wanted : Bool
  deriving DecidableEq

/-- What a task does next, and how it goes. -/
inductive Action (P : Type) where
  /-- `hold_entry` is called. -/
  | hold
  /-- `clear_stage` comes by. -/
  | clear
  /-- The next thing, which succeeds. -/
  | next
  /-- The next thing, which fails. -/
  | fail
  /-- A path is removed. -/
  | remove (p : P)
  /-- The one who waits for the task gives up. -/
  | cancel
  /-- The hold is dropped. -/
  | drop
  | crash

/-- `HOLD_ATTEMPTS`. -/
def holdAttempts : ℕ := 8

/-- A task that does nothing. -/
def Task.rest : Task P ν := ⟨.idle, 0, false⟩

/-- The task goes on. -/
def Task.goto (l : Task P ν) (phase : Phase P ν) : Task P ν := { l with phase := phase }

/-- The lock that a task has. -/
def Phase.guard : Phase P ν → Option LockMode
  | .recheck | .removeOld | .create | .unpack _ | .publish | .unlock _ => some .exclusive
  | .clearReady | .clearTree | .clearUnlock => some .exclusive
  | .recheckShared | .stat | .retry | .held => some .shared
  | _ => none

/-- An entry that is all there. -/
def complete (writes : List (P × ν)) : SortedMap P ν := .ofList writes

/-- There is nothing left in the directory. -/
def Entry.removed (s : Entry ι P ν) : Bool := s.tree.all fun t => t.entries.isEmpty

variable [DecidableEq ι]

/-- The lock is given back. -/
def Entry.release (s : Entry ι P ν) (p : ι) : Entry ι P ν := { s with lock := s.lock.release p }

variable [Fintype ι]

/-- The lock is taken, if it can be had. -/
def Entry.take (s : Entry ι P ν) (p : ι) (m : LockMode) : Option (Entry ι P ν) :=
  if s.lock.Admits Compatible p m then some { s with lock := s.lock.take p m } else none

variable (writes : List (P × ν))

/-- The next thing that a task does, where it succeeds. -/
def next (p : ι) (s : Entry ι P ν) (l : Task P ν) : Option (Entry ι P ν × Task P ν) :=
  match l.phase with
  | .check => some (s, l.goto (if s.ready then .share else .lock))
  | .lock => (s.take p .exclusive).map (·, l.goto .recheck)
  | .recheck => some (s, l.goto (if s.ready then .unlock true else .removeOld))
  | .removeOld => if s.removed then some ({ s with tree := none }, l.goto .create) else none
  | .create => some ({ s with tree := some .empty }, l.goto (.unpack writes))
  | .unpack [] => some (s, l.goto .publish)
  | .unpack (w :: todo) =>
    some ({ s with tree := s.tree.map (·.insert w.1 w.2) }, l.goto (.unpack todo))
  | .publish => some ({ s with ready := true }, l.goto (.unlock true))
  | .unlock ok => some (s.release p, if ok && l.wanted then l.goto .share else .rest)
  | .share => (s.take p .shared).map (·, l.goto .recheckShared)
  | .recheckShared => some (s, l.goto (if s.ready then .stat else .retry))
  | .stat => some (s, l.goto (if s.tree.isSome then .held else .retry))
  | .retry =>
    some (s.release p, if l.attempts = 0 then .rest else ⟨.check, l.attempts - 1, l.wanted⟩)
  -- a lock that somebody has is not waited for
  | .clearLock =>
    some (match s.take p .exclusive with
      | some s' => (s', l.goto .clearReady)
      | none => (s, .rest))
  | .clearReady => some ({ s with ready := false }, l.goto .clearTree)
  | .clearTree => if s.removed then some ({ s with tree := none }, l.goto .clearUnlock) else none
  | .clearUnlock => some (s.release p, .rest)
  | .idle | .held => none

/-- Where a task goes that fails. -/
def fail (l : Task P ν) : Option (Task P ν) :=
  match l.phase with
  | .check | .lock | .share | .clearLock => some .rest
  | .recheck | .removeOld | .create | .unpack _ | .publish => some (l.goto (.unlock false))
  | .clearReady | .clearTree => some (l.goto .clearUnlock)
  | _ => none

/-- Where a task goes that nobody waits for any more: a job that has the lock runs on. -/
def cancel (l : Task P ν) : Option (Task P ν) :=
  match l.phase with
  | .check | .lock | .share => some .rest
  | .recheck | .removeOld | .create | .unpack _ | .publish | .unlock _ =>
    some { l with wanted := false }
  | _ => none

/-- One step of a task. -/
def step (p : ι) (s : Entry ι P ν) (l : Task P ν) :
    Action P → Option (Entry ι P ν × Task P ν)
  | .hold =>
    match l.phase with
    | .idle => some (s, ⟨.check, holdAttempts - 1, true⟩)
    | _ => none
  | .clear =>
    match l.phase with
    | .idle => if s.tree.isSome then some (s, l.goto .clearLock) else none
    | _ => none
  | .next => next writes p s l
  | .fail => (fail l).map (s, ·)
  | .remove x =>
    match l.phase with
    | .removeOld | .clearTree => some ({ s with tree := s.tree.map (·.remove x) }, l)
    | _ => none
  | .cancel => (cancel l).map (s, ·)
  | .drop =>
    match l.phase with
    | .held => some (s.release p, .rest)
    | _ => none
  | .crash => some (s.release p, .rest)

/-- The tasks of all processes, around one entry that is not there at first. -/
def tasks : Parties ι (Entry ι P ν) (Task P ν) (Action P) where
  init := ⟨none, false, .free⟩
  start := .rest
  step := step writes

/-! ### What is known -/

/-- What a task in a phase knows of the entry. -/
def Phase.Knows : Phase P ν → Entry ι P ν → Prop
  | .removeOld, s | .create, s | .clearTree, s => s.ready = false
  | .unpack todo, s => s.ready = false ∧ ∃ t, s.tree = some t ∧
      todo.foldl (fun t w => t.insert w.1 w.2) t = complete writes
  | .publish, s => s.ready = false ∧ s.tree = some (complete writes)
  | .stat, s | .held, s => s.ready = true
  | _, _ => True

/-- **The marker is only there over a complete entry.** -/
structure EntryOk (s : Entry ι P ν) : Prop where
  excluding : s.lock.Excluding Compatible
  complete : s.ready = true → s.tree = some (complete writes)

/-- A task has the lock that its phase is about, and what it knows is true. -/
structure TaskOk (p : ι) (s : Entry ι P ν) (l : Task P ν) : Prop where
  guard : s.lock p = l.phase.guard
  knows : l.phase.Knows writes s

variable {writes} {p q : ι} {s s' : Entry ι P ν} {l l' : Task P ν} {phase : Phase P ν}

omit [DecidableEq ι] [Fintype ι] in
theorem Phase.Knows.of_guard (h : phase.guard = none) :
    phase.Knows writes s := by
  cases phase <;> trivial

omit [DecidableEq ι] [Fintype ι] in
theorem Phase.Knows.congr (h : phase.Knows writes s) (htree : s'.tree = s.tree)
    (hready : s'.ready = s.ready) : phase.Knows writes s' := by
  cases phase <;> simp only [Knows, htree, hready] at h ⊢ <;> exact h

/-- **What a step does**: it keeps what is known, it is about the task's own lock, and without the
exclusive lock nothing is touched. -/
structure StepOk (writes : List (P × ν)) (p : ι) (s : Entry ι P ν) (l : Task P ν)
    (s' : Entry ι P ν) (l' : Task P ν) : Prop where
  entry : EntryOk writes s'
  task : TaskOk writes p s' l'
  others : ∀ q ≠ p, s'.lock q = s.lock q
  untouched : l.phase.guard = some .exclusive ∨ s'.tree = s.tree ∧ s'.ready = s.ready

section

variable (hs : EntryOk writes s) {a : Action P}

include hs

section

variable (hl : TaskOk writes p s l) {tree : Option (SortedMap P ν)}

include hl

omit [DecidableEq ι] [Fintype ι] in
/-- The task goes on with the lock that it has. -/
theorem stepOk_goto (hguard : l'.phase.guard = l.phase.guard) (hknows : l'.phase.Knows writes s) :
    StepOk writes p s l s l' :=
  ⟨hs, ⟨hguard ▸ hl.guard, hknows⟩, fun _ _ => rfl, .inr ⟨rfl, rfl⟩⟩

omit [DecidableEq ι] [Fintype ι] in
/-- Under the exclusive lock, the directory or the marker is changed. -/
theorem stepOk_change {ready : Bool} (hexclusive : l.phase.guard = some .exclusive)
    (hguard : l'.phase.guard = some .exclusive)
    (hcomplete : ready = true → tree = some (complete writes))
    (hknows : l'.phase.Knows writes ⟨tree, ready, s.lock⟩) :
    StepOk writes p s l ⟨tree, ready, s.lock⟩ l' :=
  ⟨⟨hs.excluding, hcomplete⟩, ⟨hl.guard.trans (hexclusive.trans hguard.symm), hknows⟩,
    fun _ _ => rfl, .inl hexclusive⟩

omit [DecidableEq ι] [Fintype ι] in
/-- Under the exclusive lock and without the marker, the directory is changed. -/
theorem stepOk_edit (hexclusive : l.phase.guard = some .exclusive)
    (hguard : l'.phase.guard = some .exclusive) (hready : s.ready = false)
    (hknows : l'.phase.Knows writes ⟨tree, s.ready, s.lock⟩) :
    StepOk writes p s l ⟨tree, s.ready, s.lock⟩ l' :=
  stepOk_change hs hl hexclusive hguard (fun h => absurd h (by simp [hready])) hknows

end

omit [Fintype ι] in
/-- The lock is given back. -/
theorem stepOk_release (hguard : l'.phase.guard = none) :
    StepOk writes p s l (s.release p) l' :=
  ⟨⟨hs.excluding.release, hs.complete⟩, ⟨hguard ▸ release_self, .of_guard hguard⟩,
    fun _ hq => release_of_ne hq, .inr ⟨rfl, rfl⟩⟩

/-- The lock is taken. -/
theorem stepOk_take {m : LockMode} (htake : s.take p m = some s')
    (hguard : l'.phase.guard = some m) (hknows : l'.phase.Knows writes s) :
    StepOk writes p s l s' l' := by
  rw [Entry.take] at htake
  split at htake
  · next hadmits =>
    cases htake
    exact ⟨⟨hs.excluding.take Compatible.symm hadmits, hs.complete⟩,
      ⟨hguard ▸ take_self, hknows.congr rfl rfl⟩, fun _ hq => take_of_ne hq,
      .inr ⟨rfl, rfl⟩⟩
  · cases htake

theorem next_ok (hl : TaskOk writes p s l)
    (h : next writes p s l = some (s', l')) : StepOk writes p s l s' l' := by
  obtain ⟨phase, attempts, wanted⟩ := l
  have hknows := hl.knows
  cases phase with
  | idle | held => cases h
  | check | stat =>
    cases h
    refine stepOk_goto hs hl ?_ ?_ <;> simp only [Task.goto] <;> split <;> trivial
  | lock | share =>
    obtain ⟨t, htake, h⟩ := map_eq_some_iff.mp h
    cases h
    exact stepOk_take hs htake rfl trivial
  | recheck =>
    cases h
    cases hready : s.ready with
    | true => exact stepOk_goto hs hl rfl trivial
    | false => exact stepOk_goto hs hl rfl hready
  | removeOld =>
    simp only [next] at h
    split at h
    · cases h
      exact stepOk_edit hs hl rfl rfl hknows hknows
    · cases h
  | create =>
    cases h
    exact stepOk_edit hs hl rfl rfl hknows ⟨hknows, .empty, rfl, rfl⟩
  | unpack todo =>
    obtain ⟨hready, t, htree, hrest⟩ := hknows
    cases todo with
    | nil =>
      cases h
      exact stepOk_goto hs hl rfl ⟨hready, htree.trans (congrArg some hrest)⟩
    | cons w todo =>
      cases h
      refine stepOk_edit hs hl rfl rfl hready ⟨hready, _, ?_, hrest⟩
      rw [htree]
      rfl
  | publish =>
    cases h
    exact stepOk_change hs hl rfl rfl (fun _ => hknows.2) trivial
  | unlock | retry =>
    cases h
    exact stepOk_release hs (by split <;> rfl)
  | recheckShared =>
    cases h
    cases hready : s.ready with
    | true => exact stepOk_goto hs hl rfl hready
    | false => exact stepOk_goto hs hl rfl trivial
  | clearLock =>
    have h := some.inj h
    split at h
    · next t htake =>
      cases h
      exact stepOk_take hs htake rfl trivial
    · cases h
      exact stepOk_goto hs hl rfl trivial
  | clearReady =>
    cases h
    exact stepOk_change hs hl rfl rfl (by simp) rfl
  | clearTree =>
    simp only [next] at h
    split at h
    · cases h
      exact stepOk_edit hs hl rfl rfl hknows trivial
    · cases h
  | clearUnlock =>
    cases h
    exact stepOk_release hs rfl

theorem step_ok (hl : TaskOk writes p s l)
    (h : step writes p s l a = some (s', l')) : StepOk writes p s l s' l' := by
  obtain ⟨phase, attempts, wanted⟩ := l
  cases a with
  | hold =>
    cases phase with
    | idle =>
      cases h
      exact stepOk_goto hs hl rfl trivial
    | _ => cases h
  | clear =>
    cases phase with
    | idle =>
      simp only [step] at h
      split at h
      · cases h
        exact stepOk_goto hs hl rfl trivial
      · cases h
    | _ => cases h
  | next => exact next_ok hs hl h
  | fail =>
    obtain ⟨t, hfail, h⟩ := map_eq_some_iff.mp h
    cases h
    cases phase with
    | check | lock | share | clearLock | recheck | removeOld | create | unpack | publish
    | clearReady | clearTree =>
      cases hfail
      exact stepOk_goto hs hl rfl trivial
    | _ => cases hfail
  | remove x =>
    cases phase with
    | removeOld | clearTree =>
      cases h
      exact stepOk_edit hs hl rfl rfl hl.knows hl.knows
    | _ => cases h
  | cancel =>
    obtain ⟨t, hcancel, h⟩ := map_eq_some_iff.mp h
    cases h
    cases phase with
    | check | lock | share =>
      cases hcancel
      exact stepOk_goto hs hl rfl trivial
    | recheck | removeOld | create | unpack | publish | unlock =>
      cases hcancel
      exact stepOk_goto hs hl rfl hl.knows
    | _ => cases hcancel
  | drop =>
    cases phase with
    | held =>
      cases h
      exact stepOk_release hs rfl
    | _ => cases h
  | crash =>
    cases h
    exact stepOk_release hs rfl

end

omit [DecidableEq ι] [Fintype ι] in
/-- What another task knows stays true: if it has the lock, nothing is touched. -/
theorem StepOk.other (h : StepOk writes p s l s' l') (hs : EntryOk writes s)
    (hl : TaskOk writes p s l) (hq : q ≠ p) {k : Task P ν} (hk : TaskOk writes q s k) :
    TaskOk writes q s' k := by
  refine ⟨(h.others q hq).trans hk.guard, ?_⟩
  rcases h.untouched with hexclusive | ⟨htree, hready⟩
  · cases hguard : k.phase.guard with
    | none => exact .of_guard hguard
    | some m =>
      have hcompat := hs.excluding q p hq m (hk.guard.trans hguard) .exclusive
        (hl.guard.trans hexclusive)
      exact absurd hcompat not_compatible_exclusive
  · exact hk.knows.congr htree hready

/-- **Every run.** -/
theorem tasks_ok {es : List (ι × Action P)} {ls : ι → Task P ν}
    (h : (tasks writes).machine.run es = some (s, ls)) :
    EntryOk writes s ∧ ∀ p, TaskOk writes p s (ls p) := by
  refine Parties.run_invariant
    ⟨excluding_free, by simp [tasks]⟩
    (fun p => ⟨rfl, trivial⟩) ?_ ?_ h
  · intro p s l a s' l' hs hl h
    have hok := step_ok hs hl h
    exact ⟨hok.entry, hok.task⟩
  · exact fun p s l a s' l' hs hl h q hq k hk => (step_ok hs hl h).other hs hl hq hk

/-! ### Holding -/

/-- A step is on the entry directory: it removes, creates or writes something. -/
def Phase.Touches : Phase P ν → Action P → Prop
  | .removeOld, .next | .removeOld, .remove _ | .create, .next | .unpack _, .next => True
  | .clearTree, .next | .clearTree, .remove _ => True
  | _, _ => False

omit [LinearOrder P] in
theorem Phase.Touches.guard {a : Action P} (h : phase.Touches a) :
    phase.guard = some .exclusive := by
  cases phase <;> first | rfl | exact h.elim

/-- **An entry that is held is complete, and nobody touches it**, for as long as the one who holds
it does nothing – which is until it drops the hold or crashes. -/
theorem held_complete {es es' : List (ι × Action P)} {ls ls' : ι → Task P ν}
    (h : (tasks writes).machine.run es = some (s, ls)) (hheld : (ls p).phase = .held)
    (hp : ∀ e ∈ es', e.1 ≠ p) (h' : (tasks writes).machine.runFrom (s, ls) es' = some (s', ls')) :
    s'.tree = some (complete writes) ∧ (ls' p).phase = .held ∧
      (tasks writes).machine.Meets (fun x e => ¬(x.2 e.1).phase.Touches e.2) (s, ls) es' := by
  have hstays : ∀ {es₁ : List (ι × Action P)} {x : Entry ι P ν × (ι → Task P ν)},
      (∀ e ∈ es₁, e.1 ≠ p) → (tasks writes).machine.runFrom (s, ls) es₁ = some x →
      (x.2 p).phase = .held ∧ EntryOk writes x.1 ∧ ∀ q, TaskOk writes q x.1 (x.2 q) := by
    intro es₁ x hes₁ hrun
    refine ⟨?_, tasks_ok (run_append.mpr ⟨(s, ls), h, hrun⟩)⟩
    rw [Parties.own_of_runFrom hes₁ hrun]
    exact hheld
  obtain ⟨hheld', hs', hls'⟩ := hstays hp h'
  have hready : s'.ready = true := by
    have hknows := (hls' p).knows
    rwa [hheld'] at hknows
  refine ⟨hs'.complete hready, hheld',
    meets_of_prefixes fun es₁ e es₂ x hes hrun htouch => ?_⟩
  -- whoever is about to touch the entry has the lock that excludes the hold
  subst hes
  have hes₁ : ∀ e ∈ es₁, e.1 ≠ p := fun e he => hp e (mem_append_left _ he)
  have hne : e.1 ≠ p := hp e (mem_append_right _ mem_cons_self)
  obtain ⟨hheldx, hx, hlsx⟩ := hstays hes₁ hrun
  have hshared : x.1.lock p = some .shared := by
    rw [(hlsx p).guard, hheldx]
    rfl
  exact not_compatible_exclusive
    (hx.excluding p e.1 hne.symm .shared hshared .exclusive ((hlsx e.1).guard.trans htouch.guard))

end

/-- An artifact of two files. -/
def twoFiles : List (ℕ × Char) := [(0, 'a'), (1, 'b')]

/-- One process unpacks the artifact, and holds the entry. -/
def unpackAndHold : List (Bool × Action ℕ) := (true, .hold) :: replicate 13 (true, .next)

/-- Another one comes by to clear the stage. -/
def clearing : List (Bool × Action ℕ) := [(false, .clear), (false, .next)]

theorem held_complete_clearing : ∃ s ls s' ls',
    (tasks twoFiles).machine.run unpackAndHold = some (s, ls) ∧ (ls true).phase = .held ∧
      (tasks twoFiles).machine.runFrom (s, ls) clearing = some (s', ls') ∧
      s'.tree = some (complete twoFiles) := by
  have hrun : ((tasks twoFiles).machine.run unpackAndHold).map (fun x => (x.2 true).phase) =
      some .held := by
    decide +kernel
  have hrun' : ((tasks twoFiles).machine.run (unpackAndHold ++ clearing)).isSome := by
    decide +kernel
  obtain ⟨⟨s, ls⟩, hrun, hheld⟩ := map_eq_some_iff.mp hrun
  obtain ⟨⟨s', ls'⟩, hrun'⟩ := isSome_iff_exists.mp hrun'
  obtain ⟨x, hx, hfrom⟩ := run_append.mp hrun'
  obtain rfl := some.inj (hrun.symm.trans hx)
  have hother : ∀ e ∈ clearing, e.1 ≠ true := by decide
  obtain ⟨htree, -, -⟩ := held_complete hrun hheld hother hfrom
  exact ⟨s, ls, s', ls', hrun, hheld, hfrom, htree⟩

end Heph.Stage
