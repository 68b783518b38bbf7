import Heph.Lock.ResultLock

/-!
# What the guards of a target exclude

The locks that a task holds are those of the point where it is (`ResultLock.Inv`): the
gateway while it has a guard on the target as a whole or is between two of them, and the
revision lock while it has a guard on the revision. So the guards exclude each other as the
locks do, and a task that has come to nothing holds nothing.

While a guard is **upgraded or downgraded** its task holds no revision lock, and a writer might
slip in. None does, because the gateway is kept: a task gets to write a revision only if it has the
gateway, or by the leave of a task that has it.
-/

namespace Heph

open Option Function Holders ResultLock LockTask LockMode

variable {ι ρ : Type} [DecidableEq ρ]

/-! ### The locks of a task -/

namespace ResultGuard

/-- The revision that the guard is on. -/
def revision : ResultGuard ρ → Option ρ
  | read r => some r
  | upgradable r => some r
  | write r => some r
  | target => none
  | revisionWrite r => some r

/-- How the guard holds the lock of its revision. -/
def lockMode : ResultGuard ρ → LockMode
  | write _ => .exclusive
  | revisionWrite _ => .exclusive
  | _ => .shared

/-- The guard keeps others from building the target. A `RevisionWriteGuard` does not: it is
taken by the leave of a guard on the target, and may outlive it. -/
def hasGateway : ResultGuard ρ → Bool
  | upgradable _ => true
  | write _ => true
  | target => true
  | _ => false

/-- How the guard holds a revision lock. -/
def mode (g : ResultGuard ρ) (r : ρ) : Option LockMode :=
  if g.revision = some r then some g.lockMode else none

end ResultGuard

namespace LockTask

/-- The task holds the gateway. -/
def hasGateway : LockTask ι ρ → Bool
  | inner _ _ => true
  | tryInner _ _ => true
  | transform _ _ => true
  | releasing => true
  | guard g => g.hasGateway
  | _ => false

/-- How the task holds a revision lock. -/
def mode : LockTask ι ρ → ρ → Option LockMode
  | guard g, r => g.mode r
  | _, _ => none

theorem mode_guard {g : ResultGuard ρ} {r : ρ} (hg : g.revision = some r) (r' : ρ) :
    (guard g : LockTask ι ρ).mode r' = if r' = r then some g.lockMode else none := by
  simp [mode, ResultGuard.mode, hg, eq_comm]

end LockTask

namespace ResultLock

variable {s s' : ResultLock ι ρ} {p q : ι} {r : ρ} {t : LockTask ι ρ}

/-- **What holds in every run**: the tasks hold the locks of the points where they are, the
locks exclude each other, a guard that is borrowed is there, and nobody writes a revision
whose guard is being upgraded or downgraded. -/
structure Inv (s : ResultLock ι ρ) : Prop where
  gateway : ∀ p, s.gateway p = some () ↔ (s.tasks p).hasGateway = true
  revisions : ∀ r p, s.revisions r p = (s.tasks p).mode r
  alone : s.gateway.Excluding Incompatible
  excluding : ∀ r, (s.revisions r).Excluding LockMode.Compatible
  borrowed : ∀ p u, (s.tasks p).borrowed = some u → s.tasks u = .guard .target
  handover : ∀ p k r, s.tasks p = .transform k r →
    ∀ q, q ≠ p → s.revisions r q ≠ some .exclusive

/-- Where a task may go: it borrows a guard that another task has, and gives up the guard on
the target only if that is not borrowed. -/
structure Proper (s : ResultLock ι ρ) (p : ι) (t : LockTask ι ρ) : Prop where
  borrows : ∀ u, t.borrowed = some u → u ≠ p ∧ s.tasks u = .guard .target
  keeps : s.tasks p = .guard .target → s.Unborrowed p

omit [DecidableEq ρ] in
theorem Proper.of_ne (hp : s.tasks p ≠ .guard .target) (ht : t.borrowed = none) : Proper s p t :=
  ⟨fun u hu => by simp [ht] at hu, fun h => absurd h hp⟩

/-- The leave to write a revision: the task has the gateway itself, or the guard on the target
of another task. -/
def Leave (s : ResultLock ι ρ) (p : ι) : Prop :=
  (s.tasks p).hasGateway = true ∨ ∃ u, s.tasks u = .guard .target

namespace Inv

theorem inv_new : Inv (new : ResultLock ι ρ) where
  gateway p := by simp [new, free, hasGateway]
  revisions r p := rfl
  alone := excluding_free
  excluding _ := excluding_free
  borrowed p u h := by simp [new, LockTask.borrowed] at h
  handover p k r h := by simp [new] at h

variable (hI : Inv s)

include hI

/-- Two tasks with the gateway are one. -/
theorem eq_of_hasGateway (hp : (s.tasks p).hasGateway = true)
    (hq : (s.tasks q).hasGateway = true) : p = q := by
  by_contra hne
  exact hI.alone p q hne () ((hI.gateway p).mpr hp) () ((hI.gateway q).mpr hq)

theorem gateway_none (hp : (s.tasks p).hasGateway = false) : s.gateway p = none := by
  rw [eq_none_iff_forall_ne_some]
  intro u hu
  rw [(hI.gateway p).mp hu] at hp
  exact Bool.noConfusion hp

/-- Two guards on one revision are both there to read. -/
theorem shared_of_guards {g g' : ResultGuard ρ} (hne : p ≠ q)
    (hp : s.tasks p = .guard g) (hq : s.tasks q = .guard g') (hg : g.revision = some r)
    (hg' : g'.revision = some r) :
    g.lockMode = .shared ∧ g'.lockMode = .shared := by
  refine hI.excluding r p q hne g.lockMode ?_ g'.lockMode ?_
  · rw [hI.revisions, hp, mode, ResultGuard.mode, if_pos hg]
    rfl
  · rw [hI.revisions, hq, mode, ResultGuard.mode, if_pos hg']
    rfl

/-- A task at rest holds nothing. -/
theorem free_of_idle (hp : s.tasks p = .idle) :
    s.gateway p = none ∧ ∀ r, s.revisions r p = none := by
  refine ⟨hI.gateway_none (by rw [hp]; rfl), fun r => ?_⟩
  rw [hI.revisions, hp]
  rfl

variable [DecidableEq ι] {m : LockMode} {g : ResultGuard ρ}

/-- **A task moves on**: its own locks change with the point where it is, the others keep
theirs, and it has the leave of the gateway for a revision that it gets to write. -/
theorem moved (htasks : s'.tasks = Function.update s.tasks p t)
    (ht : Proper s p t) (hgateway : ∀ q, q ≠ p → s'.gateway q = s.gateway q)
    (hgateway' : s'.gateway p = some () ↔ t.hasGateway = true)
    (halone : s'.gateway.Excluding Incompatible)
    (hrevisions : ∀ r q, q ≠ p → s'.revisions r q = s.revisions r q)
    (hrevisions' : ∀ r, s'.revisions r p = t.mode r)
    (hexcluding : ∀ r, (s'.revisions r).Excluding LockMode.Compatible)
    (hhand : ∀ k r, t = .transform k r → s.revisions r p ≠ none)
    (hwrite : ∀ r, s'.revisions r p = some .exclusive →
      s.revisions r p = some .exclusive ∨ Leave s p) :
    Inv s' := by
  have hself : s'.tasks p = t := by rw [htasks, update_self]
  have hother : ∀ q, q ≠ p → s'.tasks q = s.tasks q := fun q hq => by
    rw [htasks, update_of_ne hq]
  refine ⟨fun q => ?_, fun r q => ?_, halone, hexcluding, fun q u hu => ?_, ?_⟩
  · rcases eq_or_ne q p with rfl | hq
    · rw [hself, hgateway']
    · rw [hother q hq, hgateway q hq, hI.gateway]
  · rcases eq_or_ne q p with rfl | hq
    · rw [hself, hrevisions']
    · rw [hother q hq, hrevisions r q hq, hI.revisions]
  · rcases eq_or_ne q p with rfl | hq
    · rw [hself] at hu
      obtain ⟨hne, htarget⟩ := ht.borrows u hu
      rw [hother u hne, htarget]
    · rw [hother q hq] at hu
      have htarget := hI.borrowed q u hu
      have hne : u ≠ p := by
        rintro rfl
        exact ht.keeps htarget q hu
      rw [hother u hne, htarget]
  · intro q k r hq u hne hu
    rcases eq_or_ne q p with rfl | hqp
    · -- the task held the lock until now, in whichever mode
      rw [hself] at hq
      rw [hrevisions r u hne] at hu
      obtain ⟨m, hm⟩ := ne_none_iff_exists'.mp (hhand k r hq)
      exact not_compatible_exclusive (hI.excluding r q u hne.symm m hm .exclusive hu)
    · rw [hother q hqp] at hq
      have hgate : (s.tasks q).hasGateway = true := by rw [hq]; rfl
      rcases eq_or_ne u p with rfl | hup
      · -- the gateway is with the task that transforms its guard
        rcases hwrite r hu with hold | hu' | ⟨v, hv⟩
        · exact hI.handover q k r hq u hne hold
        · exact hne (hI.eq_of_hasGateway hu' hgate)
        · have hvq := hI.eq_of_hasGateway (p := v) (by rw [hv]; rfl) hgate
          simp [← hvq, hv] at hq
      · rw [hrevisions r u hup] at hu
        exact hI.handover q k r hq u hne hu

/-! ### The five ways to move -/

theorem goto (ht : Proper s p t)
    (hgateway : t.hasGateway = (s.tasks p).hasGateway) (hmode : ∀ r, t.mode r = (s.tasks p).mode r)
    (hhand : ∀ k r, t ≠ .transform k r) : Inv (s.goto p t) := by
  refine hI.moved rfl ht (fun _ _ => rfl) ?_ hI.alone (fun _ _ _ => rfl) (fun r => ?_)
    hI.excluding (fun k r h => absurd h (hhand k r)) (fun _ h => .inl h)
  · rw [hgateway]
    exact hI.gateway p
  · rw [hmode]
    exact hI.revisions r p

theorem takeGateway (hadm : s.gateway.Admits Incompatible p ()) (ht : Proper s p t)
    (hgateway : t.hasGateway = true) (hmode : ∀ r, t.mode r = (s.tasks p).mode r)
    (hhand : ∀ k r, t ≠ .transform k r) : Inv (s.takeGateway p t) := by
  refine hI.moved rfl ht (fun q hq => take_of_ne hq) ?_
    (hI.alone.take (fun _ _ h => h) hadm) (fun _ _ _ => rfl) (fun r => ?_) hI.excluding
    (fun k r h => absurd h (hhand k r)) (fun _ h => .inl h)
  · exact iff_of_true take_self hgateway
  · rw [hmode]
    exact hI.revisions r p

theorem releaseGateway (ht : Proper s p t) (hgateway : t.hasGateway = false)
    (hmode : ∀ r, t.mode r = (s.tasks p).mode r) (hhand : ∀ k r, t ≠ .transform k r) :
    Inv (s.releaseGateway p t) := by
  refine hI.moved rfl ht (fun q hq => release_of_ne hq) ?_ hI.alone.release
    (fun _ _ _ => rfl) (fun r => ?_) hI.excluding (fun k r h => absurd h (hhand k r))
    (fun _ h => .inl h)
  · rw [hgateway]
    exact iff_of_false (by simp [ResultLock.releaseGateway, ResultLock.goto]) Bool.false_ne_true
  · rw [hmode]
    exact hI.revisions r p

/-- The holders of one revision lock change, for the task. -/
theorem changeRevision {h : Holders ι LockMode} {m : Option LockMode}
    (ht : Proper s p t) (hgateway : t.hasGateway = (s.tasks p).hasGateway)
    (hother : ∀ q, q ≠ p → h q = s.revisions r q) (hself : h p = m)
    (hexcluding : h.Excluding LockMode.Compatible)
    (hmode : ∀ r', t.mode r' = if r' = r then m else (s.tasks p).mode r')
    (hhand : ∀ k r', t = .transform k r' → s.revisions r' p ≠ none)
    (hwrite : m = some .exclusive → Leave s p) :
    Inv ({ s with revisions := Function.update s.revisions r h }.goto p t) := by
  have hrev : ∀ r', ({ s with revisions := update s.revisions r h }.goto p t).revisions
      r' = if r' = r then h else s.revisions r' := fun r' => update_apply ..
  refine hI.moved rfl ht (fun _ _ => rfl) ?_ hI.alone (fun r' q hq => ?_) (fun r' => ?_)
    (fun r' => ?_) hhand (fun r' hx => ?_)
  · rw [hgateway]
    exact hI.gateway p
  · rw [hrev]
    split
    · next hr => rw [hr, hother q hq]
    · rfl
  · rw [hrev, hmode]
    split
    · exact hself
    · exact hI.revisions r' p
  · rw [hrev]
    split
    · exact hexcluding
    · exact hI.excluding r'
  · rw [hrev] at hx
    split at hx
    · exact .inr (hwrite (hself.symm.trans hx))
    · exact .inl hx

theorem takeRevision (hadm : (s.revisions r).Admits LockMode.Compatible p m) (ht : Proper s p t)
    (hgateway : t.hasGateway = (s.tasks p).hasGateway) (hnone : ∀ r, (s.tasks p).mode r = none)
    (hmode : ∀ r', t.mode r' = if r' = r then some m else none)
    (hhand : ∀ k r, t ≠ .transform k r) (hwrite : m = .exclusive → Leave s p) :
    Inv (s.takeRevision p r m t) :=
  hI.changeRevision ht hgateway (fun _ => take_of_ne) take_self
    ((hI.excluding r).take Compatible.symm hadm) (by simpa [hnone] using hmode)
    (fun k r h => absurd h (hhand k r)) (fun h => hwrite (some.inj h))

theorem releaseRevision (ht : Proper s p t)
    (hgateway : t.hasGateway = (s.tasks p).hasGateway)
    (hmode : ∀ r', t.mode r' = if r' = r then none else (s.tasks p).mode r')
    (hhand : ∀ k r', t = .transform k r' → s.revisions r' p ≠ none) :
    Inv (s.releaseRevision p r t) :=
  hI.changeRevision ht hgateway (fun _ => release_of_ne) release_self
    (hI.excluding r).release hmode hhand (by simp)

/-! ### One step -/

/-- A revision guard of the task is given up, for a point that holds no revision lock. -/
theorem giveUp (hp : s.tasks p = .guard g)
    (hg : g.revision = some r) (hgateway : t.hasGateway = g.hasGateway)
    (hb : t.borrowed = none) (hmode : ∀ r, t.mode r = none)
    (hhand : ∀ k r', t = .transform k r' → r' = r) :
    Inv (s.releaseRevision p r t) := by
  have hne : s.tasks p ≠ .guard .target := by
    rw [hp]
    rintro ⟨⟩
    simp [ResultGuard.revision] at hg
  refine hI.releaseRevision (.of_ne hne hb) (by rw [hgateway, hp]; rfl) (fun r' => ?_)
    (fun k r' ht => ?_)
  · rw [hmode, hp, mode_guard hg]
    split <;> rfl
  · rw [hI.revisions, hp, mode_guard hg, if_pos (hhand k r' ht)]
    exact some_ne_none _

theorem fail (h : s.fail p = some s') : Inv s' := by
  cases hp : s.tasks p with
  | read | outer | target | revision =>
    simp only [ResultLock.fail, hp] at h
    cases h
    exact hI.goto (.of_ne (by simp [hp]) rfl) (by rw [hp]; rfl) (fun _ => by rw [hp]; rfl) (by simp)
  | inner | tryInner | transform =>
    simp only [ResultLock.fail, hp] at h
    cases h
    exact hI.releaseGateway (.of_ne (by simp [hp]) rfl) rfl (fun _ => by rw [hp]; rfl) (by simp)
  | releasing | idle | guard => simp [ResultLock.fail, hp] at h

variable [Fintype ι] {e : LockEvent ι ρ}

theorem tryGateway (hp : s.tasks p = .idle) (ht : t.borrowed = none)
    (hgateway : t.hasGateway = true) (hmode : ∀ r, t.mode r = none)
    (hhand : ∀ k r, t ≠ .transform k r) : Inv (s.tryGateway p t .idle) := by
  rw [ResultLock.tryGateway]
  split
  · next hadm =>
    refine hI.takeGateway hadm (.of_ne (by simp [hp]) ht) hgateway (fun r => ?_) hhand
    rw [hmode, hp]
    rfl
  · exact hI.goto (.of_ne (by simp [hp]) rfl) (by rw [hp]) (fun r => by rw [hp]) (by simp)

theorem tryRevision {busy : LockTask ι ρ}
    (hp : s.tasks p ≠ .guard .target) (hb : t.borrowed = none ∧ busy.borrowed = none)
    (hgateway : t.hasGateway = (s.tasks p).hasGateway ∧ busy.hasGateway = (s.tasks p).hasGateway)
    (hnone : ∀ r, (s.tasks p).mode r = none)
    (hmode : ∀ r', t.mode r' = if r' = r then some m else none) (hbusy : ∀ r, busy.mode r = none)
    (hhand : ∀ k r, t ≠ .transform k r ∧ busy ≠ .transform k r)
    (hwrite : m = .exclusive → Leave s p) :
    Inv (s.tryRevision p r m t busy) := by
  rw [ResultLock.tryRevision]
  split
  · next hadm =>
    exact hI.takeRevision hadm (.of_ne hp hb.1) hgateway.1 hnone hmode
      (fun k r => (hhand k r).1) hwrite
  · refine hI.goto (.of_ne hp hb.2) hgateway.2 (fun r => ?_) (fun k r => (hhand k r).2)
    rw [hbusy, hnone]

theorem call (hp : s.tasks p = .idle)
    (h : s.call p e = some s') : Inv s' := by
  have hne : s.tasks p ≠ .guard .target := by simp [hp]
  -- a call that only begins to wait
  have hwait : ∀ t : LockTask ι ρ, Proper s p t → t.hasGateway = false → (∀ r, t.mode r = none) →
      (∀ k r, t ≠ .transform k r) → Inv (s.goto p t) := fun t ht hg hm hd =>
    hI.goto ht (by rw [hg, hp]; rfl) (fun r => by rw [hm, hp]; rfl) hd
  cases e with
  | read | upgradableRead | write | lockTarget =>
    cases h
    exact hwait _ (.of_ne hne rfl) rfl (fun _ => rfl) (by simp)
  | tryRead r =>
    cases h
    exact hI.tryRevision hne ⟨rfl, rfl⟩ (by rw [hp]; exact ⟨rfl, rfl⟩) (fun _ => by rw [hp]; rfl)
      (mode_guard rfl) (fun _ => rfl) (by simp) (by simp)
  | tryUpgradableRead | tryWrite | tryLockTarget =>
    cases h
    exact hI.tryGateway hp rfl rfl (fun _ => rfl) (by simp)
  | tryWriteRevision u r =>
    obtain ⟨hu, heq⟩ := ite_none_right_eq_some.mp h
    cases heq
    exact hI.tryRevision hne ⟨rfl, rfl⟩ (by rw [hp]; exact ⟨rfl, rfl⟩) (fun _ => by rw [hp]; rfl)
      (mode_guard rfl) (fun _ => rfl) (by simp) (fun _ => .inr ⟨u, hu⟩)
  | writeRevision u r =>
    obtain ⟨hu, heq⟩ := ite_none_right_eq_some.mp h
    cases heq
    refine hwait _ ⟨fun v hv => ?_, fun h => absurd h hne⟩ rfl (fun _ => rfl) (by simp)
    cases hv
    refine ⟨?_, hu⟩
    rintro rfl
    exact hne hu
  | upgrade | downgrade | drop | proceed | fail => simp [call] at h

theorem dropGuard (hp : s.tasks p = .guard g)
    (h : s.dropGuard p g = some s') : Inv s' := by
  cases g with
  | read | upgradable | write | revisionWrite =>
    cases h
    exact hI.giveUp hp rfl rfl rfl (fun _ => rfl) (by simp)
  | target =>
    obtain ⟨hfree, heq⟩ := ite_none_right_eq_some.mp h
    cases heq
    refine hI.releaseGateway ⟨by simp [LockTask.borrowed], fun _ => hfree⟩ rfl (fun r => ?_)
      (by simp)
    rw [hp]
    simp [mode, ResultGuard.mode, ResultGuard.revision]

theorem useGuard (hp : s.tasks p = .guard g)
    (h : s.useGuard p g e = some s') : Inv s' := by
  cases e with
  | upgrade =>
    cases g with
    | upgradable r =>
      cases h
      exact hI.giveUp hp rfl rfl rfl (fun _ => rfl) (by simp)
    | read | write | target | revisionWrite => simp [useGuard] at h
  | downgrade =>
    cases g with
    | write r =>
      cases h
      exact hI.giveUp hp rfl rfl rfl (fun _ => rfl) (by simp [eq_comm])
    | read | upgradable | target | revisionWrite => simp [useGuard] at h
  | drop => exact hI.dropGuard hp h
  | read | upgradableRead | write | tryRead | tryUpgradableRead | tryWrite | lockTarget
  | tryLockTarget | tryWriteRevision | writeRevision | proceed | fail =>
    simp [useGuard] at h

/-- A revision lock that is awaited is got: the guard is handed out. -/
theorem awaitRevision
    (h : s.awaitRevision p r m (.guard g) = some s') (hp : s.tasks p ≠ .guard .target)
    (hgateway : g.hasGateway = (s.tasks p).hasGateway)
    (hnone : ∀ r, (s.tasks p).mode r = none) (hg : g.revision = some r) (hm : g.lockMode = m)
    (hwrite : m = .exclusive → Leave s p) : Inv s' := by
  obtain ⟨hadm, heq⟩ := ite_none_right_eq_some.mp h
  cases heq
  exact hI.takeRevision hadm (.of_ne hp rfl) hgateway hnone (hm ▸ mode_guard hg) (by simp)
    hwrite

theorem awaitGateway (hp : s.tasks p ≠ .guard .target) (ht : t.borrowed = none)
    (hgateway : t.hasGateway = true) (hmode : ∀ r, t.mode r = (s.tasks p).mode r)
    (hhand : ∀ k r, t ≠ .transform k r) (h : s.awaitGateway p t = some s') : Inv s' := by
  obtain ⟨hadm, heq⟩ := ite_none_right_eq_some.mp h
  cases heq
  exact hI.takeGateway hadm (.of_ne hp ht) hgateway hmode hhand

theorem proceed (h : s.proceed p = some s') : Inv s' := by
  cases hp : s.tasks p with
  | read r =>
    simp only [ResultLock.proceed, hp] at h
    exact hI.awaitRevision h (by simp [hp]) (by rw [hp]; rfl) (by simp [hp, mode]) rfl rfl
      (by simp)
  | outer k r =>
    simp only [ResultLock.proceed, hp] at h
    exact hI.awaitGateway (by simp [hp]) rfl rfl (fun _ => by rw [hp]; rfl) (by simp) h
  | inner k r =>
    simp only [ResultLock.proceed, hp] at h
    exact hI.awaitRevision h (by simp [hp]) (by rw [hp]; cases k <;> rfl)
      (by simp [hp, mode]) (by cases k <;> rfl) (by cases k <;> rfl)
      (fun _ => .inl (by rw [hp]; rfl))
  | tryInner k r =>
    simp only [ResultLock.proceed, hp] at h
    cases h
    exact hI.tryRevision (by simp [hp]) ⟨rfl, rfl⟩ (by rw [hp]; cases k <;> exact ⟨rfl, rfl⟩)
      (by simp [hp, mode]) (by cases k <;> exact mode_guard rfl) (fun _ => rfl)
      (by simp)
      (fun _ => .inl (by rw [hp]; rfl))
  | transform k r =>
    simp only [ResultLock.proceed, hp] at h
    exact hI.awaitRevision h (by simp [hp]) (by rw [hp]; cases k <;> rfl)
      (by simp [hp, mode]) (by cases k <;> rfl) (by cases k <;> rfl)
      (fun _ => .inl (by rw [hp]; rfl))
  | target =>
    simp only [ResultLock.proceed, hp] at h
    refine hI.awaitGateway (by simp [hp]) rfl rfl (fun r => ?_) (by simp) h
    rw [hp]
    simp [mode, ResultGuard.mode, ResultGuard.revision]
  | revision u r =>
    simp only [ResultLock.proceed, hp] at h
    have hu : s.tasks u = .guard .target := hI.borrowed p u (by rw [hp]; rfl)
    exact hI.awaitRevision h (by simp [hp]) (by rw [hp]; rfl) (by simp [hp, mode]) rfl rfl
      (fun _ => .inr ⟨u, hu⟩)
  | releasing =>
    simp only [ResultLock.proceed, hp] at h
    cases h
    exact hI.releaseGateway (.of_ne (by simp [hp]) rfl) rfl (fun _ => by rw [hp]; rfl) (by simp)
  | idle | guard => simp [ResultLock.proceed, hp] at h

/-- **Every step keeps the invariant.** -/
theorem step {e : ι × LockEvent ι ρ} (h : s.step e = some s') : Inv s' := by
  rw [ResultLock.step] at h
  split at h
  · exact hI.proceed h
  · exact hI.fail h
  · split at h
    · next hp => exact hI.call hp h
    · next g hp => exact hI.useGuard hp h
    · simp at h

end Inv

/-! ### Runs -/

variable [DecidableEq ι] [Fintype ι] {es : List (ι × LockEvent ι ρ)}

theorem inv_run (h : (machine ι ρ).run es = some s) : Inv s :=
  Machine.run_invariant .inv_new (fun _ _ _ hI hs => hI.step hs) h

omit [DecidableEq ρ] [Fintype ι] in
/-- A call that fails is over. -/
theorem idle_of_fail (h : s.fail p = some s') : s'.tasks p = .idle := by
  have hgoto : (s.goto p .idle).tasks p = .idle := update_self ..
  have hrelease : (s.releaseGateway p .idle).tasks p = .idle := update_self ..
  cases hp : s.tasks p with
  | read | outer | target | revision =>
    simp only [fail, hp] at h
    exact some.inj h ▸ hgoto
  | inner | tryInner | transform =>
    simp only [fail, hp] at h
    exact some.inj h ▸ hrelease
  | releasing | idle | guard => simp [fail, hp] at h

/-- **The result lock keeps its promises**, in every run of any number of tasks:

* a guard that writes a revision excludes every other guard on the revision;
* at most one task has an upgradable guard, a write guard or a guard on the target;
* while a task has an upgradable guard on a revision, and while it is upgrading one or
  downgrading to one, no other task has a guard that writes the revision;
* a task whose call has come to nothing holds nothing, and so does one whose call has just
  failed or been cancelled. -/
theorem guards_exclude (h : (machine ι ρ).run es = some s) :
    (∀ p q r g g', p ≠ q → s.tasks p = .guard g → g = .write r ∨ g = .revisionWrite r →
      s.tasks q = .guard g' → g'.revision ≠ some r) ∧
    (∀ p q g g', s.tasks p = .guard g → s.tasks q = .guard g' → g.hasGateway = true →
      g'.hasGateway = true → p = q) ∧
    (∀ p q r, p ≠ q →
      s.tasks p = .guard (.upgradable r) ∨ (∃ k, s.tasks p = .transform k r) →
      s.tasks q ≠ .guard (.write r) ∧ s.tasks q ≠ .guard (.revisionWrite r)) ∧
    (∀ p, s.tasks p = .idle → s.gateway p = none ∧ ∀ r, s.revisions r p = none) ∧
    ∀ p s', s.step (p, .fail) = some s' →
      s'.tasks p = .idle ∧ s'.gateway p = none ∧ ∀ r, s'.revisions r p = none := by
  have hI := inv_run h
  refine ⟨?_, ?_, ?_, fun p hp => hI.free_of_idle hp, fun p s' hs => ?_⟩
  · intro p q r g g' hne hp hg hq hr
    have hshared := (hI.shared_of_guards hne hp hq (by rcases hg with rfl | rfl <;> rfl) hr).1
    rcases hg with rfl | rfl <;> exact noConfusion hshared
  · intro p q g g' hp hq hg hg'
    exact hI.eq_of_hasGateway (by rw [hp]; exact hg) (by rw [hq]; exact hg')
  · rintro p q r hne (hp | ⟨k, hp⟩)
    · refine ⟨fun hq => ?_, fun hq => ?_⟩
      · exact noConfusion (hI.shared_of_guards hne hp hq rfl rfl).2
      · exact noConfusion (hI.shared_of_guards hne hp hq rfl rfl).2
    · have hx := hI.handover p k r hp q hne.symm
      rw [hI.revisions] at hx
      refine ⟨fun hq => hx ?_, fun hq => hx ?_⟩
      · rw [hq]
        exact if_pos rfl
      · rw [hq]
        exact if_pos rfl
  · have hidle := idle_of_fail hs
    exact ⟨hidle, (hI.step hs).free_of_idle hidle⟩

/-- The first task builds a revision and downgrades; the second waits for the gateway and is
cancelled; the third deletes the other revision once the first has dropped its guard, and has
given the target back before. -/
def buildThenDelete : List (Fin 4 × LockEvent (Fin 4) Bool) :=
  [(0, .write true), (0, .proceed), (0, .proceed), (1, .upgradableRead true), (0, .downgrade),
    (1, .fail), (0, .proceed), (1, .read true), (1, .proceed), (0, .drop), (0, .proceed),
    (2, .tryLockTarget), (3, .tryWriteRevision 2 false), (2, .drop)]

theorem guards_exclude_buildThenDelete :
    ∃ s, (machine (Fin 4) Bool).run buildThenDelete = some s ∧
      s.tasks 1 = .guard (.read true) ∧ s.tasks 3 = .guard (.revisionWrite false) ∧
      (∀ q g, 3 ≠ q → s.tasks q = .guard g → g.revision ≠ some false) ∧ s.gateway 2 = none := by
  have hrun : ((machine (Fin 4) Bool).run buildThenDelete).map
      (fun s => (s.tasks 1, s.tasks 2, s.tasks 3)) =
        some (.guard (.read true), .idle, .guard (.revisionWrite false)) := by
    decide
  obtain ⟨s, hs, hend⟩ := map_eq_some_iff.mp hrun
  simp only [Prod.mk.injEq] at hend
  obtain ⟨h₁, h₂, h₃⟩ := hend
  obtain ⟨hwrite, -, -, hidle, -⟩ := guards_exclude hs
  exact ⟨s, hs, h₁, h₃, fun q g hne hq => hwrite 3 q false _ g hne h₃ (.inr rfl) hq, (hidle 2 h₂).1⟩

/-! ### What a client of the lock may assume -/

end ResultLock

/-- Two guards of different tasks get along: they do not both keep the target from others, and
if they are on one revision both of them only read it. -/
def ResultGuard.Compatible (g g' : ResultGuard ρ) : Prop :=
  ¬ (g.hasGateway = true ∧ g'.hasGateway = true) ∧
    (g.revision.isSome = true → g.revision = g'.revision → g.lockMode.Compatible g'.lockMode)

instance (g g' : ResultGuard ρ) : Decidable (g.Compatible g') := inferInstanceAs (Decidable (_ ∧ _))

omit [DecidableEq ρ] in
theorem ResultGuard.Compatible.symm {g g' : ResultGuard ρ} (h : g.Compatible g') :
    g'.Compatible g := by
  refine ⟨fun hg => h.1 hg.symm, fun hsome heq => ?_⟩
  exact LockMode.Compatible.symm _ _ (h.2 (heq ▸ hsome) heq.symm)

namespace ResultLock

variable [DecidableEq ι] [Fintype ι]

/-- **The guards of a run are compatible**, whichever two tasks have them. -/
theorem compatible_of_run {es : List (ι × LockEvent ι ρ)} {s : ResultLock ι ρ} {p q : ι}
    {g g' : ResultGuard ρ} (h : (machine ι ρ).run es = some s) (hne : p ≠ q)
    (hp : s.tasks p = .guard g) (hq : s.tasks q = .guard g') : g.Compatible g' := by
  have hI := inv_run h
  refine ⟨fun ⟨hg, hg'⟩ => hne ?_, fun hsome heq => ?_⟩
  · exact hI.eq_of_hasGateway (by rw [hp]; exact hg) (by rw [hq]; exact hg')
  · obtain ⟨r, hr⟩ := isSome_iff_exists.mp hsome
    exact hI.shared_of_guards hne hp hq hr (heq ▸ hr)

end ResultLock

end Heph
