import Heph.Lock.Exclusion

/-!
# What an acquire of the file lock leaves behind

An acquire that returns an error leaves its file as it is. If the file could not be opened there is
none. **If `flock`, `fstat` or `stat` fails, the file stays open**, without a guard that would close
it, and in the last two cases with the lock that was taken through it (`failed_stat_keeps_lock`).
Nothing else leaves a file behind (`keeps_nothing_iff`).
-/

namespace Heph.Lock

open Function Option Machine Disk

variable {ι ν : Type} {d d' : Disk ι ν} {p : ι} {c c' : Process} {clean : Prop} {isOpen : Bool}

namespace Process

/-- A call has returned, and no guard is out. -/
def Free (c : Process) : Prop := c.pc = .idle ∧ c.fd.readers = 0 ∧ c.fd.writer = false
  deriving Decidable

/-- An acquire has its file open. -/
def Opened (c : Process) : Prop :=
  match c.pc with
  | .locking _ _ | .fstat _ _ | .stat _ _ => True
  | _ => False

/-- **Whether the file is open between two system calls**: it is once an acquire has opened it. If
the run has been clean, it is not where an acquire is about to open it, and where no guard is
out. -/
def Tidy (clean : Prop) (isOpen : Bool) (c : Process) : Prop :=
  match c.pc with
  | .idle => clean → c.fd.readers = 0 → c.fd.writer = false → isOpen = false
  | .opening _ _ => clean → isOpen = false
  | .locking _ _ | .fstat _ _ | .stat _ _ => isOpen = true
  | .unlinking | .unlocking _ | .closing _ => True

/-! ### Going on -/

theorem tidy_resume (h : clean → isOpen = false) (after : After) :
    (c.resume after).Tidy clean isOpen := by
  rcases after with ⟨op, _ | left⟩ | _ | _
  · exact fun hc _ _ => h hc
  · exact h
  · exact fun hc _ _ => h hc
  · exact fun hc _ _ => h hc

theorem tidy_discardFd (after : After) : (c.discardFd isOpen after).Tidy clean isOpen := by
  rw [discardFd]
  split
  · trivial
  · next h => exact tidy_resume (fun _ => by simpa using h) after

theorem tidy_maybeClose : (c.maybeClose isOpen).Tidy clean isOpen := by
  rw [maybeClose]
  split
  · exact tidy_discardFd _
  · next h => exact fun _ hr hw => absurd ⟨hr, hw⟩ h

theorem tidy_acquired (op : LockMode) : (c.acquired op).Tidy clean isOpen := by
  cases op with
  | shared => exact fun _ hr _ => absurd hr one_ne_zero
  | exclusive => exact fun _ _ hw => absurd hw Bool.true_eq_false_eq_False

theorem tidy_releaseWrite : (c.releaseWrite isOpen).Tidy clean isOpen := by
  rw [releaseWrite]
  split
  · trivial
  · exact tidy_maybeClose

theorem Tidy.mono {weaker : Prop} (h : c.Tidy clean isOpen) (hle : weaker → clean) :
    c.Tidy weaker isOpen := by
  rw [Tidy] at h ⊢
  split at h
  · exact fun hc => h (hle hc)
  · exact fun hc => h (hle hc)
  all_goals exact h

section Calls

variable (h : c.Tidy clean isOpen) (hpc : c.pc = .idle)

include h hpc

/-- A call that begins finds no file, if no guard is out. -/
theorem Tidy.tryLockFresh (hr : c.fd.readers = 0) (hw : c.fd.writer = false) (op : LockMode)
    (left : ℕ) : (c.tryLockFresh op left).Tidy clean isOpen := by
  rw [Tidy, hpc] at h
  exact tidy_resume (fun hc => h hc hr hw) (.retry op left)

theorem Tidy.tryAcquireRead : c.tryAcquireRead.Tidy clean isOpen := by
  rw [Process.tryAcquireRead]
  split
  · next hw => exact fun _ _ hw' => absurd (hw.symm.trans hw') Bool.true_eq_false_eq_False
  · next hw =>
    split
    · exact fun _ hr _ => absurd hr (Nat.succ_ne_zero _)
    · next hr => exact h.tryLockFresh hpc (Nat.eq_zero_of_not_pos hr) (by simpa using hw) _ _

theorem Tidy.tryAcquireWrite : c.tryAcquireWrite.Tidy clean isOpen := by
  rw [Process.tryAcquireWrite]
  split
  · next hn =>
    intro _ hr hw
    rcases hn with hn | hn
    · exact absurd (hn.symm.trans hw) Bool.true_eq_false_eq_False
    · exact absurd hr hn.ne'
  · next hn =>
    obtain ⟨hw, hr⟩ := not_or.mp hn
    exact h.tryLockFresh hpc (Nat.eq_zero_of_not_pos hr) (by simpa using hw) _ _

end Calls

end Process

/-! ### One step -/

open Process

theorem tidy_fail (hfail : clean → ¬c.Opened) (hs : fail isOpen c = some c') :
    c'.Tidy clean isOpen := by
  rw [fail] at hs
  split at hs
  · cases hs
  · obtain ⟨hclosed, rfl⟩ : isOpen = false ∧ c.ret (.error .opening) = c' := by simpa using hs
    exact fun _ _ _ => hclosed
  all_goals cases hs
  · next hpc => exact fun hc => absurd (by rw [Opened, hpc]; trivial) (hfail hc)
  · next hpc => exact fun hc => absurd (by rw [Opened, hpc]; trivial) (hfail hc)
  · next hpc => exact fun hc => absurd (by rw [Opened, hpc]; trivial) (hfail hc)
  · exact tidy_maybeClose
  · trivial

variable [DecidableEq ι] [DecidableEq ν] [Fintype ι] {e : Event ν} {entry : Option ν}
  {es : List (ι × Event ν)} {s : Disk ι ν × (ι → Process)}

theorem isSome_openCreate {fresh : ν} (h : d.openCreate p fresh = some d') :
    (d'.files p).isSome = true := by
  rw [openCreate] at h
  split at h
  · cases h
    simp [setFile]
  · obtain ⟨-, heq⟩ := ite_none_right_eq_some.mp h
    cases heq
    simp [setFile]

theorem tidy_proceed {fresh : ν} (hs : proceed p d c fresh = some (d', c')) :
    c'.Tidy clean (d'.files p).isSome := by
  rw [proceed] at hs
  split at hs
  · cases hs
  · split at hs
    · next hopen =>
      cases hs
      exact hopen
    · obtain ⟨d₁, hcreate, heq⟩ := map_eq_some_iff.mp hs
      cases heq
      exact isSome_openCreate hcreate
  all_goals cases hs
  · split
    · next hgot =>
      obtain ⟨i, hi⟩ := holds_tryLock hgot
      exact congrArg isSome hi
    · trivial
  · split
    · next hopen => exact hopen
    · next hopen => exact fun _ _ _ => by simpa using hopen
  · split
    · exact tidy_acquired _
    · exact tidy_discardFd _
  · exact tidy_maybeClose
  · trivial
  · exact tidy_resume (fun _ => by simp [close, setFile]) _

/-- **A step leaves no file behind**, unless it fails with one open. -/
theorem Process.Tidy.step (h : c.Tidy clean (d.files p).isSome)
    (hfail : clean → e = .fail → ¬c.Opened) (hs : step p d c e = some (d', c')) :
    c'.Tidy clean (d'.files p).isSome := by
  cases e with
  | tryAcquireRead =>
    obtain ⟨hpc, heq⟩ := ite_none_right_eq_some.mp hs
    cases heq
    exact h.tryAcquireRead hpc
  | tryAcquireWrite =>
    obtain ⟨hpc, heq⟩ := ite_none_right_eq_some.mp hs
    cases heq
    exact h.tryAcquireWrite hpc
  | releaseRead =>
    obtain ⟨-, heq⟩ := ite_none_right_eq_some.mp hs
    cases heq
    exact tidy_maybeClose
  | releaseWrite =>
    obtain ⟨-, heq⟩ := ite_none_right_eq_some.mp hs
    cases heq
    exact tidy_releaseWrite
  | proceed fresh => exact tidy_proceed hs
  | fail =>
    obtain ⟨c₁, hc₁, heq⟩ := map_eq_some_iff.mp hs
    cases heq
    exact tidy_fail (fun hc => hfail hc rfl) hc₁
  | kill =>
    cases hs
    exact fun _ _ _ => by simp [close, setFile]

/-! ### Runs -/

/-- No system call of the process fails while an acquire has its file open. -/
def FailsClosed (p : ι) (s : Disk ι ν × (ι → Process)) (e : ι × Event ν) : Prop :=
  e = (p, .fail) → ¬(s.2 p).Opened

theorem tidy_run (h : (flock ι entry).machine.run es = some s) :
    (s.2 p).Tidy ((flock ι entry).machine.Meets (FailsClosed p) (flock ι entry).machine.init es)
      (s.1.files p).isSome := by
  refine run_history (P := fun es s => (s.2 p).Tidy
    ((flock ι entry).machine.Meets (FailsClosed p) (flock ι entry).machine.init es)
    (s.1.files p).isSome) (fun _ _ _ => rfl) ?_ h
  rintro es s ⟨q, e⟩ s' hrun ih hstep
  have ih := ih.mono fun h : Machine.Meets _ _ _ (es ++ [(q, e)]) => h.of_append
  obtain ⟨⟨d', c'⟩, hs, rfl⟩ := map_eq_some_iff.mp hstep
  rcases eq_or_ne p q with rfl | hne
  · simpa using ih.step (fun hC he => hC.last hrun (congrArg (Prod.mk p) he)) hs
  · -- the file of a process is its own
    have hfiles := (polite_step ((sound_run hrun).2 q) hs).1.files p hne
    simpa [update_of_ne hne, hfiles] using ih

/-- **Nothing is kept without a guard**: in a run of any processes, whenever a call of a process has
returned and it has no guards, it has no file open and no lock – exactly if none of its system calls
fails while an acquire has the file open. -/
theorem keeps_nothing_iff (entry : Option ν) (p : ι) (es : List (ι × Event ν)) :
    (∀ es₁ s, es₁ <+: es → (flock ι entry).machine.run es₁ = some s → (s.2 p).Free →
      s.1.files p = none) ↔
      (flock ι entry).machine.Meets (FailsClosed p) (flock ι entry).machine.init es := by
  constructor
  · refine fun h => meets_of_prefixes fun es₁ e es₂ t heq ht he hopened => ?_
    subst he
    -- the call returns, and leaves the file as it is
    have htidy := tidy_run (p := p) ht
    obtain ⟨err, hne, hopen, hfail⟩ : ∃ err, (t.2 p).pc ≠ .idle ∧ (t.1.files p).isSome = true ∧
        fail (t.1.files p).isSome (t.2 p) = some ((t.2 p).ret (.error err)) := by
      rw [Opened] at hopened
      rw [Process.Tidy] at htidy
      rw [fail]
      split at hopened
      · next hpc => exact ⟨.flock, by simp [hpc], by simpa [hpc] using htidy, by rw [hpc]⟩
      · next hpc => exact ⟨.fstat, by simp [hpc], by simpa [hpc] using htidy, by rw [hpc]⟩
      · next hpc => exact ⟨.stat, by simp [hpc], by simpa [hpc] using htidy, by rw [hpc]⟩
      · exact hopened.elim
    have hclear := ((sound_run ht).2 p).clear hne
    have hnone := h (es₁ ++ [(p, .fail)]) (t.1, update t.2 p ((t.2 p).ret (.error err)))
      ⟨es₂, by rw [heq, List.append_assoc]; rfl⟩ (run_append.mpr ⟨t, ht, ?_⟩)
      (by simpa using ⟨rfl, hclear.readers, hclear.writer⟩)
    · simp [show t.1.files p = none from hnone] at hopen
    · simp [runFrom, Parties.machine, flock, step, hfail]
  · rintro hC es₁ s ⟨es₂, rfl⟩ hrun ⟨hpc, hr, hw⟩
    have htidy := tidy_run (p := p) hrun
    rw [Process.Tidy, hpc] at htidy
    simpa using htidy hC.of_append hr hw

/-- **A `stat` that fails after the lock was taken**: the call has returned, there is no guard, and
the exclusive lock is held. -/
theorem failed_stat_keeps_lock :
    ((flock Unit (none : Option ℕ)).machine.run [((), .tryAcquireWrite), ((), .proceed 0),
      ((), .proceed 0), ((), .proceed 0), ((), .fail)]).map
        (fun s => (decide (s.2 ()).Free, s.1.files ())) =
      some (true, some ⟨0, some .exclusive⟩) := by
  decide

end Heph.Lock
