import Heph.Lock.FLock

/-!
# The file lock excludes

What a process relies on at each point is a lock that it has on an inode
(`Lock.Process.Relies`): on **some** inode between `flock` and the comparison, and on
the inode that the **path names** from there on – while it has guards, and up to the removal
of the file when it gives the exclusive lock back. In return its own steps are polite
(`Lock.polite_step`): the one step that takes the name away from an inode is that
removal, and it is made under the exclusive lock on that very inode. So nobody's steps break
what another process relies on, in whatever order they are made.
-/

namespace Heph.Lock

open Option Nat Process Disk

variable {ι ν : Type} {d d' : Disk ι ν} {p q : ι} {c c' : Process}

/-! ### Guards and counters -/

/-- No guard is out, and the counters say so. -/
structure Process.Clear (c : Process) : Prop where
  readers : c.fd.readers = 0
  writer : c.fd.writer = false
  readGuards : c.readGuards = 0
  writeGuards : c.writeGuards = 0

/-- The counters count the guards, and there is one guard that writes or any number that
read. During a call that is past its first system call there is none. -/
structure Process.Counted (c : Process) : Prop where
  readers : c.fd.readers = c.readGuards
  writer : c.writeGuards = if c.fd.writer then 1 else 0
  alone : 0 < c.writeGuards → c.readGuards = 0
  calling : c.pc ≠ .idle → c.Clear

/-- **What a process relies on.** -/
def Process.Relies (d : Disk ι ν) (p : ι) (c : Process) : Prop :=
  match c.pc with
  | .idle =>
    (0 < c.readGuards → d.Owns p .shared) ∧ (0 < c.writeGuards → d.Owns p .exclusive)
  | .fstat op _ | .stat op _ => ∃ i, d.Holds p i op
  | .unlinking => d.Owns p .exclusive
  | .opening _ _ | .locking _ _ | .unlocking _ | .closing _ => True

/-- A process is in order. -/
structure Sound (p : ι) (d : Disk ι ν) (c : Process) : Prop where
  counted : c.Counted
  relies : c.Relies d p

namespace Process

theorem Clear.counted (h : c.Clear) : c.Counted where
  readers := h.readers.trans h.readGuards.symm
  writer := by rw [h.writer, h.writeGuards]; rfl
  alone _ := h.readGuards
  calling _ := h

/-- The counters are those of a process without guards once they are zero. -/
theorem Counted.clear (h : c.Counted) (hr : c.fd.readers = 0) (hw : c.fd.writer = false) :
    c.Clear where
  readers := hr
  writer := hw
  readGuards := h.readers.symm.trans hr
  writeGuards := by rw [h.writer, hw]; rfl

/-- What the counters say does not depend on the point, as long as no guard is out. -/
theorem Clear.setPc (h : c.Clear) (pc : Pc) : { c with pc }.Clear :=
  ⟨h.readers, h.writer, h.readGuards, h.writeGuards⟩

theorem clear_new : new.Clear := ⟨rfl, rfl, rfl, rfl⟩

/-- A process at rest without guards relies on nothing. -/
theorem Clear.relies (h : c.Clear) (hpc : c.pc = .idle) : c.Relies d p := by
  rw [Relies, hpc]
  exact ⟨fun hr => absurd h.readGuards hr.ne', fun hw => absurd h.writeGuards hw.ne'⟩

end Process

/-- A process that is about to open, to lock, to unlock or to close, without guards. -/
theorem Process.Clear.sound (h : c.Clear) (hrel : c.Relies d p) : Sound p d c :=
  ⟨h.counted, hrel⟩

/-- What a process at rest relies on: its guards. -/
theorem Sound.idle (h : Sound p d c) (hpc : c.pc = .idle) :
    (0 < c.readGuards → d.Owns p .shared) ∧ (0 < c.writeGuards → d.Owns p .exclusive) := by
  have hrel := h.relies
  rw [Relies, hpc] at hrel
  exact hrel

/-- Past the first system call of an acquire or of a release no guard is out. -/
theorem Sound.clear (h : Sound p d c) (hpc : c.pc ≠ .idle) : c.Clear := h.counted.calling hpc

/-! ### Going on -/

section

variable (h : c.Clear)

include h

theorem sound_ret (r : Except LockError Bool) : Sound p d (c.ret r) :=
  have hc : (c.ret r).Clear := ⟨h.readers, h.writer, h.readGuards, h.writeGuards⟩
  hc.sound (hc.relies rfl)

theorem sound_tryLockFresh (op : LockMode) (left : ℕ) :
    Sound p d (c.tryLockFresh op left) := by
  cases left with
  | zero =>
    have hwarned : { c with fd.staleWarned := true }.Clear :=
      ⟨h.readers, h.writer, h.readGuards, h.writeGuards⟩
    exact sound_ret hwarned _
  | succ left => exact (h.setPc (.opening op left)).sound trivial

theorem sound_resume (after : After) : Sound p d (c.resume after) := by
  cases after with
  | retry op left => exact sound_tryLockFresh h op left
  | busy => exact sound_ret h _
  | released => exact (h.setPc .idle).sound ((h.setPc .idle).relies rfl)

theorem sound_discardFd (isOpen : Bool) (after : After) :
    Sound p d (c.discardFd isOpen after) := by
  rw [discardFd]
  split
  · exact (h.setPc (.unlocking after)).sound trivial
  · exact sound_resume h after

theorem sound_maybeClose (isOpen : Bool) : Sound p d (c.maybeClose isOpen) := by
  rw [maybeClose, if_pos ⟨h.readers, h.writer⟩]
  exact sound_discardFd h isOpen .released

end

/-! ### The calls -/

/-- A call that returns without a change: the guards are as before. -/
theorem Sound.ret (h : Sound p d c) (hpc : c.pc = .idle) (r : Except LockError Bool) :
    Sound p d (c.ret r) := by
  exact ⟨⟨h.counted.readers, h.counted.writer, h.counted.alone, fun hne => absurd rfl hne⟩,
    h.idle hpc⟩

theorem sound_tryAcquireRead (h : Sound p d c) (hpc : c.pc = .idle) :
    Sound p d c.tryAcquireRead := by
  rw [tryAcquireRead]
  split
  · exact h.ret hpc _
  · next hw =>
    have hw : c.fd.writer = false := by simpa using hw
    split
    · next hr =>
      -- one more reader on the lock that is there
      have hnone : c.writeGuards = 0 := by rw [h.counted.writer, hw]; rfl
      refine ⟨⟨congrArg (· + 1) h.counted.readers, h.counted.writer,
        fun hpos => absurd hnone hpos.ne', fun hne => absurd rfl hne⟩, ?_⟩
      exact ⟨fun _ => (h.idle hpc).1 (h.counted.readers ▸ hr), (h.idle hpc).2⟩
    · next hr =>
      exact sound_tryLockFresh (h.counted.clear (Nat.eq_zero_of_not_pos hr) hw) _ _

theorem sound_tryAcquireWrite (h : Sound p d c) (hpc : c.pc = .idle) :
    Sound p d c.tryAcquireWrite := by
  rw [tryAcquireWrite]
  split
  · exact h.ret hpc _
  · next hn =>
    obtain ⟨hw, hr⟩ := not_or.mp hn
    exact sound_tryLockFresh
      (h.counted.clear (Nat.eq_zero_of_not_pos hr) (by simpa using hw)) _ _

/-- The lock is on the inode that the path names: the guard may be handed out. -/
theorem sound_acquired (h : c.Clear) {op : LockMode} (hown : d.Owns p op) :
    Sound p d (c.acquired op) := by
  cases op with
  | shared =>
    refine ⟨⟨?_, ?_, ?_, fun hne => absurd rfl hne⟩, fun _ => hown, ?_⟩
    · show 1 = c.readGuards + 1
      rw [h.readGuards]
    · show c.writeGuards = if c.fd.writer then 1 else 0
      rw [h.writer, h.writeGuards]
      rfl
    · exact fun hpos => absurd h.writeGuards (pos_iff_ne_zero.mp hpos)
    · exact fun hpos => absurd h.writeGuards (pos_iff_ne_zero.mp hpos)
  | exclusive =>
    refine ⟨⟨?_, ?_, ?_, fun hne => absurd rfl hne⟩, ?_, fun _ => hown⟩
    · exact h.readers.trans h.readGuards.symm
    · show c.writeGuards + 1 = 1
      rw [h.writeGuards]
    · exact fun _ => h.readGuards
    · exact fun hpos => absurd h.readGuards (pos_iff_ne_zero.mp hpos)

theorem sound_releaseRead (h : Sound p d c) (hpc : c.pc = .idle) (hpos : 0 < c.readGuards)
    (isOpen : Bool) : Sound p d (c.releaseRead isOpen) := by
  have hnone : c.writeGuards = 0 := by
    by_contra hw
    exact absurd (h.counted.alone (pos_of_ne_zero hw)) hpos.ne'
  have hw : c.fd.writer = false := by
    by_contra hw
    simp [h.counted.writer, hw] at hnone
  rw [releaseRead, maybeClose]
  split
  · next hz =>
    -- the last reader
    have hg : c.readGuards - 1 = 0 := h.counted.readers ▸ hz.1
    exact sound_discardFd ⟨hz.1, hw, hg, hnone⟩ isOpen .released
  · refine ⟨⟨congrArg (· - 1) h.counted.readers, h.counted.writer,
      fun hp => absurd hnone (pos_iff_ne_zero.mp hp), fun hne => absurd rfl hne⟩, ?_, ?_⟩
    · exact fun _ => (h.idle hpc).1 hpos
    · exact fun hp => absurd hnone (pos_iff_ne_zero.mp hp)

theorem sound_releaseWrite (h : Sound p d c) (hpc : c.pc = .idle) (hpos : 0 < c.writeGuards)
    (isOpen : Bool) : Sound p d (c.releaseWrite isOpen) := by
  have hzero : c.readGuards = 0 := h.counted.alone hpos
  have hone : c.writeGuards - 1 = 0 := by
    have := h.counted.writer
    split at this <;> omega
  have hclear : { c with fd.writer := false, writeGuards := c.writeGuards - 1 }.Clear :=
    ⟨h.counted.readers.trans hzero, rfl, hzero, hone⟩
  rw [releaseWrite]
  split
  · exact (hclear.setPc .unlinking).sound ((h.idle hpc).2 hpos)
  · exact sound_maybeClose hclear isOpen

/-! ### One step -/

section Steps

/-- A process is in order after a system call that failed. -/
theorem sound_fail {isOpen : Bool} (h : Sound p d c) (hs : fail isOpen c = some c') :
    Sound p d c' := by
  cases hpc : c.pc with
  | idle | closing => simp [fail, hpc] at hs
  | opening op left =>
    simp only [fail, hpc] at hs
    obtain ⟨-, heq⟩ := ite_none_left_eq_some.mp hs
    cases heq
    exact sound_ret (h.clear (by simp [hpc])) _
  | unlinking =>
    simp only [fail, hpc] at hs
    cases hs
    exact sound_maybeClose (h.clear (by simp [hpc])) _
  | unlocking after =>
    simp only [fail, hpc] at hs
    cases hs
    exact ((h.clear (by simp [hpc])).setPc (.closing after)).sound trivial
  | locking op left | fstat op left | stat op left =>
    simp only [fail, hpc] at hs
    cases hs
    exact sound_ret (h.clear (by simp [hpc])) _

/-- **A polite step of one process does not break what another relies on.** -/
theorem Sound.of_polite (h : Sound q d c) (hp : d.Polite p d') (hd : d.Excluding) (hq : q ≠ p) :
    Sound q d' c := by
  refine ⟨h.counted, ?_⟩
  have hrel := h.relies
  rw [Relies] at hrel ⊢
  split at hrel
  · exact ⟨fun hr => hp.owns hd hq (hrel.1 hr), fun hw => hp.owns hd hq (hrel.2 hw)⟩
  · exact hrel.imp fun i hi => (hp.holds hq).mpr hi
  · exact hrel.imp fun i hi => (hp.holds hq).mpr hi
  · exact hp.owns hd hq hrel
  all_goals trivial

variable [DecidableEq ι] [DecidableEq ν] [Fintype ι]

/-- The next system call is polite, and the process is in order after it. -/
theorem sound_proceed {fresh : ν} (h : Sound p d c) (hs : proceed p d c fresh = some (d', c')) :
    d.Polite p d' ∧ Sound p d' c' := by
  have hrel := h.relies
  cases hpc : c.pc with
  | idle => simp [proceed, hpc] at hs
  | opening op left =>
    have hlocking := (h.clear (by simp [hpc])).setPc (.locking op left)
    simp only [proceed, hpc] at hs
    split at hs
    · cases hs
      exact ⟨.refl p d, hlocking.sound trivial⟩
    · obtain ⟨d₁, hopen, heq⟩ := map_eq_some_iff.mp hs
      cases heq
      exact ⟨polite_openCreate hopen, hlocking.sound trivial⟩
  | locking op left =>
    have hc := h.clear (by simp [hpc])
    simp only [proceed, hpc] at hs
    cases hs
    refine ⟨polite_tryLock, ?_⟩
    split
    · next hgot => exact (hc.setPc (.fstat op left)).sound (holds_tryLock hgot)
    · exact (hc.setPc (.closing .busy)).sound trivial
  | fstat op left =>
    have hc := h.clear (by simp [hpc])
    simp only [Relies, hpc] at hrel
    simp only [proceed, hpc] at hs
    cases hs
    refine ⟨.refl p d, ?_⟩
    split
    · exact (hc.setPc (.stat op left)).sound hrel
    · exact sound_ret hc _
  | stat op left =>
    have hc := h.clear (by simp [hpc])
    simp only [Relies, hpc] at hrel
    simp only [proceed, hpc] at hs
    cases hs
    refine ⟨.refl p d, ?_⟩
    split
    · next hnamed =>
      -- the inode that was locked is the one that the path names
      obtain ⟨i, hi⟩ := hrel
      obtain ⟨f, hf, hentry⟩ := hnamed
      obtain rfl : f = ⟨i, some op⟩ := some.inj (hf.symm.trans hi)
      exact sound_acquired hc ⟨i, hi, hentry⟩
    · exact sound_discardFd hc _ _
  | unlinking =>
    have hc := h.clear (by simp [hpc])
    simp only [Relies, hpc] at hrel
    simp only [proceed, hpc] at hs
    cases hs
    exact ⟨polite_unlink hrel, sound_maybeClose hc _⟩
  | unlocking after =>
    have hc := h.clear (by simp [hpc])
    simp only [proceed, hpc] at hs
    cases hs
    exact ⟨polite_unlock, (hc.setPc (.closing after)).sound trivial⟩
  | closing after =>
    have hc := h.clear (by simp [hpc])
    simp only [proceed, hpc] at hs
    cases hs
    exact ⟨polite_close, sound_resume hc after⟩

/-- **Every step is polite**, and the process that takes it is in order after it. -/
theorem polite_step {e : Event ν} (h : Sound p d c) (hs : step p d c e = some (d', c')) :
    d.Polite p d' ∧ Sound p d' c' := by
  cases e with
  | tryAcquireRead =>
    obtain ⟨hpc, heq⟩ := ite_none_right_eq_some.mp hs
    cases heq
    exact ⟨.refl p d, sound_tryAcquireRead h hpc⟩
  | tryAcquireWrite =>
    obtain ⟨hpc, heq⟩ := ite_none_right_eq_some.mp hs
    cases heq
    exact ⟨.refl p d, sound_tryAcquireWrite h hpc⟩
  | releaseRead =>
    obtain ⟨⟨hpc, hpos⟩, heq⟩ := ite_none_right_eq_some.mp hs
    cases heq
    exact ⟨.refl p d, sound_releaseRead h hpc hpos _⟩
  | releaseWrite =>
    obtain ⟨⟨hpc, hpos⟩, heq⟩ := ite_none_right_eq_some.mp hs
    cases heq
    exact ⟨.refl p d, sound_releaseWrite h hpc hpos _⟩
  | proceed fresh => exact sound_proceed h hs
  | fail =>
    obtain ⟨c₁, hfail, heq⟩ := map_eq_some_iff.mp hs
    cases heq
    exact ⟨.refl p d, sound_fail h hfail⟩
  | kill =>
    cases hs
    exact ⟨polite_close, clear_new.sound (clear_new.relies rfl)⟩

end Steps

/-! ### Runs -/

section Runs

variable [DecidableEq ι] [DecidableEq ν] [Fintype ι] {entry : Option ν}
  {es : List (ι × Event ν)} {s : Disk ι ν × (ι → Process)}

/-- After every run the locks on an inode exclude each other, and every process is in
order. -/
theorem sound_run (h : (flock ι entry).machine.run es = some s) :
    s.1.Excluding ∧ ∀ p, Sound p s.1 (s.2 p) := by
  refine Parties.run_invariant ?_ ?_ ?_ ?_ h
  · intro p q i m m' _ hp
    simp [Holds, flock] at hp
  · exact fun p => clear_new.sound (clear_new.relies rfl)
  · intro p d c e d' c' hd hc hs
    obtain ⟨hpol, hc'⟩ := polite_step hc hs
    exact ⟨hpol.excluding hd, hc'⟩
  · intro p d c e d' c' hd hc hs q hq k hk
    exact hk.of_polite (polite_step hc hs).1 hd hq

/-- The mode of a process that has guards. -/
def Process.mode (c : Process) : LockMode := if 0 < c.writeGuards then .exclusive else .shared

omit [DecidableEq ι] [DecidableEq ν] [Fintype ι] in
/-- A process with guards has the lock, in the mode of its guards, on the inode that the path
names. -/
theorem Sound.owns (h : Sound p d c) (hg : 0 < c.readGuards + c.writeGuards) :
    d.Owns p c.mode := by
  have hpc : c.pc = .idle := by
    by_contra hpc
    have hc := h.clear hpc
    rw [hc.readGuards, hc.writeGuards] at hg
    exact absurd hg (lt_irrefl 0)
  rw [mode]
  split
  · next hw => exact (h.idle hpc).2 hw
  · next hw => exact (h.idle hpc).1 (by omega)

/-- **The file lock excludes, across any number of processes and in every interleaving of
their system calls.** A process that has an exclusive guard has no other guard, and no other
process has any; and the path names the inode that a process with guards has locked – in the
mode of its guards – as long as it has them, and afterwards until it has itself removed the
file. -/
theorem flock_excludes (h : (flock ι entry).machine.run es = some s) :
    (∀ p, 0 < (s.2 p).writeGuards →
      (s.2 p).writeGuards = 1 ∧ (s.2 p).readGuards = 0 ∧
        ∀ q ≠ p, (s.2 q).writeGuards = 0 ∧ (s.2 q).readGuards = 0) ∧
      (∀ p, 0 < (s.2 p).readGuards + (s.2 p).writeGuards →
        ∃ i, s.1.files p = some ⟨i, some (s.2 p).mode⟩ ∧ s.1.entry = some i) ∧
      ∀ p, (s.2 p).pc = .unlinking →
        ∃ i, s.1.files p = some ⟨i, some .exclusive⟩ ∧ s.1.entry = some i := by
  obtain ⟨hd, hs⟩ := sound_run h
  refine ⟨fun p hp => ?_, fun p hp => (hs p).owns hp, fun p hp => ?_⟩
  · have hone := (hs p).counted.writer
    refine ⟨by split at hone <;> omega, (hs p).counted.alone hp, fun q hq => ?_⟩
    -- two processes with guards own the file both, so that both are readers
    by_contra hne
    have hpown := (hs p).owns (by omega)
    have hqown := (hs q).owns (by omega)
    have hmode := (hd.owns hq.symm hpown hqown).1
    rw [mode, if_pos hp] at hmode
    exact LockMode.noConfusion hmode
  · have hrel := (hs p).relies
    rw [Relies, hp] at hrel
    exact hrel

end Runs

/-! ### The race -/

/-- The first process has the exclusive lock while the second opens the file. The first
removes the file and unlocks; the second gets its lock, on a file that is gone, while the
third creates another one and locks it. -/
def race : List (Fin 3 × Event ℕ) :=
  -- the first acquires
  [(0, .tryAcquireWrite), (0, .proceed 7), (0, .proceed 0), (0, .proceed 0), (0, .proceed 0),
    -- the second opens the file, and the first removes it and unlocks
    (1, .tryAcquireWrite), (1, .proceed 0), (0, .releaseWrite), (0, .proceed 0),
    (0, .proceed 0),
    -- the second locks the inode that is gone; the third acquires on a new one
    (1, .proceed 0), (2, .tryAcquireWrite), (2, .proceed 8), (2, .proceed 0), (2, .proceed 0),
    (2, .proceed 0),
    -- the second sees that its inode is not the one that the path names
    (1, .proceed 0), (1, .proceed 0)]

theorem flock_excludes_race :
    ∃ s, (flock (Fin 3) none).machine.run race = some s ∧
      s.1.files 1 = some ⟨7, some .exclusive⟩ ∧ s.1.files 2 = some ⟨8, some .exclusive⟩ ∧
      (s.2 2).writeGuards = 1 ∧ ∀ q ≠ 2, (s.2 q).writeGuards = 0 ∧ (s.2 q).readGuards = 0 := by
  have hrun : ((flock (Fin 3) none).machine.run race).map
      (fun s => (s.1.files 1, s.1.files 2, (s.2 2).writeGuards)) =
        some (some ⟨7, some .exclusive⟩, some ⟨8, some .exclusive⟩, 1) := by
    decide
  obtain ⟨s, hs, hend⟩ := map_eq_some_iff.mp hrun
  simp only [Prod.mk.injEq] at hend
  obtain ⟨h₁, h₂, hw⟩ := hend
  exact ⟨s, hs, h₁, h₂, hw, ((flock_excludes hs).1 2 (hw ▸ one_pos)).2.2⟩

end Heph.Lock
