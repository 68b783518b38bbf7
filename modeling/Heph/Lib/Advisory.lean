import Mathlib

/-!
# Advisory locks on a file that comes and goes

An advisory lock is on an **inode**, and is taken through an open file; a path only names
an inode, and names another one once the file has been removed and created again. So a lock
on an inode is worth something only as long as the path names that inode: two owners with
exclusive locks on different inodes both believe that they are alone.

`Disk` has one directory entry, and for each owner the file that it has open. What
makes the locks meaningful is a discipline for one step (`Disk.Polite`): an owner
touches its own file only, gets a lock only when it is granted, and **takes the entry away
from an inode only while it has the exclusive lock on it**. Under this discipline a lock on
the inode that the entry names (`Disk.Owns`) is not lost to anybody else's step.
-/

namespace Heph

open Option Function

/-- The modes of an advisory lock. -/
inductive LockMode where
  | shared
  | exclusive
  deriving DecidableEq, Repr

instance : Fintype LockMode where
  elems := {.shared, .exclusive}
  complete m := by cases m <;> decide

/-- An open file: its inode, and the lock that is taken through it. -/
structure OpenFile (ν : Type) where
  ino : ν
  lock : Option LockMode
  deriving DecidableEq, Repr

/-- One directory entry, and the file that each of the owners `ι` has open. -/
structure Disk (ι ν : Type) where
  /-- The inode that the path names, if there is a file. -/
  entry : Option ν
  /-- The file that an owner has open. -/
  files : ι → Option (OpenFile ν)

namespace Disk

variable {ι ν : Type} {d d' : Disk ι ν} {p q : ι} {m m' : LockMode} (d : Disk ι ν)

/-- The owner has a lock on the inode. -/
def Holds (p : ι) (i : ν) (m : LockMode) : Prop := d.files p = some ⟨i, some m⟩

/-- Nobody else is in the way of a lock on the inode. -/
def Grants (p : ι) (i : ν) (m : LockMode) : Prop :=
  ∀ q, q ≠ p → ∀ m', d.Holds q i m' → m = .shared ∧ m' = .shared

/-- The inode is not open: its number may be given to a new file. -/
def Unused (i : ν) : Prop := ∀ q, (d.files q).map OpenFile.ino ≠ some i

instance [DecidableEq ν] (d : Disk ι ν) (p : ι) (i : ν) (m : LockMode) :
    Decidable (d.Holds p i m) :=
  inferInstanceAs (Decidable (_ = _))

instance [DecidableEq ι] [DecidableEq ν] [Fintype ι] (d : Disk ι ν) (p : ι) (i : ν)
    (m : LockMode) : Decidable (d.Grants p i m) :=
  inferInstanceAs (Decidable (∀ q, q ≠ p → ∀ m', d.Holds q i m' → m = .shared ∧ m' = .shared))

instance [DecidableEq ν] [Fintype ι] (d : Disk ι ν) (i : ν) : Decidable (d.Unused i) :=
  inferInstanceAs (Decidable (∀ q, (d.files q).map OpenFile.ino ≠ some i))

/-! ### System calls -/

section Calls

variable [DecidableEq ι] (d : Disk ι ν) (p : ι)

/-- Set what the owner has open. -/
def setFile (f : Option (OpenFile ν)) : Disk ι ν :=
  { d with files := update d.files p f }

/-- Open the file, and create it if there is none, on an inode that is not in use. -/
def openCreate [DecidableEq ν] [Fintype ι] (fresh : ν) : Option (Disk ι ν) :=
  match d.entry with
  | some i => some (d.setFile p (some ⟨i, none⟩))
  | none =>
    if d.Unused fresh then some { d.setFile p (some ⟨fresh, none⟩) with entry := some fresh }
    else none

/-- Take the lock without waiting, or convert the one that is held. A conversion is not
atomic: where the new lock is not granted, the old one is lost. -/
def tryLock [DecidableEq ν] [Fintype ι] (m : LockMode) : Disk ι ν × Bool :=
  match d.files p with
  | none => (d, false)
  | some f =>
    if d.Grants p f.ino m then (d.setFile p (some { f with lock := some m }), true)
    else (d.setFile p (some { f with lock := none }), false)

/-- Give the lock back, and keep the file open. -/
def unlock : Disk ι ν := d.setFile p ((d.files p).map fun f => { f with lock := none })

/-- Close the file, and give back the lock that is taken through it. -/
def close : Disk ι ν := d.setFile p none

/-- Remove the file from the directory. -/
def unlink : Disk ι ν := { d with entry := none }

/-- Whether the path names the file that the owner has open. -/
def Named : Prop := ∃ f, d.files p = some f ∧ d.entry = some f.ino

instance [DecidableEq ν] : Decidable (d.Named p) :=
  match h : d.files p with
  | none => isFalse (by simp [Named, h])
  | some f => decidable_of_iff (d.entry = some f.ino) (by simp [Named, h])

end Calls

/-! ### The discipline -/

/-- The owner has a lock on the inode that the path names. -/
def Owns (p : ι) (m : LockMode) : Prop := ∃ i, d.Holds p i m ∧ d.entry = some i

/-- **The locks on an inode exclude each other**: of two, both are shared. -/
def Excluding : Prop :=
  ∀ p q i m m', p ≠ q → d.Holds p i m → d.Holds q i m' → m = .shared ∧ m' = .shared

variable {d}

/-- **A polite step** of an owner. -/
structure Polite (p : ι) (d d' : Disk ι ν) : Prop where
  /-- Others keep their files. -/
  files : ∀ q ≠ p, d'.files q = d.files q
  /-- A lock that was not there before is granted. -/
  granted : ∀ i m, d'.Holds p i m → d.Holds p i m ∨ d.Grants p i m
  /-- The entry is taken away from an inode only under the exclusive lock. -/
  entry : ∀ i, d.entry = some i → d'.entry = some i ∨ d.Holds p i .exclusive

theorem Polite.refl (p : ι) (d : Disk ι ν) : Polite p d d :=
  ⟨fun _ _ => rfl, fun _ _ => Or.inl, fun _ => Or.inl⟩

theorem Polite.holds (h : Polite p d d') (hq : q ≠ p) {i : ν} :
    d'.Holds q i m ↔ d.Holds q i m := by
  rw [Holds, Holds, h.files q hq]

/-- The locks go on excluding each other. -/
theorem Polite.excluding (h : Polite p d d') (hd : d.Excluding) : d'.Excluding := by
  -- a lock of the owner that moved, against the one of somebody else
  have key : ∀ q ≠ p, ∀ i m m', d'.Holds p i m → d.Holds q i m' →
      m = .shared ∧ m' = .shared := by
    intro q hq i m m' hp hqi
    rcases h.granted i m hp with hold | hnew
    · exact hd p q i m m' hq.symm hold hqi
    · exact hnew q hq m' hqi
  intro q r i m m' hne hqi hri
  rcases eq_or_ne q p with rfl | hq
  · exact key r hne.symm i m m' hqi ((h.holds hne.symm).mp hri)
  · rw [h.holds hq] at hqi
    rcases eq_or_ne r p with rfl | hr
    · exact (key q hq i m' m hri hqi).symm
    · exact hd q r i m m' hne hqi ((h.holds hr).mp hri)

/-- **What an owner owns is not lost to the step of another.** -/
theorem Polite.owns (h : Polite p d d') (hd : d.Excluding) (hq : q ≠ p) (hown : d.Owns q m) :
    d'.Owns q m := by
  obtain ⟨i, hqi, hi⟩ := hown
  refine ⟨i, (h.holds hq).mpr hqi, ?_⟩
  rcases h.entry i hi with hkept | hp
  · exact hkept
  · -- the entry could go only under an exclusive lock on the same inode
    have := (hd p q i _ _ hq.symm hp hqi).1
    contradiction

/-- Two owners of the file are both readers. -/
theorem Excluding.owns (hd : d.Excluding) (hne : p ≠ q) (hp : d.Owns p m) (hq : d.Owns q m') :
    m = .shared ∧ m' = .shared := by
  obtain ⟨i, hpi, hi⟩ := hp
  obtain ⟨j, hqj, hj⟩ := hq
  obtain rfl : i = j := some.inj (hi.symm.trans hj)
  exact hd p q i m m' hne hpi hqj

/-! ### The calls are polite -/

section Calls

/-- Removing the file is polite for its exclusive owner. -/
theorem polite_unlink (h : d.Owns p .exclusive) : Polite p d d.unlink := by
  obtain ⟨i, hp, hi⟩ := h
  refine ⟨fun _ _ => rfl, fun _ _ => Or.inl, fun j hj => Or.inr ?_⟩
  rwa [← some.inj (hi.symm.trans hj)]

variable [DecidableEq ι] {f : Option (OpenFile ν)}

theorem holds_setFile {i : ν} :
    (d.setFile p f).Holds p i m ↔ f = some ⟨i, some m⟩ := by
  simp [Holds, setFile]

/-- Changing the owner's file is polite where the lock, if any, is granted. -/
theorem polite_setFile
    (hf : ∀ i m, f = some ⟨i, some m⟩ → d.Grants p i m) : Polite p d (d.setFile p f) where
  files _ hq := update_of_ne hq _ _
  granted i m h := Or.inr (hf i m (holds_setFile.mp h))
  entry _ := Or.inl

theorem polite_openCreate [DecidableEq ν] [Fintype ι] {fresh : ν}
    (h : d.openCreate p fresh = some d') : Polite p d d' := by
  rw [openCreate] at h
  split at h
  · next i hi =>
    cases h
    exact polite_setFile (by simp)
  · next hnone =>
    split at h
    · cases h
      -- there was no entry to take away
      exact ⟨fun q hq => update_of_ne hq _ _, fun i m h => by simp [Holds, setFile] at h,
        fun i hi => by simp [hnone] at hi⟩
    · simp at h

theorem polite_tryLock [DecidableEq ν] [Fintype ι] : Polite p d (d.tryLock p m).1 := by
  rw [tryLock]
  split
  · exact .refl p d
  · next f hf =>
    split
    · next hg =>
      refine polite_setFile fun i m' h => ?_
      obtain ⟨rfl, hm⟩ : f.ino = i ∧ some m = some m' := by simpa using h
      exact some.inj hm ▸ hg
    · exact polite_setFile (by simp)

/-- A lock that was taken is held. -/
theorem holds_tryLock [DecidableEq ν] [Fintype ι] (h : (d.tryLock p m).2 = true) :
    ∃ i, (d.tryLock p m).1.Holds p i m := by
  rw [tryLock] at h ⊢
  split at h
  · simp at h
  · next f hf =>
    split at h
    · next hg => exact ⟨f.ino, by rw [if_pos hg]; exact holds_setFile.mpr rfl⟩
    · simp at h

theorem polite_unlock : Polite p d (d.unlock p) := by
  refine polite_setFile fun i m h => ?_
  obtain ⟨f, -, hf⟩ := map_eq_some_iff.mp h
  simp at hf

theorem polite_close : Polite p d (d.close p) := polite_setFile (by simp)

end Calls

end Disk

end Heph
