import Heph.Lib.Advisory

/-!
# Who holds a lock

A lock is known by its holders: each of the parties holds it in some way, or does not. What
makes it a lock is which ways are **compatible** – two readers are, a writer is with nobody –
and that it is only ever granted to a party that is compatible with all the others
(`Holders.Admits`). Then any two holders are compatible at any time
(`Holders.Excluding`), which is all that a client of the lock may assume.
-/

namespace Heph

open Function

/-- The holders of a lock, among the parties `ι`, and how each of them holds it. -/
def Holders (ι γ : Type) := ι → Option γ

/-- Two holders of a reader–writer lock get along. -/
def LockMode.Compatible (m m' : LockMode) : Prop := m = .shared ∧ m' = .shared

/-- Two holders of an exclusive lock never do. -/
def Incompatible (_ _ : Unit) : Prop := False

instance (m m' : LockMode) : Decidable (m.Compatible m') := inferInstanceAs (Decidable (_ ∧ _))

instance (u v : Unit) : Decidable (Incompatible u v) := inferInstanceAs (Decidable False)

namespace Holders

variable {ι γ : Type} {compat : γ → γ → Prop} {h : Holders ι γ} {p q : ι} {g g' : γ}

/-- The lock that nobody holds. -/
def free : Holders ι γ := fun _ => none

/-- Nobody holds the lock. -/
def Unheld (h : Holders ι γ) : Prop := ∀ p, h p = none

/-- Somebody holds the lock, in the given way. -/
def HeldAs (h : Holders ι γ) (g : γ) : Prop := ∃ p, h p = some g

instance [Fintype ι] (h : Holders ι γ) : Decidable h.Unheld :=
  have (p : ι) : Decidable (h p = none) := decidable_of_iff ((h p).isNone = true) (by simp)
  Fintype.decidableForallFintype

instance [Fintype ι] [DecidableEq γ] (h : Holders ι γ) (g : γ) : Decidable (h.HeldAs g) :=
  have (p : ι) : Decidable (h p = some g) := decEq (h p) (some g)
  Fintype.decidableExistsFintype

/-- The party may have the lock: it is compatible with what the others hold. -/
def Admits (compat : γ → γ → Prop) (h : Holders ι γ) (p : ι) (g : γ) : Prop :=
  ∀ q, q ≠ p → ∀ g' ∈ h q, compat g g'

instance [DecidableEq ι] [Fintype ι] [∀ g g', Decidable (compat g g')] (h : Holders ι γ) (p : ι)
    (g : γ) : Decidable (h.Admits compat p g) :=
  have (q : ι) : Decidable (∀ g' ∈ h q, compat g g') :=
    match h q with
    | none => isTrue (by simp)
    | some a => decidable_of_iff (compat g a) (by simp)
  inferInstanceAs (Decidable (∀ q, q ≠ p → ∀ g' ∈ h q, compat g g'))

/-- **Any two holders are compatible.** -/
def Excluding (compat : γ → γ → Prop) (h : Holders ι γ) : Prop :=
  ∀ p q, p ≠ q → ∀ g ∈ h p, ∀ g' ∈ h q, compat g g'

section Take

variable [DecidableEq ι]

/-- The party gets the lock. -/
def take (h : Holders ι γ) (p : ι) (g : γ) : Holders ι γ := update h p (some g)

/-- The party gives the lock back. -/
def release (h : Holders ι γ) (p : ι) : Holders ι γ := update h p none

@[simp] theorem take_self : h.take p g p = some g := update_self ..

@[simp] theorem release_self : h.release p p = none := update_self ..

theorem take_of_ne (hq : q ≠ p) : h.take p g q = h q := update_of_ne hq ..

theorem release_of_ne (hq : q ≠ p) : h.release p q = h q := update_of_ne hq ..

theorem release_take (hp : h p = none) : (h.take p g).release p = h := by
  funext q
  rcases eq_or_ne q p with rfl | hq
  · rw [release_self, hp]
  · rw [release_of_ne hq, take_of_ne hq]

/-- A lock that is granted where it may be goes on excluding. -/
theorem Excluding.take (hsymm : ∀ a b, compat a b → compat b a) (hh : h.Excluding compat)
    (hadm : h.Admits compat p g) : (h.take p g).Excluding compat := by
  intro q r hne a ha b hb
  rcases eq_or_ne q p with rfl | hq
  · obtain rfl : g = a := by simpa using ha
    rw [take_of_ne hne.symm] at hb
    exact hadm r hne.symm b hb
  · rw [take_of_ne hq] at ha
    rcases eq_or_ne r p with rfl | hr
    · obtain rfl : g = b := by simpa using hb
      exact hsymm _ _ (hadm q hq a ha)
    · rw [take_of_ne hr] at hb
      exact hh q r hne a ha b hb

theorem Excluding.release (hh : h.Excluding compat) : (h.release p).Excluding compat := by
  intro q r hne a ha b hb
  have hq : q ≠ p := by
    rintro rfl
    simp at ha
  have hr : r ≠ p := by
    rintro rfl
    simp at hb
  rw [release_of_ne hq] at ha
  rw [release_of_ne hr] at hb
  exact hh q r hne a ha b hb

end Take

/-- What a holder has it may exchange for anything that excludes no more. -/
theorem Excluding.admits (hh : h.Excluding compat) (hg : h p = some g)
    (hle : ∀ b, compat g b → compat g' b) : h.Admits compat p g' :=
  fun q hq b hb => hle b (hh p q hq.symm g hg b hb)

theorem excluding_free : (free : Holders ι γ).Excluding compat := by
  intro p q _ g hg
  simp [free] at hg

end Holders

theorem LockMode.Compatible.symm (m m' : LockMode) (h : m.Compatible m') : m'.Compatible m :=
  ⟨h.2, h.1⟩

theorem LockMode.not_compatible_exclusive {m : LockMode} : ¬ m.Compatible .exclusive :=
  fun h => LockMode.noConfusion h.2

end Heph
