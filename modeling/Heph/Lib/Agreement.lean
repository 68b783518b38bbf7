import Mathlib

/-!
# Agreement

Several sources say something of one thing, each of them a value or that it does not know. **What
they agree on** is the value, if there is one that all of them say, and else it is not known
(`agreed`). It is told of the set of what is said, so that neither the order of the sources
matters nor how often one repeats itself. Going through the sources one after the other, and keeping
what was said as long as it is said again, finds it (`agreed_insert`).
-/

namespace Heph

variable {β : Type} {S T : Set (Option β)} {v : β} {x y : Option β}

open Classical in
/-- What is said by all. -/
noncomputable def agreed (S : Set (Option β)) : Option β :=
  if h : ∃ v, S = {some v} then some h.choose else none

theorem agreed_eq_some : agreed S = some v ↔ S.Nonempty ∧ ∀ x ∈ S, x = some v := by
  rw [← Set.eq_singleton_iff_nonempty_unique_mem, agreed]
  constructor
  · intro h
    split at h
    · next hv =>
      cases h
      exact hv.choose_spec
    · cases h
  · rintro rfl
    have hv : ∃ w, ({some v} : Set (Option β)) = {some w} := ⟨v, rfl⟩
    rw [dif_pos hv, ← Set.singleton_eq_singleton_iff.mp hv.choose_spec]

/-- What is agreed on was said. -/
theorem mem_of_agreed (h : agreed S = some v) : some v ∈ S := by
  obtain ⟨⟨x, hx⟩, hall⟩ := agreed_eq_some.mp h
  rwa [← hall x hx]

theorem agreed_singleton (x : Option β) : agreed {x} = x := by
  refine Option.ext fun v => ?_
  simp [agreed_eq_some]

variable [DecidableEq β]

/-- What two sources agree on. -/
def agree (x y : Option β) : Option β := if x = y then x else none

theorem agree_eq_some : agree x y = some v ↔ x = some v ∧ y = some v := by
  rw [agree]
  split
  · next h =>
    subst h
    exact ⟨fun h => ⟨h, h⟩, And.left⟩
  · next h =>
    refine ⟨fun h' => absurd h' (by simp), ?_⟩
    rintro ⟨rfl, rfl⟩
    exact absurd rfl h

/-- One more source. -/
theorem agreed_insert (hS : S.Nonempty) : agreed (insert x S) = agree (agreed S) x := by
  refine Option.ext fun v => ?_
  rw [agreed_eq_some, agree_eq_some, agreed_eq_some, Set.forall_mem_insert]
  constructor
  · rintro ⟨-, hx, hall⟩
    exact ⟨⟨hS, hall⟩, hx⟩
  · rintro ⟨⟨-, hall⟩, hx⟩
    exact ⟨Set.insert_nonempty x S, hx, hall⟩

end Heph
