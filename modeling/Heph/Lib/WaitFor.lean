import Mathlib

/-!
# Parties that wait for each other

Parties hold resources and wait: for a resource that another one holds, or for another party to be
done. A set of parties is **stuck** if each of its members waits for something in the set.

A party that holds a resource while it wants another one, or waits for a party that does, *leads*
from the first resource to the second (`WaitFor.Leads`). Where finitely many parties are stuck,
and wait for each other along no infinite chain, some resource leads back to itself
(`WaitFor.Stuck.exists_cycle`): whoever holds a wanted resource leads to another wanted one. In
particular nobody is stuck if the resources are **ordered**, so that everything leads upwards
(`WaitFor.not_stuck`).

Where everyone waits for one resource at most, and a resource has one holder at most, it is told by
following who waits for whom (`Acyclic`): no cycle comes about if each new edge is looked at
before it is made.
-/

namespace Heph

open Relation

/-! ### Relations without cycles -/

variable {P : Type} {R R' : P → P → Prop}

/-- Nothing leads back to itself. -/
def Acyclic (R : P → P → Prop) : Prop := ∀ x, ¬TransGen R x x

section

variable (h : Acyclic R)

include h

theorem Acyclic.mono (hle : ∀ x y, R' x y → R x y) : Acyclic R' :=
  fun x hx => h x (.mono hle x x hx)

/-- **One edge more**, whose end does not lead to where it begins. -/
theorem Acyclic.insert {a b : P} (hab : ¬ReflTransGen R b a)
    (hle : ∀ x y, R' x y → R x y ∨ x = a ∧ y = b) : Acyclic R' := by
  -- a walk that takes the new edge comes to `a`, and goes on from `b`
  have hwalk : ∀ x y, TransGen R' x y →
      TransGen R x y ∨ ReflTransGen R x a ∧ ReflTransGen R b y := by
    intro x y hxy
    induction hxy with
    | single hxy =>
      rcases hle _ _ hxy with hxy | ⟨rfl, rfl⟩
      · exact .inl (.single hxy)
      · exact .inr ⟨.refl, .refl⟩
    | tail _ hyz ih =>
      rcases hle _ _ hyz with hyz | ⟨rfl, rfl⟩
      · rcases ih with hxy | ⟨hxa, hby⟩
        · exact .inl (hxy.tail hyz)
        · exact .inr ⟨hxa, hby.tail hyz⟩
      · rcases ih with hxy | ⟨hxa, -⟩
        · exact .inr ⟨hxy.to_reflTransGen, .refl⟩
        · exact .inr ⟨hxa, .refl⟩
  intro x hx
  rcases hwalk x x hx with hx | ⟨hxa, hbx⟩
  · exact h x hx
  · exact hab (hbx.trans hxa)

/-- **Edges to one that leads nowhere.** -/
theorem Acyclic.insert_sink {b : P} (hle : ∀ x y, R' x y → R x y ∨ y = b)
    (hsink : ∀ y, ¬R' b y) : Acyclic R' := by
  have hwalk : ∀ x y, TransGen R' x y → TransGen R x y ∨ y = b := by
    intro x y hxy
    induction hxy with
    | single hxy => exact (hle _ _ hxy).imp_left .single
    | tail _ hyz ih =>
      rcases ih with hxy | rfl
      · exact (hle _ _ hyz).imp_left hxy.tail
      · exact absurd hyz (hsink _)
  intro x hx
  rcases hwalk x x hx with hx' | rfl
  · exact h x hx'
  · obtain ⟨y, hy, -⟩ := TransGen.head'_iff.mp hx
    exact hsink y hy

/-- A walk without cycles is no longer than there are places for it to be. -/
theorem Acyclic.length_le {l places : List P} (hl : l.IsChain R)
    (hplaces : ∀ x ∈ l, x ∈ places) : l.length ≤ places.length := by
  have hpairwise : l.Pairwise (TransGen R) :=
    List.isChain_iff_pairwise.mp (hl.imp fun _ _ => .single)
  have hnodup : l.Nodup := hpairwise.imp (S := (· ≠ ·)) fun hxy heq => h _ (heq ▸ hxy)
  exact (List.subperm_of_subset hnodup hplaces).length_le

/-- Among finitely many there is one that leads to none of them. -/
theorem Acyclic.exists_sink {S : Set P} (hfin : S.Finite) (hne : S.Nonempty) :
    ∃ x ∈ S, ∀ y ∈ S, ¬R x y := by
  by_contra! hno
  obtain ⟨x, hx⟩ := hne
  have horder : IsStrictOrder P fun y x => TransGen R x y :=
    { irrefl := h, trans := fun _ _ _ hab hbc => hbc.trans hab }
  have hon : S.WellFoundedOn fun y x => TransGen R x y := hfin.wellFoundedOn
  refine hon.induction (P := fun _ => False) hx fun x hx ih => ?_
  obtain ⟨y, hy, hxy⟩ := hno x hx
  exact ih y hy (.single hxy)

end

/-- Who waits for whom, who wants which resource, and who holds it. -/
structure WaitFor (P Q : Type) where
  /-- The first waits for the second to be done. -/
  awaits : P → P → Prop
  wants : P → Q → Prop
  holds : P → Q → Prop

namespace WaitFor

variable {Q R : Type} (g : WaitFor P Q) (S : Set P)

/-- **Stuck**: each of them waits for one of them, or for what one of them holds. -/
def Stuck : Prop :=
  ∀ p ∈ S, (∃ q ∈ S, g.awaits p q) ∨ ∃ b, g.wants p b ∧ ∃ h ∈ S, g.holds h b

/-- One of them holds the first resource while it, or one that it waits for, wants the second. -/
def Leads (a b : Q) : Prop :=
  ∃ p ∈ S, ∃ r ∈ S, g.holds p a ∧ ReflTransGen g.awaits p r ∧ g.wants r b

variable {g S}

/-- Each of them comes down to one that wants a resource. -/
theorem Stuck.exists_wants (h : g.Stuck S) (hwf : WellFounded fun q p => g.awaits p q) {p : P}
    (hp : p ∈ S) :
    ∃ r ∈ S, ReflTransGen g.awaits p r ∧ ∃ b, g.wants r b ∧ ∃ q ∈ S, g.holds q b := by
  induction p using hwf.induction with
  | _ p ih =>
    rcases h p hp with ⟨q, hq, hpq⟩ | hwants
    · obtain ⟨r, hr, hqr, hb⟩ := ih q hpq hq
      exact ⟨r, hr, .head hpq hqr, hb⟩
    · exact ⟨p, hp, .refl, hwants⟩

/-- **Some resource leads back to itself** if finitely many parties are stuck. -/
theorem Stuck.exists_cycle (h : g.Stuck S) (hfin : S.Finite) (hne : S.Nonempty)
    (hwf : WellFounded fun q p => g.awaits p q) :
    ∃ b, TransGen (g.Leads S) b b := by
  by_contra! hno
  obtain ⟨p, hp⟩ := hne
  obtain ⟨r, hr, -, hb⟩ := h.exists_wants hwf hp
  have : Nonempty Q := hb.nonempty
  -- what each of those that want something wants
  let W := {p ∈ S | ∃ b, g.wants p b ∧ ∃ q ∈ S, g.holds q b}
  choose! want hwant using fun p (hp : p ∈ W) => hp.2
  have hfinite : (want '' W).Finite := (hfin.subset fun p hp => hp.1).image want
  obtain ⟨_, ⟨m, hm, rfl⟩, hsink⟩ := Acyclic.exists_sink hno hfinite ⟨_, r, ⟨hr, hb⟩, rfl⟩
  obtain ⟨-, q, hq, hholds⟩ := hwant m hm
  obtain ⟨r', hr', hqr, hb'⟩ := h.exists_wants hwf hq
  exact hsink (want r') ⟨r', ⟨hr', hb'⟩, rfl⟩
    ⟨q, hq, r', hr', hholds, hqr, (hwant r' ⟨hr', hb'⟩).1⟩

/-- **Ordered resources**: finitely many parties are not stuck. -/
theorem not_stuck [LinearOrder R] (hfin : S.Finite) (hne : S.Nonempty)
    (hwf : WellFounded fun q p => g.awaits p q) (rank : Q → R)
    (hrank : ∀ a b, g.Leads S a b → rank a < rank b) : ¬ g.Stuck S := by
  intro h
  obtain ⟨b, hb⟩ := h.exists_cycle hfin hne hwf
  have hlt : TransGen (· < ·) (rank b) (rank b) := hb.lift rank hrank
  rw [transGen_eq_self] at hlt
  exact lt_irrefl _ hlt

end WaitFor

end Heph
