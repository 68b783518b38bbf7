import Heph.Lib.Machine

/-!
# Parties around a shared state

A concurrent program is often one program run by many parties: each has a state of its own,
and they meet in a **shared** state. A step is taken by one of the parties, and changes the
shared state and that party's own.

An invariant of such a system comes in two parts, a condition on the shared state and one
on each of the parties, which may mention the shared state. A step then has to be examined
twice only, however many parties there are (`Parties.run_invariant`): for the **party
that takes it**, and for **any other** party, whose own state it does not touch but whose
condition it might break.
-/

namespace Heph

open Function Relation Machine

/-- A program run by the parties `ι`: where the shared state and the party start, and what
an event does when it is a party's turn. -/
structure Parties (ι σ τ ε : Type) where
  /-- The shared state at the start. -/
  init : σ
  /-- The state of each party at the start. -/
  start : τ
  /-- One step of one party. -/
  step : ι → σ → τ → ε → Option (σ × τ)

namespace Parties

variable {ι σ τ ε : Type} [DecidableEq ι] {m : Parties ι σ τ ε} {es : List (ι × ε)} {p : ι}
  {x y z : σ × τ}

/-- All the parties at once: an event says whose turn it is. -/
def machine (m : Parties ι σ τ ε) : Machine (σ × (ι → τ)) (ι × ε) where
  init := (m.init, fun _ => m.start)
  step s e := (m.step e.1 s.1 (s.2 e.1) e.2).map fun r => (r.1, update s.2 e.1 r.2)

/-- **The invariant rule**: a condition on the shared state and one on each party, which
hold at the start, which the party that takes a step keeps, and which a step does not break
for the other parties. -/
theorem run_invariant {J : σ → Prop} {I : ι → σ → τ → Prop} (hJ : J m.init)
    (hI : ∀ p, I p m.init m.start)
    (hown : ∀ p s l e s' l', J s → I p s l → m.step p s l e = some (s', l') → J s' ∧ I p s' l')
    (hother : ∀ p s l e s' l', J s → I p s l → m.step p s l e = some (s', l') →
      ∀ q ≠ p, ∀ k, I q s k → I q s' k) {s : σ × (ι → τ)} (h : m.machine.run es = some s) :
    J s.1 ∧ ∀ p, I p s.1 (s.2 p) := by
  refine Machine.run_invariant (I := fun s => J s.1 ∧ ∀ p, I p s.1 (s.2 p)) ⟨hJ, hI⟩ ?_ h
  rintro ⟨s, ls⟩ ⟨p, e⟩ s₁ ⟨hJs, hIs⟩ hstep
  obtain ⟨⟨s', l'⟩, hp, rfl⟩ := Option.map_eq_some_iff.mp hstep
  obtain ⟨hJ', hI'⟩ := hown p s (ls p) e s' l' hJs (hIs p) hp
  refine ⟨hJ', fun q => ?_⟩
  rcases eq_or_ne q p with rfl | hq
  · simpa using hI'
  · simpa [update_of_ne hq] using
      hother p s (ls p) e s' l' hJs (hIs p) hp q hq (ls q) (hIs q)

/-- A party that takes no step stays as it is. -/
theorem own_of_runFrom {x y : σ × (ι → τ)} (hp : ∀ e ∈ es, e.1 ≠ p)
    (h : m.machine.runFrom x es = some y) : y.2 p = x.2 p := by
  induction es generalizing x with
  | nil =>
    cases h
    rfl
  | cons e es ih =>
    obtain ⟨hpe, hp⟩ := List.forall_mem_cons.mp hp
    obtain ⟨z, hstep, h⟩ := runFrom_cons h
    obtain ⟨r, -, rfl⟩ := Option.map_eq_some_iff.mp hstep
    rw [ih hp h]
    exact update_of_ne hpe.symm ..

/-- A party can come from one state to another, alone. -/
def Moves (m : Parties ι σ τ ε) (p : ι) : σ × τ → σ × τ → Prop :=
  ReflTransGen fun x y => ∃ e, m.step p x.1 x.2 e = some y

omit [DecidableEq ι] in
theorem Moves.refl (p : ι) (x : σ × τ) : m.Moves p x x := ReflTransGen.refl

omit [DecidableEq ι] in
theorem Moves.trans (h : m.Moves p x y) (h' : m.Moves p y z) :
    m.Moves p x z :=
  ReflTransGen.trans h h'

omit [DecidableEq ι] in
theorem Moves.step {e : ε} (h : m.step p x.1 x.2 e = some y)
    (hrest : m.Moves p y z) : m.Moves p x z :=
  .head ⟨e, h⟩ hrest

/-- What a party can do alone is a run of all. -/
theorem leads_of_moves {s s' : σ} {l' : τ} {ls : ι → τ} (h : m.Moves p (s, ls p) (s', l')) :
    m.machine.Leads (s, ls) (s', update ls p l') := by
  suffices hlast : ∀ y, m.Moves p (s, ls p) y →
      m.machine.Leads (s, ls) (y.1, update ls p y.2) from hlast (s', l') h
  intro y hy
  induction hy with
  | refl => simpa using Leads.refl _
  | @tail y z _ hstep ih =>
    obtain ⟨e, he⟩ := hstep
    refine ih.trans (leads_of_step (e := (p, e)) ?_)
    simp [machine, he]

end Parties

end Heph
