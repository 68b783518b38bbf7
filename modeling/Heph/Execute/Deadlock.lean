import Heph.Execute.Resources
import Heph.Lib.WaitFor

/-!
# Executes that wait for each other

Dependencies before slots, slots before the execute lock, the lock before the reservation: by
themselves, these executes cannot wait for each other in a circle. But an execute **nested** in the
sandbox of another one starts over, while the outer one holds everything that it has. Nothing keeps
a producer from needing what its consumer holds, and with one unit of a pool, one consumer and one
producer that both ask for it there is a deadlock (`Executes.producer_deadlocked`).

There is none where all that can be held is in **one order**, in which everything that is taken
inside an execute, by the executes nested in it and by what these depend on too, comes after what
the execute holds (`Increasing`, `Executes.not_deadlocked`). The order exists if no
credential has a producer (`increasing_of_no_producer`).
-/

namespace Heph

open ExecGraph List Relation Prod

/-- What an execute can hold. The pools are one resource: they have one queue. -/
inductive EngineResource (τ σ χ : Type) where
  | slot (x : σ)
  | execute (t : τ)
  | pools
  | cell (c : χ)
  deriving DecidableEq

namespace ExecGraph

variable {τ σ χ π : Type} [LinearOrder σ] (g : ExecGraph τ σ χ π)

/-- The target has a demand that is not nothing. -/
def Demands (t : τ) : Prop := ∃ p, Executes.need g t p ≠ 0

/-- A run of the target takes the resource. -/
def Takes (t : τ) : EngineResource τ σ χ → Prop
  | .slot x => ∃ m, (x, m) ∈ (g.target t).slots.entries
  | .execute u => u = t
  | .pools => g.Demands t
  | .cell c => c ∈ (g.target t).credentials

/-- A run of the target has the other one executed: as a dependency, or as a producer. -/
def Uses (t u : τ) : Prop :=
  u ∈ (g.target t).deps ∨ ∃ c ∈ (g.target t).credentials, g.producer c = some u

end ExecGraph

/-- **One order** of all that can be held: what a run takes comes in the order in which it is taken,
and with a cell locked for a producer, everything that is taken to execute the producer comes
later. -/
structure Increasing {τ σ χ π R : Type} [LinearOrder σ] [LinearOrder R] (g : ExecGraph τ σ χ π)
    (rank : EngineResource τ σ χ → R) : Prop where
  slot_lt_slot : ∀ t x y, g.Takes t (.slot x) → g.Takes t (.slot y) → x < y →
    rank (.slot x) < rank (.slot y)
  slot_lt_execute : ∀ t x, g.Takes t (.slot x) → rank (.slot x) < rank (.execute t)
  execute_lt_pools : ∀ t, g.Takes t .pools → rank (.execute t) < rank .pools
  execute_lt_cell : ∀ t c, g.Takes t (.cell c) → rank (.execute t) < rank (.cell c)
  pools_lt_cell : ∀ t c, g.Takes t .pools → g.Takes t (.cell c) → rank .pools < rank (.cell c)
  cell_lt : ∀ c p u b, g.producer c = some p → ReflTransGen g.Uses p u → g.Takes u b →
    rank (.cell c) < rank b

namespace Executes

section Waits

variable {τ σ χ π : Type} [LinearOrder σ] (g : ExecGraph τ σ χ π) (s : Executes τ)

/-- The run has started and is not over. -/
def Unfinished (r : ExecRun τ) : Prop := s.point r ≠ .idle ∧ s.point r ≠ .finished

/-- The run waits for the other one: for a dependency, or for a producer. -/
def Awaits (r q : ExecRun τ) : Prop :=
  (s.point r = .resolving ∧ ∃ d ∈ (g.target r.target).deps, q = r.dep d) ∨
    ∃ k p, s.point r = .minting k p ∧ q = r.nested k p

/-- The resource that the run is about to take. -/
def Wants (r : ExecRun τ) : EngineResource τ σ χ → Prop
  | .slot x => ∃ k m, s.point r = .locking k ∧ (g.target r.target).slots.entries[k]? = some (x, m)
  | .execute t => s.point r = .executeLock ∧ t = r.target
  | .pools => s.point r = .admitting
  | .cell c => ∃ k, s.point r = .presenting k ∧ (g.target r.target).credentials[k]? = some c

/-- The resource is held by the run. -/
def Holds (r : ExecRun τ) : EngineResource τ σ χ → Prop
  | .slot x => ∃ m, (x, m) ∈ heldSlots g r.target (s.point r)
  | .execute t => Locked (s.point r) ∧ t = r.target
  | .pools => Reserved (s.point r) ∧ g.Demands r.target
  | .cell c => heldCell? g r.target (s.point r) = some c

/-- Who waits for whom, and for what. -/
def waitFor : WaitFor (ExecRun τ) (EngineResource τ σ χ) := ⟨Awaits g s, Wants g s, Holds g s⟩

variable [DecidableEq τ] [DecidableEq χ] [Fintype π]

/-- The run can take a step. -/
def CanStep (r : ExecRun τ) : Prop := ∃ e : ExecEvent τ, e.runner = some r ∧ (s.step g e).isSome

/-- **A deadlock**: there are runs that are not over, and none of them can take a step. -/
def Deadlocked : Prop := (∃ r, s.Unfinished r) ∧ ∀ r, s.Unfinished r → ¬ s.CanStep g r

end Waits

/-! ### Who is in the way -/

section Blocked

variable {τ σ χ π : Type} [LinearOrder σ] {g : ExecGraph τ σ χ π} {s : Executes τ} {r : ExecRun τ}

/-- Whoever holds something is not over. -/
theorem Holds.unfinished {b : EngineResource τ σ χ} (h : Holds g s r b) : s.Unfinished r := by
  constructor <;> intro hp <;> cases b <;>
    simp [Holds, hp, heldSlots, Locked, Reserved, heldCell?] at h

/-- A demand fits into the capacities: where it does not fit in, somebody has a reservation. -/
theorem exists_holds_pools {q : ExecRun τ} (h : ¬ Fits g s q) : ∃ h, Holds g s h .pools := by
  obtain ⟨p, hp⟩ : ∃ p, g.capacity p < reserved g s p + need g q.target p := by
    simpa [Fits] using h
  have hneed : need g q.target p ≤ g.capacity p := min_le_right ..
  have hsum : reserved g s p ≠ 0 := by omega
  obtain ⟨h, hh, hne⟩ := Finset.exists_ne_zero_of_sum_ne_zero hsum
  exact ⟨h, (Finset.mem_filter.mp hh).2, p, hne⟩

variable [DecidableEq τ] [DecidableEq χ] [Fintype π]

theorem canStep_of_ready (h : ReadyAt g s r (s.point r)) : s.CanStep g r :=
  ⟨.advance r, rfl, by simp [step, h]⟩

/-- A run that resolves its dependencies waits for one of them. -/
theorem awaits_of_resolving (hp : s.point r = .resolving) (hstuck : ¬ s.CanStep g r) :
    ∃ q, s.Unfinished q ∧ Awaits g s r q := by
  have hready : ¬ ReadyAt g s r (s.point r) := fun h => hstuck (canStep_of_ready h)
  rw [hp] at hready
  obtain ⟨d, hd, hnot⟩ : ∃ d ∈ (g.target r.target).deps, s.point (r.dep d) ≠ .finished := by
    simpa [ReadyAt] using hready
  refine ⟨r.dep d, ⟨fun hidle => hstuck ?_, hnot⟩, .inl ⟨hp, d, hd, rfl⟩⟩
  exact ⟨.startDep r d, rfl, by simp [step, askDep, hp, hd, hidle]⟩

theorem wants_of_not_ready (hI : Placed g s) (hu : s.Unfinished r)
    (hall : ∀ q, s.Unfinished q → ¬ s.CanStep g q) :
    (∃ q, s.Unfinished q ∧ Awaits g s r q) ∨
      ∃ b, Wants g s r b ∧ ∃ h, Holds g s h b := by
  have hready : ¬ ReadyAt g s r (s.point r) := fun h => hall r hu (canStep_of_ready h)
  cases hp : s.point r with
  | idle => exact absurd hp hu.1
  | finished => exact absurd hp hu.2
  | resolving => exact .inl (awaits_of_resolving hp (hall r hu))
  | locking k =>
    rw [hp] at hready
    obtain ⟨x, m, hk, hfree⟩ :
        ∃ x m, (g.target r.target).slots.entries[k]? = some (x, m) ∧ ¬ SlotFree g s r (x, m) := by
      simpa [ReadyAt] using hready
    obtain ⟨q, -, -, e, he, hex, -⟩ :
        ∃ q ∈ s.started, q ≠ r ∧ ∃ e ∈ heldSlots g q.target (s.point q), e.1 = x ∧
          ¬ LockMode.Compatible m e.2 := by
      simpa [SlotFree] using hfree
    exact .inr ⟨.slot x, ⟨k, m, hp, hk⟩, q, e.2, hex ▸ he⟩
  | executeLock =>
    rw [hp] at hready
    obtain ⟨q, -, -, ht, hq⟩ :
        ∃ q ∈ s.started, q ≠ r ∧ q.target = r.target ∧ Locked (s.point q) := by
      simpa [ReadyAt, ExecuteFree] using hready
    exact .inr ⟨.execute r.target, ⟨hp, rfl⟩, q, hq, ht.symm⟩
  | admitting =>
    -- the head of the queue, if not the run itself, is stuck too
    have hmem : r ∈ s.queue := (hI.mem_queue r).mpr hp
    obtain ⟨q, hq⟩ : ∃ q, s.queue.head? = some q := by
      cases hqueue : s.queue with
      | nil => simp [hqueue] at hmem
      | cons q l => exact ⟨q, rfl⟩
    have hqp : s.point q = .admitting := (hI.mem_queue q).mp (mem_of_head? hq)
    have hfits : ¬ Fits g s q := by
      intro hfits
      refine hall q ⟨by simp [hqp], by simp [hqp]⟩ (canStep_of_ready ?_)
      rw [hqp]
      exact ⟨hq, hfits⟩
    exact .inr ⟨.pools, hp, exists_holds_pools hfits⟩
  | presenting k =>
    rw [hp] at hready
    obtain ⟨c, hk, hfree⟩ :
        ∃ c, (g.target r.target).credentials[k]? = some c ∧ ¬ CellFree g s r c := by
      simpa [ReadyAt] using hready
    obtain ⟨q, -, -, hq⟩ :
        ∃ q ∈ s.started, q ≠ r ∧ heldCell? g q.target (s.point q) = some c := by
      simpa [CellFree] using hfree
    exact .inr ⟨.cell c, ⟨k, hp, hk⟩, q, hq⟩
  | minting k p =>
    rw [hp] at hready
    exact .inl ⟨r.nested k p, ⟨(hI.minting r k p hp).2, hready⟩, .inr ⟨k, p, hp, rfl⟩⟩

/-- In a deadlock, the runs that are not over are stuck. -/
theorem Deadlocked.stuck (hI : Placed g s) (h : s.Deadlocked g) :
    (waitFor g s).Stuck {r | s.Unfinished r} := by
  intro r hr
  rcases wants_of_not_ready hI hr h.2 with hawaits | ⟨b, hwants, q, hq⟩
  · exact .inl hawaits
  · exact .inr ⟨b, hwants, q, hq.unfinished, hq⟩

end Blocked

/-! ### The order -/

variable {τ σ χ π R : Type} [LinearOrder σ] [LinearOrder R] {g : ExecGraph τ σ χ π}
  {rank : EngineResource τ σ χ → R} {s : Executes τ} {r q : ExecRun τ} {a b : EngineResource τ σ χ}

theorem Awaits.uses (hI : Placed g s) (h : Awaits g s r q) : g.Uses r.target q.target := by
  rcases h with ⟨-, d, hd, rfl⟩ | ⟨k, p, hp, rfl⟩
  · exact .inl hd
  · obtain ⟨⟨c, hc, hpc⟩, -⟩ := hI.minting r k p hp
    exact .inr ⟨c, mem_of_getElem? hc, hpc⟩

theorem wellFounded_awaits (hI : Placed g s) (hwf : WellFounded fun u t => g.Uses t u) :
    WellFounded fun q r => Awaits g s r q :=
  Subrelation.wf (fun h => h.uses hI) (InvImage.wf ExecRun.target hwf)

theorem Wants.takes (hI : Placed g s) (h : Wants g s r b) : g.Takes r.target b := by
  cases b with
  | slot x =>
    obtain ⟨k, m, -, hk⟩ := h
    exact ⟨m, mem_of_getElem? hk⟩
  | execute t => exact h.2
  | pools => exact hI.need_ne_zero r h
  | cell c =>
    obtain ⟨k, -, hk⟩ := h
    exact mem_of_getElem? hk

theorem Holds.takes (h : Holds g s r a) : g.Takes r.target a := by
  cases a with
  | slot x =>
    obtain ⟨m, hm⟩ := h
    refine ⟨m, ?_⟩
    cases hp : s.point r <;> simp only [hp, heldSlots] at hm
    case locking k => exact mem_of_mem_take hm
    case executeLock | admitting | presenting | minting => exact hm
    case idle | resolving | finished => simp at hm
  | execute | pools => exact h.2
  | cell c =>
    simp only [Holds] at h
    cases hp : s.point r <;> simp only [hp, heldCell?] at h
    case minting k p => exact mem_of_getElem? h
    all_goals simp at h

/-- The slots before the `k`-th come before it. -/
theorem lt_of_mem_take {l : List (σ × LockMode)} (hl : l.Pairwise fun e e' => e.1 < e'.1) {k : ℕ}
    {e e' : σ × LockMode} (he : e ∈ l.take k) (he' : l[k]? = some e') : e.1 < e'.1 := by
  obtain ⟨i, hi, rfl⟩ := mem_take_iff_getElem.mp he
  obtain ⟨hk, rfl⟩ := List.getElem?_eq_some_iff.mp he'
  exact pairwise_iff_getElem.mp hl i k _ hk (by omega)

section

variable (ho : Increasing g rank)

include ho

/-- What a run is about to take comes after all that it holds. -/
theorem lt_wants (hI : Placed g s) (ha : Holds g s r a)
    (hb : Wants g s r b) : rank a < rank b := by
  have hta := ha.takes
  have htb := hb.takes hI
  cases b with
  | slot x =>
    obtain ⟨k, m, hp, hk⟩ := hb
    cases a with
    | slot y =>
      obtain ⟨m', hm⟩ := ha
      rw [hp] at hm
      exact ho.slot_lt_slot r.target y x hta htb
        (lt_of_mem_take (g.target r.target).slots.sorted hm hk)
    | execute t | pools | cell c => simp [Holds, hp, Locked, Reserved, heldCell?] at ha
  | execute t =>
    obtain ⟨hp, rfl⟩ := hb
    cases a with
    | slot y => exact ho.slot_lt_execute _ y hta
    | execute t | pools | cell c => simp [Holds, hp, Locked, Reserved, heldCell?] at ha
  | pools =>
    have hp : s.point r = .admitting := hb
    have hlt := ho.execute_lt_pools _ htb
    cases a with
    | slot y => exact (ho.slot_lt_execute _ y hta).trans hlt
    | execute t => exact (show t = r.target from hta) ▸ hlt
    | pools | cell c => simp [Holds, hp, Reserved, heldCell?] at ha
  | cell c =>
    obtain ⟨k, hp, hk⟩ := hb
    have hlt := ho.execute_lt_cell _ c htb
    cases a with
    | slot y => exact (ho.slot_lt_execute _ y hta).trans hlt
    | execute t => exact (show t = r.target from hta) ▸ hlt
    | pools => exact ho.pools_lt_cell _ c hta htb
    | cell c' => simp [Holds, hp, heldCell?] at ha

/-- All that a run holds with a cell locked comes before the cell, or is the cell. -/
theorem le_cell {k : ℕ} {p : τ} {c : χ}
    (hp : s.point r = .minting k p) (hc : (g.target r.target).credentials[k]? = some c)
    (ha : Holds g s r a) : rank a ≤ rank (.cell c) := by
  have hta := ha.takes
  have hlt := ho.execute_lt_cell _ c (mem_of_getElem? hc)
  cases a with
  | slot y => exact ((ho.slot_lt_execute _ y hta).trans hlt).le
  | execute t => exact (show t = r.target from hta) ▸ hlt.le
  | pools => exact (ho.pools_lt_cell _ c hta (mem_of_getElem? hc)).le
  | cell c' =>
    obtain rfl : c = c' := by simpa [Holds, hp, heldCell?, hc] using ha
    exact le_rfl

/-- **What a run, or one that it waits for, is about to take comes after all that it holds.** -/
theorem lt_awaited (hI : Placed g s) (ha : Holds g s r a)
    (hrq : ReflTransGen (Awaits g s) r q) (hb : Wants g s q b) : rank a < rank b := by
  rcases hrq.cases_head with rfl | ⟨u, hru, huq⟩
  · exact lt_wants ho hI ha hb
  · have huses : ReflTransGen g.Uses u.target q.target :=
      huq.lift ExecRun.target fun _ _ h => h.uses hI
    rcases hru with ⟨hp, -⟩ | ⟨k, p, hp, rfl⟩
    · -- with its dependencies unresolved it holds nothing
      cases a <;> simp [Holds, hp, heldSlots, Locked, Reserved, heldCell?] at ha
    · obtain ⟨⟨c, hc, hpc⟩, -⟩ := hI.minting r k p hp
      exact (le_cell ho hp hc ha).trans_lt (ho.cell_lt c p _ b hpc huses (hb.takes hI))

end

/-! ### Without producers -/

/-- The slots in their order, then the execute locks, then the pools, then the cells. -/
def sequence : EngineResource τ σ χ → ℕ ×ₗ WithBot σ
  | .slot x => toLex (0, x)
  | .execute _ => toLex (1, ⊥)
  | .pools => toLex (2, ⊥)
  | .cell _ => toLex (3, ⊥)

/-- Where no credential has a producer, everything is taken in one sequence. -/
theorem increasing_of_no_producer {g : ExecGraph τ σ χ π} (h : ∀ c, g.producer c = none) :
    Increasing g sequence where
  slot_lt_slot t x y _ _ hxy :=
    Lex.toLex_lt_toLex.mpr (.inr ⟨rfl, WithBot.coe_lt_coe.mpr hxy⟩)
  slot_lt_execute t x _ := Lex.toLex_lt_toLex.mpr (.inl Nat.zero_lt_one)
  execute_lt_pools t _ := Lex.toLex_lt_toLex.mpr (.inl (by simp))
  execute_lt_cell t c _ := Lex.toLex_lt_toLex.mpr (.inl (by simp))
  pools_lt_cell t c _ _ := Lex.toLex_lt_toLex.mpr (.inl (by simp))
  cell_lt c p u b hp := by simp [h] at hp

/-! ### A consumer and a producer -/

/-- A consumer, `true`, whose credential comes from a producer, `false`. The one pool has one unit,
which the consumer asks for, and the producer asks for `n`. -/
def consumerGraph (n : ℕ) : ExecGraph Bool Unit Unit Unit where
  target t := if t then ⟨[], .empty, fun _ => 1, [()]⟩ else ⟨[], .empty, fun _ => n, []⟩
  producer _ := some false
  capacity _ := 1

theorem uses_consumerGraph {n : ℕ} {t u : Bool} :
    (consumerGraph n).Uses t u ↔ t = true ∧ u = false := by
  cases t <;> simp [Uses, consumerGraph, eq_comm]

theorem wellFounded_consumerGraph (n : ℕ) :
    WellFounded fun u t => (consumerGraph n).Uses t u := by
  refine ⟨fun t => ⟨t, fun u hu => ⟨u, fun v hv => ?_⟩⟩⟩
  have hfalse := (uses_consumerGraph.mp hu).2
  rw [(uses_consumerGraph.mp hv).1] at hfalse
  simp at hfalse

/-- The execute of the consumer. -/
def consumerRun : ExecRun Bool := ⟨0, true, []⟩

/-- The execute of the producer, in the sandbox of the consumer. -/
def producerRun : ExecRun Bool := consumerRun.nested 0 false

/-- The consumer has the unit when its credential is acquired, and then the producer is executed. -/
def mintingRun : List (ExecEvent Bool) :=
  [.ask 0 true, .advance consumerRun, .advance consumerRun, .advance consumerRun,
    .advance consumerRun, .mint consumerRun, .advance producerRun, .advance producerRun,
    .advance producerRun]

/-- The state at the end. -/
def mintingState (n : ℕ) : Executes Bool :=
  ((machine (consumerGraph n)).run mintingRun).getD (start Bool)

theorem run_mintingRun {n : ℕ} (h : ((machine (consumerGraph n)).run mintingRun).isSome) :
    (machine (consumerGraph n)).run mintingRun = some (mintingState n) := by
  obtain ⟨s, hs⟩ := Option.isSome_iff_exists.mp h
  rw [mintingState, hs, Option.getD_some]

/-- If both ask for the unit, the producer waits for the consumer to give it back. -/
theorem not_canStep_mintingState {r : ExecRun Bool} (hr : (mintingState 1).Unfinished r) :
    ¬ (mintingState 1).CanStep (consumerGraph 1) r := by
  have hstarted : ∀ r ∈ (mintingState 1).started, r = consumerRun ∨ r = producerRun := by decide
  have hI := placed_of_run (run_mintingRun (n := 1) (by decide))
  have hr := hstarted r (hI.mem_started r hr.1)
  rintro ⟨e, he, hstep⟩
  cases e with
  | ask n t => simp [ExecEvent.runner] at he
  | startDep q d | hitDep q d =>
    cases he
    rcases hr with rfl | rfl <;> revert d <;> decide
  | advance q | mint q =>
    cases he
    rcases hr with rfl | rfl <;> revert hstep <;> decide

/-- **A consumer that has a reservation waits for the reservation of its producer**, and nothing
moves any more. -/
theorem producer_deadlocked :
    (∀ p, 0 < (consumerGraph 1).capacity p) ∧
      WellFounded (fun u t => (consumerGraph 1).Uses t u) ∧
      ∃ es s, (machine (consumerGraph 1)).run es = some s ∧ s.Deadlocked (consumerGraph 1) ∧
        ∃ r q, Reserved (s.point r) ∧ (consumerGraph 1).Demands r.target ∧
          Awaits (consumerGraph 1) s r q ∧ s.point q = .admitting := by
  refine ⟨by decide, wellFounded_consumerGraph 1, mintingRun, mintingState 1,
    run_mintingRun (by decide), ⟨⟨consumerRun, by decide, by decide⟩,
    fun r => not_canStep_mintingState⟩, consumerRun, producerRun, by decide, ⟨(), by decide⟩, ?_,
    by decide⟩
  exact .inr ⟨0, false, by decide, rfl⟩

/-- The consumer, its unit, its credential, and then the producer. -/
def consumerRank : EngineResource Bool Unit Unit → ℕ
  | .slot _ => 0
  | .execute t => if t then 0 else 3
  | .pools => 1
  | .cell _ => 2

/-- A producer without a demand comes after everything that its consumer holds. -/
theorem increasing_consumerRank : Increasing (consumerGraph 0) consumerRank where
  slot_lt_slot t x y _ _ hxy := absurd hxy (lt_irrefl _)
  slot_lt_execute t x hx := by
    cases t <;> simp [Takes, consumerGraph, SortedMap.empty] at hx
  execute_lt_pools t ht := by
    cases t with
    | false => simp [Takes, Demands, need, consumerGraph] at ht
    | true => decide
  execute_lt_cell t c hc := by
    cases t with
    | false => simp [Takes, consumerGraph] at hc
    | true => simp [consumerRank]
  pools_lt_cell t c _ _ := by simp [consumerRank]
  cell_lt c p u b hp hpu hb := by
    cases hp
    obtain rfl : false = u := by
      rcases hpu.cases_head with rfl | ⟨v, hv, -⟩
      · rfl
      · exact absurd (uses_consumerGraph.mp hv).1 (by decide)
    cases b with
    | slot x => simp [Takes, consumerGraph, SortedMap.empty] at hb
    | execute t =>
      obtain rfl : t = false := hb
      simp [consumerRank]
    | pools => simp [Takes, Demands, need, consumerGraph] at hb
    | cell c => simp [Takes, consumerGraph] at hb

/-! ### Executes in one order -/

/-- **Executes do not wait for each other in a circle** if all that they can hold is in one order;
and then no execute that has a reservation waits for one to be granted. -/
theorem not_deadlocked {τ σ χ π R : Type} [LinearOrder σ] [LinearOrder R] [DecidableEq τ]
    [DecidableEq χ] [Fintype π] {g : ExecGraph τ σ χ π} {rank : EngineResource τ σ χ → R}
    {s : Executes τ} (hwf : WellFounded fun u t => g.Uses t u) (ho : Increasing g rank)
    {es : List (ExecEvent τ)} (h : (machine g).run es = some s) :
    ¬ s.Deadlocked g ∧
      ∀ r q, Reserved (s.point r) → g.Demands r.target →
        ReflTransGen (Awaits g s) r q → s.point q ≠ .admitting := by
  have hI := placed_of_run h
  constructor
  · intro hd
    refine WaitFor.not_stuck ?_ hd.1 (wellFounded_awaits hI hwf) rank ?_ (hd.stuck hI)
    · exact s.started.finite_toSet.subset fun r hr => hI.mem_started r hr.1
    · rintro a b ⟨p, -, r, -, ha, hpr, hb⟩
      exact lt_awaited ho hI ha hpr hb
  · intro r q hr hdemands hrq hq
    have ha : Holds g s r .pools := ⟨hr, hdemands⟩
    exact lt_irrefl _ (lt_awaited ho hI ha hrq hq)

/-- The consumer keeps its unit while the producer, which needs none, is executed. -/
theorem not_deadlocked_minting :
    ¬ (mintingState 0).Deadlocked (consumerGraph 0) ∧
      ∀ r q, Reserved ((mintingState 0).point r) → (consumerGraph 0).Demands r.target →
        ReflTransGen (Awaits (consumerGraph 0) (mintingState 0)) r q →
          (mintingState 0).point q ≠ .admitting :=
  not_deadlocked (wellFounded_consumerGraph 0) increasing_consumerRank
    (run_mintingRun (by decide))

end Executes

end Heph
