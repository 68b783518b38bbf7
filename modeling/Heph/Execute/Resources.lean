import Heph.Lib.Holders
import Heph.Lib.Machine
import Heph.Lib.SortedMap

/-!
# What executes take from the engine

An execute of a target takes what it needs in a fixed order. It resolves its dependencies, takes its
scratch slots in sorted order, the execute lock of its address, and reserves its demand from the
pools; the demand is clamped to the capacities, and the requests are served from the head of one
queue. All this is held until the run is over.

The run itself is not the end of it. Inside the sandbox the credentials are acquired, one by one,
each under the lock of its cell; and where the source that is chosen for a credential is a target –
a **producer** – this target is executed there and then, with slots, an execute lock and a
reservation of its own. So executes are nested: a nested run is known by the credential that it
works for and the runs around it (`ExecRun`).

What a run holds is read off the point where it is (`Executes.heldSlots` and the others).
Whether a producer must run for a credential is left to the event: material may be found in the
cell, in the store on disk, or come from another kind of source.
-/

namespace Heph

open List Option Function Finset

/-! ### Targets -/

/-- What of a target matters to the engine's resources. -/
structure ExecTarget (τ σ χ π : Type) [LinearOrder σ] where
  deps : List τ
  /-- The scratch slots, in sorted order, and the access to each. -/
  slots : SortedMap σ LockMode
  demand : π → ℕ
  credentials : List χ

/-- The targets `τ`, the credentials `χ` and the bounded pools `π` of a workspace. -/
structure ExecGraph (τ σ χ π : Type) [LinearOrder σ] where
  target : τ → ExecTarget τ σ χ π
  /-- The target that the chosen source of a credential names, if it is one. -/
  producer : χ → Option τ
  capacity : π → ℕ

/-- An execute: the request that it belongs to, its target, and for a nested one the targets around
it, each with the position of the credential that is being acquired. -/
structure ExecRun (τ : Type) where
  request : ℕ
  target : τ
  outer : List (τ × ℕ)
  deriving DecidableEq

namespace ExecRun

variable {τ : Type}

/-- The run of a dependency. It is shared by all that depend on it in the request. -/
def dep (r : ExecRun τ) (d : τ) : ExecRun τ := ⟨r.request, d, []⟩

/-- The run of the producer of the `k`-th credential. -/
def nested (r : ExecRun τ) (k : ℕ) (p : τ) : ExecRun τ :=
  ⟨r.request, p, (r.target, k) :: r.outer⟩

end ExecRun

/-- Where an execute is. -/
inductive RunPoint (τ : Type) where
  /-- Not started. -/
  | idle
  /-- `inputs_result_exec`. -/
  | resolving
  /-- `acquire_scratch`, with the first `k` slots taken. -/
  | locking (k : ℕ)
  /-- `lock_execute`. -/
  | executeLock
  /-- `admit`, in the queue of the pools. -/
  | admitting
  /-- `acquire_and_present`, with the first `k` credentials presented; then the driver runs. -/
  | presenting (k : ℕ)
  /-- `material_from_producer` for the `k`-th credential. -/
  | minting (k : ℕ) (producer : τ)
  /-- Everything is given back. -/
  | finished
  deriving DecidableEq

inductive ExecEvent (τ : Type) where
  /-- A target is asked for from outside. -/
  | ask (request : ℕ) (t : τ)
  /-- The run asks for a dependency, which has to be executed. -/
  | startDep (r : ExecRun τ) (d : τ)
  /-- The run asks for a dependency, which is a cache hit. -/
  | hitDep (r : ExecRun τ) (d : τ)
  /-- The run gets what it waits for, and goes on. -/
  | advance (r : ExecRun τ)
  /-- The run executes the producer of its next credential. -/
  | mint (r : ExecRun τ)
  deriving DecidableEq

/-- The run that takes a step. -/
def ExecEvent.runner {τ : Type} : ExecEvent τ → Option (ExecRun τ)
  | .ask .. => none
  | .startDep r _ | .hitDep r _ | .advance r | .mint r => some r

/-- All the executes: where each of them is, those that are not idle, and the queue of the pools. -/
structure Executes (τ : Type) where
  point : ExecRun τ → RunPoint τ
  started : Finset (ExecRun τ)
  queue : List (ExecRun τ)

namespace Executes

section Graph

variable {τ σ χ π : Type} [LinearOrder σ] (g : ExecGraph τ σ χ π)

/-! ### What a run holds -/

/-- The demand of a target, clamped to the capacities. -/
def need (t : τ) (p : π) : ℕ := min ((g.target t).demand p) (g.capacity p)

/-- The slots that a run of the target has at a point. -/
def heldSlots (t : τ) : RunPoint τ → List (σ × LockMode)
  | .idle | .resolving | .finished => []
  | .locking k => (g.target t).slots.entries.take k
  | .executeLock | .admitting | .presenting _ | .minting .. => (g.target t).slots.entries

/-- The execute lock is held at the point. -/
def Locked : RunPoint τ → Prop
  | .idle | .resolving | .locking _ | .executeLock | .finished => False
  | .admitting | .presenting _ | .minting .. => True

/-- The demand is reserved at the point. -/
def Reserved : RunPoint τ → Prop
  | .idle | .resolving | .locking _ | .executeLock | .admitting | .finished => False
  | .presenting _ | .minting .. => True

/-- The credential whose cell a run of the target has locked at a point. -/
def heldCell? (t : τ) : RunPoint τ → Option χ
  | .minting k _ => (g.target t).credentials[k]?
  | _ => none

instance : DecidablePred (Locked (τ := τ))
  | .idle | .resolving | .locking _ | .executeLock | .finished => isFalse id
  | .admitting | .presenting _ | .minting .. => isTrue trivial

instance : DecidablePred (Reserved (τ := τ))
  | .idle | .resolving | .locking _ | .executeLock | .admitting | .finished => isFalse id
  | .presenting _ | .minting .. => isTrue trivial

variable [DecidableEq τ] (s : Executes τ)

/-! ### What a run waits for -/

/-- Nobody else is in the way of the slot. -/
def SlotFree (r : ExecRun τ) (e : σ × LockMode) : Prop :=
  ∀ q ∈ s.started, q ≠ r →
    ∀ e' ∈ heldSlots g q.target (s.point q), e'.1 = e.1 → LockMode.Compatible e.2 e'.2

/-- Nobody else executes the target. -/
def ExecuteFree (r : ExecRun τ) : Prop :=
  ∀ q ∈ s.started, q ≠ r → q.target = r.target → ¬ Locked (s.point q)

/-- What is reserved of a pool. -/
def reserved (p : π) : ℕ :=
  ∑ q ∈ s.started with Reserved (s.point q), need g q.target p

variable (r : ExecRun τ)

/-- The demand of the run fits into what is left of the pools. -/
def Fits : Prop := ∀ p, reserved g s p + need g r.target p ≤ g.capacity p

/-- Nobody else has the cell of the credential. -/
def CellFree (c : χ) : Prop :=
  ∀ q ∈ s.started, q ≠ r → heldCell? g q.target (s.point q) ≠ some c

/-- A run at the point has what it waits for. -/
def ReadyAt : RunPoint τ → Prop
  | .idle | .finished => False
  | .resolving => ∀ d ∈ (g.target r.target).deps, s.point (r.dep d) = .finished
  | .locking k => ∀ e ∈ (g.target r.target).slots.entries[k]?, SlotFree g s r e
  | .executeLock => ExecuteFree s r
  | .admitting => s.queue.head? = some r ∧ Fits g s r
  | .presenting k => ∀ c ∈ (g.target r.target).credentials[k]?, CellFree g s r c
  | .minting k p => s.point (r.nested k p) = .finished

instance (r : ExecRun τ) (e : σ × LockMode) : Decidable (SlotFree g s r e) :=
  inferInstanceAs (Decidable (∀ q ∈ s.started, q ≠ r →
    ∀ e' ∈ heldSlots g q.target (s.point q), e'.1 = e.1 → LockMode.Compatible e.2 e'.2))

instance (r : ExecRun τ) : Decidable (ExecuteFree s r) :=
  inferInstanceAs (Decidable (∀ q ∈ s.started, q ≠ r → q.target = r.target → ¬ Locked (s.point q)))

instance [Fintype π] (r : ExecRun τ) : Decidable (Fits g s r) :=
  inferInstanceAs (Decidable (∀ p, reserved g s p + need g r.target p ≤ g.capacity p))

instance [DecidableEq χ] (r : ExecRun τ) (c : χ) : Decidable (CellFree g s r c) :=
  inferInstanceAs (Decidable (∀ q ∈ s.started, q ≠ r → heldCell? g q.target (s.point q) ≠ some c))

instance [DecidableEq χ] [Fintype π] (r : ExecRun τ) : DecidablePred (ReadyAt g s r)
  | .idle | .finished => isFalse id
  | .resolving =>
    inferInstanceAs (Decidable (∀ d ∈ (g.target r.target).deps, s.point (r.dep d) = .finished))
  | .locking k =>
    inferInstanceAs (Decidable (∀ e ∈ (g.target r.target).slots.entries[k]?, SlotFree g s r e))
  | .executeLock => inferInstanceAs (Decidable (ExecuteFree s r))
  | .admitting => inferInstanceAs (Decidable (s.queue.head? = some r ∧ Fits g s r))
  | .presenting k =>
    inferInstanceAs (Decidable (∀ c ∈ (g.target r.target).credentials[k]?, CellFree g s r c))
  | .minting k p => inferInstanceAs (Decidable (s.point (r.nested k p) = .finished))

/-! ### Steps -/

/-- Where a run goes when it has what it waits for. A demand of nothing is granted at once. -/
def next [Fintype π] (t : τ) : RunPoint τ → RunPoint τ
  | .idle => .idle
  | .resolving => .locking 0
  | .locking k => if k < (g.target t).slots.entries.length then .locking (k + 1) else .executeLock
  | .executeLock => if ∀ p, need g t p = 0 then .presenting 0 else .admitting
  | .admitting => .presenting 0
  | .presenting k => if k < (g.target t).credentials.length then .presenting (k + 1) else .finished
  | .minting k _ => .presenting (k + 1)
  | .finished => .finished

/-- The run is at a point. -/
def setPoint (p : RunPoint τ) : Executes τ :=
  { s with point := Function.update s.point r p, started := insert r s.started }

/-- The queue after a run has gone on: it joins at the end, and leaves when it is admitted. -/
def queueAfter (old new : RunPoint τ) : List (ExecRun τ) :=
  if new = .admitting then s.queue ++ [r]
  else if old = .admitting then s.queue.tail
  else s.queue

/-- The run goes on. -/
def goOn [Fintype π] (r : ExecRun τ) : Executes τ :=
  { s.setPoint r (next g r.target (s.point r)) with
    queue := s.queueAfter r (s.point r) (next g r.target (s.point r)) }

/-- A run asks for the dependency `d`, and `p` is where the run of it is then. -/
def askDep (d : τ) (p : RunPoint τ) : Option (Executes τ) := do
  guard (s.point r = .resolving ∧ d ∈ (g.target r.target).deps ∧ s.point (r.dep d) = .idle)
  some (s.setPoint (r.dep d) p)

/-- One step. -/
def step [DecidableEq χ] [Fintype π] : ExecEvent τ → Option (Executes τ)
  | .ask n t => do
    guard (s.point ⟨n, t, []⟩ = .idle)
    some (s.setPoint ⟨n, t, []⟩ .resolving)
  | .startDep r d => askDep g s r d .resolving
  | .hitDep r d => askDep g s r d .finished
  | .advance r => do
    guard (ReadyAt g s r (s.point r))
    some (s.goOn g r)
  | .mint r =>
    match s.point r with
    | .presenting k => do
      let c ← (g.target r.target).credentials[k]?
      guard (CellFree g s r c)
      let p ← g.producer c
      -- the credential is acquired with its cell locked
      some ((s.setPoint r (.minting k p)).setPoint (r.nested k p) .resolving)
    | _ => none

end Graph

/-- Nothing is started. -/
def start (τ : Type) : Executes τ := ⟨fun _ => .idle, ∅, []⟩

/-- All the interleavings of the executes of a workspace. -/
def machine {τ σ χ π : Type} [LinearOrder σ] [DecidableEq τ] [DecidableEq χ] [Fintype π]
    (g : ExecGraph τ σ χ π) : Machine (Executes τ) (ExecEvent τ) := ⟨start τ, fun s => s.step g⟩

/-! ### What a step does -/

section Step

variable {τ σ χ π : Type} [LinearOrder σ] [DecidableEq τ] [DecidableEq χ] [Fintype π]
  {g : ExecGraph τ σ χ π} {s s' : Executes τ} {e : ExecEvent τ}

/-- **What a step can do**: an outermost run starts or is a hit, a run goes on, or a run executes a
producer. -/
inductive Did (g : ExecGraph τ σ χ π) (s : Executes τ) : Executes τ → Prop
  | started (n : ℕ) (t : τ) {p : RunPoint τ} (hp : p = .resolving ∨ p = .finished)
      (hidle : s.point ⟨n, t, []⟩ = .idle) : Did g s (s.setPoint ⟨n, t, []⟩ p)
  | wentOn (r : ExecRun τ) (hready : ReadyAt g s r (s.point r)) : Did g s (s.goOn g r)
  | minted (r : ExecRun τ) {k : ℕ} {c : χ} {p : τ} (hpoint : s.point r = .presenting k)
      (hc : (g.target r.target).credentials[k]? = some c) (hp : g.producer c = some p) :
      Did g s ((s.setPoint r (.minting k p)).setPoint (r.nested k p) .resolving)

omit [DecidableEq χ] in
theorem did_of_askDep {r : ExecRun τ} {d : τ} {p : RunPoint τ}
    (hp : p = .resolving ∨ p = .finished) (h : askDep g s r d p = some s') : Did g s s' := by
  obtain ⟨⟨-, -, hidle⟩, rfl⟩ : (_ ∧ _ ∧ _) ∧ _ = s' := by
    simpa [askDep, bind_eq_some_iff, guard_eq_some'] using h
  exact .started _ _ hp hidle

theorem did_of_step (h : s.step g e = some s') : Did g s s' := by
  cases e with
  | ask n t =>
    obtain ⟨hidle, rfl⟩ : _ ∧ _ = s' := by
      simpa [step, bind_eq_some_iff, guard_eq_some'] using h
    exact .started n t (.inl rfl) hidle
  | startDep r d => exact did_of_askDep (.inl rfl) h
  | hitDep r d => exact did_of_askDep (.inr rfl) h
  | advance r =>
    obtain ⟨hready, rfl⟩ : _ ∧ _ = s' := by
      simpa [step, bind_eq_some_iff, guard_eq_some'] using h
    exact .wentOn r hready
  | mint r =>
    rw [step] at h
    split at h
    · next k hk =>
      obtain ⟨c, hc, -, p, hp, rfl⟩ :
          ∃ c, _ = some c ∧ CellFree g s r c ∧ ∃ p, g.producer c = some p ∧ _ = s' := by
        simpa [bind_eq_some_iff, guard_eq_some'] using h
      exact .minted r hk hc hp
    · simp at h

end Step

/-! ### Where the runs are -/

section Placed

variable {τ σ χ π : Type} [LinearOrder σ] {g : ExecGraph τ σ χ π} {r : ExecRun τ} {k : ℕ}
  {s s' : Executes τ} {p : RunPoint τ}

/-- The `k`-th credential has been acquired at the point. -/
def Past (k : ℕ) : RunPoint τ → Prop
  | .idle | .resolving | .locking _ | .executeLock | .admitting => False
  | .presenting j | .minting j _ => k < j
  | .finished => True

/-- What holds of the points in every reachable state. -/
structure Placed (g : ExecGraph τ σ χ π) (s : Executes τ) : Prop where
  mem_started : ∀ r, s.point r ≠ .idle → r ∈ s.started
  nodup : s.queue.Nodup
  mem_queue : ∀ r, r ∈ s.queue ↔ s.point r = .admitting
  need_ne_zero : ∀ r, s.point r = .admitting → ∃ i, need g r.target i ≠ 0
  /-- The producer that a run waits for is that of its credential, and is executed. -/
  minting : ∀ r k p, s.point r = .minting k p →
    (∃ c, (g.target r.target).credentials[k]? = some c ∧ g.producer c = some p) ∧
      s.point (r.nested k p) ≠ .idle
  /-- A producer is executed when its turn has come, and not before. -/
  nested : ∀ r k p, s.point (r.nested k p) ≠ .idle → s.point r = .minting k p ∨ Past k (s.point r)

theorem nested_ne {p : τ} : r.nested k p ≠ r := by
  intro h
  have := congrArg (fun q => q.outer.length) h
  simp [ExecRun.nested] at this

theorem nested_inj {r r' : ExecRun τ} {k' : ℕ} {p p' : τ} :
    r.nested k p = r'.nested k' p' ↔ r = r' ∧ k = k' ∧ p = p' := by
  cases r
  cases r'
  simp only [ExecRun.nested, ExecRun.mk.injEq, cons.injEq, Prod.mk.injEq]
  tauto

theorem nested_ne_outermost {n : ℕ} {p t : τ} :
    r.nested k p ≠ ⟨n, t, []⟩ := by
  simp [ExecRun.nested]

theorem placed_start (g : ExecGraph τ σ χ π) : Placed g (start τ) where
  mem_started r h := absurd rfl h
  nodup := nodup_nil
  mem_queue r := by simp [start]
  need_ne_zero r h := by simp [start] at h
  minting r k p h := by simp [start] at h
  nested r k p h := absurd rfl h

theorem ReadyAt.ne_idle (h : ReadyAt g s r p) : p ≠ .idle := by
  rintro rfl
  exact h

variable [DecidableEq τ]

@[simp] theorem point_setPoint_self :
    (s.setPoint r p).point r = p :=
  update_self ..

theorem point_setPoint_of_ne {r q : ExecRun τ} (h : q ≠ r) :
    (s.setPoint r p).point q = s.point q :=
  update_of_ne h ..

/-- A run that is moved from idle to a point where it is not queued, and is not nested. -/
theorem Placed.started (h : Placed g s) {n : ℕ} {t : τ}
    (hp : p = .resolving ∨ p = .finished) (hidle : s.point ⟨n, t, []⟩ = .idle) :
    Placed g (s.setPoint ⟨n, t, []⟩ p) where
  mem_started r hr := by
    rcases eq_or_ne r ⟨n, t, []⟩ with rfl | hne
    · exact mem_insert_self ..
    · rw [point_setPoint_of_ne hne] at hr
      exact mem_insert_of_mem (h.mem_started r hr)
  nodup := h.nodup
  mem_queue r := by
    refine (h.mem_queue r).trans ?_
    rcases eq_or_ne r ⟨n, t, []⟩ with rfl | hne
    · rcases hp with rfl | rfl <;> simp [hidle]
    · rw [point_setPoint_of_ne hne]
  need_ne_zero r hr := by
    rcases eq_or_ne r ⟨n, t, []⟩ with rfl | hne
    · rcases hp with rfl | rfl <;> simp at hr
    · exact h.need_ne_zero r (point_setPoint_of_ne hne ▸ hr)
  minting r k q hr := by
    rw [point_setPoint_of_ne nested_ne_outermost]
    rcases eq_or_ne r ⟨n, t, []⟩ with rfl | hne
    · rcases hp with rfl | rfl <;> simp at hr
    · exact h.minting r k q (point_setPoint_of_ne hne ▸ hr)
  nested r k q hr := by
    rw [point_setPoint_of_ne nested_ne_outermost] at hr
    rcases eq_or_ne r ⟨n, t, []⟩ with rfl | hne
    · rcases h.nested _ k q hr with hr | hr <;> simp [hidle, Past] at hr
    · rw [point_setPoint_of_ne hne]
      exact h.nested r k q hr

/-- The producer of the next credential has not been executed yet. -/
theorem Placed.nested_idle (h : Placed g s)
    (hpoint : s.point r = .presenting k) (p : τ) : s.point (r.nested k p) = .idle := by
  by_contra hidle
  rcases h.nested r k p hidle with hr | hr <;> simp [hpoint, Past] at hr

/-- A run that executes a producer: the producer has not been executed for it before. -/
theorem Placed.minted (h : Placed g s) {c : χ} {p : τ}
    (hpoint : s.point r = .presenting k) (hc : (g.target r.target).credentials[k]? = some c)
    (hp : g.producer c = some p) :
    Placed g ((s.setPoint r (.minting k p)).setPoint (r.nested k p) .resolving) where
  mem_started q hq := by
    rcases eq_or_ne q (r.nested k p) with rfl | hne
    · exact mem_insert_self ..
    refine mem_insert_of_mem ?_
    rcases eq_or_ne q r with rfl | hne'
    · exact mem_insert_self ..
    · rw [point_setPoint_of_ne hne, point_setPoint_of_ne hne'] at hq
      exact mem_insert_of_mem (h.mem_started q hq)
  nodup := h.nodup
  mem_queue q := by
    refine (h.mem_queue q).trans ?_
    rcases eq_or_ne q (r.nested k p) with rfl | hne
    · simp [h.nested_idle hpoint]
    rw [point_setPoint_of_ne hne]
    rcases eq_or_ne q r with rfl | hne'
    · simp [hpoint]
    · rw [point_setPoint_of_ne hne']
  need_ne_zero q hq := by
    have hne : q ≠ r.nested k p := by
      rintro rfl
      simp at hq
    rw [point_setPoint_of_ne hne] at hq
    rcases eq_or_ne q r with rfl | hne'
    · simp at hq
    · exact h.need_ne_zero q (point_setPoint_of_ne hne' ▸ hq)
  minting q j u hq := by
    have hne : q ≠ r.nested k p := by
      rintro rfl
      simp at hq
    rw [point_setPoint_of_ne hne] at hq
    rcases eq_or_ne q r with rfl | hne'
    · obtain ⟨rfl, rfl⟩ : k = j ∧ p = u := by simpa using hq
      exact ⟨⟨c, hc, hp⟩, by simp⟩
    · rw [point_setPoint_of_ne hne'] at hq
      obtain ⟨hcred, hnested⟩ := h.minting q j u hq
      refine ⟨hcred, ?_⟩
      have hqr : q.nested j u ≠ r.nested k p := fun he => hne' (nested_inj.mp he).1
      rw [point_setPoint_of_ne hqr]
      rcases eq_or_ne (q.nested j u) r with rfl | hne''
      · simp
      · rwa [point_setPoint_of_ne hne'']
  nested q j u hq := by
    rcases eq_or_ne q r with rfl | hne
    · rw [point_setPoint_of_ne nested_ne.symm, point_setPoint_self]
      rcases eq_or_ne (q.nested j u) (q.nested k p) with he | he
      · obtain ⟨-, rfl, rfl⟩ := nested_inj.mp he
        exact .inl rfl
      · -- its credential comes before the one that is acquired now
        rw [point_setPoint_of_ne he, point_setPoint_of_ne nested_ne] at hq
        rcases h.nested q j u hq with hq | hq
        · simp [hpoint] at hq
        · exact .inr (by simpa [hpoint, Past] using hq)
    · have hnested : s.point (q.nested j u) ≠ .idle := by
        have he : q.nested j u ≠ r.nested k p := fun he => hne (nested_inj.mp he).1
        rw [point_setPoint_of_ne he] at hq
        rcases eq_or_ne (q.nested j u) r with hr | hr
        · simp [hr, hpoint]
        · rwa [point_setPoint_of_ne hr] at hq
      rcases eq_or_ne q (r.nested k p) with rfl | hne'
      · have hbefore := h.nested _ j u hnested
        simp [h.nested_idle hpoint, Past] at hbefore
      · rw [point_setPoint_of_ne hne', point_setPoint_of_ne hne]
        exact h.nested q j u hnested

section Next

variable [Fintype π] {t : τ}

omit [DecidableEq τ] in
theorem next_ne_idle (hp : p ≠ .idle) : next g t p ≠ .idle := by
  cases p <;> simp only [next] <;> (try split) <;> simp_all

omit [DecidableEq τ] in
theorem next_ne_minting {k : ℕ} {u : τ} : next g t p ≠ .minting k u := by
  cases p <;> simp only [next] <;> (try split) <;> simp

omit [DecidableEq τ] in
/-- Only those with a demand are queued, after the execute lock. -/
theorem next_eq_admitting :
    next g t p = .admitting ↔ p = .executeLock ∧ ∃ i, need g t i ≠ 0 := by
  cases p <;> simp only [next] <;> (try split) <;> simp_all

omit [DecidableEq τ] in
theorem Past.next {k : ℕ} (h : Past k p) : Past k (next g t p) := by
  cases p with
  | idle | resolving | locking | executeLock | admitting => exact h.elim
  | presenting j =>
    rw [next]
    split
    · exact Nat.lt_succ_of_lt h
    · trivial
  | minting j u => exact Nat.lt_succ_of_lt h
  | finished => trivial

@[simp] theorem point_goOn_self : (s.goOn g r).point r = Executes.next g r.target (s.point r) :=
  update_self ..

theorem point_goOn_of_ne {q : ExecRun τ} (h : q ≠ r) : (s.goOn g r).point q = s.point q :=
  update_of_ne h ..

theorem mem_queue_goOn (h : Placed g s) (hready : ReadyAt g s r (s.point r)) :
    (s.goOn g r).queue.Nodup ∧
      ∀ q, q ∈ (s.goOn g r).queue ↔ (s.goOn g r).point q = .admitting := by
  have hqueue : (s.goOn g r).queue =
    s.queueAfter r (s.point r) (next g r.target (s.point r)) := rfl
  rw [hqueue, queueAfter]
  split
  · next hnew =>
    -- it joins the queue
    have hold : s.point r = .executeLock := (next_eq_admitting.mp hnew).1
    have hmem : r ∉ s.queue := fun hmem => by simp [(h.mem_queue r).mp hmem] at hold
    refine ⟨nodup_append.mpr ⟨h.nodup, by simp, ?_⟩, fun q => ?_⟩
    · rintro a ha b hb rfl
      obtain rfl := List.mem_singleton.mp hb
      exact hmem ha
    · rcases eq_or_ne q r with rfl | hne
      · simp [hnew]
      · simp [point_goOn_of_ne hne, hne, h.mem_queue]
  · next hnew =>
    split
    · next hold =>
      -- it is at the head, and leaves
      rw [hold] at hready
      obtain ⟨tail, htail⟩ := head?_eq_some_iff.mp hready.1
      have hnodup := h.nodup
      rw [htail, nodup_cons] at hnodup
      rw [htail]
      refine ⟨hnodup.2, fun q => ?_⟩
      rcases eq_or_ne q r with rfl | hne
      · simpa [hnew] using hnodup.1
      · rw [point_goOn_of_ne hne, ← h.mem_queue, htail]
        simp [hne]
    · next hold =>
      refine ⟨h.nodup, fun q => ?_⟩
      rcases eq_or_ne q r with rfl | hne
      · simp [h.mem_queue, hnew, hold]
      · rw [point_goOn_of_ne hne, h.mem_queue]

theorem Placed.goOn (h : Placed g s) (hready : ReadyAt g s r (s.point r)) :
    Placed g (s.goOn g r) where
  mem_started q hq := by
    rcases eq_or_ne q r with rfl | hne
    · exact mem_insert_self ..
    · rw [point_goOn_of_ne hne] at hq
      exact mem_insert_of_mem (h.mem_started q hq)
  nodup := (mem_queue_goOn h hready).1
  mem_queue := (mem_queue_goOn h hready).2
  need_ne_zero q hq := by
    rcases eq_or_ne q r with rfl | hne
    · exact (next_eq_admitting.mp (point_goOn_self.symm.trans hq)).2
    · rw [point_goOn_of_ne hne] at hq
      exact h.need_ne_zero q hq
  minting q k u hq := by
    rcases eq_or_ne q r with rfl | hne
    · exact absurd (point_goOn_self.symm.trans hq) next_ne_minting
    · rw [point_goOn_of_ne hne] at hq
      obtain ⟨hcred, hnested⟩ := h.minting q k u hq
      refine ⟨hcred, ?_⟩
      rcases eq_or_ne (q.nested k u) r with rfl | hne'
      · rw [point_goOn_self]
        exact next_ne_idle hnested
      · rwa [point_goOn_of_ne hne']
  nested q k u hq := by
    have hnested : s.point (q.nested k u) ≠ .idle := by
      rcases eq_or_ne (q.nested k u) r with hr | hr
      · rw [hr]
        exact hready.ne_idle
      · rwa [point_goOn_of_ne hr] at hq
    have hbefore := h.nested q k u hnested
    rcases eq_or_ne q r with rfl | hne
    · rw [point_goOn_self]
      rcases hbefore with hq | hq
      · rw [hq]
        exact .inr (Nat.lt_succ_self k)
      · exact .inr hq.next
    · rwa [point_goOn_of_ne hne]

variable [DecidableEq χ]

/-- **The points in every reachable state.** -/
theorem placed_of_run {es : List (ExecEvent τ)} (h : (machine g).run es = some s) : Placed g s := by
  refine Machine.run_invariant (placed_start g) ?_ h
  intro s e s' hs hstep
  obtain ⟨n, t, hp, hidle⟩ | ⟨r, hready⟩ | ⟨r, hpoint, hc, hp⟩ := did_of_step hstep
  · exact hs.started hp hidle
  · exact hs.goOn hready
  · exact hs.minted hpoint hc hp

end Next

end Placed

end Executes

end Heph
