import Heph.Memo.TaskCell

/-!
# What a step of the memoizer can do, and what every run keeps

`Memo.Took` lists the steps once more, this time as the cases a proof splits into:
each with the guards it was taken under and the state it leads to. The invariant
`Memo.Inv` is what holds in every state a run reaches, whatever happens in between:
the interest of a cell is the number of its live joiners, a cell in the map whose body
may still run is driven by a task or by the caller that created it, and a value that can
be read off a cell is one its body has published.
-/

namespace Heph

open List Option Function Nat TaskCell Caller Bool

namespace Phase

variable {V : Type} {e : MemoEvent V}

/-- The moves of the future of generation `g`, with the events that make them: its loop
over the graves, the start and the end of its body, the publication, and the drop. -/
inductive Next (g : ℕ) : MemoEvent V → Phase V → Phase V → Prop
  | awaited {gr : Grave} : Next g (.awaited g) (waiting (some gr)) (waiting none)
  | take {gr : Grave} : Next g (.drain g) (waiting none) (waiting (some gr))
  | start : Next g (.drain g) (waiting none) running
  | finish {v : V} : Next g (.finish g v) running (finished v)
  | publish {v : V} : Next g (.publish g) (finished v) (published v)
  | drop {e : MemoEvent V} {p : Phase V} (hp : p.isAlive = true) : Next g e p dropped

theorem Next.isAlive {g : ℕ} {p q : Phase V} (h : Next g e p q)
    (hq : q.isAlive = true) : p.isAlive = true := by
  cases h with
  | publish => simp [isAlive] at hq
  | drop hp => exact hp
  | _ => rfl

theorem Next.isOver {g : ℕ} {p q : Phase V} (h : Next g e p q) :
    p.isOver = false := by
  cases h with
  | drop hp => cases p <;> simp_all [Phase.isAlive, Phase.isOver]
  | _ => rfl

end Phase

namespace Memo

variable {V : Type} {inlineFirst : Bool} {s s' : Memo V} {g c : ℕ} {e : MemoEvent V} {x : Caller V}
  {l : List (Caller V)}

/-! ### Reading a state that has been written to -/

/-- The flags of a task are the same in both states. -/
def SameFlags (s s' : Memo V) (g : ℕ) : Prop :=
  (s'.bodies g).aborted = (s.bodies g).aborted ∧ (s'.bodies g).resolved = (s.bodies g).resolved

section Read

variable (s : Memo V) (g h c : ℕ) {β : Type}

theorem phase_modifyCell (f : TaskCell V → TaskCell V) : (s.modifyCell g f).phase h = s.phase h :=
  rfl

theorem phase_setCaller (x : Caller V) : (s.setCaller c x).phase h = s.phase h := rfl

theorem cells_setCaller (x : Caller V) : (s.setCaller c x).cells h = s.cells h := rfl

theorem cells_setPhase (p : Phase V) : (s.setPhase g p).cells h = s.cells h := rfl

theorem cells_modifyCell (f : TaskCell V → TaskCell V) :
    (s.modifyCell g f).cells h = if h = g then f (s.cells g) else s.cells h :=
  update_apply ..

/-- Writing to the other fields of a cell leaves a field alone. -/
theorem field_modifyCell (field : TaskCell V → β) {f : TaskCell V → TaskCell V}
    (hf : ∀ c, field (f c) = field c) :
    field ((s.modifyCell g f).cells h) = field (s.cells h) := by
  rw [cells_modifyCell]
  split
  · next hg => rw [hf, hg]
  · rfl

theorem field_setTask (field : TaskCell V → β) (b : Bool)
    (hf : ∀ c, field { c with task := b } = field c) :
    field ((s.modifyCell g fun c => { c with task := b }).cells h) = field (s.cells h) :=
  s.field_modifyCell g h field hf

theorem phase_setPhase (p : Phase V) :
    (s.setPhase g p).phase h = if h = g then p else s.phase h := by
  simp only [phase, setPhase, modifyBody, update_apply]
  split <;> rfl

theorem bodies_setPhase (p : Phase V) :
    (s.setPhase g p).bodies h = if h = g then { s.bodies g with phase := p } else s.bodies h :=
  update_apply ..

/-- Moving a future on leaves the flags of its task alone. -/
theorem sameFlags_setPhase (p : Phase V) : SameFlags s (s.setPhase g p) h := by
  rw [SameFlags, bodies_setPhase]
  split
  · next hg => rw [hg]; exact ⟨rfl, rfl⟩
  · exact ⟨rfl, rfl⟩

theorem phase_modifyBody {f : BodyTask V → BodyTask V} (hf : ∀ b, (f b).phase = b.phase) :
    (s.modifyBody g f).phase h = s.phase h := by
  simp only [phase, modifyBody, update_apply]
  split
  · next hg => rw [hf, hg]
  · rfl

theorem phase_create (task : Bool) :
    (s.create task).phase h = if h = s.size then .waiting s.grave else s.phase h := by
  simp only [phase, create, update_apply]
  split <;> rfl

theorem cells_create (task : Bool) :
    (s.create task).cells h = if h = s.size
      then ⟨none, 1, task, s.grave.elim 0 fun gr => (gr.restarts + 1) % 2 ^ 32⟩
      else s.cells h :=
  update_apply ..

theorem callers_create (task : Bool) :
    (s.create task).callers =
      s.callers ++ [if task then .joined s.size else .driving s.size] := rfl

theorem phase_publish (v : V) :
    (s.publish g v).phase h = if h = g then .published v else s.phase h := by
  rw [publish, phase_setPhase, phase_modifyCell]

theorem phase_dropBody :
    (s.dropBody g).phase h = if h = g then .dropped else s.phase h := by
  unfold dropBody
  rw [phase_setPhase]
  split
  · rfl
  · split <;> rfl

theorem interest_publish (v : V) :
    ((s.publish g v).cells h).interest = (s.cells h).interest := by
  rw [publish, cells_setPhase]
  exact s.field_modifyCell g h interest (by intro; rfl)

theorem sameFlags_dropBody : SameFlags s (s.dropBody g) h := by
  unfold dropBody
  split
  · exact sameFlags_setPhase (modifyCell { s with grave := _ } g _) g h _
  · exact sameFlags_setPhase (s.modifyCell g _) g h _

theorem dropBody_keeps : (s.dropBody g).entry = s.entry ∧ (s.dropBody g).callers = s.callers ∧
    (s.dropBody g).size = s.size := by
  unfold dropBody
  split <;> exact ⟨rfl, rfl, rfl⟩

theorem entry_dropBody : (s.dropBody g).entry = s.entry := (s.dropBody_keeps g).1

theorem callers_dropBody : (s.dropBody g).callers = s.callers := (s.dropBody_keeps g).2.1

theorem cells_dropBody :
    (s.dropBody g).cells h = if h = g then (s.cells g).setOutcome (.error
      "memoized task dropped without publishing (body panicked or its runtime shut down)")
      else s.cells h := by
  unfold dropBody
  rw [cells_setPhase, cells_modifyCell]
  split <;> split <;> rfl

theorem field_dropBody (field : TaskCell V → β)
    (hf : ∀ c msg, field (setOutcome (.error msg) c) = field c) :
    field ((s.dropBody g).cells h) = field (s.cells h) := by
  rw [cells_dropBody]
  split
  · next hg => rw [hf, hg]
  · rfl

theorem interest_dropBody : ((s.dropBody g).cells h).interest = (s.cells h).interest :=
  s.field_dropBody g h interest fun _ _ => rfl

/-- A dropped future parks the handle it was awaiting. -/
theorem grave_dropBody_of_waiting {gr : Grave} (hp : s.phase g = .waiting (some gr)) :
    (s.dropBody g).grave = some ⟨gr.handle, (s.cells g).restarts⟩ := by
  unfold dropBody
  rw [hp]
  rfl

/-- A future dropped later, or with nothing to await, leaves the grave alone. -/
theorem grave_dropBody_of_ne (hp : ∀ gr, s.phase g ≠ .waiting (some gr)) :
    (s.dropBody g).grave = s.grave := by
  unfold dropBody
  split
  · next gr h => exact absurd h (hp gr)
  · rfl

/-- The message of a failed spawn never wins: the drop of the future has poisoned the cell
already. -/
theorem spawnFails_eq : s.spawnFails g = s.dropBody g := by
  have hset : (s.dropBody g).cells g = setOutcome
      (.error "memoized task could not spawn (runtime shut down)") ((s.dropBody g).cells g) := by
    rw [cells_dropBody, if_pos rfl]
    rfl
  rw [spawnFails, modifyCell, ← hset, update_eq_self]

end Read

/-! ### The cases of a step -/

/-- **The steps, case by case**: under which guards an event leads from `s` to which
state. -/
inductive Took (inlineFirst : Bool) (s : Memo V) : MemoEvent V → Memo V → Prop
  | hit {sp : Bool} {g : ℕ} {v : V} (he : s.entry = some g) (hp : (s.cells g).peek = some v) :
      Took inlineFirst s (.process sp) { s with callers := s.callers ++ [.returned g v] }
  | join {sp : Bool} {g : ℕ} (he : s.entry = some g) (hp : (s.cells g).peek = none) :
      Took inlineFirst s (.process sp)
        { s.modifyCell g acquireInterest with callers := s.callers ++ [.joined g] }
  | create {sp : Bool} (he : s.entry = none) :
      Took inlineFirst s (.process sp) (s.create (!inlineFirst && sp))
  | awaited {g : ℕ} {gr : Grave} (hp : s.phase g = .waiting (some gr))
      (hr : (s.bodies gr.handle).resolved = true) :
      Took inlineFirst s (.awaited g) (s.setPhase g (.waiting none))
  | take {g : ℕ} {gr : Grave} (hp : s.phase g = .waiting none) (hg : s.grave = some gr) :
      Took inlineFirst s (.drain g) ({ s with grave := none }.setPhase g (.waiting (some gr)))
  | start {g : ℕ} (hp : s.phase g = .waiting none) (hg : s.grave = none) :
      Took inlineFirst s (.drain g) (s.setPhase g .running)
  | finish {g : ℕ} {v : V} (hp : s.phase g = .running) :
      Took inlineFirst s (.finish g v) (s.setPhase g (.finished v))
  | publish {g : ℕ} {v : V} (hp : s.phase g = .finished v) :
      Took inlineFirst s (.publish g) (s.publish g v)
  | drop {g : ℕ} {cause : DropCause} (hp : (s.phase g).isAlive = true) :
      Took inlineFirst s (.drop g cause) (s.dropBody g)
  | resolve {g : ℕ} (hp : (s.phase g).isOver = true) :
      Took inlineFirst s (.resolve g) (s.modifyBody g fun b => { b with resolved := true })
  | spawn {c g : ℕ} (hc : s.callers[c]? = some (.driving g)) :
      Took inlineFirst s (.spawn c)
        ((s.modifyCell g fun c => { c with task := true }).setCaller c (.joined g))
  | spawnFails {c g : ℕ} (hc : s.callers[c]? = some (.driving g))
      (hp : (s.phase g).isAlive = true) :
      Took inlineFirst s (.spawnFails c) ((s.dropBody g).setCaller c (.joined g))
  | polled {c g : ℕ} (hc : s.callers[c]? = some (.driving g)) (hp : (s.phase g).isOver = true) :
      Took inlineFirst s (.polled c) (s.setCaller c (.joined g))
  | wake {c g : ℕ} {v : V} (hc : s.callers[c]? = some (.joined g))
      (hp : (s.cells g).peek = some v) :
      Took inlineFirst s (.wake c)
        ((s.modifyCell g releaseInterest).setCaller c (.returned g v))
  | leave {c g : ℕ} {x : Caller V} (hc : s.callers[c]? = some (.joined g))
      (hx : x = .gone g ∨ x = .leaving g) :
      Took inlineFirst s (.leave c) ((s.modifyCell g releaseInterest).setCaller c x)
  | standDown {c g : ℕ} (hc : s.callers[c]? = some (.leaving g)) :
      Took inlineFirst s (.cancel c) (s.setCaller c (.gone g))
  | evict {c g : ℕ} (hc : s.callers[c]? = some (.leaving g)) (hi : (s.cells g).interest = 0)
      (hd : (s.cells g).isDone = false) (ht : (s.cells g).task = false) :
      Took inlineFirst s (.cancel c)
        ({ s with entry := if s.entry = some g then none else s.entry }.setCaller c (.gone g))
  | park {c g : ℕ} (hc : s.callers[c]? = some (.leaving g)) (hi : (s.cells g).interest = 0)
      (hd : (s.cells g).isDone = false) (ht : (s.cells g).task = true) :
      Took inlineFirst s (.cancel c)
        ({ s.modifyCell g (fun c => { c with task := false }) with
          entry := if s.entry = some g then none else s.entry
          grave := some ⟨g, (s.cells g).restarts⟩ }.setCaller c (.aborting g))
  | abort {c g : ℕ} (hc : s.callers[c]? = some (.aborting g)) :
      Took inlineFirst s (.abort c)
        ((s.modifyBody g fun b => { b with aborted := true }).setCaller c (.gone g))
  | evictIf {pred : V → Bool} {g : ℕ} {v : V} (he : s.entry = some g)
      (hp : (s.cells g).peek = some v) :
      Took inlineFirst s (.evictIf pred) { s with entry := none }
  | keep {pred : V → Bool} : Took inlineFirst s (.evictIf pred) s

theorem took_process (sp : Bool) : Took inlineFirst s (.process sp) (s.process inlineFirst sp) := by
  unfold process
  split
  · next g he =>
    split
    · next v hp => exact .hit he hp
    · next hp => exact .join he hp
  · next he => exact .create he

theorem took_drain (hp : s.phase g = .waiting none) :
    Took inlineFirst s (.drain g) (s.drain g) := by
  unfold drain
  split
  · next gr hg => exact .take hp hg
  · next hg => exact .start hp hg

theorem took_leave (hc : s.callers[c]? = some (.joined g)) :
    Took inlineFirst s (.leave c) (s.leave c g) := by
  unfold leave
  dsimp only
  split
  · exact .leave hc (.inl rfl)
  · exact .leave hc (.inr rfl)

theorem took_cancel (hc : s.callers[c]? = some (.leaving g)) :
    Took inlineFirst s (.cancel c) (s.cancelAbandoned c g) := by
  unfold cancelAbandoned
  split
  · exact .standDown hc
  · next hgo =>
    obtain ⟨hi, hd⟩ : (s.cells g).interest = 0 ∧ (s.cells g).isDone = false := by
      simpa using hgo
    have hcells : (if s.entry = some g then { s with entry := none } else s).cells = s.cells := by
      split <;> rfl
    dsimp only
    rw [hcells]
    split
    · next ht =>
      have hpark : Took inlineFirst s (.cancel c) _ := .park hc hi hd ht
      convert hpark using 2
      split <;> rfl
    · next ht =>
      have hevict : Took inlineFirst s (.cancel c) _ := .evict hc hi hd (by simpa using ht)
      convert hevict using 2
      split <;> rfl

theorem took_evictIf (pred : V → Bool) :
    Took inlineFirst s (.evictIf pred) (s.evictIf pred) := by
  unfold evictIf
  split
  · next g he =>
    split
    · next hp =>
      obtain ⟨v, hv, -⟩ := (any_eq_true _ _).mp hp
      exact .evictIf he hv
    · exact .keep
  · exact .keep

theorem isAlive_of_canDrop {cause : DropCause} (h : s.canDrop g cause = true) :
    (s.phase g).isAlive = true := by
  cases cause with
  | aborted => exact (and_eq_true_iff.mp h).1
  | panicked =>
    rw [canDrop] at h
    cases hp : s.phase g <;> simp_all [Phase.isRunning, Phase.isAlive]
  | shutdown => exact h

theorem phase_of_isRunning {p : Phase V} (h : p.isRunning = true) : p = .running := by
  cases p <;> simp_all [Phase.isRunning]

/-- **Every step is one of the cases.** -/
theorem took_of_step (h : s.step inlineFirst e = some s') :
    Took inlineFirst s e s' := by
  cases e with
  | process sp =>
    obtain rfl : s.process inlineFirst sp = s' := by simpa [step] using h
    exact took_process sp
  | awaited g =>
    simp only [step] at h
    split at h
    · next gr hp =>
      obtain ⟨hr, rfl⟩ : _ ∧ s.setPhase g (.waiting none) = s' := by simpa using h
      exact .awaited hp hr
    · simp at h
  | drain g =>
    simp only [step] at h
    split at h
    · next hp =>
      obtain rfl : s.drain g = s' := by simpa using h
      exact took_drain hp
    · simp at h
  | finish g v =>
    obtain ⟨hp, rfl⟩ : _ ∧ s.setPhase g (.finished v) = s' := by simpa [step] using h
    exact .finish (phase_of_isRunning hp)
  | publish g =>
    simp only [step] at h
    split at h
    · next v hp =>
      obtain rfl : s.publish g v = s' := by simpa using h
      exact .publish hp
    · simp at h
  | drop g cause =>
    obtain ⟨hp, rfl⟩ : _ ∧ s.dropBody g = s' := by simpa [step] using h
    exact .drop (isAlive_of_canDrop hp)
  | resolve g =>
    obtain ⟨hp, rfl⟩ : _ ∧ (s.modifyBody g fun b => { b with resolved := true }) = s' := by
      simpa [step] using h
    exact .resolve hp
  | spawn c =>
    simp only [step] at h
    split at h
    · next g hc =>
      obtain ⟨-, rfl⟩ : _ ∧
          (s.modifyCell g fun c => { c with task := true }).setCaller c (.joined g) = s' := by
        simpa using h
      exact .spawn hc
    · simp at h
  | spawnFails c =>
    simp only [step] at h
    split at h
    · next g hc =>
      obtain ⟨hp, rfl⟩ : _ ∧ (s.dropBody g).setCaller c (.joined g) = s' := by
        simpa [spawnFails_eq] using h
      exact .spawnFails hc hp
    · simp at h
  | polled c =>
    simp only [step] at h
    split at h
    · next g hc =>
      obtain ⟨hp, rfl⟩ : _ ∧ s.setCaller c (.joined g) = s' := by simpa using h
      exact .polled hc hp
    · simp at h
  | wake c =>
    simp only [step] at h
    split at h
    · next g hc =>
      split at h
      · next v hp =>
        obtain rfl :
            (s.modifyCell g releaseInterest).setCaller c (.returned g v) = s' := by
          simpa using h
        exact .wake hc hp
      · simp at h
    · simp at h
  | leave c =>
    simp only [step] at h
    split at h
    · next g hc =>
      obtain rfl : s.leave c g = s' := by simpa using h
      exact took_leave hc
    · simp at h
  | cancel c =>
    simp only [step] at h
    split at h
    · next g hc =>
      cases h
      exact took_cancel hc
    · simp at h
  | abort c =>
    simp only [step] at h
    split at h
    · next g hc =>
      obtain rfl : (s.modifyBody g fun b => { b with aborted := true }).setCaller c (.gone g) =
          s' := by simpa using h
      exact .abort hc
    · simp at h
  | evictIf pred =>
    obtain rfl : s.evictIf pred = s' := by simpa [step] using h
    exact took_evictIf pred

/-! ### What a step does to each part of the state -/

/-- The step from `s` to `s'` has begun the generation `g`. -/
structure Begun (s s' : Memo V) (g : ℕ) : Prop where
  vacant : s.entry = none
  eq_size : g = s.size
  size_eq : s'.size = s.size + 1
  entry : s'.entry = some g
  phase : s'.phase g = .waiting s.grave
  aborted : (s'.bodies g).aborted = false
  resolved : (s'.bodies g).resolved = false

theorem begun_create {task : Bool} (h : s.entry = none) (hg : g = s.size) :
    Begun s (s.create task) g where
  vacant := h
  eq_size := hg
  size_eq := rfl
  entry := congrArg some hg.symm
  phase := by rw [phase_create, if_pos hg]
  aborted := by simp [create, hg]
  resolved := by simp [create, hg]

section

variable (h : Took inlineFirst s e s') {x : Caller V}

include h

/-- The entry of the map is the old one, or that of a generation just begun. -/
theorem Took.entry (he : s'.entry = some g) :
    s.entry = some g ∨ Begun s s' g := by
  cases h with
  | create h0 => exact .inr (begun_create h0 (some.inj he).symm)
  | evict | park =>
    simp only [setCaller] at he
    split at he
    · simp at he
    · exact .inl he
  | evictIf => simp at he
  | drop | spawnFails => exact .inl (entry_dropBody s _ ▸ he)
  | _ => exact .inl he

theorem Took.size_le : s.size ≤ s'.size := by
  cases h with
  | create => exact le_succ _
  | drop | spawnFails => exact (s.dropBody_keeps _).2.2.ge
  | _ => exact le_refl _

/-- The calls: none moved, one arrived, or one moved on with its generation. -/
theorem Took.callers :
    s'.callers = s.callers ∨
    (∃ x, s'.callers = s.callers ++ [x] ∧ (s.entry = some x.gen ∨ Begun s s' x.gen)) ∨
    ∃ c x y, s.callers[c]? = some x ∧ s'.callers = s.callers.set c y ∧ y.gen = x.gen := by
  cases h with
  | hit he => exact .inr (.inl ⟨_, rfl, .inl he⟩)
  | join he => exact .inr (.inl ⟨_, rfl, .inl he⟩)
  | create he => exact .inr (.inl ⟨_, rfl, .inr (begun_create he (by split <;> rfl))⟩)
  | drop => exact .inl (callers_dropBody s _)
  | @spawnFails _ g hc =>
    exact .inr (.inr ⟨_, _, .joined g, hc, by rw [setCaller, callers_dropBody], rfl⟩)
  | leave hc hx =>
    refine .inr (.inr ⟨_, _, _, hc, rfl, ?_⟩)
    rcases hx with rfl | rfl <;> rfl
  | spawn hc | polled hc | wake hc | standDown hc | evict hc | park hc | abort hc =>
    exact .inr (.inr ⟨_, _, _, hc, rfl, rfl⟩)
  | _ => exact .inl rfl

/-- **A call never changes its generation.** -/
theorem Took.gen (hx : s.callers[c]? = some x) : ∃ y, s'.callers[c]? = some y ∧ y.gen = x.gen := by
  have hlt : c < s.callers.length := (List.getElem?_eq_some_iff.mp hx).1
  rcases h.callers with h | ⟨y, h, -⟩ | ⟨d, z, y, hz, h, hg⟩
  · exact ⟨x, h ▸ hx, rfl⟩
  · exact ⟨x, by rw [h, getElem?_append_left hlt, hx], rfl⟩
  · rw [h, getElem?_set]
    by_cases hd : d = c
    · subst hd
      obtain rfl : z = x := some.inj (hz.symm.trans hx)
      exact ⟨y, by simp [hlt], hg⟩
    · exact ⟨x, by simp [hd, hx], rfl⟩

/-- **A future moves on as the code of `BodyTask` has it**, or is that of a generation
just begun. -/
theorem Took.phase (g : ℕ) :
    s'.phase g = s.phase g ∨ Phase.Next g e (s.phase g) (s'.phase g) ∨ Begun s s' g := by
  cases h with
  | create he =>
    rw [phase_create]
    split
    · next hg => exact .inr (.inr (begun_create he hg))
    · exact .inl rfl
  | @awaited k _ hp | @take k _ hp | @start k hp | @finish k _ hp =>
    rw [phase_setPhase]
    split
    · next hg => subst hg; exact .inr (.inl (by rw [hp]; constructor))
    · exact .inl rfl
  | @publish k _ hp =>
    rw [phase_publish]
    split
    · next hg => subst hg; exact .inr (.inl (by rw [hp]; constructor))
    · exact .inl rfl
  | @drop k _ hp =>
    rw [phase_dropBody]
    split
    · next hg => exact .inr (.inl (.drop (hg ▸ hp)))
    · exact .inl rfl
  | @spawnFails c k hc hp =>
    rw [phase_setCaller, phase_dropBody]
    split
    · next hg => exact .inr (.inl (.drop (hg ▸ hp)))
    · exact .inl rfl
  | resolve => exact .inl (phase_modifyBody s _ g (by intro; rfl))
  | abort =>
    rw [phase_setCaller]
    exact .inl (phase_modifyBody s _ g (by intro; rfl))
  | _ => exact .inl rfl

/-- **The flags of a task** change when its handle resolves, its future being over, and
when a call that is about to abort it does so. -/
theorem Took.flags (g : ℕ) :
    SameFlags s s' g ∨ Begun s s' g ∨
      ((s'.bodies g).aborted = (s.bodies g).aborted ∧ (s'.phase g).isOver = true) ∨
      ((s'.bodies g).resolved = (s.bodies g).resolved ∧ .aborting g ∈ s.callers) := by
  cases h with
  | create he =>
    by_cases hg : g = s.size
    · exact .inr (.inl (begun_create he hg))
    · exact .inl (by simp [SameFlags, Memo.create, hg])
  | @resolve k hp =>
    rw [phase_modifyBody s k g (by intro; rfl)]
    by_cases hg : g = k
    · exact .inr (.inr (.inl ⟨by simp [modifyBody, hg], hg ▸ hp⟩))
    · exact .inl (by simp [SameFlags, modifyBody, hg])
  | @abort c k hc =>
    by_cases hg : g = k
    · exact .inr (.inr (.inr ⟨by simp [setCaller, modifyBody, hg],
        hg ▸ mem_of_getElem? hc⟩))
    · exact .inl (by simp [SameFlags, setCaller, modifyBody, hg])
  | take => exact .inl (sameFlags_setPhase { s with grave := none } _ g _)
  | publish => exact .inl (sameFlags_setPhase (s.modifyCell _ _) _ g _)
  | awaited | start | finish => exact .inl (sameFlags_setPhase s _ g _)
  | drop | spawnFails => exact .inl (sameFlags_dropBody s _ g)
  | _ => exact .inl ⟨rfl, rfl⟩

/-- A body that may still run could do so before the step, or is that of a generation
just begun. -/
theorem Took.isAlive (ha : (s'.phase g).isAlive = true) :
    (s.phase g).isAlive = true ∨ Begun s s' g := by
  rcases h.phase g with hp | hp | hb
  · exact .inl (hp ▸ ha)
  · exact .inl (hp.isAlive ha)
  · exact .inr hb

end

/-! ### The numbers of the generations -/

/-- The numbers in use: the entry of the map and the generations of the calls are below
`size`, and the generations from `size` on have not begun. -/
structure Numbered (s : Memo V) : Prop where
  entry_lt : ∀ g, s.entry = some g → g < s.size
  caller_lt : ∀ x ∈ s.callers, x.gen < s.size
  unborn : ∀ g, s.size ≤ g → s.phase g = .dropped

theorem Numbered.step (hN : Numbered s) (h : Took inlineFirst s e s') : Numbered s' where
  entry_lt g hg := by
    rcases h.entry hg with h0 | hb
    · exact (hN.entry_lt g h0).trans_le h.size_le
    · rw [hb.size_eq, hb.eq_size]
      exact lt_succ_self _
  caller_lt x hx := by
    have hle := h.size_le
    rcases h.callers with h | ⟨y, h, hy⟩ | ⟨c, z, y, hz, h, hg⟩
    · exact (hN.caller_lt x (h ▸ hx)).trans_le hle
    · rw [h, mem_append, mem_singleton] at hx
      rcases hx with hx | rfl
      · exact (hN.caller_lt x hx).trans_le hle
      · rcases hy with hy | hb
        · exact (hN.entry_lt _ hy).trans_le hle
        · rw [hb.size_eq, hb.eq_size]
          exact lt_succ_self _
    · rw [h] at hx
      rcases mem_or_eq_of_mem_set hx with hx | rfl
      · exact (hN.caller_lt x hx).trans_le hle
      · exact hg ▸ (hN.caller_lt z (mem_of_getElem? hz)).trans_le hle
  unborn g hg := by
    have hold : s.phase g = .dropped := hN.unborn g (h.size_le.trans hg)
    rcases h.phase g with hp | hp | hb
    · exact hp.trans hold
    · rw [hold] at hp
      simpa [Phase.isOver] using hp.isOver
    · rw [hb.size_eq, hb.eq_size] at hg
      exact absurd hg (not_succ_le_self _)

/-! ### Interest -/

/-- The live joiners of a generation. -/
def joiners (s : Memo V) (g : ℕ) : ℕ := s.callers.countP (Caller.holds g)

section Interest

theorem holds_new (task : Bool) (g : ℕ) :
    (if task then joined s.size else driving s.size : Caller V).holds g = (s.size == g) := by
  split <;> rfl

theorem joiners_append (s : Memo V) (x : Caller V) (g : ℕ) :
    (s.callers ++ [x]).countP (Caller.holds g) = s.joiners g + (x.holds g).toNat := by
  rw [joiners]
  cases hx : x.holds g <;> simp [hx]

variable {c : ℕ}

theorem joiners_setCaller {x : Caller V} (hc : s.callers[c]? = some x) (y : Caller V)
    (g : ℕ) :
    (s.callers.set c y).countP (Caller.holds g) + (x.holds g).toNat =
      s.joiners g + (y.holds g).toNat := by
  obtain ⟨hlt, rfl⟩ := List.getElem?_eq_some_iff.mp hc
  have hif : ∀ b : Bool, (if b = true then 1 else 0) = b.toNat := by decide
  have hle : (s.callers[c].holds g).toNat ≤ s.joiners g := by
    cases hx : s.callers[c].holds g with
    | false => exact zero_le _
    | true => exact countP_pos_iff.mpr ⟨_, getElem_mem hlt, hx⟩
  rw [countP_set hlt, hif, hif]
  unfold joiners at hle ⊢
  omega

/-- A call that moves on without taking or releasing an interest. -/
theorem joiners_set_of_eq {x y : Caller V} (hc : s.callers[c]? = some x)
    (hxy : ∀ g, y.holds g = x.holds g) (g : ℕ) :
    (s.callers.set c y).countP (Caller.holds g) = s.joiners g := by
  have h := joiners_setCaller hc y g
  rw [hxy g] at h
  omega

theorem joiners_set_le {x y : Caller V} (hc : s.callers[c]? = some x)
    (hy : ∀ g, y.holds g = false) (g : ℕ) :
    (s.callers.set c y).countP (Caller.holds g) ≤ s.joiners g := by
  have h := joiners_setCaller hc y g
  rw [hy g] at h
  exact le.intro h

/-- A joiner that releases its interest. -/
theorem joiners_set_of_joined {k : ℕ} {y : Caller V} (hc : s.callers[c]? = some (.joined k))
    (hy : ∀ g, y.holds g = false) (hI : ∀ g, (s.cells g).interest = s.joiners g) (g : ℕ) :
    ((s.modifyCell k releaseInterest).cells g).interest =
      (s.callers.set c y).countP (Caller.holds g) := by
  have h := joiners_setCaller hc y g
  rw [hy g, holds] at h
  rw [cells_modifyCell]
  split
  · next hk =>
    subst hk
    have hg := hI g
    simp only [beq_self_eq_true, toNat_true, toNat_false] at h
    simp only [releaseInterest]
    omega
  · next hk =>
    have hkg : (k == g) = false := beq_false_of_ne (Ne.symm hk)
    simp only [hkg, toNat_false] at h
    exact (hI g).trans (by omega)

/-- **Interest counts the live joiners**, and one step keeps it so. -/
theorem Took.interest (h : Took inlineFirst s e s') (hN : Numbered s)
    (hI : ∀ g, (s.cells g).interest = s.joiners g) (g : ℕ) :
    (s'.cells g).interest = s'.joiners g := by
  have hg := hI g
  unfold joiners
  cases h with
  | hit => rw [joiners_append]; exact hg
  | @join _ k =>
    rw [joiners_append, cells_modifyCell]
    split
    · next hk => simpa [hk, holds, acquireInterest] using hI k
    · next hk =>
      have hkg : (k == g) = false := beq_false_of_ne (Ne.symm hk)
      simpa [holds, hkg] using hg
  | @create sp =>
    rw [cells_create, callers_create, joiners_append, holds_new]
    split
    · next hk =>
      -- no call has the number of the new generation
      have hnone : s.joiners g = 0 := countP_eq_zero.mpr fun x hx hh => by
        have hlt := hN.caller_lt x hx
        cases x <;> simp_all [holds, Caller.gen]
      rw [hnone, hk]
      simp
    · next hk =>
      have hkg : (s.size == g) = false := beq_false_of_ne (Ne.symm hk)
      simpa [hkg] using hg
  | publish => exact (interest_publish ..).trans hg
  | drop => rw [callers_dropBody, interest_dropBody]; exact hg
  | spawnFails hc =>
    rw [cells_setCaller, interest_dropBody, setCaller, callers_dropBody]
    exact hg.trans (joiners_set_of_eq hc (by intro; rfl) g).symm
  | spawn hc | park hc =>
    exact (s.field_setTask _ g interest _ (by intro; rfl)).trans
      (hg.trans (joiners_set_of_eq hc (by intro; rfl) g).symm)
  | wake hc => exact joiners_set_of_joined hc (by intro; rfl) hI g
  | leave hc hx =>
    refine joiners_set_of_joined hc (fun k => ?_) hI g
    rcases hx with rfl | rfl <;> rfl
  | polled hc | standDown hc | evict hc | abort hc =>
    exact hg.trans (joiners_set_of_eq hc (by intro; rfl) g).symm
  | _ => exact hg

/-- The live joiners of a generation become more only where the map leads to it. -/
theorem Took.joiners (h : Took inlineFirst s e s') (g : ℕ) :
    s'.joiners g ≤ s.joiners g ∨ s.entry = some g ∨ Begun s s' g := by
  unfold Memo.joiners
  cases h with
  | hit => rw [joiners_append]; exact .inl le_rfl
  | @join _ k he =>
    by_cases hk : g = k
    · exact .inr (.inl (hk ▸ he))
    · have hkg : (k == g) = false := beq_false_of_ne (Ne.symm hk)
      rw [joiners_append, holds, hkg]
      exact .inl le_rfl
  | @create sp he =>
    by_cases hk : g = s.size
    · exact .inr (.inr (begun_create he hk))
    · have hkg : (s.size == g) = false := beq_false_of_ne (Ne.symm hk)
      rw [callers_create, joiners_append, holds_new, hkg]
      exact .inl le_rfl
  | drop => rw [callers_dropBody]; exact .inl le_rfl
  | spawnFails hc =>
    rw [setCaller, callers_dropBody]
    exact .inl (joiners_set_of_eq hc (by intro; rfl) g).le
  | wake hc => exact .inl (joiners_set_le hc (by intro; rfl) g)
  | leave hc hx =>
    refine .inl (joiners_set_le hc (fun k => ?_) g)
    rcases hx with rfl | rfl <;> rfl
  | spawn hc | polled hc | standDown hc | evict hc | park hc | abort hc =>
    exact .inl (joiners_set_of_eq hc (by intro; rfl) g).le
  | _ => exact .inl le_rfl

end Interest

/-! ### Values -/

section Values

theorem peek_setOutcome_error (c : TaskCell V) (msg : String) :
    (c.setOutcome (.error msg)).peek = c.peek := by
  cases h : c.outcome <;> simp [setOutcome, peek, h]

variable {c : TaskCell V}

theorem peek_setOutcome_ok {v w : V}
    (h : (c.setOutcome (.ok v)).peek = some w) : c.peek = some w ∨ v = w := by
  cases hc : c.outcome with
  | none => exact .inr (by simpa [setOutcome, peek, hc] using h)
  | some o => exact .inl (by simpa [setOutcome, peek, hc] using h)

theorem peek_setOutcome_of_peek {o : Except String V} {w : V}
    (h : c.peek = some w) : (c.setOutcome o).peek = some w := by
  cases hc : c.outcome with
  | none => simp [peek, hc] at h
  | some o => simpa [setOutcome, peek, hc] using h

theorem peek_dropBody (s : Memo V) (g h : ℕ) :
    ((s.dropBody g).cells h).peek = (s.cells h).peek :=
  s.field_dropBody g h peek peek_setOutcome_error

theorem cells_publish (s : Memo V) (g h : ℕ) (v : V) :
    (s.publish g v).cells h =
      if h = g then { (s.cells g).setOutcome (.ok v) with task := false } else s.cells h := by
  rw [publish, cells_setPhase, cells_modifyCell]

/-- **A value appears in a cell when its body publishes it**, and in no other way. -/
theorem Took.peek (h : Took inlineFirst s e s') {g : ℕ} {v : V} (hv : (s'.cells g).peek = some v) :
    (s.cells g).peek = some v ∨ s.phase g = .finished v ∧ s'.phase g = .published v := by
  cases h with
  | join | wake | leave =>
    exact .inl ((s.field_modifyCell _ g peek (by intro; rfl)).symm.trans hv)
  | spawn | park => exact .inl ((s.field_setTask _ g peek _ (by intro; rfl)).symm.trans hv)
  | create =>
    rw [cells_create] at hv
    split at hv
    · simp [peek] at hv
    · exact .inl hv
  | @publish k w hp =>
    rw [cells_publish] at hv
    rw [phase_publish]
    split at hv
    · next hk =>
      rcases peek_setOutcome_ok hv with h | rfl
      · exact .inl (hk ▸ h)
      · exact .inr ⟨hk ▸ hp, if_pos hk⟩
    · exact .inl hv
  | drop | spawnFails => exact .inl (peek_dropBody s _ g ▸ hv)
  | _ => exact .inl hv

/-- **A published value stays.** -/
theorem Took.peek_of_peek (h : Took inlineFirst s e s') {g : ℕ} {v : V} (hg : g < s.size)
    (hv : (s.cells g).peek = some v) : (s'.cells g).peek = some v := by
  cases h with
  | join | wake | leave => exact (s.field_modifyCell _ g TaskCell.peek (by intro; rfl)).trans hv
  | spawn | park => exact (s.field_setTask _ g TaskCell.peek _ (by intro; rfl)).trans hv
  | create => rw [cells_create, if_neg hg.ne]; exact hv
  | publish =>
    rw [cells_publish]
    split
    · next hk => exact peek_setOutcome_of_peek (hk ▸ hv)
    · exact hv
  | drop | spawnFails => exact (peek_dropBody s _ g).trans hv
  | _ => exact hv

end Values

/-! ### Calls -/

/-- What is true of a call that a step has brought where it is: it returns what it has
read off the cell it found or waited for, and it is about to abort a task when it has
just evicted the cell, with no interest left in it. -/
def Got (s s' : Memo V) : Caller V → Prop
  | .returned g v => (s.cells g).peek = some v
  | .aborting g => (s.cells g).interest = 0 ∧ s'.entry ≠ some g ∧ s'.joiners g = s.joiners g
  | _ => True

theorem got_of_mem_append {y : Caller V} (hx : x ∈ l ++ [y])
    (hy : Got s s' y) : x ∈ l ∨ Got s s' x := by
  rcases mem_append.mp hx with hx | hx
  · exact .inl hx
  · exact .inr (mem_singleton.mp hx ▸ hy)

theorem got_of_mem_set {y : Caller V} (hx : x ∈ l.set c y)
    (hy : Got s s' y) : x ∈ l ∨ Got s s' x := by
  rcases mem_or_eq_of_mem_set hx with hx | rfl
  · exact .inl hx
  · exact .inr hy

theorem Took.mem_callers (h : Took inlineFirst s e s') (hx : x ∈ s'.callers) :
    x ∈ s.callers ∨ Got s s' x := by
  cases h with
  | hit he hp => exact got_of_mem_append hx hp
  | join => exact got_of_mem_append hx trivial
  | @create sp =>
    refine got_of_mem_append hx ?_
    cases !inlineFirst && sp <;> exact trivial
  | wake hc hp => exact got_of_mem_set hx hp
  | park hc hi =>
    refine got_of_mem_set hx ⟨hi, ?_, joiners_set_of_eq hc (by intro; rfl) _⟩
    simp only [setCaller]
    split <;> simp_all
  | drop => exact .inl (callers_dropBody s _ ▸ hx)
  | spawnFails =>
    rw [setCaller, callers_dropBody] at hx
    exact got_of_mem_set hx trivial
  | leave hc hy =>
    refine got_of_mem_set hx ?_
    rcases hy with rfl | rfl <;> exact trivial
  | spawn | polled | standDown | evict | abort => exact got_of_mem_set hx trivial
  | _ => exact .inl hx

theorem mem_set_of_ne {y z : Caller V} (hc : l[c]? = some x)
    (hz : z ∈ l) (hne : x ≠ z) : z ∈ l.set c y := by
  obtain ⟨i, hi, rfl⟩ := getElem_of_mem hz
  have hci : c ≠ i := by
    rintro rfl
    exact hne (some.inj (hc.symm.trans (getElem?_eq_getElem hi)))
  exact mem_of_getElem? (by rw [getElem?_set_ne hci, getElem?_eq_getElem hi])

/-- A body is driven by its task, or by the call that polls it. -/
def Driven (s : Memo V) (g : ℕ) : Prop := (s.cells g).task = true ∨ .driving g ∈ s.callers

/-- **A body in the map that may still run is driven**, and one step keeps it so. -/
theorem Took.driven (h : Took inlineFirst s e s')
    (hD : ∀ g, s.entry = some g → (s.phase g).isAlive = true → s.Driven g) (g : ℕ)
    (he' : s'.entry = some g) (ha' : (s'.phase g).isAlive = true) : s'.Driven g := by
  have hold : s.entry = some g → s.Driven g := fun he => by
    rcases h.isAlive ha' with ha | hb
    · exact hD g he ha
    · simp [hb.vacant] at he
  unfold Driven at hold ⊢
  cases h with
  | hit => exact (hold he').imp id (mem_append_left _)
  | join =>
    exact (hold he').imp (s.field_modifyCell _ g task (by intro; rfl)).trans (mem_append_left _)
  | @create sp =>
    cases he'
    rw [cells_create, callers_create, if_pos rfl]
    cases !inlineFirst && sp <;> simp
  | @publish k v =>
    rw [phase_publish] at ha'
    rw [cells_publish]
    split at ha'
    · simp [Phase.isAlive] at ha'
    · next hk => rw [if_neg hk]; exact hold he'
  | @drop k =>
    rw [phase_dropBody] at ha'
    rw [cells_dropBody, callers_dropBody]
    split at ha'
    · simp [Phase.isAlive] at ha'
    · next hk => rw [if_neg hk]; exact hold (entry_dropBody s k ▸ he')
  | @spawnFails c k hc =>
    rw [phase_setCaller, phase_dropBody] at ha'
    rw [cells_setCaller, cells_dropBody, setCaller, callers_dropBody]
    split at ha'
    · simp [Phase.isAlive] at ha'
    · next hk =>
      rw [if_neg hk]
      refine (hold (entry_dropBody s k ▸ he')).imp id fun hd => mem_set_of_ne hc hd ?_
      simpa using Ne.symm hk
  | @spawn c k hc =>
    rw [cells_setCaller, cells_modifyCell]
    split
    · exact .inl rfl
    · next hk => exact (hold he').imp id fun hd => mem_set_of_ne hc hd (by simpa using Ne.symm hk)
  | @polled c k hc hp =>
    refine (hold he').imp id fun hd => mem_set_of_ne hc hd ?_
    rintro ⟨rfl⟩
    rw [phase_setCaller] at ha'
    cases hq : s.phase g <;> simp [hq, Phase.isAlive, Phase.isOver] at ha' hp
  | wake hc | leave hc =>
    exact (hold he').imp (s.field_modifyCell _ g task (by intro; rfl)).trans
      fun hd => mem_set_of_ne hc hd (by simp)
  | standDown hc | abort hc =>
    exact (hold he').imp id fun hd => mem_set_of_ne hc hd (by simp)
  | evict hc =>
    refine (hold ?_).imp id fun hd => mem_set_of_ne hc hd (by simp)
    simp only [setCaller] at he'
    split at he'
    · simp at he'
    · exact he'
  | @park c k hc =>
    simp only [setCaller] at he'
    split at he'
    · simp at he'
    · next hk =>
      refine (hold he').imp (fun ht => ?_) fun hd => mem_set_of_ne hc hd (by simp)
      have hgk : g ≠ k := fun hgk => hk (hgk ▸ he')
      have hcell := (cells_modifyCell s k g fun c => { c with task := false }).trans (if_neg hgk)
      exact (congrArg task hcell).trans ht
  | evictIf => simp at he'
  | _ => exact hold he'

/-! ### The invariant -/

/-- The map does not lead to the generation, and nobody has joined its cell. -/
structure Abandoned (s : Memo V) (g : ℕ) : Prop where
  lt_size : g < s.size
  entry_ne : s.entry ≠ some g
  joiners_eq : s.joiners g = 0

/-- **An abandoned generation stays abandoned.** -/
theorem Abandoned.step {inlineFirst : Bool} {s s' : Memo V} {g : ℕ}
    (hA : s.Abandoned g) (h : Took inlineFirst s e s') : s'.Abandoned g where
  lt_size := hA.lt_size.trans_le h.size_le
  entry_ne he := by
    rcases h.entry he with h1 | hb
    · exact hA.entry_ne h1
    · exact hb.eq_size.not_lt hA.lt_size
  joiners_eq := by
    rcases h.joiners g with hle | h1 | hb
    · exact le_zero.mp (hle.trans hA.joiners_eq.le)
    · exact absurd h1 hA.entry_ne
    · exact absurd hA.lt_size hb.eq_size.not_lt

/-- **What every run of the memoizer keeps.** -/
structure Inv (s : Memo V) : Prop extends Numbered s where
  /-- Interest counts the live joiners. -/
  interest_eq : ∀ g, (s.cells g).interest = s.joiners g
  /-- A body in the map that may still run is driven. -/
  driven : ∀ g, s.entry = some g → (s.phase g).isAlive = true → s.Driven g
  /-- A value in a cell has been published by its body. -/
  published : ∀ g v, (s.cells g).peek = some v → s.phase g = .published v
  /-- A call has returned the value of its cell. -/
  returned : ∀ g v, .returned g v ∈ s.callers → (s.cells g).peek = some v
  /-- A handle resolves only when the future is over. -/
  resolved : ∀ g, (s.bodies g).resolved = true → (s.phase g).isOver = true
  /-- A task about to be aborted is out of the map, and nobody has joined its cell. -/
  aborting : ∀ g, .aborting g ∈ s.callers → s.Abandoned g
  /-- So is a task that has been asked to abort. -/
  aborted : ∀ g, (s.bodies g).aborted = true → s.Abandoned g

theorem inv_new : Inv (new : Memo V) where
  entry_lt g hg := by simp [new] at hg
  caller_lt x hx := by simp [new] at hx
  unborn g _ := rfl
  interest_eq g := rfl
  driven g hg := by simp [new] at hg
  published g v hv := by simp [new, peek] at hv
  returned g v hr := by simp [new] at hr
  resolved g _ := rfl
  aborting g hr := by simp [new] at hr
  aborted g ha := by simp [new] at ha

theorem Inv.lt_of_peek (hI : Inv s) {g : ℕ} {v : V} (hv : (s.cells g).peek = some v) :
    g < s.size := by
  by_contra hg
  have hp := hI.published g v hv
  rw [hI.unborn g (not_lt.mp hg)] at hp
  simp at hp

theorem Inv.step (hI : Inv s) (h : Took inlineFirst s e s') : Inv s' where
  toNumbered := hI.toNumbered.step h
  interest_eq := h.interest hI.toNumbered hI.interest_eq
  driven := h.driven hI.driven
  published g v hv := by
    rcases h.peek hv with h0 | ⟨-, hp⟩
    · have hp := hI.published g v h0
      rcases h.phase g with h1 | h1 | hb
      · exact h1.trans hp
      · simpa [hp, Phase.isOver] using h1.isOver
      · exact absurd (hI.lt_of_peek h0) hb.eq_size.not_lt
    · exact hp
  returned g v hr := by
    rcases h.mem_callers hr with h0 | h0
    · have hv := hI.returned g v h0
      exact h.peek_of_peek (hI.lt_of_peek hv) hv
    · exact h.peek_of_peek (hI.lt_of_peek h0) h0
  resolved g hr := by
    have hold : (s.bodies g).resolved = true → (s'.phase g).isOver = true := fun h0 => by
      have hov := hI.resolved g h0
      rcases h.phase g with h1 | h1 | hb
      · exact h1 ▸ hov
      · exact absurd h1.isOver (by simp [hov])
      · exact absurd (hr.symm.trans hb.resolved) (by simp)
    rcases h.flags g with hf | hb | ⟨-, hp⟩ | ⟨hf, -⟩
    · exact hold (hf.2 ▸ hr)
    · exact absurd (hr.symm.trans hb.resolved) (by simp)
    · exact hp
    · exact hold (hf ▸ hr)
  aborting g hr := by
    rcases h.mem_callers hr with h0 | ⟨hi, he, hj⟩
    · exact (hI.aborting g h0).step h
    · exact ⟨(hI.toNumbered.step h).caller_lt _ hr, he,
        hj.trans ((hI.interest_eq g).symm.trans hi)⟩
  aborted g ha := by
    rcases h.flags g with hf | hb | ⟨hf, -⟩ | ⟨-, hc⟩
    · exact (hI.aborted g (hf.1 ▸ ha)).step h
    · exact absurd (ha.symm.trans hb.aborted) (by simp)
    · exact (hI.aborted g (hf ▸ ha)).step h
    · exact (hI.aborting g hc).step h

/-- **The invariant holds at the end of every run.** -/
theorem inv_run {es : List (MemoEvent V)} (h : (machine V inlineFirst).run es = some s) : Inv s :=
  Machine.run_invariant inv_new (fun _ _ _ hI hs => hI.step (took_of_step hs)) h

end Memo

end Heph
