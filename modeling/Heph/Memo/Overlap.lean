import Heph.Memo.Invariant

/-!
# When two bodies of one key can overlap

The grave has room for **one** handle. A canceller writes its task's handle there, and a
task that dies while it still awaits a predecessor writes that predecessor's handle back.
Neither looks at what it overwrites. As long as nothing is lost – the grave is empty, or
holds the handle of a generation whose body can no longer run, or that of the very
generation that does the writing (`Memo.Keeps`) – no two bodies overlap, in any
run: `Memo.running_unique`.

The argument is a count. Every body that may still run has its handle in a place of its
own: the map's entry leads to its generation, or the grave holds the handle, or another
future awaits it (`Memo.Sheltered`). A body is started only when the grave is empty,
by a future that awaits nothing; were another body running, two futures would await
nothing, and there would be fewer places than handles.

Without the condition the count fails. In `Memo.running_overlap` three generations
are cancelled in a row while the first body still runs. The second and third die in the
order in which they were created, each writing back the handle it was awaiting; the
second write loses the handle of the first generation, and the fourth starts its body
next to the one that still runs.
-/

namespace Heph.Memo

open Finset

variable {V : Type}

/-! ### Writes to the grave -/

variable (s : Memo V)

/-- The future awaits a handle. -/
def awaits (g : ℕ) : Bool :=
  match s.phase g with
  | .waiting (some _) => true
  | _ => false

/-- The generation whose cancellation, or whose drop, writes to the grave. -/
def parks : MemoEvent V → Option ℕ
  | .cancel c =>
    match s.callers[c]? with
    | some (.leaving g) =>
      if (s.cells g).interest = 0 ∧ (s.cells g).isDone = false ∧ (s.cells g).task = true then some g
      else none
    | _ => none
  | .drop g _ => if s.awaits g then some g else none
  | .spawnFails c =>
    match s.callers[c]? with
    | some (.driving g) => if s.awaits g then some g else none
    | _ => none
  | _ => none

/-- **A step that loses no handle**: where it writes to the grave, it overwrites at most
its own handle, or that of a generation whose body can no longer run. -/
def Keeps (e : MemoEvent V) : Prop :=
  ∀ g ∈ s.parks e, ∀ gr ∈ s.grave, gr.handle = g ∨ (s.phase gr.handle).isAlive = false

instance (s : Memo V) (e : MemoEvent V) : Decidable (s.Keeps e) :=
  inferInstanceAs (Decidable (∀ g ∈ s.parks e, ∀ gr ∈ s.grave, _))

/-! ### Where the handles are -/

/-- The handle of a generation is in a place where the next generations find it. -/
def Sheltered (k : ℕ) : Prop :=
  s.entry = some k ∨ (∃ gr, s.grave = some gr ∧ gr.handle = k) ∨
    ∃ x gr, s.phase x = .waiting (some gr) ∧ gr.handle = k

variable {inlineFirst : Bool} {s s' : Memo V} {e : MemoEvent V} {k : ℕ} {g : ℕ}

theorem Sheltered.congr (h : s.Sheltered k) (he : s'.entry = s.entry) (hg : s'.grave = s.grave)
    (hp : ∀ x, s'.phase x = s.phase x) : s'.Sheltered k := by
  rcases h with h | h | ⟨x, gr, hx, hk⟩
  · exact .inl (he.trans h)
  · exact .inr (.inl (hg ▸ h))
  · exact .inr (.inr ⟨x, gr, (hp x).trans hx, hk⟩)

/-- A future that awaits nothing may move on. -/
theorem Sheltered.setPhase {p : Phase V} (h : s.Sheltered k)
    (hg : ∀ gr, s.phase g ≠ .waiting (some gr)) : (s.setPhase g p).Sheltered k := by
  rcases h with h | h | ⟨x, gr, hx, hk⟩
  · exact .inl h
  · exact .inr (.inl h)
  · refine .inr (.inr ⟨x, gr, ?_, hk⟩)
    have hxg : x ≠ g := fun hxg => hg gr (hxg ▸ hx)
    rw [phase_setPhase, if_neg hxg]
    exact hx

/-- **A drop that loses no handle** puts the awaited handle where it was awaited from. -/
theorem Sheltered.dropBody (h : s.Sheltered k) (hk : (s.phase k).isAlive = true)
    (hkg : k ≠ g)
    (hK : s.awaits g = true → ∀ gr ∈ s.grave, gr.handle = g ∨ (s.phase gr.handle).isAlive = false) :
    (s.dropBody g).Sheltered k := by
  rcases h with h | ⟨gr, hgr, hgk⟩ | ⟨x, gr, hx, hgk⟩
  · exact .inl ((entry_dropBody s g).trans h)
  · by_cases ha : s.awaits g = true
    · rcases hK ha gr hgr with h0 | h0
      · exact absurd (hgk.symm.trans h0) hkg
      · simp [hgk, hk] at h0
    · have hne : ∀ gr, s.phase g ≠ .waiting (some gr) := fun gr hp => ha (by simp [awaits, hp])
      exact .inr (.inl ⟨gr, (grave_dropBody_of_ne s g hne).trans hgr, hgk⟩)
  · by_cases hxg : x = g
    · subst hxg
      exact .inr (.inl ⟨_, grave_dropBody_of_waiting s x hx, hgk⟩)
    · exact .inr (.inr ⟨x, gr, by rw [phase_dropBody, if_neg hxg]; exact hx, hgk⟩)

/-- **A step that loses no handle keeps every body that may still run sheltered.** -/
theorem Took.sheltered (h : Took inlineFirst s e s') (hI : Inv s) (hK : s.Keeps e)
    (hS : ∀ k, (s.phase k).isAlive = true → s.Sheltered k) (hk : (s'.phase k).isAlive = true) :
    s'.Sheltered k := by
  rcases h.isAlive hk with ha | hb
  swap
  · exact .inl hb.entry
  have hs := hS k ha
  cases h with
  | create he =>
    rcases hs with h | ⟨gr, hgr, hgk⟩ | ⟨x, gr, hx, hgk⟩
    · simp [he] at h
    · refine .inr (.inr ⟨s.size, gr, ?_, hgk⟩)
      rw [phase_create, if_pos rfl, hgr]
    · refine .inr (.inr ⟨x, gr, ?_, hgk⟩)
      have hxs : x ≠ s.size := by
        rintro rfl
        simp [hI.unborn _ le_rfl] at hx
      rw [phase_create, if_neg hxs]
      exact hx
  | @awaited g gr hp hr =>
    rcases hs with h | h | ⟨x, gr', hx, hgk⟩
    · exact .inl h
    · exact .inr (.inl h)
    · refine .inr (.inr ⟨x, gr', ?_, hgk⟩)
      have hxg : x ≠ g := by
        rintro rfl
        obtain rfl : gr' = gr := by simpa [hp] using hx.symm
        have hov := hI.resolved _ hr
        rw [hgk] at hov
        cases hq : s.phase k <;> simp [hq, Phase.isAlive, Phase.isOver] at ha hov
      rw [phase_setPhase, if_neg hxg]
      exact hx
  | @take g gr hp hg =>
    rcases hs with h | ⟨gr', hgr, hgk⟩ | ⟨x, gr', hx, hgk⟩
    · exact .inl h
    · obtain rfl : gr' = gr := by simpa [hg] using hgr.symm
      exact .inr (.inr ⟨g, gr', by rw [phase_setPhase, if_pos rfl], hgk⟩)
    · refine .inr (.inr ⟨x, gr', ?_, hgk⟩)
      have hxg : x ≠ g := by
        rintro rfl
        simp [hp] at hx
      rw [phase_setPhase, if_neg hxg]
      exact hx
  | start hp | finish hp => exact hs.setPhase (by simp [hp])
  | @publish g v hp =>
    have hcell : ∀ f, (s.modifyCell g f).Sheltered k := fun f => hs.congr rfl rfl fun _ => rfl
    exact (hcell _).setPhase (by simp [phase_modifyCell, hp])
  | @drop g _ hp =>
    have hkg : k ≠ g := by
      rintro rfl
      simp [phase_dropBody, Phase.isAlive] at hk
    exact hs.dropBody ha hkg fun haw => hK g (by simp [parks, haw])
  | @spawnFails c g hc hp =>
    have hkg : k ≠ g := by
      rintro rfl
      simp [phase_setCaller, phase_dropBody, Phase.isAlive] at hk
    refine (hs.dropBody ha hkg fun haw => hK g (by simp [parks, hc, haw])).congr rfl rfl ?_
    intro x
    rfl
  | @evict c g hc hi hd ht =>
    rcases hs with h | h | h
    · left
      have hkg : k ≠ g := by
        rintro rfl
        rcases hI.driven k h ha with hdr | hdr
        · simp [ht] at hdr
        · have hpos : 0 < s.joiners k := List.countP_pos_iff.mpr ⟨_, hdr, by simp [Caller.holds]⟩
          have := hI.interest_eq k
          omega
      simp [setCaller, h, hkg]
    · exact .inr (.inl h)
    · exact .inr (.inr h)
  | @park c g hc hi hd ht =>
    by_cases hkg : k = g
    · exact .inr (.inl ⟨_, rfl, hkg.symm⟩)
    rcases hs with h | ⟨gr, hgr, hgk⟩ | h
    · left
      simp [setCaller, h, hkg]
    · rcases hK g (by simp [parks, hc, hi, hd, ht]) gr hgr with h0 | h0
      · exact absurd (hgk.symm.trans h0) hkg
      · simp [hgk, ha] at h0
    · exact .inr (.inr h)
  | @evictIf _ g v he hv =>
    rcases hs with h | h | h
    · obtain rfl : g = k := by simpa [he] using h
      simp [hI.published g v hv, Phase.isAlive] at ha
    · exact .inr (.inl h)
    · exact .inr (.inr h)
  | resolve => exact hs.congr rfl rfl fun h => phase_modifyBody s _ h (by intro; rfl)
  | abort =>
    exact hs.congr rfl rfl fun h =>
      phase_modifyBody (f := fun b => { b with aborted := true }) s _ h fun _ => rfl
  | _ => exact hs.congr rfl rfl (fun _ => rfl)

/-! ### The count -/

/-- The generations whose bodies may still run. -/
def alive (s : Memo V) : Finset ℕ := {g ∈ Finset.range s.size | (s.phase g).isAlive = true}

/-- The generation a future awaits. -/
def awaited (s : Memo V) (g : ℕ) : ℕ :=
  match s.phase g with
  | .waiting (some gr) => gr.handle
  | _ => 0

theorem mem_alive (hN : Numbered s) : g ∈ s.alive ↔ (s.phase g).isAlive = true := by
  rw [alive, mem_filter, mem_range, and_iff_right_iff_imp]
  intro ha
  by_contra hg
  simp [hN.unborn g (not_lt.mp hg), Phase.isAlive] at ha

/-- **Where the grave is empty and a future awaits nothing, no body runs**: the handles of
the bodies that may still run would not all have a place. -/
theorem not_running_of_idle (hN : Numbered s)
    (hS : ∀ k, (s.phase k).isAlive = true → s.Sheltered k) (hg : s.grave = none) {x y : ℕ}
    (hx : s.phase x = .waiting none) : s.phase y ≠ .running := by
  intro hy
  have hxy : x ≠ y := by
    rintro rfl
    simp [hx] at hy
  have hxa : x ∈ s.alive := (mem_alive hN).mpr (by rw [hx]; rfl)
  have hya : y ∈ s.alive := (mem_alive hN).mpr (by rw [hy]; rfl)
  -- every handle is the entry's, or is awaited by a future other than `x` and `y`
  have hsub : s.alive ⊆ s.entry.toFinset ∪ ((s.alive.erase x).erase y).image s.awaited := by
    intro k hk
    rcases hS k ((mem_alive hN).mp hk) with h | ⟨gr, hgr, -⟩ | ⟨z, gr, hz, hzk⟩
    · exact mem_union_left _ (Option.mem_toFinset.mpr h)
    · simp [hg] at hgr
    · refine mem_union_right _ (mem_image.mpr ⟨z, ?_, by simp [awaited, hz, hzk]⟩)
      have hza : z ∈ s.alive := (mem_alive hN).mpr (by rw [hz]; rfl)
      refine mem_erase.mpr ⟨?_, mem_erase.mpr ⟨?_, hza⟩⟩
      · rintro rfl
        simp [hy] at hz
      · rintro rfl
        simp [hx] at hz
  have hone : s.entry.toFinset.card ≤ 1 := by cases s.entry <;> simp
  have hcard := (card_le_card hsub).trans (card_union_le _ _)
  have himage := card_image_le (s := (s.alive.erase x).erase y) (f := s.awaited)
  have hpos : 0 < (s.alive.erase x).card :=
    card_pos.mpr ⟨y, mem_erase.mpr ⟨hxy.symm, hya⟩⟩
  rw [card_erase_of_mem (mem_erase.mpr ⟨hxy.symm, hya⟩)] at himage
  rw [card_erase_of_mem hxa] at himage hpos
  omega

/-- What the runs that lose no handle keep besides. -/
structure Exclusive (s : Memo V) : Prop extends Inv s where
  /-- The handle of a body that may still run has a place. -/
  sheltered : ∀ k, (s.phase k).isAlive = true → s.Sheltered k
  /-- At most one body runs. -/
  unique : ∀ g g', s.phase g = .running → s.phase g' = .running → g = g'

theorem exclusive_new : Exclusive (new : Memo V) where
  toInv := inv_new
  sheltered k hk := by simp [new, phase, Phase.isAlive] at hk
  unique g g' hg := by simp [new, phase] at hg

/-- A body that runs ran before the step, or its future has just found the grave empty. -/
theorem Took.running (h : Took inlineFirst s e s') (hg : s'.phase g = .running) :
    s.phase g = .running ∨
      s.phase g = .waiting none ∧ s.grave = none ∧ ∀ k, k ≠ g → s'.phase k = s.phase k := by
  rcases h.phase g with hp | hp | hb
  · exact .inl (hp.symm.trans hg)
  · rw [hg] at hp
    generalize hq : s.phase g = q at hp
    cases hp
    cases h with
    | take => simp [phase_setPhase] at hg
    | start hp hgr => exact .inr ⟨rfl, hgr, fun k hk => by rw [phase_setPhase, if_neg hk]⟩
  · simp [hb.phase] at hg

theorem Exclusive.step (hE : Exclusive s) (hK : s.Keeps e) (h : Took inlineFirst s e s') :
    Exclusive s' where
  toInv := hE.toInv.step h
  sheltered k hk := h.sheltered hE.toInv hK hE.sheltered hk
  unique g g' hg hg' := by
    -- a start finds no other body running
    have hidle : ∀ {x y}, s.phase x = .waiting none → s.grave = none → s.phase y ≠ .running :=
      fun hx hgr => not_running_of_idle hE.toNumbered hE.sheltered hgr hx
    rcases h.running hg with h1 | ⟨h1, hgr, hsame⟩
    · rcases h.running hg' with h2 | ⟨h2, hgr, -⟩
      · exact hE.unique g g' h1 h2
      · exact absurd h1 (hidle h2 hgr)
    · by_contra hne
      rw [hsame g' (Ne.symm hne)] at hg'
      exact hidle h1 hgr hg'

/-- **No two bodies of the key overlap**, in the runs whose steps lose no handle. -/
theorem running_unique {es : List (MemoEvent V)} (h : (machine V inlineFirst).run es = some s)
    (hK : (machine V inlineFirst).Meets Keeps new es) {g g' : ℕ}
    (hg : (s.phase g).isRunning = true) (hg' : (s.phase g').isRunning = true) : g = g' := by
  have hE : Exclusive s := Machine.runFrom_invariant
    (fun _ _ _ hE hK hs => hE.step hK (took_of_step hs)) exclusive_new hK h
  exact hE.unique g g' (phase_of_isRunning hg) (phase_of_isRunning hg')

/-! ### Three cancellations in a row -/

/-- The first body is started and its task spawned; its only caller leaves, and the task is
asked to abort. Two more generations do no more than await the one before and are
cancelled in turn. -/
def threeCancelled : List (MemoEvent Unit) :=
  [.process false, .drain 0, .spawn 0, .leave 0, .cancel 0, .abort 0,
    .process false, .spawn 1, .leave 1, .cancel 1, .abort 1,
    .process false, .spawn 2, .leave 2, .cancel 2, .abort 2]

/-- The last of the three dies first, then the one before: the grave ends up with the
handle of the body that still runs, and the fourth generation awaits it. -/
def diedInReverse : List (MemoEvent Unit) :=
  threeCancelled ++ [.drop 2 .aborted, .drop 1 .aborted, .process false]

theorem running_unique_diedInReverse :
    ∃ s, (machine Unit true).run diedInReverse = some s ∧
      (machine Unit true).Meets Keeps new diedInReverse ∧
      (s.phase 0).isRunning = true ∧ ∀ g, (s.phase g).isRunning = true → g = 0 := by
  have hK : (machine Unit true).Meets Keeps new diedInReverse := by decide
  obtain ⟨s, h, h0⟩ : ∃ s, (machine Unit true).run diedInReverse = some s ∧
      (s.phase 0).isRunning = true := ⟨_, rfl, rfl⟩
  exact ⟨s, h, hK, h0, fun g hg => running_unique h hK hg h0⟩

/-- **Two bodies of one key run at once.** The two cancelled successors die in the order of
their creation. The first to die writes back the handle of generation `0`, over that of
generation `2`; the next writes back that of generation `1`, over that of generation `0`.
The fourth generation finds the handle of generation `1`, which resolves, then an empty
grave, and starts its body while the first one still runs. -/
theorem running_overlap :
    ∃ s, (machine Unit true).run
        (threeCancelled ++ [.drop 1 .aborted, .drop 2 .aborted, .resolve 1,
          .process false, .awaited 3, .drain 3]) = some s ∧
      (s.phase 0).isRunning = true ∧ (s.phase 3).isRunning = true :=
  ⟨_, rfl, rfl, rfl⟩

end Heph.Memo
