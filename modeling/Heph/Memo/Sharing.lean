import Heph.Memo.Invariant

/-!
# What the callers of one key share

Interest is released outside of the lock and read again inside of it, a publication races
with a cancellation, and two guards of one cell can both find that nobody is left. What
the protocol promises its callers all the same:

* a cancellation evicts only the cell it was called for, and only when nobody has joined
  it and it holds no value (`Memo.Took.cancel`), and a task with a live joiner has
  never been asked to abort;
* a call returns the value that the body of its own cell has returned
  (`Memo.returned_run`);
* between two evictions all the callers that arrive work on one cell
  (`Memo.callers_share`), and its body is started at most once
  (`Memo.mapStarts_le_one`).

The last one is about the cell that is **in the map**. A cell that has been evicted may
still start its body: its future awaited a predecessor when it was cancelled, and it is
woken before the abort that follows the eviction reaches it. Its body then runs between
the same two evictions as that of its successor – in `Memo.two_starts`, one after
the other.
-/

namespace Heph.Memo

open List Machine

variable {V : Type} {inlineFirst : Bool} {s s' : Memo V} {e : MemoEvent V} {g : ℕ}
  {es : List (MemoEvent V)} {x : Caller V}

/-! ### Starts and evictions -/

/-- The generations whose bodies a step starts. -/
def starts (s : Memo V) : MemoEvent V → List ℕ
  | .drain g =>
    match s.phase g, s.grave with
    | .waiting none, none => [g]
    | _, _ => []
  | _ => []

/-- Those of them the map leads to. -/
def mapStarts (s : Memo V) (e : MemoEvent V) : List ℕ :=
  (s.starts e).filter fun g => s.entry == some g

/-- The step takes a cell out of the map. -/
def evicts (inlineFirst : Bool) (s : Memo V) (e : MemoEvent V) : Bool :=
  match s.step inlineFirst e with
  | some s' => s.entry.isSome && s'.entry != s.entry
  | none => false

/-- The step takes no cell out of the map. -/
def Stays (inlineFirst : Bool) (s : Memo V) (e : MemoEvent V) : Prop :=
  s.evicts inlineFirst e = false

instance (inlineFirst : Bool) (s : Memo V) (e : MemoEvent V) :
    Decidable (s.Stays inlineFirst e) :=
  inferInstanceAs (Decidable (_ = false))

theorem Stays.entry (hst : s.Stays inlineFirst e) (h : s.step inlineFirst e = some s')
    (hg : s.entry = some g) : s'.entry = some g := by
  simpa [Stays, evicts, h, hg] using hst

theorem mem_starts (h : g ∈ s.starts e) :
    e = .drain g ∧ s.phase g = .waiting none ∧ s.grave = none := by
  cases e with
  | drain k =>
    simp only [starts] at h
    split at h
    · next hp hg =>
      obtain rfl := mem_singleton.mp h
      exact ⟨rfl, hp, hg⟩
    · simp at h
  | _ => simp [starts] at h

theorem starts_length_le : (s.starts e).length ≤ 1 := by
  cases e with
  | drain k =>
    simp only [starts]
    split <;> simp
  | _ => simp [starts]

theorem mem_mapStarts (h : g ∈ s.mapStarts e) : g ∈ s.starts e ∧ s.entry = some g := by
  simpa [mapStarts] using h

/-- The body has been started, or never will be. -/
def Past (s : Memo V) (g : ℕ) : Prop := g < s.size ∧ ∀ gr, s.phase g ≠ .waiting gr

/-- **A body is started once**: what is past stays past. -/
theorem Past.step (hP : s.Past g) (h : Took inlineFirst s e s') : s'.Past g := by
  refine ⟨hP.1.trans_le h.size_le, fun gr hgr => ?_⟩
  rcases h.phase g with hp | hp | hb
  · exact hP.2 gr (hp.symm.trans hgr)
  · rw [hgr] at hp
    generalize hq : s.phase g = q at hp
    cases hp <;> exact hP.2 _ hq
  · exact hb.eq_size.not_lt hP.1

/-- The body that a step starts is past from then on. -/
theorem past_of_mem_starts (hN : Numbered s) (h : s.step inlineFirst e = some s')
    (hg : g ∈ s.starts e) : s'.Past g := by
  obtain ⟨rfl, hp, hgr⟩ := mem_starts hg
  have hlt : g < s.size := by
    by_contra hlt
    simp [hN.unborn g (not_lt.mp hlt)] at hp
  obtain rfl : s.setPhase g .running = s' := by simpa [step, hp, drain, hgr] using h
  exact ⟨hlt, fun gr hgr => by simp [phase_setPhase] at hgr⟩

/-! ### Starts along a run -/

theorem notMem_starts_of_past {g : ℕ} (hP : s.Past g) :
    g ∉ (machine V inlineFirst).collect starts s es := by
  induction es generalizing s with
  | nil => simp [collect]
  | cons e es ih =>
    rw [collect, mem_append, not_or]
    refine ⟨fun hg => hP.2 _ (mem_starts hg).2.1, ?_⟩
    split
    · simp
    · next t ht => exact ih (hP.step (took_of_step ht))

/-- **Every body is started at most once.** -/
theorem starts_nodup (hN : Numbered s) :
    ((machine V inlineFirst).collect starts s es).Nodup := by
  induction es generalizing s with
  | nil => simp [collect]
  | cons e es ih =>
    rw [collect]
    have hone : (s.starts e).Nodup := by
      cases hl : s.starts e with
      | nil => exact nodup_nil
      | cons g l =>
        obtain rfl : l = [] := by simpa [hl] using s.starts_length_le (e := e)
        simp
    split
    · simpa using hone
    · next t ht =>
      refine nodup_append.mpr ⟨hone, ih (hN.step (took_of_step ht)), ?_⟩
      rintro g hg _ hg' rfl
      exact notMem_starts_of_past (past_of_mem_starts hN ht hg) hg'

/-- While the map leads to a cell whose body is past, no cell in the map starts a body. -/
theorem mapStarts_eq_nil {g : ℕ} (hg : s.entry = some g) (hP : s.Past g)
    (hst : (machine V inlineFirst).Meets (Stays inlineFirst) s es) :
    (machine V inlineFirst).collect mapStarts s es = [] := by
  induction es generalizing s with
  | nil => rfl
  | cons e es ih =>
    have hnil : s.mapStarts e = [] := by
      refine eq_nil_iff_forall_not_mem.mpr fun k hk => ?_
      obtain ⟨hk, he⟩ := mem_mapStarts hk
      obtain rfl : g = k := by simpa [hg] using he
      exact hP.2 _ (mem_starts hk).2.1
    rw [collect, hnil]
    split
    · rfl
    · next t ht => exact ih (hst.1.entry ht hg) (hP.step (took_of_step ht)) (hst.tail ht)

/-- **Between two evictions at most one cell in the map starts its body.** -/
theorem mapStarts_le_one (hN : Numbered s)
    (hst : (machine V inlineFirst).Meets (Stays inlineFirst) s es) :
    ((machine V inlineFirst).collect mapStarts s es).length ≤ 1 := by
  induction es generalizing s with
  | nil => simp [collect]
  | cons e es ih =>
    have hone : (s.mapStarts e).length ≤ 1 :=
      (length_filter_le ..).trans s.starts_length_le
    rw [collect]
    split
    · simpa using hone
    · next t ht =>
      cases hl : s.mapStarts e with
      | nil => exact ih (hN.step (took_of_step ht)) (hst.tail ht)
      | cons g l =>
        -- the map leads to the body just started, until the next eviction
        obtain ⟨hg, he⟩ := mem_mapStarts (hl ▸ mem_cons_self : g ∈ s.mapStarts e)
        rw [mapStarts_eq_nil (hst.1.entry ht he) (past_of_mem_starts hN ht hg) (hst.tail ht),
          append_nil, ← hl]
        exact hone

/-- **Between two evictions all the callers that arrive share one cell**: the one the map
leads to. -/
theorem callers_share (h : (machine V inlineFirst).runFrom s es = some s')
    (hst : (machine V inlineFirst).Meets (Stays inlineFirst) s es) {c : ℕ} {x : Caller V}
    (hc : s.callers.length ≤ c) (hx : s'.callers[c]? = some x) : s'.entry = some x.gen := by
  refine runFrom_invariant
    (I := fun t => ∀ c x, s.callers.length ≤ c → t.callers[c]? = some x → t.entry = some x.gen)
    ?_ ?_ hst h c x hc hx
  · intro t e t' hI hst ht c x hc hx
    have hT := took_of_step ht
    rcases hT.callers with h | ⟨y, h, hy⟩ | ⟨d, z, y, hz, h, hg⟩
    · exact hst.entry ht (hI c x hc (h ▸ hx))
    · rw [h, getElem?_append] at hx
      split at hx
      · exact hst.entry ht (hI c x hc hx)
      · obtain rfl : y = x := by
          have := mem_of_getElem? hx
          simpa [eq_comm] using this
        exact hy.elim (hst.entry ht) Begun.entry
    · rw [h, getElem?_set] at hx
      split at hx
      · next hd =>
        split at hx
        · cases hx
          exact hg ▸ hst.entry ht (hI c z hc (hd ▸ hz))
        · simp at hx
      · exact hst.entry ht (hI c x hc hx)
  · intro c x hc hx
    rw [getElem?_eq_none hc] at hx
    simp at hx

/-! ### Cancellation and return -/

/-- **A cancellation evicts the cell it was called for**, with no interest left in it and
no value published. -/
theorem Took.cancel {c g : ℕ} (h : Took inlineFirst s (.cancel c) s') (hg : s.entry = some g)
    (hg' : s'.entry ≠ some g) :
    s.callers[c]? = some (.leaving g) ∧ (s.cells g).interest = 0 ∧
      (s.cells g).isDone = false := by
  cases h with
  | standDown => exact absurd hg hg'
  | @evict _ k hc hi hd | @park _ k hc hi hd =>
    obtain rfl : k = g := by
      simpa [setCaller, hg, eq_comm] using hg'
    exact ⟨hc, hi, hd⟩

/-- **What a body has returned, and has published, is in the events of the run.** -/
theorem phase_run (h : (machine V inlineFirst).run es = some s) (g : ℕ) (v : V) :
    (s.phase g = .finished v → .finish g v ∈ es) ∧
      (s.phase g = .published v → .finish g v ∈ es ∧ .publish g ∈ es) := by
  refine run_history (P := fun es s =>
    (s.phase g = .finished v → .finish g v ∈ es) ∧
      (s.phase g = .published v → .finish g v ∈ es ∧ .publish g ∈ es)) ?_ ?_ h
  · exact ⟨fun hp => by simp [machine, new, phase] at hp,
      fun hp => by simp [machine, new, phase] at hp⟩
  · intro es s e s' _ hP hs
    rcases (took_of_step hs).phase g with hp | hp | hb
    · rw [hp]
      exact ⟨fun h0 => mem_append_left _ (hP.1 h0),
        fun h0 => (hP.2 h0).imp (mem_append_left _) (mem_append_left _)⟩
    · generalize hq : s.phase g = q at hp hP
      generalize hq' : s'.phase g = q' at hp ⊢
      cases hp with
      | finish =>
        refine ⟨fun h0 => ?_, fun h0 => by simp at h0⟩
        cases h0
        simp
      | publish =>
        refine ⟨fun h0 => by simp at h0, fun h0 => ?_⟩
        cases h0
        exact ⟨mem_append_left _ (hP.1 rfl), by simp⟩
      | _ => exact ⟨fun h0 => by simp at h0, fun h0 => by simp at h0⟩
    · rw [hb.phase]
      exact ⟨fun h0 => by simp at h0, fun h0 => by simp at h0⟩

/-- **A call never changes its generation**, over any run. -/
theorem gen_runFrom {c : ℕ} (h : (machine V inlineFirst).runFrom s es = some s')
    (hx : s.callers[c]? = some x) : ∃ y, s'.callers[c]? = some y ∧ y.gen = x.gen := by
  induction es generalizing s x with
  | nil =>
    cases h
    exact ⟨x, hx, rfl⟩
  | cons e es ih =>
    obtain ⟨t, ht, hrun⟩ := runFrom_cons h
    obtain ⟨y, hy, hyg⟩ := (took_of_step ht).gen hx
    obtain ⟨z, hz, hzg⟩ := ih hrun hy
    exact ⟨z, hz, hzg.trans hyg⟩

/-- **A call returns the value that the body of its own cell has returned and published**:
whatever the call was doing at an earlier point of the run, it was about that cell. -/
theorem returned_run {es₁ es₂ : List (MemoEvent V)} {t : Memo V} {c g : ℕ} {v : V}
    (h₁ : (machine V inlineFirst).run es₁ = some s)
    (h₂ : (machine V inlineFirst).runFrom s es₂ = some t) (hx : s.callers[c]? = some x)
    (hr : t.callers[c]? = some (.returned g v)) :
    x.gen = g ∧ (t.cells g).peek = some v ∧ .finish g v ∈ es₁ ++ es₂ ∧
      .publish g ∈ es₁ ++ es₂ := by
  have hrun : (machine V inlineFirst).run (es₁ ++ es₂) = some t :=
    run_append.mpr ⟨s, h₁, h₂⟩
  obtain ⟨y, hy, hyg⟩ := gen_runFrom h₂ hx
  obtain rfl : y = .returned g v := Option.some.inj (hy.symm.trans hr)
  have hI := inv_run hrun
  have hpeek := hI.returned g v (mem_of_getElem? hr)
  exact ⟨hyg.symm, hpeek, (phase_run hrun g v).2 (hI.published g v hpeek)⟩

/-! ### The contract of one key -/

/-- **What one key promises its callers**, in every state `s` that a run `es` reaches, and
over every run `es'` from there:

* a cancellation evicts only the cell it was called for, when nobody has joined it and it
  holds no value;
* no task whose cell has a live joiner has been asked to abort;
* a call that returns, returns what the body of the cell it was about has returned and
  published;
* as long as no cell is evicted, at most one cell in the map starts its body, and all the
  callers that arrive are about one cell;
* no body is started twice. -/
theorem sharing_run {inlineFirst : Bool} {es : List (MemoEvent V)} {s : Memo V}
    (h : (machine V inlineFirst).run es = some s) :
    (∀ c s' g, s.step inlineFirst (.cancel c) = some s' → s.entry = some g →
      s'.entry ≠ some g →
        s.callers[c]? = some (.leaving g) ∧ s.joiners g = 0 ∧ (s.cells g).isDone = false) ∧
    (∀ g, 0 < s.joiners g → (s.bodies g).aborted = false) ∧
    ∀ es' s', (machine V inlineFirst).runFrom s es' = some s' →
      (∀ (c : ℕ) (x : Caller V) (g : ℕ) (v : V), s.callers[c]? = some x →
        s'.callers[c]? = some (.returned g v) →
          x.gen = g ∧ (s'.cells g).peek = some v ∧ .finish g v ∈ es ++ es' ∧
            .publish g ∈ es ++ es') ∧
      ((machine V inlineFirst).collect starts s es').Nodup ∧
      ((machine V inlineFirst).Meets (Stays inlineFirst) s es' →
        ((machine V inlineFirst).collect mapStarts s es').length ≤ 1 ∧
        ∀ (c c' : ℕ) (x x' : Caller V), s.callers.length ≤ c → s.callers.length ≤ c' →
          s'.callers[c]? = some x → s'.callers[c']? = some x' → x.gen = x'.gen) := by
  have hI := inv_run h
  refine ⟨fun c s' g hs hg hg' => ?_, fun g hj => ?_, fun es' s' h' => ⟨?_, ?_, fun hst => ?_⟩⟩
  · obtain ⟨hc, hi, hd⟩ := (took_of_step hs).cancel hg hg'
    exact ⟨hc, (hI.interest_eq g).symm.trans hi, hd⟩
  · by_contra ha
    have := (hI.aborted g (by simpa using ha)).joiners_eq
    omega
  · exact fun c x g v hx hr => returned_run h h' hx hr
  · exact starts_nodup hI.toNumbered
  · refine ⟨mapStarts_le_one hI.toNumbered hst, fun c c' x x' hc hc' hx hx' => ?_⟩
    have hx := callers_share h' hst hc hx
    have hx' := callers_share h' hst hc' hx'
    exact Option.some.inj (hx.symm.trans hx')

/-- Two callers arrive, one body runs, and both return. -/
def twoCallers : List (MemoEvent Unit) :=
  [.process false, .drain 0, .spawn 0, .process false, .finish 0 (), .publish 0, .wake 0, .wake 1]

theorem sharing_run_twoCallers :
    ∃ s x x', (machine Unit true).run twoCallers = some s ∧ s.callers[0]? = some x ∧
      s.callers[1]? = some x' ∧ x.gen = x'.gen := by
  have hst : (machine Unit true).Meets (Stays true) new twoCallers := by decide
  obtain ⟨s, x, x', h, hx, hx'⟩ : ∃ s x x', (machine Unit true).run twoCallers = some s ∧
      s.callers[0]? = some x ∧ s.callers[1]? = some x' := ⟨_, _, _, rfl, rfl, rfl⟩
  have hnil : (machine Unit true).run [] = some new := rfl
  have hshare := (sharing_run hnil).2.2 twoCallers s h
  exact ⟨s, x, x', h, hx, hx', (hshare.2.2 hst).2 0 1 x x' le_rfl (Nat.zero_le 1) hx hx'⟩

/-! ### A body of a cell that is out of the map -/

/-- The first body runs and is cancelled. The second cell awaits its task, and its only
caller leaves; the second cell is about to be evicted. -/
def beforeEviction : List (MemoEvent Unit) :=
  [.process false, .drain 0, .spawn 0, .leave 0, .cancel 0, .process false, .spawn 1, .leave 1]

/-- The first task dies, and a third cell awaits the second one's. The second future finds
its way free and starts its body before the abort that follows its eviction reaches it; when it
has died, the third one starts its own. -/
def afterEviction : List (MemoEvent Unit) :=
  [.abort 0, .drop 0 .aborted, .resolve 0, .process false, .spawn 2, .awaited 1, .drain 1,
    .abort 1, .drop 1 .aborted, .resolve 1, .awaited 2, .drain 2, .leave 2]

/-- **Two bodies are started between two evictions**: that of the cell evicted first, and
that of the cell evicted next. -/
theorem two_starts :
    ∃ s t u, (machine Unit true).run beforeEviction = some s ∧
      s.evicts true (.cancel 1) = true ∧ s.step true (.cancel 1) = some t ∧
      (machine Unit true).runFrom t afterEviction = some u ∧
      (machine Unit true).Meets (Stays true) t afterEviction ∧
      u.evicts true (.cancel 2) = true ∧
      (machine Unit true).collect starts t afterEviction = [1, 2] :=
  ⟨_, _, _, rfl, rfl, rfl, rfl, by decide, rfl, rfl⟩

end Heph.Memo
