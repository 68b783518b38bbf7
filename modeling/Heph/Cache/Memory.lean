import Heph.Lib.Machine

/-!
# The memory tier

In front of the cache there is one in memory, for the entries that are small. A read that finds an
entry there does not ask the cache behind it; one that does not asks, and **fills** the memory with
what it was told. A write, an adoption of a file and a delete first remove the entry from memory.

The tier is looked at for one key, and the cache behind it is a map. The threads take their steps in
any order, and at any time the memory may lose an entry.

A read that begins after an entry has been changed is to see the change, or a later one. **It may
not.** The entry is removed from memory when the writer is opened and is changed when it commits; a
read in between puts the old entry back, and there it stays
(`MemSystem.old_entry_filled_back`). So does a read that was told the old entry before the writer
was opened, and fills it after the commit. It sees the change as long as no entry changes under
what the memory has, and nothing is filled that the cache has no longer (`MemSystem.fresh_iff`).
-/

namespace Heph

open List Option Function Machine

/-! ### The tier -/

/-- The memory tier, for one key. -/
structure MemTier where
  /-- What the memory has. -/
  mem : Option (List UInt8)
  /-- What the cache behind it has. -/
  inner : Option (List UInt8)
  /-- What that has had before: for what is to be said of it. -/
  past : List (Option (List UInt8))

namespace MemTier

/-- What the cache has had, up to now. -/
def history (s : MemTier) : List (Option (List UInt8)) := s.past ++ [s.inner]

/-- `Cache::remove`. -/
def remove (s : MemTier) : MemTier := { s with mem := none }

/-- The cache behind it gets another entry, or none. -/
def change (s : MemTier) (entry : Option (List UInt8)) : MemTier :=
  { s with inner := entry, past := s.history }

end MemTier

/-- Where a thread is that uses the tier. -/
inductive MemPoint where
  | idle
  /-- `reader` has been called, after so many changes. -/
  | reading (since : ℕ)
  /-- The memory does not have the entry. -/
  | missed (since : ℕ)
  /-- It has been told the entry, and is to fill the memory with it. -/
  | filling (since : ℕ) (data : List UInt8)
  | returned (since : ℕ) (entry : Option (List UInt8))
  /-- `writer` has been called, and has removed the entry. -/
  | writing
  /-- `adopt_file` has removed the entry. -/
  | adopting
  /-- `delete` has removed the entry. -/
  | deleting
  deriving DecidableEq

/-- What a thread does next. -/
inductive MemEvent where
  | reader
  | get
  | fetch
  | fill
  /-- It is done with what it was told. -/
  | finish
  | writer
  | commit (data : List UInt8)
  /-- The writer is dropped. -/
  | drop
  | adoptFile
  /-- The cache behind takes the file. -/
  | adopt (data : List UInt8)
  | decline
  | delete
  | erase
  deriving DecidableEq

namespace MemTier

/-- One step of a thread. -/
def callerStep (perEntryBytes : ℕ) (s : MemTier) : MemPoint → MemEvent → Option (MemTier × MemPoint)
  | .idle, .reader => some (s, .reading s.past.length)
  | .reading since, .get =>
    match s.mem with
    | some data => some (s, .returned since (some data))
    | none => some (s, .missed since)
  | .missed since, .fetch =>
    match s.inner with
    | none => some (s, .returned since none)
    | some data =>
      -- what is too big for the memory is passed through
      if data.length > perEntryBytes then some (s, .returned since (some data))
      else some (s, .filling since data)
  | .filling since data, .fill =>
    some ({ s with mem := some data }, .returned since (some data))
  | .returned _ _, .finish => some (s, .idle)
  | .idle, .writer => some (s.remove, .writing)
  | .writing, .commit data => some (s.change (some data), .idle)
  | .writing, .drop => some (s, .idle)
  | .idle, .adoptFile => some (s.remove, .adopting)
  | .adopting, .adopt data => some (s.change (some data), .idle)
  | .adopting, .decline => some (s, .idle)
  | .idle, .delete => some (s.remove, .deleting)
  | .deleting, .erase => some (s.change none, .idle)
  | _, _ => none

end MemTier

/-- The tier and the threads `ι` that use it. -/
structure MemSystem (ι : Type) where
  tier : MemTier
  callers : ι → MemPoint

/-- A step of a thread, or the memory loses the entry. -/
inductive MemSystemEvent (ι : Type) where
  | caller (i : ι) (e : MemEvent)
  | evict
  deriving DecidableEq

namespace MemSystem

variable {ι : Type} [DecidableEq ι]

/-- One step. -/
def step (perEntryBytes : ℕ) (s : MemSystem ι) : MemSystemEvent ι → Option (MemSystem ι)
  | .caller i e =>
    (s.tier.callerStep perEntryBytes (s.callers i) e).map fun r =>
      ⟨r.1, Function.update s.callers i r.2⟩
  | .evict => some { s with tier := s.tier.remove }

/-- The tier in front of a cache that has the entry, as a machine. -/
def machine (ι : Type) [DecidableEq ι] (perEntryBytes : ℕ) (entry : Option (List UInt8)) :
    Machine (MemSystem ι) (MemSystemEvent ι) :=
  ⟨⟨⟨none, entry, []⟩, fun _ => .idle⟩, step perEntryBytes⟩

end MemSystem

/-! ### What is fresh -/

namespace MemTier

variable {s s' : MemTier} {perEntryBytes : ℕ} {since : ℕ} {entry : Option (List UInt8)}
  {data : List UInt8}

/-- The cache has had the entry after so many changes, or later. -/
def HadSince (s : MemTier) (since : ℕ) (entry : Option (List UInt8)) : Prop :=
  ∃ n, since ≤ n ∧ s.history[n]? = some entry

/-- **The memory has what the cache has**, or nothing. -/
def Coherent (s : MemTier) : Prop := ∀ data, s.mem = some data → s.inner = some data

theorem hadSince_inner (h : since ≤ s.past.length) : s.HadSince since s.inner :=
  ⟨s.past.length, h, getElem?_concat_length⟩

/-- Only the last entry is as new as now. -/
theorem hadSince_now : s.HadSince s.past.length entry ↔ entry = s.inner := by
  constructor
  · rintro ⟨n, hn, hentry⟩
    have hlt := (List.getElem?_eq_some_iff.mp hentry).1
    obtain rfl : n = s.past.length := by
      rw [history, length_append, length_singleton] at hlt
      omega
    exact (some.inj (getElem?_concat_length.symm.trans hentry)).symm
  · rintro rfl
    exact hadSince_inner le_rfl

/-- What the cache has had, it has had. -/
theorem HadSince.mono (h : s.HadSince since entry) (hs : s.history <+: s'.history) :
    s'.HadSince since entry := by
  obtain ⟨n, hn, hentry⟩ := h
  obtain ⟨later, hlater⟩ := hs
  refine ⟨n, hn, ?_⟩
  rw [← hlater, getElem?_append_left (List.getElem?_eq_some_iff.mp hentry).1]
  exact hentry

/-- What is known of a thread: what it is to return is not older than its call. -/
def Knows (s : MemTier) : MemPoint → Prop
  | .reading since => since ≤ s.past.length
  | .missed since => since ≤ s.past.length
  | .filling since data => s.HadSince since (some data)
  | .returned since entry => s.HadSince since entry
  | _ => True

theorem Knows.mono {point : MemPoint} (h : s.Knows point) (hs : s.history <+: s'.history) :
    s'.Knows point := by
  have hlen : s.past.length ≤ s'.past.length := by
    simpa [history] using hs.length_le
  cases point with
  | reading | missed => exact h.trans hlen
  | filling | returned => exact HadSince.mono h hs
  | _ => trivial

theorem history_change : s.history <+: (s.change entry).history := prefix_append ..

/-! ### Careful steps -/

/-- **A step that leaves the memory with what the cache has**: what is filled is still there, and
what changes is not in memory as something else. -/
def Careful (s : MemTier) : MemPoint → MemEvent → Prop
  | .filling _ data, .fill => s.inner = some data
  | _, .commit data => s.mem = none ∨ s.mem = some data
  | _, .adopt data => s.mem = none ∨ s.mem = some data
  | _, .erase => s.mem = none
  | _, _ => True

instance decidableCareful (s : MemTier) : (point : MemPoint) → (e : MemEvent) →
    Decidable (s.Careful point e) := by
  intro point e
  unfold Careful
  split <;> infer_instance

theorem coherent_remove : s.remove.Coherent := fun _ h => nomatch h

theorem coherent_fill :
    { s with mem := some data }.Coherent ↔ s.inner = some data := by
  simp [Coherent]

theorem coherent_change_some :
    (s.change (some data)).Coherent ↔ s.mem = none ∨ s.mem = some data := by
  rw [Coherent, change]
  cases s.mem with
  | none => simp
  | some old => simp [eq_comm]

theorem coherent_change_none : (s.change none).Coherent ↔ s.mem = none := by
  rw [Coherent, change]
  cases s.mem <;> simp

/-- **One step of a thread**, from a tier whose memory has what the cache has: it still does if the
step is careful, and only then. The past is kept, and the thread knows what it has to. -/
theorem callerStep_spec {point point' : MemPoint} {e : MemEvent} (hcoherent : s.Coherent)
    (h : s.callerStep perEntryBytes point e = some (s', point')) :
    (s'.Coherent ↔ s.Careful point e) ∧ s.history <+: s'.history ∧
      (s.Knows point → s'.Knows point') := by
  unfold callerStep at h
  split at h
  · cases h
    exact ⟨iff_of_true hcoherent trivial, prefix_rfl, fun _ => le_rfl⟩
  · split at h
    · next hmem =>
      cases h
      refine ⟨iff_of_true hcoherent trivial, prefix_rfl, fun hknows => ?_⟩
      rw [← hcoherent _ hmem]
      exact hadSince_inner hknows
    · cases h
      exact ⟨iff_of_true hcoherent trivial, prefix_rfl, id⟩
  · next since =>
    have hinner : s.Knows (.missed since) → s.HadSince since s.inner := hadSince_inner
    split at h
    · next hnone =>
      cases h
      exact ⟨iff_of_true hcoherent trivial, prefix_rfl, hnone ▸ hinner⟩
    · next data hdata =>
      rw [hdata] at hinner
      split at h <;>
      · cases h
        exact ⟨iff_of_true hcoherent trivial, prefix_rfl, hinner⟩
  · cases h
    exact ⟨coherent_fill, prefix_rfl, id⟩
  · cases h
    exact ⟨iff_of_true hcoherent trivial, prefix_rfl, fun _ => trivial⟩
  · cases h
    exact ⟨iff_of_true coherent_remove trivial, prefix_rfl, fun _ => trivial⟩
  · cases h
    exact ⟨coherent_change_some, history_change, fun _ => trivial⟩
  · cases h
    exact ⟨iff_of_true hcoherent trivial, prefix_rfl, fun _ => trivial⟩
  · cases h
    exact ⟨iff_of_true coherent_remove trivial, prefix_rfl, fun _ => trivial⟩
  · cases h
    exact ⟨coherent_change_some, history_change, fun _ => trivial⟩
  · cases h
    exact ⟨iff_of_true hcoherent trivial, prefix_rfl, fun _ => trivial⟩
  · cases h
    exact ⟨iff_of_true coherent_remove trivial, prefix_rfl, fun _ => trivial⟩
  · cases h
    exact ⟨coherent_change_none, history_change, fun _ => trivial⟩
  · cases h

end MemTier

/-! ### Every run -/

namespace MemSystem

open MemTier

variable {ι : Type} [DecidableEq ι] {perEntryBytes : ℕ} {entry₀ : Option (List UInt8)}
  {s s' : MemSystem ι} {es : List (MemSystemEvent ι)} {i : ι} {e : MemSystemEvent ι}

/-- The step is careful. -/
def Careful (s : MemSystem ι) : MemSystemEvent ι → Prop
  | .caller i e => s.tier.Careful (s.callers i) e
  | .evict => True

instance decidableCareful (s : MemSystem ι) : (e : MemSystemEvent ι) → Decidable (s.Careful e)
  | .caller i e => inferInstanceAs (Decidable (s.tier.Careful (s.callers i) e))
  | .evict => inferInstanceAs (Decidable True)

/-- **A read that has returned** was told what the cache had when it was called, or later. -/
def Fresh (s : MemSystem ι) : Prop :=
  ∀ i since entry, s.callers i = .returned since entry → s.tier.HadSince since entry

/-- The memory has what the cache has, and the threads know what they have to. -/
def Consistent (s : MemSystem ι) : Prop := s.tier.Coherent ∧ ∀ i, s.tier.Knows (s.callers i)

omit [DecidableEq ι] in
theorem Consistent.fresh (h : s.Consistent) : s.Fresh := by
  intro i since entry hreturned
  have hknows := h.2 i
  rw [hreturned] at hknows
  exact hknows

theorem coherent_step (h : s.tier.Coherent)
    (hstep : s.step perEntryBytes e = some s') : s'.tier.Coherent ↔ s.Careful e := by
  cases e with
  | caller i e =>
    obtain ⟨⟨tier, point⟩, hcaller, rfl⟩ := map_eq_some_iff.mp hstep
    exact (callerStep_spec h hcaller).1
  | evict =>
    cases hstep
    exact iff_of_true coherent_remove trivial

theorem consistent_step (h : s.Consistent) (hcareful : s.Careful e)
    (hstep : s.step perEntryBytes e = some s') : s'.Consistent := by
  refine ⟨(coherent_step h.1 hstep).mpr hcareful, ?_⟩
  cases e with
  | caller i e =>
    obtain ⟨⟨tier, point⟩, hcaller, rfl⟩ := map_eq_some_iff.mp hstep
    obtain ⟨-, hprefix, hknows⟩ := callerStep_spec h.1 hcaller
    intro j
    by_cases hj : j = i
    · subst hj
      simpa using hknows (h.2 j)
    · simpa [update_of_ne hj] using (h.2 j).mono hprefix
  | evict =>
    cases hstep
    exact fun j => (h.2 j).mono prefix_rfl

theorem consistent_init : (machine ι perEntryBytes entry₀).init.Consistent :=
  ⟨fun _ h => (nomatch h), fun _ => trivial⟩

theorem consistent_run (hmeets : (machine ι perEntryBytes entry₀).Meets Careful
      (machine ι perEntryBytes entry₀).init es)
    (h : (machine ι perEntryBytes entry₀).run es = some s) : s.Consistent :=
  runFrom_invariant
    (fun _ _ _ => consistent_step) consistent_init hmeets h

/-- A read that a thread makes while nobody else takes a step. -/
inductive ReadsAlone (i : ι) : List (MemSystemEvent ι) → Prop
  | none : ReadsAlone i []
  | hit : ReadsAlone i [.caller i .reader, .caller i .get]
  | miss : ReadsAlone i [.caller i .reader, .caller i .get, .caller i .fetch]
  | filled : ReadsAlone i ([.caller i .reader, .caller i .get, .caller i .fetch] ++
      [.caller i .fill])

/-- A thread that takes no step stays where it is. -/
theorem callers_runFrom (hi : ∀ e, .caller i e ∉ es)
    (h : (machine ι perEntryBytes entry₀).runFrom s es = some s') : s'.callers i = s.callers i := by
  induction es generalizing s with
  | nil =>
    cases h
    rfl
  | cons e es ih =>
    obtain ⟨t, ht, hrest⟩ := runFrom_cons h
    rw [ih (fun e' he' => hi e' (mem_cons_of_mem _ he')) hrest]
    cases e with
    | caller k e =>
      obtain ⟨r, -, rfl⟩ := map_eq_some_iff.mp ht
      refine update_of_ne ?_ ..
      rintro rfl
      exact hi e mem_cons_self
    | evict =>
      cases ht
      rfl

/-- What is alone on its way is still there when it is filled. -/
theorem inner_of_filling (hidle : s.callers i = .idle)
    (h : (machine ι perEntryBytes entry₀).runFrom s
      [.caller i .reader, .caller i .get, .caller i .fetch] = some s')
    {since : ℕ} {data : List UInt8} (hfilling : s'.callers i = .filling since data) :
    s'.tier.inner = some data := by
  obtain ⟨s₁, h₁, h⟩ := runFrom_cons h
  obtain ⟨s₂, h₂, h⟩ := runFrom_cons h
  obtain ⟨s₃, h₃, h⟩ := runFrom_cons h
  cases h
  obtain ⟨r₁, hr₁, rfl⟩ := map_eq_some_iff.mp h₁
  obtain ⟨r₂, hr₂, rfl⟩ := map_eq_some_iff.mp h₂
  obtain ⟨r₃, hr₃, rfl⟩ := map_eq_some_iff.mp h₃
  rw [hidle] at hr₁
  cases hr₁
  simp only [update_self] at hr₂ hr₃ hfilling
  cases hmem : s.tier.mem with
  | some old =>
    simp only [callerStep, hmem] at hr₂
    cases hr₂
    cases hr₃
  | none =>
    simp only [callerStep, hmem] at hr₂
    cases hr₂
    simp only [callerStep] at hr₃
    split at hr₃
    · cases hr₃
      cases hfilling
    · next new hnew =>
      split at hr₃
      · cases hr₃
        cases hfilling
      · cases hr₃
        obtain ⟨-, rfl⟩ := MemPoint.filling.inj hfilling
        exact hnew

/-- A read that is made alone is careful. -/
theorem ReadsAlone.meets {solo : List (MemSystemEvent ι)} (h : ReadsAlone i solo)
    (hidle : s.callers i = .idle)
    (hrun : (machine ι perEntryBytes entry₀).runFrom s solo = some s') :
    (machine ι perEntryBytes entry₀).Meets Careful s solo := by
  have hlook : ∀ (s : MemSystem ι) (e : MemEvent), e = .reader ∨ e = .get ∨ e = .fetch →
      s.Careful (.caller i e) := by
    rintro s e (rfl | rfl | rfl) <;>
    · rw [Careful]
      cases s.callers i <;> trivial
  cases h with
  | none => trivial
  | hit | miss => exact meets_of_forall (by simp [hlook])
  | filled =>
    obtain ⟨u, hu, hfill⟩ := runFrom_append.mp hrun
    refine (meets_append hu).mpr ⟨meets_of_forall (by simp [hlook]), ?_, ?_⟩
    · rw [Careful]
      cases hpoint : u.callers i with
      | filling since data => exact inner_of_filling hidle hu hpoint
      | _ => trivial
    · split <;> trivial

/-- **The memory tier serves nothing old**, neither to the reads of a run nor to one that an
onlooker makes at any moment of it, exactly in the runs in which nothing is filled that the cache
has no longer, and nothing changes in the cache that the memory has. -/
theorem fresh_iff (perEntryBytes : ℕ) (entry₀ : Option (List UInt8))
    (es : List (MemSystemEvent ι)) (s : MemSystem ι)
    (h : (machine ι perEntryBytes entry₀).run es = some s) (i : ι) (hi : ∀ e, .caller i e ∉ es) :
    (∀ es₁ es₂ solo s₁, es = es₁ ++ es₂ → ReadsAlone i solo →
      (machine ι perEntryBytes entry₀).run (es₁ ++ solo) = some s₁ → s₁.Fresh) ↔
    (machine ι perEntryBytes entry₀).Meets Careful (machine ι perEntryBytes entry₀).init es := by
  have hidle : ∀ {es₁ es₂ t}, es = es₁ ++ es₂ →
      (machine ι perEntryBytes entry₀).run es₁ = some t → t.callers i = .idle := by
    rintro es₁ es₂ t rfl ht
    exact callers_runFrom (fun e he => hi e (mem_append_left _ he)) ht
  constructor
  · intro hfresh
    have hcoherent : ∀ {es₁ es₂ t}, es = es₁ ++ es₂ →
        (machine ι perEntryBytes entry₀).run es₁ = some t → t.tier.Coherent := by
      intro es₁ es₂ t hes ht data hmem
      have hread : (machine ι perEntryBytes entry₀).runFrom t
          [.caller i .reader, .caller i .get] = some ⟨t.tier, update (update
            t.callers i (.reading t.tier.past.length)) i
              (.returned t.tier.past.length (some data))⟩ := by
        simp [runFrom, machine, step, hidle hes ht, callerStep, hmem]
      have hserved := hfresh es₁ es₂ _ _ hes .hit (run_append.mpr ⟨t, ht, hread⟩) i _ _
        (update_self ..)
      exact (hadSince_now.mp hserved).symm
    refine meets_of_prefixes fun es₁ e es₂ t hes ht => ?_
    obtain ⟨t', ht', hrest⟩ := run_append.mp (hes ▸ h)
    obtain rfl : t' = t := some.inj (ht'.symm.trans ht)
    obtain ⟨u, hu, -⟩ := runFrom_cons hrest
    have hes' : es = es₁ ++ [e] ++ es₂ := by
      rw [hes, append_assoc, singleton_append]
    refine (coherent_step (hcoherent hes ht) hu).mp (hcoherent hes' ?_)
    exact run_append.mpr ⟨_, ht, by rw [runFrom, hu]; rfl⟩
  · rintro hmeets es₁ es₂ solo s₁ rfl hsolo hrun
    obtain ⟨t, ht, hread⟩ := run_append.mp hrun
    refine (consistent_run ?_ hrun).fresh
    exact (meets_append ht).mpr ⟨hmeets.of_append, hsolo.meets (hidle rfl ht) hread⟩

/-- One thread writes an entry and reads it: a thread that looks on is served nothing old. -/
theorem fresh_iff_written :
    ∃ es s, es = [.caller false .writer, .caller false (.commit [2]), .caller false .reader,
        .caller false .get, .caller false .fetch, .caller false .fill] ∧
      (machine Bool 8 (some [1])).run es = some s ∧
      ∀ es₁ es₂ solo s₁, es = es₁ ++ es₂ → ReadsAlone true solo →
        (machine Bool 8 (some [1])).run (es₁ ++ solo) = some s₁ → s₁.Fresh :=
  ⟨_, _, rfl, rfl, (fresh_iff 8 (some [1]) _ _ rfl true (by simp)).mpr (by decide)⟩

/-- **An old entry is filled back.** A writer is opened, another thread reads the entry, and the
writer commits. A read that begins then is served what the entry was. -/
theorem old_entry_filled_back :
    ∃ s, (machine Bool 8 (some [1])).run
        [.caller false .writer, .caller true .reader, .caller true .get, .caller true .fetch,
          .caller true .fill, .caller true .finish, .caller false (.commit [2]),
          .caller true .reader, .caller true .get] = some s ∧
      s.tier.history = [some [1], some [2]] ∧ s.callers true = .returned 1 (some [1]) ∧
      ¬ s.Fresh := by
  refine ⟨_, rfl, rfl, rfl, fun hfresh => ?_⟩
  exact absurd (hadSince_now.mp (hfresh true 1 (some [1]) rfl)) (by decide)

-- A fill that comes after a whole write is no better.
example :
    ¬ (machine Bool 8 (some [1])).Meets Careful (machine Bool 8 (some [1])).init
      [.caller true .reader, .caller true .get, .caller true .fetch, .caller false .writer,
        .caller false (.commit [2]), .caller true .fill] := by
  decide

end MemSystem

end Heph
