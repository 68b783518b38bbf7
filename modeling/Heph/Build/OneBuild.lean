import Heph.Build.Resolve

/-!
# One build per revision

The guards of a process are those of the point where it is (`Resolvers.Inv`), so the
processes exclude each other as the guards do, and **no two of them execute the target at one
time**.

That no process executes it after another has done so is a matter of the manifest. It is there
once the writer thread has committed it, and a process that would execute has probed under the
write lock and missed; since the write lock excludes the process that was executing, the miss
is older or newer than that whole build, and a newer one sees the manifest. All of this rests on
the writer thread: a batch that it **drops** leaves the build without a manifest, the process
that made it returns `Ok` all the same, and the next one executes the target again
(`Resolvers.lost_batch_builds_again`).
-/

namespace Heph

open List Option Function Holders Machine ResolvePoint

variable {ι μ : Type}

/-! ### The guards of a process -/

namespace ResolvePoint

/-- The guards that are in scope at a point. -/
def guards : ResolvePoint μ → Option (List (ResultGuard Unit))
  | probing => some [.read ()]
  | missed => some [.read ()]
  | passing => some [.target]
  | reprobing => some [.read ()]
  | reprobed => some [.read ()]
  | rechecking => some [.write ()]
  | locating => some [.write ()]
  | building => some [.write ()]
  | executing => some [.write ()]
  | caching _ => some [.write ()]
  | resolved _ => some [.write ()]
  | downgrading _ => some [.target]
  | downgraded _ => some [.upgradable ()]
  | riding _ => some [.read (), .upgradable ()]
  | returned _ => some [.read ()]
  | _ => none

variable {p : ResolvePoint μ}

theorem guards_of_inExecute (h : p.inExecute = true) :
    p.guards = some [.write ()] := by
  cases p <;> first | rfl | exact Bool.noConfusion h

/-- The process has missed under the write lock, and is yet to execute. -/
def missedForGood : ResolvePoint μ → Bool
  | locating => true
  | building => true
  | _ => false

theorem guards_of_missedForGood (h : p.missedForGood = true) :
    p.guards = some [.write ()] := by
  cases p <;> first | rfl | exact Bool.noConfusion h

/-- There is a manifest behind a result: it is committed, or the process has mirrored it and it
is queued. What was executed waits for its manifest. -/
def Backed (manifest queued : Option μ) : ResolvePoint μ → Prop
  | caching _ => manifest.isSome = true ∨ queued.isSome = true
  | resolved r => manifest.isSome = true ∨ ∃ m, r = .remoteHit m ∧ queued = some m
  | downgrading r => manifest.isSome = true ∨ ∃ m, r = .remoteHit m ∧ queued = some m
  | downgraded r => manifest.isSome = true ∨ ∃ m, r = .remoteHit m ∧ queued = some m
  | riding r => manifest.isSome = true ∨ ∃ m, r = .remoteHit m ∧ queued = some m
  | returned r => manifest.isSome = true ∨ ∃ m, r = .remoteHit m ∧ queued = some m
  | _ => True

/-- A manifest that is committed is behind everything. -/
theorem backed_of_isSome {manifest queued : Option μ} (h : manifest.isSome = true)
    (p : ResolvePoint μ) : p.Backed manifest queued := by
  cases p <;> first | exact .inl h | trivial

end ResolvePoint

theorem Apart.symm (l l' : List (ResultGuard Unit)) (h : Apart l l') : Apart l' l :=
  fun g hg g' hg' => (h g' hg' g hg).symm

/-- Two processes never both have the write lock. -/
theorem not_apart_write : ¬ Apart [.write ()] [.write ()] := by decide

/-- Who has the write lock may keep the gateway alone. -/
theorem Apart.of_write {l : List (ResultGuard Unit)} (h : Apart [.write ()] l) :
    Apart [.target] l := by
  intro g hg g' hg'
  obtain rfl : g = .target := by simpa using hg
  have hw := h (.write ()) (by simp) g' hg'
  exact ⟨fun hgate => hw.1 ⟨rfl, hgate.2⟩, fun hsome => by simp [ResultGuard.revision] at hsome⟩

namespace Resolvers

/-- **What holds in every run**: the processes have the guards of the points where they are, and
the guards exclude each other. -/
structure Inv (s : Resolvers ι μ) : Prop where
  locks : ∀ i, s.locks i = (s.points i).guards
  apart : s.locks.Excluding Apart

variable {s s' : Resolvers ι μ} {i j : ι} {p : ResolvePoint μ} {l : List (ResultGuard Unit)}

namespace Inv

theorem new (manifest : Option μ) : Inv (Resolvers.new manifest : Resolvers ι μ) :=
  ⟨fun _ => rfl, excluding_free⟩

variable (hI : Inv s)

include hI

/-- Two processes with the write lock are one. -/
theorem eq_of_write (hi : (s.points i).guards = some [.write ()])
    (hj : (s.points j).guards = some [.write ()]) : i = j := by
  by_contra hne
  exact not_apart_write
    (hI.apart i j hne _ ((hI.locks i).trans hi) _ ((hI.locks j).trans hj))

variable [DecidableEq ι]

theorem moved (hpoints : s'.points = Function.update s.points i p)
    (hself : s'.locks i = p.guards) (hother : ∀ j, j ≠ i → s'.locks j = s.locks j)
    (hapart : s'.locks.Excluding Apart) : Inv s' := by
  refine ⟨fun j => ?_, hapart⟩
  rw [hpoints]
  rcases eq_or_ne j i with rfl | hj
  · rw [update_self, hself]
  · rw [update_of_ne hj, hother j hj, hI.locks]

theorem goto (hp : p.guards = (s.points i).guards) : Inv (s.goto i p) :=
  hI.moved rfl ((hI.locks i).trans hp.symm) (fun _ _ => rfl) hI.apart

theorem hold (hp : p.guards = some l) (hadm : s.locks.Admits Apart i l) :
    Inv (s.hold i l p) :=
  hI.moved rfl (take_self.trans hp.symm) (fun _ hj => take_of_ne hj)
    (hI.apart.take Apart.symm hadm)

theorem free (hp : p.guards = none) : Inv (s.free i p) :=
  hI.moved rfl (release_self.trans hp.symm) (fun _ hj => release_of_ne hj)
    hI.apart.release

theorem queue (m : μ) : Inv (s.queue i m) := ⟨hI.locks, hI.apart⟩

end Inv

/-! ### One step -/

section Step

/-- Where a process may go: it does not get past the write lock with a manifest in the cache,
and does not get to a result without one. -/
structure Next (s : Resolvers ι μ) (i : ι) (p : ResolvePoint μ) (queued : Option μ) : Prop where
  missed : p.missedForGood = true → (s.points i).missedForGood = true ∨ s.manifest = none
  backed : (s.points i).Backed s.manifest (s.queued i) → p.Backed s.manifest queued

/-- **A step of a process**: its point and its guards change, and it may have queued a
manifest. -/
structure Moves (s : Resolvers ι μ) (i : ι) (s' : Resolvers ι μ) : Prop where
  inv : Inv s'
  manifest : s'.manifest = s.manifest
  others : ∀ j, j ≠ i → s'.points j = s.points j ∧ s'.queued j = s.queued j
  next : Next s i (s'.points i) (s'.queued i)

variable [DecidableEq ι]

theorem building_of_execute (h : s.execute i = some s') : s.points i = .building := by
  cases hp : s.points i with
  | building => rfl
  | _ => simp [execute, hp] at h

/-- Who has executed the target has the write lock, and its manifest is committed if there is
one at all. -/
theorem caching_of_cached (h : s.cached i = some s')
    (hb : (s.points i).Backed s.manifest (s.queued i)) :
    (s.points i).guards = some [.write ()] ∧ (s.points i).missedForGood = false ∧
      s.manifest.isSome = true := by
  cases hp : s.points i with
  | caching m =>
    cases hq : s.queued i with
    | none =>
      rw [hp, hq] at hb
      exact ⟨rfl, rfl, hb.resolve_right Bool.false_ne_true⟩
    | some m' => simp [cached, hp, hq] at h
  | _ => simp [cached, hp] at h

namespace Moves

section

variable (hI : Inv s)

include hI

theorem goto (hp : p.guards = (s.points i).guards) (hn : Next s i p (s.queued i)) :
    Moves s i (s.goto i p) where
  inv := hI.goto hp
  manifest := rfl
  others _ hj := ⟨update_of_ne hj .., rfl⟩
  next := by simpa [Resolvers.goto] using hn

theorem hold (hp : p.guards = some l) (hadm : s.locks.Admits Apart i l)
    (hn : Next s i p (s.queued i)) : Moves s i (s.hold i l p) where
  inv := hI.hold hp hadm
  manifest := rfl
  others _ hj := ⟨update_of_ne hj .., rfl⟩
  next := by simpa [Resolvers.hold, Resolvers.goto] using hn

theorem free (hp : p.guards = none) (hn : Next s i p (s.queued i)) :
    Moves s i (s.free i p) where
  inv := hI.free hp
  manifest := rfl
  others _ hj := ⟨update_of_ne hj .., rfl⟩
  next := by simpa [Resolvers.free, Resolvers.goto] using hn

theorem queue {m : μ} (hp : p.guards = (s.points i).guards)
    (hn : Next s i p (some m)) : Moves s i ((s.queue i m).goto i p) where
  inv := (hI.queue m).goto hp
  manifest := rfl
  others _ hj := ⟨update_of_ne hj .., update_of_ne hj ..⟩
  next := by simpa [Resolvers.queue, Resolvers.goto] using hn

theorem grant [Fintype ι] {g : ResultGuard Unit} {kept : List (ResultGuard Unit)}
    (h : s.grant i g kept p = some s') (hp : p.guards = some (g :: kept))
    (hkept : kept = [] ∨ (s.points i).guards = some kept) (hn : Next s i p (s.queued i)) :
    Moves s i s' := by
  obtain ⟨hadm, h⟩ := ite_none_right_eq_some.mp h
  cases h
  refine hold hI hp (fun j hj l hl => forall_mem_cons.mpr ⟨?_, ?_⟩) hn
  · exact hadm j hj l hl g (by simp)
  · rcases hkept with rfl | hkept
    · simp
    · exact hI.apart i j hj.symm kept ((hI.locks i).trans hkept) l hl

theorem acquire [Fintype ι] (h : s.acquire i = some s') : Moves s i s' := by
  cases hp : s.points i with
  | start | trying | gateway | contending | retrying =>
    simp only [Resolvers.acquire, hp] at h
    exact grant hI h rfl (.inl rfl) ⟨Bool.noConfusion, fun _ => trivial⟩
  | downgrading =>
    simp only [Resolvers.acquire, hp] at h
    exact grant hI h rfl (.inl rfl) ⟨Bool.noConfusion, by rw [hp]; exact id⟩
  | downgraded =>
    simp only [Resolvers.acquire, hp] at h
    exact grant hI h rfl (.inr (by rw [hp]; rfl)) ⟨Bool.noConfusion, by rw [hp]; exact id⟩
  | _ => simp [Resolvers.acquire, hp] at h

theorem contended (h : s.contended i = some s') : Moves s i s' := by
  cases hp : s.points i with
  | trying | retrying =>
    simp only [Resolvers.contended, hp] at h
    exact some.inj h ▸
      goto hI (by rw [hp]; rfl) ⟨Bool.noConfusion, fun _ => trivial⟩
  | _ => simp [Resolvers.contended, hp] at h

theorem probe (h : s.probe i = some s') : Moves s i s' := by
  cases hp : s.points i with
  | probing | reprobing | rechecking =>
    cases hm : s.manifest with
    | none =>
      simp only [Resolvers.probe, hp, hm] at h
      exact some.inj h ▸ goto hI (by rw [hp]; rfl) ⟨fun _ => .inr hm, fun _ => trivial⟩
    | some m =>
      simp only [Resolvers.probe, hp, hm] at h
      exact some.inj h ▸
        goto hI (by rw [hp]; rfl) ⟨Bool.noConfusion, fun _ => .inl (by rw [hm]; rfl)⟩
  | _ => simp [Resolvers.probe, hp] at h

end

variable {opts : ι → ResolveOptions}

variable (hI : Inv s)

include hI

theorem release (h : s.release opts i = some s') :
    Moves s i s' := by
  cases hp : s.points i with
  | missed =>
    simp only [Resolvers.release, hp] at h
    split at h <;>
      exact some.inj h ▸ free hI rfl ⟨Bool.noConfusion, fun _ => trivial⟩
  | passing | reprobed =>
    simp only [Resolvers.release, hp] at h
    exact some.inj h ▸ free hI rfl ⟨Bool.noConfusion, fun _ => trivial⟩
  | riding r =>
    simp only [Resolvers.release, hp] at h
    have hlock : s.locks i = some [.read (), .upgradable ()] := by rw [hI.locks, hp]; rfl
    have hadm : s.locks.Admits Apart i [.read ()] :=
      hI.apart.admits hlock fun l hl g hg => hl g (mem_cons.mpr (.inl (by simpa using hg)))
    exact some.inj h ▸ hold hI rfl hadm ⟨Bool.noConfusion, by rw [hp]; exact id⟩
  | _ => simp [Resolvers.release, hp] at h

theorem wake (h : s.wake i = some s') : Moves s i s' := by
  cases hp : s.points i with
  | backoff =>
    simp only [Resolvers.wake, hp] at h
    exact some.inj h ▸
      goto hI (by rw [hp]; rfl) ⟨Bool.noConfusion, fun _ => trivial⟩
  | _ => simp [Resolvers.wake, hp] at h

theorem locate {found : Option μ}
    (h : s.locate opts i found = some s') : Moves s i s' := by
  cases hp : s.points i with
  | locating =>
    cases found with
    | none =>
      simp only [Resolvers.locate, hp] at h
      exact some.inj h ▸
        goto hI (by rw [hp]; rfl) ⟨fun _ => .inl (by rw [hp]; rfl), fun _ => trivial⟩
    | some m =>
      simp only [Resolvers.locate, hp, ite_none_right_eq_some] at h
      exact some.inj h.2 ▸
        queue hI (by rw [hp]; rfl) ⟨Bool.noConfusion, fun _ => .inr ⟨m, rfl, rfl⟩⟩
  | _ => cases found <;> simp [Resolvers.locate, hp] at h

theorem execute (h : s.execute i = some s') : Moves s i s' := by
  cases hp : s.points i with
  | building =>
    simp only [Resolvers.execute, hp] at h
    exact some.inj h ▸
      goto hI (by rw [hp]; rfl) ⟨Bool.noConfusion, fun _ => trivial⟩
  | _ => simp [Resolvers.execute, hp] at h

theorem produce {m : μ} (h : s.produce i m = some s') : Moves s i s' := by
  cases hp : s.points i with
  | executing =>
    simp only [Resolvers.produce, hp] at h
    exact some.inj h ▸ queue hI (by rw [hp]; rfl) ⟨Bool.noConfusion, fun _ => .inr rfl⟩
  | _ => simp [Resolvers.produce, hp] at h

theorem cached (h : s.cached i = some s') : Moves s i s' := by
  have hbacked := caching_of_cached h
  cases hp : s.points i with
  | caching m =>
    cases hq : s.queued i with
    | none =>
      simp only [Resolvers.cached, hp, hq] at h
      exact some.inj h ▸
        goto hI (by rw [hp]; rfl) ⟨Bool.noConfusion, fun hb => .inl (hbacked hb).2.2⟩
    | some m' => simp [Resolvers.cached, hp, hq] at h
  | _ => simp [Resolvers.cached, hp] at h

theorem downgrade (h : s.downgrade i = some s') : Moves s i s' := by
  cases hp : s.points i with
  | resolved =>
    simp only [Resolvers.downgrade, hp] at h
    have hlock : s.locks i = some [.write ()] := by rw [hI.locks, hp]; rfl
    exact some.inj h ▸ hold hI rfl (hI.apart.admits hlock fun _ => .of_write)
      ⟨Bool.noConfusion, by rw [hp]; exact id⟩
  | _ => simp [Resolvers.downgrade, hp] at h

theorem fail {e : ResolveError} (h : s.fail i e = some s') : Moves s i s' := by
  obtain ⟨-, h⟩ := ite_none_left_eq_some.mp h
  exact some.inj h ▸ free hI rfl ⟨Bool.noConfusion, fun _ => trivial⟩

theorem drop (h : s.drop i = some s') : Moves s i s' := by
  cases hp : s.points i with
  | returned =>
    simp only [Resolvers.drop, hp] at h
    exact some.inj h ▸ free hI rfl ⟨Bool.noConfusion, fun _ => trivial⟩
  | _ => simp [Resolvers.drop, hp] at h

end Moves

variable [Fintype ι] {opts : ι → ResolveOptions} {e : ι × ResolveEvent μ}

/-- **What a step does**: a process moves, or its writer thread commits or drops what is
queued. -/
theorem step_cases (hI : Inv s) (h : step opts s e = some s') :
    Moves s e.1 s' ∨ (∃ m, s.queued e.1 = some m ∧
      s' = { s with manifest := some m, queued := Function.update s.queued e.1 none }) ∨
    (e.2 = .lose ∧ s' = { s with queued := Function.update s.queued e.1 none }) := by
  obtain ⟨i, e⟩ := e
  cases e with
  | acquire => exact .inl (.acquire hI h)
  | contended => exact .inl (.contended hI h)
  | probe => exact .inl (.probe hI h)
  | release => exact .inl (.release hI h)
  | wake => exact .inl (.wake hI h)
  | locate found => exact .inl (.locate hI h)
  | execute => exact .inl (.execute hI h)
  | produce m => exact .inl (.produce hI h)
  | cached => exact .inl (.cached hI h)
  | downgrade => exact .inl (.downgrade hI h)
  | fail err => exact .inl (.fail hI h)
  | drop => exact .inl (.drop hI h)
  | commit =>
    obtain ⟨m, hm, rfl⟩ := map_eq_some_iff.mp h
    exact .inr (.inl ⟨m, hm, rfl⟩)
  | lose =>
    obtain ⟨m, -, rfl⟩ := map_eq_some_iff.mp h
    exact .inr (.inr ⟨rfl, rfl⟩)

theorem Inv.step (hI : Inv s) (h : Resolvers.step opts s e = some s') : Inv s' := by
  obtain hm | ⟨m, -, rfl⟩ | ⟨-, rfl⟩ := step_cases hI h
  · exact hm.inv
  · exact ⟨hI.locks, hI.apart⟩
  · exact ⟨hI.locks, hI.apart⟩

end Step

/-! ### Whole runs -/

section Run

variable [DecidableEq ι] [Fintype ι] {opts : ι → ResolveOptions} {manifest : Option μ}
  {e : ι × ResolveEvent μ} {es : List (ι × ResolveEvent μ)}

theorem inv_run (h : (machine opts manifest).run es = some s) : Inv s :=
  run_invariant (.new manifest) (fun _ _ _ hI hs => hI.step hs) h

/-- A step keeps a manifest behind a result, unless the writer thread of the process drops
it. -/
theorem backed_step (hI : Inv s) (hb : (s.points i).Backed s.manifest (s.queued i))
    (h : step opts s e = some s') (he : e ≠ (i, .lose)) :
    (s'.points i).Backed s'.manifest (s'.queued i) := by
  obtain hm | ⟨m, -, rfl⟩ | ⟨hlose, rfl⟩ := step_cases hI h
  · rw [hm.manifest]
    rcases eq_or_ne i e.1 with rfl | hi
    · exact hm.next.backed hb
    · obtain ⟨hp, hq⟩ := hm.others i hi
      rw [hp, hq]
      exact hb
  · exact backed_of_isSome rfl _
  · have hi : i ≠ e.1 := fun hi => he (Prod.ext hi.symm hlose)
    simpa only [update_of_ne hi] using hb

/-- **There is a manifest behind every result**, unless the writer thread of the process has
dropped it. -/
theorem backed_run (h : (machine opts manifest).run es = some s) :
    ∀ i, (i, .lose) ∉ es → (s.points i).Backed s.manifest (s.queued i) := by
  refine run_history (m := machine opts manifest)
    (P := fun es s => ∀ i, (i, .lose) ∉ es → (s.points i).Backed s.manifest (s.queued i))
    (fun _ _ => trivial) (fun es s e s' hrun hb hs i hi => ?_) h
  rw [mem_append, not_or, mem_singleton] at hi
  exact backed_step (inv_run hrun) (hb i hi.1) hs (Ne.symm hi.2)

/-- The revision is built: its manifest is there, and nobody is about to execute it. -/
def Built (s : Resolvers ι μ) : Prop :=
  s.manifest.isSome = true ∧ ∀ i, (s.points i).missedForGood = false

theorem Built.step (hI : Inv s) (hb : Built s) (h : step opts s e = some s') : Built s' := by
  obtain hm | ⟨m, -, rfl⟩ | ⟨-, rfl⟩ := step_cases hI h
  · refine ⟨by rw [hm.manifest]; exact hb.1, fun j => ?_⟩
    rcases eq_or_ne j e.1 with rfl | hj
    · by_contra hmiss
      rw [Bool.not_eq_false] at hmiss
      rcases hm.next.missed hmiss with hold | hnone
      · exact Bool.noConfusion (hold.symm.trans (hb.2 _))
      · exact Bool.noConfusion ((congrArg isSome hnone).symm.trans hb.1)
    · rw [(hm.others j hj).1]
      exact hb.2 j
  · exact ⟨rfl, hb.2⟩
  · exact hb

/-- Once the revision is built nobody executes it. -/
theorem Built.not_execute (hI : Inv s) (hb : Built s)
    (h : (machine opts manifest).runFrom s es = some s') : (i, .execute) ∉ es := by
  induction es generalizing s with
  | nil => simp
  | cons e es ih =>
    obtain ⟨t, ht, hrun⟩ := runFrom_cons h
    refine not_mem_cons_of_ne_of_not_mem ?_ (ih (hI.step ht) (hb.step hI ht) hrun)
    rintro rfl
    have hbuilding := building_of_execute ht
    have hmiss := hb.2 i
    rw [hbuilding] at hmiss
    exact Bool.noConfusion hmiss

omit [Fintype ι] in
/-- Who has executed the target, and has a manifest to show for it, has built the revision. -/
theorem Built.of_cached (hI : Inv s) (hb : (s.points i).Backed s.manifest (s.queued i))
    (h : s.cached i = some s') : Built s' := by
  have hm := Moves.cached hI h
  obtain ⟨hwrite, hmiss, hsome⟩ := caching_of_cached h hb
  refine ⟨by rw [hm.manifest]; exact hsome, fun j => ?_⟩
  by_contra hj
  rw [Bool.not_eq_false] at hj
  rcases eq_or_ne j i with rfl | hne
  · rcases hm.next.missed hj with hold | hnone
    · exact Bool.noConfusion (hold.symm.trans hmiss)
    · exact Bool.noConfusion ((congrArg isSome hnone).symm.trans hsome)
  · -- it would have the write lock, and that is with the process that was executing
    rw [(hm.others j hne).1] at hj
    exact hne (hI.eq_of_write (guards_of_missedForGood hj) hwrite)

/-- **One build per revision**, in every run of any number of processes:

* no two processes execute the target at one time;
* after a process has executed it no process executes it again – if the manifest that the
  process queued has not been dropped by its writer thread;
* a process that has returned `Ok` has a read lock on the revision, and the manifest is in the
  cache or, where the process has mirrored it from a remote, on its way there – again if its
  writer thread has not dropped it. -/
theorem one_build (h : (machine opts manifest).run es = some s) :
    (∀ i j, (s.points i).inExecute = true → (s.points j).inExecute = true → i = j) ∧
    (∀ es₁ es₂ i, es = es₁ ++ (i, .cached) :: es₂ → (i, .lose) ∉ es₁ →
      ∀ j, (j, .execute) ∉ es₂) ∧
    ∀ i r, s.points i = .returned r → s.locks i = some [.read ()] ∧
      ((i, .lose) ∉ es →
        s.manifest.isSome = true ∨ ∃ m, r = .remoteHit m ∧ s.queued i = some m) := by
  have hI := inv_run h
  refine ⟨fun i j hi hj => ?_, ?_, fun i r hi => ⟨?_, fun hlose => ?_⟩⟩
  · exact hI.eq_of_write (guards_of_inExecute hi) (guards_of_inExecute hj)
  · rintro es₁ es₂ i rfl hlose j
    obtain ⟨t, ht, hrest⟩ := run_append.mp h
    obtain ⟨u, hu, hrun⟩ := runFrom_cons hrest
    have hIt := inv_run ht
    have hbuilt := Built.of_cached hIt (backed_run ht i hlose) hu
    exact hbuilt.not_execute (Moves.cached hIt hu).inv hrun
  · rw [hI.locks, hi]
    rfl
  · have hb := backed_run h i hlose
    rw [hi] at hb
    exact hb

end Run

/-! ### Two processes -/

/-- Two requests that may build, and have no remote cache. -/
def localOnly : Fin 2 → ResolveOptions := fun _ => ⟨false, false⟩

/-- Both processes miss. The first gets the write lock, and builds the revision; the second
waits for the gateway, and shares what it finds. -/
def buildThenShare : List (Fin 2 × ResolveEvent ℕ) :=
  [(0, .acquire), (1, .acquire), (0, .probe), (1, .probe), (0, .release), (1, .release),
    (0, .acquire), (1, .contended), (0, .probe), (0, .locate none), (0, .execute), (0, .produce 7),
    (0, .commit), (0, .cached), (0, .downgrade), (0, .acquire), (0, .acquire), (0, .release),
    (1, .acquire), (1, .release), (1, .acquire), (1, .probe)]

theorem one_build_buildThenShare :
    ∃ s, (machine localOnly none).run buildThenShare = some s ∧
      s.points 0 = .returned (.executed 7) ∧ s.points 1 = .returned (.localHit 7) ∧
      s.locks 0 = some [.read ()] ∧ s.manifest.isSome = true := by
  have hrun : ((machine localOnly none).run buildThenShare).map
      (fun s => (s.points 0, s.points 1)) =
        some (.returned (.executed 7), .returned (.localHit 7)) := by
    decide
  obtain ⟨s, hs, hend⟩ := map_eq_some_iff.mp hrun
  obtain ⟨h₀, h₁⟩ := Prod.mk.inj hend
  obtain ⟨-, -, hok⟩ := one_build hs
  obtain ⟨hlock, hmanifest⟩ := hok 0 _ h₀
  refine ⟨s, hs, h₀, h₁, hlock, (hmanifest (by decide)).resolve_right ?_⟩
  rintro ⟨m, hm, -⟩
  nomatch hm

/-- The first process builds the revision, its writer thread drops the manifest, and it returns
`Ok`. -/
def lostBatch : List (Fin 2 × ResolveEvent ℕ) :=
  [(0, .acquire), (0, .probe), (0, .release), (0, .acquire), (0, .probe), (0, .locate none),
    (0, .execute), (0, .produce 7), (0, .lose), (0, .cached), (0, .downgrade), (0, .acquire),
    (0, .acquire), (0, .release)]

/-- Once the first process has dropped its read, the second builds the revision again. -/
def buildAgain : List (Fin 2 × ResolveEvent ℕ) :=
  [(0, .drop), (1, .acquire), (1, .probe), (1, .release), (1, .acquire), (1, .probe),
    (1, .locate none), (1, .execute)]

/-- A batch that the writer thread drops leaves an `Ok` without a manifest, and the revision to
be built again. -/
theorem lost_batch_builds_again :
    ((machine localOnly none).run lostBatch).map
        (fun s => (s.points 0, s.manifest, s.queued 0)) =
      some (.returned (.executed 7), none, none) ∧
    (0, .cached) ∈ lostBatch ∧
    ((machine localOnly none).run (lostBatch ++ buildAgain)).map (fun s => s.points 1) =
      some .executing := by
  decide

end Resolvers

end Heph
