import Heph.Build.GuardSlot

/-!
# What is handed out is what was resolved

A guard is **trusted** if the revision was resolved or validated under it. As long as a trusted
guard is alive, the manifest of the revision has the hashouts that the slot was made with
(`GuardSlot.Matched`), since nobody can have written it in between. So a caller that upgrades the
weak reference need not look, if the reference is never to a guard under which nothing has been
validated. That is where the numbers of the guards come in – a guard that is being validated is new,
and nobody else has it (`GuardSlot.Inv.alone`).

The manifest that is validated is the one that the process reads, and a copy in its memory tier
outlives what another process stores: then a revision is handed out that is not there any more
(`GuardSlot.copy_outlives_rebuild`). So it is assumed of a run (`GuardSlot.sound`) that the copy is
**current** when the revision is resolved or validated (`GuardSlot.current`). Three more things are
assumed: the manifest of what was executed lands in the cache, the one that was mirrored is not
lost, and a target that is executed under a read, for want of its artifacts, has the outputs that
it had.
-/

namespace Heph

open Option Function Nat Holders GuardSlot Bool SlotPoint

open List (Perm)

/-! ### Hashouts -/

theorem manifestHashouts_perm (m : List Artifact) :
    Perm (manifestHashouts m) ((handedOut m).map (·.hashout)) :=
  List.perm_insertionSort ..

theorem Resolved.hashouts_perm (r : Resolved) : Perm r.hashouts (r.artifacts.map (·.hashout)) := by
  cases r with
  | hit m => exact manifestHashouts_perm m
  | executed metas => exact List.perm_insertionSort ..

theorem perm_of_reconcile {m m' : List Artifact} (h : reconcile m m' = true) :
    Perm ((handedOut m').map (·.hashout)) ((handedOut m).map (·.hashout)) :=
  ((List.isPerm_iff.mp h).map _).symm

namespace SlotPoint

/-- The guard that a caller has. -/
def guard : SlotPoint → Option ℕ
  | validating _ g => some g
  | validated _ g => some g
  | returned _ g => some g
  | _ => none

/-- The guard that a caller has is one to rely on. -/
def trusted : SlotPoint → Bool
  | validated _ _ => true
  | returned _ _ => true
  | _ => false

theorem guard_of_trusted {p : SlotPoint} (h : p.trusted = true) : ∃ g, p.guard = some g := by
  cases p with
  | validated c g => exact ⟨g, rfl⟩
  | returned c g => exact ⟨g, rfl⟩
  | _ => exact absurd h false_ne_true

theorem trusted_of_guard {p : SlotPoint} {g : ℕ} (h : p.guard = some g)
    (hv : ∀ c g, p ≠ validating c g) : p.trusted = true := by
  cases p with
  | validated | returned => rfl
  | validating c g => exact absurd rfl (hv c g)
  | _ => exact nomatch h

end SlotPoint

namespace GuardSlot

variable {ι : Type} {s s' : GuardSlot ι} {i j : ι} {p : SlotPoint} {c : SlotCall} {g : ℕ}

variable (s : GuardSlot ι)

/-- The manifest of the revision, as the process sees it. -/
def manifest : Option (List Artifact) := s.queued.or s.stored

/-- **The manifest has the hashouts that the slot was made with**, each as often. -/
def Matched : Prop :=
  ∃ m r, s.manifest = some m ∧ s.resolved = some r ∧
    Perm ((handedOut m).map (·.hashout)) (r.artifacts.map (·.hashout))

/-- **The memory tier has no copy of the manifest, or one with the hashouts that it has.** -/
def current : Bool :=
  s.resident.all fun m => s.manifest.any fun m' => manifestHashouts m' == manifestHashouts m

/-- What is assumed of a step. -/
def sound : SlotEvent ι → Bool
  | .caller _ .resolveHit => s.current
  | .caller _ .validate => s.current
  | .caller _ (.resolveExecuted _ landed) => landed
  | .caller _ (.rebuild m landed) =>
    match s.resolved with
    | some (.hit promised) => !landed || reconcile promised m
    | _ => true
  | .lose => false
  | _ => true

/-- **What holds in every run.** -/
structure Inv (s : GuardSlot ι) : Prop where
  guard : ∀ i, s.guards i = (s.points i).guard
  weak_lt : s.weak < s.next
  lt : ∀ i g, s.guards i = some g → g < s.next
  /-- A guard that is being validated is nobody else's. -/
  alone : ∀ i c g, s.points i = .validating c g → g ≠ s.weak ∧ ∀ j, j ≠ i → s.guards j ≠ some g
  excluded : s.writing = true → s.guards.Unheld
  /-- Without the slot nothing has begun. -/
  slot : s.resolved = none → s.queued = none ∧ ∀ i, s.points i = .idle
  matched : ∀ i, (s.points i).trusted = true → s.Matched

/-- A caller may come to have the guard: the one of the reference, a new one, or its own. -/
def Offers (i : ι) (next g : ℕ) : Prop :=
  g = s.weak ∨ g = s.next ∧ s.next < next ∨ s.guards i = some g

variable {s}

variable {manifest : Option (List Artifact)} {m : List Artifact}

/-- A read changes nothing but what is to be put into the memory tier. -/
theorem eq_of_read (h : s.read = some (manifest, s')) :
    ∃ found, s' = { s with found := found } := by
  rw [read] at h
  split at h
  · cases h
    exact ⟨_, rfl⟩
  · cases h
    exact ⟨_, rfl⟩
  · exact nomatch h

/-- A reader does not wait for an empty queue. -/
theorem exists_read (hq : s.queued = none) : ∃ x, s.read = some x := by
  rw [read]
  split
  · exact ⟨_, rfl⟩
  · exact ⟨_, rfl⟩
  · next h => exact nomatch hq.symm.trans h

/-- A current copy lets the reader see the hashouts of the manifest. -/
theorem exists_of_read (hcurrent : s.current = true) (h : s.read = some (some m, s')) :
    ∃ m', s.manifest = some m' ∧ manifestHashouts m' = manifestHashouts m := by
  rw [read] at h
  split at h
  · next hresident =>
    cases h
    rw [current, hresident, all_some] at hcurrent
    obtain ⟨m', hm', heq⟩ := (any_eq_true _ _).mp hcurrent
    exact ⟨m', hm', eq_of_beq heq⟩
  · next hqueued =>
    obtain ⟨hstored, -⟩ := Prod.mk.inj (some.inj h)
    exact ⟨m, by rw [GuardSlot.manifest, hqueued, hstored]; rfl, rfl⟩
  · exact nomatch h

/-- A manifest that passes the check has the hashouts. -/
theorem matched_of_check {r : Resolved} (hcurrent : s.current = true)
    (hread : s.read = some (manifest, s')) (hr : s.resolved = some r)
    (h : (manifest.any fun m => manifestHashouts m == r.hashouts) = true) : s.Matched := by
  obtain ⟨m, rfl, heq⟩ := (any_eq_true _ _).mp h
  obtain ⟨m', hm', heq'⟩ := exists_of_read hcurrent hread
  refine ⟨m', r, hm', hr, (manifestHashouts_perm m').symm.trans ?_⟩
  rw [heq', eq_of_beq heq]
  exact r.hashouts_perm

namespace Inv

theorem new (stored resident : Option (List Artifact)) :
    Inv (new stored resident : GuardSlot ι) where
  guard _ := rfl
  weak_lt := one_pos
  lt _ _ h := nomatch h
  alone _ _ _ h := nomatch h
  excluded _ _ := rfl
  slot _ := ⟨rfl, fun _ => rfl⟩
  matched _ h := absurd h false_ne_true

variable (hI : Inv s) {stored queued resident : Option (List Artifact)}
  {found : List (List Artifact)}

include hI

theorem lt_of_offers {next : ℕ} (hnext : s.next ≤ next) (h : s.Offers i next g) :
    g < next := by
  rcases h with rfl | ⟨rfl, hlt⟩ | h
  · exact hI.weak_lt.trans_le hnext
  · exact hlt
  · exact (hI.lt i g h).trans_le hnext

/-- What a caller may come to have is not what another one is validating. -/
theorem ne_of_offers {next g' : ℕ} (hne : j ≠ i)
    (hj : s.points j = .validating c g') (h : s.Offers i next g) : g' ≠ g := by
  obtain ⟨hweak, hother⟩ := hI.alone j c g' hj
  rcases h with rfl | ⟨rfl, -⟩ | h
  · exact hweak
  · exact (hI.lt j g' ((hI.guard j).trans (by rw [hj]; rfl))).ne
  · rintro rfl
    exact hother i hne.symm h

/-- The guard that is alive is trusted, if it is the one of the reference. -/
theorem matched_of_heldAs (h : s.guards.HeldAs s.weak) : s.Matched := by
  obtain ⟨i, hi⟩ := h
  refine hI.matched i (trusted_of_guard ((hI.guard i).symm.trans hi) fun c g hp => ?_)
  have hg : s.guards i = some g := (hI.guard i).trans (by rw [hp]; rfl)
  exact (hI.alone i c g hp).1 (some.inj (hg.symm.trans hi))

/-- Only the manifest changes. -/
theorem restored
    (hq : s.queued = none → queued = none) (h : ∀ i, (s.points i).trusted = true → s.Matched →
      { s with stored := stored, queued := queued }.Matched) :
    Inv { s with stored := stored, queued := queued, resident := resident } :=
  { hI with
    slot := fun hr => ⟨hq (hI.slot hr).1, (hI.slot hr).2⟩
    matched := fun i hi => h i hi (hI.matched i hi) }

/-- Only the memory tier changes. -/
theorem copied : Inv { s with resident := resident, found := found } := { hI with }

/-- Who has begun has a slot. -/
theorem resolved_ne_none (hi : s.points i = p) (hp : p ≠ .idle) : s.resolved ≠ none :=
  fun hr => hp (hi.symm.trans ((hI.slot hr).2 i))

variable [DecidableEq ι] {e : CallerEvent}

/-- **A caller goes on**, with a guard that it may have or with none. -/
theorem moved (hpoints : s'.points = Function.update s.points i p)
    (hself : s'.guards i = p.guard) (hother : ∀ j, j ≠ i → s'.guards j = s.guards j)
    (hnext : s.next ≤ s'.next) (hweak : s.Offers i s'.next s'.weak)
    (hguard : ∀ g, p.guard = some g → s.Offers i s'.next g)
    (hvalidating : ∀ c g, p = .validating c g → g = s.next ∧ s'.weak = s.weak)
    (hwriting : s'.writing = s.writing) (hfree : s.writing = true → p.guard = none)
    (hslot : s'.resolved ≠ none) (hmatched : s.Matched → s'.Matched)
    (htrusted : p.trusted = true → s'.Matched) : Inv s' where
  guard j := by
    rw [hpoints]
    rcases eq_or_ne j i with rfl | hj
    · rw [update_self, hself]
    · rw [update_of_ne hj, hother j hj, hI.guard]
  weak_lt := hI.lt_of_offers hnext hweak
  lt j g hg := by
    rcases eq_or_ne j i with rfl | hj
    · exact hI.lt_of_offers hnext (hguard g (hself.symm.trans hg))
    · rw [hother j hj] at hg
      exact (hI.lt j g hg).trans_le hnext
  alone j c g hg := by
    rw [hpoints] at hg
    rcases eq_or_ne j i with rfl | hj
    · rw [update_self] at hg
      obtain ⟨rfl, hw⟩ := hvalidating c g hg
      refine ⟨hw ▸ hI.weak_lt.ne', fun k hk hk' => ?_⟩
      rw [hother k hk] at hk'
      exact (hI.lt k _ hk').ne rfl
    · rw [update_of_ne hj] at hg
      refine ⟨hI.ne_of_offers hj hg hweak, fun k hk hk' => ?_⟩
      rcases eq_or_ne k i with rfl | hki
      · exact hI.ne_of_offers hj hg (hguard g (hself.symm.trans hk')) rfl
      · rw [hother k hki] at hk'
        exact (hI.alone j c g hg).2 k hk hk'
  excluded hw j := by
    rw [hwriting] at hw
    rcases eq_or_ne j i with rfl | hj
    · rw [hself, hfree hw]
    · rw [hother j hj, hI.excluded hw j]
  slot h := absurd h hslot
  matched j hj := by
    rw [hpoints] at hj
    rcases eq_or_ne j i with rfl | hne
    · rw [update_self] at hj
      exact htrusted hj
    · rw [update_of_ne hne] at hj
      exact hmatched (hI.matched j hj)

/-- A caller goes on with the guard that it has. -/
theorem goto (hr : s.resolved ≠ none) (hp : p.guard = (s.points i).guard)
    (hv : ∀ c g, p ≠ .validating c g) (ht : p.trusted = true → s.Matched) : Inv (s.goto i p) :=
  have hguard := (hI.guard i).trans hp.symm
  hI.moved rfl hguard (fun _ _ => rfl) le_rfl (.inl rfl)
    (fun _ hg => .inr (.inr (hguard.trans hg))) (fun c g h => absurd h (hv c g)) rfl
    (fun hw => hguard.symm.trans (hI.excluded hw i)) hr id ht

/-- A caller goes on without a guard. -/
theorem giveUp (hr : s.resolved ≠ none) (hp : p.guard = none) :
    Inv (s.giveUp i p) := by
  refine hI.moved rfl (release_self.trans hp.symm) (fun _ hj => release_of_ne hj)
    le_rfl (.inl rfl) (fun g hg => ?_) (fun c g h => ?_) rfl (fun _ => hp) hr id
    (fun ht => ?_)
  · exact nomatch hp.symm.trans hg
  · rw [h] at hp
    exact nomatch hp
  · obtain ⟨g, hg⟩ := guard_of_trusted ht
    exact nomatch hp.symm.trans hg

/-! ### The steps -/

/-- The slot is made where there was none, and the manifest is the one that it is made with. -/
theorem create {r : Resolved} (hw : s.writing = false) (hm : queued.or stored = some m)
    (hperm : Perm ((handedOut m).map (·.hashout)) (r.artifacts.map (·.hashout))) :
    Inv ({ s with
      stored := stored, queued := queued, resident := resident, found := found }.create i r) := by
  have hmatched : ({ s with
      stored := stored, queued := queued, resident := resident, found := found }.create i
        r).Matched := ⟨m, r, hm, rfl, hperm⟩
  refine hI.moved rfl take_self (fun _ hj => take_of_ne hj) (le_succ _)
    (.inr (.inl ⟨rfl, lt_succ_self _⟩)) (fun g hg => ?_) (fun c g h => nomatch h) rfl
    (fun hw' => absurd hw' (by rw [hw]; exact false_ne_true)) (some_ne_none r)
    (fun _ => hmatched) (fun _ => hmatched)
  cases hg
  exact .inr (.inl ⟨rfl, lt_succ_self _⟩)

theorem resolve (hs : s.sound (.caller i e) = true) (hw : s.writing = false)
    (hr : s.resolved = none) (h : s.resolve i e = some s') : Inv s' := by
  have hq : s.queued = none := (hI.slot hr).1
  cases e with
  | resolveHit =>
    rw [GuardSlot.resolve] at h
    split at h
    · next m s₁ hread =>
      cases h
      obtain ⟨m', hm', heq⟩ := exists_of_read hs hread
      obtain ⟨found, rfl⟩ := eq_of_read hread
      refine hI.create hw hm' ((manifestHashouts_perm m').symm.trans ?_)
      rw [heq]
      exact manifestHashouts_perm m
    · exact nomatch h
  | resolveRemote m =>
    cases h
    exact hI.create hw rfl (.refl _)
  | resolveExecuted m landed =>
    obtain rfl : landed = true := hs
    cases h
    exact hI.create hw (by rw [hq]; rfl) (.refl _)
  | _ => exact nomatch h

theorem acquire (hr : s.resolved ≠ none) (hw : s.writing = false) :
    Inv ({ s with next := s.next + 1 }.keep i s.next (.validating c s.next)) := by
  refine hI.moved rfl take_self (fun _ hj => take_of_ne hj) (le_succ _)
    (.inl rfl) (fun g hg => ?_) (fun c g h => ?_) rfl
    (fun hw' => absurd hw' (by rw [hw]; exact false_ne_true)) hr id
    (fun h => nomatch h)
  · cases hg
    exact .inr (.inl ⟨rfl, lt_succ_self _⟩)
  · injection h with _ h
    exact ⟨h.symm, rfl⟩

/-- The check succeeds on a manifest that has the hashouts, and fails on any other. -/
theorem validate (hs : s.current = true) (hp : s.points i = .validating c g)
    (h : s.validate i c g = some s') : Inv s' := by
  have hne := hI.resolved_ne_none hp (by simp)
  rw [GuardSlot.validate] at h
  split at h
  · next hread hr =>
    have hcheck := matched_of_check hs hread hr
    obtain ⟨found, rfl⟩ := eq_of_read hread
    have hI' : Inv { s with found := found } := hI.copied
    split at h
    · next hpass =>
      cases h
      exact hI'.goto hne (by rw [hp]; rfl) (fun _ _ h => nomatch h) fun _ => hcheck hpass
    · cases h
      exact hI'.giveUp hne rfl
  · exact nomatch h

theorem rebuild {landed : Bool}
    (hs : s.sound (.caller i (.rebuild m landed)) = true)
    (h : s.rebuild i c m landed = some s') : Inv s' := by
  cases hq : s.queued with
  | some m => simp [GuardSlot.rebuild, hq] at h
  | none =>
    cases hr : s.resolved with
    | none => simp [GuardSlot.rebuild, hq, hr] at h
    | some r =>
      cases r with
      | executed metas => simp [GuardSlot.rebuild, hq, hr] at h
      | hit promised =>
        have hI' : Inv (s.write m landed) := by
          refine hI.restored id fun _ _ hm => ?_
          cases landed with
          | false => exact hm
          | true =>
            simp only [sound, hr, Bool.not_true, Bool.false_or] at hs
            exact ⟨m, .hit promised, by simp [manifest, hq], hr, perm_of_reconcile hs⟩
        simp only [GuardSlot.rebuild, hq, hr] at h
        split at h
        · cases h
          exact hI'
        · cases h
          exact hI'.giveUp (hr ▸ some_ne_none _ : s.resolved ≠ none) rfl

/-- The reference is replaced by one to a guard that the caller has. -/
theorem fill (hp : s.points i = .validated c g) :
    Inv ({ s with weak := g }.goto i (.returned c g)) := by
  have hguard : s.guards i = some g := (hI.guard i).trans (by rw [hp]; rfl)
  have hne : s.resolved ≠ none := hI.resolved_ne_none hp (by simp)
  have hmatched : s.Matched := hI.matched i (by rw [hp]; rfl)
  exact hI.moved rfl hguard (fun _ _ => rfl) le_rfl (.inr (.inr hguard))
    (fun _ hg => .inr (.inr (hguard.trans hg))) (fun _ _ h => nomatch h) rfl
    (fun hw => hguard.symm.trans (hI.excluded hw i)) hne id (fun _ => hmatched)

theorem use (hs : s.sound (.caller i e) = true)
    (hp : s.points i = .returned c g) (h : s.use i c g e = some s') : Inv s' := by
  have hne := hI.resolved_ne_none hp (by simp)
  cases e with
  | claim artifacts =>
    cases c with
    | claim => exact nomatch h
    | resolve | hold =>
      cases artifacts with
      | true =>
        refine some.inj h ▸ hI.goto hne (by rw [hp]; rfl) (fun _ _ h => nomatch h) ?_
        exact fun _ => hI.matched i (by rw [hp]; rfl)
      | false => exact some.inj h ▸ hI.giveUp hne rfl
  | rebuild m landed =>
    cases c with
    | claim => exact nomatch h
    | resolve | hold => exact hI.rebuild hs h
  | drop => exact some.inj h ▸ hI.giveUp hne rfl
  | _ => exact nomatch h

variable [Fintype ι]

theorem upgrade (hr : s.resolved ≠ none) (hp : s.points i = .idle) :
    Inv (s.upgrade i c) := by
  rw [GuardSlot.upgrade]
  split
  · next halive =>
    have hw : s.writing ≠ true := fun hw => by
      obtain ⟨j, hj⟩ := halive
      exact nomatch (hI.excluded hw j).symm.trans hj
    refine hI.moved rfl take_self (fun _ hj => take_of_ne hj) le_rfl (.inl rfl)
      (fun g hg => .inl (some.inj hg).symm) (fun _ _ h => nomatch h) rfl
      (fun hw' => absurd hw' hw) hr id (fun _ => hI.matched_of_heldAs halive)
  · exact hI.goto hr (by rw [hp]; rfl) (fun _ _ h => nomatch h) (fun h => nomatch h)

theorem call (hs : s.sound (.caller i e) = true) (hp : s.points i = .idle)
    (h : s.call i e = some s') : Inv s' := by
  cases hr : s.resolved with
  | none =>
    simp only [GuardSlot.call, hr] at h
    obtain ⟨hw, h⟩ := ite_none_left_eq_some.mp h
    exact hI.resolve hs (eq_false_iff.mpr hw) hr h
  | some r =>
    have hne : s.resolved ≠ none := hr ▸ some_ne_none r
    cases e with
    | hold =>
      simp only [call, hr, some.injEq] at h
      exact h ▸ hI.upgrade hne hp
    | claim artifacts =>
      cases artifacts with
      | true =>
        simp only [call, hr, some.injEq] at h
        exact h ▸ hI.upgrade hne hp
      | false =>
        simp only [call, hr, some.injEq] at h
        exact h ▸ hI.goto hne (by rw [hp]; rfl) (fun _ _ h => nomatch h) (fun h => nomatch h)
    | _ => simp [call, hr] at h

/-- **A step of a caller keeps the invariant.** -/
theorem callerStep (hs : s.sound (.caller i e) = true)
    (h : s.callerStep i e = some s') : Inv s' := by
  cases hp : s.points i with
  | idle =>
    simp only [GuardSlot.callerStep, hp] at h
    exact hI.call hs hp h
  | returned c g =>
    simp only [GuardSlot.callerStep, hp] at h
    exact hI.use hs hp h
  | awaiting c =>
    have hne := hI.resolved_ne_none hp (by simp)
    cases e with
    | acquire =>
      simp only [callerStep, hp] at h
      obtain ⟨hw, h⟩ := ite_none_left_eq_some.mp h
      exact some.inj h ▸ hI.acquire hne (eq_false_iff.mpr hw)
    | fail =>
      simp only [callerStep, hp, some.injEq] at h
      exact h ▸ hI.goto hne (by rw [hp]; rfl) (fun _ _ h => nomatch h) (fun h => nomatch h)
    | _ => simp [callerStep, hp] at h
  | validating c g =>
    have hne := hI.resolved_ne_none hp (by simp)
    cases e with
    | validate =>
      simp only [callerStep, hp] at h
      exact hI.validate hs hp h
    | fail =>
      simp only [callerStep, hp, some.injEq] at h
      exact h ▸ hI.giveUp hne rfl
    | _ => simp [callerStep, hp] at h
  | validated c g =>
    have hne := hI.resolved_ne_none hp (by simp)
    cases e with
    | fill =>
      simp only [callerStep, hp, some.injEq] at h
      exact h ▸ hI.fill hp
    | fail =>
      simp only [callerStep, hp, some.injEq] at h
      exact h ▸ hI.giveUp hne rfl
    | _ => simp [callerStep, hp] at h
  | unguarded | failed c =>
    have hne := hI.resolved_ne_none hp (by simp)
    cases e with
    | drop =>
      simp only [callerStep, hp, some.injEq] at h
      exact h ▸ hI.goto hne (by rw [hp]; rfl) (fun _ _ h => nomatch h) (fun h => nomatch h)
    | _ => simp [callerStep, hp] at h

/-- **A step keeps the invariant**, whoever takes it. -/
theorem step {e : SlotEvent ι} (hs : s.sound e = true) (h : s.step e = some s') :
    Inv s' := by
  cases e with
  | caller i e => exact hI.callerStep hs h
  | lockWrite =>
    obtain ⟨⟨-, hfree⟩, h⟩ := ite_none_right_eq_some.mp h
    exact some.inj h ▸ { hI with excluded := fun _ => hfree }
  | store m =>
    obtain ⟨hw, h⟩ := ite_none_right_eq_some.mp h
    refine some.inj h ▸ hI.restored id fun i hi _ => ?_
    obtain ⟨g, hg⟩ := guard_of_trusted hi
    exact nomatch ((hI.guard i).symm.trans (hI.excluded hw i)).symm.trans hg
  | unlockWrite =>
    obtain ⟨-, h⟩ := ite_none_right_eq_some.mp h
    exact some.inj h ▸ { hI with excluded := fun h => absurd h false_ne_true }
  | land =>
    cases hq : s.queued with
    | none => simp [GuardSlot.step, hq] at h
    | some m =>
      simp only [GuardSlot.step, hq, some.injEq] at h
      refine h ▸ hI.restored (fun _ => rfl) fun _ _ hm => ?_
      obtain ⟨m', r, hm', hr, hperm⟩ := hm
      exact ⟨m', r, by simpa [manifest, hq] using hm', hr, hperm⟩
  | lose => exact absurd hs false_ne_true
  | read =>
    rw [GuardSlot.step] at h
    split at h
    · next hread =>
      cases h
      obtain ⟨found, rfl⟩ := eq_of_read hread
      exact hI.copied
    · exact nomatch h
  | insert m =>
    obtain ⟨-, h⟩ := ite_none_right_eq_some.mp h
    exact some.inj h ▸ hI.copied
  | evict => exact some.inj h ▸ hI.copied

end Inv

section Runs

variable {stored resident : Option (List Artifact)} [DecidableEq ι] [Fintype ι]
  {es : List (SlotEvent ι)}

/-- The invariant holds in every run whose steps are sound. -/
theorem inv_of_run (hrun : (machine ι stored resident).run es = some s)
    (hsound : (machine ι stored resident).Meets (fun s e => s.sound e = true)
      (new stored resident) es) : Inv s :=
  Machine.runFrom_invariant (fun _ _ _ hI hs h => .step hI hs h) (.new stored resident) hsound hrun

/-- **What is handed out is what was resolved.** Whoever has been handed a guard holds a read of the
revision, nobody can write it, and its manifest has the hashouts that the slot was made with. Who
comes to a manifest that has not fails, and who has failed holds nothing. -/
theorem handed_out_matches (hrun : (machine ι stored resident).run es = some s)
    (hsound : (machine ι stored resident).Meets (fun s e => s.sound e = true)
      (new stored resident) es) (i : ι) :
    (∀ c g, s.points i = .returned c g →
      s.guards i = some g ∧ s.writing = false ∧ s.Matched) ∧
    (∀ c g, s.points i = .validating c g → s.queued = none → s.current = true → ¬ s.Matched →
      ∃ s', s.step (.caller i .validate) = some s' ∧ s'.points i = .failed c) ∧
    ∀ c, s.points i = .failed c → s.guards i = none := by
  have hI := inv_of_run hrun hsound
  refine ⟨fun c g hp => ?_, fun c g hp hq hcurrent hm => ?_, fun c hp => ?_⟩
  · have hguard : s.guards i = some g := (hI.guard i).trans (by rw [hp]; rfl)
    refine ⟨hguard, eq_false_iff.mpr fun hw => ?_, hI.matched i (by rw [hp]; rfl)⟩
    exact nomatch (hI.excluded hw i).symm.trans hguard
  · obtain ⟨r, hr⟩ := ne_none_iff_exists'.mp (hI.resolved_ne_none hp (by simp))
    obtain ⟨⟨manifest, s'⟩, hread⟩ := exists_read hq
    have hcheck := mt (matched_of_check hcurrent hread hr) hm
    refine ⟨s'.giveUp i (.failed c), ?_, update_self ..⟩
    simp only [step, callerStep, hp, validate, hread, hr, if_neg hcheck]
  · exact (hI.guard i).trans (by rw [hp]; rfl)

end Runs

/-- One caller resolves the revision, of which there is a copy then, and drops what it got. Another
process stores a manifest, and a second caller claims the result. -/
def lapsed (m m' : List Artifact) : List (SlotEvent Bool) :=
  [.caller false .resolveHit, .insert m, .caller false .drop, .lockWrite, .store (some m'),
    .unlockWrite] ++ [.claim true, .acquire, .validate, .fill].map (.caller true)

/-- The manifest that is stored in between differs in a log only. -/
theorem handed_out_matches_lapsed :
    ∃ s, (machine Bool (some [⟨.output, [], ['h']⟩]) none).run
        (lapsed [⟨.output, [], ['h']⟩] [⟨.log, [], ['l']⟩, ⟨.output, [], ['h']⟩]) = some s ∧
      s.guards true = some 2 ∧ s.writing = false ∧ s.Matched := by
  have hrun : ∃ s, (machine Bool (some [⟨.output, [], ['h']⟩]) none).run
      (lapsed [⟨.output, [], ['h']⟩] [⟨.log, [], ['l']⟩, ⟨.output, [], ['h']⟩]) = some s ∧
        s.points true = .returned .claim 2 := ⟨_, rfl, rfl⟩
  obtain ⟨s, hrun, hp⟩ := hrun
  exact ⟨s, hrun, (handed_out_matches hrun (by decide) true).1 .claim 2 hp⟩

/-- **The copy outlives the rebuild of another process**: the revision has been stored anew with
another output, and `claim` hands out the one that is not there any more. -/
theorem copy_outlives_rebuild :
    ∃ s, (machine Bool (some [⟨.output, [], ['h']⟩]) none).run
        (lapsed [⟨.output, [], ['h']⟩] [⟨.output, [], ['o']⟩]) = some s ∧
      s.points true = .returned .claim 2 ∧ s.queued = none ∧ ¬ s.Matched := by
  refine ⟨_, rfl, rfl, rfl, ?_⟩
  rintro ⟨m, r, hm, hr, hperm⟩
  cases hm
  cases hr
  exact absurd hperm (by decide)

end GuardSlot

end Heph
