import Heph.Credential.Store

/-!
# Live material stays on disk

A `get` without the lock decides by what it has read, and then removes **by path**. In between
another process may have put new material under the same key: then the new entry is removed instead
of the one that was read, and the new files with it (`CredStore.live_lost`).

And it decides by the acquisition time in the entry, which `put` has cut to seconds: an entry may
be removed while the material is usable. It is not if the material lives for two minutes or longer
(`PutMaterial.UsableAt.entry`).

Nothing is lost if every `get` **judges right** (`CredStore.JudgesRight`) and if every one that
removes is **undisturbed** (`CredStore.Undisturbed`): since it has read the entry, no other process
has put a directory in place or created an entry file, and when it removes files, nobody has files
in place that are not in an entry yet. A `get` that removes under the lock is never disturbed
(`CredStore.kept_of_removed_under_lock`).
-/

namespace Heph

/-- Usable later is usable now. -/
theorem PutMaterial.UsableAt.mono {ν β : Type} {x : PutMaterial ν β} {now later : ℕ}
    (h : x.UsableAt later) (hle : now ≤ later) : x.UsableAt now := by
  rw [PutMaterial.UsableAt, StoreMaterial.UsableAt] at h ⊢
  split
  · trivial
  · next hexpires =>
    simp only [hexpires] at h
    exact lt_of_le_of_lt hle h

/-- Material that lives for two minutes or longer is judged right: the margin is the same. -/
theorem PutMaterial.UsableAt.entry {ν β : Type} {x : PutMaterial ν β} {now : ℕ}
    (hlong : ∀ t, x.material.expiresAt = some t → x.acquiredAt + 2 * skewMargin ≤ t * second)
    (h : x.UsableAt now) : x.entry.UsableAt now := by
  simp only [PutMaterial.UsableAt, StoreEntry.UsableAt, StoreMaterial.UsableAt,
    PutMaterial.entry] at h ⊢
  split
  · trivial
  · next t ht =>
    simp only [ht] at h
    -- with half the lifetime above the margin, both lifetimes give the margin
    have hmargin : ∀ expiry acquired cut margin : ℕ, acquired + 2 * margin ≤ expiry →
        cut ≤ acquired → now < expiry - min margin ((expiry - acquired) / 2) →
          now < expiry - min margin ((expiry - cut) / 2) := by
      omega
    exact hmargin _ _ _ _ (hlong t ht) (Nat.div_mul_le_self ..) h

namespace CredStore

variable {ι ν β : Type} {s s' : CredStore ι ν β} {p q : ι} {x : StorePoint ν β}

/-! ### Undisturbed removals -/

variable (s : CredStore ι ν β)

/-- The process has judged an entry, in a version of the store, and is removing it. -/
def Removes (p : ι) (e : StoreEntry ν β) (v : ℕ) : Prop :=
  (∃ withFiles, s.point p = .stale e v withFiles) ∨ s.point p = .sweeping e v

/-- **A `get` judges right**: live material that is usable at the time it goes by is usable with
the acquisition time in the entry, too. -/
def JudgesRight : StoreEvent ι ν β → Prop
  | .read _ now => ∀ x, s.live = some x → x.UsableAt now → x.entry.UsableAt now
  | _ => True

/-- **Undisturbed**: a `get` judges right, and what it removes is as it was when the entry was
read. -/
def Undisturbed : StoreEvent ι ν β → Prop
  | .read p now => s.JudgesRight (.read p now)
  | .removeEntry p => ∀ e v, s.Removes p e v → s.version = v
  | .unlink p _ => ∀ e v, s.Removes p e v → s.version = v ∧ ∀ q m, s.point q ≠ .promoted m
  | _ => True

/-- **Live material is on disk**: as long as it is usable, its entry and all its files. -/
def Kept : Prop :=
  ∀ x, s.live = some x → x.UsableAt s.clock →
    (∃ file, s.entry = some (file, some x.entry)) ∧ ∀ f ∈ x.material.files, f ∈ s.dir

variable {s}

/-- The points that are reached under the lock only. -/
def UnderLock : StorePoint ν β → Prop
  | .idle | .missed | .stale .. | .sweeping .. => False
  | .acquired _ | .clearing _ | .promoted _ | .writing .. => True

/-! ### The invariant -/

/-- What holds in every state of a run without disturbed removals. -/
structure Sound (s : CredStore ι ν β) : Prop where
  kept : s.Kept
  live_expires : ∀ x, s.live = some x → x.material.expiresAt ≠ none
  holder : ∀ p, UnderLock (s.point p) → s.holder = some p
  /-- Under the lock, after a miss, there is nothing live. -/
  missed : ∀ p, s.holder = some p → s.point p ≠ .idle → ∀ x, s.live = some x → ¬ x.UsableAt s.clock
  /-- If nothing has changed since the entry was read that is removed, there is nothing live. -/
  removes : ∀ p e v, s.Removes p e v → v ≤ s.version ∧
    (s.version = v → ∀ x, s.live = some x → ¬ x.UsableAt s.clock)
  /-- Under the lock nothing changes since. -/
  locked : ∀ p e v, s.holder = some p → s.Removes p e v → s.version = v
  expires : ∀ p m, s.point p = .clearing m ∨ s.point p = .promoted m → m.expiresAt ≠ none
  promoted : ∀ p m, s.point p = .promoted m → ∀ f ∈ m.files, f ∈ s.dir
  /-- While an entry is written, its file is in place, and whoever removes has read before. -/
  writing : ∀ p x file, s.point p = .writing x file →
    s.entry = some (file, none) ∧ x.material.expiresAt ≠ none ∧
      (∀ f ∈ x.material.files, f ∈ s.dir) ∧ ∀ q e v, s.Removes q e v → v < s.version

section

variable (h : Sound s)

include h

section

variable (hp : UnderLock (s.point p))

include hp

/-- Nobody else is where the lock is needed. -/
theorem Sound.eq_of_underLock (hq : UnderLock (s.point q)) : p = q :=
  Option.some.inj ((h.holder p hp).symm.trans (h.holder q hq))

/-- Under the lock there is nothing live. -/
theorem Sound.not_usable {x : PutMaterial ν β}
    (hx : s.live = some x) : ¬ x.UsableAt s.clock :=
  h.missed p (h.holder p hp) (fun hidle => by simp [hidle, UnderLock] at hp) x hx

/-- Whoever holds the lock for an acquisition removes nothing as a `get`. -/
theorem Sound.not_removes (hq : s.holder = some q)
    (e : StoreEntry ν β) (v : ℕ) : ¬ s.Removes q e v := by
  obtain rfl : p = q := Option.some.inj ((h.holder p hp).symm.trans hq)
  rintro (⟨_, hx⟩ | hx) <;> simp [hx, UnderLock] at hp

end

/-- While one process is clearing the directory or has its files in place, none is writing. -/
theorem Sound.not_writing (hlock : UnderLock (s.point p))
    (hp : ∀ x file, s.point p ≠ .writing x file) (q : ι) (x : PutMaterial ν β) (file : ℕ) :
    s.point q ≠ .writing x file := by
  intro hq
  obtain rfl := h.eq_of_underLock hlock (by rw [hq]; trivial)
  exact hp x file hq

/-- While one process is clearing the directory, none has its files in place. -/
theorem Sound.not_promoted (hlock : UnderLock (s.point p))
    (hp : ∀ m, s.point p ≠ .promoted m) (q : ι) (m : StoreMaterial ν β) :
    s.point q ≠ .promoted m := by
  intro hq
  obtain rfl := h.eq_of_underLock hlock (by rw [hq]; trivial)
  exact hp m hq

/-- Time goes by. -/
theorem Sound.tick (t : ℕ) : Sound { s with clock := s.clock + t } where
  __ := h
  kept x hx husable := h.kept x hx (husable.mono (Nat.le_add_right ..))
  missed p hp hidle x hx husable :=
    h.missed p hp hidle x hx (husable.mono (Nat.le_add_right ..))
  removes p e v hp := by
    obtain ⟨hle, hdead⟩ := h.removes p e v hp
    refine ⟨hle, fun hv x hx husable => ?_⟩
    exact hdead hv x hx (husable.mono (Nat.le_add_right ..))

section

variable (hlive : ∀ x, s.live = some x → ¬ x.UsableAt s.clock)

include hlive

/-- The entry file is removed while nothing is live and none is being written. -/
theorem Sound.removeEntry
    (hwriting : ∀ q x file, s.point q ≠ .writing x file) : Sound { s with entry := none } where
  __ := h
  kept x hx husable := absurd husable (hlive x hx)
  writing q x file hq := absurd hq (hwriting q x file)

/-- A file is removed while nothing is live and nobody has files in place. -/
theorem Sound.setDir (hpromoted : ∀ q m, s.point q ≠ .promoted m)
    (hwriting : ∀ q x file, s.point q ≠ .writing x file) (d : List (ν × β)) :
    Sound { s with dir := d } where
  __ := h
  kept x hx husable := absurd husable (hlive x hx)
  promoted q m hq := absurd hq (hpromoted q m)
  writing q x file hq := absurd hq (hwriting q x file)

end

/-- A directory is put in place, under the lock. -/
theorem Sound.bump (hp : UnderLock (s.point p))
    (hwriting : ∀ q x file, s.point q ≠ .writing x file) :
    Sound { s with version := s.version + 1 } where
  __ := h
  removes q e v hq := by
    obtain ⟨hle, -⟩ := h.removes q e v hq
    exact ⟨Nat.le_succ_of_le hle, fun hv => absurd hv (by simp; omega)⟩
  locked q e v hq hremoves := absurd hremoves (h.not_removes hp hq e v)
  writing q x file hq := absurd hq (hwriting q x file)

/-- An entry file is created, under the lock. -/
theorem Sound.create (hp : UnderLock (s.point p))
    (hwriting : ∀ q x file, s.point q ≠ .writing x file) :
    Sound { s with
      entry := some (s.version + 1, none), version := s.version + 1, live := none } where
  __ := h
  kept x hx := by simp at hx
  live_expires x hx := by simp at hx
  missed p hp hidle x hx := by simp at hx
  removes q e v hq := by
    obtain ⟨hle, -⟩ := h.removes q e v hq
    exact ⟨Nat.le_succ_of_le hle, fun _ x hx => by simp at hx⟩
  locked q e v hq hremoves := absurd hremoves (h.not_removes hp hq e v)
  writing q x file hq := absurd hq (hwriting q x file)

/-- The entry file is complete: the material is live. Whoever removes has read before. -/
theorem Sound.complete {x : PutMaterial ν β} {file : ℕ}
    (hfree : ∀ q, ¬ UnderLock (s.point q)) (hidle : ∀ q, s.holder = some q → s.point q = .idle)
    (hexpires : x.material.expiresAt ≠ none) (hfiles : ∀ f ∈ x.material.files, f ∈ s.dir)
    (hremoves : ∀ q e v, s.Removes q e v → v < s.version) :
    Sound { s with entry := some (file, some x.entry), live := some x } where
  __ := h
  kept y hy _ := by
    cases hy
    exact ⟨⟨file, rfl⟩, hfiles⟩
  live_expires y hy := by
    cases hy
    exact hexpires
  missed q hq hne := absurd (hidle q hq) hne
  removes q e v hq := by
    obtain ⟨hle, -⟩ := h.removes q e v hq
    exact ⟨hle, fun hv => absurd hv (hremoves q e v hq).ne'⟩
  writing q y file' hq := by
    have hpoint : s.point q = .writing y file' := hq
    exact absurd (by rw [hpoint]; trivial) (hfree q)

/-- The lock changes hands while nobody is where it is needed. -/
theorem Sound.setHolder {holder : Option ι}
    (hholder : ∀ q, UnderLock (s.point q) → holder = some q)
    (hmissed : ∀ q, holder = some q → s.holder = some q ∨ s.point q = .idle) :
    Sound { s with holder := holder } where
  __ := h
  holder := hholder
  missed q hq hne := by
    rcases hmissed q hq with hheld | hidle
    · exact h.missed q hheld hne
    · exact absurd hidle hne
  locked q e v hq hremoves := by
    rcases hmissed q hq with hheld | hidle
    · exact h.locked q e v hheld hremoves
    · rcases hremoves with ⟨_, hx⟩ | hx <;> simp [hidle] at hx

end

/-! ### One process moves -/

section Move

/-- **A `get` under the lock is not disturbed.** -/
theorem Sound.undisturbed {ev : StoreEvent ι ν β} (h : Sound s) (hright : s.JudgesRight ev)
    (hlocked : ∀ p, ev = .removeEntry p ∨ (∃ n, ev = .unlink p n) → s.holder = some p) :
    Undisturbed s ev := by
  cases ev with
  | removeEntry p => exact fun e v hp => h.locked p e v (hlocked p (.inl rfl)) hp
  | unlink p n =>
    intro e v hp
    have hheld := hlocked p (.inr ⟨n, rfl⟩)
    refine ⟨h.locked p e v hheld hp, fun q m hq => ?_⟩
    exact h.not_removes (by rw [hq]; trivial) hheld e v hp
  | read => exact hright
  | tick | swept | lock | acquire | promote | rename | create | write | leave => trivial

variable [DecidableEq ι]

@[simp] theorem point_moveTo_self : (s.moveTo p x).point p = x := Function.update_self ..

theorem point_moveTo_of_ne (h : q ≠ p) : (s.moveTo p x).point q = s.point q :=
  Function.update_of_ne h ..

theorem removes_moveTo {e : StoreEntry ν β} {v : ℕ} (h : (s.moveTo p x).Removes q e v) :
    q = p ∧ ((∃ withFiles, x = .stale e v withFiles) ∨ x = .sweeping e v) ∨
      q ≠ p ∧ s.Removes q e v := by
  rcases eq_or_ne q p with rfl | hne
  · exact .inl ⟨rfl, by simpa [Removes] using h⟩
  · exact .inr ⟨hne, by simpa [Removes, point_moveTo_of_ne hne] using h⟩

/-- A process goes to a point at which it holds what the invariant asks of it. -/
theorem Sound.moveTo (h : Sound s) (hlock : UnderLock x → s.holder = some p)
    (hmissed : s.holder = some p → x ≠ .idle → ∀ y, s.live = some y → ¬ y.UsableAt s.clock)
    (hremoves : ∀ e v, (∃ withFiles, x = .stale e v withFiles) ∨ x = .sweeping e v →
      (v ≤ s.version ∧ (s.version = v → ∀ y, s.live = some y → ¬ y.UsableAt s.clock)) ∧
      (s.holder = some p → s.version = v) ∧
      ∀ q y file, s.point q = .writing y file → v < s.version)
    (hexpires : ∀ m, x = .clearing m ∨ x = .promoted m → m.expiresAt ≠ none)
    (hpromoted : ∀ m, x = .promoted m → ∀ f ∈ m.files, f ∈ s.dir)
    (hwriting : ∀ y file, x = .writing y file →
      s.entry = some (file, none) ∧ y.material.expiresAt ≠ none ∧
        (∀ f ∈ y.material.files, f ∈ s.dir) ∧ ∀ q e v, s.Removes q e v → v < s.version) :
    Sound (s.moveTo p x) where
  __ := h
  holder q hq := by
    rcases eq_or_ne q p with rfl | hne
    · exact hlock (by simpa using hq)
    · exact h.holder q (by rwa [point_moveTo_of_ne hne] at hq)
  missed q hq hidle := by
    rcases eq_or_ne q p with rfl | hne
    · exact hmissed hq (by simpa using hidle)
    · exact h.missed q hq (by rwa [point_moveTo_of_ne hne] at hidle)
  removes q e v hq := by
    rcases removes_moveTo hq with ⟨-, hx⟩ | ⟨-, hq⟩
    · exact (hremoves e v hx).1
    · exact h.removes q e v hq
  locked q e v hheld hq := by
    rcases removes_moveTo hq with ⟨rfl, hx⟩ | ⟨-, hq⟩
    · exact (hremoves e v hx).2.1 hheld
    · exact h.locked q e v hheld hq
  expires q m hq := by
    rcases eq_or_ne q p with rfl | hne
    · exact hexpires m (by simpa using hq)
    · exact h.expires q m (by rwa [point_moveTo_of_ne hne] at hq)
  promoted q m hq := by
    rcases eq_or_ne q p with rfl | hne
    · exact hpromoted m (by simpa using hq)
    · exact h.promoted q m (by rwa [point_moveTo_of_ne hne] at hq)
  writing q e file hq := by
    rcases eq_or_ne q p with rfl | hne
    · obtain ⟨hentry, hexp, hfiles, hv⟩ := hwriting e file (by simpa using hq)
      refine ⟨hentry, hexp, hfiles, fun q' e' v hq' => ?_⟩
      rcases removes_moveTo hq' with ⟨-, hx⟩ | ⟨-, hq'⟩
      · simp_all
      · exact hv q' e' v hq'
    · rw [point_moveTo_of_ne hne] at hq
      obtain ⟨hentry, hexp, hfiles, hv⟩ := h.writing q e file hq
      refine ⟨hentry, hexp, hfiles, fun q' e' v hq' => ?_⟩
      rcases removes_moveTo hq' with ⟨-, hx⟩ | ⟨-, hq'⟩
      · exact (hremoves e' v hx).2.2 q e file hq
      · exact hv q' e' v hq'

/-- A process that is at no point of the invariant's concern any more. -/
theorem Sound.moveTo_of_free (h : Sound s) (hx : x = .idle ∨ x = .missed ∧ s.point p ≠ .idle) :
    Sound (s.moveTo p x) := by
  refine h.moveTo ?_ (fun hp hidle => ?_) ?_ ?_ ?_ ?_
  · rcases hx with rfl | ⟨rfl, -⟩ <;> exact False.elim
  · rcases hx with rfl | ⟨rfl, hne⟩
    · exact absurd rfl hidle
    · exact h.missed p hp hne
  all_goals rcases hx with rfl | ⟨rfl, -⟩ <;> simp

/-- `promote_staged`, under the lock. -/
theorem Sound.moveTo_promote (h : Sound s) (hlock : UnderLock (s.point p)) {m : StoreMaterial ν β}
    (hexpires : m.expiresAt ≠ none)
    (hx : x = .clearing m ∨ x = .promoted m ∧ ∀ f ∈ m.files, f ∈ s.dir) :
    Sound (s.moveTo p x) := by
  refine h.moveTo (fun _ => h.holder p hlock) (fun _ _ e he => h.not_usable hlock he) ?_ ?_ ?_ ?_
  all_goals rcases hx with rfl | ⟨rfl, hfiles⟩ <;> simp_all

/-- `get`: an entry that it finds not to be used is not live, if it judges right. -/
theorem Sound.read (h : Sound s) {now : ℕ} (hnow : now ≤ s.clock)
    (hright : s.JudgesRight (.read p now)) : Sound (s.moveTo p (s.judge now s.entry)) := by
  -- live material has the entry that is read, and it is a hit
  have hlive : ∀ y, s.live = some y → y.UsableAt s.clock → s.judge now s.entry = .idle := by
    intro y hy husable
    obtain ⟨⟨file, hentry⟩, -⟩ := h.kept y hy husable
    have hexpires : y.entry.material.expiresAt ≠ none := h.live_expires y hy
    rw [hentry, judge, if_neg hexpires,
      if_neg (not_not.mpr (hright y hy (husable.mono hnow)))]
  have hnone : s.judge now s.entry ≠ .idle → ∀ y, s.live = some y → ¬ y.UsableAt s.clock :=
    fun hx y hy husable => hx (hlive y hy husable)
  have hjudge : s.judge now s.entry = .idle ∨ s.judge now s.entry = .missed ∨
      ∃ e withFiles file, s.judge now s.entry = .stale e s.version withFiles ∧
        s.entry = some (file, some e) := by
    cases hentry : s.entry with
    | none => exact .inr (.inl rfl)
    | some entry =>
      obtain ⟨file, _ | e⟩ := entry
      · exact .inr (.inl rfl)
      · simp only [judge]
        split
        · exact .inr (.inr ⟨e, false, file, rfl, rfl⟩)
        · split
          · exact .inr (.inr ⟨e, true, file, rfl, rfl⟩)
          · exact .inl rfl
  rcases hjudge with hx | hx | ⟨e, withFiles, file, hx, hentry⟩
  · rw [hx]
    exact h.moveTo_of_free (.inl rfl)
  · rw [hx] at hnone ⊢
    exact h.moveTo (fun hlock => hlock.elim) (fun _ hne => hnone hne) (by simp) (by simp)
      (by simp) (by simp)
  · rw [hx] at hnone ⊢
    refine h.moveTo (fun hlock => hlock.elim) (fun _ hne => hnone hne) ?_ (by simp) (by simp)
      (by simp)
    intro e' v hv
    obtain rfl : s.version = v := by
      rcases hv with ⟨_, hv⟩ | hv
      · simp only [StorePoint.stale.injEq] at hv
        exact hv.2.1
      · simp at hv
    refine ⟨⟨le_rfl, fun _ => hnone (by simp)⟩, fun _ => rfl, fun q y file' hq => ?_⟩
    -- while an entry is written, there is none to be read
    simp [(h.writing q y file' hq).1] at hentry

variable [DecidableEq ν] {ev : StoreEvent ι ν β}

theorem Sound.step (h : Sound s) (hC : Undisturbed s ev) (hstep : s.step ev = some s') :
    Sound s' := by
  cases did_of_step hstep with
  | ticked t => exact h.tick t
  | read hp hnow => exact h.read hnow hC
  | @removedEntry p e v withFiles hp =>
    have hremoves : s.Removes p e v := .inl ⟨withFiles, hp⟩
    have hv : s.version = v := hC e v hremoves
    have hentry := h.removeEntry ((h.removes p e v hremoves).2 hv)
      fun q y file hq => ((h.writing q y file hq).2.2.2 p e v hremoves).ne' hv
    cases withFiles with
    | false => exact hentry.moveTo_of_free (.inr ⟨rfl, by simp [hp]⟩)
    | true =>
      refine hentry.moveTo (fun hlock => hlock.elim) (fun hheld _ => ?_) ?_ (by simp) (by simp)
        (by simp)
      · exact h.missed p hheld (by simp [hp])
      · rintro e' v' (⟨_, hx⟩ | hx)
        · simp at hx
        · obtain ⟨rfl, rfl⟩ : e = e' ∧ v = v' := by simpa using hx
          exact ⟨h.removes p e v hremoves, fun _ => hv, fun q y file hq =>
            (h.writing q y file hq).2.2.2 p e v hremoves⟩
  | @unlinked p n hp =>
    rcases hp with ⟨e, v, hp⟩ | ⟨m, hp⟩
    · have hremoves : s.Removes p e v := .inr hp
      obtain ⟨hv, hpromoted⟩ := hC e v hremoves
      exact h.setDir ((h.removes p e v hremoves).2 hv) hpromoted
        (fun q y file hq => ((h.writing q y file hq).2.2.2 p e v hremoves).ne' hv) _
    · have hlock : UnderLock (s.point p) := hp ▸ trivial
      exact h.setDir (fun e he => h.not_usable hlock he) (h.not_promoted hlock (by simp [hp]))
        (h.not_writing hlock (by simp [hp])) _
  | swept hp => exact h.moveTo_of_free (.inr ⟨rfl, by simp [hp]⟩)
  | locked hp hfree =>
    refine (h.moveTo_of_free (.inl rfl)).setHolder (fun q hq => ?_) fun q hq => ?_
    · have hheld : s.holder = some q := (h.moveTo_of_free (.inl rfl)).holder q hq
      simp [hfree] at hheld
    · cases hq
      exact .inr (by simp)
  | @acquired p m hp hheld =>
    refine h.moveTo (fun _ => hheld) (fun _ _ => ?_) (by simp) (by simp) (by simp) (by simp)
    exact h.missed p hheld (by simp [hp])
  | @promoted p m hp hexpires =>
    refine h.moveTo_promote (hp ▸ trivial) hexpires ?_
    split
    · next hfiles => exact .inr ⟨rfl, by simp [List.isEmpty_iff.mp hfiles]⟩
    · exact .inl rfl
  | @renamed p m hp hempty =>
    have hlock : UnderLock (s.point p) := hp ▸ trivial
    have hwriting := h.not_writing hlock (by simp [hp])
    have hdir := h.setDir (fun e he => h.not_usable hlock he) (h.not_promoted hlock (by simp [hp]))
      hwriting m.files
    exact (hdir.bump hlock hwriting).moveTo_promote hlock (h.expires p m (.inl hp))
      (.inr ⟨rfl, fun f hf => hf⟩)
  | @created p m a hp =>
    have hlock : UnderLock (s.point p) := hp ▸ trivial
    refine (h.create hlock (h.not_writing hlock (by simp [hp]))).moveTo (fun _ => h.holder p hlock)
      (by simp) (by simp) (by simp) (by simp) ?_
    rintro y file hy
    obtain ⟨rfl, rfl⟩ : ⟨m, a⟩ = y ∧ s.version + 1 = file := by simpa using hy
    refine ⟨rfl, h.expires p m (.inr hp), h.promoted p m hp, fun q e v hq => ?_⟩
    exact Nat.lt_succ_of_le (h.removes q e v hq).1
  | @wrote p y file hp =>
    have hlock : UnderLock (s.point p) := hp ▸ trivial
    obtain ⟨hentry, hexpires, hfiles, hremoves⟩ := h.writing p y file hp
    have hcompleted : completed file y.entry s.entry = some (file, some y.entry) := by
      rw [hentry]
      simp [completed]
    rw [hcompleted]
    refine (h.moveTo_of_free (.inl rfl)).complete (fun q hq => ?_) (fun q hq => ?_) hexpires hfiles
      fun q e' v hq => ?_
    · rcases eq_or_ne q p with rfl | hne
      · simp [UnderLock] at hq
      · rw [point_moveTo_of_ne hne] at hq
        exact hne (h.eq_of_underLock hq hlock)
    · obtain rfl : p = q := Option.some.inj ((h.holder p hlock).symm.trans hq)
      exact point_moveTo_self
    · rcases removes_moveTo hq with ⟨-, hx⟩ | ⟨-, hq⟩
      · simp at hx
      · exact hremoves q e' v hq
  | left p =>
    refine (h.moveTo_of_free (.inl rfl)).setHolder (fun q hq => ?_) fun q hq => .inl ?_
    · have hheld : s.holder = some q := (h.moveTo_of_free (.inl rfl)).holder q hq
      have hne : q ≠ p := by
        rintro rfl
        simp [UnderLock] at hq
      rw [if_neg (by simp [hheld, hne]), hheld]
    · change s.holder = some q
      split at hq
      · simp at hq
      · exact hq

theorem sound_start (clock : ℕ) (entry : Option (StoreEntry ν β)) (dir : List (ν × β)) :
    Sound (machine (ι := ι) clock entry dir).init where
  kept x hx := by simp [machine] at hx
  live_expires x hx := by simp [machine] at hx
  holder p hp := hp.elim
  missed p hp := by simp [machine] at hp
  removes p e v hp := by simp [machine, Removes] at hp
  locked p e v hp := by simp [machine] at hp
  expires p m hp := by simp [machine] at hp
  promoted p m hp := by simp [machine] at hp
  writing p x file hp := by simp [machine] at hp

/-- A `get` judges right, and removes with the lock only. -/
def RemovedUnderLock (s : CredStore ι ν β) (ev : StoreEvent ι ν β) : Prop :=
  s.JudgesRight ev ∧ ∀ p, ev = .removeEntry p ∨ (∃ n, ev = .unlink p n) → s.holder = some p

/-- **Live material stays on disk** if every `get` judges right, and removes nothing without the
lock. -/
theorem kept_of_removed_under_lock {clock : ℕ} {entry : Option (StoreEntry ν β)}
    {dir : List (ν × β)} {es : List (StoreEvent ι ν β)}
    (h : (machine clock entry dir).run es = some s)
    (hlock : (machine clock entry dir).Meets RemovedUnderLock (machine clock entry dir).init es) :
    s.Kept := by
  have hstep : ∀ (s : CredStore ι ν β) ev s', Sound s → RemovedUnderLock s ev →
      s.step ev = some s' → Sound s' :=
    fun _ _ _ hs hlock hstep => hs.step (hs.undisturbed hlock.1 hlock.2) hstep
  exact (Machine.runFrom_invariant hstep (sound_start clock entry dir) hlock h).kept

end Move

/-! ### A slow reader -/

/-- An entry that has expired, with a file. -/
def expiredEntry : StoreEntry Unit ℕ := ⟨⟨[((), 0)], some 0⟩, 0⟩

/-- Material for an hour, with a file. -/
def hourMaterial : StoreMaterial Unit ℕ := ⟨[((), 1)], some 3600⟩

/-- A process that finds the expired entry, removes it and acquires new material. -/
def renewal : List (StoreEvent Bool Unit ℕ) :=
  [.read true 0, .removeEntry true, .unlink true (), .swept true, .lock true, .read true 0,
    .acquire true hourMaterial, .promote true, .rename true, .create true 0, .write true,
    .leave true]

/-- Another one that has read the expired entry before, and removes it after. -/
def slowReader : List (StoreEvent Bool Unit ℕ) :=
  .read false 0 :: renewal ++ [.removeEntry false, .unlink false ()]

/-- The store after a run, from the expired entry. -/
def afterwards (es : List (StoreEvent Bool Unit ℕ)) : CredStore Bool Unit ℕ :=
  ((machine 0 (some expiredEntry) [((), 0)]).run es).getD
    (machine 0 (some expiredEntry) [((), 0)]).init

theorem run_afterwards {es : List (StoreEvent Bool Unit ℕ)}
    (h : ((machine 0 (some expiredEntry) [((), 0)]).run es).isSome) :
    (machine 0 (some expiredEntry) [((), 0)]).run es = some (afterwards es) := by
  obtain ⟨s, hs⟩ := Option.isSome_iff_exists.mp h
  rw [afterwards, hs, Option.getD_some]

/-- Alone, a process is not disturbed. -/
theorem undisturbed_renewal :
    (machine 0 (some expiredEntry) [((), 0)]).Meets Undisturbed
      (machine 0 (some expiredEntry) [((), 0)]).init renewal := by
  refine ⟨?_, ?_, ?_, trivial, trivial, ?_, trivial, trivial, trivial, trivial, trivial,
    trivial, trivial⟩
  · intro x hx
    cases hx
  · rintro e v (⟨_, hx⟩ | hx)
    · cases hx
      rfl
    · cases hx
  · rintro e v (⟨_, hx⟩ | hx)
    · cases hx
    · cases hx
      refine ⟨rfl, ?_⟩
      rintro (_ | _) m hm <;> cases hm
  · intro x hx
    cases hx

end CredStore

end Heph
