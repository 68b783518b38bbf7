import Heph.Scratch.Acquire

/-!
# Scratch directories and their holders

A consumer that has its directory must be able to rely on it until it gives the lock back. What is
removed while a directory is prepared is removed under the lock, but **under a lock that may be
shared**: with it, another consumer may have the directory already. It is pulled from under it if
the directory has grown over the cap, if a copy fails, or if a download does. And **a removal may
outlive its lock**: if the consumer is cancelled, the lock is free while the removal runs on.

As long as no job outlives its consumer, the directories are safe if and only if no two consumers
with shared access have directories that overlap, where one of them has a cap, a remote, or a scope
to copy from. If jobs may, no two consumers at all may have such directories, whatever their access
(`Scratch.held_kept_iff`).
-/

namespace Heph.Scratch

open List Option Function SortedMap PathMap Holders LockMode Parties

section Held

variable (parseSize : Text → Option ℕ) (slot : Slot)

variable {ι : Type} [DecidableEq ι] [Fintype ι] (consumer : ι → Consumer)

/-- **A directory that is held is kept**: when a consumer prepares its own, or its job runs on,
nothing is taken away from the directory of another. -/
def KeepsHeld (x : Shared ι × (ι → Phase)) (e : ι × Action) : Prop :=
  x.2 e.1 ≠ .held → ∀ s' l', step parseSize slot consumer e.1 x.1 (x.2 e.1) e.2 = some (s', l') →
    ∀ j ≠ e.1, x.2 j = .held → ∀ p, (consumer j).dir slot <+: p → x.1.disk.Has p → s'.disk.Has p

/-- The consumers keep apart, if one of them may remove its directory. -/
def Apart : Prop :=
  ∀ i j, i ≠ j → Overlap ((consumer i).dir slot) ((consumer j).dir slot) →
    ¬(consumer j).Deletes parseSize

/-- The consumers with shared access do. -/
def SharedApart : Prop :=
  ∀ i j, i ≠ j → (consumer i).access = .shared → (consumer j).access = .shared →
    Overlap ((consumer i).dir slot) ((consumer j).dir slot) → ¬(consumer j).Deletes parseSize

variable {outlive : Bool} {parseSize slot consumer} {i j : ι} {s s' : Shared ι} {l l' : Phase}
  {a : Action} {disk : Files} {c : Consumer} {es : List (ι × Action)} {x : Shared ι × (ι → Phase)}
  {start : Files} {m : LockMode}

/-! ### Consumers that keep apart -/

theorem has_of_remove {disk' : Files} {p q : Path}
    (h : c.remove slot disk p = some disk') (hq : ¬c.dir slot <+: q) (hhas : disk.Has q) :
    disk'.Has q := by
  rw [Consumer.remove] at h
  split at h
  · next hp =>
    rw [unlink] at h
    split at h
    · cases h
      have hne : q ≠ p := by
        rintro rfl
        exact hq hp
      rwa [Has, get?_remove, if_neg hne]
    · cases h
  · cases h

/-- What is removed is in the directory. -/
theorem has_of_removes (hl : l.Removes)
    (h : step parseSize slot consumer i s l a = some (s', l')) {q : Path}
    (hq : ¬(consumer i).dir slot <+: q) (hhas : s.disk.Has q) : s'.disk.Has q := by
  have hremove : ∀ {p next}, ((consumer i).remove slot s.disk p).map (s.go next) = some (s', l') →
      s'.disk.Has q := by
    intro p next h
    obtain ⟨disk', hr, h⟩ := map_eq_some_iff.mp h
    cases h
    exact has_of_remove hr hq hhas
  have hmove : ∀ {next}, some (s.go next s.disk) = some (s', l') → s'.disk.Has q := by
    intro next h
    cases h
    exact hhas
  have hput : ∀ {p e next}, (s.disk.put p e).map (s.go next) = some (s', l') →
      s'.disk.Has q := by
    intro p e next h
    obtain ⟨disk', hput, h⟩ := map_eq_some_iff.mp h
    cases h
    exact keeps_of_put hput q hhas
  unfold step at h
  dsimp only at h
  split at h
  all_goals first | exact hl.elim | exact hremove h | exact hmove h | exact hput h | skip
  · split at h
    · cases h
      exact hhas
    · cases h
  · split at h
    · cases h
    · exact hmove h
  · cases h

theorem step_of_consumers {r : Shared ι × Phase}
    (h : (consumers parseSize slot consumer outlive disk).step i s l a = some r) :
    step parseSize slot consumer i s l a = some r ∧ (a.detaches = true → outlive = true) := by
  obtain ⟨hnot, h⟩ := ite_none_left_eq_some.mp h
  exact ⟨h, by simpa using hnot⟩

/-- **Who is at work has the lock**, in every run, or its job has outlived it. -/
theorem guarded_run (h : (consumers parseSize slot consumer outlive disk).machine.run es = some x) :
    x.1.guards.Excluding Compatible ∧ ∀ i, (consumer i).Visits parseSize (x.2 i) ∧
      ((x.2 i).locked = true → x.1.guards i = some (consumer i).access) ∧
      (outlive = false → (x.2 i).locked = true ∨ x.2 i = .idle) := by
  refine run_invariant (m := consumers parseSize slot consumer outlive disk)
    (J := fun s : Shared ι => s.guards.Excluding Compatible)
    (I := fun i (s : Shared ι) l => (consumer i).Visits parseSize l ∧
      (l.locked = true → s.guards i = some (consumer i).access) ∧
      (outlive = false → l.locked = true ∨ l = .idle))
    excluding_free (fun i => ⟨trivial, fun h => (by cases h), fun _ => .inr rfl⟩) ?_ ?_ h
  · rintro i s l a s' l' hJ ⟨hvisits, hguard, hattached⟩ hstep
    obtain ⟨hstep, hdetaches⟩ := step_of_consumers hstep
    have hspec := step_spec hvisits hstep
    refine ⟨?_, hspec.visits, ?_, fun hout => ?_⟩
    · cases hspec.guarded with
      | keep h _ => rwa [h]
      | take h hadmits => rw [h]; exact hJ.take Compatible.symm hadmits
      | release h _ => rw [h]; exact hJ.release
    · intro hl'
      cases hspec.guarded with
      | keep h hl => rw [h]; exact hguard (hl hl')
      | take h _ => rw [h]; exact take_self
      | release _ hnot => simp [hnot] at hl'
    · rcases hspec.attached with hl' | hl' | hcancel | ⟨job, rfl⟩
      · exact .inl hl'
      · exact .inr hl'
      · simp [hout] at hdetaches
        simp [hdetaches] at hcancel
      · simpa [Phase.locked] using hattached hout
  · rintro i s l a s' l' - ⟨hvisits, -⟩ hstep j hj k ⟨hk, hguard, hattached⟩
    refine ⟨hk, fun hne => ?_, hattached⟩
    rw [← hguard hne]
    cases (step_spec hvisits (step_of_consumers hstep).1).guarded with
    | keep h _ => rw [h]
    | take h _ => rw [h]; exact take_of_ne hj
    | release h _ => rw [h]; exact release_of_ne hj

/-- Consumers keep what the others hold if whoever removes something is apart from the holders. -/
theorem keepsHeld_of_disjoint
    (h : (consumers parseSize slot consumer outlive disk).machine.run es = some x) (e : ι × Action)
    (hapart : ∀ j, j ≠ e.1 → x.2 j = .held → (x.2 e.1).Removes →
      Overlap ((consumer j).dir slot) ((consumer e.1).dir slot) →
        ¬(consumer e.1).Deletes parseSize) :
    KeepsHeld parseSize slot consumer x e := by
  obtain ⟨i, a⟩ := e
  have hvisits := ((guarded_run h).2 i).1
  intro hheld s' l' hstep j hj hjheld p hp hhas
  rcases (step_spec hvisits hstep).keeps with hremoves | hheld' | hkeeps
  · refine has_of_removes hremoves hstep (fun hpi => ?_) hhas
    refine hapart j hj hjheld hremoves ?_ (hvisits.deletes hremoves)
    rcases prefix_or_prefix_of_prefix hp hpi with h | h
    · exact .inl h
    · exact .inr h
  · exact absurd hheld' hheld
  · exact hkeeps p hhas

/-- If no job outlives its consumer, whoever removes and whoever holds share the lock. -/
theorem shared_of_removes
    (h : (consumers parseSize slot consumer false disk).machine.run es = some x) (hne : j ≠ i)
    (hheld : x.2 j = .held) (hremoves : (x.2 i).Removes) :
    (consumer j).access = .shared ∧ (consumer i).access = .shared := by
  obtain ⟨hexcl, hall⟩ := guarded_run h
  have hi : (x.2 i).locked = true := by
    rcases (hall i).2.2 rfl with hlocked | hidle
    · exact hlocked
    · rw [hidle] at hremoves
      exact hremoves.elim
  have hj : (x.2 j).locked = true := by
    rw [hheld]
    rfl
  exact hexcl j i hne _ ((hall j).2.1 hj) _ ((hall i).2.1 hi)

/-! ### Consumers that do not -/

/-- A disk with nothing but the directories of lineages. -/
def Plain (slot : Slot) (disk : Files) : Prop :=
  ∀ q e, disk.get? q = some e → e = .dir ∧ ∃ scope, q <+: headDir slot scope

theorem plain_empty (slot : Slot) : Plain slot .empty := by
  intro q e h
  cases h

section

variable (h : Plain slot disk)

include h

theorem Plain.free (p : Path) : disk.Free p := by
  intro q _ hq
  obtain ⟨e, he⟩ := isSome_iff_exists.mp hq
  rw [IsDir, he, (h q e he).1]

theorem Plain.mkdirs (scope : Text) :
    Plain slot (disk.mkdirs (headDir slot scope)) := by
  intro q e he
  rw [get?_mkdirs] at he
  split at he
  · next hq => exact ⟨(some.inj he).symm, scope, hq.1⟩
  · exact h q e he

theorem Plain.put (p : Path) : disk.put p .dir = some (disk.mkdirs p) :=
  if_pos (h.free p)

theorem Plain.measure (d : Path) : measure disk d = 0 := by
  refine sum_eq_zero fun n hn => ?_
  obtain ⟨⟨q, e⟩, he, rfl⟩ := mem_map.mp hn
  rw [(h q e (mem_below.mp he).1).1]
  rfl

end

/-- A file in a directory counts. -/
theorem le_measure {d p : Path} {x : Text} {n : ℕ} (h : disk.get? (p ++ [x]) = some (.file n))
    (hd : d <+: p) : n ≤ measure disk d := by
  refine single_le_sum (fun _ _ => Nat.zero_le _) _ (mem_map.mpr
    ⟨(p ++ [x], .file n), mem_below.mpr ⟨h, hd.trans (prefix_append _ _), ?_⟩, rfl⟩)
  rintro rfl
  simpa using hd.length_le

/-- A name for a file. -/
def fileName : Text := "x".toList

/-- A file in the directory of a lineage, on a plain disk. -/
theorem Plain.unlink_file (h : Plain slot disk) (scope : Text) (n : ℕ) :
    ∃ disk', PathMap.unlink (disk.insert (headDir slot scope ++ [fileName]) (.file n))
      (headDir slot scope ++ [fileName]) = some disk' := by
  refine ⟨_, if_pos ⟨has_insert.mpr (.inl rfl), ?_⟩⟩
  refine eq_nil_iff_forall_not_mem.mpr ?_
  rintro ⟨q, e⟩ hq
  obtain ⟨hget, hpre, hne⟩ := mem_below.mp hq
  rw [get?_insert, if_neg hne] at hget
  obtain ⟨scope', hscope⟩ := (h q e hget).2
  exact not_snoc_prefix (by decide) (hpre.trans hscope)

theorem Plain.of_unlink (h : Plain slot disk) {p : Path} {e : PathEntry ℕ} {disk' : Files}
    (hunlink : PathMap.unlink (disk.insert p e) p = some disk') : Plain slot disk' := by
  obtain ⟨-, hdisk'⟩ := ite_none_right_eq_some.mp hunlink
  cases hdisk'
  intro q e' hq
  rw [get?_remove] at hq
  obtain ⟨hne, hq⟩ := ite_none_left_eq_some.mp hq
  rw [get?_insert, if_neg hne] at hq
  exact h q e' hq

theorem dir_of_audit (slot : Slot) (h : c.audit = none) :
    c.dir slot = headDir slot c.scope := by
  rw [Consumer.dir, h]

/-- A consumer takes the lock. -/
theorem moves_acquire (haudit : (consumer i).audit = none)
    (hadmits : s.guards.Admits Compatible i (consumer i).access) :
    (consumers parseSize slot consumer outlive start).Moves i (s, .idle)
      (⟨s.disk, s.guards.take i (consumer i).access⟩, .resolve) := by
  refine .step (e := .acquire) ?_ (.refl _ _)
  exact (if_pos hadmits).trans (by rw [haudit]; rfl)

theorem moves_seed (i : ι) (s : Shared ι) (rest : List Text) :
    (consumers parseSize slot consumer outlive start).Moves i (s, .seed rest) (s, .measure) := by
  induction rest with
  | nil => exact .step (e := .fallBack) rfl (.refl _ _)
  | cons f rest ih =>
    by_cases hf : f ≠ (consumer i).scope ∧ s.disk.IsDir (headDir slot f)
    · -- the copy fails at once, and nothing is removed
      refine .step (e := .fallBack) (y := (s, .copy f rest)) ?_ ?_
      · exact congrArg some (by rw [if_pos hf]; rfl)
      · refine .step (e := .copyEnd false) rfl ?_
        exact .step (e := .removeEnd false) rfl ih
    · refine .step (e := .fallBack) ?_ ih
      exact congrArg some (by rw [if_neg hf]; rfl)

/-- A consumer that looks comes to measure its directory. -/
theorem moves_resolve (i : ι) (s : Shared ι) :
    (consumers parseSize slot consumer outlive start).Moves i (s, .resolve) (s, .measure) := by
  by_cases hseed : ¬s.disk.IsDir ((consumer i).dir slot) ∧ (consumer i).seedOnFork = true
  · refine .step (e := .look) (y := (s, .seed (consumer i).restoreScopes)) ?_ (moves_seed i s _)
    exact congrArg some (by rw [if_pos hseed]; rfl)
  · refine .step (e := .look) ?_ (.refl _ _)
    exact congrArg some (by rw [if_neg hseed]; rfl)

/-- It drops it, if there is a file in it that is over the cap. -/
theorem moves_drop {n : ℕ} (scope : Text) (hcap : (consumer i).cap parseSize = some n)
    (hscope : (consumer i).dir slot <+: headDir slot scope)
    (hfile : s.disk.get? (headDir slot scope ++ [fileName]) = some (.file (n + 1))) :
    (consumers parseSize slot consumer outlive start).Moves i (s, .resolve) (s, .drop) := by
  refine (moves_resolve i s).trans (.step (e := .measure) (congrArg some ?_) (.refl _ _))
  rw [if_pos ⟨n, hcap, Nat.lt_of_succ_le (le_measure hfile hscope)⟩]
  rfl

/-- On a plain disk it goes on to make it. -/
theorem moves_measure (hplain : Plain slot s.disk) :
    (consumers parseSize slot consumer outlive start).Moves i (s, .measure) (s, .create false) := by
  refine .step (e := .measure) ?_ (.refl _ _)
  refine congrArg some ?_
  rw [if_neg]
  · rfl
  · rintro ⟨n, -, hn⟩
    rw [hplain.measure] at hn
    exact absurd hn (Nat.not_lt_zero n)

/-- **A consumer gets its directory** on a plain disk, if it gets the lock. -/
theorem moves_held (haudit : (consumer i).audit = none) (hplain : Plain slot s.disk)
    (hadmits : s.guards.Admits Compatible i (consumer i).access) :
    (consumers parseSize slot consumer outlive start).Moves i (s, .idle)
      (⟨s.disk.mkdirs (headDir slot (consumer i).scope),
        s.guards.take i (consumer i).access⟩, .held) := by
  have hdir := dir_of_audit slot haudit
  refine (moves_acquire haudit hadmits).trans
    ((moves_resolve i _).trans (.trans (moves_measure hplain) ?_))
  have hput := hplain.put ((consumer i).dir slot)
  rw [hdir] at hput
  by_cases hpull : (consumer i).remote = true ∧ (consumer i).audit = none ∧ ¬false = true
  · refine .step (e := .mkdir true) (y := (⟨s.disk.mkdirs (headDir slot (consumer i).scope),
      s.guards.take i (consumer i).access⟩, .pull)) ?_ ?_
    · simp only [consumers, step, hdir, hput, if_pos hpull]
      rfl
    · -- there is no snapshot
      refine .step (e := .lookRemote false) ?_ (.refl _ _)
      exact congrArg some (by rw [if_neg (by simp)]; rfl)
  · refine .step (e := .mkdir true) ?_ (.refl _ _)
    simp only [consumers, step, hdir, hput, if_neg hpull]
    rfl

/-- A holder makes a directory of a lineage that is in its own. -/
theorem moves_mkdir (hplain : Plain slot s.disk) (scope : Text)
    (hscope : (consumer i).dir slot <+: headDir slot scope) :
    (consumers parseSize slot consumer outlive start).Moves i (s, .held)
      (⟨s.disk.mkdirs (headDir slot scope), s.guards⟩, .held) := by
  refine .step (e := .work (headDir slot scope) (some .dir)) ?_ (.refl _ _)
  simp only [consumers, step, if_pos hscope, hplain.put (headDir slot scope)]
  rfl

/-- **A holder writes a file** into it. -/
theorem moves_write (hplain : Plain slot s.disk) {scope : Text}
    (hscope : (consumer i).dir slot <+: headDir slot scope) (n : ℕ) :
    (consumers parseSize slot consumer outlive start).Moves i (s, .held)
      (⟨(s.disk.mkdirs (headDir slot scope)).insert (headDir slot scope ++ [fileName]) (.file n),
        s.guards⟩, .held) := by
  refine (moves_mkdir hplain scope hscope).trans
    (.step (e := .work (headDir slot scope ++ [fileName]) (some (.file n))) ?_ (.refl _ _))
  have hwrite : put (s.disk.mkdirs (headDir slot scope))
      (headDir slot scope ++ [fileName]) (.file n) =
        some ((s.disk.mkdirs (headDir slot scope)).insert
          (headDir slot scope ++ [fileName]) (.file n)) := by
    refine if_pos ⟨?_, fun hdir => ?_⟩
    · rw [dropLast_concat]
      exact isDir_mkdirs (hplain.free _) prefix_rfl
    · obtain ⟨-, scope', hfile⟩ := hplain.mkdirs scope _ _ hdir
      exact not_snoc_prefix (by decide) hfile
  simp only [consumers, step, if_pos (hscope.trans (prefix_append _ [fileName])), hwrite]
  rfl

/-- A state that the consumers can come to, with two of them where they are. -/
def Comes (parseSize : Text → Option ℕ) (slot : Slot) (consumer : ι → Consumer) (outlive : Bool)
    (start : Files) (i j : ι) (s : Shared ι) (l k : Phase) : Prop :=
  ∃ ls : ι → Phase, (consumers parseSize slot consumer outlive start).machine.Leads
    (consumers parseSize slot consumer outlive start).machine.init (s, ls) ∧ ls i = l ∧ ls j = k

theorem comes_start (parseSize : Text → Option ℕ) (slot : Slot) (consumer : ι → Consumer)
    (outlive : Bool) (start : Files) (i j : ι) :
    Comes parseSize slot consumer outlive start i j ⟨start, Holders.free⟩ .idle .idle :=
  ⟨fun _ => .idle, Machine.Leads.refl _, rfl, rfl⟩

theorem Comes.left {k : Phase} (h : Comes parseSize slot consumer outlive start i j s l k)
    (hne : j ≠ i)
    (hmoves : (consumers parseSize slot consumer outlive start).Moves i (s, l) (s', l')) :
    Comes parseSize slot consumer outlive start i j s' l' k := by
  obtain ⟨ls, hls, rfl, rfl⟩ := h
  exact ⟨update ls i l', hls.trans (leads_of_moves hmoves),
    update_self .., update_of_ne hne ..⟩

theorem Comes.right {k k' : Phase} (h : Comes parseSize slot consumer outlive start i j s l k)
    (hne : i ≠ j)
    (hmoves : (consumers parseSize slot consumer outlive start).Moves j (s, k) (s', k')) :
    Comes parseSize slot consumer outlive start i j s' l k' := by
  obtain ⟨ls, hls, rfl, rfl⟩ := h
  exact ⟨update ls j k', hls.trans (leads_of_moves hmoves),
    update_of_ne hne .., update_self ..⟩

/-- In some interleaving a directory is pulled from under its holder. -/
def Pulls (parseSize : Text → Option ℕ) (slot : Slot) (consumer : ι → Consumer) (outlive : Bool)
    (start : Files) : Prop :=
  ∃ es, ¬(consumers parseSize slot consumer outlive start).machine.Meets
    (KeepsHeld parseSize slot consumer)
    (consumers parseSize slot consumer outlive start).machine.init es

/-- Two consumers, and a lineage that is in the directories of both. -/
structure Clash (slot : Slot) (consumer : ι → Consumer) (i j : ι) (scope : Text) : Prop where
  ne : i ≠ j
  left : (consumer i).audit = none
  right : (consumer j).audit = none
  dirLeft : headDir slot (consumer i).scope <+: headDir slot scope
  dirRight : headDir slot (consumer j).scope <+: headDir slot scope

omit [DecidableEq ι] [Fintype ι] in
/-- Two consumers whose directories overlap have a lineage in both. -/
theorem exists_clash (hne : i ≠ j) (haudit : (consumer j).audit = none)
    (h : Overlap ((consumer i).dir slot) ((consumer j).dir slot)) :
    ∃ scope, Clash slot consumer i j scope := by
  have hnone : (consumer i).audit = none := by
    cases hrun : (consumer i).audit with
    | none => rfl
    | some run =>
      rw [Consumer.dir, hrun, dir_of_audit slot haudit] at h
      exact absurd h (not_or.mpr not_prefix_auditDir.symm)
  rw [dir_of_audit slot hnone, dir_of_audit slot haudit] at h
  rcases h with h | h
  · exact ⟨_, hne, hnone, haudit, h, prefix_rfl⟩
  · exact ⟨_, hne, hnone, haudit, prefix_rfl, h⟩

omit [DecidableEq ι] [Fintype ι] in
theorem admits_free :
    (Holders.free : Holders ι LockMode).Admits Compatible i m := by
  intro k _ g hg
  cases hg

omit [Fintype ι] in
theorem admits_take (hm : m = .shared) :
    ((Holders.free : Holders ι LockMode).take j .shared).Admits Compatible i m := by
  intro k _ g hg
  by_cases hk : k = j
  · rw [hk, take_self] at hg
    exact ⟨hm, (some.inj hg).symm⟩
  · rw [take_of_ne hk] at hg
    cases hg

namespace Clash

variable {scope : Text} {rest : List Text}

section

variable (h : Clash slot consumer i j scope) {k : Phase}

include h

omit [DecidableEq ι] [Fintype ι] in
theorem overlap :
    Overlap (headDir slot (consumer i).scope) (headDir slot (consumer j).scope) :=
  prefix_or_prefix_of_prefix h.dirLeft h.dirRight

/-- The first consumer gets its directory. -/
theorem comes_held (hplain : Plain slot s.disk)
    (hadmits : s.guards.Admits Compatible i (consumer i).access)
    (hcomes : Comes parseSize slot consumer outlive start i j s .idle k) :
    Comes parseSize slot consumer outlive start i j
      ⟨s.disk.mkdirs (headDir slot (consumer i).scope), s.guards.take i (consumer i).access⟩
      .held k :=
  hcomes.left h.ne.symm (moves_held h.left hplain hadmits)

/-- It writes a file where the second may remove it. -/
theorem comes_write (hplain : Plain slot s.disk) (n : ℕ)
    (hcomes : Comes parseSize slot consumer outlive start i j s .held k) :
    Comes parseSize slot consumer outlive start i j
      ⟨(s.disk.mkdirs (headDir slot scope)).insert (headDir slot scope ++ [fileName]) (.file n),
        s.guards⟩ .held k := by
  refine hcomes.left h.ne.symm (moves_write hplain ?_ n)
  rw [dir_of_audit slot h.left]
  exact h.dirLeft

/-- **It is pulled from under its holder**, if the second consumer is about to remove files. -/
theorem pulls {guards : Holders ι LockMode} (hplain : Plain slot disk) {n : ℕ} (hk : k ≠ .held)
    (hcomes : Comes parseSize slot consumer outlive start i j
      ⟨disk.insert (headDir slot scope ++ [fileName]) (.file n), guards⟩ .held k)
    (hremoves : ∀ s p, step parseSize slot consumer j s k (.unlink p) =
      ((consumer j).remove slot s.disk p).map (s.go k)) :
    Pulls parseSize slot consumer outlive start := by
  obtain ⟨ls, ⟨es, hes⟩, hli, hlj⟩ := hcomes
  obtain ⟨disk', hdisk'⟩ := hplain.unlink_file scope n
  have hfile : headDir slot scope <+: headDir slot scope ++ [fileName] := prefix_append _ _
  have hleft : (consumer i).dir slot <+: headDir slot scope ++ [fileName] := by
    rw [dir_of_audit slot h.left]
    exact h.dirLeft.trans hfile
  have hright : (consumer j).dir slot <+: headDir slot scope ++ [fileName] := by
    rw [dir_of_audit slot h.right]
    exact h.dirRight.trans hfile
  refine ⟨es ++ [(j, .unlink (headDir slot scope ++ [fileName]))], fun hmeets => ?_⟩
  have hkeeps := hmeets.last hes
  have hbusy : ls j ≠ .held := by rwa [hlj]
  refine not_has_of_unlink hdisk' (hkeeps hbusy ⟨disk', guards⟩ k ?_ i h.ne hli
    _ hleft (has_insert.mpr (.inl rfl)))
  dsimp only
  rw [hlj, hremoves, Consumer.remove, if_pos hright, hdisk']
  rfl

/-- **The directory has grown over the cap** of the second consumer. -/
theorem of_cap {m : ℕ} (hi : (consumer i).access = .shared) (hj : (consumer j).access = .shared)
    (hcap : (consumer j).cap parseSize = some m) :
    ∃ start, Pulls parseSize slot consumer outlive start := by
  have hplain := (plain_empty slot).mkdirs (consumer i).scope
  have hheld := h.comes_write hplain (m + 1)
    (h.comes_held (plain_empty slot) admits_free
      (comes_start parseSize slot consumer outlive .empty i j))
  have hadmits := admits_take (i := j) (j := i) hj
  rw [← hi] at hadmits
  -- the second consumer finds the file of the first too large
  have hdrop : Comes parseSize slot consumer outlive .empty i j
      ⟨(mkdirs (mkdirs .empty (headDir slot (consumer i).scope))
          (headDir slot scope)).insert (headDir slot scope ++ [fileName]) (.file (m + 1)),
        .take (.take .free i (consumer i).access) j (consumer j).access⟩
      .held .drop := by
    refine hheld.right h.ne ((moves_acquire h.right hadmits).trans (moves_drop scope hcap ?_ ?_))
    · rw [dir_of_audit slot h.right]
      exact h.dirRight
    · rw [get?_insert, if_pos rfl]
  exact ⟨.empty, h.pulls (hplain.mkdirs scope) (by simp) hdrop fun _ _ => rfl⟩

/-- A download of the second consumer fails. -/
theorem comes_unpull (parseSize : Text → Option ℕ) (outlive : Bool)
    (hremote : (consumer j).remote = true) :
    Comes parseSize slot consumer outlive .empty i j
      ⟨mkdirs .empty (headDir slot (consumer j).scope), .take .free j (consumer j).access⟩
      .idle .unpull := by
  have hdir := dir_of_audit slot h.right
  refine (comes_start ..).right h.ne ((moves_acquire h.right admits_free).trans
    ((moves_resolve j _).trans (.trans (moves_measure (plain_empty slot)) ?_)))
  refine .step (e := .mkdir true) (y := (⟨mkdirs .empty (headDir slot (consumer j).scope),
      .take .free j (consumer j).access⟩, .pull)) ?_ ?_
  · simp only [consumers, step, hdir, (plain_empty slot).put, hremote, h.right]
    rfl
  · refine .step (e := .lookRemote true)
      (y := (⟨mkdirs .empty (headDir slot (consumer j).scope),
        .take .free j (consumer j).access⟩, .unpack)) (congrArg some ?_)
      (.step (e := .unpackEnd false) rfl (.refl _ _))
    rw [if_pos]
    · rfl
    · refine ⟨fun _ => eq_nil_iff_forall_not_mem.mpr ?_, rfl⟩
      rintro ⟨q, e⟩ hq
      obtain ⟨hget, hpre, hne⟩ := mem_below.mp hq
      rw [get?_mkdirs] at hget
      obtain ⟨⟨hq', -⟩, -⟩ := ite_none_right_eq_some.mp hget
      rw [hdir] at hpre hne
      exact hne (hq'.eq_of_length_le hpre.length_le)

/-- **A download fails** that was started when the directory was empty. -/
theorem of_remote (hi : (consumer i).access = .shared) (hj : (consumer j).access = .shared)
    (hremote : (consumer j).remote = true) :
    ∃ start, Pulls parseSize slot consumer outlive start := by
  have hplain := (plain_empty slot).mkdirs (consumer j).scope
  have hadmits := admits_take (i := i) (j := j) hi
  rw [← hj] at hadmits
  have hheld := h.comes_write (hplain.mkdirs _) 0
    (h.comes_held hplain hadmits (h.comes_unpull parseSize outlive hremote))
  exact ⟨.empty, h.pulls ((hplain.mkdirs _).mkdirs scope) (by simp) hheld fun _ _ => rfl⟩

end

/-- A scope to copy from is come to. -/
theorem moves_first (consumer : ι → Consumer) (parseSize : Text → Option ℕ) (slot : Slot)
    (outlive : Bool) {l : List Text} (h : ∃ f ∈ l, f ≠ (consumer j).scope) :
    ∃ f rest, f ≠ (consumer j).scope ∧ ∀ (start : Files) (s : Shared ι),
      (consumers parseSize slot consumer outlive start).Moves j (s, .seed l)
        (s, .seed (f :: rest)) := by
  induction l with
  | nil => simp at h
  | cons g l ih =>
    by_cases hg : g = (consumer j).scope
    · obtain ⟨f, hf, hne⟩ := h
      have hmem : f ∈ l := (mem_cons.mp hf).resolve_left fun heq => hne (heq.trans hg)
      obtain ⟨f', rest, hf', hmoves⟩ := ih ⟨f, hmem, hne⟩
      refine ⟨f', rest, hf', fun start s =>
        .step (e := .fallBack) (congrArg some ?_) (hmoves start s)⟩
      rw [if_neg (by simp [hg])]
      rfl
    · exact ⟨g, l, hg, fun start s => .refl _ _⟩

/-- The copy from a scope fails. -/
theorem moves_uncopy {f : Text} (hf : f ≠ (consumer j).scope)
    (hdir : s.disk.IsDir (headDir slot f)) :
    (consumers parseSize slot consumer outlive start).Moves j (s, .seed (f :: rest))
      (s, .uncopy rest) := by
  refine .step (e := .fallBack) (y := (s, .copy f rest)) (congrArg some ?_)
    (.step (e := .copyEnd false) rfl (.refl _ _))
  rw [if_pos ⟨hf, hdir⟩]
  rfl

variable (h : Clash slot consumer i j scope)

include h

/-- The second consumer has no directory, and is about to copy one. -/
theorem comes_seed (hcomes : Comes parseSize slot consumer outlive start i j ⟨disk, .free⟩ l .idle)
    (hseed : (consumer j).seedOnFork = true)
    (hnot : ¬disk.IsDir (headDir slot (consumer j).scope)) {f : Text}
    (hmoves : ∀ s : Shared ι, (consumers parseSize slot consumer outlive start).Moves j
      (s, .seed (consumer j).restoreScopes) (s, .seed (f :: rest))) :
    Comes parseSize slot consumer outlive start i j
      ⟨disk, Holders.take .free j (consumer j).access⟩ l (.seed (f :: rest)) := by
  refine hcomes.right h.ne ((moves_acquire h.right admits_free).trans
    (.step (e := .look) (congrArg some ?_) (hmoves _)))
  rw [if_pos ⟨by rwa [dir_of_audit slot h.right], hseed⟩]
  rfl

/-- **A copy fails** that was started when the directory was not there. -/
theorem of_seeds (hi : (consumer i).access = .shared) (hj : (consumer j).access = .shared)
    (hseeds : (consumer j).Seeds) :
    ∃ start, Pulls parseSize slot consumer outlive start := by
  have hadmits := admits_take (i := i) (j := j) hi
  rw [← hj] at hadmits
  obtain ⟨f, rest, hf, hmoves⟩ := moves_first consumer parseSize slot outlive hseeds.2
  by_cases hin : headDir slot (consumer j).scope <+: headDir slot f
  · -- what is copied from is in the directory: the first consumer makes both
    have hnot : ¬IsDir (.empty : Files) (headDir slot (consumer j).scope) := by
      intro hdir
      cases hdir
    have hplain := (plain_empty slot).mkdirs (consumer i).scope
    have hheld := h.comes_held (plain_empty slot) hadmits
      (h.comes_seed (comes_start ..) hseeds.1 hnot (hmoves .empty))
    obtain ⟨u, hiu, hfu⟩ : ∃ u, headDir slot (consumer i).scope <+: headDir slot u ∧
        headDir slot f <+: headDir slot u := by
      rcases h.overlap with hij | hji
      · exact ⟨f, hij.trans hin, prefix_rfl⟩
      · rcases prefix_or_prefix hji hin with hif | hfi
        · exact ⟨f, hif, prefix_rfl⟩
        · exact ⟨(consumer i).scope, prefix_rfl, hfi⟩
    have hmade := hheld.left h.ne.symm
      (moves_mkdir hplain u (by rwa [dir_of_audit slot h.left]))
    have huncopy := hmade.right h.ne
      (moves_uncopy hf (isDir_mkdirs (hplain.free _) hfu))
    have hwritten := h.comes_write (hplain.mkdirs u) 0 huncopy
    exact ⟨.empty, h.pulls ((hplain.mkdirs u).mkdirs scope) (by simp) hwritten fun _ _ => rfl⟩
  · -- what is copied from is there, and the directory is not
    have hplain := (plain_empty slot).mkdirs f
    have hnot : ¬IsDir (mkdirs (.empty : Files) (headDir slot f))
        (headDir slot (consumer j).scope) := by
      rw [IsDir, get?_mkdirs, if_neg (fun hpre => hin hpre.1)]
      simp
    have huncopy := (h.comes_seed (comes_start ..) hseeds.1 hnot (hmoves _)).right h.ne
      (moves_uncopy hf (isDir_mkdirs ((plain_empty slot).free _) prefix_rfl))
    have hwritten := h.comes_write (hplain.mkdirs _) 0 (h.comes_held hplain hadmits huncopy)
    exact ⟨_, h.pulls ((hplain.mkdirs _).mkdirs scope) (by simp) hwritten fun _ _ => rfl⟩

end Clash

/-! ### Consumers whose jobs outlive them -/

/-- A consumer is cancelled, and its job runs on. -/
theorem moves_cancel {job : Job} (hl : l.job = some job) :
    (consumers parseSize slot consumer true start).Moves i (⟨disk, .take .free i m⟩, l)
      (⟨disk, .free⟩, .detached job) := by
  have hlocked : l.locked = true ∧ l ≠ .held := by
    cases l <;> simp_all [Phase.job, Phase.locked]
  refine .step (e := .cancel true) ((if_pos hlocked).trans ?_) (.refl _ _)
  rw [Phase.cancelled, if_pos rfl, hl, release_take rfl]
  rfl

namespace Clash

variable {scope : Text} (h : Clash slot consumer i j scope)

include h

/-- **It is pulled from under its holder** if the second consumer was cancelled in a removal. -/
theorem pulls_of_detached (hplain : Plain slot disk)
    (hcomes : Comes parseSize slot consumer true start i j ⟨disk, .free⟩ .idle
      (.detached .remove)) :
    Pulls parseSize slot consumer true start :=
  h.pulls ((hplain.mkdirs _).mkdirs scope) (by simp)
    (h.comes_write (hplain.mkdirs _) 0 (h.comes_held hplain admits_free hcomes)) fun _ _ => rfl

/-- The second consumer is cancelled while it drops a directory that is over its cap. -/
theorem of_cap_cancelled {m : ℕ} (hcap : (consumer j).cap parseSize = some m) :
    ∃ start, Pulls parseSize slot consumer true start := by
  have hdir := dir_of_audit slot h.right
  have hplain := (plain_empty slot).mkdirs (consumer j).scope
  let file := headDir slot (consumer j).scope ++ [fileName]
  let start : Files :=
    (mkdirs .empty (headDir slot (consumer j).scope)).insert file (.file (m + 1))
  have hdrop : Comes parseSize slot consumer true start i j
      ⟨start, .take .free j (consumer j).access⟩ .idle .drop := by
    refine (comes_start ..).right h.ne
      ((moves_acquire h.right admits_free).trans (moves_drop (consumer j).scope hcap ?_ ?_))
    · rw [hdir]
    · rw [get?_insert, if_pos rfl]
  -- what is too large is removed, and the directory is left
  obtain ⟨disk', hdisk'⟩ := hplain.unlink_file (consumer j).scope (m + 1)
  have hgone : Comes parseSize slot consumer true start i j ⟨disk', .free⟩ .idle
      (.detached .remove) := by
    refine (hdrop.right h.ne (moves_cancel rfl)).right h.ne
      (.step (e := .unlink file) ?_ (.refl _ _))
    show ((consumer j).remove slot start file).map _ = _
    rw [Consumer.remove, if_pos (by rw [hdir]; exact prefix_append _ _), hdisk']
    rfl
  exact ⟨start, h.pulls_of_detached (hplain.of_unlink hdisk') hgone⟩

/-- The second consumer is cancelled while it removes what it has downloaded. -/
theorem of_remote_cancelled (hremote : (consumer j).remote = true) :
    ∃ start, Pulls parseSize slot consumer true start :=
  ⟨.empty, h.pulls_of_detached ((plain_empty slot).mkdirs _)
    ((h.comes_unpull parseSize true hremote).right h.ne (moves_cancel rfl))⟩

/-- The second consumer is cancelled while it removes what it has copied. -/
theorem of_seeds_cancelled (hseeds : (consumer j).Seeds) :
    ∃ start, Pulls parseSize slot consumer true start := by
  obtain ⟨f, rest, hf, hmoves⟩ := moves_first consumer parseSize slot true hseeds.2
  by_cases hfi : headDir slot f <+: headDir slot (consumer i).scope
  · -- the first consumer is cancelled before, and makes its directory while the second one looks
    have hnot : ¬IsDir (.empty : Files) (headDir slot (consumer j).scope) := by
      intro hdir
      cases hdir
    have hcreate := (comes_start parseSize slot consumer true .empty i j).left h.ne.symm
      ((moves_acquire h.left admits_free).trans
        ((moves_resolve i _).trans (moves_measure (plain_empty slot))))
    have hseed := h.comes_seed (hcreate.left h.ne.symm (moves_cancel rfl)) hseeds.1 hnot
      (hmoves .empty)
    have hmade : Comes parseSize slot consumer true .empty i j
        ⟨mkdirs .empty (headDir slot (consumer i).scope), .take .free j (consumer j).access⟩
        .idle (.seed (f :: rest)) := by
      refine hseed.left h.ne.symm (.step (e := .mkdir true) ?_ (.refl _ _))
      show (PathMap.put .empty ((consumer i).dir slot) .dir).map _ = _
      rw [dir_of_audit slot h.left, (plain_empty slot).put]
      rfl
    have huncopy := hmade.right h.ne
      (moves_uncopy hf (isDir_mkdirs ((plain_empty slot).free _) hfi))
    exact ⟨.empty, h.pulls_of_detached ((plain_empty slot).mkdirs _)
      (huncopy.right h.ne (moves_cancel rfl))⟩
  · -- what is copied from is there, and the directory is not
    have hne : headDir slot (consumer j).scope ≠ headDir slot f := by
      intro heq
      rcases h.overlap with hij | hji
      · rcases headDir_of_prefix hij with hsame | hbelow
        · exact hfi (by rw [← heq, hsame])
        · exact hf (eq_of_headDir hbelow heq.symm)
      · exact hfi (heq ▸ hji)
    let start : Files := SortedMap.empty.insert (headDir slot f) .dir
    have hhere : start.get? (headDir slot f) = some .dir := by rw [get?_insert, if_pos rfl]
    have hother : ∀ q, q ≠ headDir slot f → start.get? q = none := fun q hq => by
      rw [get?_insert, if_neg hq, get?_empty]
    have hplain : Plain slot start := by
      intro q e he
      by_cases hq : q = headDir slot f
      · rw [hq] at he
        cases hhere.symm.trans he
        exact ⟨rfl, f, hq ▸ prefix_rfl⟩
      · cases (hother q hq).symm.trans he
    have huncopy := (h.comes_seed (comes_start ..) hseeds.1 (by rw [IsDir, hother _ hne]; simp)
      (hmoves start)).right h.ne (moves_uncopy hf hhere)
    exact ⟨start, h.pulls_of_detached hplain (huncopy.right h.ne (moves_cancel rfl))⟩

end Clash

/-! ### When a directory is kept -/

/-- **No directory is pulled from under its holder, whatever is on the disk and however the
consumers take turns and are cancelled, if and only if the consumers keep apart.** As long as no
job outlives its consumer, it is enough that those with shared access do. -/
theorem held_kept_iff (parseSize : Text → Option ℕ) (slot : Slot) (consumer : ι → Consumer) :
    ((∀ disk es, (consumers parseSize slot consumer true disk).machine.Meets
      (KeepsHeld parseSize slot consumer)
      (consumers parseSize slot consumer true disk).machine.init es) ↔
      Apart parseSize slot consumer) ∧
    ((∀ disk es, (consumers parseSize slot consumer false disk).machine.Meets
      (KeepsHeld parseSize slot consumer)
      (consumers parseSize slot consumer false disk).machine.init es) ↔
      SharedApart parseSize slot consumer) := by
  refine ⟨⟨?_, ?_⟩, ?_, ?_⟩
  · intro hkept i j hne hoverlap ⟨haudit, hdeletes⟩
    obtain ⟨scope, hclash⟩ := exists_clash hne haudit hoverlap
    obtain ⟨disk, es, hnot⟩ : ∃ start, Pulls parseSize slot consumer true start := by
      rcases hdeletes with hcap | hremote | hseeds
      · obtain ⟨m, hm⟩ := isSome_iff_exists.mp hcap
        exact hclash.of_cap_cancelled hm
      · exact hclash.of_remote_cancelled hremote
      · exact hclash.of_seeds_cancelled hseeds
    exact hnot (hkept disk es)
  · intro hapart disk es
    refine Machine.meets_of_prefixes fun es₁ e es₂ x _ hrun => ?_
    exact keepsHeld_of_disjoint hrun e fun j hj _ _ hoverlap => hapart j e.1 hj hoverlap
  · intro hkept i j hne hi hj hoverlap ⟨haudit, hdeletes⟩
    obtain ⟨scope, hclash⟩ := exists_clash hne haudit hoverlap
    obtain ⟨disk, es, hnot⟩ : ∃ start, Pulls parseSize slot consumer false start := by
      rcases hdeletes with hcap | hremote | hseeds
      · obtain ⟨m, hm⟩ := isSome_iff_exists.mp hcap
        exact hclash.of_cap hi hj hm
      · exact hclash.of_remote hi hj hremote
      · exact hclash.of_seeds hi hj hseeds
    exact hnot (hkept disk es)
  · intro hapart disk es
    refine Machine.meets_of_prefixes fun es₁ e es₂ x _ hrun => ?_
    refine keepsHeld_of_disjoint hrun e fun j hj hheld hremoves hoverlap => ?_
    obtain ⟨hshared, hshared'⟩ := shared_of_removes hrun hj hheld hremoves
    exact hapart j e.1 hj hshared hshared' hoverlap

end Held

/-! ### A cache that has grown -/

/-- A slot. -/
def zeroSlot : Slot := ⟨List.replicate 16 '0', rfl⟩

/-- A consumer of a shared cache with a cap, on a branch. -/
def capped : Consumer := ⟨.shared, some "1B".toList, false, "main".toList, [], true, none⟩

/-- A cap of one byte. -/
def oneByte (_ : Text) : Option ℕ := some 1

/-- What the first of two consumers writes. -/
def grown : Path := headDir zeroSlot "main".toList ++ [fileName]

/-- The first consumer gets its directory and writes two bytes; the second one measures it. -/
def cappedRun : List (Bool × Action) :=
  [(true, .acquire), (true, .look), (true, .fallBack), (true, .measure), (true, .mkdir true),
    (true, .work grown (some (.file 2))), (false, .acquire), (false, .look), (false, .measure)]

/-- **The directory is dropped under its holder**, since it has grown. -/
theorem dropped_under_holder :
    ¬(consumers oneByte zeroSlot (fun _ : Bool => capped) false .empty).machine.Meets
      (KeepsHeld oneByte zeroSlot fun _ => capped)
      (consumers oneByte zeroSlot (fun _ : Bool => capped) false .empty).machine.init
      (cappedRun ++ [(false, .unlink grown)]) := by
  have hrun : ((consumers oneByte zeroSlot (fun _ : Bool => capped) false .empty).machine.run
      cappedRun).map (fun x => (x.2 true, x.2 false, decide (x.1.disk.Has grown),
        (capped.remove zeroSlot x.1.disk grown).map fun disk => decide (disk.Has grown))) =
      some (.held, .drop, true, some false) := by
    decide +kernel
  obtain ⟨x, hx, hfacts⟩ := map_eq_some_iff.mp hrun
  simp only [Prod.mk.injEq, decide_eq_true_eq] at hfacts
  obtain ⟨hheld, hdrop, hhas, hgone⟩ := hfacts
  obtain ⟨disk, hdisk, hno⟩ := map_eq_some_iff.mp hgone
  intro hmeets
  have hkeeps := hmeets.last hx
  refine of_decide_eq_false hno (hkeeps (by simp [hdrop]) ⟨disk, x.1.guards⟩ .drop ?_ true (by simp)
    hheld grown (prefix_append _ _) hhas)
  rw [hdrop]
  show (capped.remove zeroSlot x.1.disk grown).map (x.1.go .drop) = _
  rw [hdisk]
  rfl

end Heph.Scratch
