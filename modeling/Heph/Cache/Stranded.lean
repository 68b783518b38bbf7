import Heph.Cache.ReadAfterWrite

/-!
# When the writer dies

A thread waits for a slot with no limit. When the writer thread leaves its loop nobody will complete
the commands in flight, so on its way out it completes the slots that are in the map. **That is not
all of them**: a slot that a newer command for the same key has displaced is in no map, and a
command that is queued after this, while the end of the channel is still there, goes with the
channel (`SqliteSystem.displaced_slot_stranded`).

There is no other way to be stranded: if neither happens, no slot is left when the channel is gone,
and none is ever after (`SqliteSystem.no_stranded_iff`).
-/

namespace Heph

open Option Machine

namespace SqliteCache

/-- **Every slot that has been given is completed**, so that nobody waits for it. -/
def AllCompleted (s : SqliteCache) : Prop := ∀ slot < s.slots, slot ∈ s.completed

instance (s : SqliteCache) : Decidable s.AllCompleted :=
  inferInstanceAs (Decidable (∀ slot < s.slots, slot ∈ s.completed))

/-- No slot that is to be completed has been displaced. -/
def NoneDisplaced (s : SqliteCache) : Prop :=
  ∀ slot < s.slots, slot ∈ s.completed ∨ ∃ key, s.find key = some slot

variable {s s' : SqliteCache} {key : EntryKey} {op : CacheOp} {e : ClientEvent}

theorem allCompleted_drain : s.drain.AllCompleted ↔ s.NoneDisplaced := by
  refine forall₂_congr fun slot _ => ?_
  rw [drain, List.mem_append, or_comm, List.mem_map]
  refine or_congr_right ⟨?_, ?_⟩
  · rintro ⟨⟨key, slot⟩, hmem, rfl⟩
    exact ⟨key, AList.mem_lookup_iff.mpr hmem⟩
  · rintro ⟨key, hkey⟩
    exact ⟨⟨key, slot⟩, AList.mem_lookup_iff.mp hkey, rfl⟩

instance (s : SqliteCache) : Decidable s.NoneDisplaced := decidable_of_iff _ allCompleted_drain

/-- While the channel is there, a command has a slot that is not completed. -/
theorem not_allCompleted_registerAndSend (hw : s.writer ≠ .dropped)
    (hcompleted : ∀ slot ∈ s.completed, slot < s.slots) :
    ¬(s.registerAndSend key op).2.AllCompleted := by
  rw [registerAndSend, if_neg hw]
  intro hall
  exact lt_irrefl _ (hcompleted s.slots (hall s.slots (Nat.lt_succ_self _)))

/-- When it is gone, none has. -/
theorem AllCompleted.registerAndSend (h : s.AllCompleted) (hw : s.writer = .dropped) :
    (s.registerAndSend key op).2.AllCompleted := by
  rw [SqliteCache.registerAndSend, if_pos hw]
  exact fun slot hslot => List.mem_append_right _ (h slot hslot)

theorem registerAndSend_writer : (s.registerAndSend key op).2.writer = s.writer := by
  rw [registerAndSend]
  split <;> rfl

/-! ### Steps outside the loop -/

/-- The registrations in the time between the release of the slots and the end of the channel. -/
def RegistersIn (s : SqliteCache) : ClientEvent → Prop
  | .commit _ data => s.writer = .drained ∧ data.length ≤ i64Max
  | .delete _ => s.writer = .drained
  | _ => False

instance (s : SqliteCache) : (e : ClientEvent) → Decidable (s.RegistersIn e)
  | .commit _ _ => inferInstanceAs (Decidable (_ ∧ _))
  | .delete _ => inferInstanceAs (Decidable (_ = _))
  | .reader _ => isFalse id
  | .find => isFalse id
  | .wake => isFalse id
  | .lookup => isFalse id
  | .blobOpen => isFalse id
  | .finish => isFalse id

theorem RegistersIn.drained (h : s.RegistersIn e) : s.writer = .drained := by
  cases e with
  | commit => exact h.1
  | delete => exact h
  | _ => exact absurd h id

/-- What a thread does to the cache: nothing, or it registers a command. -/
theorem callerStep_cases {point point' : ClientPoint}
    (h : s.callerStep point e = some (s', point')) :
    s' = s ∧ ¬s.RegistersIn e ∨
      ∃ key op, s' = (s.registerAndSend key op).2 ∧ (s.RegistersIn e ↔ s.writer = .drained) := by
  have hsame {c : SqliteCache} {q : ClientPoint} (h : some (c, q) = some (s', point')) : s' = c :=
    (Prod.mk.inj (some.inj h)).1.symm
  unfold callerStep at h
  split at h
  · next key data =>
    obtain rfl := hsame h
    rw [commit]
    split
    · next hsize => exact .inr ⟨key, .write data, rfl, and_iff_left hsize⟩
    · next hsize => exact .inl ⟨rfl, fun hreg => hsize hreg.2⟩
  · next key =>
    refine .inr ⟨key, .delete, ?_, Iff.rfl⟩
    split at h
    · next hreg =>
      rw [hreg]
      exact hsame h
    · next hreg =>
      rw [hreg]
      exact hsame h
  · split at h
    · exact .inl ⟨hsame h, id⟩
    · cases h
  · exact .inl ⟨hsame h, id⟩
  · split at h <;> exact .inl ⟨hsame h, id⟩
  · split at h
    · exact .inl ⟨hsame h, id⟩
    · cases h
  · split at h <;> exact .inl ⟨hsame h, id⟩
  · split at h <;> exact .inl ⟨hsame h, id⟩
  · exact .inl ⟨hsame h, id⟩
  · exact .inl ⟨hsame h, id⟩
  · cases h

end SqliteCache

namespace SqliteSystem

open SqliteCache

variable {ι : Type} [DecidableEq ι] {db₀ : CacheTable} {s s' : SqliteSystem ι} {e : SqliteEvent ι}
  {es : List (SqliteEvent ι)}

/-- **A step that strands nobody**: slots are released when none is displaced, and nothing is
registered between that and the end of the channel. -/
def Careful (s : SqliteSystem ι) : SqliteEvent ι → Prop
  | .writer .drain => s.cache.NoneDisplaced
  | .writer _ => True
  | .caller _ e => ¬s.cache.RegistersIn e

instance (s : SqliteSystem ι) : (e : SqliteEvent ι) → Decidable (s.Careful e)
  | .writer .drain => inferInstanceAs (Decidable s.cache.NoneDisplaced)
  | .writer .recv => isTrue trivial
  | .writer .collect => isTrue trivial
  | .writer (.process _) => isTrue trivial
  | .writer .complete => isTrue trivial
  | .writer .exit => isTrue trivial
  | .writer .dropReceiver => isTrue trivial
  | .caller _ e => inferInstanceAs (Decidable ¬s.cache.RegistersIn e)

/-- The slots that were registered have been released. -/
def Released (s : SqliteSystem ι) : Prop :=
  s.cache.writer = .drained ∨ s.cache.writer = .dropped

/-- **One careful step**: once the slots are released, all are completed. -/
theorem completed_step (h : s.Released → s.cache.AllCompleted)
    (hcareful : s.Careful e) (hstep : s.step e = some s') :
    s'.Released → s'.cache.AllCompleted := by
  cases e with
  | writer e =>
    obtain ⟨cache, hcache, rfl⟩ := map_eq_some_iff.mp hstep
    intro hreleased
    cases writerStep_moves hcache with
    | moved _ queue w halive hw hin hun =>
      rcases hreleased with hr | hr
      · exact absurd hw (by rw [show w = .drained from hr]; exact id)
      · exact absurd hw (by rw [show w = .dropped from hr]; exact id)
    | committed | completed | left => rcases hreleased with hr | hr <;> exact nomatch hr
    | drained hw => exact (allCompleted_drain (s := s.cache)).mpr hcareful
    | dropped hw => exact h (.inl hw)
  | caller i e =>
    obtain ⟨⟨cache, point⟩, hcache, rfl⟩ := map_eq_some_iff.mp hstep
    intro hreleased
    rcases callerStep_cases hcache with ⟨rfl, -⟩ | ⟨key, op, rfl, hiff⟩
    · exact h hreleased
    · simp only [Released, registerAndSend_writer] at hreleased
      rcases hreleased with hr | hr
      · exact absurd (hiff.mpr hr) hcareful
      · exact (h (.inr hr)).registerAndSend hr

/-! ### What cannot be undone -/

/-- A slot is left that nobody has completed, before the channel is gone – or it is gone. -/
def Stranding (s : SqliteSystem ι) : Prop :=
  s.cache.writer = .drained ∧ ¬s.cache.AllCompleted ∨ s.cache.writer = .dropped

theorem stranding_of_careless (h : s.Consistent db₀)
    (hcareless : ¬s.Careful e) (hstep : s.step e = some s') : s'.Stranding := by
  cases e with
  | writer e =>
    obtain ⟨cache, hcache, rfl⟩ := map_eq_some_iff.mp hstep
    cases e with
    | drain =>
      rw [writerStep] at hcache
      split at hcache
      · cases hcache
        exact .inl ⟨rfl, fun hall => hcareless ((allCompleted_drain).mp hall)⟩
      · cases hcache
    | _ => exact absurd trivial hcareless
  | caller i e =>
    obtain ⟨⟨cache, point⟩, hcache, rfl⟩ := map_eq_some_iff.mp hstep
    have hreg : s.cache.RegistersIn e := not_not.mp hcareless
    rcases callerStep_cases hcache with ⟨-, hnot⟩ | ⟨key, op, rfl, hiff⟩
    · exact absurd hreg hnot
    · have hw := hiff.mp hreg
      refine .inl ⟨registerAndSend_writer.trans hw, not_allCompleted_registerAndSend ?_ ?_⟩
      · simp [hw]
      · exact h.1.tracked.completed_bound

omit [DecidableEq ι] in
/-- Outside its loop the writer can only give up the channel. -/
theorem writerStep_of_released {e : WriterEvent} {cache : SqliteCache} (hs : s.Released)
    (hcache : s.cache.writerStep e = some cache) :
    s.cache.writer = .drained ∧ cache = { s.cache with queue := [], writer := .dropped } := by
  have hdead : ¬s.cache.writer.Alive := by
    rcases hs with hw | hw <;> rw [hw] <;> exact id
  cases writerStep_moves hcache with
  | moved _ queue w halive => exact absurd halive hdead
  | left halive => exact absurd halive hdead
  | committed batch hw halive => exact absurd halive hdead
  | completed c batch halive => exact absurd halive hdead
  | drained hw => rcases hs with hw' | hw' <;> exact nomatch hw.symm.trans hw'
  | dropped hw => exact ⟨hw, rfl⟩

theorem dropped_step (hs : s.cache.writer = .dropped)
    (hstep : s.step e = some s') : s'.cache.writer = .dropped := by
  cases e with
  | writer e =>
    obtain ⟨cache, hcache, rfl⟩ := map_eq_some_iff.mp hstep
    obtain ⟨-, rfl⟩ := writerStep_of_released (.inr hs) hcache
    rfl
  | caller i e =>
    obtain ⟨⟨cache, point⟩, hcache, rfl⟩ := map_eq_some_iff.mp hstep
    rcases callerStep_cases hcache with ⟨rfl, -⟩ | ⟨key, op, rfl, -⟩
    · exact hs
    · exact registerAndSend_writer.trans hs

theorem stranding_step (h : s.Consistent db₀) (hs : s.Stranding)
    (hstep : s.step e = some s') : s'.Stranding := by
  rcases hs with ⟨hw, hleft⟩ | hw
  · cases e with
    | writer e =>
      obtain ⟨cache, hcache, rfl⟩ := map_eq_some_iff.mp hstep
      obtain ⟨-, rfl⟩ := writerStep_of_released (.inl hw) hcache
      exact .inr rfl
    | caller i e =>
      obtain ⟨⟨cache, point⟩, hcache, rfl⟩ := map_eq_some_iff.mp hstep
      rcases callerStep_cases hcache with ⟨rfl, -⟩ | ⟨key, op, rfl, -⟩
      · exact .inl ⟨hw, hleft⟩
      · refine .inl ⟨registerAndSend_writer.trans hw, not_allCompleted_registerAndSend ?_ ?_⟩
        · simp [hw]
        · exact h.1.tracked.completed_bound
  · exact .inr (dropped_step hw hstep)

/-! ### Every run -/

theorem dropReceiver_of_step (hstep : s.step e = some s')
    (hs : s.cache.writer ≠ .dropped) (hs' : s'.cache.writer = .dropped) :
    e = .writer .dropReceiver ∧ s.cache.writer = .drained := by
  cases e with
  | writer e =>
    obtain ⟨cache, hcache, rfl⟩ := map_eq_some_iff.mp hstep
    cases writerStep_moves hcache with
    | moved _ queue w halive hw => exact absurd hw (by rw [show w = .dropped from hs']; exact id)
    | committed | completed | left | drained => cases hs'
    | dropped hw => exact ⟨rfl, hw⟩
  | caller i e =>
    obtain ⟨⟨cache, point⟩, hcache, rfl⟩ := map_eq_some_iff.mp hstep
    rcases callerStep_cases hcache with ⟨rfl, -⟩ | ⟨key, op, rfl, -⟩
    · exact absurd hs' hs
    · exact absurd (registerAndSend_writer.symm.trans hs') hs

/-- When the channel is gone, there was a moment at which it went. -/
theorem exists_dropReceiver (h : (machine ι db₀).run es = some s)
    (hdropped : s.cache.writer = .dropped) :
    ∃ es₁ es₂ s₁, es = es₁ ++ .writer .dropReceiver :: es₂ ∧
      (machine ι db₀).run es₁ = some s₁ ∧ s₁.cache.writer = .drained := by
  induction es using List.reverseRecOn generalizing s with
  | nil =>
    cases h
    cases hdropped
  | append_singleton es e ih =>
    obtain ⟨t, ht, hlast⟩ := run_append.mp h
    by_cases htd : t.cache.writer = .dropped
    · obtain ⟨es₁, es₂, s₁, rfl, hs₁, hw⟩ := ih ht htd
      exact ⟨es₁, es₂ ++ [e], s₁, by simp, hs₁, hw⟩
    · obtain ⟨u, hu, hnil⟩ := runFrom_cons hlast
      cases hnil
      obtain ⟨rfl, hw⟩ := dropReceiver_of_step hu htd hdropped
      exact ⟨es, [], t, rfl, ht, hw⟩

/-- Once the channel is gone, no step is careless. -/
theorem meets_of_dropped (hs : s.cache.writer = .dropped)
    (h : (machine ι db₀).runFrom s es = some s') : (machine ι db₀).Meets Careful s es := by
  refine meets_of_runFrom
    (fun _ => False) (fun _ _ _ => dropped_step) ?_ (fun _ _ _ _ hfalse _ => hfalse) hs h id
  intro s e s' hs hcareless hstep
  cases e with
  | writer e =>
    obtain ⟨cache, hcache, -⟩ := map_eq_some_iff.mp hstep
    cases hs.symm.trans (writerStep_of_released (.inr hs) hcache).1
  | caller i e =>
    have hreg : s.cache.RegistersIn e := not_not.mp hcareless
    cases hs.symm.trans hreg.drained

/-- **Nobody waits for ever** once the writer and its end of the channel are gone, exactly in the
runs in which slots are released when none is displaced, and nothing is registered between that and
the end of the channel. -/
theorem no_stranded_iff (db₀ : CacheTable) (es : List (SqliteEvent ι)) (s : SqliteSystem ι)
    (h : (machine ι db₀).run es = some s) (hdropped : s.cache.writer = .dropped) :
    (∀ es₁ es₂ s₁, es = es₁ ++ es₂ → (machine ι db₀).run es₁ = some s₁ →
      s₁.cache.writer = .dropped → s₁.cache.AllCompleted) ↔
    (machine ι db₀).Meets Careful (machine ι db₀).init es := by
  constructor
  · intro hall
    obtain ⟨es₁, es₂, s₁, rfl, hrun, hw⟩ := exists_dropReceiver h hdropped
    obtain ⟨t, ht, hrest⟩ := run_append.mp h
    obtain rfl : t = s₁ := some.inj (ht.symm.trans hrun)
    obtain ⟨u, hu, htail⟩ := runFrom_cons hrest
    have hdrop : u.cache = { t.cache with queue := [], writer := .dropped } := by
      obtain ⟨cache, hcache, rfl⟩ := map_eq_some_iff.mp hu
      exact (writerStep_of_released (.inl hw) hcache).2
    have hu_dropped : u.cache.writer = .dropped := by rw [hdrop]
    have hcompleted : t.cache.AllCompleted := by
      have hu_all := hall (es₁ ++ [.writer .dropReceiver]) es₂ u (by simp)
        (run_append.mpr ⟨t, ht, by rw [runFrom, hu]; rfl⟩) hu_dropped
      rw [hdrop] at hu_all
      exact hu_all
    have hmeets : (machine ι db₀).Meets Careful (machine ι db₀).init es₁ := by
      refine meets_of_runFrom Stranding
        (fun _ _ _ => consistent_step) (fun _ _ _ => stranding_of_careless)
        (fun _ _ _ => stranding_step) ⟨orderly_new, fun _ => trivial⟩ ht ?_
      rintro (⟨-, hleft⟩ | hdropped)
      · exact hleft hcompleted
      · cases hw.symm.trans hdropped
    refine (meets_append ht).mpr ⟨hmeets, trivial, ?_⟩
    rw [hu]
    exact meets_of_dropped hu_dropped htail
  · rintro hmeets es₁ es₂ s₁ rfl hrun hw
    refine runFrom_invariant
      (fun _ _ _ => completed_step) ?_ hmeets.of_append hrun (.inr hw)
    rintro (hr | hr) <;> cases hr

/-- The writer panics with a write in its batch, and a delete of another entry in the channel. -/
def panicExit : List (SqliteEvent Bool) :=
  [.caller true (.commit someKey [1]), .writer .recv, .caller false (.delete otherKey),
    .writer .exit, .writer .drain, .writer .dropReceiver]

theorem no_stranded_iff_panic :
    ∃ s, (machine Bool .empty).run panicExit = some s ∧ s.cache.writer = .dropped ∧
      ∀ es₁ es₂ s₁, panicExit = es₁ ++ es₂ → (machine Bool .empty).run es₁ = some s₁ →
        s₁.cache.writer = .dropped → s₁.cache.AllCompleted :=
  ⟨_, rfl, rfl, (no_stranded_iff .empty panicExit _ rfl rfl).mpr (by decide)⟩

/-- A delete is queued, then a write of the same entry; the writer panics before the transaction. -/
def displacedDelete : List (SqliteEvent Bool) :=
  [.caller true (.delete someKey), .caller false (.commit someKey [1]), .writer .recv,
    .writer .collect, .writer .collect, .writer .exit, .writer .drain, .writer .dropReceiver]

/-- **The delete waits for ever**: its slot is not in the map when the slots are released. -/
theorem displaced_slot_stranded :
    ∃ s, (machine Bool .empty).run displacedDelete = some s ∧ s.cache.writer = .dropped ∧
      s.callers true = .deleting someKey 0 ∧ 0 < s.cache.slots ∧ 0 ∉ s.cache.completed :=
  ⟨_, rfl, rfl, rfl, by decide, by decide⟩

-- a delete that is queued when the slots have been released goes with the channel
example : ∃ s, (machine Bool .empty).run
    [.writer .exit, .writer .drain, .caller true (.delete someKey), .writer .dropReceiver] =
      some s ∧ s.callers true = .deleting someKey 0 ∧ 0 ∉ s.cache.completed :=
  ⟨_, rfl, rfl, by decide⟩

end SqliteSystem

end Heph
