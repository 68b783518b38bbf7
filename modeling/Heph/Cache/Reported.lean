import Heph.Cache.ReadAfterWrite

/-!
# What a delete reports

`delete` waits for the slot of its command, and a slot is completed whether or not its batch was
applied. **So a delete may report success and leave the row** (`failed_batch_keeps_row`). What it
reports is true exactly if the command was committed, or there was no row to remove, or a later
command for the entry was queued (`reported_iff`).
-/

namespace Heph

open List Option WriterCmd SqliteCache Machine CacheTable

namespace SqliteCache

variable {db₀ : CacheTable} {s s' : SqliteCache} {c : WriterCmd} {key : EntryKey} {slot : ℕ}
  {point : ClientPoint} {e : ClientEvent}

/-- The commands that are not lost: those that are committed, and those in flight. -/
def known (s : SqliteCache) : List WriterCmd := s.committed ++ s.inFlight

theorem Evolves.known (h : Evolves s s') (hc : c ∈ s'.known) :
    c ∈ s.known ∨ s.slots ≤ c.slot ∧ c ∈ s'.inFlight := by
  rcases mem_append.mp hc with hc | hc
  · refine .inl (mem_append.mpr ?_)
    exact (h.fresh c hc).imp_right And.right
  · exact (h.inFlight c hc).imp (mem_append_right _) fun hslot => ⟨hslot, hc⟩

theorem deleting_of_callerStep (h : s.callerStep point e = some (s', .deleting key slot)) :
    s.registerAndSend key .delete = (some slot, s') := by
  unfold callerStep at h
  split at h <;> try split at h
  all_goals try (cases h; done)
  next hreg =>
    cases h
    exact hreg

theorem deleted_of_callerStep (h : s.callerStep point .wake = some (s', .deleted key slot)) :
    point = .deleting key slot ∧ s' = s := by
  cases point with
  | deleting key' slot' =>
    obtain ⟨-, heq⟩ := ite_none_right_eq_some.mp h
    cases heq
    exact ⟨rfl, rfl⟩
  | waiting =>
    obtain ⟨-, heq⟩ := ite_none_right_eq_some.mp h
    cases heq
  | _ => cases h

/-- The slot of a delete is that of its command only. -/
structure Commands (s : SqliteCache) (key : EntryKey) (slot : ℕ) : Prop where
  lt : slot < s.slots
  op : ∀ c ∈ s.known, c.slot = slot → c = ⟨key, .delete, slot⟩

theorem Commands.evolves (h : s.Commands key slot) (he : Evolves s s') : s'.Commands key slot := by
  refine ⟨h.lt.trans_le he.slots, fun c hc hslot => ?_⟩
  rcases he.known hc with hc | ⟨hle, -⟩
  · exact h.op c hc hslot
  · exact absurd h.lt (by omega)

theorem commands_registerAndSend (h : Orderly db₀ s)
    (hreg : s.registerAndSend key .delete = (some slot, s')) : s'.Commands key slot := by
  rw [registerAndSend] at hreg
  split at hreg
  · cases hreg
  · cases hreg
    refine ⟨Nat.lt_succ_self _, fun c hc hslot => ?_⟩
    rw [known, inFlight, ← append_assoc, ← append_assoc, mem_append,
      mem_singleton] at hc
    rcases hc with hc | rfl
    · rw [append_assoc] at hc
      rcases mem_append.mp hc with hc | hc
      · exact absurd (h.landed.bound c hc) (by omega)
      · exact absurd (h.tracked.bound c hc) (by omega)
    · rfl

end SqliteCache

namespace SqliteSystem

variable {ι : Type} [DecidableEq ι] {db₀ : CacheTable} {s s' : SqliteSystem ι} {e : SqliteEvent ι}
  {es : List (SqliteEvent ι)}

/-- The commands that a step queues: those with a new slot. -/
def queues (s : SqliteSystem ι) (e : SqliteEvent ι) : List WriterCmd :=
  (s.step e).elim [] fun s' => s'.cache.inFlight.filter (s.cache.slots ≤ ·.slot)

/-- A run has queued a later command for the key. -/
def QueuedAfter (db₀ : CacheTable) (es : List (SqliteEvent ι)) (key : EntryKey) (slot : ℕ) : Prop :=
  ∃ c ∈ (machine ι db₀).collect queues (machine ι db₀).init es, c.key = key ∧ slot < c.slot

instance (key : EntryKey) (slot : ℕ) : Decidable (QueuedAfter db₀ es key slot) :=
  inferInstanceAs (Decidable (∃ c ∈ _, _))

/-- **Where the commands come from.** -/
structure Traced (db₀ : CacheTable) (es : List (SqliteEvent ι)) (s : SqliteSystem ι) : Prop where
  queued : ∀ c ∈ s.cache.known, c ∈ (machine ι db₀).collect queues (machine ι db₀).init es
  deletes : ∀ i key slot, s.callers i = .deleting key slot → s.cache.Commands key slot

theorem Traced.step (hrun : (machine ι db₀).run es = some s) (h : Traced db₀ es s)
    (hstep : s.step e = some s') : Traced db₀ (es ++ [e]) s' := by
  obtain ⟨horderly, hknows⟩ := consistent_run hrun
  have hcollect : (machine ι db₀).collect queues (machine ι db₀).init (es ++ [e]) =
      (machine ι db₀).collect queues (machine ι db₀).init es ++ queues s e :=
    collect_append_singleton hrun
  have hevolves : s.cache.Evolves s'.cache ∧ ∀ i key slot, s'.callers i = .deleting key slot →
      s.callers i = .deleting key slot ∨
        s.cache.registerAndSend key .delete = (some slot, s'.cache) := by
    cases e with
    | writer e =>
      obtain ⟨cache, hcache, rfl⟩ := map_eq_some_iff.mp hstep
      exact ⟨evolves_writerStep hcache, fun _ _ _ => .inl⟩
    | caller j e =>
      obtain ⟨⟨cache, point⟩, hcache, rfl⟩ := map_eq_some_iff.mp hstep
      refine ⟨(knows_callerStep horderly (hknows j) hcache).2.1, fun i key slot hi => ?_⟩
      rcases eq_or_ne i j with rfl | hne
      · obtain rfl : point = .deleting key slot := by simpa using hi
        exact .inr (deleting_of_callerStep hcache)
      · exact .inl (by simpa [Function.update_of_ne hne] using hi)
  refine ⟨fun c hc => ?_, fun i key slot hi => ?_⟩
  · rw [hcollect, mem_append]
    rcases hevolves.1.known hc with hc | ⟨hslot, hc⟩
    · exact .inl (h.queued c hc)
    · exact .inr (by simp [queues, hstep, hc, hslot])
  · rcases hevolves.2 i key slot hi with hi | hreg
    · exact (h.deletes i key slot hi).evolves hevolves.1
    · exact commands_registerAndSend horderly hreg

theorem traced_run (h : (machine ι db₀).run es = some s) : Traced db₀ es s :=
  run_history ⟨by rintro c ⟨⟩, by rintro i key slot ⟨⟩⟩
    (fun _ _ _ _ hrun h hstep => h.step hrun hstep) h

/-- **What a delete reports**, at the moment at which it returns: that the entry has no row, or a
later command for it was queued, is true exactly if one was, or the command of the delete is
committed, or the commands before it have left no row. -/
theorem reported_iff (db₀ : CacheTable) (es : List (SqliteEvent ι)) (s : SqliteSystem ι) (i : ι)
    (key : EntryKey) (slot : ℕ) (h : (machine ι db₀).run (es ++ [.caller i .wake]) = some s)
    (hi : s.callers i = .deleted key slot) :
    (s.cache.db.entry key = none ∨ QueuedAfter db₀ es key slot) ↔
      (⟨key, .delete, slot⟩ ∈ s.cache.committed ∨
        ((s.cache.committed.filter (·.slot < slot)).foldl apply db₀).entry key = none) ∨
      QueuedAfter db₀ es key slot := by
  obtain ⟨t, ht, hlast⟩ := run_append.mp h
  obtain ⟨u, hu, hnil⟩ := runFrom_cons hlast
  cases hnil
  obtain ⟨⟨cache, point⟩, hcache, rfl⟩ := map_eq_some_iff.mp hu
  obtain rfl : point = .deleted key slot := by simpa using hi
  obtain ⟨hpoint, rfl⟩ := deleted_of_callerStep hcache
  refine or_congr_left' fun hlater => ?_
  have htraced := traced_run ht
  have hlanded := (consistent_run ht).1.landed
  have hle : ∀ c ∈ t.cache.committed, c.key = key → c.slot ≤ slot := fun c hc hkey =>
    not_lt.mp fun hlt => hlater ⟨c, htraced.queued c (mem_append_left _ hc), hkey, hlt⟩
  have hop : ∀ c ∈ t.cache.committed, c.slot = slot → c = ⟨key, .delete, slot⟩ := fun c hc =>
    (htraced.deletes i key slot hpoint).op c (mem_append_left _ hc)
  by_cases hmem : ⟨key, .delete, slot⟩ ∈ t.cache.committed
  · -- the delete is the last command for the key
    refine iff_of_true ?_ (.inl hmem)
    rw [hlanded.db, entry_foldl_apply]
    cases hlast : lastFor key t.cache.committed with
    | none => exact absurd rfl (lastFor_eq_none.mp hlast _ hmem)
    | some c =>
      obtain ⟨hc, hkey⟩ := mem_of_lastFor hlast
      rw [hop c hc ((hle c hc hkey).antisymm (le_lastFor hlanded.sorted hlast hmem rfl))]
      rfl
  · -- every command for the key came before it
    have hbefore : lastFor key (t.cache.committed.filter (·.slot < slot)) =
        lastFor key t.cache.committed := by
      rw [lastFor, ← filter_reverse, find?_filter]
      refine find?_congr fun c hc => ?_
      have hc := mem_reverse.mp hc
      by_cases hkey : c.key = key
      · have hlt : c.slot < slot := (hle c hc hkey).lt_of_ne fun heq => hmem (hop c hc heq ▸ hc)
        simp [hkey, hlt]
      · simp [hkey]
    rw [or_iff_right hmem, hlanded.db, entry_foldl_apply, entry_foldl_apply, hbefore]

/-- A delete whose batch succeeds, or fails. -/
def deleteIn (succeeds : Bool) : List (SqliteEvent Unit) :=
  [.caller () (.delete someKey), .writer .recv, .writer .collect, .writer (.process succeeds),
    .writer .complete]

/-- A database with the entry. -/
def oneEntry : CacheTable := CacheTable.empty.insertOrReplace someKey [1]

theorem reported_iff_committed :
    ∃ s, (machine Unit oneEntry).run (deleteIn true ++ [.caller () .wake]) = some s ∧
      (s.cache.db.entry someKey = none ∨ QueuedAfter oneEntry (deleteIn true) someKey 0) :=
  ⟨_, rfl, (reported_iff _ (deleteIn true) _ () someKey 0 rfl rfl).mpr (.inl (.inl (by decide)))⟩

/-- **A batch that fails**: the delete returns, and the row is there. -/
theorem failed_batch_keeps_row :
    ∃ s, (machine Unit oneEntry).run (deleteIn false ++ [.caller () .wake]) = some s ∧
      s.callers () = .deleted someKey 0 ∧ s.cache.db.entry someKey = some [1] ∧
      ¬ QueuedAfter oneEntry (deleteIn false) someKey 0 :=
  ⟨_, rfl, rfl, rfl, by decide⟩

end SqliteSystem

end Heph
