import Heph.Cache.Sqlite

/-!
# A read sees what was queued before it

Three orders have to be the same for each key: that in which slots are registered, that of the
channel, and that in which slots are completed. They are (`SqliteCache.Orderly`): commands are
numbered as they are registered, they are in flight in the order of their numbers, and what has been
completed comes before what is in flight. While the writer lives **the slot of a key is that of the
last command in flight for it**.

So a reader that has waited for the slot it has found leaves no command for its key in flight that
was queued before it came (`SqliteCache.Settled`), and the row that it then selects is that of the
last of those that have succeeded, or of a later one. **What it reads is the row that has the rowid
when it is opened**, which may be another one by then (`SqliteSystem.rowid_given_again`): it is the
row that was selected if no command for the key is applied in between
(`SqliteSystem.read_after_write`).
-/

namespace Heph

open List Option Nat AList CacheTable

namespace WriterCmd

variable {key : EntryKey} {c c' : WriterCmd} {l : List WriterCmd}

theorem lastFor_append_singleton :
    lastFor key (l ++ [c]) = if c.key = key then some c else lastFor key l := by
  by_cases h : c.key = key <;> simp [h, lastFor]

theorem lastFor_cons :
    lastFor key (c :: l) = (lastFor key l).or (if c.key = key then some c else none) := by
  by_cases h : c.key = key <;> simp [h, lastFor]

theorem mem_of_lastFor (h : lastFor key l = some c) : c ∈ l ∧ c.key = key := by
  refine ⟨mem_reverse.mp (mem_of_find?_eq_some h), ?_⟩
  simpa using find?_some h

theorem lastFor_eq_none : lastFor key l = none ↔ ∀ c ∈ l, c.key ≠ key := by
  simp [lastFor]

/-- No command for the key comes after the last one. -/
theorem le_lastFor (hl : l.Pairwise (·.slot < ·.slot)) (h : lastFor key l = some c)
    (hc' : c' ∈ l) (hkey : c'.key = key) : c'.slot ≤ c.slot := by
  induction l with
  | nil => cases h
  | cons d l ih =>
    rw [lastFor_cons] at h
    obtain ⟨hd, hl⟩ := pairwise_cons.mp hl
    cases hlast : lastFor key l with
    | some e =>
      obtain rfl : e = c := by simpa [hlast] using h
      rcases mem_cons.mp hc' with rfl | hc'
      · exact (hd e (mem_of_lastFor hlast).1).le
      · exact ih hl hlast hc'
    | none =>
      rcases mem_cons.mp hc' with rfl | hc'
      · obtain rfl : c' = c := by simpa [hlast, hkey] using h
        exact le_rfl
      · exact absurd hkey (lastFor_eq_none.mp hlast c' hc')

end WriterCmd

namespace CacheTable

variable {t : CacheTable} {key key' : EntryKey} {c : WriterCmd} {l : List WriterCmd}
  {row : CacheRow}

/-- A row is the one of its key. -/
theorem row_of_mem (h : row ∈ t.rows) : t.row row.key = some row := by
  cases hfind : t.row row.key with
  | none => simpa using find?_eq_none.mp hfind row h
  | some row' =>
    refine congrArg some (inj_on_of_nodup_map t.keys (mem_of_find?_eq_some hfind) h ?_)
    simpa using find?_some hfind

/-- A row is the one that has its rowid. -/
theorem rowAt_of_mem (h : row ∈ t.rows) : t.rowAt row.rowId = some row := by
  cases hfind : t.rowAt row.rowId with
  | none => simpa using find?_eq_none.mp hfind row h
  | some row' =>
    refine congrArg some (inj_on_of_nodup_map t.rowIds (mem_of_find?_eq_some hfind) h ?_)
    simpa using find?_some hfind

theorem mem_of_row (h : t.row key = some row) : row ∈ t.rows ∧ row.key = key :=
  ⟨mem_of_find?_eq_some h, by simpa using find?_some h⟩

theorem row_delete : (t.delete key').row key = if key' = key then none else t.row key := by
  rw [row, delete, find?_filter]
  split
  · next h =>
    subst h
    simp
  · next h =>
    refine find?_congr fun row _ => ?_
    by_cases hkey : row.key = key
    · simp [hkey, Ne.symm h]
    · simp [hkey]

/-- A command leaves an entry to be what it makes of it, and the others as they are. -/
theorem entry_apply : (t.apply c).entry key = if c.key = key then c.entry else t.entry key := by
  obtain ⟨key', op, slot⟩ := c
  cases op with
  | delete =>
    change ((t.delete key').row key).map _ = _
    rw [row_delete]
    split <;> rfl
  | write data =>
    change (find? _ (_ :: (t.delete key').rows)).map _ = _
    by_cases h : key' = key
    · rw [find?_cons_of_pos (by simpa using h), if_pos h]
      rfl
    · rw [find?_cons_of_neg (by simpa using h), if_neg h]
      change ((t.delete key').row key).map _ = _
      rw [row_delete, if_neg h]
      rfl

/-- An entry is what the last command for it has left. -/
theorem entry_foldl_apply : (l.foldl apply t).entry key =
    match WriterCmd.lastFor key l with
    | some c => c.entry
    | none => t.entry key := by
  induction l using reverseRecOn with
  | nil => rfl
  | append_singleton l c ih =>
    rw [foldl_append, foldl_cons, foldl_nil, WriterCmd.lastFor_append_singleton, entry_apply]
    by_cases h : c.key = key
    · rw [if_pos h, if_pos h]
    · rw [if_neg h, if_neg h, ih]

/-- A row stays, with its rowid, under the commands for other keys. -/
theorem mem_apply (h : row ∈ t.rows) (hne : row.key ≠ c.key) : row ∈ (t.apply c).rows := by
  have hdelete : row ∈ (t.delete c.key).rows := mem_filter.mpr ⟨h, by simpa using hne⟩
  rw [apply]
  split
  · exact mem_cons_of_mem _ hdelete
  · exact hdelete

theorem mem_foldl_apply (h : row ∈ t.rows) (hne : ∀ c ∈ l, row.key ≠ c.key) :
    row ∈ (l.foldl apply t).rows := by
  induction l generalizing t with
  | nil => exact h
  | cons c l ih =>
    obtain ⟨hc, hl⟩ := forall_mem_cons.mp hne
    exact ih (mem_apply h hc) hl

end CacheTable

/-- The entry whose row a thread has selected, and not opened. -/
def ClientPoint.selects? : ClientPoint → Option EntryKey
  | .selected key _ _ _ => some key
  | _ => none

namespace SqliteCache

open WriterCmd

variable {db₀ : CacheTable} {s s' : SqliteCache} {key : EntryKey} {c : WriterCmd}
  {alive alive' : Prop} {inFlight inFlight' : List WriterCmd} {slots : ℕ}
  {map map' : AList fun _ : EntryKey => ℕ}
  {completed completed' : List ℕ} {op : CacheOp} {batch : List WriterCmd} {e : WriterEvent}

/-! ### The three orders -/

/-- **The tracker knows what is in flight**, while the writer lives: commands are in flight in the
order of their slots, the slot of a key is that of the last of them for it, and what is completed
comes before them. -/
structure Tracked (alive : Prop) (inFlight : List WriterCmd) (slots : ℕ)
    (map : AList fun _ : EntryKey => ℕ) (completed : List ℕ) : Prop where
  sorted : inFlight.Pairwise (·.slot < ·.slot)
  bound : ∀ c ∈ inFlight, c.slot < slots
  map_bound : ∀ key slot, map.lookup key = some slot → slot < slots
  pending : alive → ∀ key, map.lookup key = (lastFor key inFlight).map slot
  completed_bound : ∀ slot ∈ completed, slot < slots
  before : alive → ∀ slot ∈ completed, ∀ c ∈ inFlight, slot < c.slot

/-- **The database is what the committed commands have left**, and those come before the ones that
no transaction has had. -/
structure Landed (db₀ db : CacheTable) (committed unprocessed : List WriterCmd) (slots : ℕ) :
    Prop where
  db : db = committed.foldl apply db₀
  sorted : committed.Pairwise (·.slot < ·.slot)
  bound : ∀ c ∈ committed, c.slot < slots
  before : ∀ c ∈ committed, ∀ c' ∈ unprocessed, c.slot < c'.slot

section

variable (h : Tracked alive inFlight slots map completed)

include h

theorem Tracked.mono (halive : alive' → alive) :
    Tracked alive' inFlight slots map completed :=
  { h with pending := fun ha => h.pending (halive ha), before := fun ha => h.before (halive ha) }

/-- A command joins those that are in flight. -/
theorem Tracked.send (op : CacheOp) :
    Tracked alive (inFlight ++ [⟨key, op, slots⟩]) (slots + 1) (map.insert key slots)
      completed := by
  refine ⟨?_, ?_, ?_, ?_, ?_, ?_⟩
  · refine pairwise_append.mpr ⟨h.sorted, pairwise_singleton .., fun c hc c' hc' => ?_⟩
    obtain rfl := mem_singleton.mp hc'
    exact h.bound c hc
  · intro c hc
    rcases mem_append.mp hc with hc | hc
    · exact lt_succ_of_lt (h.bound c hc)
    · obtain rfl := mem_singleton.mp hc
      exact lt_succ_self _
  · intro key' slot hslot
    by_cases hkey : key' = key
    · subst hkey
      rw [lookup_insert] at hslot
      cases hslot
      exact lt_succ_self _
    · rw [lookup_insert_ne hkey] at hslot
      exact lt_succ_of_lt (h.map_bound key' slot hslot)
  · intro halive key'
    rw [lastFor_append_singleton]
    by_cases hkey : key = key'
    · subst hkey
      rw [lookup_insert, if_pos rfl, map_some]
    · rw [lookup_insert_ne (Ne.symm hkey), if_neg hkey]
      exact h.pending halive key'
  · exact fun slot hslot => lt_succ_of_lt (h.completed_bound slot hslot)
  · intro halive slot hslot c hc
    rcases mem_append.mp hc with hc | hc
    · exact h.before halive slot hslot c hc
    · obtain rfl := mem_singleton.mp hc
      exact h.completed_bound slot hslot

end

/-- The first command in flight is completed. -/
theorem Tracked.complete (h : Tracked alive (c :: inFlight) slots map completed) :
    Tracked alive inFlight slots
      (if map.lookup c.key = some c.slot then map.erase c.key else map) (c.slot :: completed) := by
  obtain ⟨hc, hsorted⟩ := pairwise_cons.mp h.sorted
  refine ⟨hsorted, fun c' hc' => h.bound c' (mem_cons_of_mem _ hc'), ?_, ?_, ?_, ?_⟩
  · intro key slot hslot
    split at hslot
    · by_cases hkey : key = c.key
      · subst hkey
        rw [lookup_erase] at hslot
        cases hslot
      · rw [lookup_erase_ne hkey] at hslot
        exact h.map_bound key slot hslot
    · exact h.map_bound key slot hslot
  · intro halive key
    have hpending := h.pending halive key
    rw [lastFor_cons] at hpending
    by_cases hkey : key = c.key
    · subst hkey
      rw [if_pos rfl] at hpending
      cases hlast : lastFor c.key inFlight with
      | none =>
        rw [hlast, none_or, map_some] at hpending
        rw [if_pos hpending, lookup_erase, map_none]
      | some d =>
        -- a newer command has the key
        rw [hlast, some_or, map_some] at hpending
        have hne : c.slot ≠ d.slot := (hc d (mem_of_lastFor hlast).1).ne
        rw [hpending, if_neg fun heq => hne (some.inj heq).symm, hpending, map_some]
    · rw [if_neg (Ne.symm hkey), or_none] at hpending
      rw [← hpending]
      split
      · exact lookup_erase_ne hkey
      · rfl
  · intro slot hslot
    rcases mem_cons.mp hslot with rfl | hslot
    · exact h.bound c mem_cons_self
    · exact h.completed_bound slot hslot
  · intro halive slot hslot c' hc'
    rcases mem_cons.mp hslot with rfl | hslot
    · exact hc c' hc'
    · exact h.before halive slot hslot c' (mem_cons_of_mem _ hc')

/-- The writer is gone: commands may be lost, and slots be completed out of order. -/
theorem Tracked.of_dead (h : Tracked alive inFlight slots map completed) (hdead : ¬alive')
    (hin : inFlight'.Sublist inFlight)
    (hmap : ∀ key slot, map'.lookup key = some slot → map.lookup key = some slot)
    (hcompleted : ∀ slot ∈ completed', slot ∈ completed ∨ ∃ key, map.lookup key = some slot) :
    Tracked alive' inFlight' slots map' completed' := by
  refine ⟨h.sorted.sublist hin, fun c hc => h.bound c (hin.subset hc), fun key slot hslot => ?_,
    fun ha => absurd ha hdead, fun slot hslot => ?_, fun ha => absurd ha hdead⟩
  · exact h.map_bound key slot (hmap key slot hslot)
  · rcases hcompleted slot hslot with hslot | ⟨key, hkey⟩
    · exact h.completed_bound slot hslot
    · exact h.map_bound key slot hkey

section Landed

variable {db : CacheTable} {committed batch unprocessed unprocessed' : List WriterCmd}

section

variable (h : Landed db₀ db committed unprocessed slots)

include h

theorem Landed.mono
    (hun : unprocessed' ⊆ unprocessed) : Landed db₀ db committed unprocessed' slots :=
  { h with before := fun c hc c' hc' => h.before c hc c' (hun hc') }

theorem Landed.send (op : CacheOp) :
    Landed db₀ db committed (unprocessed ++ [⟨key, op, slots⟩]) (slots + 1) := by
  refine { h with bound := fun c hc => lt_succ_of_lt (h.bound c hc), before := ?_ }
  intro c hc c' hc'
  rcases mem_append.mp hc' with hc' | hc'
  · exact h.before c hc c' hc'
  · obtain rfl := mem_singleton.mp hc'
    exact h.bound c hc

end

/-- A batch succeeds. -/
theorem Landed.process (h : Landed db₀ db committed (batch ++ unprocessed) slots)
    (hsorted : (batch ++ unprocessed).Pairwise (·.slot < ·.slot))
    (hbound : ∀ c ∈ batch ++ unprocessed, c.slot < slots) :
    Landed db₀ (batch.foldl apply db) (committed ++ batch) unprocessed slots := by
  obtain ⟨hbatch, -, hbefore⟩ := pairwise_append.mp hsorted
  refine ⟨?_, ?_, ?_, ?_⟩
  · rw [foldl_append, ← h.db]
  · refine pairwise_append.mpr ⟨h.sorted, hbatch, fun c hc c' hc' => ?_⟩
    exact h.before c hc c' (mem_append_left _ hc')
  · intro c hc
    rcases mem_append.mp hc with hc | hc
    · exact h.bound c hc
    · exact hbound c (mem_append_left _ hc)
  · intro c hc c' hc'
    rcases mem_append.mp hc with hc | hc
    · exact h.before c hc c' (mem_append_right _ hc')
    · exact hbefore c hc c' hc'

end Landed

/-! ### Every step keeps them -/

/-- The commands that no transaction has had yet. -/
def unprocessed (s : SqliteCache) : List WriterCmd :=
  match s.writer with
  | .completing _ => s.queue
  | _ => s.inFlight

theorem queue_subset : s.queue ⊆ s.unprocessed := by
  rw [unprocessed]
  split
  · exact Subset.refl _
  · exact subset_append_right ..

/-- **The commands are in order.** -/
structure Orderly (db₀ : CacheTable) (s : SqliteCache) : Prop where
  tracked : Tracked s.writer.Alive s.inFlight s.slots s.map s.completed
  landed : Landed db₀ s.db s.committed s.unprocessed s.slots

theorem orderly_new : Orderly db₀ (new db₀) where
  tracked := ⟨.nil, nofun, fun _ _ h => (nomatch h), fun _ _ => rfl, nofun, fun _ => nofun⟩
  landed := ⟨rfl, .nil, nofun, nofun⟩

theorem orderly_registerAndSend (h : Orderly db₀ s) :
    Orderly db₀ (s.registerAndSend key op).2 := by
  rw [registerAndSend]
  split
  · next hdropped =>
    have hdead : ¬s.writer.Alive := by simp [hdropped, WriterPoint.Alive]
    refine ⟨h.tracked.of_dead hdead (.refl _) (fun key' slot hslot => ?_) fun slot hslot => ?_,
      h.landed⟩
    · by_cases hkey : key' = key
      · subst hkey
        rw [lookup_erase] at hslot
        cases hslot
      · rwa [lookup_erase_ne hkey] at hslot
    · rcases mem_append.mp hslot with hslot | hslot
      · exact .inr ⟨key, mem_toList.mp hslot⟩
      · exact .inl hslot
  · have hin : s.writer.batch ++ (s.queue ++ [⟨key, op, s.slots⟩]) =
        s.inFlight ++ [⟨key, op, s.slots⟩] := (append_assoc ..).symm
    refine ⟨?_, ?_⟩
    · rw [inFlight, hin]
      exact h.tracked.send op
    · have hun : unprocessed { s with
          map := s.map.insert key s.slots
          queue := s.queue ++ [⟨key, op, s.slots⟩]
          slots := s.slots + 1 } = s.unprocessed ++ [⟨key, op, s.slots⟩] := by
        simp only [unprocessed]
        split
        · rfl
        · exact hin
      rw [hun]
      exact h.landed.send op

/-- **What the writer does**: it moves commands without completing any of them, and lets a
transaction have them, which may fail; it commits a batch; it completes a command; it leaves its
loop; it releases what is registered; or its end of the channel goes. -/
inductive WriterMoves (s : SqliteCache) : WriterEvent → SqliteCache → Prop
  | moved (e : WriterEvent) (queue : List WriterCmd) (w : WriterPoint)
      (halive : s.writer.Alive) (hw : w.Alive) (hin : w.batch ++ queue = s.inFlight)
      (hun : unprocessed { s with queue, writer := w } ⊆ s.unprocessed) :
      WriterMoves s e { s with queue, writer := w }
  | committed (batch : List WriterCmd) (hw : s.writer = .processing batch)
      (halive : s.writer.Alive) (hin : s.inFlight = batch ++ s.queue) :
      WriterMoves s (.process true) { s with
        db := batch.foldl apply s.db
        committed := s.committed ++ batch
        writer := .completing batch }
  | completed (c : WriterCmd) (batch : List WriterCmd) (halive : s.writer.Alive)
      (hin : s.inFlight = c :: (batch ++ s.queue)) :
      WriterMoves s .complete { s.complete c with writer := .completing batch }
  | left (halive : s.writer.Alive) : WriterMoves s .exit { s with writer := .unwinding }
  | drained (hw : s.writer = .unwinding) : WriterMoves s .drain { s.drain with writer := .drained }
  | dropped (hw : s.writer = .drained) :
      WriterMoves s .dropReceiver { s with queue := [], writer := .dropped }

theorem writerMoves_collect {bytes : ℕ}
    (hw : s.writer = .collecting batch bytes) : WriterMoves s .collect (s.collect batch bytes) := by
  have halive : s.writer.Alive := by simp [hw, WriterPoint.Alive]
  have hin : s.inFlight = batch ++ s.queue := by rw [inFlight, hw, WriterPoint.batch]
  have hun : s.unprocessed = batch ++ s.queue := by rw [unprocessed, hw, hin]
  have hprocess : WriterMoves s .collect { s with writer := .processing batch } :=
    .moved _ s.queue _ halive trivial hin.symm fun _ hc => hun ▸ hc
  rw [collect]
  split
  · split
    · next c queue hqueue =>
      have hmove : (batch ++ [c]) ++ queue = batch ++ s.queue := by
        rw [hqueue, append_assoc, singleton_append]
      refine .moved _ _ _ halive trivial (hmove.trans hin.symm) fun d hd => ?_
      rw [hun, ← hmove]
      exact hd
    · exact hprocess
  · exact hprocess

theorem writerMoves_process {succeeds : Bool}
    (hw : s.writer = .processing batch) :
    WriterMoves s (.process succeeds) (s.process batch succeeds) := by
  have halive : s.writer.Alive := by simp [hw, WriterPoint.Alive]
  have hin : s.inFlight = batch ++ s.queue := by rw [inFlight, hw, WriterPoint.batch]
  cases succeeds with
  | true => exact .committed batch hw halive hin
  | false => exact .moved _ s.queue _ halive trivial hin.symm fun _ hc => queue_subset hc

theorem writerStep_moves (hstep : s.writerStep e = some s') :
    WriterMoves s e s' := by
  cases e with
  | recv =>
    simp only [writerStep] at hstep
    split at hstep
    · next c queue hw hqueue =>
      cases hstep
      have hin : s.inFlight = c :: queue := by rw [inFlight, hw, hqueue]; rfl
      have hun : s.unprocessed = c :: queue := by rw [unprocessed, hw, hin]
      exact .moved _ _ _ (by simp [hw, WriterPoint.Alive]) trivial hin.symm fun _ hd => hun ▸ hd
    · cases hstep
  | collect =>
    simp only [writerStep] at hstep
    split at hstep
    · next hw =>
      cases hstep
      exact writerMoves_collect hw
    · cases hstep
  | process succeeds =>
    simp only [writerStep] at hstep
    split at hstep
    · next hw =>
      cases hstep
      exact writerMoves_process hw
    · cases hstep
  | complete =>
    simp only [writerStep] at hstep
    split at hstep
    · next c batch hw =>
      cases hstep
      exact .completed c batch (by simp [hw, WriterPoint.Alive]) (by rw [inFlight, hw]; rfl)
    · next hw =>
      cases hstep
      have hin : s.inFlight = s.queue := by rw [inFlight, hw]; rfl
      have hun : s.unprocessed = s.queue := by rw [unprocessed, hw]
      exact .moved _ s.queue .receiving (by simp [hw, WriterPoint.Alive]) trivial hin.symm
        fun _ hd => hun ▸ hd
    · cases hstep
  | exit =>
    simp only [writerStep] at hstep
    split at hstep
    · next halive =>
      cases hstep
      exact .left halive
    · cases hstep
  | drain =>
    simp only [writerStep] at hstep
    split at hstep
    · next hw =>
      cases hstep
      exact .drained hw
    · cases hstep
  | dropReceiver =>
    simp only [writerStep] at hstep
    split at hstep
    · next hw =>
      cases hstep
      exact .dropped hw
    · cases hstep

theorem orderly_writerStep (h : Orderly db₀ s)
    (hstep : s.writerStep e = some s') : Orderly db₀ s' := by
  cases writerStep_moves hstep with
  | moved _ queue w halive hw hin hun =>
    refine ⟨?_, h.landed.mono hun⟩
    rw [inFlight, hin]
    exact h.tracked.mono fun _ => halive
  | committed batch hw halive hin =>
    have hun : s.unprocessed = batch ++ s.queue := by rw [unprocessed, hw, hin]
    obtain ⟨htracked, hlanded⟩ := h
    rw [hin] at htracked
    rw [hun] at hlanded
    exact ⟨htracked.mono fun _ => halive, hlanded.process htracked.sorted htracked.bound⟩
  | completed c batch halive hin =>
    exact ⟨(hin ▸ h.tracked).complete.mono fun _ => halive,
      h.landed.mono fun _ hd => queue_subset hd⟩
  | left =>
    exact ⟨h.tracked.of_dead id (sublist_append_right ..) (fun _ _ => id) fun _ => .inl,
      h.landed.mono queue_subset⟩
  | drained =>
    refine ⟨h.tracked.of_dead id (sublist_append_right ..) ?_ ?_,
      h.landed.mono queue_subset⟩
    · exact fun _ _ hslot => nomatch hslot
    · intro slot hslot
      rcases mem_append.mp hslot with hslot | hslot
      · obtain ⟨⟨key, slot⟩, hmem, rfl⟩ := mem_map.mp hslot
        exact .inr ⟨key, mem_lookup_iff.mpr hmem⟩
      · exact .inl hslot
  | dropped =>
    exact ⟨h.tracked.of_dead id (nil_sublist _) (fun _ _ => id) fun _ => .inl,
      h.landed.mono (nil_subset _)⟩

/-! ### What a step does to the commands -/

/-- **What a thread can rely on** while others take a step: a command that is in flight has been, or
is new, and only what was in flight is committed. -/
structure Evolves (s s' : SqliteCache) : Prop where
  slots : s.slots ≤ s'.slots
  alive : s'.writer.Alive → s.writer.Alive
  inFlight : ∀ c ∈ s'.inFlight, c ∈ s.inFlight ∨ s.slots ≤ c.slot
  committed : ∀ c ∈ s.committed, c ∈ s'.committed
  fresh : ∀ c ∈ s'.committed, c ∈ s.committed ∨ s.writer.Alive ∧ c ∈ s.inFlight

/-- No transaction has been made. -/
theorem Evolves.of_committed (hslots : s.slots ≤ s'.slots)
    (halive : s'.writer.Alive → s.writer.Alive)
    (hin : ∀ c ∈ s'.inFlight, c ∈ s.inFlight ∨ s.slots ≤ c.slot)
    (hcommitted : s'.committed = s.committed) : Evolves s s' :=
  ⟨hslots, halive, hin, fun _ hc => hcommitted ▸ hc, fun _ hc => .inl (hcommitted ▸ hc)⟩

theorem Evolves.refl : Evolves s s := .of_committed le_rfl id (fun _ => .inl) rfl

theorem evolves_registerAndSend : Evolves s (s.registerAndSend key op).2 := by
  rw [registerAndSend]
  split
  · exact .of_committed le_rfl id (fun _ => .inl) rfl
  · refine .of_committed (le_succ _) id (fun c hc => ?_) rfl
    rcases mem_append.mp hc with hc | hc
    · exact .inl (mem_append_left _ hc)
    · rcases mem_append.mp hc with hc | hc
      · exact .inl (mem_append_right _ hc)
      · obtain rfl := mem_singleton.mp hc
        exact .inr le_rfl

theorem evolves_writerStep (hstep : s.writerStep e = some s') :
    Evolves s s' := by
  cases writerStep_moves hstep with
  | moved _ queue w halive hw hin hun =>
    exact .of_committed le_rfl (fun _ => halive) (fun c hc => .inl (hin ▸ hc)) rfl
  | committed batch hw halive hin =>
    refine ⟨le_rfl, fun _ => halive, fun c hc => .inl (hin ▸ hc),
      fun c hc => mem_append_left _ hc, fun c hc => ?_⟩
    rcases mem_append.mp hc with hc | hc
    · exact .inl hc
    · exact .inr ⟨halive, hin ▸ mem_append_left _ hc⟩
  | completed c batch halive hin =>
    refine .of_committed le_rfl (fun _ => halive) (fun d hd => .inl ?_) rfl
    exact hin ▸ mem_cons_of_mem c hd
  | left | drained =>
    exact .of_committed le_rfl (fun h => absurd h id)
      (fun c hc => .inl (mem_append_right _ hc)) rfl
  | dropped => exact .of_committed le_rfl (fun h => absurd h id) nofun rfl

/-! ### A reader -/

variable (s : SqliteCache)

/-- Nothing is in flight for the key that was queued before so many slots were given. -/
def Settled (key : EntryKey) (since : ℕ) : Prop :=
  s.writer.Alive → ∀ c ∈ s.inFlight, c.key = key → since ≤ c.slot

/-- What is read is what a committed command has left that is not older than any of those. -/
def Sees (key : EntryKey) (since : ℕ) (result : ReadResult) : Prop :=
  ∀ c ∈ s.committed, c.key = key → c.slot < since →
    ∃ c' ∈ s.committed, c'.key = key ∧ c.slot ≤ c'.slot ∧ result = .ofEntry c'.entry

/-- What is known of a thread. -/
def Knows : ClientPoint → Prop
  | .reading _ since => since ≤ s.slots
  | .waiting key since slot =>
    since ≤ s.slots ∧ (s.writer.Alive → ∀ c ∈ s.inFlight, c.key = key → c.slot < since →
      c.slot ≤ slot)
  | .ready key since => since ≤ s.slots ∧ s.Settled key since
  | .selected key since _ _ => since ≤ s.slots ∧ s.Settled key since
  | .returned key since _ => since ≤ s.slots ∧ s.Settled key since
  | _ => True

/-- **What a thread has been told is true**: the row that it has selected is there, and what it has
read is what it had to see. -/
def Told : ClientPoint → Prop
  | .selected key _ rowId blobLen =>
    ∃ row ∈ s.db.rows, row.rowId = rowId ∧ row.key = key ∧ row.data.length = blobLen
  | .returned key since result => s.Sees key since result
  | _ => True

variable {s}

theorem Settled.evolves {since : ℕ} (h : s.Settled key since) (hsince : since ≤ s.slots)
    (he : Evolves s s') : s'.Settled key since := by
  intro halive c hc hkey
  rcases he.inFlight c hc with hc | hc
  · exact h (he.alive halive) c hc hkey
  · exact hsince.trans hc

/-- What others do does not matter. -/
theorem Knows.evolves {point : ClientPoint} (h : s.Knows point) (he : Evolves s s') :
    s'.Knows point := by
  cases point with
  | idle | deleting | deleted => trivial
  | reading key since => exact h.trans he.slots
  | waiting key since slot =>
    obtain ⟨hsince, hwait⟩ := h
    refine ⟨hsince.trans he.slots, fun halive c hc hkey hlt => ?_⟩
    rcases he.inFlight c hc with hc | hc
    · exact hwait (he.alive halive) c hc hkey hlt
    · exact absurd (hsince.trans hc) (not_le.mpr hlt)
  | ready | selected | returned => exact ⟨h.1.trans he.slots, h.2.evolves h.1 he⟩

/-- What others do does not matter either to what a thread has been told, if the row stays that it
has selected. -/
theorem Told.evolves {point : ClientPoint} (hknows : s.Knows point) (h : s.Told point)
    (he : Evolves s s')
    (hrows : ∀ row ∈ s.db.rows, point.selects? = some row.key → row ∈ s'.db.rows) :
    s'.Told point := by
  cases point with
  | selected key since rowId blobLen =>
    obtain ⟨row, hrow, hrowId, rfl, hlen⟩ := h
    exact ⟨row, hrows row hrow rfl, hrowId, rfl, hlen⟩
  | returned key since result =>
    intro c hc hkey hlt
    rcases he.fresh c hc with hc | ⟨halive, hc⟩
    · obtain ⟨c', hc', hkey', hle, hresult⟩ := h c hc hkey hlt
      exact ⟨c', he.committed c' hc', hkey', hle, hresult⟩
    · -- it would be in flight still, and it is not
      exact absurd (hknows.2 halive c hc hkey) (not_le.mpr hlt)
  | _ => trivial

/-- **The database shows the last committed command for a key.** -/
theorem Orderly.sees (h : Orderly db₀ s) (since : ℕ) :
    s.Sees key since (.ofEntry (s.db.entry key)) := by
  intro c hc hkey _
  cases hlast : lastFor key s.committed with
  | none => exact absurd hkey (lastFor_eq_none.mp hlast c hc)
  | some d =>
    obtain ⟨hd, hkeyd⟩ := mem_of_lastFor hlast
    refine ⟨d, hd, hkeyd, le_lastFor h.landed.sorted hlast hc hkey, ?_⟩
    rw [h.landed.db, entry_foldl_apply, hlast]

/-- A batch leaves a row that none of its commands is for. -/
theorem mem_rows_writerStep {row : CacheRow} (hstep : s.writerStep e = some s')
    (hne : e = .process true → ∀ c ∈ s.writer.batch, row.key ≠ c.key) (hrow : row ∈ s.db.rows) :
    row ∈ s'.db.rows := by
  cases writerStep_moves hstep with
  | committed batch hw =>
    refine mem_foldl_apply hrow fun c hc => hne rfl c ?_
    rw [hw]
    exact hc
  | _ => exact hrow

theorem registerAndSend_db : (s.registerAndSend key op).2.db = s.db := by
  rw [registerAndSend]
  split <;> rfl

/-- **A thread that takes a step** knows what it has to. -/
theorem knows_callerStep {point point' : ClientPoint} {e : ClientEvent} (h : Orderly db₀ s)
    (hknows : s.Knows point) (hstep : s.callerStep point e = some (s', point')) :
    Orderly db₀ s' ∧ Evolves s s' ∧ s'.Knows point' := by
  unfold callerStep at hstep
  split at hstep
  · next key data =>
    cases hstep
    rw [commit]
    split
    · exact ⟨orderly_registerAndSend h, evolves_registerAndSend, trivial⟩
    · exact ⟨h, .refl, trivial⟩
  · next key =>
    have horderly : Orderly db₀ (s.registerAndSend key .delete).2 := orderly_registerAndSend h
    have hevolves : Evolves s (s.registerAndSend key .delete).2 := evolves_registerAndSend
    split at hstep
    · next slot s₁ hreg =>
      cases hstep
      rw [hreg] at horderly hevolves
      exact ⟨horderly, hevolves, trivial⟩
    · next s₁ hreg =>
      cases hstep
      rw [hreg] at horderly hevolves
      exact ⟨horderly, hevolves, trivial⟩
  · split at hstep
    · cases hstep
      exact ⟨h, .refl, trivial⟩
    · cases hstep
  · cases hstep
    exact ⟨h, .refl, le_rfl⟩
  · next key since =>
    split at hstep
    · next slot hfind =>
      cases hstep
      refine ⟨h, .refl, hknows, fun halive c hc hkey _ => ?_⟩
      rw [find, h.tracked.pending halive key] at hfind
      obtain ⟨d, hlast, rfl⟩ := map_eq_some_iff.mp hfind
      exact le_lastFor h.tracked.sorted hlast hc hkey
    · next hfind =>
      cases hstep
      refine ⟨h, .refl, hknows, fun halive c hc hkey => ?_⟩
      rw [find, h.tracked.pending halive key, map_eq_none_iff] at hfind
      exact absurd hkey (lastFor_eq_none.mp hfind c hc)
  · next key since slot =>
    split at hstep
    · next hdone =>
      cases hstep
      obtain ⟨hsince, hwait⟩ := hknows
      refine ⟨h, .refl, hsince, fun halive c hc hkey => ?_⟩
      -- what is in flight comes after the slot that has been completed
      have hlt := h.tracked.before halive slot hdone c hc
      exact not_lt.mp fun hold => absurd (hwait halive c hc hkey hold) (not_le.mpr hlt)
    · cases hstep
  · split at hstep
    · cases hstep
      exact ⟨h, .refl, hknows⟩
    · cases hstep
      exact ⟨h, .refl, hknows⟩
  · split at hstep
    · cases hstep
      exact ⟨h, .refl, hknows⟩
    · cases hstep
      exact ⟨h, .refl, hknows⟩
  · cases hstep
    exact ⟨h, .refl, trivial⟩
  · cases hstep
    exact ⟨h, .refl, trivial⟩
  · cases hstep

theorem callerStep_db {point point' : ClientPoint} {e : ClientEvent}
    (hstep : s.callerStep point e = some (s', point')) : s'.db = s.db := by
  unfold callerStep at hstep
  split at hstep
  · cases hstep
    rw [commit]
    split
    · exact registerAndSend_db
    · rfl
  · next key =>
    have hdb : (s.registerAndSend key .delete).2.db = s.db := registerAndSend_db
    split at hstep
    · next hreg =>
      cases hstep
      rwa [hreg] at hdb
    · next hreg =>
      cases hstep
      rwa [hreg] at hdb
  all_goals first
    | (split at hstep <;> cases hstep <;> rfl)
    | (cases hstep; rfl)
    | cases hstep

/-- **A thread that takes a step** has been told what is true. -/
theorem told_callerStep {point point' : ClientPoint} {e : ClientEvent} (h : Orderly db₀ s)
    (htold : s.Told point) (hstep : s.callerStep point e = some (s', point')) :
    s'.Told point' := by
  unfold callerStep at hstep
  split at hstep
  case h_7 key since =>
    split at hstep
    · next row hrow =>
      cases hstep
      exact ⟨row, (mem_of_row hrow).1, rfl, (mem_of_row hrow).2, rfl⟩
    · next hrow =>
      have hsees : s.Sees key since (.ofEntry (s.db.entry key)) := h.sees since
      cases hstep
      rwa [CacheTable.entry, hrow] at hsees
  case h_8 key since rowId blobLen =>
    obtain ⟨row, hmem, rfl, rfl, rfl⟩ := htold
    have hsees : s.Sees row.key since (.ofEntry (s.db.entry row.key)) := h.sees since
    rw [rowAt_of_mem hmem] at hstep
    cases hstep
    rwa [CacheTable.entry, row_of_mem hmem] at hsees
  all_goals first
    | (split at hstep <;> cases hstep <;> trivial)
    | (cases hstep; trivial)
    | cases hstep

end SqliteCache

/-! ### Every run -/

namespace SqliteSystem

open SqliteCache

variable {ι : Type} [DecidableEq ι] {db₀ : CacheTable} {s s' : SqliteSystem ι}

/-- The commands are in order, and every thread knows what it has to. -/
def Consistent (db₀ : CacheTable) (s : SqliteSystem ι) : Prop :=
  s.cache.Orderly db₀ ∧ ∀ i, s.cache.Knows (s.callers i)

theorem consistent_step {e : SqliteEvent ι} (h : s.Consistent db₀) (hstep : s.step e = some s') :
    s'.Consistent db₀ := by
  obtain ⟨horderly, hknows⟩ := h
  cases e with
  | writer e =>
    obtain ⟨cache, hcache, rfl⟩ := map_eq_some_iff.mp hstep
    exact ⟨orderly_writerStep horderly hcache,
      fun i => (hknows i).evolves (evolves_writerStep hcache)⟩
  | caller i e =>
    obtain ⟨⟨cache, point⟩, hcache, rfl⟩ := map_eq_some_iff.mp hstep
    obtain ⟨horderly', hevolves, hown⟩ := knows_callerStep horderly (hknows i) hcache
    refine ⟨horderly', fun j => ?_⟩
    by_cases hj : j = i
    · subst hj
      simpa using hown
    · simpa [Function.update_of_ne hj] using (hknows j).evolves hevolves

theorem consistent_run {es : List (SqliteEvent ι)} (h : (machine ι db₀).run es = some s) :
    s.Consistent db₀ :=
  Machine.run_invariant (m := machine ι db₀) ⟨orderly_new, fun _ => trivial⟩
    (fun _ _ _ => consistent_step) h

/-- The commands that a step applies. -/
def applied (s : SqliteSystem ι) : SqliteEvent ι → List WriterCmd
  | .writer (.process true) => s.cache.writer.batch
  | _ => []

/-- **A step that disturbs no read**: no command is applied for an entry whose row has been selected
and not been opened. -/
def Undisturbed (s : SqliteSystem ι) (e : SqliteEvent ι) : Prop :=
  ∀ i, ∀ c ∈ s.applied e, (s.callers i).selects? ≠ some c.key

instance [Fintype ι] (s : SqliteSystem ι) (e : SqliteEvent ι) : Decidable (s.Undisturbed e) :=
  inferInstanceAs (Decidable (∀ _, _))

theorem told_step {e : SqliteEvent ι} (h : s.Consistent db₀)
    (htold : ∀ i, s.cache.Told (s.callers i)) (hundisturbed : s.Undisturbed e)
    (hstep : s.step e = some s') (i : ι) : s'.cache.Told (s'.callers i) := by
  obtain ⟨horderly, hknows⟩ := h
  cases e with
  | writer e =>
    obtain ⟨cache, hcache, rfl⟩ := map_eq_some_iff.mp hstep
    refine (htold i).evolves (hknows i) (evolves_writerStep hcache) fun row hrow hselects => ?_
    refine mem_rows_writerStep hcache (fun he c hc heq => ?_) hrow
    subst he
    exact hundisturbed i c hc (heq ▸ hselects)
  | caller j e =>
    obtain ⟨⟨cache, point⟩, hcache, rfl⟩ := map_eq_some_iff.mp hstep
    by_cases hi : i = j
    · subst hi
      simpa using told_callerStep horderly (htold i) hcache
    · have hevolves := (knows_callerStep horderly (hknows j) hcache).2.1
      simpa [Function.update_of_ne hi] using (htold i).evolves (hknows i) hevolves
        fun row hrow _ => (callerStep_db hcache).symm ▸ hrow

/-- What every thread has been told is true, in a run that disturbs no read. -/
theorem told_run {es : List (SqliteEvent ι)} (h : (machine ι db₀).run es = some s)
    (hundisturbed : (machine ι db₀).Meets Undisturbed (machine ι db₀).init es) (i : ι) :
    s.cache.Told (s.callers i) := by
  refine (Machine.runFrom_invariant (m := machine ι db₀)
    (I := fun s => s.Consistent db₀ ∧ ∀ i, s.cache.Told (s.callers i)) ?_ ?_ hundisturbed h).2 i
  · exact fun s e s' hs he hstep => ⟨consistent_step hs.1 hstep, told_step hs.1 hs.2 he hstep⟩
  · exact ⟨⟨orderly_new, fun _ => trivial⟩, fun _ => trivial⟩

/-- **Reads are ordered after the writes that were queued before them.** In every interleaving the
slot that the tracker has for a key, while the writer lives, is that of the last command in flight
for the key. If no read is disturbed, a read that has returned has seen what a command for its key
has left that is not older than any that was queued when the read began and whose batch has
succeeded. -/
theorem read_after_write (db₀ : CacheTable) (es : List (SqliteEvent ι)) (s : SqliteSystem ι)
    (h : (machine ι db₀).run es = some s) :
    (s.cache.writer.Alive → ∀ key,
      s.cache.find key = (WriterCmd.lastFor key s.cache.inFlight).map WriterCmd.slot) ∧
    ((machine ι db₀).Meets Undisturbed (machine ι db₀).init es →
      ∀ i key since result, s.callers i = .returned key since result →
        ∀ c ∈ s.cache.committed, c.key = key → c.slot < since →
          ∃ c' ∈ s.cache.committed, c'.key = key ∧ c.slot ≤ c'.slot ∧
            result = .ofEntry c'.entry) := by
  refine ⟨(consistent_run h).1.tracked.pending, fun hundisturbed i key since result hi => ?_⟩
  have htold := told_run h hundisturbed i
  rw [hi] at htold
  exact htold

/-- An entry. -/
def someKey : EntryKey := ⟨"//a:b".toList, "1f".toList, "out".toList⟩

/-- Another one. -/
def otherKey : EntryKey := ⟨"//a:c".toList, "2e".toList, "out".toList⟩

/-- A read that begins while a write is queued, and waits for it, until it has selected the row. -/
def selectedRead : List (SqliteEvent Bool) :=
  [.caller true (.commit someKey [1]), .caller false (.reader someKey), .caller false .find,
    .writer .recv, .writer .collect, .writer (.process true), .writer .complete,
    .writer .complete, .caller false .wake, .caller false .lookup]

/-- A command, until it is done. -/
def appliedNext (e : ClientEvent) : List (SqliteEvent Bool) :=
  [.caller true e, .writer .recv, .writer .collect, .writer (.process true), .writer .complete,
    .writer .complete]

/-- Another entry is written before the row is opened. -/
theorem read_after_write_undisturbed :
    ∃ s, (machine Bool .empty).run
        (selectedRead ++ appliedNext (.commit otherKey [2, 3]) ++ [.caller false .blobOpen]) =
          some s ∧
      s.callers false = .returned someKey 1 (.sized 1 [1]) ∧
      ∀ c ∈ s.cache.committed, c.key = someKey → c.slot < 1 →
        ∃ c' ∈ s.cache.committed, c'.key = someKey ∧ c.slot ≤ c'.slot ∧
          .sized 1 [1] = ReadResult.ofEntry c'.entry :=
  ⟨_, rfl, rfl, (read_after_write .empty (selectedRead ++
    appliedNext (.commit otherKey [2, 3]) ++ [.caller false .blobOpen]) _ rfl).2 (by decide)
      false someKey 1 (.sized 1 [1]) rfl⟩

/-- **A rowid is given again**: the entry is deleted when its row has been selected, and then
another one is written. The read gives the data of the other one. -/
theorem rowid_given_again :
    ∃ s, (machine Bool .empty).run (selectedRead ++ appliedNext (.delete someKey) ++
        [.caller true .wake, .caller true .finish] ++
        appliedNext (.commit otherKey [2, 3]) ++ [.caller false .blobOpen]) = some s ∧
      s.callers false = .returned someKey 1 (.sized 1 [2, 3]) ∧
      ⟨someKey, .write [1], 0⟩ ∈ s.cache.committed ∧
      ∀ c' ∈ s.cache.committed, c'.key = someKey →
        .sized 1 [2, 3] ≠ ReadResult.ofEntry c'.entry :=
  ⟨_, rfl, rfl, by decide, by decide⟩

end SqliteSystem

end Heph
