import Heph.Cache.Spilling

/-!
# Which backend has an entry

A lookup asks the primary and then the file store; the path of an entry is one in the file store,
and is given only if the primary does not have the entry. So the lookups agree about an entry even
if both backends have one for its key (`residency`).

That both have one should not be. A write first deletes a file of the key, a promotion deletes what
it has put into the primary, and an adoption deletes what the primary has: when they are done,
exactly one backend has the entry. **Not so for the manifest** of a revision: it is written to the
primary, and a file for it stays, if there was one (`manifest_held_twice`).

Nothing fails here, and an operation is done before the next begins.
-/

namespace Heph

open SpillCache Option

/-- What is done to the cache. -/
inductive SpillOp where
  /-- A blob is written and committed. -/
  | write (threshold : ℕ) (key : EntryKey) (calls : List WriterCall)
  /-- A writer is used and dropped. -/
  | drop (threshold : ℕ) (key : EntryKey) (calls : List WriterCall)
  | adoptFile (threshold : ℕ) (key : EntryKey) (src : Except IoError (List UInt8)) (renames : Bool)
  | delete (key : EntryKey)

namespace SpillOp

def apply (s : SpillCache) : SpillOp → SpillCache
  | .write threshold key calls => (writeEntry threshold key calls true s).cache
  | .drop threshold key calls => (writeEntry threshold key calls false s).cache
  | .adoptFile threshold key src renames =>
    (exec (SpillCache.adoptFile threshold key src renames) s).2
  | .delete key => (exec (SpillCache.delete key) s).2

/-- It gives the key an entry: a write, or an adoption that is not declined. -/
def Lands (s : SpillCache) (key : EntryKey) : SpillOp → Prop
  | .write _ key' _ => key' = key
  | .drop _ _ _ => False
  | .adoptFile threshold key' src renames =>
    key' = key ∧ (exec (SpillCache.adoptFile threshold key src renames) s).1 = .ok true
  | .delete _ => False

end SpillOp

variable {s : SpillCache} {key : EntryKey} {threshold : ℕ}

/-- What an operation keeps when nothing fails: nothing fails from then on either, and a manifest
gets no file. -/
structure Tidy (s t : SpillCache) : Prop where
  faults : t.faults = []
  manifest : ∀ key, key.name = manifestV1 → s.state.entries .blobs key = none →
    t.state.entries .blobs key = none

/-! ### The manifest -/

/-- A writer of the primary changes nothing before it is committed. -/
theorem calls_primary (s : SpillCache) (key : EntryKey) (staged accepted : List UInt8)
    (calls : List WriterCall) : ∃ staged' accepted',
    calls.foldl Writing.call ⟨.primary key staged, s.settled, accepted⟩ =
      ⟨.primary key staged', s.settled, accepted'⟩ := by
  induction calls generalizing staged accepted with
  | nil => exact ⟨staged, accepted, rfl⟩
  | cons c calls ih =>
    cases c with
    | write | flush => exact ih ..

theorem writeEntry_manifest (hkey : key.name = manifestV1) (calls : List WriterCall)
    (commits : Bool) : ∃ data, (writeEntry threshold key calls commits s.settled).cache =
      if commits then (s.update (·.put .primary key (some data))).settled else s.settled := by
  have hwriter : exec (writer threshold key) s.settled =
      (.ok (.primary key []), s.settled) := by
    rw [writer, if_pos hkey]
    rfl
  obtain ⟨staged, accepted, hcalls⟩ := calls_primary s key [] [] calls
  refine ⟨staged, ?_⟩
  rw [writeEntry, hwriter]
  simp only [hcalls]
  cases commits with
  | false | true => rfl

/-! ### One operation -/

section

variable (h : s.faults = [])

include h

theorem settled_of_faults : s.settled = s := by
  rw [Faulty.settled, ← h]

theorem tidy_refl : Tidy s s := ⟨h, fun _ _ => id⟩

theorem tidy_write (calls : List WriterCall) (commits : Bool) :
    Tidy s (writeEntry threshold key calls commits s).cache := by
  by_cases hkey : key.name = manifestV1
  · obtain ⟨data, hdata⟩ := writeEntry_manifest hkey calls commits
    rw [settled_of_faults h] at hdata
    rw [hdata]
    cases commits with
    | false => exact tidy_refl h
    | true =>
      refine ⟨rfl, fun key' _ hnone => ?_⟩
      exact hnone
  · cases writeEnd_writeEntry hkey calls commits with
    | whole hothers _ hfaults _ _ =>
      refine ⟨hfaults h, fun key' hkey' hnone => ?_⟩
      rw [hothers .blobs key' (by rintro rfl; exact hkey hkey')]
      exact hnone
    | cut _ _ _ _ hfaults => exact absurd h hfaults

theorem heldOnce_write (calls : List WriterCall)
    (hm : key.name = manifestV1 → s.state.entries .blobs key = none) :
    (writeEntry threshold key calls true s).cache.HeldOnce key := by
  by_cases hkey : key.name = manifestV1
  · obtain ⟨data, hdata⟩ := writeEntry_manifest hkey calls true
    rw [settled_of_faults h] at hdata
    rw [hdata]
    refine heldOnce_of entries_put fun backend hne => ?_
    cases backend with
    | primary => exact absurd rfl hne
    | blobs => exact hm hkey
  · cases writeEnd_writeEntry hkey calls true with
    | whole _ _ _ _ hheld => exact hheld h rfl
    | cut _ _ _ _ hfaults => exact absurd h hfaults

end

/-- What the primary has for the key goes. -/
theorem exec_dropStalePrimary : exec (dropStalePrimary key) s.settled =
    (.ok ⟨⟩, if (s.state.entries .primary key).isSome
      then (s.update (·.put .primary key none)).settled else s.settled) := by
  rw [dropStalePrimary, exec_bind, exec_mapError, Backend.exists?, exec_bind,
    exec_lookUp_settled]
  cases s.state.entries .primary key with
  | none | some => rfl

/-- What an adoption does: nothing, or the file store has the entry then and the primary has
none. -/
inductive Adopted (s : SpillCache) (key : EntryKey) : Except SpillError Bool × SpillCache → Prop
  | declined {r : Except SpillError Bool} (declined : r ≠ .ok true) : Adopted s key (r, s)
  | taken {r : Except SpillError Bool} {t : SpillCache} (data : List UInt8)
      (name : key.name ≠ manifestV1) (faults : t.faults = [])
      (blobs : t.state.entries .blobs key = some data)
      (primary : t.state.entries .primary key = none)
      (others : ∀ backend key', key' ≠ key →
        t.state.entries backend key' = s.state.entries backend key') : Adopted s key (r, t)

section

variable (h : s.faults = [])

include h

theorem adopted_adoptFile (src : Except IoError (List UInt8)) (renames : Bool) :
    Adopted s key (exec (SpillCache.adoptFile threshold key src renames) s) := by
  rw [← settled_of_faults h]
  unfold adoptFile
  split
  · exact .declined (by simp)
  next hkey =>
  cases src with
  | error e => exact .declined (by simp)
  | ok data =>
    dsimp only
    split
    · exact .declined (by simp)
    cases renames with
    | false => exact .declined (by simp)
    | true =>
      have hadopt : exec (Backend.adoptFile key data true) s.settled =
          (.ok true, (s.update (·.put .blobs key (some data))).settled) := rfl
      rw [exec_bind, hadopt]
      dsimp only
      rw [exec_bind, exec_dropStalePrimary, Faulty.state_update, entries_put_of_ne (by decide)]
      cases hprimary : s.state.entries .primary key with
      | none =>
        refine .taken data hkey rfl entries_put ?_ fun backend key' hne => ?_
        · exact (congrFun (entries_put_of_ne (by decide)) key).trans hprimary
        · exact entries_put_of_key_ne hne
      | some old =>
        refine .taken data hkey rfl ?_ entries_put fun backend key' hne => ?_
        · exact (congrFun (entries_put_of_ne (by decide)) key).trans entries_put
        · exact (entries_put_of_key_ne hne).trans (entries_put_of_key_ne hne)

theorem tidy_apply (op : SpillOp) : Tidy s (op.apply s) := by
  cases op with
  | write threshold key calls => exact tidy_write h calls true
  | drop threshold key calls => exact tidy_write h calls false
  | adoptFile threshold key src renames =>
    have hadopted : Adopted s key (exec (adoptFile threshold key src renames) s) :=
      adopted_adoptFile h src renames
    rw [SpillOp.apply]
    revert hadopted
    rcases exec (adoptFile threshold key src renames) s with ⟨r, t⟩
    intro hadopted
    cases hadopted with
    | declined _ => exact tidy_refl h
    | taken data hname hfaults _ _ hothers =>
      refine ⟨hfaults, fun key' hkey' hnone => ?_⟩
      rw [hothers .blobs key' (by rintro rfl; exact hname hkey')]
      exact hnone
  | delete key =>
    rw [← settled_of_faults h]
    refine ⟨rfl, fun key' _ hnone => ?_⟩
    rcases eq_or_ne key' key with rfl | hne
    · exact entries_put
    · exact (entries_put_of_key_ne hne).trans ((entries_put_of_key_ne hne).trans hnone)

theorem heldOnce_apply {op : SpillOp} (hlands : op.Lands s key)
    (hm : key.name = manifestV1 → s.state.entries .blobs key = none) :
    (op.apply s).HeldOnce key := by
  cases op with
  | write threshold key' calls =>
    obtain rfl : key' = key := hlands
    exact heldOnce_write h calls hm
  | drop | delete => exact hlands.elim
  | adoptFile threshold key' src renames =>
    obtain ⟨rfl, htaken⟩ := hlands
    have hadopted : Adopted s key' (exec (adoptFile threshold key' src renames) s) :=
      adopted_adoptFile h src renames
    rw [SpillOp.apply]
    revert hadopted htaken
    rcases exec (adoptFile threshold key' src renames) s with ⟨r, t⟩
    intro htaken hadopted
    cases hadopted with
    | declined hdeclined => exact absurd htaken hdeclined
    | taken data _ _ hblobs hprimary _ =>
      refine heldOnce_of hblobs fun backend hne => ?_
      cases backend with
      | primary => exact hprimary
      | blobs => exact absurd rfl hne

/-! ### Every sequence of operations -/

theorem tidy_run (ops : List SpillOp) : Tidy s (ops.foldl SpillOp.apply s) := by
  induction ops generalizing s with
  | nil => exact tidy_refl h
  | cons op ops ih =>
    have hop := tidy_apply h op
    have hops := ih hop.faults
    exact ⟨hops.faults, fun key hkey hnone => hops.manifest key hkey (hop.manifest key hkey hnone)⟩

end

/-- The lookups, when nothing fails. -/
theorem exec_seekableReader_settled :
    exec (seekableReader key) s.settled = (readOf (s.found key), s.settled) :=
  exec_primaryFirst_settled

theorem exec_exists_settled :
    exec (exists? key) s.settled = (.ok (s.found key).isSome, s.settled) := by
  have hbackend : ∀ backend : Backend, exec (backend.exists? .exists key) s.settled =
      (.ok (s.state.entries backend key).isSome, s.settled) := fun _ => rfl
  rw [exists?, exec_bind, hbackend, found]
  cases s.state.entries .primary key with
  | none => exact hbackend .blobs
  | some data => rfl

theorem exec_filePath_settled : exec (filePath key) s.settled =
    (.ok (if s.state.entries .primary key = none ∧ (s.state.entries .blobs key).isSome
      then some key else none), s.settled) := by
  have hpath : exec (Backend.filePath key) s.settled =
      (.ok (if (s.state.entries .blobs key).isSome then some key else none), s.settled) := rfl
  have hprobe : exec (Backend.primary.exists? .existsCommitted key) s.settled =
      (.ok (s.state.entries .primary key).isSome, s.settled) := rfl
  rw [filePath, exec_bind, hpath]
  cases s.state.entries .blobs key with
  | none => simp
  | some data =>
    simp only [isSome_some, if_true]
    rw [exec_tryCatch, exec_bind, hprobe]
    cases s.state.entries .primary key with
    | none => rfl
    | some old => simp

/-- **The lookups agree, and what is written is in one backend.** After any operations from any
state of the backends, `seekable_reader` returns what `reader` does, `exists` is whether that
succeeds, and the file at the path that `file_path` gives has what `reader` returns. If the last of
them was a write or an adoption of the key, exactly one backend has it, unless it is a manifest's
and the file store had it from the start. -/
theorem residency (entries₀ : Backend → CacheDb) (ops : List SpillOp) (key : EntryKey) :
    let s := ops.foldl SpillOp.apply ⟨⟨entries₀, none⟩, [], []⟩
    (exec (seekableReader key) s).1 = (exec (reader key) s).1 ∧
      (exec (exists? key) s).1 = .ok (exec (reader key) s).1.isOk ∧
      (∀ path, (exec (filePath key) s).1 = .ok (some path) →
        ∃ data, s.state.entries .blobs path = some data ∧
          (exec (reader key) s).1 = .ok data) ∧
      ∀ ops' op, ops = ops' ++ [op] →
        op.Lands (ops'.foldl SpillOp.apply ⟨⟨entries₀, none⟩, [], []⟩) key →
        (key.name = manifestV1 → entries₀ .blobs key = none) → s.HeldOnce key := by
  intro s
  have htidy : Tidy _ s := tidy_run rfl ops
  have hreader : (exec (reader key) s).1 = readOf (s.found key) := by
    rw [← settled_of_faults htidy.faults, exec_reader_settled]
    rfl
  rw [hreader]
  refine ⟨?_, ?_, fun path hpath => ?_, ?_⟩
  · rw [← settled_of_faults htidy.faults, exec_seekableReader_settled]
    rfl
  · rw [← settled_of_faults htidy.faults, exec_exists_settled]
    change _ = Except.ok (readOf (s.found key)).isOk
    cases s.found key <;> rfl
  · rw [← settled_of_faults htidy.faults, exec_filePath_settled] at hpath
    split at hpath
    · next hfile =>
      obtain rfl := some.inj (Except.ok.inj hpath)
      obtain ⟨data, hdata⟩ := isSome_iff_exists.mp hfile.2
      refine ⟨data, hdata, ?_⟩
      rw [found, hfile.1, hdata]
      rfl
    · cases Except.ok.inj hpath
  · rintro ops' op rfl hlands hm
    have htidy' : Tidy _ (ops'.foldl SpillOp.apply ⟨⟨entries₀, none⟩, [], []⟩) := tidy_run rfl ops'
    have hheld := heldOnce_apply htidy'.faults hlands fun hkey => htidy'.manifest key hkey (hm hkey)
    change HeldOnce (List.foldl SpillOp.apply _ (ops' ++ [op])) key
    rw [List.foldl_concat]
    exact hheld

/-- A blob that grows past the threshold, over an entry that both backends have. -/
theorem residency_promoted :
    (SpillOp.apply ⟨⟨fun _ _ => some [1], none⟩, [], []⟩
      (.write 2 ⟨[], [], []⟩ [.write [2, 2], .write [2]])).HeldOnce ⟨[], [], []⟩ :=
  (residency (fun _ _ => some [1]) [.write 2 ⟨[], [], []⟩ [.write [2, 2], .write [2]]]
    ⟨[], [], []⟩).2.2.2 [] _ rfl rfl (fun hkey => nomatch hkey)

/-- **The manifest is held twice.** The file store has it, and it is written to the primary. -/
theorem manifest_held_twice :
    let s := SpillOp.apply ⟨⟨fun _ _ => some [1], none⟩, [], []⟩
      (.write 8 ⟨[], [], manifestV1⟩ [.write [2]])
    s.state.entries .primary ⟨[], [], manifestV1⟩ = some [2] ∧
      s.state.entries .blobs ⟨[], [], manifestV1⟩ = some [1] ∧
      ¬ s.HeldOnce ⟨[], [], manifestV1⟩ := by
  refine ⟨rfl, rfl, ?_⟩
  rintro ⟨backend, -, hunique⟩
  have hprimary := hunique .primary rfl
  have hblobs := hunique .blobs rfl
  cases hprimary.trans hblobs.symm

end Heph
