import Heph.Cache.Spill

/-!
# The phases of a write

A blob that is written is staged for the primary until it is promoted, and for the file store from
then on. When something fails it is staged nowhere: the promotion has failed, and what it has done
depends on how far it came (`WritePhase`). Up to its commit it has changed nothing; after that,
what was staged is in the primary (`WritePhase.cut`).

Every call on the writer leads from one phase to another, and so there are two ways to end
(`WriteEnd`). That is shown once here, for a tape that says what fails, and the tape may be
empty.
-/

namespace Heph

open SpillCache Faulty SpillWriter Option List

/-- **The operations of a promotion that come after its commit.** -/
def BackendOp.Promotes (op : BackendOp) : Prop :=
  op ∈ [⟨.blobs, .writer⟩, ⟨.primary, .reader⟩, ⟨.blobs, .copy⟩, ⟨.primary, .delete⟩]

instance : DecidablePred BackendOp.Promotes := fun op =>
  inferInstanceAs (Decidable (op ∈ ([⟨.blobs, .writer⟩, _, _, _] : List BackendOp)))

/-- A write that no promotion has spoilt: the other keys are as they were, the file store has
nothing for this one but what it had, and if nothing was to fail nothing is. -/
structure Unbroken (s₀ : SpillCache) (key : EntryKey) (s : SpillCache) : Prop where
  others : ∀ backend key', key' ≠ key →
    s.state.entries backend key' = s₀.state.entries backend key'
  blobs : s.state.entries .blobs key = none ∨
    s.state.entries .blobs key = s₀.state.entries .blobs key
  failed : ∀ op ∈ s.failed, op ∈ s₀.failed ∨ ¬ op.Promotes
  faults : s₀.faults = [] → s.faults = []

/-- The writer is open. A file of the key is gone, unless something was to fail. -/
structure Underway (s₀ : SpillCache) (key : EntryKey) (s : SpillCache) : Prop
    extends Unbroken s₀ key s where
  cleared : s₀.faults = [] → s.state.entries .blobs key = none

/-- **Where a write is** that has taken these bytes. -/
inductive WritePhase (s₀ : SpillCache) (key : EntryKey) (accepted : List UInt8) :
    SpillWriter × SpillCache → Prop
  /-- They are staged for the primary. -/
  | primary {threshold size : ℕ} {s : SpillCache} (underway : Underway s₀ key s)
      (primary : s.state.entries .primary key = s₀.state.entries .primary key) :
      WritePhase s₀ key accepted (⟨key, threshold, size, some accepted, none⟩, s)
  /-- They are staged for the file store, unless a write has failed there. -/
  | blobs {threshold size : ℕ} {b : BlobWriter} {s : SpillCache} (underway : Underway s₀ key s)
      (primary : s.state.entries .primary key = none)
      (staged : b.failed = false → b.staged = accepted)
      (failed : s₀.faults = [] → b.failed = false) :
      WritePhase s₀ key accepted (⟨key, threshold, size, none, some b⟩, s)
  /-- A promotion has failed before, or with, its commit. -/
  | lost {threshold size : ℕ} {s : SpillCache} (underway : Underway s₀ key s)
      (primary : s.state.entries .primary key = s₀.state.entries .primary key)
      (faults : s₀.faults ≠ []) :
      WritePhase s₀ key accepted (⟨key, threshold, size, none, none⟩, s)
  /-- A promotion has failed after its commit. -/
  | cut {threshold size : ℕ} {s : SpillCache} {staged : List UInt8}
      (promoted : s.state.promoted = some staged)
      (primary : s.state.entries .primary key = some staged)
      (failed : ∃ op ∈ s.failed, op.Promotes) (faults : s₀.faults ≠ []) :
      WritePhase s₀ key accepted (⟨key, threshold, size, none, none⟩, s)

variable {s₀ s : SpillCache} {key : EntryKey} {op : BackendOp} {accepted staged data : List UInt8}
  {threshold size : ℕ} {w : SpillWriter} {writing : Writing} {commits committed : Bool}

section

variable (h : Unbroken s₀ key s)

include h

theorem Unbroken.next : Unbroken s₀ key s.next := by
  refine ⟨h.others, h.blobs, h.failed, fun hnil => ?_⟩
  rw [Faulty.next, h.faults hnil]
  rfl

theorem Unbroken.ne_nil (hne : s.faults ≠ []) : s₀.faults ≠ [] :=
  fun hnil => hne (h.faults hnil)

theorem Unbroken.fail (hne : s.faults ≠ []) (hop : ¬ op.Promotes) :
    Unbroken s₀ key (s.fail op) := by
  refine ⟨h.others, h.blobs, fun op' hop' => ?_, fun hnil => absurd hnil (h.ne_nil hne)⟩
  rcases mem_append.mp hop' with hop' | hop'
  · exact h.failed op' hop'
  · rw [mem_singleton.mp hop']
    exact .inr hop

end

section

variable (h : Underway s₀ key s)

include h

theorem Underway.next : Underway s₀ key s.next :=
  ⟨h.toUnbroken.next, h.cleared⟩

theorem Underway.fail (hne : s.faults ≠ []) (hop : ¬ op.Promotes) :
    Underway s₀ key (s.fail op) :=
  ⟨h.toUnbroken.fail hne hop, h.cleared⟩

/-- A change of the primary. -/
theorem Underway.put_primary {entry : Option (List UInt8)} :
    Underway s₀ key (s.update (·.put .primary key entry)) := by
  refine ⟨⟨fun backend key' hne => ?_, ?_, h.failed, h.faults⟩, ?_⟩
  · rw [state_update, entries_put_of_key_ne hne]
    exact h.others backend key' hne
  · exact h.blobs
  · exact h.cleared

end

/-! ### A promotion -/

/-- What a promotion has committed is in the primary. -/
structure Staged (s₀ : SpillCache) (key : EntryKey) (staged : List UInt8) (s : SpillCache) : Prop
    extends Underway s₀ key s where
  promoted : s.state.promoted = some staged
  primary : s.state.entries .primary key = some staged

section

variable (h : Staged s₀ key staged s)

include h

theorem Staged.next : Staged s₀ key staged s.next :=
  ⟨h.toUnderway.next, h.promoted, h.primary⟩

/-- There it stays when the promotion fails. -/
theorem Staged.cut (hne : s.faults ≠ []) (hop : op.Promotes) :
    WritePhase s₀ key accepted (⟨key, threshold, size, none, none⟩, s.fail op) :=
  .cut h.promoted h.primary ⟨op, by simp [Faulty.fail], hop⟩ (h.ne_nil hne)

/-- What a promotion leads to: what is staged is on its way to the file store, or the promotion has
failed. -/
def Promoted (s₀ : SpillCache) (key : EntryKey) (staged : List UInt8) :
    Except SpillError PUnit → SpillWriter × SpillCache → Prop :=
  ByResult (fun _ t => WritePhase s₀ key staged t)
    fun _ t => ∀ accepted, WritePhase s₀ key accepted t

theorem ensures_migrate :
    Ensures (migrate ⟨key, threshold, size, none, none⟩)
      (⟨key, threshold, size, none, none⟩, s) (Promoted s₀ key staged) := by
  refine ensures_call_bind ?_ fun hne _ _ => h.cut hne (by decide)
  refine ensures_reader_bind h.primary ?_ fun hne _ _ => h.next.cut hne (by decide)
  refine ensures_call_bind ?_ fun hne _ _ => h.next.next.cut hne (by decide)
  refine ensures_change_bind ?_ fun hne _ _ => h.next.next.next.cut hne (by decide)
  exact .blobs h.next.next.next.next.put_primary entries_put (fun _ => rfl) fun _ => rfl

end

theorem ensures_spill (h : Underway s₀ key s)
    (hp : s.state.entries .primary key = s₀.state.entries .primary key) :
    Ensures spill (⟨key, threshold, size, some staged, none⟩, s)
      (Promoted s₀ key staged) := by
  refine ensures_call_bind ?_ fun hne _ _ => .lost (h.fail hne (by decide)) hp (h.ne_nil hne)
  refine ensures_change_bind ?_ fun hne _ _ =>
    .lost (h.next.fail hne (by decide)) hp (h.next.ne_nil hne)
  have hcommitted : (s.state.put .primary key (some staged)).entries .primary key = some staged :=
    entries_put
  have hunderway : Underway s₀ key (s.next.next.update (·.put .primary key (some staged))) :=
    h.next.next.put_primary
  exact ensures_modify_bind (ensures_migrate ⟨⟨⟨hunderway.others, hunderway.blobs, hunderway.failed,
    hunderway.faults⟩, hunderway.cleared⟩, rfl, hcommitted⟩)

/-! ### The calls -/

section

variable (h : WritePhase s₀ key accepted (w, s))

include h

theorem ensures_write :
    Ensures (write data) (w, s)
      (ByResult (fun n t => WritePhase s₀ key (accepted ++ data.take n) t)
        fun _ t => WritePhase s₀ key accepted t) := by
  have hall : data.take data.length = data := take_length
  refine ensures_self_bind ?_
  cases h with
  | primary hunderway hp =>
    refine ensures_call_bind ?_ fun hne _ => .primary (hunderway.fail hne (by decide)) hp
    refine ensures_setSelf_bind ?_
    split
    · refine ensures_bind ((ensures_spill hunderway.next hp).imp ?_)
      rintro (e | u) t ht
      · exact ht accepted
      · change WritePhase s₀ key (accepted ++ data.take data.length) t
        rw [hall]
        exact ht
    · change WritePhase s₀ key (accepted ++ data.take data.length) _
      rw [hall]
      exact .primary hunderway.next hp
  | blobs hunderway hp hstaged hfailed =>
    refine ensures_bind (ensures_blobCall ?_ fun hne _ => ?_)
    · change WritePhase s₀ key (accepted ++ data.take data.length) _
      rw [hall]
      exact .blobs hunderway.next hp (fun hb => congrArg (· ++ data) (hstaged hb)) hfailed
    · exact .blobs (hunderway.fail hne (by decide)) hp (fun hb => nomatch hb)
        fun hnil => absurd hnil (hunderway.ne_nil hne)
  | lost hunderway hp hfaults => exact .lost hunderway hp hfaults
  | cut hpromoted hp hfailed hfaults => exact .cut hpromoted hp hfailed hfaults

theorem ensures_flush :
    Ensures flush (w, s) fun _ t => WritePhase s₀ key accepted t := by
  refine ensures_self_bind ?_
  cases h with
  | primary hunderway hp =>
    refine ensures_onSnd (ensures_call ?_ fun hne _ => ?_)
    · exact .primary hunderway.next hp
    · exact .primary (hunderway.fail hne (by decide)) hp
  | blobs hunderway hp hstaged hfailed =>
    refine ensures_blobCall ?_ fun hne _ => ?_
    · exact .blobs hunderway.next hp hstaged hfailed
    · exact .blobs (hunderway.fail hne (by decide)) hp (fun hb => nomatch hb)
        fun hnil => absurd hnil (hunderway.ne_nil hne)
  | lost hunderway hp hfaults => exact .lost hunderway hp hfaults
  | cut hpromoted hp hfailed hfaults => exact .cut hpromoted hp hfailed hfaults

/-- One call on the writer. -/
theorem ensures_spillCall {c : WriterCall} :
    Ensures (EntryWriter.spillCall c) (w, s)
      (ByResult (fun n t => WritePhase s₀ key (accepted ++ c.data.take n) t)
        fun _ t => WritePhase s₀ key accepted t) := by
  cases c with
  | write data => exact ensures_write h
  | flush =>
    refine ensures_bind ((ensures_flush h).imp ?_)
    rintro (e | u) t ht
    · exact ht
    · change WritePhase s₀ key (accepted ++ []) t
      rwa [append_nil]

end

theorem WritePhase.call (hw : writing.writer = .spill w)
    (h : WritePhase s₀ key writing.accepted (w, writing.cache)) (c : WriterCall) :
    ∃ w', (writing.call c).writer = .spill w' ∧
      WritePhase s₀ key (writing.call c).accepted (w', (writing.call c).cache) := by
  have hcall := ensures_spillCall (c := c) h
  rw [Ensures] at hcall
  rw [Writing.call, hw]
  simp only [EntryWriter.call]
  revert hcall
  rcases exec (EntryWriter.spillCall c) (w, writing.cache) with ⟨e | n, w', cache⟩ <;> intro hcall
  · exact ⟨w', rfl, hcall⟩
  · exact ⟨w', rfl, hcall⟩

theorem WritePhase.calls (hw : writing.writer = .spill w)
    (h : WritePhase s₀ key writing.accepted (w, writing.cache)) (calls : List WriterCall) :
    ∃ w', (calls.foldl Writing.call writing).writer = .spill w' ∧
      WritePhase s₀ key (calls.foldl Writing.call writing).accepted
        (w', (calls.foldl Writing.call writing).cache) := by
  induction calls generalizing writing w with
  | nil => exact ⟨w, hw, h⟩
  | cons c calls ih =>
    obtain ⟨w', hw', h'⟩ := h.call hw c
    exact ih hw' h'

/-! ### Opening the writer -/

theorem unbroken_refl : Unbroken s key s :=
  ⟨fun _ _ _ => rfl, .inr rfl, fun _ hop => .inl hop, id⟩

/-- A file of the key is deleted. -/
theorem Unbroken.delete_blobs (h : Unbroken s₀ key s) :
    Unbroken s₀ key (s.update (·.put .blobs key none)) := by
  refine ⟨fun backend key' hne => ?_, .inl entries_put, h.failed, h.faults⟩
  rw [state_update, entries_put_of_key_ne hne]
  exact h.others backend key' hne

/-- Whatever becomes of it, no more than a file of the key is gone. -/
theorem ensures_dropStaleBlob : Ensures (dropStaleBlob key) s fun r t =>
    Unbroken s key t ∧ t.state.entries .primary key = s.state.entries .primary key ∧
      (s.faults = [] → t.state.entries .blobs key = none) ∧ (s.faults = [] → r = .ok ⟨⟩) := by
  refine ensures_bind (ensures_filePath (fun hnone => ?_) (fun _ => ?_) fun hne => ?_)
  · exact ⟨unbroken_refl.next, rfl, fun _ => hnone, fun _ => rfl⟩
  · rw [byResult_ok]
    refine ensures_mapError (ensures_change ?_ fun hne _ => ?_)
    · refine ⟨unbroken_refl.next.next.delete_blobs, ?_, fun _ => entries_put, fun _ => rfl⟩
      rfl
    · have hunbroken : Unbroken s key s.next := unbroken_refl.next
      exact ⟨hunbroken.fail hne (by decide), rfl, fun hnil => absurd hnil (hunbroken.ne_nil hne),
        fun hnil => absurd hnil (hunbroken.ne_nil hne)⟩
  · exact ⟨unbroken_refl.fail hne (by decide), rfl, fun hnil => absurd hnil hne,
      fun hnil => absurd hnil hne⟩

/-- The writer is opened. -/
theorem ensures_writer (hkey : key.name ≠ manifestV1) :
    Ensures (writer threshold key) s
      (ByResult (fun writer t => ∃ w, writer = .spill w ∧ WritePhase s key [] (w, t))
        fun _ t => Unbroken s key t ∧
          t.state.entries .primary key = s.state.entries .primary key ∧ s.faults ≠ []) := by
  rw [writer, if_neg hkey]
  refine ensures_bind (ensures_dropStaleBlob.imp ?_)
  rintro (e | u) t ⟨ht, hp, hcleared, hok⟩
  · exact ⟨ht, hp, fun hnil => nomatch hok hnil⟩
  · rw [byResult_ok]
    refine ensures_bind (ensures_mapError (ensures_call ?_ fun hne _ => ?_))
    · exact ⟨_, rfl, .primary ⟨ht.next, hcleared⟩ hp⟩
    · exact ⟨ht.fail hne (by decide), hp, ht.ne_nil hne⟩

/-! ### The end of a write -/

/-- What is found is what a backend had. -/
theorem Unbroken.had (h : Unbroken s₀ key s) (hp : s.state.entries .primary key = none ∨
    s.state.entries .primary key = s₀.state.entries .primary key)
    (hfound : s.found key = some data) :
    ∃ backend, s₀.state.entries backend key = some data := by
  rcases or_eq_some_iff.mp hfound with hprimary | ⟨-, hblobs⟩
  · rcases hp with hp | hp
    · cases hp.symm.trans hprimary
    · exact ⟨.primary, hp.symm.trans hprimary⟩
  · rcases h.blobs with hb | hb
    · cases hb.symm.trans hblobs
    · exact ⟨.blobs, hb.symm.trans hblobs⟩

/-- **What a write leaves**: the whole of something, or the part that a promotion has staged. If
nothing was to fail and the writer was committed, exactly one backend has the entry. -/
inductive WriteEnd (s₀ : SpillCache) (key : EntryKey) (commits : Bool) : Written → Prop
  | whole {w : Written}
      (others : ∀ backend key', key' ≠ key →
        w.cache.state.entries backend key' = s₀.state.entries backend key')
      (failed : ∀ op ∈ w.cache.failed, op ∈ s₀.failed ∨ ¬ op.Promotes)
      (faults : s₀.faults = [] → w.cache.faults = [])
      (found : ∀ data, w.cache.found key = some data →
        (∃ backend, s₀.state.entries backend key = some data) ∨
          w.committed = true ∧ data = w.accepted)
      (held : s₀.faults = [] → commits = true → w.cache.HeldOnce key) :
      WriteEnd s₀ key commits w
  | cut {w : Written} {staged : List UInt8} (committed : w.committed = false)
      (promoted : w.cache.state.promoted = some staged) (found : w.cache.found key = some staged)
      (failed : ∃ op ∈ w.cache.failed, op.Promotes) (faults : s₀.faults ≠ []) :
      WriteEnd s₀ key commits w

/-- Nothing has been committed. -/
theorem Unbroken.writeEnd (h : Unbroken s₀ key s) (hp : s.state.entries .primary key = none ∨
    s.state.entries .primary key = s₀.state.entries .primary key)
    (hcommits : s₀.faults = [] → commits = false) :
    WriteEnd s₀ key commits ⟨s, accepted, committed⟩ := by
  refine .whole h.others h.failed h.faults (fun _ hdata => .inl (h.had hp hdata)) ?_
  intro hnil htrue
  cases (hcommits hnil).symm.trans htrue

/-- The entry has been committed to a backend. -/
theorem Underway.writeEnd_put {backend : Backend} (h : Underway s₀ key s)
    (hfound : found (s.update (·.put backend key (some accepted))) key = some accepted)
    (hother : s₀.faults = [] → ∀ backend', backend' ≠ backend →
      s.state.entries backend' key = none) :
    WriteEnd s₀ key commits ⟨s.update (·.put backend key (some accepted)), accepted, true⟩ := by
  refine .whole (fun backend' key' hne => ?_) h.failed h.faults (fun data hdata => ?_) ?_
  · rw [state_update, entries_put_of_key_ne hne]
    exact h.others backend' key' hne
  · exact .inr ⟨rfl, some.inj (hdata.symm.trans hfound)⟩
  · intro hnil _
    refine heldOnce_of entries_put fun backend' hne => ?_
    rw [state_update, entries_put_of_ne hne]
    exact hother hnil backend' hne

/-- A writer that is dropped, or that has nothing to commit. -/
theorem WritePhase.dropped (h : WritePhase s₀ key accepted (w, s))
    (hcommits : s₀.faults = [] → commits = false) :
    WriteEnd s₀ key commits ⟨s, accepted, false⟩ := by
  cases h with
  | primary hunderway hp => exact hunderway.writeEnd (.inr hp) hcommits
  | blobs hunderway hp hstaged => exact hunderway.writeEnd (.inl hp) hcommits
  | lost hunderway hp => exact hunderway.writeEnd (.inr hp) hcommits
  | cut hpromoted hp hfailed hfaults =>
    exact .cut rfl hpromoted (by rw [found, hp]; rfl) hfailed hfaults

/-- A writer that is committed. -/
theorem ensures_commit (h : WritePhase s₀ key accepted (w, s)) :
    Ensures w.commit s (ByResult (fun _ s' => WriteEnd s₀ key true ⟨s', accepted, true⟩)
      fun _ s' => WriteEnd s₀ key true ⟨s', accepted, false⟩) := by
  have hdropped : s₀.faults ≠ [] → WriteEnd s₀ key true ⟨s, accepted, false⟩ := fun hne =>
    h.dropped fun hnil => absurd hnil hne
  cases h with
  | primary hunderway hp =>
    refine ensures_mapError (ensures_change ?_ fun hne _ => ?_)
    · refine hunderway.next.writeEnd_put ?_ fun hnil backend' hne => ?_
      · rw [found, state_update, entries_put, some_or]
      · cases backend' with
        | primary => exact absurd rfl hne
        | blobs => exact hunderway.cleared hnil
    · exact (hunderway.fail hne (by decide)).writeEnd (.inr hp) fun hnil =>
        absurd hnil (hunderway.ne_nil hne)
  | @blobs _ _ b _ hunderway hp hstaged hfailed =>
    refine ensures_mapError ?_
    cases hb : b.failed with
    | true =>
      refine hdropped fun hnil => ?_
      rw [hfailed hnil] at hb
      cases hb
    | false =>
      rw [hstaged hb]
      refine ensures_change ?_ fun hne _ => ?_
      · refine hunderway.next.writeEnd_put ?_ fun _ backend' hne => ?_
        · rw [found, state_update, entries_put_of_ne (by decide),
            state_next, hp, entries_put, none_or]
        · cases backend' with
          | primary => exact hp
          | blobs => exact absurd rfl hne
      · exact (hunderway.fail hne (by decide)).writeEnd (.inl hp) fun hnil =>
          absurd hnil (hunderway.ne_nil hne)
  | lost hunderway hp hfaults => exact hdropped hfaults
  | cut hpromoted hp hfailed hfaults => exact hdropped hfaults

theorem WritePhase.finish (hw : writing.writer = .spill w)
    (h : WritePhase s₀ key writing.accepted (w, writing.cache)) (commits : Bool) :
    WriteEnd s₀ key commits (writing.finish commits) := by
  cases commits with
  | false => exact h.dropped fun _ => rfl
  | true =>
    have hcommit := ensures_commit h
    rw [Ensures] at hcommit
    rw [Writing.finish, hw, EntryWriter.commit]
    revert hcommit
    rcases exec w.commit writing.cache with ⟨e | u, cache⟩ <;> intro hcommit
    · exact hcommit
    · exact hcommit

/-- **A whole write**, of a key other than the manifest's. -/
theorem writeEnd_writeEntry (hkey : key.name ≠ manifestV1) (calls : List WriterCall)
    (commits : Bool) : WriteEnd s key commits (writeEntry threshold key calls commits s) := by
  have hwriter : Ensures (writer threshold key) s _ := ensures_writer hkey
  rw [Ensures] at hwriter
  rw [writeEntry]
  revert hwriter
  rcases exec (writer threshold key) s with ⟨e | writer, cache⟩ <;> intro hwriter
  · obtain ⟨hunbroken, hp, hne⟩ := hwriter
    exact hunbroken.writeEnd (.inr hp) fun hnil => absurd hnil hne
  · obtain ⟨w, rfl, hphase⟩ := hwriter
    obtain ⟨w', hw', hphase'⟩ :=
      WritePhase.calls (show (⟨.spill w, cache, []⟩ : Writing).writer = .spill w from rfl)
        hphase calls
    exact hphase'.finish hw' commits

end Heph
