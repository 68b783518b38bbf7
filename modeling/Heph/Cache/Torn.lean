import Heph.Cache.Spilling

/-!
# What a write leaves behind

Whatever fails while a blob is written, a reader that comes when the writer is gone should be told
that there is no such entry, or be given the whole of something that was committed. **It may be
given a part of a blob that never was.** A promotion commits what is staged to the primary, and is
to delete it there when it has been copied; when one of the steps after the commit fails, what is
staged stays (`staged_part_served`).

It is the only way: if no step of a promotion fails after its commit, nothing torn is left, whatever
else fails (`whole_iff`).
-/

namespace Heph

/-- **Whole.** Once the writer is gone, a reader is told that there is no such entry, or is given
what a backend had before, or all that the writer has taken and committed. -/
def Whole (entries₀ : Backend → CacheDb) (key : EntryKey) (w : Written) : Prop :=
  match (exec (SpillCache.reader key) w.cache.settled).1 with
  | .ok data => (∃ backend, entries₀ backend key = some data) ∨
      w.committed = true ∧ data = w.accepted
  | .error e => e = .notFound

/-- **What a write leaves is whole exactly if no promotion fails after its commit**, or if what it
has staged is just what a backend had. -/
theorem whole_iff (entries₀ : Backend → CacheDb) (faults : List Bool) (threshold : ℕ)
    (key : EntryKey) (hkey : key.name ≠ manifestV1) (calls : List WriterCall) (commits : Bool) :
    let w := writeEntry threshold key calls commits ⟨⟨entries₀, none⟩, faults, []⟩
    Whole entries₀ key w ↔ ∀ op ∈ w.cache.failed, op.Promotes →
      ∃ staged backend, w.cache.state.promoted = some staged ∧
        entries₀ backend key = some staged := by
  intro w
  have hend : WriteEnd ⟨⟨entries₀, none⟩, faults, []⟩ key commits w :=
    writeEnd_writeEntry hkey calls commits
  rw [Whole, exec_reader_settled]
  cases hend with
  | whole _ hfailed _ hfound _ =>
    refine iff_of_true ?_ fun op hop hpromotes => ?_
    · cases hdata : w.cache.found key with
      | none => rfl
      | some data => exact hfound data hdata
    · rcases hfailed op hop with hmem | hnot
      · cases hmem
      · exact absurd hpromotes hnot
  | @cut staged hcommitted hpromoted hfound hfailed _ =>
    obtain ⟨op, hop, hpromotes⟩ := hfailed
    rw [hfound, hpromoted, hcommitted]
    constructor
    · rintro (⟨backend, hbackend⟩ | ⟨hcommitted, -⟩) - - -
      · exact ⟨staged, backend, rfl, hbackend⟩
      · cases hcommitted
    · intro h
      obtain ⟨staged', backend, hstaged, hbackend⟩ := h op hop hpromotes
      cases hstaged
      exact .inl ⟨backend, hbackend⟩

/-- One write after another that goes to the primary, and one that fails there. What was taken is
committed. -/
theorem whole_iff_committed : Whole (fun _ _ => none) ⟨[], [], []⟩
    (writeEntry 8 ⟨[], [], []⟩ [.write [1], .write [2], .write [3]] true
      ⟨⟨fun _ _ => none, none⟩, [false, false, false, true], []⟩) :=
  (whole_iff _ _ 8 ⟨[], [], []⟩ (by decide) _ true).mpr fun op hop hpromotes =>
    absurd hpromotes
      ((by decide : ∀ op ∈ [(⟨.primary, .write⟩ : BackendOp)], ¬ op.Promotes) op hop)

/-- **A part of a blob is served.** The blob is promoted with its second write, and the file cannot
be created. The third write fails too, and so does the commit; a reader is given what was staged. -/
theorem staged_part_served :
    let w := writeEntry 2 ⟨[], [], []⟩ [.write [1, 2], .write [3], .write [4]] true
      ⟨⟨fun _ _ => none, none⟩, [false, false, false, false, false, false, true], []⟩
    w.committed = false ∧ w.cache.failed = [⟨.blobs, .writer⟩] ∧
      (exec (SpillCache.reader ⟨[], [], []⟩) w.cache.settled).1 = .ok [1, 2, 3] ∧
      ¬ Whole (fun _ _ => none) ⟨[], [], []⟩ w := by
  refine ⟨rfl, rfl, rfl, ?_⟩
  rintro (⟨_, hnone⟩ | ⟨hcommitted, -⟩)
  · cases hnone
  · cases hcommitted

end Heph
