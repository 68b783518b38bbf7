import Heph.Addr.Pkg
import Heph.Lib.Machine

/-!
# Reading a source file in place

A source file that is passed through is not stored. Its reader hashes what it hands out, and the
first time that it has **nothing to hand out** it compares the hash with the one that is recorded.
It does so once: a caller that reads on after the error is told that the file has ended
(`read_on_after_error`). And a call with an empty buffer gets nothing too, before the end: then a
part of the content is compared, and the rest never.
-/

namespace Heph.Passthrough

open List

/-- The recorded fields of a `VerifyingReader`, and the two hash functions. -/
structure Recorded where
  x : Bool
  expected : Text
  sourcePath : Text
  outPath : Text
  /-- `Xxh3`, in hex. -/
  digest : List UInt8 → Text
  fsEntryHashout : Text → Text → Text

/-- A `VerifyingReader`, with what its inner reader still has and what it has handed out. The inner
reader is one of a file that does not change: it gives at least one byte before its end if the
buffer takes one, and none after it. -/
structure VerifyingReader where
  rest : List UInt8
  delivered : List UInt8
  hasher : List UInt8
  verified : Bool
  deriving DecidableEq

inductive ReadError where
  /-- The inner reader fails. -/
  | inner
  /-- `passthrough source file '{}' was modified after it was hashed`. -/
  | modified (sourcePath got expected : Text)
  deriving DecidableEq

/-- A call: the length of its buffer, and how many bytes more than one the inner reader is ready to
hand out, if it does not fail. -/
structure Call where
  buf : ℕ
  ready : Option ℕ

variable (r : Recorded) (data : List UInt8)

/-- The recorded hashout is that of these bytes, alone or bound to the path. -/
def Recorded.Matches (bytes : List UInt8) : Prop :=
  let got := r.digest (bytes ++ [r.x.toNat.toUInt8])
  got = r.expected ∨ r.fsEntryHashout r.outPath got = r.expected

instance (bytes : List UInt8) : Decidable (r.Matches bytes) := inferInstanceAs (Decidable (_ ∨ _))

/-- `VerifyingReader::read`. -/
def VerifyingReader.read (s : VerifyingReader) (c : Call) :
    Except ReadError ℕ × VerifyingReader :=
  match c.ready with
  | none => (.error .inner, s)
  | some k =>
    let chunk := s.rest.take (min c.buf (k + 1))
    if chunk = [] then
      if s.verified then (.ok 0, s)
      else
        let hasher := s.hasher ++ [r.x.toNat.toUInt8]
        let got := r.digest hasher
        let s := { s with hasher, verified := true }
        if got ≠ r.expected ∧ r.fsEntryHashout r.outPath got ≠ r.expected then
          (.error (.modified r.sourcePath got r.expected), s)
        else (.ok 0, s)
    else
      (.ok chunk.length,
        { s with
          rest := s.rest.drop chunk.length
          delivered := s.delivered ++ chunk
          hasher := s.hasher ++ chunk })

/-- A reader of some content, and its calls. -/
def reader : Machine VerifyingReader Call where
  init := ⟨data, [], [], false⟩
  step s c := some (s.read r c).2

variable (s : VerifyingReader)

/-- **A call that can be relied on**: the end of the file is reported only if what was handed out
matches, and a modification only if the content does not. -/
def Reliable (c : Call) : Prop :=
  ((s.read r c).1 = .ok 0 → 0 < c.buf → r.Matches s.delivered) ∧
    ∀ path got expected, (s.read r c).1 = .error (.modified path got expected) → ¬r.Matches data

/-- A call that gets nothing: the first one finds what was handed out to match, if the content
does; a later one has an empty buffer, or finds it to match. -/
def Careful (c : Call) : Prop :=
  c.ready ≠ none → c.buf = 0 ∨ s.rest = [] →
    if s.verified then c.buf = 0 ∨ r.Matches s.delivered else r.Matches data → r.Matches s.delivered

/-- What every call keeps: before the comparison, what was handed out has been hashed. -/
def Hashed : Prop :=
  s.delivered ++ s.rest = data ∧ (s.verified = false → s.hasher = s.delivered)

variable {r data} {s : VerifyingReader} {c : Call}

theorem Hashed.read (h : Hashed data s) : Hashed data (s.read r c).2 := by
  rw [VerifyingReader.read]
  split
  · exact h
  · next k _ =>
    dsimp only
    split
    · split
      · exact h
      · split <;> exact ⟨h.1, fun hv => by cases hv⟩
    · refine ⟨?_, fun hv => congrArg (· ++ _) (h.2 hv)⟩
      have htake : s.rest.take (min c.buf (k + 1)) <+: s.rest := take_prefix ..
      rw [append_assoc, prefix_iff_eq_append.mp htake, h.1]

/-- A call gets nothing if it has no buffer, or at the end. -/
theorem chunk_eq_nil {k : ℕ} :
    s.rest.take (min c.buf (k + 1)) = [] ↔ c.buf = 0 ∨ s.rest = [] := by
  rw [take_eq_nil_iff, Nat.min_eq_zero_iff]
  simp

theorem reliable_iff_careful (h : Hashed data s) : Reliable r data s c ↔ Careful r data s c := by
  rw [Reliable, Careful, VerifyingReader.read]
  split
  · next hready => simp [hready]
  · next k hready =>
    dsimp only
    split
    · next hnone =>
      have hnone := chunk_eq_nil.mp hnone
      split
      · simp [hready, hnone, pos_iff_ne_zero, or_iff_not_imp_left]
      · next hv =>
        -- what is compared is the hash of what was handed out
        rw [h.2 (by simpa using hv)]
        split
        · next hno =>
          have hno : ¬r.Matches s.delivered := not_or.mpr hno
          simp [hready, hnone, hno]
        · next hyes =>
          have hyes : r.Matches s.delivered := not_not.mp (mt not_or.mp hyes)
          simp [hready, hnone, hyes]
    · next hsome => simp [hready, mt chunk_eq_nil.mpr hsome]

/-- **The verification cannot be skipped**, and does not fail without reason, in a sequence of calls
of any kind – exactly if each of them is careful. -/
theorem verified_iff (r : Recorded) (data : List UInt8) (calls : List Call) :
    (reader r data).Meets (Reliable r data) (reader r data).init calls ↔
      (reader r data).Meets (Careful r data) (reader r data).init calls := by
  have hall : ∀ s, Hashed data s → ((reader r data).Meets (Reliable r data) s calls ↔
      (reader r data).Meets (Careful r data) s calls) := by
    induction calls with
    | nil => exact fun _ _ => Iff.rfl
    | cons c calls ih =>
      exact fun s hs => and_congr (reliable_iff_careful hs) (ih _ hs.read)
  exact hall _ ⟨rfl, fun _ => rfl⟩

/-- A recorded hashout that is not the one of the content. -/
def stale : Recorded :=
  ⟨false, [], [], [], fun bytes => bytes.map fun b => Char.ofNat b.toNat, fun _ got => got⟩

/-- **Reading on after the error**: the second call finds the content modified, and the third one
reports the end. -/
theorem read_on_after_error :
    let s := (VerifyingReader.read stale ⟨[7], [], [], false⟩ ⟨1, some 0⟩).2
    let (e, s') := s.read stale ⟨1, some 0⟩
    e = .error (.modified [] [Char.ofNat 7, Char.ofNat 0] []) ∧
      (s'.read stale ⟨1, some 0⟩).1 = .ok 0 ∧ ¬stale.Matches s'.delivered := by
  decide

end Heph.Passthrough
