import Heph.Lib.Outlast
import Heph.Redact.Secrets

/-!
# Whether the chunks matter

The longest secret is tried first, so that a secret that contains another one is replaced whole.
In a stream that only works if the longer one is complete when the shorter one is. If it is not,
the shorter one is replaced as soon as it is there, **what is left of the longer one is printed**,
and the same stream has another result if it comes in other chunks.

It takes two secrets for that, of which the one that is tried first goes on after the other has
ended, in some text where they overlap (`Outlasts`). A secret that begins like a longer one is
such a case, and so is one whose end is the beginning of one that is at least as long. For the
secrets that cannot overlap the marker, it is the only case (`Needles.redact_chunks_iff`).
-/

namespace Heph.Needles

open Addr Needles

variable {N : Needles}

/-- **No secret outlasts one that is tried after it.** -/
def NoneOutlasts (N : Needles) : Prop := N.needles.Pairwise fun k n => ¬ ∃ a, Outlasts k n a

instance (N : Needles) : Decidable N.NoneOutlasts :=
  inferInstanceAs (Decidable (N.needles.Pairwise _))

theorem longestFirst (N : Needles) : LongestFirst N.needles := by
  refine N.ordered.imp fun {k n} h => ⟨?_, ?_⟩
  · rcases h with h | h <;> omega
  · rintro rfl
    exact lt_irrefl _ (needleKey_lt.mpr h)

/-- One chunk is scrubbed as a whole. -/
theorem redact_singleton (hN : N.NoOverlap) (c : List UInt8) :
    N.redact [c] = scrubAll redactMarker N.needles c := by
  have hstreams := streams_redact N [c]
  exact hstreams.eq_of_singleton hN

/-- **The result is the same for all the ways to cut a stream into chunks, for every stream,
exactly if no secret outlasts one that is tried after it** – if no secret overlaps the marker. -/
theorem redact_chunks_iff (N : Needles) (hN : N.NoOverlap) :
    (∀ cs cs' : List (List UInt8), cs.flatten = cs'.flatten → N.redact cs = N.redact cs') ↔
      N.NoneOutlasts := by
  have hpair : N.NoneOutlasts ↔ N.needles.Pairwise fun k n => ∀ a, ¬ Outlasts k n a := by
    simp only [NoneOutlasts, not_exists]
  rw [hpair]
  constructor
  · intro hsame
    by_contra hlast
    obtain ⟨x, y, hne⟩ := Streams.exists_ne hN N.longestFirst hlast
    refine hne _ (streams_redact N [x, y]) ?_
    rw [hsame [x, y] [x ++ y] (by simp), redact_singleton hN]
  · intro hlast cs cs' hflat
    have heq (cs : List (List UInt8)) :
        N.redact cs = scrubAll redactMarker N.needles cs.flatten :=
      (streams_redact N cs).eq_scrubAll hN hlast
    rw [heq cs, heq cs', hflat]

/-- Two secrets that begin differently, one of them with brackets, and the stream as it comes and
as a whole. -/
theorem redact_chunks_iff_apart :
    ∃ N, new ["pass[word]x".toList, "abcdefgh".toList] = some N ∧
      N.redact [utf8 "pass[wo".toList, utf8 "rd]x".toList] =
        N.redact [utf8 "pass[word]x".toList] := by
  have hnew : ∃ N, new ["pass[word]x".toList, "abcdefgh".toList] = some N ∧ N.NoOverlap ∧
      N.NoneOutlasts := ⟨_, rfl, by decide, by decide⟩
  obtain ⟨N, hnew, hN, hlast⟩ := hnew
  exact ⟨N, hnew, (redact_chunks_iff N hN).mpr hlast _ _ rfl⟩

/-- **The longer secret is cut where the shorter one ends**, and its rest is printed. -/
theorem longer_secret_printed :
    (new ["abcdefgh".toList, "abcdefghijkl".toList]).map (fun N =>
      (N.redact [utf8 "abcdefgh".toList, utf8 "ijkl".toList],
        N.redact [utf8 "abcdefghijkl".toList])) =
      some (utf8 "[redacted]ijkl".toList, utf8 "[redacted]".toList) := by
  decide +kernel

end Heph.Needles
