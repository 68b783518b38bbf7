import Heph.Lib.Replace
import Heph.Addr.Addr

/-!
# The redactor

What a target prints passes through a redactor, which replaces the secrets of the target by a
marker. The secrets are tried one after the other, the longest first (`Needles`). What is read
comes in chunks, and a secret may be cut in two; so the end of a chunk is **held back** as long as
it may be the beginning of a secret (`Redactor.partialTail`).
-/

namespace Heph

open List Option

/-- `REDACT_MIN_LEN`: a secret that is shorter is not replaced. -/
def redactMinLen : ℕ := 8

/-- `MARKER`. -/
def redactMarker : List UInt8 := Addr.utf8 "[redacted]".toList

/-! ### The secrets -/

/-- The order of the secrets: the longer one first, and else as bytes are ordered. -/
def NeedleBefore (k n : List UInt8) : Prop :=
  n.length < k.length ∨ n.length = k.length ∧ k.map UInt8.toNat < n.map UInt8.toNat

/-- `Needles`: there are some, they are long enough, and they are in order. -/
structure Needles where
  needles : List (List UInt8)
  ne_nil : needles ≠ []
  long : ∀ n ∈ needles, redactMinLen ≤ n.length
  ordered : needles.Pairwise NeedleBefore

/-- What the secrets are sorted by. -/
def needleKey (n : List UInt8) : ℕᵒᵈ ×ₗ List ℕ :=
  toLex (OrderDual.toDual n.length, n.map UInt8.toNat)

theorem needleKey_lt {k n : List UInt8} : needleKey k < needleKey n ↔ NeedleBefore k n := by
  simp [needleKey, NeedleBefore, Prod.Lex.toLex_lt_toLex, eq_comm]

/-- The secrets, in order and each of them once. -/
def sortNeedles (raw : List (List UInt8)) : List (List UInt8) :=
  (raw.insertionSort fun a b => needleKey a ≤ needleKey b).destutter (· ≠ ·)

theorem mem_of_mem_sortNeedles {raw : List (List UInt8)} {n : List UInt8}
    (h : n ∈ sortNeedles raw) : n ∈ raw :=
  (mem_insertionSort _).mp ((destutter_sublist _ _).mem h)

theorem sortNeedles_ne_nil {raw : List (List UInt8)} (h : raw ≠ []) : sortNeedles raw ≠ [] := by
  rw [sortNeedles, Ne, destutter_eq_nil, ← length_eq_zero_iff,
    (perm_insertionSort _ raw).length_eq, length_eq_zero_iff]
  exact h

theorem pairwise_sortNeedles (raw : List (List UInt8)) :
    (sortNeedles raw).Pairwise NeedleBefore := by
  have : Trans NeedleBefore NeedleBefore NeedleBefore :=
    ⟨fun h h' => needleKey_lt.mp ((needleKey_lt.mpr h).trans (needleKey_lt.mpr h'))⟩
  have hle : (sortNeedles raw).Pairwise fun a b => needleKey a ≤ needleKey b :=
    (pairwise_insertionSort _ raw).sublist (destutter_sublist _ _)
  have hne : (sortNeedles raw).IsChain (· ≠ ·) := isChain_destutter _ _
  refine isChain_iff_pairwise.mp (isChain_iff_getElem.mpr fun i hi => ?_)
  have hle' := isChain_iff_getElem.mp hle.isChain i hi
  have hne' := isChain_iff_getElem.mp hne i hi
  refine needleKey_lt.mp (lt_of_le_of_ne hle' fun heq => hne' ?_)
  exact map_injective_iff.mpr (fun _ _ => UInt8.toNat_inj.mp)
    (congrArg (fun p => (ofLex p).2) heq)

/-- `Needles::new`. -/
def Needles.new (values : List Text) : Option Needles :=
  let raw := (values.map Addr.utf8).filter fun v => redactMinLen ≤ v.length
  if h : raw = [] then none
  else some ⟨sortNeedles raw, sortNeedles_ne_nil h,
    fun _ hn => of_decide_eq_true (List.mem_filter.mp (mem_of_mem_sortNeedles hn)).2,
    pairwise_sortNeedles raw⟩

/-! ### Replacing -/

/-- `Finder::find`: the first position of the needle. -/
def findNeedle (needle : List UInt8) : List UInt8 → Option ℕ
  | [] => if needle = [] then some 0 else none
  | b :: x => if needle <+: b :: x then some 0 else (findNeedle needle x).map (· + 1)

theorem findNeedle_none {needle x : List UInt8} (h : findNeedle needle x = none) :
    ¬ needle <:+: x := by
  induction x with
  | nil =>
    rw [infix_nil]
    rintro rfl
    cases h
  | cons b x ih =>
    rw [findNeedle] at h
    split at h
    · cases h
    · next hb =>
      rw [infix_cons_iff]
      rintro (hpre | hinf)
      · exact hb hpre
      · exact ih (map_eq_none_iff.mp h) hinf

/-- What comes before the first occurrence has none that begins in it. -/
theorem findNeedle_some {needle x : List UInt8} {pos : ℕ} (h : findNeedle needle x = some pos) :
    ∃ u v, x = u ++ (needle ++ v) ∧ u.length = pos ∧ NotStarts needle u (needle ++ v) := by
  induction x generalizing pos with
  | nil =>
    rw [findNeedle] at h
    split at h
    · next hn =>
      subst hn
      exact ⟨[], [], rfl, some.inj h, fun p hp hpx => absurd (suffix_nil.mp hpx) hp⟩
    · cases h
  | cons b x ih =>
    rw [findNeedle] at h
    split at h
    · next hb =>
      obtain ⟨v, hv⟩ := hb
      exact ⟨[], v, hv.symm, some.inj h,
        fun p hp hpx => absurd (suffix_nil.mp hpx) hp⟩
    · next hb =>
      obtain ⟨pos', hpos', rfl⟩ := map_eq_some_iff.mp h
      obtain ⟨u, v, rfl, rfl, hns⟩ := ih hpos'
      exact ⟨b :: u, v, rfl, rfl, hns.cons hb⟩

/-- The loop of `scrub` for one needle: what comes before `start` is done. -/
def scrubLoop (needle buf : List UInt8) (start : ℕ) : List UInt8 :=
  if _ : needle = [] then buf
  else
    match _ : findNeedle needle (buf.drop start) with
    | none => buf
    | some pos =>
      scrubLoop needle
        (buf.take (start + pos) ++ (redactMarker ++ buf.drop (start + pos + needle.length)))
        (start + pos + redactMarker.length)
termination_by buf.length - start
decreasing_by
  rename_i hne hfind
  obtain ⟨u, v, huv, rfl, -⟩ := findNeedle_some hfind
  have hlen := congrArg List.length huv
  have hpos := List.length_pos_iff.mpr hne
  simp only [List.length_drop, List.length_append, List.length_take] at hlen ⊢
  omega

namespace Needles

/-- `scrub`: the needles are replaced, one after the other. -/
def scrub (N : Needles) (buf : List UInt8) : List UInt8 :=
  N.needles.foldl (fun buf needle => scrubLoop needle buf 0) buf

/-! ### Holding back -/

/-- The loop of `partial_tail` over the positions of the first byte of a needle. -/
def scanTail (needle : List UInt8) (first : UInt8) (keep : ℕ) : List UInt8 → ℕ
  | [] => keep
  | b :: tail =>
    if b ≠ first then scanTail needle first keep tail
    else if (b :: tail).length ≤ keep then keep
    else if needle.take (b :: tail).length = b :: tail then (b :: tail).length
    else scanTail needle first keep tail

/-- What `partial_tail` does for one needle. -/
def partialTailStep (buf : List UInt8) (keep : ℕ) (needle : List UInt8) : ℕ :=
  let window := min (needle.length - 1) buf.length
  if window ≤ keep then keep
  else
    match needle with
    | [] => keep
    | first :: _ => scanTail needle first keep (buf.drop (buf.length - window))

/-- `partial_tail`: how many bytes at the end may be the beginning of a secret. -/
def partialTail (N : Needles) (buf : List UInt8) : ℕ :=
  min (N.needles.foldl (partialTailStep buf) 0) buf.length

end Needles

/-! ### The redactor -/

/-- `Redactor`. -/
structure Redactor where
  needles : Needles
  buf : List UInt8

namespace Redactor

/-- `Redactor::new`. -/
def new (N : Needles) : Redactor := ⟨N, []⟩

/-- `push`: a chunk comes, and what may be let go is returned. -/
def push (r : Redactor) (chunk : List UInt8) : List UInt8 × Redactor :=
  let buf := r.needles.scrub (r.buf ++ chunk)
  let emitLen := buf.length - r.needles.partialTail buf
  (buf.take emitLen, { r with buf := buf.drop emitLen })

/-- `finish`: nothing comes any more. -/
def finish (r : Redactor) : List UInt8 × Redactor :=
  (r.needles.scrub r.buf, { r with buf := [] })

/-- The chunks come one after the other: what is returned for them, and the redactor after them. -/
def pushAll (r : Redactor) : List (List UInt8) → List UInt8 × Redactor
  | [] => ([], r)
  | c :: cs =>
    let rest := (r.push c).2.pushAll cs
    ((r.push c).1 ++ rest.1, rest.2)

end Redactor

/-- **All that is returned** for a stream that comes in the chunks. -/
def Needles.redact (N : Needles) (chunks : List (List UInt8)) : List UInt8 :=
  let r := (Redactor.new N).pushAll chunks
  r.1 ++ r.2.finish.1

end Heph
