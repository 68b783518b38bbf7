import Heph.Lib.Scrub
import Heph.Redact.Redactor

/-!
# No secret is left

The redactor scrubs a stream, in the sense of `Streams`: the loops of the source find the
occurrences of a secret from the left, and what is held back is the longest end of the buffer that
a secret begins with. So no secret is left in what is returned, whatever the chunks – as long as
none of them can overlap the marker (`Needles.NoOverlap`). The secrets that are long enough and
have no bracket in them are of that kind, but for the word in the marker (`Needles.Plain`).
-/

namespace Heph

open List Addr Needles

/-! ### The loops -/

/-- **The loop replaces the occurrences from the left.** -/
theorem scrubLoop_eq {needle buf : List UInt8} {start : ℕ} (hn : needle ≠ []) :
    scrubLoop needle buf start =
      buf.take start ++ replaceAll redactMarker needle (buf.drop start) := by
  fun_induction scrubLoop needle buf start with
  | case1 => contradiction
  | case2 buf start _ hfind =>
    rw [replaceAll_eq_self (findNeedle_none hfind), take_append_drop]
  | case3 buf start _ pos hfind ih =>
    obtain ⟨u, v, huv, hpos, hns⟩ := findNeedle_some hfind
    -- the buffer is what is done, what has no occurrence, the occurrence, and the rest
    have hstart : (buf.take start).length = start := by
      have hlen := congrArg length huv
      have hne := length_pos_iff.mpr hn
      simp only [length_drop, length_append] at hlen
      rw [List.length_take]
      omega
    have hbuf : buf = buf.take start ++ (u ++ (needle ++ v)) := by
      rw [← huv, take_append_drop]
    generalize buf.take start = done at hstart hbuf ⊢
    subst hbuf hstart hpos
    have htake : (done ++ (u ++ (needle ++ v))).take (done.length + u.length) = done ++ u := by
      rw [← append_assoc, ← length_append, take_left]
    have hdrop :
        (done ++ (u ++ (needle ++ v))).drop (done.length + u.length + needle.length) = v := by
      rw [← append_assoc, ← append_assoc, ← length_append, ← length_append,
        drop_left]
    rw [htake, hdrop, ← append_assoc, ← length_append, ← length_append,
      take_left, drop_left] at ih
    rw [htake, hdrop, ← append_assoc, ← length_append, ← length_append, ih, huv,
      replaceAll_append_of_notStarts hns, replaceAll_append_self hn]
    simp only [append_assoc]

namespace Needles

variable {N : Needles} {needle : List UInt8}

theorem needle_ne_nil {n : List UInt8} (hn : n ∈ N.needles) : n ≠ [] := by
  rintro rfl
  exact absurd (N.long [] hn) (by decide)

theorem scrub_eq (buf : List UInt8) : N.scrub buf = scrubAll redactMarker N.needles buf := by
  refine foldl_ext _ _ _ fun buf n hn => ?_
  rw [scrubLoop_eq (needle_ne_nil hn)]
  simp

/-! ### What is held back -/

/-- The greatest length among the words of a kind, if it is more than what is kept already. -/
structure Longest (P : List UInt8 → Prop) (keep k : ℕ) : Prop where
  le : keep ≤ k
  found : k = keep ∨ ∃ p, P p ∧ p.length = k
  longest : ∀ p, P p → p.length ≤ k

/-- The loop finds the longest end of the tail that the needle begins with. -/
theorem longest_scanTail {first : UInt8} (hfirst : needle.head? = some first)
    (keep : ℕ) (tail : List UInt8) :
    Longest (fun p => p <:+ tail ∧ p <+: needle) keep (scanTail needle first keep tail) := by
  induction tail with
  | nil =>
    refine ⟨le_rfl, .inl rfl, fun p hp => ?_⟩
    rw [suffix_nil.mp hp.1]
    exact Nat.zero_le keep
  | cons b tail ih =>
    -- if the tail as a whole is none, the shorter ones are left
    have hskip (hb : ¬ b :: tail <+: needle) :
        Longest (fun p => p <:+ b :: tail ∧ p <+: needle) keep
          (scanTail needle first keep tail) := by
      refine ⟨ih.le, ?_, fun p hp => ?_⟩
      · exact ih.found.imp_right fun ⟨p, hp, hlen⟩ =>
          ⟨p, ⟨hp.1.trans (suffix_cons b tail), hp.2⟩, hlen⟩
      · rcases suffix_cons_iff.mp hp.1 with rfl | hsuf
        · exact absurd hp.2 hb
        · exact ih.longest p ⟨hsuf, hp.2⟩
    have hle (p : List UInt8) (hp : p <:+ b :: tail ∧ p <+: needle) :
        p.length ≤ (b :: tail).length := hp.1.length_le
    rw [scanTail]
    split
    · next hb =>
      refine hskip fun hpre => hb ?_
      obtain ⟨v, rfl⟩ := hpre
      exact Option.some.inj hfirst
    · split
      · next hkeep => exact ⟨le_rfl, .inl rfl, fun p hp => (hle p hp).trans hkeep⟩
      · next hkeep =>
        split
        · next htake =>
          refine ⟨(not_le.mp hkeep).le, .inr ⟨b :: tail, ⟨suffix_refl _, ?_⟩, rfl⟩, hle⟩
          exact prefix_iff_eq_take.mpr htake.symm
        · next htake =>
          exact hskip fun hpre => htake (prefix_iff_eq_take.mp hpre).symm

theorem longest_partialTailStep (hn : needle ≠ []) (buf : List UInt8)
    (keep : ℕ) :
    Longest (fun p => p <:+ buf ∧ p <+: needle ∧ p ≠ needle) keep
      (partialTailStep buf keep needle) := by
  have hwindow (p : List UInt8) (hp : p <:+ buf ∧ p <+: needle ∧ p ≠ needle) :
      p.length ≤ min (needle.length - 1) buf.length := by
    have hlt : p.length < needle.length :=
      lt_of_le_of_ne hp.2.1.length_le fun h => hp.2.2 (hp.2.1.eq_of_length h)
    exact le_min (by omega) hp.1.length_le
  obtain ⟨first, rest, rfl⟩ := exists_cons_of_ne_nil hn
  rw [partialTailStep]
  split
  · next hkeep => exact ⟨le_rfl, .inl rfl, fun p hp => (hwindow p hp).trans hkeep⟩
  · have hfirst : (first :: rest).head? = some first := rfl
    have hscan := longest_scanTail hfirst keep
      (buf.drop (buf.length - min ((first :: rest).length - 1) buf.length))
    refine ⟨hscan.le, hscan.found.imp_right ?_, fun p hp => hscan.longest p ⟨?_, hp.2.1⟩⟩
    · rintro ⟨p, ⟨hsuf, hpre⟩, hlen⟩
      refine ⟨p, ⟨hsuf.trans (drop_suffix _ buf), hpre, ?_⟩, hlen⟩
      rintro rfl
      have hle := hsuf.length_le
      simp only [length_drop, length_cons] at hle
      omega
    · refine suffix_of_suffix_length_le hp.1 (drop_suffix _ buf) ?_
      have hle := hwindow p hp
      rw [length_drop]
      omega

theorem longest_foldl {L : List (List UInt8)} (hL : ∀ n ∈ L, n ≠ []) (buf : List UInt8) (keep : ℕ) :
    Longest (fun p => ∃ n ∈ L, p <:+ buf ∧ p <+: n ∧ p ≠ n) keep
      (L.foldl (partialTailStep buf) keep) := by
  induction L generalizing keep with
  | nil => exact ⟨le_rfl, .inl rfl, fun p ⟨n, hn, _⟩ => nomatch hn⟩
  | cons n L ih =>
    rw [forall_mem_cons] at hL
    have hstep := longest_partialTailStep hL.1 buf keep
    have hrest := ih hL.2 (partialTailStep buf keep n)
    rw [foldl_cons]
    refine ⟨hstep.le.trans hrest.le, ?_, ?_⟩
    · rcases hrest.found with heq | ⟨p, ⟨k, hk, hp⟩, hlen⟩
      · rw [heq]
        exact hstep.found.imp_right fun ⟨p, hp, hlen⟩ => ⟨p, ⟨n, mem_cons_self, hp⟩, hlen⟩
      · exact .inr ⟨p, ⟨k, mem_cons_of_mem n hk, hp⟩, hlen⟩
    · rintro p ⟨k, hk, hp⟩
      rcases mem_cons.mp hk with rfl | hk
      · exact (hstep.longest p hp).trans hrest.le
      · exact hrest.longest p ⟨k, hk, hp⟩

/-- **What is held back is the longest beginning of a secret** at the end of the buffer. -/
theorem held_partialTail (N : Needles) (buf : List UInt8) :
    Held N.needles (buf.take (buf.length - N.partialTail buf))
      (buf.drop (buf.length - N.partialTail buf)) := by
  have hspec := longest_foldl (fun n => needle_ne_nil (N := N)) buf 0
  have hkeep : N.partialTail buf = N.needles.foldl (partialTailStep buf) 0 := by
    refine min_eq_left ?_
    rcases hspec.found with h | ⟨p, ⟨n, -, hp, -⟩, hlen⟩
    · rw [h]
      exact Nat.zero_le _
    · rw [← hlen]
      exact hp.length_le
  rw [← hkeep] at hspec
  have hle : N.partialTail buf ≤ buf.length := min_le_right _ _
  have hlen : (buf.drop (buf.length - N.partialTail buf)).length = N.partialTail buf := by
    rw [length_drop]
    omega
  refine ⟨?_, fun n hn p hp hpre hne => ?_⟩
  · rcases hspec.found with h | ⟨p, ⟨n, hn, hp, hpre, -⟩, hplen⟩
    · left
      rw [← length_eq_zero_iff, hlen, h]
    · have hsuf := suffix_of_suffix_length_le hp
        (drop_suffix (buf.length - N.partialTail buf) buf) (by rw [hplen, hlen])
      rw [← hsuf.eq_of_length (by rw [hplen, hlen])]
      exact .inr ⟨n, hn, hpre⟩
  · rw [take_append_drop] at hp
    rw [hlen]
    exact hspec.longest p ⟨n, hn, hp, hpre, hne⟩

/-! ### The stream -/

/-- **The redactor scrubs a stream.** -/
theorem streams_pushAll (r : Redactor) (chunks : List (List UInt8)) :
    Streams redactMarker r.needles.needles r.buf chunks
      ((r.pushAll chunks).1 ++ (r.pushAll chunks).2.finish.1) := by
  induction chunks generalizing r with
  | nil =>
    have h : Streams redactMarker r.needles.needles r.buf [] (scrubAll redactMarker _ r.buf) :=
      .finish r.buf
    rw [← scrub_eq] at h
    exact h
  | cons c cs ih =>
    have hrest := ih (r.push c).2
    rw [Redactor.pushAll, append_assoc]
    refine .push ?_ (held_partialTail r.needles _) hrest
    rw [← scrub_eq]
    exact (take_append_drop ..).symm

theorem streams_redact (N : Needles) (chunks : List (List UInt8)) :
    Streams redactMarker N.needles [] chunks (N.redact chunks) :=
  streams_pushAll (.new N) chunks

/-! ### The marker -/

/-- **No secret overlaps the marker.** -/
def NoOverlap (N : Needles) : Prop := ∀ n ∈ N.needles, Heph.NoOverlap redactMarker n

instance (N : Needles) : Decidable N.NoOverlap :=
  inferInstanceAs (Decidable (∀ n ∈ N.needles, _))

/-- The secrets have no brackets, and none is the word that is between those of the marker. -/
def Plain (N : Needles) : Prop :=
  ∀ n ∈ N.needles, '['.toUInt8 ∉ n ∧ ']'.toUInt8 ∉ n ∧ n ≠ utf8 "redacted".toList

instance (N : Needles) : Decidable N.Plain := inferInstanceAs (Decidable (∀ n ∈ N.needles, _))

theorem redactMarker_eq :
    redactMarker = '['.toUInt8 :: (utf8 "redacted".toList ++ [']'.toUInt8]) := by decide

/-- **A secret without brackets does not overlap the marker.** It could only be the word in it: no
other part of the marker is long enough. -/
theorem Plain.noOverlap (hN : N.Plain) : N.NoOverlap := by
  intro n hn
  obtain ⟨hopen, hclose, hcore⟩ := hN n hn
  have haround : ¬ redactMarker <:+: n := fun hinf => hopen (hinf.mem (by decide))
  refine ⟨needle_ne_nil hn, fun hinf => ?_, ⟨haround, fun q hq hqn hqm => ?_⟩,
    ⟨haround, fun p hp hpn hpm => ?_⟩⟩
  · rw [redactMarker_eq] at hinf
    rcases infix_cons_iff.mp hinf with hpre | hinf
    · rcases prefix_cons_iff.mp hpre with hnil | ⟨t, rfl, -⟩
      · exact needle_ne_nil hn hnil
      · exact hopen mem_cons_self
    · rcases infix_concat_iff.mp hinf with hsuf | hinf
      · rcases suffix_concat_iff.mp hsuf with hnil | ⟨t, rfl, -⟩
        · exact needle_ne_nil hn hnil
        · exact hclose (by simp)
      · exact hcore (hinf.eq_of_length_le (N.long n hn))
  · rcases prefix_cons_iff.mp (redactMarker_eq ▸ hqm) with hnil | ⟨t, rfl, -⟩
    · exact hq hnil
    · exact hopen (hqn.mem mem_cons_self)
  · rw [redactMarker_eq, ← cons_append] at hpm
    rcases suffix_concat_iff.mp hpm with hnil | ⟨t, rfl, -⟩
    · exact hp hnil
    · exact hclose (hpn.mem (by simp))

theorem pushAll_append (r : Redactor) (cs cs' : List (List UInt8)) :
    (r.pushAll (cs ++ cs')).1 = (r.pushAll cs).1 ++ ((r.pushAll cs).2.pushAll cs').1 := by
  induction cs generalizing r with
  | nil => rfl
  | cons c cs ih =>
    rw [cons_append, Redactor.pushAll, Redactor.pushAll, ih, append_assoc]

/-- **No secret is left, and what is returned is final.** -/
theorem redact_leaves_no_secret (N : Needles) (hN : N.Plain) (chunks : List (List UInt8)) :
    (∀ n ∈ N.needles, ¬ n <:+: N.redact chunks) ∧
      ∀ later, ((Redactor.new N).pushAll chunks).1 <+: N.redact (chunks ++ later) := by
  refine ⟨?_, fun later => ?_⟩
  · have hstreams := streams_redact N chunks
    exact hstreams.clean hN.noOverlap
  · rw [redact, pushAll_append, append_assoc]
    exact prefix_append ..

/-- A secret that is cut in two. -/
theorem redact_leaves_no_secret_split :
    ∃ N, new ["s3cr3t-value".toList, "abc".toList] = some N ∧
      (∀ n ∈ N.needles, ¬ n <:+:
        N.redact [utf8 "tok=s3cr".toList, utf8 "3t-value!".toList]) ∧
      ∀ later, ((Redactor.new N).pushAll
        [utf8 "tok=s3cr".toList, utf8 "3t-value!".toList]).1 <+:
          N.redact ([utf8 "tok=s3cr".toList, utf8 "3t-value!".toList] ++ later) := by
  have hnew : ∃ N, new ["s3cr3t-value".toList, "abc".toList] = some N ∧ N.Plain :=
    ⟨_, rfl, by decide⟩
  obtain ⟨N, hnew, hN⟩ := hnew
  exact ⟨N, hnew, redact_leaves_no_secret N hN _⟩

end Needles

end Heph
