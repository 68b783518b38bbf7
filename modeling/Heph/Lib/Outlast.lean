import Heph.Lib.Scrub

/-!
# Where the chunks make a difference

If a word outlasts one that comes after it in the list, there is a text whose chunks matter – at
least if the list has the longer words first. The text is that of the two occurrences together, cut
where the shorter one ends: the first chunk is scrubbed of it, while in the whole text the longer
one is replaced.

The other words might get in the way. So the two occurrences are taken such that the text is as
short as possible, and then such that the first of the two words begins as early as possible. Then
none of the words that come before it is in the text (`Outmost.not_infix_of_mem`).
-/

namespace Heph

open List

/-! ### Members of a list -/

section Lists

variable {α : Type} {l s t : List α} {a b : α}

theorem pair_sublist_append (ha : a ∈ s) (hb : b ∈ t) : [a, b].Sublist (s ++ t) :=
  (singleton_sublist.mpr ha).append (singleton_sublist.mpr hb)

/-- Of two members of a list one comes before the other. -/
theorem pair_sublist_or (ha : a ∈ l) (hb : b ∈ l) (hne : a ≠ b) :
    [a, b].Sublist l ∨ [b, a].Sublist l := by
  obtain ⟨s, t, rfl⟩ := append_of_mem ha
  rcases mem_append.mp hb with hb | hb
  · exact .inr (pair_sublist_append hb mem_cons_self)
  · have hb : b ∈ t := (mem_cons.mp hb).resolve_left hne.symm
    have hpair : [a, b].Sublist (a :: t) := (singleton_sublist.mpr hb).cons_cons a
    exact .inl (hpair.trans (sublist_append_right s _))

theorem exists_append_of_pair_sublist (h : [a, b].Sublist l) :
    ∃ s t, l = s ++ a :: t ∧ b ∈ t := by
  obtain ⟨r₁, r₂, rfl, ha, hb⟩ := cons_sublist_iff.mp h
  obtain ⟨s, t, rfl⟩ := append_of_mem ha
  exact ⟨s, t ++ r₂, by simp, mem_append_right t (singleton_sublist.mp hb)⟩

/-- A word that a text both begins with and is moved by begins with an end of the text. -/
theorem exists_border {c d : List α} (hs : s ≠ []) (h : s ++ c = c ++ d) :
    ∃ q, q ≠ [] ∧ q <+: s ∧ q <:+ s ++ c := by
  induction hlen : c.length using Nat.strong_induction_on generalizing c with
  | _ k ih =>
    rcases append_eq_append_iff.mp h with ⟨c', rfl, hc'⟩ | ⟨c', rfl, -⟩
    · -- the text goes on with the same word
      have hpos := length_pos_iff.mpr hs
      rw [length_append] at hlen
      rw [append_assoc] at h
      obtain ⟨q, hq, hqs, hqc⟩ := ih c'.length (by omega) hc' rfl
      exact ⟨q, hq, hqs, hqc.trans (suffix_append s _)⟩
    · rcases eq_or_ne c [] with rfl | hc
      · exact ⟨_, hs, prefix_rfl, by simp⟩
      · exact ⟨c, hc, prefix_append c c', suffix_append _ c⟩

end Lists

variable {α : Type} [DecidableEq α] {L : List (List α)} {m k n x y a e r : List α}

/-! ### The marker in the result -/

theorem eq_nil_of_scrubAll_eq_nil (hL : ∀ n ∈ L, NoOverlap m n) (h : scrubAll m L x = []) :
    x = [] := by
  cases L with
  | nil => exact h
  | cons n L =>
    have hmark : ¬ m <:+: scrubAll m (n :: L) x := by
      rw [h, infix_nil]
      exact (hL n mem_cons_self).ne_nil_marker
    rw [← scrubAll_eq_self_of_unmarked hL hmark, h]

theorem scrubAll_append {text : List α} {L' : List (List α)} :
    scrubAll text (L ++ L') x = scrubAll text L' (scrubAll text L x) :=
  foldl_append

/-- A word at the end of a text is replaced, if the words before it in the list do not occur. -/
theorem scrubAll_suffix {pre post : List (List α)}
    (hL : ∀ n ∈ pre ++ k :: post, NoOverlap m n) (hpre : Clean pre (a ++ k))
    (hk : NotStarts k a k) :
    scrubAll m (pre ++ k :: post) (a ++ k) = scrubAll m post a ++ m := by
  have hk' : NoOverlap m k := hL k (by simp)
  have hpost : ∀ n ∈ post, NoOverlap m n := fun n hn => hL n (by simp [hn])
  have hself : replaceAll m k k = m := by
    have happ : replaceAll m k (k ++ []) = m ++ replaceAll m k [] :=
      replaceAll_append_self hk'.ne_nil
    rwa [append_nil, replaceAll_nil, append_nil] at happ
  have hmark := scrubAll_marker (x := a) (y := []) hpost
  rw [scrubAll_nil, append_nil] at hmark
  rw [scrubAll_append, scrubAll_eq_self hpre, scrubAll_cons, replaceAll_append_of_notStarts hk,
    hself, hmark]

/-! ### The first of the two words -/

/-- The words are in the order of their lengths, the longest first. -/
def LongestFirst (L : List (List α)) : Prop := L.Pairwise fun k n => n.length ≤ k.length ∧ k ≠ n

omit [DecidableEq α] in
theorem LongestFirst.of_sublist (h : LongestFirst L) (hkn : [k, n].Sublist L) :
    n.length ≤ k.length ∧ k ≠ n :=
  pairwise_iff_forall_sublist.mp h hkn

omit [DecidableEq α] in
/-- The longer word comes first. -/
theorem LongestFirst.sublist_of_lt (h : LongestFirst L) (hk : k ∈ L) (hn : n ∈ L)
    (hlt : n.length < k.length) : [k, n].Sublist L := by
  rcases pair_sublist_or hk hn (by rintro rfl; omega) with hkn | hnk
  · exact hkn
  · have := (h.of_sublist hnk).1
    omega

/-- A word that is all there is is replaced. -/
theorem scrubAll_self (hL : ∀ n ∈ L, NoOverlap m n) (hlong : LongestFirst L) (hn : n ∈ L) :
    scrubAll m L n = m := by
  obtain ⟨pre, post, rfl⟩ := append_of_mem hn
  have hpre : Clean pre ([] ++ n) := by
    intro k hk hinf
    obtain ⟨hlen, hne⟩ := hlong.of_sublist (pair_sublist_append hk mem_cons_self)
    exact hne (hinf.eq_of_length_le hlen)
  have hself := scrubAll_suffix hL hpre fun p hp hpn => absurd (suffix_nil.mp hpn) hp
  rwa [nil_append, scrubAll_nil, nil_append] at hself

/-- **A word outlasts one that comes after it**, in a text that is as short as possible; and among
these it begins as early as possible. -/
structure Outmost (L : List (List α)) (k n a : List α) : Prop where
  sublist : [k, n].Sublist L
  outlasts : Outlasts k n a
  least : ∀ k' n' a', [k', n'].Sublist L → Outlasts k' n' a' →
    a.length + k.length < a'.length + k'.length ∨
      a.length + k.length = a'.length + k'.length ∧ a.length ≤ a'.length

omit [DecidableEq α] in
theorem exists_outmost (h : ¬ L.Pairwise fun k n => ∀ a, ¬ Outlasts k n a) :
    ∃ k n a, Outmost L k n a := by
  let size (p : List α × List α × List α) : ℕ ×ₗ ℕ :=
    toLex (p.2.2.length + p.1.length, p.2.2.length)
  let pairs : Set (List α × List α × List α) :=
    {p | [p.1, p.2.1].Sublist L ∧ Outlasts p.1 p.2.1 p.2.2}
  have hne : pairs.Nonempty := by
    rw [pairwise_iff_forall_sublist] at h
    push Not at h
    obtain ⟨k, n, hkn, a, ha⟩ := h
    exact ⟨(k, n, a), hkn, ha⟩
  obtain ⟨⟨k, n, a⟩, ⟨hkn, ha⟩, hmin⟩ :=
    (InvImage.wf size wellFounded_lt).has_min pairs hne
  refine ⟨k, n, a, hkn, ha, fun k' n' a' hkn' ha' => ?_⟩
  have hle := hmin (k', n', a') ⟨hkn', ha'⟩
  simp only [InvImage, size, Prod.Lex.toLex_lt_toLex] at hle
  omega

namespace Outmost

variable {p v : List α}

omit [DecidableEq α] in
/-- The words that come before the first one are not in the text. -/
theorem not_infix_of_sublist {k' : List α} (hlong : LongestFirst L) (h : Outmost L k n a)
    (hk' : [k', k].Sublist L) (hkn' : [k', n].Sublist L) : ¬ k' <:+: a ++ k := by
  obtain ⟨hlen, hne⟩ := hlong.of_sublist hk'
  obtain ⟨hlen', hne'⟩ := hlong.of_sublist hkn'
  intro hinf
  rcases h.outlasts with ⟨rfl, -⟩ | ⟨p, v, hp, hv, rfl, rfl⟩
  · exact hne (hinf.eq_of_length_le hlen)
  rw [← append_assoc] at hinf
  rcases infix_append_cases hinf with hinf | hinf | ⟨p', q, hp', hq, ⟨a', ha'⟩, ⟨b, rfl⟩, rfl⟩
  · exact hne' (hinf.eq_of_length_le hlen')
  · have hle := hinf.length_le
    have hpos := length_pos_iff.mpr hp
    simp only [length_append] at hlen
    omega
  · -- it begins in the other word too, and ends no later than the first one
    have hleast := h.least _ _ a' hkn' (.inr ⟨p', q, hp', hq, ha'.symm, rfl⟩)
    have hsum := congrArg length ha'
    simp only [length_append] at hleast hsum hlen
    have hb : b = [] := eq_nil_of_length_eq_zero (by omega)
    have hpp : p' = p := by
      have hsuf : p' <:+ a ++ p := ⟨a', ha'⟩
      have hle := suffix_of_suffix_length_le hsuf (suffix_append a p) (by omega)
      exact hle.eq_of_length (by omega)
    subst hb hpp
    exact hne (by simp)

omit [DecidableEq α] in
/-- The first word is in the text once. -/
theorem notStarts (hlong : LongestFirst L) (h : Outmost L k n a) : NotStarts k a k := by
  obtain ⟨hlen, hne⟩ := hlong.of_sublist h.sublist
  rintro p₀ hp₀ ⟨a₀, rfl⟩ hpre
  rcases h.outlasts with ⟨hnil, -⟩ | ⟨p, v, hp, hv, rfl, rfl⟩
  · exact hp₀ (append_eq_nil_iff.mp hnil).2
  rw [← append_assoc] at hpre
  have hpos := length_pos_iff.mpr hp₀
  rcases prefix_append_cases hpre with hpre | ⟨q, hq, -, hk⟩
  · have hinf : p ++ v <:+: a₀ ++ p₀ ++ p := by
      rw [append_assoc]
      exact hpre.isInfix.trans (suffix_append a₀ _).isInfix
    exact hne (hinf.eq_of_length_le hlen)
  · have hleast := h.least _ _ a₀ h.sublist (.inr ⟨p₀ ++ p, q, by simp [hp], hq, by simp, hk⟩)
    simp only [length_append] at hleast
    omega

variable (hL : ∀ n ∈ L, NoOverlap m n)

include hL

/-- So the first word is what is replaced in the text. -/
theorem scrubAll_eq (hlong : LongestFirst L) (h : Outmost L k n a) :
    ∃ post, (∀ n ∈ post, n ∈ L) ∧
      scrubAll m L (a ++ k) = scrubAll m post a ++ m := by
  obtain ⟨pre, post, rfl, hn⟩ := exists_append_of_pair_sublist h.sublist
  refine ⟨post, fun n hn => by simp [hn], scrubAll_suffix hL (fun k' hk' => ?_) (h.notStarts hlong)⟩
  exact h.not_infix_of_sublist hlong (pair_sublist_append hk' mem_cons_self)
    (pair_sublist_append hk' (mem_cons_of_mem k hn))

omit [DecidableEq α] in
/-- Before the first word begins, there is no word. -/
theorem clean (hlong : LongestFirst L) (h : Outmost L k n a) :
    Clean L a := by
  intro q hq hqa
  rcases h.outlasts with ⟨rfl, u, v, -, -⟩ | ⟨p, v, hp, hv, rfl, rfl⟩
  · exact (hL q hq).ne_nil (infix_nil.mp hqa)
  · obtain ⟨u, w, rfl⟩ := hqa
    have hpos := length_pos_iff.mpr hp
    have hpos' := length_pos_iff.mpr hv
    have hnq : [u ++ q ++ w ++ p, q].Sublist L := by
      refine hlong.sublist_of_lt (h.sublist.mem (by simp)) hq ?_
      simp only [length_append]
      omega
    have hleast := h.least _ _ [] hnq (.inl ⟨rfl, u, w ++ p, by simp [hp], by simp⟩)
    simp only [length_append, length_nil] at hleast
    omega

/-- **In the whole text the first word is replaced, and nothing else.** -/
theorem scrubAll_eq_append (hlong : LongestFirst L)
    (h : Outmost L k n a) : scrubAll m L (a ++ k) = a ++ m := by
  obtain ⟨post, hpost, heq⟩ := h.scrubAll_eq hL hlong
  rw [heq, scrubAll_eq_self fun q hq => h.clean hL hlong q (hpost q hq)]

end Outmost

/-! ### The two chunks -/

section Chunks

variable {out : List α} {cs : List (List α)}

/-- What comes is let go in the end. -/
theorem Streams.ne_nil {c : List α} (hL : ∀ n ∈ L, NoOverlap m n) (hc : c ≠ [])
    (h : Streams m L r [c] out) : out ≠ [] := by
  cases h with
  | push hscrub _ hrest =>
    cases hrest with
    | finish r' =>
      intro hnil
      obtain ⟨rfl, hr'⟩ := append_eq_nil_iff.mp hnil
      obtain rfl := eq_nil_of_scrubAll_eq_nil hL hr'
      exact hc (append_eq_nil_iff.mp (eq_nil_of_scrubAll_eq_nil hL hscrub)).2

namespace Outmost

/-- The other word is inside the first one: a marker is let go after the first chunk, and it is
not all. -/
theorem ne_of_inside {u v : List α} (hL : ∀ n ∈ L, NoOverlap m n) (hlong : LongestFirst L)
    (h : Outmost L (u ++ (n ++ v)) n []) (hv : v ≠ [])
    (hout : Streams m L [] [u ++ n, v] out) :
    out ≠ scrubAll m L ((u ++ n) ++ v) := by
  have hwhole := h.scrubAll_eq_append hL hlong
  rw [nil_append, nil_append, ← append_assoc] at hwhole
  rw [hwhole]
  cases hout with
  | push hscrub hheld hrest =>
    have hmark : m <:+: scrubAll m L (u ++ n) := by
      by_contra hmark
      have hclean := clean_scrubAll (x := u ++ n) hL
      rw [scrubAll_eq_self_of_unmarked hL hmark] at hclean
      exact hclean n (h.sublist.mem (by simp)) (suffix_append u n).isInfix
    have hle := (hheld.infix_of_infix hL (hscrub ▸ hmark)).length_le
    have hpos := length_pos_iff.mpr (hrest.ne_nil hL hv)
    intro heq
    have hlen := congrArg length heq
    rw [length_append] at hlen
    omega

/-- The other word begins first: it is replaced at once, while its beginning stays in the whole
text. -/
theorem ne_of_across {p v : List α} (hL : ∀ n ∈ L, NoOverlap m n) (hlong : LongestFirst L)
    (h : Outmost L (p ++ v) (a ++ p) a) (ha : a ≠ []) (hout : Streams m L [] [a ++ p, v] out) :
    out ≠ scrubAll m L ((a ++ p) ++ v) := by
  have hmem : a ++ p ∈ L := h.sublist.mem (by simp)
  have hwhole := h.scrubAll_eq_append hL hlong
  rw [← append_assoc] at hwhole
  rw [hwhole]
  cases hout with
  | @push _ _ e r' _ _ hscrub hheld _ =>
    rw [nil_append] at hscrub
    rw [scrubAll_self hL hlong hmem] at hscrub
    have hlet : m <:+: e := hheld.infix_of_infix hL (hscrub ▸ infix_rfl)
    have hr' : r' = [] := by
      have hle := hlet.length_le
      have hlen := congrArg length hscrub
      rw [length_append] at hlen
      exact eq_nil_of_length_eq_zero (by omega)
    rw [hr', append_nil] at hscrub
    rw [← hscrub]
    intro heq
    -- what stays of the other word begins a marker: so it begins with an end of one
    rcases append_eq_append_iff.mp heq with ⟨c, rfl, -⟩ | ⟨c, hm, hc⟩
    · exact (hL _ hmem).into.around ⟨[], c ++ p, by simp⟩
    · obtain ⟨q, hq, hqa, hqm⟩ := exists_border ha (hm.symm.trans hc)
      refine (hL _ hmem).outOf.apart q hq (hqa.trans (prefix_append a p)) ?_
      rwa [hm]

end Outmost

/-- **The chunks make a difference** if a word outlasts one that comes after it. -/
theorem Streams.exists_ne (hL : ∀ n ∈ L, NoOverlap m n) (hlong : LongestFirst L)
    (h : ¬ L.Pairwise fun k n => ∀ a, ¬ Outlasts k n a) :
    ∃ x y, ∀ out, Streams m L [] [x, y] out → out ≠ scrubAll m L (x ++ y) := by
  obtain ⟨k, n, a, hout⟩ := exists_outmost h
  rcases hout.outlasts with ⟨rfl, u, v, hv, rfl⟩ | ⟨p, v, hp, hv, rfl, rfl⟩
  · exact ⟨u ++ n, v, fun out => hout.ne_of_inside hL hlong hv⟩
  · rcases eq_or_ne a [] with rfl | ha
    · exact ⟨[] ++ p, v, fun out => hout.ne_of_inside hL hlong hv⟩
    · exact ⟨a ++ p, v, fun out => hout.ne_of_across hL hlong ha⟩

end Chunks

end Heph
