import Heph.Lib.Replace

/-!
# Scrubbing a stream

Several words are replaced in a text, one after the other (`scrubAll`). None of them is left
(`clean_scrubAll`), since what the replacement of a word leaves behind it is either there
already or a marker.

A text that comes **in chunks** is scrubbed as it comes. After each chunk, what could be the
beginning of a word is held back, and the rest is let go (`Held`, `Streams`). No word is
left then either (`Streams.clean`). But the result may depend on the chunks: a word is replaced
as soon as it is complete, even if another one that comes before it in the list, and would have
been replaced first, is not complete yet. That takes an occurrence of the other word that overlaps
it and **outlasts** it (`Outlasts`). Where there is no such pair of words, the chunks make no
difference (`Streams.eq_scrubAll`).
-/

namespace Heph

open List

variable {α : Type} [DecidableEq α] {L : List (List α)} {m n k w x y z a r : List α}

/-- The words are replaced, one after the other. -/
def scrubAll (text : List α) (L : List (List α)) (x : List α) : List α :=
  L.foldl (fun x n => replaceAll text n x) x

theorem scrubAll_cons {text : List α} :
    scrubAll text (n :: L) x = scrubAll text L (replaceAll text n x) := rfl

theorem scrubAll_nil {text : List α} : scrubAll text L [] = [] := by
  induction L with
  | nil => rfl
  | cons n L ih => rw [scrubAll_cons, replaceAll_nil, ih]

/-- None of the words occurs in the text. -/
def Clean (L : List (List α)) (x : List α) : Prop := ∀ n ∈ L, ¬ n <:+: x

omit [DecidableEq α] in
theorem Clean.of_infix (h : Clean L x) (hy : y <:+: x) : Clean L y :=
  fun n hn hny => h n hn (hny.trans hy)

/-! ### What is found was there before -/

section

variable (hL : ∀ n ∈ L, NoOverlap m n)

include hL

theorem prefix_of_prefix_scrubAll_append (hw : NotInto m w)
    (h : w <+: scrubAll m L x ++ y) : w <+: x ++ y := by
  induction L generalizing x with
  | nil => exact h
  | cons n L ih =>
    rw [forall_mem_cons] at hL
    exact prefix_of_prefix_replaceAll_append hL.1.ne_nil hw (ih hL.2 h)

theorem suffix_of_suffix_scrubAll (hw : NotOutOf m w)
    (h : w <:+ scrubAll m L x) : w <:+ x := by
  induction L generalizing x with
  | nil => exact h
  | cons n L ih =>
    rw [forall_mem_cons] at hL
    exact suffix_of_suffix_replaceAll hL.1.ne_nil hw (ih hL.2 h)

theorem infix_of_infix_scrubAll (hw : NoOverlap m w)
    (h : w <:+: scrubAll m L x) : w <:+: x := by
  induction L generalizing x with
  | nil => exact h
  | cons n L ih =>
    rw [forall_mem_cons] at hL
    exact infix_of_infix_replaceAll hL.1.ne_nil hw (ih hL.2 h)

/-- **None of the words is left.** -/
theorem clean_scrubAll : Clean L (scrubAll m L x) := by
  induction L generalizing x with
  | nil => exact fun n hn => nomatch hn
  | cons n L ih =>
    rw [forall_mem_cons] at hL
    refine forall_mem_cons.mpr ⟨fun h => ?_, ih hL.2⟩
    exact not_infix_replaceAll hL.1 (infix_of_infix_scrubAll hL.2 hL.1 h)

end

theorem scrubAll_eq_self (h : Clean L x) : scrubAll m L x = x := by
  induction L with
  | nil => rfl
  | cons n L ih =>
    obtain ⟨hn, hL⟩ := forall_mem_cons.mp h
    rw [scrubAll_cons, replaceAll_eq_self hn, ih hL]

section

variable (hL : ∀ n ∈ L, NoOverlap m n)

include hL

/-- Where something was scrubbed there is a marker. -/
theorem scrubAll_eq_self_of_unmarked
    (h : ¬ m <:+: scrubAll m L x) : scrubAll m L x = x := by
  induction L generalizing x with
  | nil => rfl
  | cons n L ih =>
    rw [forall_mem_cons] at hL
    rw [scrubAll_cons] at h ⊢
    have heq := ih hL.2 h
    rw [heq] at h ⊢
    exact replaceAll_eq_self_of_unmarked hL.1.ne_nil h

/-! ### Parts that can be treated separately -/

theorem scrubAll_append_of_notStarts
    (h : ∀ n ∈ L, NotStarts n x y) : scrubAll m L (x ++ y) = x ++ scrubAll m L y := by
  induction L generalizing y with
  | nil => rfl
  | cons n L ih =>
    rw [forall_mem_cons] at hL h
    rw [scrubAll_cons, replaceAll_append_of_notStarts h.1, ih hL.2 fun k hk p hp hpx hkp => ?_]
    · rfl
    · refine h.2 k hk p hp hpx ?_
      rcases prefix_append_cases hkp with hkp | ⟨q, -, hq, rfl⟩
      · exact hkp.trans (prefix_append p y)
      · have hinto : NotInto m q := (hL.2 _ hk).into.mono (suffix_append p q)
        exact (prefix_append_right_inj p).mpr
          (prefix_of_prefix_replaceAll hL.1.ne_nil hinto hq)

theorem scrubAll_append_of_notEnds
    (h : ∀ n ∈ L, NotEnds n x y) : scrubAll m L (x ++ y) = scrubAll m L x ++ y := by
  induction L generalizing x with
  | nil => rfl
  | cons n L ih =>
    rw [forall_mem_cons] at hL h
    rw [scrubAll_cons, replaceAll_append_of_notEnds hL.1.ne_nil h.1,
      ih hL.2 fun k hk q hq hqy hkq => ?_]
    · rfl
    · refine h.2 k hk q hq hqy ?_
      rcases suffix_append_cases hkq with hkq | ⟨p, -, hp, rfl⟩
      · exact hkq.trans (suffix_append x q)
      · have hout : NotOutOf m p := (hL.2 _ hk).outOf.mono (prefix_append p q)
        obtain ⟨t, rfl⟩ := suffix_of_suffix_replaceAll hL.1.ne_nil hout hp
        exact ⟨t, by simp⟩

theorem scrubAll_marker :
    scrubAll m L (x ++ (m ++ y)) =
      scrubAll m L x ++ (m ++ scrubAll m L y) := by
  induction L generalizing x y with
  | nil => rfl
  | cons n L ih =>
    rw [forall_mem_cons] at hL
    rw [scrubAll_cons, replaceAll_marker hL.1, ih hL.2]
    rfl

end

/-! ### What is scrubbed early -/

/-- An occurrence of `k` overlaps one of `n` and **ends after it**. It begins `a` after the other
one, or before it. -/
def Outlasts (k n a : List α) : Prop :=
  (a = [] ∧ ∃ u v, v ≠ [] ∧ k = u ++ (n ++ v)) ∨
    ∃ p v, p ≠ [] ∧ v ≠ [] ∧ n = a ++ p ∧ k = p ++ v

omit [DecidableEq α] in
/-- An occurrence of `k` goes on after one of `n` that is inside it, or begins with the end of
one. -/
theorem exists_outlasts_iff :
    (∃ a, Outlasts k n a) ↔ k ≠ [] ∧ n <:+: k.dropLast ∨
      ∃ i < n.length, n.drop i <+: k ∧ n.drop i ≠ k := by
  constructor
  · rintro ⟨a, ⟨-, u, v, hv, rfl⟩ | ⟨p, v, hp, hv, rfl, rfl⟩⟩
    · refine .inl ⟨by simp [hv], u, v.dropLast, ?_⟩
      rw [← append_assoc, dropLast_append_of_ne_nil hv]
    · refine .inr ⟨a.length, ?_, ?_, ?_⟩
      · rw [length_append]
        have hpos := length_pos_iff.mpr hp
        omega
      · rw [drop_left]
        exact prefix_append p v
      · rw [drop_left]
        exact fun heq => hv (append_right_eq_self.mp heq.symm)
  · rintro (⟨hk, u, v, huv⟩ | ⟨i, hi, ⟨v, hv⟩, hne⟩)
    · refine ⟨[], .inl ⟨rfl, u, v ++ [k.getLast hk], by simp, ?_⟩⟩
      rw [← append_assoc, ← append_assoc, huv, dropLast_append_getLast hk]
    · refine ⟨n.take i, .inr ⟨n.drop i, v, ?_, ?_, (take_append_drop i n).symm, hv.symm⟩⟩
      · exact ne_nil_of_length_pos (by rw [length_drop]; omega)
      · rintro rfl
        exact hne (by simpa using hv)

instance : Decidable (∃ a, Outlasts k n a) := decidable_of_iff _ exists_outlasts_iff.symm

omit [DecidableEq α] in
/-- Where a word begins at the end of a text and goes on, the words that it does not outlast do not
reach its beginning. -/
theorem notEnds_of_not_outlasts {s t : List α} (ht : t ≠ []) (h : ∀ a, ¬ Outlasts (s ++ t) n a) :
    NotEnds n a s := by
  intro q hq hqs hn
  obtain ⟨v, rfl⟩ := hqs
  rcases suffix_append_cases hn with hn | ⟨p, -, -, rfl⟩
  · obtain ⟨u, rfl⟩ := hn
    exact h [] (.inl ⟨rfl, u, v ++ t, by simp [ht], by simp⟩)
  · exact h p (.inr ⟨q, v ++ t, hq, by simp [ht], rfl, by simp⟩)

/-- An occurrence that begins in the scrubbed text begins in the text. -/
theorem notStarts_scrubAll (hL : ∀ n ∈ L, NoOverlap m n) (hn : NoOverlap m n) (hx : ¬ n <:+: x)
    (h : NotStarts n x y) : NotStarts n (scrubAll m L x) y := by
  intro p hp hpx hnp
  rcases prefix_append_cases hnp with hnp | ⟨q, -, hq, rfl⟩
  · exact hx (infix_of_infix_scrubAll hL hn (hnp.isInfix.trans hpx.isInfix))
  · have hout : NotOutOf m p := hn.outOf.mono (prefix_append p q)
    exact h p hp (suffix_of_suffix_scrubAll hL hout hpx)
      ((prefix_append_right_inj p).mpr hq)

/-- **What is scrubbed early is scrubbed anyway**, if no word outlasts one that comes after it in
the list. -/
theorem scrubAll_scrubAll_append (hL : ∀ n ∈ L, NoOverlap m n)
    (h : L.Pairwise fun k n => ∀ a, ¬ Outlasts k n a) :
    scrubAll m L (scrubAll m L x ++ y) = scrubAll m L (x ++ y) := by
  induction L generalizing x y with
  | nil => rfl
  | cons n L ih =>
    rw [forall_mem_cons] at hL
    obtain ⟨hn, h⟩ := pairwise_cons.mp h
    simp only [scrubAll_cons]
    -- the first word is gone from what has been read
    rw [← replaceAll_replaceAll_append (x := x) hL.1]
    have hx : ¬ n <:+: replaceAll m n x := not_infix_replaceAll hL.1
    generalize replaceAll m n x = x at hx ⊢
    have hcases := @replaceAll_append_cases α _ m n x y hL.1.ne_nil hx
    rcases hcases with ⟨hns, heq⟩ | ⟨a, s, t, z, rfl, rfl, rfl, hs, ht, hns, heq⟩
    · rw [heq, replaceAll_append_of_notStarts (notStarts_scrubAll hL.2 hL.1 hx hns), ih hL.2 h]
    · -- it goes across, and what has been scrubbed does not reach it
      have hends : ∀ k ∈ L, NotEnds k a s := fun k hk => notEnds_of_not_outlasts ht (hn k hk)
      have ha : ¬ s ++ t <:+: a := fun h => hx (h.trans (prefix_append a s).isInfix)
      have hstart := notStarts_scrubAll hL.2 hL.1 ha hns
      rw [← append_assoc] at hstart
      rw [heq, scrubAll_append_of_notEnds hL.2 hends, append_assoc, ← append_assoc s,
        replaceAll_append_of_notStarts hstart, replaceAll_append_self hL.1.ne_nil,
        scrubAll_marker hL.2, scrubAll_marker hL.2, scrubAll_eq_self (clean_scrubAll hL.2)]

/-! ### Chunks -/

/-- **What is held back**: the longest end of the text that one of the words begins with and is
not complete with. -/
structure Held (L : List (List α)) (e r : List α) : Prop where
  opens : r = [] ∨ ∃ n ∈ L, r <+: n
  longest : ∀ n ∈ L, ∀ p, p <:+ e ++ r → p <+: n → p ≠ n → p.length ≤ r.length

/-- **A text comes in chunks**, after one that is held back. What is let go of each of them, and
what is there at the end, is the result. -/
inductive Streams (text : List α) (L : List (List α)) :
    List α → List (List α) → List α → Prop where
  | finish (r : List α) : Streams text L r [] (scrubAll text L r)
  | push {r c e r' out : List α} {cs : List (List α)}
    (hscrub : scrubAll text L (r ++ c) = e ++ r') (hheld : Held L e r')
    (hrest : Streams text L r' cs out) : Streams text L r (c :: cs) (e ++ out)

section Held

variable {e out : List α} {cs : List (List α)}

omit [DecidableEq α] in
/-- A marker is let go as a whole. -/
theorem Held.infix_of_infix (hL : ∀ n ∈ L, NoOverlap m n) (h : Held L e r)
    (hinf : m <:+: e ++ r) : m <:+: e := by
  rcases h.opens with rfl | ⟨n, hn, hr⟩
  · rwa [append_nil] at hinf
  · rcases infix_append_cases hinf with hinf | hinf | ⟨p, q, -, hq, -, hqr, rfl⟩
    · exact hinf
    · exact absurd (hinf.trans hr.isInfix) (hL n hn).into.around
    · exact absurd (suffix_append p q) ((hL n hn).outOf.apart q hq (hqr.trans hr))

omit [DecidableEq α] in
/-- No word begins in what is let go. -/
theorem Held.notStarts (hclean : Clean L (e ++ r)) (h : Held L e r) (hn : n ∈ L) :
    NotStarts n e (r ++ y) := by
  rintro p hp ⟨u, rfl⟩ hnp
  rw [← append_assoc] at hnp
  rcases prefix_append_cases hnp with hnp | ⟨q, hq, -, rfl⟩
  · refine hclean n hn (hnp.isInfix.trans ?_)
    rw [append_assoc]
    exact (suffix_append u _).isInfix
  · have hlen := h.longest _ hn (p ++ r) (by simp) (prefix_append _ q) (by simp [hq])
    rw [length_append] at hlen
    have hpos := length_pos_iff.mpr hp
    omega

end Held

namespace Streams

variable {out : List α} {cs : List (List α)} (hL : ∀ n ∈ L, NoOverlap m n)

include hL

/-- What the result begins with the text begins with, up to the first marker. -/
theorem prefix_of_prefix (h : Streams m L r cs out)
    (hw : NotInto m w) (hout : w <+: out) : w <+: r ++ cs.flatten := by
  induction h generalizing w with
  | finish r =>
    have := prefix_of_prefix_scrubAll_append (y := []) hL hw (by simpa using hout)
    simpa using this
  | @push r c e r' out cs hscrub hheld _ ih =>
    rw [flatten_cons, ← append_assoc]
    rcases prefix_append_cases hout with hout | ⟨q, -, hq, rfl⟩
    · refine prefix_of_prefix_scrubAll_append hL hw ?_
      rw [hscrub, append_assoc]
      exact hout.trans (prefix_append e _)
    · -- the word goes on after the chunk, so there is no marker in it
      have hmark : ¬ m <:+: scrubAll m L (r ++ c) := by
        rw [hscrub]
        intro hinf
        exact hw.around ((hheld.infix_of_infix hL hinf).trans (prefix_append e q).isInfix)
      rw [← scrubAll_eq_self_of_unmarked hL hmark, hscrub, append_assoc]
      exact (prefix_append_right_inj e).mpr (ih (hw.mono (suffix_append e q)) hq)

/-- **None of the words is left in the result.** -/
theorem clean (h : Streams m L r cs out) : Clean L out := by
  induction h with
  | finish r => exact clean_scrubAll hL
  | @push r c e r' out cs hscrub hheld hrest ih =>
    have hclean : Clean L (e ++ r') := hscrub ▸ clean_scrubAll hL
    intro n hn hinf
    rcases infix_append_cases hinf with hinf | hinf | ⟨p, q, hp, -, hpe, hq, rfl⟩
    · exact hclean n hn (hinf.trans (prefix_append e r').isInfix)
    · exact ih n hn hinf
    · -- it begins in what was let go, and goes on in the text
      have hinto : NotInto m q := (hL _ hn).into.mono (suffix_append p q)
      exact hheld.notStarts hclean hn p hp hpe
        ((prefix_append_right_inj p).mpr (hrest.prefix_of_prefix hL hinto hq))

/-- One chunk is scrubbed as a whole. -/
theorem eq_of_singleton {c : List α}
    (h : Streams m L [] [c] out) : out = scrubAll m L c := by
  cases h with
  | @push _ _ e r' _ _ hscrub _ hrest =>
    cases hrest with
    | finish r' =>
      have hclean : Clean L (e ++ r') := hscrub ▸ clean_scrubAll hL
      rw [scrubAll_eq_self (hclean.of_infix (suffix_append e r').isInfix), ← hscrub,
        nil_append]

/-- **The chunks make no difference** if no word outlasts one that comes after it in the list. -/
theorem eq_scrubAll
    (hlast : L.Pairwise fun k n => ∀ a, ¬ Outlasts k n a) (h : Streams m L r cs out) :
    out = scrubAll m L (r ++ cs.flatten) := by
  induction h with
  | finish r => simp
  | @push r c e r' out cs hscrub hheld _ ih =>
    have hclean : Clean L (e ++ r') := hscrub ▸ clean_scrubAll hL
    rw [flatten_cons, ← append_assoc, ← scrubAll_scrubAll_append hL hlast, hscrub,
      append_assoc, scrubAll_append_of_notStarts hL fun n hn => hheld.notStarts hclean hn, ih]

end Streams

end Heph
