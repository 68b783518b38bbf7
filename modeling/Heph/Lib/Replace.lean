import Mathlib

/-!
# Replacing a word by a marker

The occurrences of a word in a text are replaced by a marker, from the left and without overlap
(`replaceAll`). If no word can overlap the marker (`NoOverlap`), a marker is like a wall: an
occurrence of a word is on one side of it or on the other. So

* what is found in a text with markers was there before (`prefix_of_prefix_replaceAll` and the
  lemmas after it), and the word itself is gone (`not_infix_replaceAll`);
* the text before a marker and the text after it can be treated separately
  (`replaceAll_marker`), and so can a text of which no occurrence reaches into the rest
  (`replaceAll_append_of_notStarts`, `replaceAll_append_of_notEnds`).
-/

namespace Heph

open List

/-! ### Words and letters -/

variable {α : Type} {u v w : List α} {c : α}

/-- A prefix of a concatenation ends in the first part or in the second one. -/
theorem prefix_append_cases (h : w <+: u ++ v) : w <+: u ∨ ∃ q, q ≠ [] ∧ q <+: v ∧ w = u ++ q := by
  rcases prefix_or_prefix_of_prefix h (prefix_append u v) with h' | ⟨q, rfl⟩
  · exact .inl h'
  · rcases eq_or_ne q [] with rfl | hq
    · exact .inl (by simp)
    · exact .inr ⟨q, hq, (prefix_append_right_inj u).mp h, rfl⟩

/-- A suffix of a concatenation begins in the second part or in the first one. -/
theorem suffix_append_cases (h : w <:+ u ++ v) : w <:+ v ∨ ∃ p, p ≠ [] ∧ p <:+ u ∧ w = p ++ v := by
  rcases suffix_or_suffix_of_suffix h (suffix_append u v) with h' | ⟨p, rfl⟩
  · exact .inl h'
  · rcases eq_or_ne p [] with rfl | hp
    · exact .inl (by simp)
    · exact .inr ⟨p, hp, ((suffix_append_inj_of_length_eq rfl).mp h).1, rfl⟩

/-- A word that occurs in a concatenation occurs in one of the parts, or across. -/
theorem infix_append_cases (h : w <:+: u ++ v) :
    w <:+: u ∨ w <:+: v ∨ ∃ p q, p ≠ [] ∧ q ≠ [] ∧ p <:+ u ∧ q <+: v ∧ w = p ++ q := by
  rcases infix_append_iff.mp h with h | h | ⟨p, q, rfl, hp, hq⟩
  · exact .inl h
  · exact .inr (.inl h)
  · rcases eq_or_ne p [] with rfl | hpne
    · exact .inr (.inl hq.isInfix)
    rcases eq_or_ne q [] with rfl | hqne
    · exact .inl (by simpa using hp.isInfix)
    · exact .inr (.inr ⟨p, q, hpne, hqne, hp, hq, rfl⟩)

/-! ### Markers -/

section Markers

variable {m n : List α}

/-- **The word does not reach into a marker** that comes after its beginning. -/
structure NotInto (m w : List α) : Prop where
  around : ¬ m <:+: w
  apart : ∀ q, q ≠ [] → q <:+ w → ¬ q <+: m

/-- **The word does not come out of a marker** that comes before its end. -/
structure NotOutOf (m w : List α) : Prop where
  around : ¬ m <:+: w
  apart : ∀ p, p ≠ [] → p <+: w → ¬ p <:+ m

/-- **No occurrence of the word can touch a marker**: neither is part of the other one, and neither
begins with what the other one ends with. -/
structure NoOverlap (m n : List α) : Prop where
  ne_nil : n ≠ []
  inside : ¬ n <:+: m
  into : NotInto m n
  outOf : NotOutOf m n

theorem NotInto.mono (h : NotInto m w) (hv : v <:+ w) : NotInto m v :=
  ⟨fun hm => h.around (hm.trans hv.isInfix), fun q hq hqv => h.apart q hq (hqv.trans hv)⟩

theorem NotOutOf.mono (h : NotOutOf m w) (hv : v <+: w) : NotOutOf m v :=
  ⟨fun hm => h.around (hm.trans hv.isInfix), fun p hp hpv => h.apart p hp (hpv.trans hv)⟩

/-- What begins before a marker and does not reach into it ends before it. -/
theorem NotInto.prefix_left (hw : NotInto m w) (h : w <+: u ++ (m ++ v)) : w <+: u := by
  rcases prefix_append_cases h with h | ⟨q, hq, hqv, rfl⟩
  · exact h
  · rcases prefix_append_cases hqv with hqm | ⟨r, -, -, rfl⟩
    · exact absurd hqm (hw.apart q hq (suffix_append u q))
    · exact absurd ⟨u, r, by simp⟩ hw.around

theorem NoOverlap.ne_nil_marker (h : NoOverlap m n) : m ≠ [] := by
  rintro rfl
  exact h.into.around nil_infix

/-- The word occurs on one side of a marker. -/
theorem NoOverlap.infix_cases (hn : NoOverlap m n) (h : n <:+: u ++ (m ++ v)) :
    n <:+: u ∨ n <:+: v := by
  rcases infix_append_cases h with h | h | ⟨p, q, -, hq, -, hqv, rfl⟩
  · exact .inl h
  · rcases infix_append_cases h with h | h | ⟨p, q, hp, -, hpm, -, rfl⟩
    · exact absurd h hn.inside
    · exact .inr h
    · exact absurd hpm (hn.outOf.apart p hp (prefix_append p q))
  · have hinto : NotInto m q := hn.into.mono (suffix_append p q)
    exact absurd (prefix_nil.mp (hinto.prefix_left (u := []) hqv)) hq

theorem notInto_iff : NotInto m w ↔ ¬ m <:+: w ∧ ∀ i < w.length, ¬ w.drop i <+: m := by
  refine ⟨fun h => ⟨h.around, fun i hi => h.apart _ ?_ (drop_suffix i w)⟩,
    fun h => ⟨h.1, fun q hq hqw => ?_⟩⟩
  · exact ne_nil_of_length_pos (by rw [length_drop]; omega)
  · rw [suffix_iff_eq_drop.mp hqw]
    have hpos := length_pos_iff.mpr hq
    have hle := hqw.length_le
    exact h.2 _ (by omega)

theorem notOutOf_iff : NotOutOf m w ↔ ¬ m <:+: w ∧ ∀ i < w.length, ¬ w.take (i + 1) <:+ m := by
  refine ⟨fun h => ⟨h.around, fun i hi => h.apart _ ?_ ?_⟩, fun h => ⟨h.1, fun p hp hpw => ?_⟩⟩
  · exact ne_nil_of_length_pos (by rw [List.length_take]; omega)
  · exact take_prefix (i + 1) w
  · rw [prefix_iff_eq_take.mp hpw]
    have hpos := length_pos_iff.mpr hp
    have hle := hpw.length_le
    have hlast : p.length - 1 + 1 = p.length := by omega
    have hcut := h.2 (p.length - 1) (by omega)
    rwa [hlast] at hcut

variable [DecidableEq α]

instance : Decidable (NotInto m w) := decidable_of_iff _ notInto_iff.symm

instance : Decidable (NotOutOf m w) := decidable_of_iff _ notOutOf_iff.symm

instance : Decidable (NoOverlap m n) :=
  decidable_of_iff (n ≠ [] ∧ ¬ n <:+: m ∧ NotInto m n ∧ NotOutOf m n)
    ⟨fun h => ⟨h.1, h.2.1, h.2.2.1, h.2.2.2⟩, fun h => ⟨h.ne_nil, h.inside, h.into, h.outOf⟩⟩

end Markers

/-! ### Replacing -/

section Replace

variable [DecidableEq α] {m text n x y p q : List α} {b : α}

/-- The occurrences of `n` are replaced by the text, from the left. -/
def replaceAll (text n : List α) : List α → List α
  | [] => []
  | b :: x =>
    if n <+: b :: x then text ++ replaceAll text n (x.drop (n.length - 1))
    else b :: replaceAll text n x
termination_by x => x.length
decreasing_by
  · simp only [List.length_drop, List.length_cons]
    omega
  · simp only [List.length_cons]
    omega

theorem replaceAll_nil : replaceAll text n [] = [] := by rw [replaceAll]

theorem replaceAll_append_self (hn : n ≠ []) :
    replaceAll text n (n ++ x) = text ++ replaceAll text n x := by
  obtain ⟨b, n, rfl⟩ := exists_cons_of_ne_nil hn
  rw [cons_append, replaceAll]
  simp

theorem replaceAll_cons (h : ¬ n <+: b :: x) :
    replaceAll text n (b :: x) = b :: replaceAll text n x := by
  rw [replaceAll, if_neg h]

section

variable (hn : n ≠ [])

include hn

/-- The text is read from the left, and an occurrence is skipped as a whole. -/
@[elab_as_elim]
theorem replaceAll_induction {P : List α → Prop} (nil : P [])
    (mark : ∀ x, P x → P (n ++ x)) (keep : ∀ b x, ¬ n <+: b :: x → P x → P (b :: x))
    (x : List α) : P x := by
  induction hlen : x.length using Nat.strong_induction_on generalizing x with
  | _ k ih =>
    cases x with
    | nil => exact nil
    | cons b x =>
      by_cases h : n <+: b :: x
      · obtain ⟨z, hz⟩ := h
        have hpos : 0 < n.length := length_pos_iff.mpr hn
        have hk : n.length + z.length = k := by rw [← hlen, ← hz, length_append]
        rw [← hz]
        exact mark z (ih z.length (by omega) z rfl)
      · exact keep b x h (ih x.length (by simp [← hlen]) x rfl)

/-! #### What is found was there before -/

/-- What a text with markers begins with it began with before, up to the first marker. -/
theorem prefix_of_prefix_replaceAll (hw : NotInto m w)
    (h : w <+: replaceAll m n x) : w <+: x := by
  induction x using replaceAll_induction hn generalizing w with
  | nil => simpa [replaceAll_nil] using h
  | mark x _ =>
    rw [replaceAll_append_self hn] at h
    exact (hw.prefix_left (u := []) h).trans nil_prefix
  | keep b x hb ih =>
    rw [replaceAll_cons hb] at h
    rcases prefix_cons_iff.mp h with rfl | ⟨t, rfl, ht⟩
    · exact nil_prefix
    · exact cons_prefix_cons.mpr ⟨rfl, ih (hw.mono (suffix_cons b t)) ht⟩

/-- Where something was replaced there is a marker. -/
theorem replaceAll_eq_self_of_unmarked (h : ¬ text <:+: replaceAll text n x) :
    replaceAll text n x = x := by
  induction x using replaceAll_induction hn with
  | nil => exact replaceAll_nil
  | mark x _ =>
    rw [replaceAll_append_self hn] at h
    exact absurd (prefix_append text _).isInfix h
  | keep b x hb ih =>
    rw [replaceAll_cons hb] at h ⊢
    rw [ih fun hx => h (hx.trans (suffix_cons b _).isInfix)]

/-- What a text with markers ends with it ended with before, from the last marker on. -/
theorem suffix_of_suffix_replaceAll (hw : NotOutOf m w)
    (h : w <:+ replaceAll m n x) : w <:+ x := by
  induction x using replaceAll_induction hn with
  | nil => simpa [replaceAll_nil] using h
  | mark x ih =>
    rw [replaceAll_append_self hn] at h
    rcases suffix_append_cases h with h | ⟨p, hp, hpm, rfl⟩
    · exact (ih h).trans (suffix_append n x)
    · exact absurd hpm (hw.apart p hp (prefix_append p _))
  | keep b x hb ih =>
    rw [replaceAll_cons hb] at h
    rcases suffix_cons_iff.mp h with rfl | h
    · rw [replaceAll_eq_self_of_unmarked hn
        fun hx => hw.around (hx.trans (suffix_cons b _).isInfix)]
    · exact (ih h).trans (suffix_cons b x)

/-- The same for a text that something follows. -/
theorem prefix_of_prefix_replaceAll_append (hw : NotInto m w)
    (h : w <+: replaceAll m n x ++ y) : w <+: x ++ y := by
  rcases prefix_append_cases h with h | ⟨q, -, hq, rfl⟩
  · exact (prefix_of_prefix_replaceAll hn hw h).trans (prefix_append x y)
  · rw [replaceAll_eq_self_of_unmarked hn
      fun hx => hw.around (hx.trans (prefix_append _ q).isInfix)]
    exact (prefix_append_right_inj x).mpr hq

theorem infix_of_infix_replaceAll (hw : NoOverlap m w)
    (h : w <:+: replaceAll m n x) : w <:+: x := by
  induction x using replaceAll_induction hn with
  | nil => simpa [replaceAll_nil] using h
  | mark x ih =>
    rw [replaceAll_append_self hn] at h
    rcases hw.infix_cases (u := []) h with h | h
    · exact absurd (infix_nil.mp h) hw.ne_nil
    · exact (ih h).trans (suffix_append n x).isInfix
  | keep b x hb ih =>
    rw [replaceAll_cons hb] at h
    rcases infix_cons_iff.mp h with h | h
    · rw [← replaceAll_cons hb] at h
      exact (prefix_of_prefix_replaceAll hn hw.into h).isInfix
    · exact (ih h).trans (suffix_cons b x).isInfix

end

/-- **The word is gone.** -/
theorem not_infix_replaceAll (hn : NoOverlap m n) : ¬ n <:+: replaceAll m n x := by
  induction x using replaceAll_induction hn.ne_nil with
  | nil =>
    rw [replaceAll_nil, infix_nil]
    exact hn.ne_nil
  | mark x ih =>
    rw [replaceAll_append_self hn.ne_nil]
    intro h
    rcases hn.infix_cases (u := []) h with h | h
    · exact hn.ne_nil (infix_nil.mp h)
    · exact ih h
  | keep b x hb ih =>
    rw [replaceAll_cons hb]
    intro h
    rcases infix_cons_iff.mp h with h | h
    · rw [← replaceAll_cons hb] at h
      exact hb (prefix_of_prefix_replaceAll hn.ne_nil hn.into h)
    · exact ih h

/-! #### Parts that can be treated separately -/

/-- No occurrence of the word in `x ++ y` begins in `x`. -/
def NotStarts (n x y : List α) : Prop := ∀ p, p ≠ [] → p <:+ x → ¬ n <+: p ++ y

/-- No occurrence of the word in `x ++ y` ends in `y`. -/
def NotEnds (n x y : List α) : Prop := ∀ q, q ≠ [] → q <+: y → ¬ n <:+ x ++ q

omit [DecidableEq α] in
theorem NotStarts.tail (h : NotStarts n (b :: x) y) : NotStarts n x y :=
  fun p hp hpx => h p hp (hpx.trans (suffix_cons b x))

omit [DecidableEq α] in
theorem NotStarts.cons (hb : ¬ n <+: b :: (x ++ y)) (h : NotStarts n x y) :
    NotStarts n (b :: x) y := by
  intro p hp hpx
  rcases suffix_cons_iff.mp hpx with rfl | hpx
  · exact hb
  · exact h p hp hpx

theorem replaceAll_append_of_notStarts (h : NotStarts n x y) :
    replaceAll text n (x ++ y) = x ++ replaceAll text n y := by
  induction x with
  | nil => rfl
  | cons b x ih =>
    have hb : ¬ n <+: b :: (x ++ y) := h (b :: x) (cons_ne_nil b x) (suffix_refl _)
    rw [cons_append, replaceAll_cons hb, ih h.tail, cons_append]

/-- A text without the word stays as it is. -/
theorem replaceAll_eq_self (h : ¬ n <:+: x) : replaceAll text n x = x := by
  have hx : NotStarts n x [] := by
    intro p _ hpx hn
    rw [append_nil] at hn
    exact h (hn.isInfix.trans hpx.isInfix)
  have happ : replaceAll text n (x ++ []) = x ++ replaceAll text n [] :=
    replaceAll_append_of_notStarts hx
  rwa [replaceAll_nil, append_nil] at happ

theorem replaceAll_append_of_notEnds (hn : n ≠ []) (h : NotEnds n x y) :
    replaceAll text n (x ++ y) = replaceAll text n x ++ y := by
  induction x using replaceAll_induction hn with
  | nil =>
    rw [replaceAll_nil, nil_append]
    refine replaceAll_eq_self ?_
    rintro ⟨u, v, rfl⟩
    exact h (u ++ n) (by simp [hn]) (prefix_append _ v) (suffix_append u n)
  | mark x ih =>
    have hx : NotEnds n x y := by
      intro q hq hqy hnq
      refine h q hq hqy ?_
      rw [append_assoc]
      exact hnq.trans (suffix_append n _)
    rw [append_assoc, replaceAll_append_self hn, ih hx, replaceAll_append_self hn,
      append_assoc]
  | keep b x hb ih =>
    have hx : NotEnds n x y := fun q hq hqy hnq =>
      h q hq hqy (hnq.trans (suffix_cons b _))
    have hb' : ¬ n <+: b :: (x ++ y) := by
      intro hnb
      rcases prefix_append_cases (u := b :: x) hnb with hnb | ⟨q, hq, hqy, rfl⟩
      · exact hb hnb
      · exact h q hq hqy (suffix_refl _)
    rw [cons_append, replaceAll_cons hb', ih hx, replaceAll_cons hb, cons_append]

omit [DecidableEq α] in
/-- No occurrence begins in a marker. -/
theorem NoOverlap.notStarts (hn : NoOverlap m n) : NotStarts n m y := by
  intro p hp hpm hnp
  rcases prefix_append_cases hnp with hnp | ⟨q, -, -, rfl⟩
  · exact hn.inside (hnp.isInfix.trans hpm.isInfix)
  · exact hn.outOf.apart p hp (prefix_append p q) hpm

/-- **The text before a marker and the text after it are treated separately.** -/
theorem replaceAll_marker (hn : NoOverlap m n) :
    replaceAll m n (x ++ (m ++ y)) =
      replaceAll m n x ++ (m ++ replaceAll m n y) := by
  induction x using replaceAll_induction hn.ne_nil with
  | nil =>
    rw [nil_append, replaceAll_append_of_notStarts hn.notStarts, replaceAll_nil,
      nil_append]
  | mark x ih =>
    rw [append_assoc, replaceAll_append_self hn.ne_nil, ih, replaceAll_append_self hn.ne_nil,
      append_assoc]
  | keep b x hb ih =>
    have hb' : ¬ n <+: b :: (x ++ (m ++ y)) := by
      intro hnb
      exact hb (hn.into.prefix_left hnb)
    rw [cons_append, replaceAll_cons hb', ih, replaceAll_cons hb, cons_append]

/-- **What is replaced early is replaced anyway.** -/
theorem replaceAll_replaceAll_append (hn : NoOverlap m n) :
    replaceAll m n (replaceAll m n x ++ y) = replaceAll m n (x ++ y) := by
  induction x using replaceAll_induction hn.ne_nil with
  | nil => rw [replaceAll_nil]
  | mark x ih =>
    have hm := replaceAll_marker (x := []) (y := replaceAll m n x ++ y) hn
    rw [replaceAll_nil, nil_append, nil_append, ih] at hm
    rw [replaceAll_append_self hn.ne_nil, append_assoc, hm, append_assoc,
      replaceAll_append_self hn.ne_nil]
  | keep b x hb ih =>
    by_cases hnb : n <+: b :: (x ++ y)
    · -- the word is longer than what was read
      rcases prefix_append_cases (u := b :: x) hnb with hnb | ⟨q, hq, -, rfl⟩
      · exact absurd hnb hb
      · have hself : replaceAll m (b :: x ++ q) (b :: x) = b :: x := by
          refine replaceAll_eq_self fun hinf => ?_
          have hle := hinf.length_le
          have hpos := length_pos_iff.mpr hq
          simp only [length_append] at hle
          omega
        rw [hself]
    · have hnb' : ¬ n <+: b :: (replaceAll m n x ++ y) := by
        intro hpre
        rw [← cons_append, ← replaceAll_cons hb] at hpre
        exact hnb (prefix_of_prefix_replaceAll_append hn.ne_nil hn.into hpre)
      rw [replaceAll_cons hb, cons_append, replaceAll_cons hnb', ih, cons_append,
        replaceAll_cons hnb]

/-- **Where two texts meet**: either no occurrence goes across, or the first one that does is
replaced. -/
theorem replaceAll_append_cases (hn : n ≠ []) (hx : ¬ n <:+: x) :
    (NotStarts n x y ∧ replaceAll text n (x ++ y) = x ++ replaceAll text n y) ∨
      ∃ a s t z, x = a ++ s ∧ y = t ++ z ∧ n = s ++ t ∧ s ≠ [] ∧ t ≠ [] ∧
        NotStarts n a (s ++ y) ∧
        replaceAll text n (x ++ y) = a ++ (text ++ replaceAll text n z) := by
  induction x with
  | nil =>
    refine .inl ⟨fun p hp hpx => ?_, rfl⟩
    exact absurd (suffix_nil.mp hpx) hp
  | cons b x ih =>
    by_cases hnb : n <+: b :: (x ++ y)
    · rcases prefix_append_cases (u := b :: x) hnb with hnb | ⟨t, ht, ⟨z, rfl⟩, rfl⟩
      · exact absurd hnb.isInfix hx
      · refine .inr ⟨[], b :: x, t, z, rfl, rfl, rfl, cons_ne_nil b x, ht, ?_, ?_⟩
        · exact fun p hp hpx => absurd (suffix_nil.mp hpx) hp
        · rw [← append_assoc, replaceAll_append_self (by simp), nil_append]
    · have hx' : ¬ n <:+: x := fun h => hx (h.trans (suffix_cons b x).isInfix)
      rcases ih hx' with ⟨hns, heq⟩ | ⟨a, s, t, z, rfl, rfl, rfl, hs, ht, hns, heq⟩
      · refine .inl ⟨hns.cons hnb, ?_⟩
        rw [cons_append, replaceAll_cons hnb, heq, cons_append]
      · refine .inr ⟨b :: a, s, t, z, rfl, rfl, rfl, hs, ht, hns.cons (by simpa using hnb), ?_⟩
        rw [cons_append, replaceAll_cons hnb, heq, cons_append]

end Replace

end Heph
