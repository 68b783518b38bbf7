import Mathlib

/-!
# Lists of one weight

The elements of two lists have weights, and what is known of each list is the sum. Where one list
has more of an element, and no fewer of any other one, **the sums differ whatever the weights**, as
long as that element has one (`Exceeds.sum_lt`). Otherwise there are weights for which the sums are
the same, and with them the element has not been noticed (`exists_balance`).
-/

namespace Heph

open List

variable {α : Type} [DecidableEq α] {l l' : List α} {p q : α}

/-- **The first list has more of the element, and no fewer of any other one.** -/
def Exceeds (l l' : List α) (p : α) : Prop := l'.count p < l.count p ∧ ∀ q, l'.count q ≤ l.count q

theorem exceeds_iff :
    Exceeds l l' p ↔ l'.count p < l.count p ∧ ∀ q ∈ l', l'.count q ≤ l.count q := by
  refine and_congr_right fun _ => ⟨fun h q _ => h q, fun h q => ?_⟩
  by_cases hq : q ∈ l'
  · exact h q hq
  · rw [count_eq_zero_of_not_mem hq]
    exact Nat.zero_le _

instance : Decidable (Exceeds l l' p) := decidable_of_iff _ exceeds_iff.symm

theorem Exceeds.sum_lt (h : Exceeds l l' p) {k : α → ℕ} (hp : 0 < k p) :
    (l'.map k).sum < (l.map k).sum := by
  -- the first list is the second one and more, among it the element
  obtain ⟨u, hu⟩ := Multiset.le_iff_exists_add.mp
    (Multiset.le_iff_count.mpr fun q => by simpa using h.2 q : (l' : Multiset α) ≤ l)
  have hcount := congrArg (Multiset.count p) hu
  have hlt := h.1
  simp only [Multiset.coe_count, Multiset.count_add] at hcount
  have hmem : k p ∈ u.map k := Multiset.mem_map_of_mem k (Multiset.count_pos.mp (by omega))
  have hsum := congrArg (fun s => (Multiset.map k s).sum) hu
  simp only [Multiset.map_add, Multiset.sum_add, Multiset.map_coe, Multiset.sum_coe] at hsum
  have hle := Multiset.le_sum_of_mem hmem
  omega

/-- Only one element has a weight. -/
theorem sum_map_one (a : ℕ) :
    (l.map fun r => if r = p then a else 0).sum = l.count p * a := by
  induction l with
  | nil => simp
  | cons r l ih =>
    rw [map_cons, sum_cons, ih, count_cons]
    by_cases hp : r = p
    · simp [hp, Nat.add_mul, Nat.add_comm]
    · simp [hp]

/-- Only two elements have a weight. -/
theorem sum_map_pair (hpq : p ≠ q) (a b : ℕ) :
    (l.map fun r => if r = p then a else if r = q then b else 0).sum =
      l.count p * a + l.count q * b := by
  induction l with
  | nil => simp
  | cons r l ih =>
    rw [map_cons, sum_cons, ih, count_cons, count_cons]
    by_cases hp : r = p
    · subst hp
      simp [hpq, Nat.add_mul, Nat.add_comm, Nat.add_left_comm]
    · by_cases hq : r = q
      · subst hq
        simp [hp, Nat.add_mul, Nat.add_comm, Nat.add_left_comm]
      · simp [hp, hq]

/-- The excess of one element is made up for by another one. -/
theorem exists_balance_of_lt (hp : l'.count p < l.count p) (hq : l.count q < l'.count q) :
    ∃ k : α → ℕ, 0 < k p ∧ (l.map k).sum = (l'.map k).sum := by
  have hpq : p ≠ q := by
    rintro rfl
    omega
  refine ⟨fun r => if r = p then l'.count q - l.count q
    else if r = q then l.count p - l'.count p else 0, ?_, ?_⟩
  · simp only [if_true]
    omega
  · rw [sum_map_pair hpq, sum_map_pair hpq]
    obtain ⟨d, hd⟩ := Nat.exists_eq_add_of_lt hp
    obtain ⟨e, he⟩ := Nat.exists_eq_add_of_lt hq
    have hd' : l.count p - l'.count p = d + 1 := by omega
    have he' : l'.count q - l.count q = e + 1 := by omega
    rw [hd', he', hd, he]
    ring

/-- **There are weights for which the sums are the same**, if neither list exceeds the other. -/
theorem exists_balance (h : ¬ Exceeds l l' p) (h' : ¬ Exceeds l' l p) :
    ∃ k : α → ℕ, 0 < k p ∧ (l.map k).sum = (l'.map k).sum := by
  rcases lt_trichotomy (l.count p) (l'.count p) with hlt | heq | hgt
  · have hq : ∃ q, l'.count q < l.count q := by
      by_contra hno
      push Not at hno
      exact h' ⟨hlt, hno⟩
    obtain ⟨q, hq⟩ := hq
    obtain ⟨k, hk, hsum⟩ := exists_balance_of_lt hlt hq
    exact ⟨k, hk, hsum.symm⟩
  · refine ⟨fun r => if r = p then 1 else 0, by simp, ?_⟩
    rw [sum_map_one, sum_map_one, heq]
  · have hq : ∃ q, l.count q < l'.count q := by
      by_contra hno
      push Not at hno
      exact h ⟨hgt, hno⟩
    obtain ⟨q, hq⟩ := hq
    exact exists_balance_of_lt hgt hq

end Heph
