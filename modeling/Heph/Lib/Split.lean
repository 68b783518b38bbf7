import Mathlib

/-!
# Splitting a list at a separator, and joining it again

`List.splitOn` and `List.intercalate` are inverse to each other on segments without the
separator. This file has what else a path needs: which elements a segment and a join have,
and how a join begins and ends.
-/

namespace Heph

open List

variable {α : Type*} {x c : α} {l : List (List α)} {s : List α}

/-- The elements of a join. -/
theorem mem_intercalate (h : c ∈ [x].intercalate l) : c = x ∨ ∃ s ∈ l, c ∈ s := by
  induction l with
  | nil => simp [intercalate] at h
  | cons s l ih =>
    cases l with
    | nil =>
      rw [intercalate_singleton] at h
      exact .inr ⟨s, mem_singleton_self s, h⟩
    | cons t l =>
      rw [intercalate_cons_cons, mem_append, mem_append, mem_singleton] at h
      rcases h with (h | rfl) | h
      · exact .inr ⟨s, mem_cons_self, h⟩
      · exact .inl rfl
      · refine (ih h).imp_right ?_
        rintro ⟨u, hu, hc⟩
        exact ⟨u, mem_cons_of_mem s hu, hc⟩

/-- A segment is part of the join. -/
theorem mem_intercalate_of_mem (hs : s ∈ l) (hc : c ∈ s) : c ∈ [x].intercalate l := by
  induction l with
  | nil => simp at hs
  | cons t l ih =>
    cases l with
    | nil =>
      obtain rfl := mem_singleton.mp hs
      rwa [intercalate_singleton]
    | cons u l =>
      rw [intercalate_cons_cons, mem_append, mem_append]
      rcases mem_cons.mp hs with rfl | hs
      · exact .inl (.inl hc)
      · exact .inr (ih hs)

/-- A join is empty only if there is nothing to join, or one empty segment. -/
theorem intercalate_eq_nil (h : [x].intercalate l = []) (hne : ∀ s ∈ l, s ≠ []) : l = [] := by
  cases l with
  | nil => rfl
  | cons s l =>
    obtain ⟨c, hc⟩ := exists_mem_of_ne_nil s (hne s mem_cons_self)
    have hmem : c ∈ [x].intercalate (s :: l) := mem_intercalate_of_mem mem_cons_self hc
    rw [h] at hmem
    simp at hmem

/-- A join with its separators attached to the segments that they precede. -/
theorem intercalate_cons (x s : List α) (l : List (List α)) :
    x.intercalate (s :: l) = s ++ l.flatMap fun t => x ++ t := by
  induction l generalizing s with
  | nil => simp
  | cons t l ih => rw [intercalate_cons_cons, ih t, flatMap_cons, append_assoc,
      append_assoc]

/-- **A join of joins is one join**, of lists that have something to join. -/
theorem intercalate_map_intercalate {x : List α} {ls : List (List (List α))}
    (h : ∀ l ∈ ls, l ≠ []) : x.intercalate (ls.map x.intercalate) = x.intercalate ls.flatten := by
  have htail : ∀ ls : List (List (List α)), (∀ l ∈ ls, l ≠ []) →
      ((ls.map x.intercalate).flatMap fun t => x ++ t) = ls.flatten.flatMap fun t => x ++ t := by
    intro ls h
    induction ls with
    | nil => rfl
    | cons l ls ih =>
      obtain ⟨s, l, rfl⟩ := exists_cons_of_ne_nil (h l mem_cons_self)
      rw [map_cons, flatMap_cons, ih fun l hl => h l (mem_cons_of_mem _ hl),
        intercalate_cons, flatten_cons, flatMap_append, flatMap_cons]
      simp only [append_assoc]
  cases ls with
  | nil => rfl
  | cons l ls =>
    obtain ⟨s, l, rfl⟩ := exists_cons_of_ne_nil (h l mem_cons_self)
    rw [map_cons, intercalate_cons, htail ls fun l hl => h l (mem_cons_of_mem _ hl),
      intercalate_cons, flatten_cons, cons_append, intercalate_cons, flatMap_append,
      append_assoc]

/-- **A join begins as its first segment does**, and so not with the separator. -/
theorem head?_intercalate_ne (hne : ∀ s ∈ l, s ≠ []) (hx : ∀ s ∈ l, x ∉ s) :
    ([x].intercalate l).head? ≠ some x := by
  cases l with
  | nil => simp [intercalate]
  | cons s l =>
    have hs : ∀ t : List α, (s ++ t).head? ≠ some x := by
      intro t h
      obtain ⟨c, s', rfl⟩ := exists_cons_of_ne_nil (hne s mem_cons_self)
      obtain rfl : c = x := by simpa using h
      exact hx (c :: s') mem_cons_self mem_cons_self
    cases l with
    | nil => simpa [intercalate_singleton] using hs []
    | cons t l =>
      exact hs _

/-- **A join ends as its last segment does**, and so not with the separator. -/
theorem getLast?_intercalate_ne (hne : ∀ s ∈ l, s ≠ []) (hx : ∀ s ∈ l, x ∉ s) :
    ([x].intercalate l).getLast? ≠ some x := by
  induction l with
  | nil => simp [intercalate]
  | cons s l ih =>
    cases l with
    | nil =>
      rw [intercalate_singleton]
      exact fun h => hx s mem_cons_self (mem_of_getLast? h)
    | cons t l =>
      have hrest := ih (fun u hu => hne u (mem_cons_of_mem s hu))
        fun u hu => hx u (mem_cons_of_mem s hu)
      have hnil : [x].intercalate (t :: l) ≠ [] := fun h =>
        cons_ne_nil t l (intercalate_eq_nil h fun u hu => hne u (mem_cons_of_mem s hu))
      rwa [intercalate_cons_cons, getLast?_append_of_ne_nil _ hnil]

variable [BEq α] [LawfulBEq α]

/-- **A segment has no separator.** -/
theorem notMem_of_mem_splitOn {t : List α} (h : s ∈ t.splitOn x) : x ∉ s := by
  induction t generalizing s with
  | nil =>
    rw [splitOn_nil, mem_singleton] at h
    simp [h]
  | cons a t ih =>
    rw [splitOn_cons_eq_if_modifyHead] at h
    split at h
    · rcases mem_cons.mp h with rfl | h
      · exact not_mem_nil
      · exact ih h
    · next ha =>
      cases hsplit : t.splitOn x with
      | nil => exact absurd hsplit (splitOn_ne_nil x t)
      | cons u l =>
        rw [hsplit] at h
        rcases mem_cons.mp h with rfl | h
        · have hu : x ∉ u := ih (hsplit ▸ mem_cons_self)
          rw [mem_cons, not_or]
          exact ⟨fun hxa => ha (by simp [hxa]), hu⟩
        · exact ih (hsplit ▸ mem_cons_of_mem u h)

/-- The elements of a segment are elements of the list. -/
theorem mem_of_mem_splitOn {t : List α} (h : s ∈ t.splitOn x) (hc : c ∈ s) : c ∈ t := by
  have ht : [x].intercalate (t.splitOn x) = t := intercalate_splitOn x
  rw [← ht]
  exact mem_intercalate_of_mem h hc

/-- Nothing is trimmed from the end of a list that does not end with `x`. -/
theorem rdropWhile_of_getLast?_ne (h : s.getLast? ≠ some x) :
    s.rdropWhile (· == x) = s := by
  refine rdropWhile_eq_self_iff.mpr fun hne hlast => h ?_
  rw [getLast?_eq_getLast_of_ne_nil hne]
  simpa using hlast

end Heph
