import Mathlib

/-!
# Searching a graph with a stack

The depth-first search every graph walk of an imperative program writes: a stack
of nodes still to expand, a set of the nodes already seen, and the list of the
nodes in the order they were seen. One node is popped, its neighbours are scanned
from left to right, and a neighbour that is wanted and new is pushed. A scan that
meets a *forbidden* neighbour stops the whole search.

The search runs on explicit fuel, one unit per popped node. A node is pushed at
most once, so the number of nodes is fuel enough, and the two facts a caller needs
are then exact (`Search.run_start_eq_none` and `Search.run_start_eq_some`):
the search stops early exactly when a forbidden neighbour of a reachable node
exists, and otherwise the nodes it has found are the reachable ones, each once.
-/

namespace Heph

open List Finset Relation

/-- The state of a search: the nodes seen so far as a set, the same nodes in the
order they were seen, and the nodes still to be expanded, the next one first. -/
structure Search (α : Type) where
  /-- The nodes seen so far. -/
  visited : Finset α
  /-- The nodes seen so far, in order. -/
  found : List α
  /-- The nodes still to be expanded. -/
  stack : List α

namespace Search

variable {α : Type} [DecidableEq α] {stop keep : α → Bool} {ws : List α}

/-- The search about to expand its first node. -/
def start (x : α) : Search α := ⟨{x}, [x], [x]⟩

/-- Seeing a new node. -/
def push (s : Search α) (w : α) : Search α :=
  ⟨insert w s.visited, s.found ++ [w], w :: s.stack⟩

/-- Scanning a list of neighbours: `none` at the first forbidden one, and otherwise
every wanted neighbour that is new is seen. -/
def scan (stop keep : α → Bool) : List α → Search α → Option (Search α)
  | [], s => some s
  | w :: ws, s =>
    if stop w then none
    else if keep w && decide (w ∉ s.visited) then scan stop keep ws (s.push w)
    else scan stop keep ws s

/-- Expanding the nodes of the stack until it is empty, at most `fuel` of them. -/
def run (next : α → List α) (stop keep : α → Bool) : ℕ → Search α → Option (Search α)
  | 0, s => some s
  | fuel + 1, s =>
    match s.stack with
    | [] => some s
    | x :: rest => (scan stop keep (next x) { s with stack := rest }).bind
        (run next stop keep fuel)

/-- The steps the search follows: to a neighbour that is wanted. -/
def Follows (next : α → List α) (keep : α → Bool) (x y : α) : Prop :=
  y ∈ next x ∧ keep y = true

/-! ### What one scan does -/

/-- **A scan fails exactly at a forbidden neighbour.** -/
theorem scan_eq_none {s : Search α} :
    scan stop keep ws s = none ↔ ∃ w ∈ ws, stop w = true := by
  induction ws generalizing s with
  | nil => simp [scan]
  | cons w ws ih =>
    by_cases hstop : stop w = true
    · simp [scan, hstop]
    · rw [scan, if_neg hstop]
      split <;> simp [ih, hstop]

/-- What a scan that succeeds has added: the nodes of `new`, which are the wanted
neighbours that had not been seen. -/
structure Scanned (keep : α → Bool) (ws new : List α) (s s' : Search α) : Prop where
  visited : s'.visited = s.visited ∪ new.toFinset
  found : s'.found = s.found ++ new
  stack : s'.stack = new.reverse ++ s.stack
  nodup : new.Nodup
  fresh : ∀ w ∈ new, w ∈ ws ∧ keep w = true ∧ w ∉ s.visited
  covers : ∀ w ∈ ws, keep w = true → w ∈ s'.visited

/-- **A scan that succeeds sees exactly the wanted neighbours that are new.** -/
theorem scan_eq_some {s s' : Search α} (h : scan stop keep ws s = some s') :
    ∃ new, Scanned keep ws new s s' := by
  induction ws generalizing s with
  | nil =>
    obtain rfl : s = s' := by simpa [scan] using h
    exact ⟨[], by simp, by simp, by simp, nodup_nil, by simp, by simp⟩
  | cons w ws ih =>
    have hstop : ¬stop w = true := fun hc => by simp [scan, hc] at h
    rw [scan, if_neg hstop] at h
    by_cases hk : (keep w && decide (w ∉ s.visited)) = true
    · rw [if_pos hk] at h
      obtain ⟨hkeep, hnew⟩ : keep w = true ∧ w ∉ s.visited := by simpa using hk
      obtain ⟨new, hv, hf, hs, hnd, hfr, hco⟩ := ih h
      have hw : w ∉ new := fun hc => by simpa [push] using (hfr w hc).2.2
      refine ⟨w :: new, ?_, ?_, ?_, nodup_cons.mpr ⟨hw, hnd⟩, ?_, ?_⟩
      · ext y
        simp only [hv, push, mem_union, mem_insert, mem_toFinset,
          List.mem_cons]
        tauto
      · simp [hf, push]
      · simp [hs, push]
      · rintro y (_ | ⟨_, hy⟩)
        · exact ⟨mem_cons_self, hkeep, hnew⟩
        · obtain ⟨h1, h2, h3⟩ := hfr y hy
          refine ⟨mem_cons_of_mem _ h1, h2, fun hc => h3 ?_⟩
          exact mem_insert_of_mem hc
      · rintro y (_ | ⟨_, hy⟩) hky
        · rw [hv]
          exact mem_union_left _ (mem_insert_self _ _)
        · exact hco y hy hky
    · rw [if_neg hk] at h
      obtain ⟨new, hv, hf, hs, hnd, hfr, hco⟩ := ih h
      refine ⟨new, hv, hf, hs, hnd, fun y hy => ?_, ?_⟩
      · exact ⟨mem_cons_of_mem _ (hfr y hy).1, (hfr y hy).2⟩
      · rintro y (_ | ⟨_, hy⟩) hky
        · -- A wanted neighbour that was not pushed had been seen before.
          have hseen : w ∈ s.visited := by
            by_contra hc
            exact hk (by simp [hky, hc])
          rw [hv]
          exact mem_union_left _ hseen
        · exact hco y hy hky

/-! ### What a whole search does -/

section Run

variable {next : α → List α} {x₀ : α} {U : Finset α} {s : Search α}

/-- **The invariant of the search** from `x₀` in the universe `U`: what is found is
reachable, and a node that is found and no longer on the stack has been expanded –
its wanted neighbours are found and none of its neighbours is forbidden. -/
structure Inv (next : α → List α) (stop keep : α → Bool) (x₀ : α) (U : Finset α)
    (s : Search α) : Prop where
  visited : s.visited = s.found.toFinset
  nodup : s.found.Nodup
  stack_nodup : s.stack.Nodup
  stack_sub : ∀ y ∈ s.stack, y ∈ s.found
  start_mem : x₀ ∈ s.found
  reach : ∀ y ∈ s.found, ReflTransGen (Follows next keep) x₀ y
  inside : ∀ y ∈ s.found, y ∈ U
  expanded : ∀ y ∈ s.found, y ∉ s.stack → ∀ w ∈ next y,
    stop w = false ∧ (keep w = true → w ∈ s.found)

theorem inv_start (hx : x₀ ∈ U) : Inv next stop keep x₀ U (start x₀) where
  visited := by simp [start]
  nodup := by simp [start]
  stack_nodup := by simp [start]
  stack_sub := by simp [start]
  start_mem := by simp [start]
  reach y hy := by
    obtain rfl : y = x₀ := by simpa [start] using hy
    exact .refl
  inside y hy := by
    obtain rfl : y = x₀ := by simpa [start] using hy
    exact hx
  expanded y hy hns := by
    obtain rfl : y = x₀ := by simpa [start] using hy
    exact absurd (by simp [start]) hns

/-- **Expanding one node keeps the invariant**, and leaves one more node found and
off the stack. -/
theorem inv_scan (hU : ∀ y ∈ U, ∀ w ∈ next y, keep w = true → w ∈ U) {s' : Search α}
    {x : α} {rest : List α} (hs : s.stack = x :: rest) (hinv : Inv next stop keep x₀ U s)
    (h : scan stop keep (next x) { s with stack := rest } = some s') :
    Inv next stop keep x₀ U s' ∧
      s'.found.length + rest.length = s.found.length + s'.stack.length := by
  have hxf : x ∈ s.found := hinv.stack_sub x (by simp [hs])
  have hxr : x ∉ rest ∧ rest.Nodup := by
    have := hinv.stack_nodup
    rw [hs] at this
    exact nodup_cons.mp this
  have hnostop : ∀ w ∈ next x, stop w = false := fun w hw => by
    by_contra hc
    have hnone : scan stop keep (next x) { s with stack := rest } = none :=
      scan_eq_none.mpr ⟨w, hw, by simpa using hc⟩
    rw [h] at hnone
    exact absurd hnone (by simp)
  obtain ⟨new, hv, hf, hst, hnd, hfr, hco⟩ := scan_eq_some h
  have hdisj : ∀ w ∈ new, w ∉ s.found := fun w hw hc =>
    (hfr w hw).2.2 (by simpa [hinv.visited] using hc)
  refine ⟨⟨?_, ?_, ?_, ?_, ?_, ?_, ?_, ?_⟩, ?_⟩
  · rw [hv, hf, toFinset_append]
    exact congrArg (· ∪ _) hinv.visited
  · rw [hf]
    refine nodup_append'.mpr ⟨hinv.nodup, hnd, fun w hw hw' => hdisj w hw' hw⟩
  · rw [hst]
    refine nodup_append'.mpr ⟨nodup_reverse.mpr hnd, hxr.2, fun w hw hw' => ?_⟩
    exact hdisj w (mem_reverse.mp hw) (hinv.stack_sub w (by simp [hs, hw']))
  · intro y hy
    rw [hst, mem_append, mem_reverse] at hy
    rw [hf, mem_append]
    rcases hy with hy | hy
    · exact Or.inr hy
    · exact Or.inl (hinv.stack_sub y (by simp [hs, hy]))
  · rw [hf]
    exact mem_append_left _ hinv.start_mem
  · intro y hy
    rw [hf, mem_append] at hy
    rcases hy with hy | hy
    · exact hinv.reach y hy
    · exact (hinv.reach x hxf).tail ⟨(hfr y hy).1, (hfr y hy).2.1⟩
  · intro y hy
    rw [hf, mem_append] at hy
    rcases hy with hy | hy
    · exact hinv.inside y hy
    · exact hU x (hinv.inside x hxf) y (hfr y hy).1 (hfr y hy).2.1
  · intro y hy hns w hw
    rw [hst, mem_append, mem_reverse, not_or] at hns
    rw [hf, mem_append] at hy
    have hy' : y ∈ s.found := hy.resolve_right hns.1
    rcases eq_or_ne y x with rfl | hne
    · refine ⟨hnostop w hw, fun hk => ?_⟩
      have hmem := hco w hw hk
      rw [hv, mem_union, mem_toFinset] at hmem
      rw [hf, mem_append]
      exact hmem.imp_left fun hc => by simpa [hinv.visited] using hc
    · obtain ⟨h1, h2⟩ := hinv.expanded y hy' (by simp [hs, hne, hns.2]) w hw
      exact ⟨h1, fun hk => by rw [hf]; exact mem_append_left _ (h2 hk)⟩
  · rw [hf, hst]
    simp only [length_append, length_reverse]
    omega

theorem Inv.length_le (hinv : Inv next stop keep x₀ U s) :
    s.found.length ≤ U.card := by
  rw [← toFinset_card_of_nodup hinv.nodup]
  exact card_le_card fun y hy => hinv.inside y (mem_toFinset.mp hy)

section

variable (hU : ∀ y ∈ U, ∀ w ∈ next y, keep w = true → w ∈ U)

include hU

/-- **A run keeps the invariant and empties the stack**, given a unit of fuel for
every node of the universe that has not been expanded yet. -/
theorem inv_run (fuel : ℕ) :
    ∀ s s' : Search α, Inv next stop keep x₀ U s → U.card + s.stack.length ≤
        fuel + s.found.length →
      run next stop keep fuel s = some s' → Inv next stop keep x₀ U s' ∧ s'.stack = [] := by
  induction fuel with
  | zero =>
    intro s s' hinv hfuel h
    obtain rfl : s = s' := by simpa [run] using h
    refine ⟨hinv, eq_nil_of_length_eq_zero ?_⟩
    have := hinv.length_le
    omega
  | succ fuel ih =>
    intro s s' hinv hfuel h
    cases hs : s.stack with
    | nil =>
      obtain rfl : s = s' := by simpa [run, hs] using h
      exact ⟨hinv, hs⟩
    | cons x rest =>
      simp only [run, hs, Option.bind_eq_some_iff] at h
      obtain ⟨s₁, hscan, hrun⟩ := h
      obtain ⟨hinv₁, hlen⟩ := inv_scan hU hs hinv hscan
      refine ih s₁ s' hinv₁ ?_ hrun
      rw [hs, length_cons] at hfuel
      omega

/-- **An early stop has a reason**: a forbidden neighbour of a reachable node. -/
theorem exists_of_run_eq_none (fuel : ℕ) : ∀ s : Search α, Inv next stop keep x₀ U s →
      run next stop keep fuel s = none →
      ∃ y w, ReflTransGen (Follows next keep) x₀ y ∧ w ∈ next y ∧ stop w = true := by
  induction fuel with
  | zero =>
    intro s _ h
    simp [run] at h
  | succ fuel ih =>
    intro s hinv h
    cases hs : s.stack with
    | nil => simp [run, hs] at h
    | cons x rest =>
      simp only [run, hs, Option.bind_eq_none_iff] at h
      rcases hscan : scan stop keep (next x) { s with stack := rest } with _ | s₁
      · obtain ⟨w, hw, hstop⟩ := scan_eq_none.mp hscan
        exact ⟨x, w, hinv.reach x (hinv.stack_sub x (by simp [hs])), hw, hstop⟩
      · exact ih s₁ (inv_scan hU hs hinv hscan).1 (h s₁ hscan)

end

/-- With an empty stack the invariant says that everything reachable is found. -/
theorem Inv.mem_found_iff (hinv : Inv next stop keep x₀ U s)
    (hs : s.stack = []) (y : α) :
    y ∈ s.found ↔ ReflTransGen (Follows next keep) x₀ y := by
  refine ⟨hinv.reach y, fun h => ?_⟩
  induction h with
  | refl => exact hinv.start_mem
  | tail _ hstep ih => exact (hinv.expanded _ ih (by simp [hs]) _ hstep.1).2 hstep.2

variable (hx : x₀ ∈ U) (hU : ∀ y ∈ U, ∀ w ∈ next y, keep w = true → w ∈ U)

include hx hU

/-- **What the search finds**: a search that is not stopped has found exactly the
reachable nodes, each of them once, and no reachable node has a forbidden
neighbour. -/
theorem run_start_eq_some (h : run next stop keep U.card (start x₀) = some s) :
    s.found.Nodup ∧
      (∀ y, y ∈ s.found ↔ ReflTransGen (Follows next keep) x₀ y) ∧
      ∀ y, ReflTransGen (Follows next keep) x₀ y → ∀ w ∈ next y, stop w = false := by
  obtain ⟨hinv, hs⟩ := inv_run hU U.card (start x₀) s (inv_start hx) (by simp [start]) h
  refine ⟨hinv.nodup, hinv.mem_found_iff hs, fun y hy w hw => ?_⟩
  exact (hinv.expanded y ((hinv.mem_found_iff hs y).mpr hy) (by simp [hs]) w hw).1

/-- **When the search is stopped**: exactly when some reachable node has a forbidden
neighbour. -/
theorem run_start_eq_none :
    run next stop keep U.card (start x₀) = none ↔
      ∃ y w, ReflTransGen (Follows next keep) x₀ y ∧ w ∈ next y ∧ stop w = true := by
  refine ⟨exists_of_run_eq_none hU U.card (start x₀) (inv_start hx), ?_⟩
  rintro ⟨y, w, hy, hw, hstop⟩
  rcases h : run next stop keep U.card (start x₀) with _ | s
  · rfl
  · have hfalse := (run_start_eq_some hx hU h).2.2 y hy w hw
    rw [hstop] at hfalse
    exact absurd hfalse (by simp)

end Run

end Search

end Heph
