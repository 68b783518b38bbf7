import Heph.Dag.Invariant

/-!
# The affected region

An edge from `f` to `t` that contradicts the order, and what is done about it. The
two searches find the nodes between the two positions that `t` reaches and that reach
`f` (`DepDag.deltaPlus_eq_some`, `DepDag.deltaMinus_spec`). The forward one
is cut at the position of `f`, and the cut loses nothing: a path from `t` to `f`
climbs in the order, so it stays below that position all the way, and the search is
stopped exactly when there is such a path (`DepDag.deltaPlus_eq_none`).

`DepDag.Regions.ordered` is the step that repairs the order.
-/

namespace Heph.DepDag

open List Finset Relation

variable {A : Type} {d : DepDag A} {f t : ℕ}

/-! ### The two searches -/

/-- Inside the cut, following the search is following the edges. -/
theorem follows_succ_iff (hwf : d.WF) (htf : d.ordOf t ≤ d.ordOf f) (x : ℕ) :
    ReflTransGen (Search.Follows d.succOf fun w => decide (d.ordOf w ≤ d.ordOf f)) t x ↔
      ReflTransGen d.Edge t x ∧ d.ordOf x ≤ d.ordOf f := by
  constructor
  · intro h
    induction h with
    | refl => exact ⟨.refl, htf⟩
    | tail _ hstep ih => exact ⟨ih.1.tail hstep.1, by simpa using hstep.2⟩
  · rintro ⟨h, hle⟩
    induction h with
    | refl => exact .refl
    | @tail y z _ he ih =>
      -- The edge climbs, so its lower end is inside the cut as well.
      have hlt := hwf.ordered y z he
      exact (ih (hlt.le.trans hle)).tail ⟨he, by simpa using hle⟩

theorem follows_pred_iff (hwf : d.WF) (htf : d.ordOf t ≤ d.ordOf f) (x : ℕ) :
    ReflTransGen (Search.Follows d.predOf fun w => decide (d.ordOf t ≤ d.ordOf w)) f x ↔
      ReflTransGen d.Edge x f ∧ d.ordOf t ≤ d.ordOf x := by
  constructor
  · intro h
    induction h with
    | refl => exact ⟨.refl, htf⟩
    | tail _ hstep ih =>
      exact ⟨.head ((hwf.pred_iff _ _).mp hstep.1) ih.1, by simpa using hstep.2⟩
  · rintro ⟨h, hle⟩
    induction h using ReflTransGen.head_induction_on with
    | refl => exact .refl
    | @head y z he _ ih =>
      have hlt := hwf.ordered y z he
      exact (ih (hle.trans hlt.le)).tail ⟨(hwf.pred_iff _ _).mpr he, by simpa using hle⟩

section Search

variable (hwf : d.WF) (hf : f < d.nodes.length) (ht : t < d.nodes.length)
  (htf : d.ordOf t ≤ d.ordOf f)

include hwf

theorem run_deltaPlus : d.deltaPlus f t =
    (Search.run d.succOf (· == f) (fun w => decide (d.ordOf w ≤ d.ordOf f))
      (Finset.range d.nodes.length).card (Search.start t)).map Search.found := by
  rw [deltaPlus, hwf.ord_length, card_range]

include ht htf

/-- **The search is stopped exactly by a cycle**: the cut at the position of `f` hides
no path into it. -/
theorem deltaPlus_eq_none : d.deltaPlus f t = none ↔ TransGen d.Edge t f := by
  rw [run_deltaPlus hwf, Option.map_eq_none_iff, Search.run_start_eq_none
    (mem_range.mpr ht)
    (fun y _ w hw _ => Finset.mem_range.mpr (hwf.edge_lt y w hw)), TransGen.tail'_iff]
  constructor
  · rintro ⟨y, w, hy, hw, hstop⟩
    obtain rfl : w = f := by simpa using hstop
    exact ⟨y, ((follows_succ_iff hwf htf y).mp hy).1, hw⟩
  · rintro ⟨y, hy, he⟩
    have hle : d.ordOf y ≤ d.ordOf f := (hwf.ordered y f he).le
    exact ⟨y, f, (follows_succ_iff hwf htf y).mpr ⟨hy, hle⟩, he, by simp⟩

/-- The forward region. -/
theorem deltaPlus_eq_some {plus : List ℕ} (h : d.deltaPlus f t = some plus) :
    plus.Nodup ∧
      ∀ x, x ∈ plus ↔ ReflTransGen d.Edge t x ∧ d.ordOf x ≤ d.ordOf f := by
  rw [run_deltaPlus hwf, Option.map_eq_some_iff] at h
  obtain ⟨s, hs, rfl⟩ := h
  obtain ⟨hnd, hmem, -⟩ := Search.run_start_eq_some (mem_range.mpr ht)
    (fun y _ w hw _ => Finset.mem_range.mpr (hwf.edge_lt y w hw)) hs
  exact ⟨hnd, fun x => (hmem x).trans (follows_succ_iff hwf htf x)⟩

omit ht

include hf

/-- The backward region. -/
theorem deltaMinus_spec : (d.deltaMinus f t).Nodup ∧
    ∀ x, x ∈ d.deltaMinus f t ↔ ReflTransGen d.Edge x f ∧ d.ordOf t ≤ d.ordOf x := by
  have hU : ∀ y ∈ Finset.range d.nodes.length, ∀ w ∈ d.predOf y,
      decide (d.ordOf t ≤ d.ordOf w) = true → w ∈ Finset.range d.nodes.length :=
    fun y _ w hw _ => Finset.mem_range.mpr (((hwf.pred_iff w y).mp hw).left_lt hwf)
  have hx : f ∈ Finset.range d.nodes.length := Finset.mem_range.mpr hf
  rw [deltaMinus, hwf.ord_length, ← card_range d.nodes.length]
  rcases hs : Search.run d.predOf (fun _ => false) (fun w => decide (d.ordOf t ≤ d.ordOf w))
      (Finset.range d.nodes.length).card (Search.start f) with _ | s
  · obtain ⟨y, w, -, -, hstop⟩ := (Search.run_start_eq_none hx hU).mp hs
    exact absurd hstop (by simp)
  · obtain ⟨hnd, hmem, -⟩ := Search.run_start_eq_some hx hU hs
    exact ⟨hnd, fun x => (hmem x).trans (follows_pred_iff hwf htf x)⟩

end Search

/-! ### The repaired order -/

/-- The two regions of an edge that closes no cycle: the nodes between the two
positions that reach `f`, and those that `t` reaches. -/
structure Regions (d : DepDag A) (f t : ℕ) (minus plus : List ℕ) : Prop where
  below : d.ordOf t ≤ d.ordOf f
  minus_nodup : minus.Nodup
  plus_nodup : plus.Nodup
  mem_minus : ∀ x, x ∈ minus ↔ ReflTransGen d.Edge x f ∧ d.ordOf t ≤ d.ordOf x
  mem_plus : ∀ x, x ∈ plus ↔ ReflTransGen d.Edge t x ∧ d.ordOf x ≤ d.ordOf f
  no_cycle : ¬ReflTransGen d.Edge t f

section Regions

variable {minus plus : List ℕ} (h : Regions d f t minus plus) (hwf : d.WF) {x : ℕ}

include h

theorem Regions.disjoint (hm : x ∈ minus) (hp : x ∈ plus) : False :=
  h.no_cycle (((h.mem_plus x).mp hp).1.trans ((h.mem_minus x).mp hm).1)

include hwf

/-- Both regions lie between the two positions. -/
theorem Regions.bounds (hx : x ∈ minus ∨ x ∈ plus) :
    d.ordOf t ≤ d.ordOf x ∧ d.ordOf x ≤ d.ordOf f := by
  rcases hx with hx | hx
  · obtain ⟨hp, hle⟩ := (h.mem_minus x).mp hx
    exact ⟨hle, hwf.ordOf_le_of_path hp⟩
  · obtain ⟨hp, hle⟩ := (h.mem_plus x).mp hx
    exact ⟨hwf.ordOf_le_of_path hp, hle⟩

variable (hf : f < d.nodes.length)

include hf

variable (ht : t < d.nodes.length)

include ht

theorem Regions.lt_length
    (hx : x ∈ minus ∨ x ∈ plus) : x < d.nodes.length := by
  rcases hx with hx | hx
  · exact hwf.path_left_lt hf ((h.mem_minus x).mp hx).1
  · exact hwf.path_lt ht ((h.mem_plus x).mp hx).1

/-- **The reorder renumbers the two regions**, in the sense of
`Renumbered`. -/
theorem Regions.renumbered :
    Renumbered minus plus d.ordOf (d.reorder minus plus).ordOf := by
  obtain ⟨M, hM⟩ : ∃ M, minus.insertionSort (fun x y => d.ordOf x ≤ d.ordOf y) = M := ⟨_, rfl⟩
  obtain ⟨Q, hQ⟩ : ∃ Q, plus.insertionSort (fun x y => d.ordOf x ≤ d.ordOf y) = Q := ⟨_, rfl⟩
  have hMperm : M.Perm minus := hM ▸ perm_insertionSort _ _
  have hQperm : Q.Perm plus := hQ ▸ perm_insertionSort _ _
  have hmem : ∀ x, x ∈ M ++ Q → x ∈ minus ∨ x ∈ plus := fun x hx =>
    (mem_append.mp hx).imp hMperm.mem_iff.mp hQperm.mem_iff.mp
  have hnd : (M ++ Q).Nodup := nodup_append'.mpr
    ⟨hMperm.nodup_iff.mpr h.minus_nodup, hQperm.nodup_iff.mpr h.plus_nodup,
      fun x hx hx' => h.disjoint (hMperm.mem_iff.mp hx) (hQperm.mem_iff.mp hx')⟩
  have hlt : ∀ x ∈ M ++ Q, x < d.nodes.length := fun x hx => h.lt_length hwf hf ht (hmem x hx)
  have hres : Renumbered M Q d.ordOf (d.reorder minus plus).ordOf := by
    have hren : d.reorder minus plus = { d with ord := renumber d.ord M Q 0 } := by
      rw [reorder, hM, hQ]
    rw [hren]
    refine renumbered_renumber (hM ▸ pairwise_insertionSort _ _)
      (hQ ▸ pairwise_insertionSort _ _) hnd (by rw [hwf.ord_length]; exact hlt) ?_
    refine hnd.map_on fun x hx y hy hxy => ?_
    exact hwf.ordOf_inj (hlt x hx) (hlt y hy) hxy
  obtain ⟨h1, h2, h3, h4, h5, h6, h7, h8⟩ := hres
  simp only [hMperm.mem_iff, hQperm.mem_iff] at h1 h2 h3 h4 h5 h6 h7 h8
  exact ⟨h1, h2, h3, h4, h5, h6, h7, h8⟩

/-- **The repaired order is a permutation again**: every position is one that was in
use, and no two indices share one. -/
theorem Regions.ord_perm :
    (d.reorder minus plus).ord.Perm (List.range d.nodes.length) := by
  have hr := h.renumbered hwf hf ht
  have hS : ∀ x, x ∈ minus ∨ x ∈ plus → x ∈ {x | x < d.nodes.length} :=
    fun x hx => h.lt_length hwf hf ht hx
  have hinj : Set.InjOn (d.reorder minus plus).ordOf {x | x < d.nodes.length} :=
    hr.injOn hS fun x hx y hy hxy => hwf.ordOf_inj hx hy hxy
  have hlen : (d.reorder minus plus).ord.length = d.nodes.length := by
    rw [reorder, length_renumber, hwf.ord_length]
  have hget : ∀ (x : ℕ) (hx : x < (d.reorder minus plus).ord.length),
      (d.reorder minus plus).ord[x] = (d.reorder minus plus).ordOf x :=
    fun x hx => (getD_eq_getElem _ _ hx).symm
  have hnd : (d.reorder minus plus).ord.Nodup := by
    refine nodup_iff_injective_getElem.mpr ?_
    rintro ⟨x, hx⟩ ⟨y, hy⟩ hxy
    simp only [hget] at hxy
    exact Fin.ext (hinj (hlen ▸ hx) (hlen ▸ hy) hxy)
  have hsub : (d.reorder minus plus).ord ⊆ List.range d.nodes.length := fun p hp => by
    obtain ⟨x, hx, rfl⟩ := getElem_of_mem hp
    obtain ⟨y, hy, hxy, -⟩ := hr.exists_old hS (hlen ▸ hx)
    rw [hget x hx, hxy, List.mem_range]
    exact hwf.ordOf_lt hy
  exact (subperm_of_subset hnd hsub).perm_of_length_le (by simp [hlen])

/-- **The repaired order agrees with every edge.** An edge that crosses the border of
a region is saved by the bounds of the search, and an edge from the forward region to
the backward one would have been a cycle. -/
theorem Regions.ordered {i j : ℕ}
    (he : d.Edge i j) : (d.reorder minus plus).ordOf i < (d.reorder minus plus).ordOf j := by
  have hr := h.renumbered hwf hf ht
  have hlt := hwf.ordered i j he
  rcases em (i ∈ minus) with him | him
  · rcases em (j ∈ minus) with hjm | hjm
    · exact hr.mono_fst i him j hjm hlt
    rcases em (j ∈ plus) with hjp | hjp
    · exact hr.across i him j hjp
    · rw [hr.outside j hjm hjp]
      exact lt_of_le_of_lt (hr.down i him) hlt
  rcases em (i ∈ plus) with hip | hip
  · obtain ⟨hpi, -⟩ := (h.mem_plus i).mp hip
    rcases em (j ∈ minus) with hjm | hjm
    · exact absurd ((hpi.tail he).trans ((h.mem_minus j).mp hjm).1) h.no_cycle
    rcases em (j ∈ plus) with hjp | hjp
    · exact hr.mono_snd i hip j hjp hlt
    · -- The edge leaves the forward region, so it ends beyond the position of `f`.
      have hbeyond : d.ordOf f < d.ordOf j := by
        by_contra hc
        exact hjp ((h.mem_plus j).mpr ⟨hpi.tail he, by omega⟩)
      obtain ⟨y, hy, hiy⟩ := hr.reuses i (Or.inr hip)
      rw [hr.outside j hjm hjp, hiy]
      exact lt_of_le_of_lt (h.bounds hwf hy).2 hbeyond
  · rw [hr.outside i him hip]
    rcases em (j ∈ minus) with hjm | hjm
    · -- The edge enters the backward region, so it starts before the position of `t`.
      have hbefore : d.ordOf i < d.ordOf t := by
        by_contra hc
        exact him ((h.mem_minus i).mpr ⟨.head he ((h.mem_minus j).mp hjm).1, by omega⟩)
      obtain ⟨y, hy, hjy⟩ := hr.reuses j (Or.inl hjm)
      rw [hjy]
      exact lt_of_lt_of_le hbefore (h.bounds hwf hy).1
    rcases em (j ∈ plus) with hjp | hjp
    · exact lt_of_lt_of_le hlt (hr.up j hjp)
    · rw [hr.outside j hjm hjp]
      exact hlt

/-- The two ends of the refused edge have come into order. -/
theorem Regions.ends :
    (d.reorder minus plus).ordOf f < (d.reorder minus plus).ordOf t :=
  (h.renumbered hwf hf ht).across f ((h.mem_minus f).mpr ⟨.refl, h.below⟩) t
    ((h.mem_plus t).mpr ⟨.refl, h.below⟩)

/-- **The reorder keeps the invariant.** -/
theorem Regions.wf :
    (d.reorder minus plus).WF :=
  { hwf with
    ord_perm := h.ord_perm hwf hf ht
    ordered := fun _ _ he => h.ordered hwf hf ht he }

end Regions

end Heph.DepDag
