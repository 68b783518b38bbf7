import Heph.Dag.DepDag

/-!
# What the graph keeps true

The invariant of `DepDag` (`DepDag.WF`) and what each operation does to it.
The adjacency lists, their mirror and the membership index hold the same edges; every
edge agrees with the order; and the order is a permutation of the indices. It says in
addition that no index has been handed out twice, which is what the cast to 32 bits
takes away once there are more than `2 ^ 32` nodes.

The one hard step is `DepDag.Regions.ordered`: when the two regions have changed
places, every edge still agrees with the order, and the two ends of the new one have
come into order as well. An edge that leaves the forward region ends beyond it, an
edge that enters the backward region starts before it – that is what the two bounds
of the search are for – and an edge from the forward region to the backward one would
have been a cycle.
-/

namespace Heph

open List Function Nat Relation

theorem edgeKey_inj {i j i' j' : ℕ} (hj : j < 2 ^ 32) (hj' : j' < 2 ^ 32)
    (h : edgeKey i j = edgeKey i' j') : i = i' ∧ j = j' := by
  rw [edgeKey, edgeKey, ← shiftLeft_add_eq_or_of_lt hj, ← shiftLeft_add_eq_or_of_lt hj',
    shiftLeft_eq, shiftLeft_eq] at h
  omega

namespace DepDag

variable {A : Type} {d : DepDag A} {i j : ℕ} {d' : DepDag A} {added : List A} {f t : ℕ}

/-- There is a committed edge between two indices. -/
def Edge (d : DepDag A) (i j : ℕ) : Prop := j ∈ d.succOf i

/-- **The invariant of the graph.** -/
structure WF (d : DepDag A) : Prop where
  /-- No index has been handed out twice. -/
  small : d.nodes.length ≤ 2 ^ 32
  nodup : d.nodes.Nodup
  index : ∀ a i, d.indexOf a = some i ↔ d.nodes[i]? = some a
  succ_length : d.succ.length = d.nodes.length
  pred_length : d.pred.length = d.nodes.length
  edge_lt : ∀ i j, d.Edge i j → j < d.nodes.length
  /-- The two adjacency lists mirror each other. -/
  pred_iff : ∀ i j, i ∈ d.predOf j ↔ d.Edge i j
  succ_nodup : ∀ i, (d.succOf i).Nodup
  pred_nodup : ∀ j, (d.predOf j).Nodup
  /-- The membership index holds the edges of the adjacency lists. -/
  edges_iff : ∀ k, k ∈ d.edges ↔ ∃ i j, d.Edge i j ∧ k = edgeKey i j
  /-- The order is a permutation of the indices. -/
  ord_perm : d.ord.Perm (List.range d.nodes.length)
  /-- Every edge agrees with the order. -/
  ordered : ∀ i j, d.Edge i j → d.ordOf i < d.ordOf j

theorem wf_new : (new : DepDag A).WF where
  small := by simp [new]
  nodup := by simp [new]
  index := by simp [new]
  succ_length := rfl
  pred_length := rfl
  edge_lt := by simp [Edge, succOf, new]
  pred_iff := by simp [Edge, succOf, predOf, new]
  succ_nodup := by simp [succOf, new]
  pred_nodup := by simp [predOf, new]
  edges_iff := by simp [Edge, succOf, new]
  ord_perm := by simp [new]
  ordered := by simp [Edge, succOf, new]

/-! ### Reading the invariant -/

section

variable (h : d.WF)

include h

theorem Edge.left_lt (he : d.Edge i j) : i < d.nodes.length := by
  rw [← h.succ_length]
  by_contra hc
  rw [Edge, succOf, getD_eq_default _ _ (by omega)] at he
  simp at he

theorem WF.ord_length : d.ord.length = d.nodes.length := by
  simpa using h.ord_perm.length_eq

theorem WF.ordOf_lt {i : ℕ} (hi : i < d.nodes.length) : d.ordOf i < d.nodes.length := by
  have hlt : i < d.ord.length := by rw [h.ord_length]; exact hi
  have hmem : d.ordOf i ∈ d.ord := by
    rw [ordOf, getD_eq_getElem _ _ hlt]
    exact getElem_mem hlt
  exact mem_range.mp (h.ord_perm.mem_iff.mp hmem)

theorem WF.ordOf_inj (hi : i < d.nodes.length) (hj : j < d.nodes.length)
    (he : d.ordOf i = d.ordOf j) : i = j := by
  have hi' : i < d.ord.length := by rw [h.ord_length]; exact hi
  have hj' : j < d.ord.length := by rw [h.ord_length]; exact hj
  have hnd : d.ord.Nodup := h.ord_perm.nodup_iff.mpr nodup_range
  rw [ordOf, ordOf, getD_eq_getElem _ _ hi', getD_eq_getElem _ _ hj'] at he
  exact hnd.getElem_inj_iff.mp he

theorem WF.indexOf_lt {a : A} {i : ℕ} (hi : d.indexOf a = some i) :
    i < d.nodes.length :=
  (List.getElem?_eq_some_iff.mp ((h.index a i).mp hi)).1

theorem WF.edgeKey_mem_iff (hj : j < d.nodes.length) :
    edgeKey i j ∈ d.edges ↔ d.Edge i j := by
  rw [h.edges_iff]
  refine ⟨?_, fun he => ⟨i, j, he, rfl⟩⟩
  rintro ⟨i', j', he, hk⟩
  obtain ⟨rfl, rfl⟩ := edgeKey_inj (lt_of_lt_of_le hj h.small)
    (lt_of_lt_of_le (h.edge_lt i' j' he) h.small) hk
  exact he

/-- A path climbs in the order. -/
theorem WF.ordOf_le_of_path (hp : ReflTransGen d.Edge i j) :
    d.ordOf i ≤ d.ordOf j := by
  induction hp with
  | refl => exact le_refl _
  | tail _ he ih => exact ih.trans (h.ordered _ _ he).le

theorem WF.ordOf_lt_of_path (hp : TransGen d.Edge i j) :
    d.ordOf i < d.ordOf j := by
  obtain ⟨k, hpk, he⟩ := TransGen.tail'_iff.mp hp
  exact lt_of_le_of_lt (h.ordOf_le_of_path hpk) (h.ordered _ _ he)

theorem WF.path_lt (hi : i < d.nodes.length)
    (hp : ReflTransGen d.Edge i j) : j < d.nodes.length := by
  induction hp with
  | refl => exact hi
  | tail _ he _ => exact h.edge_lt _ _ he

theorem WF.path_left_lt (hj : j < d.nodes.length)
    (hp : ReflTransGen d.Edge i j) : i < d.nodes.length := by
  rcases ReflTransGen.cases_head hp with rfl | ⟨k, he, -⟩
  · exact hj
  · exact he.left_lt h

end

/-! ### New nodes -/

/-- The graph `d'` is `d` with the isolated nodes `added` at the end. -/
structure Grows (d d' : DepDag A) (added : List A) : Prop where
  nodes : d'.nodes = d.nodes ++ added
  succ : d'.succ = d.succ ++ List.replicate added.length []
  pred : d'.pred = d.pred ++ List.replicate added.length []
  ord : d'.ord = d.ord ++ List.range' d.nodes.length added.length
  edges : d'.edges = d.edges
  /-- The nodes there were keep their index. -/
  indexOf : ∀ a i, d.indexOf a = some i → d'.indexOf a = some i

theorem Grows.refl (d : DepDag A) : Grows d d [] :=
  ⟨by simp, by simp, by simp, by simp, rfl, fun _ _ h => h⟩

theorem Grows.trans {d d' d'' : DepDag A} {l l' : List A} (h : Grows d d' l)
    (h' : Grows d' d'' l') : Grows d d'' (l ++ l') where
  nodes := by rw [h'.nodes, h.nodes, append_assoc]
  succ := by rw [h'.succ, h.succ, length_append, replicate_add, append_assoc]
  pred := by rw [h'.pred, h.pred, length_append, replicate_add, append_assoc]
  ord := by
    rw [h'.ord, h.ord, h.nodes, length_append, length_append, ← range'_append]
    simp
  edges := h'.edges.trans h.edges
  indexOf a i hi := h'.indexOf a i (h.indexOf a i hi)

theorem getD_append_replicate_nil (l : List (List ℕ)) (k i : ℕ) :
    (l ++ List.replicate k []).getD i [] = l.getD i [] := by
  rcases lt_or_ge i l.length with hi | hi
  · rw [getD_append _ _ _ _ hi]
  · rw [getD_append_right _ _ _ _ hi, getD_eq_default _ _ hi,
      getD_eq_getElem?_getD, getElem?_replicate]
    split <;> rfl

section

variable (h : Grows d d' added)

include h

theorem Grows.succOf (i : ℕ) : d'.succOf i = d.succOf i := by
  rw [DepDag.succOf, h.succ, getD_append_replicate_nil, DepDag.succOf]

theorem Grows.predOf (i : ℕ) : d'.predOf i = d.predOf i := by
  rw [DepDag.predOf, h.pred, getD_append_replicate_nil, DepDag.predOf]

theorem Grows.edge_iff (i j : ℕ) : d'.Edge i j ↔ d.Edge i j := by
  rw [Edge, h.succOf, Edge]

theorem Grows.ordOf {i : ℕ} (hi : i < d.ord.length) :
    d'.ordOf i = d.ordOf i := by
  rw [DepDag.ordOf, h.ord, getD_append _ _ _ _ hi, DepDag.ordOf]

/-- **Isolated nodes keep the invariant**, as long as they get an index of their
own. -/
theorem Grows.wf (hwf : d.WF) (hnd : d'.nodes.Nodup)
    (hsmall : d'.nodes.length ≤ 2 ^ 32)
    (hindex : ∀ a i, d'.indexOf a = some i ↔ d'.nodes[i]? = some a) : d'.WF where
  small := hsmall
  nodup := hnd
  index := hindex
  succ_length := by rw [h.succ, h.nodes]; simp [hwf.succ_length]
  pred_length := by rw [h.pred, h.nodes]; simp [hwf.pred_length]
  edge_lt i j he := by
    rw [h.nodes, length_append]
    exact Nat.lt_add_right _ (hwf.edge_lt i j ((h.edge_iff i j).mp he))
  pred_iff i j := by rw [h.predOf, h.edge_iff, hwf.pred_iff]
  succ_nodup i := by rw [h.succOf]; exact hwf.succ_nodup i
  pred_nodup i := by rw [h.predOf]; exact hwf.pred_nodup i
  edges_iff k := by
    rw [h.edges, hwf.edges_iff]
    simp only [h.edge_iff]
  ord_perm := by
    rw [h.ord, h.nodes, length_append, range_add]
    refine hwf.ord_perm.append ?_
    rw [range'_eq_map_range]
  ordered i j he := by
    rw [h.edge_iff] at he
    rw [h.ordOf (by rw [hwf.ord_length]; exact he.left_lt hwf),
      h.ordOf (by rw [hwf.ord_length]; exact hwf.edge_lt i j he)]
    exact hwf.ordered i j he

end

section Insert

variable [DecidableEq A]

/-- A table of the indices of a list, with one more entry for one more element. -/
theorem index_concat {ix : A → Option ℕ} {l : List A} {a : A}
    (h : ∀ b i, ix b = some i ↔ l[i]? = some b) (ha : a ∉ l) (b : A) (i : ℕ) :
    Function.update ix a (some l.length) b = some i ↔ (l ++ [a])[i]? = some b := by
  rcases eq_or_ne i l.length with rfl | hi
  · rw [getElem?_concat_length, Option.some.injEq]
    rcases eq_or_ne b a with rfl | hne
    · simp
    · rw [update_of_ne hne, h, getElem?_eq_none (le_refl _)]
      exact iff_of_false (by simp) (Ne.symm hne)
  · have hcut : (l ++ [a])[i]? = l[i]? := by
      rcases lt_or_ge i l.length with hlt | hge
      · exact getElem?_append_left hlt
      · rw [getElem?_eq_none hge, getElem?_eq_none (by simp; omega)]
    rw [hcut]
    rcases eq_or_ne b a with rfl | hne
    · rw [update_self, Option.some.injEq]
      exact iff_of_false (Ne.symm hi) fun hc => ha (mem_iff_getElem?.mpr ⟨i, hc⟩)
    · rw [update_of_ne hne, h]

theorem grows_insertNode {a : A} (ha : d.indexOf a = none) :
    Grows d (d.insertNode a d.nodes.length) [a] := by
  refine ⟨rfl, rfl, rfl, rfl, rfl, fun b i hb => (update_of_ne ?_ _ _).trans hb⟩
  rintro rfl
  rw [ha] at hb
  exact absurd hb (by simp)

/-- **`get_or_insert`** gives the address an index and adds at most one isolated
node, provided there is an index left. -/
theorem getOrInsert_spec (hwf : d.WF) (a : A) (hroom : a ∈ d.nodes ∨ d.nodes.length < 2 ^ 32) :
    ∃ added, Grows d (d.getOrInsert a).2 added ∧ (d.getOrInsert a).2.WF ∧
      (d.getOrInsert a).2.indexOf a = some (d.getOrInsert a).1 ∧
      ∀ x, x ∈ (d.getOrInsert a).2.nodes ↔ x ∈ d.nodes ∨ x = a := by
  rcases hidx : d.indexOf a with _ | i
  · have hnot : a ∉ d.nodes := fun hc => by
      obtain ⟨i, hi⟩ := mem_iff_getElem?.mp hc
      rw [(hwf.index a i).mpr hi] at hidx
      exact absurd hidx (by simp)
    have hlt : d.nodes.length < 2 ^ 32 := hroom.resolve_left hnot
    have hmod : d.nodes.length % 2 ^ 32 = d.nodes.length := mod_eq_of_lt hlt
    have hg := grows_insertNode hidx
    have hnd : (d.insertNode a d.nodes.length).nodes.Nodup :=
      nodup_append'.mpr ⟨hwf.nodup, nodup_singleton a,
        fun x hx hx' => hnot ((mem_singleton.mp hx') ▸ hx)⟩
    simp only [getOrInsert, hidx, hmod]
    refine ⟨[a], hg, hg.wf hwf hnd ?_ (index_concat hwf.index hnot), update_self .., ?_⟩
    · rw [hg.nodes, length_append, length_singleton]
      omega
    · simp [insertNode]
  · have heq : d.getOrInsert a = (i, d) := by simp [getOrInsert, hidx]
    rw [heq]
    refine ⟨[], .refl d, hwf, hidx, fun x => ⟨Or.inl, ?_⟩⟩
    rintro (hx | rfl)
    · exact hx
    · exact mem_iff_getElem?.mpr ⟨i, (hwf.index x i).mp hidx⟩

end Insert

/-! ### A new edge -/

theorem getD_modify_append (l : List (List ℕ)) {f : ℕ} (hf : f < l.length) (t i : ℕ) :
    (l.modify f (· ++ [t])).getD i [] = l.getD i [] ++ if i = f then [t] else [] := by
  rcases eq_or_ne i f with rfl | hne
  · simp [getElem?_eq_getElem hf]
  · simp [Ne.symm hne, hne]

theorem succOf_commitEdge (hwf : d.WF) (hf : f < d.nodes.length) (i : ℕ) :
    (d.commitEdge f t).succOf i = d.succOf i ++ if i = f then [t] else [] :=
  getD_modify_append d.succ (by rw [hwf.succ_length]; exact hf) t i

theorem predOf_commitEdge (hwf : d.WF) (ht : t < d.nodes.length) (j : ℕ) :
    (d.commitEdge f t).predOf j = d.predOf j ++ if j = t then [f] else [] :=
  getD_modify_append d.pred (by rw [hwf.pred_length]; exact ht) f j

theorem edge_commitEdge (hwf : d.WF) (hf : f < d.nodes.length) (i j : ℕ) :
    (d.commitEdge f t).Edge i j ↔ d.Edge i j ∨ (i = f ∧ j = t) := by
  rw [Edge, succOf_commitEdge hwf hf, Edge]
  split <;> simp_all

/-- **Committing an edge that is new and agrees with the order keeps the
invariant.** -/
theorem wf_commitEdge (hwf : d.WF) (hf : f < d.nodes.length) (ht : t < d.nodes.length)
    (hnew : ¬d.Edge f t) (hord : d.ordOf f < d.ordOf t) : (d.commitEdge f t).WF where
  __ := hwf
  succ_length := by simp [commitEdge, hwf.succ_length]
  pred_length := by simp [commitEdge, hwf.pred_length]
  edge_lt i j he := by
    rcases (edge_commitEdge hwf hf i j).mp he with he | ⟨-, rfl⟩
    · exact hwf.edge_lt i j he
    · exact ht
  pred_iff i j := by
    rw [predOf_commitEdge hwf ht, edge_commitEdge hwf hf, mem_append, hwf.pred_iff]
    split <;> simp_all
  succ_nodup i := by
    rw [succOf_commitEdge hwf hf]
    split
    · rename_i hi
      subst hi
      refine nodup_append'.mpr ⟨hwf.succ_nodup i, nodup_singleton t, fun x hx hx' => ?_⟩
      exact hnew ((mem_singleton.mp hx') ▸ hx)
    · simpa using hwf.succ_nodup i
  pred_nodup j := by
    rw [predOf_commitEdge hwf ht]
    split
    · rename_i hj
      subst hj
      refine nodup_append'.mpr ⟨hwf.pred_nodup j, nodup_singleton f, fun x hx hx' => ?_⟩
      exact hnew ((hwf.pred_iff f j).mp ((mem_singleton.mp hx') ▸ hx))
    · simpa using hwf.pred_nodup j
  edges_iff k := by
    simp only [edge_commitEdge hwf hf]
    rw [commitEdge, Finset.mem_insert, hwf.edges_iff]
    constructor
    · rintro (rfl | ⟨i, j, he, rfl⟩)
      · exact ⟨f, t, Or.inr ⟨rfl, rfl⟩, rfl⟩
      · exact ⟨i, j, Or.inl he, rfl⟩
    · rintro ⟨i, j, he | ⟨rfl, rfl⟩, rfl⟩
      · exact Or.inr ⟨i, j, he, rfl⟩
      · exact Or.inl rfl
  ordered i j he := by
    rcases (edge_commitEdge hwf hf i j).mp he with he | ⟨rfl, rfl⟩
    · exact hwf.ordered i j he
    · exact hord

end DepDag

end Heph
