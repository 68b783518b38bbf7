import Heph.Dag.Reorder

/-!
# No cycle, and no edge refused without one

What the dependency graph is for, stated on addresses: a graph that is offered edges
one at a time and takes each of them unless it would close a cycle
(`Closes`). `DepDag.addDep_spec` is the refinement of that picture by the
indices, the adjacency lists and the order of `DepDag`, one call at a time, and
`DepDag.addDep_run` is the same along a whole sequence of calls.

All of it is under the proviso that the calls name at most `2 ^ 32` addresses. That is
not a matter of convenience: node indices are 32 bits wide, and the address after
that gets the index of the very first one. `DepDag.addDep_wraps` is the run in
which an edge between two unrelated addresses is then refused as a cycle.
-/

namespace Heph

open List Relation

/-! ### The graph that is meant -/

variable {A : Type}

/-- An edge that the graph `E` must not take: a loop, or the last edge of a cycle. -/
def Closes (E : A → A → Prop) (a b : A) : Prop := a = b ∨ TransGen E b a

/-- The graph after an edge has been offered to it. -/
def Offered (E : A → A → Prop) (a b x y : A) : Prop :=
  E x y ∨ (¬Closes E a b ∧ x = a ∧ y = b)

namespace DepDag

/-- The committed edges, on addresses. -/
def Dep (d : DepDag A) (a b : A) : Prop :=
  ∃ i j, d.indexOf a = some i ∧ d.indexOf b = some j ∧ d.Edge i j

/-! ### Addresses and indices -/

variable {d : DepDag A}

/-- A path between two addresses is a path between their indices. -/
theorem WF.transGen_dep_iff (hwf : d.WF) {a b : A} {f t : ℕ} (ha : d.indexOf a = some f)
    (hb : d.indexOf b = some t) :
    TransGen d.Dep b a ↔ TransGen d.Edge t f := by
  constructor
  · intro h
    induction h generalizing f with
    | single he =>
      obtain ⟨i, j, hi, hj, he⟩ := he
      rw [hb, Option.some.injEq] at hi
      rw [ha, Option.some.injEq] at hj
      subst hi hj
      exact .single he
    | tail _ he ih =>
      obtain ⟨i, j, hi, hj, he⟩ := he
      rw [ha, Option.some.injEq] at hj
      subst hj
      exact (ih hi).tail he
  · intro h
    induction h generalizing a with
    | single he => exact .single ⟨t, _, hb, ha, he⟩
    | @tail i j _ he ih =>
      -- The index in the middle of the path has an address of its own.
      have hi : i < d.nodes.length := he.left_lt hwf
      have hc : d.indexOf d.nodes[i] = some i :=
        (hwf.index _ i).mpr (getElem?_eq_getElem hi)
      exact (ih hc).tail ⟨i, j, hc, ha, he⟩

theorem WF.closes_dep_iff (hwf : d.WF) {a b : A} {f t : ℕ} (ha : d.indexOf a = some f)
    (hb : d.indexOf b = some t) :
    Closes d.Dep a b ↔ f = t ∨ TransGen d.Edge t f := by
  refine or_congr ?_ (hwf.transGen_dep_iff ha hb)
  constructor
  · rintro rfl
    exact Option.some.inj (ha.symm.trans hb)
  · rintro rfl
    exact Option.some.inj (((hwf.index a f).mp ha).symm.trans ((hwf.index b f).mp hb))

theorem Grows.dep_iff {d' : DepDag A} {added : List A} (h : Grows d d' added) (hwf : d.WF)
    (hwf' : d'.WF) (x y : A) : d'.Dep x y ↔ d.Dep x y := by
  have hindex : ∀ z i, i < d.nodes.length → d'.indexOf z = some i → d.indexOf z = some i := by
    intro z i hi hz
    have hmem := (hwf'.index z i).mp hz
    rw [h.nodes, getElem?_append_left hi] at hmem
    exact (hwf.index z i).mpr hmem
  constructor
  · rintro ⟨i, j, hi, hj, he⟩
    have he' := (h.edge_iff i j).mp he
    exact ⟨i, j, hindex x i (he'.left_lt hwf) hi, hindex y j (hwf.edge_lt i j he') hj, he'⟩
  · rintro ⟨i, j, hi, hj, he⟩
    exact ⟨i, j, h.indexOf x i hi, h.indexOf y j hj, (h.edge_iff i j).mpr he⟩

/-! ### One call -/

section Call

variable [DecidableEq A] {a b : A} {f t : ℕ}

/-- What offering the edge between two nodes does: the result is the one the graph on
addresses asks for, the invariant is kept, and a refusal changes nothing. -/
structure Answers (d d' : DepDag A) (a b : A) (r : Except (CycleError A) Unit) : Prop where
  wf : d'.WF
  nodes : d'.nodes = d.nodes
  result : r = .error ⟨a, b⟩ ∧ Closes d.Dep a b ∧ d' = d ∨ r = .ok () ∧ ¬Closes d.Dep a b
  dep : ∀ x y, d'.Dep x y ↔ Offered d.Dep a b x y

omit [DecidableEq A] in
/-- Committing an edge adds it to the graph on addresses. -/
theorem answers_commitEdge {d₀ : DepDag A} (hwf₀ : d₀.WF) (hwf : d.WF)
    (ha : d.indexOf a = some f) (hb : d.indexOf b = some t) (hnew : ¬d.Edge f t)
    (hord : d.ordOf f < d.ordOf t) (hedge : ∀ i j, d.Edge i j ↔ d₀.Edge i j)
    (hindex : d.indexOf = d₀.indexOf) (hnodes : d.nodes = d₀.nodes)
    (hopen : ¬Closes d₀.Dep a b) : Answers d₀ (d.commitEdge f t) a b (.ok ()) where
  wf := wf_commitEdge hwf (hwf.indexOf_lt ha) (hwf.indexOf_lt hb) hnew hord
  nodes := hnodes
  result := Or.inr ⟨rfl, hopen⟩
  dep x y := by
    have hix : (d.commitEdge f t).indexOf = d₀.indexOf := hindex
    simp only [Dep, Offered, hix, edge_commitEdge hwf (hwf.indexOf_lt ha), hedge]
    rw [hindex] at ha hb
    constructor
    · rintro ⟨i, j, hi, hj, he | ⟨rfl, rfl⟩⟩
      · exact Or.inl ⟨i, j, hi, hj, he⟩
      · have hx := ((hwf₀.index x i).mp hi).symm.trans ((hwf₀.index a i).mp ha)
        have hy := ((hwf₀.index y j).mp hj).symm.trans ((hwf₀.index b j).mp hb)
        exact Or.inr ⟨hopen, Option.some.inj hx, Option.some.inj hy⟩
    · rintro (⟨i, j, hi, hj, he⟩ | ⟨-, rfl, rfl⟩)
      · exact ⟨i, j, hi, hj, Or.inl he⟩
      · exact ⟨f, t, ha, hb, Or.inr ⟨rfl, rfl⟩⟩

omit [DecidableEq A] in
/-- **Offering an edge between two nodes.** The five ways through the code are a loop,
an edge that is there already, an edge that agrees with the order, a cycle found by
the search, and an edge that needs the reorder. -/
theorem answers_addEdge (hwf : d.WF) (ha : d.indexOf a = some f) (hb : d.indexOf b = some t) :
    Answers d (d.addEdge a b f t).2 a b (d.addEdge a b f t).1 := by
  have hf := hwf.indexOf_lt ha
  have ht := hwf.indexOf_lt hb
  have hclose := hwf.closes_dep_iff ha hb
  have hrefuse : Closes d.Dep a b → Answers d d a b (.error ⟨a, b⟩) := fun hc =>
    ⟨hwf, rfl, Or.inl ⟨rfl, hc, rfl⟩, fun x y => ⟨Or.inl, fun h => h.resolve_right
      fun h' => h'.1 hc⟩⟩
  unfold addEdge
  by_cases hft : f = t
  · rw [if_pos hft]
    exact hrefuse (hclose.mpr (Or.inl hft))
  rw [if_neg hft]
  by_cases hmem : edgeKey f t ∈ d.edges
  · rw [if_pos hmem]
    have he : d.Edge f t := (hwf.edgeKey_mem_iff ht).mp hmem
    have hopen : ¬Closes d.Dep a b := fun hc => by
      have hpath := (hclose.mp hc).resolve_left hft
      exact absurd (hwf.ordOf_lt_of_path hpath) (not_lt.mpr (hwf.ordered f t he).le)
    refine ⟨hwf, rfl, Or.inr ⟨rfl, hopen⟩, fun x y => ⟨Or.inl, ?_⟩⟩
    rintro (hxy | ⟨-, rfl, rfl⟩)
    · exact hxy
    · exact ⟨f, t, ha, hb, he⟩
  rw [if_neg hmem]
  have hnew : ¬d.Edge f t := fun hc => hmem ((hwf.edgeKey_mem_iff ht).mpr hc)
  by_cases hord : d.ordOf f < d.ordOf t
  · rw [if_pos hord]
    have hopen : ¬Closes d.Dep a b := fun hc =>
      absurd (hwf.ordOf_lt_of_path ((hclose.mp hc).resolve_left hft)) (not_lt.mpr hord.le)
    exact answers_commitEdge hwf hwf ha hb hnew hord (fun _ _ => Iff.rfl) rfl rfl hopen
  rw [if_neg hord]
  have htf : d.ordOf t ≤ d.ordOf f := not_lt.mp hord
  rcases hplus : d.deltaPlus f t with _ | plus
  · exact hrefuse (hclose.mpr (Or.inr ((deltaPlus_eq_none hwf ht htf).mp hplus)))
  · have hnone : ¬TransGen d.Edge t f := fun hc => by
      rw [(deltaPlus_eq_none hwf ht htf).mpr hc] at hplus
      exact absurd hplus (by simp)
    obtain ⟨hpnd, hpmem⟩ := deltaPlus_eq_some hwf ht htf hplus
    obtain ⟨hmnd, hmmem⟩ := deltaMinus_spec hwf hf htf
    have hreg : Regions d f t (d.deltaMinus f t) plus :=
      ⟨htf, hmnd, hpnd, hmmem, hpmem, fun hc =>
        (reflTransGen_iff_eq_or_transGen.mp hc).elim hft hnone⟩
    refine answers_commitEdge hwf (hreg.wf hwf hf ht) ha hb hnew (hreg.ends hwf hf ht)
      (fun _ _ => Iff.rfl) rfl rfl fun hc => ?_
    exact (hclose.mp hc).elim hft hnone

/-- **One call of `add_dep`**, as long as there are indices left: the answer is the one
the graph on addresses asks for, an edge is taken exactly then, and a refusal adds
isolated nodes at most. -/
theorem addDep_spec (hwf : d.WF) {S : Finset A} (hS : S.card ≤ 2 ^ 32)
    (hsub : ∀ x ∈ d.nodes, x ∈ S) (ha : a ∈ S) (hb : b ∈ S) :
    (d.addDep a b).2.WF ∧ (∀ x, x ∈ (d.addDep a b).2.nodes ↔ x ∈ d.nodes ∨ x = a ∨ x = b) ∧
    ((d.addDep a b).1 = .error ⟨a, b⟩ ∧ Closes d.Dep a b ∧ (∃ added,
        Grows d (d.addDep a b).2 added) ∨
      (d.addDep a b).1 = .ok () ∧ ¬Closes d.Dep a b) ∧
    ∀ x y, (d.addDep a b).2.Dep x y ↔ Offered d.Dep a b x y := by
  -- There is room for an address of `S` in any graph whose nodes are in `S`.
  have hroom : ∀ (d' : DepDag A), d'.WF → (∀ x ∈ d'.nodes, x ∈ S) → ∀ c ∈ S,
      c ∈ d'.nodes ∨ d'.nodes.length < 2 ^ 32 := by
    intro d' hwf' hsub' c hc
    refine or_iff_not_imp_left.mpr fun hnot => ?_
    have hcard : (insert c d'.nodes.toFinset).card ≤ S.card :=
      Finset.card_le_card (Finset.insert_subset hc fun x hx => hsub' x (mem_toFinset.mp hx))
    rw [Finset.card_insert_of_notMem (by simpa using hnot),
      toFinset_card_of_nodup hwf'.nodup] at hcard
    omega
  obtain ⟨l₁, hg₁, hwf₁, hidx₁, hmem₁⟩ := getOrInsert_spec hwf a (hroom d hwf hsub a ha)
  have hsub₁ : ∀ x ∈ (d.getOrInsert a).2.nodes, x ∈ S := fun x hx =>
    ((hmem₁ x).mp hx).elim (hsub x) fun he => he ▸ ha
  obtain ⟨l₂, hg₂, hwf₂, hidx₂, hmem₂⟩ :=
    getOrInsert_spec hwf₁ b (hroom _ hwf₁ hsub₁ b hb)
  have hg := hg₁.trans hg₂
  obtain ⟨hwf', hnodes, hres, hdep⟩ := answers_addEdge hwf₂ (hg₂.indexOf a _ hidx₁) hidx₂
  have hdep₂ : ((d.getOrInsert a).2.getOrInsert b).2.Dep = d.Dep :=
    funext fun x => funext fun y => propext (hg.dep_iff hwf hwf₂ x y)
  rw [hdep₂] at hres hdep
  refine ⟨hwf', fun x => ?_, ?_, hdep⟩
  · refine (congrArg (x ∈ ·) hnodes).to_iff.trans ((hmem₂ x).trans ?_)
    rw [hmem₁ x, or_assoc]
  · rcases hres with ⟨herr, hclose, hsame⟩ | hok
    · refine Or.inl ⟨herr, hclose, l₁ ++ l₂, ?_⟩
      rw [addDep, hsame]
      exact hg
    · exact Or.inr hok

end Call

/-! ### A whole sequence of calls -/

section Run

theorem nodes_addEdge (d : DepDag A) (a b : A) (f t : ℕ) :
    (d.addEdge a b f t).2.nodes = d.nodes := by
  unfold addEdge
  split_ifs
  · rfl
  · rfl
  · rfl
  · split <;> rfl

variable [DecidableEq A] {calls : List (A × A)}

/-- The addresses that a sequence of calls names. -/
def addresses (calls : List (A × A)) : Finset A :=
  (calls.flatMap fun c => [c.1, c.2]).toFinset

/-- The edges a sequence of calls has committed: those of the calls that returned
`Ok`. -/
def Accepted (calls : List (A × A)) (x y : A) : Prop :=
  ∃ before after, calls = before ++ (x, y) :: after ∧ ((run before).addDep x y).1 = .ok ()

theorem mem_addresses {x : A} :
    x ∈ addresses calls ↔ ∃ c ∈ calls, x = c.1 ∨ x = c.2 := by
  simp [addresses]

theorem run_concat (calls : List (A × A)) (a b : A) :
    run (calls ++ [(a, b)]) = ((run calls).addDep a b).2 := by
  simp [run]

theorem addresses_concat {a b x : A} :
    x ∈ addresses (calls ++ [(a, b)]) ↔ x ∈ addresses calls ∨ x = a ∨ x = b := by
  rw [addresses, flatMap_append, toFinset_append, Finset.mem_union]
  simp [addresses]

theorem accepted_concat {a b x y : A} :
    Accepted (calls ++ [(a, b)]) x y ↔
      Accepted calls x y ∨ (((run calls).addDep a b).1 = .ok () ∧ x = a ∧ y = b) := by
  constructor
  · rintro ⟨before, after, hsplit, hok⟩
    rcases after.eq_nil_or_concat with rfl | ⟨after, c, rfl⟩
    · obtain ⟨rfl, hab⟩ := append_inj' hsplit rfl
      obtain ⟨rfl, rfl⟩ : a = x ∧ b = y := by simpa using hab
      exact Or.inr ⟨hok, rfl, rfl⟩
    · have hsplit' : calls ++ [(a, b)] = (before ++ (x, y) :: after) ++ [c] := by
        rw [hsplit]
        simp
      exact Or.inl ⟨before, after, (append_inj' hsplit' rfl).1, hok⟩
  · rintro (⟨before, after, rfl, hok⟩ | ⟨hok, rfl, rfl⟩)
    · exact ⟨before, after ++ [(a, b)], by simp, hok⟩
    · exact ⟨calls, [], rfl, hok⟩

/-- **Along a run the invariant holds**, the nodes are the addresses named so far, and
the committed edges are those of the calls that returned `Ok`. -/
theorem run_spec (calls : List (A × A)) (hcard : (addresses calls).card ≤ 2 ^ 32) :
    (run calls).WF ∧ (∀ x, x ∈ (run calls).nodes ↔ x ∈ addresses calls) ∧
      ∀ x y, (run calls).Dep x y ↔ Accepted calls x y := by
  induction calls using reverseRecOn with
  | nil =>
    refine ⟨wf_new, by simp [run, new, addresses], fun x y => iff_of_false ?_ ?_⟩
    · rintro ⟨i, j, hi, -⟩
      simp [run, new] at hi
    · rintro ⟨before, after, hsplit, -⟩
      simp at hsplit
  | append_singleton calls c ih =>
    obtain ⟨a, b⟩ := c
    have hsub : ∀ x, x ∈ addresses calls → x ∈ addresses (calls ++ [(a, b)]) :=
      fun x hx => addresses_concat.mpr (Or.inl hx)
    obtain ⟨hwf, hnodes, hdep⟩ := ih ((Finset.card_le_card hsub).trans hcard)
    obtain ⟨hwf', hmem, hres, hdep'⟩ := addDep_spec hwf hcard
      (fun x hx => hsub x ((hnodes x).mp hx)) (addresses_concat.mpr (Or.inr (Or.inl rfl)))
      (addresses_concat.mpr (Or.inr (Or.inr rfl)))
    rw [run_concat]
    refine ⟨hwf', fun x => ?_, fun x y => ?_⟩
    · rw [hmem, hnodes, addresses_concat]
    · rw [hdep', accepted_concat, Offered, hdep]
      refine or_congr_right (and_congr_left' ?_)
      rcases hres with ⟨herr, hclose, -⟩ | ⟨hok, hopen⟩
      · exact iff_of_false (fun hc => hc hclose) (by simp [herr])
      · exact iff_of_true hopen hok

/-- **`add_dep` along a run.** For every sequence of calls naming at most `2 ^ 32`
addresses, the last one included:

* it is refused exactly when it is a loop or closes a cycle with the edges committed so
  far, and accepted otherwise;
* a refused call adds isolated nodes at most – the adjacency lists, the membership
  index and the order of the nodes there were are what they were – and is refused again
  when it is repeated;
* after the call the order is a permutation of the indices that every edge agrees with,
  and the two adjacency lists and the membership index hold the same edges, each once,
  which are the edges of the calls that returned `Ok`. -/
theorem addDep_run (calls : List (A × A)) (a b : A)
    (hcard : (addresses (calls ++ [(a, b)])).card ≤ 2 ^ 32) :
    (((run calls).addDep a b).1 = .error ⟨a, b⟩ ↔
      a = b ∨ TransGen (Accepted calls) b a) ∧
    (((run calls).addDep a b).1 = .ok () ↔
      ¬(a = b ∨ TransGen (Accepted calls) b a)) ∧
    (((run calls).addDep a b).1 ≠ .ok () →
      (∃ added, Grows (run calls) ((run calls).addDep a b).2 added) ∧
      (((run calls).addDep a b).2.addDep a b).1 = .error ⟨a, b⟩) ∧
    ((run calls).addDep a b).2.WF ∧
    ∀ x y, ((run calls).addDep a b).2.Dep x y ↔ Accepted (calls ++ [(a, b)]) x y := by
  have hsub : ∀ x, x ∈ addresses calls → x ∈ addresses (calls ++ [(a, b)]) :=
    fun x hx => addresses_concat.mpr (Or.inl hx)
  have ha : a ∈ addresses (calls ++ [(a, b)]) := addresses_concat.mpr (Or.inr (Or.inl rfl))
  have hb : b ∈ addresses (calls ++ [(a, b)]) := addresses_concat.mpr (Or.inr (Or.inr rfl))
  obtain ⟨hwf, hnodes, hdep⟩ := run_spec calls ((Finset.card_le_card hsub).trans hcard)
  have hdepEq : (run calls).Dep = Accepted calls :=
    funext fun x => funext fun y => propext (hdep x y)
  obtain ⟨hwf', hmem, hres, hdep'⟩ :=
    addDep_spec hwf hcard (fun x hx => hsub x ((hnodes x).mp hx)) ha hb
  obtain ⟨-, -, hlast⟩ := run_spec _ hcard
  rw [run_concat] at hlast
  rw [hdepEq] at hres hdep'
  refine ⟨?_, ?_, ?_, hwf', hlast⟩
  · rcases hres with ⟨herr, hclose, -⟩ | ⟨hok, hopen⟩
    · exact iff_of_true herr hclose
    · exact iff_of_false (by simp [hok]) hopen
  · rcases hres with ⟨herr, hclose, -⟩ | ⟨hok, hopen⟩
    · exact iff_of_false (by simp [herr]) (not_not.mpr hclose)
    · exact iff_of_true hok hopen
  · intro hne
    obtain ⟨-, hclose, hgrows⟩ := hres.resolve_right fun h => hne h.1
    refine ⟨hgrows, ?_⟩
    -- The graph has not changed, so the edge closes the same cycle again.
    have hsame : ((run calls).addDep a b).2.Dep = Accepted calls :=
      funext fun x => funext fun y => propext
        ((hdep' x y).trans ⟨fun h => h.resolve_right fun h' => h'.1 hclose, Or.inl⟩)
    have hnodes' : ∀ x ∈ ((run calls).addDep a b).2.nodes, x ∈ addresses (calls ++ [(a, b)]) :=
      fun x hx => addresses_concat.mpr (((hmem x).mp hx).imp_left (hnodes x).mp)
    obtain ⟨-, -, hres', -⟩ := addDep_spec hwf' hcard hnodes' ha hb
    rw [hsame] at hres'
    exact (hres'.resolve_right fun h => h.2 hclose).1

/-- A short run: an edge, the same edge against the grain, which is refused, and one
that needs the reorder. -/
theorem addDep_run_short :
    (addresses ([(1, 2), (2, 1), (3, 1)] ++ [(2, 3)] : List (ℕ × ℕ))).card ≤ 2 ^ 32 ∧
      ((run [(1, 2), (2, 1), (3, 1)]).addDep 2 3).1 ≠ .ok () ∧
      ((run [(1, 2), (2, 1), (3, 1)]).addDep 2 3).2.WF :=
  ⟨by decide, by decide, (addDep_run [(1, 2), (2, 1), (3, 1)] 2 3 (by decide)).2.2.2.1⟩

/-! ### Where the 32 bits end -/

theorem nodes_prefix_getOrInsert (d : DepDag A) (a : A) :
    d.nodes <+: (d.getOrInsert a).2.nodes := by
  rw [getOrInsert]
  split
  · exact prefix_refl _
  · exact prefix_append _ _

/-- The nodes of a graph stay where they are. -/
theorem nodes_prefix_addDep (d : DepDag A) (a b : A) : d.nodes <+: (d.addDep a b).2.nodes := by
  rw [addDep, nodes_addEdge]
  exact (nodes_prefix_getOrInsert d a).trans (nodes_prefix_getOrInsert _ b)

theorem nodes_prefix_run (calls more : List (A × A)) :
    (run calls).nodes <+: (run (calls ++ more)).nodes := by
  induction more using reverseRecOn with
  | nil => simp
  | append_singleton more c ih =>
    rw [← append_assoc, run_concat]
    exact ih.trans (nodes_prefix_addDep _ _ _)

/-- **The address after the last index is taken for the first one.** A run that has
named exactly `2 ^ 32` addresses answers an edge from a new address to the first one as
if it were a loop. -/
theorem addDep_eq_error_of_full {a b c : A} {rest : List (A × A)}
    (hcard : (addresses ((b, c) :: rest)).card = 2 ^ 32) (ha : a ∉ addresses ((b, c) :: rest)) :
    ((run ((b, c) :: rest)).addDep a b).1 = .error ⟨a, b⟩ := by
  obtain ⟨hwf, hnodes, -⟩ := run_spec ((b, c) :: rest) hcard.le
  obtain ⟨d, hd⟩ : ∃ d, run ((b, c) :: rest) = d := ⟨_, rfl⟩
  rw [hd] at hwf hnodes ⊢
  have hlen : d.nodes.length = 2 ^ 32 := by
    rw [← hcard, ← toFinset_card_of_nodup hwf.nodup]
    exact congrArg Finset.card (Finset.ext fun x => mem_toFinset.trans (hnodes x))
  have hnone : d.indexOf a = none := by
    rcases hi : d.indexOf a with _ | i
    · rfl
    · exact absurd ((hnodes a).mp (mem_of_getElem? ((hwf.index a i).mp hi))) ha
  -- The first address named has the first index, and keeps it.
  have hfirst : d.indexOf b = some 0 := by
    refine (hwf.index b 0).mpr ?_
    have hone : [b] <+: (run [(b, c)]).nodes := by
      change [b] <+: ((new : DepDag A).addDep b c).2.nodes
      rw [addDep, nodes_addEdge]
      exact nodes_prefix_getOrInsert (new.getOrInsert b).2 c
    obtain ⟨l, hl⟩ := hone.trans (nodes_prefix_run [(b, c)] rest)
    rw [singleton_append, singleton_append, hd] at hl
    rw [← hl]
    rfl
  have hne : b ≠ a := by
    rintro rfl
    rw [hnone] at hfirst
    exact absurd hfirst (by simp)
  have hmod : d.nodes.length % 2 ^ 32 = 0 := by rw [hlen, Nat.mod_self]
  have hins : d.getOrInsert a = (0, d.insertNode a 0) := by simp only [getOrInsert, hnone, hmod]
  have hfirst' : (d.insertNode a 0).indexOf b = some 0 :=
    (Function.update_of_ne hne _ _).trans hfirst
  have hins' : (d.insertNode a 0).getOrInsert b = (0, d.insertNode a 0) := by
    simp [getOrInsert, hfirst']
  simp [addDep, hins, hins', addEdge]

theorem Accepted.mem_addresses {x y : A} (h : Accepted calls x y) :
    y ∈ addresses calls := by
  obtain ⟨before, after, rfl, -⟩ := h
  exact mem_addresses.mpr ⟨(x, y), by simp, Or.inr rfl⟩

end Run

/-- A run that names the addresses below `2 * k`, two at a time. -/
def pairCalls (k : ℕ) : List (ℕ × ℕ) := (range k).map fun i => (2 * i, 2 * i + 1)

theorem addresses_pairCalls (k : ℕ) : addresses (pairCalls k) = Finset.range (2 * k) := by
  ext x
  rw [mem_addresses, Finset.mem_range]
  constructor
  · rintro ⟨c, hc, hx⟩
    obtain ⟨i, hi, rfl⟩ := mem_map.mp hc
    have hi' := mem_range.mp hi
    omega
  · intro hx
    refine ⟨(2 * (x / 2), 2 * (x / 2) + 1), ?_, by omega⟩
    exact mem_map.mpr ⟨x / 2, mem_range.mpr (by omega), rfl⟩

theorem pairCalls_succ (k : ℕ) :
    pairCalls (k + 1) = (0, 1) :: (range k).map fun i => (2 * (i + 1), 2 * (i + 1) + 1) := by
  simp [pairCalls, range_succ_eq_map, Function.comp_def]

/-- **An edge between unrelated addresses refused as a cycle.** After `2 ^ 31` calls the
addresses below `2 ^ 32` have used up the indices, and the edge from the address `2 ^ 32`
to the address `0` is refused although it is no loop and there is no path between its
ends. -/
theorem addDep_wraps :
    ((run (pairCalls (2 ^ 31))).addDep (2 ^ 32) 0).1 = .error ⟨2 ^ 32, 0⟩ ∧
      ¬(2 ^ 32 = 0 ∨ TransGen (Accepted (pairCalls (2 ^ 31))) 0 (2 ^ 32)) := by
  obtain ⟨k, hk⟩ : ∃ k, 2 ^ 31 = k + 1 := ⟨2 ^ 31 - 1, by omega⟩
  have haddr := addresses_pairCalls (2 ^ 31)
  have hnot : 2 ^ 32 ∉ addresses (pairCalls (2 ^ 31)) := by
    rw [haddr, Finset.mem_range]
    omega
  constructor
  · rw [hk, pairCalls_succ] at haddr hnot ⊢
    refine addDep_eq_error_of_full ?_ hnot
    rw [haddr, Finset.card_range]
    omega
  · rintro (h | h)
    · omega
    · obtain ⟨y, -, hy⟩ := TransGen.tail'_iff.mp h
      exact hnot hy.mem_addresses

end DepDag

end Heph
