import Mathlib

/-!
# Renumbering two regions of an order

A table gives each of finitely many keys a position, and two lists of keys `M` and
`Q` have to change places: everything in `M` is to come before everything in `Q`,
each list keeping its own order, and no position outside the two regions is to be
touched. The way to do it is to sort the positions the two lists hold together and
to deal them out again, first to `M` and then to `Q`.

`renumbered_renumber` says what that does, in the form an order invariant needs:
a key of `M` only moves down, a key of `Q` only moves up, every key of `M` ends up
below every key of `Q`, and the positions in use are the same as before. The two
inequalities are facts about a sublist of a sorted list
(`getElem_le_of_sublist` and `le_getElem_of_sublist`): its `i`-th entry is
neither before the `i`-th entry of the whole list nor after the `i`-th entry counted
from the end.
-/

namespace Heph

open List

/-! ### A sublist of a sorted list -/

section Sublist

variable {β : Type} {l' l : List β}

/-- The `i`-th entry of a list is related to the `i`-th entry of a sublist. -/
theorem rel_getElem_of_sublist {r : β → β → Prop} (hrefl : ∀ b, r b b) (hsub : l'.Sublist l)
    (hl : l.Pairwise r) (i : ℕ) (hi : i < l'.length) (hi' : i < l.length) : r l[i] l'[i] := by
  obtain ⟨f, hf⟩ := sublist_iff_exists_orderEmbedding_getElem?_eq.mp hsub
  obtain ⟨hlt, heq⟩ := List.getElem?_eq_some_iff.mp ((hf i).symm.trans (getElem?_eq_getElem hi))
  rw [← heq]
  rcases (f.strictMono.le_apply (x := i)).eq_or_lt with h | h
  · simpa [← h] using hrefl _
  · exact pairwise_iff_getElem.mp hl i (f i) hi' hlt h

/-- The `j`-th entry of a sublist is at or below the entry of the list that is as
far from the end. -/
theorem le_getElem_of_sublist [Preorder β] (hsub : l'.Sublist l) (hl : l.Pairwise (· ≤ ·))
    (j : ℕ) (hj : j < l'.length) (hj' : l.length - l'.length + j < l.length) :
    l'[j] ≤ l[l.length - l'.length + j] := by
  have hle := hsub.length_le
  -- read from the end, the order is the other way round
  have h := @rel_getElem_of_sublist β _ _ (· ≥ ·) le_refl hsub.reverse (pairwise_reverse.mpr hl)
    (l'.length - 1 - j) (by simp; omega) (by simp; omega)
  have hidx : l.length - 1 - (l'.length - 1 - j) = l.length - l'.length + j := by omega
  have hidx' : l'.length - 1 - (l'.length - 1 - j) = j := by omega
  simpa only [getElem_reverse, hidx, hidx'] using h

end Sublist

/-! ### Writing a list of entries -/

variable {β : Type} {x : ℕ} {L : List ℕ}

/-- Writing a list of entries, one after the other. -/
def setAll (l : List β) (kps : List (ℕ × β)) : List β :=
  kps.foldl (fun l kp => l.set kp.1 kp.2) l

@[simp] theorem setAll_cons (l : List β) (kp : ℕ × β) (kps : List (ℕ × β)) :
    setAll l (kp :: kps) = setAll (l.set kp.1 kp.2) kps := rfl

@[simp] theorem length_setAll (l : List β) (kps : List (ℕ × β)) :
    (setAll l kps).length = l.length := by
  induction kps generalizing l with
  | nil => rfl
  | cons kp kps ih => simp [ih]

/-- An entry that is not written keeps its value. -/
theorem getD_setAll_of_notMem (d : β) {l : List β} {kps : List (ℕ × β)}
    (hx : x ∉ kps.map Prod.fst) : (setAll l kps).getD x d = l.getD x d := by
  induction kps generalizing l with
  | nil => rfl
  | cons kp kps ih =>
    simp only [map_cons, mem_cons, not_or] at hx
    rw [setAll_cons, ih hx.2]
    simp [getD_eq_getElem?_getD, getElem?_set_ne (Ne.symm hx.1)]

theorem notMem_fst_zip (R : List β) (hx : x ∉ L) :
    x ∉ (L.zip R).map Prod.fst := fun hc => by
  obtain ⟨⟨a, b⟩, hab, rfl⟩ := mem_map.mp hc
  exact hx (of_mem_zip hab).1

/-- Written keys that are pairwise different hold the values written. -/
theorem getD_setAll_zip (d : β) {l : List β} {ks : List ℕ} {vs : List β} (hnd : ks.Nodup)
    (hlt : ∀ k ∈ ks, k < l.length) :
    ∀ (i : ℕ) (hi : i < ks.length) (hi' : i < vs.length),
      (setAll l (ks.zip vs)).getD ks[i] d = vs[i] := by
  induction ks generalizing l vs with
  | nil => intro i hi; simp at hi
  | cons k ks ih =>
    obtain ⟨hk, hnd⟩ := nodup_cons.mp hnd
    intro i hi hi'
    cases vs with
    | nil => simp at hi'
    | cons v vs =>
      rw [zip_cons_cons, setAll_cons]
      cases i with
      | zero =>
        have hlen : k < l.length := hlt k mem_cons_self
        rw [getElem_cons_zero, getD_setAll_of_notMem d (notMem_fst_zip vs hk)]
        simp [getD_eq_getElem?_getD, getElem?_set_self hlen]
      | succ i =>
        refine ih hnd (fun k' hk' => ?_) i (by simpa using hi) (by simpa using hi')
        simpa using hlt k' (mem_cons_of_mem _ hk')

/-! ### The renumbering -/

section Renumber

variable [LinearOrder β] {M Q : List ℕ} {o : ℕ → β} {ord : List β} {d : β}

/-- **What renumbering two regions does** to the position of every key. -/
structure Renumbered (M Q : List ℕ) (o o' : ℕ → β) : Prop where
  /-- A key of neither region keeps its position. -/
  outside : ∀ x, x ∉ M → x ∉ Q → o' x = o x
  /-- The positions in use are the same as before. -/
  reuses : ∀ x, x ∈ M ∨ x ∈ Q → ∃ y, (y ∈ M ∨ y ∈ Q) ∧ o' x = o y
  /-- Two keys of the regions never share a position. -/
  inj : ∀ x y, x ∈ M ∨ x ∈ Q → y ∈ M ∨ y ∈ Q → o' x = o' y → x = y
  /-- A key of the first region only moves down. -/
  down : ∀ x ∈ M, o' x ≤ o x
  /-- A key of the second region only moves up. -/
  up : ∀ y ∈ Q, o y ≤ o' y
  /-- The first region keeps its order. -/
  mono_fst : ∀ x ∈ M, ∀ y ∈ M, o x < o y → o' x < o' y
  /-- The second region keeps its order. -/
  mono_snd : ∀ x ∈ Q, ∀ y ∈ Q, o x < o y → o' x < o' y
  /-- The first region ends up before the second. -/
  across : ∀ x ∈ M, ∀ y ∈ Q, o' x < o' y

section Keys

variable {M Q : List ℕ} {o o' : ℕ → β} {S : Set ℕ} (h : Renumbered M Q o o')
  (hS : ∀ x, x ∈ M ∨ x ∈ Q → x ∈ S)

include h hS

/-- A key holds the position that a key of the same kind held before: a key of the
regions one of the regions, and any other key its own. -/
theorem Renumbered.exists_old (hx : x ∈ S) :
    ∃ y ∈ S, o' x = o y ∧ (x ∈ M ∨ x ∈ Q ↔ y ∈ M ∨ y ∈ Q) := by
  rcases em (x ∈ M ∨ x ∈ Q) with hreg | hreg
  · obtain ⟨y, hy, hxy⟩ := h.reuses x hreg
    exact ⟨y, hS y hy, hxy, iff_of_true hreg hy⟩
  · rw [not_or] at hreg
    exact ⟨x, hx, h.outside x hreg.1 hreg.2, Iff.rfl⟩

/-- Keys with distinct positions keep distinct positions. -/
theorem Renumbered.injOn (ho : Set.InjOn o S) : Set.InjOn o' S := by
  intro x hx y hy hxy
  obtain ⟨x', hx', hx1, hx2⟩ := h.exists_old hS hx
  obtain ⟨y', hy', hy1, hy2⟩ := h.exists_old hS hy
  obtain rfl : x' = y' := ho hx' hy' (by rw [← hx1, ← hy1, hxy])
  rcases em (x ∈ M ∨ x ∈ Q) with hreg | hreg
  · exact h.inj x y hreg (hy2.mpr (hx2.mp hreg)) hxy
  · have hreg' : ¬(y ∈ M ∨ y ∈ Q) := fun hc => hreg (hx2.mpr (hy2.mp hc))
    rw [not_or] at hreg hreg'
    refine ho hx hy ?_
    rw [← h.outside x hreg.1 hreg.2, ← h.outside y hreg'.1 hreg'.2, hxy]

end Keys

/-- The positions of the two regions, sorted. -/
def sortedPositions (M Q : List ℕ) (o : ℕ → β) : List β :=
  (M.map o ++ Q.map o).insertionSort (· ≤ ·)

theorem length_sortedPositions : (sortedPositions M Q o).length = M.length + Q.length := by
  simp [sortedPositions]

theorem mem_sortedPositions {p : β} :
    p ∈ sortedPositions M Q o ↔ ∃ y, (y ∈ M ∨ y ∈ Q) ∧ p = o y := by
  simp only [sortedPositions, mem_insertionSort, mem_append, mem_map]
  constructor
  · rintro (⟨y, hy, rfl⟩ | ⟨y, hy, rfl⟩)
    · exact ⟨y, Or.inl hy, rfl⟩
    · exact ⟨y, Or.inr hy, rfl⟩
  · rintro ⟨y, hy | hy, rfl⟩
    · exact Or.inl ⟨y, hy, rfl⟩
    · exact Or.inr ⟨y, hy, rfl⟩

theorem sortedPositions_pairwise_le : (sortedPositions M Q o).Pairwise (· ≤ ·) :=
  pairwise_insertionSort _ _

/-- Distinct keys with distinct positions give strictly sorted positions. -/
theorem sortedPositions_pairwise_lt (hnd : (M.map o ++ Q.map o).Nodup) :
    (sortedPositions M Q o).Pairwise (· < ·) := by
  have hnd' : (sortedPositions M Q o).Nodup := (perm_insertionSort _ _).nodup_iff.mpr hnd
  exact (sortedPositions_pairwise_le.and hnd').imp fun h => lt_of_le_of_ne h.1 h.2

/-- A region whose positions are sorted is a sublist of the sorted positions. -/
theorem sublist_sortedPositions (hsub : (L.map o).Subperm (M.map o ++ Q.map o))
    (hL : L.Pairwise fun x y => o x ≤ o y) : (L.map o).Sublist (sortedPositions M Q o) := by
  refine sublist_of_subperm_of_pairwise ?_ (pairwise_map.mpr hL)
    sortedPositions_pairwise_le
  exact hsub.trans (perm_insertionSort _ _).symm.subperm

/-- Dealing the sorted positions out again: the first ones to the keys of `M`, in
order, and the rest to the keys of `Q`. -/
def renumber (ord : List β) (M Q : List ℕ) (d : β) : List β :=
  let P := sortedPositions M Q (ord.getD · d)
  setAll (setAll ord (M.zip P)) (Q.zip (P.drop M.length))

@[simp] theorem length_renumber : (renumber ord M Q d).length = ord.length := by
  simp [renumber]

theorem getD_renumber_outside (hM : x ∉ M) (hQ : x ∉ Q) :
    (renumber ord M Q d).getD x d = ord.getD x d :=
  (getD_setAll_of_notMem d (notMem_fst_zip _ hQ)).trans
    (getD_setAll_of_notMem d (notMem_fst_zip _ hM))

/-- The new position of the `i`-th key of the first region. -/
theorem getD_renumber_fst (hnd : (M ++ Q).Nodup) (hlt : ∀ x ∈ M ++ Q, x < ord.length) (i : ℕ)
    (hi : i < M.length) (hi' : i < (sortedPositions M Q (ord.getD · d)).length) :
    (renumber ord M Q d).getD M[i] d = (sortedPositions M Q (ord.getD · d))[i] := by
  obtain ⟨hMnd, -, hdisj⟩ := nodup_append'.mp hnd
  have hnot : M[i] ∉ Q := fun hc => hdisj (getElem_mem hi) hc
  exact (getD_setAll_of_notMem d (notMem_fst_zip _ hnot)).trans
    (getD_setAll_zip d hMnd (fun k hk => hlt k (mem_append_left _ hk)) i hi hi')

/-- The new position of the `j`-th key of the second region. -/
theorem getD_renumber_snd (hnd : (M ++ Q).Nodup) (hlt : ∀ x ∈ M ++ Q, x < ord.length) (j : ℕ)
    (hj : j < Q.length) (hj' : M.length + j < (sortedPositions M Q (ord.getD · d)).length) :
    (renumber ord M Q d).getD Q[j] d = (sortedPositions M Q (ord.getD · d))[M.length + j] := by
  obtain ⟨-, hQnd, -⟩ := nodup_append'.mp hnd
  have hlt' : ∀ k ∈ Q, k <
      (setAll ord (M.zip (sortedPositions M Q (ord.getD · d)))).length := fun k hk => by
    rw [length_setAll]
    exact hlt k (mem_append_right _ hk)
  have hlen : j < ((sortedPositions M Q (ord.getD · d)).drop M.length).length := by
    rw [length_drop]
    omega
  exact (getD_setAll_zip d hQnd hlt' j hj hlen).trans (by simp)

/-- In a list whose positions increase, a smaller position has a smaller index. -/
theorem index_lt_of_lt (hL : L.Pairwise fun x y => o x ≤ o y) {i j : ℕ}
    (hi : i < L.length) (hj : j < L.length) (h : o L[i] < o L[j]) : i < j := by
  by_contra hc
  rcases lt_or_ge j i with hji | hij
  · exact absurd h (not_lt.mpr (pairwise_iff_getElem.mp hL j i hj hi hji))
  · obtain rfl : i = j := by omega
    exact lt_irrefl _ h

/-- **Dealing the sorted positions out again renumbers the two regions.** The index
of a key in `M ++ Q` is its index into the sorted positions, so every clause is a
fact about two indices. -/
theorem renumbered_renumber (hM : M.Pairwise fun x y => ord.getD x d ≤ ord.getD y d)
    (hQ : Q.Pairwise fun x y => ord.getD x d ≤ ord.getD y d) (hnd : (M ++ Q).Nodup)
    (hlt : ∀ x ∈ M ++ Q, x < ord.length) (hinj : ((M ++ Q).map (ord.getD · d)).Nodup) :
    Renumbered M Q (ord.getD · d) ((renumber ord M Q d).getD · d) := by
  obtain ⟨P, hP⟩ : ∃ P, sortedPositions M Q (ord.getD · d) = P := ⟨_, rfl⟩
  rw [map_append] at hinj
  have hPlt : P.Pairwise (· < ·) := hP ▸ sortedPositions_pairwise_lt hinj
  have hPle : P.Pairwise (· ≤ ·) := hPlt.imp le_of_lt
  have hPlen : P.length = M.length + Q.length := hP ▸ length_sortedPositions
  have hPmono : ∀ (i j : ℕ) (hi : i < P.length) (hj : j < P.length), i < j → P[i] < P[j] :=
    fun i j hi hj hij => pairwise_iff_getElem.mp hPlt i j hi hj hij
  have hfst : ∀ (i : ℕ) (hi : i < M.length), (renumber ord M Q d).getD M[i] d = P[i] := by
    subst hP
    exact fun i hi => getD_renumber_fst hnd hlt i hi (by omega)
  have hsnd : ∀ (j : ℕ) (hj : j < Q.length),
      (renumber ord M Q d).getD Q[j] d = P[M.length + j] := by
    subst hP
    exact fun j hj => getD_renumber_snd hnd hlt j hj (by omega)
  -- A key of either region, together with its index into the sorted positions.
  have hkey : ∀ x, x ∈ M ∨ x ∈ Q → ∃ (i : ℕ) (hi : i < P.length),
      (renumber ord M Q d).getD x d = P[i] ∧ (M ++ Q)[i]? = some x := by
    rintro x (hx | hx)
    · obtain ⟨i, hi, rfl⟩ := getElem_of_mem hx
      exact ⟨i, by omega, hfst i hi, by simp [getElem?_append_left hi]⟩
    · obtain ⟨j, hj, rfl⟩ := getElem_of_mem hx
      exact ⟨M.length + j, by omega, hsnd j hj, by simp [hj]⟩
  refine ⟨fun x => getD_renumber_outside, ?_, ?_, ?_, ?_, ?_, ?_, ?_⟩
  · intro x hx
    obtain ⟨i, hi, hxi, -⟩ := hkey x hx
    have hmem : P[i] ∈ sortedPositions M Q (ord.getD · d) := hP ▸ getElem_mem hi
    simpa only [hxi] using mem_sortedPositions.mp hmem
  · intro x y hx hy h
    obtain ⟨i, hi, hxi, hx'⟩ := hkey x hx
    obtain ⟨j, hj, hyj, hy'⟩ := hkey y hy
    have hPij : P[i] = P[j] := by
      rw [← hxi, ← hyj]
      exact h
    have hij : i = j := (Nodup.getElem_inj_iff (hPlt.imp ne_of_lt)).mp hPij
    rw [hij, hy'] at hx'
    exact (Option.some.inj hx').symm
  · intro x hx
    obtain ⟨i, hi, rfl⟩ := getElem_of_mem hx
    have hsub : (M.map (ord.getD · d)).Sublist P :=
      hP ▸ sublist_sortedPositions (sublist_append_left _ _).subperm hM
    rw [hfst i hi]
    simpa using rel_getElem_of_sublist le_refl hsub hPle i (by simpa using hi) (by omega)
  · intro y hy
    obtain ⟨j, hj, rfl⟩ := getElem_of_mem hy
    have hsub : (Q.map (ord.getD · d)).Sublist P :=
      hP ▸ sublist_sortedPositions (sublist_append_right _ _).subperm hQ
    have hpos : P.length - (Q.map (ord.getD · d)).length + j = M.length + j := by
      simp only [length_map]
      omega
    have hle := le_getElem_of_sublist hsub hPle j (by simpa using hj) (by omega)
    simp only [hpos, getElem_map] at hle
    rw [hsnd j hj]
    exact hle
  · intro x hx y hy h
    obtain ⟨i, hi, rfl⟩ := getElem_of_mem hx
    obtain ⟨j, hj, rfl⟩ := getElem_of_mem hy
    rw [hfst i hi, hfst j hj]
    exact hPmono i j (by omega) (by omega) (index_lt_of_lt hM hi hj h)
  · intro x hx y hy h
    obtain ⟨i, hi, rfl⟩ := getElem_of_mem hx
    obtain ⟨j, hj, rfl⟩ := getElem_of_mem hy
    have hij := index_lt_of_lt hQ hi hj h
    rw [hsnd i hi, hsnd j hj]
    exact hPmono _ _ (by omega) (by omega) (by omega)
  · intro x hx y hy
    obtain ⟨i, hi, rfl⟩ := getElem_of_mem hx
    obtain ⟨j, hj, rfl⟩ := getElem_of_mem hy
    rw [hfst i hi, hsnd j hj]
    exact hPmono _ _ (by omega) (by omega) (by omega)

end Renumber

end Heph
