import Mathlib

/-!
# Maps that are walked in the order of their keys

A map as a list of entries whose keys increase: what a program sees of a balanced search
tree when it only inserts, removes, looks up, takes the first entry and walks the entries
in order. The order of the keys is part of the type, so two maps with the same entries
are the same map, and a walk needs no well-formedness hypothesis.
-/

namespace Heph

open List Option Prod

/-- A map as the list of its entries, in the order of their keys. -/
structure SortedMap (K V : Type) [LinearOrder K] where
  /-- The entries. -/
  entries : List (K × V)
  /-- The keys increase. -/
  sorted : entries.Pairwise fun a b => a.1 < b.1

namespace SortedMap

variable {K V : Type} [LinearOrder K] {l : List (K × V)} {k : K} {e : K × V} {v : V}
  {m : SortedMap K V}

instance [DecidableEq V] : DecidableEq (SortedMap K V) := fun m m' =>
  decidable_of_iff (m.entries = m'.entries) ⟨fun h => by cases m; cases m'; cases h; rfl,
    congrArg entries⟩

@[ext]
theorem ext {m m' : SortedMap K V} (h : m.entries = m'.entries) : m = m' := by
  cases m
  cases h
  rfl

/-- The map without entries. -/
def empty : SortedMap K V := ⟨[], List.Pairwise.nil⟩

/-! ### Insertion -/

/-- Inserting an entry in its place; an entry with the same key is replaced. -/
def insertEntry (k : K) (v : V) : List (K × V) → List (K × V)
  | [] => [(k, v)]
  | e :: l =>
    if k < e.1 then (k, v) :: e :: l
    else if k = e.1 then (k, v) :: l
    else e :: insertEntry k v l

theorem mem_insertEntry (hl : l.Pairwise fun a b => a.1 < b.1) :
    e ∈ insertEntry k v l ↔ e = (k, v) ∨ e ∈ l ∧ e.1 ≠ k := by
  induction l with
  | nil => simp [insertEntry]
  | cons a l ih =>
    obtain ⟨ha, hl⟩ := pairwise_cons.mp hl
    rw [insertEntry]
    split
    · next hlt =>
      -- the new key is below all the others
      have hne : ∀ x ∈ a :: l, x.1 ≠ k := by
        intro x hx
        rcases mem_cons.mp hx with rfl | hx
        · exact hlt.ne'
        · exact (hlt.trans (ha x hx)).ne'
      rw [mem_cons]
      exact or_congr_right ⟨fun h => ⟨h, hne e h⟩, And.left⟩
    · split
      · next hnlt heq =>
        have hne : ∀ x ∈ l, x.1 ≠ k := fun x hx => heq ▸ (ha x hx).ne'
        rw [mem_cons, mem_cons]
        refine or_congr_right ⟨fun h => ⟨.inr h, hne e h⟩, ?_⟩
        rintro ⟨rfl | h, hk⟩
        · exact absurd heq.symm hk
        · exact h
      · next hnlt hneq =>
        rw [mem_cons, mem_cons, ih hl]
        constructor
        · rintro (rfl | h | ⟨h, hk⟩)
          · exact .inr ⟨.inl rfl, Ne.symm hneq⟩
          · exact .inl h
          · exact .inr ⟨.inr h, hk⟩
        · rintro (h | ⟨rfl | h, hk⟩)
          · exact .inr (.inl h)
          · exact .inl rfl
          · exact .inr (.inr ⟨h, hk⟩)

theorem pairwise_insertEntry (hl : l.Pairwise fun a b => a.1 < b.1) :
    (insertEntry k v l).Pairwise fun a b => a.1 < b.1 := by
  induction l with
  | nil => simp [insertEntry]
  | cons a l ih =>
    obtain ⟨ha, hl'⟩ := pairwise_cons.mp hl
    rw [insertEntry]
    split
    · next hlt =>
      refine pairwise_cons.mpr ⟨fun x hx => ?_, hl⟩
      rcases mem_cons.mp hx with rfl | hx
      · exact hlt
      · exact hlt.trans (ha x hx)
    · split
      · next heq => exact pairwise_cons.mpr ⟨fun x hx => heq ▸ ha x hx, hl'⟩
      · next hnlt hneq =>
        refine pairwise_cons.mpr ⟨fun x hx => ?_, ih hl'⟩
        rcases (mem_insertEntry hl').mp hx with rfl | ⟨hx, -⟩
        · exact lt_of_le_of_ne (not_lt.mp hnlt) (Ne.symm hneq)
        · exact ha x hx

/-- `insert`: the entry of the key is replaced. -/
def insert (m : SortedMap K V) (k : K) (v : V) : SortedMap K V :=
  ⟨insertEntry k v m.entries, pairwise_insertEntry m.sorted⟩

theorem mem_insert :
    e ∈ (m.insert k v).entries ↔ e = (k, v) ∨ e ∈ m.entries ∧ e.1 ≠ k :=
  mem_insertEntry m.sorted

/-- **A key above all the others goes to the end.** -/
theorem insertEntry_of_lt (h : ∀ e ∈ l, e.1 < k) :
    insertEntry k v l = l ++ [(k, v)] := by
  induction l with
  | nil => rfl
  | cons a l ih =>
    have ha : a.1 < k := h a mem_cons_self
    rw [insertEntry, if_neg ha.not_gt, if_neg ha.ne',
      ih fun e he => h e (mem_cons_of_mem a he), cons_append]

/-- The map of a list of entries, the last one of a key prevailing. -/
def ofList (l : List (K × V)) : SortedMap K V := l.foldl (fun m e => m.insert e.1 e.2) empty

theorem mem_foldl_insert
    (he : e ∈ (l.foldl (fun m e => m.insert e.1 e.2) m).entries) : e ∈ m.entries ∨ e ∈ l := by
  induction l generalizing m with
  | nil => exact .inl he
  | cons a l ih =>
    rcases ih he with he | he
    · rcases mem_insert.mp he with rfl | ⟨he, -⟩
      · exact .inr mem_cons_self
      · exact .inl he
    · exact .inr (mem_cons_of_mem a he)

/-- The entries of a map come from the list it was made of. -/
theorem mem_of_mem_ofList (he : e ∈ (ofList l).entries) : e ∈ l :=
  (mem_foldl_insert he).resolve_left not_mem_nil

/-- Entries in order, above all those of the map, are appended. -/
theorem foldl_insert_of_sorted (h : (m.entries ++ l).Pairwise fun a b => a.1 < b.1) :
    (l.foldl (fun m e => m.insert e.1 e.2) m).entries = m.entries ++ l := by
  induction l generalizing m with
  | nil => exact (append_nil _).symm
  | cons a l ih =>
    have hlast : (m.insert a.1 a.2).entries = m.entries ++ [a] :=
      insertEntry_of_lt fun e he =>
        (pairwise_append.mp h).2.2 e he a mem_cons_self
    have happend : m.entries ++ a :: l = m.entries ++ [a] ++ l := by simp
    rw [happend] at h ⊢
    rw [foldl_cons, ih (hlast ▸ h), hlast]

/-- **A map is made again from its own entries.** -/
theorem ofList_entries (m : SortedMap K V) : ofList m.entries = m :=
  ext (foldl_insert_of_sorted m.sorted)

/-! ### Removal and lookup -/

/-- `remove`. -/
def remove (m : SortedMap K V) (k : K) : SortedMap K V :=
  ⟨m.entries.filter fun e => e.1 ≠ k, m.sorted.filter _⟩

/-- Removing the first key takes away the first entry. -/
theorem remove_head (h : m.entries = (k, v) :: l) : (m.remove k).entries = l := by
  have hs := m.sorted
  rw [h] at hs
  have hne : ∀ e ∈ l, e.1 ≠ k := fun e he => ((pairwise_cons.mp hs).1 e he).ne'
  show m.entries.filter _ = l
  rw [h, filter_cons, if_neg (by simp), filter_eq_self]
  exact fun e he => decide_eq_true (hne e he)

variable (m : SortedMap K V)

/-- `get`. -/
def get? (k : K) : Option V := (m.entries.find? fun e => e.1 = k).map snd

/-- The keys, in order. -/
def keys : List K := m.entries.map fst

/-- The values, in the order of their keys. -/
def values : List V := m.entries.map snd

theorem nodup_keys : m.keys.Nodup :=
  pairwise_map.mpr (m.sorted.imp fun h => h.ne)

variable {m}

/-- **A key has one value.** -/
theorem get?_eq_some :
    m.get? k = some v ↔ (k, v) ∈ m.entries := by
  constructor
  · intro h
    obtain ⟨e, he, rfl⟩ := map_eq_some_iff.mp h
    obtain rfl : e.1 = k := by simpa using find?_some he
    exact mem_of_find?_eq_some he
  · intro h
    have hfind : (m.entries.find? fun e => e.1 = k) = some (k, v) := by
      cases he : m.entries.find? fun e => e.1 = k with
      | none => exact absurd (find?_eq_none.mp he _ h) (by simp)
      | some e =>
        have hek : e.1 = k := by simpa using find?_some he
        exact congrArg some (inj_on_of_nodup_map m.nodup_keys
          (mem_of_find?_eq_some he) h hek)
    rw [get?, hfind, map_some]

theorem get?_insert {k k' : K} :
    (m.insert k v).get? k' = if k' = k then some v else m.get? k' := by
  ext w
  rw [get?_eq_some, mem_insert]
  by_cases hk : k' = k
  · subst hk
    simp [eq_comm]
  · simp [hk, get?_eq_some]

theorem get?_remove {k k' : K} :
    (m.remove k).get? k' = if k' = k then none else m.get? k' := by
  ext w
  rw [get?_eq_some, remove]
  by_cases hk : k' = k
  · simp [hk]
  · simp [hk, get?_eq_some]

@[simp]
theorem get?_empty : (empty : SortedMap K V).get? k = none := rfl

/-- **A map is known by its lookups.** -/
theorem ext_get? {m m' : SortedMap K V} (h : ∀ k, m.get? k = m'.get? k) : m = m' := by
  have hmem : ∀ e, e ∈ m.entries ↔ e ∈ m'.entries := by
    rintro ⟨k, v⟩
    rw [← get?_eq_some, ← get?_eq_some, h k]
  have hnodup : ∀ m : SortedMap K V, m.entries.Nodup := fun m => .of_map fst m.nodup_keys
  have hperm := (perm_ext_iff_of_nodup (hnodup m) (hnodup m')).mpr hmem
  refine ext (hperm.eq_of_pairwise (fun a b _ _ hab hba => ?_) m.sorted m'.sorted)
  exact absurd hab (lt_asymm hba)

/-- A key that is inserted, or was there, has a value. -/
theorem exists_get?_foldl_insert (h : (m.get? k).isSome ∨ k ∈ l.map fst) :
    ∃ v, (l.foldl (fun m e => m.insert e.1 e.2) m).get? k = some v := by
  induction l generalizing m with
  | nil => exact isSome_iff_exists.mp (h.resolve_right not_mem_nil)
  | cons a l ih =>
    refine ih ?_
    rw [get?_insert]
    by_cases hk : k = a.1
    · exact .inl (by rw [if_pos hk, isSome_some])
    · rw [if_neg hk]
      exact h.imp_right fun h => (mem_cons.mp h).resolve_left hk

/-- **What a map of a list has for a key**, where the list has one value for it. -/
theorem get?_ofList (he : e ∈ l)
    (hone : ∀ e' ∈ l, e'.1 = e.1 → e'.2 = e.2) : (ofList l).get? e.1 = some e.2 := by
  obtain ⟨v, hv⟩ := exists_get?_foldl_insert
    (.inr (mem_map_of_mem he))
  have hmem : (e.1, v) ∈ l := mem_of_mem_ofList (get?_eq_some.mp hv)
  rw [ofList, hv, ← hone _ hmem rfl]

end SortedMap

end Heph
