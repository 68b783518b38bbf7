import Heph.Lib.SortedMap

/-!
# Files by their paths

A part of a file system that is known by its paths: what is at each of them, a directory, a file
with something in it, or a symbolic link. Nothing is followed. Directories are made with all that
is above them, and removed one entry at a time.
-/

namespace Heph

open List Option SortedMap Prod

/-- What is at a path. -/
inductive PathEntry (β : Type) where
  | dir
  | file (b : β)
  | link
  deriving DecidableEq

/-- What is at the paths, which are lists of names. -/
abbrev PathMap (κ β : Type) [LinearOrder κ] := SortedMap (List κ) (PathEntry β)

namespace PathMap

variable {κ β : Type} [LinearOrder κ] {m m' m'' : PathMap κ β} {p q d : List κ} {e : PathEntry β}

variable (m : PathMap κ β)

/-- There is something at the path. -/
def Has (p : List κ) : Prop := (m.get? p).isSome

instance (m : PathMap κ β) (p : List κ) : Decidable (m.Has p) :=
  inferInstanceAs (Decidable (_ = true))

/-- `is_dir`. -/
def IsDir (p : List κ) : Prop := m.get? p = some .dir

instance (m : PathMap κ β) (p : List κ) : Decidable (m.IsDir p) :=
  match h : m.get? p with
  | some .dir => isTrue h
  | some (.file _) => isFalse (by simp [IsDir, h])
  | some .link => isFalse (by simp [IsDir, h])
  | none => isFalse (by simp [IsDir, h])

/-- The entries below a directory. -/
def below (d : List κ) : List (List κ × PathEntry β) :=
  m.entries.filter fun e => d.isPrefixOf e.1 && e.1 ≠ d

variable (p : List κ)

/-- The directory can be made: no part of the path is something else. -/
def Free : Prop := ∀ q ∈ p.inits, m.Has q → m.IsDir q

instance (m : PathMap κ β) (p : List κ) : Decidable (m.Free p) :=
  inferInstanceAs (Decidable (∀ q ∈ _, _))

/-- `create_dir_all`, where it can be done. -/
def mkdirs : PathMap κ β :=
  p.inits.foldl (fun m q => if m.Has q then m else m.insert q .dir) m

/-- An entry is written: a directory with all above it; a file or a link in a directory, in place
of what is no directory. -/
def put : PathEntry β → Option (PathMap κ β)
  | .dir => if m.Free p then some (m.mkdirs p) else none
  | e => if m.IsDir p.dropLast ∧ ¬m.IsDir p then some (m.insert p e) else none

/-- An entry is removed: a file, a link, or a directory that is empty. -/
def unlink : Option (PathMap κ β) :=
  if m.Has p ∧ m.below p = [] then some (m.remove p) else none

variable {m p}

/-- Nothing is taken away. -/
def Keeps (m m' : PathMap κ β) : Prop := ∀ p, m.Has p → m'.Has p

theorem has_iff : m.Has p ↔ ∃ e, (p, e) ∈ m.entries := by
  rw [Has, isSome_iff_exists]
  exact exists_congr fun e => get?_eq_some

theorem IsDir.has (h : m.IsDir p) : m.Has p := by
  rw [Has, h]
  rfl

theorem mem_below : (q, e) ∈ m.below d ↔ m.get? q = some e ∧ d <+: q ∧ q ≠ d := by
  rw [below, get?_eq_some]
  simp

theorem Keeps.refl (m : PathMap κ β) : m.Keeps m := fun _ h => h

theorem has_insert : Has (m.insert p e) q ↔ q = p ∨ m.Has q := by
  rw [Has, get?_insert]
  split
  · next h => simp [h]
  · next h => simp [h, Has]

theorem keeps_insert : m.Keeps (m.insert p e) := fun _ hq => has_insert.mpr (.inr hq)

/-- What is at a path after directories have been made. -/
theorem get?_mkdirs :
    (m.mkdirs p).get? q = if q <+: p ∧ ¬m.Has q then some .dir else m.get? q := by
  rw [mkdirs]
  simp only [← mem_inits]
  induction p.inits generalizing m with
  | nil => simp
  | cons r l ih =>
    rw [foldl_cons, ih]
    by_cases hr : m.Has r
    · rw [if_pos hr]
      by_cases hq : q = r
      · subst hq
        simp [hr]
      · simp [hq]
    · simp only [if_neg hr, has_insert, get?_insert]
      by_cases hq : q = r
      · subst hq
        simp [hr]
      · simp [hq]

theorem keeps_mkdirs : m.Keeps (m.mkdirs p) := by
  intro q hq
  rw [Has, get?_mkdirs, if_neg (fun h => h.2 hq)]
  exact hq

theorem isDir_mkdirs (h : m.Free p) (hq : q <+: p) : (m.mkdirs p).IsDir q := by
  rw [IsDir, get?_mkdirs]
  split
  · rfl
  · next hhas => exact h q ((mem_inits q p).mpr hq) (by simpa [hq] using hhas)

theorem keeps_of_put (h : m.put p e = some m') : m.Keeps m' := by
  cases e with
  | dir =>
    simp only [put] at h
    split at h
    · cases h
      exact keeps_mkdirs
    · cases h
  | file | link =>
    simp only [put] at h
    split at h
    · cases h
      exact keeps_insert
    · cases h

theorem not_has_of_unlink (h : m.unlink p = some m') : ¬m'.Has p := by
  rw [unlink] at h
  split at h
  · cases h
    rw [Has, get?_remove]
    simp
  · cases h

/-! ### Trees -/

section Trees

variable (m : PathMap κ β) (d : List κ)

/-- What is below a directory, by the paths from there. -/
def treeAt : PathMap κ β := .ofList ((m.below d).map fun e => (e.1.drop d.length, e.2))

/-- What is not in a directory. -/
def outside : PathMap κ β :=
  ⟨m.entries.filter fun e => !d.isPrefixOf e.1, m.sorted.filter _⟩

/-- A directory is replaced by a tree. -/
def setTree (t : PathMap κ β) : PathMap κ β :=
  (t.entries.filter fun e => e.1 ≠ []).foldl (fun m e => m.insert (d ++ e.1) e.2)
    ((m.outside d).mkdirs d)

variable {m d} {t : PathMap κ β} {l : List (List κ × PathEntry β)} {P : List κ → Prop}

theorem get?_treeAt (hp : p ≠ []) : (m.treeAt d).get? p = m.get? (d ++ p) := by
  have hmem : ∀ e, (p, e) ∈ (m.below d).map (fun e => (e.1.drop d.length, e.2)) ↔
      m.get? (d ++ p) = some e := by
    intro e
    rw [List.mem_map]
    constructor
    · rintro ⟨⟨q, e'⟩, hq, heq⟩
      obtain ⟨hget, ⟨r, rfl⟩, -⟩ := mem_below.mp hq
      simp only [drop_left, mk.injEq] at heq
      rw [← heq.1, ← heq.2, hget]
    · intro hget
      refine ⟨(d ++ p, e), mem_below.mpr ⟨hget, prefix_append .., by simpa using hp⟩, by simp⟩
  cases hget : m.get? (d ++ p) with
  | none =>
    refine eq_none_iff_forall_ne_some.mpr fun e he => ?_
    have hmap := mem_of_mem_ofList (get?_eq_some.mp he)
    rw [(hmem e).mp hmap] at hget
    cases hget
  | some e =>
    refine get?_ofList ((hmem e).mpr hget) ?_
    rintro ⟨q, e'⟩ he' (rfl : q = p)
    rw [(hmem e').mp he'] at hget
    exact some.inj hget

theorem get?_treeAt_nil : (m.treeAt d).get? [] = none := by
  refine eq_none_iff_forall_ne_some.mpr fun e he => ?_
  have hmap := mem_of_mem_ofList (get?_eq_some.mp he)
  obtain ⟨⟨q, e'⟩, hq, heq⟩ := mem_map.mp hmap
  obtain ⟨-, ⟨r, rfl⟩, hne⟩ := mem_below.mp hq
  simp only [drop_left, mk.injEq] at heq
  exact hne (by rw [heq.1, append_nil])

/-- The tree below a directory is told by what is at the paths there. -/
theorem treeAt_congr (h : ∀ p, d <+: p → m.get? p = m'.get? p) : m.treeAt d = m'.treeAt d := by
  refine ext_get? fun p => ?_
  by_cases hp : p = []
  · rw [hp, get?_treeAt_nil, get?_treeAt_nil]
  · rw [get?_treeAt hp, get?_treeAt hp, h _ (prefix_append ..)]

theorem get?_outside (hp : ¬d <+: p) : (m.outside d).get? p = m.get? p := by
  ext e
  have hfalse : d.isPrefixOf p = false :=
    Bool.eq_false_iff.mpr (mt isPrefixOf_iff_prefix.mp hp)
  rw [get?_eq_some, get?_eq_some, outside]
  simp [hfalse]

theorem not_has_outside (hp : d <+: p) : ¬(m.outside d).Has p := by
  intro hhas
  obtain ⟨e, he⟩ := has_iff.mp hhas
  have hfalse := (mem_filter.mp he).2
  simp [ isPrefixOf_iff_prefix.mpr hp] at hfalse

theorem get?_foldl_insert_of_not_prefix (hp : ¬d <+: p) :
    get? (l.foldl (fun m e => insert m (d ++ e.1) e.2) m) p = m.get? p := by
  induction l generalizing m with
  | nil => rfl
  | cons e l ih =>
    have hne : p ≠ d ++ e.1 := by
      rintro rfl
      exact hp (prefix_append ..)
    rw [foldl_cons, ih, get?_insert, if_neg hne]

/-- What is not in a directory that is replaced is as it was, but for directories above it. -/
theorem get?_setTree (hp : ¬d <+: p) : (m.setTree d t).get? p =
    if p <+: d ∧ ¬m.Has p then some .dir else m.get? p := by
  have hhas : (m.outside d).Has p ↔ m.Has p := by rw [Has, Has, get?_outside hp]
  rw [setTree, get?_foldl_insert_of_not_prefix hp, get?_mkdirs, get?_outside hp]
  simp only [hhas]

theorem get?_foldl_insert_of_notMem (hp : p ∉ l.map fst) :
    get? (l.foldl (fun m e => insert m (d ++ e.1) e.2) m) (d ++ p) =
      m.get? (d ++ p) := by
  induction l generalizing m with
  | nil => rfl
  | cons e l ih =>
    rw [map_cons, mem_cons, not_or] at hp
    rw [foldl_cons, ih hp.2, get?_insert, if_neg]
    exact fun heq => hp.1 (append_cancel_left heq)

theorem get?_foldl_insert_of_mem (hl : (l.map fst).Nodup) (he : (p, e) ∈ l) :
    get? (l.foldl (fun m e => insert m (d ++ e.1) e.2) m) (d ++ p) =
      some e := by
  induction l generalizing m with
  | nil => cases he
  | cons f l ih =>
    rw [map_cons, nodup_cons] at hl
    rcases mem_cons.mp he with rfl | he
    · rw [foldl_cons, get?_foldl_insert_of_notMem hl.1, get?_insert, if_pos rfl]
    · exact ih hl.2 he

/-- What is in a directory that is replaced is what is in the tree. -/
theorem get?_setTree_append (hp : p ≠ []) : (m.setTree d t).get? (d ++ p) = t.get? p := by
  have hnodup : ((t.entries.filter fun e => e.1 ≠ []).map fst).Nodup :=
    t.nodup_keys.sublist (filter_sublist.map _)
  cases hget : t.get? p with
  | some e =>
    refine get?_foldl_insert_of_mem hnodup (mem_filter.mpr ⟨?_, by simpa using hp⟩)
    exact get?_eq_some.mp hget
  | none =>
    rw [setTree, get?_foldl_insert_of_notMem, get?_mkdirs, if_neg]
    · exact not_isSome_iff_eq_none.mp (not_has_outside (prefix_append ..))
    · rintro ⟨hpre, -⟩
      exact hp (by simpa using hpre.length_le)
    · intro hmem
      obtain ⟨⟨q, e⟩, he, rfl⟩ := mem_map.mp hmem
      rw [get?_eq_some.mpr (mem_filter.mp he).1] at hget
      cases hget

theorem isDir_setTree : (m.setTree d t).IsDir d := by
  have hno : [] ∉ (t.entries.filter fun e => e.1 ≠ []).map fst := by simp
  have hget := get?_foldl_insert_of_notMem (m := (m.outside d).mkdirs d) (d := d) hno
  rwa [append_nil, get?_mkdirs, if_pos ⟨prefix_rfl, not_has_outside prefix_rfl⟩]
    at hget

/-- What is above a directory that is replaced is one. -/
theorem isDir_setTree_of_prefix (h : m.Free d) (hp : p <+: d) : (m.setTree d t).IsDir p := by
  by_cases hd : d <+: p
  · rw [hp.eq_of_length_le hd.length_le]
    exact isDir_setTree
  · rw [IsDir, get?_setTree hd]
    split
    · rfl
    · next hhas =>
      exact h p ((mem_inits p d).mpr hp) (not_not.mp fun hno => hhas ⟨hp, hno⟩)

/-! ### What is changed -/

/-- Only the places are changed, and directories above them made that were not there. -/
def Within (P : List κ → Prop) (m m' : PathMap κ β) : Prop :=
  ∀ p, m'.get? p = m.get? p ∨ P p ∨
    (m.get? p = none ∧ m'.get? p = some .dir ∧ ∃ q, P q ∧ p <+: q)

theorem Within.refl (P : List κ → Prop) (m : PathMap κ β) : Within P m m := fun _ => .inl rfl

theorem Within.trans (h : Within P m m') (h' : Within P m' m'') : Within P m m'' := by
  intro p
  rcases h' p with heq' | hP | ⟨hnone', hdir', hq'⟩
  · rw [heq']
    exact h p
  · exact .inr (.inl hP)
  · rcases h p with heq | hP | ⟨-, hdir, -⟩
    · exact .inr (.inr ⟨heq ▸ hnone', hdir', hq'⟩)
    · exact .inr (.inl hP)
    · rw [hdir] at hnone'
      cases hnone'

theorem within_mkdirs (hq : P q) (hp : p <+: q) : Within P m (m.mkdirs p) := by
  intro r
  rw [get?_mkdirs]
  split
  · next hr =>
    refine .inr (.inr ⟨not_isSome_iff_eq_none.mp hr.2, rfl, q, hq, hr.1.trans hp⟩)
  · exact .inl rfl

theorem within_setTree (h : ∀ p, d <+: p → P p) : Within P m (m.setTree d t) := by
  intro p
  by_cases hp : d <+: p
  · exact .inr (.inl (h p hp))
  · rw [get?_setTree hp]
    split
    · next hr =>
      exact .inr (.inr ⟨not_isSome_iff_eq_none.mp hr.2, rfl, d, h d prefix_rfl, hr.1⟩)
    · exact .inl rfl

/-- `std::fs::write`, after `create_dir_all` of what is above. -/
def writeFile (m : PathMap κ β) (p : List κ) (b : β) : PathMap κ β :=
  if m.Free p.dropLast ∧ ¬m.IsDir p then (m.mkdirs p.dropLast).insert p (.file b) else m

/-- A directory stays one. -/
theorem isDir_writeFile {b : β} (h : m.IsDir q) : (m.writeFile p b).IsDir q := by
  rw [writeFile]
  split
  · next hp =>
    have hne : q ≠ p := by
      rintro rfl
      exact hp.2 h
    rw [IsDir, get?_insert, if_neg hne, get?_mkdirs, if_neg (fun hno => hno.2 h.has)]
    exact h
  · exact h

theorem within_writeFile (hp : P p) (b : β) : Within P m (m.writeFile p b) := by
  rw [writeFile]
  split
  · have hpre : p.dropLast <+: p := dropLast_prefix p
    refine (within_mkdirs hp hpre).trans fun q => ?_
    rw [get?_insert]
    split
    · next hq => exact .inr (.inl (hq ▸ hp))
    · exact .inl rfl
  · exact .refl P m

end Trees

end PathMap

end Heph
