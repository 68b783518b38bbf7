import Heph.Lib.FileTree
import Heph.Lib.Traverse

/-!
# What the operations on files do

Each operation is described by what it finds at the end of a path, and by the one place it changes
(`FileTree.Puts`). Making directories changes nothing that is there (`FileTree.Grows`).
-/

namespace Heph.FileTree

open Option Function FileNode

variable {κ : Type} {t t' t'' : FileTree κ} {follow : Bool} {r : Route κ} {p : Place κ}
  {n n' : FileNode κ} {q : Place κ} {kind : FileKind κ} {bytes : List UInt8} {target : PathBuf κ}
  {name : κ}

/-! ### Where a path leads -/

section

open Except

variable {jump : Place κ → Route κ → Except IoError (Place κ)} {cur : Place κ} {k : ℕ}

/-- The place is in a directory. -/
theorem scan_tail (hjump : ∀ cur r, t.kindAt cur = some .dir → jump cur r = .ok p →
      t.kindAt p.tail = some .dir)
    (hcur : t.kindAt cur = some .dir) (h : t.scan follow jump cur r = .ok p) :
    t.kindAt p.tail = some .dir := by
  induction r generalizing cur with
  | nil =>
    obtain rfl : cur = p := ok.inj h
    exact kindAt_tail hcur
  | cons part rest ih =>
    cases part with
    | up => exact ih (kindAt_tail hcur) h
    | name c =>
      rw [scan] at h
      split at h
      · split at h
        · obtain rfl : c :: cur = p := ok.inj h
          exact hcur
        · cases h
      · next hdir => exact ih hdir h
      · split at h
        · obtain rfl : c :: cur = p := ok.inj h
          exact hcur
        · cases h
      · split at h
        · obtain rfl : c :: cur = p := ok.inj h
          exact hcur
        · refine hjump _ _ ?_ h
          split
          · exact t.root
          · exact hcur

theorem locateFrom_tail (hcur : t.kindAt cur = some .dir)
    (h : t.locateFrom follow k cur r = .ok p) : t.kindAt p.tail = some .dir := by
  induction k generalizing cur r with
  | zero =>
    refine scan_tail ?_ hcur h
    exact fun _ _ _ => nofun
  | succ k ih => exact scan_tail (fun _ _ hcur h => ih hcur h) hcur h

/-- What is not a directory can be replaced. -/
theorem fits_of_locate {n : Option (FileNode κ)} (h : t.locate follow r = .ok p)
    (hp : t.kindAt p ≠ some .dir) : t.Fits p n :=
  ⟨locateFrom_tail t.root h, fun hdir => absurd hdir hp⟩

end

/-! ### What is found -/

/-- **A path leads to a node.** -/
structure Finds (t : FileTree κ) (follow : Bool) (r : Route κ) (p : Place κ) (n : FileNode κ) :
    Prop where
  locate : t.locate follow r = .ok p
  nodes : t.nodes p = some n

section

variable (h : t.Finds follow r p n)

include h

theorem Finds.kindAt : t.kindAt p = some n.kind :=
  kindAt_of_nodes h.nodes

end

/-- What is looked up at the end of a path is looked up in a node. -/
theorem locate_bind_eq_ok {β : Type} {follow : Bool} {f : Place κ → Except IoError β} {b : β}
    (hnone : ∀ p, t.nodes p = none → f p ≠ .ok b) :
    t.locate follow r >>= f = .ok b ↔ ∃ p n, t.Finds follow r p n ∧ f p = .ok b := by
  rw [bind_ok]
  constructor
  · rintro ⟨p, hp, h⟩
    obtain ⟨n, hn⟩ := ne_none_iff_exists'.mp fun hn => hnone p hn h
    exact ⟨p, n, ⟨hp, hn⟩, h⟩
  · rintro ⟨p, n, h, hf⟩
    exact ⟨p, h.locate, hf⟩

theorem metadata_eq_ok :
    t.metadata r = .ok kind ↔ ∃ p n, t.Finds true r p n ∧ n.kind = kind := by
  rw [metadata, locate_bind_eq_ok fun p hp => by simp [kindAt_eq_none.mpr hp]]
  refine exists_congr fun p => exists_congr fun n => and_congr_right fun h => ?_
  simp [h.kindAt]

theorem readLink_eq_ok :
    t.readLink r = .ok target ↔ ∃ p n, t.Finds false r p n ∧ n.kind = .link target := by
  rw [readLink, locate_bind_eq_ok fun p hp => by simp [kindAt_eq_none.mpr hp]]
  refine exists_congr fun p => exists_congr fun n => and_congr_right fun h => ?_
  rw [h.kindAt]
  cases n.kind <;> simp

/-! ### What is changed -/

variable [DecidableEq κ] {res : Except IoError Unit} {value : List UInt8}

/-- **One place has changed.** -/
structure Puts (t : FileTree κ) (p : Place κ) (n : Option (FileNode κ)) (t' : FileTree κ) :
    Prop where
  nodes : t'.nodes = Function.update t.nodes p n

theorem puts_put {n : Option (FileNode κ)} (h : t.Fits p n) : t.Puts p n (t.put p n) :=
  ⟨put_nodes h⟩

theorem Puts.self {n : Option (FileNode κ)} (h : t.Puts p n t') : t'.nodes p = n := by
  rw [h.nodes, update_self]

theorem Puts.of_ne {n : Option (FileNode κ)} (h : t.Puts p n t') (hq : q ≠ p) :
    t'.nodes q = t.nodes q := by
  rw [h.nodes, update_of_ne hq]

/-- **Directories have been made**, and nothing else. -/
structure Grows (t t' : FileTree κ) : Prop where
  nodes : ∀ q, t'.nodes q = t.nodes q ∨ t.nodes q = none ∧ t'.kindAt q = some .dir

omit [DecidableEq κ] in
theorem Grows.refl (t : FileTree κ) : Grows t t := ⟨fun _ => .inl rfl⟩

omit [DecidableEq κ] in
theorem Grows.trans (h : Grows t t') (h' : Grows t' t'') : Grows t t'' := by
  refine ⟨fun q => ?_⟩
  rcases h'.nodes q with heq' | ⟨hnone', hdir'⟩
  · rw [kindAt, kindOf, heq']
    exact h.nodes q
  · rcases h.nodes q with heq | ⟨-, hdir⟩
    · exact .inr ⟨heq ▸ hnone', hdir'⟩
    · cases hdir.symm.trans (kindAt_eq_none.mpr hnone')

theorem mkdir_grows (h : t.mkdir r = .ok t') : Grows t t' := by
  obtain ⟨p, hp, h⟩ := bind_ok.mp h
  split at h
  · next hn =>
    cases h
    have hdir : t.kindAt p ≠ some .dir := by simp [kindAt_eq_none.mpr hn]
    have hputs := puts_put (n := some ⟨.dir, fun _ => none⟩) (fits_of_locate hp hdir)
    refine ⟨fun q => ?_⟩
    by_cases hq : q = p
    · subst hq
      exact .inr ⟨hn, kindAt_of_nodes hputs.self⟩
    · exact .inl (hputs.of_ne hq)
  · cases h

theorem createDirs_grows {above : List (Part κ)}
    (h : t.createDirs above = (res, t')) : Grows t t' := by
  induction above generalizing res t' with
  | nil =>
    obtain rfl := (Prod.mk.inj h).2
    exact .refl t
  | cons c above ih =>
    rw [createDirs] at h
    split at h
    · next hmk =>
      obtain rfl := (Prod.mk.inj h).2
      exact mkdir_grows hmk
    · split at h
      · next t₁ hrec =>
        split at h
        · next hmk =>
          obtain rfl := (Prod.mk.inj h).2
          exact (ih hrec).trans (mkdir_grows hmk)
        · obtain rfl : t₁ = t' := by
            split at h <;> exact (Prod.mk.inj h).2
          exact ih hrec
      · next hrec =>
        obtain rfl := (Prod.mk.inj h).2
        exact ih hrec
    · obtain rfl : t = t' := by
        split at h <;> exact (Prod.mk.inj h).2
      exact .refl t

theorem openFile_ok {truncate : Bool} (h : t.openFile truncate r = .ok (p, t')) :
    t.locate true r = .ok p ∧ (∀ kind, t.kindAt p = some kind → kind.type = .file) ∧
      ∃ bytes mode attrs, t.Puts p (some ⟨.file bytes mode, attrs⟩) t' := by
  obtain ⟨q, hq, h⟩ := bind_ok.mp h
  split at h
  · next hn =>
    cases h
    have hk := kindAt_eq_none.mpr hn
    exact ⟨hq, by simp [hk], _, _, _, puts_put (fits_of_locate hq (by simp [hk]))⟩
  · next hn =>
    cases h
    have hk := kindAt_of_nodes hn
    exact ⟨hq, by simp [hk, FileKind.type], _, _, _, puts_put (fits_of_locate hq (by simp [hk]))⟩
  · cases h
  · cases h

theorem openFile_of_locate (truncate : Bool) (hp : t.locate true r = .ok p)
    (hk : ∀ kind, t.kindAt p = some kind → kind.type = .file) :
    ∃ t', t.openFile truncate r = .ok (p, t') := by
  simp only [openFile, hp, bind, Except.bind]
  split
  · exact ⟨_, rfl⟩
  · exact ⟨_, rfl⟩
  · next hn => exact nomatch hk _ (kindAt_of_nodes hn)
  · next hn => exact nomatch hk _ (kindAt_of_nodes hn)

/-- An open file is still a file when it has been changed. -/
theorem editFile_cases (t : FileTree κ) (p : Place κ) (f : List UInt8 → List UInt8)
    (g : UInt32 → UInt32) :
    t.editFile p f g = t ∨ ∃ bytes mode attrs, t.kindAt p = some (.file bytes mode) ∧
      t.Puts p (some ⟨.file (f bytes) (g mode), attrs⟩) (t.editFile p f g) := by
  rw [editFile]
  split
  · next bytes mode attrs hn =>
    have hk := kindAt_of_nodes hn
    have hfits : t.Fits p (some ⟨.file (f bytes) (g mode), attrs⟩) := by
      refine ⟨?_, by simp [hk]⟩
      cases p with
      | nil => exact t.root
      | cons c p => exact t.closed c p (by rw [← kindAt, hk]; exact some_ne_none _)
    exact .inr ⟨bytes, mode, attrs, hk, puts_put hfits⟩
  · exact .inl rfl

theorem editFile_of_ne {f : List UInt8 → List UInt8} {g : UInt32 → UInt32}
    (hq : q ≠ p) : (t.editFile p f g).nodes q = t.nodes q := by
  rcases t.editFile_cases p f g with heq | ⟨_, _, _, -, hputs⟩
  · rw [heq]
  · exact hputs.of_ne hq

end Heph.FileTree
