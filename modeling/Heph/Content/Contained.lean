import Heph.Lib.Mirror
import Heph.Content.Unpack

/-!
# Where unpacking writes

Unpacking is to stay below the directory it is given. **It does not**: the path of an entry is
joined to that of the directory as it is, so `../f` leads out of it, and so does `l/f` if an
earlier entry has put a link there (`dotdot_leads_out`).

It does for contents that keep below by themselves (`Beneath`): unpacked alone, with the
directory for the root of a tree with nothing else in it, no path of theirs leads above the root –
neither by a component, nor by a link that an earlier entry has put on its way. That is a question
about the content, whatever the directory is. What is then done in the large tree is what would be
done in the small one (`Follows`), or it fails.
-/

namespace Heph

open List UnpackState Route

open FileTree

variable {ε : Type} {d : Place Text} {dst : Route Text} {list : Option (Place Text)}
  {j s s' s'' : UnpackState} {parts : Route Text} {path : PathBuf Text} {t : FileTree Text}

/-! ### Contents that keep below -/

def WalkEntryKind.isFile : WalkEntryKind → Bool
  | .file _ _ => true
  | .symlink _ => false

/-- The path of an entry **leads below the root**, once the directories above it have been made. At
its end a link is followed if the entry is a file. -/
def KeepsIn (s : UnpackState) (e : ContentEntry) : Prop :=
  e.entry.path.absolute = false ∧ e.entry.path.parts ≠ [] ∧
    (s.makeDir e.entry.path.parts.dropLast).2.tree.Stays e.entry.kind.isFile e.entry.path.parts

instance (s : UnpackState) (e : ContentEntry) : Decidable (KeepsIn s e) :=
  inferInstanceAs (Decidable (_ ∧ _))

/-- Each entry does, up to one that fails. -/
def KeepsBelow (shouldUnpack : Option (PathBuf Text → Bool)) :
    UnpackState → List (Except ε ContentEntry) → Prop
  | _, [] => True
  | _, .error _ :: _ => True
  | s, .ok e :: items =>
    if shouldUnpack.all (· e.entry.path) then
      KeepsIn s e ∧ ((exec (unpackEntry (ε := ε) [] none e) s).1 = .ok () →
        KeepsBelow shouldUnpack (exec (unpackEntry (ε := ε) [] none e) s).2 items)
    else KeepsBelow shouldUnpack s items

instance decidableKeepsBelow (shouldUnpack : Option (PathBuf Text → Bool)) :
    ∀ s (items : List (Except ε ContentEntry)), Decidable (KeepsBelow shouldUnpack s items)
  | _, [] => isTrue trivial
  | _, .error _ :: _ => isTrue trivial
  | s, .ok e :: items =>
    have := decidableKeepsBelow shouldUnpack s items
    have := decidableKeepsBelow shouldUnpack (exec (unpackEntry (ε := ε) [] none e) s).2 items
    have : Decidable ((exec (unpackEntry (ε := ε) [] none e) s).1 = .ok ()) :=
      match (exec (unpackEntry (ε := ε) [] none e) s).1 with
      | .ok () => isTrue rfl
      | .error _ => isFalse nofun
    inferInstanceAs (Decidable (ite _ _ _))

/-- A tree with nothing in it, in which nothing has been unpacked. -/
def UnpackState.bare : UnpackState := ⟨.bare Text 0, [], []⟩

/-- **The content keeps below the root**, if it is unpacked there. -/
def Beneath (shouldUnpack : Option (PathBuf Text → Bool)) (content : ContentWalk ε) : Prop :=
  ∀ items, content = .ok items → KeepsBelow shouldUnpack .bare items

/-! ### What is spared -/

/-- **Nothing has been opened or changed but below the directory**, and the list of files. -/
structure Spares (d : Place Text) (list : Option (Place Text)) (s s' : UnpackState) : Prop where
  opened : ∀ p ∈ s'.opened, p ∈ s.opened ∨ d <:+ p
  nodes : ∀ p, ¬ d <:+ p → list ≠ some p → s'.tree.nodes p = s.tree.nodes p

theorem Spares.refl : Spares d list s s := ⟨fun _ => .inl, fun _ _ _ => rfl⟩

theorem Spares.trans (h : Spares d list s s') (h' : Spares d list s' s'') :
    Spares d list s s'' := by
  refine ⟨fun p hp => ?_, fun p hp hl => (h'.nodes p hp hl).trans (h.nodes p hp hl)⟩
  rcases h'.opened p hp with hp | hp
  · exact h.opened p hp
  · exact .inr hp

theorem Spares.of_sameOutside (h : SameOutside d s.tree s'.tree) (hopened : s'.opened = s.opened) :
    Spares d list s s' :=
  ⟨fun _ hp => .inl (hopened ▸ hp), fun p hp _ => h p hp⟩

/-- The small tree is what is below the directory, and the same directories have been made. -/
structure Shadows (dst : Route Text) (d : Place Text) (j s : UnpackState) : Prop where
  mounted : Mounted dst d j.tree s.tree
  createdDirs : s.createdDirs = j.createdDirs.map (dst ++ ·)

/-- **What is done in the large tree** spares what is not below, and if it succeeds it is what is
done in the small one. -/
def Follows (dst : Route Text) (d : Place Text) (list : Option (Place Text)) (s : UnpackState)
    (x y : Except (UnpackError ε) Unit × UnpackState) : Prop :=
  Spares d list s x.2 ∧ (x.1 = .ok () → y.1 = .ok () ∧ Shadows dst d y.2 x.2)

theorem Follows.bind {m m' : Unpack ε Unit} {f f' : Unit → Unpack ε Unit}
    (h : Follows dst d list s (exec m' s) (exec m j)) (hf : ∀ s₁, Shadows dst d (exec m j).2 s₁ →
      Follows dst d list s₁ (exec (f' ()) s₁) (exec (f ()) (exec m j).2)) :
    Follows dst d list s (exec (m' >>= f') s) (exec (m >>= f) j) := by
  rw [exec_bind, exec_bind]
  rcases hj : exec m j with ⟨resj, j₁⟩
  rcases hs : exec m' s with ⟨res, s₁⟩
  rw [hj, hs] at h
  rw [hj] at hf
  obtain ⟨hspares, hok⟩ := h
  cases res with
  | error e => exact ⟨hspares, nofun⟩
  | ok =>
    obtain ⟨hresj, hshadows⟩ := hok rfl
    obtain rfl : resj = .ok () := hresj
    obtain ⟨hspares₁, hok₁⟩ := hf s₁ hshadows
    exact ⟨hspares.trans hspares₁, hok₁⟩

/-! ### An entry -/

theorem makeDir_follows {r : Route Text} (h : Shadows dst d j s)
    (hstays : (j.makeDir r).2.tree.Stays true r) :
    Spares d list s (s.makeDir (dst ++ r)).2 ∧ ((s.makeDir (dst ++ r)).1 = .ok () →
      (j.makeDir r).1 = .ok () ∧ Shadows dst d (j.makeDir r).2 (s.makeDir (dst ++ r)).2) := by
  have hmem : dst ++ r ∈ s.createdDirs ↔ r ∈ j.createdDirs := by
    rw [h.createdDirs, mem_map_of_injective fun _ _ => append_cancel_left]
  by_cases hr : r ∈ j.createdDirs
  · rw [makeDir, if_pos (hmem.mpr hr), makeDir, if_pos hr]
    exact ⟨.refl, fun _ => ⟨rfl, h⟩⟩
  · rw [makeDir, if_neg hr] at hstays
    rw [makeDir, if_neg (mt hmem.mp hr), makeDir, if_neg hr]
    have hmade : (j.tree.createDirs r.reverse).2.Stays true r.reverse.reverse := by
      rwa [reverse_reverse]
    have hdirs := h.mounted.createDirs hmade
    rw [← reverse_append] at hdirs
    refine ⟨.of_sameOutside hdirs.1 rfl, fun hok => ?_⟩
    obtain ⟨hokj, hmounted⟩ := hdirs.2 hok
    exact ⟨hokj, hmounted, congrArg ((dst ++ r) :: ·) h.createdDirs⟩

theorem makeParent_follows (h : Shadows dst d j s)
    (hparts : parts ≠ []) (hstays : (j.makeDir parts.dropLast).2.tree.Stays true parts.dropLast) :
    Follows dst d list s (exec (makeParent (ε := ε) path (dst ++ parts)) s)
      (exec (makeParent (ε := ε) path parts) j) := by
  have hparent : parent (dst ++ parts) = some (dst ++ parts.dropLast) := by
    rw [parent, if_neg (by simp [hparts]), dropLast_append_of_ne_nil hparts]
  have hparentj : parent parts = some parts.dropLast := by
    rw [parent, if_neg (by simp [hparts])]
  obtain ⟨hspares, hok⟩ := makeDir_follows h hstays
  simp only [makeParent, hparent, hparentj, exec_get_bind, exec_set_bind]
  cases hres : (s.makeDir (dst ++ parts.dropLast)).1 with
  | error e => exact ⟨hspares, nofun⟩
  | ok =>
    obtain ⟨hresj, hshadows⟩ := hok hres
    rw [hresj]
    exact ⟨hspares, fun _ => ⟨rfl, hshadows⟩⟩

theorem makeParent_state (hparts : parts ≠ []) :
    (exec (makeParent (ε := ε) path parts) j).2 = (j.makeDir parts.dropLast).2 := by
  have hparent : parent parts = some parts.dropLast := by
    rw [parent, if_neg (by simp [hparts])]
  simp only [makeParent, hparent, exec_get_bind, exec_set_bind]
  split <;> rfl

section

variable (h : Shadows dst d j s)

include h

theorem listEntry_follows {dest dest' : Route Text} :
    Follows dst d list s (exec (listEntry (ε := ε) list dest') s)
      (exec (listEntry (ε := ε) none dest) j) := by
  cases list with
  | none => exact ⟨.refl, fun _ => ⟨rfl, h⟩⟩
  | some p =>
    refine ⟨⟨fun _ => .inl, fun q _ hq => ?_⟩, fun _ => ⟨rfl, h.mounted.editFile_right, ?_⟩⟩
    · exact editFile_of_ne fun heq => hq (congrArg some heq.symm)
    · exact h.createdDirs

theorem placeSymlink_follows {target : PathBuf Text} (hparts : parts ≠ [])
    (hstays : j.tree.Stays false parts) :
    Follows dst d list s (exec (placeSymlink (ε := ε) path (dst ++ parts) target) s)
      (exec (placeSymlink (ε := ε) path parts target) j) := by
  rw [placeSymlink, placeSymlink]
  by_cases habs : target.absolute
  · rw [if_pos habs, if_pos habs]
    exact ⟨.refl, nofun⟩
  · rw [if_neg habs, if_neg habs, exec_get_bind, exec_get_bind]
    split
    · next tree hlink =>
      obtain ⟨j', hlinkj, hmounted, hsame⟩ := h.mounted.symlink hparts hstays hlink
      rw [hlinkj]
      exact ⟨.of_sameOutside hsame rfl, fun _ => ⟨rfl, hmounted, h.createdDirs⟩⟩
    · split
      · exact ⟨.refl, nofun⟩
      · next existing hread =>
        obtain ⟨hreadj, hlinkj⟩ := h.mounted.readLink hparts hstays hread
        rw [hlinkj, hreadj]
        by_cases heq : existing ≠ target
        · simp only [if_pos heq]
          exact ⟨.refl, nofun⟩
        · simp only [if_neg heq]
          exact ⟨.refl, fun _ => ⟨rfl, h⟩⟩
    · exact ⟨.refl, nofun⟩

theorem placeFile_follows {data : List UInt8}
    {readError : Option IoError} {x : Bool} (hparts : parts ≠ [])
    (hstays : j.tree.Stays true parts) :
    Follows dst d list s (exec (placeFile (ε := ε) path (dst ++ parts) data readError x) s)
      (exec (placeFile (ε := ε) path parts data readError x) j) := by
  rw [placeFile, placeFile]
  simp only [exec_get_bind]
  split
  · exact ⟨.refl, nofun⟩
  · next p' tree hopen =>
    obtain ⟨p, j', rfl, hopenj, hmounted, hsame⟩ := h.mounted.openFile hparts hstays hopen
    rw [hopenj]
    have hspares : Spares d list s
        { s with tree := tree.append (p ++ d) data, opened := (p ++ d) :: s.opened } := by
      refine ⟨fun q hq => ?_, fun q hq _ => (hsame.trans sameOutside_editFile) q hq⟩
      rcases mem_cons.mp hq with rfl | hq
      · exact .inr (suffix_append p d)
      · exact .inl hq
    have hshadows : Shadows dst d { j with tree := j'.append p data, opened := p :: j.opened }
        { s with tree := tree.append (p ++ d) data, opened := (p ++ d) :: s.opened } :=
      ⟨hmounted.editFile_left.editFile_right, h.createdDirs⟩
    cases readError with
    | some e => exact ⟨hspares, nofun⟩
    | none =>
      cases x with
      | false => exact ⟨hspares, fun _ => ⟨rfl, hshadows⟩⟩
      | true =>
        refine ⟨hspares.trans (.of_sameOutside sameOutside_editFile rfl), fun _ => ⟨rfl, ?_⟩⟩
        exact ⟨hshadows.mounted.editFile_left.editFile_right, h.createdDirs⟩

/-- **An entry that leads below** is unpacked alike. -/
theorem unpackEntry_follows {e : ContentEntry} (hkeeps : KeepsIn j e) :
    Follows dst d list s (exec (unpackEntry (ε := ε) dst list e) s)
      (exec (unpackEntry (ε := ε) [] none e) j) := by
  obtain ⟨hrel, hparts, hstays⟩ := hkeeps
  have hjoin : join dst e.entry.path = dst ++ e.entry.path.parts := by
    rw [join, hrel]
    rfl
  have hjoinj : join [] e.entry.path = e.entry.path.parts := by
    rw [join, hrel]
    rfl
  rw [unpackEntry, unpackEntry, hjoin, hjoinj]
  refine (makeParent_follows h hparts (hstays.dropLast hparts)).bind fun s₁ h₁ => ?_
  refine (listEntry_follows h₁).bind fun s₂ h₂ => ?_
  have hstate : (exec (listEntry (ε := ε) none e.entry.path.parts)
      (exec (makeParent e.entry.path e.entry.path.parts) j).2).2 =
        (j.makeDir e.entry.path.parts.dropLast).2 := makeParent_state hparts
  rw [hstate] at h₂ ⊢
  cases hkind : e.entry.kind with
  | file data x =>
    rw [hkind] at hstays
    exact placeFile_follows h₂ hparts hstays
  | symlink target =>
    rw [hkind] at hstays
    exact placeSymlink_follows h₂ hparts hstays

/-- **A content that keeps below** is unpacked alike. -/
theorem unpackItems_spares {shouldUnpack : Option (PathBuf Text → Bool)}
    {items : List (Except ε ContentEntry)}
    (hkeeps : KeepsBelow shouldUnpack j items) :
    Spares d list s (exec (items.forM (unpackItem dst list shouldUnpack)) s).2 := by
  induction items generalizing j s with
  | nil => exact .refl
  | cons item items ih =>
    rw [forM_eq_forM, forM_cons, exec_bind]
    cases item with
    | error e => exact .refl
    | ok e =>
      rw [KeepsBelow] at hkeeps
      rw [unpackItem]
      split at hkeeps
      · next hshould =>
        rw [if_pos hshould]
        obtain ⟨hin, hrest⟩ := hkeeps
        obtain ⟨hspares, hok⟩ := unpackEntry_follows h hin
        rcases hs : exec (unpackEntry dst list e) s with ⟨res, s₁⟩
        rw [hs] at hspares hok
        cases res with
        | error e => exact hspares
        | ok =>
          obtain ⟨hresj, hshadows⟩ := hok rfl
          exact hspares.trans (ih hshadows (hrest hresj))
      · next hshould =>
        rw [if_neg hshould]
        exact ih h hkeeps

end

/-! ### The whole content -/

/-- The directory that the path leads to is empty. -/
structure LeadsToEmpty (t : FileTree Text) (dst : Route Text) (d : Place Text) : Prop where
  finds : t.locate true dst = .ok d
  dir : t.kindAt d = some .dir
  empty : ∀ c, t.kindAt (c :: d) = none

theorem LeadsToEmpty.nothing (h : LeadsToEmpty t dst d) {p : Place Text} (hp : p ≠ []) :
    t.kindAt (p ++ d) = none := by
  induction p with
  | nil => exact absurd rfl hp
  | cons c p ih =>
    cases p with
    | nil => exact h.empty c
    | cons c' p =>
      have hnone : t.kindAt (c' :: p ++ d) = none := ih nofun
      by_contra hsome
      cases hnone.symm.trans (t.closed c _ hsome)

theorem LeadsToEmpty.mounted (h : LeadsToEmpty t dst d) :
    Mounted dst d bare.tree t := by
  refine ⟨h.finds, fun p => ?_⟩
  cases p with
  | nil =>
    rw [nil_append, h.dir]
    exact .same _
  | cons c p =>
    rw [h.nothing (cons_ne_nil c p)]
    exact .same _

/-- Where the list of files is. -/
def listPlace (t : FileTree Text) (listDst : Option (Route Text)) : Option (Place Text) :=
  listDst.bind fun path => (t.locate true path).toOption

/-- What `unpack` does when the list of files is open. -/
def unpackWalk {ε : Type} (content : ContentWalk ε) (dst : Route Text) (list : Option (Place Text))
    (shouldUnpack : Option (PathBuf Text → Bool)) : Unpack ε Unit :=
  match content with
  | .error e => throw (.walk dst e)
  | .ok items => items.forM (unpackItem dst list shouldUnpack)

/-- **Unpacking stays below its directory**, if the content keeps below by itself. -/
theorem unpack_contained (content : ContentWalk ε) (dst : Route Text)
    (listDst : Option (Route Text)) (shouldUnpack : Option (PathBuf Text → Bool))
    (t : FileTree Text) (d : Place Text) (h : LeadsToEmpty t dst d)
    (hbeneath : Beneath shouldUnpack content) :
    Spares d (listPlace t listDst) ⟨t, [], []⟩
      (exec (unpack content dst listDst shouldUnpack) ⟨t, [], []⟩).2 := by
  -- the walk, once the list of files is open
  have hwalk : ∀ {list s}, Shadows dst d .bare s →
      Spares d list s (exec (unpackWalk content dst list shouldUnpack) s).2 := by
    intro list s hs
    cases content with
    | error e => exact .refl
    | ok items => exact unpackItems_spares hs (hbeneath items rfl)
  rw [unpack, exec_bind]
  cases listDst with
  | none => exact hwalk ⟨h.mounted, rfl⟩
  | some path =>
    rw [openList, exec_get_bind]
    cases hopen : t.openFile false path with
    | error e => exact .refl
    | ok opened =>
      obtain ⟨p, t₁⟩ := opened
      obtain ⟨hp, hk, bytes, mode, attrs, hputs⟩ := openFile_ok hopen
      have hlist : listPlace t (some path) = some p := by
        rw [listPlace, Option.bind_some, hp]
        rfl
      have hspares : Spares d (some p) ⟨t, [], []⟩ ⟨t₁, [], []⟩ :=
        ⟨fun _ => .inl, fun q _ hq => hputs.of_ne fun heq => hq (congrArg some heq.symm)⟩
      rw [hlist]
      exact hspares.trans (hwalk ⟨h.mounted.puts_right hputs hk, rfl⟩)

/-- A tree with one directory. -/
def oneDir : FileTree Text :=
  (FileTree.bare Text 0o022).put ["d".toList] (some ⟨.dir, fun _ => none⟩)

theorem oneDir_leadsToEmpty : LeadsToEmpty oneDir [.name "d".toList] ["d".toList] := by
  refine ⟨rfl, rfl, fun c => ?_⟩
  rw [kindAt_eq_none, oneDir, put_nodes ⟨rfl, fun _ => rfl⟩, Function.update_of_ne (by simp)]
  rfl

/-- A file of an archive. -/
def tarFile (path data : String) (mode : UInt32) : Except IoError TarEntry :=
  .ok ⟨.file, .ok (.ofText path.toList), .ok none, .ok mode, Addr.utf8 data.toList, none⟩

/-- A link of an archive. -/
def tarLink (path target : String) : Except IoError TarEntry :=
  .ok ⟨.symlink, .ok (.ofText path.toList), .ok (some (.ofText target.toList)), .ok 0o777, [], none⟩

/-- A file below, and one that goes there through a link. -/
theorem unpack_contained_through_link :
    Spares ["d".toList] none ⟨oneDir, [], []⟩
      (exec (unpack (tarWalker [tarFile "a/x" "1" 0o755, tarLink "l" "a", tarFile "l/y" "2" 0o644])
        [.name "d".toList] none none) ⟨oneDir, [], []⟩).2 :=
  unpack_contained _ _ none none oneDir _ oneDir_leadsToEmpty fun items hitems => by
    cases hitems
    decide

/-- **A file of an archive is written above the directory.** -/
theorem dotdot_leads_out :
    LeadsToEmpty oneDir [.name "d".toList] ["d".toList] ∧
      ["f".toList] ∈ (exec (unpack (tarWalker [tarFile "../f" "1" 0o644])
        [.name "d".toList] none none) ⟨oneDir, [], []⟩).2.opened ∧
      ¬ ["d".toList] <:+ ["f".toList] :=
  ⟨oneDir_leadsToEmpty, by decide, by decide⟩

-- a link leads there, and a file is written through it
example : ["f".toList] ∈ (exec (unpack (tarWalker [tarLink "l" "..", tarFile "l/f" "1" 0o644])
    [.name "d".toList] none none) ⟨oneDir, [], []⟩).2.opened := by
  decide

end Heph
