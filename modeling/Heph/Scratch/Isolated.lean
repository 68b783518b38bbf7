import Heph.Scratch.Frame

/-!
# Scratch lineages and branches

What is done under one scope should be of no consequence for another, unless that one falls back
to it. But scopes are told apart by what is left of them in a path: `feature/x` and `feature_x`
are one lineage, on the disk and on the remote caches, and an operation under one of them is one
under the other. And since a scope may be a dot, its directory may be one in which the lineages of
the others are.

The operations under one scope are of no consequence for the other **if and only if** the two keep
apart in all that the other looks at (`Scratch.unaffected_iff`).
-/

namespace Heph.Scratch

open List Option SortedMap PathMap

variable {slot : Slot} {digest : Tree → Text} {o : Options} {s t r : Text} {p q rel : Path}
  {w : World} {work : Tree → Tree}

/-- **Operations under one scope are of no consequence for a build under another.** -/
def Unaffected (slot : Slot) (digest : Tree → Text) (o : Options) (t : Text) : Prop :=
  ∀ w ops, (∀ op ∈ ops, Operation.scope op = t) →
    SameView slot o w (performAll slot digest w ops)

/-! ### A build that writes a file -/

/-- The options of a run that falls back to nothing. -/
def alone (t : Text) : Options := ⟨t, [], false⟩

/-- A build that does what it does with its directory. -/
def builds (work : Tree → Tree) : Build := ⟨false, none, fun _ => false, false, work⟩

/-- The name of a file. -/
def noteName : Text := "note".toList

/-- A file in a directory. -/
def note (rel : Path) : Tree :=
  (SortedMap.empty.insert rel .dir).insert (rel ++ [noteName]) (.file (.data []))

theorem get?_note (rel q : Path) : (note rel).get? q =
    if q = rel ++ [noteName] then some (.file (.data [])) else if q = rel then some .dir
    else none := by
  rw [note, get?_insert, get?_insert, get?_empty]
  by_cases hfile : q = rel ++ [noteName]
  · rw [if_pos hfile, if_pos hfile]
  · rw [if_neg hfile, if_neg hfile]
    by_cases hdir : q = rel
    · rw [if_pos hdir, if_pos hdir]
    · rw [if_neg hdir, if_neg hdir]

/-- Nothing is in the way on an empty disk, and there is nothing to copy. -/
theorem handed_of_bare
    (hfree : w.disk.Free (headDir slot o.scope)) (hdirs : ∀ f, ¬w.disk.IsDir (headDir slot f)) :
    handed slot w o (builds work) = some ⟨.empty, none⟩ := by
  have hseed : seedFrom slot w.disk o (builds work).copyFails = none := by
    rw [seedFrom, find?_eq_none.mpr, map_none]
    intro f _ hf
    exact hdirs f (of_decide_eq_true hf).2.1
  have htree : (resolveScopeDir slot w.disk o (builds work).copyFails).getD .empty = .empty := by
    rw [resolveScopeDir, if_neg (hdirs _), hseed]
    split <;> rfl
  rw [handed, if_pos hfree]
  rw [htree, if_neg (by simp [builds]), if_neg (by simp [builds])]

theorem free_empty : PathMap.Free (.empty : Tree) p := by
  intro q _ hq
  cases hq

/-- What is on the disk after a build on an empty one, before its target has done anything. -/
def emptied (slot : Slot) (t : Text) : Tree :=
  writeSlotMeta slot (PathMap.setTree .empty (headDir slot t) .empty)

/-- What is on the disk after a build that writes a file. -/
def noted (slot : Slot) (t : Text) (rel : Path) : Tree :=
  (emptied slot t).setTree (headDir slot t) (note rel)

theorem performAll_noted (slot : Slot) (digest : Tree → Text) (t : Text) (rel : Path) :
    performAll slot digest ⟨.empty, []⟩ [.build (alone t) (builds fun _ => note rel)] =
      ⟨noted slot t rel, []⟩ := by
  show runBuild slot ⟨.empty, []⟩ (alone t) (builds fun _ => note rel) = _
  rw [runBuild, handed_of_bare free_empty (by rintro f ⟨⟩)]
  rfl

/-- What is above the directory is one. -/
theorem isDir_emptied (hp : p <+: headDir slot t) : (emptied slot t).IsDir p := by
  have hdir := isDir_setTree_of_prefix (t := (.empty : Tree)) free_empty hp
  rw [emptied, writeSlotMeta]
  split
  · exact hdir
  · exact isDir_writeFile hdir

theorem free_emptied : (emptied slot t).Free (headDir slot t) :=
  fun q hq _ => isDir_emptied ((mem_inits q _).mp hq)

theorem has_setTree_empty {d : Path}
    (hq : PathMap.Has (PathMap.setTree (.empty : Tree) d .empty) q) : q <+: d := by
  by_cases hd : d <+: q
  · obtain ⟨z, rfl⟩ := hd
    rcases eq_or_ne z [] with rfl | hz
    · rw [append_nil]
    · rw [Has, get?_setTree_append hz, get?_empty] at hq
      cases hq
  · rw [Has, get?_setTree hd] at hq
    split at hq
    · next h => exact h.1
    · cases hq

/-- There is nothing else, but the description of the slot. -/
theorem emptied_cases (hq : (emptied slot t).Has q) :
    (emptied slot t).IsDir q ∧ (q <+: headDir slot t ∨ q <+: slotDir slot) ∨
      q = slotMetaPath slot := by
  have hold : Has (setTree (.empty : Tree) (headDir slot t) .empty) q →
      (emptied slot t).IsDir q ∧ (q <+: headDir slot t ∨ q <+: slotDir slot) := by
    intro h
    have hpre := has_setTree_empty h
    exact ⟨isDir_emptied hpre, .inl hpre⟩
  rw [emptied, writeSlotMeta] at hq
  split at hq
  · exact .inl (hold hq)
  · next hno =>
    rw [writeFile] at hq
    split at hq
    · next hguard =>
      rcases has_insert.mp hq with heq | hq
      · exact .inr heq
      · by_cases hm : Has (setTree (.empty : Tree) (headDir slot t) .empty) q
        · exact .inl (hold hm)
        · by_cases hpre : q <+: (slotMetaPath slot).dropLast
          · have hne : q ≠ slotMetaPath slot := by
              rintro rfl
              have hlen := hpre.length_le
              rw [slotMetaPath, length_append] at hlen
              simp at hlen
            refine .inl ⟨?_, .inr ?_⟩
            · rw [PathMap.IsDir, emptied, writeSlotMeta, if_neg hno, writeFile,
                if_pos hguard, get?_insert, if_neg hne, get?_mkdirs,
                if_pos ⟨hpre, hm⟩]
            · rwa [slotMetaPath, dropLast_concat] at hpre
          · rw [Has, get?_mkdirs, if_neg fun h => hpre h.1] at hq
            exact absurd hq hm
    · exact .inl (hold hq)

/-- The directory of a lineage, or one in it that is called like it. -/
def Nested (rel : Path) : Prop := rel = [] ∨ rel = [headName]

theorem isDir_noted (hrel : Nested rel) (hp : p <+: headDir slot t ++ rel) :
    (noted slot t rel).IsDir p := by
  rcases hrel with rfl | rfl
  · rw [append_nil] at hp
    exact isDir_setTree_of_prefix free_emptied hp
  · rcases prefix_concat_iff.mp hp with rfl | hp
    · rw [IsDir, noted, get?_setTree_append (by simp), get?_note,
        if_neg (by simp), if_pos rfl]
    · exact isDir_setTree_of_prefix free_emptied hp

theorem get?_noted (slot : Slot) (t : Text) (rel : Path) :
    (noted slot t rel).get? (headDir slot t ++ (rel ++ [noteName])) =
      some (.file (.data [])) := by
  rw [noted, get?_setTree_append (by simp), get?_note, if_pos rfl]

/-- **What is on the disk**: directories, the file, and the description of the slot. -/
theorem noted_cases (hq : (noted slot t rel).Has q) :
    (noted slot t rel).IsDir q ∨ q = headDir slot t ++ (rel ++ [noteName]) ∨
      q = slotMetaPath slot := by
  by_cases hd : headDir slot t <+: q
  · obtain ⟨z, rfl⟩ := hd
    rcases eq_or_ne z [] with rfl | hz
    · rw [append_nil]
      exact .inl isDir_setTree
    · rw [Has, noted, get?_setTree_append hz, get?_note] at hq
      split at hq
      · next h => exact .inr (.inl (by rw [h]))
      · next hno =>
        split at hq
        · next h =>
          refine .inl ?_
          rw [IsDir, noted, get?_setTree_append hz, get?_note, if_neg hno, if_pos h]
        · cases hq
  · rw [Has, noted, get?_setTree hd] at hq
    split at hq
    · next h =>
      refine .inl ?_
      rw [IsDir, noted, get?_setTree hd, if_pos h]
    · next hno =>
      rcases emptied_cases hq with ⟨hdir, -⟩ | hslot
      · refine .inl ?_
        rw [IsDir, noted, get?_setTree hd, if_neg hno]
        exact hdir
      · exact .inr (.inr hslot)

theorem not_prefix_slotDir : ¬headDir slot r <+: slotDir slot := fun h =>
  not_prefix_slotMetaPath (h.trans (prefix_append ..))

/-- A lineage that is there is one that the file is in. -/
theorem prefix_of_isDir_noted (hrel : Nested rel) {f : Text}
    (h : (noted slot t rel).IsDir (headDir slot f)) : headDir slot f <+: headDir slot t ++ rel := by
  by_cases hd : headDir slot t <+: headDir slot f
  · rcases headDir_of_prefix hd with heq | heq
    · rw [heq]
      exact prefix_append ..
    · rw [heq, IsDir, noted, get?_setTree_append (by simp), get?_note] at h
      rcases hrel with rfl | rfl
      · cases h
      · rw [heq]
  · rw [PathMap.IsDir, noted, get?_setTree hd] at h
    split at h
    · next hpre => exact hpre.1.trans (prefix_append ..)
    · rcases emptied_cases (IsDir.has h) with ⟨-, hpre | hpre⟩ | heq
      · exact hpre.trans (prefix_append ..)
      · exact absurd hpre not_prefix_slotDir
      · have hpre : headDir slot f <+: slotMetaPath slot := by rw [heq]
        exact absurd hpre not_prefix_slotMetaPath

/-! ### What a build sees of it -/

section

variable (hfree : w.disk.Free (headDir slot o.scope))

include hfree

theorem handed_of_isDir (hdir : w.disk.IsDir (headDir slot o.scope)) :
    handed slot w o (builds work) = some ⟨w.disk.treeAt (headDir slot o.scope), none⟩ := by
  rw [handed, if_pos hfree, resolveScopeDir, if_pos hdir]
  dsimp only [getD_some]
  rw [if_neg (by simp [builds]), if_neg (by simp [builds])]

theorem handed_of_seedFrom {tree : Tree} (hdir : ¬w.disk.IsDir (headDir slot o.scope))
    (hseed : o.seedOnFork = true)
    (htree : seedFrom slot w.disk o (builds work).copyFails = some tree) :
    handed slot w o (builds work) = some ⟨tree, none⟩ := by
  have hresolve : resolveScopeDir slot w.disk o (builds work).copyFails = some tree := by
    rw [resolveScopeDir, if_neg hdir, if_pos ⟨hseed, hfree⟩, htree]
  rw [handed, if_pos hfree, hresolve]
  dsimp only [getD_some]
  rw [if_neg (by simp [builds]), if_neg (by simp [builds])]

/-- A build is handed something, if nothing is in the way. -/
theorem exists_handed {b : Build} :
    ∃ x, handed slot w o b = some x := by
  rw [handed, if_pos hfree]
  dsimp only
  split
  · exact ⟨_, rfl⟩
  · split <;> exact ⟨_, rfl⟩

end

/-- Lineages that overlap have a directory in common. -/
theorem exists_nested (h : Overlap (headDir slot t) (headDir slot r)) :
    ∃ rel, Nested rel ∧ headDir slot r <+: headDir slot t ++ rel := by
  rcases h with h | h
  · rcases headDir_of_prefix h with heq | heq
    · exact ⟨[], .inl rfl, by rw [heq, append_nil]⟩
    · exact ⟨[headName], .inr rfl, by rw [heq]⟩
  · exact ⟨[], .inl rfl, by rwa [append_nil]⟩

/-- The file is in every lineage that has the directory in it. -/
theorem treeAt_noted_ne (h : headDir slot r <+: headDir slot t ++ rel) :
    (noted slot t rel).treeAt (headDir slot r) ≠ .empty := by
  obtain ⟨z, hz⟩ := h
  intro heq
  have hget := get?_noted slot t rel
  rw [← append_assoc, ← hz, append_assoc, ← get?_treeAt (by simp), heq] at hget
  cases hget

/-- What is handed to a build before, and after. -/
theorem handed_eq_of_unaffected (h : Unaffected slot digest o t) (rel : Path) :
    (handed slot ⟨noted slot t rel, []⟩ o (builds id)).map Handed.tree = some .empty := by
  have hview := h ⟨.empty, []⟩ [.build (alone t) (builds fun _ => note rel)]
    (by simp [Operation.scope, alone])
  rw [performAll_noted] at hview
  rw [hview.tree, handed_of_bare free_empty (by rintro f ⟨⟩)]
  rfl

theorem not_overlap_of_unaffected (h : Unaffected slot digest o t) :
    ¬Overlap (headDir slot t) (headDir slot o.scope) := by
  intro hover
  obtain ⟨rel, hrel, hpre⟩ := exists_nested hover
  have htree := handed_eq_of_unaffected h rel
  rw [handed_of_isDir (fun q hq _ => isDir_noted hrel (((mem_inits q _).mp hq).trans hpre))
    (isDir_noted hrel hpre)] at htree
  exact treeAt_noted_ne hpre (some.inj htree)

/-- The description of the slot is in the way of one lineage only. -/
theorem headDir_of_slotMetaPath (h : slotMetaPath slot <+: headDir slot r) :
    headDir slot r = slotMetaPath slot ++ [headName] := by
  have hname := slotMetaName_ne
  rcases headDir_cases slot r with hr | hr | hr <;> rw [hr, slotMetaPath, slotDir] at h ⊢
  · exact absurd h (by simpa using hname)
  · exact absurd h (by simp)
  · have heq : "slot.meta".toList = sanitizeScope r := by simpa using h
    rw [← heq]
    rfl

theorem not_free_of_has {disk : Tree} {b : Blob} (hget : disk.get? q = some (.file b))
    (hq : q <+: p) : ¬disk.Free p := by
  intro hfree
  have hdir := hfree q ((mem_inits q p).mpr hq) (by rw [Has, hget]; rfl)
  rw [IsDir, hget] at hdir
  cases hdir

theorem get?_slotMetaPath_noted (h : ¬slotMetaPath slot <+: headDir slot t) :
    (noted slot t rel).get? (slotMetaPath slot) = some (.file .slot) := by
  have hno : ¬Has (setTree (.empty : Tree) (headDir slot t) .empty)
      (slotMetaPath slot) := fun hhas => h (has_setTree_empty hhas)
  have hfree : Free (setTree (.empty : Tree) (headDir slot t) .empty)
      (slotMetaPath slot).dropLast := fun q _ hhas =>
    isDir_setTree_of_prefix free_empty (has_setTree_empty hhas)
  rw [noted, get?_setTree not_prefix_slotMetaPath, if_neg fun hpre => h hpre.1, emptied,
    writeSlotMeta, if_neg hno, writeFile, if_pos ⟨hfree, fun hdir => hno hdir.has⟩,
    get?_insert, if_pos rfl]

theorem not_slotMeta_of_unaffected (h : Unaffected slot digest o t) :
    ¬slotMetaPath slot <+: headDir slot o.scope := by
  intro hpre
  have hother : ¬slotMetaPath slot <+: headDir slot t := by
    intro hpre'
    refine not_overlap_of_unaffected h (.inl ?_)
    rw [headDir_of_slotMetaPath hpre, headDir_of_slotMetaPath hpre']
  have htree := handed_eq_of_unaffected h []
  rw [handed, if_neg (not_free_of_has (get?_slotMetaPath_noted hother) hpre)] at htree
  cases htree

theorem not_seed_of_unaffected (h : Unaffected slot digest o t) (hseed : o.seedOnFork = true)
    (hr : r ∈ o.restoreScopes) (hne : r ≠ o.scope) :
    ¬Overlap (headDir slot t) (headDir slot r) := by
  intro hover
  obtain ⟨rel, hrel, hpre⟩ := exists_nested hover
  have hown : ¬headDir slot o.scope <+: headDir slot t ++ rel := by
    intro hpre'
    have hoverlap := prefix_or_prefix_of_prefix (prefix_append (headDir slot t) rel) hpre'
    exact not_overlap_of_unaffected h hoverlap
  have hdir : ¬(noted slot t rel).IsDir (headDir slot o.scope) := fun hdir =>
    hown (prefix_of_isDir_noted hrel hdir)
  have hfree : (noted slot t rel).Free (headDir slot o.scope) := by
    intro q hq hhas
    have hq' := (mem_inits q _).mp hq
    rcases noted_cases hhas with hdir | rfl | rfl
    · exact hdir
    · exact absurd (.inl ((prefix_append ..).trans hq')) (not_overlap_of_unaffected h)
    · exact absurd hq' (not_slotMeta_of_unaffected h)
  -- some scope is copied, and the file is in it
  have hfound : (o.restoreScopes.find? fun f => f ≠ o.scope ∧
      (noted slot t rel).IsDir (headDir slot f) ∧ (builds id).copyFails f = false).isSome :=
    find?_isSome.mpr ⟨r, hr, by simpa [hne, builds] using isDir_noted hrel hpre⟩
  obtain ⟨f, hf⟩ := isSome_iff_exists.mp hfound
  have hkeep := find?_some hf
  have hfile := prefix_of_isDir_noted hrel (of_decide_eq_true hkeep).2.1
  have htree := handed_eq_of_unaffected h rel
  rw [handed_of_seedFrom hfree hdir hseed (by rw [seedFrom, hf, map_some])] at htree
  exact treeAt_noted_ne hfile (some.inj htree)

/-! ### What a build sees of a push -/

/-- A cache with nothing in it. -/
def bareCache : RemoteCache := ⟨[], true, true, .empty⟩

/-- A push that succeeds. -/
def pushes : Push := ⟨true, [], [], 2⟩

/-- A disk with one lineage, and nothing in it. -/
def started (slot : Slot) (t : Text) : Tree := PathMap.mkdirs .empty (headDir slot t)

/-- The meta of what is pushed. -/
def pushedMeta (slot : Slot) (digest : Tree → Text) (t : Text) : SnapshotMeta :=
  publishedMeta slot t pushes none ((started slot t).treeAt (headDir slot t))
    (digest ((started slot t).treeAt (headDir slot t)))

/-- The cache after the push. -/
def pushedCache (slot : Slot) (digest : Tree → Text) (t : Text) : RemoteCache :=
  { bareCache with
    objects := (published slot t ((started slot t).treeAt (headDir slot t))
      (pushedMeta slot digest t)).foldl (fun m e => m.insert e.1 e.2) .empty }

theorem isDir_started (hp : p <+: headDir slot t) : (started slot t).IsDir p :=
  isDir_mkdirs free_empty hp

theorem has_started (h : (started slot t).Has p) : p <+: headDir slot t := by
  rw [Has, started, get?_mkdirs] at h
  split at h
  · next hp => exact hp.1
  · cases h

theorem free_started (slot : Slot) (t : Text) : (started slot t).Free p := fun _ _ hhas =>
  isDir_started (has_started hhas)

theorem performAll_pushed (slot : Slot) (digest : Tree → Text) (t : Text) :
    performAll slot digest ⟨started slot t, [bareCache]⟩ [.push (alone t) pushes] =
      ⟨writeLocalMeta slot (started slot t) t (pushedMeta slot digest t),
        [pushedCache slot digest t]⟩ := by
  show runPush slot digest ⟨started slot t, [bareCache]⟩ (alone t) pushes = _
  rw [runPush, if_pos ⟨isDir_started prefix_rfl, rfl⟩]
  rfl

theorem get?_localMetaPath_pushed :
    (writeLocalMeta slot (started slot t) t (pushedMeta slot digest t)).get?
      (localMetaPath slot t) = some (.file (.snapshot (pushedMeta slot digest t))) := by
  have hno : ¬(started slot t).IsDir (localMetaPath slot t) := by
    intro hdir
    have hpre := has_started hdir.has
    have heq := hpre.eq_of_length (by simp [localMetaPath, headDir])
    exact headDir_ne_localMetaPath heq.symm
  rw [writeLocalMeta, writeFile, if_pos ⟨free_started slot t, hno⟩,
    get?_insert, if_pos rfl]

theorem not_localMeta_of_unaffected (h : Unaffected slot digest o t) :
    ¬localMetaPath slot t <+: headDir slot o.scope := by
  intro hpre
  have hview := h ⟨started slot t, [bareCache]⟩ [.push (alone t) pushes]
    (by simp [Operation.scope, alone])
  rw [performAll_pushed] at hview
  have htree := hview.tree (builds id)
  obtain ⟨x, hx⟩ := exists_handed (w := ⟨started slot t, [bareCache]⟩)
    (free_started slot t)
  rw [handed, if_neg (not_free_of_has get?_localMetaPath_pushed hpre), hx] at htree
  cases htree

/-- The head of what is pushed. -/
theorem headsIn_pushed (h : sanitizeScope t = sanitizeScope r) :
    headsIn slot (pushedCache slot digest t) r ≠ [] := by
  have hprefix : scopePrefix slot r = scopePrefix slot t := by rw [scopePrefix, scopePrefix, h]
  set m := pushedMeta slot digest t with hm
  set stem := scopePrefix slot t ++ (hex16 m.generation ++ '.' :: m.contentHash) with hstem
  have hget : (pushedCache slot digest t).objects.get? (stem ++ metaSuffix) = some (.info m) := by
    show (insert (insert .empty (stem ++ archiveSuffix) _)
      (stem ++ metaSuffix) (RemoteObject.info m)).get? (stem ++ metaSuffix) = _
    rw [get?_insert, if_pos rfl]
  have hof : headOf (pushedCache slot digest t) (stem ++ metaSuffix) =
      some ⟨(pushedCache slot digest t).name, stem, m⟩ := by
    have hstrip : stripSuffix (stem ++ metaSuffix) metaSuffix = some stem := by
      rw [stripSuffix]
      simp
    rw [headOf, hstrip, hget]
    rfl
  refine ne_nil_of_mem (mem_filterMap.mpr ⟨stem ++ metaSuffix, ?_, hof⟩)
  refine mem_filter.mpr ⟨?_, ?_⟩
  · exact mem_map.mpr ⟨(_, _), get?_eq_some.mp hget, rfl⟩
  · rw [ hprefix, isPrefixOf_iff_prefix, hstem, append_assoc]
    exact prefix_append ..

theorem foldl_pick_ne_none {l : List RemoteHead} {best : Option RemoteHead}
    (h : l ≠ [] ∨ best ≠ none) : l.foldl pick best ≠ none := by
  induction l generalizing best with
  | nil => exact h.resolve_left fun hne => hne rfl
  | cons a l ih =>
    refine ih (.inr ?_)
    unfold pick
    split
    · simp
    · split <;> simp

theorem remote_of_unaffected (h : Unaffected slot digest o t) :
    ∀ r ∈ o.scope :: o.restoreScopes, sanitizeScope t ≠ sanitizeScope r := by
  intro r hr heq
  have hview := h ⟨started slot t, [bareCache]⟩ [.push (alone t) pushes]
    (by simp [Operation.scope, alone])
  rw [performAll_pushed] at hview
  have hbefore : scratchRemoteHead slot [bareCache] o.scope o.restoreScopes = none :=
    findSome?_eq_none_iff.mpr fun _ _ => rfl
  have hafter := hview.head.trans hbefore
  have hbest := findSome?_eq_none_iff.mp hafter r hr
  refine foldl_pick_ne_none (.inl ?_) hbest
  rw [show ([pushedCache slot digest t].filter (·.readable)) = [pushedCache slot digest t] from rfl,
    flatMap_cons, flatMap_nil, append_nil]
  exact headsIn_pushed heq

/-! ### When lineages are isolated -/

/-- **Whatever has been done under one scope, a build under the other is handed the same, has the
same meta and finds the same head, if and only if the two keep apart.** -/
theorem unaffected_iff (slot : Slot) (digest : Tree → Text) (o : Options) (t : Text) :
    Unaffected slot digest o t ↔ Isolated slot o t := by
  constructor
  · intro h
    exact ⟨remote_of_unaffected h, not_overlap_of_unaffected h, not_localMeta_of_unaffected h,
      not_slotMeta_of_unaffected h, fun hseed r hr hne => not_seed_of_unaffected h hseed hr hne⟩
  · intro hi w ops hops
    exact sameView_of_frame (frame_performAll hops) hi

/-- The branch with a slash in its name. -/
def slashed : Options := alone "feature/x".toList

/-- The branch with an underscore. -/
def underscored : Options := alone "feature_x".toList

/-- The slot of some cache. -/
def someSlot : Slot := ⟨List.replicate 16 'a', rfl⟩

/-- **Two branches with one lineage**: what is built on the one is handed to the other. -/
theorem slash_and_underscore :
    (handed someSlot ⟨.empty, []⟩ slashed (builds id)).map (fun h => h.tree.entries) = some [] ∧
    (handed someSlot (performAll someSlot (fun _ => []) ⟨.empty, []⟩
        [.build underscored (builds fun _ => note [])]) slashed (builds id)).map
      (fun h => h.tree.entries) = some [([noteName], .file (.data []))] ∧
    ¬Unaffected someSlot (fun _ => []) slashed underscored.scope := by
  have hbefore : (handed someSlot ⟨.empty, []⟩ slashed (builds id)).map
      (fun h => h.tree.entries) = some [] := by decide +kernel
  have hafter : (handed someSlot (performAll someSlot (fun _ => []) ⟨.empty, []⟩
        [.build underscored (builds fun _ => note [])]) slashed (builds id)).map
      (fun h => h.tree.entries) = some [([noteName], .file (.data []))] := by decide +kernel
  refine ⟨hbefore, hafter, fun h => ?_⟩
  have hview := h ⟨.empty, []⟩ [.build underscored (builds fun _ => note [])]
    (by simp [Operation.scope])
  have heq := congrArg (Option.map fun t : Tree => t.entries) (hview.tree (builds id))
  have hlists := hafter.symm.trans (heq.trans hbefore)
  cases hlists

end Heph.Scratch
