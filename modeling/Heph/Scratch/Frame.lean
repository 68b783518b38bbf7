import Heph.Lib.Replace
import Heph.Lib.Encoding
import Heph.Scratch.Lineage

/-!
# Scratch lineages that keep apart

An operation under a scope changes the lineage of that scope: its directory, what is noted of it
and of the slot, and its keys on the remote caches. A build under another scope looks at its own
lineage, at those it falls back to, and at what might be in the way of its directory. Where the
two **keep apart** (`Scratch.Isolated`), the build does not see the operation
(`Scratch.sameView_of_frame`).
-/

namespace Heph.Scratch

open List Option SortedMap PathMap

section Frame

variable {slot : Slot} {digest : Tree → Text} {o : Options} {s t r : Text} {p q : Path} {w : World}
  {disk : Tree} {m : SnapshotMeta} {disk' : Tree}

/-- **What a build under a scope sees**: the tree it is handed, the meta of the lineage, and the
head on the remote caches. -/
structure SameView (slot : Slot) (o : Options) (w w' : World) : Prop where
  tree : ∀ b, (handed slot w' o b).map Handed.tree = (handed slot w o b).map Handed.tree
  localMeta : readLocalMeta slot w'.disk o.scope = readLocalMeta slot w.disk o.scope
  head : scratchRemoteHead slot w'.caches o.scope o.restoreScopes =
    scratchRemoteHead slot w.caches o.scope o.restoreScopes

/-- The scopes keep apart in all that a build under the first looks at. -/
structure Isolated (slot : Slot) (o : Options) (t : Text) : Prop where
  remote : ∀ r ∈ o.scope :: o.restoreScopes, sanitizeScope t ≠ sanitizeScope r
  dir : ¬Overlap (headDir slot t) (headDir slot o.scope)
  localMeta : ¬localMetaPath slot t <+: headDir slot o.scope
  slotMeta : ¬slotMetaPath slot <+: headDir slot o.scope
  seed : o.seedOnFork = true → ∀ r ∈ o.restoreScopes, r ≠ o.scope →
    ¬Overlap (headDir slot t) (headDir slot r)

/-! ### What an operation changes -/

/-- The places that an operation under a scope writes to. -/
def Writes (slot : Slot) (t : Text) (p : Path) : Prop :=
  headDir slot t <+: p ∨ p = localMetaPath slot t ∨ p = slotMetaPath slot

/-- A remote cache has changed in the lineage of a scope only. -/
structure CacheWithin (slot : Slot) (t : Text) (c c' : RemoteCache) : Prop where
  name : c'.name = c.name
  readable : c'.readable = c.readable
  objects : ∀ k, ¬scopePrefix slot t <+: k → c'.objects.get? k = c.objects.get? k

/-- **The world has changed in the lineage of a scope only.** -/
structure Frame (slot : Slot) (t : Text) (w w' : World) : Prop where
  disk : PathMap.Within (Writes slot t) w.disk w'.disk
  caches : List.Forall₂ (CacheWithin slot t) w.caches w'.caches

theorem CacheWithin.refl (slot : Slot) (t : Text) (c : RemoteCache) : CacheWithin slot t c c :=
  ⟨rfl, rfl, fun _ _ => rfl⟩

theorem CacheWithin.trans {c c' c'' : RemoteCache} (h : CacheWithin slot t c c')
    (h' : CacheWithin slot t c' c'') : CacheWithin slot t c c'' :=
  ⟨h'.name.trans h.name, h'.readable.trans h.readable,
    fun k hk => (h'.objects k hk).trans (h.objects k hk)⟩

theorem Frame.refl (slot : Slot) (t : Text) (w : World) : Frame slot t w w :=
  ⟨.refl _ _, forall₂_same.mpr fun c _ => .refl slot t c⟩

theorem forall₂_trans {l l' l'' : List RemoteCache} (h : List.Forall₂ (CacheWithin slot t) l l')
    (h' : List.Forall₂ (CacheWithin slot t) l' l'') : List.Forall₂ (CacheWithin slot t) l l'' := by
  induction h generalizing l'' with
  | nil =>
    cases h'
    exact .nil
  | cons hc _ ih =>
    cases h' with
    | cons hc' hrest' => exact .cons (hc.trans hc') (ih hrest')

theorem Frame.trans {w' w'' : World} (h : Frame slot t w w') (h' : Frame slot t w' w'') :
    Frame slot t w w'' :=
  ⟨h.disk.trans h'.disk, forall₂_trans h.caches h'.caches⟩

theorem within_headDir (tree : Tree) :
    PathMap.Within (Writes slot t) disk (disk.setTree (headDir slot t) tree) :=
  within_setTree fun _ hp => .inl hp

theorem within_writeLocalMeta :
    PathMap.Within (Writes slot t) disk (writeLocalMeta slot disk t m) :=
  within_writeFile (.inr (.inl rfl)) _

theorem within_writeSlotMeta :
    PathMap.Within (Writes slot t) disk (writeSlotMeta slot disk) := by
  rw [writeSlotMeta]
  split
  · exact .refl _ _
  · exact within_writeFile (.inr (.inr rfl)) _

theorem frame_runBuild {b : Build} : Frame slot o.scope w (runBuild slot w o b) := by
  rw [runBuild]
  split
  · exact .refl slot _ w
  · next h _ =>
    refine ⟨?_, (Frame.refl slot o.scope w).caches⟩
    refine (within_headDir h.tree).trans
      (.trans ?_ (within_writeSlotMeta.trans (within_headDir _)))
    cases h.pulled with
    | none => exact .refl _ _
    | some m => exact within_writeLocalMeta

/-- What is published is under the keys of the lineage. -/
theorem prefix_of_published {tree : Tree} {e : Text × RemoteObject}
    (he : e ∈ published slot t tree m) : scopePrefix slot t <+: e.1 := by
  simp only [published, mem_cons, not_mem_nil, or_false] at he
  rcases he with rfl | rfl <;> simp only [append_assoc] <;> exact prefix_append ..

theorem get?_foldl_insert {objects : SortedMap Text RemoteObject}
    {l : List (Text × RemoteObject)} {k : Text} (h : ∀ e ∈ l, e.1 ≠ k) :
    (l.foldl (fun m e => m.insert e.1 e.2) objects).get? k = objects.get? k := by
  induction l generalizing objects with
  | nil => rfl
  | cons e l ih =>
    rw [foldl_cons, ih fun f hf => h f (mem_cons_of_mem _ hf), get?_insert,
      if_neg (h e mem_cons_self).symm]

theorem forall₂_writeObjects {objects : List (Text × RemoteObject)}
    (h : ∀ e ∈ objects, scopePrefix slot t <+: e.1) (n : ℕ) (caches : List RemoteCache) :
    List.Forall₂ (CacheWithin slot t) caches (writeObjects objects n caches).1 := by
  induction caches generalizing n with
  | nil => exact .nil
  | cons c caches ih =>
    have hc : CacheWithin slot t c
        { c with objects := (objects.take n).foldl (fun m e => m.insert e.1 e.2) c.objects } := by
      refine ⟨rfl, rfl, fun k hk => get?_foldl_insert fun e he heq => hk ?_⟩
      rw [← heq]
      exact h e (mem_of_mem_take he)
    rw [writeObjects]
    split
    · dsimp only
      split
      · exact .cons hc (forall₂_same.mpr fun c _ => .refl slot t c)
      · exact .cons hc (ih _)
    · exact .cons (.refl slot t c) (ih n)

theorem frame_runPush {p : Push} :
    Frame slot o.scope w (runPush slot digest w o p) := by
  rw [runPush]
  split
  · dsimp only
    generalize (if p.force then none else readLocalMeta slot w.disk o.scope) = parent
    split
    · exact .refl slot _ w
    · refine ⟨?_, forall₂_writeObjects (fun e he => prefix_of_published he) _ _⟩
      split
      · exact within_writeLocalMeta
      · exact .refl _ _
  · exact .refl slot _ w

theorem frame_runPull {p : Pull} : Frame slot o.scope w (runPull slot w o p) := by
  rw [runPull]
  split
  · exact .refl slot _ w
  · split
    · exact .refl slot _ w
    · split
      · split
        · exact ⟨within_headDir _, (Frame.refl slot o.scope w).caches⟩
        · exact ⟨(within_headDir _).trans (within_writeLocalMeta.trans within_writeSlotMeta),
            (Frame.refl slot o.scope w).caches⟩
      · exact .refl slot _ w

/-- **Operations under a scope change its lineage only.** -/
theorem frame_performAll {ops : List Operation} (h : ∀ op ∈ ops, op.scope = t) :
    Frame slot t w (performAll slot digest w ops) := by
  induction ops generalizing w with
  | nil => exact .refl slot t w
  | cons op ops ih =>
    refine .trans ?_ (ih fun op hop => h op (mem_cons_of_mem _ hop))
    obtain rfl := h op mem_cons_self
    cases op with
    | build o b => exact frame_runBuild
    | push o p => exact frame_runPush
    | pull o p => exact frame_runPull

/-! ### Paths that keep apart -/

theorem headDir_eq : headDir slot t = lineageDir slot t ++ [headName] := rfl

theorem localMetaName_ne : "head.meta".toList ≠ headName := by decide

theorem slotMetaName_ne : "slot.meta".toList ≠ headName := by decide

/-- A directory that the meta of a lineage is in is one that the lineage is in. -/
theorem prefix_of_prefix_localMetaPath (h : p <+: localMetaPath slot t)
    (hne : p ≠ localMetaPath slot t) : p <+: headDir slot t := by
  rcases prefix_concat_iff.mp h with heq | hpre
  · exact absurd heq hne
  · exact hpre.trans (prefix_append ..)

theorem headDir_ne_localMetaPath : headDir slot r ≠ localMetaPath slot t := by
  intro h
  have hlast := congrArg getLast? h
  rw [headDir_eq, localMetaPath, getLast?_concat, getLast?_concat] at hlast
  exact localMetaName_ne (some.inj hlast).symm

theorem localMetaPath_ne_slotMetaPath : localMetaPath slot t ≠ slotMetaPath slot := by
  have hne : "head.meta".toList ≠ "slot.meta".toList := by decide
  generalize hmeta : "head.meta".toList = x at hne
  generalize hslot : "slot.meta".toList = y at hne
  intro h
  have hlast := congrArg getLast? h
  rw [localMetaPath, slotMetaPath, hmeta, hslot, getLast?_concat] at hlast
  exact hne (some.inj hlast)

/-- The description of a slot is in no lineage. -/
theorem not_prefix_slotMetaPath : ¬headDir slot r <+: slotMetaPath slot := by
  have hne := digits_ne_headName slot
  have hname := slotMetaName_ne
  rcases headDir_cases slot r with h | h | h <;> rw [h, slotMetaPath, slotDir]
  · simpa using hname.symm
  · simpa using hne.symm
  · simp

/-- A place that is written is in another lineage only if the two overlap. -/
theorem overlap_of_writes (h : Writes slot t q) (hp : p <+: q) (hr : headDir slot r <+: p) :
    Overlap (headDir slot t) (headDir slot r) := by
  have hrq := hr.trans hp
  rcases h with h | rfl | rfl
  · exact prefix_or_prefix_of_prefix h hrq
  · exact .inr (prefix_of_prefix_localMetaPath hrq headDir_ne_localMetaPath)
  · exact absurd hrq not_prefix_slotMetaPath

section

variable (h : PathMap.Within (Writes slot t) disk disk')

include h

section

variable (hr : ¬Overlap (headDir slot t) (headDir slot r))

include hr

/-- **A lineage that keeps apart is not changed.** -/
theorem get?_eq_of_within (hp : headDir slot r <+: p) :
    disk'.get? p = disk.get? p := by
  rcases h p with heq | hw | ⟨-, -, q, hq, hpq⟩
  · exact heq
  · exact absurd (overlap_of_writes hw prefix_rfl hp) hr
  · exact absurd (overlap_of_writes hq hpq hp) hr

theorem treeAt_eq_of_within :
    disk'.treeAt (headDir slot r) = disk.treeAt (headDir slot r) :=
  treeAt_congr fun _ hp => get?_eq_of_within h hr hp

theorem isDir_iff_of_within :
    disk'.IsDir (headDir slot r) ↔ disk.IsDir (headDir slot r) := by
  rw [IsDir, IsDir, get?_eq_of_within h hr prefix_rfl]

end

variable (hi : Isolated slot o t)

include hi

/-- Nothing comes in the way of the directory, and nothing goes. -/
theorem free_iff_of_within :
    disk'.Free (headDir slot o.scope) ↔ disk.Free (headDir slot o.scope) := by
  refine forall₂_congr fun q hq => ?_
  have hq' : q <+: headDir slot o.scope := (mem_inits q _).mp hq
  rcases h q with heq | hw | ⟨hnone, hdir, -⟩
  · rw [Has, IsDir, heq]
    rfl
  · rcases hw with hw | rfl | rfl
    · exact absurd (.inl (hw.trans hq')) hi.dir
    · exact absurd hq' hi.localMeta
    · exact absurd hq' hi.slotMeta
  · simp [Has, IsDir, hnone, hdir]

theorem readLocalMeta_eq_of_within :
    readLocalMeta slot disk' o.scope = readLocalMeta slot disk o.scope := by
  rcases h (localMetaPath slot o.scope) with heq | hw | ⟨hnone, hdir, -⟩
  · rw [readLocalMeta, readLocalMeta, heq]
  · exfalso
    rcases hw with hw | heq | heq
    · exact hi.dir (.inl (prefix_of_prefix_localMetaPath hw headDir_ne_localMetaPath))
    · have hline : lineageDir slot o.scope = lineageDir slot t := (append_inj' heq rfl).1
      exact hi.dir (.inl (by rw [headDir_eq, headDir_eq, hline]))
    · exact localMetaPath_ne_slotMetaPath heq
  · rw [readLocalMeta, readLocalMeta, hnone, hdir]

theorem seedFrom_eq_of_within (hseed : o.seedOnFork = true) (copyFails : Text → Bool) :
    seedFrom slot disk' o copyFails = seedFrom slot disk o copyFails := by
  have hfind : o.restoreScopes.find? (fun f =>
        f ≠ o.scope ∧ disk'.IsDir (headDir slot f) ∧ copyFails f = false) =
      o.restoreScopes.find? (fun f =>
        f ≠ o.scope ∧ disk.IsDir (headDir slot f) ∧ copyFails f = false) := by
    refine find?_congr fun f hf => ?_
    by_cases hne : f = o.scope
    · simp [hne]
    · simp [isDir_iff_of_within h (hi.seed hseed f hf hne)]
  rw [seedFrom, seedFrom, hfind]
  cases hfound : o.restoreScopes.find? (fun f =>
      f ≠ o.scope ∧ disk.IsDir (headDir slot f) ∧ copyFails f = false) with
  | none => rfl
  | some f =>
    have hkeep := find?_some hfound
    have hne : f ≠ o.scope := (of_decide_eq_true hkeep).1
    rw [map_some, map_some, treeAt_eq_of_within h
      (hi.seed hseed f (mem_of_find?_eq_some hfound) hne)]

theorem resolveScopeDir_eq_of_within (copyFails : Text → Bool) :
    resolveScopeDir slot disk' o copyFails = resolveScopeDir slot disk o copyFails := by
  rw [resolveScopeDir, resolveScopeDir]
  simp only [isDir_iff_of_within h hi.dir, treeAt_eq_of_within h hi.dir, free_iff_of_within h hi]
  split
  · rfl
  · split
    · next hseed => exact seedFrom_eq_of_within h hi hseed.1 copyFails
    · rfl

end

/-! ### Keys that keep apart -/

theorem slash_notMem_sanitizeScope : '/' ∉ sanitizeScope s := by
  rw [sanitizeScope]
  split
  · decide
  · intro h
    obtain ⟨c, -, hc⟩ := mem_map.mp h
    split at hc
    · next hkeep =>
      rw [hc] at hkeep
      exact absurd hkeep (by decide)
    · exact absurd hc (by decide)

/-- **A key is of one lineage.** -/
theorem sanitizeScope_eq {k : Text} (hr : scopePrefix slot r <+: k)
    (ht : scopePrefix slot t <+: k) : sanitizeScope t = sanitizeScope r := by
  obtain ⟨x, hx⟩ := hr
  obtain ⟨y, hy⟩ := ht
  have heq := hx.trans hy.symm
  simp only [scopePrefix, append_assoc, cons_append, append_cancel_left_eq,
    cons.injEq, true_and, nil_append] at heq
  exact (append_separator_inj slash_notMem_sanitizeScope slash_notMem_sanitizeScope heq).1.symm

/-- What ends with a separator does not reach into a suffix without one. -/
theorem prefix_of_prefix_append {α : Type} {x : α} {y l suffix : List α} (hx : x ∉ suffix)
    (h : y ++ [x] <+: l ++ suffix) : y ++ [x] <+: l := by
  rcases prefix_append_cases h with h | ⟨q, hq, hqv, heq⟩
  · exact h
  · have hsuf : q <:+ y ++ [x] := ⟨l, heq.symm⟩
    rcases suffix_concat_iff.mp hsuf with hnil | ⟨t, rfl, -⟩
    · exact absurd hnil hq
    · exact absurd (hqv.mem (by simp)) hx

theorem scopePrefix_eq : scopePrefix slot t =
    (keyPrefix ++ '/' :: (slot.digits ++ '/' :: sanitizeScope t)) ++ ['/'] := by
  simp [scopePrefix]

variable {h : RemoteHead} {l l' : List RemoteCache} {w' : World}

/-- A head is read from its own lineage. -/
theorem not_prefix_archive {c : RemoteCache} (hh : h ∈ headsIn slot c r)
    (hne : sanitizeScope t ≠ sanitizeScope r) :
    ¬scopePrefix slot t <+: h.stem ++ archiveSuffix := by
  intro hpre
  obtain ⟨key, hkey, hof⟩ := mem_filterMap.mp hh
  have hprefix : scopePrefix slot r <+: key :=
    isPrefixOf_iff_prefix.mp (mem_filter.mp hkey).2
  obtain ⟨stem, hstem, hof⟩ := bind_eq_some_iff.mp hof
  have hstems : stem = h.stem := by
    split at hof
    · split at hof
      · rw [← some.inj hof]
      · cases hof
    · cases hof
  rw [stripSuffix] at hstem
  split at hstem
  · cases hstem
    have hslash : '/' ∉ archiveSuffix := by decide
    rw [scopePrefix_eq] at hpre
    have hstemPre := prefix_of_prefix_append hslash hpre
    rw [← scopePrefix_eq, ← hstems] at hstemPre
    refine hne (sanitizeScope_eq hprefix (hstemPre.trans ?_))
    exact take_prefix ..
  · cases hstem

/-- The lists of keys of a lineage agree where the caches do. -/
theorem keys_filter_eq {m m' : SortedMap Text RemoteObject} {pre : Text}
    (h : ∀ k, pre <+: k → m'.get? k = m.get? k) :
    m'.keys.filter pre.isPrefixOf = m.keys.filter pre.isPrefixOf := by
  have hsorted : ∀ m : SortedMap Text RemoteObject,
      (m.keys.filter pre.isPrefixOf).Pairwise (· < ·) :=
    fun m => (pairwise_map.mpr m.sorted).filter _
  have hmem : ∀ k, k ∈ m'.keys.filter pre.isPrefixOf ↔ k ∈ m.keys.filter pre.isPrefixOf := by
    have hkeys : ∀ (m : SortedMap Text RemoteObject) k, k ∈ m.keys ↔ (m.get? k).isSome := by
      intro m k
      rw [SortedMap.keys, List.mem_map, isSome_iff_exists]
      constructor
      · rintro ⟨⟨k', v⟩, he, rfl⟩
        exact ⟨v, get?_eq_some.mpr he⟩
      · rintro ⟨v, hv⟩
        exact ⟨(k, v), get?_eq_some.mp hv, rfl⟩
    intro k
    rw [mem_filter, mem_filter, hkeys, hkeys]
    refine and_congr_left fun hk => ?_
    have hpre : pre <+: k := isPrefixOf_iff_prefix.mp hk
    rw [h k hpre]
  have hnodup : ∀ m : SortedMap Text RemoteObject, (m.keys.filter pre.isPrefixOf).Nodup :=
    fun m => m.nodup_keys.filter _
  refine ((perm_ext_iff_of_nodup (hnodup m') (hnodup m)).mpr hmem).eq_of_pairwise
    (fun a b _ _ hab hba => ?_) (hsorted m') (hsorted m)
  exact absurd hab (lt_asymm hba)

theorem headsIn_eq {c c' : RemoteCache} (h : CacheWithin slot t c c')
    (hne : sanitizeScope t ≠ sanitizeScope r) : headsIn slot c' r = headsIn slot c r := by
  have hget : ∀ k, scopePrefix slot r <+: k → c'.objects.get? k = c.objects.get? k :=
    fun k hk => h.objects k fun ht => hne (sanitizeScope_eq hk ht)
  rw [headsIn, keys_filter_eq hget]
  refine filterMap_congr fun k hk => ?_
  have hpre := isPrefixOf_iff_prefix.mp (mem_filter.mp hk).2
  rw [headOf, headOf, h.name, hget k hpre]

theorem bestIn_eq (h : List.Forall₂ (CacheWithin slot t) l l')
    (hne : sanitizeScope t ≠ sanitizeScope r) : bestIn slot l' r = bestIn slot l r := by
  have hheads : ((l'.filter (·.readable)).flatMap fun c => headsIn slot c r) =
      (l.filter (·.readable)).flatMap fun c => headsIn slot c r := by
    induction h with
    | nil => rfl
    | @cons c c' _ _ hc _ ih =>
      rw [filter_cons, filter_cons, hc.readable]
      split
      · rw [flatMap_cons, flatMap_cons, ih, headsIn_eq hc hne]
      · exact ih
  rw [bestIn, bestIn, hheads]

/-- The best head is one of the heads. -/
theorem mem_of_foldl_pick {l : List RemoteHead} {best : Option RemoteHead}
    (hl : l.foldl pick best = some h) : h ∈ l ∨ best = some h := by
  induction l generalizing best with
  | nil => exact .inr hl
  | cons a l ih =>
    rcases ih hl with hmem | hpick
    · exact .inl (mem_cons_of_mem a hmem)
    · unfold pick at hpick
      split at hpick
      · cases hpick
        exact .inl mem_cons_self
      · split at hpick
        · cases hpick
          exact .inl mem_cons_self
        · exact .inr hpick

theorem archiveOf_eq (h : List.Forall₂ (CacheWithin slot t) l l')
    {x : RemoteHead} (hx : ¬scopePrefix slot t <+: x.stem ++ archiveSuffix) :
    archiveOf l' x = archiveOf l x := by
  rw [archiveOf, archiveOf]
  induction h with
  | nil => rfl
  | @cons c c' _ _ hc _ ih =>
    rw [filter_cons, filter_cons, hc.readable]
    split
    · rw [find?_cons, find?_cons, hc.name]
      split
      · rw [bind_some, bind_some, hc.objects _ hx]
      · exact ih
    · exact ih

theorem scratchRemoteHead_eq (h : Frame slot t w w') (hi : Isolated slot o t) :
    scratchRemoteHead slot w'.caches o.scope o.restoreScopes =
      scratchRemoteHead slot w.caches o.scope o.restoreScopes := by
  have hbest : ∀ l : List Text, (∀ r ∈ l, r ∈ o.scope :: o.restoreScopes) →
      l.findSome? (bestIn slot w'.caches) = l.findSome? (bestIn slot w.caches) := by
    intro l hl
    induction l with
    | nil => rfl
    | cons r l ih =>
      rw [findSome?_cons, findSome?_cons,
        bestIn_eq h.caches (hi.remote r (hl r mem_cons_self)),
        ih fun r' hr' => hl r' (mem_cons_of_mem r hr')]
  exact hbest _ fun r hr => hr

theorem pullIfCold_eq (h : Frame slot t w w') (hi : Isolated slot o t)
    (fails : Bool) : pullIfCold slot w' o fails = pullIfCold slot w o fails := by
  rw [pullIfCold, pullIfCold, scratchRemoteHead_eq h hi]
  cases hhead : scratchRemoteHead slot w.caches o.scope o.restoreScopes with
  | none => rfl
  | some x =>
    obtain ⟨r, hr, hbest⟩ := exists_of_findSome?_eq_some hhead
    have hmem := (mem_of_foldl_pick hbest).resolve_right (by simp)
    obtain ⟨c, -, hx⟩ := mem_flatMap.mp hmem
    dsimp only
    rw [archiveOf_eq h.caches (not_prefix_archive hx (hi.remote r hr))]

/-- **Lineages that keep apart do not see each other.** -/
theorem sameView_of_frame (h : Frame slot t w w') (hi : Isolated slot o t) :
    SameView slot o w w' where
  tree b := by
    rw [handed, handed]
    simp only [free_iff_of_within h.disk hi, resolveScopeDir_eq_of_within h.disk hi,
      pullIfCold_eq h hi]
  localMeta := readLocalMeta_eq_of_within h.disk hi
  head := scratchRemoteHead_eq h hi

end Frame

end Heph.Scratch
