import Heph.Group.Run

/-!
# What the hashouts of views tell

A target that uses a group has the hashouts of its views in its key. They are made from the hashouts
of the artifacts and from the transform. But where a file goes also depends on the package that has
made the artifact: a path may be written as that package would write it. **Two artifacts with the
same files may come from different packages**, and then their views have the same hashout and
different paths (`package_moves_file`). Where that does not matter to the transform the
hashouts do tell what is presented, the plan for all of the artifacts included
(`view_hashouts_identify`).
-/

namespace Heph

open List SortedMap PathTransform ViewArtifact Except Prod

variable {α : Type} {glob : Text → Option (Text → Bool)} {digest : List UInt8 → UInt64}
  {t : PathTransform} {plan : RenamePlan} {addr addr' : Addr} {inputs inputs' : List (GroupInput α)}
  {arts arts' : List (ViewArtifact α)} {includes excludes : List (Text → Bool)} {a b : GroupInput α}

/-! ### The bytes of a transform -/

theorem mem_strBytes (s : Text) : (0xff : UInt8) ∈ strBytes s := by simp [strBytes]

/-- What is hashed for the transform that changes nothing. -/
theorem hashBytes_default : PathTransform.default.hashBytes = List.replicate 40 0 := by decide

/-- **A transform that changes something is hashed to other bytes**: a text in it has an end. -/
theorem isIdentity_of_hashBytes (h : t.hashBytes = PathTransform.default.hashBytes) :
    t.isIdentity = true := by
  obtain ⟨includes, excludes, stripPrefix, withPrefix, rename⟩ := t
  have hff : (0xff : UInt8) ∉
      hashBytes ⟨includes, excludes, stripPrefix, withPrefix, rename⟩ := by
    rw [h, hashBytes_default]
    decide
  have hlen := congrArg length h
  rw [hashBytes_default] at hlen
  simp only [hashBytes, strsBytes, mem_append, not_or, mem_flatMap,
    not_exists, not_and] at hff
  obtain ⟨⟨-, hinc⟩, ⟨-, hexc⟩, hstrip, hwith, hren⟩ := hff
  have hnil {l : List Text} (hl : ∀ s ∈ l, (0xff : UInt8) ∉ strBytes s) : l = [] :=
    eq_nil_iff_forall_not_mem.mpr fun s hs => hl s hs (mem_strBytes s)
  obtain rfl := hnil hinc
  obtain rfl := hnil hexc
  obtain rfl : stripPrefix = none := by
    cases stripPrefix with
    | none => rfl
    | some s => simp [optBytes, mem_strBytes] at hstrip
  obtain rfl : withPrefix = none := by
    cases withPrefix with
    | none => rfl
    | some s => simp [optBytes, mem_strBytes] at hwith
  obtain rfl : rename = .none := by
    cases rename with
    | none => rfl
    | sole dst => simp [Rename.hashBytes, mem_strBytes] at hren
    | exact map =>
      simp [hashBytes, strsBytes, optBytes, Rename.hashBytes, bytesOfNat] at hlen
  rfl

/-! ### The hashouts of views -/

/-- The hashout of the view of an artifact. It is the same whatever has been planned. -/
def viewHash (digest : List UInt8 → UInt64) (t : PathTransform) (a : GroupInput α) : Text :=
  (viewOf t .empty a).hashout digest

theorem viewOf_hashout (plan : RenamePlan) (a : GroupInput α) :
    (viewOf t plan a).hashout digest = viewHash digest t a := by
  rw [viewHash, viewOf, viewOf]
  cases a.type <;> rfl

/-- **Artifacts with hashouts**: a hashout determines the files, it is a text without NUL, and no
two views are hashed to one digest. -/
structure Addressed (digest : List UInt8 → UInt64) (t : PathTransform)
    (inputs : List (GroupInput α)) : Prop where
  entries : ∀ a ∈ inputs, ∀ b ∈ inputs, a.hashout = b.hashout → a.entries = b.entries
  ne_nil : ∀ a ∈ inputs, a.hashout ≠ []
  noNul : ∀ a ∈ inputs, '\x00' ∉ a.hashout
  digest : ∀ a ∈ inputs, ∀ b ∈ inputs,
    digest (viewOf t .empty a).hashBytes = digest (viewOf t .empty b).hashBytes →
      (viewOf t .empty a).hashBytes = (viewOf t .empty b).hashBytes

/-- The hashout of a view tells the hashout of the artifact, and whether it is moved. -/
theorem Addressed.of_viewHash {inputs : List (GroupInput α)}
    (h : Addressed digest t inputs) (ht : t.isIdentity = false) (ha : a ∈ inputs) (hb : b ∈ inputs)
    (hab : viewHash digest t a = viewHash digest t b) :
    a.type = b.type ∧ a.hashout = b.hashout := by
  have hsource (c : GroupInput α) : (viewOf t .empty c).source = c := by
    rw [viewOf]
    cases c.type <;> rfl
  have hcode {c : GroupInput α} (hc : c ∈ inputs) :
      viewHash digest t c = hexDigits (digest (viewOf t .empty c).hashBytes) := by
    rw [viewHash, ViewContent.hashout, hsource, if_neg]
    simpa using h.ne_nil c hc
  rw [hcode ha, hcode hb] at hab
  have hbytes := h.digest a ha b hb (hexDigits_injective hab)
  rw [ViewContent.hashBytes, ViewContent.hashBytes, hsource, hsource] at hbytes
  obtain ⟨hhash, htransform⟩ := append_separator_inj (zero_notMem_utf8 (h.noNul a ha))
    (zero_notMem_utf8 (h.noNul b hb)) (append_cancel_left hbytes)
  refine ⟨?_, Addr.utf8_injective hhash⟩
  have hne : t.hashBytes ≠ default.hashBytes := fun heq => by
    rw [isIdentity_of_hashBytes heq] at ht
    exact nomatch ht
  rw [viewOf, viewOf] at htransform
  cases htype : a.type <;> cases htype' : b.type <;> simp only [htype, htype'] at htransform
  · rfl
  · exact absurd htransform hne
  · exact absurd htransform.symm hne
  · rfl

/-! ### What the package is needed for -/

/-- The transform treats the files of an artifact as it would those of the other. -/
def Alike (glob : Text → Option (Text → Bool)) (t : PathTransform) (a b : GroupInput α) : Prop :=
  ∀ includes excludes, PathTransform.compile glob t.includes = .ok includes →
    PathTransform.compile glob t.excludes = .ok excludes → ∀ path ∈ a.entries.map fst,
      t.destination .empty includes excludes a.sourcePaths path =
        t.destination .empty includes excludes b.sourcePaths path

namespace PathTransform

variable {includes excludes : List (Text → Bool)} {src src' : SourcePaths} {path : Text}
  {plan : RenamePlan} {sources : List SourcePaths} {plan' : RenamePlan}
  {sources' : List SourcePaths}

theorem destination_plan :
    t.destination plan includes excludes src path =
      (plan.get? (pathToSlash path)).or (t.destination .empty includes excludes src path) := by
  rw [destination]
  cases plan.get? (pathToSlash path) <;> rfl

theorem isSome_destination :
    (t.destination .empty includes excludes src path).isSome =
      survives includes excludes (pathToSlash path) (src.packageRelative (pathToSlash path)) := by
  show Option.isSome (if _ then _ else _) = _
  split <;> simp_all

theorem resolveLoop_congr {dest dest' : Text → Option Text} {paths : List Text}
    (h : ∀ path ∈ paths, dest path = dest' path) (claimed map : PathMapping) :
    resolveLoop dest paths claimed map = resolveLoop dest' paths claimed map := by
  induction paths generalizing claimed map with
  | nil => rfl
  | cons path rest ih =>
    rw [forall_mem_cons] at h
    simp only [resolveLoop, h.1, ih h.2]

theorem planRename_eq {all all' : List Text}
    (h : t.planRename glob sources all = .ok plan)
    (h' : t.planRename glob sources' all' = .ok plan')
    (hsurvivors : ∀ includes excludes, compile glob t.includes = .ok includes →
      compile glob t.excludes = .ok excludes →
      (sources.flatMap (survivors includes excludes)).Perm
        (sources'.flatMap (survivors includes excludes))) : plan = plan' := by
  rw [planRename] at h h'
  cases hrename : t.rename with
  | none =>
    rw [hrename] at h h'
    exact ok.inj (h.symm.trans h')
  | sole dst =>
    simp only [hrename] at h h'
    obtain ⟨includes, hinc, h⟩ := bind_ok.mp h
    obtain ⟨excludes, hexc, h⟩ := bind_ok.mp h
    obtain ⟨includes', hinc', h'⟩ := bind_ok.mp h'
    obtain ⟨excludes', hexc', h'⟩ := bind_ok.mp h'
    obtain rfl : includes = includes' := ok.inj (hinc.symm.trans hinc')
    obtain rfl : excludes = excludes' := ok.inj (hexc.symm.trans hexc')
    -- in order they are the same
    have hsort : (sources.flatMap (survivors includes excludes)).insertionSort (· ≤ ·) =
        (sources'.flatMap (survivors includes excludes)).insertionSort (· ≤ ·) :=
      ((perm_insertionSort _ _).trans ((hsurvivors includes excludes hinc hexc).trans
        (perm_insertionSort _ _).symm)).eq_of_pairwise'
        (pairwise_insertionSort _ _) (pairwise_insertionSort _ _)
    rw [hsort] at h
    generalize (sources'.flatMap (survivors includes excludes)).insertionSort (· ≤ ·) = l at h h'
    rcases l with - | ⟨only, - | ⟨next, rest⟩⟩
    · exact nomatch h
    · exact ok.inj (h.symm.trans h')
    · exact nomatch h
  | exact map =>
    simp only [hrename] at h h'
    split at h
    · exact nomatch h
    · split at h'
      · exact nomatch h'
      · exact ok.inj (h.symm.trans h')

/-- What is planned if there are files. -/
theorem plan_of_ne_nil
    (hne : (sources.flatMap (·.paths)).map pathToSlash ≠ []) (h : t.plan glob sources = .ok plan) :
    t.planRename glob sources ((sources.flatMap (·.paths)).map pathToSlash) = .ok plan := by
  rw [PathTransform.plan, if_neg (by simpa using hne)] at h
  obtain ⟨q, hq, h⟩ := bind_ok.mp h
  split at h
  · rw [hq, h]
  · split at h
    · rw [hq, h]
    · exact nomatch h

/-- **The plan is made from all the files at once**: it does not depend on their order. -/
theorem plan_eq (h : t.plan glob sources = .ok plan) (h' : t.plan glob sources' = .ok plan')
    (hpaths : (sources.flatMap (·.paths)).Perm (sources'.flatMap (·.paths)))
    (hsurvivors : ∀ includes excludes, compile glob t.includes = .ok includes →
      compile glob t.excludes = .ok excludes →
      (sources.flatMap (survivors includes excludes)).Perm
        (sources'.flatMap (survivors includes excludes))) : plan = plan' := by
  have hall := hpaths.map pathToSlash
  by_cases hnil : (sources.flatMap (·.paths)).map pathToSlash = []
  · have hnil' : (sources'.flatMap (·.paths)).map pathToSlash = [] := by
      rw [hnil] at hall
      exact nil_perm.mp hall
    rw [PathTransform.plan, if_pos (by rw [hnil]; rfl)] at h
    rw [PathTransform.plan, if_pos (by rw [hnil']; rfl)] at h'
    exact ok.inj (h.symm.trans h')
  · have hnil' : (sources'.flatMap (·.paths)).map pathToSlash ≠ [] := fun hnil' => by
      rw [hnil'] at hall
      exact hnil (perm_nil.mp hall)
    exact planRename_eq (plan_of_ne_nil hnil h) (plan_of_ne_nil hnil' h') hsurvivors

end PathTransform

/-! ### What is presented -/

variable (glob : Text → Option (Text → Bool))

/-- What a view shows. -/
def ViewContent.shown (v : ViewContent α) : List (Text × α) :=
  match v.walk glob with
  | .ok entries => entries
  | .error _ => []

/-- **What a group presents**, the files of all its views. -/
def presented (arts : List (ViewArtifact α)) :
    List (Text × α) :=
  arts.flatMap fun a => a.view.shown glob

variable {glob}

/-- Views of the same files that go to the same places show the same. -/
theorem ViewContent.shown_eq {v v' : ViewContent α} (htransform : v.transform = v'.transform)
    (hentries : v.source.entries = v'.source.entries)
    (h : ∀ includes excludes, PathTransform.compile glob v.transform.includes = .ok includes →
      PathTransform.compile glob v.transform.excludes = .ok excludes →
      ∀ path ∈ v.source.entries.map fst,
        v.transform.destination v.plan includes excludes v.source.sourcePaths path =
          v.transform.destination v'.plan includes excludes v'.source.sourcePaths path) :
    v.shown glob = v'.shown glob := by
  have hmapping : v.mapping glob = v'.mapping glob := by
    rw [mapping, mapping, resolve, resolve,
      ← htransform]
    cases hinc : compile glob v.transform.includes with
    | error e => rfl
    | ok includes =>
      cases hexc : compile glob v.transform.excludes with
      | error e => rfl
      | ok excludes =>
        show resolveLoop _ (v.source.entries.map fst) _ _ =
          resolveLoop _ (v'.source.entries.map fst) _ _
        rw [← hentries]
        exact resolveLoop_congr (h includes excludes hinc hexc) _ _
  rw [shown, shown, walk, walk, hmapping, hentries]

/-- The views that show what they show by nothing but their files. -/
theorem shown_viewOf_eq (htype : a.type = b.type)
    (hentries : a.entries = b.entries) (halike : a.type = .dep → Alike glob t a b) :
    (viewOf t plan a).shown glob = (viewOf t plan b).shown glob := by
  rw [viewOf, viewOf, ← htype]
  cases ha : a.type with
  | support =>
    refine ViewContent.shown_eq rfl hentries fun includes excludes hinc hexc path _ => ?_
    -- nothing is left out, and no directory is taken away
    obtain rfl : [] = includes := ok.inj hinc
    obtain rfl : [] = excludes := ok.inj hexc
    simp [destination, survives, matchesEither,
      relocate, strip, PathTransform.default, get?,
      empty]
  | dep =>
    refine ViewContent.shown_eq rfl hentries fun includes excludes hinc hexc path hpath => ?_
    rw [destination_plan, halike ha includes excludes hinc hexc path hpath,
      ← destination_plan]

/-! ### Two runs -/

theorem hashouts_eq (h : runGroup digest glob addr t inputs = .ok arts) :
    arts.map hashout = inputs.map (viewHash digest t) := by
  obtain ⟨-, plan, -, hviews⟩ := runGroup_ok h
  clear h
  induction hviews with
  | nil => rfl
  | @cons a b l r hab _ ih => rw [map_cons, map_cons, ih, hab.2.1, hab.1, viewOf_hashout]

theorem presented_eq (hviews : List.Forall₂ (fun input a => a.view = viewOf t plan input ∧
      a.hashout = a.view.hashout digest ∧ (a.type = .output ↔ input.type = .dep)) inputs arts) :
    presented glob arts = (inputs.map fun a => (viewOf t plan a).shown glob).flatten := by
  induction hviews with
  | nil => rfl
  | @cons a b l r hab _ ih =>
    rw [presented, flatMap_cons, map_cons, flatten_cons, ← ih, hab.1]
    rfl

theorem flatMap_groupDeps {β : Type} (g : GroupInput α → List β) :
    (groupDeps inputs).flatMap g =
      (inputs.map fun a => if a.type = .dep then g a else []).flatten := by
  induction inputs with
  | nil => rfl
  | cons a l ih =>
    rw [groupDeps, map_cons, flatten_cons, ← ih]
    by_cases ha : a.type = .dep <;> simp [ha, groupDeps]

theorem survivors_eq {includes excludes : List (Text → Bool)}
    (hentries : a.entries = b.entries) (halike : ∀ path ∈ a.entries.map fst,
      t.destination .empty includes excludes a.sourcePaths path =
        t.destination .empty includes excludes b.sourcePaths path) :
    PathTransform.survivors includes excludes a.sourcePaths =
      PathTransform.survivors includes excludes b.sourcePaths := by
  show ((a.entries.map fst).map pathToSlash).filter _ =
    ((b.entries.map fst).map pathToSlash).filter _
  rw [← hentries]
  refine filter_congr fun full hfull => ?_
  obtain ⟨path, hpath, rfl⟩ := mem_map.mp hfull
  rw [← isSome_destination, halike path hpath,
    isSome_destination]

/-- **The hashouts tell what is presented, if artifacts with the same hashout are treated
alike.** -/
theorem presented_perm (h : runGroup digest glob addr t inputs = .ok arts)
    (h' : runGroup digest glob addr' t inputs' = .ok arts')
    (haddressed : Addressed digest t (inputs ++ inputs'))
    (halike : ∀ a ∈ inputs, ∀ b ∈ inputs', a.type = .dep → b.type = .dep →
      a.hashout = b.hashout → Alike glob t a b)
    (hsame : (arts.map hashout).Perm (arts'.map hashout)) :
    (presented glob arts).Perm (presented glob arts') := by
  rw [hashouts_eq h, hashouts_eq h'] at hsame
  obtain ⟨ht, plan, hplan, hviews⟩ := runGroup_ok h
  obtain ⟨-, plan', hplan', hviews'⟩ := runGroup_ok h'
  have hmatch : ∀ a ∈ inputs, ∀ b ∈ inputs', viewHash digest t a = viewHash digest t b →
      a.type = b.type ∧ a.entries = b.entries ∧ (a.type = .dep → Alike glob t a b) := by
    intro a ha b hb hab
    have ha' : a ∈ inputs ++ inputs' := mem_append_left _ ha
    have hb' : b ∈ inputs ++ inputs' := mem_append_right _ hb
    obtain ⟨htype, hhash⟩ := haddressed.of_viewHash ht ha' hb' hab
    exact ⟨htype, haddressed.entries a ha' b hb' hhash,
      fun hdep => halike a ha b hb hdep (htype ▸ hdep) hhash⟩
  -- what is planned is the same
  obtain rfl : plan = plan' := by
    rw [runPlan] at hplan hplan'
    split at hplan
    · exact nomatch hplan
    · next hp =>
      split at hplan'
      · exact nomatch hplan'
      · next hp' =>
        cases hplan
        cases hplan'
        refine plan_eq hp hp' ?_ fun includes excludes hinc hexc => ?_
        · rw [flatMap_map, flatMap_map, flatMap_groupDeps, flatMap_groupDeps]
          refine (perm_map_of_perm_map hsame fun a ha b hb hab => ?_).flatten
          obtain ⟨htype, hentries, -⟩ := hmatch a ha b hb hab
          simp only [htype, GroupInput.sourcePaths, hentries]
        · rw [flatMap_map, flatMap_map, flatMap_groupDeps, flatMap_groupDeps]
          refine (perm_map_of_perm_map hsame fun a ha b hb hab => ?_).flatten
          obtain ⟨htype, hentries, hdep⟩ := hmatch a ha b hb hab
          by_cases ha : a.type = .dep
          · rw [if_pos ha, if_pos (htype ▸ ha)]
            exact survivors_eq hentries (hdep ha includes excludes hinc hexc)
          · rw [if_neg ha, if_neg (htype ▸ ha)]
  rw [presented_eq hviews, presented_eq hviews']
  refine (perm_map_of_perm_map hsame fun a ha b hb hab => ?_).flatten
  obtain ⟨htype, hentries, hdep⟩ := hmatch a ha b hb hab
  exact shown_viewOf_eq htype hentries hdep

/-! ### Where it is exact -/

/-- **The hashouts tell what is presented**, for all runs with the transform. -/
def Identifies (α : Type) (glob : Text → Option (Text → Bool)) (t : PathTransform) : Prop :=
  ∀ (digest : List UInt8 → UInt64) (addr addr' : Addr) (inputs inputs' : List (GroupInput α))
    (arts arts' : List (ViewArtifact α)), runGroup digest glob addr t inputs = .ok arts →
    runGroup digest glob addr' t inputs' = .ok arts' → Addressed digest t (inputs ++ inputs') →
    (arts.map hashout).Perm (arts'.map hashout) →
    (presented glob arts).Perm (presented glob arts')

/-- The transform does not look at the package. -/
def Blind (α : Type) (glob : Text → Option (Text → Bool)) (t : PathTransform) : Prop :=
  ∀ a b : GroupInput α, a.entries = b.entries → Alike glob t a b

/-- What is shown of it. -/
theorem shown_single {hashout path : Text} {v : α}
    (hinc : PathTransform.compile glob t.includes = .ok includes)
    (hexc : PathTransform.compile glob t.excludes = .ok excludes) :
    (∃ m, (viewOf t .empty (single addr hashout path v)).mapping glob = .ok m) ∧
      (viewOf t .empty (single addr hashout path v)).shown glob =
        ((t.destination .empty includes excludes (single addr hashout path v).sourcePaths path).map
          (·, v)).toList := by
  have hmapping : (viewOf t .empty (single addr hashout path v)).mapping glob =
      .ok ((t.destination .empty includes excludes
          (single addr hashout path v).sourcePaths path).elim .empty fun dst =>
        empty.insert (components path) dst) := by
    show (do
      let includes ← compile glob t.includes
      let excludes ← compile glob t.excludes
      resolveLoop (t.destination .empty includes excludes
        (single addr hashout path v).sourcePaths) [path] .empty .empty) = _
    rw [hinc, hexc]
    show resolveLoop _ [path] .empty .empty = _
    rw [resolveLoop]
    cases t.destination .empty includes excludes (single addr hashout path v).sourcePaths path with
    | none | some => rfl
  refine ⟨⟨_, hmapping⟩, ?_⟩
  rw [ViewContent.shown, ViewContent.walk, hmapping]
  cases t.destination .empty includes excludes (single addr hashout path v).sourcePaths path with
  | none => rfl
  | some dst =>
    show ViewContent.present _ [(path, v)] = _
    simp [ViewContent.present, get?_insert]

/-- A file that the directory is taken away from, so that the run succeeds. -/
def filler (t : PathTransform) (v : α) : List (GroupInput α) :=
  match t.stripPrefix with
  | none => []
  | some sp => [single ⟨[], [], .empty⟩ "2".toList (trimEndSlashes sp ++ ['/']) v]

theorem exists_of_mem_filler {v : α} {c : GroupInput α} (hc : c ∈ filler t v) :
    ∃ sp ∈ t.stripPrefix,
      c = single ⟨[], [], .empty⟩ "2".toList (trimEndSlashes sp ++ ['/']) v := by
  rw [filler] at hc
  split at hc
  · simp at hc
  · next sp hsp => exact ⟨sp, hsp, mem_singleton.mp hc⟩

theorem pathToSlash_of_notMem {s : Text} (h : '\\' ∉ s) : pathToSlash s = s := by
  refine (map_congr_left fun c hc => ?_).trans (map_id s)
  exact if_neg (ne_of_mem_of_not_mem hc h)

theorem stripDirPrefix_self (dir : Text) : (stripDirPrefix (dir ++ ['/']) dir).isSome := by
  rw [stripDirPrefix]
  split
  · rfl
  · have hdrop : (dir ++ ['/']).dropPrefix? dir = some ['/'] :=
      dropPrefix?_eq_some_iff.mpr ⟨dir, rfl, by simp⟩
    rw [hdrop]
    rfl

theorem plan_single {hashout path : Text} {v : α} (hrename : t.rename = .none)
    (hsp : ∀ sp ∈ t.stripPrefix, '\\' ∉ sp) :
    t.plan glob ((single addr hashout path v :: filler t v).map GroupInput.sourcePaths) =
      .ok .empty := by
  have hplan : t.planRename glob ((single addr hashout path v :: filler t v).map
      GroupInput.sourcePaths) ((((single addr hashout path v :: filler t v).map
      GroupInput.sourcePaths).flatMap (·.paths)).map pathToSlash) = .ok .empty := by
    rw [planRename, hrename]
  rw [plan, if_neg (by simp [single, GroupInput.sourcePaths]), hplan]
  cases hstrip : t.stripPrefix with
  | none => rfl
  | some sp =>
    have hslash : '\\' ∉ trimEndSlashes sp ++ ['/'] := by
      have hpre : trimEndSlashes sp <+: sp := rdropWhile_prefix _ sp
      have hmem : '\\' ∉ trimEndSlashes sp := fun h => hsp sp hstrip (hpre.subset h)
      simp [hmem]
    refine if_pos ?_
    rw [stripMatches, filler, hstrip]
    simp [single, GroupInput.sourcePaths, pathToSlash_of_notMem hslash, stripDirPrefix_self]

theorem run_single (digest : List UInt8 → UInt64) (addr addr' : Addr) (hashout path : Text) (v : α)
    (ht : t.isIdentity = false) (hrename : t.rename = .none) (hsp : ∀ sp ∈ t.stripPrefix, '\\' ∉ sp)
    (hinc : PathTransform.compile glob t.includes = .ok includes)
    (hexc : PathTransform.compile glob t.excludes = .ok excludes) :
    ∃ arts, runGroup digest glob addr' t (single addr hashout path v :: filler t v) = .ok arts ∧
      presented glob arts =
        ((t.destination .empty includes excludes (single addr hashout path v).sourcePaths path).map
          (·, v)).toList ++ ((filler t v).map fun c => (viewOf t .empty c).shown glob).flatten := by
  have hsingle : ∀ c ∈ single addr hashout path v :: filler t v,
      ∃ addr hashout path, c = single addr hashout path v := by
    intro c hc
    rcases mem_cons.mp hc with rfl | hc
    · exact ⟨_, _, _, rfl⟩
    · obtain ⟨sp, -, rfl⟩ := exists_of_mem_filler hc
      exact ⟨_, _, _, rfl⟩
  have hdeps : groupDeps (single addr hashout path v :: filler t v) =
      single addr hashout path v :: filler t v := by
    refine filter_eq_self.mpr fun c hc => ?_
    obtain ⟨_, _, _, rfl⟩ := hsingle c hc
    rfl
  have hplan : runPlan glob addr' t (single addr hashout path v :: filler t v) = .ok .empty := by
    rw [runPlan, hdeps, plan_single hrename hsp]
  obtain ⟨arts, harts⟩ := mapM_ok_of_forall (f := runInput digest glob addr' t .empty)
    (l := (single addr hashout path v :: filler t v).zipIdx) fun input hinput => by
      have hmem : input.1 ∈ single addr hashout path v :: filler t v :=
        fst_mem_of_mem_zipIdx hinput
      obtain ⟨a, h, p, heq⟩ := hsingle input.1 hmem
      have hmapping : ∃ m, (viewOf t .empty (single a h p v)).mapping glob = .ok m :=
        (shown_single hinc hexc).1
      obtain ⟨m, hm⟩ := hmapping
      rw [runInput, heq, hm]
      exact ⟨_, rfl⟩
  have hrun :
      runGroup digest glob addr' t (single addr hashout path v :: filler t v) = .ok arts := by
    rw [runGroup, if_neg (by simp [ht]), hplan]
    exact harts
  refine ⟨arts, hrun, ?_⟩
  obtain ⟨-, plan, hplan', hviews⟩ := runGroup_ok hrun
  obtain rfl : .empty = plan := ok.inj (hplan.symm.trans hplan')
  rw [presented_eq hviews, map_cons, flatten_cons, (shown_single hinc hexc).2]

/-- A transform that changes nothing does not look at the package. -/
theorem destination_of_isIdentity {src src' : SourcePaths} {path : Text}
    (ht : t.isIdentity = true) (hinc : PathTransform.compile glob t.includes = .ok includes)
    (hexc : PathTransform.compile glob t.excludes = .ok excludes) :
    t.destination .empty includes excludes src path =
      t.destination .empty includes excludes src' path := by
  obtain ⟨inc, exc, stripPrefix, withPrefix, rename⟩ := t
  simp only [isIdentity, Bool.and_eq_true, List.isEmpty_iff,
    Option.isNone_iff_eq_none] at ht
  obtain ⟨⟨⟨⟨rfl, rfl⟩, rfl⟩, rfl⟩, -⟩ := ht
  obtain rfl : [] = includes := ok.inj hinc
  obtain rfl : [] = excludes := ok.inj hexc
  simp [destination, survives, matchesEither, relocate,
    strip]

/-- What is hashed for the view of an artifact that is moved. -/
def viewBytes (t : PathTransform) (hashout : Text) : List UInt8 :=
  Addr.utf8 "heph-view-v1\x00".toList ++ (Addr.utf8 hashout ++ 0 :: t.hashBytes)

/-- A digest that tells the view of one file from the other. -/
def tellApart (t : PathTransform) (s : List UInt8) : UInt64 :=
  if s = viewBytes t "1".toList then 1 else 0

theorem addressed_single (addr addr' : Addr) (path : Text) (v : α) :
    Addressed (tellApart t) t ((single addr "1".toList path v :: filler t v) ++
      (single addr' "1".toList path v :: filler t v)) := by
  -- there are two hashouts, and each of them has its files
  have hcases : ∀ c ∈ (single addr "1".toList path v :: filler t v) ++
      (single addr' "1".toList path v :: filler t v),
      (viewOf t .empty c).hashBytes = viewBytes t c.hashout ∧
        (c.hashout = "1".toList ∧ c.entries = [(path, v)] ∨
          c.hashout = "2".toList ∧ c ∈ filler t v) := by
    intro c hc
    have hc' : c = single addr "1".toList path v ∨ c = single addr' "1".toList path v ∨
        c ∈ filler t v := by
      simp only [mem_append, mem_cons] at hc
      tauto
    rcases hc' with rfl | rfl | hc'
    · exact ⟨rfl, .inl ⟨rfl, rfl⟩⟩
    · exact ⟨rfl, .inl ⟨rfl, rfl⟩⟩
    · obtain ⟨sp, -, rfl⟩ := exists_of_mem_filler hc'
      exact ⟨rfl, .inr ⟨rfl, hc'⟩⟩
  have hfiller : ∀ c ∈ filler t v, ∀ d ∈ filler t v, c = d := by
    intro c hc d hd
    obtain ⟨sp, hsp, rfl⟩ := exists_of_mem_filler hc
    obtain ⟨sp', hsp', rfl⟩ := exists_of_mem_filler hd
    rw [Option.mem_unique hsp hsp']
  have hne : "1".toList ≠ "2".toList := by decide
  have htell : ∀ s, tellApart t (viewBytes t "1".toList) = tellApart t s →
      s = viewBytes t "1".toList := fun s heq => by simpa [tellApart] using heq
  constructor
  · intro c hc d hd heq
    rcases (hcases c hc).2 with ⟨hc1, hce⟩ | ⟨hc2, hcf⟩ <;>
      rcases (hcases d hd).2 with ⟨hd1, hde⟩ | ⟨hd2, hdf⟩
    · rw [hce, hde]
    · exact absurd (hc1.symm.trans (heq.trans hd2)) hne
    · exact absurd (hd1.symm.trans (heq.symm.trans hc2)) hne
    · rw [hfiller c hcf d hdf]
  · intro c hc
    rcases (hcases c hc).2 with ⟨h, -⟩ | ⟨h, -⟩ <;> simp [h]
  · intro c hc
    rcases (hcases c hc).2 with ⟨h, -⟩ | ⟨h, -⟩ <;> rw [h] <;> decide
  · intro c hc d hd heq
    rw [(hcases c hc).1, (hcases d hd).1] at heq ⊢
    rcases (hcases c hc).2 with ⟨hc, -⟩ | ⟨hc, -⟩ <;>
      rcases (hcases d hd).2 with ⟨hd, -⟩ | ⟨hd, -⟩ <;> rw [hc, hd] at heq ⊢
    · exact (htell _ heq).symm
    · exact htell _ heq.symm

/-- Two packages with one file: if the hashouts tell what is presented, it goes to one place. -/
theorem blind_of_identifies (hrename : t.rename = .none) (hsp : ∀ sp ∈ t.stripPrefix, '\\' ∉ sp)
    (h : Identifies α glob t) : Blind α glob t := by
  intro a b _ includes excludes hinc hexc path hpath
  by_cases ht : t.isIdentity = true
  · exact destination_of_isIdentity ht hinc hexc
  obtain ⟨⟨path, v⟩, -, rfl⟩ := mem_map.mp hpath
  have ht' : t.isIdentity = false := by simpa using ht
  obtain ⟨arts, hrun, hpresented⟩ := run_single (tellApart t) a.sourceAddr a.sourceAddr "1".toList
    path v ht' hrename hsp hinc hexc
  obtain ⟨arts', hrun', hpresented'⟩ := run_single (tellApart t) b.sourceAddr a.sourceAddr
    "1".toList path v ht' hrename hsp hinc hexc
  have hhash : viewHash (tellApart t) t (single a.sourceAddr "1".toList path v) =
      viewHash (tellApart t) t (single b.sourceAddr "1".toList path v) := rfl
  have hperm := h _ _ _ _ _ arts arts' hrun hrun' (addressed_single _ _ path v) (by
    rw [hashouts_eq hrun, hashouts_eq hrun', map_cons, map_cons, hhash])
  rw [hpresented, hpresented', perm_append_right_iff] at hperm
  -- one file at most is left on each side, and it is the same
  have hdest (c : GroupInput α) : t.destination .empty includes excludes
      (single c.sourceAddr "1".toList path v).sourcePaths path =
        t.destination .empty includes excludes c.sourcePaths path := rfl
  rw [hdest a] at hperm
  cases ha : t.destination .empty includes excludes a.sourcePaths path <;>
    cases hb : t.destination .empty includes excludes b.sourcePaths path <;>
    simp_all

/-- **The hashouts of the views tell what is presented where artifacts with the same hashout are
treated alike**; and for a transform that renames nothing this is in every run exactly if it does
not look at the package. -/
theorem view_hashouts_identify (α : Type) (glob : Text → Option (Text → Bool)) (t : PathTransform) :
    (∀ (digest : List UInt8 → UInt64) (addr addr' : Addr) (inputs inputs' : List (GroupInput α))
      (arts arts' : List (ViewArtifact α)), runGroup digest glob addr t inputs = .ok arts →
      runGroup digest glob addr' t inputs' = .ok arts' → Addressed digest t (inputs ++ inputs') →
      (∀ a ∈ inputs, ∀ b ∈ inputs', a.type = .dep → b.type = .dep → a.hashout = b.hashout →
        Alike glob t a b) →
      (arts.map hashout).Perm (arts'.map hashout) →
      (presented glob arts).Perm (presented glob arts')) ∧
    (t.rename = .none → (∀ sp ∈ t.stripPrefix, '\\' ∉ sp) →
      (Identifies α glob t ↔ Blind α glob t)) := by
  refine ⟨fun _ _ _ _ _ _ _ => presented_perm, fun hrename hsp =>
    ⟨blind_of_identifies hrename hsp, fun hblind digest addr addr' inputs inputs' arts arts' h h'
      haddressed => ?_⟩⟩
  refine presented_perm h h' haddressed fun a ha b hb _ _ hhash => hblind a b ?_
  exact haddressed.entries a (mem_append_left _ ha) b (mem_append_right _ hb) hhash

/-- A file that a package of the workspace builds, and one of a dependency at its root. -/
def builtIn (package : String) : List (GroupInput Unit) :=
  [single ⟨package.toList, "x".toList, .empty⟩ "1".toList "a/build/f".toList (),
    single ⟨[], "z".toList, .empty⟩ "2".toList "build/z".toList ()]

/-- The same artifacts in another order. -/
theorem view_hashouts_identify_reversed :
    ∃ arts arts', runGroup (tellApart stripBuild) (fun _ => none) ⟨[], "g".toList, .empty⟩
        stripBuild (builtIn "a") = .ok arts ∧
      runGroup (tellApart stripBuild) (fun _ => none) ⟨[], "h".toList, .empty⟩ stripBuild
        (builtIn "a").reverse = .ok arts' ∧
      (presented (fun _ => none) arts).Perm (presented (fun _ => none) arts') := by
  refine ⟨_, _, rfl, rfl, (view_hashouts_identify Unit (fun _ => none) stripBuild).1
    (tellApart stripBuild) ⟨[], "g".toList, .empty⟩ ⟨[], "h".toList, .empty⟩ (builtIn "a")
    (builtIn "a").reverse _ _ rfl rfl ?_ ?_ (by decide +kernel)⟩
  · exact ⟨by decide +kernel, by decide +kernel, by decide +kernel, by decide +kernel⟩
  · intro a ha b hb _ _ hab
    fin_cases ha <;> fin_cases hb
    · exact nomatch hab
    · exact fun _ _ _ _ _ _ => rfl
    · exact fun _ _ _ _ _ _ => rfl
    · exact nomatch hab

/-- **The package `a` and the root of the workspace make the same file**: the hashouts are the same,
under every digest, and the file goes to `f` from the one and stays where it is from the other. -/
theorem package_moves_file : ∃ arts arts' : (List UInt8 → UInt64) → _, ∀ digest,
    runGroup digest (fun _ => none) ⟨[], "g".toList, .empty⟩ stripBuild (builtIn "a") =
      .ok (arts digest) ∧
    runGroup digest (fun _ => none) ⟨[], "g".toList, .empty⟩ stripBuild (builtIn "") =
      .ok (arts' digest) ∧
    (arts digest).map hashout = (arts' digest).map hashout ∧
    presented (fun _ => none) (arts digest) = [("f".toList, ()), ("z".toList, ())] ∧
    presented (fun _ => none) (arts' digest) = [("a/build/f".toList, ()), ("z".toList, ())] :=
  ⟨_, _, fun _ => ⟨rfl, rfl, rfl, rfl, rfl⟩⟩

end Heph
