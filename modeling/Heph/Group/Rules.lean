import Heph.Lib.Traverse
import Heph.Group.Transform

/-!
# What the rules of a group do with a file

A file that a group presents is renamed, or it is moved – what is left of its path after the
directory that is stripped is put below the prefix – or it is left out; a support file stays where
it is. That is said here of the **rules and the paths**, without a plan and without a mapping
(`PathTransform.placeOf`), and compared with what the loop of the source comes to:

* the plan has the renames of the rules (`PathTransform.plan_get?`), and a file goes where the rules
  send it (`PathTransform.destination_eq`);
* the loop maps a path by its last spelling that is kept (`PathTransform.resolveLoop_get?`), and no
  two files of an artifact to one place (`PathTransform.resolve_injective`);
* two places are one exactly if what is left is the same, whatever the prefix
  (`PathTransform.meet_iff`).
-/

namespace Heph

open List SortedMap

variable {glob : Text → Option (Text → Bool)}

/-! ### One artifact -/

namespace PathTransform

variable {dest : Text → Option Text} {claimed map m : PathMapping} {paths : List Text}

/-- Each file that is mapped has claimed the place it goes to. -/
def Claims (claimed map : PathMapping) : Prop :=
  ∀ c dst, map.get? c = some dst → ∃ path, components path = c ∧
    claimed.get? (components dst) = some path

theorem Claims.insert {path dst : Text} (h : Claims claimed map)
    (hfree : claimed.get? (components dst) = none) :
    Claims (claimed.insert (components dst) path) (map.insert (components path) dst) := by
  intro c d hd
  rw [get?_insert] at hd
  split at hd
  · next hc =>
    cases hd
    exact ⟨path, hc.symm, by rw [get?_insert, if_pos rfl]⟩
  · obtain ⟨path', hpath', hclaimed⟩ := h c d hd
    refine ⟨path', hpath', ?_⟩
    rw [get?_insert, if_neg, hclaimed]
    intro heq
    rw [heq, hfree] at hclaimed
    exact nomatch hclaimed

theorem resolveLoop_claims (h : resolveLoop dest paths claimed map = .ok m)
    (hclaims : Claims claimed map) : ∃ claimed', Claims claimed' m := by
  induction paths generalizing claimed map with
  | nil =>
    cases h
    exact ⟨claimed, hclaims⟩
  | cons path rest ih =>
    rw [resolveLoop] at h
    split at h
    · exact ih h hclaims
    · split at h
      · exact nomatch h
      · next hfree => exact ih h (hclaims.insert hfree)

/-- **No two files of an artifact go to one place.** -/
theorem resolve_injective {t : PathTransform} {src : SourcePaths} {plan : RenamePlan}
    {c c' : List Text} {dst dst' : Text} (h : t.resolve glob src plan = .ok m)
    (hc : m.get? c = some dst) (hc' : m.get? c' = some dst')
    (hdst : components dst = components dst') : c = c' := by
  obtain ⟨includes, -, h⟩ := bind_ok.mp h
  obtain ⟨excludes, -, h⟩ := bind_ok.mp h
  obtain ⟨claimed, hclaims⟩ := resolveLoop_claims h fun c dst hnone => by
    simp [get?, empty] at hnone
  obtain ⟨path, rfl, hpath⟩ := hclaims c dst hc
  obtain ⟨path', rfl, hpath'⟩ := hclaims c' dst' hc'
  rw [hdst, hpath'] at hpath
  rw [Option.some.inj hpath]

end PathTransform

/-! ### Where the rules send a file -/

/-- The segments of a path, but for the empty ones and those that are `.`. -/
def normalSegments (p : Text) : List Text := (p.splitOn '/').filter fun s => s ≠ [] ∧ s ≠ ['.']

/-- **What the rules do with a file.** -/
inductive Placement where
  /-- It is a support file, and stays where it is. -/
  | asIs (path : Text)
  /-- It is renamed. -/
  | renamed (dst : Text)
  /-- It is moved: this is what is left of its path, to be put below the prefix. -/
  | moved (rest : Text)
  deriving DecidableEq

namespace PathTransform

/-- The path below the prefix. -/
def prefixed (t : PathTransform) (rest : Text) : Text :=
  match t.withPrefix with
  | some p => trimEndSlashes p ++ '/' :: rest
  | none => rest

/-- The path of a place. -/
def pathOf (t : PathTransform) : Placement → Text
  | .asIs path => path
  | .renamed dst => dst
  | .moved rest => t.prefixed rest

/-- **Two places are one.** The prefix makes no difference between files that are moved. -/
def Meet (t : PathTransform) : Placement → Placement → Prop
  | .moved x, .moved y =>
    match t.withPrefix with
    | some _ => normalSegments x = normalSegments y
    | none => components x = components y
  | a, b => components (t.pathOf a) = components (t.pathOf b)

section Rules

variable (glob : Text → Option (Text → Bool)) (t : PathTransform) (sources : List SourcePaths)

/-- One of the patterns matches, on the path as it is emitted or as its package writes it. -/
def hits (patterns : List Text) (full : Text) (rel : Option Text) : Bool :=
  patterns.any fun p => (glob p).any fun g => g full || rel.any g

/-- The file is selected by the patterns. -/
def selects (src : SourcePaths) (full : Text) : Bool :=
  (t.includes.isEmpty || hits glob t.includes full (src.packageRelative full)) &&
    !hits glob t.excludes full (src.packageRelative full)

/-- Where a path is renamed to. A destination without a path is for the one that is selected. -/
def renames (full : Text) : Option Text :=
  match t.rename with
  | .none => none
  | .sole dst =>
    if ∃ src ∈ sources, (src.paths.map pathToSlash).contains full ∧ t.selects glob src full then
      some dst
    else none
  | .exact map => map.get? full

/-- **What the rules do with a file of an artifact.** -/
def placeOf (src : SourcePaths) (path : Text) : Option Placement :=
  match t.renames glob sources (pathToSlash path) with
  | some dst => some (.renamed dst)
  | none =>
    if t.selects glob src (pathToSlash path) then
      some (.moved (t.strip (pathToSlash path) (src.packageRelative (pathToSlash path))))
    else none

end Rules

/-! ### The mapping and the rules -/

variable {t : PathTransform} {gs includes excludes : List (Text → Bool)}
  {sources : List SourcePaths} {src : SourcePaths} {plan : RenamePlan}

theorem hits_of_compile {patterns : List Text} (h : compile glob patterns = .ok gs) (full : Text)
    (rel : Option Text) : matchesEither gs full rel = hits glob patterns full rel := by
  have hlist := forall₂_of_mapM_ok h
  clear h
  induction hlist with
  | nil => simp [matchesEither, hits]
  | @cons p g patterns gs hp _ ih =>
    split at hp
    · cases hp
    · next g' hg =>
      cases hp
      rw [matchesEither, any_cons, hits, any_cons, ← hits, ← ih, matchesEither, hg]
      cases rel <;> simp [Bool.or_assoc, Bool.or_left_comm]

theorem survives_of_compile (hi : compile glob t.includes = .ok includes)
    (he : compile glob t.excludes = .ok excludes) (full : Text) :
    survives includes excludes full (src.packageRelative full) = t.selects glob src full := by
  have hempty : includes.isEmpty = t.includes.isEmpty := by
    have hlen := (forall₂_of_mapM_ok hi).length_eq
    cases hl : t.includes <;> cases hr : includes <;> simp_all
  rw [survives, selects, hits_of_compile hi, hits_of_compile he, hempty]

/-- **The plan is the renames of the rules**, for the files that there are. -/
theorem plan_get? (h : t.plan glob sources = .ok plan) {path : Text} (hsrc : src ∈ sources)
    (hpath : path ∈ src.paths) :
    plan.get? (pathToSlash path) = t.renames glob sources (pathToSlash path) := by
  have hne : ((sources.flatMap (·.paths)).map pathToSlash).isEmpty = false := by
    rw [isEmpty_eq_false_iff_exists_mem]
    exact ⟨_, mem_map.mpr ⟨path, mem_flatMap.mpr ⟨src, hsrc, hpath⟩, rfl⟩⟩
  rw [PathTransform.plan] at h
  simp only [hne, Bool.false_eq_true, if_false] at h
  obtain ⟨plan', hplan, h⟩ := bind_ok.mp h
  obtain rfl : plan' = plan := by
    split at h
    · exact Except.ok.inj h
    · split at h
      · exact Except.ok.inj h
      · cases h
  rw [planRename] at hplan
  rw [renames]
  cases hrename : t.rename with
  | none =>
    rw [hrename] at hplan
    cases hplan
    rfl
  | exact map =>
    simp only [hrename] at hplan ⊢
    split at hplan
    · cases hplan
    · cases hplan
      rfl
  | sole dst =>
    simp only [hrename] at hplan ⊢
    obtain ⟨includes, hi, hplan⟩ := bind_ok.mp hplan
    obtain ⟨excludes, he, hplan⟩ := bind_ok.mp hplan
    have hmem (full : Text) : full ∈ sources.flatMap (survivors includes excludes) ↔
        ∃ src ∈ sources, (src.paths.map pathToSlash).contains full ∧ t.selects glob src full := by
      simp only [mem_flatMap, survivors, mem_filter, survives_of_compile hi he, contains_iff_mem]
    split at hplan
    · cases hplan
    · next only hone =>
      cases hplan
      have honly := hmem (pathToSlash path)
      rw [← mem_insertionSort (· ≤ ·), hone, mem_singleton] at honly
      rw [get?_insert, get?_empty]
      by_cases hfull : pathToSlash path = only
      · rw [if_pos hfull, if_pos (honly.mp hfull)]
      · rw [if_neg hfull, if_neg fun hsel => hfull (honly.mpr hsel)]
    · cases hplan

/-- **A file goes where the rules send it.** -/
theorem destination_eq (h : t.plan glob sources = .ok plan)
    (hi : compile glob t.includes = .ok includes) (he : compile glob t.excludes = .ok excludes)
    {path : Text} (hsrc : src ∈ sources) (hpath : path ∈ src.paths) :
    t.destination plan includes excludes src path =
      (t.placeOf glob sources src path).map t.pathOf := by
  rw [destination, placeOf, plan_get? h hsrc hpath, survives_of_compile hi he]
  cases t.renames glob sources (pathToSlash path) with
  | some dst => rfl
  | none =>
    by_cases hsel : t.selects glob src (pathToSlash path)
    · simp only [hsel, if_true]
      rfl
    · simp only [hsel]
      rfl

section Last

variable {β γ : Type} {dest : Text → Option Text} {claimed map m : PathMapping} {paths : List Text}
  {c : List Text}

/-- Of the spellings of a path, the last one that is kept counts. -/
def lastOf (dest : Text → Option β) (paths : List Text) (c : List Text) : Option β :=
  (paths.filterMap fun p => if components p = c then dest p else none).getLast?

theorem lastOf_congr {f g : Text → Option β} (h : ∀ p ∈ paths, f p = g p) :
    lastOf f paths c = lastOf g paths c := by
  rw [lastOf, lastOf, filterMap_congr fun p hp => by rw [h p hp]]

theorem lastOf_map {f : Text → Option β} {g : β → γ} :
    lastOf (fun p => (f p).map g) paths c = (lastOf f paths c).map g := by
  rw [lastOf, lastOf, ← getLast?_map, map_filterMap]
  congr 2
  funext p
  split <;> rfl

theorem mem_of_lastOf {f : Text → Option β} {b : β} (h : lastOf f paths c = some b) :
    c ∈ paths.map components := by
  obtain ⟨p, hp, hb⟩ := mem_filterMap.mp (mem_of_getLast? h)
  split at hb
  · next hc => exact mem_map.mpr ⟨p, hp, hc⟩
  · cases hb

/-- What the loop maps. -/
theorem resolveLoop_get? (h : resolveLoop dest paths claimed map = .ok m) :
    m.get? c = (lastOf dest paths c).or (map.get? c) := by
  induction paths generalizing claimed map with
  | nil =>
    cases h
    rfl
  | cons path rest ih =>
    rw [resolveLoop] at h
    split at h
    · next hnone =>
      rw [ih h, lastOf, lastOf, filterMap_cons_none]
      simp [hnone]
    · next dst hdst =>
      split at h
      · cases h
      · rw [ih h, get?_insert, lastOf, lastOf]
        by_cases hc : components path = c
        · rw [filterMap_cons_some (b := dst) (by rw [if_pos hc, hdst]), getLast?_cons,
            if_pos hc.symm]
          cases getLast? _ <;> rfl
        · rw [filterMap_cons_none (by rw [if_neg hc]), if_neg (Ne.symm hc)]

/-- The loop succeeds if the destinations differ. -/
theorem resolveLoop_ok_iff : (∃ m, resolveLoop dest paths claimed map = .ok m) ↔
    (∀ d ∈ paths.filterMap dest, claimed.get? (components d) = none) ∧
      ((paths.filterMap dest).map components).Nodup := by
  induction paths generalizing claimed map with
  | nil => simp [resolveLoop]
  | cons path rest ih =>
    rw [resolveLoop]
    cases hdst : dest path with
    | none => rw [filterMap_cons_none hdst, ih]
    | some dst =>
      rw [filterMap_cons_some hdst, forall_mem_cons, map_cons, nodup_cons]
      cases hclaimed : claimed.get? (components dst) with
      | some prev => simp [hclaimed]
      | none =>
        simp only [hclaimed, ih, get?_insert]
        constructor
        · rintro ⟨hfree, hnodup⟩
          have hne (d : Text) (hd : d ∈ rest.filterMap dest) : components d ≠ components dst := by
            intro heq
            have := hfree d hd
            rw [if_pos heq] at this
            cases this
          refine ⟨⟨trivial, fun d hd => ?_⟩, fun hmem => ?_, hnodup⟩
          · have hd' := hfree d hd
            rwa [if_neg (hne d hd)] at hd'
          · obtain ⟨d, hd, heq⟩ := mem_map.mp hmem
            exact hne d hd heq
        · rintro ⟨⟨-, hfree⟩, hnot, hnodup⟩
          refine ⟨fun d hd => ?_, hnodup⟩
          rw [if_neg fun heq => hnot (mem_map.mpr ⟨d, hd, heq⟩)]
          exact hfree d hd

end Last

/-- Without a transform, every file stays where it is. -/
theorem resolve_default : PathTransform.default.resolve glob src .empty =
    resolveLoop (fun p => some (pathToSlash p)) src.paths .empty .empty := by
  have hdest : PathTransform.default.destination .empty [] [] src =
      fun p => some (pathToSlash p) := by
    funext p
    rw [destination, get?_empty]
    cases src.packageRelative (pathToSlash p) <;> rfl
  rw [← hdest]
  rfl

/-! ### Two places -/

theorem components_below {a x y : Text} :
    components (a ++ '/' :: x) = components (a ++ '/' :: y) ↔
      normalSegments x = normalSegments y := by
  -- how the path begins is decided by what comes before the separator
  obtain ⟨first, hfirst⟩ : ∃ first : List Text, ∀ z : Text, components (a ++ '/' :: z) =
      first ++ ((a.splitOn '/').filter (fun s => s ≠ [] ∧ s ≠ ['.']) ++ normalSegments z) := by
    obtain ⟨r, k, hk⟩ := exists_cons_of_ne_nil (splitOn_ne_nil '/' a)
    refine ⟨if r = [] then [['/']] else if r = ['.'] then [['.']] else [], fun z => ?_⟩
    obtain ⟨s, l, hl⟩ := exists_cons_of_ne_nil (splitOn_ne_nil '/' z)
    rw [components, normalSegments, splitOn_append_cons_self, filter_append]
    congr 1
    obtain ⟨b, w, hbw⟩ : ∃ b w, k ++ s :: l = b :: w := exists_cons_of_ne_nil (by simp)
    rw [hk, hl, cons_append, hbw]
    by_cases hnil : r = []
    · rw [hnil]
      rfl
    by_cases hdot : r = ['.']
    · rw [hdot]
      rfl
    rw [if_neg hnil, if_neg hdot]
    split
    · next heq => exact absurd (cons.inj heq).1 hnil
    · next heq => exact absurd (cons.inj heq).1 hdot
    · rfl
  rw [hfirst, hfirst, append_cancel_left_eq, append_cancel_left_eq]

theorem meet_iff {a b : Placement} :
    components (t.pathOf a) = components (t.pathOf b) ↔ t.Meet a b := by
  cases a <;> cases b <;> try rfl
  rw [Meet, pathOf, pathOf, prefixed, prefixed]
  split
  · exact components_below
  · rfl

instance (a b : Placement) : Decidable (t.Meet a b) := decidable_of_iff _ meet_iff

end PathTransform

end Heph
