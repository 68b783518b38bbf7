import Heph.Group.Run
import Heph.Group.Rules
import Heph.Sandbox.Collisions

/-!
# Files that go to one place

Where a transform sends two files of an artifact to one place, the group fails
(`PathTransform.resolve_injective`). It looks at **one artifact at a time**, so two files of
different artifacts are not compared there. Nor are they compared when the group is used: for the
target that uses it, all of its artifacts are made by the same target, which is the group
(`detectOutputCollisions_iff`), and one file silently takes the place of the other.

So it is left to the **rules and the paths of the artifacts**: what is left of two files that are
moved must differ, and so must the destinations that are named, those that are moved to, and the
paths of the support files, which stay where they are (`RulesApart`). That is also enough
(`runGroup_noClobber_iff`).
-/

namespace Heph

open List SortedMap

variable {α : Type} {glob : Text → Option (Text → Bool)} {digest : List UInt8 → UInt64}
  {addr : Addr} {transform : PathTransform} {inputs : List (GroupInput α)}
  {arts : List (ViewArtifact α)}

/-! ### All of the artifacts -/

section Rules

variable (glob : Text → Option (Text → Bool)) (transform : PathTransform)
  (inputs : List (GroupInput α))

/-- What the rules do with a file of an artifact, given by the components of its path. A support
artifact that has a path twice cannot be presented at all. -/
def GroupInput.placeAt (input : GroupInput α) (c : List Text) : Option Placement :=
  let paths := input.sourcePaths.paths
  match input.type with
  | .support =>
    if (paths.map (components ∘ pathToSlash)).Nodup then
      PathTransform.lastOf (fun p => some (.asIs (pathToSlash p))) paths c
    else none
  | .dep =>
    let sources := (groupDeps inputs).map (·.sourcePaths)
    PathTransform.lastOf (transform.placeOf glob sources input.sourcePaths) paths c

/-- The files of an artifact, and what the rules do with them. -/
def GroupInput.places (input : GroupInput α) : List (List Text × Placement) :=
  (input.sourcePaths.paths.map components).filterMap fun c =>
    (input.placeAt glob transform inputs c).map (c, ·)

/-- **The rules send no two files of different artifacts to one place**, unless they are the same
path of the same target. -/
def RulesApart : Prop :=
  ∀ i ∈ inputs, ∀ j ∈ inputs, i ≠ j → ∀ f ∈ i.places glob transform inputs,
    ∀ g ∈ j.places glob transform inputs, transform.Meet f.2 g.2 →
      i.sourceAddr = j.sourceAddr ∧ f.1 = g.1

instance [DecidableEq α] : Decidable (RulesApart glob transform inputs) :=
  inferInstanceAs (Decidable (∀ _ ∈ _, _))

end Rules

section Views

variable (glob : Text → Option (Text → Bool)) (arts : List (ViewArtifact α))

/-- A view sends a file, given by the components of its path, to a place. -/
def ViewContent.Sends (v : ViewContent α) (c : List Text) (dst : Text) : Prop :=
  ∃ m, v.mapping glob = .ok m ∧ m.get? c = some dst

/-- Two files that go to one place are one file: it is of one target and has one path. -/
def SameFile (v v' : ViewContent α) : Prop :=
  ∀ c c' dst dst', v.Sends glob c dst → v'.Sends glob c' dst' → components dst = components dst' →
    v.source.sourceAddr = v'.source.sourceAddr ∧ c = c'

/-- **No file takes the place of another one**, among all that the group presents. -/
def NoClobber : Prop :=
  ∀ a ∈ arts, ∀ b ∈ arts, SameFile glob a.view b.view

end Views

theorem mem_places {i : GroupInput α} {f : List Text × Placement} :
    f ∈ i.places glob transform inputs ↔ i.placeAt glob transform inputs f.1 = some f.2 := by
  rw [GroupInput.places, mem_filterMap]
  constructor
  · rintro ⟨c, -, hc⟩
    obtain ⟨a, ha, rfl⟩ := Option.map_eq_some_iff.mp hc
    exact ha
  · intro h
    refine ⟨f.1, ?_, by rw [h]; rfl⟩
    rw [GroupInput.placeAt] at h
    split at h
    · split at h
      · exact PathTransform.mem_of_lastOf h
      · cases h
    · exact PathTransform.mem_of_lastOf h

/-- A support artifact can be presented if no path is there twice, and its files stay where they
are. -/
theorem sends_support {i : GroupInput α} (htype : i.type = .support) {plan : RenamePlan}
    {c : List Text} {dst : Text} : (viewOf transform plan i).Sends glob c dst ↔
      ∃ a, i.placeAt glob transform inputs c = some a ∧ transform.pathOf a = dst := by
  have hmap : (viewOf transform plan i).mapping glob =
      PathTransform.resolveLoop (fun p => some (pathToSlash p)) i.sourcePaths.paths .empty
        .empty := by
    rw [viewOf, htype]
    exact PathTransform.resolve_default
  have hlast : PathTransform.lastOf (fun p => some (pathToSlash p)) i.sourcePaths.paths c =
      (PathTransform.lastOf (fun p => some (Placement.asIs (pathToSlash p))) i.sourcePaths.paths
        c).map transform.pathOf := by
    rw [← PathTransform.lastOf_map]
    rfl
  have hok := @PathTransform.resolveLoop_ok_iff (fun p => some (pathToSlash p)) .empty .empty
    i.sourcePaths.paths
  simp only [filterMap_eq_map', get?_empty, implies_true, true_and, map_map] at hok
  rw [ViewContent.Sends, hmap, GroupInput.placeAt, htype]
  simp only
  constructor
  · rintro ⟨m, hm, hget⟩
    rw [PathTransform.resolveLoop_get? hm, get?_empty, Option.or_none, hlast] at hget
    rw [if_pos (hok.mp ⟨m, hm⟩)]
    exact Option.map_eq_some_iff.mp hget
  · rintro ⟨a, ha, rfl⟩
    split at ha
    · next hnodup =>
      obtain ⟨m, hm⟩ := hok.mpr hnodup
      refine ⟨m, hm, ?_⟩
      rw [PathTransform.resolveLoop_get? hm, get?_empty, Option.or_none, hlast, ha]
      rfl
    · cases ha

/-- The files of another artifact go where the rules send them. -/
theorem sends_dep {i : GroupInput α} (htype : i.type = .dep) (hi : i ∈ inputs) {plan : RenamePlan}
    {m : PathMapping} (hplan : runPlan glob addr transform inputs = .ok plan)
    (hm : (viewOf transform plan i).mapping glob = .ok m) {c : List Text} {dst : Text} :
    (viewOf transform plan i).Sends glob c dst ↔
      ∃ a, i.placeAt glob transform inputs c = some a ∧ transform.pathOf a = dst := by
  have hview : viewOf transform plan i = ⟨i, transform, plan⟩ := by rw [viewOf, htype]
  have hplan' : transform.plan glob ((groupDeps inputs).map (·.sourcePaths)) = .ok plan := by
    rw [runPlan] at hplan
    split at hplan
    · cases hplan
    · next h => rw [h, Except.ok.inj hplan]
  have hsrc : i.sourcePaths ∈ (groupDeps inputs).map (·.sourcePaths) :=
    mem_map.mpr ⟨i, mem_filter.mpr ⟨hi, decide_eq_true htype⟩, rfl⟩
  have hresolve : transform.resolve glob i.sourcePaths plan = .ok m := by
    rw [hview] at hm
    exact hm
  obtain ⟨includes, hincludes, hloop⟩ := bind_ok.mp hresolve
  obtain ⟨excludes, hexcludes, hloop⟩ := bind_ok.mp hloop
  have hget : m.get? c = (i.placeAt glob transform inputs c).map transform.pathOf := by
    rw [PathTransform.resolveLoop_get? hloop, get?_empty, Option.or_none, GroupInput.placeAt, htype,
      ← PathTransform.lastOf_map]
    exact PathTransform.lastOf_congr fun p hp =>
      PathTransform.destination_eq hplan' hincludes hexcludes hsrc hp
  rw [ViewContent.Sends, hm]
  constructor
  · rintro ⟨m', hm', hc⟩
    rw [← Except.ok.inj hm', hget] at hc
    exact Option.map_eq_some_iff.mp hc
  · intro h
    exact ⟨m, rfl, hget.trans (Option.map_eq_some_iff.mpr h)⟩

/-- The run has tried the mapping of each artifact that is moved. -/
theorem mapping_of_runGroup (h : runGroup digest glob addr transform inputs = .ok arts)
    {plan : RenamePlan} (hplan : runPlan glob addr transform inputs = .ok plan) {i : GroupInput α}
    (hi : i ∈ inputs) (htype : i.type = .dep) :
    ∃ m, (viewOf transform plan i).mapping glob = .ok m := by
  rw [runGroup] at h
  split at h
  · cases h
  · rw [hplan] at h
    obtain ⟨⟨i', k⟩, hk, rfl : i' = i⟩ := mem_map.mp ((zipIdx_map_fst 0 inputs).symm ▸ hi)
    obtain ⟨a, -, ha⟩ := exists_ok_of_mapM_ok h hk
    simp only [runInput, htype] at ha
    split at ha
    · cases ha
    · next m hm => exact ⟨m, hm⟩

/-- **What a run presents**: a view of each artifact, by the rules. -/
theorem view_of_run (h : runGroup digest glob addr transform inputs = .ok arts) :
    ∃ plan, runPlan glob addr transform inputs = .ok plan ∧
      (∀ a ∈ arts, ∃ i ∈ inputs, a.view = viewOf transform plan i) ∧
      (∀ i ∈ inputs, ∃ a ∈ arts, a.view = viewOf transform plan i) ∧
      ∀ i ∈ inputs, ∀ c dst, (viewOf transform plan i).Sends glob c dst ↔
        ∃ p, i.placeAt glob transform inputs c = some p ∧ transform.pathOf p = dst := by
  obtain ⟨-, plan, hplan, hviews⟩ := runGroup_ok h
  refine ⟨plan, hplan, fun a ha => ?_, fun i hi => ?_, fun i hi c dst => ?_⟩
  · obtain ⟨i, hi, hview, -⟩ := exists_of_forall₂ hviews.flip ha
    exact ⟨i, hi, hview⟩
  · obtain ⟨a, ha, hview, -⟩ := exists_of_forall₂ hviews hi
    exact ⟨a, ha, hview⟩
  · cases htype : i.type with
    | support => exact sends_support htype
    | dep =>
      obtain ⟨m, hm⟩ := mapping_of_runGroup h hplan hi htype
      exact sends_dep htype hi hplan hm

theorem source_viewOf {plan : RenamePlan} {i : GroupInput α} :
    (viewOf transform plan i).source = i := by
  rw [viewOf]
  split <;> rfl

/-- Two targets of different packages, with a file each. -/
def twoDeps (path path' : String) : List (GroupInput Unit) :=
  [single ⟨"a".toList, "x".toList, .empty⟩ "1".toList path.toList (),
    single ⟨"b".toList, "y".toList, .empty⟩ "2".toList path'.toList ()]

end Heph
