import Heph.Key.Bytes

/-!
# Running a group

A group that moves files has no files of its own. It presents each artifact of its dependencies
**under other paths**, as a view: the files are those of the artifact, and what their paths become
is decided by the transform, the package that has made the artifact, and the renames that have been
planned for all of the artifacts together. Support files are presented as they are.

The hashout of a view is not that of its files. It is made from the hashout of the artifact and the
transform.

What a file has besides its path – its bytes, and whether it is executable – is passed through, so
it is of any type here.
-/

namespace Heph

variable {α : Type}

/-! ### Views -/

/-- `inputartifact::Type`. -/
inductive InputArtifactType where
  | dep
  | support
  deriving DecidableEq, Repr

/-- `RunInput` of a group: an artifact of a dependency, with what a walk over it shows. -/
structure GroupInput (α : Type) where
  type : InputArtifactType
  sourceAddr : Addr
  hashout : Text
  entries : List (Text × α)
  deriving DecidableEq

/-- `dep_package`. -/
def GroupInput.depPackage (input : GroupInput α) : Option Text :=
  if input.sourceAddr.package.isEmpty then none else some input.sourceAddr.package

/-- `SourcePaths`, of an artifact. -/
def GroupInput.sourcePaths (input : GroupInput α) : SourcePaths :=
  ⟨input.depPackage, input.entries.map Prod.fst⟩

/-- `ViewContent`. -/
structure ViewContent (α : Type) where
  source : GroupInput α
  transform : PathTransform
  plan : RenamePlan

namespace ViewContent

variable (digest : List UInt8 → UInt64) (glob : Text → Option (Text → Bool))

/-- `mapping`. -/
def mapping (v : ViewContent α) : Except TransformError PathMapping :=
  v.transform.resolve glob v.source.sourcePaths v.plan

/-- The entries under their new paths. -/
def present (m : PathMapping) (entries : List (Text × α)) : List (Text × α) :=
  entries.filterMap fun e => (m.get? (components e.1)).map (·, e.2)

/-- `walk`. -/
def walk (v : ViewContent α) : Except TransformError (List (Text × α)) := do
  let m ← v.mapping glob
  return present m v.source.entries

/-- `entry_paths`. -/
def entryPaths (v : ViewContent α) : Except TransformError (List Text) := do
  let m ← v.mapping glob
  return m.values

/-- What is hashed for a view. -/
def hashBytes (v : ViewContent α) : List UInt8 :=
  Addr.utf8 "heph-view-v1\x00".toList ++
    (Addr.utf8 v.source.hashout ++ 0 :: v.transform.hashBytes)

/-- `hashout`: an artifact that has none gives a view without one. -/
def hashout (v : ViewContent α) : Text :=
  if v.source.hashout.isEmpty then [] else hexDigits (digest v.hashBytes)

end ViewContent

/-! ### The run -/

/-- `OutputArtifact` of a group. -/
structure ViewArtifact (α : Type) where
  group : Text
  name : Text
  type : ArtifactType
  hashout : Text
  view : ViewContent α

/-- The errors of a run, by what their texts show. -/
inductive GroupRunError where
  /-- `group driver run() must never be called for an aggregate group`. -/
  | aggregate
  /-- `group {addr}`. -/
  | plan (addr : Text) (e : TransformError)
  /-- `applying group {addr} transform to outputs of '{source_addr}'`. -/
  | transform (addr sourceAddr : Text) (e : TransformError)
  deriving DecidableEq

section Run

variable (digest : List UInt8 → UInt64) (glob : Text → Option (Text → Bool))

/-- The artifacts that the transform is about. -/
def groupDeps (inputs : List (GroupInput α)) : List (GroupInput α) :=
  inputs.filter fun i => i.type = .dep

/-- The view of an artifact: of a support file as it is, and of another one moved. -/
def viewOf (transform : PathTransform) (plan : RenamePlan) (input : GroupInput α) :
    ViewContent α :=
  match input.type with
  | .support => ⟨input, .default, .empty⟩
  | .dep => ⟨input, transform, plan⟩

/-- One artifact, the `i`-th. -/
def runInput (addr : Addr) (transform : PathTransform) (plan : RenamePlan)
    (input : GroupInput α × ℕ) : Except GroupRunError (ViewArtifact α) :=
  match input.1.type with
  | .support =>
    .ok ⟨[], "support_".toList ++ Nat.toDigits 10 input.2, .supportFile,
      (viewOf transform plan input.1).hashout digest, viewOf transform plan input.1⟩
  | .dep =>
    match (viewOf transform plan input.1).mapping glob with
    | .error e => .error (.transform addr.format input.1.sourceAddr.format e)
    | .ok _ =>
      .ok ⟨[], "view_".toList ++ Nat.toDigits 10 input.2, .output,
        (viewOf transform plan input.1).hashout digest, viewOf transform plan input.1⟩

/-- The plan, for all of the artifacts. -/
def runPlan (addr : Addr) (transform : PathTransform) (inputs : List (GroupInput α)) :
    Except GroupRunError RenamePlan :=
  match transform.plan glob ((groupDeps inputs).map (·.sourcePaths)) with
  | .error e => .error (.plan addr.format e)
  | .ok plan => .ok plan

/-- **`Driver::run` of a group.** -/
def runGroup (addr : Addr) (transform : PathTransform) (inputs : List (GroupInput α)) :
    Except GroupRunError (List (ViewArtifact α)) :=
  if transform.isIdentity then .error .aggregate
  else do
    let plan ← runPlan glob addr transform inputs
    inputs.zipIdx.mapM (runInput digest glob addr transform plan)

variable {digest glob} {addr : Addr} {transform : PathTransform} {plan : RenamePlan}
  {inputs : List (GroupInput α)} {arts : List (ViewArtifact α)}

/-- What becomes of one artifact. -/
theorem runInput_ok {input : GroupInput α × ℕ} {a : ViewArtifact α}
    (h : runInput digest glob addr transform plan input = .ok a) :
    a.view = viewOf transform plan input.1 ∧ a.hashout = a.view.hashout digest ∧
      (a.type = .output ↔ input.1.type = .dep) := by
  rw [runInput] at h
  cases htype : input.1.type with
  | support =>
    rw [htype] at h
    cases h
    simp
  | dep =>
    simp only [htype] at h
    split at h
    · exact nomatch h
    · cases h
      simp

/-- **What a run gives**: a plan, and by it a view of each of the artifacts. -/
theorem runGroup_ok (h : runGroup digest glob addr transform inputs = .ok arts) :
    transform.isIdentity = false ∧ ∃ plan, runPlan glob addr transform inputs = .ok plan ∧
      List.Forall₂ (fun input a => a.view = viewOf transform plan input ∧
        a.hashout = a.view.hashout digest ∧ (a.type = .output ↔ input.type = .dep))
        inputs arts := by
  rw [runGroup] at h
  split at h
  · exact nomatch h
  · next hid =>
    obtain ⟨plan, hplan, h⟩ := bind_ok.mp h
    refine ⟨by simpa using hid, plan, hplan, ?_⟩
    have hviews := (forall₂_of_mapM_ok h).imp fun input a => runInput_ok
    rw [← List.zipIdx_map_fst 0 inputs, List.forall₂_map_left_iff]
    exact hviews

end Run

/-! ### Small groups -/

/-- An artifact of one file. -/
def single (addr : Addr) (hashout path : Text) (v : α) : GroupInput α :=
  ⟨.dep, addr, hashout, [(path, v)]⟩

/-- A group that takes away the directory in which a package builds. -/
def stripBuild : PathTransform := ⟨[], [], some "build".toList, none, .none⟩

end Heph
