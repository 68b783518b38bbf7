import Heph.Lib.Traverse
import Heph.Key.Target

/-!
# Expanding the inputs of a target

The inputs that a target declares are expanded before anything is done with them: a transparent
input is replaced by the inputs of its definition, and so on, until none is transparent. An input
that takes the place of a group is **routed as the group was**: it has the origin, the mode and the
flags of the reference to the outermost group, and its annotations where it has none of its own.
What it refers to – the target, the output group, the filters – is its own.

The groups that are open are remembered, so that a group inside itself is found, and since there
are only so many targets the expansion comes to an end.
-/

namespace Heph

open List Key

/-- The type of an artifact. -/
inductive ArtifactType where
  | output
  | log
  | supportFile
  deriving DecidableEq, Repr

/-- `ManifestArtifact`, as far as it is hashed and selected. -/
structure Artifact where
  type : ArtifactType
  group : Text
  hashout : Text
  deriving DecidableEq, Repr

/-- What goes wrong on the way to a cache key, by what the texts show. -/
inductive KeyError where
  /-- The definition of a target cannot be had. -/
  | noDef (a : Addr)
  /-- `EntrypointAsInput`. -/
  | entrypointAsInput (entrypoint : Addr) (originId : Text) (consumer : Option Addr)
  /-- `circular group dependency at '{addr}'`. -/
  | circularGroup (addr : Text)
  /-- `Output '{output}' not found in target '{target}'`. -/
  | outputNotFound (output : Text) (target : Addr)
  /-- `tool target '{target}' output '{group}' must produce exactly 1 FilePath, found {count}`. -/
  | toolOutput (target : Addr) (group : Text) (count : ℕ)
  /-- An input of the target has failed. -/
  | inputFailed (a : Addr)
  deriving DecidableEq

/-- The state of a workspace: the definitions of its targets, and what each of them produces when
it is built – nothing, if it fails. -/
structure Workspace where
  targets : List ExtendedTargetDef
  artifacts : Addr → Option (List Artifact)

/-- `ParentOverride`: how the group was referred to that is being expanded. -/
structure ParentOverride where
  originId : Text
  mode : InputMode
  annotations : SortedMap Text Text
  hashed : Bool
  runtime : Bool

/-- The annotations of the parent, overridden by those of the child. -/
def mergeAnnotations (parent child : SortedMap Text Text) : SortedMap Text Text :=
  child.entries.foldl (fun m e => m.insert e.1 e.2) parent

/-- How the inputs of a group are routed that is itself an input. -/
def ParentOverride.effective (input : Input) : Option ParentOverride → ParentOverride
  | some p => { p with annotations := mergeAnnotations p.annotations input.annotations }
  | none => ⟨input.originId, input.mode, input.annotations, input.hashed, input.runtime⟩

/-- The input, as it is routed. -/
def Input.route (input : Input) : Option ParentOverride → Input
  | some p =>
    ⟨input.ref, p.mode, p.originId, mergeAnnotations p.annotations input.annotations, p.hashed,
      p.runtime⟩
  | none => input

namespace Workspace

variable (w : Workspace)

/-- The definition of a target, if there is one. -/
def find (a : Addr) : Option ExtendedTargetDef := w.targets.find? fun t => t.targetDef.addr = a

/-- `get_def`. -/
def getDef (a : Addr) : Except KeyError ExtendedTargetDef :=
  match w.find a with
  | none => .error (.noDef a)
  | some t => .ok t

/-- The targets that are not open. -/
def unvisited (visited : List Text) : List ExtendedTargetDef :=
  w.targets.filter fun t => !visited.contains t.targetDef.addr.format

variable {w} {t : ExtendedTargetDef} {visited : List Text}

theorem mem_of_find {a : Addr} (h : w.find a = some t) :
    t ∈ w.targets ∧ t.targetDef.addr = a :=
  ⟨mem_of_find?_eq_some h, by simpa using find?_some h⟩

/-- There is one target less to open, once one is. -/
theorem unvisited_lt {a : Addr}
    (h : w.find a = some t) (hv : ¬ visited.contains a.format = true) :
    (w.unvisited (a.format :: visited)).length < (w.unvisited visited).length := by
  obtain ⟨hmem, rfl⟩ := mem_of_find h
  have hsub : w.unvisited (t.targetDef.addr.format :: visited) =
      (w.unvisited visited).filter fun u => u.targetDef.addr.format ≠ t.targetDef.addr.format := by
    rw [unvisited, unvisited]
    simp
  rw [hsub]
  refine length_filter_lt_length_iff_exists.mpr ⟨t, ?_, by simp⟩
  exact mem_filter.mpr ⟨hmem, by simpa using hv⟩

variable (w) {parent : Option ParentOverride} {i : Input} {inputs l : List Input}

/-- `expand_inputs`: the inputs, with those of a group in its place. -/
def expandInputs (inputs : List Input) (parent : Option ParentOverride) (visited : List Text) :
    Except KeyError (List Input) := do
  let parts ← inputs.mapM fun input =>
    match _ : w.find input.ref.ref with
    | none => .error (.noDef input.ref.ref)
    | some t =>
      if t.targetDef.entrypoint then
        .error (.entrypointAsInput input.ref.ref input.originId none)
      else if t.targetDef.transparent then
        if _ : visited.contains input.ref.ref.format then
          .error (.circularGroup input.ref.ref.format)
        else
          expandInputs t.targetDef.inputs (some (.effective input parent))
            (input.ref.ref.format :: visited)
      else .ok [input.route parent]
  return parts.flatten
termination_by (w.unvisited visited).length
decreasing_by exact unvisited_lt ‹_› ‹_›

/-- What the input of a group is replaced by. -/
def expandInput (parent : Option ParentOverride) (visited : List Text) (input : Input) :
    Except KeyError (List Input) :=
  match w.find input.ref.ref with
  | none => .error (.noDef input.ref.ref)
  | some t =>
    if t.targetDef.entrypoint then .error (.entrypointAsInput input.ref.ref input.originId none)
    else if t.targetDef.transparent then
      if visited.contains input.ref.ref.format then .error (.circularGroup input.ref.ref.format)
      else
        w.expandInputs t.targetDef.inputs (some (.effective input parent))
          (input.ref.ref.format :: visited)
    else .ok [input.route parent]

theorem expandInputs_eq (inputs : List Input) (parent : Option ParentOverride)
    (visited : List Text) :
    w.expandInputs inputs parent visited = (do
      let parts ← inputs.mapM (w.expandInput parent visited)
      return parts.flatten) := by
  rw [expandInputs]
  congr 2
  funext input
  rw [expandInput]
  split
  · next h => rw [h]
  · next t h => rw [h]; rfl

/-- `name_consumer`: whose input the entrypoint is. -/
def nameConsumer (a : Addr) : KeyError → KeyError
  | .entrypointAsInput e o none => .entrypointAsInput e o (some a)
  | e => e

/-- `expanded_inputs_for`. -/
def expandedInputsFor (a : Addr) : Except KeyError (List Input) := do
  let d ← w.getDef a
  match w.expandInputs d.targetDef.inputs none [] with
  | .error e => .error (nameConsumer a e)
  | .ok inputs => .ok inputs

end Workspace

end Heph
