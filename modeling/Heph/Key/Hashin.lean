import Heph.Key.Expand

/-!
# The cache key, and what it is the key of

Two things are done with the expanded inputs of a target. For the **key** of the target, the
hashouts of everything that the hashed inputs produce are sorted and hashed, together with the
name of the driver and the hash of the definition. For its **run**, the runtime inputs are linked
to the output groups that they select, and the artifacts of these groups are materialized through
the filters of the input.
-/

namespace Heph

/-! ### The key -/

/-- What `hashin` writes to the hasher. -/
def hashinBytes (driver : Text) (hash : List UInt8) (hashouts : List Text) : List UInt8 :=
  Addr.utf8 driver ++ 0 :: (hash ++ hashouts.flatMap Addr.utf8)

/-- `hashin`, for a streaming hash function of 64 bits. -/
def hashin (digest : List UInt8 → UInt64) (d : Key.ExtendedTargetDef) (hashouts : List Text) :
    Text :=
  Nat.toDigits 16 (digest (hashinBytes d.driver d.targetDef.hash hashouts)).toNat

namespace Workspace

variable (w : Workspace)

/-- The `artifacts_meta` of a target: the hashouts of all of its outputs and support files,
whichever of them are asked for. -/
def resultMeta (a : Addr) : Except KeyError (List Text) :=
  match w.artifacts a with
  | none => .error (.inputFailed a)
  | some arts => .ok ((arts.filter fun x => x.type ≠ .log).map (·.hashout))

/-- The hashouts that `inner_meta` feeds to `hashin`: those of `inputs_result_meta`, sorted. -/
def hashouts (a : Addr) : Except KeyError (List Text) := do
  let inputs ← w.expandedInputsFor a
  let results ← (inputs.filter (·.hashed)).mapM fun i => w.resultMeta i.ref.ref
  return results.flatten.insertionSort (· ≤ ·)

/-- `inner_meta`. -/
def innerMeta (digest : List UInt8 → UInt64) (a : Addr) : Except KeyError Text := do
  let d ← w.getDef a
  let hs ← w.hashouts a
  return hashin digest d hs

end Workspace

/-! ### The run -/

/-- `LinkedTargetDefInput`. -/
structure LinkedInput where
  target : Key.TargetDef
  outputNames : List Text
  originId : Text
  filters : List Text
  annotations : SortedMap Text Text

/-- The output groups that an input selects. -/
def Input.outputNames (input : Input) (d : Key.TargetDef) : Except KeyError (List Text) :=
  match input.ref.output with
  | none => .ok d.outputNames
  | some out =>
    if d.outputs.any fun o => o.group = out then .ok [out]
    else .error (.outputNotFound out input.ref.ref)

/-- The number of files that an output declares by their paths. -/
def Key.Output.fileCount (o : Key.Output) : ℕ :=
  o.paths.countP fun p =>
    match p.content with
    | .filePath _ => true
    | _ => false

/-- A selected output of a tool that is not a single file. -/
def Input.badToolOutput (input : Input) (d : Key.TargetDef) (names : List Text) :
    Option Key.Output :=
  if input.mode = .tool then
    (d.outputs.filter fun o => names.contains o.group).find? fun o => o.fileCount ≠ 1
  else none

namespace Workspace

variable (w : Workspace)

/-- The input is linked to its definition. -/
def linkInput (input : Input) : Except KeyError LinkedInput := do
  let d ← w.getDef input.ref.ref
  let names ← input.outputNames d.targetDef
  match input.badToolOutput d.targetDef names with
  | some o => .error (.toolOutput input.ref.ref o.group o.fileCount)
  | none =>
    .ok ⟨d.targetDef, names, input.originId, input.ref.filters, input.annotations⟩

/-- An artifact that a target reads: the group of its producer that it is in, its hashout, and
the filters through which it is read. -/
structure Selection where
  group : Text
  hashout : Text
  filters : List Text
  deriving DecidableEq

/-- The artifacts of a linked input, with the origin that they are routed by
(`inputs_result_exec`). -/
def select (input : LinkedInput) : Except KeyError (List (Text × Selection)) :=
  match w.artifacts input.target.addr with
  | none => .error (.inputFailed input.target.addr)
  | some arts =>
    .ok ((arts.filter fun x => x.type = .output && input.outputNames.contains x.group).map
      fun x => (input.originId, ⟨x.group, x.hashout, input.filters⟩))

/-- `link`, for the inputs that count for the key and are materialized. -/
def linkedHashed (a : Addr) : Except KeyError (List LinkedInput) := do
  let inputs ← w.expandedInputsFor a
  (inputs.filter fun i => i.hashed && i.runtime).mapM w.linkInput

/-- What a target reads through the inputs that count for its key. -/
def selected (a : Addr) : Except KeyError (List (Text × Selection)) := do
  let linked ← w.linkedHashed a
  let parts ← linked.mapM w.select
  return parts.flatten

end Workspace

end Heph
