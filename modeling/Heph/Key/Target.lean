import Heph.Addr.Parse
import Heph.Group.Transform
import Heph.Matcher.Ladder

/-!
# Inputs, definitions and groups

A target names its inputs by **references**: the address of another target, one of the output
groups of that target or all of them, and filters on the paths. An input may count for the cache
key of the target that has it, be materialized when that runs, or both.

A group is a target that re-exports others. With a transform it is a target like others; without
one it is **transparent**, and its own inputs take its place wherever it is an input. Its
definition has a hash like every other, but nobody is there to fold it.
-/

namespace Heph

/-! ### References -/

/-- `TargetAddr`. -/
structure TargetAddr where
  ref : Addr
  output : Option Text
  filters : List Text
  deriving DecidableEq

/-- The errors of `TargetAddr::parse`, by what their texts show. -/
inductive TargetAddrError where
  /-- `unclosed '[' in target addr: {v}`. -/
  | unclosed (v : Text)
  | addr (e : AddrError)
  /-- `invalid address`. -/
  | invalid
  deriving DecidableEq

namespace TargetAddr

/-- The loop of `split_filters`, with the depth of the braces, the current filter and the ones
before. -/
def splitFiltersLoop : ℕ → Text → List Text → Text → List Text
  | _, cur, out, [] => out ++ [cur]
  | depth, cur, out, c :: rest =>
    if c = '\x7b' then splitFiltersLoop (depth + 1) (cur ++ [c]) out rest
    else if c = '\x7d' then splitFiltersLoop (depth - 1) (cur ++ [c]) out rest
    else if c = ',' ∧ depth = 0 then splitFiltersLoop depth [] (out ++ [cur]) rest
    else splitFiltersLoop depth (cur ++ [c]) out rest

/-- `split_filters`. -/
def splitFilters (rest : Text) : List Text :=
  if rest.isEmpty then [] else splitFiltersLoop 0 [] [] rest

/-- The address and the filters, which are in brackets at the end. -/
def splitBrackets (v : Text) : Except TargetAddrError (Text × List Text) :=
  if '[' ∈ v then
    let rest := (v.reverse.takeWhile (· != '[')).reverse
    if rest.getLast? = some ']' then
      .ok (((v.reverse.dropWhile (· != '[')).drop 1).reverse, splitFilters rest.dropLast)
    else .error (.unclosed v)
  else .ok (v, [])

/-- `parse_addr_with_base`, with its error. -/
def parseRef (v : Text) (base : PkgBuf) : Except TargetAddrError Addr :=
  match parseAddrWithBase v base with
  | .error e => .error (.addr e)
  | .ok a => .ok a

/-- `TargetAddr::parse`. -/
def parse (v : Text) (base : PkgBuf) : Except TargetAddrError TargetAddr := do
  let (v, filters) ← splitBrackets v
  match v.splitOn '|' with
  | [v] => return ⟨← parseRef v base, none, filters⟩
  | [a, out] => return ⟨← parseRef a base, some out, filters⟩
  | _ => .error .invalid

end TargetAddr

/-! ### Definitions -/

/-- `InputMode`. -/
inductive InputMode where
  | standard
  | link
  | tool
  deriving DecidableEq, Repr

/-- `Input`. -/
structure Input where
  ref : TargetAddr
  mode : InputMode
  originId : Text
  annotations : SortedMap Text Text
  /-- The input counts for the cache key. -/
  hashed : Bool
  /-- The input is materialized. -/
  runtime : Bool
  deriving DecidableEq

namespace Key

/-- `Output`, as far as it is linked. -/
structure Output where
  group : Text
  paths : List Path
  deriving DecidableEq

/-- `TargetDef`, as far as it is expanded, linked and hashed. -/
structure TargetDef where
  addr : Addr
  inputs : List Input
  outputs : List Output
  /-- The target is invoked and not built. -/
  entrypoint : Bool
  hash : List UInt8
  transparent : Bool
  deriving DecidableEq

/-- `output_names`: the groups, each of them once. -/
def TargetDef.outputNames (d : TargetDef) : List Text := (d.outputs.map (·.group)).eraseDups

/-- `ExtendedTargetDef`: a definition, and the driver that has made it. -/
structure ExtendedTargetDef where
  targetDef : TargetDef
  driver : Text
  deriving DecidableEq

end Key

/-! ### Hashing a transform -/

/-- `u64::to_ne_bytes`, for a machine that puts the low bytes first. -/
def bytesOfNat (n : ℕ) : List UInt8 := (List.range 8).map fun i => UInt8.ofNat (n / 256 ^ i)

/-- `Hash for str`. -/
def strBytes (s : Text) : List UInt8 := Addr.utf8 s ++ [0xff]

/-- `Hash for Vec<String>`. -/
def strsBytes (l : List Text) : List UInt8 := bytesOfNat l.length ++ l.flatMap strBytes

/-- `Hash for Option<String>`. -/
def optBytes : Option Text → List UInt8
  | none => bytesOfNat 0
  | some s => bytesOfNat 1 ++ strBytes s

/-- `Hash for Rename`. -/
def Rename.hashBytes : Rename → List UInt8
  | none => bytesOfNat 0
  | sole dst => bytesOfNat 1 ++ strBytes dst
  | exact map =>
    bytesOfNat 2 ++ (bytesOfNat map.entries.length ++
      map.entries.flatMap fun e => strBytes e.1 ++ strBytes e.2)

/-- `Hash for PathTransform`. -/
def PathTransform.hashBytes (t : PathTransform) : List UInt8 :=
  strsBytes t.includes ++ (strsBytes t.excludes ++ (optBytes t.stripPrefix ++
    (optBytes t.withPrefix ++ t.rename.hashBytes)))

/-- A digest as `{:016x}`. -/
def hex16 (d : UInt64) : Text :=
  let digits := Nat.toDigits 16 d.toNat
  List.replicate (16 - digits.length) '0' ++ digits

/-! ### Groups -/

/-- `GroupSpec`, as far as it is parsed. -/
structure GroupSpec where
  deps : List Text
  transform : PathTransform
  deriving DecidableEq

/-- The errors of a group, by what their texts show. -/
inductive GroupError where
  /-- ``a string `rename` sets the destination outright``. -/
  | deadPrefixes
  /-- `parsing group dep '{addr_str}'`. -/
  | dep (addrStr : Text) (e : TargetAddrError)
  deriving DecidableEq

namespace GroupSpec

/-- An input for a dependency of the group, the `i`-th. -/
def input (pkg : PkgBuf) (addrStr : Text) (i : ℕ) : Except GroupError Input :=
  match TargetAddr.parse addrStr pkg with
  | .error e => .error (.dep addrStr e)
  | .ok ref =>
    .ok ⟨ref, .standard, "group:".toList ++ Nat.toDigits 10 i, .empty, true, true⟩

/-- What is hashed for the definition of the group. -/
def hashBytes (s : GroupSpec) (addr : Addr) : List UInt8 :=
  Addr.utf8 addr.format ++ (s.deps.flatMap Addr.utf8 ++
    if s.transform.isIdentity then []
    else 0 :: (Addr.utf8 "group-transform-v1".toList ++ 0 :: s.transform.hashBytes))

/-- What a group declares to emit: what its transform includes. -/
def outputs (s : GroupSpec) : List Key.Output :=
  if s.transform.isIdentity then []
  else
    let patterns := if s.transform.includes.isEmpty then ["**".toList] else s.transform.includes
    [⟨[], patterns.map fun p => ⟨.glob p, .none⟩⟩]

/-- `Driver::parse` of a group. -/
def parse (digest : List UInt8 → UInt64) (s : GroupSpec) (addr : Addr) :
    Except GroupError Key.TargetDef :=
  if s.transform.prefixesAreDeadConfig then .error .deadPrefixes
  else
    match s.deps.zipIdx.mapM fun d => input addr.package d.1 d.2 with
    | .error e => .error e
    | .ok inputs =>
      .ok ⟨addr, inputs, s.outputs, false, Addr.utf8 (hex16 (digest (s.hashBytes addr))),
        s.transform.isIdentity⟩

end GroupSpec

end Heph
