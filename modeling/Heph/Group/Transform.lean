import Heph.Addr.Addr

/-!
# Rewriting paths

A group may keep a subset of the files of its dependencies and put them elsewhere. What it does
is a **transform**: patterns that a path must and must not match, a leading directory that is
taken away, one that is prepended, and a rename of single files. The transform is applied to one
artifact at a time (`PathTransform.resolve`), with the exception of the rename: which file
that is about is a question about all of the artifacts, and answered before
(`PathTransform.plan`).

A path that a user writes may be the one that the dependency emits, or the one that the package
of the dependency would write for it.

The patterns are those of a library of globs, of which nothing is assumed: a pattern may be
refused, and one that is not decides for every path whether it matches.
-/

namespace Heph

/-! ### Paths -/

/-- The components of a path. Two paths are compared by them: an empty segment does not count,
nor does one that is `.`, but for the first. -/
def components (p : Text) : List Text :=
  let segments := p.splitOn '/'
  let first : List Text :=
    match segments with
    | [] :: _ :: _ => [['/']]
    | ['.'] :: _ => [['.']]
    | _ => []
  first ++ segments.filter fun s => s ≠ [] ∧ s ≠ ['.']

/-- `path_to_slash`. -/
def pathToSlash (p : Text) : Text := p.map fun c => if c = '\\' then '/' else c

/-- `strip_dir_prefix`: what is below the directory. -/
def stripDirPrefix (path dir : Text) : Option Text :=
  if dir.isEmpty then some path
  else
    match path.dropPrefix? dir with
    | some ('/' :: rest) => some rest
    | _ => none

/-- `str::trim_end_matches('/')`. -/
def trimEndSlashes (s : Text) : Text := s.rdropWhile (· == '/')

/-! ### Transforms -/

/-- `Rename`. -/
inductive Rename where
  | none
  /-- The destination of the one file that is left. -/
  | sole (dst : Text)
  /-- The destinations of files that are named. -/
  | exact (map : SortedMap Text Text)
  deriving DecidableEq

/-- `PathTransform`. -/
structure PathTransform where
  includes : List Text
  excludes : List Text
  stripPrefix : Option Text
  withPrefix : Option Text
  rename : Rename
  deriving DecidableEq

/-- `SourcePaths`: the files of an artifact, and the package that has made it. -/
structure SourcePaths where
  package : Option Text
  paths : List Text
  deriving DecidableEq

/-- `RenamePlan`: where the files go that are renamed. -/
abbrev RenamePlan := SortedMap Text Text

/-- `PathMapping`: the files that are kept, by their components, and where they go. -/
abbrev PathMapping := SortedMap (List Text) Text

/-- The errors of a transform, by what their texts show. -/
inductive TransformError where
  /-- `invalid glob pattern '{p}'`. -/
  | invalidGlob (p : Text)
  /-- `path collision: '{prev}' and '{full}' both map to '{dst}'`. -/
  | collision (prev full dst : Text)
  /-- `'rename' has nothing to rename`, and the paths that there are. -/
  | nothingToRename (all : List Text)
  /-- `'rename' is a single destination but {n} outputs are selected ({many})`. -/
  | manyToRename (many : List Text)
  /-- `'rename' key '{key}' matched no output path`, and the paths that there are. -/
  | keyMatchedNothing (key dst : Text) (all : List Text)
  /-- `'strip_prefix' '{sp}' matched no output path`, and the paths that there are. -/
  | stripPrefixMatchedNothing (sp : Text) (all : List Text)
  deriving DecidableEq

/-- `SourcePaths::package_relative`: the path as its package would write it. -/
def SourcePaths.packageRelative (src : SourcePaths) (full : Text) : Option Text :=
  match src.package with
  | none => none
  | some package =>
    let pkg := (trimEndSlashes package).dropWhile (· == '/')
    if pkg.isEmpty then none else stripDirPrefix full pkg

/-- `matches_either`: a pattern may be about the path either way. -/
def matchesEither (globs : List (Text → Bool)) (full : Text) (rel : Option Text) : Bool :=
  globs.any (fun g => g full) || rel.any fun r => globs.any fun g => g r

namespace PathTransform

/-- The transform that is not given. -/
def default : PathTransform := ⟨[], [], none, none, .none⟩

/-- `is_identity`. -/
def isIdentity (t : PathTransform) : Bool :=
  t.includes.isEmpty && t.excludes.isEmpty && t.stripPrefix.isNone && t.withPrefix.isNone &&
    t.rename = .none

/-- `prefixes_are_dead_config`. -/
def prefixesAreDeadConfig (t : PathTransform) : Bool :=
  match t.rename with
  | .sole _ => t.stripPrefix.isSome || t.withPrefix.isSome
  | _ => false

/-- `survives`. -/
def survives (includes excludes : List (Text → Bool)) (full : Text) (rel : Option Text) : Bool :=
  (includes.isEmpty || matchesEither includes full rel) && !matchesEither excludes full rel

/-- `strip`. -/
def strip (t : PathTransform) (full : Text) (rel : Option Text) : Text :=
  match t.stripPrefix with
  | none => full
  | some sp =>
    let sp := trimEndSlashes sp
    match stripDirPrefix full sp with
    | some stripped => stripped
    | none => (rel.bind fun rel => stripDirPrefix rel sp).getD full

/-- Where a file goes that is not renamed. -/
def relocate (t : PathTransform) (full : Text) (rel : Option Text) : Text :=
  match t.withPrefix with
  | some p => trimEndSlashes p ++ '/' :: t.strip full rel
  | none => t.strip full rel

-- `wax::Glob::new` and `is_match`
variable (glob : Text → Option (Text → Bool))

/-- `compile`. -/
def compile (patterns : List Text) : Except TransformError (List (Text → Bool)) :=
  patterns.mapM fun p =>
    match glob p with
    | none => .error (.invalidGlob p)
    | some g => .ok g

/-! ### The plan -/

/-- The files of an artifact that survive. -/
def survivors (includes excludes : List (Text → Bool)) (src : SourcePaths) : List Text :=
  (src.paths.map pathToSlash).filter fun full =>
    survives includes excludes full (src.packageRelative full)

/-- The part of `plan` that is about the rename. -/
def planRename (t : PathTransform) (sources : List SourcePaths) (all : List Text) :
    Except TransformError RenamePlan :=
  match t.rename with
  | .none => .ok .empty
  | .sole dst => do
    let includes ← compile glob t.includes
    let excludes ← compile glob t.excludes
    match (sources.flatMap (survivors includes excludes)).insertionSort (· ≤ ·) with
    | [] => .error (.nothingToRename all)
    | [only] => .ok (SortedMap.empty.insert only dst)
    | many => .error (.manyToRename many)
  | .exact map =>
    match map.entries.find? fun e => !all.contains e.1 with
    | some (key, dst) => .error (.keyMatchedNothing key dst all)
    | none => .ok map

/-- The prefix is a prefix of some file. -/
def stripMatches (sp : Text) (sources : List SourcePaths) : Bool :=
  sources.any fun src => (src.paths.map pathToSlash).any fun full =>
    (stripDirPrefix full sp).isSome ||
      (src.packageRelative full).any fun rel => (stripDirPrefix rel sp).isSome

/-- `plan`. -/
def plan (t : PathTransform) (sources : List SourcePaths) : Except TransformError RenamePlan :=
  let all := (sources.flatMap (·.paths)).map pathToSlash
  if all.isEmpty then .ok .empty
  else do
    let plan ← t.planRename glob sources all
    match t.stripPrefix with
    | none => .ok plan
    | some sp =>
      if stripMatches (trimEndSlashes sp) sources then .ok plan
      else .error (.stripPrefixMatchedNothing sp all)

/-! ### The mapping of an artifact -/

/-- Where a file goes, if it is kept. -/
def destination (t : PathTransform) (plan : RenamePlan) (includes excludes : List (Text → Bool))
    (src : SourcePaths) (path : Text) : Option Text :=
  let full := pathToSlash path
  let rel := src.packageRelative full
  match plan.get? full with
  | some dst => some dst
  | none => if survives includes excludes full rel then some (t.relocate full rel) else none

/-- The loop of `resolve`. The destinations so far are `claimed`, each by the path that goes
there. -/
def resolveLoop (dest : Text → Option Text) :
    List Text → PathMapping → PathMapping → Except TransformError PathMapping
  | [], _, map => .ok map
  | path :: rest, claimed, map =>
    match dest path with
    | none => resolveLoop dest rest claimed map
    | some dst =>
      match claimed.get? (components dst) with
      | some prev => .error (.collision (pathToSlash prev) (pathToSlash path) dst)
      | none =>
        resolveLoop dest rest (claimed.insert (components dst) path)
          (map.insert (components path) dst)

/-- `resolve`. -/
def resolve (t : PathTransform) (src : SourcePaths) (plan : RenamePlan) :
    Except TransformError PathMapping := do
  let includes ← compile glob t.includes
  let excludes ← compile glob t.excludes
  resolveLoop (t.destination plan includes excludes src) src.paths .empty .empty

end PathTransform

end Heph
