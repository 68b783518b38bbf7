import Heph.Scratch.Store

/-!
# Scratch lineages

A scratch cache has a lineage for each scope, on the disk and on the remote caches. A **build**
prepares the directory of its lineage – as it is, or copied from that of another scope, or
unpacked from the best snapshot on a remote – and its target does with it what it likes. A **push**
publishes the directory as the next snapshot of the lineage, and a **pull** unpacks the best one
over it.

Snapshots are immutable, and the key of one has the scope in it, made a component of a path as it
is on the disk. Which one is the best is told by its generation.
-/

namespace Heph.Scratch

/-! ### What is kept -/

/-- `SnapshotMeta`. -/
structure SnapshotMeta where
  format : ℕ
  scope : Text
  generation : ℕ
  parentScope : Text
  parentGeneration : ℕ
  bytes : ℕ
  hephVersion : Text
  producer : Text
  contentHash : Text
  producedAt : Path
  deriving DecidableEq

/-- What is in a file: that of a tool, or one that the store keeps. -/
inductive Blob where
  | data (b : Text)
  | snapshot (m : SnapshotMeta)
  /-- `SlotMeta`. -/
  | slot
  deriving DecidableEq

/-- A disk, or the tree below a directory. -/
abbrev Tree := PathMap Text Blob

/-- What is under a key of a remote cache. -/
inductive RemoteObject where
  | archive (t : Tree)
  | info (m : SnapshotMeta)
  | other

/-- A remote cache, as far as it is read and written here. -/
structure RemoteCache where
  name : Text
  readable : Bool
  writable : Bool
  objects : SortedMap Text RemoteObject

/-- The disk and the remote caches. -/
structure World where
  disk : Tree
  caches : List RemoteCache

/-- `ScratchOptions`. -/
structure Options where
  scope : Text
  restoreScopes : List Text
  seedOnFork : Bool

/-- `SNAPSHOT_FORMAT`. -/
def snapshotFormat : ℕ := 1

/-- `KEY_PREFIX`. -/
def keyPrefix : Text := "scratch/v1".toList

/-- Where the slot is described. -/
def slotMetaPath (slot : Slot) : Path := slotDir slot ++ ["slot.meta".toList]

/-- The bytes of the files of a tree. -/
def Tree.size (t : Tree) : ℕ :=
  (t.entries.map fun e =>
    match e.2 with
    | .file (.data b) => b.length
    | _ => 0).sum

variable (slot : Slot)

/-! ### Heads -/

/-- `RemoteHead`. -/
structure RemoteHead where
  cache : Text
  stem : Text
  info : SnapshotMeta
  deriving DecidableEq

/-- `scope_prefix`. -/
def scopePrefix (scope : Text) : Text :=
  keyPrefix ++ '/' :: (slot.digits ++ '/' :: (sanitizeScope scope ++ ['/']))

/-- `better`, as far as it is asked: the first of the two is before the second. -/
def better (a b : RemoteHead) : Bool :=
  if a.info.generation ≠ b.info.generation then b.info.generation < a.info.generation
  else if a.info.bytes ≠ b.info.bytes then b.info.bytes < a.info.bytes
  else a.stem < b.stem

/-- The end of the key of a meta. -/
def metaSuffix : Text := ".meta".toList

/-- The end of the key of an archive. -/
def archiveSuffix : Text := ".tar.gz".toList

/-- `strip_suffix`. -/
def stripSuffix (s suffix : Text) : Option Text :=
  if suffix.isSuffixOf s then some (s.take (s.length - suffix.length)) else none

/-- The head of a key, if it is that of a meta that can be read. -/
def headOf (c : RemoteCache) (key : Text) : Option RemoteHead :=
  (stripSuffix key metaSuffix).bind fun stem =>
    match c.objects.get? key with
    | some (.info m) => if m.format = snapshotFormat then some ⟨c.name, stem, m⟩ else none
    | _ => none

/-- `heads_in`. -/
def headsIn (c : RemoteCache) (scope : Text) : List RemoteHead :=
  (c.objects.keys.filter (scopePrefix slot scope).isPrefixOf).filterMap (headOf c)

/-- The better of what has been found and a head. -/
def pick (best : Option RemoteHead) (h : RemoteHead) : Option RemoteHead :=
  match best with
  | none => some h
  | some b => if better h b then some h else some b

variable (caches : List RemoteCache)

/-- The best head of a lineage. -/
def bestIn (scope : Text) : Option RemoteHead :=
  ((caches.filter (·.readable)).flatMap fun c => headsIn slot c scope).foldl pick none

/-- `scratch_remote_head`. -/
def scratchRemoteHead (scope : Text) (fallbacks : List Text) :
    Option RemoteHead :=
  (scope :: fallbacks).findSome? (bestIn slot caches)

/-- The archive of a head. -/
def archiveOf (h : RemoteHead) : Option Tree :=
  ((caches.filter (·.readable)).find? fun c => c.name = h.cache).bind fun c =>
    match c.objects.get? (h.stem ++ archiveSuffix) with
    | some (.archive t) => some t
    | _ => none

/-! ### Builds -/

/-- A build, as far as it is about the cache. -/
structure Build where
  remote : Bool
  maxSize : Option ℕ
  /-- The copy from a scope fails. -/
  copyFails : Text → Bool
  pullFails : Bool
  /-- What the target makes of the directory. -/
  work : Tree → Tree

/-- What a build is handed: the tree, and the snapshot it is from if it has been pulled. -/
structure Handed where
  tree : Tree
  pulled : Option SnapshotMeta

/-- The tree of the first scope that can be copied. -/
def seedFrom (disk : Tree) (o : Options) (copyFails : Text → Bool) : Option Tree :=
  (o.restoreScopes.find? fun f =>
    f ≠ o.scope ∧ disk.IsDir (headDir slot f) ∧ copyFails f = false).map fun f =>
      disk.treeAt (headDir slot f)

/-- `resolve_scope_dir`: what is in the directory of the scope. -/
def resolveScopeDir (disk : Tree) (o : Options) (copyFails : Text → Bool) : Option Tree :=
  if disk.IsDir (headDir slot o.scope) then some (disk.treeAt (headDir slot o.scope))
  else if o.seedOnFork ∧ disk.Free (headDir slot o.scope) then seedFrom slot disk o copyFails
  else none

/-- `pull_if_cold`, for a directory that is empty. -/
def pullIfCold (w : World) (o : Options) (fails : Bool) : Handed :=
  match scratchRemoteHead slot w.caches o.scope o.restoreScopes with
  | none => ⟨.empty, none⟩
  | some h =>
    match archiveOf w.caches h with
    | none => ⟨.empty, none⟩
    | some t => if fails then ⟨.empty, none⟩ else ⟨t, some h.info⟩

/-- `prepare_scratch_dir`: what the build is handed, unless the directory cannot be made. -/
def handed (w : World) (o : Options) (b : Build) : Option Handed :=
  if w.disk.Free (headDir slot o.scope) then
    let tree := (resolveScopeDir slot w.disk o b.copyFails).getD .empty
    if ∃ n ∈ b.maxSize, n < tree.size then some ⟨.empty, none⟩
    else if b.remote ∧ tree.entries = [] then some (pullIfCold slot w o b.pullFails)
    else some ⟨tree, none⟩
  else none

/-- `write_local_meta`. -/
def writeLocalMeta (disk : Tree) (scope : Text) (m : SnapshotMeta) : Tree :=
  disk.writeFile (localMetaPath slot scope) (.snapshot m)

/-- `write_slot_meta`. -/
def writeSlotMeta (disk : Tree) : Tree :=
  if disk.Has (slotMetaPath slot) then disk else disk.writeFile (slotMetaPath slot) .slot

/-- `read_local_meta`. -/
def readLocalMeta (disk : Tree) (scope : Text) : Option SnapshotMeta :=
  match disk.get? (localMetaPath slot scope) with
  | some (.file (.snapshot m)) => if m.format = snapshotFormat then some m else none
  | _ => none

/-- A build is run. -/
def runBuild (w : World) (o : Options) (b : Build) : World :=
  match handed slot w o b with
  | none => w
  | some h =>
    let disk := w.disk.setTree (headDir slot o.scope) h.tree
    let disk := match h.pulled with
      | none => disk
      | some m => writeLocalMeta slot disk o.scope m
    let disk := writeSlotMeta slot disk
    { w with disk := disk.setTree (headDir slot o.scope) (b.work h.tree) }

/-! ### Pushes and pulls -/

/-- A push. -/
structure Push where
  force : Bool
  producer : Text
  hephVersion : Text
  /-- How many objects are written before a write fails. -/
  writes : ℕ

/-- A number with sixteen digits. -/
def hex16 (n : ℕ) : Text := (Nat.toDigits 16 n).leftpad 16 '0'

/-- The first writes into the writable caches, and how many are left. -/
def writeObjects (objects : List (Text × RemoteObject)) :
    ℕ → List RemoteCache → List RemoteCache × Bool
  | _, [] => ([], true)
  | n, c :: rest =>
    if c.writable then
      let now := objects.take n
      let c' := { c with objects := now.foldl (fun m e => m.insert e.1 e.2) c.objects }
      if n < objects.length then (c' :: rest, false)
      else
        let r := writeObjects objects (n - objects.length) rest
        (c' :: r.1, r.2)
    else
      let r := writeObjects objects n rest
      (c :: r.1, r.2)

/-- The generation of a snapshot that is published. -/
def nextGeneration (scope : Text) (parent : Option SnapshotMeta) : ℕ :=
  match parent with
  | some p => if p.scope = scope then p.generation + 1 else 0
  | none => 0

/-- The meta of a snapshot that is published. -/
def publishedMeta (scope : Text) (p : Push) (parent : Option SnapshotMeta) (tree : Tree)
    (hash : Text) : SnapshotMeta where
  format := snapshotFormat
  scope := scope
  generation := nextGeneration scope parent
  parentScope := (parent.map (·.scope)).getD []
  parentGeneration := (parent.map (·.generation)).getD 0
  bytes := tree.size
  hephVersion := p.hephVersion
  producer := p.producer
  contentHash := hash
  producedAt := headDir slot scope

/-- The objects of a snapshot, in the order in which they are written. -/
def published (scope : Text) (tree : Tree) (m : SnapshotMeta) : List (Text × RemoteObject) :=
  let stem := scopePrefix slot scope ++ (hex16 m.generation ++ '.' :: m.contentHash)
  [(stem ++ archiveSuffix, .archive tree), (stem ++ metaSuffix, .info m)]

variable (digest : Tree → Text)

/-- `scratch_push`, of the directory of the scope. -/
def runPush (w : World) (o : Options) (p : Push) : World :=
  if w.disk.IsDir (headDir slot o.scope) ∧ w.caches.any (·.writable) then
    let parent := if p.force then none else readLocalMeta slot w.disk o.scope
    let tree := w.disk.treeAt (headDir slot o.scope)
    let hash := digest tree
    if parent.any fun m => m.contentHash = hash && m.scope = o.scope then w
    else
      let m := publishedMeta slot o.scope p parent tree hash
      let r := writeObjects (published slot o.scope tree m) p.writes w.caches
      ⟨if r.2 then writeLocalMeta slot w.disk o.scope m else w.disk, r.1⟩
  else w

/-- A pull: whether it fails, and then what it leaves in the directory. -/
structure Pull where
  fails : Option (Tree → Tree)

/-- The archive is unpacked over a tree. -/
def unpackOver (t archive : Tree) : Tree :=
  archive.entries.foldl (fun m e => m.insert e.1 e.2) t

/-- `scratch pull`. -/
def runPull (w : World) (o : Options) (p : Pull) : World :=
  let own := headDir slot o.scope
  match scratchRemoteHead slot w.caches o.scope o.restoreScopes with
  | none => w
  | some h =>
    match archiveOf w.caches h with
    | none => w
    | some t =>
      if w.disk.Free own then
        match p.fails with
        | some left => { w with disk := w.disk.setTree own (left (w.disk.treeAt own)) }
        | none =>
          let disk := w.disk.setTree own (unpackOver (w.disk.treeAt own) t)
          { w with disk := writeSlotMeta slot (writeLocalMeta slot disk o.scope h.info) }
      else w

/-! ### Operations -/

/-- An operation on the slot. -/
inductive Operation where
  | build (o : Options) (b : Build)
  | push (o : Options) (p : Push)
  | pull (o : Options) (p : Pull)

/-- The scope that an operation is performed under. -/
def Operation.scope : Operation → Text
  | build o _ | push o _ | pull o _ => o.scope

/-- An operation is performed. -/
def perform (w : World) : Operation → World
  | .build o b => runBuild slot w o b
  | .push o p => runPush slot digest w o p
  | .pull o p => runPull slot w o p

/-- Operations are performed, one after the other. -/
def performAll (w : World) (ops : List Operation) : World := ops.foldl (perform slot digest) w

end Heph.Scratch
