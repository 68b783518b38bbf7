import Heph.Lib.FileTree
import Heph.Group.Run

/-!
# Unpacking an artifact

The content of an artifact is a sequence of entries: files and symbolic links, each with a path.
A walk over it may fail at the start or at any entry. Contents are of several kinds: an archive is
walked entry by entry (`TarEntry.next`), a view walks the content it is a view of and presents
it under other paths (`ViewContent.content`).

`unpack` puts the entries below a directory, one after the other. The path of an entry is
joined to that of the directory as it is. The directories above it are made, and then the file is
written or the link is made; an entry that fails ends it, and what was there by then stays.
-/

namespace Heph

/-! ### Contents -/

/-- `WalkEntryKind`, with the bytes that are read from it. -/
inductive WalkEntryKind where
  | file (data : List UInt8) (x : Bool)
  | symlink (target : PathBuf Text)
  deriving DecidableEq

/-- `WalkEntry`. -/
structure WalkEntry where
  path : PathBuf Text
  kind : WalkEntryKind
  deriving DecidableEq

/-- The bits by which a file is executable. -/
def execBits : UInt32 := 0o111

def Part.display : Part Text → Text
  | .up => "..".toList
  | .name c => c

/-- `Path::display`. -/
def PathBuf.display (p : PathBuf Text) : Text :=
  (if p.absolute then "/".toList else []) ++ "/".toList.intercalate (p.parts.map Part.display)

/-- An entry of a walk, and what reading its data breaks off with, if it does so after the bytes. -/
structure ContentEntry where
  entry : WalkEntry
  readError : Option IoError

/-- What a walk over a content yields. -/
abbrev ContentWalk (ε : Type) : Type := Except ε (List (Except ε ContentEntry))

/-- The type of a tar entry. -/
inductive TarEntryType where
  | file
  | symlink
  | other
  deriving DecidableEq

/-- An entry of an archive, as it is read from its header. -/
structure TarEntry where
  type : TarEntryType
  path : Except IoError (PathBuf Text)
  linkName : Except IoError (Option (PathBuf Text))
  mode : Except IoError UInt32
  data : List UInt8
  readError : Option IoError

inductive TarError where
  | io (e : IoError)
  /-- `tar symlink {path} has no link name`. -/
  | noLinkName (path : PathBuf Text)
  /-- `absolute symlink not allowed in tar: {path} -> {target}`. -/
  | absoluteSymlink (path target : PathBuf Text)
  deriving DecidableEq

/-- `TarWalker::next`, of one entry: what is neither a file nor a link is passed over. -/
def TarEntry.next : Except IoError TarEntry → Option (Except TarError ContentEntry)
  | .error e => some (.error (.io e))
  | .ok entry =>
    match entry.path with
    | .error e => some (.error (.io e))
    | .ok path =>
      match entry.type with
      | .symlink =>
        match entry.linkName with
        | .ok (some target) =>
          if target.absolute then some (.error (.absoluteSymlink path target))
          else some (.ok ⟨⟨path, .symlink target⟩, none⟩)
        | .ok none => some (.error (.noLinkName path))
        | .error e => some (.error (.io e))
      | .other => none
      | .file =>
        match entry.mode with
        | .error e => some (.error (.io e))
        | .ok mode =>
          some (.ok ⟨⟨path, .file entry.data (mode &&& execBits != 0)⟩, entry.readError⟩)

/-- `TarWalker`. -/
def tarWalker (entries : List (Except IoError TarEntry)) : ContentWalk TarError :=
  .ok (entries.filterMap TarEntry.next)

/-- `PathBuf::from`. -/
def PathBuf.ofText (p : Text) : PathBuf Text where
  absolute := p.head? = some '/'
  parts := ((p.splitOn '/').filter fun s => s ≠ [] ∧ s ≠ ['.']).map fun s =>
    if s = ['.', '.'] then .up else .name s

/-- `ViewContent::walk`. -/
def ViewContent.content (glob : Text → Option (Text → Bool))
    (v : ViewContent (WalkEntryKind × Option IoError)) : ContentWalk TransformError :=
  (v.walk glob).map fun entries =>
    entries.map fun e => .ok ⟨⟨.ofText e.1, e.2.1⟩, e.2.2⟩

/-! ### Errors -/

/-- `describe_existing`. -/
inductive Existing where
  | none
  | statError (e : IoError)
  | symlink (target : Option (PathBuf Text))
  | dir
  | file (size : ℕ)
  deriving DecidableEq

def describeExisting (t : FileTree Text) (path : Route Text) : Existing :=
  match t.symlinkMetadata path with
  | .error .notFound => .none
  | .error e => .statError e
  | .ok (.link _) => .symlink (t.readLink path).toOption
  | .ok .dir => .dir
  | .ok (.file bytes _) => .file bytes.length

/-- What goes wrong, by what the texts show. -/
inductive UnpackError (ε : Type) where
  /-- `open list file {path} (append)`. -/
  | openList (path : Route Text) (e : IoError)
  /-- `walk content for unpack into {dst}`. -/
  | walk (dst : Route Text) (e : ε)
  /-- `read entry while unpacking into {dst}`. -/
  | readEntry (dst : Route Text) (e : ε)
  /-- `create parent dir {parent} for unpack entry {path} (existing={existing})`. -/
  | createParent (parent : Route Text) (path : PathBuf Text) (existing : Existing) (e : IoError)
  /-- `absolute symlink not allowed when unpacking: {path} -> {target}`. -/
  | absoluteSymlink (path target : PathBuf Text)
  /-- `read existing symlink {dest} while unpacking {path} -> {target}`. -/
  | readExisting (dest : Route Text) (path target : PathBuf Text) (e : IoError)
  /-- `symlink {dest} already exists with divergent target`. -/
  | divergent (dest : Route Text) (existing target : PathBuf Text)
  /-- `create symlink {dest} -> {target} (existing={existing})`. -/
  | symlink (dest : Route Text) (target : PathBuf Text) (existing : Existing) (e : IoError)
  /-- `create unpack dest {dest} (entry={path}, existing={existing})`. -/
  | createDest (dest : Route Text) (path : PathBuf Text) (existing : Existing) (e : IoError)
  /-- `copy entry data into {dest}`. -/
  | copy (dest : Route Text) (e : IoError)
  deriving DecidableEq

/-! ### Unpacking -/

/-- The state while it unpacks: the tree, the directories that need not be made again, and – for
what is to be said of it – the files that have been opened to be written. -/
structure UnpackState where
  tree : FileTree Text
  createdDirs : List (Route Text)
  opened : List (Place Text)

abbrev Unpack (ε α : Type) : Type := ExceptT (UnpackError ε) (StateM UnpackState) α

/-- The directory above an entry is made, unless that has been done. -/
def UnpackState.makeDir (s : UnpackState) (parent : Route Text) :
    Except IoError Unit × UnpackState :=
  if parent ∈ s.createdDirs then (.ok (), s)
  else
    ((s.tree.createDirAll parent).1,
      { s with tree := (s.tree.createDirAll parent).2, createdDirs := parent :: s.createdDirs })

variable {ε : Type}

def makeParent (path : PathBuf Text) (dest : Route Text) : Unpack ε Unit := do
  match dest.parent with
  | none => return
  | some parent =>
    let s ← get
    set (s.makeDir parent).2
    match (s.makeDir parent).1 with
    | .ok () => return
    | .error e =>
      throw (.createParent parent path (describeExisting (s.makeDir parent).2.tree parent) e)

/-- The line of an entry in the list of files. The buffer before it is not modelled: a line is in
the file at once. -/
def listEntry (list : Option (Place Text)) (dest : Route Text) : Unpack ε Unit := do
  match list with
  | none => return
  | some p =>
    let s ← get
    let line := PathBuf.display ⟨true, dest⟩ ++ ['\n']
    set { s with tree := s.tree.append p (Addr.utf8 line) }

def placeSymlink (path : PathBuf Text) (dest : Route Text) (target : PathBuf Text) :
    Unpack ε Unit := do
  if target.absolute then throw (.absoluteSymlink path target)
  let s ← get
  match s.tree.symlink target dest with
  | .ok tree => set { s with tree }
  | .error .alreadyExists =>
    match s.tree.readLink dest with
    | .error e => throw (.readExisting dest path target e)
    | .ok existing => if existing ≠ target then throw (.divergent dest existing target)
  | .error e => throw (.symlink dest target (describeExisting s.tree dest) e)

/-- The file is emptied, its data is copied to it, and it is made executable. The locks by which
it is closed are not modelled. -/
def placeFile (path : PathBuf Text) (dest : Route Text) (data : List UInt8)
    (readError : Option IoError) (x : Bool) : Unpack ε Unit := do
  let s ← get
  match s.tree.openFile true dest with
  | .error e => throw (.createDest dest path (describeExisting s.tree dest) e)
  | .ok (p, tree) =>
    let s := { s with tree := tree.append p data, opened := p :: s.opened }
    set s
    match readError with
    | some e => throw (.copy dest e)
    | none => if x then set { s with tree := s.tree.chmod p (· ||| execBits) }

/-- One entry. -/
def unpackEntry (dst : Route Text) (list : Option (Place Text)) (e : ContentEntry) :
    Unpack ε Unit := do
  let dest := dst.join e.entry.path
  makeParent e.entry.path dest
  listEntry list dest
  match e.entry.kind with
  | .symlink target => placeSymlink e.entry.path dest target
  | .file data x => placeFile e.entry.path dest data e.readError x

/-- An entry is left out if there is a filter that it does not pass. -/
def unpackItem (dst : Route Text) (list : Option (Place Text))
    (shouldUnpack : Option (PathBuf Text → Bool)) : Except ε ContentEntry → Unpack ε Unit
  | .error e => throw (.readEntry dst e)
  | .ok e => if shouldUnpack.all (· e.entry.path) then unpackEntry dst list e else pure ()

def openList : Option (Route Text) → Unpack ε (Option (Place Text))
  | none => return none
  | some path => do
    let s ← get
    match s.tree.openFile false path with
    | .error e => throw (.openList path e)
    | .ok (p, tree) =>
      set { s with tree }
      return some p

/-- **`unpack`**. -/
def unpack (content : ContentWalk ε) (dst : Route Text) (listDst : Option (Route Text))
    (shouldUnpack : Option (PathBuf Text → Bool)) : Unpack ε Unit := do
  let list ← openList listDst
  match content with
  | .error e => throw (.walk dst e)
  | .ok items => items.forM (unpackItem dst list shouldUnpack)

end Heph
