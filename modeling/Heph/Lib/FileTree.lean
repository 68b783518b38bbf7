import Mathlib

/-!
# Trees of files

A file system, as a program sees it: a tree of directories, files and symbolic links. A path is
resolved from the root, component by component, and **a link on the way is followed** – up to a
number of them, since links may lead in circles. Two paths may therefore lead to one place, and a
path may lead to another place after a link has changed.

The operations are those of the system calls. Most of them follow a link at the end of the path;
those that are about the link itself do not. What is not modelled is who may do what: the
permissions of a file are kept, and do not stop an operation. And a file is at one place: there are
no hard links.
-/

namespace Heph

open Function

/-! ### Paths -/

/-- A component of a path. -/
inductive Part (κ : Type) where
  /-- The directory above. -/
  | up
  | name (c : κ)
  deriving DecidableEq

/-- A path, from the root or from where it is read. -/
structure PathBuf (κ : Type) where
  absolute : Bool
  parts : List (Part κ)
  deriving DecidableEq

/-- A place in the tree: the names on the way to it, the last one first. -/
abbrev Place (κ : Type) : Type := List κ

/-- The components of a path from the root. -/
abbrev Route (κ : Type) : Type := List (Part κ)

/-- `Path::join`: an absolute path replaces the one it is joined to. -/
def Route.join {κ : Type} (r : Route κ) (p : PathBuf κ) : Route κ :=
  if p.absolute then p.parts else r ++ p.parts

/-- `Path::parent`. -/
def Route.parent {κ : Type} (r : Route κ) : Option (Route κ) :=
  if r.isEmpty then none else some r.dropLast

/-! ### Nodes -/

/-- `std::fs::FileType`. -/
inductive FileType where
  | dir
  | file
  | link
  deriving DecidableEq

/-- What is at a place. -/
inductive FileKind (κ : Type) where
  | dir
  | file (bytes : List UInt8) (mode : UInt32)
  | link (target : PathBuf κ)
  deriving DecidableEq

namespace FileKind

variable {κ : Type}

def type : FileKind κ → FileType
  | dir => .dir
  | file _ _ => .file
  | link _ => .link

end FileKind

/-- A node, with its extended attributes. -/
structure FileNode (κ : Type) where
  kind : FileKind κ
  attrs : κ → Option (List UInt8)

/-- The kind of what is at a place. -/
def kindOf {κ : Type} (nodes : Place κ → Option (FileNode κ)) (p : Place κ) :
    Option (FileKind κ) :=
  (nodes p).map FileNode.kind

/-- **A tree of files**: what is not the root is in a directory. -/
structure FileTree (κ : Type) where
  nodes : Place κ → Option (FileNode κ)
  root : kindOf nodes [] = some .dir
  closed : ∀ c p, kindOf nodes (c :: p) ≠ none → kindOf nodes p = some .dir
  /-- What is withheld from a new file. -/
  umask : UInt32

/-- What an operation can fail with. -/
inductive IoError where
  | notFound
  | notADirectory
  | isADirectory
  | alreadyExists
  | invalidInput
  | filesystemLoop
  | permissionDenied
  deriving DecidableEq, Repr

namespace FileTree

/-- A tree with nothing in it. -/
def bare (κ : Type) (umask : UInt32) : FileTree κ where
  nodes p := if p.isEmpty then some ⟨.dir, fun _ => none⟩ else none
  root := rfl
  closed _ _ h := absurd rfl h
  umask := umask

variable {κ : Type} {t : FileTree κ} {p : Place κ}

/-- The kind of what is at a place. -/
def kindAt (t : FileTree κ) (p : Place κ) : Option (FileKind κ) := kindOf t.nodes p

theorem kindAt_of_nodes {n : FileNode κ} (h : t.nodes p = some n) :
    t.kindAt p = some n.kind := by
  rw [kindAt, kindOf, h, Option.map_some]

theorem kindAt_eq_none : t.kindAt p = none ↔ t.nodes p = none :=
  Option.map_eq_none_iff

/-- What is above a directory is one. -/
theorem kindAt_tail (h : t.kindAt p = some .dir) :
    t.kindAt p.tail = some .dir := by
  cases p with
  | nil => exact h
  | cons c p => exact t.closed c p (fun hnone => nomatch h.symm.trans hnone)

variable [DecidableEq κ] {n : Option (FileNode κ)}

/-! ### Changing one place -/

/-- A tree is still one if the node goes to the place. -/
def Fits (t : FileTree κ) (p : Place κ) (n : Option (FileNode κ)) : Prop :=
  t.kindAt p.tail = some .dir ∧ (t.kindAt p = some .dir → n.map FileNode.kind = some .dir)

instance (t : FileTree κ) (p : Place κ) (n : Option (FileNode κ)) : Decidable (t.Fits p n) :=
  inferInstanceAs (Decidable (_ ∧ _))

theorem Fits.root (h : t.Fits p n) :
    kindOf (update t.nodes p n) [] = some .dir := by
  by_cases hp : [] = p
  · subst hp
    exact h.2 t.root
  · rw [kindOf, update_of_ne hp]
    exact t.root

theorem Fits.closed (h : t.Fits p n)
    (c : κ) (q : Place κ) (hq : kindOf (update t.nodes p n) (c :: q) ≠ none) :
    kindOf (update t.nodes p n) q = some .dir := by
  by_cases hcq : c :: q = p
  · subst hcq
    have hne : q ≠ c :: q := (List.cons_ne_self c q).symm
    rw [kindOf, update_of_ne hne]
    exact h.1
  · rw [kindOf, update_of_ne hcq] at hq
    have hdir : t.kindAt q = some .dir := t.closed c q hq
    by_cases hqp : q = p
    · subst hqp
      rw [kindOf, update_self]
      exact h.2 hdir
    · rw [kindOf, update_of_ne hqp]
      exact hdir

/-- Another node at a place, or none. What would not leave a tree is not done; the operations do
not come to that (`FileTree.fits_of_locate`). -/
def put (t : FileTree κ) (p : Place κ) (n : Option (FileNode κ)) : FileTree κ :=
  if h : t.Fits p n then
    { t with nodes := update t.nodes p n, root := h.root, closed := h.closed }
  else t

theorem put_nodes (h : t.Fits p n) :
    (t.put p n).nodes = update t.nodes p n := by
  rw [put, dif_pos h]

/-! ### Resolving a path -/

/-- The components one after the other, up to the first link that is followed. -/
def scan (t : FileTree κ) (follow : Bool)
    (jump : Place κ → Route κ → Except IoError (Place κ)) :
    Place κ → Route κ → Except IoError (Place κ)
  | cur, [] => .ok cur
  | cur, .up :: rest => t.scan follow jump cur.tail rest
  | cur, .name c :: rest =>
    match t.kindAt (c :: cur) with
    | none => if rest = [] then .ok (c :: cur) else .error .notFound
    | some .dir => t.scan follow jump (c :: cur) rest
    | some (.file _ _) => if rest = [] then .ok (c :: cur) else .error .notADirectory
    | some (.link target) =>
      if rest = [] ∧ follow = false then .ok (c :: cur)
      else jump (if target.absolute then [] else cur) (target.parts ++ rest)

/-- The components, with a number of links that may be followed. -/
def locateFrom (t : FileTree κ) (follow : Bool) :
    ℕ → Place κ → Route κ → Except IoError (Place κ)
  | 0 => t.scan follow fun _ _ => .error .filesystemLoop
  | n + 1 => t.scan follow (t.locateFrom follow n)

/-- How many links are followed. -/
def maxLinks : ℕ := 40

variable (t : FileTree κ)

/-- **Where a path leads**: to a place in a directory that is there. Nothing need be at the place
itself. -/
def locate (follow : Bool) (r : Route κ) : Except IoError (Place κ) :=
  t.locateFrom follow maxLinks [] r

/-! ### Operations -/

variable (r : Route κ)

/-- `fs::metadata`. -/
def metadata : Except IoError (FileKind κ) := do
  let p ← t.locate true r
  match t.kindAt p with
  | none => .error .notFound
  | some kind => .ok kind

/-- `fs::symlink_metadata`. -/
def symlinkMetadata : Except IoError (FileKind κ) := do
  let p ← t.locate false r
  match t.kindAt p with
  | none => .error .notFound
  | some kind => .ok kind

/-- `Path::is_dir`. -/
def isDir : Bool :=
  match t.metadata r with
  | .ok .dir => true
  | _ => false

/-- `fs::read_link`. -/
def readLink : Except IoError (PathBuf κ) := do
  let p ← t.locate false r
  match t.kindAt p with
  | none => .error .notFound
  | some (.link target) => .ok target
  | some _ => .error .invalidInput

/-- `mkdir`. -/
def mkdir : Except IoError (FileTree κ) := do
  let p ← t.locate false r
  match t.nodes p with
  | none => .ok (t.put p (some ⟨.dir, fun _ => none⟩))
  | some _ => .error .alreadyExists

/-- The components of the path in reverse, for `createDirAll`. -/
def createDirs (t : FileTree κ) : List (Part κ) → Except IoError Unit × FileTree κ
  | [] => (.ok (), t)
  | c :: above =>
    let r := (c :: above).reverse
    match t.mkdir r with
    | .ok t' => (.ok (), t')
    | .error .notFound =>
      match t.createDirs above with
      | (.ok (), t') =>
        match t'.mkdir r with
        | .ok t'' => (.ok (), t'')
        | .error e => if t'.isDir r then (.ok (), t') else (.error e, t')
      | (.error e, t') => (.error e, t')
    | .error e => if t.isDir r then (.ok (), t) else (.error e, t)

/-- `fs::create_dir_all`: the directory is made, after the one above it if that is missing. -/
def createDirAll : Except IoError Unit × FileTree κ :=
  t.createDirs r.reverse

/-- `unix::fs::symlink`. -/
def symlink (target : PathBuf κ) (r : Route κ) :
    Except IoError (FileTree κ) := do
  let p ← t.locate false r
  match t.nodes p with
  | none => .ok (t.put p (some ⟨.link target, fun _ => none⟩))
  | some _ => .error .alreadyExists

/-! ### Open files -/

/-- A file is opened to be written, and made if it is missing. It may be emptied. What is open is
a place: nothing moves or removes the file meanwhile. -/
def openFile (truncate : Bool) (r : Route κ) :
    Except IoError (Place κ × FileTree κ) := do
  let p ← t.locate true r
  match t.nodes p with
  | none => .ok (p, t.put p (some ⟨.file [] (0o666 &&& ~~~t.umask), fun _ => none⟩))
  | some ⟨.file bytes mode, attrs⟩ =>
    .ok (p, t.put p (some ⟨.file (if truncate then [] else bytes) mode, attrs⟩))
  | some ⟨.dir, _⟩ => .error .isADirectory
  | some ⟨.link _, _⟩ => .error .filesystemLoop

/-- The bytes and the permissions of an open file are changed. -/
def editFile (p : Place κ) (bytes : List UInt8 → List UInt8)
    (mode : UInt32 → UInt32) : FileTree κ :=
  match t.nodes p with
  | some ⟨.file b m, attrs⟩ => t.put p (some ⟨.file (bytes b) (mode m), attrs⟩)
  | _ => t

/-- Bytes are written at the end of an open file. -/
def append (p : Place κ) (bytes : List UInt8) : FileTree κ :=
  t.editFile p (· ++ bytes) id

/-- `File::set_permissions`. -/
def chmod (p : Place κ) (mode : UInt32 → UInt32) : FileTree κ :=
  t.editFile p id mode

end FileTree

end Heph
