import Heph.Lib.Stamped
import Heph.Addr.Pkg

/-!
# The cached walker

A `CachedWalker` lists directories and hashes files, and keeps both: in a map of its own, the
*front*, and in a database that several walkers share. A listing is used again while the
directory has the mtime it was kept under, a hash while the file has the size and the mtime.

Whether that is **transparent** – the same answers as a walker that bypasses everything it
could have kept – depends on what else an answer is made of. A hash takes in the executable
bits (`Walker.fileHashout`), which are neither the size nor the mtime, so changing them
alone leaves the old answer in use (`Walker.chmod_unseen`). Where every change at a path
does bring a size and mtime, or a directory mtime, that the path never had before, each answer
that no change overlaps is the bypassing walker's, except that a directory is listed as empty
where a file stands (`Walker.transparent_iff`).
-/

namespace Heph.Walker

open Stamped Char

/-! ### The tree -/

/-- `EntryKind`. -/
inductive EntryKind where
  | file
  | dir
  | symlink
  | other
  deriving DecidableEq

/-- `DirEntry`. -/
structure DirEntry where
  name : Text
  kind : EntryKind
  deriving DecidableEq

/-- `DirListing`. -/
structure DirListing where
  entries : List DirEntry
  deriving DecidableEq

/-- `FileHash`. -/
structure FileHash where
  size : ℕ
  mtimeNs : ℤ
  exec : Bool
  hashout : Text
  deriving DecidableEq

/-- What asking for the type of a directory entry gives. -/
inductive EntryType where
  | known (kind : EntryKind)
  /-- The entry is gone by now. -/
  | vanished
  | failed
  deriving DecidableEq

/-- An entry as the system hands it out: a name that need not be UTF-8. -/
structure RawEntry where
  name : Except (List UInt8) Text
  type : EntryType
  deriving DecidableEq

/-- What is at a path, links followed. Times are in nanoseconds since the epoch. -/
inductive Node where
  | absent
  /-- Not even its metadata can be read. -/
  | denied
  | file (bytes : List UInt8) (mtime : ℤ) (mode : ℕ) (readable : Bool)
  | dir (entries : List RawEntry) (mtime : ℤ) (readable : Bool)

/-- A path. -/
abbrev Path := List Text

/-- The tree, as a walker sees it. -/
abbrev Tree := Path → Node

/-- What a call can fail with. -/
inductive WalkError where
  /-- `stat dir '{dir}'` -/
  | statDir (dir : Path)
  /-- `read dir '{dir}'` -/
  | readDir (dir : Path)
  /-- `stat dir entry '{entry.path}'` -/
  | statEntry (dir : Path) (entry : Except (List UInt8) Text)
  /-- `directory entry name is not valid UTF-8: {raw:?} (in '{dir}')` -/
  | notUtf8 (raw : List UInt8) (dir : Path)
  /-- `stat file '{file}'` -/
  | statFile (file : Path)
  /-- `'{file}' is a directory` -/
  | isDirectory (file : Path)
  /-- `open file for hashing '{path}'` -/
  | openFile (file : Path)
  deriving DecidableEq

/-- `mtime_ns`: a time before the epoch, or past the last `i64`, is none. -/
def mtimeNs (t : ℤ) : Option ℤ := if 0 ≤ t ∧ t < 2 ^ 63 then some t else none

/-- `is_exec`. -/
def isExec (mode : ℕ) : Bool := mode &&& 0o111 != 0

/-! ### Without the cache -/

/-- The loop of `read_dir_uncached` over the entries. -/
def readEntries (dir : Path) : List RawEntry → Except WalkError (List DirEntry)
  | [] => .ok []
  | e :: es =>
    match e.type with
    | .vanished => readEntries dir es
    | .failed => .error (.statEntry dir e.name)
    | .known kind =>
      match e.name with
      | .error raw => .error (.notUtf8 raw dir)
      | .ok name => (readEntries dir es).map (⟨name, kind⟩ :: ·)

/-- `read_dir_uncached`. -/
def readDirUncached (dir : Path) : Node → Except WalkError DirListing
  | .absent => .ok ⟨[]⟩
  | .denied => .error (.readDir dir)
  | .file .. => .error (.readDir dir)
  | .dir entries _ readable =>
    if readable then
      (readEntries dir entries).map fun es => ⟨es.insertionSort fun a b => a.name ≤ b.name⟩
    else .error (.readDir dir)

section

variable (digest : List UInt8 → Text)

/-- `file_hashout`: the bytes, and the executable mark. -/
def fileHashout (bytes : List UInt8) (x : Bool) : Text := digest (bytes ++ [if x then 1 else 0])

/-- What `file_hash` computes when it has a file to hash. -/
def hashFile (file : Path) (bytes : List UInt8) (mtime : ℤ) (mode : ℕ) (readable : Bool) :
    Except WalkError FileHash :=
  if readable then
    .ok ⟨bytes.length, (mtimeNs mtime).getD (-1), isExec mode,
      fileHashout digest bytes (isExec mode)⟩
  else .error (.openFile file)

/-- A call of the walker. -/
inductive Query where
  | readDir (dir : Path)
  | fileHash (file : Path)
  deriving DecidableEq

/-- What a call returns. -/
inductive Answer where
  | listing (l : DirListing)
  | hash (h : FileHash)
  deriving DecidableEq

/-- What validates an answer that was kept: the mtime of a directory, the size and the mtime
of a file. -/
structure Stamp where
  size : Option ℕ
  mtime : ℤ
  deriving DecidableEq

/-- `CachedWalker::read_dir` and `CachedWalker::file_hash` of a bypassing walker. -/
def bypass (tree : Tree) : Query → Except WalkError Answer
  | .readDir dir => (readDirUncached dir (tree dir)).map .listing
  | .fileHash file =>
    match tree file with
    | .absent => .error (.statFile file)
    | .denied => .error (.statFile file)
    | .dir .. => .error (.isDirectory file)
    | .file bytes mtime mode readable => (hashFile digest file bytes mtime mode readable).map .hash

/-! ### With the cache -/

/-- The answers that the metadata alone gives. -/
def early (tree : Tree) : Query → Option (Except WalkError Answer)
  | .readDir dir =>
    match tree dir with
    | .absent => some (.ok (.listing ⟨[]⟩))
    | .denied => some (.error (.statDir dir))
    | .file .. => some (.ok (.listing ⟨[]⟩))
    | .dir .. => none
  | .fileHash file =>
    match tree file with
    | .absent => some (.error (.statFile file))
    | .denied => some (.error (.statFile file))
    | .dir .. => some (.error (.isDirectory file))
    | .file .. => none

/-- What `read_dir` and `file_hash` compare with what they have kept. -/
def stamp (tree : Tree) : Query → Option Stamp
  | .readDir dir =>
    match tree dir with
    | .dir _ mtime _ => (mtimeNs mtime).map (⟨none, ·⟩)
    | _ => none
  | .fileHash file =>
    match tree file with
    | .file bytes mtime _ _ => (mtimeNs mtime).map (⟨some bytes.length, ·⟩)
    | _ => none

/-- The walkers: their two caches in front of what they read on a miss. -/
def walker : Stamped Tree Query Stamp Answer WalkError where
  early := early
  stamp := stamp
  read := bypass digest

/-- The walkers `ι` and their calls `κ`, from a tree and with an empty database; `durable` are
the walkers that have a database at all. -/
def walkers {ι κ : Type} [DecidableEq ι] [DecidableEq κ] (durable : ι → Bool) (tree : Tree) :
    Machine (State Tree Query Stamp Answer WalkError ι κ)
      (Event Tree Query Answer WalkError ι κ) :=
  (walker digest).machine durable tree

/-! ### Transparency -/

/-- A file stands where a directory is to be listed. -/
def OnFile (tree : Tree) : Query → Prop
  | .readDir dir => ∃ bytes mtime mode readable, tree dir = .file bytes mtime mode readable
  | .fileHash _ => False

/-- **The two agree**: the same listing or hash, or both fail. -/
def Agrees (r r' : Except WalkError Answer) : Prop := r.toOption = r'.toOption

variable {digest}

/-- What a walker that has kept nothing answers, against the bypassing one. -/
theorem agrees_answer_iff {tree : Tree} {q : Query} :
    Agrees ((walker digest).answer tree q) (bypass digest tree q) ↔ ¬OnFile tree q := by
  cases q with
  | readDir dir =>
    rcases hnode : tree dir with _ | _ | ⟨bytes, mtime, mode, readable⟩ | ⟨es, mtime, readable⟩ <;>
      simp [Agrees, answer, walker, early, bypass, OnFile, hnode, readDirUncached,
        Except.toOption, Except.map]
  | fileHash file =>
    rcases hnode : tree file with _ | _ | ⟨bytes, mtime, mode, readable⟩ | ⟨es, mtime, readable⟩ <;>
      simp [Agrees, answer, walker, early, bypass, OnFile, hnode]

variable {ι κ : Type} [DecidableEq ι] [DecidableEq κ]

/-- The answer of a call that no change has overlapped. -/
def returned (s : State Tree Query Stamp Answer WalkError ι κ) (c : κ) :
    Option (Query × Except WalkError Answer) :=
  (s.calls c).bind fun l =>
    match l.phase, l.overlapped with
    | .done r, false => some (l.query, r)
    | _, _ => none

omit [DecidableEq ι] [DecidableEq κ] in
theorem of_returned {s : State Tree Query Stamp Answer WalkError ι κ} {c : κ} {q : Query}
    {r : Except WalkError Answer} (h : returned s c = some (q, r)) :
    ∃ l, s.calls c = some l ∧ l.query = q ∧ l.phase = .done r ∧ l.overlapped = false := by
  obtain ⟨l, hl, hret⟩ := Option.bind_eq_some_iff.mp h
  rcases hph : l.phase with _ | _ | _ | _ | r' <;> rcases ho : l.overlapped with _ | _ <;>
    simp [hph, ho] at hret
  obtain ⟨rfl, rfl⟩ := hret
  exact ⟨l, hl, rfl, hph, ho⟩

/-- **Each answer that no change overlaps is the bypassing walker's, unless a file is listed as
a directory** – in every run in which every change at a path, be it of the bytes, of the
executable bits, of who may read it or of the entries, brings a size and mtime, or a directory
mtime, that the path never had before. -/
theorem transparent_iff {durable : ι → Bool} {tree : Tree}
    {es : List (Event Tree Query Answer WalkError ι κ)}
    {s : State Tree Query Stamp Answer WalkError ι κ}
    (h : (walkers digest durable tree).run es = some s)
    (hsteady : (walkers digest durable tree).Meets (walker digest).Steady
      (walkers digest durable tree).init es)
    {c : κ} {q : Query} {r : Except WalkError Answer} (hret : returned s c = some (q, r)) :
    Agrees r (bypass digest s.world q) ↔ ¬OnFile s.world q := by
  obtain ⟨l, hl, rfl, hdone, ho⟩ := of_returned hret
  rw [answer_of_done h hsteady hl hdone ho]
  exact agrees_answer_iff

end

/-! ### A change of the executable bits -/

/-- The file of the examples. -/
def script : Path := ["run".toList]

/-- A tree with one file in it. -/
def scriptTree (mode : ℕ) : Tree := fun p =>
  if p = script then .file [35] 7 mode true else .absent

/-- The digest of the examples: the bytes, read as characters. -/
def plainDigest (bytes : List UInt8) : Text := bytes.map fun b => ofNat b.toNat

/-- A walker hashes a file that it has not seen before. -/
def hashOnce : List (Event Tree Query Answer WalkError Unit Unit) :=
  [.start () () (.fileHash script), .front (), .rows () true,
    .read () (bypass plainDigest (scriptTree 0o644) (.fileHash script)), .put () true]

/-- The tree after the file was written again, later. -/
def rewrittenTree : Tree := fun p => if p = script then .file [35, 33] 8 0o644 true else .absent

/-- The file is hashed, written again, and hashed twice more: the last answer is one that was
kept. -/
def hashRewritten : List (Event Tree Query Answer WalkError Unit Unit) :=
  hashOnce ++ [.finish (), .mutate rewrittenTree, .start () () (.fileHash script), .front (),
    .rows () true, .read () (bypass plainDigest rewrittenTree (.fileHash script)), .put () true,
    .finish (), .start () () (.fileHash script), .front ()]

theorem transparent_iff_rewritten :
    ∃ s, (walkers plainDigest (fun _ : Unit => true) (scriptTree 0o644)).run hashRewritten =
        some s ∧
      ∃ r, returned s () = some (.fileHash script, r) ∧
        Agrees r (bypass plainDigest s.world (.fileHash script)) := by
  have hfacts : ((walkers plainDigest (fun _ : Unit => true) (scriptTree 0o644)).run
      hashRewritten).map (fun s => returned s ()) = some (some (.fileHash script,
        .ok (.hash ⟨2, 8, false, [ofNat 35, ofNat 33, ofNat 0]⟩))) := by
    decide +kernel
  obtain ⟨s, hs, hret⟩ := Option.map_eq_some_iff.mp hfacts
  refine ⟨s, hs, _, hret, (transparent_iff hs ?_ hret).mpr (fun h => h)⟩
  refine ⟨trivial, trivial, trivial, trivial, trivial, trivial, ?_, trivial, trivial, trivial,
    trivial, trivial, trivial, trivial, trivial, trivial⟩
  -- the size and the mtime of the file are new, and the rest of the tree is as it was
  show (walker plainDigest).Fresh [scriptTree 0o644] (scriptTree 0o644) rewrittenTree
  intro q
  cases q with
  | readDir dir =>
    refine .inl ?_
    by_cases hp : dir = script <;>
      simp [Same, walker, early, stamp, bypass, scriptTree, rewrittenTree, readDirUncached, hp]
  | fileHash file =>
    by_cases hp : file = script
    · refine .inr fun st hst v hv => ?_
      obtain rfl := List.mem_singleton.mp hv
      simp only [walker, stamp, rewrittenTree, scriptTree, hp, if_true] at hst ⊢
      rw [← hst]
      decide
    · exact .inl (by simp [Same, walker, early, stamp, bypass, scriptTree, rewrittenTree, hp])

/-- The bytes of a file, or the entries of a directory. -/
def content (tree : Tree) : Query → Option (List UInt8 ⊕ List RawEntry)
  | .readDir dir =>
    match tree dir with
    | .dir entries _ _ => some (.inr entries)
    | _ => none
  | .fileHash file =>
    match tree file with
    | .file bytes _ _ _ => some (.inl bytes)
    | _ => none

/-- Every change of the bytes of a file brings a size and mtime it never had before, and every
change of the entries of a directory a new mtime. -/
def ContentSteady {ι κ : Type} (s : State Tree Query Stamp Answer WalkError ι κ) :
    Event Tree Query Answer WalkError ι κ → Prop
  | .mutate w => ∀ q, content s.world q = content w q ∨
      ∀ st, stamp w q = some st → ∀ v ∈ s.past, stamp v q ≠ some st
  | _ => True

/-- The file is hashed, made executable, and hashed again. -/
def hashTwice : List (Event Tree Query Answer WalkError Unit Unit) :=
  hashOnce ++ [.finish (), .mutate (scriptTree 0o755),
    .start () () (.fileHash script), .front ()]

/-- **A change of the executable bits goes unseen**: neither the size nor the mtime tells it,
so the walker answers with the mark and the hash from before. -/
theorem chmod_unseen :
    ∃ s, (walkers plainDigest (fun _ : Unit => true) (scriptTree 0o644)).run hashTwice = some s ∧
      (walkers plainDigest (fun _ : Unit => true) (scriptTree 0o644)).Meets ContentSteady
        (walkers plainDigest (fun _ : Unit => true) (scriptTree 0o644)).init hashTwice ∧
      returned s () = some (.fileHash script,
        .ok (.hash ⟨1, 7, false, [ofNat 35, ofNat 0]⟩)) ∧
      bypass plainDigest s.world (.fileHash script) =
        .ok (.hash ⟨1, 7, true, [ofNat 35, ofNat 1]⟩) := by
  have hfacts : ((walkers plainDigest (fun _ : Unit => true) (scriptTree 0o644)).run
      hashTwice).map (fun s => (returned s (), bypass plainDigest s.world
        (.fileHash script))) =
      some (some (.fileHash script,
          .ok (.hash ⟨1, 7, false, [ofNat 35, ofNat 0]⟩)),
        .ok (.hash ⟨1, 7, true, [ofNat 35, ofNat 1]⟩)) := by
    decide +kernel
  obtain ⟨s, hs, hboth⟩ := Option.map_eq_some_iff.mp hfacts
  obtain ⟨hret, hbypass⟩ := Prod.mk.inj hboth
  refine ⟨s, hs, ?_, hret, hbypass⟩
  -- the bytes of the file do not change, and there is nothing else in the tree
  refine ⟨trivial, trivial, trivial, trivial, trivial, trivial, fun q => .inl ?_, trivial,
    trivial, trivial⟩
  show content (scriptTree 0o644) q = content (scriptTree 0o755) q
  cases q with
  | readDir dir => by_cases hp : dir = script <;> simp [content, scriptTree, hp]
  | fileHash file => by_cases hp : file = script <;> simp [content, scriptTree, hp]

end Heph.Walker
