import Heph.Group.Transform
import Heph.Lib.Traverse

/-!
# Output collisions

Before the inputs of a target are put into its sandbox, their paths are compared: **a file of the
sandbox may be provided by one target only**. Two inputs of the same target may provide one file,
since it is the same file then. Two that come from the source tree may as well. The check goes
through the paths in their order, and what it says does not depend on it: it passes if and only if
all inputs can be listed, and any two paths that lead to one place have one provider
(`detectOutputCollisions_iff`).
-/

namespace Heph

/-! ### Filters -/

/-- `GLOB_META`. -/
def globMeta : List Char := "*?[]\x7b\x7d<>\\,".toList

/-- `PathFilter`. -/
structure PathFilter where
  globs : List (Text → Bool)
  literals : List Text
  empty : Bool

namespace PathFilter

variable (glob : Text → Option (Text → Bool))

/-- `PathFilter::new`: a pattern without a metacharacter, and one that is refused, is a path. -/
def new (patterns : List Text) : PathFilter where
  globs := patterns.filterMap fun p => if p.any globMeta.contains then glob p else none
  literals := patterns.filter fun p => !(p.any globMeta.contains) || (glob p).isNone
  empty := patterns.isEmpty

/-- `PathFilter::matches`. -/
def pass (f : PathFilter) (rel : Text) : Bool :=
  f.empty || f.literals.contains rel || f.globs.any fun g => g rel

end PathFilter

/-! ### The check -/

/-- `RunInput` of a sandboxed target, as far as its paths are compared. -/
structure SandboxInput where
  originId : Text
  sourceAddr : Addr
  /-- What `entry_paths` returns. -/
  entryPaths : Except Text (List Text)
  filters : List Text

/-- Why the check fails. -/
inductive CollisionError where
  /-- `enumerate paths for output-collision check (origin_id={}, source_addr={})`. -/
  | enumerate (originId sourceAddr cause : Text)
  /-- `output collision: {abs} is produced by two different targets ({existing} and {producer})`. -/
  | collision (abs existing producer : Text)
  deriving DecidableEq

/-- `FS_PROVIDER_PKG`. -/
def fsProviderPkg : PkgBuf := "@heph/fs".toList

/-- `is_fs_source`. -/
def isFsSource (a : Addr) : Bool := a.package = fsProviderPkg

/-- `Path::join`. -/
def joinPath (root rel : Text) : Text :=
  if rel.head? = some '/' ∨ root = [] then rel
  else if root.getLast? = some '/' then root ++ rel
  else root ++ '/' :: rel

/-- A path that an input exposes. -/
structure Claim where
  unpackRoot : Text
  producer : Addr
  rel : Text

namespace Claim

/-- Where the file is to be. -/
def abs (c : Claim) : Text := joinPath c.unpackRoot c.rel

/-- The place in the sandbox: two paths are compared by their components. -/
def place (c : Claim) : List Text := components c.abs

end Claim

/-- The targets that have claimed a place. -/
abbrev Owners := SortedMap (List Text) Addr

/-- One path of an input. -/
def claimPath (owners : Owners) (c : Claim) : Except CollisionError Owners :=
  match owners.get? c.place with
  | some existing =>
    if existing = c.producer then .ok owners
    else if isFsSource existing && isFsSource c.producer then .ok owners
    else .error (.collision c.abs existing.format c.producer.format)
  | none => .ok (owners.insert c.place c.producer)

variable (glob : Text → Option (Text → Bool))

/-- The paths that an input exposes. -/
def claimsOf (x : Text × SandboxInput) : Except CollisionError (List Claim) :=
  match x.2.entryPaths with
  | .error e => .error (.enumerate x.2.originId x.2.sourceAddr.format e)
  | .ok paths =>
    .ok ((paths.filter (PathFilter.new glob x.2.filters).pass).map (⟨x.1, x.2.sourceAddr, ·⟩))

/-- The inputs, with the directories they are unpacked to. -/
def inputsOf (groups : List (Text × List SandboxInput)) : List (Text × SandboxInput) :=
  groups.flatMap fun g => g.2.map (g.1, ·)

/-- `detect_output_collisions`, over the inputs by the directories they are unpacked to. -/
def detectOutputCollisions (groups : List (Text × List SandboxInput)) :
    Except CollisionError Owners :=
  (inputsOf groups).foldlM (fun owners x => claimsOf glob x >>= (·.foldlM claimPath owners)) .empty

/-! ### When it passes -/

open List SortedMap

/-- Who provides a file: a target, or the source tree. -/
def provider (a : Addr) : Option Addr := if isFsSource a then none else some a

theorem provider_eq {a b : Addr} :
    provider a = provider b ↔ a = b ∨ (isFsSource a && isFsSource b) = true := by
  by_cases h : a = b
  · simp [h]
  · cases ha : isFsSource a <;> cases hb : isFsSource b <;> simp [provider, ha, hb, h]

/-- **Two paths that lead to one place have one provider.** -/
def Claim.Agrees (c d : Claim) : Prop :=
  c.place = d.place → provider c.producer = provider d.producer

/-- The loop over the paths passes if each of them has the provider of what is at its place, and
they agree. -/
theorem foldlM_claimPath (cs : List Claim) (owners : Owners) :
    (∃ owners', cs.foldlM claimPath owners = .ok owners') ↔ cs.Pairwise Claim.Agrees ∧
      ∀ c ∈ cs, ∀ o, owners.get? c.place = some o → provider o = provider c.producer := by
  induction cs generalizing owners with
  | nil => simp [pure, Except.pure]
  | cons c cs ih =>
    rw [foldlM_cons, pairwise_cons, forall_mem_cons, claimPath]
    cases hget : owners.get? c.place with
    | none =>
      refine (ih _).trans ?_
      grind [get?_insert, Claim.Agrees]
    | some o =>
      by_cases hsame : provider o = provider c.producer
      · have hok : (∃ owners', cs.foldlM claimPath owners = .ok owners') ↔ _ := ih owners
        rcases provider_eq.mp hsame with h | h
        all_goals
          simp only [h, if_true, ite_self]
          refine hok.trans ?_
          grind [Claim.Agrees]
      · obtain ⟨hne, hfs⟩ := not_or.mp (mt provider_eq.mpr hsame)
        simp only [if_neg hne, if_neg hfs]
        exact ⟨fun ⟨_, h⟩ => (by cases h), fun h => absurd (h.2.1 o rfl) hsame⟩

/-- **A file of a sandbox has one provider.** The check passes exactly if every input can be listed,
and any two paths that lead to one place come from one target, or both from the source tree. -/
theorem detectOutputCollisions_iff (groups : List (Text × List SandboxInput)) :
    (∃ owners, detectOutputCollisions glob groups = .ok owners) ↔
      ∃ cs, (inputsOf groups).mapM (claimsOf glob) = .ok cs ∧ cs.flatten.Pairwise Claim.Agrees := by
  simp only [detectOutputCollisions, foldlM_bind_ok]
  rw [exists_comm]
  refine exists_congr fun cs => ?_
  rw [exists_and_left, foldlM_claimPath]
  simp [get?_empty]

end Heph
