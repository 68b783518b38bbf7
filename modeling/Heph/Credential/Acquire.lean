import Heph.Lib.Machine

/-!
# Acquiring credentials

A credential is declared as a chain of sources, and acquired from the first one that applies. A
source may need credentials itself: they are acquired first, and their keys make the key of this
one (`walk_and_acquire`). Where nothing is found under the key, the material is taken from the
source (`acquire_from`): from a command, to which the credentials of the source are acquired once
more and presented (`run_acquire_command`), from another credential (a delegation), or from
elsewhere.

The acquisitions of a process share **cells**, one for a credential and the keys that led to it,
which are locked while their credential is walked and acquired. So a call is a stack of acquisitions
that have locked their cells, except that the innermost one may be waiting for its own. What has
been visited on the way to an acquisition are the ones around it in the stack.

Which source applies, what it yields, whether the store has an entry and when material expires is
left to the events.
-/

namespace Heph

open Option Function

/-- What of the kind of a source matters to acquisition: whether it runs a command, delegates to
another credential, or does neither. -/
inductive CredSourceKind (α : Type) where
  | plain
  | exec
  | credential (target : α)
  deriving DecidableEq

/-- A source of a credential. -/
structure CredSource (α : Type) where
  kind : CredSourceKind α
  /-- The credentials that the source needs. -/
  credentials : List α
  /-- The rest of the declaration. -/
  config : String
  deriving DecidableEq

/-- The declarations of a workspace: the sources of a credential. -/
def CredGraph (α : Type) := α → Option (List (CredSource α))

/-- Material, and the key that it is kept under. -/
structure Acquired (κ μ : Type) where
  key : κ
  material : μ
  deriving DecidableEq

inductive CredError (α : Type) where
  /-- `Chain::enter`: the credential is its own source, with the way that has led to it. -/
  | cycle (addr : α) (path : List α)
  | notCredential (addr : α)
  | noApplicableSource (addr : α)
  | acquire (addr : α)
  deriving DecidableEq

/-- Where an acquisition is. -/
inductive CredPoint (α κ μ : Type) where
  /-- Waiting for its cell. -/
  | waiting
  /-- The cell is locked. -/
  | walking
  /-- A source is chosen, and some of its credentials are acquired for the key. -/
  | gathering (source : CredSource α) (got : List (Acquired κ μ))
  /-- `acquire_from`, with what has been acquired there. -/
  | minting (source : CredSource α) (got presented : List (Acquired κ μ))
  deriving DecidableEq

/-- An acquisition: the credential, the keys of the chain, and where it is. -/
structure CredFrame (α κ μ : Type) where
  addr : α
  keys : List κ
  point : CredPoint α κ μ
  deriving DecidableEq

/-- What a source can yield: a delegation yields the material of the other credential. -/
def CredSourceKind.Yields {α κ μ : Type} (presented : List (Acquired κ μ)) (m : μ) :
    CredSourceKind α → Prop
  | .plain | .exec => True
  | .credential _ => presented.map Acquired.material = [m]

instance {α κ μ : Type} [DecidableEq μ] (presented : List (Acquired κ μ)) (m : μ) :
    DecidablePred (CredSourceKind.Yields (α := α) presented m)
  | .plain | .exec => isTrue trivial
  | .credential _ => inferInstanceAs (Decidable (presented.map Acquired.material = [m]))

namespace CredPoint

variable {α κ μ : Type}

/-- The cell is not locked yet. -/
def isWaiting : CredPoint α κ μ → Bool
  | .waiting => true
  | _ => false

/-- The chosen source. -/
def source? : CredPoint α κ μ → Option (CredSource α)
  | .waiting | .walking => none
  | .gathering source _ | .minting source .. => some source

end CredPoint

namespace CredFrame

variable {α κ μ : Type} (f : CredFrame α κ μ)

/-- The cell of the acquisition. -/
def cell : α × List κ := (f.addr, f.keys)

/-- `Chain::with_key`, for all that has been gathered. -/
def inner (got : List (Acquired κ μ)) : List κ := f.keys ++ got.map Acquired.key

/-- The credential that is acquired next, and the keys of its chain. -/
def nextCall : Option (α × List κ) :=
  match f.point with
  | .waiting | .walking => none
  | .gathering source got => source.credentials[got.length]?.map (·, f.inner got)
  | .minting source got presented =>
    match source.kind with
    | .plain => none
    | .exec => source.credentials[presented.length]?.map (·, f.inner got)
    | .credential target => [target][presented.length]?.map (·, f.inner got)

/-- A credential that has been acquired for this one. -/
def receive (a : Acquired κ μ) : CredFrame α κ μ :=
  match f.point with
  | .waiting | .walking => f
  | .gathering source got => { f with point := .gathering source (got ++ [a]) }
  | .minting source got presented => { f with point := .minting source got (presented ++ [a]) }

end CredFrame

/-- A call: the acquisitions that it is in, the innermost one first, or how it has ended. -/
inductive CredCall (α κ μ : Type) where
  | running (stack : List (CredFrame α κ μ))
  | done (got : Acquired κ μ)
  | failed (e : CredError α)
  deriving DecidableEq

namespace CredCall

variable {α κ μ : Type}

def frames : CredCall α κ μ → List (CredFrame α κ μ)
  | .running stack => stack
  | .done _ | .failed _ => []

/-- `acquire_credential`, up to where it waits for the cell. -/
def ask [DecidableEq α] (decl : CredGraph α) (stack : List (CredFrame α κ μ)) (addr : α)
    (keys : List κ) : CredCall α κ μ :=
  if addr ∈ stack.map CredFrame.addr then
    .failed (.cycle addr ((stack.map CredFrame.addr).reverse ++ [addr]))
  else if (decl addr).isNone then .failed (.notCredential addr)
  else .running (⟨addr, keys, .waiting⟩ :: stack)

/-- The innermost acquisition is over. -/
def deliver (a : Acquired κ μ) : List (CredFrame α κ μ) → CredCall α κ μ
  | [] => .done a
  | f :: rest => .running (f.receive a :: rest)

end CredCall

inductive CredEvent (α κ μ : Type) where
  /-- A new call, from a consumer. -/
  | call (addr : α)
  | lock (i : ℕ)
  /-- There is material in the cell. -/
  | reuse (i : ℕ)
  /-- There is none, and the `k`-th source is the first that applies. -/
  | walk (i k : ℕ)
  /-- No source applies. -/
  | skip (i : ℕ)
  /-- The next credential is asked for. -/
  | recurse (i : ℕ)
  /-- The store has material under the key. -/
  | hit (i : ℕ) (m : μ)
  /-- It has none. -/
  | mint (i : ℕ)
  /-- The source yields material. -/
  | obtain (i : ℕ) (m : μ)
  /-- Anything goes wrong with the cell locked. -/
  | refuse (i : ℕ)
  /-- The material of a cell is not usable any more. -/
  | expire (c : α × List κ)
  deriving DecidableEq

/-- The call that takes a step. -/
def CredEvent.call? {α κ μ : Type} : CredEvent α κ μ → Option ℕ
  | .call _ | .expire _ => none
  | .lock i | .reuse i | .walk i _ | .skip i | .recurse i | .hit i _ | .mint i | .obtain i _
  | .refuse i => some i

/-- The calls of a process and the cells that they share. The cells for which material has been
taken from a source are kept for what is to be said. -/
structure Acquisitions (α κ μ : Type) where
  calls : List (CredCall α κ μ)
  cells : α × List κ → Option (Acquired κ μ)
  minted : List (α × List κ)

namespace Acquisitions

variable {α κ μ : Type} [DecidableEq α] [DecidableEq κ] (decl : CredGraph α)
  (resolutionKey : α → CredSource α → List κ → κ) (s : Acquisitions α κ μ)

/-- Nobody has locked the cell. -/
def CellFree (c : α × List κ) : Prop :=
  ∀ call ∈ s.calls, ∀ f ∈ call.frames, f.cell = c → f.point.isWaiting = true

instance (c : α × List κ) : Decidable (s.CellFree c) :=
  inferInstanceAs (Decidable (∀ call ∈ s.calls, ∀ f ∈ call.frames, f.cell = c →
    f.point.isWaiting = true))

/-- The innermost acquisition of a call, and the ones around it. -/
def top (i : ℕ) : Option (CredFrame α κ μ × List (CredFrame α κ μ)) :=
  match s.calls[i]? with
  | some (.running (f :: rest)) => some (f, rest)
  | _ => none

def setCall (i : ℕ) (c : CredCall α κ μ) : Acquisitions α κ μ :=
  { s with calls := s.calls.set i c }

/-- The innermost acquisition is at another point. -/
def moveTo (i : ℕ) (f : CredFrame α κ μ) (rest : List (CredFrame α κ μ))
    (p : CredPoint α κ μ) : Acquisitions α κ μ :=
  s.setCall i (.running ({ f with point := p } :: rest))

/-- The innermost acquisition has material; it is kept in the cell. -/
def finish (i : ℕ) (f : CredFrame α κ μ) (rest : List (CredFrame α κ μ))
    (a : Acquired κ μ) : Acquisitions α κ μ :=
  { s.setCall i (.deliver a rest) with cells := update s.cells f.cell (some a) }

/-- One step. -/
def step [DecidableEq μ] : CredEvent α κ μ → Option (Acquisitions α κ μ)
  | .call addr => some { s with calls := s.calls ++ [.ask decl [] addr []] }
  | .lock i => do
    let (f, rest) ← s.top i
    guard (f.point.isWaiting = true ∧ s.CellFree f.cell)
    some (s.moveTo i f rest .walking)
  | .reuse i => do
    let (f, rest) ← s.top i
    match f.point with
    | .walking => do
      let a ← s.cells f.cell
      some (s.setCall i (.deliver a rest))
    | _ => none
  | .walk i k => do
    let (f, rest) ← s.top i
    match f.point with
    | .walking => do
      guard ((s.cells f.cell).isNone = true)
      let source ← (decl f.addr).bind (·[k]?)
      some (s.moveTo i f rest (.gathering source []))
    | _ => none
  | .skip i => do
    let (f, _) ← s.top i
    match f.point with
    | .walking => do
      guard ((s.cells f.cell).isNone = true)
      some (s.setCall i (.failed (.noApplicableSource f.addr)))
    | _ => none
  | .recurse i => do
    let (f, rest) ← s.top i
    let (addr, keys) ← f.nextCall
    some (s.setCall i (.ask decl (f :: rest) addr keys))
  | .hit i m => do
    let (f, rest) ← s.top i
    match f.point with
    | .gathering source got => do
      guard (f.nextCall.isNone = true)
      some (s.finish i f rest ⟨resolutionKey f.addr source (f.inner got), m⟩)
    | _ => none
  | .mint i => do
    let (f, rest) ← s.top i
    match f.point with
    | .gathering source got => do
      guard (f.nextCall.isNone = true)
      some (s.moveTo i f rest (.minting source got []))
    | _ => none
  | .obtain i m => do
    let (f, rest) ← s.top i
    match f.point with
    | .minting source got presented => do
      guard (f.nextCall.isNone = true ∧ source.kind.Yields presented m)
      some { s.finish i f rest ⟨resolutionKey f.addr source (f.inner got), m⟩ with
        minted := f.cell :: s.minted }
    | _ => none
  | .refuse i => do
    let (f, _) ← s.top i
    guard (f.point.isWaiting = false)
    some (s.setCall i (.failed (.acquire f.addr)))
  | .expire c => some { s with cells := update s.cells c none }

/-- All the interleavings of the calls of a process. -/
def machine {α κ μ : Type} [DecidableEq α] [DecidableEq κ] [DecidableEq μ] (decl : CredGraph α)
    (resolutionKey : α → CredSource α → List κ → κ) :
    Machine (Acquisitions α κ μ) (CredEvent α κ μ) :=
  ⟨⟨[], fun _ => none, []⟩, fun s => s.step decl resolutionKey⟩

/-! ### What a step does -/

section Did

/-- **What a step can do**, and what it tells of the state before. -/
inductive Did (decl : CredGraph α) (resolutionKey : α → CredSource α → List κ → κ)
    (s : Acquisitions α κ μ) : CredEvent α κ μ → Acquisitions α κ μ → Prop
  | called (addr : α) :
      Did decl resolutionKey s (.call addr) { s with calls := s.calls ++ [.ask decl [] addr []] }
  | locked {i f rest} (htop : s.top i = some (f, rest)) (hwait : f.point.isWaiting = true)
      (hfree : s.CellFree f.cell) :
      Did decl resolutionKey s (.lock i) (s.moveTo i f rest .walking)
  | reused {i f rest a} (htop : s.top i = some (f, rest)) (hpoint : f.point = .walking)
      (ha : s.cells f.cell = some a) :
      Did decl resolutionKey s (.reuse i) (s.setCall i (.deliver a rest))
  | walked {i k f rest source sources} (htop : s.top i = some (f, rest))
      (hpoint : f.point = .walking) (hnone : s.cells f.cell = none)
      (hdecl : decl f.addr = some sources) (hsource : source ∈ sources) :
      Did decl resolutionKey s (.walk i k) (s.moveTo i f rest (.gathering source []))
  | skipped {i f rest} (htop : s.top i = some (f, rest)) (hlocked : f.point.isWaiting = false) :
      Did decl resolutionKey s (.skip i) (s.setCall i (.failed (.noApplicableSource f.addr)))
  | asked {i f rest addr keys} (htop : s.top i = some (f, rest))
      (hnext : f.nextCall = some (addr, keys)) :
      Did decl resolutionKey s (.recurse i) (s.setCall i (.ask decl (f :: rest) addr keys))
  | found {i f rest source got} {m : μ} (htop : s.top i = some (f, rest))
      (hpoint : f.point = .gathering source got) (hnext : f.nextCall = none) :
      Did decl resolutionKey s (.hit i m)
        (s.finish i f rest ⟨resolutionKey f.addr source (f.inner got), m⟩)
  | missed {i f rest source got} (htop : s.top i = some (f, rest))
      (hpoint : f.point = .gathering source got) (hnext : f.nextCall = none) :
      Did decl resolutionKey s (.mint i) (s.moveTo i f rest (.minting source got []))
  | obtained {i f rest source got presented m} (htop : s.top i = some (f, rest))
      (hpoint : f.point = .minting source got presented) (hnext : f.nextCall = none) :
      Did decl resolutionKey s (.obtain i m)
        { s.finish i f rest ⟨resolutionKey f.addr source (f.inner got), m⟩ with
          minted := f.cell :: s.minted }
  | refused {i f rest} (htop : s.top i = some (f, rest)) (hlocked : f.point.isWaiting = false) :
      Did decl resolutionKey s (.refuse i) (s.setCall i (.failed (.acquire f.addr)))
  | expired (c : α × List κ) :
      Did decl resolutionKey s (.expire c) { s with cells := update s.cells c none }

variable [DecidableEq μ] {decl : CredGraph α} {resolutionKey : α → CredSource α → List κ → κ}
  {s s' : Acquisitions α κ μ} {e : CredEvent α κ μ}

omit [DecidableEq α] [DecidableEq κ] [DecidableEq μ] in
/-- The innermost acquisition is what an event looks at first. -/
theorem exists_top {i : ℕ} {β : Type} {b : β}
    {k : CredFrame α κ μ × List (CredFrame α κ μ) → Option β} (h : (s.top i).bind k = some b) :
    ∃ f rest, s.top i = some (f, rest) ∧ k (f, rest) = some b := by
  obtain ⟨⟨f, rest⟩, htop, hk⟩ := bind_eq_some_iff.mp h
  exact ⟨f, rest, htop, hk⟩

theorem did_of_step (h : s.step decl resolutionKey e = some s') :
    Did decl resolutionKey s e s' := by
  cases e with
  | call addr =>
    cases h
    exact .called addr
  | expire c =>
    cases h
    exact .expired c
  | lock i =>
    obtain ⟨f, rest, htop, hk⟩ := exists_top h
    obtain ⟨⟨hwait, hfree⟩, rfl⟩ : (_ ∧ _) ∧ _ = s' := by
      simpa [bind_eq_some_iff, guard_eq_some'] using hk
    exact .locked htop hwait hfree
  | refuse i =>
    obtain ⟨f, rest, htop, hk⟩ := exists_top h
    obtain ⟨hlocked, rfl⟩ : _ ∧ _ = s' := by
      simpa [bind_eq_some_iff, guard_eq_some'] using hk
    exact .refused htop hlocked
  | recurse i =>
    obtain ⟨f, rest, htop, hk⟩ := exists_top h
    obtain ⟨⟨addr, keys⟩, hnext, hk⟩ := bind_eq_some_iff.mp hk
    cases hk
    exact .asked htop hnext
  | reuse i =>
    obtain ⟨f, rest, htop, hk⟩ := exists_top h
    dsimp only at hk
    split at hk
    · next hpoint =>
      obtain ⟨a, ha, hk⟩ := bind_eq_some_iff.mp hk
      cases hk
      exact .reused htop hpoint ha
    · simp at hk
  | walk i k =>
    obtain ⟨f, rest, htop, hk⟩ := exists_top h
    dsimp only at hk
    split at hk
    · next hpoint =>
      obtain ⟨hnone, source, ⟨sources, hdecl, hsource⟩, rfl⟩ :
          s.cells f.cell = none ∧ ∃ source, (∃ sources, decl f.addr = some sources ∧
            sources[k]? = some source) ∧ s.moveTo i f rest (.gathering source []) = s' := by
        simpa [bind_eq_some_iff, guard_eq_some'] using hk
      exact .walked htop hpoint hnone hdecl (List.mem_of_getElem? hsource)
    · simp at hk
  | skip i =>
    obtain ⟨f, rest, htop, hk⟩ := exists_top h
    dsimp only at hk
    split at hk
    · next hpoint =>
      obtain ⟨-, rfl⟩ : s.cells f.cell = none ∧ _ = s' := by
        simpa [bind_eq_some_iff, guard_eq_some'] using hk
      exact .skipped htop (by rw [hpoint]; rfl)
    · simp at hk
  | hit i m =>
    obtain ⟨f, rest, htop, hk⟩ := exists_top h
    dsimp only at hk
    split at hk
    · next source got hpoint =>
      obtain ⟨hnext, rfl⟩ : f.nextCall = none ∧ _ = s' := by
        simpa [bind_eq_some_iff, guard_eq_some'] using hk
      exact .found htop hpoint hnext
    · simp at hk
  | mint i =>
    obtain ⟨f, rest, htop, hk⟩ := exists_top h
    dsimp only at hk
    split at hk
    · next source got hpoint =>
      obtain ⟨hnext, rfl⟩ : f.nextCall = none ∧ _ = s' := by
        simpa [bind_eq_some_iff, guard_eq_some'] using hk
      exact .missed htop hpoint hnext
    · simp at hk
  | obtain i m =>
    obtain ⟨f, rest, htop, hk⟩ := exists_top h
    dsimp only at hk
    split at hk
    · next source got presented hpoint =>
      obtain ⟨⟨hnext, -⟩, rfl⟩ : (f.nextCall = none ∧ _) ∧ _ = s' := by
        simpa [bind_eq_some_iff, guard_eq_some'] using hk
      exact .obtained htop hpoint hnext
    · simp at hk

end Did

end Acquisitions

end Heph
