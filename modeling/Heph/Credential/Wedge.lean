import Heph.Credential.Acquire
import Heph.Lib.WaitFor

/-!
# Acquisitions that wait for each other

A declaration cycle is found by the recursion guard, which looks at what the **call** has visited.
The cells are shared by all calls. So two calls that enter one cycle at different places can each
hold the cell that the other one waits for, and neither gets to where its guard would find the cycle
(`Acquisitions.two_callers_wedged`).

The keys of a chain only grow along a stack of acquisitions, and the cells tell chains with
different keys apart. Hence a circle of waiting calls goes through declarations that pass the chain
on **with the keys unchanged** (`CredGraph.Passes`): to the first credential of a source, or by
a delegation from a source without credentials. If these form a cycle of two or more, some
interleaving of calls is wedged, and otherwise none is (`Acquisitions.wedge_free_iff`).
-/

namespace Heph

open List Finset Machine Relation CredCall CredSource CredPoint

/-- The credential that is acquired with the keys of the chain as they are. -/
def CredSource.first {α : Type} (source : CredSource α) : Option α :=
  match source.credentials, source.kind with
  | c :: _, _ => some c
  | [], .credential target => some target
  | [], .plain | [], .exec => none

namespace CredGraph

variable {α κ : Type} (decl : CredGraph α)

/-- A source of the first credential passes the chain on to the second with the keys unchanged. -/
def Passes (a b : α) : Prop :=
  a ≠ b ∧ (decl b).isSome ∧
    ∃ sources, decl a = some sources ∧ ∃ source ∈ sources, source.first = some b

/-- From one cell to another: the keys of the chain are longer, or it has been passed on. -/
def Deeper (x y : α × List κ) : Prop :=
  x.2 <+: y.2 ∧ (x.2.length = y.2.length → TransGen decl.Passes x.1 y.1)

variable {decl}

theorem Deeper.trans {x y z : α × List κ} (h : decl.Deeper x y) (h' : decl.Deeper y z) :
    decl.Deeper x z := by
  refine ⟨h.1.trans h'.1, fun hlen => ?_⟩
  have hxy := h.1.length_le
  have hyz := h'.1.length_le
  exact (h.2 (by omega)).trans (h'.2 (by omega))

end CredGraph

namespace Acquisitions

/-! ### Stacks -/

variable {α κ μ : Type} {decl : CredGraph α} {f f' : CredFrame α κ μ}
  {rest stack : List (CredFrame α κ μ)}

/-- An acquisition: its credential is declared, with the chosen source; and where material is taken
from the source, the credentials for the key have been acquired. -/
structure FrameOk (decl : CredGraph α) (f : CredFrame α κ μ) : Prop where
  declared : (decl f.addr).isSome
  source : ∀ source ∈ f.point.source?, ∃ sources, decl f.addr = some sources ∧ source ∈ sources
  gathered : ∀ source got presented, f.point = .minting source got presented →
    source.credentials.length ≤ got.length

/-- A stack: each acquisition is what the one around it acquires next, and has not been visited. -/
structure StackOk (decl : CredGraph α) (stack : List (CredFrame α κ μ)) : Prop where
  frames : ∀ f ∈ stack, FrameOk decl f
  calls : stack.IsChain fun inner outer => outer.nextCall = some inner.cell
  nodup : (stack.map CredFrame.addr).Nodup

theorem StackOk.tail (h : StackOk decl (f :: rest)) : StackOk decl rest :=
  ⟨fun g hg => h.frames g (mem_cons_of_mem _ hg), h.calls.tail, (nodup_cons.mp h.nodup).2⟩

/-- The innermost acquisition may go to another point. -/
theorem StackOk.move (h : StackOk decl (f :: rest)) (hcell : f'.cell = f.cell)
    (hf : FrameOk decl f') : StackOk decl (f' :: rest) where
  frames := forall_mem_cons.mpr ⟨hf, h.tail.frames⟩
  calls := by
    have hcalls := h.calls
    cases rest with
    | nil => exact isChain_singleton _
    | cons g rest =>
      obtain ⟨hg, hrest⟩ := isChain_cons_cons.mp hcalls
      exact isChain_cons_cons.mpr ⟨hcell ▸ hg, hrest⟩
  nodup := by
    have haddr : f'.addr = f.addr := congrArg Prod.fst hcell
    have hnodup := h.nodup
    rwa [List.map_cons, ← haddr, ← List.map_cons] at hnodup

theorem FrameOk.receive (h : FrameOk decl f) (a : Acquired κ μ) : FrameOk decl (f.receive a) := by
  obtain ⟨addr, keys, point⟩ := f
  cases point with
  | waiting | walking => exact h
  | gathering source got => exact ⟨h.declared, h.source, fun _ _ _ hp => by cases hp⟩
  | minting source got presented =>
    refine ⟨h.declared, h.source, fun source' got' presented' hp => ?_⟩
    obtain ⟨rfl, rfl, -⟩ : source = source' ∧ got = got' ∧ _ = presented' := by
      simpa [CredFrame.receive] using hp
    exact h.gathered source got presented rfl

theorem cell_receive (a : Acquired κ μ) : (f.receive a).cell = f.cell := by
  obtain ⟨addr, keys, point⟩ := f
  cases point <;> rfl

/-- Whoever is acquired next comes deeper. -/
theorem deeper_of_nextCall {c : α × List κ} (hf : FrameOk decl f) (hnext : f.nextCall = some c)
    (hne : f.addr ≠ c.1) (hdecl : (decl c.1).isSome) : decl.Deeper f.cell c := by
  have hpasses : ∀ source ∈ f.point.source?, source.first = some c.1 →
      TransGen decl.Passes f.addr c.1 := by
    intro source hsource hfirst
    obtain ⟨sources, hsources, hmem⟩ := hf.source source hsource
    exact .single ⟨hne, hdecl, sources, hsources, source, hmem, hfirst⟩
  obtain ⟨addr, keys, point⟩ := f
  cases point with
  | waiting | walking => simp [CredFrame.nextCall] at hnext
  | gathering source got =>
    obtain ⟨b, hb, rfl⟩ : ∃ b, source.credentials[got.length]? = some b ∧ _ = c := by
      simpa [CredFrame.nextCall] using hnext
    refine ⟨prefix_append .., fun hlen => hpasses source rfl ?_⟩
    obtain rfl : got = [] := by simpa [CredFrame.inner, CredFrame.cell] using hlen
    cases hc : source.credentials with
    | nil => simp [hc] at hb
    | cons b' l =>
      obtain rfl : b' = b := by simpa [hc] using hb
      simp [first, hc]
  | minting source got presented =>
    have hgathered := hf.gathered source got presented rfl
    simp only [CredFrame.nextCall] at hnext
    split at hnext
    · simp at hnext
    · -- a command is presented credentials under keys that name them
      obtain ⟨b, hb, rfl⟩ : ∃ b, source.credentials[presented.length]? = some b ∧ _ = c := by
        simpa using hnext
      refine ⟨prefix_append .., fun hlen => ?_⟩
      obtain rfl : got = [] := by simpa [CredFrame.inner, CredFrame.cell] using hlen
      have hlt := (List.getElem?_eq_some_iff.mp hb).1
      simp at hgathered
      simp [hgathered] at hlt
    · next target hkind =>
      obtain ⟨b, hb, rfl⟩ : ∃ b, [target][presented.length]? = some b ∧ _ = c := by
        simpa using hnext
      refine ⟨prefix_append .., fun hlen => hpasses source rfl ?_⟩
      obtain rfl : got = [] := by simpa [CredFrame.inner, CredFrame.cell] using hlen
      obtain rfl : b = target := by simpa using mem_of_getElem? hb
      simp at hgathered
      simp [first, hgathered, hkind]

/-- **Every acquisition comes deeper than those around it.** -/
theorem StackOk.deeper (h : StackOk decl (f :: rest)) : ∀ g ∈ rest, decl.Deeper g.cell f.cell := by
  induction rest generalizing f with
  | nil => simp
  | cons g rest ih =>
    obtain ⟨hnext, -⟩ := isChain_cons_cons.mp h.calls
    have hne : g.addr ≠ f.addr := by
      have hnodup := h.nodup
      rw [List.map_cons, nodup_cons] at hnodup
      exact fun he => hnodup.1 (he ▸ mem_cons_self)
    have hg : decl.Deeper g.cell f.cell :=
      deeper_of_nextCall (h.frames g (by simp)) hnext hne (h.frames f (by simp)).declared
    intro g' hg'
    rcases mem_cons.mp hg' with rfl | hmem
    · exact hg
    · exact (ih h.tail g' hmem).trans hg

/-! ### Runs keep the stacks -/

section Run

variable {s s' : Acquisitions α κ μ}

/-- All the stacks are such. -/
def StacksOk (decl : CredGraph α) (s : Acquisitions α κ μ) : Prop :=
  ∀ c ∈ s.calls, StackOk decl c.frames

theorem stackOk_nil : StackOk decl ([] : List (CredFrame α κ μ)) :=
  ⟨by simp, isChain_nil, nodup_nil⟩

theorem calls_of_top {i : ℕ}
    (h : s.top i = some (f, rest)) : s.calls[i]? = some (.running (f :: rest)) := by
  rw [top] at h
  split at h
  · next f' rest' hcall =>
    obtain ⟨rfl, rfl⟩ : f' = f ∧ rest' = rest := by simpa using h
    exact hcall
  · simp at h

theorem StacksOk.top (h : StacksOk decl s) {i : ℕ}
    (htop : s.top i = some (f, rest)) : StackOk decl (f :: rest) :=
  h _ (mem_of_getElem? (calls_of_top htop))

theorem StacksOk.setCall (h : StacksOk decl s) (i : ℕ) {c : CredCall α κ μ}
    (hc : StackOk decl c.frames) : StacksOk decl (s.setCall i c) := by
  intro c' hc'
  rcases mem_or_eq_of_mem_set hc' with hmem | rfl
  · exact h c' hmem
  · exact hc

/-- `Chain::enter` keeps what has been visited from being visited again. -/
theorem stackOk_ask [DecidableEq α] {stack : List (CredFrame α κ μ)} {addr : α} {keys : List κ}
    (h : StackOk decl stack) (hnext : ∀ f ∈ stack.head?, f.nextCall = some (addr, keys)) :
    StackOk decl (ask decl stack addr keys).frames := by
  rw [ask]
  split
  · exact stackOk_nil
  · next hvisited =>
    split
    · exact stackOk_nil
    · next hdecl =>
      have hframe : FrameOk decl (⟨addr, keys, .waiting⟩ : CredFrame α κ μ) :=
        ⟨by simpa [← Option.isSome_iff_ne_none] using hdecl, by simp [source?], by simp⟩
      refine ⟨forall_mem_cons.mpr ⟨hframe, h.frames⟩, ?_, ?_⟩
      · cases stack with
        | nil => exact isChain_singleton _
        | cons f rest => exact isChain_cons_cons.mpr ⟨hnext f rfl, h.calls⟩
      · exact nodup_cons.mpr ⟨hvisited, h.nodup⟩

theorem stackOk_deliver {a : Acquired κ μ}
    (h : StackOk decl rest) : StackOk decl (deliver a rest).frames := by
  cases rest with
  | nil => exact stackOk_nil
  | cons f rest => exact h.move (cell_receive a) ((h.frames f (by simp)).receive a)

variable [DecidableEq α] [DecidableEq κ] [DecidableEq μ]
  {resolutionKey : α → CredSource α → List κ → κ} {e : CredEvent α κ μ}

theorem StacksOk.step (h : StacksOk decl s) (hstep : s.step decl resolutionKey e = some s') :
    StacksOk decl s' := by
  cases did_of_step hstep with
  | called addr =>
    intro c hc
    rcases mem_append.mp hc with hmem | hmem
    · exact h c hmem
    · obtain rfl := List.mem_singleton.mp hmem
      exact stackOk_ask stackOk_nil (by simp)
  | locked htop hwait hfree =>
    have hframe := (h.top htop).frames _ mem_cons_self
    refine h.setCall _ ((h.top htop).move rfl ⟨hframe.declared, ?_, by simp⟩)
    simp [source?]
  | reused htop hpoint ha => exact h.setCall _ (stackOk_deliver (h.top htop).tail)
  | walked htop hpoint hnone hdecl hsource =>
    have hframe := (h.top htop).frames _ mem_cons_self
    refine h.setCall _ ((h.top htop).move rfl ⟨hframe.declared, ?_, by simp⟩)
    intro source hs
    cases hs
    exact ⟨_, hdecl, hsource⟩
  | skipped | refused => exact h.setCall _ stackOk_nil
  | asked htop hnext =>
    refine h.setCall _ (stackOk_ask (h.top htop) ?_)
    rintro f hf
    cases hf
    exact hnext
  | found htop hpoint hnext => exact h.setCall _ (stackOk_deliver (h.top htop).tail)
  | @missed i f rest source got htop hpoint hnext =>
    have hframe := (h.top htop).frames _ mem_cons_self
    refine h.setCall _ ((h.top htop).move rfl ⟨hframe.declared, ?_, ?_⟩)
    · exact fun source hs => hframe.source source (by rw [hpoint]; exact hs)
    · rintro source' got' presented' hp
      obtain ⟨rfl, rfl, -⟩ : source = source' ∧ got = got' ∧ [] = presented' := by simpa using hp
      simpa [CredFrame.nextCall, hpoint] using hnext
  | obtained htop hpoint hnext => exact h.setCall _ (stackOk_deliver (h.top htop).tail)
  | expired c => exact h

theorem stacksOk_of_run {es : List (CredEvent α κ μ)}
    (h : (machine decl resolutionKey).run es = some s) : StacksOk decl s := by
  refine run_invariant ?_ (fun _ _ _ hs hstep => hs.step hstep) h
  rintro c ⟨⟩

end Run

/-! ### Wedged calls -/

section Wedged

variable (s : Acquisitions α κ μ)

/-- The call waits for a cell. -/
def Waits (i : ℕ) (c : α × List κ) : Prop :=
  ∃ f rest, s.top i = some (f, rest) ∧ f.point.isWaiting = true ∧ f.cell = c

/-- The call has locked a cell. -/
def Locks (i : ℕ) (c : α × List κ) : Prop :=
  ∃ call, s.calls[i]? = some call ∧ ∃ f ∈ call.frames, f.cell = c ∧ f.point.isWaiting = false

/-- **Wedged**: some calls each wait for a cell that another one of them has locked. -/
def Wedged : Prop :=
  ∃ S : Set ℕ, S.Nonempty ∧ ∀ i ∈ S, ∃ c, s.Waits i c ∧ ∃ j ∈ S, j ≠ i ∧ s.Locks j c

/-- The call has come to a declaration cycle: what it acquires next has been visited. -/
def AtCycle (i : ℕ) : Prop :=
  ∃ f rest addr keys, s.top i = some (f, rest) ∧ f.nextCall = some (addr, keys) ∧
    addr ∈ (f :: rest).map CredFrame.addr

/-- Who waits for a cell, and who has locked it. -/
def waitFor : WaitFor ℕ (α × List κ) := ⟨fun _ _ => False, s.Waits, s.Locks⟩

variable {s}

/-- What a call waits for comes deeper than all that it has locked. -/
theorem deeper_of_locks_of_waits (hs : StacksOk decl s) {i : ℕ} {x y : α × List κ}
    (hx : s.Locks i x) (hy : s.Waits i y) : decl.Deeper x y := by
  obtain ⟨f, rest, htop, hwait, rfl⟩ := hy
  obtain ⟨call, hcall, g, hg, rfl, hlocked⟩ := hx
  obtain rfl : _ = call := Option.some.inj ((calls_of_top htop).symm.trans hcall)
  rcases mem_cons.mp hg with rfl | hmem
  · simp [hwait] at hlocked
  · exact (hs.top htop).deeper g hmem

/-- **Calls that wait for each other come from declarations that pass the chain on in a cycle.** -/
theorem Wedged.exists_cycle (hs : StacksOk decl s) (h : s.Wedged) :
    ∃ a, TransGen decl.Passes a a := by
  obtain ⟨S, hne, hS⟩ := h
  have hstuck : s.waitFor.Stuck S := by
    intro i hi
    obtain ⟨c, hc, j, hj, -, hlocks⟩ := hS i hi
    exact .inr ⟨c, hc, j, hj, hlocks⟩
  have hfin : S.Finite := by
    refine (Set.finite_lt_nat s.calls.length).subset fun i hi => ?_
    obtain ⟨c, ⟨f, rest, htop, -⟩, -⟩ := hS i hi
    exact (List.getElem?_eq_some_iff.mp (calls_of_top htop)).1
  have hwf : WellFounded fun q p : ℕ => s.waitFor.awaits p q := ⟨fun p => ⟨p, fun q hq => hq.elim⟩⟩
  obtain ⟨c, hc⟩ := hstuck.exists_cycle hfin hne hwf
  have hdeeper : TransGen decl.Deeper c c := by
    refine .mono ?_ _ _ hc
    rintro x y ⟨p, -, r, -, hx, hpr, hy⟩
    rcases hpr.cases_head with rfl | ⟨q, hq, -⟩
    · exact deeper_of_locks_of_waits hs hx hy
    · exact hq.elim
  -- the keys cannot grow around the circle
  have htrans : IsTrans (α × List κ) decl.Deeper := ⟨fun _ _ _ => CredGraph.Deeper.trans⟩
  rw [transGen_eq_self] at hdeeper
  exact ⟨c.1, hdeeper.2 rfl⟩

end Wedged

/-! ### The recursion guard -/

section Guard

variable [DecidableEq α] [DecidableEq κ] [DecidableEq μ]
  {resolutionKey : α → CredSource α → List κ → κ} {s : Acquisitions α κ μ} {i : ℕ}

/-- **The call ends with an error**: it can take a step, and whatever step it takes is into an
error. -/
def EndsInError (decl : CredGraph α) (resolutionKey : α → CredSource α → List κ → κ)
    (s : Acquisitions α κ μ) (i : ℕ) : Prop :=
  (∃ e : CredEvent α κ μ, e.call? = some i ∧ (s.step decl resolutionKey e).isSome) ∧
    ∀ (e : CredEvent α κ μ) s', e.call? = some i → s.step decl resolutionKey e = some s' →
      ∃ error, s'.calls[i]? = some (.failed error)

omit [DecidableEq α] [DecidableEq κ] [DecidableEq μ] in
theorem calls_setCall {f : CredFrame α κ μ} {rest : List (CredFrame α κ μ)}
    (htop : s.top i = some (f, rest)) (c : CredCall α κ μ) :
    (s.setCall i c).calls[i]? = some c := by
  have hlt := (List.getElem?_eq_some_iff.mp (calls_of_top htop)).1
  simp [setCall, hlt]

/-- A call that has come to a declaration cycle ends with an error. -/
theorem AtCycle.endsInError (h : s.AtCycle i) : EndsInError decl resolutionKey s i := by
  obtain ⟨f, rest, addr, keys, htop, hnext, hvisited⟩ := h
  refine ⟨⟨.recurse i, rfl, by simp [step, htop, hnext]⟩, fun e s' he hstep => ?_⟩
  have htop' : ∀ {g rest'}, s.top i = some (g, rest') → f = g := by
    intro g rest' hg
    have := htop.symm.trans hg
    simp at this
    exact this.1
  -- only the next credential can be asked for: nothing else is possible with one to acquire
  cases did_of_step hstep with
  | called | expired => cases he
  | locked ht hwait hfree =>
    cases he
    obtain rfl := htop' ht
    obtain ⟨_, _, point⟩ := f
    cases point <;> simp [isWaiting, CredFrame.nextCall] at hwait hnext
  | reused ht hpoint | walked ht hpoint =>
    cases he
    obtain rfl := htop' ht
    simp [CredFrame.nextCall, hpoint] at hnext
  | found ht hpoint hnone | missed ht hpoint hnone | obtained ht hpoint hnone =>
    cases he
    obtain rfl := htop' ht
    simp [hnone] at hnext
  | skipped ht | refused ht =>
    cases he
    exact ⟨_, calls_setCall ht _⟩
  | @asked j g rest' addr' keys' ht hnext' =>
    cases he
    obtain ⟨rfl, rfl⟩ : f = g ∧ rest = rest' := by simpa [htop] using ht
    obtain ⟨rfl, rfl⟩ : addr = addr' ∧ keys = keys' := by simpa [hnext] using hnext'
    refine ⟨.cycle addr (((f :: rest).map CredFrame.addr).reverse ++ [addr]), ?_⟩
    rw [calls_setCall ht, ask, if_pos hvisited]

end Guard

/-! ### A call for each member of a cycle -/

section Callers

/-- A call that has locked the cell of a credential and waits for the cell of the one that the chain
is passed on to. -/
def PassedOn (decl : CredGraph α) (a b : α) (c : CredCall α κ μ) : Prop :=
  decl.Passes a b ∧ ∃ f : CredFrame α κ μ, c = .running [⟨b, [], .waiting⟩, f] ∧
    f.cell = (a, []) ∧ f.point.isWaiting = false

variable (resolutionKey : α → CredSource α → List κ → κ) {s : Acquisitions α κ μ}
  {l : List (CredCall α κ μ)} {cells : α × List κ → Option (Acquired κ μ)}
  {minted : List (α × List κ)}

theorem top_append {f : CredFrame α κ μ}
    {rest : List (CredFrame α κ μ)} :
    (⟨l ++ [.running (f :: rest)], cells, minted⟩ : Acquisitions α κ μ).top l.length =
      some (f, rest) := by
  simp [top]

theorem setCall_append {c c' : CredCall α κ μ} :
    (⟨l ++ [c], cells, minted⟩ : Acquisitions α κ μ).setCall l.length c' =
      ⟨l ++ [c'], cells, minted⟩ := by
  simp [setCall]

/-- The members of a cycle: each leads to one of them. -/
theorem exists_closed_of_transGen {r : α → α → Prop} {a b : α} (h : TransGen r a b) :
    ∃ C : Finset α, a ∈ C ∧ ∀ x ∈ C, ∃ y, r x y ∧ (y ∈ C ∨ y = b) := by
  classical
  induction h using TransGen.head_induction_on with
  | @single a hab => exact ⟨{a}, by simp, by simpa using ⟨b, hab, .inr rfl⟩⟩
  | @head a c hac _ ih =>
    obtain ⟨C, hc, hC⟩ := ih
    refine ⟨insert a C, by simp, fun x hx => ?_⟩
    rcases mem_insert.mp hx with rfl | hx
    · exact ⟨c, hac, .inl (by simp [hc])⟩
    · obtain ⟨y, hxy, hy⟩ := hC x hx
      exact ⟨y, hxy, hy.imp_left (by simp +contextual)⟩

variable [DecidableEq α] [DecidableEq κ] [DecidableEq μ] {a : α} {C : Set α}

/-- A new call, up to where it waits for the cell that the chain is passed on to. -/
theorem exists_passedOn {b : α} (hpass : decl.Passes a b) (hfree : s.CellFree (a, []))
    (hnone : s.cells (a, []) = none) :
    ∃ es c, (machine decl resolutionKey).runFrom s es = some { s with calls := s.calls ++ [c] } ∧
      PassedOn decl a b c := by
  obtain ⟨hne, hb, sources, hsources, source, hsource, hfirst⟩ := id hpass
  obtain ⟨k, hk⟩ := getElem?_of_mem hsource
  obtain ⟨calls, cells, minted⟩ := s
  replace hnone : cells (a, []) = none := hnone
  have hfree' : (⟨calls ++ [.running [⟨a, [], .waiting⟩]], cells, minted⟩ :
      Acquisitions α κ μ).CellFree (a, []) := by
    intro c hc f hf hcell
    rcases mem_append.mp hc with hmem | hmem
    · exact hfree c hmem f hf hcell
    · obtain rfl := List.mem_singleton.mp hmem
      obtain rfl := List.mem_singleton.mp hf
      rfl
  have hask : ∀ f : CredFrame α κ μ, f.addr = a →
      ask decl [f] b [] = .running [⟨b, [], .waiting⟩, f] := by
    rintro f rfl
    simp [ask, hne.symm, Option.isSome_iff_ne_none.mp hb]
  -- to where the source is chosen
  have hchosen : (machine decl resolutionKey).runFrom ⟨calls, cells, minted⟩
      [.call a, .lock calls.length, .walk calls.length k] =
      some ⟨calls ++ [.running [⟨a, [], .gathering source []⟩]], cells, minted⟩ := by
    have hcall : ask decl [] a [] = (.running [⟨a, [], .waiting⟩] : CredCall α κ μ) := by
      simp [ask, hsources]
    simp [runFrom, machine, step, hcall, top_append, isWaiting, CredFrame.cell,
      hfree', moveTo, setCall_append, hnone, hsources, hk]
  cases hc : source.credentials with
  | cons b' l =>
    obtain rfl : b' = b := by simpa [first, hc] using hfirst
    refine ⟨_ ++ [.recurse calls.length], .running [_, ⟨a, [], .gathering source []⟩],
      runFrom_append.mpr ⟨_, hchosen, ?_⟩, hpass, _, rfl, rfl, rfl⟩
    simp [runFrom, machine, step, top_append, CredFrame.nextCall, hc, CredFrame.inner,
      setCall_append, hask]
  | nil =>
    have hkind : source.kind = .credential b := by
      cases hkind : source.kind <;> simp [first, hc, hkind] at hfirst
      rw [hfirst]
    refine ⟨_ ++ [.mint calls.length, .recurse calls.length],
      .running [_, ⟨a, [], .minting source [] []⟩],
      runFrom_append.mpr ⟨_, hchosen, ?_⟩, hpass, _, rfl, rfl, rfl⟩
    simp [runFrom, machine, step, top_append, CredFrame.nextCall, hc, hkind,
      CredFrame.inner, moveTo, setCall_append, hask]

omit [DecidableEq α] [DecidableEq κ] [DecidableEq μ] in
/-- The cell of another credential is free. -/
theorem cellFree_of_passedOn {l : List α}
    (hcalls : List.Forall₂ (fun a c => ∃ b ∈ C, PassedOn decl a b c) l s.calls)
    (ha : a ∉ l) : s.CellFree (a, []) := by
  intro c hc f hf hcell
  obtain ⟨i, hi, rfl⟩ := mem_iff_getElem.mp hc
  have hi' : i < l.length := by rwa [hcalls.length_eq]
  obtain ⟨b, -, -, g, hrunning, hg, -⟩ := hcalls.get hi' hi
  rw [get_eq_getElem] at hrunning hg
  rw [hrunning] at hf
  rcases mem_cons.mp hf with rfl | hf
  · rfl
  · obtain rfl := List.mem_singleton.mp hf
    have haddr : l[i] = a := (congrArg Prod.fst hg).symm.trans (congrArg Prod.fst hcell)
    exact absurd (haddr ▸ getElem_mem _) ha

/-- A call for each of some credentials, which all pass the chain on to credentials of a set. -/
theorem exists_run_passedOn (l : List α) (hnodup : l.Nodup)
    (hpass : ∀ a ∈ l, ∃ b ∈ C, decl.Passes a b) :
    ∃ es s, (machine (μ := μ) decl resolutionKey).run es = some s ∧ (∀ c, s.cells c = none) ∧
      List.Forall₂ (fun a c => ∃ b ∈ C, PassedOn decl a b c) l s.calls := by
  induction l using reverseRecOn with
  | nil => exact ⟨[], _, rfl, fun _ => rfl, .nil⟩
  | append_singleton l a ih =>
    have hsplit := nodup_append.mp hnodup
    obtain ⟨es, s, hrun, hnone, hcalls⟩ :=
      ih hsplit.1 fun a' ha' => hpass a' (mem_append_left _ ha')
    obtain ⟨b, hb, hab⟩ := hpass a (by simp)
    have ha : a ∉ l := fun ha => hsplit.2.2 a ha a (by simp) rfl
    obtain ⟨es', c, hrun', hc⟩ := exists_passedOn resolutionKey hab
      (cellFree_of_passedOn hcalls ha) (hnone _)
    exact ⟨es ++ es', _, run_append.mpr ⟨s, hrun, hrun'⟩, hnone,
      rel_append hcalls (.cons ⟨b, hb, hc⟩ .nil)⟩

/-- **Declarations that pass the chain on in a cycle wedge some calls.** -/
theorem exists_wedged (h : TransGen decl.Passes a a) :
    ∃ es s, (machine (μ := μ) decl resolutionKey).run es = some s ∧ s.Wedged := by
  obtain ⟨C, ha, hC⟩ := exists_closed_of_transGen h
  have hpass : ∀ x ∈ C.toList, ∃ y ∈ (C : Set α), decl.Passes x y := by
    intro x hx
    obtain ⟨y, hxy, hy⟩ := hC x (by simpa using hx)
    exact ⟨y, by rcases hy with hy | rfl <;> simpa, hxy⟩
  obtain ⟨es, s, hrun, -, hcalls⟩ :=
    exists_run_passedOn (μ := μ) resolutionKey C.toList C.nodup_toList hpass
  refine ⟨es, s, hrun, {i | i < s.calls.length}, ?_, fun i hi => ?_⟩
  · refine ⟨0, ?_⟩
    have hlen := hcalls.length_eq
    have hpos : 0 < C.toList.length := by
      rw [length_toList]
      exact card_pos.mpr ⟨a, ha⟩
    rwa [hlen] at hpos
  · obtain ⟨b, hb, hab, f, hrunning, -⟩ := hcalls.get (by rw [hcalls.length_eq]; exact hi) hi
    obtain ⟨j, hj, hjb⟩ := mem_iff_getElem.mp (mem_toList.mpr hb)
    have hj' : j < s.calls.length := by rwa [← hcalls.length_eq]
    obtain ⟨b', -, -, g, hrunning', hg, hlocked⟩ := hcalls.get hj hj'
    rw [get_eq_getElem] at hrunning hrunning'
    refine ⟨(b, []), ⟨⟨b, [], .waiting⟩, [f], ?_, rfl, rfl⟩, j, hj', ?_, _,
      getElem?_eq_getElem hj', g, ?_, ?_, hlocked⟩
    · rw [top, getElem?_eq_getElem hi, hrunning]
    · rintro rfl
      exact hab.1 hjb
    · rw [hrunning']
      exact mem_cons_of_mem _ (List.mem_singleton_self g)
    · rw [hg, ← hjb]
      rfl

end Callers

/-! ### Two callers -/

/-- Two credentials, each of which is acquired by a command that needs the other one. -/
def mutualGraph : CredGraph Bool := fun a => some [⟨.exec, [!a], ""⟩]

/-- Two calls that enter the cycle at its two members. -/
def mutualCalls : List (CredEvent Bool Unit Unit) :=
  [.call true, .lock 0, .walk 0 0, .recurse 0, .call false, .lock 1, .walk 1 0, .recurse 1]

/-- Each call has locked the cell of its own credential and asks for the other one. -/
def mutualState : Acquisitions Bool Unit Unit where
  calls := [.running [⟨false, [], .waiting⟩, ⟨true, [], .gathering ⟨.exec, [false], ""⟩ []⟩],
    .running [⟨true, [], .waiting⟩, ⟨false, [], .gathering ⟨.exec, [true], ""⟩ []⟩]]
  cells _ := none
  minted := []

/-- **Two calls wait for each other**; they are in a declaration cycle, and neither of them ends. -/
theorem two_callers_wedged :
    (machine mutualGraph fun _ _ _ => ()).run mutualCalls = some mutualState ∧
      mutualState.Wedged := by
  refine ⟨rfl, {i | i < 2}, ⟨0, by simp⟩, ?_⟩
  rintro i hi
  obtain rfl | rfl : i = 0 ∨ i = 1 := by
    simp only [Set.mem_ofPred_eq] at hi
    omega
  · exact ⟨_, ⟨_, _, rfl, rfl, rfl⟩, 1, by simp, by simp, _, rfl, _,
      mem_cons_of_mem _ (List.mem_singleton_self _), rfl, rfl⟩
  · exact ⟨_, ⟨_, _, rfl, rfl, rfl⟩, 0, by simp, by simp, _, rfl, _,
      mem_cons_of_mem _ (List.mem_singleton_self _), rfl, rfl⟩

/-! ### When nothing is wedged -/

/-- **No interleaving of calls is wedged, and a call that comes to a declaration cycle ends with an
error, if and only if the declarations do not pass the chain on in a cycle.** -/
theorem wedge_free_iff {α κ μ : Type} [DecidableEq α] [DecidableEq κ] [DecidableEq μ]
    (decl : CredGraph α) (resolutionKey : α → CredSource α → List κ → κ) :
    (∀ (es : List (CredEvent α κ μ)) s, (machine decl resolutionKey).run es = some s →
      ¬ s.Wedged ∧ ∀ i, s.AtCycle i → EndsInError decl resolutionKey s i) ↔
      ∀ a, ¬ TransGen decl.Passes a a := by
  constructor
  · intro h a ha
    obtain ⟨es, s, hrun, hwedged⟩ := exists_wedged (μ := μ) resolutionKey ha
    exact (h es s hrun).1 hwedged
  · intro h es s hrun
    refine ⟨fun hwedged => ?_, fun i hi => hi.endsInError⟩
    obtain ⟨a, ha⟩ := hwedged.exists_cycle (stacksOk_of_run hrun)
    exact h a ha

end Acquisitions

end Heph
