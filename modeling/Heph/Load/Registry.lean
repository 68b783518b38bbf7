import Heph.Lib.Parties
import Heph.Lib.SortedMap
import Heph.Lib.WaitFor

/-!
# Loading build files

A build file may `load()` other build files, or all the build files of a directory. Packages are
evaluated side by side, each by a **chain** of its own – a stack of files and directories that
are being loaded, each by the one below it – and a file that one chain evaluates is waited for by
the others: they block in `LoadRegistry::claim` until its holder releases it.

Whoever is about to wait first follows who waits for whom from the holder on. If that comes back
to itself it fails with `load() cycle detected`. Then

* no set of chains ever blocks itself, although a chain that is to wake up may find that its file
  has changed hands: the new holder does not wait when it takes over, and when it does it looks
  first;
* following the edges always comes to an end;
* a cycle that is reported is one of the load graph: what a chain holds lies on its stack, so
  loading it leads to what the chain waits for.

All three are in `Load.loading_safe`.
-/

namespace Heph.Load

open List Option Function SortedMap Relation

/-! ### Load graphs -/

section

variable {P : Type}

/-- What can be loaded. -/
inductive Node (P : Type) where
  | file (p : P)
  | dir (p : P)
  deriving DecidableEq

/-- What the build files load, and which build files the directories have. -/
structure LoadGraph (P : Type) where
  loads : P → List (Node P)
  files : P → List P

/-- The first loads the second. -/
def LoadGraph.Edge (g : LoadGraph P) : Node P → Node P → Prop
  | .file f, n => n ∈ g.loads f
  | .dir d, n => ∃ f ∈ g.files d, n = .file f

/-- There is a cycle in the graph. -/
def LoadGraph.Cyclic (g : LoadGraph P) : Prop := ∃ n, TransGen g.Edge n n

/-! ### The registry -/

/-- `LoadRegistryState`, and the caches of what is loaded. -/
structure Registry (P : Type) where
  holder : P → Option ℕ
  waiting : SortedMap ℕ P
  fileCache : P → Bool
  dirCache : P → Bool

/-- The wait-for walk inside `claim`: whether it comes back to the chain. -/
def walk (s : Registry P) (chain : ℕ) : ℕ → ℕ → Option Bool
  | 0, _ => none
  | fuel + 1, atChain =>
    if atChain = chain then some true
    else
      match (s.waiting.get? atChain).bind s.holder with
      | some next => walk s chain fuel next
      | none => some false

/-- More steps than there are chains that wait. -/
def walkFuel (s : Registry P) : ℕ := s.waiting.entries.length + 1

/-! ### Chains -/

/-- What is being loaded, and what it has still to load. -/
inductive Frame (P : Type) where
  | dir (d : P) (todo : List P)
  | file (f : P) (todo : List (Node P))

/-- What a frame is about. -/
def Frame.node : Frame P → Node P
  | .dir d _ => .dir d
  | .file f _ => .file f

/-- What a chain fails with. -/
inductive LoadError (P : Type) where
  /-- `load() cycle detected at {}` -/
  | cycle (n : Node P)
  /-- `no BUILD file in {} matching patterns {:?}` -/
  | noBuildFile (d : P)
  /-- A build file that does not evaluate. -/
  | evaluation
  deriving DecidableEq

/-- Where a chain is. -/
inductive Mode (P : Type) where
  | idle
  /-- The topmost frame has its turn. -/
  | running
  /-- `load_dir` or `load_file` begins, with a look at the cache. -/
  | load (n : Node P)
  /-- It is about to enter `claim`. -/
  | claiming (f : P)
  /-- It waits in `claim` for progress. -/
  | waiting (f : P)
  /-- A file is evaluated and cached, and still claimed. -/
  | stored
  | failing (e : LoadError P)
  | finished (e : Option (LoadError P))
  deriving DecidableEq

/-- A chain: a `load()` call stack, the topmost first. -/
structure Chain (P : Type) where
  stack : List (Frame P)
  mode : Mode P

/-- Back to the one that loads, if there is one. -/
def Mode.back (stack : List (Frame P)) : Mode P :=
  if stack.isEmpty then .finished none else .running

/-- What a chain does next. -/
inductive LoadEvent (P : Type) where
  /-- `load_pkg` begins, for a directory that is there. -/
  | pkg (d : P)
  /-- A source that is open in an editor, and claimed by nobody, loads something. -/
  | start (n : Node P)
  /-- The next step, which for one that waits is to wake up, for whatever reason. -/
  | next
  /-- The evaluation fails. -/
  | fail

section

variable [DecidableEq P] (g : LoadGraph P)

/-- The part of `claim` that waits, or finds a cycle: the path is held by `owner`. -/
def block (chain : ℕ) (s : Registry P) (stack : List (Frame P)) (f : P) (owner : ℕ) :
    Option (Registry P × Chain P) :=
  match walk s chain (walkFuel s) owner with
  | none => none
  | some true =>
    some ({ s with waiting := s.waiting.remove chain }, ⟨stack, .failing (.cycle (.file f))⟩)
  | some false => some ({ s with waiting := s.waiting.insert chain f }, ⟨stack, .waiting f⟩)

/-- `release`. -/
def release (s : Registry P) (f : P) : Registry P :=
  { s with holder := Function.update s.holder f none }

/-- One step of a chain. -/
def next (chain : ℕ) (s : Registry P) (stack : List (Frame P)) :
    Mode P → Option (Registry P × Chain P)
  | .idle | .finished _ => none
  | .running =>
    match stack with
    | .dir d (f :: todo) :: rest => some (s, ⟨.dir d todo :: rest, .load (.file f)⟩)
    | .dir d [] :: rest =>
      some ({ s with dirCache := Function.update s.dirCache d true }, ⟨rest, .back rest⟩)
    | .file f (n :: todo) :: rest => some (s, ⟨.file f todo :: rest, .load n⟩)
    | .file f [] :: rest =>
      some ({ s with fileCache := Function.update s.fileCache f true },
        ⟨.file f [] :: rest, .stored⟩)
    | [] => none
  | .stored =>
    match stack with
    | .file f _ :: rest => some (release s f, ⟨rest, .back rest⟩)
    | _ => none
  | .load (.dir d) =>
    if s.dirCache d then some (s, ⟨stack, .back stack⟩)
    else if g.files d = [] then some (s, ⟨stack, .failing (.noBuildFile d)⟩)
    else if .dir d ∈ stack.map Frame.node then some (s, ⟨stack, .failing (.cycle (.dir d))⟩)
    else some (s, ⟨.dir d (g.files d) :: stack, .running⟩)
  | .load (.file f) =>
    if s.fileCache f then some (s, ⟨stack, .back stack⟩)
    else if .file f ∈ stack.map Frame.node then some (s, ⟨stack, .failing (.cycle (.file f))⟩)
    else some (s, ⟨stack, .claiming f⟩)
  | .claiming f =>
    match s.holder f with
    | none =>
      some ({ s with
          holder := Function.update s.holder f (some chain)
          waiting := s.waiting.remove chain },
        ⟨.file f (g.loads f) :: stack, .running⟩)
    | some owner => block chain s stack f owner
  | .waiting f =>
    match s.holder f with
    | none => some ({ s with waiting := s.waiting.remove chain }, ⟨stack, .load (.file f)⟩)
    | some owner => block chain s stack f owner
  | .failing e =>
    match stack with
    | .file f _ :: rest => some (release s f, ⟨rest, .failing e⟩)
    | .dir _ _ :: rest => some (s, ⟨rest, .failing e⟩)
    | [] => some (s, ⟨[], .finished (some e)⟩)

/-- The chains, around one registry. -/
def loading : Parties ℕ (Registry P) (Chain P) (LoadEvent P) where
  init := ⟨fun _ => none, .empty, fun _ => false, fun _ => false⟩
  start := ⟨[], .idle⟩
  step chain s l
    | .pkg d =>
      match l with
      | ⟨[], .idle⟩ => some (s, ⟨[], if g.files d = [] then .finished none else .load (.dir d)⟩)
      | _ => none
    | .start n =>
      match l with
      | ⟨[], .idle⟩ => some (s, ⟨[], .load n⟩)
      | _ => none
    | .next => next g chain s l.stack l.mode
    | .fail =>
      match l.mode with
      | .running => some (s, ⟨l.stack, .failing .evaluation⟩)
      | _ => none

end

/-! ### Who waits for whom -/

variable {g : LoadGraph P} {s s' : Registry P} {chain c : ℕ} {l : Chain P} {f : P} {owner : ℕ}
  {fr : Frame P} {rest : List (Frame P)} {mode₀ : Mode P} {l' : Chain P} {fuel : ℕ}

/-- A chain waits for what another one holds. -/
def WaitsFor (s : Registry P) (c d : ℕ) : Prop :=
  ∃ f, s.waiting.get? c = some f ∧ s.holder f = some d

theorem waitsFor_iff {d : ℕ} :
    WaitsFor s c d ↔ (s.waiting.get? c).bind s.holder = some d := by
  rw [bind_eq_some_iff]
  rfl

/-- A walk that comes back has followed who waits for whom. -/
theorem reaches_of_walk (h : walk s chain fuel c = some true) :
    ReflTransGen (WaitsFor s) c chain := by
  induction fuel generalizing c with
  | zero => cases h
  | succ fuel ih =>
    unfold walk at h
    split at h
    · next heq => exact heq ▸ .refl
    · split at h
      · next d hd => exact .head (waitsFor_iff.mpr hd) (ih h)
      · cases h

/-- A walk that comes to an end has seen all that there is: a chain waits for one other. -/
theorem not_reaches_of_walk (h : walk s chain fuel c = some false) :
    ¬ReflTransGen (WaitsFor s) c chain := by
  induction fuel generalizing c with
  | zero => cases h
  | succ fuel ih =>
    unfold walk at h
    split at h
    · cases h
    · next hne =>
      intro hreach
      rcases hreach.cases_head with heq | ⟨d, hd, hreach⟩
      · exact hne heq
      · rw [waitsFor_iff] at hd
        rw [hd] at h
        exact ih h hreach

/-- A walk that runs out of fuel has left as many chains as it had steps. -/
theorem exists_chain_of_walk (h : walk s chain fuel c = none) :
    ∃ l : List ℕ, l.length = fuel ∧ l.IsChain (WaitsFor s) ∧ (∀ x ∈ l.head?, x = c) ∧
      ∀ x ∈ l, x ∈ s.waiting.keys := by
  induction fuel generalizing c with
  | zero => exact ⟨[], rfl, .nil, by simp, by simp⟩
  | succ fuel ih =>
    unfold walk at h
    split at h
    · cases h
    · split at h
      · next d hd =>
        obtain ⟨l, hlen, hl, hhead, hkeys⟩ := ih h
        obtain ⟨f, hf, hholder⟩ := waitsFor_iff.mpr hd
        have hc : c ∈ s.waiting.keys := mem_map.mpr ⟨_, get?_eq_some.mp hf, rfl⟩
        refine ⟨c :: l, by rw [length_cons, hlen], ?_, by simp, ?_⟩
        · cases l with
          | nil => exact .singleton c
          | cons x l =>
            obtain rfl : x = d := hhead x rfl
            exact hl.cons_cons ⟨f, hf, hholder⟩
        · simpa [hc] using hkeys
      · cases h

/-- **The walk comes to an end**, where no chain waits for itself. -/
theorem exists_walk (h : Acyclic (WaitsFor s)) (chain c : ℕ) :
    ∃ b, walk s chain (walkFuel s) c = some b := by
  cases hwalk : walk s chain (walkFuel s) c with
  | some b => exact ⟨b, rfl⟩
  | none =>
    obtain ⟨l, hlen, hl, -, hkeys⟩ := exists_chain_of_walk hwalk
    have hle := h.length_le hl hkeys
    rw [hlen, walkFuel, SortedMap.keys, length_map] at hle
    omega

theorem walk_of_le {fuel fuel' : ℕ} {b : Bool} (h : walk s chain fuel c = some b)
    (hle : fuel ≤ fuel') : walk s chain fuel' c = some b := by
  induction fuel generalizing fuel' c with
  | zero => cases h
  | succ fuel ih =>
    obtain ⟨fuel', rfl⟩ := Nat.exists_eq_add_of_lt hle
    rw [walk] at h ⊢
    split at h
    · next heq => rwa [if_pos heq]
    · next hne =>
      rw [if_neg hne]
      split at h
      · exact ih h (by omega)
      · exact h

/-- **Nobody is stuck** where no chain waits for itself. -/
theorem not_stuck_of_acyclic (h : Acyclic (WaitsFor s)) {S : Set ℕ} (hne : S.Nonempty) :
    ¬∀ c ∈ S, ∃ f, s.waiting.get? c = some f ∧ ∃ d ∈ S, s.holder f = some d := by
  intro hall
  have hfin : S.Finite := by
    refine (s.waiting.keys.finite_toSet).subset fun c hc => ?_
    obtain ⟨f, hf, -⟩ := hall c hc
    exact mem_map.mpr ⟨_, get?_eq_some.mp hf, rfl⟩
  obtain ⟨c, hc, hsink⟩ := h.exists_sink hfin hne
  obtain ⟨f, hf, d, hd, hheld⟩ := hall c hc
  exact hsink d hd ⟨f, hf, hheld⟩

/-! ### What holds all along -/

/-- What is known of the registry: nothing waits for itself, and **what a chain holds leads to
what it waits for**. -/
structure RegistryOk (g : LoadGraph P) (s : Registry P) : Prop where
  acyclic : Acyclic (WaitsFor s)
  leads : ∀ c f f', s.waiting.get? c = some f → s.holder f' = some c →
    TransGen g.Edge (.file f') (.file f)

/-- A frame has only what it loads still to load. -/
def Frame.Todo (g : LoadGraph P) : Frame P → Prop
  | .dir d todo => ∀ f ∈ todo, f ∈ g.files d
  | .file f todo => ∀ n ∈ todo, n ∈ g.loads f

/-- What the chain is about to load, or waits to load. -/
def Mode.pending : Mode P → Option (Node P)
  | .load n => some n
  | .claiming f | .waiting f => some (.file f)
  | _ => none

/-- The error of a chain that fails or has failed. -/
def Mode.error : Mode P → Option (LoadError P)
  | .failing e => some e
  | .finished e => e
  | _ => none

/-- What is known of a chain: its stack is a walk in the load graph, and it holds only what is
on its stack. -/
structure ChainOk (g : LoadGraph P) (chain : ℕ) (s : Registry P) (l : Chain P) : Prop where
  walk : (l.stack.map Frame.node).IsChain fun n n' => g.Edge n' n
  todo : ∀ fr ∈ l.stack, fr.Todo g
  pending : ∀ n, l.mode.pending = some n → ∀ fr ∈ l.stack.head?, g.Edge fr.node n
  holds : ∀ f, s.holder f = some chain → .file f ∈ l.stack.map Frame.node
  waits : ∀ f, s.waiting.get? chain = some f ↔ l.mode = .waiting f
  error : ∀ n, l.mode.error = some (.cycle n) → g.Cyclic

/-- Everything on the stack leads to what is about to be loaded. -/
theorem ChainOk.leads (h : ChainOk g chain s l) {n n' : Node P} (hn : l.mode.pending = some n)
    (hn' : n' ∈ l.stack.map Frame.node) : TransGen g.Edge n' n := by
  have hwalk := h.walk
  have hpending := h.pending n hn
  rcases hstack : l.stack with _ | ⟨fr, rest⟩
  · simp [hstack] at hn'
  · rw [hstack] at hwalk hn' hpending
    have htop : TransGen g.Edge fr.node n := .single (hpending fr rfl)
    rcases mem_cons.mp hn' with rfl | hn'
    · exact htop
    · have hpairwise := isChain_iff_pairwise.mp
        (hwalk.imp (S := fun n n' => TransGen g.Edge n' n) fun _ _ => .single)
      exact ((pairwise_cons.mp hpairwise).1 n' hn').trans htop

/-! ### Steps of the registry -/

/-- To let go, of a file or of waiting for one, is always fine. -/
theorem RegistryOk.of_le (h : RegistryOk g s)
    (hw : ∀ c f, s'.waiting.get? c = some f → s.waiting.get? c = some f)
    (hh : ∀ f c, s'.holder f = some c → s.holder f = some c) : RegistryOk g s' :=
  ⟨h.acyclic.mono fun c _ ⟨f, hf, hd⟩ => ⟨f, hw c f hf, hh f _ hd⟩,
    fun c f f' hf hf' => h.leads c f f' (hw c f hf) (hh f' c hf')⟩

/-- **To wait**, after a walk that does not come back. -/
theorem RegistryOk.wait (h : RegistryOk g s) (hl : ChainOk g chain s l)
    (hf : l.mode.pending = some (.file f)) (howner : s.holder f = some owner)
    (hwalk : walk s chain (walkFuel s) owner = some false) :
    RegistryOk g { s with waiting := s.waiting.insert chain f } := by
  refine ⟨h.acyclic.insert (not_reaches_of_walk hwalk) ?_, fun c f₁ f' hf₁ hf' => ?_⟩
  · rintro c d ⟨f', hf', hd⟩
    rw [get?_insert] at hf'
    split at hf'
    · next hc =>
      cases hf'
      exact .inr ⟨hc, some.inj (hd.symm.trans howner)⟩
    · exact .inl ⟨f', hf', hd⟩
  · rw [get?_insert] at hf₁
    split at hf₁
    · next hc =>
      cases hf₁
      rw [hc] at hf'
      exact hl.leads hf (hl.holds f' hf')
    · exact h.leads c f₁ f' hf₁ hf'

theorem of_get?_remove (h : (s.waiting.remove chain).get? c = some f) :
    c ≠ chain ∧ s.waiting.get? c = some f := by
  rw [get?_remove] at h
  split at h
  · cases h
  · next hc => exact ⟨hc, h⟩

/-- **To claim what nobody holds**: those that still wait for it wait for one that does not. -/
theorem RegistryOk.claim [DecidableEq P] (h : RegistryOk g s) (f : P) :
    RegistryOk g { s with
      holder := Function.update s.holder f (some chain)
      waiting := s.waiting.remove chain } := by
  have hholder : ∀ f' c, update s.holder f (some chain) f' = some c →
      c = chain ∨ s.holder f' = some c := by
    intro f' c hf'
    rcases eq_or_ne f' f with rfl | hne
    · rw [update_self] at hf'
      exact .inl (some.inj hf').symm
    · rw [update_of_ne hne] at hf'
      exact .inr hf'
  refine ⟨h.acyclic.insert_sink (b := chain) ?_ ?_, fun c f₁ f' hf₁ hf' => ?_⟩
  · rintro c d ⟨f', hf', hd⟩
    rcases hholder f' d hd with rfl | hd
    · exact .inr rfl
    · exact .inl ⟨f', (of_get?_remove hf').2, hd⟩
  · rintro d ⟨f', hf', -⟩
    exact (of_get?_remove hf').1 rfl
  · obtain ⟨hc, hf₁⟩ := of_get?_remove hf₁
    rcases hholder f' c hf' with rfl | hf'
    · exact absurd rfl hc
    · exact h.leads c f₁ f' hf₁ hf'

/-- **A walk that comes back has found a cycle of the load graph.** -/
theorem cyclic_of_walk (h : RegistryOk g s) (hl : ChainOk g chain s l)
    (hf : l.mode.pending = some (.file f)) (howner : s.holder f = some owner)
    (hwalk : walk s chain (walkFuel s) owner = some true) : g.Cyclic := by
  -- what the chains on the walk hold leads on to what the last of them holds
  have hreach : ∀ c, ReflTransGen (WaitsFor s) c chain → ∀ f', s.holder f' = some c →
      TransGen g.Edge (.file f') (.file f) := by
    intro c hc
    induction hc using ReflTransGen.head_induction_on with
    | refl => exact fun f' hf' => hl.leads hf (hl.holds f' hf')
    | head hcd _ ih =>
      obtain ⟨f₁, hf₁, hd⟩ := hcd
      exact fun f' hf' => (h.leads _ f₁ f' hf₁ hf').trans (ih f₁ hd)
  exact ⟨.file f, hreach owner (reaches_of_walk hwalk) f howner⟩

/-! ### Steps of a chain -/

/-- The stack stays, and another mode follows. -/
theorem ChainOk.goto (h : ChainOk g chain s l) (mode : Mode P)
    (hholds : ∀ f, s'.holder f = some chain → s.holder f = some chain)
    (hpending : ∀ n, mode.pending = some n → l.mode.pending = some n)
    (hwaits : ∀ f, s'.waiting.get? chain = some f ↔ mode = .waiting f)
    (herror : ∀ n, mode.error = some (.cycle n) → g.Cyclic) :
    ChainOk g chain s' ⟨l.stack, mode⟩ :=
  ⟨h.walk, h.todo, fun n hn => h.pending n (hpending n hn), fun f hf => h.holds f (hholds f hf),
    hwaits, herror⟩

theorem ChainOk.not_waiting (h : ChainOk g chain s l) (hmode : ∀ f, l.mode ≠ .waiting f) (f : P) :
    s.waiting.get? chain ≠ some f := fun hf => hmode f ((h.waits f).mp hf)

/-- The topmost frame is left. -/
theorem ChainOk.pop (h : ChainOk g chain s ⟨fr :: rest, mode₀⟩) (mode : Mode P)
    (hholds : ∀ f, s'.holder f = some chain → s.holder f = some chain ∧ .file f ≠ fr.node)
    (hpending : mode.pending = none)
    (hwaits : ∀ f, s'.waiting.get? chain = some f ↔ mode = .waiting f)
    (herror : ∀ n, mode.error = some (.cycle n) → g.Cyclic) :
    ChainOk g chain s' ⟨rest, mode⟩ := by
  have hwalk := h.walk
  refine ⟨hwalk.tail, fun fr' hfr' => h.todo fr' (mem_cons_of_mem fr hfr'), ?_, ?_, hwaits,
    herror⟩
  · simp [hpending]
  · intro f hf
    obtain ⟨hheld, hne⟩ := hholds f hf
    exact (mem_cons.mp (h.holds f hheld)).resolve_left hne

/-- What is about to be loaded comes onto the stack. -/
theorem ChainOk.push (h : ChainOk g chain s l)
    (hpending : l.mode.pending = some fr.node) (htodo : fr.Todo g)
    (hholds : ∀ f, s'.holder f = some chain → s.holder f = some chain ∨ .file f = fr.node)
    (hwaits : ∀ f, s'.waiting.get? chain ≠ some f) :
    ChainOk g chain s' ⟨fr :: l.stack, .running⟩ := by
  refine ⟨?_, ?_, by simp [Mode.pending], ?_, by simpa using hwaits, by simp [Mode.error]⟩
  · rw [map_cons, isChain_cons]
    refine ⟨fun n hn => ?_, h.walk⟩
    obtain ⟨fr', hfr', rfl⟩ : ∃ fr' ∈ l.stack.head?, fr'.node = n := by
      simpa [head?_map] using hn
    exact h.pending fr.node hpending fr' hfr'
  · exact forall_mem_cons.mpr ⟨htodo, h.todo⟩
  · intro f hf
    rcases hholds f hf with hheld | heq
    · exact mem_cons_of_mem _ (h.holds f hheld)
    · exact mem_cons.mpr (.inl heq)

/-- The topmost frame goes on to load the next. -/
theorem ChainOk.turn {fr' : Frame P} {n : Node P}
    (h : ChainOk g chain s ⟨fr :: rest, mode₀⟩) (hnode : fr'.node = fr.node)
    (htodo : fr'.Todo g) (hn : g.Edge fr.node n) (hmode : ∀ f, mode₀ ≠ .waiting f) :
    ChainOk g chain s ⟨fr' :: rest, .load n⟩ := by
  have hmap : (fr' :: rest).map Frame.node = (fr :: rest).map Frame.node := by
    rw [map_cons, hnode, map_cons]
  refine ⟨hmap ▸ h.walk, ?_, ?_, fun f hf => hmap ▸ h.holds f hf, ?_, by simp [Mode.error]⟩
  · exact forall_mem_cons.mpr ⟨htodo, fun x hx => h.todo x (mem_cons_of_mem fr hx)⟩
  · rintro n' hn' x hx
    obtain rfl : n = n' := by simpa [Mode.pending] using hn'
    obtain rfl : fr' = x := by simpa using hx
    exact hnode ▸ hn
  · simpa using h.not_waiting hmode

/-- What a step of one chain leaves to the others. -/
structure Others (chain : ℕ) (s s' : Registry P) : Prop where
  holder : ∀ d ≠ chain, ∀ f, s'.holder f = some d → s.holder f = some d
  waiting : ∀ d ≠ chain, s'.waiting.get? d = s.waiting.get? d

theorem Others.refl (chain : ℕ) (s : Registry P) : Others chain s s :=
  ⟨fun _ _ _ h => h, fun _ _ => rfl⟩

theorem Others.chainOk (h : Others chain s s') {d : ℕ} (hd : d ≠ chain) (hl : ChainOk g d s l) :
    ChainOk g d s' l :=
  ⟨hl.walk, hl.todo, hl.pending, fun f hf => hl.holds f (h.holder d hd f hf),
    fun f => by rw [h.waiting d hd]; exact hl.waits f, hl.error⟩

theorem mode_back (stack : List (Frame P)) : (Mode.back stack).pending = none ∧
    (Mode.back stack).error = none ∧ ∀ f, Mode.back stack ≠ .waiting f := by
  cases stack <;> simp [Mode.back, Mode.pending, Mode.error]

theorem block_spec (hs : RegistryOk g s) (hl : ChainOk g chain s l)
    (hf : l.mode.pending = some (.file f)) (howner : s.holder f = some owner)
    (h : block chain s l.stack f owner = some (s', l')) :
    RegistryOk g s' ∧ ChainOk g chain s' l' ∧ Others chain s s' := by
  unfold block at h
  split at h
  · cases h
  · next hwalk =>
    cases h
    refine ⟨hs.of_le (fun _ _ hc => (of_get?_remove hc).2) fun _ _ h => h,
      hl.goto _ (fun _ h => h) (by simp [Mode.pending]) (fun f' => ?_)
        fun _ _ => cyclic_of_walk hs hl hf howner hwalk,
      fun _ _ _ h => h, fun d hd => ?_⟩
    · simp [get?_remove]
    · simp [get?_remove, hd]
  · next hwalk =>
    cases h
    refine ⟨hs.wait hl hf howner hwalk,
      hl.goto _ (fun _ h => h) (fun n hn => ?_) (fun f' => ?_) (by simp [Mode.error]),
      fun _ _ _ h => h, fun d hd => ?_⟩
    · exact hf.trans hn
    · simp [get?_insert]
    · simp [get?_insert, hd]

/-- The loader below goes on, with what was loaded. -/
theorem ChainOk.back (h : ChainOk g chain s l) (hmode : ∀ f, l.mode ≠ .waiting f) :
    ChainOk g chain s ⟨l.stack, .back l.stack⟩ := by
  obtain ⟨hpending, herror, hwaiting⟩ := mode_back l.stack
  refine h.goto _ (fun _ h => h) (by simp [hpending]) (fun f => ?_) (by simp [herror])
  exact iff_of_false (h.not_waiting hmode f) (hwaiting f)

/-- One that is loading, and does not wait, fails. -/
theorem ChainOk.fail (h : ChainOk g chain s l) (hmode : ∀ f, l.mode ≠ .waiting f) (e : LoadError P)
    (he : ∀ n, e = .cycle n → g.Cyclic) : ChainOk g chain s ⟨l.stack, .failing e⟩ :=
  h.goto _ (fun _ h => h) (by simp [Mode.pending]) (by simpa using h.not_waiting hmode)
    (by simpa [Mode.error] using he)

/-- One that has not begun may begin. -/
theorem ChainOk.begin {mode : Mode P} (h : ChainOk g chain s ⟨[], .idle⟩)
    (hwaits : ∀ f, mode ≠ .waiting f) (herror : mode.error = none) :
    ChainOk g chain s ⟨[], mode⟩ :=
  ⟨h.walk, h.todo, by simp, h.holds,
    fun f => iff_of_false (h.not_waiting (by simp) f) (hwaits f), by simp [herror]⟩

variable [DecidableEq P]

theorem holder_release {f' : P} (h : (release s f).holder f' = some c) :
    f' ≠ f ∧ s.holder f' = some c := by
  rcases eq_or_ne f' f with rfl | hne
  · simp [release] at h
  · exact ⟨hne, by simpa [release, hne] using h⟩

theorem others_release (chain : ℕ) (s : Registry P) (f : P) : Others chain s (release s f) :=
  ⟨fun _ _ _ h => (holder_release h).2, fun _ _ => rfl⟩

theorem RegistryOk.release (h : RegistryOk g s) (f : P) : RegistryOk g (release s f) :=
  h.of_le (fun _ _ h => h) fun _ _ h => (holder_release h).2

/-- **One step of a chain.** -/
theorem next_spec (hs : RegistryOk g s) (hl : ChainOk g chain s l)
    (h : next g chain s l.stack l.mode = some (s', l')) :
    RegistryOk g s' ∧ ChainOk g chain s' l' ∧ Others chain s s' := by
  obtain ⟨stack, mode⟩ := l
  have hlocal {l' : Chain P} (hl' : ChainOk g chain s l') :
      RegistryOk g s ∧ ChainOk g chain s l' ∧ Others chain s s := ⟨hs, hl', .refl chain s⟩
  cases mode with
  | idle | finished => cases h
  | running =>
    rcases stack with _ | ⟨⟨d, _ | ⟨f, todo⟩⟩ | ⟨f, _ | ⟨n, todo⟩⟩, rest⟩
    · cases h
    · -- a directory is loaded
      cases h
      obtain ⟨hpending, herror, hwaiting⟩ := mode_back rest
      refine ⟨hs.of_le (fun _ _ h => h) fun _ _ h => h,
        hl.pop _ (fun f hf => ⟨hf, by simp [Frame.node]⟩) hpending (fun f => ?_) (by simp [herror]),
        fun _ _ _ h => h, fun _ _ => rfl⟩
      exact iff_of_false (hl.not_waiting (by simp) f) (hwaiting f)
    · cases h
      have htodo : ∀ f' ∈ f :: todo, f' ∈ g.files d := hl.todo _ mem_cons_self
      exact hlocal (hl.turn rfl (fun f' hf' => htodo f' (mem_cons_of_mem f hf'))
        ⟨f, htodo f mem_cons_self, rfl⟩ (by simp))
    · -- a file is evaluated
      cases h
      refine ⟨hs.of_le (fun _ _ h => h) fun _ _ h => h,
        hl.goto _ (fun _ h => h) (by simp [Mode.pending])
          (by simpa using hl.not_waiting (by simp)) (by simp [Mode.error]),
        fun _ _ _ h => h, fun _ _ => rfl⟩
    · cases h
      have htodo : ∀ n' ∈ n :: todo, n' ∈ g.loads f := hl.todo _ mem_cons_self
      exact hlocal (hl.turn rfl (fun n' hn' => htodo n' (mem_cons_of_mem n hn'))
        (htodo n mem_cons_self) (by simp))
  | stored =>
    rcases stack with _ | ⟨⟨d, todo⟩ | ⟨f, todo⟩, rest⟩
    · cases h
    · cases h
    · cases h
      obtain ⟨hpending, herror, hwaiting⟩ := mode_back rest
      refine ⟨hs.release f, hl.pop _ (fun f' hf' => ?_) hpending (fun f' => ?_) (by simp [herror]),
        others_release chain s f⟩
      · obtain ⟨hne, hf'⟩ := holder_release hf'
        exact ⟨hf', by simpa [Frame.node] using hne⟩
      · exact iff_of_false (hl.not_waiting (by simp) f') (hwaiting f')
  | load n =>
    have hmode : ∀ f, Mode.load n ≠ .waiting f := by simp
    cases n with
    | dir d =>
      simp only [next] at h
      split at h
      · cases h
        exact hlocal (hl.back hmode)
      · split at h
        · cases h
          exact hlocal (hl.fail hmode _ (by simp))
        · split at h
          · next hmem =>
            cases h
            exact hlocal (hl.fail hmode _ fun _ _ => ⟨_, hl.leads rfl hmem⟩)
          · cases h
            exact hlocal (hl.push rfl (fun f hf => hf) (fun f hf => .inl hf) (hl.not_waiting hmode))
    | file f =>
      simp only [next] at h
      split at h
      · cases h
        exact hlocal (hl.back hmode)
      · split at h
        · next hmem =>
          cases h
          exact hlocal (hl.fail hmode _ fun _ _ => ⟨_, hl.leads rfl hmem⟩)
        · cases h
          exact hlocal (hl.goto _ (fun _ h => h) (fun n hn => hn)
            (by simpa using hl.not_waiting hmode) (by simp [Mode.error]))
  | claiming f =>
    simp only [next] at h
    split at h
    · cases h
      refine ⟨hs.claim f, hl.push rfl (fun n hn => hn) (fun f' hf' => ?_)
        (fun f' hf' => (of_get?_remove hf').1 rfl), fun d hd f' hf' => ?_, fun d hd => ?_⟩
      · rcases eq_or_ne f' f with rfl | hne
        · exact .inr rfl
        · exact .inl (by simpa [hne] using hf')
      · rcases eq_or_ne f' f with rfl | hne
        · exact absurd (by simpa using hf') hd.symm
        · simpa [hne] using hf'
      · simp [get?_remove, hd]
    · next owner howner => exact block_spec hs hl rfl howner h
  | waiting f =>
    simp only [next] at h
    split at h
    · cases h
      refine ⟨hs.of_le (fun _ _ hc => (of_get?_remove hc).2) fun _ _ h => h,
        hl.goto _ (fun _ h => h) (fun n hn => hn) (fun f' => ?_) (by simp [Mode.error]),
        fun _ _ _ h => h, fun d hd => ?_⟩
      · simp [get?_remove]
      · simp [get?_remove, hd]
    · next owner howner => exact block_spec hs hl rfl howner h
  | failing e =>
    have hmode : ∀ f, Mode.failing e ≠ .waiting f := by simp
    rcases stack with _ | ⟨⟨d, todo⟩ | ⟨f, todo⟩, rest⟩
    · cases h
      exact hlocal (hl.goto _ (fun _ h => h) (by simp [Mode.pending])
        (by simpa using hl.not_waiting hmode) hl.error)
    · cases h
      exact hlocal (hl.pop _ (fun f hf => ⟨hf, by simp [Frame.node]⟩) rfl
        (by simpa using hl.not_waiting hmode) hl.error)
    · cases h
      refine ⟨hs.release f, hl.pop _ (fun f' hf' => ?_) rfl
        (fun f' => iff_of_false (hl.not_waiting hmode f') (by simp)) hl.error,
        others_release chain s f⟩
      obtain ⟨hne, hf'⟩ := holder_release hf'
      exact ⟨hf', by simpa [Frame.node] using hne⟩

/-! ### Every run -/

/-- **One step of the chains.** -/
theorem loading_step {e : LoadEvent P} (hs : RegistryOk g s)
    (hl : ChainOk g chain s l) (h : (loading g).step chain s l e = some (s', l')) :
    RegistryOk g s' ∧ ChainOk g chain s' l' ∧ Others chain s s' := by
  cases e with
  | pkg d =>
    obtain ⟨_ | ⟨fr, rest⟩, mode⟩ := l
    · cases mode with
      | idle =>
        cases h
        refine ⟨hs, hl.begin ?_ ?_, .refl chain s⟩ <;> split <;> simp [Mode.error]
      | _ => cases h
    · cases h
  | start n =>
    obtain ⟨_ | ⟨fr, rest⟩, mode⟩ := l
    · cases mode with
      | idle =>
        cases h
        exact ⟨hs, hl.begin (by simp) rfl, .refl chain s⟩
      | _ => cases h
    · cases h
  | next => exact next_spec hs hl h
  | fail =>
    obtain ⟨stack, mode⟩ := l
    cases mode with
    | running =>
      cases h
      exact ⟨hs, hl.fail (by simp) _ (by simp), .refl chain s⟩
    | _ => cases h

/-- **Every run of the chains.** -/
theorem loading_ok {es : List (ℕ × LoadEvent P)} {chains : ℕ → Chain P}
    (h : (loading g).machine.run es = some (s, chains)) :
    RegistryOk g s ∧ ∀ c, ChainOk g c s (chains c) := by
  refine Parties.run_invariant (J := RegistryOk g)
    ⟨fun c hc => ?_, by simp [loading]⟩ (fun c => ?_) ?_ ?_ h
  · obtain ⟨d, ⟨f, hf, -⟩, -⟩ := TransGen.head'_iff.mp hc
    cases hf
  · exact ⟨.nil, by simp [loading], by simp [loading], by simp [loading],
      by simp [loading], by simp [loading, Mode.error]⟩
  · intro c s l e s' l' hs hl h
    obtain ⟨hs', hl', -⟩ := loading_step hs hl h
    exact ⟨hs', hl'⟩
  · intro c s l e s' l' hs hl h d hd k hk
    exact (loading_step hs hl h).2.2.chainOk hd hk

/-- **Loading build files is safe.** However the chains take turns, no set of chains is blocked on
itself, following who waits for whom comes to an end, and a chain that reports a cycle has found
one in what the build files load. -/
theorem loading_safe {es : List (ℕ × LoadEvent P)} {chains : ℕ → Chain P}
    (h : (loading g).machine.run es = some (s, chains)) :
    (∀ S : Set ℕ, S.Nonempty →
      ¬∀ c ∈ S, ∃ f, (chains c).mode = .waiting f ∧ ∃ d ∈ S, s.holder f = some d) ∧
    (∀ chain owner, ∃ b, ∀ fuel ≥ walkFuel s, walk s chain fuel owner = some b) ∧
    ∀ c n, (chains c).mode.error = some (.cycle n) → g.Cyclic := by
  obtain ⟨hs, hchains⟩ := loading_ok h
  refine ⟨fun S hne hall => not_stuck_of_acyclic hs.acyclic hne fun c hc => ?_,
    fun chain owner => ?_, fun c => (hchains c).error⟩
  · obtain ⟨f, hf, d, hd, hheld⟩ := hall c hc
    exact ⟨f, ((hchains c).waits f).mpr hf, d, hd, hheld⟩
  · obtain ⟨b, hb⟩ := exists_walk hs.acyclic chain owner
    exact ⟨b, fun fuel hfuel => walk_of_le hb hfuel⟩

end

/-- Two files that load each other. -/
def eachOther : LoadGraph Bool := ⟨fun f => [.file !f], fun _ => []⟩

/-- Each of two chains evaluates one of the files, and then loads the other one. -/
def crossing : List (ℕ × LoadEvent Bool) :=
  [(0, .start (.file true)), (0, .next), (0, .next), (1, .start (.file false)), (1, .next),
    (1, .next), (0, .next), (0, .next), (0, .next), (1, .next), (1, .next), (1, .next)]

theorem loading_safe_crossing : ∃ s chains,
    (loading eachOther).machine.run crossing = some (s, chains) ∧
      (chains 0).mode = .waiting false ∧ (chains 1).mode = .failing (.cycle (.file true)) ∧
      eachOther.Cyclic := by
  have hrun : ((loading eachOther).machine.run crossing).map
      (fun x => ((x.2 0).mode, (x.2 1).mode)) =
        some (.waiting false, .failing (.cycle (.file true))) := by
    decide +kernel
  obtain ⟨⟨s, chains⟩, hrun, hmodes⟩ := map_eq_some_iff.mp hrun
  obtain ⟨h0, h1⟩ := Prod.mk.inj hmodes
  obtain ⟨-, -, hcyclic⟩ := loading_safe hrun
  exact ⟨s, chains, hrun, h0, h1, hcyclic 1 (.file true) (congrArg Mode.error h1)⟩

end Heph.Load
