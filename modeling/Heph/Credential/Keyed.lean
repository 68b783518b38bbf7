import Heph.Credential.Wedge

/-!
# The key of a derived credential

The credentials that a source needs are acquired twice: one after the other, for the key of the
derived credential, and then, if the source is a command, to be presented to it. The second time the
chain has the keys of **all** of them. So they are looked up in other cells, are given other keys,
and where the store has nothing under these, they are taken from their sources once more: what is
presented to a command is never what was folded into the key
(`Acquisitions.key_ne_of_presented`), unless there is nothing to present
(`Acquisitions.presented_iff`).

Nothing is taken from a source twice for one cell, that is for one credential and one list of keys
that led to it: a cell is locked while it is filled, and what is in it is used as long as it has not
expired (`Acquisitions.Filled`).
-/

namespace Heph

open List Option Function CredCall Acquired CredPoint CredFrame Machine

namespace CredCall

variable {α κ μ : Type}

/-- The call has a cell locked. -/
def Holds (c : CredCall α κ μ) (x : α × List κ) : Prop :=
  ∃ f ∈ c.frames, f.cell = x ∧ f.point.isWaiting = false

/-- The call is acquiring for a cell, from a source that it has chosen. -/
def Fills (c : CredCall α κ μ) (x : α × List κ) : Prop :=
  ∃ f ∈ c.frames, f.cell = x ∧ f.point.source?.isSome

theorem isWaiting_of_source? {p : CredPoint α κ μ} (h : p.source?.isSome) :
    p.isWaiting = false := by
  cases p <;> simp [source?] at h <;> rfl

theorem Fills.holds {c : CredCall α κ μ} {x : α × List κ} (h : c.Fills x) : c.Holds x := by
  obtain ⟨f, hf, hcell, hsource⟩ := h
  exact ⟨f, hf, hcell, isWaiting_of_source? hsource⟩

end CredCall

namespace Acquisitions

/-! ### Keys and chains -/

section Keyed

variable {α κ μ : Type} (resolutionKey : α → CredSource α → List κ → κ)

/-- Different declarations and different chains have different keys. -/
def CollisionFree : Prop :=
  ∀ a source L a' source' L', resolutionKey a source L = resolutionKey a' source' L' →
    a = a' ∧ source = source' ∧ L = L'

/-- The key is one of the credential under the keys that led to it: those of its source's own
credentials come after them. -/
def KeyedAs (c : α × List κ) (a : Acquired κ μ) : Prop :=
  ∃ source parents, a.key = resolutionKey c.1 source (c.2 ++ parents) ∧
    parents.length = source.credentials.length

/-- What has been gathered for the key, each under the keys of those before it. -/
structure Gathered (keys : List κ) (source : CredSource α) (got : List (Acquired κ μ)) : Prop where
  length_le : got.length ≤ source.credentials.length
  keyed : ∀ (j : ℕ) (b : α) (a : Acquired κ μ), source.credentials[j]? = some b →
    got[j]? = some a → KeyedAs resolutionKey (b, keys ++ (got.take j).map key) a

/-- What has been acquired for a command, each under the keys of all of them. -/
structure Presented (keys : List κ) (source : CredSource α) (presented : List (Acquired κ μ)) :
    Prop where
  length_le : presented.length ≤ source.credentials.length
  keyed : ∀ (j : ℕ) (b : α) (a : Acquired κ μ), source.credentials[j]? = some b →
    presented[j]? = some a → KeyedAs resolutionKey (b, keys) a

/-- What an acquisition has got, for the key and for a command. -/
def FrameKeyed (f : CredFrame α κ μ) : Prop :=
  match f.point with
  | .waiting | .walking => True
  | .gathering source got => Gathered resolutionKey f.keys source got
  | .minting source got presented =>
    Gathered resolutionKey f.keys source got ∧ got.length = source.credentials.length ∧
      (source.kind = .exec → Presented resolutionKey (f.inner got) source presented)

variable {resolutionKey} {f g : CredFrame α κ μ} {a : Acquired κ μ} {keys : List κ}
  {source : CredSource α} {got : List (Acquired κ μ)} {b : α}

/-- An element of a list with one more at its end. -/
theorem getElem?_append_singleton {β : Type} {l : List β} {x y : β} {j : ℕ}
    (h : (l ++ [x])[j]? = some y) : l[j]? = some y ∨ j = l.length ∧ x = y := by
  rw [getElem?_append] at h
  split at h
  · exact .inl h
  · next hle =>
    obtain ⟨hj, hx⟩ := List.getElem?_eq_some_iff.mp h
    simp at hj hx
    exact .inr ⟨by omega, hx⟩

theorem Gathered.append (h : Gathered resolutionKey keys source got)
    (hb : source.credentials[got.length]? = some b)
    (ha : KeyedAs resolutionKey (b, keys ++ got.map key) a) :
    Gathered resolutionKey keys source (got ++ [a]) where
  length_le := by
    have hlt := (List.getElem?_eq_some_iff.mp hb).1
    simpa using hlt
  keyed j b' a' hb' ha' := by
    rcases getElem?_append_singleton ha' with hlt | ⟨rfl, rfl⟩
    · have hle : j ≤ got.length := (List.getElem?_eq_some_iff.mp hlt).1.le
      rw [take_append_of_le_length hle]
      exact h.keyed j b' a' hb' hlt
    · obtain rfl : b = b' := some.inj (hb.symm.trans hb')
      simpa using ha

theorem presented_nil : Presented resolutionKey keys source ([] : List (Acquired κ μ)) :=
  ⟨by simp, by simp⟩

theorem Presented.append {presented : List (Acquired κ μ)}
    (h : Presented resolutionKey keys source presented)
    (hb : source.credentials[presented.length]? = some b) (ha : KeyedAs resolutionKey (b, keys) a) :
    Presented resolutionKey keys source (presented ++ [a]) where
  length_le := by
    have hlt := (List.getElem?_eq_some_iff.mp hb).1
    simpa using hlt
  keyed j b' a' hb' ha' := by
    rcases getElem?_append_singleton ha' with hlt | ⟨rfl, rfl⟩
    · exact h.keyed j b' a' hb' hlt
    · obtain rfl : b = b' := some.inj (hb.symm.trans hb')
      exact ha

/-- An acquisition gets what it has asked for. -/
theorem FrameKeyed.receive (h : FrameKeyed resolutionKey f) (hnext : f.nextCall = some g.cell)
    (ha : KeyedAs resolutionKey g.cell a) : FrameKeyed resolutionKey (f.receive a) := by
  obtain ⟨addr, keys, point⟩ := f
  cases point with
  | waiting | walking => exact h
  | gathering source got =>
    obtain ⟨b, hb, hcell⟩ : ∃ b, source.credentials[got.length]? = some b ∧ _ = g.cell := by
      simpa [nextCall] using hnext
    exact .append h hb (hcell ▸ ha)
  | minting source got presented =>
    obtain ⟨hgot, hlen, hpresented⟩ := h
    refine ⟨hgot, hlen, fun hkind => ?_⟩
    obtain ⟨b, hb, hcell⟩ : ∃ b, source.credentials[presented.length]? = some b ∧ _ = g.cell := by
      simpa [nextCall, hkind] using hnext
    exact (hpresented hkind).append hb (hcell ▸ ha)

/-- With the credentials of its source gathered, an acquisition makes its key of them. -/
theorem keyedAs_of_gathered (h : got.length = source.credentials.length) (m : μ) :
    KeyedAs resolutionKey f.cell ⟨resolutionKey f.addr source (f.inner got), m⟩ :=
  ⟨source, got.map key, rfl, by simpa using h⟩

/-- **What is presented is not what was folded into the key.** -/
theorem key_ne_of_presented (hfree : CollisionFree resolutionKey) {j : ℕ}
    {a a' : Acquired κ μ} (ha : KeyedAs resolutionKey (b, keys ++ (got.take j).map key) a)
    (ha' : KeyedAs resolutionKey (b, keys ++ got.map key) a') (hj : j < got.length) :
    a'.key ≠ a.key := by
  obtain ⟨source, parents, hkey, hlen⟩ := ha
  obtain ⟨source', parents', hkey', hlen'⟩ := ha'
  intro he
  obtain ⟨-, rfl, hlists⟩ := hfree _ _ _ _ _ _ (hkey'.symm.trans (he.trans hkey))
  -- one source has as many credentials both times, and the chain was shorter the first time
  have hlengths := congrArg length hlists
  simp at hlengths
  omega

end Keyed

section KeysOk

variable {α κ μ : Type} {decl : CredGraph α} {resolutionKey : α → CredSource α → List κ → κ}
  {s s' : Acquisitions α κ μ} {f : CredFrame α κ μ} {rest : List (CredFrame α κ μ)}
  {a : Acquired κ μ} {source : CredSource α}

/-- All that has been got, and all that is in the cells, has its key from where it was acquired. -/
structure KeysOk (resolutionKey : α → CredSource α → List κ → κ) (s : Acquisitions α κ μ) :
    Prop where
  frames : ∀ c ∈ s.calls, ∀ f ∈ c.frames, FrameKeyed resolutionKey f
  cells : ∀ c a, s.cells c = some a → KeyedAs resolutionKey c a

theorem KeysOk.setCall (h : KeysOk resolutionKey s) (i : ℕ) {c : CredCall α κ μ}
    (hc : ∀ f ∈ c.frames, FrameKeyed resolutionKey f) : KeysOk resolutionKey (s.setCall i c) where
  frames c' hc' := by
    rcases mem_or_eq_of_mem_set hc' with hmem | rfl
    · exact h.frames c' hmem
    · exact hc
  cells := h.cells

theorem frameKeyed_deliver (hstack : StackOk decl (f :: rest))
    (hrest : ∀ g ∈ rest, FrameKeyed resolutionKey g) (ha : KeyedAs resolutionKey f.cell a) :
    ∀ g ∈ (CredCall.deliver a rest).frames, FrameKeyed resolutionKey g := by
  cases rest with
  | nil => simp [deliver, frames]
  | cons g rest =>
    obtain ⟨hg, hrest⟩ := forall_mem_cons.mp hrest
    have hnext := (isChain_cons_cons.mp hstack.calls).1
    exact forall_mem_cons.mpr ⟨hg.receive hnext ha, hrest⟩

theorem frameKeyed_ask [DecidableEq α] {stack : List (CredFrame α κ μ)} {addr : α} {keys : List κ}
    (h : ∀ g ∈ stack, FrameKeyed resolutionKey g) :
    ∀ g ∈ (ask decl stack addr keys).frames, FrameKeyed resolutionKey g := by
  rw [ask]
  split
  · simp [frames]
  · split
    · simp [frames]
    · exact forall_mem_cons.mpr ⟨trivial, h⟩

theorem FrameKeyed.gathered {got : List (Acquired κ μ)} (hf : FrameKeyed resolutionKey f)
    (hpoint : f.point = .gathering source got) (hnext : f.nextCall = none) :
    Gathered resolutionKey f.keys source got ∧ got.length = source.credentials.length := by
  rw [FrameKeyed, hpoint] at hf
  refine ⟨hf, le_antisymm hf.length_le ?_⟩
  simpa [nextCall, hpoint] using hnext

theorem FrameKeyed.minting {got presented : List (Acquired κ μ)} (hf : FrameKeyed resolutionKey f)
    (hpoint : f.point = .minting source got presented) :
    Gathered resolutionKey f.keys source got ∧ got.length = source.credentials.length ∧
      (source.kind = .exec → Presented resolutionKey (f.inner got) source presented) := by
  rwa [FrameKeyed, hpoint] at hf

variable [DecidableEq α] [DecidableEq κ]

theorem KeysOk.finish (h : KeysOk resolutionKey s) (hs : StacksOk decl s) {i : ℕ}
    (htop : s.top i = some (f, rest)) (ha : KeyedAs resolutionKey f.cell a) :
    KeysOk resolutionKey (s.finish i f rest a) where
  frames := by
    have hframes := h.frames _ (mem_of_getElem? (calls_of_top htop))
    have hrest := (forall_mem_cons.mp hframes).2
    exact (h.setCall i (frameKeyed_deliver (hs.top htop) hrest ha)).frames
  cells c a' ha' := by
    rcases eq_or_ne c f.cell with rfl | hne
    · obtain rfl : a = a' := by simpa [Acquisitions.finish] using ha'
      exact ha
    · simp only [Acquisitions.finish, update_of_ne hne] at ha'
      exact h.cells c a' ha'

variable [DecidableEq μ] {e : CredEvent α κ μ}

theorem KeysOk.step (h : KeysOk resolutionKey s) (hs : StacksOk decl s)
    (hstep : s.step decl resolutionKey e = some s') : KeysOk resolutionKey s' := by
  have hframes : ∀ {i f rest}, s.top i = some (f, rest) →
      FrameKeyed resolutionKey f ∧ ∀ g ∈ rest, FrameKeyed resolutionKey g := by
    intro i f rest htop
    exact forall_mem_cons.mp (h.frames _ (mem_of_getElem? (calls_of_top htop)))
  cases did_of_step hstep with
  | called addr =>
    refine ⟨fun c hc => ?_, h.cells⟩
    rcases mem_append.mp hc with hmem | hmem
    · exact h.frames c hmem
    · obtain rfl := mem_singleton.mp hmem
      exact frameKeyed_ask (by simp)
  | locked htop hwait hfree =>
    exact h.setCall _ (forall_mem_cons.mpr ⟨trivial, (hframes htop).2⟩)
  | reused htop hpoint ha =>
    exact h.setCall _ (frameKeyed_deliver (hs.top htop) (hframes htop).2 (h.cells _ _ ha))
  | walked htop hpoint hnone hdecl hsource =>
    exact h.setCall _ (forall_mem_cons.mpr ⟨⟨by simp, by simp⟩, (hframes htop).2⟩)
  | skipped htop hlocked | refused htop hlocked => exact h.setCall _ (by simp [CredCall.frames])
  | asked htop hnext => exact h.setCall _ (frameKeyed_ask (forall_mem_cons.mpr (hframes htop)))
  | found htop hpoint hnext =>
    exact h.finish hs htop (keyedAs_of_gathered ((hframes htop).1.gathered hpoint hnext).2 _)
  | missed htop hpoint hnext =>
    obtain ⟨hgot, hlen⟩ := (hframes htop).1.gathered hpoint hnext
    exact h.setCall _
      (forall_mem_cons.mpr ⟨⟨hgot, hlen, fun _ => presented_nil⟩, (hframes htop).2⟩)
  | @obtained i f rest source got presented m htop hpoint hnext =>
    have hkeyed := h.finish hs htop (keyedAs_of_gathered ((hframes htop).1.minting hpoint).2.1 m)
    exact ⟨hkeyed.frames, hkeyed.cells⟩
  | expired c =>
    refine ⟨h.frames, fun c' a ha => ?_⟩
    rcases eq_or_ne c' c with rfl | hne
    · simp at ha
    · simp only [update_of_ne hne] at ha
      exact h.cells c' a ha

theorem keysOk_of_run {es : List (CredEvent α κ μ)}
    (h : (machine decl resolutionKey).run es = some s) : KeysOk resolutionKey s := by
  refine (run_invariant (I := fun s => StacksOk decl s ∧ KeysOk resolutionKey s) ?_ ?_ h).2
  · exact ⟨by rintro c ⟨⟩, by rintro c ⟨⟩, by rintro c a ⟨⟩⟩
  · exact fun s e s' hs hstep => ⟨hs.1.step hstep, hs.2.step hs.1 hstep⟩

end KeysOk

/-! ### One acquisition for a cell -/

section Filled

variable {α κ μ : Type} {decl : CredGraph α} {s s' : Acquisitions α κ μ} {f : CredFrame α κ μ}
  {rest : List (CredFrame α κ μ)} {a : Acquired κ μ} {g : CredFrame α κ μ} {i : ℕ}

/-- **A cell is locked by one call**; it is empty as long as that call is acquiring for it, and not
empty once material has been taken from a source for it. -/
structure Filled (s : Acquisitions α κ μ) : Prop where
  unique : ∀ (i j : ℕ) c c' x, s.calls[i]? = some c → s.calls[j]? = some c' → c.Holds x →
    c'.Holds x → i = j
  empty : ∀ c ∈ s.calls, ∀ x, c.Fills x → s.cells x = none
  minted : ∀ x ∈ s.minted, s.cells x ≠ none
  nodup : s.minted.Nodup

theorem isWaiting_receive (a : Acquired κ μ) :
    (f.receive a).point.isWaiting = f.point.isWaiting := by
  obtain ⟨addr, keys, point⟩ := f
  cases point <;> rfl

theorem source?_receive (a : Acquired κ μ) :
    (f.receive a).point.source? = f.point.source? := by
  obtain ⟨addr, keys, point⟩ := f
  cases point <;> rfl

/-- What is held and filled around an acquisition that is over. -/
theorem of_mem_deliver (hg : g ∈ (CredCall.deliver a rest).frames) :
    ∃ f ∈ rest, g.cell = f.cell ∧ g.point.isWaiting = f.point.isWaiting ∧
      g.point.source? = f.point.source? := by
  cases rest with
  | nil => simp [deliver, frames] at hg
  | cons f rest =>
    rcases mem_cons.mp hg with rfl | hmem
    · exact ⟨f, by simp, cell_receive a, isWaiting_receive a, source?_receive a⟩
    · exact ⟨g, mem_cons_of_mem _ hmem, rfl, rfl, rfl⟩

/-- What is asked for is not locked yet. -/
theorem of_mem_ask [DecidableEq α] {stack : List (CredFrame α κ μ)} {addr : α} {keys : List κ}
    (hg : g ∈ (ask decl stack addr keys).frames)
    (hlocked : g.point.isWaiting = false) : g ∈ stack := by
  rw [ask] at hg
  split at hg
  · simp [frames] at hg
  · split at hg
    · simp [frames] at hg
    · rcases mem_cons.mp hg with rfl | hmem
      · simp [isWaiting] at hlocked
      · exact hmem

/-- A call that does not take a cell from another one, and does not fill one that is not empty. -/
theorem Filled.setCall (h : Filled s) {c c' : CredCall α κ μ} (hc : s.calls[i]? = some c)
    (hholds : ∀ x, c'.Holds x → c.Holds x ∨ s.CellFree x)
    (hfills : ∀ x, c'.Fills x → c.Fills x ∨ s.cells x = none) : Filled (s.setCall i c') := by
  have hlt := (List.getElem?_eq_some_iff.mp hc).1
  have hmem : c ∈ s.calls := mem_of_getElem? hc
  -- who holds a cell together with the call that has changed
  have hother : ∀ (j : ℕ) d x, j ≠ i → s.calls[j]? = some d → d.Holds x → ¬ c'.Holds x := by
    intro j d x hj hd hdx hcx
    rcases hholds x hcx with hcx | hfree
    · exact hj (h.unique j i d c x hd hc hdx hcx)
    · obtain ⟨f, hf, hcell, hlocked⟩ := hdx
      simp [hfree d (mem_of_getElem? hd) f hf hcell] at hlocked
  refine ⟨fun j k d d' x hd hd' hdx hdx' => ?_, fun d hd x hdx => ?_, h.minted, h.nodup⟩
  · simp only [Acquisitions.setCall, getElem?_set] at hd hd'
    split at hd <;> split at hd'
    · next hj hk => exact hj.symm.trans hk
    · next hj hk =>
      obtain rfl : c' = d := by simpa [hlt] using hd
      exact absurd hdx (hother k d' x (Ne.symm hk) hd' hdx')
    · next hj hk =>
      obtain rfl : c' = d' := by simpa [hlt] using hd'
      exact absurd hdx' (hother j d x (Ne.symm hj) hd hdx)
    · exact h.unique j k d d' x hd hd' hdx hdx'
  · rcases mem_or_eq_of_mem_set hd with hmem' | rfl
    · exact h.empty d hmem' x hdx
    · rcases hfills x hdx with hfill | hnone
      · exact h.empty c hmem x hfill
      · exact hnone

/-- The innermost acquisition goes to another point, with its cell locked or free. -/
theorem Filled.moveTo (h : Filled s) {p : CredPoint α κ μ} (htop : s.top i = some (f, rest))
    (hholds : f.point.isWaiting = false ∨ s.CellFree f.cell)
    (hfills : p.source?.isSome → f.point.source?.isSome ∨ s.cells f.cell = none) :
    Filled (s.moveTo i f rest p) := by
  refine h.setCall (calls_of_top htop) ?_ ?_
  · rintro x ⟨g, hg, rfl, hlocked⟩
    rcases mem_cons.mp hg with rfl | hmem
    · exact hholds.imp_left fun hlocked => ⟨f, mem_cons_self, rfl, hlocked⟩
    · exact .inl ⟨g, mem_cons_of_mem _ hmem, rfl, hlocked⟩
  · rintro x ⟨g, hg, rfl, hsource⟩
    rcases mem_cons.mp hg with rfl | hmem
    · exact (hfills hsource).imp_left fun hsource => ⟨f, mem_cons_self, rfl, hsource⟩
    · exact .inl ⟨g, mem_cons_of_mem _ hmem, rfl, hsource⟩

/-- A call gives the cell of its innermost acquisition back. -/
theorem Filled.deliver (h : Filled s) (htop : s.top i = some (f, rest)) :
    Filled (s.setCall i (.deliver a rest)) := by
  refine h.setCall (calls_of_top htop) (fun x hx => .inl ?_) fun x hx => .inl ?_
  · obtain ⟨g, hg, rfl, hlocked⟩ := hx
    obtain ⟨g', hg', hcell, hwait, -⟩ := of_mem_deliver hg
    exact ⟨g', mem_cons_of_mem _ hg', hcell.symm, hwait ▸ hlocked⟩
  · obtain ⟨g, hg, rfl, hsource⟩ := hx
    obtain ⟨g', hg', hcell, -, hs⟩ := of_mem_deliver hg
    exact ⟨g', mem_cons_of_mem _ hg', hcell.symm, hs ▸ hsource⟩

variable [DecidableEq α] [DecidableEq κ]

/-- The cell is filled by the one call that has locked it. -/
theorem Filled.finish (h : Filled s) (hs : StacksOk decl s) (htop : s.top i = some (f, rest))
    (hlocked : f.point.isWaiting = false) : Filled (s.finish i f rest a) := by
  have hdeliver := h.deliver (a := a) htop
  refine ⟨hdeliver.unique, fun c hc x hx => ?_, fun x hx => ?_, h.nodup⟩
  · have hne : x ≠ f.cell := by
      rintro rfl
      have hheld : (running (f :: rest)).Holds f.cell :=
        ⟨f, mem_cons_self, rfl, hlocked⟩
      obtain ⟨j, hj⟩ := getElem?_of_mem hc
      rcases eq_or_ne j i with rfl | hji
      · -- around it, the credential has not been visited
        obtain rfl : .deliver a rest = c :=
          some.inj ((calls_setCall htop _).symm.trans hj)
        obtain ⟨g, hg, hcell, -⟩ := hx
        obtain ⟨g', hg', hcell', -⟩ := of_mem_deliver hg
        have haddr : g'.addr = f.addr := congrArg Prod.fst (hcell'.symm.trans hcell)
        exact (nodup_cons.mp (hs.top htop).nodup).1
          (haddr ▸ mem_map_of_mem hg')
      · have hj' : s.calls[j]? = some c := by
          simpa [Acquisitions.finish, Acquisitions.setCall, getElem?_set, hji.symm] using hj
        exact hji (h.unique j i c _ _ hj' (calls_of_top htop) hx.holds hheld)
    have hempty : s.cells x = none := hdeliver.empty c hc x hx
    simpa [Acquisitions.finish, update_of_ne hne] using hempty
  · rcases eq_or_ne x f.cell with rfl | hne
    · simp [Acquisitions.finish]
    · simpa [Acquisitions.finish, update_of_ne hne] using h.minted x hx

variable [DecidableEq μ] {resolutionKey : α → CredSource α → List κ → κ} {e : CredEvent α κ μ}

/-- The event does not make material unusable. -/
def Fresh : CredEvent α κ μ → Prop
  | .expire _ => False
  | _ => True

theorem Filled.step (h : Filled s) (hs : StacksOk decl s) (hfresh : Fresh e)
    (hstep : s.step decl resolutionKey e = some s') : Filled s' := by
  cases did_of_step hstep with
  | called addr =>
    have hask : ∀ x, ¬ (ask (κ := κ) (μ := μ) decl [] addr []).Holds x := by
      rintro x ⟨g, hg, -, hlocked⟩
      simpa using of_mem_ask hg hlocked
    refine ⟨fun i j c c' x hc hc' hx hx' => ?_, fun c hc x hx => ?_, h.minted, h.nodup⟩
    · have hold : ∀ {k : ℕ} {d : CredCall α κ μ},
          (s.calls ++ [.ask decl [] addr []])[k]? = some d → d.Holds x → s.calls[k]? = some d := by
        intro k d hd hdx
        rw [getElem?_append] at hd
        split at hd
        · exact hd
        · obtain rfl := mem_singleton.mp (mem_of_getElem? hd)
          exact absurd hdx (hask x)
      exact h.unique i j c c' x (hold hc hx) (hold hc' hx') hx hx'
    · rcases mem_append.mp hc with hmem | hmem
      · exact h.empty c hmem x hx
      · obtain rfl := mem_singleton.mp hmem
        exact absurd hx.holds (hask x)
  | locked htop hwait hfree => exact h.moveTo htop (.inr hfree) (by simp [source?])
  | reused htop hpoint ha => exact h.deliver htop
  | walked htop hpoint hnone hdecl hsource =>
    exact h.moveTo htop (.inl (by simp [hpoint, isWaiting])) fun _ => .inr hnone
  | skipped htop hlocked | refused htop hlocked =>
    refine h.setCall (calls_of_top htop) ?_ ?_ <;> rintro x ⟨g, hg, -⟩ <;>
      simp [frames] at hg
  | asked htop hnext =>
    refine h.setCall (calls_of_top htop) ?_ ?_
    · rintro x ⟨g, hg, rfl, hlocked⟩
      exact .inl ⟨g, of_mem_ask hg hlocked, rfl, hlocked⟩
    · rintro x ⟨g, hg, rfl, hsource⟩
      exact .inl ⟨g, of_mem_ask hg (isWaiting_of_source? hsource), rfl, hsource⟩
  | found htop hpoint hnext => exact h.finish hs htop (by simp [hpoint, isWaiting])
  | missed htop hpoint hnext =>
    refine h.moveTo htop (.inl ?_) fun _ => .inl ?_
    · simp [hpoint, isWaiting]
    · simp [hpoint, source?]
  | @obtained i f rest source got presented m htop hpoint hnext =>
    -- the cell has been empty until now, so this is the first time
    have hnone : s.cells f.cell = none :=
      h.empty _ (mem_of_getElem? (calls_of_top htop)) _
        ⟨f, mem_cons_self, rfl, by simp [hpoint, source?]⟩
    have hfinish := h.finish (a := ⟨resolutionKey f.addr source (f.inner got), m⟩) hs htop
      (by simp [hpoint, isWaiting])
    refine ⟨hfinish.unique, hfinish.empty, ?_, ?_⟩
    · rintro x hx
      rcases mem_cons.mp hx with rfl | hmem
      · simp [Acquisitions.finish]
      · exact hfinish.minted x hmem
    · exact nodup_cons.mpr ⟨fun hmem => h.minted _ hmem hnone, h.nodup⟩
  | expired c => exact hfresh.elim

theorem filled_of_run {es : List (CredEvent α κ μ)}
    (h : (machine decl resolutionKey).run es = some s) (hfresh : ∀ e ∈ es, Fresh e) : Filled s := by
  refine (runFrom_invariant (I := fun s => StacksOk decl s ∧ Filled s)
    ?_ ?_ (meets_of_forall fun e he _ => hfresh e he) h).2
  · exact fun s e s' hs he hstep => ⟨hs.1.step hstep, hs.2.step hs.1 he hstep⟩
  · refine ⟨by rintro c ⟨⟩, fun i j c c' x hc => ?_, ?_, ?_, nodup_nil⟩
    · simp [machine] at hc
    · rintro c ⟨⟩
    · rintro x ⟨⟩

end Filled

/-! ### Commands -/

variable {α κ μ : Type}

/-- The command of a source is run now: all that is to be presented to it has been acquired. -/
structure AtCommand (s : Acquisitions α κ μ) (source : CredSource α)
    (got presented : List (Acquired κ μ)) : Prop where
  kind : source.kind = .exec
  top : ∃ i f rest, s.top i = some (f, rest) ∧ f.point = .minting source got presented ∧
    f.nextCall = none

/-- Keys that are the terms themselves, and so are never the same by accident. -/
inductive KeyTerm (α : Type) where
  | nil
  | cons (head tail : KeyTerm α)
  | key (addr : α) (source : CredSource α) (parents : KeyTerm α)
  deriving DecidableEq

/-- The keys of a chain as one term. -/
def KeyTerm.ofList : List (KeyTerm α) → KeyTerm α
  | [] => .nil
  | k :: l => .cons k (ofList l)

theorem KeyTerm.ofList_injective : Function.Injective (ofList (α := α)) := by
  intro l
  induction l with
  | nil =>
    rintro (_ | ⟨k, l'⟩) h
    · rfl
    · cases h
  | cons k l ih =>
    rintro (_ | ⟨k', l'⟩) h
    · cases h
    · obtain ⟨rfl, htail⟩ : k = k' ∧ ofList l = ofList l' := by simpa [ofList] using h
      rw [ih htail]

/-- The term for a credential, its source and the keys of the chain. -/
def termKey (a : α) (source : CredSource α) (parents : List (KeyTerm α)) : KeyTerm α :=
  .key a source (.ofList parents)

theorem collisionFree_termKey : CollisionFree (termKey (α := α)) := by
  intro a source L a' source' L' h
  obtain ⟨ha, hs, hL⟩ : a = a' ∧ source = source' ∧ KeyTerm.ofList L = .ofList L' := by
    simpa [termKey] using h
  exact ⟨ha, hs, KeyTerm.ofList_injective hL⟩

/-- A credential, `true`, that is acquired by a command which is presented another one, `false`. -/
def derivedGraph : CredGraph Bool
  | true => some [⟨.exec, [false], ""⟩]
  | false => some [⟨.plain, [], ""⟩]

/-- One consumer of the derived credential, until its command is run. Its parent yields the material
`1` for the key, and `2` for the command. -/
def derivedRun : List (CredEvent Bool (KeyTerm Bool) ℕ) :=
  [.call true, .lock 0, .walk 0 0, .recurse 0, .lock 0, .walk 0 0, .mint 0, .obtain 0 1,
    .mint 0, .recurse 0, .lock 0, .walk 0 0, .mint 0, .obtain 0 2]

/-- The state when the command is run. -/
def derivedState : Acquisitions Bool (KeyTerm Bool) ℕ :=
  ((machine derivedGraph termKey).run derivedRun).getD ⟨[], fun _ => none, []⟩

/-- The key of the parent, as it is folded into the key of the derived credential. -/
def parentKey : KeyTerm Bool := termKey false ⟨.plain, [], ""⟩ []

theorem run_derivedRun : (machine derivedGraph termKey).run derivedRun = some derivedState := by
  have h : ((machine derivedGraph termKey).run derivedRun).isSome := by decide
  obtain ⟨s, hs⟩ := isSome_iff_exists.mp h
  rw [derivedState, hs, getD_some]

theorem atCommand_derivedState :
    derivedState.AtCommand ⟨.exec, [false], ""⟩ [⟨parentKey, 1⟩]
      [⟨termKey false ⟨.plain, [], ""⟩ [parentKey], 2⟩] :=
  ⟨rfl, 0, _, _, rfl, rfl, rfl⟩

/-- **The command gets other material than the one that is in the key**, and the parent is acquired
from its source twice for one consumer. -/
theorem presented_other_material :
    (machine derivedGraph termKey).run derivedRun = some derivedState ∧
      (∀ e ∈ derivedRun, Fresh e) ∧
      (∃ source got presented, derivedState.AtCommand source got presented ∧
        presented.map key ≠ got.map key ∧
          presented.map material ≠ got.map material) ∧
      derivedState.minted = [(false, [parentKey]), (false, [])] := by
  refine ⟨run_derivedRun, ?_, ⟨_, _, _, atCommand_derivedState, by decide, by decide⟩, by decide⟩
  simp [derivedRun, Fresh]

/-- **What is presented to a command is what was folded into the key if and only if there is nothing
to present**; and for one credential under one list of keys, material is taken from a source at
most once. -/
theorem presented_iff {α κ μ : Type} [DecidableEq α] [DecidableEq κ] [DecidableEq μ]
    {decl : CredGraph α} {resolutionKey : α → CredSource α → List κ → κ}
    (hkeys : CollisionFree resolutionKey) {es : List (CredEvent α κ μ)} {s : Acquisitions α κ μ}
    (h : (machine decl resolutionKey).run es = some s) (hfresh : ∀ e ∈ es, Fresh e) :
    s.minted.Nodup ∧
      ∀ source got presented, s.AtCommand source got presented →
        (presented.map key = got.map key ↔ source.credentials = []) := by
  refine ⟨(filled_of_run h hfresh).nodup, ?_⟩
  rintro source got presented ⟨hkind, i, f, rest, htop, hpoint, hnext⟩
  have hframe : FrameKeyed resolutionKey f :=
    (keysOk_of_run h).frames _ (mem_of_getElem? (calls_of_top htop)) f mem_cons_self
  obtain ⟨hgot, hlen, hpresented⟩ := hframe.minting hpoint
  have hpresented := hpresented hkind
  have hall : source.credentials.length ≤ presented.length := by
    simpa [nextCall, hpoint, hkind] using hnext
  constructor
  · -- the first of them has two keys
    intro heq
    by_contra hne
    obtain ⟨b, l, hcred⟩ := exists_cons_of_ne_nil hne
    have hpos : 0 < got.length := by simp [hlen, hcred]
    have hpos' : 0 < presented.length := by
      omega
    have hb : source.credentials[0]? = some b := by simp [hcred]
    have ha := hgot.keyed 0 b got[0] hb (getElem?_eq_getElem hpos)
    have ha' := hpresented.keyed 0 b presented[0] hb (getElem?_eq_getElem hpos')
    refine key_ne_of_presented hkeys ha ha' hpos ?_
    have hzero := congrArg (fun l => l[0]?) heq
    simpa [hpos, hpos'] using hzero
  · intro hcred
    have hnil : got = [] := eq_nil_of_length_eq_zero (by simp [hlen, hcred])
    have hnil' : presented = [] := by
      have hle := hpresented.length_le
      simpa [hcred] using hle
    rw [hnil, hnil']

/-- The parent of a derived credential is not acquired twice for one cell, but the command is
presented another one than the one in the key. -/
theorem presented_iff_derived :
    derivedState.minted.Nodup ∧
      ∀ source got presented, derivedState.AtCommand source got presented →
        (presented.map key = got.map key ↔ source.credentials = []) :=
  presented_iff collisionFree_termKey run_derivedRun (by simp [derivedRun, Fresh])

end Acquisitions

end Heph
