import Heph.Load.Registry

/-!
# How often a build file is evaluated

`load_file` looks at the cache and then claims the file, and does not look again when the claim is
granted. What the registry gives is that **no two evaluations of a file run at a time**: each file
on a stack is held by its chain. That a file is not evaluated again is more: a chain may look, and
claim after another one has evaluated the file, cached it and let go of it. It takes **an order**:
whoever lets go of a file that is evaluated must find no chain between its look and its claim.
-/

namespace Heph.Load

open List Option Function Machine Parties

variable {P : Type}

/-- The files that a chain evaluates, the innermost first. -/
def Chain.evaluating (l : Chain P) : List P :=
  l.stack.filterMap fun fr => match fr with
    | .file f _ => some f
    | .dir _ _ => none

variable (x : Registry P × (ℕ → Chain P))

/-- An evaluation begins: the claim is granted. -/
def Begins (e : ℕ × LoadEvent P) (f : P) : Prop :=
  e.2 = .next ∧ (x.2 e.1).mode = .claiming f ∧ x.1.holder f = none

/-- An evaluation succeeds: there is nothing left to load. -/
def Succeeds (e : ℕ × LoadEvent P) (f : P) : Prop :=
  e.2 = .next ∧ (x.2 e.1).mode = .running ∧ (x.2 e.1).stack.head? = some (.file f [])

section

variable [DecidableEq P] (g : LoadGraph P) (es : List (ℕ × LoadEvent P))

/-- An evaluation of the file has succeeded in the run. -/
def Succeeded (f : P) : Prop :=
  ∃ es₁ e es₂ x, es = es₁ ++ e :: es₂ ∧ (loading g).machine.run es₁ = some x ∧ Succeeds x e f

/-- **No file is evaluated again** after an evaluation of it has succeeded. -/
def EvaluatedOnce : Prop :=
  ∀ es₁ e es₂ x f, es = es₁ ++ e :: es₂ → (loading g).machine.run es₁ = some x →
    Begins x e f → ¬Succeeded g es₁ f

end

/-- A chain lets go of a file: it is through with it, or fails. -/
def Releases (l : Chain P) (e : LoadEvent P) (f : P) : Prop :=
  e = .next ∧ (l.mode = .stored ∨ ∃ err, l.mode = .failing err) ∧
    ∃ todo, l.stack.head? = some (.file f todo)

/-- When a file is released that is evaluated, no chain stands between its look at the cache and
its claim of the file. -/
def NoneBetween (e : ℕ × LoadEvent P) : Prop :=
  ∀ f, Releases (x.2 e.1) e.2 f → x.1.fileCache f = true → ∀ d, (x.2 d).mode ≠ .claiming f

/-- A chain has looked at the cache before a file got there, and may claim the file now. -/
def Late : Prop :=
  ∃ f d, x.1.fileCache f = true ∧ x.1.holder f = none ∧ (x.2 d).mode = .claiming f

/-! ### What a step does to the evaluations -/

variable [DecidableEq P] {g : LoadGraph P} {s s' : Registry P} {chain : ℕ} {l l' : Chain P}
  {e : LoadEvent P} {es : List (ℕ × LoadEvent P)} {x : Registry P × (ℕ → Chain P)}

/-- What a step is for the evaluations. -/
inductive Effect (s : Registry P) (chain : ℕ) (l : Chain P) (e : LoadEvent P) (s' : Registry P)
    (l' : Chain P) : Prop
  | other (hl : l'.evaluating = l.evaluating) (hh : s'.holder = s.holder)
      (hc : s'.fileCache = s.fileCache)
  | begins (f : P) (he : e = .next) (hmode : l.mode = .claiming f) (hfree : s.holder f = none)
      (hl : l'.evaluating = f :: l.evaluating)
      (hh : s'.holder = update s.holder f (some chain)) (hc : s'.fileCache = s.fileCache)
  | succeeds (f : P) (he : e = .next) (hmode : l.mode = .running)
      (htop : l.stack.head? = some (.file f [])) (hl : l'.evaluating = l.evaluating)
      (hh : s'.holder = s.holder) (hc : s'.fileCache = update s.fileCache f true)
  | ends (f : P) (hr : Releases l e f) (hl : l.evaluating = f :: l'.evaluating)
      (hh : s'.holder = update s.holder f none) (hc : s'.fileCache = s.fileCache)

theorem effect_of_block {f : P} {owner : ℕ} (h : block chain s l.stack f owner = some (s', l')) :
    Effect s chain l e s' l' := by
  unfold block at h
  split at h <;> cases h <;> exact .other rfl rfl rfl

theorem effect_of_next (h : next g chain s l.stack l.mode = some (s', l')) :
    Effect s chain l .next s' l' := by
  obtain ⟨stack, mode⟩ := l
  cases mode with
  | idle | finished => cases h
  | running =>
    rcases stack with _ | ⟨⟨d, _ | ⟨f, todo⟩⟩ | ⟨f, _ | ⟨n, todo⟩⟩, rest⟩ <;> cases h
    · exact .other rfl rfl rfl
    · exact .other rfl rfl rfl
    · exact .succeeds f rfl rfl rfl rfl rfl rfl
    · exact .other rfl rfl rfl
  | stored =>
    rcases stack with _ | ⟨⟨d, todo⟩ | ⟨f, todo⟩, rest⟩ <;> cases h
    exact .ends f ⟨rfl, .inl rfl, todo, rfl⟩ rfl rfl rfl
  | load n =>
    rcases n with f | d <;> simp only [next] at h <;> repeat' split at h
    all_goals
      cases h
      exact .other rfl rfl rfl
  | claiming f =>
    simp only [next] at h
    split at h
    · next hfree =>
      cases h
      exact .begins f rfl rfl hfree rfl rfl rfl
    · exact effect_of_block h
  | waiting f =>
    simp only [next] at h
    split at h
    · cases h
      exact .other rfl rfl rfl
    · exact effect_of_block h
  | failing e =>
    rcases stack with _ | ⟨⟨d, todo⟩ | ⟨f, todo⟩, rest⟩ <;> cases h
    · exact .other rfl rfl rfl
    · exact .other rfl rfl rfl
    · exact .ends f ⟨rfl, .inr ⟨e, rfl⟩, todo, rfl⟩ rfl rfl rfl

theorem effect_of_step (h : (loading g).step chain s l e = some (s', l')) :
    Effect s chain l e s' l' := by
  cases e with
  | next => exact effect_of_next h
  | pkg | start | fail =>
    simp only [loading] at h
    split at h <;> cases h
    exact .other rfl rfl rfl

/-- Who is about to claim a file does that next. -/
theorem next_of_claiming {f : P} (h : (loading g).step chain s l e = some (s', l'))
    (hmode : l.mode = .claiming f) : e = .next := by
  cases e with
  | next => rfl
  | pkg | start =>
    simp only [loading] at h
    split at h
    · cases hmode
    · cases h
  | fail =>
    simp only [loading, hmode] at h
    cases h

omit [DecidableEq P] in
theorem back_ne_claiming (stack : List (Frame P)) (f : P) : Mode.back stack ≠ .claiming f := by
  unfold Mode.back
  split <;> simp

/-- **Who is about to claim a file has not seen it in the cache.** -/
theorem uncached_of_claiming {f : P} (h : (loading g).step chain s l e = some (s', l'))
    (hmode : l'.mode = .claiming f) : s'.fileCache f = false := by
  cases e with
  | pkg =>
    simp only [loading] at h
    split at h <;> cases h
    split at hmode <;> cases hmode
  | start | fail =>
    simp only [loading] at h
    split at h <;> cases h
    cases hmode
  | next =>
    obtain ⟨stack, mode⟩ := l
    cases mode with
    | load n =>
      rcases n with f' | d <;> simp only [loading, next] at h <;> repeat' split at h
      all_goals cases h
      all_goals simp_all [back_ne_claiming]
    | idle | running | stored | claiming | waiting | failing | finished =>
      simp only [loading, next, block] at h
      repeat' split at h
      all_goals cases h
      all_goals simp [back_ne_claiming] at hmode

/-! ### One evaluation at a time -/

/-- A chain holds what it evaluates, and evaluates nothing twice. -/
def HoldsAll (chain : ℕ) (s : Registry P) (l : Chain P) : Prop :=
  l.evaluating.Nodup ∧ ∀ f ∈ l.evaluating, s.holder f = some chain

theorem Effect.holdsAll (h : Effect s chain l e s' l') (hl : HoldsAll chain s l) :
    HoldsAll chain s' l' := by
  obtain ⟨hnodup, hheld⟩ := hl
  cases h with
  | other heq hh | succeeds _ _ _ _ heq hh => exact ⟨heq ▸ hnodup, heq ▸ hh ▸ hheld⟩
  | begins f _ _ hfree heq hh =>
    have hne : ∀ f' ∈ l.evaluating, f' ≠ f := by
      rintro _ hf rfl
      simp [hheld _ hf] at hfree
    refine ⟨heq ▸ nodup_cons.mpr ⟨fun hf => hne f hf rfl, hnodup⟩, ?_⟩
    rw [heq, hh]
    refine forall_mem_cons.mpr ⟨update_self .., fun f' hf' => ?_⟩
    rw [update_of_ne (hne f' hf')]
    exact hheld f' hf'
  | ends f _ heq hh =>
    rw [heq] at hnodup hheld
    obtain ⟨hf, hnodup⟩ := nodup_cons.mp hnodup
    refine ⟨hnodup, fun f' hf' => ?_⟩
    rw [hh, update_of_ne (ne_of_mem_of_not_mem hf' hf)]
    exact hheld f' (mem_cons_of_mem f hf')

theorem Effect.holdsAll_other (h : Effect s chain l e s' l') (hl : HoldsAll chain s l) {d : ℕ}
    (hd : d ≠ chain) {k : Chain P} (hk : HoldsAll d s k) : HoldsAll d s' k := by
  refine ⟨hk.1, fun f' hf' => ?_⟩
  have hheld := hk.2 f' hf'
  cases h with
  | other _ hh | succeeds _ _ _ _ _ hh => rwa [hh]
  | begins f _ _ hfree _ hh =>
    rw [hh, update_of_ne]
    · exact hheld
    · rintro rfl
      simp [hheld] at hfree
  | ends f _ heq hh =>
    have hf : s.holder f = some chain := hl.2 f (heq ▸ mem_cons_self)
    rw [hh, update_of_ne]
    · exact hheld
    · rintro rfl
      exact hd (some.inj (hheld.symm.trans hf))

theorem holdsAll_of_run (h : (loading g).machine.run es = some x) (c : ℕ) :
    HoldsAll c x.1 (x.2 c) := by
  refine (run_invariant (J := fun _ => True) trivial
    (fun c => ⟨.nil, by simp [loading, Chain.evaluating]⟩) ?_ ?_ h).2 c
  · exact fun c s l e s' l' _ hl h => ⟨trivial, (effect_of_step h).holdsAll hl⟩
  · exact fun c s l e s' l' _ hl h d hd k hk => (effect_of_step h).holdsAll_other hl hd hk

/-! ### What is cached -/

omit [DecidableEq P] in
/-- An event of a longer run is the new one, or one of those before. -/
theorem eq_append_cons {es₁ es₂ : List (ℕ × LoadEvent P)} {e e₁ : ℕ × LoadEvent P}
    (h : es ++ [e] = es₁ ++ e₁ :: es₂) :
    es = es₁ ∧ e = e₁ ∨ ∃ es₂, es = es₁ ++ e₁ :: es₂ := by
  rcases eq_nil_or_concat es₂ with rfl | ⟨es₂, e₂, rfl⟩
  · exact .inl ((append_inj' h rfl).imp_right fun h => (cons.inj h).1)
  · rw [concat_eq_append, ← cons_append, ← append_assoc] at h
    exact .inr ⟨es₂, (append_inj' h rfl).1⟩

/-- **What is cached is what has been evaluated.** -/
theorem fileCache_iff (h : (loading g).machine.run es = some x) (f : P) :
    x.1.fileCache f = true ↔ Succeeded g es f := by
  refine run_history (P := fun es x => x.1.fileCache f = true ↔ Succeeded g es f)
    (by simp [loading, Succeeded, machine]) (fun es x e y hrun ih hy => ?_) h
  have hlast : Succeeded g (es ++ [e]) f ↔ Succeeded g es f ∨ Succeeds x e f := by
    constructor
    · rintro ⟨es₁, e₁, es₂, x₁, heq, hx₁, hs⟩
      rcases eq_append_cons heq with ⟨rfl, rfl⟩ | ⟨es₂, heq⟩
      · cases hrun.symm.trans hx₁
        exact .inr hs
      · exact .inl ⟨es₁, e₁, es₂, x₁, heq, hx₁, hs⟩
    · rintro (⟨es₁, e₁, es₂, x₁, rfl, hx₁, hs⟩ | hs)
      · exact ⟨es₁, e₁, es₂ ++ [e], x₁, by simp, hx₁, hs⟩
      · exact ⟨es, e, [], x, rfl, hrun, hs⟩
  rw [hlast, ← ih]
  obtain ⟨c, e⟩ := e
  obtain ⟨⟨s', l'⟩, hp, rfl⟩ := map_eq_some_iff.mp hy
  constructor
  · intro hf
    cases effect_of_step hp with
    | other _ _ hc | begins _ _ _ _ _ _ hc | ends _ _ _ _ hc => exact .inl (hc ▸ hf)
    | succeeds f' he hmode htop _ _ hc =>
      rcases eq_or_ne f f' with rfl | hne
      · exact .inr ⟨he, hmode, htop⟩
      · rw [hc, update_of_ne hne] at hf
        exact .inl hf
  · rintro (hf | ⟨rfl, hmode, htop⟩)
    · cases effect_of_step hp with
      | other _ _ hc | begins _ _ _ _ _ _ hc | ends _ _ _ _ hc => exact hc ▸ hf
      | succeeds f' _ _ _ _ _ hc =>
        rw [hc, update_apply, hf, ite_self]
    · obtain ⟨rest, hrest⟩ := head?_eq_some_iff.mp htop
      simp only [loading, hmode, hrest, next] at hp
      cases hp
      exact update_self ..

/-! ### The order -/

/-- A chain that is late stays late, unless it claims the file. -/
theorem Late.step {y : Registry P × (ℕ → Chain P)} {e : ℕ × LoadEvent P} (hx : Late x)
    (hb : ∀ f, Begins x e f → x.1.fileCache f = false)
    (h : (loading g).machine.step x e = some y) : Late y := by
  obtain ⟨f, d, hcached, hfree, hd⟩ := hx
  obtain ⟨c, e⟩ := e
  obtain ⟨⟨s', l'⟩, hp, rfl⟩ := map_eq_some_iff.mp h
  have hnot : ¬Begins x (c, e) f := fun hbegins => by simp [hb f hbegins] at hcached
  have hne : d ≠ c := by
    rintro rfl
    exact hnot ⟨next_of_claiming hp hd, hd, hfree⟩
  refine ⟨f, d, ?_, ?_, (congrArg Chain.mode (update_of_ne hne ..)).trans hd⟩
  · cases effect_of_step hp with
    | other _ _ hc | begins _ _ _ _ _ _ hc | ends _ _ _ _ hc => exact hc ▸ hcached
    | succeeds f' _ _ _ _ _ hc => rw [hc, update_apply, hcached, ite_self]
  · cases effect_of_step hp with
    | other _ hh | succeeds _ _ _ _ _ hh => exact hh ▸ hfree
    | begins f' he hmode hfree' _ hh =>
      rw [hh, update_of_ne]
      · exact hfree
      · rintro rfl
        exact hnot ⟨he, hmode, hfree'⟩
    | ends f' _ _ hh => rw [hh, update_apply, hfree, ite_self]

/-- Whoever releases an evaluated file before the claim of another one makes it late. -/
theorem late_of_release {y : Registry P × (ℕ → Chain P)} {e : ℕ × LoadEvent P}
    (hx : ¬NoneBetween x e) (h : (loading g).machine.step x e = some y) : Late y := by
  obtain ⟨c, e⟩ := e
  obtain ⟨⟨s', l'⟩, hp, rfl⟩ := map_eq_some_iff.mp h
  simp only [NoneBetween, not_forall, not_not] at hx
  obtain ⟨f, ⟨rfl, hmode, todo, htop⟩, hcached, d, hd⟩ := hx
  obtain ⟨rest, hstack⟩ := head?_eq_some_iff.mp htop
  have hne : d ≠ c := by
    rintro rfl
    simp [hd] at hmode
  have hd' := (congrArg Chain.mode (update_of_ne hne l' x.2)).trans hd
  rcases hmode with hmode | ⟨err, hmode⟩ <;>
    · simp only [loading, hmode, hstack, next] at hp
      cases hp
      exact ⟨f, d, hcached, update_self .., hd'⟩

/-- In the order that is asked for, nobody gets late. -/
theorem not_late_of_step {y : Registry P × (ℕ → Chain P)} {e : ℕ × LoadEvent P} (hx : ¬Late x)
    (hholds : HoldsAll e.1 x.1 (x.2 e.1)) (hnone : NoneBetween x e)
    (h : (loading g).machine.step x e = some y) : ¬Late y := by
  rintro ⟨f, d, hcached, hfree, hd⟩
  obtain ⟨c, e⟩ := e
  obtain ⟨⟨s', l'⟩, hp, rfl⟩ := map_eq_some_iff.mp h
  dsimp only at hcached hfree hd hp
  have hne : d ≠ c := by
    rintro rfl
    rw [update_self] at hd
    simp [uncached_of_claiming hp hd] at hcached
  rw [update_of_ne hne] at hd
  cases effect_of_step hp with
  | other _ hh hc => exact hx ⟨f, d, hc ▸ hcached, hh ▸ hfree, hd⟩
  | begins f' _ _ _ _ hh hc =>
    refine hx ⟨f, d, hc ▸ hcached, ?_, hd⟩
    rw [hh, update_apply] at hfree
    split at hfree
    · cases hfree
    · exact hfree
  | succeeds f' _ _ htop _ hh hc =>
    -- the file that is cached now is still held
    have hheld : x.1.holder f' = some c := by
      obtain ⟨rest, hstack⟩ := head?_eq_some_iff.mp htop
      exact hholds.2 f' (by simp [Chain.evaluating, hstack])
    rw [hh] at hfree
    refine hx ⟨f, d, ?_, hfree, hd⟩
    rwa [hc, update_of_ne] at hcached
    rintro rfl
    simp [hheld] at hfree
  | ends f' hr _ hh hc =>
    rcases eq_or_ne f f' with rfl | hff
    · exact hnone f hr (hc ▸ hcached) d hd
    · rw [hh, update_of_ne hff] at hfree
      exact hx ⟨f, d, hc ▸ hcached, hfree, hd⟩

theorem EvaluatedOnce.of_append {es' : List (ℕ × LoadEvent P)} (h : EvaluatedOnce g (es ++ es')) :
    EvaluatedOnce g es := by
  rintro es₁ e es₂ x f rfl
  exact h es₁ e (es₂ ++ es') x f (by simp)

/-- A claim of a file that has been evaluated is a late one. -/
theorem late_of_begins {e : ℕ × LoadEvent P} {f : P} (h : (loading g).machine.run es = some x)
    (hbegins : Begins x e f) (hsucceeded : Succeeded g es f) : Late x :=
  ⟨f, e.1, (fileCache_iff h f).mpr hsucceeded, hbegins.2.2, hbegins.2.1⟩

/-- As long as the order is kept, nobody is late. -/
theorem not_late_of_meets (h : (loading g).machine.run es = some x)
    (hmeets : (loading g).machine.Meets NoneBetween (loading g).machine.init es) : ¬Late x := by
  refine run_history (P := fun es x =>
    (loading g).machine.Meets NoneBetween (loading g).machine.init es → ¬Late x)
    (fun _ => ?_) (fun es x e y hrun ih hy hmeets => ?_) h hmeets
  · rintro ⟨f, d, hcached, -⟩
    cases hcached
  · exact not_late_of_step (ih hmeets.of_append) (holdsAll_of_run hrun e.1) (hmeets.last hrun) hy

/-- If nobody evaluates a file again, the order was kept up to now or somebody is late. -/
theorem meets_or_late (h : (loading g).machine.run es = some x) (honce : EvaluatedOnce g es) :
    (loading g).machine.Meets NoneBetween (loading g).machine.init es ∨ Late x := by
  refine run_history (P := fun es x => EvaluatedOnce g es →
    (loading g).machine.Meets NoneBetween (loading g).machine.init es ∨ Late x)
    (fun _ => .inl trivial) (fun es x e y hrun ih hy honce => ?_) h honce
  rcases ih honce.of_append with hmeets | hlate
  · by_cases hnone : NoneBetween x e
    · exact .inl ((meets_append hrun).mpr ⟨hmeets, hnone, by rw [hy]; trivial⟩)
    · exact .inr (late_of_release hnone hy)
  · refine .inr (hlate.step (fun f hbegins => ?_) hy)
    have hnot := honce es e [] x f rfl hrun hbegins
    rwa [← fileCache_iff hrun, Bool.not_eq_true] at hnot

/-- **Single flight.** However the chains take turns, a file is evaluated by one chain at a time,
once on its stack. And no file is evaluated again after it has been evaluated, in the run or by
a step that may come next, exactly if at each release of an evaluated file no chain stands
between its look at the cache and its claim of that file. -/
theorem evaluatedOnce_iff {chains : ℕ → Chain P}
    (h : (loading g).machine.run es = some (s, chains)) :
    (∀ f c d, f ∈ (chains c).evaluating → f ∈ (chains d).evaluating →
      c = d ∧ (chains c).evaluating.count f = 1) ∧
    ((EvaluatedOnce g es ∧ ∀ e y, (loading g).machine.run (es ++ [e]) = some y →
        EvaluatedOnce g (es ++ [e])) ↔
      (loading g).machine.Meets NoneBetween (loading g).machine.init es) := by
  refine ⟨fun f c d hc hd => ?_, fun ⟨honce, hnext⟩ => ?_, fun hmeets => ?_⟩
  · obtain ⟨hnodup, hheld⟩ := holdsAll_of_run h c
    exact ⟨some.inj ((hheld f hc).symm.trans ((holdsAll_of_run h d).2 f hd)),
      count_eq_one_of_mem hnodup hc⟩
  · -- whoever is late claims next
    refine (meets_or_late h honce).resolve_right ?_
    rintro ⟨f, d, hcached, hfree, hd⟩
    obtain ⟨y, hy⟩ : ∃ y, (loading g).machine.step (s, chains) (d, .next) = some y := by
      simp only at hd hfree
      simp [Parties.machine, loading, next, hd, hfree]
    exact hnext (d, .next) y (run_append.mpr ⟨_, h, by rw [runFrom, hy]; rfl⟩) es (d, .next) []
      _ f rfl h ⟨rfl, hd, hfree⟩ ((fileCache_iff h f).mp hcached)
  · have hlate : ∀ es₁ es₂ x e f, es = es₁ ++ es₂ → (loading g).machine.run es₁ = some x →
        Begins x e f → ¬Succeeded g es₁ f := by
      rintro es₁ es₂ x e f rfl hx hbegins hsucceeded
      exact not_late_of_meets hx hmeets.of_append (late_of_begins hx hbegins hsucceeded)
    refine ⟨fun es₁ e es₂ x f heq hx => hlate es₁ (e :: es₂) x e f heq hx, fun e y _ => ?_⟩
    intro es₁ e₁ es₂ x f heq hx
    rcases eq_append_cons heq with ⟨heq, -⟩ | ⟨es₂, heq⟩
    · exact hlate es₁ [] x e₁ f (by simpa using heq) hx
    · exact hlate es₁ (e₁ :: es₂) x e₁ f heq hx

/-- A file that loads nothing. -/
def alone : LoadGraph Unit := ⟨fun _ => [], fun _ => []⟩

/-- Two chains look at the cache, and then one of them evaluates the file. -/
def lookedBefore : List (ℕ × LoadEvent Unit) :=
  [(0, .start (.file ())), (0, .next), (1, .start (.file ())), (1, .next), (1, .next), (1, .next),
    (1, .next)]

/-- Then the other one evaluates it, too. -/
theorem evaluated_again : ¬alone.Cyclic ∧
    ∃ x, (loading alone).machine.run (lookedBefore ++ [(0, .next)]) = some x ∧
      (x.2 0).evaluating = [()] ∧ ¬EvaluatedOnce alone (lookedBefore ++ [(0, .next)]) := by
  refine ⟨?_, ?_⟩
  · rintro ⟨n, hn⟩
    obtain ⟨n', hedge, -⟩ := Relation.TransGen.head'_iff.mp hn
    cases n <;> simp [LoadGraph.Edge, alone] at hedge
  · have hlooked : ((loading alone).machine.run lookedBefore).map
        (fun x => ((x.2 0).mode, x.1.holder (), x.1.fileCache ())) =
          some (.claiming (), none, true) := by
      decide +kernel
    have hrun : ((loading alone).machine.run (lookedBefore ++ [(0, .next)])).map
        (fun x => (x.2 0).evaluating) = some [()] := by
      decide +kernel
    obtain ⟨x, hx, hfacts⟩ := map_eq_some_iff.mp hlooked
    obtain ⟨hmode, hfacts⟩ := Prod.mk.inj hfacts
    obtain ⟨hfree, hcached⟩ := Prod.mk.inj hfacts
    obtain ⟨y, hy, hevaluating⟩ := map_eq_some_iff.mp hrun
    exact ⟨y, hy, hevaluating, fun honce => honce _ _ [] x () rfl hx ⟨rfl, hmode, hfree⟩
      ((fileCache_iff hx ()).mp hcached)⟩

/-- One chain evaluates the file and lets go of it, and then another one looks. -/
def lookedAfter : List (ℕ × LoadEvent Unit) :=
  [(1, .start (.file ())), (1, .next), (1, .next), (1, .next), (1, .next), (0, .start (.file ())),
    (0, .next)]

theorem evaluatedOnce_iff_lookedAfter :
    ∃ s chains, (loading alone).machine.run lookedAfter = some (s, chains) ∧
      s.fileCache () = true ∧ (chains 0).mode = .finished none ∧
      EvaluatedOnce alone lookedAfter := by
  have hrun : ((loading alone).machine.run lookedAfter).map
      (fun x => (x.1.fileCache (), (x.2 0).mode)) = some (true, .finished none) := by
    decide +kernel
  obtain ⟨⟨s, chains⟩, hrun, hfacts⟩ := map_eq_some_iff.mp hrun
  obtain ⟨hcached, hmode⟩ := Prod.mk.inj hfacts
  -- when the file is released, nobody else has come yet
  have hnone : ∀ (f : Unit) (d : ℕ), (update (fun _ => (⟨[], .idle⟩ : Chain Unit)) 1
      ⟨[.file () []], .stored⟩ d).mode ≠ .claiming f := by
    intro f d
    rw [update_apply]
    split <;> simp
  refine ⟨s, chains, hrun, hcached, hmode, ((evaluatedOnce_iff hrun).2.mpr ?_).1⟩
  simpa [Meets, lookedAfter, loading, machine, NoneBetween, Releases, next, alone, release,
    Mode.back] using hnone

end Heph.Load
