import Mathlib

/-!
# Guarded machines and their runs

A concurrent program whose parties take atomic steps is a machine: a state, and a
function that takes the state and an **event** to the next state, or to `none` when
the event is not enabled there. All the nondeterminism – which thread moves next,
what the environment answers – is in the choice of the events, so “for every
interleaving” is “for every list of events”.

Four things are said about runs:

* an **invariant** that one step keeps holds at the end of every run
  (`Machine.run_invariant`), where the steps may be restricted to those that
  meet a condition on the state they are taken in (`Machine.Meets`);
* a relation between the events so far and the state, kept by one step, holds at the
  end of every run (`Machine.run_history`);
* conversely, a run that ends well has met a condition all along if breaking it once cannot be
  undone (`Machine.meets_of_runFrom`);
* what the steps of a run emit, in order, is `Machine.collect`.
-/

namespace Heph

open List

/-- A machine: where it starts, and what an event does to a state – `none` where the
event is not enabled. -/
structure Machine (σ ε : Type) where
  /-- The state every run starts from. -/
  init : σ
  /-- One step. -/
  step : σ → ε → Option σ

namespace Machine

variable {σ ε β : Type} (m : Machine σ ε)

/-! ### Runs -/

/-- The state after the events, from a given state. -/
def runFrom : σ → List ε → Option σ
  | s, [] => some s
  | s, e :: es =>
    match m.step s e with
    | none => none
    | some s' => runFrom s' es

/-- The state after the events, from the start. -/
def run (es : List ε) : Option σ := m.runFrom m.init es

/-- What the steps of a run emit, in order. -/
def collect (f : σ → ε → List β) : σ → List ε → List β
  | _, [] => []
  | s, e :: es =>
    f s e ++
      match m.step s e with
      | none => []
      | some s' => collect f s' es

/-- Every step of the run meets the condition, in the state it is taken in. -/
def Meets (C : σ → ε → Prop) : σ → List ε → Prop
  | _, [] => True
  | s, e :: es =>
    C s e ∧
      match m.step s e with
      | none => True
      | some s' => Meets C s' es

instance decidableMeets (C : σ → ε → Prop) [∀ s e, Decidable (C s e)] :
    (s : σ) → (es : List ε) → Decidable (m.Meets C s es)
  | _, [] => isTrue trivial
  | s, e :: es =>
    have : Decidable (match m.step s e with
        | none => True
        | some s' => m.Meets C s' es) :=
      match m.step s e with
      | none => isTrue trivial
      | some s' => decidableMeets C s' es
    inferInstanceAs (Decidable (C s e ∧ _))

section Step

variable {m} {s s' t : σ} {e : ε} {es es' : List ε} {C : σ → ε → Prop}

theorem runFrom_cons (h : m.runFrom s (e :: es) = some s') :
    ∃ t, m.step s e = some t ∧ m.runFrom t es = some s' := by
  rw [runFrom] at h
  split at h
  · simp at h
  · next t ht => exact ⟨t, ht, h⟩

theorem runFrom_append :
    m.runFrom s (es ++ es') = some s' ↔
      ∃ t, m.runFrom s es = some t ∧ m.runFrom t es' = some s' := by
  induction es generalizing s with
  | nil => simp [runFrom]
  | cons e es ih =>
    rw [cons_append, runFrom, runFrom]
    cases m.step s e with
    | none => simp
    | some t => exact ih

theorem run_append :
    m.run (es ++ es') = some s' ↔ ∃ t, m.run es = some t ∧ m.runFrom t es' = some s' :=
  runFrom_append

theorem collect_append_singleton {f : σ → ε → List β} (h : m.runFrom s es = some t) :
    m.collect f s (es ++ [e]) = m.collect f s es ++ f t e := by
  induction es generalizing s with
  | nil =>
    cases h
    rw [nil_append, collect, collect]
    cases m.step t e <;> exact append_nil _
  | cons e' es ih =>
    obtain ⟨u, hu, hrun⟩ := runFrom_cons h
    rw [cons_append, collect, collect, hu, append_assoc]
    exact congrArg _ (ih hrun)

theorem Meets.tail (h : m.Meets C s (e :: es)) (ht : m.step s e = some t) :
    m.Meets C t es := by
  have h2 := h.2
  rw [ht] at h2
  exact h2

theorem Meets.of_append (h : m.Meets C s (es ++ es')) : m.Meets C s es := by
  induction es generalizing s with
  | nil => trivial
  | cons e es ih =>
    refine ⟨h.1, ?_⟩
    cases hu : m.step s e with
    | none => trivial
    | some u => exact ih (.tail h hu)

theorem meets_of_forall (h : ∀ e ∈ es, ∀ s, C s e) : m.Meets C s es := by
  induction es generalizing s with
  | nil => trivial
  | cons e es ih =>
    refine ⟨h e mem_cons_self s, ?_⟩
    cases m.step s e with
    | none => trivial
    | some u => exact ih fun e' he' => h e' (mem_cons_of_mem _ he')

/-- Every step meets the condition if it does after each beginning of the run. -/
theorem meets_of_prefixes
    (h : ∀ es₁ e es₂ t, es = es₁ ++ e :: es₂ → m.runFrom s es₁ = some t → C t e) :
    m.Meets C s es := by
  induction es generalizing s with
  | nil => trivial
  | cons e es ih =>
    refine ⟨h [] e es s rfl rfl, ?_⟩
    cases hu : m.step s e with
    | none => trivial
    | some u =>
      refine ih fun es₁ e' es₂ t heq ht => h (e :: es₁) e' es₂ t (by rw [heq]; rfl) ?_
      rw [runFrom, hu]
      exact ht

/-- **A run in two parts** meets the condition where both do. -/
theorem meets_append (hrun : m.runFrom s es = some t) :
    m.Meets C s (es ++ es') ↔ m.Meets C s es ∧ m.Meets C t es' := by
  induction es generalizing s with
  | nil =>
    cases hrun
    exact (iff_of_eq (true_and _)).symm
  | cons e es ih =>
    obtain ⟨u, hu, hrest⟩ := runFrom_cons hrun
    rw [cons_append, Meets, Meets, hu, and_assoc]
    exact and_congr_right fun _ => ih hrest

/-- The condition is met by a step that is taken in the end. -/
theorem Meets.last (h : m.Meets C s (es ++ [e])) (hrun : m.runFrom s es = some t) : C t e :=
  ((meets_append hrun).mp h).2.1

variable (m) in
/-- There is a run from one state to another. -/
def Leads (s t : σ) : Prop := ∃ es, m.runFrom s es = some t

theorem Leads.refl (s : σ) : m.Leads s s := ⟨[], rfl⟩

theorem Leads.trans {u : σ} (h : m.Leads s t) (h' : m.Leads t u) : m.Leads s u := by
  obtain ⟨es, hes⟩ := h
  obtain ⟨es', hes'⟩ := h'
  exact ⟨es ++ es', runFrom_append.mpr ⟨t, hes, hes'⟩⟩

theorem leads_of_step (h : m.step s e = some t) : m.Leads s t :=
  ⟨[e], by rw [runFrom, h]; rfl⟩

end Step

/-! ### Invariants -/

section Invariant

variable {m} {s s' : σ} {es : List ε} {I : σ → Prop} {C : σ → ε → Prop}

/-- **The invariant rule, for the runs whose steps all meet a condition.** -/
theorem runFrom_invariant
    (hstep : ∀ s e s', I s → C s e → m.step s e = some s' → I s')
    (hI : I s) (hC : m.Meets C s es) (h : m.runFrom s es = some s') : I s' := by
  induction es generalizing s with
  | nil =>
    cases h
    exact hI
  | cons e es ih =>
    obtain ⟨t, ht, hrun⟩ := runFrom_cons h
    exact ih (hstep s e t hI hC.1 ht) (hC.tail ht) hrun

/-- What one step keeps, every run keeps, wherever it starts. -/
theorem runFrom_keeps (hstep : ∀ s e s', I s → m.step s e = some s' → I s')
    (hI : I s) (h : m.runFrom s es = some s') : I s' :=
  runFrom_invariant (fun s e s' hI _ => hstep s e s' hI) hI
    (meets_of_forall fun _ _ _ => trivial) h

/-- **The rule for what cannot be undone**: if a step that breaks the condition leads to a state
that is bad, and a bad state stays bad, then the runs that end well meet the condition. -/
theorem meets_of_runFrom (Bad : σ → Prop)
    (hstep : ∀ s e s', I s → m.step s e = some s' → I s')
    (hbreak : ∀ s e s', I s → ¬ C s e → m.step s e = some s' → Bad s')
    (hbad : ∀ s e s', I s → Bad s → m.step s e = some s' → Bad s')
    (hI : I s) (h : m.runFrom s es = some s') (hgood : ¬ Bad s') : m.Meets C s es := by
  induction es generalizing s with
  | nil => trivial
  | cons e es ih =>
    obtain ⟨t, ht, hrun⟩ := runFrom_cons h
    refine ⟨?_, ?_⟩
    · by_contra hC
      have hkeep : ∀ s e s', I s ∧ Bad s → m.step s e = some s' → I s' ∧ Bad s' :=
        fun s e s' hs h => ⟨hstep s e s' hs.1 h, hbad s e s' hs.1 hs.2 h⟩
      exact hgood (runFrom_keeps hkeep ⟨hstep s e t hI ht, hbreak s e t hI hC ht⟩ hrun).2
    · rw [ht]
      exact ih (hstep s e t hI ht) hrun

/-- **The history rule**: a relation between the events so far and the state that one
step keeps. -/
theorem run_history {P : List ε → σ → Prop} (hinit : P [] m.init)
    (hstep : ∀ es s e s', m.run es = some s → P es s → m.step s e = some s' → P (es ++ [e]) s')
    (h : m.run es = some s) : P es s := by
  induction es using reverseRecOn generalizing s with
  | nil =>
    cases h
    exact hinit
  | append_singleton es e ih =>
    obtain ⟨t, ht, hrun⟩ := run_append.mp h
    obtain ⟨u, hu, hnil⟩ := runFrom_cons hrun
    cases hnil
    exact hstep es t e s ht (ih ht) hu

/-- **The invariant rule**: what the start has and one step keeps, every run keeps. -/
theorem run_invariant (hinit : I m.init)
    (hstep : ∀ s e s', I s → m.step s e = some s' → I s') (h : m.run es = some s) : I s :=
  run_history hinit (fun _ s e s' _ => hstep s e s') h

end Invariant

end Machine

end Heph
