import Heph.Failure.Classify

/-!
# Every failure is attributed

Which targets fail, and which of them on their own, is a matter of the graph and of how the work
of each target ends; no order of the frames comes into it (`Targets.Fails`,
`Targets.FailsItself`). Whatever the order, the registry has the targets that failed on their
own, each of them once, and no other.

That a marker always names one of them is almost true. What a frame gets from its dependencies is
markers and cancellations, and a frame that gets one of them passes it on. A frame that gets
several passes on a marker, for the first root that is named among them – and **if none is named,
for itself**, though it has not failed and is not recorded. So the markers are right exactly as
long as no frame gets several cancellations and nothing else (`Frames.attributed_iff`).
-/

namespace Heph

open List Option Failure Frames Except Machine

namespace Failure

variable {e : Failure} {r : Addr} (ws : List Wrapper)

variable (e : Failure)

@[simp] theorem bare_wrap : (e.wrap ws).bare = e.bare := by
  induction ws with
  | nil => rfl
  | cons w ws ih => cases w <;> exact ih

@[simp] theorem root?_wrap : (e.wrap ws).root? = e.root? := by
  simp only [root?, bare_wrap]

@[simp] theorem isCancelled_wrap :
    (e.wrap ws).isCancelled = e.isCancelled := by
  simp only [isCancelled, bare_wrap]

@[simp] theorem isCollateral_wrap :
    (e.wrap ws).isCollateral = e.isCollateral := by
  simp only [isCollateral, root?_wrap, isCancelled_wrap]

@[simp] theorem isGenuine_wrap :
    (e.wrap ws).isGenuine = e.isGenuine := by
  simp only [isGenuine, bare_wrap]

variable {e}

theorem bare_of_isCancelled (h : e.isCancelled = true) : e.bare = cancelled := by
  rw [isCancelled] at h
  split at h
  · assumption
  · exact absurd h Bool.false_ne_true

theorem bare_of_root? (h : e.root? = some r) : e.bare = upstream r := by
  rw [root?] at h
  split at h
  · rwa [← some.inj h]
  · exact nomatch h

theorem root?_of_isCancelled (h : e.isCancelled = true) : e.root? = none := by
  rw [root?, bare_of_isCancelled h]

/-- What is collateral is a marker or a cancellation. -/
theorem cases_of_isCollateral (h : e.isCollateral = true) :
    (∃ r, e.root? = some r) ∨ e.isCancelled = true := by
  rw [isCollateral, Bool.or_eq_true] at h
  exact h.imp_left isSome_iff_exists.mp

theorem shell?_of_isCollateral (h : e.isCollateral = true) : e.shell? = none := by
  rcases cases_of_isCollateral h with ⟨r, hr⟩ | hc
  · rw [shell?, bare_of_root? hr]
  · rw [shell?, bare_of_isCancelled hc]

end Failure

namespace Failures

variable {fs : Failures} {a b : Addr} {f : TargetFailure}

theorem mem_record : b ∈ (fs.record a f).addrs ↔ b ∈ fs.addrs ∨ b = a := by
  rw [record]
  split
  · next h =>
    refine ⟨.inl, ?_⟩
    rintro (hb | rfl)
    · exact hb
    · exact h
  · simp [addrs]

/-- A target is recorded once, if it is. -/
theorem count_eq_one (h : a ∈ fs.addrs) : fs.addrs.count a = 1 :=
  count_eq_one_of_mem fs.nodup h

end Failures

/-! ### Classification -/

variable {fs : Failures} {a : Addr} {i : Bool} {e : Failure} {es : List Failure}

/-- An error of the target's own is recorded. -/
theorem classifyFailure_of_isGenuine (h : e.isGenuine = true) :
    classifyFailure fs a i e = blame fs a i e := by
  cases hb : e.bare with
  | cancelled | cycle | hashUnknown | shell | upstream => simp [isGenuine, hb] at h
  | multi es =>
    simp only [isGenuine, hb, Bool.and_eq_true, List.all_eq_true,
      isNone_iff_eq_none] at h
    have hshell : es.findSome? shell? = none := findSome?_eq_none_iff.mpr h.1
    have hall : ¬ es.all isCollateral = true := by
      obtain ⟨e, he, hne⟩ := any_eq_true.mp h.2
      intro hall
      rw [all_eq_true.mp hall e he] at hne
      exact absurd hne Bool.false_ne_true
    simp only [classifyFailure, hb, hshell, if_neg hall]
  | target | other | context | shared => simp only [classifyFailure, hb]

/-- A cancellation is passed on as it is. -/
theorem classifyFailure_of_isCancelled (h : e.isCancelled = true) :
    classifyFailure fs a i e = (fs, e) := by
  simp only [classifyFailure, bare_of_isCancelled h]

/-- **What comes from the dependencies is passed on as one marker or one cancellation**, and
nothing is recorded. The root is the first one that is named – or the target itself, if it is given
several errors and none names one. -/
theorem classifyFailure_of_joinAllFailable (ws : List Wrapper)
    (hes : ∀ e ∈ es, e.isCollateral = true) (h : joinAllFailable es = some e) :
    ∃ e', classifyFailure fs a i (e.wrap ws) = (fs, e') ∧ e'.isCollateral = true ∧
      e'.root? = if 2 ≤ es.length ∧ ∀ e ∈ es, e.isCancelled = true then some a
        else es.findSome? root? := by
  match es, h with
  | [e₁], h =>
    obtain rfl : e₁ = e := some.inj h
    have he := hes e₁ (by simp)
    rcases cases_of_isCollateral he with ⟨r, hr⟩ | hc
    · refine ⟨.upstream r, ?_, rfl, ?_⟩
      · simp only [classifyFailure, bare_wrap, bare_of_root? hr]
      · rw [if_neg (by simp), findSome?_cons, hr]
        rfl
    · refine ⟨e₁.wrap ws, classifyFailure_of_isCancelled (by simpa using hc), by simpa using he, ?_⟩
      simp [root?_of_isCancelled hc]
  | e₁ :: e₂ :: l, h =>
    cases h
    have hshell : (e₁ :: e₂ :: l).findSome? shell? = none :=
      findSome?_eq_none_iff.mpr fun e he => shell?_of_isCollateral (hes e he)
    have hall : (e₁ :: e₂ :: l).all isCollateral = true := all_eq_true.mpr hes
    refine ⟨.upstream (((e₁ :: e₂ :: l).findSome? root?).getD a), ?_, rfl, ?_⟩
    · simp only [classifyFailure, bare_wrap, bare, hshell, if_pos hall]
    by_cases hc : ∀ e ∈ e₁ :: e₂ :: l, e.isCancelled = true
    · have hroot : (e₁ :: e₂ :: l).findSome? root? = none :=
        findSome?_eq_none_iff.mpr fun e he => root?_of_isCancelled (hc e he)
      rw [if_pos ⟨by simp, hc⟩, hroot]
      rfl
    · rw [if_neg fun h => hc h.2]
      -- one of the errors is no cancellation, so it names a root
      push Not at hc
      obtain ⟨e, he, hc⟩ := hc
      obtain ⟨r, hr⟩ := (cases_of_isCollateral (hes e he)).resolve_right hc
      cases hf : (e₁ :: e₂ :: l).findSome? root? with
      | none => exact nomatch hr.symm.trans (findSome?_eq_none_iff.mp hf e he)
      | some r => rfl

/-! ### Which targets fail -/

namespace Targets

variable (t : Targets)

/-- A target fails if its work does, or if one of its dependencies fails. -/
inductive Fails : Addr → Prop where
  | work {a : Addr} (h : t.outcome a ≠ .success) : Fails a
  | dep {a d : Addr} (hd : d ∈ t.deps a) (h : Fails d) : Fails a

/-- **A target fails on its own**: its dependencies do not fail, and its work does. -/
def FailsItself (a : Addr) : Prop :=
  (∃ e h, t.outcome a = .own e h) ∧ ∀ d ∈ t.deps a, ¬ t.Fails d

/-- The failures are attributed: those that failed on their own are recorded, each of them once,
nobody else is, and a marker names one of them. -/
structure Attributed (s : Frames) : Prop where
  recorded : ∀ a r, (a, r) ∈ s.results → t.FailsItself a → s.failures.addrs.count a = 1
  itself : ∀ a, a ∈ s.failures.addrs → t.FailsItself a
  named : ∀ a e root, (a, .error e) ∈ s.results → e.root? = some root → root ∈ s.failures.addrs

end Targets

namespace Frames

variable {t : Targets} {s s' : Frames} {ev : FrameEvent} {i : Taken} {inputs : List Taken}
  {evs : List FrameEvent}

/-- The frame is given several errors by its dependencies, and all of them are cancellations. -/
def onlyCancelled (t : Targets) (s : Frames) : FrameEvent → Bool
  | .finish a inputs _ =>
    match t.outcome a with
    | .cancelled => false
    | _ =>
      decide (2 ≤ (errors (s.gather inputs)).length) &&
        (errors (s.gather inputs)).all isCancelled
  | .failFast _ _ _ => false

/-! ### One step -/

/-- The errors are those of dependencies of the target. -/
def Collected (t : Targets) (s : Frames) (a : Addr) (es : List Failure) : Prop :=
  ∀ e ∈ es, ∃ d ∈ t.deps a, ∃ e₀ ws, (d, .error e₀) ∈ s.results ∧ e = e₀.wrap ws

/-- **How a frame ends.** -/
inductive Ends (t : Targets) (s : Frames) (a : Addr) : Bool → Frames → Prop where
  | cancelled (h : t.outcome a = .cancelled) (ws : List Wrapper) :
    Ends t s a false (s.fail t a (cancelled.wrap ws))
  | upstream {es : List Failure} {e : Failure} (h : t.outcome a ≠ .cancelled)
    (hes : Collected t s a es) (he : joinAllFailable es = some e) (ws : List Wrapper) :
    Ends t s a (decide (2 ≤ es.length) && es.all isCancelled) (s.fail t a (e.wrap ws))
  | own {e : Failure} {hg : e.isGenuine = true} (h : t.outcome a = .own e hg)
    (hok : ∀ d ∈ t.deps a, (d, .ok ()) ∈ s.results) (ws : List Wrapper) :
    Ends t s a false (s.fail t a (e.wrap ws))
  | success (h : t.outcome a = .success) (hok : ∀ d ∈ t.deps a, (d, .ok ()) ∈ s.results) :
    Ends t s a false (s.succeed a)

theorem mem_of_take_ok {d : Addr} (h : s.take i = some (d, .ok ())) :
    (d, .ok ()) ∈ s.results := by
  rw [take] at h
  split at h
  · next a ha =>
    obtain rfl : a = d := congrArg Prod.fst (some.inj h)
    exact mem_of_getElem? ha
  · exact nomatch congrArg Prod.snd (some.inj h)
  · exact nomatch h

theorem mem_of_take_error {d : Addr} (h : s.take i = some (d, .error e)) :
    ∃ e₀ ws, (d, .error e₀) ∈ s.results ∧ e = e₀.wrap ws := by
  rw [take] at h
  split at h
  · exact nomatch congrArg Prod.snd (some.inj h)
  · next a e₀ ha =>
    obtain ⟨rfl, he⟩ := Prod.mk.inj (some.inj h)
    exact ⟨e₀, i.wrappers, mem_of_getElem? ha, (error.inj he).symm⟩
  · exact nomatch h

theorem mem_errors {rs : List (Addr × Except Failure Unit)} :
    e ∈ errors rs ↔ ∃ d, (d, .error e) ∈ rs := by
  rw [errors, mem_filterMap]
  constructor
  · rintro ⟨⟨d, r⟩, hr, h⟩
    cases r with
    | ok u => exact nomatch h
    | error e' =>
      cases h
      exact ⟨d, hr⟩
  · rintro ⟨d, hd⟩
    exact ⟨_, hd, rfl⟩

section

variable (h : (s.gather inputs).map (·.1) = t.deps a)

include h

/-- The errors that a frame takes are those of its dependencies. -/
theorem collected_of_gather :
    Collected t s a (errors (s.gather inputs)) := by
  intro e he
  obtain ⟨d, hd⟩ := mem_errors.mp he
  obtain ⟨i, -, hi⟩ := mem_filterMap.mp hd
  exact ⟨d, h ▸ mem_map_of_mem hd, mem_of_take_error hi⟩

theorem ok_of_gather
    (hnone : errors (s.gather inputs) = []) : ∀ d ∈ t.deps a, (d, .ok ()) ∈ s.results := by
  intro d hd
  rw [← h] at hd
  obtain ⟨⟨d, r⟩, hr, rfl⟩ := mem_map.mp hd
  cases r with
  | ok u =>
    obtain ⟨i, -, hi⟩ := mem_filterMap.mp hr
    exact mem_of_take_ok hi
  | error e =>
    have he : e ∈ errors (s.gather inputs) := mem_errors.mpr ⟨d, hr⟩
    rw [hnone] at he
    exact nomatch he

end

theorem joinAllFailable_eq_none (h : joinAllFailable es = none) : es = [] := by
  match es, h with
  | [], _ => rfl
  | [_], h => exact nomatch h
  | _ :: _ :: _, h => exact nomatch h

/-- **Every step is the end of a frame.** -/
theorem ends_of_step (h : s.step t ev = some s') : ∃ a, Ends t s a (s.onlyCancelled t ev) s' := by
  cases ev with
  | finish a inputs ws =>
    refine ⟨a, ?_⟩
    cases ho : t.outcome a with
    | cancelled =>
      simp only [step, ho, some.injEq] at h
      simp only [onlyCancelled, ho, ← h]
      exact .cancelled ho ws
    | success | own =>
      simp only [step, ho] at h
      obtain ⟨hdeps, h⟩ := ite_none_left_eq_some.mp h
      rw [not_not] at hdeps
      simp only [onlyCancelled, ho]
      cases hj : joinAllFailable (errors (s.gather inputs)) with
      | some e =>
        simp only [hj] at h
        obtain ⟨-, h⟩ := ite_none_left_eq_some.mp h
        exact some.inj h ▸ .upstream (by simp [ho]) (collected_of_gather hdeps) hj ws
      | none =>
        simp only [hj, some.injEq] at h
        have hnone := joinAllFailable_eq_none hj
        have hok := ok_of_gather hdeps hnone
        rw [hnone]
        first
          | exact h ▸ .success ho hok
          | exact h ▸ .own ho hok ws
  | failFast a input ws =>
    refine ⟨a, ?_⟩
    cases hi : s.take input with
    | none => cases ho : t.outcome a <;> simp [step, ho, hi] at h
    | some r =>
      obtain ⟨d, r⟩ := r
      cases r with
      | ok u => cases ho : t.outcome a <;> simp [step, ho, hi] at h
      | error e =>
        cases ho : t.outcome a with
        | cancelled => simp [step, ho, hi] at h
        | success | own =>
          simp only [step, ho, hi] at h
          obtain ⟨⟨-, hd⟩, h⟩ := ite_none_right_eq_some.mp h
          have hes : Collected t s a [e] := by
            intro e' he'
            obtain rfl := mem_singleton.mp he'
            exact ⟨d, hd, mem_of_take_error hi⟩
          exact some.inj h ▸ .upstream (by simp [ho]) hes rfl ws

/-! ### The invariant -/

/-- **What holds in every run.** -/
structure Inv (t : Targets) (s : Frames) : Prop where
  collateral : ∀ a e, (a, .error e) ∈ s.results → e.isCollateral = true
  fails : ∀ a e, (a, .error e) ∈ s.results → t.Fails a
  works : ∀ a, (a, .ok ()) ∈ s.results → ¬ t.Fails a
  recorded : ∀ a r, (a, r) ∈ s.results → t.FailsItself a → a ∈ s.failures.addrs
  itself : ∀ a, a ∈ s.failures.addrs → t.FailsItself a
  named : ∀ a e root, (a, .error e) ∈ s.results → e.root? = some root → t.FailsItself root →
    root ∈ s.failures.addrs

theorem inv_new (t : Targets) : Inv t new where
  collateral _ _ h := nomatch h
  fails _ _ h := nomatch h
  works _ h := nomatch h
  recorded _ _ h := nomatch h
  itself _ h := nomatch h
  named _ _ _ h := nomatch h

/-- **What the end of a frame adds**: a result, and the target to the registry if it fails on its
own. Unless the frame is given cancellations only, a root that is named is the target itself or
was named before. -/
structure Adds (t : Targets) (s : Frames) (a : Addr) (o : Bool) (s' : Frames)
    (r : Except Failure Unit) : Prop where
  results : s'.results = s.results ++ [(a, r)]
  addrs : ∀ b, b ∈ s'.failures.addrs ↔ b ∈ s.failures.addrs ∨ b = a ∧ t.FailsItself a
  fails : (∃ e, r = .error e) ↔ t.Fails a
  collateral : ∀ e, r = .error e → e.isCollateral = true
  named : o = false → ∀ e root, r = .error e → e.root? = some root →
    root = a ∧ t.FailsItself a ∨ ∃ d e₀, (d, .error e₀) ∈ s.results ∧ e₀.root? = some root
  misnamed : o = true → ¬ t.FailsItself a ∧ ∃ e, r = .error e ∧ e.root? = some a

namespace Collected

theorem isCollateral (hI : Inv t s) (hes : Collected t s a es) :
    ∀ e ∈ es, e.isCollateral = true := by
  intro e he
  obtain ⟨d, -, e₀, ws, hd, rfl⟩ := hes e he
  rw [isCollateral_wrap]
  exact hI.collateral d e₀ hd

/-- A target that is given an error fails, and not on its own. -/
theorem fails {e : Failure} (hI : Inv t s) (hes : Collected t s a es)
    (he : joinAllFailable es = some e) : t.Fails a ∧ ¬ t.FailsItself a := by
  match es, he with
  | e₁ :: l, _ =>
    obtain ⟨d, hd, e₀, ws, hmem, -⟩ := hes e₁ (by simp)
    exact ⟨.dep hd (hI.fails d e₀ hmem), fun h => h.2 d hd (hI.fails d e₀ hmem)⟩

/-- A root that is named by what a target is given was named before. -/
theorem named {root : Addr} (hes : Collected t s a es)
    (h : es.findSome? root? = some root) :
    ∃ d e₀, (d, .error e₀) ∈ s.results ∧ e₀.root? = some root := by
  obtain ⟨e, he, hroot⟩ := exists_of_findSome?_eq_some h
  obtain ⟨d, -, e₀, ws, hd, rfl⟩ := hes e he
  exact ⟨d, e₀, hd, by rwa [root?_wrap] at hroot⟩

end Collected

/-- A frame ends with an error that is not the target's own. -/
theorem adds_of_collateral {o : Bool} {e' : Failure} (hfails : t.Fails a)
    (hself : ¬ t.FailsItself a)
    (hclass : classifyFailure s.failures a (t.interactive a) e = (s.failures, e'))
    (hcol : e'.isCollateral = true) (hroot : o = true → e'.root? = some a)
    (hnamed : o = false → ∀ root, e'.root? = some root →
      ∃ d e₀, (d, .error e₀) ∈ s.results ∧ e₀.root? = some root) :
    Adds t s a o (s.fail t a e) (.error e') where
  results := by simp only [fail, hclass]
  addrs b := by simp [fail, hclass, hself]
  fails := ⟨fun _ => hfails, fun _ => ⟨e', rfl⟩⟩
  collateral x hx := error.inj hx ▸ hcol
  named ho x root hx hr := .inr (hnamed ho root (error.inj hx ▸ hr))
  misnamed ho := ⟨hself, e', rfl, hroot ho⟩

theorem adds_of_ends {o : Bool} (hI : Inv t s) (h : Ends t s a o s') :
    ∃ r, Adds t s a o s' r := by
  cases h with
  | cancelled ho ws =>
    have hself : ¬ t.FailsItself a := by
      rintro ⟨⟨e, hg, h⟩, -⟩
      exact nomatch ho.symm.trans h
    have hc : (cancelled.wrap ws).isCancelled = true := by
      rw [isCancelled_wrap]
      rfl
    refine ⟨_, adds_of_collateral (.work (by simp [ho])) hself
      (classifyFailure_of_isCancelled hc) (by rw [isCollateral_wrap]; rfl) nofun ?_⟩
    intro _ root hroot
    exact nomatch (root?_of_isCancelled hc).symm.trans hroot
  | @upstream es e ho hes he ws =>
    obtain ⟨hfails, hself⟩ := hes.fails hI he
    obtain ⟨e', hclass, hcol, hroot⟩ := classifyFailure_of_joinAllFailable ws
      (hes.isCollateral hI) he
    refine ⟨_, adds_of_collateral hfails hself hclass hcol ?_ ?_⟩
    · intro ho
      simp only [Bool.and_eq_true, decide_eq_true_eq, List.all_eq_true] at ho
      rw [hroot, if_pos ho]
    · intro ho root h
      rw [hroot, if_neg] at h
      · exact hes.named h
      · rintro ⟨hlen, hall⟩
        simp [hlen, all_eq_true.mpr hall] at ho
  | @own e hg ho hok ws =>
    have hself : t.FailsItself a := ⟨⟨e, hg, ho⟩, fun d hd => hI.works d (hok d hd)⟩
    have hclass (i : Bool) :
        classifyFailure s.failures a i (e.wrap ws) = blame s.failures a i (e.wrap ws) :=
      classifyFailure_of_isGenuine (by rwa [isGenuine_wrap])
    refine ⟨.error (.upstream a), ?_, fun b => ?_, ?_, ?_, ?_, nofun⟩
    · simp only [fail, hclass, blame]
    · simp [fail, hclass, blame, Failures.mem_record, hself]
    · exact ⟨fun _ => .work (by simp [ho]), fun _ => ⟨_, rfl⟩⟩
    · intro x hx
      obtain rfl := error.inj hx
      rfl
    · intro _ x root hx hroot
      obtain rfl := error.inj hx
      exact .inl ⟨(some.inj hroot).symm, hself⟩
  | success ho hok =>
    have hworks : ¬ t.Fails a := by
      rintro (h | ⟨hd, h⟩)
      · exact h ho
      · exact hI.works _ (hok _ hd) h
    have hself : ¬ t.FailsItself a := by
      rintro ⟨⟨e, hg, h⟩, -⟩
      exact nomatch ho.symm.trans h
    exact ⟨.ok (), rfl, fun b => by simp [succeed, hself],
      ⟨nofun, fun h => absurd h hworks⟩, nofun, nofun, nofun⟩

namespace Adds

variable {o : Bool} {r : Except Failure Unit}

theorem mem_results (h : Adds t s a o s' r) {b : Addr} {x : Except Failure Unit} :
    (b, x) ∈ s'.results ↔ (b, x) ∈ s.results ∨ b = a ∧ x = r := by
  rw [h.results]
  simp

/-- **The invariant is kept.** -/
theorem inv (h : Adds t s a o s' r) (hI : Inv t s) : Inv t s' where
  collateral b e hb := by
    rcases h.mem_results.mp hb with hb | ⟨-, rfl⟩
    · exact hI.collateral b e hb
    · exact h.collateral e rfl
  fails b e hb := by
    rcases h.mem_results.mp hb with hb | ⟨rfl, rfl⟩
    · exact hI.fails b e hb
    · exact h.fails.mp ⟨e, rfl⟩
  works b hb := by
    rcases h.mem_results.mp hb with hb | ⟨rfl, rfl⟩
    · exact hI.works b hb
    · intro hf
      obtain ⟨e, he⟩ := h.fails.mpr hf
      exact nomatch he
  recorded b x hb hself := by
    refine (h.addrs b).mpr ?_
    rcases h.mem_results.mp hb with hb | ⟨rfl, -⟩
    · exact .inl (hI.recorded b x hb hself)
    · exact .inr ⟨rfl, hself⟩
  itself b hb := by
    rcases (h.addrs b).mp hb with hb | ⟨rfl, hself⟩
    · exact hI.itself b hb
    · exact hself
  named b e root hb hroot hself := by
    refine (h.addrs root).mpr ?_
    rcases h.mem_results.mp hb with hb | ⟨rfl, rfl⟩
    · exact .inl (hI.named b e root hb hroot hself)
    · cases o with
      | false =>
        rcases h.named rfl e root rfl hroot with hroot | ⟨d, e₀, hd, hroot₀⟩
        · exact .inr hroot
        · exact .inl (hI.named d e₀ root hd hroot₀ hself)
      | true =>
        obtain ⟨-, e', he', hroot'⟩ := h.misnamed rfl
        obtain rfl := error.inj he'
        obtain rfl := some.inj (hroot.symm.trans hroot')
        exact .inr ⟨rfl, hself⟩

end Adds

/-- A marker names a target that has not failed on its own. -/
def Misnamed (t : Targets) (s : Frames) : Prop :=
  ∃ a e root, (a, .error e) ∈ s.results ∧ e.root? = some root ∧ ¬ t.FailsItself root

/-- **Unless a frame is given cancellations only, the markers stay right.** -/
theorem not_misnamed_of_adds {r : Except Failure Unit} (h : Adds t s a false s' r)
    (hs : ¬ Misnamed t s) : ¬ Misnamed t s' := by
  rintro ⟨b, e, root, hb, hroot, hself⟩
  rcases h.mem_results.mp hb with hb | ⟨-, rfl⟩
  · exact hs ⟨b, e, root, hb, hroot, hself⟩
  · rcases h.named rfl e root rfl hroot with ⟨rfl, hroot⟩ | ⟨d, e₀, hd, hroot₀⟩
    · exact hself hroot
    · exact hs ⟨d, e₀, root, hd, hroot₀, hself⟩

/-! ### Runs -/

theorem adds_of_step (hI : Inv t s) (h : (machine t).step s ev = some s') :
    ∃ a r, Adds t s a (s.onlyCancelled t ev) s' r := by
  obtain ⟨a, ha⟩ := ends_of_step h
  exact ⟨a, adds_of_ends hI ha⟩

theorem inv_step (hI : Inv t s) (h : (machine t).step s ev = some s') : Inv t s' := by
  obtain ⟨a, r, hadds⟩ := adds_of_step hI h
  exact hadds.inv hI

theorem inv_run (h : (machine t).run evs = some s) : Inv t s :=
  run_invariant (inv_new t) (fun _ _ _ hI h => inv_step hI h) h

/-- A run leads to a marker that is wrong exactly if a frame is given cancellations only. -/
theorem not_misnamed_iff (h : (machine t).run evs = some s) :
    ¬ Misnamed t s ↔
      (machine t).Meets (fun s ev => s.onlyCancelled t ev = false) (machine t).init evs := by
  constructor
  · intro hs
    refine meets_of_runFrom (Misnamed t) (fun _ _ _ hI h => inv_step hI h)
      ?_ ?_ (inv_new t) h hs
    · intro s ev s' hI ho h
      obtain ⟨a, r, hadds⟩ := adds_of_step hI h
      obtain ⟨hself, e, rfl, hroot⟩ := hadds.misnamed (Bool.not_eq_false _ ▸ ho)
      exact ⟨a, e, a, hadds.mem_results.mpr (.inr ⟨rfl, rfl⟩), hroot, hself⟩
    · rintro s ev s' hI ⟨b, e, root, hb, hroot, hself⟩ h
      obtain ⟨a, r, hadds⟩ := adds_of_step hI h
      exact ⟨b, e, root, hadds.mem_results.mpr (.inl hb), hroot, hself⟩
  · intro hmeets
    refine (runFrom_invariant (I := fun s => Inv t s ∧ ¬ Misnamed t s) ?_ ⟨inv_new t, ?_⟩
      hmeets h).2
    · rintro s ev s' ⟨hI, hs⟩ ho h
      obtain ⟨a, r, hadds⟩ := adds_of_step hI h
      rw [ho] at hadds
      exact ⟨hadds.inv hI, not_misnamed_of_adds hadds hs⟩
    · rintro ⟨a, e, root, h, -⟩
      exact nomatch h

/-- A marker that is right names a target that is recorded. -/
theorem Inv.mem_addrs {root : Addr} (hI : Inv t s) (hs : ¬ Misnamed t s)
    (ha : (a, .error e) ∈ s.results) (hroot : e.root? = some root) : root ∈ s.failures.addrs := by
  refine hI.named a e root ha hroot ?_
  by_contra hself
  exact hs ⟨a, e, root, ha, hroot, hself⟩

/-- **The failures of a request are attributed exactly if no frame is given several errors by its
dependencies that are all cancellations.** -/
theorem attributed_iff (h : (machine t).run evs = some s) :
    t.Attributed s ↔
      (machine t).Meets (fun s ev => s.onlyCancelled t ev = false) (machine t).init evs := by
  have hI := inv_run h
  rw [← not_misnamed_iff h]
  constructor
  · rintro hattr ⟨a, e, root, ha, hroot, hself⟩
    exact hself (hattr.itself root (hattr.named a e root ha hroot))
  · intro hs
    exact ⟨fun a r ha hself => Failures.count_eq_one (hI.recorded a r ha hself), hI.itself,
      fun a e root ha hroot => hI.mem_addrs hs ha hroot⟩

/-- A target without arguments, at the root. -/
def named (c : Char) : Addr := ⟨[], [c], .empty⟩

/-- The target `t`, with its dependencies `x` and `y`, where the work of `x` ends as given and that
of `y` is cancelled. Nothing fails fast. -/
def twoDeps (x : Outcome) : Targets where
  deps a := if a = named 't' then [named 'x', named 'y'] else []
  outcome a := if a = named 'x' then x else if a = named 'y' then .cancelled else .success
  interactive _ := false
  failFast := false

/-- The frames of the dependencies, and then that of the target. -/
def twoDepsRun : List FrameEvent :=
  [.finish (named 'x') [] [.context (.text ['r', 'u', 'n'])], .finish (named 'y') [] [],
    .finish (named 't') [⟨0, [.shared]⟩, ⟨1, []⟩] [.context (.text ['m', 'e', 't', 'a'])]]

/-- One dependency fails and the other one is cancelled. -/
theorem attributed_iff_failed :
    ∃ s, (machine (twoDeps (.own (.other ['1']) rfl))).run twoDepsRun = some s ∧
      (twoDeps (.own (.other ['1']) rfl)).Attributed s := by
  have hrun : ∃ s, (machine (twoDeps (.own (.other ['1']) rfl))).run twoDepsRun = some s :=
    ⟨_, rfl⟩
  obtain ⟨s, hs⟩ := hrun
  exact ⟨s, hs, (attributed_iff hs).mpr (by decide)⟩

/-- **Both dependencies are cancelled, and the target is named as the root of a failure** that is
recorded nowhere. -/
theorem cancelled_names_itself :
    ∃ s, (machine (twoDeps .cancelled)).run twoDepsRun = some s ∧
      (named 't', .error (.upstream (named 't'))) ∈ s.results ∧ s.failures.addrs = [] ∧
      ¬ (twoDeps .cancelled).Attributed s := by
  have hrun : ∃ s, (machine (twoDeps .cancelled)).run twoDepsRun = some s ∧
      s.results[2]? = some (named 't', .error (.upstream (named 't'))) ∧ s.failures.addrs = [] :=
    ⟨_, rfl, rfl, rfl⟩
  obtain ⟨s, hrun, hres, hnone⟩ := hrun
  have hmem := mem_of_getElem? hres
  refine ⟨s, hrun, hmem, hnone, fun h => ?_⟩
  have hrec := h.named _ _ _ hmem rfl
  rw [hnone] at hrec
  exact nomatch hrec

end Frames

end Heph
