import Mathlib

/-!
# Fallible computations

A computation that runs one thing after another succeeds if each of them does. A fallible
function that is run over a list fails where one of its runs fails, and else returns the list of
what it returned. A computation that also has a state keeps what it has done to it when it fails.
-/

namespace Heph

open List StateT

variable {ε α β : Type} {f : α → Except ε β} {l : List α} {r : List β} {a : α} {b : β}

theorem bind_ok {x : Except ε α} : (x >>= f) = .ok b ↔ ∃ a, x = .ok a ∧ f a = .ok b := by
  cases x <;> simp [bind, Except.bind]

/-! ### With a state -/

section State

variable {σ : Type} {s s' : σ} {x : ExceptT ε (StateM σ) α} {f : α → ExceptT ε (StateM σ) β}

/-- The result of a fallible computation on a state, and the state it leaves. -/
def exec (x : ExceptT ε (StateM σ) α) (s : σ) : Except ε α × σ := x.run.run s

theorem exec_bind :
    exec (x >>= f) s = match exec x s with
      | (.ok a, s₁) => exec (f a) s₁
      | (.error e, s₁) => (.error e, s₁) := by
  simp only [exec, ExceptT.run_bind, run_bind]
  rcases hx : run x.run s with ⟨res, s₁⟩
  cases res <;> rfl

@[simp] theorem exec_pure : exec (pure a : ExceptT ε (StateM σ) α) s = (.ok a, s) := rfl

@[simp] theorem exec_get : exec (get : ExceptT ε (StateM σ) σ) s = (.ok s, s) := rfl

@[simp] theorem exec_set : exec (set s' : ExceptT ε (StateM σ) PUnit) s = (.ok ⟨⟩, s') := rfl

@[simp] theorem exec_throw {e : ε} : exec (throw e : ExceptT ε (StateM σ) α) s = (.error e, s) :=
  rfl

/-- A computation that is tried, and another when it fails. -/
theorem exec_tryCatch {f : ε → ExceptT ε (StateM σ) α} :
    exec (tryCatch x f) s = match exec x s with
      | (.ok a, s₁) => (.ok a, s₁)
      | (.error e, s₁) => exec (f e) s₁ := by
  change run (ExceptT.run (.tryCatch x f)) s = _
  simp only [exec, ExceptT.tryCatch, ExceptT.run_mk, run_bind]
  rcases hx : run x.run s with ⟨res, s₁⟩
  rw [ExceptT.run] at hx
  rw [hx]
  cases res <;> rfl

/-- A computation that begins with a look at the state. -/
@[simp] theorem exec_get_bind {f : σ → ExceptT ε (StateM σ) β} :
    exec (get >>= f) s = exec (f s) s := by
  rw [exec_bind, exec_get]

/-- A computation that begins with another state. -/
@[simp] theorem exec_set_bind {f : PUnit → ExceptT ε (StateM σ) β} :
    exec (set s' >>= f) s = exec (f ⟨⟩) s' := by
  rw [exec_bind, exec_set]

end State

/-! ### Over a list -/

/-- The runs that succeed, one by one. -/
theorem forall₂_of_mapM_ok (h : l.mapM f = .ok r) : Forall₂ (fun a b => f a = .ok b) l r := by
  induction l generalizing r with
  | nil =>
    obtain rfl : [] = r := by simpa [pure, Except.pure] using h
    exact .nil
  | cons a l ih =>
    cases ha : f a with
    | error e => simp [ha, bind, Except.bind] at h
    | ok b =>
      cases hl : l.mapM f with
      | error e => simp [ha, hl, bind, Except.bind] at h
      | ok r' =>
        obtain rfl : b :: r' = r := by simpa [ha, hl, bind, Except.bind, pure, Except.pure] using h
        exact .cons ha (ih hl)

/-- The runs that succeed, all together. -/
theorem mapM_ok_of_forall₂ (h : Forall₂ (fun a b => f a = .ok b) l r) : l.mapM f = .ok r := by
  induction h with
  | nil => rfl
  | cons ha _ ih => simp [mapM_cons, ha, ih, bind, Except.bind, pure, Except.pure]

/-- A loop over all that the runs return. -/
theorem foldlM_bind_ok {σ γ : Type} {f : α → Except ε (List γ)} {g : σ → γ → Except ε σ}
    {s s' : σ} : l.foldlM (fun s a => f a >>= (·.foldlM g s)) s = .ok s' ↔
      ∃ r, l.mapM f = .ok r ∧ r.flatten.foldlM g s = .ok s' := by
  induction l generalizing s with
  | nil => simp [pure, Except.pure]
  | cons a l ih =>
    simp only [foldlM_cons, mapM_cons, bind_ok, ih, pure, Except.pure]
    constructor
    · rintro ⟨s₁, ⟨r, hr, hs₁⟩, rs, hrs, hs'⟩
      refine ⟨r :: rs, ⟨r, hr, rs, hrs, rfl⟩, ?_⟩
      rw [flatten_cons, foldlM_append, hs₁]
      exact hs'
    · rintro ⟨_, ⟨r, hr, rs, hrs, ⟨⟩⟩, hs'⟩
      rw [flatten_cons, foldlM_append] at hs'
      obtain ⟨s₁, hs₁, hs'⟩ := bind_ok.mp hs'
      exact ⟨s₁, ⟨r, hr, hs₁⟩, rs, hrs, hs'⟩

/-- One of the runs has failed. -/
theorem exists_error_of_mapM_error {e : ε} (h : l.mapM f = .error e) : ∃ a ∈ l, f a = .error e := by
  induction l with
  | nil => simp [pure, Except.pure] at h
  | cons a l ih =>
    cases ha : f a with
    | error e' =>
      obtain rfl : e' = e := by simpa [ha, bind, Except.bind] using h
      exact ⟨a, mem_cons_self, ha⟩
    | ok b =>
      cases hl : l.mapM f with
      | error e' =>
        obtain rfl : e' = e := by simpa [ha, hl, bind, Except.bind] using h
        obtain ⟨x, hx, hfx⟩ := ih hl
        exact ⟨x, mem_cons_of_mem a hx, hfx⟩
      | ok r' => simp [ha, hl, bind, Except.bind, pure, Except.pure] at h

/-- What is matched with an element of the first list. -/
theorem exists_of_forall₂ {R : α → β → Prop} (h : Forall₂ R l r) (ha : a ∈ l) :
    ∃ b ∈ r, R a b := by
  induction h with
  | nil => simp at ha
  | @cons x y l r hx _ ih =>
    rcases mem_cons.mp ha with rfl | ha
    · exact ⟨y, by simp, hx⟩
    · obtain ⟨b, hb, hab⟩ := ih ha
      exact ⟨b, mem_cons_of_mem y hb, hab⟩

/-- Every run has succeeded. -/
theorem exists_ok_of_mapM_ok (h : l.mapM f = .ok r) (ha : a ∈ l) : ∃ b ∈ r, f a = .ok b :=
  exists_of_forall₂ (forall₂_of_mapM_ok h) ha

/-- The function succeeds over a list on which every run does. -/
theorem mapM_ok_of_forall (h : ∀ a ∈ l, ∃ b, f a = .ok b) : ∃ r, l.mapM f = .ok r := by
  induction l with
  | nil => exact ⟨[], rfl⟩
  | cons a l ih =>
    obtain ⟨b, hb⟩ := h a (by simp)
    obtain ⟨r, hr⟩ := ih fun a ha => h a (mem_cons_of_mem _ ha)
    exact ⟨b :: r, by simp [mapM_cons, hb, hr, bind, Except.bind, pure, Except.pure]⟩

/-- What is returned is what the runs returned. -/
theorem mem_iff_of_mapM_ok (h : l.mapM f = .ok r) : b ∈ r ↔ ∃ a ∈ l, f a = .ok b := by
  constructor
  · exact fun hb => exists_of_forall₂ (forall₂_of_mapM_ok h).flip hb
  · rintro ⟨a, ha, hab⟩
    obtain ⟨b', hb', hab'⟩ := exists_ok_of_mapM_ok h ha
    obtain rfl : b = b' := Except.ok.inj (hab.symm.trans hab')
    exact hb'

end Heph
