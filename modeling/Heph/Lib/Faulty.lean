import Heph.Lib.Traverse

/-!
# Operations that may fail

A program that is run on something unreliable: before each operation, a tape says whether it fails.
An operation that fails has done nothing, and what has failed is remembered. When the tape is used
up nothing fails any more.

What a computation leads to is told by `Ensures`, a postcondition on its result and on the
state it leaves, also when it fails.
-/

namespace Heph

variable {ε ω α β σ τ : Type} {s : σ} {Q R : Except ε α → σ → Prop} {x : ExceptT ε (StateM σ) α}
  {ok : α → σ → Prop} {error : ε → σ → Prop} {δ : Type} {f : ε → δ}

/-! ### What a computation ensures -/

/-- What a computation returns, and the state it leaves, are as they should be. -/
def Ensures (x : ExceptT ε (StateM σ) α) (s : σ) (Q : Except ε α → σ → Prop) : Prop :=
  Q (exec x s).1 (exec x s).2

theorem Ensures.imp (h : Ensures x s Q) (hQ : ∀ r s', Q r s' → R r s') : Ensures x s R := hQ _ _ h

/-- A postcondition, by whether a computation has failed. -/
def ByResult (ok : α → σ → Prop) (error : ε → σ → Prop) : Except ε α → σ → Prop
  | .ok a, s => ok a s
  | .error e, s => error e s

@[simp] theorem byResult_ok {a : α} :
    ByResult ok error (.ok a) s = ok a s := rfl

theorem ensures_bind {x : ExceptT ε (StateM σ) β} {f : β → ExceptT ε (StateM σ) α}
    (h : Ensures x s (ByResult (fun b s' => Ensures (f b) s' Q) fun e s' => Q (.error e) s')) :
    Ensures (x >>= f) s Q := by
  rw [Ensures, exec_bind]
  rw [Ensures] at h
  rcases hx : exec x s with ⟨res, s'⟩
  rw [hx] at h
  cases res with
  | ok | error => exact h

/-- A computation on the second part of a state. -/
def onSnd (x : ExceptT ε (StateM τ) α) : ExceptT ε (StateM (σ × τ)) α :=
  ExceptT.mk fun s => ((exec x s.2).1, s.1, (exec x s.2).2)

theorem ensures_onSnd {x : ExceptT ε (StateM τ) α} {s : σ × τ} {Q : Except ε α → σ × τ → Prop}
    (h : Ensures x s.2 fun r t => Q r (s.1, t)) : Ensures (onSnd x) s Q := h

/-- A computation whose errors are told in other words. -/
def mapError {δ : Type} (f : ε → δ) (x : ExceptT ε (StateM σ) α) : ExceptT δ (StateM σ) α :=
  ExceptT.mk fun s => ((exec x s).1.mapError f, (exec x s).2)

@[simp] theorem exec_mapError :
    exec (mapError f x) s = ((exec x s).1.mapError f, (exec x s).2) := rfl

theorem ensures_mapError
    {P : Except δ α → σ → Prop} (h : Ensures x s fun r s' => P (r.mapError f) s') :
    Ensures (mapError f x) s P := h

/-! ### The tape -/

/-- Something with operations that may fail. -/
structure Faulty (ω σ : Type) where
  state : σ
  /-- Which of the operations to come fail. -/
  faults : List Bool
  /-- Which have failed. -/
  failed : List ω

namespace Faulty

variable {s : Faulty ω σ} {op : ω} {e : ε} {f : σ → σ} (s : Faulty ω σ)

/-- The same, with another state. -/
def update (f : σ → σ) : Faulty ω σ := { s with state := f s.state }

/-- After an operation that has not failed. -/
def next : Faulty ω σ := { s with faults := s.faults.tail }

/-- After one that has. -/
def fail (op : ω) : Faulty ω σ :=
  { s with faults := s.faults.tail, failed := s.failed ++ [op] }

/-- Nothing fails from now on. -/
def settled : Faulty ω σ := { s with faults := [] }

variable {s}

/-- Whether an operation succeeds. -/
def succeeds (op : ω) : ExceptT ε (StateM (Faulty ω σ)) Bool := do
  let s ← get
  if s.faults.headD false then
    set (s.fail op)
    return false
  else
    set s.next
    return true

/-- An operation, which may fail. -/
def attempt (op : ω) (e : ε) : ExceptT ε (StateM (Faulty ω σ)) PUnit := do
  if ← succeeds op then return
  else throw e

@[simp] theorem state_next : s.next.state = s.state := rfl

@[simp] theorem state_update : (s.update f).state = f s.state := rfl

theorem exec_succeeds : exec (succeeds op : ExceptT ε (StateM (Faulty ω σ)) Bool) s =
    if s.faults.headD false then (.ok false, s.fail op) else (.ok true, s.next) := by
  rw [succeeds, exec_get_bind]
  split <;> rfl

theorem ensures_succeeds {Q : Except ε Bool → Faulty ω σ → Prop} (hok : Q (.ok true) s.next)
    (hfail : s.faults ≠ [] → Q (.ok false) (s.fail op)) : Ensures (succeeds op) s Q := by
  rw [Ensures, exec_succeeds]
  split
  · next h =>
    refine hfail ?_
    rintro hnil
    rw [hnil] at h
    cases h
  · exact hok

/-- An operation: it fails only if the tape says so. -/
theorem ensures_attempt {Q : Except ε PUnit → Faulty ω σ → Prop} (hok : Q (.ok ⟨⟩) s.next)
    (hfail : s.faults ≠ [] → Q (.error e) (s.fail op)) : Ensures (attempt op e) s Q :=
  ensures_bind (ensures_succeeds hok hfail)

end Faulty

end Heph
