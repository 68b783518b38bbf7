import Heph.Lib.Machine

/-!
# Answers kept under a stamp

A question about a world that keeps changing is dear to answer, so the answers are kept. What
is kept is used again only if the world still has the **stamp** it had when the answer was
asked for: a few fields that are cheap to look at and that are hoped to change whenever the
answer does.

The stamp is taken *before* the answer is read, and the world may change in between, so what
is read – and kept under that stamp – need not be the answer at any moment at all. It does no
harm as long as a stamp that has been left behind never comes back
(`Stamped.Fresh`). That is a condition on the changes of the world only, and it is enough
for every reader: an answer that was asked for and given while the world stood still is the
answer (`Stamped.answer_of_done`), however many readers there are, each with what it has
kept for itself in front of what they share, and whatever their calls overlapped with before.
-/

namespace Heph

open Option Function List

/-- What a reader does with a question: the answers it gives without looking further, the
stamp it takes – `none` where there is nothing to compare – and what it reads when nothing it
has kept will do. -/
structure Stamped (W Q S A E : Type) where
  /-- The answer that the first look at the world already gives. -/
  early : W → Q → Option (Except E A)
  /-- The stamp. -/
  stamp : W → Q → Option S
  /-- The answer, read from the world. -/
  read : W → Q → Except E A

namespace Stamped

variable {W Q S A E ι κ : Type} (m : Stamped W Q S A E)

/-- The answer, when nothing is kept. -/
def answer (w : W) (q : Q) : Except E A := (m.early w q).getD (m.read w q)

/-- Two worlds that a reader cannot tell apart by this question. -/
def Same (w w' : W) (q : Q) : Prop :=
  m.early w q = m.early w' q ∧ m.stamp w q = m.stamp w' q ∧ m.read w q = m.read w' q

instance [DecidableEq S] [DecidableEq A] [DecidableEq E] (m : Stamped W Q S A E) (w w' : W)
    (q : Q) : Decidable (m.Same w w' q) :=
  inferInstanceAs (Decidable (_ ∧ _ ∧ _))

/-- **The change brings only new stamps**: a question is either untouched by it, or has
afterwards a stamp that it never had before. -/
def Fresh (past : List W) (w w' : W) : Prop :=
  ∀ q, m.Same w w' q ∨ ∀ st, m.stamp w' q = some st → ∀ v ∈ past, m.stamp v q ≠ some st

/-! ### The machine -/

/-- How far a call has come. -/
inductive Phase (A E : Type) where
  /-- It looks at what its reader has kept for itself. -/
  | front
  /-- It looks at what the readers share. -/
  | rows
  /-- It reads the world. -/
  | read
  /-- It keeps what it has read. -/
  | put (a : A)
  /-- It gives its answer. -/
  | done (r : Except E A)

/-- A call that is on its way. -/
structure Call (ι Q S A E : Type) where
  /-- Who asked. -/
  reader : ι
  /-- The question. -/
  query : Q
  /-- The stamp of the world when the call began. -/
  stamp : Option S
  phase : Phase A E
  /-- The world has changed, for this question, since the call began. -/
  changed : Bool
  /-- The world has changed at all since the call began. -/
  overlapped : Bool

/-- The world, what is kept, and the calls. -/
structure State (W Q S A E ι κ : Type) where
  world : W
  /-- Every world there has been, the present one included. -/
  past : List W
  /-- What the readers share. -/
  rows : Q → Option (S × A)
  /-- What each reader has kept for itself. -/
  fronts : ι → Q → Option (S × A)
  calls : κ → Option (Call ι Q S A E)

/-- What can happen next. -/
inductive Event (W Q A E ι κ : Type) where
  /-- The world changes. -/
  | mutate (w : W)
  /-- A reader is asked, and takes the stamp. -/
  | start (c : κ) (i : ι) (q : Q)
  /-- The call looks at what its reader has kept. -/
  | front (c : κ)
  /-- The call looks at what is shared, which may fail to be served. -/
  | rows (c : κ) (served : Bool)
  /-- The call has read the world. -/
  | read (c : κ) (r : Except E A)
  /-- The call keeps what it has read; sharing it may fail. -/
  | put (c : κ) (kept : Bool)
  /-- The answer is handed over. -/
  | finish (c : κ)
  /-- Shared answers are thrown away. -/
  | prune (keep : Q → Bool)

/-- What is kept, if it was kept under this stamp. -/
def hit [DecidableEq S] (kept : Option (S × A)) (stamp : Option S) : Option A :=
  kept.bind fun e => if stamp = some e.1 then some e.2 else none

section Machine

variable [DecidableEq Q] [DecidableEq S] [DecidableEq A] [DecidableEq E] [DecidableEq ι]
  [DecidableEq κ] (m : Stamped W Q S A E)

/-- A call sees the world change under it. -/
def touch (w w' : W) (l : Call ι Q S A E) : Call ι Q S A E :=
  { l with changed := l.changed || !decide (m.Same w w' l.query), overlapped := true }

variable (s : State W Q S A E ι κ)

/-- A call begins, goes on or is over. -/
def State.setCall (c : κ) (l : Option (Call ι Q S A E)) :
    State W Q S A E ι κ :=
  { s with calls := Function.update s.calls c l }

/-- The call goes on to another phase. -/
def State.goto (c : κ) (l : Call ι Q S A E) (ph : Phase A E) :
    State W Q S A E ι κ :=
  s.setCall c (some { l with phase := ph })

/-- The reader keeps an answer for itself. -/
def State.keep (i : ι) (q : Q) (e : S × A) : State W Q S A E ι κ :=
  { s with fronts := Function.update s.fronts i (Function.update (s.fronts i) q (some e)) }

/-- The readers share an answer. -/
def State.share (q : Q) (e : S × A) : State W Q S A E ι κ :=
  { s with rows := Function.update s.rows q (some e) }

variable (durable : ι → Bool)

/-- What a call does next, given where it stands. `durable` says which of the readers have
anything to share: the others keep nothing for themselves either. -/
def advance (s : State W Q S A E ι κ) (c : κ)
    (l : Call ι Q S A E) : Phase A E → Event W Q A E ι κ → Option (State W Q S A E ι κ)
  | .front, .front _ =>
    match hit (s.fronts l.reader l.query) l.stamp with
    | some a => some (s.goto c l (.done (.ok a)))
    | none => some (s.goto c l .rows)
  | .rows, .rows _ served =>
    match hit (if served && durable l.reader then s.rows l.query else none) l.stamp, l.stamp with
    | some a, some st => some ((s.keep l.reader l.query (st, a)).goto c l (.done (.ok a)))
    | _, _ => some (s.goto c l .read)
  | .read, .read _ r =>
    -- what is read while the world changes may be anything
    if l.changed = false ∧ r ≠ m.read s.world l.query then none
    else
      match r with
      | .ok a => some (s.goto c l (.put a))
      | .error e => some (s.goto c l (.done (.error e)))
  | .put a, .put _ kept =>
    match l.stamp, durable l.reader with
    | some st, true =>
      let shared := if kept then s.share l.query (st, a) else s
      some ((shared.keep l.reader l.query (st, a)).goto c l (.done (.ok a)))
    | _, _ => some (s.goto c l (.done (.ok a)))
  | .done _, .finish _ => some (s.setCall c none)
  | _, _ => none

/-- One step. -/
def step (s : State W Q S A E ι κ)
    (e : Event W Q A E ι κ) : Option (State W Q S A E ι κ) :=
  match e with
  | .mutate w => some
      { s with
        world := w
        past := w :: s.past
        calls := fun c => (s.calls c).map (m.touch s.world w) }
  | .start c i q =>
    match s.calls c with
    | some _ => none
    | none =>
      let ph : Phase A E := (m.early s.world q).elim .front .done
      some (s.setCall c (some ⟨i, q, m.stamp s.world q, ph, false, false⟩))
  | .prune keep => some { s with rows := fun q => if keep q then s.rows q else none }
  | .front c | .rows c _ | .read c _ | .put c _ | .finish c =>
    (s.calls c).bind fun l => m.advance durable s c l l.phase e

/-- Readers that have kept nothing yet, in a world. -/
def machine (w : W) :
    Machine (State W Q S A E ι κ) (Event W Q A E ι κ) where
  init := ⟨w, [w], fun _ => none, fun _ _ => none, fun _ => none⟩
  step := m.step durable

end Machine

/-! ### What is kept is right, or its stamp is gone -/

variable {m : Stamped W Q S A E} {a : A} {past : List W} {w : W} {q : Q} {st : S}
  {l : Call ι Q S A E} {s : State W Q S A E ι κ} {c : κ}

/-- The stamp has been seen, and if the world still has it then the answer is right. -/
structure Sound (m : Stamped W Q S A E) (past : List W) (w : W) (q : Q) (st : S) (a : A) :
    Prop where
  had : ∃ v ∈ past, m.stamp v q = some st
  right : m.stamp w q = some st → m.read w q = .ok a

/-- **Where a call stands**: as long as the world is the same for its question, so is the
stamp; once it is not, the stamp has gone for good. -/
structure Standing (m : Stamped W Q S A E) (past : List W) (w : W) (l : Call ι Q S A E) : Prop where
  had : ∀ st, l.stamp = some st → ∃ v ∈ past, m.stamp v l.query = some st
  same : l.changed = false → m.stamp w l.query = l.stamp
  gone : l.changed = true → ∀ st, l.stamp = some st → m.stamp w l.query ≠ some st
  overlapped : l.overlapped = false → l.changed = false
  /-- A call that has not given its answer was not answered at the first look. -/
  early : l.changed = false → (∀ r, l.phase ≠ .done r) → m.early w l.query = none
  put : ∀ a, l.phase = .put a → l.changed = false → m.read w l.query = .ok a
  done : ∀ r, l.phase = .done r → l.overlapped = false → r = m.answer w l.query

/-- What holds all along. -/
structure Valid (m : Stamped W Q S A E) (s : State W Q S A E ι κ) : Prop where
  present : s.world ∈ s.past
  rows : ∀ q st a, s.rows q = some (st, a) → m.Sound s.past s.world q st a
  fronts : ∀ i q st a, s.fronts i q = some (st, a) → m.Sound s.past s.world q st a
  calls : ∀ c l, s.calls c = some l → m.Standing s.past s.world l

theorem of_hit [DecidableEq S] {kept : Option (S × A)} {stamp : Option S}
    (h : hit kept stamp = some a) :
    ∃ st, stamp = some st ∧ kept = some (st, a) := by
  obtain ⟨⟨st, a'⟩, hkept, hif⟩ := bind_eq_some_iff.mp h
  by_cases hst : stamp = some st
  · rw [if_pos hst] at hif
    cases hif
    exact ⟨st, hst, hkept⟩
  · simp [hst] at hif

/-- A change of the world keeps what was kept: it brings only new stamps. -/
theorem sound_mutate {w' : W}
    (h : m.Sound past w q st a) (hfresh : m.Fresh past w w') :
    m.Sound (w' :: past) w' q st a := by
  obtain ⟨v, hv, hst⟩ := h.had
  refine ⟨⟨v, mem_cons_of_mem _ hv, hst⟩, fun hnow => ?_⟩
  rcases hfresh q with ⟨-, hstamp, hread⟩ | hnew
  · exact hread ▸ h.right (hstamp ▸ hnow)
  · exact absurd hst (hnew st hnow v hv)

theorem standing_touch [DecidableEq S] [DecidableEq A] [DecidableEq E] {w' : W}
    (h : m.Standing past w l) (hfresh : m.Fresh past w w') :
    m.Standing (w' :: past) w' (m.touch w w' l) := by
  have hchanged : (m.touch w w' l).changed = false → l.changed = false ∧ m.Same w w' l.query := by
    simp [touch]
  refine ⟨fun st hst => ?_, fun hc => ?_, fun hc st hst => ?_, fun ho => by simp [touch] at ho,
    fun hc hph => ?_, fun a hph hc => ?_, fun r _ ho => by simp [touch] at ho⟩
  · obtain ⟨v, hv, hstamp⟩ := h.had st hst
    exact ⟨v, mem_cons_of_mem _ hv, hstamp⟩
  · obtain ⟨hl, hsame⟩ := hchanged hc
    exact hsame.2.1.symm.trans (h.same hl)
  · -- the stamp was had before, so a change that this question notices does not bring it back
    obtain ⟨v, hv, hstamp⟩ := h.had st hst
    rcases hfresh l.query with hsame | hnew
    · have hl : l.changed = true := by simpa [touch, hsame] using hc
      exact fun hnow => h.gone hl st hst (hsame.2.1.trans hnow)
    · exact fun hnow => hnew st hnow v hv hstamp
  · obtain ⟨hl, hsame⟩ := hchanged hc
    exact hsame.1.symm.trans (h.early hl hph)
  · obtain ⟨hl, hsame⟩ := hchanged hc
    exact hsame.2.2.symm.trans (h.put a hph hl)

/-! ### One step of a call -/

section

variable (h : m.Valid s) {ph : Phase A E}

include h

theorem valid_setCall [DecidableEq κ] {o : Option (Call ι Q S A E)}
    (ho : ∀ l, o = some l → m.Standing s.past s.world l) :
    m.Valid (s.setCall c o) := by
  refine ⟨h.present, h.rows, h.fronts, fun c' l' hl' => ?_⟩
  rcases eq_or_ne c' c with rfl | hc
  · exact ho l' (by simpa [State.setCall] using hl')
  · exact h.calls c' l' (by simpa [State.setCall, update_of_ne hc] using hl')

theorem valid_goto [DecidableEq κ] (hl : m.Standing s.past s.world { l with phase := ph }) :
    m.Valid (s.goto c l ph) :=
  valid_setCall h fun _ hl' => some.inj hl' ▸ hl

theorem valid_keep [DecidableEq Q] [DecidableEq ι] {i : ι}
    (hsound : m.Sound s.past s.world q st a) : m.Valid (s.keep i q (st, a)) := by
  refine ⟨h.present, h.rows, fun i' q' st' a' he => ?_, h.calls⟩
  rcases eq_or_ne i' i with rfl | hi
  · rcases eq_or_ne q' q with rfl | hq
    · obtain ⟨rfl, rfl⟩ : st = st' ∧ a = a' := by simpa [State.keep] using he
      exact hsound
    · exact h.fronts i' q' st' a' (by simpa [State.keep, update_of_ne hq] using he)
  · exact h.fronts i' q' st' a' (by simpa [State.keep, update_of_ne hi] using he)

theorem valid_share [DecidableEq Q]
    (hsound : m.Sound s.past s.world q st a) : m.Valid (s.share q (st, a)) := by
  refine ⟨h.present, fun q' st' a' he => ?_, h.fronts, h.calls⟩
  rcases eq_or_ne q' q with rfl | hq
  · obtain ⟨rfl, rfl⟩ : st = st' ∧ a = a' := by simpa [State.share] using he
    exact hsound
  · exact h.rows q' st' a' (by simpa [State.share, update_of_ne hq] using he)

end

section

variable (h : m.Standing past w l) {r : Except E A}

include h

/-- A call that goes on to look further stands where it stood. -/
theorem Standing.goto {ph : Phase A E} (hearly : ∀ r, l.phase ≠ .done r)
    (hput : ∀ a, ph = .put a → l.changed = false → m.read w l.query = .ok a)
    (hdone : ∀ r, ph = .done r → l.overlapped = false → r = m.answer w l.query) :
    m.Standing past w { l with phase := ph } :=
  ⟨h.had, h.same, h.gone, h.overlapped, fun hc _ => h.early hc hearly, hput, hdone⟩

/-- **A call that was not overlapped gives what is read as its answer.** -/
theorem Standing.answer (hearly : ∀ r, l.phase ≠ .done r)
    (hr : l.changed = false → m.read w l.query = r) (ho : l.overlapped = false) :
    r = m.answer w l.query := by
  have hc := h.overlapped ho
  rw [Stamped.answer, h.early hc hearly, getD_none, hr hc]

/-- What was kept under the stamp of a call is what the call would read. -/
theorem Standing.read (hsound : m.Sound past w l.query st a) (hst : l.stamp = some st)
    (hc : l.changed = false) : m.read w l.query = .ok a :=
  hsound.right ((h.same hc).trans hst)

/-- What a call keeps is sound: either the world has not changed for its question, or its
stamp is gone. -/
theorem Standing.sound (hput : l.phase = .put a) (hst : l.stamp = some st) :
    m.Sound past w l.query st a := by
  refine ⟨h.had st hst, fun hnow => ?_⟩
  cases hc : l.changed with
  | false => exact h.put a hput hc
  | true => exact absurd hnow (h.gone hc st hst)

end

variable [DecidableEq Q] [DecidableEq S] [DecidableEq A] [DecidableEq E] [DecidableEq ι]
  [DecidableEq κ] {durable : ι → Bool} {e : Event W Q A E ι κ}

theorem valid_advance {s s' : State W Q S A E ι κ} (h : m.Valid s) (hl : s.calls c = some l)
    (hstep : m.advance durable s c l l.phase e = some s') : m.Valid s' := by
  have hs := h.calls c l hl
  -- an answer that is given: what the call would read, if the world has not changed for it
  have hanswer : ∀ a, (∀ r, l.phase ≠ .done r) →
      (l.changed = false → m.read s.world l.query = .ok a) →
      m.Standing s.past s.world { l with phase := .done (.ok a) } := by
    intro a hearly hr
    refine hs.goto hearly (by rintro _ ⟨⟩) ?_
    rintro _ ⟨⟩
    exact hs.answer hearly hr
  rcases hph : l.phase with _ | _ | _ | a | r <;> rw [hph] at hstep
  case front =>
    have hearly : ∀ r, l.phase ≠ .done r := by simp [hph]
    rcases e with _ | _ | _ | _ | _ | _ | _ | _ <;> simp only [advance, reduceCtorEq] at hstep
    rcases hhit : hit (s.fronts l.reader l.query) l.stamp with _ | a <;> rw [hhit] at hstep
    · cases hstep
      exact valid_goto h (hs.goto hearly (by rintro _ ⟨⟩) (by rintro _ ⟨⟩))
    · obtain ⟨st, hst, hkept⟩ := of_hit hhit
      cases hstep
      exact valid_goto h (hanswer a hearly (hs.read (h.fronts _ _ _ _ hkept) hst))
  case rows =>
    have hearly : ∀ r, l.phase ≠ .done r := by simp [hph]
    rcases e with _ | _ | _ | ⟨_, served⟩ | _ | _ | _ | _ <;>
      simp only [advance, reduceCtorEq] at hstep
    have hmiss : m.Valid (s.goto c l .read) :=
      valid_goto h (hs.goto hearly (by rintro _ ⟨⟩) (by rintro _ ⟨⟩))
    rcases hhit : hit (if served && durable l.reader then s.rows l.query else none) l.stamp with
      _ | a <;> rw [hhit] at hstep
    · cases hstep
      exact hmiss
    · obtain ⟨st, hst, hkept⟩ := of_hit hhit
      rw [hst] at hstep
      cases hstep
      have hrow : s.rows l.query = some (st, a) := by
        split at hkept
        · exact hkept
        · cases hkept
      exact valid_goto (valid_keep h (h.rows _ _ _ hrow))
        (hanswer a hearly (hs.read (h.rows _ _ _ hrow) hst))
  case read =>
    have hearly : ∀ r, l.phase ≠ .done r := by simp [hph]
    rcases e with _ | _ | _ | _ | ⟨_, r⟩ | _ | _ | _ <;> simp only [advance, reduceCtorEq] at hstep
    by_cases hguard : l.changed = false ∧ r ≠ m.read s.world l.query
    · rw [if_pos hguard] at hstep
      cases hstep
    · rw [if_neg hguard] at hstep
      have hr : l.changed = false → m.read s.world l.query = r := fun hc =>
        (not_not.mp (not_and.mp hguard hc)).symm
      rcases r with err | a
      · cases hstep
        refine valid_goto h (hs.goto hearly (by rintro _ ⟨⟩) ?_)
        rintro _ ⟨⟩
        exact hs.answer hearly hr
      · cases hstep
        refine valid_goto h (hs.goto hearly ?_ (by rintro _ ⟨⟩))
        rintro _ ⟨⟩
        exact hr
  case put =>
    have hearly : ∀ r, l.phase ≠ .done r := by simp [hph]
    rcases e with _ | _ | _ | _ | _ | ⟨_, kept⟩ | _ | _ <;>
      simp only [advance, reduceCtorEq] at hstep
    have hdone := hanswer a hearly (hs.put a hph)
    rcases hst : l.stamp with _ | st <;> rcases hdur : durable l.reader with _ | _ <;>
      rw [hst, hdur] at hstep <;> cases hstep
    · exact valid_goto h hdone
    · exact valid_goto h hdone
    · exact valid_goto h hdone
    · have hsound := hs.sound hph hst
      cases kept with
      | false => exact valid_goto (valid_keep h hsound) hdone
      | true => exact valid_goto (valid_keep (valid_share h hsound) hsound) hdone
  case done =>
    rcases e with _ | _ | _ | _ | _ | _ | _ | _ <;> simp only [advance, reduceCtorEq] at hstep
    cases hstep
    exact valid_setCall h (by rintro _ ⟨⟩)

/-! ### Every run -/

/-- The condition on a run: every change of the world brings only new stamps. -/
def Steady (m : Stamped W Q S A E) (s : State W Q S A E ι κ) : Event W Q A E ι κ → Prop
  | .mutate w => m.Fresh s.past s.world w
  | _ => True

theorem valid_step {s s' : State W Q S A E ι κ}
    (h : m.Valid s) (hsteady : m.Steady s e) (hstep : m.step durable s e = some s') :
    m.Valid s' := by
  have hcall : ∀ c, ((s.calls c).bind fun l => m.advance durable s c l l.phase e) = some s' →
      m.Valid s' := fun c hbind => by
    obtain ⟨l, hl, hadv⟩ := bind_eq_some_iff.mp hbind
    exact valid_advance h hl hadv
  cases e with
  | mutate w =>
    cases hstep
    refine ⟨mem_cons_self, fun q st a hrow => sound_mutate (h.rows q st a hrow) hsteady,
      fun i q st a hfront => sound_mutate (h.fronts i q st a hfront) hsteady, fun c l hl => ?_⟩
    obtain ⟨l₀, hl₀, rfl⟩ := map_eq_some_iff.mp hl
    exact standing_touch (h.calls c l₀ hl₀) hsteady
  | start c i q =>
    rcases hc : s.calls c with _ | l
    · simp only [step, hc] at hstep
      cases hstep
      refine valid_setCall h fun l' hl' => ?_
      cases hl'
      refine ⟨fun st hst => ⟨s.world, h.present, hst⟩, fun _ => rfl, by simp, fun _ => rfl,
        fun _ hph => ?_, fun a hph => ?_, fun r hph _ => ?_⟩
      · cases hearly : m.early s.world q with
        | none => rfl
        | some r => exact absurd (by simp [hearly]) (hph r)
      · cases hearly : m.early s.world q <;> simp [hearly] at hph
      · cases hearly : m.early s.world q with
        | none => simp [hearly] at hph
        | some r' =>
          simp only [hearly, elim_some, Phase.done.injEq] at hph
          simp [answer, hearly, hph]
    · simp [step, hc] at hstep
  | prune keep =>
    cases hstep
    refine ⟨h.present, fun q st a hrow => ?_, h.fronts, h.calls⟩
    dsimp only at hrow
    split at hrow
    · exact h.rows q st a hrow
    · cases hrow
  | front c => exact hcall c hstep
  | rows c served => exact hcall c hstep
  | read c r => exact hcall c hstep
  | put c kept => exact hcall c hstep
  | finish c => exact hcall c hstep

/-- **An answer given while the world stood still is the answer**, in every run in which each
change of the world brings only new stamps. -/
theorem answer_of_done {es : List (Event W Q A E ι κ)}
    (h : (m.machine durable w).run es = some s)
    (hsteady : (m.machine durable w).Meets m.Steady (m.machine durable w).init es)
    {r : Except E A} (hl : s.calls c = some l) (hdone : l.phase = .done r)
    (ho : l.overlapped = false) : r = m.answer s.world l.query := by
  have hvalid : m.Valid s := by
    refine Machine.runFrom_invariant (fun t e t' => valid_step) ?_ hsteady h
    exact ⟨mem_cons_self, by rintro _ _ _ ⟨⟩, by rintro _ _ _ _ ⟨⟩, by rintro _ _ ⟨⟩⟩
  exact (hvalid.calls c l hl).done r hdone ho

end Stamped

end Heph
