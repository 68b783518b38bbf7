import Heph.Pool.Conservation

/-!
# Admission in the order of arrival

The queue is served from its head, and every change of what is free or of who waits ends
with the grant chain. So after each operation the head of the queue does not fit
(`Pool.Blocked`), and it cannot be that nothing is held of any bounded pool while
somebody waits: a need is clamped to the capacities, and would fit.

That requests are admitted in the order of arrival is a property of the **numbers**: of
the calls that need some of a bounded pool, an earlier one has the earlier grant, and no
call has a grant while an earlier one waits (`Pool.Ordered`). It rests on the
sequence numbers being handed out in increasing order, and so on there being fewer than
`2 ^ 64` of them.

A call that only **names** a bounded pool does not count. A declared amount of `0` is
checked against the pool but adds nothing to the need, and a need without a bounded pool
is granted at once, past the queue (`Pool.zero_overtakes`).
-/

namespace Heph.Pool

open List SortedMap Nat PoolName

/-! ### The head does not fit -/

/-- **The head of the queue does not fit.** -/
def Blocked (lane : Lane) (p : Pool) : Prop :=
  ∀ e ∈ p.waiters.entries.head?, fits lane.capacity p.held e.2.need = false

variable {lane : Lane} {p p' : Pool} {seq : ℕ} {w : Waiter} {need : Need} {es : List PoolEvent}

theorem waiters_grantHead {l : List (ℕ × Waiter)}
    (h : p.waiters.entries = (seq, w) :: l) : (p.grantHead seq w).waiters.entries = l := by
  rw [grantHead, waiters_send]
  exact remove_head h

/-- **The chain stops at a head that does not fit.** -/
theorem blocked_grantLoop {n : ℕ} (hn : p.waiters.entries.length ≤ n) :
    Blocked lane (grantLoop lane n p) := by
  induction n generalizing p with
  | zero =>
    intro e he
    rw [grantLoop, eq_nil_of_length_eq_zero (le_zero.mp hn)] at he
    simp at he
  | succ n ih =>
    rw [grantLoop]
    split
    · next hnil =>
      intro e he
      simp [hnil] at he
    · next seq w l hentries =>
      split
      · refine ih ?_
        rw [waiters_grantHead hentries]
        rw [hentries] at hn
        exact le_of_succ_le_succ hn
      · next hf =>
        intro e he
        obtain rfl : (seq, w) = e := by simpa [hentries] using he
        simpa using hf

theorem blocked_grantChain (p : Pool) : Blocked lane (grantChain lane p) :=
  blocked_grantLoop le_rfl

/-- Whether a need fits depends on what is held of the bounded pools only. -/
theorem fits_congr {capacity : List Limit} {held held' : List ℕ}
    (hlen : held'.length = held.length)
    (h : ∀ (i : ℕ) (n : UInt64), capacity[i]? = some (.bounded n) → held'[i]? = held[i]?) :
    fits capacity held' need = fits capacity held need := by
  refine all_congr rfl fun e => ?_
  cases hl : capacity[e.1]? with
  | none => rfl
  | some l =>
    cases l with
    | bounded n => rw [h e.1 n hl]
    | unbounded =>
      by_cases hlt : e.1 < held.length
      · rw [getElem?_eq_getElem hlt, getElem?_eq_getElem (hlen ▸ hlt)]
      · rw [getElem?_eq_none (not_lt.mp hlt), getElem?_eq_none (hlen ▸ not_lt.mp hlt)]

/-- A need without a bounded pool has nothing of one. -/
theorem amountOf_of_not_bounded (hb : lane.bounded need = false) {i : ℕ}
    {n : UInt64} (hn : lane.capacity[i]? = some (.bounded n)) : amountOf need i = 0 := by
  refine amountOf_eq_zero fun hi => ?_
  obtain ⟨e, he, rfl⟩ := mem_map.mp hi
  simpa [hn] using any_eq_false.mp hb e he

section

variable (hB : Blocked lane p)

include hB

theorem Blocked.of_eq (hw : p'.waiters = p.waiters) (hh : p'.held = p.held) :
    Blocked lane p' := by
  intro e he
  rw [hw] at he
  rw [hh]
  exact hB e he

/-- A grant past the queue takes nothing that the head waits for. -/
theorem Blocked.grantNow (hL : Ledger lane p p.outstanding)
    (hb : lane.bounded need = false) (clamped : Bool) :
    Blocked lane (p.grantNow need clamped) := by
  intro e he
  refine (fits_congr length_take fun i n hn => ?_).trans (hB e he)
  have hh := hL.held_eq i n hn
  have hmax := (hL.total_le i n hn).trans (toNat_le_maxU64 n)
  have htake : (take p.held need)[i]? = _ := getElem?_take hh hmax
  rw [amountOf_of_not_bounded hb hn, add_zero, min_eq_left hmax] at htake
  exact htake.trans hh.symm

theorem Blocked.release (r : Reservation) :
    Blocked lane (release lane p r) := by
  unfold Pool.release
  split
  · next hr =>
    refine hB.of_eq rfl ?_
    rw [credit, isEmpty_iff.mp hr]
    rfl
  · exact blocked_grantChain _

theorem Blocked.cancel (seq : ℕ) : Blocked lane (cancel lane p seq) := by
  unfold Pool.cancel
  split
  · exact blocked_grantChain _
  · exact hB

theorem Blocked.acquire (hS : Sound lane p) {request : Demand}
    (h : p.acquire lane request = .ok p') : Blocked lane p' := by
  unfold Pool.acquire at h
  split at h
  · simp at h
  · next need clamped hres =>
    cases h
    split
    · unfold enqueue
      split
      · next hfast =>
        intro e he
        have hnil : p.waiters.entries = [] := isEmpty_iff.mp hfast.1
        simp [Pool.grantNow, charge, hnil] at he
      · exact blocked_grantChain _
    · next hb => exact hB.grantNow hS.ledger (by simpa using hb) clamped

theorem Blocked.step (hS : Sound lane p) {e : PoolEvent}
    (h : p.step lane e = some p') : Blocked lane p' := by
  cases did_of_step h with
  | refused => exact hB
  | admitted hacq => exact hB.acquire hS hacq
  | observed | closed | emptied => exact hB.of_eq rfl rfl
  | left => exact .cancel (hB.of_eq (by rfl) (by rfl)) _
  | returned | dropped => exact .release (hB.of_eq (by rfl) (by rfl)) _

end

/-- **After every operation the head of the queue does not fit.** -/
theorem blocked_run (h : (machine lane).run es = some p) :
    Blocked lane p := by
  have key : Sound lane p ∧ Blocked lane p :=
    Machine.run_invariant (I := fun p => Sound lane p ∧ Blocked lane p)
      ⟨sound_new lane, fun e he => by simp [machine, new, empty] at he⟩
      (fun _ _ _ hI hs => ⟨hI.1.step hs, hI.2.step hI.1 hs⟩) h
  exact key.2

/-- **Nobody waits on an idle machine**: where no grant on a bounded pool is outstanding,
the queue is empty. -/
theorem queue_empty_of_idle (hS : Sound lane p) (hB : Blocked lane p)
    (hidle : ∀ r ∈ p.outstanding, lane.bounded r.granted = false) : p.waiters.entries = [] := by
  cases hentries : p.waiters.entries with
  | nil => rfl
  | cons e l =>
    have hzero : ∀ (i : ℕ) (n : UInt64), lane.capacity[i]? = some (.bounded n) →
        p.held[i]? = some 0 := by
      intro i n hn
      have hsum : total p.outstanding i = 0 := by
        refine sum_eq_zero fun x hx => ?_
        obtain ⟨r, hr, rfl⟩ := mem_map.mp hx
        exact amountOf_of_not_bounded (hidle r hr) hn
      exact hsum ▸ hS.ledger.held_eq i n hn
    have hfit := (hS.queued e (hentries ▸ mem_cons_self)).fits_of_idle
      hS.ledger.length_held hzero
    exact absurd (hB e (by simp [hentries])) (by simp [hfit])

/-! ### The order of the grants -/

/-- What the order of admission is about: the need of a call, whether it has queued, and
the number of its grant. -/
structure Call where
  need : Need
  seq : Option ℕ
  number : Option ℕ

/-- The calls so far, in the order of arrival. -/
def calls (p : Pool) : List Call := p.acquires.map fun a => ⟨a.need, a.seq, a.number⟩

/-- The calls that wait, in the order of the queue. -/
def queue (p : Pool) : List ℕ := p.waiters.entries.map fun e => e.2.tx

/-- How many calls have queued so far. -/
def queuedArrivals (p : Pool) : ℕ := p.calls.countP fun c => c.seq.isSome

/-- **Admission in the order of arrival**, for the calls that need some of a bounded pool:
the queue is in the order of arrival, every call that has a grant came before every call
that waits, and the grants are numbered in the order of arrival. -/
structure Ordered (lane : Lane) (p : Pool) : Prop where
  nextSeq_eq : p.nextSeq = p.queuedArrivals
  key_lt : ∀ e ∈ p.waiters.entries, e.1 < p.nextSeq
  queue_lt : ∀ i ∈ p.queue, i < p.calls.length
  queued_bounded : ∀ (i : ℕ) (c : Call), p.calls[i]? = some c → c.seq ≠ none →
    lane.bounded c.need = true
  sorted : p.queue.Pairwise (· < ·)
  number_lt : ∀ (i : ℕ) (c : Call) (n : ℕ), p.calls[i]? = some c → c.number = some n →
    n < p.numbers
  before : ∀ (j : ℕ) (c : Call), p.calls[j]? = some c → lane.bounded c.need = true →
    c.number ≠ none → ∀ i ∈ p.queue, j < i
  inOrder : ∀ (i j : ℕ) (c d : Call) (m n : ℕ), i < j → p.calls[i]? = some c →
    p.calls[j]? = some d → lane.bounded c.need = true → lane.bounded d.need = true →
    c.number = some m → d.number = some n → m < n

/-- Fewer wait, and the calls are the same. -/
theorem Ordered.of_sublist (hO : Ordered lane p)
    (hw : p'.waiters.entries.Sublist p.waiters.entries) (hc : p'.calls = p.calls)
    (hs : p'.nextSeq = p.nextSeq) (hn : p.numbers ≤ p'.numbers) : Ordered lane p' where
  nextSeq_eq := by rw [hs, hO.nextSeq_eq, queuedArrivals, queuedArrivals, hc]
  key_lt e he := hs ▸ hO.key_lt e (hw.subset he)
  queue_lt i hi := hc ▸ hO.queue_lt i ((hw.map _).subset hi)
  queued_bounded := hc ▸ hO.queued_bounded
  sorted := hO.sorted.sublist (hw.map _)
  number_lt i c n hi hcn := (hO.number_lt i c n (hc ▸ hi) hcn).trans_le hn
  before j c hj hb hg i hi := hO.before j c (hc ▸ hj) hb hg i ((hw.map _).subset hi)
  inOrder := hc ▸ hO.inOrder

variable {i : ℕ} {a : Acquire} {l : List Call} {c : Call} {request : Demand} {e : PoolEvent}

/-- The guard and the slot of a call are not part of it. -/
theorem calls_setAcquire (hi : p.acquires[i]? = some a) (armed : Bool)
    (slot : Slot) : (p.setAcquire i { a with armed, slot }).calls = p.calls := by
  obtain ⟨hlt, rfl⟩ := List.getElem?_eq_some_iff.mp hi
  rw [calls, setAcquire, map_set, calls]
  exact ext_getElem (by simp) fun j hj hj' => by
    rw [getElem_set]
    split
    · next hij => simp [← hij]
    · rfl

/-- The calls after a send: one of them has its number, or none has. -/
theorem calls_send (p : Pool) (tx : ℕ) (r : Reservation) :
    (p.send tx r).calls = p.calls ∨
      ∃ c, p.calls[tx]? = some c ∧
        (p.send tx r).calls = p.calls.set tx { c with number := some r.number } := by
  unfold send
  split
  · next a ha =>
    split
    · exact .inr ⟨⟨a.need, a.seq, a.number⟩, by simp [calls, ha],
        by simp [calls, setAcquire, map_set]⟩
    · exact .inl rfl
  · exact .inl rfl

theorem nextSeq_send (p : Pool) (tx : ℕ) (r : Reservation) :
    (p.send tx r).nextSeq = p.nextSeq := by
  unfold send
  split
  · split <;> rfl
  · rfl

theorem numbers_send (p : Pool) (tx : ℕ) (r : Reservation) :
    (p.send tx r).numbers = p.numbers := by
  unfold send
  split
  · split <;> rfl
  · rfl

/-- Giving a call its number leaves the others, and their count, alone. -/
theorem queuedArrivals_set (hi : l[i]? = some c) (k : Option ℕ) :
    (l.set i { c with number := k }).countP (fun c => c.seq.isSome) =
      l.countP fun c => c.seq.isSome := by
  obtain ⟨hlt, rfl⟩ := List.getElem?_eq_some_iff.mp hi
  have hle : (if l[i].seq.isSome = true then 1 else 0) ≤ l.countP fun c => c.seq.isSome := by
    split
    · next h => exact countP_pos_iff.mpr ⟨_, getElem_mem hlt, h⟩
    · exact zero_le _
  rw [countP_set hlt, Nat.sub_add_cancel hle]

/-- **Granting the head**: it came before all the others that wait, and its number is the
last one. -/
theorem Ordered.grantHead (hO : Ordered lane p) {l : List (ℕ × Waiter)}
    (h : p.waiters.entries = (seq, w) :: l) : Ordered lane (p.grantHead seq w) := by
  have hentries := waiters_grantHead h
  have hsub : (p.grantHead seq w).waiters.entries.Sublist p.waiters.entries := by
    rw [hentries, h]
    exact sublist_cons_self _ _
  have hseq : (p.grantHead seq w).nextSeq = p.nextSeq := nextSeq_send ..
  have hnum : (p.grantHead seq w).numbers = p.numbers + 1 := numbers_send ..
  have hqueue : p.queue = w.tx :: (p.grantHead seq w).queue := by
    rw [queue, h, queue, hentries, map_cons]
  have hmem : ∀ i ∈ (p.grantHead seq w).queue, i ∈ p.queue := fun i hi =>
    hqueue ▸ mem_cons_of_mem _ hi
  rcases calls_send (charge { p with waiters := p.waiters.remove seq } w.need) w.tx
    ⟨w.need, w.clamped, p.numbers⟩ with hcalls | ⟨c, hc, hcalls⟩
  · exact hO.of_sublist hsub hcalls hseq (hnum ▸ le_succ _)
  have hsorted := hO.sorted
  rw [hqueue] at hsorted
  obtain ⟨hfirst, hsorted⟩ := pairwise_cons.mp hsorted
  have htx : w.tx ∈ p.queue := hqueue ▸ mem_cons_self
  -- a call after the step is the head with its number, or a call before the step
  have hcase : ∀ {i : ℕ} {d : Call}, (p.grantHead seq w).calls[i]? = some d →
      i = w.tx ∧ d = { c with number := some p.numbers } ∨ p.calls[i]? = some d := by
    intro i d hd
    rw [Pool.grantHead, hcalls, getElem?_set] at hd
    split at hd
    · next hi =>
      split at hd
      · cases hd
        exact .inl ⟨hi.symm, rfl⟩
      · simp at hd
    · exact .inr hd
  refine ⟨?_, ?_, ?_, ?_, hsorted, ?_, ?_, ?_⟩
  · rw [hseq, hO.nextSeq_eq, queuedArrivals, queuedArrivals, Pool.grantHead, hcalls]
    exact (queuedArrivals_set hc _).symm
  · exact fun e he => hseq ▸ hO.key_lt e (hsub.subset he)
  · intro i hi
    rw [Pool.grantHead, hcalls, length_set]
    exact hO.queue_lt i (hmem i hi)
  · intro i d hd hs
    rcases hcase hd with ⟨-, rfl⟩ | hd
    · exact hO.queued_bounded w.tx c hc hs
    · exact hO.queued_bounded i d hd hs
  · intro i d n hd hdn
    rw [hnum]
    rcases hcase hd with ⟨-, rfl⟩ | hd
    · cases hdn
      exact lt_succ_self _
    · exact (hO.number_lt i d n hd hdn).trans (lt_succ_self _)
  · intro j d hd hb hg i hi
    rcases hcase hd with ⟨rfl, -⟩ | hd
    · exact hfirst i hi
    · exact hO.before j d hd hb hg i (hmem i hi)
  · intro i j d d' m n hij hd hd' hb hb' hm hn
    rcases hcase hd' with ⟨rfl, rfl⟩ | hd'
    · rcases hcase hd with ⟨rfl, -⟩ | hd
      · exact absurd hij (lt_irrefl _)
      · cases hn
        exact hO.number_lt i d m hd hm
    · rcases hcase hd with ⟨rfl, -⟩ | hd
      · -- a later call cannot have had its grant before
        exact absurd (hO.before j d' hd' hb' (by simp [hn]) w.tx htx) hij.not_gt
      · exact hO.inOrder i j d d' m n hij hd hd' hb hb' hm hn

theorem Ordered.grantLoop (n : ℕ) (hO : Ordered lane p) : Ordered lane (grantLoop lane n p) := by
  induction n generalizing p with
  | zero => exact hO
  | succ n ih =>
    rw [grantLoop]
    split
    · exact hO
    · next seq w l h =>
      split
      · exact ih (hO.grantHead h)
      · exact hO

theorem Ordered.grantChain (hO : Ordered lane p) : Ordered lane (grantChain lane p) :=
  .grantLoop _ hO

theorem Ordered.release (hO : Ordered lane p) (r : Reservation) :
    Ordered lane (release lane p r) := by
  have hcredit : Ordered lane (p.credit r) :=
    hO.of_sublist (Sublist.refl _) rfl rfl (le_refl _)
  unfold Pool.release
  split
  · exact hcredit
  · exact hcredit.grantChain

theorem Ordered.cancel (hO : Ordered lane p) (seq : ℕ) : Ordered lane (cancel lane p seq) := by
  unfold Pool.cancel
  split
  · exact .grantChain (hO.of_sublist filter_sublist (by rfl) (by rfl) (le_refl _))
  · exact hO

/-- The calls after an arrival. -/
theorem calls_arrival {d : Call} (h : (l ++ [c])[i]? = some d) :
    l[i]? = some d ∧ i < l.length ∨ i = l.length ∧ d = c := by
  rcases lt_trichotomy i l.length with hi | rfl | hi
  · rw [getElem?_append_left hi] at h
    exact .inl ⟨h, hi⟩
  · rw [getElem?_concat_length] at h
    exact .inr ⟨rfl, (Option.some.inj h).symm⟩
  · rw [getElem?_eq_none (by rw [length_append]; exact hi)] at h
    simp at h

theorem calls_grantNow (p : Pool) (need : Need) (clamped : Bool) :
    (p.grantNow need clamped).calls = p.calls ++ [⟨need, none, some p.numbers⟩] := by
  simp [calls, grantNow]

theorem calls_push (p : Pool) (need : Need) (clamped : Bool) :
    (p.push need clamped).calls = p.calls ++ [⟨need, some p.nextSeq, none⟩] := by
  simp [calls, push]

/-- **A call that arrives** keeps the order: either it waits, at the end of the queue, or it has the
last number, and then it needs no bounded pool or nobody waits. -/
theorem Ordered.arrive (hO : Ordered lane p) (hcalls : p'.calls = p.calls ++ [c])
    (hseq : p'.nextSeq = p'.queuedArrivals) (hkey : ∀ e ∈ p'.waiters.entries, e.1 < p'.nextSeq)
    (hqueue : p'.queue = p.queue ∨ p'.queue = p.queue ++ [p.calls.length])
    (hbounded : c.seq ≠ none → lane.bounded c.need = true) (hnumbers : p.numbers ≤ p'.numbers)
    (hnumber : ∀ n, c.number = some n → n = p.numbers ∧ n < p'.numbers)
    (hfree : c.number ≠ none → lane.bounded c.need = true → p'.queue = []) :
    Ordered lane p' := by
  have hcase : ∀ {i : ℕ} {d : Call}, p'.calls[i]? = some d →
      p.calls[i]? = some d ∧ i < p.calls.length ∨ i = p.calls.length ∧ d = c := fun hd =>
    calls_arrival (hcalls ▸ hd)
  have hmem : ∀ i ∈ p'.queue, i ∈ p.queue ∨ i = p.calls.length := by
    intro i hi
    rcases hqueue with hq | hq <;> rw [hq] at hi
    · exact .inl hi
    · simpa using hi
  refine ⟨hseq, hkey, fun i hi => ?_, fun i d hd hs => ?_, ?_, fun i d n hd hn => ?_,
    fun j d hd hb hg i hi => ?_, fun i j d d' m n hij hd hd' hb hb' hm hn => ?_⟩
  · rw [hcalls, length_append]
    rcases hmem i hi with hi | rfl
    · exact Nat.lt_add_right _ (hO.queue_lt i hi)
    · exact lt_succ_self _
  · rcases hcase hd with ⟨hd, -⟩ | ⟨-, rfl⟩
    · exact hO.queued_bounded i d hd hs
    · exact hbounded hs
  · rcases hqueue with hq | hq <;> rw [hq]
    · exact hO.sorted
    · refine pairwise_append.mpr ⟨hO.sorted, pairwise_singleton _ _, fun i hi j hj => ?_⟩
      rw [mem_singleton.mp hj]
      exact hO.queue_lt i hi
  · rcases hcase hd with ⟨hd, -⟩ | ⟨-, rfl⟩
    · exact (hO.number_lt i d n hd hn).trans_le hnumbers
    · exact (hnumber n hn).2
  · rcases hcase hd with ⟨hd, hlt⟩ | ⟨-, rfl⟩
    · rcases hmem i hi with hi | rfl
      · exact hO.before j d hd hb hg i hi
      · exact hlt
    · exact absurd (hfree hg hb ▸ hi) not_mem_nil
  · rcases hcase hd with ⟨hd, hlt⟩ | ⟨rfl, -⟩ <;> rcases hcase hd' with ⟨hd', hlt'⟩ | ⟨hj, rfl⟩
    · exact hO.inOrder i j d d' m n hij hd hd' hb hb' hm hn
    · exact (hnumber n hn).1 ▸ hO.number_lt i d m hd hm
    · omega
    · omega

/-- **A grant on arrival** keeps the order, if it needs no bounded pool or nobody waits. -/
theorem Ordered.grantNow (hO : Ordered lane p)
    (h : lane.bounded need = false ∨ p.waiters.entries = []) (clamped : Bool) :
    Ordered lane (p.grantNow need clamped) := by
  refine hO.arrive (calls_grantNow p need clamped) ?_ hO.key_lt (.inl rfl) (by simp) (le_succ _)
    ?_ fun _ hb => ?_
  · rw [queuedArrivals, calls_grantNow, countP_append]
    exact hO.nextSeq_eq
  · rintro n ⟨⟩
    exact ⟨rfl, lt_succ_self _⟩
  · rcases h with h | h
    · simp [h] at hb
    · show p.queue = []
      rw [queue, h, map_nil]

/-- **An arrival that waits** goes to the end of the queue, as long as the sequence numbers
have not wrapped. -/
theorem Ordered.push (hO : Ordered lane p) (hb : lane.bounded need = true) (clamped : Bool)
    (hlt : (p.push need clamped).queuedArrivals < 2 ^ 64) : Ordered lane (p.push need clamped) := by
  have harrivals : (p.push need clamped).queuedArrivals = p.nextSeq + 1 := by
    rw [queuedArrivals, calls_push, countP_append, hO.nextSeq_eq]
    rfl
  have hseq : (p.push need clamped).nextSeq = p.nextSeq + 1 :=
    mod_eq_of_lt (harrivals ▸ hlt)
  have hentries : (p.push need clamped).waiters.entries =
      p.waiters.entries ++ [(p.nextSeq, ⟨need, clamped, p.acquires.length⟩)] :=
    insertEntry_of_lt hO.key_lt
  refine hO.arrive (calls_push p need clamped) (hseq.trans harrivals.symm) (fun e he => ?_)
    (.inr ?_) (fun _ => hb) le_rfl (by simp) (by simp)
  · rw [hseq]
    rw [hentries, mem_append, mem_singleton] at he
    rcases he with he | rfl
    · exact (hO.key_lt e he).trans (lt_succ_self _)
    · exact lt_succ_self _
  · rw [queue, hentries, map_append, show p.calls.length = p.acquires.length by simp [calls]]
    rfl

/-! ### How many calls have queued -/

theorem queuedArrivals_grantHead (p : Pool) (seq : ℕ) (w : Waiter) :
    (p.grantHead seq w).queuedArrivals = p.queuedArrivals := by
  rcases calls_send (charge { p with waiters := p.waiters.remove seq } w.need) w.tx
    ⟨w.need, w.clamped, p.numbers⟩ with hcalls | ⟨c, hc, hcalls⟩
  · exact congrArg (countP _) hcalls
  · rw [queuedArrivals, grantHead, hcalls]
    exact queuedArrivals_set hc _

theorem queuedArrivals_grantLoop (n : ℕ) (p : Pool) :
    (grantLoop lane n p).queuedArrivals = p.queuedArrivals := by
  induction n generalizing p with
  | zero => rfl
  | succ n ih =>
    rw [grantLoop]
    split
    · rfl
    · next seq w l h =>
      split
      · rw [ih, queuedArrivals_grantHead]
      · rfl

theorem queuedArrivals_release (p : Pool) (r : Reservation) :
    (release lane p r).queuedArrivals = p.queuedArrivals := by
  unfold release
  split
  · rfl
  · exact queuedArrivals_grantLoop _ _

theorem queuedArrivals_cancel (p : Pool) (seq : ℕ) :
    (cancel lane p seq).queuedArrivals = p.queuedArrivals := by
  unfold cancel
  split
  · exact queuedArrivals_grantLoop _ _
  · rfl

/-- **The order is kept by an arrival.** -/
theorem Ordered.acquire (hO : Ordered lane p)
    (h : p.acquire lane request = .ok p') (hlt : p'.queuedArrivals < 2 ^ 64) : Ordered lane p' := by
  unfold Pool.acquire at h
  split at h
  · simp at h
  · next need clamped hres =>
    cases h
    split at hlt
    · next hb =>
      rw [if_pos hb]
      unfold enqueue at hlt ⊢
      split at hlt
      · next hfast =>
        rw [if_pos hfast]
        exact hO.grantNow (.inr (isEmpty_iff.mp hfast.1)) clamped
      · next hslow =>
        rw [if_neg hslow]
        rw [Pool.grantChain, queuedArrivals_grantLoop] at hlt
        exact (hO.push hb clamped hlt).grantChain
    · next hb =>
      rw [if_neg hb]
      exact hO.grantNow (.inl (by simpa using hb)) clamped

theorem queuedArrivals_acquire (h : p.acquire lane request = .ok p') :
    p.queuedArrivals ≤ p'.queuedArrivals := by
  have hnow : ∀ need clamped, p.queuedArrivals ≤ (p.grantNow need clamped).queuedArrivals := by
    intro need clamped
    rw [queuedArrivals, queuedArrivals, calls_grantNow, countP_append]
    exact le_add_right _ _
  unfold acquire at h
  split at h
  · simp at h
  · next need clamped hres =>
    cases h
    split
    · unfold enqueue
      split
      · exact hnow _ _
      · rw [grantChain, queuedArrivals_grantLoop, queuedArrivals, queuedArrivals, calls_push,
          countP_append]
        exact le_add_right _ _
    · exact hnow _ _

theorem queuedArrivals_setAcquire {i : ℕ} (hi : p.acquires[i]? = some a)
    (armed : Bool) (slot : Slot) :
    (p.setAcquire i { a with armed, slot }).queuedArrivals = p.queuedArrivals :=
  congrArg (countP _) (calls_setAcquire hi armed slot)

theorem queuedArrivals_step (h : p.step lane e = some p') :
    p.queuedArrivals ≤ p'.queuedArrivals := by
  cases did_of_step h with
  | refused => exact le_rfl
  | admitted hacq => exact queuedArrivals_acquire hacq
  | observed ha => exact (queuedArrivals_setAcquire ha _ _).ge
  | closed ha | emptied ha => exact (queuedArrivals_setAcquire ha _ _).ge
  | left ha => exact ((queuedArrivals_cancel _ _).trans (queuedArrivals_setAcquire ha _ _)).ge
  | returned ha => exact ((queuedArrivals_release _ _).trans (queuedArrivals_setAcquire ha _ _)).ge
  | dropped =>
    rw [queuedArrivals_release]
    exact le_rfl

/-- **The order is kept by every step.** -/
theorem Ordered.step (hO : Ordered lane p) (h : p.step lane e = some p')
    (hlt : p'.queuedArrivals < 2 ^ 64) : Ordered lane p' := by
  have hset : ∀ {i : ℕ} {a : Acquire}, p.acquires[i]? = some a → ∀ (armed : Bool) (slot : Slot),
      Ordered lane (p.setAcquire i { a with armed, slot }) := fun hi armed slot =>
    hO.of_sublist (Sublist.refl _) (calls_setAcquire hi armed slot) rfl le_rfl
  cases did_of_step h with
  | refused => exact hO
  | admitted hacq => exact hO.acquire hacq hlt
  | observed ha =>
    exact hO.of_sublist (Sublist.refl _) (calls_setAcquire ha _ _) rfl le_rfl
  | closed ha | emptied ha => exact hset ha _ _
  | left ha => exact (hset ha _ _).cancel _
  | returned ha => exact (hset ha _ _).release _
  | @dropped j r hr =>
    have hO' : Ordered lane { p with owned := p.owned.eraseIdx j } :=
      hO.of_sublist (Sublist.refl _) rfl rfl le_rfl
    exact hO'.release r

theorem ordered_new (lane : Lane) : Ordered lane (new lane) where
  nextSeq_eq := rfl
  key_lt e he := absurd he not_mem_nil
  queue_lt i hi := absurd hi not_mem_nil
  queued_bounded i c hi := by simp [calls, new] at hi
  sorted := Pairwise.nil
  number_lt i c n hi := by simp [calls, new] at hi
  before j c hj := by simp [calls, new] at hj
  inOrder i j c d m n hij hi := by simp [calls, new] at hi

/-- **The order is kept in every run** in which fewer than `2 ^ 64` calls queue. -/
theorem ordered_run (h : (machine lane).run es = some p)
    (hlt : p.queuedArrivals < 2 ^ 64) : Ordered lane p :=
  Machine.run_invariant (I := fun p => p.queuedArrivals < 2 ^ 64 → Ordered lane p)
    (fun _ => ordered_new lane)
    (fun _ _ _ hI hs hlt => (hI ((queuedArrivals_step hs).trans_lt hlt)).step hs hlt) h hlt

/-- **Admission.** In every run in which fewer than `2 ^ 64` calls queue, the head of the
queue does not fit; of two calls, if the later one has queued or needs some of a bounded
pool and has its grant, then the earlier one does not wait, and if it needs some of a
bounded pool and has a grant, that is the earlier grant; and nobody waits while no grant on
a bounded pool is outstanding. -/
theorem admission {lane : Lane} {es : List PoolEvent} {p : Pool}
    (h : (machine lane).run es = some p) (hlt : p.queuedArrivals < 2 ^ 64) :
    (∀ e ∈ p.waiters.entries.head?, fits lane.capacity p.held e.2.need = false) ∧
      (∀ (i j : ℕ) (c : Call) (n : ℕ), i < j → p.calls[j]? = some c →
        c.seq ≠ none ∨ lane.bounded c.need = true → c.number = some n →
        i ∉ p.queue ∧ ∀ (d : Call) (m : ℕ), p.calls[i]? = some d →
          d.seq ≠ none ∨ lane.bounded d.need = true → d.number = some m → m < n) ∧
      ((∀ r ∈ p.outstanding, lane.bounded r.granted = false) → p.waiters.entries = []) := by
  have hB := blocked_run h
  have hO := ordered_run h hlt
  refine ⟨hB, ?_, queue_empty_of_idle (sound_run h) hB⟩
  have hbounded : ∀ {i : ℕ} {c : Call}, p.calls[i]? = some c →
      c.seq ≠ none ∨ lane.bounded c.need = true → lane.bounded c.need = true :=
    fun hi hc => hc.elim (hO.queued_bounded _ _ hi) id
  intro i j c n hij hj hc hn
  refine ⟨fun hi => ?_, fun d m hi hd hm => ?_⟩
  · exact absurd (hO.before j c hj (hbounded hj hc) (by simp [hn]) i hi) hij.not_gt
  · exact hO.inOrder i j d c m n hij hi hj (hbounded hi hd) (hbounded hj hc) hm hn

/-! ### Past the queue -/

/-- Two targets ask for the CPU, and a third one for none of it. -/
def zeroCpu : List PoolEvent :=
  [.acquire (.ofList [(cpu, 1000000)]), .acquire (.ofList [(cpu, 1000000)]),
    .acquire (.ofList [(cpu, 0)])]

theorem admission_zeroCpu :
    ∃ p, (machine oneCpu).run zeroCpu = some p ∧ p.queue = [1] ∧
      ∀ e ∈ p.waiters.entries.head?, fits oneCpu.capacity p.held e.2.need = false := by
  obtain ⟨p, h, hq, hlt⟩ : ∃ p, (machine oneCpu).run zeroCpu = some p ∧ p.queue = [1] ∧
      p.queuedArrivals < 2 ^ 64 := ⟨_, rfl, rfl, by decide⟩
  exact ⟨p, h, hq, (admission h hlt).1⟩

/-- **A call that names a bounded pool is granted past the queue**: the third target names
`cpu`, which is bounded, and has a grant while the second still waits. -/
theorem zero_overtakes :
    oneCpu.pools.get? cpu = some (.bounded 1000000) ∧
      ∃ p, (machine oneCpu).run zeroCpu = some p ∧ 1 ∈ p.queue ∧
        p.calls[2]?.bind Call.number = some 1 :=
  ⟨rfl, _, rfl, by decide, rfl⟩

end Heph.Pool
