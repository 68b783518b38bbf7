import Heph.Pool.ResourcePool

/-!
# What is held is what is outstanding

Amounts are taken in three places – on arrival, past the queue, and from the head of the
queue – and given back in three others: when a reservation is dropped, when an unobserved
grant is dropped, and when a grant cannot be sent. The books of a lane are a
`Ledger`: for every bounded pool, the amount held is the sum over the outstanding
grants and is within the capacity; and every grant ever made is outstanding or has been
given back, and only once. Taking (`Ledger.charge`) and giving back
(`Ledger.credit`) keep the books, and every step of the pool is made of the two
(`Pool.Sound.step`).

Two facts about requests carry the argument. A need names each pool **at most once** – a
demand is a map, and `cpu` is added only where it is not declared – so that fitting one
entry at a time is fitting altogether. And no amount exceeds its pool's capacity, so that
the saturating addition never saturates.
-/

namespace Heph

open List SortedMap Nat Pool Prod

/-! ### The amounts of a need -/

/-- The amount of one pool in a need. -/
def amountOf (need : Need) (i : ℕ) : ℕ := (need.map fun e => if e.1 = i then e.2 else 0).sum

theorem amountOf_cons (e : ℕ × ℕ) (need : Need) (i : ℕ) :
    amountOf (e :: need) i = (if e.1 = i then e.2 else 0) + amountOf need i := by
  simp [amountOf]

variable {need : Need} {held : List ℕ} {i h : ℕ} {lane : Lane} {pool : PoolName} {p q : Pool}
  {out out' : List Reservation} {acc acc' : Need × Bool} {request : Demand}

theorem amountOf_eq_zero {i : ℕ} (h : i ∉ need.map fst) :
    amountOf need i = 0 := by
  induction need with
  | nil => rfl
  | cons e need ih =>
    rw [map_cons, mem_cons, not_or] at h
    rw [amountOf_cons, if_neg (Ne.symm h.1), ih h.2]

/-- A pool that is named once has the amount of its entry. -/
theorem amountOf_of_mem {e : ℕ × ℕ} (hnd : (need.map fst).Nodup)
    (he : e ∈ need) : amountOf need e.1 = e.2 := by
  induction need with
  | nil => simp at he
  | cons a need ih =>
    obtain ⟨ha, hnd⟩ := nodup_cons.mp hnd
    rw [amountOf_cons]
    rcases mem_cons.mp he with rfl | he
    · rw [if_pos rfl, amountOf_eq_zero ha, add_zero]
    · have hne : a.1 ≠ e.1 := fun h => ha (h ▸ mem_map_of_mem he)
      rw [if_neg hne, ih hnd he, zero_add]

theorem take_cons (held : List ℕ) (e : ℕ × ℕ) (need : Need) :
    take held (e :: need) = take (held.modify e.1 fun h => min (h + e.2) maxU64) need := rfl

theorem give_cons (held : List ℕ) (e : ℕ × ℕ) (need : Need) :
    give held (e :: need) = give (held.modify e.1 fun h => h - e.2) need := rfl

@[simp]
theorem length_take : (take held need).length = held.length := by
  induction need generalizing held with
  | nil => rfl
  | cons e need ih => rw [take_cons, ih, length_modify]

@[simp]
theorem length_give : (give held need).length = held.length := by
  induction need generalizing held with
  | nil => rfl
  | cons e need ih => rw [give_cons, ih, length_modify]

/-- `take` adds the amount of each pool, up to the saturation. -/
theorem getElem?_take (hh : held[i]? = some h) (hmax : h ≤ maxU64) :
    (take held need)[i]? = some (min (h + amountOf need i) maxU64) := by
  induction need generalizing held h with
  | nil => simpa [take, amountOf] using hh.trans (congrArg some (min_eq_left hmax).symm)
  | cons e need ih =>
    have hmod : (held.modify e.1 fun h => min (h + e.2) maxU64)[i]? =
        some (min (h + if e.1 = i then e.2 else 0) maxU64) := by
      rw [getElem?_modify, hh]
      split <;> simp [hmax]
    rw [take_cons, ih hmod (min_le_right _ _), amountOf_cons]
    congr 1
    omega

/-- `give` subtracts the amount of each pool, down to nothing. -/
theorem getElem?_give (hh : held[i]? = some h) :
    (give held need)[i]? = some (h - amountOf need i) := by
  induction need generalizing held h with
  | nil => simpa [give, amountOf] using hh
  | cons e need ih =>
    have hmod : (held.modify e.1 fun h => h - e.2)[i]? =
        some (h - if e.1 = i then e.2 else 0) := by
      rw [getElem?_modify, hh]
      split <;> simp
    rw [give_cons, ih hmod, amountOf_cons]
    congr 1
    omega

/-! ### Needs that a lane can serve -/

/-- **A need that `resolve` has made**: it names each pool once, and no more of a bounded
pool than its capacity. -/
structure Served (lane : Lane) (need : Need) : Prop where
  nodup : (need.map fst).Nodup
  capacity : ∀ e ∈ need, ∃ l, lane.capacity[e.1]? = some l ∧ ∀ n, l = .bounded n → e.2 ≤ n.toNat

theorem served_nil : Served lane [] := ⟨nodup_nil, fun e he => by simp at he⟩

section

variable (hS : Served lane need)

include hS

/-- **A need that fits, fits beside what is held.** -/
theorem Served.add_le (hf : fits lane.capacity held need = true) {i h : ℕ}
    {n : UInt64} (hn : lane.capacity[i]? = some (.bounded n)) (hh : held[i]? = some h)
    (hle : h ≤ n.toNat) : h + amountOf need i ≤ n.toNat := by
  by_cases hi : i ∈ need.map fst
  · obtain ⟨e, he, rfl⟩ := mem_map.mp hi
    have hfe := all_eq_true.mp hf e he
    rw [hn, hh] at hfe
    have hle' : e.2 ≤ n.toNat - h := of_decide_eq_true hfe
    rw [amountOf_of_mem hS.nodup he]
    omega
  · rw [amountOf_eq_zero hi]
    exact hle

/-- A need fits where nothing is held of the bounded pools. -/
theorem Served.fits_of_idle (hlen : held.length = lane.capacity.length)
    (hidle : ∀ (i : ℕ) (n : UInt64), lane.capacity[i]? = some (.bounded n) → held[i]? = some 0) :
    fits lane.capacity held need = true := by
  refine all_eq_true.mpr fun e he => ?_
  obtain ⟨l, hl, hcap⟩ := hS.capacity e he
  obtain ⟨hlt, -⟩ := List.getElem?_eq_some_iff.mp hl
  cases l with
  | unbounded =>
    have hh : held[e.1]? = some held[e.1] := getElem?_eq_getElem (hlen ▸ hlt)
    rw [hl, hh]
  | bounded n =>
    rw [hl, hidle e.1 n hl]
    exact decide_eq_true (hcap n rfl)

/-- A need without a bounded pool always fits. -/
theorem Served.fits_of_not_bounded
    (hlen : held.length = lane.capacity.length) (hb : lane.bounded need = false) :
    fits lane.capacity held need = true := by
  refine all_eq_true.mpr fun e he => ?_
  obtain ⟨l, hl, -⟩ := hS.capacity e he
  obtain ⟨hlt, -⟩ := List.getElem?_eq_some_iff.mp hl
  have hbe := any_eq_false.mp hb e he
  have hh : held[e.1]? = some held[e.1] := getElem?_eq_getElem (hlen ▸ hlt)
  cases l with
  | unbounded => rw [hl, hh]
  | bounded n => simp [hl] at hbe

end

/-! ### What `resolve` makes -/

theorem index_inj {a b : PoolName} {i : ℕ} (ha : lane.index a = some i)
    (hb : lane.index b = some i) : a = b := by
  obtain ⟨ha', hai, -⟩ := idxOf?_eq_some_iff.mp ha
  obtain ⟨hb', hbi, -⟩ := idxOf?_eq_some_iff.mp hb
  exact hai.symm.trans hbi

/-- One pool more, which the need does not name yet. -/
theorem Served.grant {amount : ℕ}
    (hS : Served lane acc.1) (hnew : ∀ e ∈ acc.1, lane.index pool ≠ some e.1)
    (h : lane.grant (lane.index pool) amount acc = .ok acc') :
    Served lane acc'.1 ∧ ∀ e ∈ acc'.1, e ∈ acc.1 ∨ lane.index pool = some e.1 := by
  have hkeep : Served lane acc.1 ∧ ∀ e ∈ acc.1, e ∈ acc.1 ∨ lane.index pool = some e.1 :=
    ⟨hS, fun e he => .inl he⟩
  have hpush : ∀ idx n l, lane.index pool = some idx → lane.capacity[idx]? = some l →
      (∀ c, l = .bounded c → n ≤ c.toNat) → Served lane (acc.1 ++ [(idx, n)]) ∧
        ∀ e ∈ acc.1 ++ [(idx, n)], e ∈ acc.1 ∨ lane.index pool = some e.1 := by
    intro idx n l hidx hl hn
    refine ⟨⟨?_, fun e he => ?_⟩, fun e he => ?_⟩
    · rw [map_append, map_singleton]
      refine nodup_append.mpr ⟨hS.nodup, by simp, ?_⟩
      rintro a ha b hb rfl
      obtain ⟨e, he, rfl⟩ := mem_map.mp ha
      exact hnew e he (hidx.trans (congrArg some (mem_singleton.mp hb).symm))
    · rcases mem_append.mp he with he | he
      · exact hS.capacity e he
      · obtain rfl := mem_singleton.mp he
        exact ⟨l, hl, hn⟩
    · rcases mem_append.mp he with he | he
      · exact .inl he
      · obtain rfl := mem_singleton.mp he
        exact .inr hidx
  unfold Lane.grant at h
  split at h
  · simp at h
  · next idx hidx =>
    split at h
    · next hl =>
      cases h
      split
      · exact hpush idx amount _ hidx hl (by simp)
      · exact hkeep
    · simp at h
    · next c hl =>
      split at h
      · simp at h
      · cases h
        split
        · exact hpush idx _ _ hidx hl fun c' hc' => by
            obtain rfl := Limit.bounded.inj hc'
            exact min_le_right _ _
        · exact hkeep

theorem Served.resolveAll {l : List (PoolName × UInt64)}
    (hnd : (l.map fst).Nodup) (hS : Served lane acc.1)
    (hnew : ∀ e ∈ acc.1, ∀ pool ∈ l.map fst, lane.index pool ≠ some e.1)
    (h : lane.resolveAll l acc = .ok acc') :
    Served lane acc'.1 ∧
      ∀ e ∈ acc'.1, e ∈ acc.1 ∨ ∃ pool ∈ l.map fst, lane.index pool = some e.1 := by
  induction l generalizing acc with
  | nil =>
    obtain rfl : acc = acc' := Except.ok.inj h
    exact ⟨hS, fun e he => .inl he⟩
  | cons a l ih =>
    obtain ⟨pool, amount⟩ := a
    obtain ⟨hpool, hnd⟩ := nodup_cons.mp hnd
    rw [Lane.resolveAll] at h
    split at h
    · simp at h
    · next acc₁ hg =>
      obtain ⟨hS₁, h₁⟩ := hS.grant (fun e he => hnew e he pool (by simp)) hg
      have hnew₁ : ∀ e ∈ acc₁.1, ∀ q ∈ l.map fst, lane.index q ≠ some e.1 := by
        intro e he q hq hqe
        rcases h₁ e he with he | he
        · exact hnew e he q (mem_cons_of_mem _ hq) hqe
        · -- two pools of one demand have different names, and so different indices
          exact hpool (index_inj he hqe ▸ hq)
      obtain ⟨hS', h'⟩ := ih hnd hS₁ hnew₁ h
      refine ⟨hS', fun e he => ?_⟩
      rcases h' e he with he | ⟨q, hq, hqe⟩
      · rcases h₁ e he with he | he
        · exact .inl he
        · exact .inr ⟨pool, by simp, he⟩
      · exact .inr ⟨q, mem_cons_of_mem _ hq, hqe⟩

theorem notMem_keys_of_get? {m : Demand} (h : (m.get? pool).isNone = true) :
    pool ∉ m.keys := by
  intro hp
  obtain ⟨e, he, rfl⟩ := mem_map.mp hp
  simp only [get?, Option.isNone_map, Option.isNone_iff_eq_none,
    find?_eq_none] at h
  exact h e he (by simp)

/-- **`resolve` makes needs that the lane can serve.** -/
theorem served_resolve {need : Need} {clamped : Bool}
    (h : lane.resolve request = .ok (need, clamped)) : Served lane need := by
  unfold Lane.resolve at h
  split at h
  · simp at h
  · next acc hall =>
    obtain ⟨hS, hidx⟩ := served_nil.resolveAll request.nodup_keys (by simp) hall
    split at h
    · next hcpu =>
      split at h
      · simp at h
      · next acc' hg =>
        cases h
        refine (hS.grant (fun e he hc => ?_) hg).1
        rcases hidx e he with he | ⟨q, hq, hqe⟩
        · simp at he
        · exact notMem_keys_of_get? hcpu (index_inj hqe hc ▸ hq)
    · cases h
      exact hS

/-! ### The books -/

/-- What a list of grants holds of one pool. -/
def total (out : List Reservation) (i : ℕ) : ℕ := (out.map fun r => amountOf r.granted i).sum

theorem total_cons (r : Reservation) (out : List Reservation) (i : ℕ) :
    total (r :: out) i = amountOf r.granted i + total out i := by
  simp [total]

theorem total_perm {out out' : List Reservation} (h : out.Perm out') (i : ℕ) :
    total out i = total out' i :=
  (h.map _).sum_eq

/-- **The books of a lane**, with a list of the outstanding grants. -/
structure Ledger (lane : Lane) (p : Pool) (out : List Reservation) : Prop where
  length_held : p.held.length = lane.capacity.length
  served : ∀ r ∈ out, Served lane r.granted
  /-- What is held of a bounded pool is what the outstanding grants hold of it. -/
  held_eq : ∀ (i : ℕ) (n : UInt64), lane.capacity[i]? = some (.bounded n) →
    p.held[i]? = some (total out i)
  /-- It is within the capacity. -/
  total_le : ∀ (i : ℕ) (n : UInt64), lane.capacity[i]? = some (.bounded n) →
    total out i ≤ n.toNat
  /-- Every grant is outstanding, or has been given back, and only once. -/
  numbers : (p.returned ++ out.map Reservation.number).Perm (List.range p.numbers)

theorem Ledger.perm (hL : Ledger lane p out) (h : out.Perm out') : Ledger lane p out' where
  length_held := hL.length_held
  served r hr := hL.served r (h.mem_iff.mpr hr)
  held_eq i n hn := total_perm h i ▸ hL.held_eq i n hn
  total_le i n hn := total_perm h i ▸ hL.total_le i n hn
  numbers := ((h.map _).append_left _).symm.trans hL.numbers

/-- The books are about what is held, how many grants there are, and which are back. -/
theorem Ledger.congr (hL : Ledger lane p out) (hh : q.held = p.held)
    (hn : q.numbers = p.numbers) (hr : q.returned = p.returned) : Ledger lane q out where
  __ := hL
  length_held := hh ▸ hL.length_held
  held_eq := hh ▸ hL.held_eq
  numbers := by rw [hn, hr]; exact hL.numbers

theorem toNat_le_maxU64 (n : UInt64) : n.toNat ≤ maxU64 := le_sub_one_of_lt n.toNat_lt

/-- **Granting a need that fits keeps the books.** -/
theorem Ledger.charge (hL : Ledger lane p out) {need : Need} (hS : Served lane need)
    (hf : fits lane.capacity p.held need = true) (clamped : Bool) :
    Ledger lane (p.charge need) (⟨need, clamped, p.numbers⟩ :: out) where
  length_held := length_take.trans hL.length_held
  served := forall_mem_cons.mpr ⟨hS, hL.served⟩
  held_eq i n hn := by
    have hh := hL.held_eq i n hn
    have hle := hL.total_le i n hn
    have hmax := toNat_le_maxU64 n
    have hadd := hS.add_le hf hn hh hle
    rw [total_cons, add_comm]
    exact (getElem?_take hh (hle.trans hmax)).trans
      (congrArg some (min_eq_left (hadd.trans hmax)))
  total_le i n hn := by
    rw [total_cons, add_comm]
    exact hS.add_le hf hn (hL.held_eq i n hn) (hL.total_le i n hn)
  numbers := by
    refine perm_middle.trans ((hL.numbers.cons p.numbers).trans ?_)
    rw [Pool.charge, range_succ]
    exact (perm_append_singleton _ _).symm

/-- **Giving a grant back keeps the books.** -/
theorem Ledger.credit {r : Reservation} (hL : Ledger lane p (r :: out)) :
    Ledger lane (p.credit r) out where
  length_held := length_give.trans hL.length_held
  served r' hr' := hL.served r' (mem_cons_of_mem _ hr')
  held_eq i n hn := by
    have hh := hL.held_eq i n hn
    exact (getElem?_give hh).trans (congrArg some (Nat.add_sub_cancel_left _ _))
  total_le i n hn := (le_add_left _ _).trans ((total_cons r out i).symm.le.trans
    (hL.total_le i n hn))
  numbers := by
    have h := hL.numbers
    rw [Pool.credit, append_assoc]
    exact h

/-! ### The slots -/

namespace Pool

/-- Writing to one element of a list changes one place of what it yields. -/
theorem filterMap_set {α β : Type} {f : α → Option β} {l : List α} {a : α}
    (hi : l[i]? = some a) :
    ∃ rest, (l.filterMap f).Perm ((f a).toList ++ rest) ∧
      ∀ a', ((l.set i a').filterMap f).Perm ((f a').toList ++ rest) := by
  obtain ⟨hlt, rfl⟩ := List.getElem?_eq_some_iff.mp hi
  have hmid : ∀ x, ((l.take i ++ x :: l.drop (i + 1)).filterMap f).Perm
      ((f x).toList ++ ((l.take i).filterMap f ++ (l.drop (i + 1)).filterMap f)) := by
    intro x
    have hx : (x :: l.drop (i + 1)).filterMap f = (f x).toList ++ (l.drop (i + 1)).filterMap f := by
      cases hfx : f x <;> simp [hfx]
    rw [filterMap_append, hx, ← append_assoc, ← append_assoc]
    exact perm_append_comm.append_right _
  refine ⟨(l.take i).filterMap f ++ (l.drop (i + 1)).filterMap f, ?_, fun a' => ?_⟩
  · have h := hmid l[i]
    rwa [cons_getElem_drop_succ, take_append_drop] at h
  · rw [set_eq_take_append_cons_drop, if_pos hlt]
    exact hmid a'

/-- Writing to one `Acquire` changes one place of the outstanding grants. -/
theorem outstanding_setAcquire {a : Acquire} (hi : p.acquires[i]? = some a) :
    ∃ rest, p.outstanding.Perm (a.slot.grant?.toList ++ rest) ∧
      ∀ a', (p.setAcquire i a').outstanding.Perm (a'.slot.grant?.toList ++ rest) := by
  obtain ⟨rest, h, h'⟩ := filterMap_set hi
  have hshift : ∀ l : List Reservation, (p.owned ++ (l ++ rest)).Perm (l ++ (p.owned ++ rest)) := by
    intro l
    rw [← append_assoc, ← append_assoc]
    exact perm_append_comm.append_right _
  exact ⟨p.owned ++ rest, (h.append_left _).trans (hshift _),
    fun a' => ((h' a').append_left _).trans (hshift _)⟩

variable {r : Reservation} {p' : Pool}

/-- A grant that is taken out of its slot. -/
theorem outstanding_of_full {a a' : Acquire}
    (hi : p.acquires[i]? = some a) (hr : a.slot = .full r) (ha' : a'.slot = .gone) :
    p.outstanding.Perm (r :: (p.setAcquire i a').outstanding) := by
  obtain ⟨rest, h, h'⟩ := outstanding_setAcquire hi
  have h' := h' a'
  rw [hr] at h
  rw [ha'] at h'
  exact h.trans (h'.symm.cons r)

/-- A grant that a target takes over. -/
theorem outstanding_own (p : Pool) (r : Reservation) :
    (r :: p.outstanding).Perm { p with owned := p.owned ++ [r] }.outstanding := by
  rw [outstanding, outstanding, append_assoc]
  exact perm_middle.symm

/-- A reservation that its target drops. -/
theorem outstanding_of_owned {j : ℕ} (hj : p.owned[j]? = some r) :
    p.outstanding.Perm (r :: { p with owned := p.owned.eraseIdx j }.outstanding) := by
  obtain ⟨hlt, rfl⟩ := List.getElem?_eq_some_iff.mp hj
  exact (getElem_cons_eraseIdx_perm hlt).symm.append_right _

/-! ### The cases of a step -/

/-- **The steps, case by case**: under which guards an event leads from `p` to which
state. -/
inductive Did (lane : Lane) (p : Pool) : PoolEvent → Pool → Prop
  | refused {request : Demand} : Did lane p (.acquire request) p
  | admitted {request : Demand} {p' : Pool} (h : p.acquire lane request = .ok p') :
      Did lane p (.acquire request) p'
  | observed {i : ℕ} {a : Acquire} {r : Reservation} (ha : p.acquires[i]? = some a)
      (hr : a.slot = .full r) :
      Did lane p (.poll i) { p.setAcquire i { a with armed := false, slot := .gone } with
        owned := p.owned ++ [r] }
  | closed {i : ℕ} {a : Acquire} (ha : p.acquires[i]? = some a) (hs : a.slot = .empty) :
      Did lane p (.poll i) (p.setAcquire i { a with armed := false, slot := .gone })
  | left {i seq : ℕ} {a : Acquire} (ha : p.acquires[i]? = some a) :
      Did lane p (.dropGuard i) (cancel lane (p.setAcquire i { a with armed := false }) seq)
  | returned {i : ℕ} {a : Acquire} {r : Reservation} (ha : p.acquires[i]? = some a)
      (hr : a.slot = .full r) :
      Did lane p (.dropSlot i) (release lane (p.setAcquire i { a with slot := .gone }) r)
  | emptied {i : ℕ} {a : Acquire} (ha : p.acquires[i]? = some a) (hs : a.slot = .empty) :
      Did lane p (.dropSlot i) (p.setAcquire i { a with slot := .gone })
  | dropped {j : ℕ} {r : Reservation} (hr : p.owned[j]? = some r) :
      Did lane p (.dropReservation j) (release lane { p with owned := p.owned.eraseIdx j } r)

/-- **Every step is one of the cases.** -/
theorem did_of_step {lane : Lane} {p p' : Pool} {e : PoolEvent} (h : p.step lane e = some p') :
    Did lane p e p' := by
  cases e with
  | acquire request =>
    simp only [step] at h
    split at h
    · cases h
      exact .refused
    · next hacq =>
      cases h
      exact .admitted hacq
  | poll i =>
    simp only [step] at h
    split at h
    · next a ha =>
      split at h
      · next r hr =>
        cases h
        exact .observed ha hr
      · next hs =>
        split at h
        · simp at h
        · cases h
          exact .closed ha hs
      · simp at h
    · simp at h
  | dropGuard i =>
    simp only [step] at h
    split at h
    · next a ha =>
      split at h
      · cases h
        exact .left ha
      · simp at h
    · simp at h
  | dropSlot i =>
    simp only [step] at h
    split at h
    · next a ha =>
      split at h
      · next r hr =>
        cases h
        exact .returned ha hr
      · next hs =>
        cases h
        exact .emptied ha hs
      · simp at h
    · simp at h
  | dropReservation j =>
    simp only [step] at h
    split at h
    · next r hr =>
      cases h
      exact .dropped hr
    · simp at h

/-! ### Every step keeps the books -/

/-- The books are in order, and the lane can serve every queued request. -/
structure Sound (lane : Lane) (p : Pool) : Prop where
  ledger : Ledger lane p p.outstanding
  queued : ∀ e ∈ p.waiters.entries, Served lane e.2.need

/-- A grant that has been charged is put into a slot, or given back. -/
theorem ledger_send {tx : ℕ} (hL : Ledger lane p (r :: p.outstanding)) :
    Ledger lane (p.send tx r) (p.send tx r).outstanding := by
  unfold send
  split
  · next a ha =>
    split
    · next hslot =>
      obtain ⟨rest, h, h'⟩ := outstanding_setAcquire ha
      rw [hslot] at h
      have h' := h' { a with slot := .full r, number := some r.number }
      exact (hL.perm ((h.cons r).trans h'.symm)).congr rfl rfl rfl
    · exact hL.credit
  · exact hL.credit

theorem waiters_send (p : Pool) (tx : ℕ) (r : Reservation) : (p.send tx r).waiters = p.waiters := by
  unfold send
  split
  · split <;> rfl
  · rfl

theorem Sound.grantHead (hS : Sound lane p) {seq : ℕ} {w : Waiter}
    (hw : (seq, w) ∈ p.waiters.entries) (hf : fits lane.capacity p.held w.need = true) :
    Sound lane (p.grantHead seq w) where
  ledger := by
    have hL : Ledger lane { p with waiters := p.waiters.remove seq } p.outstanding :=
      hS.ledger.congr rfl rfl rfl
    exact ledger_send (hL.charge (hS.queued _ hw) hf w.clamped)
  queued e he := by
    rw [Pool.grantHead, waiters_send] at he
    exact hS.queued e (mem_of_mem_filter he)

theorem Sound.grantLoop (n : ℕ) (hS : Sound lane p) : Sound lane (grantLoop lane n p) := by
  induction n generalizing p with
  | zero => exact hS
  | succ n ih =>
    rw [grantLoop]
    split
    · exact hS
    · next seq w rest hentries =>
      split
      · next hf => exact ih (hS.grantHead (hentries ▸ mem_cons_self) hf)
      · exact hS

theorem Sound.grantChain (hS : Sound lane p) : Sound lane (grantChain lane p) :=
  .grantLoop _ hS

/-- A reservation that is dropped gives its grant back. -/
theorem sound_release (hL : Ledger lane p (r :: p.outstanding))
    (hQ : ∀ e ∈ p.waiters.entries, Served lane e.2.need) : Sound lane (release lane p r) := by
  have hS : Sound lane (p.credit r) := ⟨hL.credit, hQ⟩
  unfold release
  split
  · exact hS
  · exact hS.grantChain

section

variable (hS : Sound lane p)

include hS

theorem Sound.cancel (seq : ℕ) : Sound lane (cancel lane p seq) := by
  unfold Pool.cancel
  split
  · refine .grantChain ⟨hS.ledger.congr rfl rfl rfl, fun e he => ?_⟩
    exact hS.queued e (mem_of_mem_filter he)
  · exact hS

theorem Sound.grantNow (hN : Served lane need)
    (hf : fits lane.capacity p.held need = true) (clamped : Bool) :
    Sound lane (p.grantNow need clamped) where
  ledger := by
    refine ((hS.ledger.charge hN hf clamped).perm ?_).congr rfl rfl rfl
    rw [outstanding, outstanding, Pool.grantNow, filterMap_append, ← append_assoc]
    exact (perm_append_singleton _ _).symm
  queued := hS.queued

theorem Sound.push (hN : Served lane need) (clamped : Bool) :
    Sound lane (p.push need clamped) where
  ledger := by
    refine (hS.ledger.perm (Perm.of_eq ?_)).congr rfl rfl rfl
    rw [outstanding, outstanding, Pool.push]
    simp [Slot.grant?]
  queued e he := by
    rcases mem_insert.mp he with rfl | ⟨he, -⟩
    · exact hN
    · exact hS.queued e he

theorem Sound.acquire
    (h : p.acquire lane request = .ok p') : Sound lane p' := by
  unfold Pool.acquire at h
  split at h
  · simp at h
  · next need clamped hres =>
    have hN := served_resolve hres
    cases h
    split
    · unfold enqueue
      split
      · next hfast => exact hS.grantNow hN hfast.2 clamped
      · exact (hS.push hN clamped).grantChain
    · next hb =>
      have hfits := hN.fits_of_not_bounded hS.ledger.length_held (by simpa using hb)
      exact hS.grantNow hN hfits clamped

/-- Writing to an `Acquire` without touching a grant. -/
theorem Sound.setAcquire {i : ℕ} {a a' : Acquire}
    (hi : p.acquires[i]? = some a) (hg : a'.slot.grant? = a.slot.grant?) :
    Sound lane (p.setAcquire i a') where
  ledger := by
    obtain ⟨rest, h, h'⟩ := outstanding_setAcquire hi
    have h' := h' a'
    rw [hg] at h'
    exact (hS.ledger.perm (h.trans h'.symm)).congr rfl rfl rfl
  queued := hS.queued

/-- **Every step keeps the books.** -/
theorem Sound.step {e : PoolEvent} (h : p.step lane e = some p') :
    Sound lane p' := by
  cases did_of_step h with
  | refused => exact hS
  | admitted hacq => exact hS.acquire hacq
  | @observed _ _ r ha hr =>
    exact ⟨(hS.ledger.perm ((outstanding_of_full ha hr rfl).trans (outstanding_own _ r))).congr
      rfl rfl rfl, hS.queued⟩
  | closed ha hs => exact hS.setAcquire ha (by simp [hs, Slot.grant?])
  | left ha => exact .cancel (hS.setAcquire ha (by rfl)) _
  | returned ha hr =>
    exact sound_release ((hS.ledger.perm (outstanding_of_full ha hr rfl)).congr rfl rfl rfl)
      hS.queued
  | emptied ha hs => exact hS.setAcquire ha (by simp [hs, Slot.grant?])
  | dropped hr =>
    exact sound_release ((hS.ledger.perm (outstanding_of_owned hr)).congr rfl rfl rfl) hS.queued

end

theorem sound_new (lane : Lane) : Sound lane (new lane) where
  ledger := {
    length_held := length_replicate
    served := fun r hr => by simp [outstanding, new] at hr
    held_eq := fun i n hn => by
      obtain ⟨hlt, -⟩ := List.getElem?_eq_some_iff.mp hn
      simp [outstanding, new, total, hlt]
    total_le := fun i n _ => by simp [outstanding, new, total]
    numbers := by simp [outstanding, new] }
  queued e he := by simp [new, empty] at he

theorem sound_run {es : List PoolEvent} (h : (machine lane).run es = some p) : Sound lane p :=
  Machine.run_invariant (sound_new lane) (fun _ _ _ hS hs => hS.step hs) h

/-- **Conservation**, after every operation of every run: what is held of a bounded pool is
the sum of the amounts of the outstanding grants, it is within the capacity and nothing
when they are all gone; and every grant ever made is outstanding or has been given back,
exactly once. -/
theorem conservation {es : List PoolEvent} (h : (machine lane).run es = some p) :
    (∀ (i : ℕ) (n : UInt64), lane.capacity[i]? = some (.bounded n) →
      p.held[i]? = some (total p.outstanding i) ∧ total p.outstanding i ≤ n.toNat ∧
        (p.outstanding = [] → p.held[i]? = some 0)) ∧
    (p.returned ++ p.outstanding.map Reservation.number).Perm (List.range p.numbers) := by
  have hL := (sound_run h).ledger
  refine ⟨fun i n hn => ⟨hL.held_eq i n hn, hL.total_le i n hn, fun h0 => ?_⟩, hL.numbers⟩
  have hh := hL.held_eq i n hn
  rw [h0] at hh
  exact hh

/-! ### One CPU -/

/-- A lane with one CPU. -/
def oneCpu : Lane := .new [(PoolName.cpu, .bounded 1000000)]

/-- Two targets ask for the CPU; the first is granted it and returns it, and its grant goes
to the second, which has not looked yet. -/
def handOver : List PoolEvent :=
  [.acquire (.ofList [(PoolName.cpu, 1000000)]), .poll 0, .acquire .empty, .dropReservation 0]

theorem conservation_handOver :
    ∃ p, (machine oneCpu).run handOver = some p ∧ p.held[0]? = some (total p.outstanding 0) ∧
      total p.outstanding 0 = 1000000 ∧ p.returned = [0] := by
  obtain ⟨p, h, ht, hr⟩ : ∃ p, (machine oneCpu).run handOver = some p ∧
      total p.outstanding 0 = 1000000 ∧ p.returned = [0] := ⟨_, rfl, rfl, rfl⟩
  exact ⟨p, h, ((conservation h).1 0 1000000 rfl).1, ht, hr⟩

end Pool

end Heph
