import Mathlib

/-!
# Lists without duplicates

Two ways to make a list one without duplicates. A list may be **sorted** first: then the elements
that are equal are next to each other, and what comes out depends only on which elements there are
(`sortDedup_congr`). Or the **first** of those with the same key is kept, wherever it is, and
the order stays.
-/

namespace Heph

open List

/-! ### Sorting -/

section Sorted

variable {α : Type} [LinearOrder α]

/-- The elements of a list in order, and each of them once. -/
def sortDedup (l : List α) : List α := (l.insertionSort (· ≤ ·)).destutter (· ≠ ·)

theorem sortDedup_eq_dedup (l : List α) : sortDedup l = (l.insertionSort (· ≤ ·)).dedup :=
  (pairwise_insertionSort (· ≤ ·) l).destutter_eq_dedup

@[simp]
theorem mem_sortDedup {l : List α} {a : α} : a ∈ sortDedup l ↔ a ∈ l := by
  rw [sortDedup_eq_dedup, mem_dedup, mem_insertionSort]

theorem nodup_sortDedup (l : List α) : (sortDedup l).Nodup := by
  rw [sortDedup_eq_dedup]
  exact nodup_dedup _

/-- **What comes out depends only on which elements there are.** -/
theorem sortDedup_congr {l l' : List α} (h : ∀ a, a ∈ l ↔ a ∈ l') : sortDedup l = sortDedup l' := by
  have hsorted : ∀ l : List α, (sortDedup l).Pairwise (· ≤ ·) := fun l =>
    (pairwise_insertionSort (· ≤ ·) l).sublist (destutter_sublist _ _)
  have hperm : (sortDedup l).Perm (sortDedup l') := by
    rw [perm_ext_iff_of_nodup (nodup_sortDedup l) (nodup_sortDedup l')]
    simpa using h
  exact hperm.eq_of_pairwise' (hsorted l) (hsorted l')

/-! ### Sorting by a key -/

variable {β : Type} (key : β → α)

/-- The elements of a list in the order of their keys, and the first of those with a key. -/
def sortFirsts (l : List β) : List β :=
  (l.insertionSort fun a b => key a ≤ key b).destutter fun a b => key a ≠ key b

theorem mem_of_mem_sortFirsts {l : List β} {a : β} (h : a ∈ sortFirsts key l) : a ∈ l :=
  (mem_insertionSort _).mp ((destutter_sublist _ _).mem h)

/-- The keys are those there were, in order, and each of them once. -/
theorem map_sortFirsts (l : List β) : (sortFirsts key l).map key = sortDedup (l.map key) := by
  have hmap : (sortFirsts key l).map key =
      ((l.insertionSort fun a b => key a ≤ key b).map key).destutter (· ≠ ·) :=
    map_destutter fun _ _ _ _ => Iff.rfl
  rw [hmap, map_insertionSort _ (· ≤ ·) key l fun _ _ _ _ => Iff.rfl, sortDedup]

end Sorted

/-! ### Keeping the first -/

section Firsts

variable {α κ : Type} [DecidableEq κ] (key : α → κ) {seen : List κ} {l : List α} {ι : Type}
  {f : ι → List α} {xs : List ι} {seen' : List κ}

/-- The first element for each key that has not been seen. -/
def firsts (seen : List κ) : List α → List α
  | [] => []
  | a :: l => if key a ∈ seen then firsts seen l else a :: firsts (key a :: seen) l

theorem firsts_sublist (seen : List κ) (l : List α) : (firsts key seen l).Sublist l := by
  induction l generalizing seen with
  | nil => exact Sublist.slnil
  | cons a l ih =>
    rw [firsts]
    split
    · exact (ih seen).cons a
    · exact (ih (key a :: seen)).cons_cons a

/-- The keys that are left are those that were there and had not been seen. -/
theorem mem_map_firsts {k : κ} :
    k ∈ (firsts key seen l).map key ↔ k ∈ l.map key ∧ k ∉ seen := by
  induction l generalizing seen with
  | nil => simp [firsts]
  | cons a l ih =>
    rw [firsts]
    by_cases ha : key a ∈ seen
    · rw [if_pos ha, ih, map_cons, mem_cons]
      constructor
      · rintro ⟨hk, hseen⟩
        exact ⟨.inr hk, hseen⟩
      · rintro ⟨rfl | hk, hseen⟩
        · exact absurd ha hseen
        · exact ⟨hk, hseen⟩
    · rw [if_neg ha, map_cons, mem_cons, ih, map_cons, mem_cons,
        mem_cons, not_or]
      by_cases hk : k = key a
      · simp [hk, ha]
      · simp [hk]

/-- **No key is left twice.** -/
theorem nodup_map_firsts (seen : List κ) (l : List α) : ((firsts key seen l).map key).Nodup := by
  induction l generalizing seen with
  | nil => exact nodup_nil
  | cons a l ih =>
    rw [firsts]
    split
    · exact ih seen
    · refine nodup_cons.mpr ⟨fun h => ?_, ih _⟩
      exact ((mem_map_firsts key).mp h).2 mem_cons_self

/-- **What is left is the first with its key.** -/
theorem find?_of_mem_firsts {a : α} (h : a ∈ firsts key seen l) :
    l.find? (fun b => key b = key a) = some a := by
  induction l generalizing seen with
  | nil => simp [firsts] at h
  | cons b l ih =>
    have hold : ∀ {seen'}, key b ∈ seen' → a ∈ firsts key seen' l → key b ≠ key a := by
      intro seen' hb ha heq
      rw [heq] at hb
      exact ((mem_map_firsts key).mp (mem_map_of_mem ha)).2 hb
    rw [firsts] at h
    split at h
    · next hb => rw [find?_cons_of_neg (by simpa using hold hb h), ih h]
    · rcases mem_cons.mp h with rfl | h
      · simp
      · rw [find?_cons_of_neg (by simpa using hold mem_cons_self h), ih h]

/-- One step of a loop that keeps the first ones, with the keys that it has seen. -/
def pushNew (s : List κ × List α) (a : α) : List κ × List α :=
  if key a ∈ s.1 then s else (key a :: s.1, s.2 ++ [a])

/-- **The loop** keeps the first ones. -/
theorem foldl_pushNew (s : List κ × List α) (l : List α) :
    (l.foldl (pushNew key) s).2 = s.2 ++ firsts key s.1 l := by
  induction l generalizing s with
  | nil => simp [firsts]
  | cons a l ih =>
    rw [foldl_cons, ih, firsts]
    by_cases ha : key a ∈ s.1
    · have hpush : pushNew key s a = s := if_pos ha
      rw [hpush, if_pos ha]
    · have hpush : pushNew key s a = (key a :: s.1, s.2 ++ [a]) := if_neg ha
      rw [hpush, if_neg ha, append_assoc]
      rfl

theorem mem_firsts_iff {a : α} :
    a ∈ firsts key seen l ↔ l.find? (fun b => key b = key a) = some a ∧ key a ∉ seen := by
  constructor
  · exact fun h =>
      ⟨find?_of_mem_firsts key h, ((mem_map_firsts key).mp (mem_map_of_mem h)).2⟩
  · rintro ⟨hfind, hseen⟩
    have ha : key a ∈ l.map key := mem_map_of_mem (mem_of_find?_eq_some hfind)
    obtain ⟨b, hb, heq⟩ := mem_map.mp ((mem_map_firsts key).mpr ⟨ha, hseen⟩)
    have hfind' := find?_of_mem_firsts key hb
    rw [heq, hfind] at hfind'
    exact Option.some.inj hfind' ▸ hb

/-- Which keys have been seen is all that counts. -/
theorem firsts_congr (h : ∀ k, k ∈ seen ↔ k ∈ seen') (l : List α) :
    firsts key seen l = firsts key seen' l := by
  induction l generalizing seen seen' with
  | nil => rfl
  | cons a l ih =>
    rw [firsts, firsts, if_congr (h (key a)) (ih h) (congrArg (a :: ·) (ih fun k => ?_))]
    rw [mem_cons, mem_cons, h k]

theorem firsts_append (seen : List κ) (l l' : List α) :
    firsts key seen (l ++ l') = firsts key seen l ++ firsts key (l.map key ++ seen) l' := by
  induction l generalizing seen with
  | nil => rfl
  | cons a l ih =>
    rw [cons_append, firsts, firsts]
    split
    · next ha =>
      rw [ih, firsts_congr key (fun k => ?_) l']
      simp only [map_cons, cons_append, mem_cons, mem_append]
      constructor
      · exact .inr
      · rintro (rfl | hk)
        · exact .inr ha
        · exact hk
    · rw [ih, cons_append, firsts_congr key (fun k => ?_) l']
      simp only [map_cons, cons_append, mem_cons, mem_append]
      tauto

/-- Keeping the first ones twice is keeping them once. -/
theorem firsts_firsts (h : seen' ⊆ seen) (l : List α) :
    firsts key seen (firsts key seen' l) = firsts key seen l := by
  induction l generalizing seen seen' with
  | nil => rfl
  | cons a l ih =>
    rw [firsts, firsts]
    split
    · next ha => rw [if_pos (h ha), ih h]
    · rw [firsts]
      split
      · next ha => exact ih (cons_subset.mpr ⟨ha, h⟩)
      · rw [ih (cons_subset_cons _ h)]

/-- The first ones of lists that are joined depend only on those of each. -/
theorem firsts_append_congr {l₁ l₁' l₂ l₂' : List α} (h₁ : firsts key [] l₁ = firsts key [] l₁')
    (h₂ : firsts key [] l₂ = firsts key [] l₂') :
    firsts key [] (l₁ ++ l₂) = firsts key [] (l₁' ++ l₂') := by
  have hkeys : ∀ k, k ∈ l₁.map key ++ [] ↔ k ∈ l₁'.map key ++ [] := by
    intro k
    have hmem : k ∈ (firsts key [] l₁).map key ↔ k ∈ l₁.map key ∧ k ∉ [] := mem_map_firsts key
    rw [h₁, mem_map_firsts] at hmem
    simpa using hmem.symm
  rw [firsts_append, firsts_append, h₁, firsts_congr key hkeys,
    ← firsts_firsts key (nil_subset _) l₂, h₂, firsts_firsts key (nil_subset _)]

theorem firsts_map {β : Type} {f : β → α} (seen : List κ) (l : List β) :
    firsts key seen (l.map f) = (firsts (fun b => key (f b)) seen l).map f := by
  induction l generalizing seen with
  | nil => rfl
  | cons b l ih =>
    rw [map_cons, firsts, firsts]
    split
    · exact ih seen
    · rw [ih, map_cons]

/-! ### Keeping the first, in any order

Lists come from several sources, and are joined in an order. The first one with a key stands for
all the others. -/

/-- **The first stands for all in every order** exactly if it does so wherever it can come from:
if it has what some other one with its key has. -/
theorem firsts_stand_iff (p : α → Prop) :
    (∀ xs' : List ι, xs'.Perm xs → ∀ a ∈ firsts key [] (xs'.flatMap f),
      (p a ↔ ∃ b ∈ xs.flatMap f, key b = key a ∧ p b)) ↔
    ∀ x ∈ xs, ∀ a ∈ firsts key [] (f x), (∃ b ∈ xs.flatMap f, key b = key a ∧ p b) → p a := by
  constructor
  · -- the source that it comes from may be the first
    intro h x hx a ha
    obtain ⟨before, after, rfl⟩ := append_of_mem hx
    refine (h (x :: (before ++ after)) perm_middle.symm a ?_).mpr
    rw [flatMap_cons, firsts_append]
    exact mem_append_left _ ha
  · intro h xs' hperm a ha
    obtain ⟨hfind, -⟩ := (mem_firsts_iff key).mp ha
    refine ⟨fun hp => ⟨a, ?_, rfl, hp⟩, fun hb => ?_⟩
    · exact (hperm.flatMap_right f).mem_iff.mp (mem_of_find?_eq_some hfind)
    · rw [find?_flatMap] at hfind
      obtain ⟨x, hx, hfind⟩ := exists_of_findSome?_eq_some hfind
      exact h x (hperm.mem_iff.mp hx) a ((mem_firsts_iff key).mpr ⟨hfind, not_mem_nil⟩) hb

/-- **Nothing is lost** exactly if the keys tell apart what has different names. -/
theorem firsts_complete_iff {ν : Type} {name : α → ν}
    (hname : ∀ a b, name a = name b → key a = key b) :
    (∀ a ∈ l, ∃ b ∈ firsts key [] l, name b = name a) ↔
      ∀ a ∈ l, ∀ b ∈ l, key a = key b → name a = name b := by
  constructor
  · intro h a ha b hb heq
    obtain ⟨a', ha', hname₁⟩ := h a ha
    obtain ⟨b', hb', hname₂⟩ := h b hb
    have hsame : a' = b' := inj_on_of_nodup_map (nodup_map_firsts key [] l) ha' hb'
      ((hname _ _ hname₁).trans (heq.trans (hname _ _ hname₂).symm))
    rw [← hname₁, hsame, hname₂]
  · intro h a ha
    obtain ⟨b, hb, heq⟩ := mem_map.mp
      ((mem_map_firsts key).mpr ⟨mem_map_of_mem ha, not_mem_nil⟩)
    exact ⟨b, hb, h b ((firsts_sublist key [] l).mem hb) a ha heq⟩

/-- **Nothing is lost and the first stands for all**, in every order and for every flag: for what
has a name there is one with this name, with the flags that anyone with this name has. -/
theorem firsts_join_iff {ν ε : Type} (name : α → ν) (flag : ε → α → Bool) (f : ι → List α)
    (xs : List ι) (hname : ∀ a b, name a = name b → key a = key b) :
    (∀ xs' : List ι, xs'.Perm xs →
      (∀ a ∈ xs.flatMap f, ∃ b ∈ firsts key [] (xs'.flatMap f), name b = name a) ∧
      ∀ a ∈ firsts key [] (xs'.flatMap f), ∀ e,
        (flag e a = true ↔ ∃ b ∈ xs.flatMap f, name b = name a ∧ flag e b = true)) ↔
    (∀ a ∈ xs.flatMap f, ∀ b ∈ xs.flatMap f, key a = key b → name a = name b) ∧
      ∀ x ∈ xs, ∀ a ∈ firsts key [] (f x), ∀ e,
        (∃ b ∈ xs.flatMap f, key b = key a ∧ flag e b = true) → flag e a = true := by
  have hmem : ∀ {xs' : List ι}, xs'.Perm xs → ∀ {a}, a ∈ xs'.flatMap f ↔ a ∈ xs.flatMap f :=
    fun hperm => (hperm.flatMap_right f).mem_iff
  -- as long as names and keys are told apart alike
  have hsame : (∀ a ∈ xs.flatMap f, ∀ b ∈ xs.flatMap f, key a = key b → name a = name b) →
      ∀ a ∈ xs.flatMap f, ∀ e, (∃ b ∈ xs.flatMap f, name b = name a ∧ flag e b = true) ↔
        ∃ b ∈ xs.flatMap f, key b = key a ∧ flag e b = true := by
    intro htell a ha e
    constructor
    · rintro ⟨b, hb, heq, hflag⟩
      exact ⟨b, hb, hname b a heq, hflag⟩
    · rintro ⟨b, hb, heq, hflag⟩
      exact ⟨b, hb, htell b hb a ha heq, hflag⟩
  constructor
  · intro h
    have htell := (firsts_complete_iff key hname).mp (h xs (.refl xs)).1
    refine ⟨htell, fun x hx a ha e => ?_⟩
    refine (firsts_stand_iff key fun a => flag e a = true).mp (fun xs' hperm a ha => ?_) x hx a ha
    rw [(h xs' hperm).2 a ha e]
    exact hsame htell a ((hmem hperm).mp ((firsts_sublist key [] _).mem ha)) e
  · rintro ⟨htell, hstand⟩ xs' hperm
    constructor
    · intro a ha
      refine (firsts_complete_iff key hname).mpr (fun a ha b hb => ?_) a ((hmem hperm).mpr ha)
      exact htell a ((hmem hperm).mp ha) b ((hmem hperm).mp hb)
    · intro a ha e
      rw [hsame htell a ((hmem hperm).mp ((firsts_sublist key [] _).mem ha)) e]
      exact (firsts_stand_iff key fun a => flag e a = true).mpr
        (fun x hx a ha => hstand x hx a ha e) xs' hperm a ha

/-- The same of elements that are **marked on the way**, with what `plain` takes away again. What
comes out of each order of the sources is in `out`. -/
theorem firsts_join_marked_iff {ν ε : Type} {name : α → ν} {flag : ε → α → Bool}
    {out : List ι → List α → Prop} (plain : α → α) (hkeyOf : ∀ a, key (plain a) = key a)
    (hnameOf : ∀ a, name (plain a) = name a) (hflagOf : ∀ e a, flag e (plain a) = flag e a)
    (hname : ∀ a b, name a = name b → key a = key b)
    (hout : ∀ xs' l, out xs' l → l.map plain = firsts key [] ((xs'.flatMap f).map plain))
    (htotal : ∀ xs' : List ι, xs'.Perm xs → ∃ l, out xs' l) :
    (∀ xs' : List ι, xs'.Perm xs → ∀ l, out xs' l →
      (∀ a ∈ xs.flatMap f, ∃ b ∈ l, name b = name a) ∧
      ∀ a ∈ l, ∀ e, (flag e a = true ↔ ∃ b ∈ xs.flatMap f, name b = name a ∧ flag e b = true)) ↔
    (∀ a ∈ xs.flatMap f, ∀ b ∈ xs.flatMap f, key a = key b → name a = name b) ∧
      ∀ x ∈ xs, ∀ a ∈ firsts key [] (f x), ∀ e,
        (∃ b ∈ xs.flatMap f, key b = key a ∧ flag e b = true) → flag e a = true := by
  rw [← firsts_join_iff key name flag f xs hname]
  have hplain : ∀ xs' l, out xs' l → l.map plain = (firsts key [] (xs'.flatMap f)).map plain := by
    intro xs' l hl
    have h := hout xs' l hl
    simpa only [firsts_map, hkeyOf] using h
  -- what is said of a list is said of what its elements are without their marks
  have hcongr : ∀ l l' : List α, l.map plain = l'.map plain →
      ((∀ a ∈ xs.flatMap f, ∃ b ∈ l, name b = name a) ∧ ∀ a ∈ l, ∀ e,
        (flag e a = true ↔ ∃ b ∈ xs.flatMap f, name b = name a ∧ flag e b = true)) →
      (∀ a ∈ xs.flatMap f, ∃ b ∈ l', name b = name a) ∧ ∀ a ∈ l', ∀ e,
        (flag e a = true ↔ ∃ b ∈ xs.flatMap f, name b = name a ∧ flag e b = true) := by
    rintro l l' heq ⟨hthere, hflag⟩
    have hmem : ∀ {l l' : List α}, l.map plain = l'.map plain →
        ∀ a ∈ l, ∃ b ∈ l', plain b = plain a := fun heq a ha =>
      mem_map.mp (heq ▸ mem_map_of_mem ha)
    constructor
    · intro a ha
      obtain ⟨b, hb, hba⟩ := hthere a ha
      obtain ⟨b', hb', hplain⟩ := hmem heq b hb
      exact ⟨b', hb', by rw [← hnameOf, hplain, hnameOf, hba]⟩
    · intro a ha e
      obtain ⟨a', ha', hplain⟩ := hmem heq.symm a ha
      have h := hflag a' ha' e
      rwa [← hnameOf a', ← hflagOf e a', hplain, hnameOf, hflagOf] at h
  constructor
  · intro h xs' hperm
    obtain ⟨l, hl⟩ := htotal xs' hperm
    exact hcongr l _ (hplain xs' l hl) (h xs' hperm l hl)
  · intro h xs' hperm l hl
    exact hcongr _ l (hplain xs' l hl).symm (h xs' hperm)

end Firsts

end Heph
