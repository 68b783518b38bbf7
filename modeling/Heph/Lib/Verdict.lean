import Mathlib

/-!
# Verdicts that may abstain

Three values, of which the third one is not to know: a **shrug**. A disjunction is settled
by one `yes`, a conjunction by one `no`, and both shrug if they are not settled and some
member shrugs. The connectives are loops over lists, which stop at the first member that
settles them.

A verdict is compared with another one by how much it knows (`Verdict.Below`). The
connectives are monotone in this order, so an evaluator that knows less never contradicts
one that knows more.
-/

namespace Heph

open List

/-- A verdict. -/
inductive Verdict where
  | yes
  | no
  | shrug
  deriving DecidableEq, Repr

namespace Verdict

/-! ### The connectives -/

/-- The negation. -/
def negate : Verdict → Verdict
  | yes => no
  | no => yes
  | shrug => shrug

/-- The loop of a disjunction, which remembers whether a member has shrugged. -/
def anyLoop : Bool → List Verdict → Verdict
  | seen, [] => if seen then shrug else no
  | _, yes :: _ => yes
  | _, shrug :: l => anyLoop true l
  | seen, no :: l => anyLoop seen l

/-- The loop of a conjunction. -/
def allLoop : Bool → List Verdict → Verdict
  | seen, [] => if seen then shrug else yes
  | _, no :: _ => no
  | _, shrug :: l => allLoop true l
  | seen, yes :: l => allLoop seen l

/-- The disjunction. -/
def any (l : List Verdict) : Verdict := anyLoop false l

/-- The conjunction. -/
def all (l : List Verdict) : Verdict := allLoop false l

variable {v w : Verdict} {l : List Verdict} {seen : Bool}

@[simp]
theorem negate_negate (v : Verdict) : v.negate.negate = v := by
  cases v <;> rfl

/-- A verdict is known by when it is `yes` and when it is `no`. -/
theorem eq_of_iff (hyes : v = yes ↔ w = yes) (hno : v = no ↔ w = no) : v = w := by
  cases v <;> cases w <;> simp_all

theorem anyLoop_eq_yes : anyLoop seen l = yes ↔ yes ∈ l := by
  induction l generalizing seen with
  | nil => cases seen <;> simp [anyLoop]
  | cons v l ih => cases v <;> simp [anyLoop, ih]

theorem anyLoop_eq_no : anyLoop seen l = no ↔ seen = false ∧ ∀ v ∈ l, v = no := by
  induction l generalizing seen with
  | nil => cases seen <;> simp [anyLoop]
  | cons v l ih => cases v <;> simp [anyLoop, ih]

/-- **A disjunction is `yes` if a member is.** -/
theorem any_eq_yes : any l = yes ↔ yes ∈ l := anyLoop_eq_yes

/-- **A disjunction is `no` if all members are.** -/
theorem any_eq_no : any l = no ↔ ∀ v ∈ l, v = no := by
  rw [any, anyLoop_eq_no]
  simp

/-- **A conjunction is the dual of a disjunction.** -/
theorem allLoop_eq : allLoop seen l = (anyLoop seen (l.map negate)).negate := by
  induction l generalizing seen with
  | nil => cases seen <;> rfl
  | cons v l ih => cases v <;> simp [allLoop, anyLoop, negate, ih]

theorem all_eq (l : List Verdict) : all l = (any (l.map negate)).negate := allLoop_eq

/-- **A conjunction is `yes` if all members are.** -/
theorem all_eq_yes : all l = yes ↔ ∀ v ∈ l, v = yes := by
  have hneg : ∀ v : Verdict, v.negate = no ↔ v = yes := fun v => by cases v <;> decide
  have hneg' : ∀ v : Verdict, v.negate = yes ↔ v = no := fun v => by cases v <;> decide
  rw [all_eq, hneg', any_eq_no, forall_mem_map]
  exact forall₂_congr fun v _ => hneg v

theorem any_singleton (v : Verdict) : any [v] = v := by
  cases v <;> rfl

theorem all_singleton (v : Verdict) : all [v] = v := by
  cases v <;> rfl

/-- **A disjunction of disjunctions is one disjunction.** -/
theorem any_map_any (ls : List (List Verdict)) : any (ls.map any) = any ls.flatten := by
  refine eq_of_iff ?_ ?_
  · simp [any_eq_yes]
  · simp only [any_eq_no, mem_map, forall_exists_index, and_imp, forall_apply_eq_imp_iff₂,
      mem_flatten]
    exact ⟨fun h v l hl hv => h l hl v hv, fun h l hl v hv => h v l hl hv⟩

/-- **A conjunction of conjunctions is one conjunction.** -/
theorem all_map_all (ls : List (List Verdict)) : all (ls.map all) = all ls.flatten := by
  have hdual : (ls.map all).map negate = (ls.map fun l => l.map negate).map any := by
    simp [all_eq]
  rw [all_eq, all_eq, hdual, any_map_any, map_flatten]

/-! ### Knowing less -/

/-- `v` knows at most what `w` knows: it shrugs, or it is `w`. -/
def Below (v w : Verdict) : Prop := v ≠ shrug → v = w

section Below

variable {α : Type*} {l : List α} {f g : α → Verdict}

theorem Below.refl (v : Verdict) : Below v v := fun _ => rfl

theorem Below.shrug (v : Verdict) : Below shrug v := fun h => absurd rfl h

theorem Below.negate (h : Below v w) : Below v.negate w.negate := by
  intro hv
  rw [h fun hs => hv (by rw [hs]; rfl)]

/-- **The disjunction is monotone.** -/
theorem Below.any (h : ∀ a ∈ l, Below (f a) (g a)) : Below (any (l.map f)) (any (l.map g)) := by
  intro hv
  cases hf : Verdict.any (l.map f) with
  | shrug => exact absurd hf hv
  | yes =>
    obtain ⟨a, ha, hfa⟩ := mem_map.mp (any_eq_yes.mp hf)
    have hga : f a = g a := h a ha (by simp [hfa])
    exact (any_eq_yes.mpr (mem_map.mpr ⟨a, ha, hga ▸ hfa⟩)).symm
  | no =>
    refine (any_eq_no.mpr fun v hv => ?_).symm
    obtain ⟨a, ha, rfl⟩ := mem_map.mp hv
    have hfa := any_eq_no.mp hf _ (mem_map_of_mem ha)
    rw [← h a ha (by simp [hfa]), hfa]

/-- **The conjunction is monotone.** -/
theorem Below.all (h : ∀ a ∈ l, Below (f a) (g a)) : Below (all (l.map f)) (all (l.map g)) := by
  rw [all_eq, all_eq, map_map, map_map]
  exact (any fun a ha => (h a ha).negate).negate

/-- Members that do not shrug have a disjunction that does not. -/
theorem any_ne_shrug (h : ∀ a ∈ l, f a ≠ .shrug) : Verdict.any (l.map f) ≠ .shrug := by
  by_cases hyes : yes ∈ l.map f
  · simp [any_eq_yes.mpr hyes]
  · refine fun hs => by
      rw [any_eq_no.mpr fun v hv => ?_] at hs
      · simp at hs
      · obtain ⟨a, ha, rfl⟩ := mem_map.mp hv
        cases hfa : f a with
        | yes => exact absurd (hfa ▸ hv) hyes
        | no => rfl
        | shrug => exact absurd hfa (h a ha)

theorem negate_ne_shrug (h : v ≠ .shrug) : v.negate ≠ .shrug := by
  cases v <;> simp_all [negate]

theorem all_ne_shrug (h : ∀ a ∈ l, f a ≠ .shrug) : Verdict.all (l.map f) ≠ .shrug := by
  rw [all_eq, map_map]
  exact negate_ne_shrug (any_ne_shrug fun a ha => negate_ne_shrug (h a ha))

end Below

end Verdict

end Heph
