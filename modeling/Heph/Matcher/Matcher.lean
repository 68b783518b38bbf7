import Heph.Lib.Verdict
import Heph.Addr.Addr

/-!
# Matchers

A matcher is a boolean combination of atoms about one target. What is known of a target
grows in stages – its package, its address and what the listings say of it, its spec, its
definition – and there is an evaluator for each of the stages. They differ in what they say
of the atoms, and combine the verdicts alike (`Matcher.eval`).
-/

namespace Heph

open Verdict

/-- `MatchResult`: `MatchYes`, `MatchNo` and `MatchShrug`. -/
abbrev MatchResult := Verdict

/-- `if … { MatchYes } else { MatchNo }`. -/
def MatchResult.ofBool (b : Bool) : MatchResult := if b then .yes else .no

/-- The variants of `Matcher` that ask something of the target. -/
inductive Atom where
  | addr (a : Addr)
  | label (l : Text)
  | driver (d : Text)
  | package (p : PkgBuf)
  | packagePrefix (p : PkgBuf)
  | treeOutputTo (p : PkgBuf)
  deriving DecidableEq

/-- `Matcher`. -/
inductive Matcher where
  | atom (a : Atom)
  | or (ms : List Matcher)
  | and (ms : List Matcher)
  | not (m : Matcher)

/-- `MAX_LISTED_DRIVER_LEN`. -/
def maxListedDriverLen : ℕ := 256

/-- `ListedFacts`: what the listings say of a target, each field where it is known. -/
structure ListedFacts where
  labels : Option (List Text)
  driver : Option Text
  hasCodegen : Option Bool
  /-- Known labels are sorted and without duplicates. -/
  labels_sorted : ∀ l ∈ labels, l.Pairwise (· < ·)
  /-- A known driver is not empty and not oversized. -/
  driver_legal : ∀ d ∈ driver, d ≠ [] ∧ (Addr.utf8 d).length ≤ maxListedDriverLen

/-- `ListedFacts::UNKNOWN`. -/
def ListedFacts.unknown : ListedFacts where
  labels := none
  driver := none
  hasCodegen := none
  labels_sorted := by simp
  driver_legal := by simp

namespace Matcher

/-! ### Evaluation -/

mutual

/-- The verdict on a matcher, from the verdicts on its atoms. -/
def eval (f : Atom → MatchResult) : Matcher → MatchResult
  | atom a => f a
  | or ms => .any (evalAll f ms)
  | and ms => .all (evalAll f ms)
  | not m => (eval f m).negate

/-- The verdicts on several matchers. -/
def evalAll (f : Atom → MatchResult) : List Matcher → List MatchResult
  | [] => []
  | m :: ms => eval f m :: evalAll f ms

end

/-- The arms of `Matcher::matches_pkg` for the atoms: a verdict on all the targets of a
package. -/
def pkgAtom (pkg : PkgBuf) : Atom → MatchResult
  | .addr a => if a.package = pkg then .shrug else .no
  | .label _ => .shrug
  | .driver _ => .shrug
  | .treeOutputTo p => if hasPrefix pkg p || hasPrefix p pkg then .shrug else .no
  | .package p => .ofBool (pkg = p)
  | .packagePrefix p => .ofBool (hasPrefix pkg p)

/-- `Matcher::matches_pkg`. -/
def matchesPkg (m : Matcher) (pkg : PkgBuf) : MatchResult := m.eval (pkgAtom pkg)

/-- The arms of `Matcher::matches_listed` for the atoms: a verdict on an address, with what
the listings say of it. -/
def listedAtom (addr : Addr) (facts : ListedFacts) : Atom → MatchResult
  | .addr a => .ofBool (a = addr)
  | .label l =>
    match facts.labels with
    | some labels => .ofBool (labels.contains l)
    | none => .shrug
  | .driver d =>
    match facts.driver with
    | some driver => .ofBool (driver = d)
    | none => .shrug
  | .treeOutputTo p =>
    if facts.hasCodegen = some false then .no
    else if hasPrefix addr.package p || hasPrefix p addr.package then .shrug
    else .no
  | .package p => .ofBool (addr.package = p)
  | .packagePrefix p => .ofBool (hasPrefix addr.package p)

/-- `Matcher::matches_listed`. -/
def matchesListed (m : Matcher) (addr : Addr) (facts : ListedFacts) : MatchResult :=
  m.eval (listedAtom addr facts)

/-- `Matcher::matches_addr`. -/
def matchesAddr (m : Matcher) (addr : Addr) : MatchResult := m.matchesListed addr .unknown

/-! ### Induction and evaluation -/

/-- Induction over a matcher: a combination has the property if its members have it. -/
@[elab_as_elim, induction_eliminator]
theorem induct {motive : Matcher → Prop} (atom : ∀ a, motive (.atom a))
    (or : ∀ ms, (∀ m ∈ ms, motive m) → motive (.or ms))
    (and : ∀ ms, (∀ m ∈ ms, motive m) → motive (.and ms)) (not : ∀ m, motive m → motive (.not m))
    (m : Matcher) : motive m :=
  @rec motive (fun ms => ∀ m ∈ ms, motive m) atom or and not
    (fun _ hm => absurd hm List.not_mem_nil)
    (fun _ _ hm hms => List.forall_mem_cons.mpr ⟨hm, hms⟩) m

variable (f : Atom → MatchResult) (ms : List Matcher)

theorem evalAll_eq :
    evalAll f ms = ms.map (eval f) := by
  induction ms with
  | nil => rfl
  | cons m ms ih => rw [evalAll, ih, List.map_cons]

theorem eval_or :
    eval f (.or ms) = .any (ms.map (eval f)) := by
  rw [eval, evalAll_eq]

theorem eval_and :
    eval f (.and ms) = .all (ms.map (eval f)) := by
  rw [eval, evalAll_eq]

/-- **An evaluator that knows less of the atoms knows less of every matcher.** -/
theorem eval_below {f g : Atom → MatchResult} (h : ∀ a, (f a).Below (g a)) (m : Matcher) :
    (m.eval f).Below (m.eval g) := by
  induction m with
  | atom a => exact h a
  | or ms ih =>
    rw [eval_or, eval_or]
    exact .any ih
  | and ms ih =>
    rw [eval_and, eval_and]
    exact .all ih
  | not m ih => exact ih.negate

/-- **An evaluator that does not shrug at an atom does not shrug.** -/
theorem eval_ne_shrug {f : Atom → MatchResult} (h : ∀ a, f a ≠ .shrug) (m : Matcher) :
    m.eval f ≠ .shrug := by
  induction m with
  | atom a => exact h a
  | or ms ih =>
    rw [eval_or]
    exact any_ne_shrug ih
  | and ms ih =>
    rw [eval_and]
    exact all_ne_shrug ih
  | not m ih => exact negate_ne_shrug ih

end Matcher

end Heph
