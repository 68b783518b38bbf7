import Heph.Query.Accepted

/-!
# Chains of one operator

A disjunction within a disjunction is printed without parentheses, so it is read back as
part of one longer chain. `Query.flat` is what a matcher becomes that way. It is
printed alike and means the same; and it is **flat** (`Query.Flat`): no operand of a
chain is itself a chain of that operator.
-/

namespace Heph.Query

open List Matcher Verdict

/-! ### The two operators -/

/-- The operators that make chains. -/
inductive Op where
  | or
  | and

namespace Op

/-- The combination. -/
def mk : Op → List Matcher → Matcher
  | or => .or
  | and => .and

/-- The binding strength. -/
def prec : Op → ℕ
  | or => 1
  | and => 2

/-- What is printed between two operands. -/
def sep : Op → Text
  | or => " || ".toList
  | and => " && ".toList

/-- What is read between two operands. -/
def tok : Op → Tok
  | or => .or
  | and => .and

/-- The verdict of the combination. -/
def verdict : Op → List Verdict → Verdict
  | or => .any
  | and => .all

variable (op : Op) (ms : List Matcher)

theorem prec_mk : Query.prec (op.mk ms) = op.prec := by cases op <;> rfl

theorem fmtBody_mk : fmtBody (op.mk ms) = fmtJoin op.sep op.prec ms := by cases op <;> rfl

theorem bodyLevels_mk : bodyLevels (op.mk ms) = maxLevels op.prec ms := by cases op <;> rfl

theorem eval_mk (f : Atom → MatchResult) :
    (op.mk ms).eval f = op.verdict (ms.map (eval f)) := by
  cases op
  · exact eval_or f ms
  · exact eval_and f ms

theorem verdict_singleton (v : Verdict) : op.verdict [v] = v := by
  cases op
  · exact any_singleton v
  · exact all_singleton v

theorem verdict_map_verdict (ls : List (List Verdict)) :
    op.verdict (ls.map op.verdict) = op.verdict ls.flatten := by
  cases op
  · exact any_map_any ls
  · exact all_map_all ls

end Op

/-- The operands that a member adds to a chain of the operator. -/
def terms : Op → Matcher → List Matcher
  | .or, .or ms => ms
  | .and, .and ms => ms
  | _, m => [m]

/-- A member is a chain of the operator, or it is one operand. -/
theorem terms_cases (op : Op) (m : Matcher) :
    m = op.mk (terms op m) ∨ terms op m = [m] ∧ prec m ≠ op.prec := by
  cases op <;> cases m <;> simp [terms, Op.mk, prec, Op.prec]

/-! ### Flattening -/

mutual

/-- Chains within chains of the same operator are made one chain. -/
def flat : Matcher → Matcher
  | .atom a => .atom a
  | .or ms => .or (flatAll .or ms)
  | .and ms => .and (flatAll .and ms)
  | .not m => .not (flat m)

/-- The operands of a chain after flattening. -/
def flatAll (op : Op) : List Matcher → List Matcher
  | [] => []
  | m :: ms => terms op (flat m) ++ flatAll op ms

end

mutual

/-- The atoms of a matcher. -/
def atoms : Matcher → List Atom
  | .atom a => [a]
  | .or ms => atomsAll ms
  | .and ms => atomsAll ms
  | .not m => atoms m

/-- The atoms of several matchers. -/
def atomsAll : List Matcher → List Atom
  | [] => []
  | m :: ms => atoms m ++ atomsAll ms

end

/-- **A flat matcher**: no operand of a chain is a chain of the same operator. -/
inductive Flat : Matcher → Prop
  | atom (a : Atom) : Flat (.atom a)
  | or {ms : List Matcher} (hlen : 2 ≤ ms.length) (h : ∀ m ∈ ms, Flat m)
      (hprec : ∀ m ∈ ms, prec m ≠ 1) : Flat (.or ms)
  | and {ms : List Matcher} (hlen : 2 ≤ ms.length) (h : ∀ m ∈ ms, Flat m)
      (hprec : ∀ m ∈ ms, prec m ≠ 2) : Flat (.and ms)
  | not {m : Matcher} (h : Flat m) : Flat (.not m)

variable {op : Op} {m x : Matcher} {ms : List Matcher}

theorem flatAll_eq (op : Op) (ms : List Matcher) :
    flatAll op ms = ms.flatMap fun m => terms op (flat m) := by
  induction ms with
  | nil => rfl
  | cons m ms ih => rw [flatAll, ih, flatMap_cons]

theorem atomsAll_eq (ms : List Matcher) : atomsAll ms = ms.flatMap atoms := by
  induction ms with
  | nil => rfl
  | cons m ms ih => rw [atomsAll, ih, flatMap_cons]

theorem prec_flat (m : Matcher) : prec (flat m) = prec m := by
  cases m <;> rfl

/-! #### It means the same -/

theorem verdict_terms (f : Atom → MatchResult) (op : Op) (m : Matcher) :
    op.verdict ((terms op m).map (eval f)) = m.eval f := by
  rcases terms_cases op m with h | ⟨h, -⟩
  · rw [← op.eval_mk, ← h]
  · rw [h, map_singleton, op.verdict_singleton]

theorem verdict_flatAll {f : Atom → MatchResult} (op : Op)
    (h : ∀ m ∈ ms, (flat m).eval f = m.eval f) :
    op.verdict ((flatAll op ms).map (eval f)) = op.verdict (ms.map (eval f)) := by
  rw [flatAll_eq, map_flatMap, flatMap_def, ← op.verdict_map_verdict, map_map]
  refine congrArg op.verdict (map_congr_left fun m hm => ?_)
  exact (verdict_terms f op (flat m)).trans (h m hm)

/-- **Flattening does not change the verdict.** -/
theorem eval_flat (f : Atom → MatchResult) (m : Matcher) : (flat m).eval f = m.eval f := by
  induction m with
  | atom a => rfl
  | or ms ih =>
    rw [flat, eval_or, eval_or]
    exact verdict_flatAll .or ih
  | and ms ih =>
    rw [flat, eval_and, eval_and]
    exact verdict_flatAll .and ih
  | not m ih => rw [flat, eval, eval, ih]

theorem atoms_terms (op : Op) (m : Matcher) : (terms op m).flatMap atoms = atoms m := by
  rcases terms_cases op m with h | ⟨h, -⟩
  · rw [← atomsAll_eq]
    generalize terms op m = l at h
    subst h
    cases op <;> rfl
  · rw [h, flatMap_singleton]

theorem atomsAll_flatAll (h : ∀ m ∈ ms, atoms (flat m) = atoms m) :
    atomsAll (flatAll op ms) = atomsAll ms := by
  rw [atomsAll_eq, atomsAll_eq, flatAll_eq, flatMap_assoc]
  exact flatMap_congr fun m hm => (atoms_terms op (flat m)).trans (h m hm)

theorem atoms_flat (m : Matcher) : atoms (flat m) = atoms m := by
  induction m with
  | atom a => rfl
  | or ms ih => exact atomsAll_flatAll ih
  | and ms ih => exact atomsAll_flatAll ih
  | not m ih => exact ih

/-! #### It needs no more levels -/

theorem levels_terms (hx : x ∈ terms op m) : levels x op.prec ≤ levels m op.prec := by
  rcases terms_cases op m with h | ⟨h, -⟩
  · have hm : levels m op.prec = maxLevels op.prec (terms op m) := by
      generalize terms op m = l at h
      subst h
      rw [levels, parenLevels, op.prec_mk, if_neg (lt_irrefl _), op.bodyLevels_mk]
    rw [hm]
    exact maxLevels_le.mp le_rfl x hx
  · rw [h, mem_singleton] at hx
    rw [hx]

theorem maxLevels_flatAll (op : Op) (h : ∀ m ∈ ms, bodyLevels (flat m) ≤ bodyLevels m) :
    maxLevels op.prec (flatAll op ms) ≤ maxLevels op.prec ms := by
  refine maxLevels_le.mpr fun x hx => ?_
  rw [flatAll_eq, mem_flatMap] at hx
  obtain ⟨m, hm, hx⟩ := hx
  have hflat : levels (flat m) op.prec ≤ levels m op.prec := by
    have := h m hm
    rw [levels, levels, parenLevels, parenLevels, prec_flat]
    split <;> omega
  exact (levels_terms hx).trans (hflat.trans (maxLevels_le.mp le_rfl m hm))

theorem bodyLevels_flat (m : Matcher) : bodyLevels (flat m) ≤ bodyLevels m := by
  induction m with
  | atom a => exact le_rfl
  | or ms ih => exact maxLevels_flatAll .or ih
  | and ms ih => exact maxLevels_flatAll .and ih
  | not m ih =>
    rw [flat, bodyLevels, bodyLevels, parenLevels, parenLevels, prec_flat]
    split <;> omega

theorem levels_flat (m : Matcher) (k : ℕ) : levels (flat m) k ≤ levels m k := by
  have := bodyLevels_flat m
  rw [levels, levels, parenLevels, parenLevels, prec_flat]
  split <;> omega

/-! #### It is flat -/

theorem terms_ne_nil (h : Flat m) : terms op m ≠ [] := by
  cases h <;> cases op <;> simp only [terms, ne_eq, cons_ne_nil, not_false_eq_true]
  all_goals
    next hlen _ _ => exact ne_nil_of_length_pos (lt_of_lt_of_le zero_lt_two hlen)

theorem flat_of_mem_terms (h : Flat m) (hx : x ∈ terms op m) : Flat x ∧ prec x ≠ op.prec := by
  rcases terms_cases op m with heq | ⟨heq, hprec⟩
  · cases op with
    | or =>
      rw [heq] at h
      cases h with
      | or _ h hprec => exact ⟨h x hx, hprec x hx⟩
    | and =>
      rw [heq] at h
      cases h with
      | and _ h hprec => exact ⟨h x hx, hprec x hx⟩
  · rw [heq, mem_singleton] at hx
    exact hx ▸ ⟨h, hprec⟩

/-- Flattening makes a chain longer. -/
theorem length_le_flatAll (h : ∀ m ∈ ms, Flat (flat m)) : ms.length ≤ (flatAll op ms).length := by
  induction ms with
  | nil => exact le_rfl
  | cons m ms ih =>
    have hm : 0 < (terms op (flat m)).length :=
      length_pos_iff.mpr (terms_ne_nil (h m mem_cons_self))
    have := ih fun m hm => h m (mem_cons_of_mem _ hm)
    rw [flatAll, length_append, length_cons]
    omega

theorem flat_of_mem_flatAll (h : ∀ m ∈ ms, Flat (flat m)) (hx : x ∈ flatAll op ms) :
    Flat x ∧ prec x ≠ op.prec := by
  rw [flatAll_eq, mem_flatMap] at hx
  obtain ⟨m, hm, hx⟩ := hx
  exact flat_of_mem_terms (h m hm) hx

/-- **Flattening makes flat.** -/
theorem flat_flat (h : Legible m) : Flat (flat m) := by
  induction h with
  | atom => exact .atom _
  | or hlen _ ih =>
    exact .or (hlen.trans (length_le_flatAll ih)) (fun x hx => (flat_of_mem_flatAll ih hx).1)
      fun x hx => (flat_of_mem_flatAll ih hx).2
  | and hlen _ ih =>
    exact .and (hlen.trans (length_le_flatAll ih)) (fun x hx => (flat_of_mem_flatAll ih hx).1)
      fun x hx => (flat_of_mem_flatAll ih hx).2
  | not _ ih => exact .not ih

/-! #### It is printed alike -/

theorem fmtJoin_eq (sep : Text) (k : ℕ) (ms : List Matcher) :
    fmtJoin sep k ms = sep.intercalate (ms.map fun m => fmtPrec m k) := by
  induction ms with
  | nil => rfl
  | cons m ms ih =>
    cases ms with
    | nil => rw [fmtJoin, map_singleton, intercalate_singleton, fmtPrec]
    | cons m' ms =>
      rw [fmtJoin, ih]
      rfl

theorem fmtJoin_terms (op : Op) (m : Matcher) :
    op.sep.intercalate ((terms op m).map fun m => fmtPrec m op.prec) = fmtPrec m op.prec := by
  rcases terms_cases op m with h | ⟨h, -⟩
  · rw [← fmtJoin_eq]
    generalize terms op m = l at h
    subst h
    rw [fmtPrec, paren, op.prec_mk, if_neg (lt_irrefl _), op.fmtBody_mk]
  · rw [h, map_singleton, intercalate_singleton]

theorem fmtJoin_flatAll (op : Op) (hflat : ∀ m ∈ ms, Flat (flat m))
    (h : ∀ m ∈ ms, fmtBody (flat m) = fmtBody m) :
    fmtJoin op.sep op.prec (flatAll op ms) = fmtJoin op.sep op.prec ms := by
  rw [fmtJoin_eq, fmtJoin_eq, flatAll_eq, map_flatMap, flatMap_def,
    ← intercalate_map_intercalate, map_map]
  · refine congrArg _ (map_congr_left fun m hm => ?_)
    refine (fmtJoin_terms op (flat m)).trans ?_
    rw [fmtPrec, fmtPrec, paren, paren, prec_flat, h m hm]
  · intro l hl
    obtain ⟨m, hm, rfl⟩ := mem_map.mp hl
    exact fun hnil => terms_ne_nil (hflat m hm) (map_eq_nil_iff.mp hnil)

/-- **Flattening does not change the text.** -/
theorem fmtBody_flat (h : Legible m) : fmtBody (flat m) = fmtBody m := by
  induction h with
  | atom => rfl
  | or _ h ih => exact fmtJoin_flatAll .or (fun m hm => flat_flat (h m hm)) ih
  | and _ h ih => exact fmtJoin_flatAll .and (fun m hm => flat_flat (h m hm)) ih
  | not _ ih => rw [flat, fmtBody, fmtBody, paren, paren, prec_flat, ih]

end Heph.Query
