import Heph.Query.Query

/-!
# What a query is read as

Two things are known of a matcher that was read from a query. Its atoms have been checked
on the way in, and a combination has at least two members (`Query.Legible`). And it is
not nested too deeply: `Query.levels` counts the levels that the parser needs for the
printed form, which has no more parentheses than the query had.
-/

namespace Heph

open List

/-- A reference to a target, relative or not, is read as a well-formed address. -/
theorem wellFormed_of_parseAddrWithBase {input : Text} {base : PkgBuf} {a : Addr}
    (h : parseAddrWithBase input base = .ok a) : a.WellFormed := by
  unfold parseAddrWithBase at h
  split at h
  · exact Addr.wellFormed_of_parseAddr h
  split at h
  · exact Addr.wellFormed_of_parseAddr h
  split at h
  · split at h
    · split at h
      · simp at h
      · exact Addr.wellFormed_of_parseAddr h
    · simp at h
  · simp at h

namespace Query

/-! ### Legible matchers -/

/-- What is checked of an atom when it is read. -/
def LegibleAtom : Atom → Prop
  | .addr a => a.WellFormed
  | .label l => validateLabel l = .ok ()
  | .driver d => d ≠ []
  | .package p => Normal p
  | .packagePrefix p => Normal p
  | .treeOutputTo p => Normal p

/-- **A matcher that can be the reading of a query.** -/
inductive Legible : Matcher → Prop
  | atom {a : Atom} (h : LegibleAtom a) : Legible (.atom a)
  | or {ms : List Matcher} (hlen : 2 ≤ ms.length) (h : ∀ m ∈ ms, Legible m) : Legible (.or ms)
  | and {ms : List Matcher} (hlen : 2 ≤ ms.length) (h : ∀ m ∈ ms, Legible m) : Legible (.and ms)
  | not {m : Matcher} (h : Legible m) : Legible (.not m)

/-! ### Levels of nesting -/

/-- Parentheses are one level more. -/
def parenLevels (m : Matcher) (parentPrec n : ℕ) : ℕ := if prec m < parentPrec then n + 1 else n

mutual

/-- The levels that the parser needs for what `fmtBody` prints. -/
def bodyLevels : Matcher → ℕ
  | .atom _ => 1
  | .and ms => maxLevels 2 ms
  | .or ms => maxLevels 1 ms
  | .not m => parenLevels m 3 (bodyLevels m) + 1

/-- The most that one of the members needs. -/
def maxLevels (childPrec : ℕ) : List Matcher → ℕ
  | [] => 0
  | m :: ms => max (parenLevels m childPrec (bodyLevels m)) (maxLevels childPrec ms)

end

/-- The levels that the parser needs for what `fmtPrec` prints. -/
def levels (m : Matcher) (parentPrec : ℕ) : ℕ := parenLevels m parentPrec (bodyLevels m)

variable {m : Matcher} {ms : List Matcher} {n k l : ℕ} {base : PkgBuf} {toks rest : List Tok}
  {a : Atom} {mk : PkgBuf → Atom} {P : Reader Matcher} {sep : Tok} {Q : Matcher → Prop}
  {func arg : Text}

theorem maxLevels_le : maxLevels k ms ≤ n ↔ ∀ m ∈ ms, levels m k ≤ n := by
  induction ms with
  | nil => simp [maxLevels]
  | cons m ms ih => rw [maxLevels, Nat.max_le, ih, forall_mem_cons, levels]

theorem levels_mono (h : k ≤ l) : levels m k ≤ levels m l := by
  unfold levels parenLevels
  split_ifs <;> omega

theorem levels_le_succ (m : Matcher) (k l : ℕ) : levels m k ≤ levels m l + 1 := by
  unfold levels parenLevels
  split_ifs <;> omega

/-! ### The parser returns legible matchers -/

theorem pkgRef_ok {b rel : Text} (h : pkgRef mk b rel = .ok a)
    (hmk : ∀ p, Normal p → LegibleAtom (mk p)) : LegibleAtom a := by
  unfold pkgRef at h
  split at h
  · simp at h
  · next p hp =>
    cases h
    exact hmk p (normal_of_joinRelCheckedPkg hp)

theorem parsePkgRef_ok {input : Text} (h : parsePkgRef input base = .ok a) : LegibleAtom a := by
  unfold parsePkgRef at h
  split at h
  · split at h
    · cases h
      exact ⟨[], by simp, rfl⟩
    · split at h
      · exact pkgRef_ok h fun _ hp => hp
      · exact pkgRef_ok h fun _ hp => hp
  · split at h
    · split at h
      · exact pkgRef_ok h fun _ hp => hp
      · exact pkgRef_ok h fun _ hp => hp
    · simp at h

theorem pkgArg_ok (h : pkgArg mk func arg = .ok a)
    (hmk : ∀ p, Normal p → LegibleAtom (mk p)) : LegibleAtom a := by
  unfold pkgArg at h
  split at h
  · simp at h
  · next p hp =>
    cases h
    exact hmk p (normal_of_joinRelCheckedPkg hp)

theorem funcToMatcher_ok (h : funcToMatcher base func arg = .ok a) :
    LegibleAtom a := by
  unfold funcToMatcher at h
  split at h
  · split at h
    · simp at h
    · next hl =>
      cases h
      exact hl
  split at h
  · exact pkgArg_ok h fun _ hp => hp
  split at h
  · split at h
    · simp at h
    · next addr ha =>
      cases h
      exact wellFormed_of_parseAddrWithBase ha
  split at h
  · exact pkgArg_ok h fun _ hp => hp
  split at h
  · exact pkgArg_ok h fun _ hp => hp
  · simp at h

theorem patternToMatcher_ok {word : Text} (h : patternToMatcher base word = .ok a) :
    LegibleAtom a := by
  unfold patternToMatcher at h
  split at h
  · split at h
    · simp at h
    · next addr ha =>
      cases h
      exact wellFormed_of_parseAddrWithBase ha
  · split at h
    · simp at h
    · next hp =>
      cases h
      exact parsePkgRef_ok hp

theorem callToMatcher_ok {func : Text} {arg : Option Text}
    (h : callToMatcher base func arg = .ok a) : LegibleAtom a := by
  unfold callToMatcher at h
  split at h
  · split at h
    · next d hd =>
      cases h
      show d ≠ []
      simpa using (Option.filter_eq_some_iff.mp hd).2
    · simp at h
  · exact funcToMatcher_ok h

/-- An atom is legible, or it is a group. -/
theorem parseAtom_ok (h : parseAtom base P toks = .ok (rest, m)) :
    (∃ a, m = .atom a ∧ LegibleAtom a) ∨ ∃ toks' rest', P toks' = .ok (rest', m) := by
  unfold parseAtom at h
  split at h
  · simp at h
  · obtain ⟨⟨r₁, m₁⟩, hP, h⟩ := bind_ok.mp h
    obtain ⟨⟨r₂, u⟩, -, h⟩ := bind_ok.mp h
    cases h
    exact .inr ⟨_, _, hP⟩
  · split at h
    · obtain ⟨⟨r₁, arg⟩, -, h⟩ := bind_ok.mp h
      obtain ⟨⟨r₂, u⟩, -, h⟩ := bind_ok.mp h
      obtain ⟨a, ha, h⟩ := bind_ok.mp h
      cases h
      exact .inl ⟨a, rfl, callToMatcher_ok ha⟩
    · obtain ⟨a, ha, h⟩ := bind_ok.mp h
      cases h
      exact .inl ⟨a, rfl, patternToMatcher_ok ha⟩
  · simp at h

section

variable (hP : ∀ toks rest m, P toks = .ok (rest, m) → Q m)

include hP

/-- The operands of a loop are read by the parser of the operands. -/
theorem parseLoop_ok {acc terms : List Matcher}
    (hacc : ∀ m ∈ acc, Q m) (h : parseLoop sep P n acc toks = .ok (rest, terms)) :
    (∀ m ∈ terms, Q m) ∧ acc.length ≤ terms.length := by
  induction n generalizing acc toks with
  | zero =>
    cases h
    exact ⟨hacc, le_rfl⟩
  | succ n ih =>
    rw [parseLoop] at h
    split at h
    · obtain ⟨⟨r, m⟩, hm, h⟩ := bind_ok.mp h
      have hacc' : ∀ t ∈ acc ++ [m], Q t := by
        intro t ht
        rcases mem_append.mp ht with ht | ht
        · exact hacc t ht
        · exact mem_singleton.mp ht ▸ hP _ _ m hm
      obtain ⟨hQ, hlen⟩ := ih hacc' h
      rw [length_append] at hlen
      exact ⟨hQ, by omega⟩
    · cases h
      exact ⟨hacc, le_rfl⟩

/-- **A chain is one operand, or a combination of at least two.** -/
theorem parseChain_ok {mk : List Matcher → Matcher}
    (h : parseChain sep mk P toks = .ok (rest, m)) :
    Q m ∨ ∃ terms, m = mk terms ∧ 2 ≤ terms.length ∧ ∀ t ∈ terms, Q t := by
  obtain ⟨⟨r, first⟩, hfirst, h⟩ := bind_ok.mp h
  have hQ := hP _ _ first hfirst
  dsimp only at h
  split at h
  · next hsep =>
    obtain ⟨⟨r', terms⟩, hloop, h⟩ := bind_ok.mp h
    cases h
    -- the operator is there, so the loop runs at least once
    obtain ⟨t, r, rfl⟩ : ∃ t l, r = t :: l := by
      cases r with
      | nil => simp at hsep
      | cons t l => exact ⟨t, l, rfl⟩
    rw [length_cons, parseLoop, if_pos hsep] at hloop
    obtain ⟨⟨r'', m⟩, hm, hloop⟩ := bind_ok.mp hloop
    obtain ⟨hterms, hlen⟩ := parseLoop_ok hP
      (forall_mem_append.mpr ⟨by simpa using hQ, by simpa using hP _ _ m hm⟩) hloop
    exact .inr ⟨terms, rfl, hlen, hterms⟩
  · cases h
    exact .inl hQ

end

theorem parseOr_ok (hP : ∀ toks rest m, P toks = .ok (rest, m) → Legible m ∧ levels m 3 ≤ n)
    (h : parseOr P toks = .ok (rest, m)) : Legible m ∧ levels m 1 ≤ n := by
  have hand : ∀ toks rest m, parseAnd P toks = .ok (rest, m) → Legible m ∧ levels m 2 ≤ n := by
    intro toks rest m h
    rcases parseChain_ok hP h with ⟨hm, hlev⟩ | ⟨terms, rfl, hlen, hterms⟩
    · exact ⟨hm, (levels_mono (by decide)).trans hlev⟩
    · exact ⟨.and hlen fun t ht => (hterms t ht).1, maxLevels_le.mpr fun t ht =>
        (levels_mono (by decide)).trans (hterms t ht).2⟩
  rcases parseChain_ok hand h with ⟨hm, hlev⟩ | ⟨terms, rfl, hlen, hterms⟩
  · exact ⟨hm, (levels_mono (by decide)).trans hlev⟩
  · exact ⟨.or hlen fun t ht => (hterms t ht).1, maxLevels_le.mpr fun t ht =>
      (levels_mono (by decide)).trans (hterms t ht).2⟩

/-- **What is read within `n` levels is legible, and needs at most `n` of them.** -/
theorem parseNot_ok (h : parseNot base n toks = .ok (rest, m)) : Legible m ∧ levels m 3 ≤ n := by
  induction n generalizing toks rest m with
  | zero => simp [parseNot] at h
  | succ n ih =>
    rw [parseNot] at h
    split at h
    · obtain ⟨⟨r, inner⟩, hinner, h⟩ := bind_ok.mp h
      cases h
      obtain ⟨hm, hlev⟩ := ih hinner
      exact ⟨.not hm, Nat.succ_le_succ hlev⟩
    · rcases parseAtom_ok h with ⟨a, rfl, ha⟩ | ⟨toks', rest', hgroup⟩
      · exact ⟨.atom ha, Nat.succ_le_succ (Nat.zero_le n)⟩
      · obtain ⟨hm, hlev⟩ := parseOr_ok (fun _ _ _ => ih) hgroup
        exact ⟨hm, (levels_le_succ m 3 1).trans (Nat.succ_le_succ hlev)⟩

/-- **A query is read as a legible matcher** that is not nested too deeply to be printed and
read again. -/
theorem legible_of_parse {q : Text} (h : parse q base = .ok m) :
    Legible m ∧ levels m 1 ≤ maxNestingDepth := by
  unfold parse at h
  split at h
  · simp at h
  · obtain ⟨⟨rest, m'⟩, hor, h⟩ := bind_ok.mp h
    dsimp only at h
    split at h
    · cases h
      exact parseOr_ok (fun _ _ _ => parseNot_ok) hor
    · simp at h

end Query

end Heph
