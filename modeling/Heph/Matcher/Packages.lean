import Heph.Lib.Distinct
import Heph.Lib.Traverse
import Heph.Matcher.Matcher

/-!
# Finding packages

Before targets are looked for, the packages that may hold them are. Each provider is asked for its
packages, with a **prefix** that the matcher allows to narrow the question down to: a provider need
not heed it. What a provider answers is sorted, the answers are put one after the other, and of
those the packages are kept that the matcher does not refuse.

Nothing is lost: a package that has a target the matcher says yes to lies under the prefix
(`Matcher.hasPrefix_narrowingPrefix`) and is not refused
(`Matcher.matchesPkg_ne_no`), so it is in the list, once, whatever the order of the answers
(`packages_complete`).
-/

namespace Heph

open List Verdict MatchResult Below

/-! ### The prefix -/

/-- `Iterator::max_by_key`: the last one of those with the largest key. -/
def maxByKey {α : Type} (key : α → ℕ) : List α → Option α
  | [] => none
  | a :: l => some (l.foldl (fun best b => if key best ≤ key b then b else best) a)

theorem mem_of_maxByKey {α : Type} {key : α → ℕ} {l : List α} {a : α}
    (h : maxByKey key l = some a) : a ∈ l := by
  cases l with
  | nil => simp [maxByKey] at h
  | cons b l =>
    rw [maxByKey, Option.some.injEq] at h
    subst h
    induction l generalizing b with
    | nil => exact mem_cons_self
    | cons c l ih =>
      rw [foldl_cons]
      split
      · exact mem_cons_of_mem _ (ih c)
      · rcases mem_cons.mp (ih b) with h | h
        · rw [h]
          exact mem_cons_self
        · exact mem_cons_of_mem _ (mem_cons_of_mem _ h)

namespace Matcher

mutual

/-- `narrowing_prefix`. -/
def narrowingPrefix : Matcher → PkgBuf
  | atom (.package p) | atom (.packagePrefix p) => p
  | atom (.addr a) => a.package
  | and ms => (maxByKey (fun p => (Addr.utf8 p).length) (narrowingPrefixes ms)).getD []
  | _ => []

/-- The prefixes of the arms. -/
def narrowingPrefixes : List Matcher → List PkgBuf
  | [] => []
  | m :: ms => narrowingPrefix m :: narrowingPrefixes ms

end

theorem narrowingPrefixes_eq (ms : List Matcher) :
    narrowingPrefixes ms = ms.map narrowingPrefix := by
  induction ms with
  | nil => rfl
  | cons m ms ih => rw [narrowingPrefixes, ih, map_cons]

variable {addr : Addr} {facts : ListedFacts} {m : Matcher}

theorem hasPrefix_nil (pkg : PkgBuf) : hasPrefix pkg [] = true := rfl

theorem hasPrefix_self (pkg : PkgBuf) : hasPrefix pkg pkg = true := by
  cases pkg with
  | nil => rfl
  | cons c p =>
    have h : (c :: p).dropPrefix? (c :: p) = some [] :=
      dropPrefix?_eq_some_iff.mpr ⟨c :: p, by simp, by simp⟩
    simp [hasPrefix, h]

/-- The package of a target that an atom says yes to lies under the prefix. -/
theorem hasPrefix_narrowingPrefix_atom {a : Atom} (h : listedAtom addr facts a = .yes) :
    hasPrefix addr.package (narrowingPrefix (atom a)) = true := by
  cases a with
  | addr a =>
    obtain rfl : a = addr := by simpa [listedAtom, ofBool] using h
    exact hasPrefix_self a.package
  | package p =>
    obtain rfl : addr.package = p := by simpa [listedAtom, ofBool] using h
    exact hasPrefix_self addr.package
  | packagePrefix p => simpa [listedAtom, ofBool, narrowingPrefix] using h
  | label | driver | treeOutputTo => exact hasPrefix_nil _

/-- **The prefix is sound**: the package of a target that the matcher says yes to lies under it. -/
theorem hasPrefix_narrowingPrefix (m : Matcher) (h : m.matchesListed addr facts = .yes) :
    hasPrefix addr.package m.narrowingPrefix = true := by
  induction m with
  | atom a => exact hasPrefix_narrowingPrefix_atom h
  | or ms ih => exact hasPrefix_nil _
  | not m ih => exact hasPrefix_nil _
  | and ms ih =>
    rw [narrowingPrefix, narrowingPrefixes_eq]
    cases hmax : maxByKey (fun p => (Addr.utf8 p).length) (ms.map narrowingPrefix) with
    | none => exact hasPrefix_nil _
    | some p =>
      -- whichever arm was chosen, it says yes
      obtain ⟨m, hm, rfl⟩ := mem_map.mp (mem_of_maxByKey hmax)
      refine ih m hm ?_
      rw [matchesListed, eval_and] at h
      exact all_eq_yes.mp h _ (mem_map_of_mem hm)

/-! ### The packages that are refused -/

theorem pkgAtom_below_listedAtom (addr : Addr) (facts : ListedFacts) (a : Atom) :
    (pkgAtom addr.package a).Below (listedAtom addr facts a) := by
  cases a with
  | label | driver => exact shrug _
  | addr a =>
    rw [pkgAtom]
    split
    · exact shrug _
    · next hp =>
      intro _
      refine (if_neg ?_).symm
      rw [decide_eq_true_eq]
      rintro rfl
      exact hp rfl
  | treeOutputTo p =>
    rw [pkgAtom, listedAtom]
    split
    · exact shrug _
    · simpa using refl _
  | package | packagePrefix => exact refl _

/-- **A package that is refused has no target the matcher says yes to.** -/
theorem matchesPkg_ne_no (h : m.matchesListed addr facts = .yes) :
    m.matchesPkg addr.package ≠ .no := by
  intro hno
  have hbelow := eval_below (pkgAtom_below_listedAtom addr facts) m
  have heq : m.matchesPkg addr.package = m.matchesListed addr facts :=
    hbelow (show m.matchesPkg addr.package ≠ .shrug by rw [hno]; simp)
  rw [hno, h] at heq
  cases heq

/-- `scoped`: the matcher is not the one for all packages. -/
def isScoped : Matcher → Bool
  | atom (.packagePrefix []) => false
  | _ => true

/-- The matcher that is not asked refuses no package. -/
theorem matchesPkg_of_not_isScoped (h : m.isScoped = false) (pkg : PkgBuf) :
    m.matchesPkg pkg ≠ .no := by
  unfold isScoped at h
  split at h
  · simp [matchesPkg, eval, pkgAtom, ofBool, hasPrefix_nil]
  · simp at h

end Matcher

/-! ### The list -/

/-- The loop of `merge_packages`, with the packages it has seen. -/
def mergeLoop (m : Matcher) (seen : List Text) : List Text → List Text
  | [] => []
  | p :: rest =>
    if p ∈ seen then mergeLoop m seen rest
    else if m.isScoped && m.matchesPkg p == .no then mergeLoop m (p :: seen) rest
    else p :: mergeLoop m (p :: seen) rest

/-- `merge_packages`. -/
def mergePackages (m : Matcher) (perProvider : List (List Text)) : List Text :=
  mergeLoop m [] perProvider.flatten

/-- A provider, by its `list_packages`: it may fail, at once or at any of its answers. -/
abbrev PackageLister (ε : Type) := PkgBuf → Except ε (List (Except ε PkgBuf))

variable {ε : Type} {m : Matcher} {providers : List (PackageLister ε)}
  {answers : List (List PkgBuf)}

variable (m : Matcher) (providers : List (PackageLister ε))

/-- `Engine::provider_packages`. -/
def providerPackages :
    List (Except ε (List Text)) :=
  providers.map fun listPackages => do
    let it ← listPackages m.narrowingPrefix
    let pkgs ← it.mapM id
    -- the order is that of the bytes, which is that of the characters
    pure (sortDedup pkgs)

/-- `Engine::packages`. -/
def packages : Except ε (List Text) := do
  let perProvider ← (providerPackages m providers).mapM id
  pure (mergePackages m perProvider)

variable {providers}

/-! ### What is in the list -/

theorem mergeLoop_cons (seen : List Text) (p : Text) (rest : List Text) :
    mergeLoop m seen (p :: rest) =
      if p ∈ seen then mergeLoop m seen rest
      else if m.isScoped && m.matchesPkg p == .no then mergeLoop m (p :: seen) rest
      else p :: mergeLoop m (p :: seen) rest := rfl

/-- The loop keeps the first of each, and then those that are not refused. -/
theorem mergeLoop_eq (seen l : List Text) :
    mergeLoop m seen l =
      (firsts id seen l).filter fun p => !(m.isScoped && m.matchesPkg p == .no) := by
  induction l generalizing seen with
  | nil => rfl
  | cons p l ih =>
    rw [mergeLoop_cons, firsts, id]
    by_cases hp : p ∈ seen
    · rw [if_pos hp, if_pos hp, ih]
    · rw [if_neg hp, if_neg hp, filter_cons, ih]
      by_cases hno : (m.isScoped && m.matchesPkg p == .no) = true
      · simp only [hno, if_true, Bool.not_true, Bool.false_eq_true, if_false]
      · simp only [hno, Bool.not_false, if_true, Bool.false_eq_true, if_false]

theorem nodup_mergePackages (perProvider : List (List Text)) :
    (mergePackages m perProvider).Nodup := by
  rw [mergePackages, mergeLoop_eq]
  have := nodup_map_firsts id [] perProvider.flatten
  rw [map_id] at this
  exact this.filter _

variable {m}

/-- **What is in the list**: what some provider has answered and the matcher does not refuse. -/
theorem mem_mergePackages {perProvider : List (List Text)} {p : Text} :
    p ∈ mergePackages m perProvider ↔
      (∃ block ∈ perProvider, p ∈ block) ∧ m.matchesPkg p ≠ .no := by
  have hmem : p ∈ (firsts id [] perProvider.flatten).map id ↔
      p ∈ perProvider.flatten.map id ∧ p ∉ [] := mem_map_firsts id
  rw [map_id, map_id] at hmem
  rw [mergePackages, mergeLoop_eq, mem_filter, hmem]
  cases hs : m.isScoped with
  | true => simp
  | false => simpa using fun _ _ _ => Matcher.matchesPkg_of_not_isScoped hs p

/-- The provider owns the packages: under each prefix it answers with at least those of them that
lie there. -/
def PackageLister.Owns (listPackages : PackageLister ε) (owned : Set PkgBuf) : Prop :=
  ∀ under, ∃ answer : List PkgBuf, listPackages under = .ok (answer.map .ok) ∧
    ∀ p ∈ owned, hasPrefix p under = true → p ∈ answer

/-- Two providers answer alike, but for the order and for how often a package is listed. -/
def PackageLister.Rearranged (listPackages listPackages' : PackageLister ε) : Prop :=
  ∀ under, ∃ answer answer' : List PkgBuf, listPackages under = .ok (answer.map .ok) ∧
    listPackages' under = .ok (answer'.map .ok) ∧ ∀ p, p ∈ answer ↔ p ∈ answer'

theorem mapM_ok (l : List PkgBuf) :
    (l.map (Except.ok : PkgBuf → Except ε PkgBuf)).mapM id = .ok l := by
  induction l with
  | nil => rfl
  | cons a l ih =>
    rw [map_cons, mapM_cons, ih]
    rfl

/-- What the providers have answered, each on its own. -/
def Answered (m : Matcher) : List (PackageLister ε) → List (List PkgBuf) → Prop :=
  List.Forall₂ fun listPackages answer => listPackages m.narrowingPrefix = .ok (answer.map .ok)

theorem Answered.packages (h : Answered m providers answers) :
    packages m providers = .ok (mergePackages m (answers.map sortDedup)) := by
  have hblocks : (providerPackages m providers).mapM id = .ok (answers.map sortDedup) := by
    induction h with
    | nil => rfl
    | @cons listPackages answer providers answers hhead _ ih =>
      have hblock : (do
          let it ← listPackages m.narrowingPrefix
          let pkgs ← it.mapM id
          pure (sortDedup pkgs)) = .ok (sortDedup answer) := by
        rw [hhead]
        exact bind_ok.mpr ⟨_, rfl, bind_ok.mpr ⟨answer, mapM_ok answer, rfl⟩⟩
      rw [providerPackages] at ih
      rw [providerPackages, map_cons, mapM_cons, ih]
      exact bind_ok.mpr ⟨_, hblock, rfl⟩
  rw [Heph.packages, hblocks]
  rfl

/-- Providers that own packages answer, with all that are asked for. -/
theorem exists_answered (m : Matcher)
    {owned : List (Set PkgBuf)} (h : List.Forall₂ PackageLister.Owns providers owned) :
    ∃ answers, Answered m providers answers ∧ ∀ o ∈ owned, ∀ p ∈ o,
      hasPrefix p m.narrowingPrefix = true → ∃ answer ∈ answers, p ∈ answer := by
  induction h with
  | nil => exact ⟨[], .nil, by simp⟩
  | @cons listPackages o providers owned hhead _ ih =>
    obtain ⟨answer, hanswer, hall⟩ := hhead m.narrowingPrefix
    obtain ⟨answers, hanswers, hrest⟩ := ih
    refine ⟨answer :: answers, .cons hanswer hanswers, ?_⟩
    intro o' ho' p hp hprefix
    rcases mem_cons.mp ho' with rfl | ho'
    · exact ⟨answer, mem_cons_self, hall p hp hprefix⟩
    · obtain ⟨answer', hmem, hp'⟩ := hrest o' ho' p hp hprefix
      exact ⟨answer', mem_cons_of_mem _ hmem, hp'⟩

/-- Providers that answer alike give the same blocks. -/
theorem Answered.rearranged {providers' : List (PackageLister ε)} (h : Answered m providers answers)
    (h' : List.Forall₂ PackageLister.Rearranged providers providers') :
    ∃ answers', Answered m providers' answers' ∧
      answers'.map sortDedup = answers.map sortDedup := by
  induction h' generalizing answers with
  | nil =>
    cases h
    exact ⟨[], .nil, rfl⟩
  | @cons listPackages listPackages' providers providers' hhead _ ih =>
    obtain ⟨answer, answers, hanswer, hrest, rfl⟩ := forall₂_cons_left_iff.mp h
    obtain ⟨a, a', ha, ha', hsame⟩ := hhead m.narrowingPrefix
    -- the answer of the first provider is the one it has given
    obtain rfl : a = answer := by
      have := Except.ok.inj (ha.symm.trans hanswer)
      exact map_injective_iff.mpr (fun _ _ => Except.ok.inj) this
    obtain ⟨answers', hanswers', heq⟩ := ih hrest
    refine ⟨a' :: answers', .cons ha' hanswers', ?_⟩
    rw [map_cons, map_cons, heq, sortDedup_congr hsame]

/-- **The search for packages is complete, and does not depend on the order of the answers.**
Whatever the matcher, and whatever else the providers list: the packages are listed, among them
each package of a provider with a target that the matcher may say yes to; none is listed twice and
none that the matcher refuses; and providers that answer alike in another order are listed alike. -/
theorem packages_complete (m : Matcher) (providers : List (PackageLister ε))
    (owned : List (Set PkgBuf)) (h : List.Forall₂ PackageLister.Owns providers owned) :
    ∃ l, packages m providers = .ok l ∧
      (∀ o ∈ owned, ∀ p ∈ o, ∀ addr facts, addr.package = p →
        m.matchesListed addr facts = .yes → p ∈ l) ∧
      l.Nodup ∧ (∀ p ∈ l, m.matchesPkg p ≠ .no) ∧
      ∀ providers', List.Forall₂ PackageLister.Rearranged providers providers' →
        packages m providers' = .ok l := by
  obtain ⟨answers, hanswered, hall⟩ := exists_answered m h
  refine ⟨_, hanswered.packages, ?_, nodup_mergePackages m _,
    fun p hp => (mem_mergePackages.mp hp).2, ?_⟩
  · rintro o ho p hp addr facts rfl hyes
    obtain ⟨answer, hanswer, hmem⟩ := hall o ho _ hp (m.hasPrefix_narrowingPrefix hyes)
    exact mem_mergePackages.mpr ⟨⟨sortDedup answer, mem_map_of_mem hanswer,
      mem_sortDedup.mpr hmem⟩, Matcher.matchesPkg_ne_no hyes⟩
  · intro providers' h'
    obtain ⟨answers', hanswered', heq⟩ := hanswered.rearranged h'
    rw [hanswered'.packages, heq]

/-- A provider that does not heed the prefix, and lists its packages in some order. -/
def unorderedLister : PackageLister ε := fun _ =>
  .ok (["b".toList, "a/x".toList, "a".toList, "b".toList].map .ok)

theorem packages_complete_unordered :
    ∃ l, packages (ε := Unit) (.atom (.packagePrefix "a".toList)) [unorderedLister] = .ok l ∧
      l = ["a".toList, "a/x".toList] ∧ l.Nodup := by
  have howns : (unorderedLister (ε := Unit)).Owns {"a/x".toList} := fun under =>
    ⟨_, rfl, by simp⟩
  obtain ⟨l, hl, -, hnodup, -⟩ := packages_complete (.atom (.packagePrefix "a".toList))
    [unorderedLister] [{"a/x".toList}] (.cons howns .nil)
  refine ⟨l, hl, ?_, hnodup⟩
  have hlist : packages (ε := Unit) (.atom (.packagePrefix "a".toList)) [unorderedLister] =
      .ok ["a".toList, "a/x".toList] := by decide
  exact Except.ok.inj (hl.symm.trans hlist)

end Heph
