import Heph.Query.ReadBack

/-!
# Printing a query and reading it again

Reading the text of a matcher is reading the texts of its atoms
(`Query.parse_format`), so what is left is to see what an atom is read as.

An address, a label, a driver and a codegen package are read as what they are. A **package**
is printed as a bare pattern `//p` whenever that is one word, and then it is read by the
grammar of patterns, which knows nothing of where it came from: with a colon in it, it is
an address; and `...` at its end makes it a prefix. Such packages exist – `package(a:b)` and
`package(a/...)` are accepted – and their text means something else
(`Query.Misread`). The same goes for a package prefix with a colon in it.

A query means the same after printing and reading if and only if these misreadings do not
change its meaning (`Query.Unharmed`): always if there are none, and never if it is a
single misread atom.
-/

namespace Heph.Query

open List Option Matcher

/-! ### Misread atoms -/

/-- **The atoms whose text is read as something else.** -/
def Misread : Atom → Prop
  | .package p => isBareWord ("//".toList ++ p) = true ∧
      (':' ∈ p ∨ p = "...".toList ∨ "/...".toList <:+ p)
  | .packagePrefix p => isBareWord (prefixPattern p) = true ∧ ':' ∈ p
  | _ => False

instance : DecidablePred Misread
  | .addr _ => inferInstanceAs (Decidable False)
  | .label _ => inferInstanceAs (Decidable False)
  | .driver _ => inferInstanceAs (Decidable False)
  | .package _ => inferInstanceAs (Decidable (_ ∧ _))
  | .packagePrefix _ => inferInstanceAs (Decidable (_ ∧ _))
  | .treeOutputTo _ => inferInstanceAs (Decidable False)

/-- What the text of an atom is read as, if it is read at all. -/
def readAs : Atom → Option Atom
  | .package p =>
    if isBareWord ("//".toList ++ p) then
      if ':' ∈ p then (parseAddr ("//".toList ++ p)).toOption.map .addr
      else if p = "...".toList then some (.packagePrefix [])
      else
        match p.dropSuffix? "/...".toList with
        | some q => some (.packagePrefix q)
        | none => some (.package p)
    else some (.package p)
  | .packagePrefix p =>
    if isBareWord (prefixPattern p) ∧ ':' ∈ p then
      (parseAddr (prefixPattern p)).toOption.map .addr
    else some (.packagePrefix p)
  | a => some a

variable {base : PkgBuf} {a : Atom} {p : PkgBuf} {ε : Type} {f : Atom → Except ε Atom}
  {m m' : Matcher} {ms ms' : List Matcher} {s : Text}

theorem readAs_of_not_misread (h : ¬ Misread a) : readAs a = some a := by
  cases a with
  | addr | label | driver | treeOutputTo => rfl
  | package p =>
    rw [readAs]
    split
    · next hbare =>
      simp only [Misread, hbare, true_and, not_or] at h
      obtain ⟨hcolon, hdots, hsuffix⟩ := h
      rw [if_neg hcolon, if_neg hdots]
      split
      · next q hq =>
        obtain ⟨s, rfl, hs⟩ := dropSuffix?_eq_some_iff.mp hq
        exact absurd ⟨q, by rw [beq_iff_eq.mp hs]⟩ hsuffix
      · rfl
    · rfl
  | packagePrefix p => exact if_neg h

/-! ### Reading the text of an atom -/

theorem rereadCall_func {func : Text} (h : func ≠ driverFn) (arg : Text) :
    rereadCall base func arg = funcToMatcher base func arg := by
  rw [rereadCall, callToMatcher, if_neg h]
  cases harg : arg.isEmpty with
  | true =>
    rw [isEmpty_iff.mp harg]
    rfl
  | false => rfl

/-- A normal package is read as it is, from an argument. -/
theorem toPkg_normal (h : Normal p) : toPkg p = .ok p := by
  have hprefix : p.dropPrefix? "//".toList = none := by
    cases hp : p.dropPrefix? "//".toList with
    | none => rfl
    | some r =>
      obtain ⟨s, rfl, hs⟩ := dropPrefix?_eq_some_iff.mp hp
      rw [beq_iff_eq.mp hs] at h
      exact absurd rfl h.head?_ne
  rw [toPkg, hprefix, getD_none, h.joinRelCheckedPkg]

theorem pkgArg_normal (h : Normal p) (mk : PkgBuf → Atom) (func : Text) :
    pkgArg mk func p = .ok (mk p) := by
  rw [pkgArg, toPkg_normal h]

theorem pkgRef_normal (h : Normal p) (mk : PkgBuf → Atom) : pkgRef mk [] p = .ok (mk p) := by
  rw [pkgRef, h.joinRelCheckedPkg]

/-- What is left of a normal package without its last segment is normal. -/
theorem normal_of_append (h : Normal (p ++ '/' :: s)) : Normal p := by
  have hsegments := h.segments
  rw [segments, if_neg (by simp), splitOn_append_cons_self] at hsegments
  exact ⟨p.splitOn '/', fun t ht => hsegments t (mem_append_left _ ht),
    (intercalate_splitOn '/').symm⟩

theorem parseAddrWithBase_absolute (s : Text) :
    parseAddrWithBase ("//".toList ++ s) base = parseAddr ("//".toList ++ s) := by
  rw [parseAddrWithBase, if_pos (by simp [isPrefixOf])]

theorem parsePkgRef_absolute (s : Text) :
    parsePkgRef ("//".toList ++ s) base =
      if s = "...".toList then .ok (.packagePrefix [])
      else
        match s.dropSuffix? "/...".toList with
        | some p => pkgRef .packagePrefix [] p
        | none => pkgRef .package [] s := by
  have h : ("//".toList ++ s).dropPrefix? "//".toList = some s :=
    dropPrefix?_append_of_beq s (by simp)
  unfold parsePkgRef
  split
  · next abs habs =>
    obtain rfl : s = abs := some.inj (h.symm.trans habs)
    rfl
  · next hnone => exact absurd (h.symm.trans hnone) (some_ne_none s)

/-- An absolute pattern with a colon is an address, if it is anything. -/
theorem patternToMatcher_addr (h : ':' ∈ s) :
    (patternToMatcher base ("//".toList ++ s)).toOption =
      (parseAddr ("//".toList ++ s)).toOption.map .addr := by
  rw [patternToMatcher, if_pos (mem_append_right _ h), parseAddrWithBase_absolute]
  cases parseAddr ("//".toList ++ s) <;> rfl

theorem patternToMatcher_pkg (h : ':' ∉ s) :
    (patternToMatcher base ("//".toList ++ s)).toOption =
      (parsePkgRef ("//".toList ++ s) base).toOption := by
  rw [patternToMatcher, if_neg (by simpa using h)]
  cases parsePkgRef ("//".toList ++ s) base <;> rfl

theorem reread_addr {a : Addr} (h : a.WellFormed) : rereadAtom base (.addr a) = .ok (.addr a) := by
  have hparse : parseAddrWithBase a.format base = .ok a :=
    (parseAddrWithBase_absolute _).trans h.parseAddr_format
  rw [rereadAtom, rereadPattern]
  split
  · rw [patternToMatcher, if_pos (by simp [Addr.format]), hparse]
  · rw [rereadCall_func (by decide), funcToMatcher, if_neg (by decide), if_neg (by decide),
      if_pos rfl, hparse]

theorem reread_package (h : Normal p) :
    (rereadAtom base (.package p)).toOption = readAs (.package p) := by
  rw [rereadAtom, rereadPattern, readAs]
  split
  · split
    · next hcolon => exact patternToMatcher_addr hcolon
    · next hcolon =>
      rw [patternToMatcher_pkg hcolon, parsePkgRef_absolute]
      split
      · rfl
      · split
        · next q hq =>
          obtain ⟨s, rfl, hs⟩ := dropSuffix?_eq_some_iff.mp hq
          rw [beq_iff_eq.mp hs] at h
          rw [pkgRef_normal (normal_of_append h)]
          rfl
        · rw [pkgRef_normal h]
          rfl
  · rw [rereadCall_func (by decide), funcToMatcher, if_neg (by decide), if_neg (by decide),
      if_neg (by decide), if_pos (.inl rfl), pkgArg_normal h]
    rfl

theorem reread_packagePrefix (h : Normal p) :
    (rereadAtom base (.packagePrefix p)).toOption = readAs (.packagePrefix p) := by
  obtain ⟨s, hs, hcolon, hread⟩ : ∃ s, prefixPattern p = "//".toList ++ s ∧ (':' ∈ s ↔ ':' ∈ p) ∧
      parsePkgRef ("//".toList ++ s) base = .ok (.packagePrefix p) := by
    unfold prefixPattern
    split
    · next hp =>
      rw [isEmpty_iff.mp hp]
      exact ⟨"...".toList, rfl, by decide, rfl⟩
    · next hp =>
      refine ⟨p ++ "/...".toList, rfl, ?_, ?_⟩
      · rw [mem_append, or_iff_left (by decide)]
      · have hne : p ++ "/...".toList ≠ "...".toList := by
          intro heq
          have hlen := congrArg length heq
          rw [length_append] at hlen
          have hfour : "/...".toList.length = 4 := rfl
          have hthree : "...".toList.length = 3 := rfl
          omega
        have hsuffix : (p ++ "/...".toList).dropSuffix? "/...".toList = some p :=
          dropSuffix?_eq_some_iff.mpr ⟨_, rfl, by simp⟩
        rw [parsePkgRef_absolute, if_neg hne, hsuffix]
        exact pkgRef_normal h _
  rw [rereadAtom, rereadPattern, readAs, hs]
  split
  · next hbare =>
    by_cases hp : ':' ∈ p
    · rw [if_pos ⟨hbare, hp⟩]
      exact patternToMatcher_addr (hcolon.mpr hp)
    · rw [if_neg fun h => hp h.2, patternToMatcher_pkg (mt hcolon.mp hp), hread]
      rfl
  · next hbare =>
    rw [if_neg fun h => hbare h.1, rereadCall_func (by decide), funcToMatcher, if_neg (by decide),
      if_neg (by decide), if_neg (by decide), if_neg (by decide), if_pos rfl, pkgArg_normal h]
    rfl

/-- **What the text of a legible atom is read as.** -/
theorem reread_atom (h : LegibleAtom a) : (rereadAtom base a).toOption = readAs a := by
  cases a with
  | addr a =>
    rw [reread_addr h]
    rfl
  | label l =>
    have hl : validateLabel l = .ok () := h
    rw [rereadAtom, rereadCall_func (by decide), funcToMatcher, hl]
    rfl
  | driver d =>
    have hd : d ≠ [] := h
    have hempty : d.isEmpty = false := by simpa using hd
    have hfilter : (some d).filter (fun a => !a.isEmpty) = some d := by
      simp [hempty]
    rw [rereadAtom, rereadCall, callToMatcher, if_pos rfl, if_neg (by simp [hempty]), hfilter]
    rfl
  | package p => exact reread_package h
  | packagePrefix p => exact reread_packagePrefix h
  | treeOutputTo p =>
    rw [rereadAtom, rereadCall_func (by decide), funcToMatcher, if_neg (by decide), pkgArg_normal h]
    rfl

/-! ### Misreading an atom changes its meaning -/

theorem hasPrefix_append (p s : Text) : hasPrefix (p ++ '/' :: s) p = true := by
  unfold hasPrefix
  split
  · rfl
  · rw [dropPrefix?_append_of_beq _ (by simp)]
    rfl

theorem hasPrefix_self (p : Text) : hasPrefix p p = true := by
  unfold hasPrefix
  split
  · rfl
  · have h : (p ++ []).dropPrefix? p = some [] := dropPrefix?_append_of_beq [] (by simp)
    rw [append_nil] at h
    rw [h]

/-- No address is all of a package. -/
theorem addr_ne (p : PkgBuf) (b : Addr) :
    ∃ addr : Addr, addr.package = p ∧ listedAtom addr .unknown (.addr b) = .no := by
  refine ⟨⟨p, 'x' :: b.name, .empty⟩, rfl, if_neg ?_⟩
  rw [decide_eq_true_eq]
  intro h
  have hname := congrArg (fun a : Addr => a.name.length) h
  simp at hname

/-- A package is not all that is below a prefix. -/
theorem package_ne (p q : PkgBuf) :
    ∃ addr : Addr, hasPrefix addr.package q = true ∧ addr.package ≠ p := by
  by_cases h : q = p
  · refine ⟨⟨q ++ '/' :: ['x'], [], .empty⟩, hasPrefix_append q ['x'], fun hp => ?_⟩
    have hlen := congrArg length (hp.trans h.symm)
    simp at hlen
  · exact ⟨⟨q, [], .empty⟩, hasPrefix_self q, h⟩

/-- **A misread atom is read as something with another meaning.** -/
theorem listedAtom_ne_of_misread {b : Atom} (h : Misread a) (hb : readAs a = some b) :
    ∃ addr, listedAtom addr .unknown b ≠ listedAtom addr .unknown a := by
  have haddr : ∀ {p : PkgBuf} {o : Option Addr}, o.map .addr = some b →
      (∀ addr : Addr, addr.package = p → listedAtom addr .unknown a = .yes) →
      ∃ addr, listedAtom addr .unknown b ≠ listedAtom addr .unknown a := by
    intro p o ho ha
    obtain ⟨x, -, rfl⟩ := map_eq_some_iff.mp ho
    obtain ⟨addr, hp, hno⟩ := addr_ne p x
    exact ⟨addr, by rw [hno, ha addr hp]; decide⟩
  cases a with
  | addr | label | driver | treeOutputTo => exact absurd h id
  | packagePrefix p =>
    rw [readAs, if_pos ⟨h.1, h.2⟩] at hb
    refine haddr (p := p) hb fun addr hp => ?_
    rw [listedAtom, hp, hasPrefix_self]
    rfl
  | package p =>
    have hprefix : ∀ q, b = .packagePrefix q →
        ∃ addr, listedAtom addr .unknown b ≠
          listedAtom addr .unknown (.package p) := by
      rintro q rfl
      obtain ⟨addr, hq, hp⟩ := package_ne p q
      refine ⟨addr, ?_⟩
      rw [listedAtom, listedAtom, hq, decide_eq_false hp]
      decide
    obtain ⟨hbare, h⟩ := h
    rw [readAs, if_pos hbare] at hb
    split at hb
    · refine haddr (p := p) hb fun addr hp => ?_
      rw [listedAtom, decide_eq_true hp]
      rfl
    · next hcolon =>
      split at hb
      · exact hprefix [] (some.inj hb).symm
      · next hdots =>
        split at hb
        · next q _ => exact hprefix q (some.inj hb).symm
        · next hnone =>
          obtain ⟨q, rfl⟩ := (h.resolve_left hcolon).resolve_left hdots
          have hsome : (q ++ "/...".toList).dropSuffix? "/...".toList = some q :=
            dropSuffix?_eq_some_iff.mpr ⟨_, rfl, by simp⟩
          rw [hsome] at hnone
          simp at hnone

/-! ### Replacing the atoms -/

/-- What a replacement returns has been replaced everywhere. -/
def Replaces (f : Atom → Except ε Atom) (m : Matcher) : Prop :=
  ∀ m', mapAtoms f m = .ok m' → (∀ a ∈ atoms m, (f a).toOption ≠ none) ∧
    ∀ g : Atom → MatchResult, m'.eval g = m.eval fun a => g ((f a).toOption.getD a)

theorem ok_of_map {α β : Type} {x : Except ε α} {h : α → β} {b : β} (hx : x.map h = .ok b) :
    ∃ a, x = .ok a ∧ h a = b := by
  cases x with
  | error e => simp [Except.map] at hx
  | ok a => exact ⟨a, rfl, Except.ok.inj hx⟩

theorem mapAll_ok (h : ∀ m ∈ ms, Replaces f m) (hms : mapAll f ms = .ok ms') :
    (∀ a ∈ atomsAll ms, (f a).toOption ≠ none) ∧ ∀ g : Atom → MatchResult,
      ms'.map (eval g) = ms.map (eval fun a => g ((f a).toOption.getD a)) := by
  induction ms generalizing ms' with
  | nil =>
    cases hms
    exact ⟨by simp [atomsAll], fun g => rfl⟩
  | cons m ms ih =>
    obtain ⟨m₁, hm, hms⟩ := bind_ok.mp hms
    obtain ⟨l, hl, hms⟩ := bind_ok.mp hms
    cases hms
    obtain ⟨hatom, heval⟩ := h m mem_cons_self m₁ hm
    obtain ⟨hatoms, hevals⟩ := ih (fun m hm => h m (mem_cons_of_mem _ hm)) hl
    refine ⟨fun a ha => ?_, fun g => by rw [map_cons, map_cons, heval, hevals]⟩
    rw [atomsAll, mem_append] at ha
    exact ha.elim (hatom a) (hatoms a)

/-- **The verdict on what is returned** is the verdict with the atoms replaced. -/
theorem replaces (f : Atom → Except ε Atom) (m : Matcher) : Replaces f m := by
  induction m with
  | atom a =>
    intro m' hm'
    obtain ⟨b, hb, rfl⟩ := ok_of_map hm'
    refine ⟨by simp [atoms, hb, Except.toOption], fun g => ?_⟩
    rw [eval, eval, hb]
    rfl
  | or ms ih =>
    intro m' hm'
    obtain ⟨l, hl, rfl⟩ := ok_of_map hm'
    obtain ⟨hatoms, hevals⟩ := mapAll_ok ih hl
    exact ⟨hatoms, fun g => by rw [eval_or, eval_or, hevals]⟩
  | and ms ih =>
    intro m' hm'
    obtain ⟨l, hl, rfl⟩ := ok_of_map hm'
    obtain ⟨hatoms, hevals⟩ := mapAll_ok ih hl
    exact ⟨hatoms, fun g => by rw [eval_and, eval_and, hevals]⟩
  | not m ih =>
    intro m' hm'
    obtain ⟨m₁, hm, rfl⟩ := ok_of_map hm'
    obtain ⟨hatoms, heval⟩ := ih m₁ hm
    exact ⟨hatoms, fun g => by rw [eval, eval, heval]⟩

theorem mapAll_isOk (h : ∀ m ∈ ms, (∀ a ∈ atoms m, (f a).toOption ≠ none) →
      ∃ m', mapAtoms f m = .ok m') (hms : ∀ a ∈ atomsAll ms, (f a).toOption ≠ none) :
    ∃ ms', mapAll f ms = .ok ms' := by
  induction ms with
  | nil => exact ⟨[], rfl⟩
  | cons m ms ih =>
    obtain ⟨m', hm'⟩ := h m mem_cons_self fun a ha => hms a (mem_append_left _ ha)
    obtain ⟨ms', hms'⟩ := ih (fun m hm => h m (mem_cons_of_mem _ hm))
      fun a ha => hms a (mem_append_right _ ha)
    exact ⟨m' :: ms', (bind_of_ok hm').trans (bind_of_ok hms')⟩

/-- A replacement that fails for no atom does not fail. -/
theorem mapAtoms_isOk (h : ∀ a ∈ atoms m, (f a).toOption ≠ none) :
    ∃ m', mapAtoms f m = .ok m' := by
  induction m with
  | atom a =>
    cases hf : f a with
    | error e => exact absurd (by rw [hf]; rfl) (h a mem_cons_self)
    | ok b => exact ⟨.atom b, by rw [mapAtoms, hf]; rfl⟩
  | or ms ih =>
    obtain ⟨l, hl⟩ := mapAll_isOk ih h
    exact ⟨.or l, by rw [mapAtoms, hl]; rfl⟩
  | and ms ih =>
    obtain ⟨l, hl⟩ := mapAll_isOk ih h
    exact ⟨.and l, by rw [mapAtoms, hl]; rfl⟩
  | not m ih =>
    obtain ⟨m', hm'⟩ := ih h
    exact ⟨.not m', by rw [mapAtoms, hm']; rfl⟩

/-- The verdict depends on the atoms of the matcher only. -/
theorem eval_congr {g g' : Atom → MatchResult} (h : ∀ a ∈ atoms m, g a = g' a) :
    m.eval g = m.eval g' := by
  have hall : ∀ {ms : List Matcher}, (∀ m ∈ ms, (∀ a ∈ atoms m, g a = g' a) →
      m.eval g = m.eval g') → (∀ a ∈ atomsAll ms, g a = g' a) →
      ms.map (eval g) = ms.map (eval g') := by
    intro ms ih h
    refine map_congr_left fun m hm => ih m hm fun a ha => h a ?_
    rw [atomsAll_eq]
    exact mem_flatMap.mpr ⟨m, hm, ha⟩
  induction m with
  | atom a => exact h a mem_cons_self
  | or ms ih => rw [eval_or, eval_or, hall ih h]
  | and ms ih => rw [eval_and, eval_and, hall ih h]
  | not m ih => rw [eval, eval, ih h]

/-! ### Round trips -/

/-- **A matcher survives being printed and read**: its text is read as a matcher with the
same verdict on every target. -/
def RoundTrips (base : PkgBuf) (m : Matcher) : Prop :=
  ∃ m', parse (format m) base = .ok m' ∧
    ∀ (addr : Addr) (facts : ListedFacts), m'.matchesListed addr facts = m.matchesListed addr facts

/-- **The misreadings of its atoms do no harm** to a matcher: each of them is read, and with
the atoms as they are read the verdict on every target is the same. -/
def Unharmed (m : Matcher) : Prop :=
  (∀ a ∈ atoms m, readAs a ≠ none) ∧ ∀ (addr : Addr) (facts : ListedFacts),
    (m.eval fun a => listedAtom addr facts ((readAs a).getD a)) =
      m.matchesListed addr facts

section RoundTrips

variable {q : Text} {base : PkgBuf} {m : Matcher} {a : Atom}

theorem legible_of_mem_atoms (h : Legible m) (ha : a ∈ atoms m) : LegibleAtom a := by
  have hall : ∀ {ms : List Matcher}, (∀ m ∈ ms, a ∈ atoms m → LegibleAtom a) →
      a ∈ atomsAll ms → LegibleAtom a := by
    intro ms ih ha
    rw [atomsAll_eq, mem_flatMap] at ha
    obtain ⟨m, hm, ha⟩ := ha
    exact ih m hm ha
  induction h with
  | atom h =>
    rw [atoms, mem_singleton] at ha
    exact ha ▸ h
  | or _ _ ih => exact hall ih ha
  | and _ _ ih => exact hall ih ha
  | not _ ih => exact ih ha

/-- **A query round trips if and only if the misreadings do no harm.** -/
theorem roundTrips_iff (h : parse q base = .ok m) : RoundTrips base m ↔ Unharmed m := by
  obtain ⟨hlegible, hlev⟩ := legible_of_parse h
  have hread : ∀ a ∈ atoms m, (rereadAtom base a).toOption = readAs a := fun a ha =>
    reread_atom (legible_of_mem_atoms hlegible ha)
  have hverdict : ∀ g : Atom → MatchResult,
      ((flat m).eval fun a => g ((rereadAtom base a).toOption.getD a)) =
        m.eval fun a => g ((readAs a).getD a) := by
    intro g
    rw [eval_flat]
    exact eval_congr fun a ha => by rw [hread a ha]
  rw [RoundTrips, parse_format hlegible hlev]
  constructor
  · rintro ⟨m', hm', hsame⟩
    obtain ⟨hatoms, heval⟩ := replaces (rereadAtom base) (flat m) m' hm'
    rw [atoms_flat] at hatoms
    refine ⟨fun a ha => hread a ha ▸ hatoms a ha, fun addr facts => ?_⟩
    rw [← hverdict, ← heval]
    exact hsame addr facts
  · rintro ⟨hatoms, hsame⟩
    obtain ⟨m', hm'⟩ := mapAtoms_isOk (by
      rw [atoms_flat]
      exact fun a ha => (hread a ha).symm ▸ hatoms a ha)
    refine ⟨m', hm', fun addr facts => ?_⟩
    rw [← hsame addr facts, ← hverdict]
    exact (replaces (rereadAtom base) (flat m) m' hm').2 _

theorem unharmed_of_not_misread (h : ∀ a ∈ atoms m, ¬ Misread a) : Unharmed m := by
  refine ⟨fun a ha => by simp [readAs_of_not_misread (h a ha)], fun addr facts => ?_⟩
  exact eval_congr fun a ha => by rw [readAs_of_not_misread (h a ha), getD_some]

theorem not_unharmed_of_misread (h : Misread a) : ¬ Unharmed (.atom a) := by
  rintro ⟨hread, hsame⟩
  obtain ⟨b, hb⟩ := ne_none_iff_exists'.mp (hread a mem_cons_self)
  obtain ⟨addr, hne⟩ := listedAtom_ne_of_misread h hb
  have heval := hsame addr .unknown
  rw [matchesListed, eval, hb] at heval
  exact hne heval

/-- **Printing a query and reading it again.** For every query that is accepted, the matcher
survives if and only if the misreadings of its atoms do no harm: so it does if no atom is
misread, and it does not if it is one misread atom. -/
theorem format_roundTrips (h : parse q base = .ok m) :
    (RoundTrips base m ↔ Unharmed m) ∧ ((∀ a ∈ atoms m, ¬ Misread a) → RoundTrips base m) ∧
      ∀ a, m = .atom a → Misread a → ¬ RoundTrips base m := by
  have hiff := roundTrips_iff h
  refine ⟨hiff, fun ha => hiff.mpr (unharmed_of_not_misread ha), ?_⟩
  rintro a rfl ha
  exact mt hiff.mp (not_unharmed_of_misread ha)

end RoundTrips

/-- A query with every kind of nesting, a quoted argument and a relative address. -/
def nested : Text := "(//a/b/... || :c) || !(label(ci) && (package(\"x y\") && !//z))".toList

theorem format_roundTrips_nested :
    ∃ m, parse nested "p".toList = .ok m ∧ RoundTrips "p".toList m := by
  obtain ⟨m, h, ha⟩ : ∃ m, parse nested "p".toList = .ok m ∧ ∀ a ∈ atoms m, ¬ Misread a :=
    ⟨_, rfl, by decide⟩
  exact ⟨m, h, (format_roundTrips h).2.1 ha⟩

/-- **A package with a colon is read back as an address.** -/
theorem package_colon_misread :
    ∃ m, parse "package(a:b)".toList [] = .ok m ∧ ¬ RoundTrips [] m := by
  refine ⟨.atom (.package "a:b".toList), rfl, ?_⟩
  rintro ⟨m', hm', hsame⟩
  obtain rfl : m' = .atom (.addr ⟨['a'], ['b'], .empty⟩) := (Except.ok.inj hm').symm
  exact absurd (hsame ⟨"a:b".toList, [], .empty⟩ .unknown) (by decide)

end Heph.Query
