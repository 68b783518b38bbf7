import Heph.Matcher.Matcher

/-!
# The ladder of evaluators

What a matcher says of a target is settled by the spec where that suffices
(`Matcher.matchSpec`), and by the definition otherwise (`Matcher.matchTarget`).
Before either is known, verdicts on the package, on the address and on what was listed are
used to leave targets out. They may shrug, but they must not contradict.

All of the evaluators combine alike, so it is enough to compare them **atom by atom**: each
of them is below the one on the definition, which never shrugs at an atom. The one atom
that is not settled by the spec is about the outputs, and there the earlier rungs say no
only for a reason that the definition bears out: the packages do not lie on one path, or
nothing is generated into the tree.
-/

namespace Heph

open Verdict Below MatchResult

/-! ### Targets -/

/-- `TargetSpec`, as far as a matcher reads it. -/
structure TargetSpec where
  addr : Addr
  driver : Text
  labels : List Text

/-- `CodegenMode`. -/
inductive CodegenMode where
  | none
  | copy
  | inPlace
  deriving DecidableEq, Repr

/-- `Content`. -/
inductive Content where
  | filePath (p : Text)
  | dirPath (p : Text)
  | glob (g : Text)
  deriving DecidableEq, Repr

/-- `Path`, as far as a matcher reads it. -/
structure Path where
  content : Content
  codegenTree : CodegenMode
  deriving DecidableEq, Repr

/-- `Output`, as far as a matcher reads it. -/
structure Output where
  paths : List Path
  deriving DecidableEq, Repr

/-- `TargetDef`, as far as a matcher reads it. -/
structure TargetDef where
  addr : Addr
  labels : List Text
  outputs : List Output

/-- `def_has_codegen`. -/
def defHasCodegen (t : TargetDef) : Bool :=
  t.outputs.any fun o => o.paths.any fun p => p.codegenTree ≠ .none

/-! ### The packages of the outputs -/

/-- The loop of `path_to_pkg`, which strips leading `./`. -/
def stripDotSlash : Text → Text
  | '.' :: '/' :: rest => stripDotSlash rest
  | s => s

/-- `path_to_pkg`. -/
def pathToPkg (s : Text) : PkgBuf :=
  if s = ['.'] ∨ s.isEmpty then [] else (stripDotSlash s).rdropWhile (· == '/')

/-- `parent_dir`: what is before the last slash, if there is one. -/
def parentDir (p : Text) : Text := ((p.reverse.dropWhile (· != '/')).drop 1).reverse

/-- The metacharacters of a glob. -/
def isGlobMeta (c : Char) : Bool := c == '*' || c == '?' || c == '[' || c == '\x7b'

/-- The loop of `glob_split`, with what is before the current segment and what of the segment
has been seen. -/
def globLoop : Text → Text → Text → Text × Text
  | base, seg, [] => (base ++ seg, [])
  | base, seg, c :: rest =>
    if c = '/' then globLoop (base ++ seg ++ ['/']) [] rest
    else if isGlobMeta c then (base.dropLast, seg ++ c :: rest)
    else globLoop base (seg ++ [c]) rest

/-- `glob_split`. -/
def globSplit (g : Text) : Text × Text := globLoop [] [] g

/-- Whether an output lies in the package, or may: a directory or a glob may also contain
it. -/
def Content.reaches (pkg : PkgBuf) : Content → Bool
  | filePath p => hasPrefix (pathToPkg (parentDir p)) pkg
  | dirPath p => hasPrefix (pathToPkg p) pkg || hasPrefix pkg (pathToPkg p)
  | glob g =>
    hasPrefix (pathToPkg (globSplit g).1) pkg || hasPrefix pkg (pathToPkg (globSplit g).1)

namespace Matcher

/-! ### The upper rungs -/

/-- The arms of `match_spec` for the atoms. -/
def specAtom (spec : TargetSpec) : Atom → MatchResult
  | .addr a => .ofBool (spec.addr = a)
  | .label l => .ofBool (spec.labels.contains l)
  | .driver d => .ofBool (spec.driver = d)
  | .package p => .ofBool (spec.addr.package = p)
  | .packagePrefix p => .ofBool (hasPrefix spec.addr.package p)
  | .treeOutputTo _ => .shrug

/-- `match_spec`. -/
def matchSpec (m : Matcher) (spec : TargetSpec) : MatchResult := m.eval (specAtom spec)

/-- The arms of `match_target` for the atoms. -/
def targetAtom (spec : TargetSpec) (t : TargetDef) : Atom → MatchResult
  | .driver d => .ofBool (spec.driver = d)
  | .addr a => .ofBool (t.addr = a)
  | .label l => .ofBool (t.labels.contains l)
  | .treeOutputTo p =>
    if !hasPrefix t.addr.package p && !hasPrefix p t.addr.package then .no
    else .ofBool <| t.outputs.any fun o => o.paths.any fun path =>
      path.codegenTree ≠ .none && path.content.reaches p
  | .package p => .ofBool (t.addr.package = p)
  | .packagePrefix p => .ofBool (hasPrefix t.addr.package p)

/-- `match_target`. -/
def matchTarget (m : Matcher) (spec : TargetSpec) (t : TargetDef) : MatchResult :=
  m.eval (targetAtom spec t)

/-- The verdict on a target: from the spec, and from the definition where the spec does not
settle it. -/
def resolve (m : Matcher) (spec : TargetSpec) (t : TargetDef) : MatchResult :=
  match m.matchSpec spec with
  | .shrug => m.matchTarget spec t
  | v => v

/-- **Truthful facts** about a target: what is known is so, with the labels taken as a set. -/
structure Truthful (facts : ListedFacts) (spec : TargetSpec) (t : TargetDef) : Prop where
  labels : ∀ labels ∈ facts.labels, ∀ l, l ∈ labels ↔ l ∈ spec.labels
  driver : ∀ d ∈ facts.driver, d = spec.driver
  hasCodegen : ∀ b ∈ facts.hasCodegen, b = defHasCodegen t

variable {m : Matcher} {spec : TargetSpec} {t : TargetDef} {facts : ListedFacts}

theorem ofBool_ne_shrug (b : Bool) : ofBool b ≠ .shrug := by
  cases b <;> decide

theorem below_of_eq {b c : Bool} (h : b = c) :
    Below (ofBool b) (ofBool c) :=
  fun _ => congrArg _ h

theorem truthful_unknown (spec : TargetSpec) (t : TargetDef) : Truthful .unknown spec t := by
  constructor <;> simp [ListedFacts.unknown]

/-! #### The definition settles everything -/

theorem targetAtom_ne_shrug (spec : TargetSpec) (t : TargetDef) (a : Atom) :
    targetAtom spec t a ≠ .shrug := by
  cases a with
  | treeOutputTo p =>
    rw [targetAtom]
    split
    · decide
    · exact ofBool_ne_shrug _
  | _ => exact ofBool_ne_shrug _

/-- Packages that are not on one path: no output reaches. -/
theorem targetAtom_of_apart {p : PkgBuf}
    (h : ¬ (hasPrefix t.addr.package p || hasPrefix p t.addr.package) = true) :
    targetAtom spec t (.treeOutputTo p) = .no := by
  refine if_pos ?_
  simpa using h

/-- Nothing is generated into the tree: no output reaches. -/
theorem targetAtom_of_noCodegen (h : defHasCodegen t = false) (p : PkgBuf) :
    targetAtom spec t (.treeOutputTo p) = .no := by
  rw [targetAtom]
  split
  · rfl
  · refine if_neg ?_
    simp only [defHasCodegen, List.any_eq_false, Bool.not_eq_true, decide_eq_false_iff_not,
      not_not] at h
    simp only [List.any_eq_true, Bool.and_eq_true, decide_eq_true_eq, not_exists, not_and]
    intro o ho path hpath hne
    exact absurd (h o ho path hpath) hne

/-! #### Atom by atom -/

section

variable (haddr : t.addr = spec.addr)

include haddr

theorem specAtom_below (hlabels : t.labels = spec.labels) (a : Atom) :
    (specAtom spec a).Below (targetAtom spec t a) := by
  cases a with
  | treeOutputTo p => exact shrug _
  | label l => exact below_of_eq (by rw [hlabels])
  | driver d => exact refl _
  | addr | package | packagePrefix => exact below_of_eq (by rw [haddr])

theorem pkgAtom_below (a : Atom) :
    (pkgAtom spec.addr.package a).Below (targetAtom spec t a) := by
  cases a with
  | label | driver => exact shrug _
  | addr a =>
    rw [pkgAtom]
    split
    · exact shrug _
    · next hp =>
      -- an address of another package is another address
      intro _
      refine (if_neg ?_).symm
      rw [decide_eq_true_eq, haddr]
      rintro rfl
      exact hp rfl
  | treeOutputTo p =>
    rw [pkgAtom]
    split
    · exact shrug _
    · next hp => exact fun _ => (targetAtom_of_apart (by rwa [haddr])).symm
  | package | packagePrefix => exact below_of_eq (by rw [haddr])

theorem listedAtom_below (hlabels : t.labels = spec.labels)
    (hfacts : Truthful facts spec t) (a : Atom) :
    (listedAtom spec.addr facts a).Below (targetAtom spec t a) := by
  cases a with
  | addr a => exact below_of_eq (decide_eq_decide.mpr (by rw [haddr]; exact eq_comm))
  | label l =>
    rw [listedAtom]
    split
    · next labels hl =>
      refine below_of_eq (Bool.eq_iff_iff.mpr ?_)
      rw [List.contains_iff_mem, List.contains_iff_mem, hlabels]
      exact hfacts.labels labels hl l
    · exact shrug _
  | driver d =>
    rw [listedAtom]
    split
    · next driver hd => exact below_of_eq (by rw [hfacts.driver driver hd])
    · exact shrug _
  | treeOutputTo p =>
    rw [listedAtom]
    split
    · next hc =>
      exact fun _ => (targetAtom_of_noCodegen (hfacts.hasCodegen false hc).symm p).symm
    · split
      · exact shrug _
      · next hp => exact fun _ => (targetAtom_of_apart (by rwa [haddr])).symm
  | package | packagePrefix => exact below_of_eq (by rw [haddr])

/-- The verdict on a target is the one on its definition: the spec settles nothing
differently. -/
theorem resolve_eq (hlabels : t.labels = spec.labels) :
    m.resolve spec t = m.matchTarget spec t := by
  have hspec : (m.matchSpec spec).Below (m.matchTarget spec t) :=
    eval_below (specAtom_below haddr hlabels) m
  unfold resolve
  split
  · rfl
  · next hv => exact hspec hv

end

/-- **The ladder does not contradict itself.** For a target whose definition has the address
and the labels of its spec, and for truthful facts, there is a verdict on the target that is
not a shrug; and whatever is said earlier – of its package, of its address, of what was
listed of it – is that verdict or a shrug. -/
theorem ladder (m : Matcher) (haddr : t.addr = spec.addr) (hlabels : t.labels = spec.labels)
    (hfacts : Truthful facts spec t) :
    m.resolve spec t ≠ .shrug ∧
      (m.matchesPkg spec.addr.package ≠ .shrug →
        m.matchesPkg spec.addr.package = m.resolve spec t) ∧
      (m.matchesAddr spec.addr ≠ .shrug → m.matchesAddr spec.addr = m.resolve spec t) ∧
      (m.matchesListed spec.addr facts ≠ .shrug →
        m.matchesListed spec.addr facts = m.resolve spec t) := by
  rw [resolve_eq haddr hlabels]
  exact ⟨eval_ne_shrug (targetAtom_ne_shrug spec t) m, eval_below (pkgAtom_below haddr) m,
    eval_below (listedAtom_below haddr hlabels (truthful_unknown spec t)) m,
    eval_below (listedAtom_below haddr hlabels hfacts) m⟩

/-! ### A target that generates code -/

/-- A target that writes the directory `a/gen` into the tree. -/
def generator : TargetSpec := ⟨⟨['a'], ['g'], .empty⟩, "exec".toList, ["ci".toList]⟩

/-- Its definition. -/
def generatorDef : TargetDef :=
  ⟨generator.addr, generator.labels, [⟨[⟨.dirPath "a/gen".toList, .copy⟩]⟩]⟩

/-- What is listed of the target. -/
def generatorFacts : ListedFacts where
  labels := some ["ci".toList]
  driver := some "exec".toList
  hasCodegen := some true
  labels_sorted := by simp
  driver_legal := by decide

/-- `tree_output(a/gen) && !label(lint)`. -/
def generatesUnlinted : Matcher :=
  .and [.atom (.treeOutputTo "a/gen".toList), .not (.atom (.label "lint".toList))]

theorem ladder_generator :
    generatesUnlinted.resolve generator generatorDef = .yes ∧
      generatesUnlinted.matchSpec generator = .shrug ∧
      (Matcher.not (.atom (.label "lint".toList))).matchesListed generator.addr generatorFacts =
        (Matcher.not (.atom (.label "lint".toList))).resolve generator generatorDef := by
  have hfacts : Truthful generatorFacts generator generatorDef := by
    refine ⟨fun labels h l => ?_, fun d h => ?_, fun b h => ?_⟩
    · cases h
      exact Iff.rfl
    · exact (Option.some.inj h).symm
    · exact (Option.some.inj h).symm
  refine ⟨rfl, rfl, ?_⟩
  exact (ladder (.not (.atom (.label "lint".toList))) rfl rfl hfacts).2.2.2 (by decide)

end Matcher

end Heph
