import Heph.Deferred.Collect

/-!
# What a target hands on to the ones that use it

A target may declare, besides its own inputs, a **transitive sandbox**: tools, dependencies and
variables that every target with it as an input gets too. The engine merges the sandboxes of all
inputs – for a group, that of its own inputs – and the driver makes an input of each tool and
each dependency that is left. Whether such an input counts for the cache key, and whether it is
there at runtime, was said by the one who declared it.

Several inputs may hand on the same tool. It is one tool by its reference and its group, a
dependency by its reference, group and mode, and of those with one key **the first is kept**,
with what was said of it. So what the others have said is lost: a tool that one input wants
hashed and another one does not is hashed or not by the order of the inputs
(`Transitive.unhashed_first`). All that was said is kept, in every order, exactly if
whatever can come first says all of it (`Transitive.kept_iff`).
-/

namespace Heph.Transitive

open List Option Prod

/-! ### Sandboxes -/

/-- `Tool`. -/
structure Tool where
  ref : TargetAddr
  group : Text
  hash : Bool
  id : Text
  deriving DecidableEq

/-- `Mode`. -/
inductive Mode where
  | none
  | link
  deriving DecidableEq

/-- The name of a mode. -/
def Mode.text : Mode → Text
  | .none => ['N', 'o', 'n', 'e']
  | .link => ['L', 'i', 'n', 'k']

/-- `Dep`. -/
structure Dep where
  ref : TargetAddr
  mode : Mode
  group : Text
  runtime : Bool
  hash : Bool
  id : Text
  deriving DecidableEq

/-- `EnvValue`. -/
inductive EnvValue where
  | literal (v : Text)
  | pass
  deriving DecidableEq

/-- `Env`. -/
structure Env where
  value : EnvValue
  hash : Bool
  append : Bool
  appendPrefix : Text
  deriving DecidableEq

/-- `Sandbox`, with the keys of its tools and dependencies. -/
structure Sandbox where
  tools : List Tool
  deps : List Dep
  env : SortedMap Text Env
  toolKeys : List Text
  depKeys : List Text
  deriving DecidableEq

/-- What stands between the fields of a key. -/
def unitSeparator : Char := '\x1f'

/-- `tool_key`. -/
def toolKey (t : Tool) : Text := t.ref.format ++ unitSeparator :: t.group

/-- `dep_key`. -/
def depKey (d : Dep) : Text :=
  d.ref.format ++ unitSeparator :: (d.group ++ unitSeparator :: d.mode.text)

/-- The name that a tool has once it is merged. -/
def nameTool (id : Text) (t : Tool) : Tool := { t with id := id ++ "_tool_".toList ++ t.id }

/-- The name that a dependency has once it is merged. -/
def nameDep (id : Text) (d : Dep) : Dep := { d with id := id ++ "_dep_".toList ++ d.id }

namespace Sandbox

/-- `Sandbox::default`. -/
def default : Sandbox := ⟨[], [], .empty, [], []⟩

/-- `push_tool`. -/
def pushTool (sb : Sandbox) (t : Tool) : Bool × Sandbox :=
  if sb.toolKeys.contains (toolKey t) then (false, sb)
  else (true, { sb with tools := sb.tools ++ [t], toolKeys := toolKey t :: sb.toolKeys })

/-- `push_dep`. -/
def pushDep (sb : Sandbox) (d : Dep) : Bool × Sandbox :=
  if sb.depKeys.contains (depKey d) then (false, sb)
  else (true, { sb with deps := sb.deps ++ [d], depKeys := depKey d :: sb.depKeys })

/-- `merge_sandbox`. -/
def mergeSandbox (sb inbound : Sandbox) (id : Text) : Sandbox :=
  let sb := inbound.tools.foldl (fun sb t => (sb.pushTool (nameTool id t)).2) sb
  let sb := inbound.deps.foldl (fun sb d => (sb.pushDep (nameDep id d)).2) sb
  { sb with env := inbound.env.entries.foldl (fun env e => env.insert e.1 e.2) sb.env }

/-- `empty`. -/
def empty (sb : Sandbox) : Bool := sb.tools.isEmpty && sb.deps.isEmpty && sb.env.entries.isEmpty

end Sandbox

/-! ### Collecting -/

/-- What an input turns out to be: a target that hands on a sandbox, a group, which hands on what
its own inputs do, or nothing that could be resolved. -/
inductive Supplier where
  | target (addr : Addr) (transitive : Sandbox)
  | group (addr : Addr) (inputs : List (Input × Supplier))
  | unresolved

/-- An input hands something on if it is there at runtime, and not only for its path. -/
def inherits (i : Input) : Bool :=
  i.runtime && (i.annotations.get? Deferred.deferredSrcAnnotation).isNone

variable (digest : List UInt8 → UInt64)

/-- The name under which a sandbox is merged. -/
def mergeId (addr : Addr) (i : ℕ) : Text :=
  "_transitive_".toList ++ addr.hashStr digest ++ '_' :: Nat.toDigits 10 i

/-- The merged sandbox. -/
def mergeAll (results : List (Text × Sandbox)) : Sandbox :=
  results.foldl (fun sb r => sb.mergeSandbox r.2 r.1) .default

/-- A sandbox, if there is something in it. -/
def notEmpty (sb : Sandbox) : Option Sandbox := if sb.empty then none else some sb

mutual

/-- What an input hands on, with its address: for a group its `applied_transitive`. -/
def Supplier.transitive : Supplier → Option (Option (Addr × Sandbox))
  | .target addr sb => some ((notEmpty sb).map (addr, ·))
  | .group addr inputs => do
    let results ← joined 0 inputs
    return (notEmpty (mergeAll results)).map (addr, ·)
  | .unresolved => none

/-- The results for the inputs that hand something on, counted from `i`. -/
def joined (i : ℕ) : List (Input × Supplier) → Option (List (Text × Sandbox))
  | [] => some []
  | (input, supplier) :: rest =>
    if inherits input then do
      let result ← supplier.transitive
      let results ← joined (i + 1) rest
      return (result.map fun r => (mergeId digest r.1 i, r.2)).toList ++ results
    else joined i rest

end

/-- `collect_transitive_deps`. -/
def collectTransitiveDeps (inputs : List (Input × Supplier)) : Option Sandbox :=
  (joined digest 0 inputs).map mergeAll

/-! ### Folding -/

/-- Inputs by the group that they are in. -/
abbrev Groups := SortedMap Text (List Input)

namespace Groups

/-- The inputs of a group. -/
def of (groups : Groups) (g : Text) : List Input := (groups.get? g).getD []

/-- One more input of a group. -/
def push (groups : Groups) (g : Text) (i : Input) : Groups := groups.insert g (groups.of g ++ [i])

end Groups

/-- The part of a definition that a sandbox is folded into. -/
structure Wiring where
  inputs : List Input
  toolGroups : Groups
  depGroups : Groups
  runtimeDepGroups : Groups

/-- The input for a tool. -/
def toolInput (t : Tool) : Input :=
  { ref := t.ref
    mode := .tool
    originId := t.id
    annotations := .ofList [("unpack_root".toList, "tools".toList),
      ("read_only".toList, "true".toList), ("stage_per_file".toList, "true".toList)]
    hashed := t.hash
    runtime := true }

/-- The input for a dependency. -/
def depInput (d : Dep) : Input :=
  { ref := d.ref
    mode := .standard
    originId := d.id
    annotations := .empty
    hashed := d.hash
    runtime := d.runtime }

/-- One round of the loop of `fold_transitive_inputs` over the tools. -/
def foldTool (w : Wiring) (t : Tool) : Wiring :=
  { w with
    toolGroups := w.toolGroups.push t.group (toolInput t)
    inputs := w.inputs ++ [toolInput t] }

/-- One round of the loop of `fold_transitive_inputs` over the dependencies. -/
def foldDep (w : Wiring) (d : Dep) : Wiring :=
  let w :=
    if d.runtime then
      if d.hash then { w with depGroups := w.depGroups.push d.group (depInput d) }
      else { w with runtimeDepGroups := w.runtimeDepGroups.push d.group (depInput d) }
    else w
  { w with inputs := w.inputs ++ [depInput d] }

/-- `fold_transitive_inputs`. -/
def foldTransitiveInputs (sb : Sandbox) (w : Wiring) : Wiring :=
  sb.deps.foldl foldDep (sb.tools.foldl foldTool w)

/-! ### Contributors -/

mutual

/-- The sandboxes that are handed on through an input, as they were declared. -/
def Supplier.sandboxes : Supplier → List Sandbox
  | .target _ sb => [sb]
  | .group _ inputs => sandboxesOf inputs
  | .unresolved => []

/-- The sandboxes that are handed on through inputs. -/
def sandboxesOf : List (Input × Supplier) → List Sandbox
  | [] => []
  | (input, supplier) :: rest =>
    (if inherits input then supplier.sandboxes else []) ++ sandboxesOf rest

end

/-- The sandboxes that one input hands on. -/
def suppliedBy (x : Input × Supplier) : List Sandbox :=
  if inherits x.1 then x.2.sandboxes else []

theorem sandboxesOf_eq (inputs : List (Input × Supplier)) :
    sandboxesOf inputs = inputs.flatMap suppliedBy := by
  induction inputs with
  | nil => rfl
  | cons x rest ih => rw [sandboxesOf, ih, flatMap_cons, suppliedBy]

/-! ### What is merged -/

variable (sb : Sandbox)

theorem pushTool_pair (t : Tool) :
    pushNew toolKey (sb.toolKeys, sb.tools) t =
      ((sb.pushTool t).2.toolKeys, (sb.pushTool t).2.tools) := by
  by_cases h : toolKey t ∈ sb.toolKeys <;> simp [Sandbox.pushTool, pushNew, h]

theorem pushDep_pair (d : Dep) :
    pushNew depKey (sb.depKeys, sb.deps) d =
      ((sb.pushDep d).2.depKeys, (sb.pushDep d).2.deps) := by
  by_cases h : depKey d ∈ sb.depKeys <;> simp [Sandbox.pushDep, pushNew, h]

theorem pushTool_deps (t : Tool) :
    ((sb.pushTool t).2.depKeys, (sb.pushTool t).2.deps) = (sb.depKeys, sb.deps) := by
  rw [Sandbox.pushTool]
  split <;> rfl

theorem pushDep_tools (d : Dep) :
    ((sb.pushDep d).2.toolKeys, (sb.pushDep d).2.tools) = (sb.toolKeys, sb.tools) := by
  rw [Sandbox.pushDep]
  split <;> rfl

/-- A loop keeps what its rounds keep. -/
theorem foldl_keeps {σ α β : Type} (f : σ → β) {round : σ → α → σ} (h : ∀ s a, f (round s a) = f s)
    (l : List α) (s : σ) : f (l.foldl round s) = f s := by
  induction l generalizing s with
  | nil => rfl
  | cons a l ih => exact (ih _).trans (h s a)

/-- The tools of a sandbox are merged by themselves. -/
theorem mergeSandbox_tools (sb inbound : Sandbox) (id : Text) :
    (inbound.tools.map (nameTool id)).foldl (pushNew toolKey) (sb.toolKeys, sb.tools) =
      ((sb.mergeSandbox inbound id).toolKeys, (sb.mergeSandbox inbound id).tools) := by
  rw [foldl_map]
  refine Eq.trans ?_ (foldl_keeps (fun sb : Sandbox => (sb.toolKeys, sb.tools))
    (fun sb d => pushDep_tools sb (nameDep id d)) inbound.deps _).symm
  exact foldl_hom (fun sb : Sandbox => (sb.toolKeys, sb.tools)) fun sb t => pushTool_pair sb _

/-- So are the dependencies. -/
theorem mergeSandbox_deps (sb inbound : Sandbox) (id : Text) :
    (inbound.deps.map (nameDep id)).foldl (pushNew depKey) (sb.depKeys, sb.deps) =
      ((sb.mergeSandbox inbound id).depKeys, (sb.mergeSandbox inbound id).deps) := by
  have htools := foldl_keeps (fun sb : Sandbox => (sb.depKeys, sb.deps))
    (fun sb t => pushTool_deps sb (nameTool id t)) inbound.tools sb
  rw [foldl_map, ← htools]
  exact foldl_hom (fun sb : Sandbox => (sb.depKeys, sb.deps)) fun sb d => pushDep_pair sb _

/-! ### What was said -/

/-- A tool by what was said of it. -/
def Tool.said (t : Tool) : Tool := { t with id := [] }

/-- A dependency by what was said of it. -/
def Dep.said (d : Dep) : Dep := { d with id := [] }

/-- The tools of sandboxes, by what was said of them. -/
def saidTools (sbs : List Sandbox) : List Tool := (sbs.flatMap Sandbox.tools).map Tool.said

/-- The dependencies of sandboxes, by what was said of them. -/
def saidDeps (sbs : List Sandbox) : List Dep := (sbs.flatMap Sandbox.deps).map Dep.said

/-- The same is said first. -/
structure SameFirsts (sbs sbs' : List Sandbox) : Prop where
  tools : firsts toolKey [] (saidTools sbs) = firsts toolKey [] (saidTools sbs')
  deps : firsts depKey [] (saidDeps sbs) = firsts depKey [] (saidDeps sbs')

theorem saidTools_append (sbs sbs' : List Sandbox) :
    saidTools (sbs ++ sbs') = saidTools sbs ++ saidTools sbs' := by
  rw [saidTools, flatMap_append, map_append, saidTools, saidTools]

theorem saidDeps_append (sbs sbs' : List Sandbox) :
    saidDeps (sbs ++ sbs') = saidDeps sbs ++ saidDeps sbs' := by
  rw [saidDeps, flatMap_append, map_append, saidDeps, saidDeps]

theorem SameFirsts.refl (sbs : List Sandbox) : SameFirsts sbs sbs := ⟨rfl, rfl⟩

theorem SameFirsts.trans {sbs sbs' sbs'' : List Sandbox} (h : SameFirsts sbs sbs')
    (h' : SameFirsts sbs' sbs'') : SameFirsts sbs sbs'' :=
  ⟨h.tools.trans h'.tools, h.deps.trans h'.deps⟩

theorem SameFirsts.append {sbs₁ sbs₁' sbs₂ sbs₂' : List Sandbox} (h₁ : SameFirsts sbs₁ sbs₁')
    (h₂ : SameFirsts sbs₂ sbs₂') : SameFirsts (sbs₁ ++ sbs₂) (sbs₁' ++ sbs₂') := by
  constructor
  · rw [saidTools_append, saidTools_append]
    exact firsts_append_congr toolKey h₁.tools h₂.tools
  · rw [saidDeps_append, saidDeps_append]
    exact firsts_append_congr depKey h₁.deps h₂.deps

/-- A sandbox with nothing in it says nothing. -/
theorem sameFirsts_notEmpty : SameFirsts (notEmpty sb).toList [sb] := by
  rw [notEmpty]
  split
  · next h =>
    simp only [Sandbox.empty, Bool.and_eq_true, List.isEmpty_iff] at h
    constructor <;> simp [saidTools, saidDeps, h]
  · exact .refl _

/-- **The first ones are left** of a part of the sandboxes that is merged by itself. -/
theorem part_mergeAll {α : Type} (key : α → Text) (name : Text → α → α) (said : α → α)
    (part : Sandbox → List Text × List α) (hdefault : part .default = ([], []))
    (hkey : ∀ a, key (said a) = key a) (hsaid : ∀ id a, said (name id a) = said a)
    (hmerge : ∀ sb inbound id, ((part inbound).2.map (name id)).foldl (pushNew key) (part sb) =
      part (sb.mergeSandbox inbound id)) (results : List (Text × Sandbox)) :
    (part (mergeAll results)).2.map said =
      firsts key [] (((results.map Prod.snd).flatMap fun sb => (part sb).2).map said) := by
  have hall : (results.flatMap fun r => (part r.2).2.map (name r.1)).foldl (pushNew key) ([], []) =
      part (mergeAll results) := by
    rw [foldl_flatMap, ← hdefault]
    exact foldl_hom part fun sb r => hmerge sb r.2 r.1
  have hnames : ((results.map snd).flatMap fun sb => (part sb).2).map said =
      (results.flatMap fun r => (part r.2).2.map (name r.1)).map said := by
    simp [flatMap_map, map_flatMap, Function.comp_def, hsaid]
  rw [← hall, foldl_pushNew key ([], []), hnames, firsts_map]
  simp only [hkey]
  rfl

variable (results : List (Text × Sandbox))

/-- What was said of the tools of a merged sandbox. -/
theorem said_mergeAll :
    (mergeAll results).tools.map Tool.said =
        firsts toolKey [] (saidTools (results.map Prod.snd)) ∧
      (mergeAll results).deps.map Dep.said =
        firsts depKey [] (saidDeps (results.map Prod.snd)) :=
  ⟨part_mergeAll toolKey nameTool .said (fun sb => (sb.toolKeys, sb.tools)) rfl (fun _ => rfl)
      (fun _ _ => rfl) mergeSandbox_tools results,
    part_mergeAll depKey nameDep .said (fun sb => (sb.depKeys, sb.deps)) rfl (fun _ => rfl)
      (fun _ _ => rfl) mergeSandbox_deps results⟩

theorem sameFirsts_mergeAll :
    SameFirsts [mergeAll results] (results.map Prod.snd) := by
  obtain ⟨htools, hdeps⟩ := said_mergeAll results
  constructor
  · rw [saidTools, flatMap_singleton, htools, firsts_firsts toolKey (nil_subset _)]
  · rw [saidDeps, flatMap_singleton, hdeps, firsts_firsts depKey (nil_subset _)]

mutual

/-- **What an input hands on says first what was declared first**, through any number of groups. -/
theorem sameFirsts_transitive {r : Option (Addr × Sandbox)} :
    ∀ s : Supplier, s.transitive digest = some r → SameFirsts (r.map Prod.snd).toList s.sandboxes
  | .target addr sb, h => by
    cases h
    exact (congrArg (SameFirsts · [sb]) (by simp [Function.comp_def])).mpr (sameFirsts_notEmpty sb)
  | .group addr inputs, h => by
    obtain ⟨results, hresults, h⟩ := Option.bind_eq_some_iff.mp h
    cases h
    have hnotEmpty := sameFirsts_notEmpty (mergeAll results)
    refine ((congrArg (SameFirsts · _) (by simp [Function.comp_def])).mpr hnotEmpty).trans ?_
    exact (sameFirsts_mergeAll results).trans (sameFirsts_joined 0 inputs hresults)
  | .unresolved, h => by
    cases h

theorem sameFirsts_joined {results : List (Text × Sandbox)} (i : ℕ) :
    ∀ inputs : List (Input × Supplier), joined digest i inputs = some results →
      SameFirsts (results.map Prod.snd) (sandboxesOf inputs)
  | [], h => by
    cases h
    exact .refl []
  | (input, supplier) :: rest, h => by
    rw [joined] at h
    rw [sandboxesOf]
    split at h
    · next hinherits =>
      obtain ⟨result, hresult, h⟩ := bind_eq_some_iff.mp h
      obtain ⟨results', hresults', h⟩ := bind_eq_some_iff.mp h
      cases h
      rw [if_pos hinherits, map_append]
      refine SameFirsts.append ?_ (sameFirsts_joined (i + 1) rest hresults')
      have hone := sameFirsts_transitive supplier hresult
      cases result <;> exact hone
    · next hinherits =>
      rw [if_neg hinherits]
      exact sameFirsts_joined i rest h

end

/-- **What is collected** is what was declared first, for each key. -/
theorem collectTransitiveDeps_eq {inputs : List (Input × Supplier)} {sb : Sandbox}
    (h : collectTransitiveDeps digest inputs = some sb) :
    sb.tools.map Tool.said = firsts toolKey [] (saidTools (sandboxesOf inputs)) ∧
      sb.deps.map Dep.said = firsts depKey [] (saidDeps (sandboxesOf inputs)) := by
  obtain ⟨results, hresults, rfl⟩ := map_eq_some_iff.mp h
  obtain ⟨htools, hdeps⟩ := said_mergeAll results
  have hsame := sameFirsts_joined digest 0 inputs hresults
  exact ⟨htools.trans hsame.tools, hdeps.trans hsame.deps⟩

theorem isSome_joined (i : ℕ) (inputs : List (Input × Supplier)) :
    (joined digest i inputs).isSome ↔
      ∀ x ∈ inputs, inherits x.1 → (x.2.transitive digest).isSome := by
  induction inputs generalizing i with
  | nil => simp [joined]
  | cons x rest ih =>
    obtain ⟨input, supplier⟩ := x
    rw [joined, forall_mem_cons]
    split
    · next hinherits =>
      rw [← ih (i + 1)]
      cases hs : supplier.transitive digest with
      | none => simp [hinherits]
      | some r =>
        cases joined digest (i + 1) rest with
        | none | some => simp
    · next hinherits =>
      rw [ih i]
      simp [hinherits]

/-- Whether something is collected does not depend on the order. -/
theorem isSome_collect_of_perm {inputs inputs' : List (Input × Supplier)}
    (hperm : inputs'.Perm inputs) (h : (collectTransitiveDeps digest inputs).isSome) :
    ∃ sb, collectTransitiveDeps digest inputs' = some sb := by
  rw [collectTransitiveDeps, isSome_map, isSome_joined] at h
  refine isSome_iff_exists.mp ?_
  rw [collectTransitiveDeps, isSome_map, isSome_joined]
  exact fun x hx => h x (hperm.mem_iff.mp hx)

/-! ### What is folded -/

theorem Groups.of_push (groups : Groups) (g g' : Text) (i : Input) :
    (groups.push g i).of g' = groups.of g' ++ if g = g' then [i] else [] := by
  rw [push, of, SortedMap.get?_insert]
  by_cases h : g = g'
  · subst h
    simp
  · have h' : ¬g' = g := fun h' => h h'.symm
    simp [h, h', of]

/-- What a loop pushes into groups, one input at most in each round. -/
theorem Groups.of_foldl {α ω : Type} (groups : ω → Groups) (round : ω → α → ω)
    (p : α → Text → Prop) [∀ a g, Decidable (p a g)] (input : α → Input)
    (hround : ∀ w a g, (groups (round w a)).of g =
      (groups w).of g ++ if p a g then [input a] else []) (l : List α) (w : ω) (g : Text) :
    (groups (l.foldl round w)).of g = (groups w).of g ++ (l.filter (p · g)).map input := by
  induction l generalizing w with
  | nil => simp
  | cons a l ih =>
    rw [foldl_cons, ih, hround]
    by_cases h : p a g <;> simp [h]

/-- **What is folded in**: an input for each tool and each dependency, the tools in their groups,
and the dependencies that are there at runtime in theirs. -/
structure Folded (sb : Sandbox) (w w' : Wiring) : Prop where
  inputs : w'.inputs = w.inputs ++ sb.tools.map toolInput ++ sb.deps.map depInput
  tools : ∀ g, w'.toolGroups.of g =
    w.toolGroups.of g ++ (sb.tools.filter (·.group = g)).map toolInput
  deps : ∀ g, w'.depGroups.of g =
    w.depGroups.of g ++ (sb.deps.filter fun d => d.group = g ∧ d.runtime ∧ d.hash).map depInput
  runtimeDeps : ∀ g, w'.runtimeDepGroups.of g = w.runtimeDepGroups.of g ++
    (sb.deps.filter fun d => d.group = g ∧ d.runtime ∧ ¬d.hash).map depInput

theorem folded_tools (l : List Tool) (w : Wiring) :
    (l.foldl foldTool w).inputs = w.inputs ++ l.map toolInput ∧
      (l.foldl foldTool w).depGroups = w.depGroups ∧
      (l.foldl foldTool w).runtimeDepGroups = w.runtimeDepGroups := by
  induction l generalizing w with
  | nil => simp
  | cons t l ih =>
    obtain ⟨hinputs, hdeps, hruntime⟩ := ih (foldTool w t)
    refine ⟨?_, hdeps, hruntime⟩
    rw [foldl_cons, hinputs]
    simp [foldTool]

theorem folded_deps (l : List Dep) (w : Wiring) :
    (l.foldl foldDep w).inputs = w.inputs ++ l.map depInput ∧
      (l.foldl foldDep w).toolGroups = w.toolGroups := by
  have hround : ∀ (w : Wiring) d, (foldDep w d).inputs = w.inputs ++ [depInput d] ∧
      (foldDep w d).toolGroups = w.toolGroups := by
    intro w d
    rw [foldDep]
    split
    · split <;> exact ⟨rfl, rfl⟩
    · exact ⟨rfl, rfl⟩
  induction l generalizing w with
  | nil => simp
  | cons d l ih =>
    obtain ⟨hinputs, htools⟩ := ih (foldDep w d)
    obtain ⟨hinputs', htools'⟩ := hround w d
    rw [foldl_cons, hinputs, htools, hinputs', htools']
    simp

theorem folded (w : Wiring) : Folded sb w (foldTransitiveInputs sb w) := by
  obtain ⟨hinputs, hdeps, hruntime⟩ := folded_tools sb.tools w
  obtain ⟨hinputs', htools⟩ := folded_deps sb.deps (sb.tools.foldl foldTool w)
  refine ⟨by rw [foldTransitiveInputs, hinputs', hinputs], fun g => ?_, fun g => ?_, fun g => ?_⟩
  · rw [foldTransitiveInputs, htools]
    exact Groups.of_foldl Wiring.toolGroups foldTool (fun t g => t.group = g) toolInput
      (fun w t g => Groups.of_push _ _ _ _) sb.tools w g
  · rw [← hdeps]
    refine Groups.of_foldl Wiring.depGroups foldDep
      (fun d g => d.group = g ∧ d.runtime ∧ d.hash) depInput (fun w d g => ?_) sb.deps _ g
    rw [foldDep]
    by_cases hrun : d.runtime <;> by_cases hhash : d.hash <;> simp [hrun, hhash, Groups.of_push]
  · rw [← hruntime]
    refine Groups.of_foldl Wiring.runtimeDepGroups foldDep
      (fun d g => d.group = g ∧ d.runtime ∧ ¬d.hash) depInput (fun w d g => ?_) sb.deps _ g
    rw [foldDep]
    by_cases hrun : d.runtime <;> by_cases hhash : d.hash <;> simp [hrun, hhash, Groups.of_push]

/-! ### All that was said -/

/-- What tools are told apart by. -/
def Tool.name (t : Tool) : TargetAddr × Text := (t.ref, t.group)

/-- What dependencies are told apart by. -/
def Dep.name (d : Dep) : TargetAddr × Text × Mode := (d.ref, d.group, d.mode)

/-- What may be said of an input. -/
inductive Effect where
  | hashed
  | runtime

/-- What is said of a tool, which is always there at runtime. -/
def Tool.has : Effect → Tool → Bool
  | .hashed, t => t.hash
  | .runtime, _ => true

/-- What is said of a dependency. -/
def Dep.has : Effect → Dep → Bool
  | .hashed, d => d.hash
  | .runtime, d => d.runtime

/-- What holds of an input. -/
def hasEffect : Effect → Input → Bool
  | .hashed, i => i.hashed
  | .runtime, i => i.runtime

/-- An input has been put into a group. -/
def Wired (before after : Groups) (g : Text) (i : Input) : Prop :=
  ∃ new, after.of g = before.of g ++ new ∧ i ∈ new

/-- **All that contributors have said is kept**: for each of their tools and dependencies there is
one left, and its input is what any contributor of the same reference and group – and mode –
wants it to be. -/
structure Kept (sbs : List Sandbox) (sb : Sandbox) (w w' : Wiring) : Prop where
  tools : ∀ t ∈ sbs.flatMap Sandbox.tools, ∃ t' ∈ sb.tools, t'.name = t.name
  toolInputs : ∀ t ∈ sb.tools, toolInput t ∈ w'.inputs ∧
    (∀ e, hasEffect e (toolInput t) = true ↔
      ∃ t' ∈ sbs.flatMap Sandbox.tools, t'.name = t.name ∧ t'.has e = true) ∧
    Wired w.toolGroups w'.toolGroups t.group (toolInput t)
  deps : ∀ d ∈ sbs.flatMap Sandbox.deps, ∃ d' ∈ sb.deps, d'.name = d.name
  depInputs : ∀ d ∈ sb.deps, depInput d ∈ w'.inputs ∧
    (∀ e, hasEffect e (depInput d) = true ↔
      ∃ d' ∈ sbs.flatMap Sandbox.deps, d'.name = d.name ∧ d'.has e = true) ∧
    (Wired w.depGroups w'.depGroups d.group (depInput d) ∨
        Wired w.runtimeDepGroups w'.runtimeDepGroups d.group (depInput d) ↔
      hasEffect .runtime (depInput d) = true)

/-- **Whatever can come first says it all**: keys tell apart what is different, and the first tool
or dependency with a key that an input hands on says what anyone with this key says. -/
structure FirstsSayAll (inputs : List (Input × Supplier)) : Prop where
  toolKeys : ∀ t ∈ (sandboxesOf inputs).flatMap Sandbox.tools,
    ∀ t' ∈ (sandboxesOf inputs).flatMap Sandbox.tools,
      toolKey t = toolKey t' → t.name = t'.name
  tools : ∀ x ∈ inputs, ∀ t ∈ firsts toolKey [] ((suppliedBy x).flatMap Sandbox.tools), ∀ e,
    (∃ t' ∈ (sandboxesOf inputs).flatMap Sandbox.tools,
      toolKey t' = toolKey t ∧ t'.has e = true) → t.has e = true
  depKeys : ∀ d ∈ (sandboxesOf inputs).flatMap Sandbox.deps,
    ∀ d' ∈ (sandboxesOf inputs).flatMap Sandbox.deps,
      depKey d = depKey d' → d.name = d'.name
  deps : ∀ x ∈ inputs, ∀ d ∈ firsts depKey [] ((suppliedBy x).flatMap Sandbox.deps), ∀ e,
    (∃ d' ∈ (sandboxesOf inputs).flatMap Sandbox.deps,
      depKey d' = depKey d ∧ d'.has e = true) → d.has e = true

theorem wired_iff {before after : Groups} {g : Text} {new : List Input} {i : Input}
    (h : after.of g = before.of g ++ new) : Wired before after g i ↔ i ∈ new := by
  constructor
  · rintro ⟨new', h', hi⟩
    rwa [append_cancel_left (h.symm.trans h')]
  · exact fun hi => ⟨new, h, hi⟩

/-- What is in the groups is as the sandbox has it. -/
theorem Folded.wired {sb : Sandbox} {w w' : Wiring} (h : Folded sb w w') :
    (∀ t ∈ sb.tools, toolInput t ∈ w'.inputs ∧
      Wired w.toolGroups w'.toolGroups t.group (toolInput t)) ∧
    ∀ d ∈ sb.deps, depInput d ∈ w'.inputs ∧
      (Wired w.depGroups w'.depGroups d.group (depInput d) ∨
          Wired w.runtimeDepGroups w'.runtimeDepGroups d.group (depInput d) ↔
        hasEffect .runtime (depInput d) = true) := by
  constructor
  · intro t ht
    refine ⟨?_, (wired_iff (h.tools t.group)).mpr ?_⟩
    · rw [h.inputs]
      exact mem_append_left _ (mem_append_right _ (mem_map_of_mem ht))
    · exact mem_map_of_mem (mem_filter.mpr ⟨ht, by simp⟩)
  · intro d hd
    refine ⟨?_, ?_⟩
    · rw [h.inputs]
      exact mem_append_right _ (mem_map_of_mem hd)
    · rw [wired_iff (h.deps d.group), wired_iff (h.runtimeDeps d.group)]
      constructor
      · rintro (hmem | hmem) <;> obtain ⟨d', hd', heq⟩ := mem_map.mp hmem
        all_goals
          have hrun : d'.runtime = true :=
            (of_decide_eq_true (mem_filter.mp hd').2).2.1
          exact (congrArg Input.runtime heq).symm.trans hrun
      · intro hrun
        have hrun : d.runtime = true := hrun
        by_cases hhash : d.hash = true
        · exact .inl (mem_map_of_mem (mem_filter.mpr ⟨hd, by simp [hrun, hhash]⟩))
        · exact .inr (mem_map_of_mem (mem_filter.mpr ⟨hd, by simp [hrun, hhash]⟩))

theorem flatMap_sandboxesOf {α : Type} (part : Sandbox → List α)
    (inputs : List (Input × Supplier)) :
    (sandboxesOf inputs).flatMap part = inputs.flatMap fun x => (suppliedBy x).flatMap part := by
  rw [sandboxesOf_eq, flatMap_assoc]

theorem Tool.has_said (e : Effect) (t : Tool) : t.said.has e = t.has e := by
  cases e <;> rfl

theorem Dep.has_said (e : Effect) (d : Dep) : d.said.has e = d.has e := by
  cases e <;> rfl

theorem toolKey_eq_of_name (t t' : Tool) (h : t.name = t'.name) : toolKey t = toolKey t' := by
  obtain ⟨href, hgroup⟩ := mk.inj h
  rw [toolKey, toolKey, href, hgroup]

theorem depKey_eq_of_name (d d' : Dep) (h : d.name = d'.name) : depKey d = depKey d' := by
  obtain ⟨href, h⟩ := mk.inj h
  obtain ⟨hgroup, hmode⟩ := mk.inj h
  rw [depKey, depKey, href, hgroup, hmode]

theorem hasEffect_toolInput (e : Effect) (t : Tool) : hasEffect e (toolInput t) = t.has e := by
  cases e <;> rfl

theorem hasEffect_depInput (e : Effect) (d : Dep) : hasEffect e (depInput d) = d.has e := by
  cases e <;> rfl

section

variable {inputs : List (Input × Supplier)}

/-- All that was said in one part of the sandboxes is kept, in every order. -/
theorem part_kept_iff {α κ ν : Type} [DecidableEq κ] (part : Sandbox → List α) (key : α → κ)
    (name : α → ν) (has : Effect → α → Bool) (said : α → α) (hkeyOf : ∀ a, key (said a) = key a)
    (hnameOf : ∀ a, name (said a) = name a) (hhasOf : ∀ e a, has e (said a) = has e a)
    (hname : ∀ a b, name a = name b → key a = key b)
    (hcollect : ∀ inputs sb, collectTransitiveDeps digest inputs = some sb →
      (part sb).map said = firsts key [] (((sandboxesOf inputs).flatMap part).map said))
    (h : (collectTransitiveDeps digest inputs).isSome) :
    (∀ inputs' : List (Input × Supplier), inputs'.Perm inputs → ∀ l,
      (∃ sb, collectTransitiveDeps digest inputs' = some sb ∧ part sb = l) →
        (∀ a ∈ (sandboxesOf inputs).flatMap part, ∃ b ∈ l, name b = name a) ∧
        ∀ a ∈ l, ∀ e, (has e a = true ↔
          ∃ b ∈ (sandboxesOf inputs).flatMap part, name b = name a ∧ has e b = true)) ↔
    (∀ a ∈ (sandboxesOf inputs).flatMap part, ∀ b ∈ (sandboxesOf inputs).flatMap part,
      key a = key b → name a = name b) ∧
    ∀ x ∈ inputs, ∀ a ∈ firsts key [] ((suppliedBy x).flatMap part), ∀ e,
      (∃ b ∈ (sandboxesOf inputs).flatMap part, key b = key a ∧ has e b = true) →
        has e a = true := by
  rw [flatMap_sandboxesOf]
  refine firsts_join_marked_iff key said hkeyOf hnameOf hhasOf hname (fun inputs' l hl => ?_)
    fun inputs' hperm => ?_
  · obtain ⟨sb, hsb, rfl⟩ := hl
    rw [hcollect inputs' sb hsb, flatMap_sandboxesOf]
  · obtain ⟨sb, hsb⟩ := isSome_collect_of_perm digest hperm h
    exact ⟨part sb, sb, hsb, rfl⟩

/-- **Nothing that was said is lost, in whatever order the inputs are,** exactly if whatever can
come first says it all. -/
theorem kept_iff (w : Wiring) (h : (collectTransitiveDeps digest inputs).isSome) :
    (∀ inputs' : List (Input × Supplier), inputs'.Perm inputs → ∀ sb,
      collectTransitiveDeps digest inputs' = some sb →
        Kept (sandboxesOf inputs) sb w (foldTransitiveInputs sb w)) ↔
      FirstsSayAll inputs := by
  have htoolsIff := part_kept_iff digest Sandbox.tools toolKey Tool.name Tool.has .said
    (fun _ => rfl) (fun _ => rfl) Tool.has_said toolKey_eq_of_name
    (fun _ _ hsb => (collectTransitiveDeps_eq digest hsb).1) h
  have hdepsIff := part_kept_iff digest Sandbox.deps depKey Dep.name Dep.has .said
    (fun _ => rfl) (fun _ => rfl) Dep.has_said depKey_eq_of_name
    (fun _ _ hsb => (collectTransitiveDeps_eq digest hsb).2) h
  constructor
  · intro hkept
    obtain ⟨htoolKeys, htools⟩ := htoolsIff.mp fun inputs' hperm l hl => by
      obtain ⟨sb, hsb, rfl⟩ := hl
      refine ⟨(hkept inputs' hperm sb hsb).tools, fun t ht e => ?_⟩
      rw [← hasEffect_toolInput]
      exact ((hkept inputs' hperm sb hsb).toolInputs t ht).2.1 e
    obtain ⟨hdepKeys, hdeps⟩ := hdepsIff.mp fun inputs' hperm l hl => by
      obtain ⟨sb, hsb, rfl⟩ := hl
      refine ⟨(hkept inputs' hperm sb hsb).deps, fun d hd e => ?_⟩
      rw [← hasEffect_depInput]
      exact ((hkept inputs' hperm sb hsb).depInputs d hd).2.1 e
    exact ⟨htoolKeys, htools, hdepKeys, hdeps⟩
  · intro hfirsts inputs' hperm sb hsb
    obtain ⟨htools, htoolEffects⟩ := htoolsIff.mpr
      ⟨hfirsts.toolKeys, hfirsts.tools⟩ inputs' hperm sb.tools ⟨sb, hsb, rfl⟩
    obtain ⟨hdeps, hdepEffects⟩ := hdepsIff.mpr
      ⟨hfirsts.depKeys, hfirsts.deps⟩ inputs' hperm sb.deps ⟨sb, hsb, rfl⟩
    obtain ⟨hwiredTools, hwiredDeps⟩ := (folded sb w).wired
    refine ⟨htools, fun t ht => ?_, hdeps, fun d hd => ?_⟩
    · obtain ⟨hinput, hwired⟩ := hwiredTools t ht
      refine ⟨hinput, fun e => ?_, hwired⟩
      rw [hasEffect_toolInput]
      exact htoolEffects t ht e
    · obtain ⟨hinput, hwired⟩ := hwiredDeps d hd
      refine ⟨hinput, fun e => ?_, hwired⟩
      rw [hasEffect_depInput]
      exact hdepEffects d hd e

/-- **What build files declare is kept**: all that they can declare is hashed, and there at
runtime. -/
theorem firstsSayAll_of_forall (htoolKeys : ∀ t ∈ (sandboxesOf inputs).flatMap Sandbox.tools,
      ∀ t' ∈ (sandboxesOf inputs).flatMap Sandbox.tools, toolKey t = toolKey t' → t.name = t'.name)
    (hdepKeys : ∀ d ∈ (sandboxesOf inputs).flatMap Sandbox.deps,
      ∀ d' ∈ (sandboxesOf inputs).flatMap Sandbox.deps, depKey d = depKey d' → d.name = d'.name)
    (htools : ∀ t ∈ (sandboxesOf inputs).flatMap Sandbox.tools, t.hash = true)
    (hdeps : ∀ d ∈ (sandboxesOf inputs).flatMap Sandbox.deps, d.hash = true ∧ d.runtime = true) :
    FirstsSayAll inputs := by
  rw [flatMap_sandboxesOf] at htools hdeps
  refine ⟨htoolKeys, fun x hx t ht e _ => ?_, hdepKeys, fun x hx d hd e _ => ?_⟩
  · have hhash := htools t (mem_flatMap.mpr ⟨x, hx, (firsts_sublist toolKey [] _).mem ht⟩)
    cases e with
    | hashed => exact hhash
    | runtime => rfl
  · obtain ⟨hhash, hruntime⟩ :=
      hdeps d (mem_flatMap.mpr ⟨x, hx, (firsts_sublist depKey [] _).mem hd⟩)
    cases e with
    | hashed => exact hhash
    | runtime => exact hruntime

end

/-! ### A tool that two inputs hand on -/

/-- The address of a target of the package `p`. -/
def inPackage (name : Text) : TargetAddr := ⟨⟨['p'], name, .empty⟩, none, []⟩

/-- An input that is there at runtime. -/
def runtimeInput (name : Text) : Input := ⟨inPackage name, .standard, name, .empty, true, true⟩

/-- An input that hands on the tool `t`. -/
def handsOn (name : Text) (hash : Bool) : Input × Supplier :=
  (runtimeInput name, .target ⟨['p'], name, .empty⟩
    ⟨[⟨inPackage ['t'], [], hash, ['0']⟩], [], .empty, [], []⟩)

/-- Nothing but the inputs of the sandbox. -/
def noWiring : Wiring := ⟨[], .empty, .empty, .empty⟩

/-- Two inputs that want the tool hashed, one of them through a group. -/
def agreeing : List (Input × Supplier) :=
  [handsOn ['a'] true, (runtimeInput ['g'], .group ⟨['p'], ['g'], .empty⟩ [handsOn ['b'] true])]

theorem kept_iff_agreeing :
    (collectTransitiveDeps (fun _ => 0) agreeing).isSome ∧
      ∀ inputs' : List (Input × Supplier), inputs'.Perm agreeing → ∀ sb,
        collectTransitiveDeps (fun _ => 0) inputs' = some sb →
          Kept (sandboxesOf agreeing) sb noWiring (foldTransitiveInputs sb noWiring) := by
  have hsome : (collectTransitiveDeps (fun _ => 0) agreeing).isSome := by decide +kernel
  refine ⟨hsome, (kept_iff (fun _ => 0) noWiring hsome).mpr (firstsSayAll_of_forall ?_ ?_ ?_ ?_)⟩
  all_goals decide +kernel

/-- **The first one decides**: the tool is not hashed, although the second input wants it to be. In
the other order it is. -/
theorem unhashed_first :
    ∃ sb sb',
      collectTransitiveDeps (fun _ => 0) [handsOn ['a'] false, handsOn ['b'] true] = some sb ∧
      collectTransitiveDeps (fun _ => 0) [handsOn ['b'] true, handsOn ['a'] false] = some sb' ∧
      (foldTransitiveInputs sb noWiring).inputs.map Input.hashed = [false] ∧
      (foldTransitiveInputs sb' noWiring).inputs.map Input.hashed = [true] ∧
      ¬Kept (sandboxesOf [handsOn ['a'] false, handsOn ['b'] true]) sb noWiring
        (foldTransitiveInputs sb noWiring) := by
  refine ⟨_, _, rfl, rfl, rfl, rfl, fun h => ?_⟩
  obtain ⟨-, heffect, -⟩ := h.toolInputs _ mem_cons_self
  cases (heffect .hashed).mpr
    ⟨⟨inPackage ['t'], [], true, ['0']⟩, by decide +kernel, rfl, rfl⟩

end Heph.Transitive
