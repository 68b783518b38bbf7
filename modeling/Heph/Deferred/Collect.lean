import Heph.Lib.Distinct
import Heph.Deferred.Template
import Heph.Key.Target

/-!
# Deferred values: what is found in a config

A field of a driver's config may name targets, at any depth: `${read://…}` stands for what a
target has written, `${src://…}` for the path under which it is staged, `${resource:…}` for a
share of the machine. The host walks the config and makes an **input** of each target that is
named. A text that is written in several fields is one reference, found under the path of the
first of them.

An input is there once for each address and each of the two ways to use it. What it is called is
made from the path of the field that it was first found in, and not from the address.
-/

namespace Heph

open List

/-- `Display for TargetAddr`. -/
def TargetAddr.format (a : TargetAddr) : Text :=
  a.ref.format ++ (match a.output with
    | some output => '|' :: output
    | none => []) ++
  if a.filters.isEmpty then [] else '[' :: ([','].intercalate a.filters ++ [']'])

namespace Deferred

open Template

/-! ### Errors -/

/-- The causes of an error, by what their texts show. -/
inductive DeferredCause where
  | template (e : TemplateError)
  | addr (e : TargetAddrError)
  /-- `{addr} produces {n} files ({names})`. -/
  | files (addr : TargetAddr) (names : List Text)
  /-- `{addr}'s output is larger than … bytes`. -/
  | tooLarge (addr : TargetAddr)
  /-- `{addr}'s output is not valid UTF-8`. -/
  | notUtf8 (addr : TargetAddr)
  /-- `{addr}'s output is empty`. -/
  | empty (addr : TargetAddr)
  /-- `{addr}'s output has more than one line`. -/
  | manyLines (addr : TargetAddr)
  /-- `no value for {addr}`. -/
  | noValue (addr : TargetAddr)
  /-- The run was told no allotment for the reference with this text. -/
  | noAllotment (target : Addr) (raw : Text)
  /-- `open list file … (append)`. -/
  | openList (name : Text)
  /-- `the host did not resolve …`. -/
  | notResolved (raw : Text)
  /-- The reference with this argument was not staged. -/
  | notStaged (arg originId : Text)
  /-- The list of an input is not there. -/
  | readList (name : Text)
  /-- The reference with this argument staged no files. -/
  | stagedNone (arg : Text)
  /-- The reference with this argument staged these files. -/
  | stagedMany (arg : Text) (paths : List Text)
  deriving DecidableEq

/-- What an error is said to be about. -/
inductive DeferredContext where
  /-- In the field under a path. -/
  | field (path : Text)
  /-- A reference in the field under a path is not a target address. -/
  | notAddress (raw path arg : Text)
  /-- A reference of a text in the field under a path, for a consumer. -/
  | reading (consumer : Addr) (raw path : Text)
  /-- A text in the field under a path. -/
  | text (raw path : Text)
  /-- `unpack input origin_id=… source_addr=…`. -/
  | unpack (originId : Text) (source : Addr)
  /-- The references to staged files of a target. -/
  | staged (target : Addr)
  deriving DecidableEq

/-- An error: its cause, and what it is said to be about. -/
structure DeferredError where
  contexts : List DeferredContext
  cause : DeferredCause
  deriving DecidableEq

/-! ### Configs -/

/-- `Value`. The entries of a map are in the order of their keys, the order in which they are
walked. -/
inductive Value where
  | string (s : Text)
  /-- A number, a Boolean, or null. -/
  | scalar
  | list (items : List Value)
  | map (entries : List (Text × Value))

namespace Value

mutual

/-- The texts of a value, at any depth. -/
def texts : Value → List Text
  | .string s => [s]
  | .scalar => []
  | .list items => textsOfItems items
  | .map entries => textsOfEntries entries

/-- The texts of the items of a list. -/
def textsOfItems : List Value → List Text
  | [] => []
  | v :: rest => v.texts ++ textsOfItems rest

/-- The texts of the entries of a map. -/
def textsOfEntries : List (Text × Value) → List Text
  | [] => []
  | (_, v) :: rest => v.texts ++ textsOfEntries rest

end

/-- `any_ref`. -/
def anyRef (v : Value) : Bool := v.texts.any hasRef

end Value

/-! ### References -/

/-- The two ways to use a target. -/
inductive ProducerKind where
  /-- `READ`. -/
  | read
  /-- `SRC`. -/
  | src
  deriving DecidableEq, Repr

/-- The text of a kind. -/
def ProducerKind.text : ProducerKind → Text
  | .read => readKind
  | .src => srcKind

/-- `Producer`. -/
structure Producer where
  kind : ProducerKind
  addr : TargetAddr
  deriving DecidableEq

/-- `DeferredRef`. -/
structure DeferredRef where
  /-- The whole text of the field. -/
  raw : Text
  producers : List Producer
  /-- Where in the config it was found. -/
  path : Text
  deriving DecidableEq

/-- `DeferredRef::needs_sandbox`. -/
def DeferredRef.needsSandbox (r : DeferredRef) : Bool := r.producers.any fun p => p.kind = .src

/-- The kind of a claimed reference that is not one to a resource. -/
def producerKind (t : Ref) : ProducerKind := if t.kind = some srcKind then .src else .read

/-- The target that a claimed reference names. -/
def producerOf (pkg : PkgBuf) (path : Text) (t : Ref) : Except DeferredError Producer :=
  match TargetAddr.parse t.arg pkg with
  | .ok addr => .ok ⟨producerKind t, addr⟩
  | .error e => .error ⟨[.notAddress t.raw path t.arg], .addr e⟩

/-- The claimed references of a text that name a target. -/
def targetRefs (s : Text) : List Ref :=
  (claimed deferredKinds s).filter fun t => t.kind ≠ some resourceKind

/-- `parse_refs`. -/
def parseRefs (s : Text) (pkg : PkgBuf) (path : Text) :
    Except DeferredError (Option DeferredRef) :=
  if hasRef s then
    match parse s with
    | .error e => .error ⟨[.field path], .template e⟩
    | .ok _ => do
      let producers ← (targetRefs s).mapM (producerOf pkg path)
      let namesResource := (claimed deferredKinds s).any fun t => t.kind = some resourceKind
      return if producers.isEmpty && !namesResource then none else some ⟨s, producers, path⟩
  else .ok none

/-- The path of an item. -/
def itemPath (path : Text) (i : ℕ) : Text := path ++ '[' :: (Nat.toDigits 10 i ++ [']'])

/-- The path of an entry. -/
def entryPath (path k : Text) : Text := path ++ '.' :: k

section Walk

variable (pkg : PkgBuf)

mutual

/-- `walk`. -/
def walk : Value → Text → Except DeferredError (List DeferredRef)
  | .string s, path => do return (← parseRefs s pkg path).toList
  | .scalar, _ => .ok []
  | .list items, path => walkItems path 0 items
  | .map entries, path => walkEntries path entries

/-- The loop of `walk` over the items of a list. -/
def walkItems (path : Text) : ℕ → List Value → Except DeferredError (List DeferredRef)
  | _, [] => .ok []
  | i, v :: rest =>
    if v.anyRef then do
      let found ← walk v (itemPath path i)
      return found ++ (← walkItems path (i + 1) rest)
    else walkItems path (i + 1) rest

/-- The loop of `walk` over the entries of a map. -/
def walkEntries (path : Text) : List (Text × Value) → Except DeferredError (List DeferredRef)
  | [] => .ok []
  | (k, v) :: rest =>
    if v.anyRef then do
      let found ← walk v (entryPath path k)
      return found ++ (← walkEntries path rest)
    else walkEntries path rest

end

/-- `collect`. -/
def collect (config : SortedMap Text Value) : Except DeferredError (List DeferredRef) := do
  let found ← (config.entries.filter fun e => e.2.anyRef).mapM fun e => walk pkg e.2 e.1
  return sortFirsts DeferredRef.raw found.flatten

end Walk

/-! ### Inputs -/

/-- `DEFERRED_ORIGIN_PREFIX`. -/
def deferredOriginPrefix : Text := "option".toList

/-- `DEFERRED_SRC_ANNOTATION`. -/
def deferredSrcAnnotation : Text := "heph.deferred.src".toList

/-- `origin_id_for`. -/
def originIdFor (r : DeferredRef) (p : Producer) (via : Option Addr) : Text :=
  deferredOriginPrefix ++ '|' :: ((match via with
    | some v => v.format ++ ['|']
    | none => []) ++ (p.kind.text ++ '|' :: r.path))

/-- The input of a target that is named. -/
def inputOf (via : Option Addr) (e : DeferredRef × Producer) : Input :=
  { ref := e.2.addr
    mode := .standard
    originId := originIdFor e.1 e.2 via
    annotations := if e.2.kind = .src then SortedMap.empty.insert deferredSrcAnnotation []
      else .empty
    hashed := true
    runtime := e.2.kind = .src }

variable (refs : List DeferredRef)

/-- The targets that are named, each with the reference that names it. -/
def namedBy : List (DeferredRef × Producer) :=
  refs.flatMap fun r => r.producers.map (r, ·)

/-- `inputs_for_labelled`: the first for each address and kind. -/
def inputsForLabelled (via : Option Addr) : List Input :=
  (firsts (fun e : DeferredRef × Producer => (e.2.addr.format, e.2.kind)) [] (namedBy refs)).map
    (inputOf via)

/-- `inputs_for`. -/
def inputsFor : List Input := inputsForLabelled refs none

/-! ### What is found -/

section Found

variable {pkg : PkgBuf} {s path : Text} {r : DeferredRef} {texts texts' : List Text}
  {found found' : List DeferredRef}

/-- **What a reference is told by its text**: the targets it names are those of the claimed
references, in their order. -/
structure FoundIn (pkg : PkgBuf) (r : DeferredRef) : Prop where
  tokenizes : ∃ ps, parse r.raw = .ok ps
  producers : (targetRefs r.raw).mapM (producerOf pkg r.path) = .ok r.producers
  claimed : claimed deferredKinds r.raw ≠ []

theorem foundIn_of_parseRefs (h : parseRefs s pkg path = .ok (some r)) :
    r.raw = s ∧ FoundIn pkg r := by
  rw [parseRefs] at h
  split at h
  · split at h
    · cases h
    · next ps hps =>
      obtain ⟨producers, hproducers, h⟩ := bind_ok.mp h
      obtain ⟨hsome, rfl⟩ : ¬(producers.isEmpty && !((claimed deferredKinds s).any fun t =>
          t.kind = some resourceKind)) ∧ (⟨s, producers, path⟩ : DeferredRef) = r := by
        have := Except.ok.inj h
        split at this
        · cases this
        · next hsome => exact ⟨hsome, Option.some.inj this⟩
      refine ⟨rfl, ⟨ps, hps⟩, hproducers, fun hnil => hsome ?_⟩
      have hno : targetRefs s = [] := by rw [targetRefs, hnil, filter_nil]
      rw [hno] at hproducers
      obtain rfl : [] = producers := by simpa [pure, Except.pure] using hproducers
      rw [hnil]
      rfl
  · cases Except.ok.inj h

theorem claimed_eq_nil_of_parseRefs (h : parseRefs s pkg path = .ok none) :
    claimed deferredKinds s = [] := by
  rw [parseRefs] at h
  split at h
  · split at h
    · cases h
    · next ps hps =>
      obtain ⟨producers, hproducers, h⟩ := bind_ok.mp h
      have hnone : producers.isEmpty && !((claimed deferredKinds s).any fun t =>
          t.kind = some resourceKind) := by
        by_contra hsome
        have := Except.ok.inj h
        rw [if_neg hsome] at this
        cases this
      rw [Bool.and_eq_true, List.isEmpty_iff, Bool.not_eq_true'] at hnone
      refine eq_nil_iff_forall_not_mem.mpr fun t ht => ?_
      by_cases hkind : t.kind = some resourceKind
      · have hany := any_eq_false.mp hnone.2 t ht
        exact absurd (decide_eq_true hkind) hany
      · obtain ⟨p, hp, -⟩ := exists_ok_of_mapM_ok hproducers
          (mem_filter.mpr ⟨ht, decide_eq_true hkind⟩)
        rw [hnone.1] at hp
        cases hp
  · next hno =>
    refine eq_nil_iff_forall_not_mem.mpr fun t ht => hno ?_
    obtain ⟨ps, hps⟩ := exists_parse_of_mem_claimed ht
    exact (hasRef_iff hps).mpr ⟨_, ((mem_claimed hps).mp ht).1⟩

/-- **What is found in texts**: references of these texts, and one for each text that has a
claimed reference. -/
structure Finds (pkg : PkgBuf) (texts : List Text) (found : List DeferredRef) : Prop where
  sound : ∀ r ∈ found, r.raw ∈ texts ∧ FoundIn pkg r
  all : ∀ s ∈ texts, claimed deferredKinds s ≠ [] → ∃ r ∈ found, r.raw = s

theorem Finds.append (h : Finds pkg texts found) (h' : Finds pkg texts' found') :
    Finds pkg (texts ++ texts') (found ++ found') where
  sound r hr := by
    rcases mem_append.mp hr with hr | hr
    · exact (h.sound r hr).imp_left (mem_append_left texts')
    · exact (h'.sound r hr).imp_left (mem_append_right texts)
  all s hs hclaimed := by
    rcases mem_append.mp hs with hs | hs
    · obtain ⟨r, hr, hraw⟩ := h.all s hs hclaimed
      exact ⟨r, mem_append_left found' hr, hraw⟩
    · obtain ⟨r, hr, hraw⟩ := h'.all s hs hclaimed
      exact ⟨r, mem_append_right found hr, hraw⟩

/-- Where there is no beginning of a reference, nothing is to be found. -/
theorem finds_nil (h : ∀ s ∈ texts, hasRef s = false) : Finds pkg texts [] where
  sound r hr := by cases hr
  all s hs hclaimed := by
    obtain ⟨t, ht⟩ := exists_mem_of_ne_nil _ hclaimed
    obtain ⟨ps, hps⟩ := exists_parse_of_mem_claimed ht
    have := (hasRef_iff hps).mpr ⟨_, ((mem_claimed hps).mp ht).1⟩
    rw [h s hs] at this
    cases this

theorem finds_of_not_anyRef {v : Value} (h : ¬v.anyRef = true) : Finds pkg v.texts [] := by
  refine finds_nil fun s hs => ?_
  by_contra href
  exact h (any_eq_true.mpr ⟨s, hs, by simpa using href⟩)

mutual

/-- **What a walk finds.** -/
theorem finds_walk : ∀ {v : Value} {path : Text} {found : List DeferredRef},
    walk pkg v path = .ok found → Finds pkg v.texts found
  | .string s, path, found, h => by
    obtain ⟨o, ho, h⟩ := bind_ok.mp h
    cases h
    cases o with
    | none =>
      refine ⟨fun r hr => absurd hr not_mem_nil, fun s' hs' hclaimed => ?_⟩
      rw [Value.texts, mem_singleton] at hs'
      exact absurd (claimed_eq_nil_of_parseRefs ho) (hs' ▸ hclaimed)
    | some r =>
      obtain ⟨hraw, hr⟩ := foundIn_of_parseRefs ho
      refine ⟨fun r' hr' => ?_, fun s' hs' _ => ⟨r, mem_singleton_self r, ?_⟩⟩
      · obtain rfl := mem_singleton.mp hr'
        exact ⟨by rw [Value.texts, hraw]; exact mem_singleton_self s, hr⟩
      · rw [Value.texts, mem_singleton] at hs'
        rw [hraw, hs']
  | .scalar, path, found, h => by
    cases h
    exact finds_nil fun s hs => by cases hs
  | .list items, path, found, h => by
    exact finds_walkItems h
  | .map entries, path, found, h => by
    exact finds_walkEntries h

theorem finds_walkItems : ∀ {items : List Value} {path : Text} {i : ℕ} {found : List DeferredRef},
    walkItems pkg path i items = .ok found → Finds pkg (Value.textsOfItems items) found
  | [], path, i, found, h => by
    cases h
    exact finds_nil fun s hs => by cases hs
  | v :: rest, path, i, found, h => by
    rw [walkItems] at h
    split at h
    · obtain ⟨first, hfirst, h⟩ := bind_ok.mp h
      obtain ⟨others, hothers, h⟩ := bind_ok.mp h
      cases h
      exact (finds_walk hfirst).append (finds_walkItems hothers)
    · next hno => exact (finds_of_not_anyRef hno).append (finds_walkItems h)

theorem finds_walkEntries : ∀ {entries : List (Text × Value)} {path : Text}
    {found : List DeferredRef}, walkEntries pkg path entries = .ok found →
      Finds pkg (Value.textsOfEntries entries) found
  | [], path, found, h => by
    cases h
    exact finds_nil fun s hs => by cases hs
  | (k, v) :: rest, path, found, h => by
    rw [walkEntries] at h
    split at h
    · obtain ⟨first, hfirst, h⟩ := bind_ok.mp h
      obtain ⟨others, hothers, h⟩ := bind_ok.mp h
      cases h
      exact (finds_walk hfirst).append (finds_walkEntries hothers)
    · next hno => exact (finds_of_not_anyRef hno).append (finds_walkEntries h)

end

end Found

/-- The texts of a config. -/
def configTexts (config : SortedMap Text Value) : List Text :=
  config.entries.flatMap fun e => e.2.texts

variable {pkg : PkgBuf} {config : SortedMap Text Value} {refs : List DeferredRef}

/-- **What is collected** from a config. -/
theorem finds_collect (h : collect pkg config = .ok refs) :
    Finds pkg (configTexts config) refs := by
  obtain ⟨found, hfound, h⟩ := bind_ok.mp h
  cases h
  constructor
  · intro r hr
    obtain ⟨part, hpart, hr⟩ := mem_flatten.mp (mem_of_mem_sortFirsts _ hr)
    obtain ⟨e, he, hwalk⟩ := (mem_iff_of_mapM_ok hfound).mp hpart
    obtain ⟨hraw, hr⟩ := (finds_walk hwalk).sound r hr
    exact ⟨mem_flatMap.mpr ⟨e, (mem_filter.mp he).1, hraw⟩, hr⟩
  · intro s hs hclaimed
    obtain ⟨e, he, hs⟩ := mem_flatMap.mp hs
    -- an entry that is not walked has no reference
    have hany : e.2.anyRef = true := by
      by_contra hno
      have hnone : Finds pkg e.2.texts [] := finds_of_not_anyRef hno
      obtain ⟨r, hr, -⟩ := hnone.all s hs hclaimed
      cases hr
    obtain ⟨part, hpart, hwalk⟩ := exists_ok_of_mapM_ok hfound (mem_filter.mpr ⟨he, hany⟩)
    obtain ⟨r, hr, rfl⟩ := (finds_walk hwalk).all s hs hclaimed
    have hmem : r.raw ∈ (sortFirsts DeferredRef.raw found.flatten).map DeferredRef.raw := by
      rw [map_sortFirsts, mem_sortDedup]
      exact mem_map_of_mem (mem_flatten.mpr ⟨part, hpart, hr⟩)
    exact mem_map.mp hmem

/-- **No text is collected twice.** -/
theorem nodup_collect (h : collect pkg config = .ok refs) : (refs.map DeferredRef.raw).Nodup := by
  obtain ⟨found, -, h⟩ := bind_ok.mp h
  cases h
  rw [map_sortFirsts]
  exact nodup_sortDedup _

end Deferred

end Heph
