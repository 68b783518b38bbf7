import Heph.Deferred.Fill

/-!
# When the deferred fields are substituted exactly

A field is to be its own text, with each of its references replaced with what that reference
names, whatever the targets have written and wherever their files are staged. What is looked up
on the way there is looked up by texts: a value by how an address is **printed**, or in a field
that waits for the sandbox by how it is **spelt**; a path by what an input is **called**. And an
input is called after the first field that its address was found in.

So the fields come out right exactly if these texts do not mislead
(`Deferred.Faithful`): what is read under a text is what the reference names, and the input
that is called after a field is that of the one address that the field stages. A second field with
the same address in it has no input of its own. And a path is the only line of a list, so it has to
be a line (`Deferred.DeferredWorld.Listed`).
-/

namespace Heph.Deferred

open List Option SortedMap Prod String Template

/-! ### What a field is to be -/

/-- **What a claimed reference names**: a share of the machine, what a target has written, or the
path that it is staged under. -/
def DeferredWorld.denotes (w : DeferredWorld) (pkg : PkgBuf) (t : Ref) :
    Except DeferredCause Text :=
  if t.kind = some resourceKind then .ok ((w.allotment.get? t.arg).getD t.raw)
  else
    match TargetAddr.parse t.arg pkg with
    | .error e => .error (.addr e)
    | .ok a =>
      match producerKind t with
      | .read => w.value a
      | .src => onlyPath t.arg (w.staged a).flatten

/-- **What is said of a reference that names nothing.** Where a target has no artifact at all,
there is no input that is staged for it. -/
def DeferredWorld.Refuses (w : DeferredWorld) (pkg : PkgBuf) (t : Ref) (c : DeferredCause) :
    Prop :=
  w.denotes pkg t = .error c ∨
    w.denotes pkg t = .error (.stagedNone t.arg) ∧ ∃ originId, c = .notStaged t.arg originId

/-- **The deferred fields are substituted exactly**: every text of the config with a claimed
reference has as its value the text with its references replaced; or else one of the references
names nothing, and the error says so. -/
def Exact (config : SortedMap Text Value) (target : Addr) (w : DeferredWorld) :
    Except DeferredError (SortedMap Text DeferredValue) → Prop
  | .ok values => ∀ s ∈ configTexts config, claimed deferredKinds s ≠ [] →
      ∃ v, Replaced deferredKinds (w.denotes target.package) s v ∧
        values.get? s = some (.ready v)
  | .error e => ∃ s ∈ configTexts config, ∃ t ∈ claimed deferredKinds s,
      w.Refuses target.package t e.cause

/-- **What is staged for the references can be listed**: each path is a line. -/
def DeferredWorld.Listed (w : DeferredWorld) (refs : List DeferredRef) : Prop :=
  ∀ r ∈ refs, ∀ p ∈ r.producers, p.kind = .src → ∀ q ∈ (w.staged p.addr).flatten, IsLine q

/-- Every claimed reference names something. -/
def DeferredWorld.NamesAll (w : DeferredWorld) (pkg : PkgBuf) (refs : List DeferredRef) : Prop :=
  ∀ r ∈ refs, ∀ t ∈ claimed deferredKinds r.raw, ∃ v, w.denotes pkg t = .ok v

/-! ### The texts that are looked up -/

/-- A reference of a field names a target, which is read or staged. -/
structure Names (pkg : PkgBuf) (r : DeferredRef) (t : Ref) (p : Producer) : Prop where
  mem : t ∈ targetRefs r.raw
  producer : producerOf pkg r.path t = .ok p

/-- A target that the field reads, or stages, is printed like this. -/
def DeferredRef.Prints (r : DeferredRef) (kind : ProducerKind) (k : Text) : Prop :=
  ∃ p ∈ r.producers, p.kind = kind ∧ p.addr.format = k

instance (r : DeferredRef) (kind : ProducerKind) (k : Text) : Decidable (r.Prints kind k) :=
  inferInstanceAs (Decidable (∃ p ∈ r.producers, _))

/-- What a value is looked up by: how the address is spelt, in a field that waits for the sandbox,
or else how it is printed. -/
def readKey (r : DeferredRef) (t : Ref) (a : TargetAddr) : Text :=
  if r.needsSandbox then t.arg else a.format

/-- The first reference that reads an address which is printed like this, with the address. -/
def firstRead (refs : List DeferredRef) (k : Text) : Option (DeferredRef × Producer) :=
  (readBy refs).find? fun e => e.2.addr.format = k

/-- The first reference that stages an address which is printed like this, with the address. -/
def firstStaged (refs : List DeferredRef) (k : Text) : Option (DeferredRef × Producer) :=
  ((namedBy refs).filter fun e => e.2.kind = .src).find? fun e => e.2.addr.format = k

/-- **The path of the field stands for the address**: the first reference that stages it has this
path, and that of no other address has. -/
def StagedAlone (refs : List DeferredRef) (r : DeferredRef) (a : TargetAddr) : Prop :=
  (∃ e, firstStaged refs a.format = some e ∧ e.1.path = r.path ∧ e.2.addr = a) ∧
    ∀ k e, firstStaged refs k = some e → e.1.path = r.path → k = a.format

/-- What the inputs of a field are called. -/
def srcOriginId (r : DeferredRef) : Text :=
  deferredOriginPrefix ++ '|' :: (srcKind ++ '|' :: r.path)

/-- **The texts do not mislead.** -/
structure Faithful (pkg : PkgBuf) (refs : List DeferredRef) : Prop where
  /-- There is no slash in the path of a field that has something staged. -/
  path : ∀ r ∈ refs, r.needsSandbox = true → '/' ∉ r.path
  /-- What is read under the text that a value is looked up by is the output that the reference
  names; and in a field that waits for the sandbox, one of the addresses that it reads is printed
  like this. -/
  read : ∀ r ∈ refs, ∀ t a, Names pkg r t ⟨.read, a⟩ →
    (r.needsSandbox = true → r.Prints .read t.arg) ∧
      ∃ e, firstRead refs (readKey r t a) = some e ∧ e.2.addr.source = a.source
  /-- What a field stages is spelt as it is printed, it is not read in this field as well, and the
  path of the field stands for it. -/
  src : ∀ r ∈ refs, ∀ t a, Names pkg r t ⟨.src, a⟩ →
    a.format = t.arg ∧ ¬r.Prints .read t.arg ∧ StagedAlone refs r a

variable {pkg : PkgBuf} {r : DeferredRef} {t : Ref} {refs : List DeferredRef} {p : Producer}
  {byAddr : SortedMap Text Text} {k v : Text} {w : DeferredWorld} {target : Addr}
  {lists : SortedMap Text Text} {values : SortedMap Text DeferredValue} {a : TargetAddr}
  {e : DeferredRef × Producer}

theorem mem_targetRefs {s : Text} :
    t ∈ targetRefs s ↔ t ∈ claimed deferredKinds s ∧ t.kind ≠ some resourceKind := by
  rw [targetRefs, mem_filter, decide_eq_true_eq]

theorem Names.not_resource (h : Names pkg r t p) : t.kind ≠ some resourceKind :=
  (mem_targetRefs.mp h.mem).2

theorem Names.parse (h : Names pkg r t p) :
    TargetAddr.parse t.arg pkg = .ok p.addr ∧ producerKind t = p.kind := by
  obtain ⟨-, h⟩ := h
  rw [producerOf] at h
  split at h
  · next a ha =>
    cases h
    exact ⟨ha, rfl⟩
  · cases h

section

variable (hr : FoundIn pkg r)

include hr

theorem FoundIn.mem_producers : p ∈ r.producers ↔ ∃ t, Names pkg r t p := by
  rw [mem_iff_of_mapM_ok hr.producers]
  exact exists_congr fun t => ⟨fun ⟨ht, hp⟩ => ⟨ht, hp⟩, fun h => ⟨h.mem, h.producer⟩⟩

theorem FoundIn.exists_names (ht : t ∈ targetRefs r.raw) : ∃ p, Names pkg r t p := by
  obtain ⟨p, -, hp⟩ := exists_ok_of_mapM_ok hr.producers ht
  exact ⟨p, ht, hp⟩

theorem FoundIn.prints (h : Names pkg r t p) : r.Prints p.kind p.addr.format :=
  ⟨p, hr.mem_producers.mpr ⟨t, h⟩, rfl, rfl⟩

theorem FoundIn.needsSandbox (h : Names pkg r t ⟨.src, a⟩) : r.needsSandbox = true :=
  any_eq_true.mpr ⟨_, hr.mem_producers.mpr ⟨t, h⟩, rfl⟩

end

theorem mem_readBy :
    (r, p) ∈ readBy refs ↔ r ∈ refs ∧ p ∈ r.producers ∧ p.kind = .read := by
  simp [readBy, namedBy, and_assoc]

theorem exists_firstRead (hr : r ∈ refs) (h : r.Prints .read k) :
    ∃ e, firstRead refs k = some e := by
  obtain ⟨p, hp, hk, hformat⟩ := h
  refine isSome_iff_exists.mp (find?_isSome.mpr ⟨(r, p), mem_readBy.mpr ⟨hr, hp, hk⟩, ?_⟩)
  simpa using hformat

theorem originIdFor_src (h : p.kind = .src) :
    originIdFor r p none = srcOriginId r := by
  rw [originIdFor, h]
  rfl

theorem srcOriginId_inj {r' : DeferredRef} : srcOriginId r = srcOriginId r' ↔ r.path = r'.path := by
  simp [srcOriginId]

/-- The references that inputs were made for, and are called after the path of a field. -/
theorem mem_inputsFor_iff :
    e ∈ (firsts (fun e => (e.2.addr.format, e.2.kind)) [] (namedBy refs)).filter
        (fun e => e.2.kind = .src && e.1.path = r.path) ↔
      firstStaged refs e.2.addr.format = some e ∧ e.1.path = r.path := by
  have hfind (hk : e.2.kind = .src) : firstStaged refs e.2.addr.format =
      (namedBy refs).find? fun b => (b.2.addr.format, b.2.kind) = (e.2.addr.format, e.2.kind) := by
    rw [firstStaged, find?_filter]
    refine find?_congr fun b _ => ?_
    simp [hk, and_comm]
  rw [mem_filter, Bool.and_eq_true, decide_eq_true_eq, decide_eq_true_eq, ← and_assoc]
  refine and_congr_left fun _ => ⟨fun ⟨he, hk⟩ => ?_, fun he => ?_⟩
  · rw [hfind hk]
    exact find?_of_mem_firsts _ he
  · have hmem := mem_filter.mp (mem_of_find?_eq_some he)
    have hk : e.2.kind = .src := of_decide_eq_true hmem.2
    refine ⟨?_, hk⟩
    have hkeys : (e.2.addr.format, e.2.kind) ∈
        (firsts (fun e => (e.2.addr.format, e.2.kind)) [] (namedBy refs)).map
          fun e => (e.2.addr.format, e.2.kind) :=
      (mem_map_firsts _).mpr ⟨mem_map_of_mem hmem.1, not_mem_nil⟩
    obtain ⟨e', he', hkey⟩ := mem_map.mp hkeys
    have hfirst := find?_of_mem_firsts _ he'
    simp only [hkey] at hfirst
    rw [hfind hk] at he
    rwa [← some.inj (he.symm.trans hfirst)] at he'

/-- **What is staged under what the inputs of a field are called** is the one address exactly if
the path stands for it. -/
theorem stagedUnder_eq_singleton :
    stagedUnder (inputsFor refs) (srcOriginId r) = [a] ↔ StagedAlone refs r a := by
  let l := (firsts (fun e : DeferredRef × Producer => (e.2.addr.format, e.2.kind)) []
    (namedBy refs)).filter fun e => e.2.kind = .src && e.1.path = r.path
  have hl : stagedUnder (inputsFor refs) (srcOriginId r) = l.map (·.2.addr) := by
    rw [stagedUnder, inputsFor, inputsForLabelled, List.filter_map, List.map_map]
    refine congrArg _ (filter_congr fun e _ => ?_)
    by_cases hk : e.2.kind = .src
    · simp [inputOf, hk, originIdFor_src hk, srcOriginId_inj]
    · simp [inputOf, hk]
  have hnodup : (l.map fun e => (e.2.addr.format, e.2.kind)).Nodup :=
    (nodup_map_firsts ..).sublist (filter_sublist.map _)
  rw [hl]
  constructor
  · intro h
    obtain ⟨e, he, ha⟩ := map_eq_singleton_iff.mp h
    have hmem : e ∈ l := he ▸ mem_singleton_self e
    obtain ⟨hfirst, hpath⟩ := mem_inputsFor_iff.mp hmem
    refine ⟨⟨e, ha ▸ hfirst, hpath, ha⟩, fun k e' he' hpath' => ?_⟩
    have hk : e'.2.addr.format = k := by simpa using find?_some he'
    have hmem' : e' ∈ l := mem_inputsFor_iff.mpr ⟨hk.symm ▸ he', hpath'⟩
    rw [he, mem_singleton] at hmem'
    rw [← hk, hmem', ha]
  · rintro ⟨⟨e, he, hpath, rfl⟩, hother⟩
    have hmem : e ∈ l := mem_inputsFor_iff.mpr ⟨he, hpath⟩
    have hkey : ∀ e' ∈ l, e' = e := fun e' he' => by
      obtain ⟨hfirst, hpath'⟩ := mem_inputsFor_iff.mp he'
      rw [hother _ e' hfirst hpath', he] at hfirst
      exact (some.inj hfirst).symm
    have hle : l.length ≤ 1 := by
      have hrep := hnodup.of_map
      rw [eq_replicate_of_mem hkey] at hrep
      exact nodup_replicate.mp hrep
    have hpos := length_pos_of_mem hmem
    obtain ⟨x, hx⟩ := length_eq_one_iff.mp (by omega : l.length = 1)
    rw [hx, mem_singleton] at hmem
    rw [hx, ← hmem]
    rfl

/-- A field that waits for the sandbox gets what was read for the addresses that it reads. -/
theorem get?_readsOf : (readsOf byAddr r).get? k = some v ↔
    r.Prints .read k ∧ byAddr.get? k = some v := by
  constructor
  · intro h
    have hmem := mem_of_mem_ofList (get?_eq_some.mp h)
    obtain ⟨p, hp, hv⟩ := mem_filterMap.mp hmem
    obtain ⟨hp, hkind⟩ := mem_filter.mp hp
    obtain ⟨v', hv', heq⟩ := map_eq_some_iff.mp hv
    cases heq
    exact ⟨⟨p, hp, of_decide_eq_true hkind, rfl⟩, hv'⟩
  · rintro ⟨⟨p, hp, hkind, rfl⟩, hv⟩
    refine get?_ofList (e := (p.addr.format, v)) ?_ ?_
    · exact mem_filterMap.mpr
        ⟨p, mem_filter.mpr ⟨hp, decide_eq_true hkind⟩, by rw [hv]; rfl⟩
    · intro e he hk
      obtain ⟨q, -, hq⟩ := mem_filterMap.mp he
      obtain ⟨v', hv', rfl⟩ := map_eq_some_iff.mp hq
      have hkey : q.addr.format = p.addr.format := hk
      rw [hkey, hv] at hv'
      exact (some.inj hv').symm

/-- A field that waits for the sandbox is told one name for the addresses that it stages. -/
theorem get?_srcsOf {o : Text} : (srcsOf r).get? k = some o ↔
    r.Prints .src k ∧ o = srcOriginId r := by
  constructor
  · intro h
    have hmem := mem_of_mem_ofList (get?_eq_some.mp h)
    obtain ⟨p, hp, heq⟩ := mem_map.mp hmem
    obtain ⟨hp, hkind⟩ := mem_filter.mp hp
    have hkind := of_decide_eq_true hkind
    cases heq
    exact ⟨⟨p, hp, hkind, rfl⟩, originIdFor_src hkind⟩
  · rintro ⟨⟨p, hp, hkind, rfl⟩, rfl⟩
    refine get?_ofList (e := (p.addr.format, srcOriginId r)) ?_ ?_
    · exact mem_map.mpr ⟨p, mem_filter.mpr ⟨hp, decide_eq_true hkind⟩,
        by rw [originIdFor_src hkind]⟩
    · intro e he hk
      obtain ⟨q, hq, rfl⟩ := mem_map.mp he
      exact originIdFor_src (of_decide_eq_true (mem_filter.mp hq).2)

/-- The same output has the same value. -/
theorem value_ok_of_source {a b : TargetAddr} (h : a.source = b.source) (hv : w.value a = .ok v) :
    w.value b = .ok v := by
  rw [DeferredWorld.value, h] at hv
  rw [DeferredWorld.value]
  revert hv
  rw [readDeferredValue, readDeferredValue]
  split
  · exact fun h => by cases h
  · dsimp only
    split
    · exact fun h => by cases h
    · split
      · exact fun h => by cases h
      · split
        · exact fun h => by cases h
        · split
          · exact fun h => by cases h
          · exact id

/-- **What is read under a text** is the value of the first that prints like it. -/
theorem exists_value_of_firstRead (h : readDeferred w target refs = .ok byAddr)
    (he : firstRead refs k = some e) : ∃ v, w.value e.2.addr = .ok v ∧ byAddr.get? k = some v := by
  have hk : e.2.addr.format = k := by simpa using find?_some he
  obtain ⟨v, hv⟩ := value_ok_of_deferredValuesLoop h (hk ▸ he) get?_empty
  refine ⟨v, hv, ?_⟩
  rw [get?_of_deferredValuesLoop h, get?_empty, none_or]
  exact bind_eq_some_iff.mpr ⟨e, he, by rw [hv]; rfl⟩

/-! ### What the fields get -/

/-- In a field that does not wait for the sandbox, the host claims all there is to claim. -/
theorem claims_eq_of_not_needsSandbox {ps : List Piece} (hr : FoundIn target.package r)
    (hps : parse r.raw = .ok ps) (hno : ¬r.needsSandbox = true) (ht : .ref t ∈ ps) :
    claims t.kind t.arg deferredKinds = claims t.kind t.arg [readKind, resourceKind] := by
  by_cases hsrc : t.kind = some srcKind
  · -- a claimed one would have been staged
    have hnot : claims t.kind t.arg deferredKinds = false := by
      by_contra hclaims
      have hmem : t ∈ targetRefs r.raw := by
        refine mem_targetRefs.mpr ⟨(mem_claimed hps).mpr ⟨ht, by simpa using hclaims⟩, ?_⟩
        rw [hsrc]
        decide
      obtain ⟨⟨kind, a⟩, hp⟩ := hr.exists_names hmem
      obtain rfl : .src = kind := by simpa [producerKind, hsrc] using hp.parse.2
      exact hno (hr.needsSandbox hp)
    rw [hnot, hsrc]
    rfl
  · rw [claims, claims]
    cases hk : t.kind with
    | none => rfl
    | some k =>
      have hks : k ≠ srcKind := fun h => hsrc (by rw [hk, h])
      simp [deferredKinds, hks]

theorem mem_claimed_of_not_needsSandbox (hr : FoundIn target.package r)
    (hno : ¬r.needsSandbox = true) :
    t ∈ claimed [readKind, resourceKind] r.raw ↔ t ∈ claimed deferredKinds r.raw := by
  obtain ⟨ps, hps⟩ := hr.tokenizes
  rw [mem_claimed hps, mem_claimed hps]
  exact and_congr_right fun ht => by rw [claims_eq_of_not_needsSandbox hr hps hno ht]

/-- What a run has read, by address, and the lists that it has made. -/
structure DeferredWorld.Made (w : DeferredWorld) (target : Addr) (refs : List DeferredRef)
    (byAddr lists : SortedMap Text Text) : Prop where
  read : readDeferred w target refs = .ok byAddr
  stage : stage .empty (w.stagedFor (inputsFor refs)) = .ok lists

/-- **What a reference of a field is replaced with**, by the managed layer or by the host. -/
def resolvedIn (w : DeferredWorld) (target : Addr) (refs : List DeferredRef)
    (byAddr lists : SortedMap Text Text) (r : DeferredRef) (t : Ref) : Except DeferredCause Text :=
  if r.needsSandbox then
    resolveStaged target (w.stagedFor (inputsFor refs)) lists (some w.allotment)
      (readsOf byAddr r) (srcsOf r) t
  else (resolveHere target byAddr (some w.allotment) r t).mapError (·.cause)

theorem resolvedIn_here (hno : ¬r.needsSandbox = true) :
    resolvedIn w target refs byAddr lists r t = .ok v ↔
      resolveHere target byAddr (some w.allotment) r t = .ok v := by
  rw [resolvedIn, if_neg hno]
  cases resolveHere target byAddr (some w.allotment) r t <;> simp [Except.mapError]

theorem resolvedIn_resource (h : t.kind = some resourceKind) :
    resolvedIn w target refs byAddr lists r t = .ok ((w.allotment.get? t.arg).getD t.raw) := by
  rw [resolvedIn, resolveStaged, resolveHere, if_pos h, if_pos h]
  split <;> rfl

/-- What is read is looked up among the values. -/
theorem resolvedIn_read (h : Names target.package r t p)
    (hprints : r.needsSandbox = true → r.Prints .read t.arg)
    (hv : byAddr.get? (readKey r t p.addr) = some v) :
    resolvedIn w target refs byAddr lists r t = .ok v := by
  by_cases hsandbox : r.needsSandbox = true
  · rw [readKey, if_pos hsandbox] at hv
    rw [resolvedIn, if_pos hsandbox, resolveStaged, if_neg h.not_resource,
      get?_readsOf.mpr ⟨hprints hsandbox, hv⟩]
  · rw [readKey, if_neg hsandbox] at hv
    rw [resolvedIn_here hsandbox, resolveHere, if_neg h.not_resource, h.parse.1]
    dsimp only
    rw [hv]

/-- In a field that waits for the sandbox, what is not read is looked up among the lists. -/
theorem resolvedIn_staged (h : Names target.package r t p) (hsandbox : r.needsSandbox = true)
    (hnot : ¬r.Prints .read t.arg) :
    resolvedIn w target refs byAddr lists r t =
      if r.Prints .src t.arg then
        stagedPath (w.stagedFor (inputsFor refs)) lists (srcOriginId r) t.arg
      else .error (.notResolved t.raw) := by
  have hnone : (readsOf byAddr r).get? t.arg = none :=
    eq_none_iff_forall_ne_some.mpr fun v hv => hnot (get?_readsOf.mp hv).1
  rw [resolvedIn, if_pos hsandbox, resolveStaged, if_neg h.not_resource, hnone]
  dsimp only
  cases hsrc : (srcsOf r).get? t.arg with
  | some o =>
    obtain ⟨hp, rfl⟩ := get?_srcsOf.mp hsrc
    rw [if_pos hp]
  | none =>
    rw [if_neg fun hp => ?_]
    rw [get?_srcsOf.mpr ⟨hp, rfl⟩] at hsrc
    cases hsrc

/-- **What a run makes of the fields.** -/
theorem replaced_of_fillFields
    (h : w.fillFields target refs = .ok values) (hnodup : (refs.map DeferredRef.raw).Nodup)
    (hfound : ∀ r ∈ refs, FoundIn target.package r) :
    ∃ byAddr lists, w.Made target refs byAddr lists ∧
      ∀ r ∈ refs, ∃ v, values.get? r.raw = some (.ready v) ∧
        Replaced deferredKinds (resolvedIn w target refs byAddr lists r) r.raw v := by
  obtain ⟨byAddr, hread, h⟩ := bind_ok.mp h
  obtain ⟨rendered, hrender, h⟩ := bind_ok.mp h
  obtain ⟨lists, hstage, h⟩ := bind_ok.mp h
  refine ⟨byAddr, lists, ⟨hread, hstage⟩, fun r hr => ?_⟩
  obtain ⟨ps, hps⟩ := (hfound r hr).tokenizes
  obtain ⟨d, hd, hget⟩ := get?_renderDeferred hrender hnodup hr
  obtain ⟨d', hd', hget'⟩ := get?_completeDeferred h hget
  rw [renderRef] at hd
  split at hd
  · next hsandbox =>
    -- the managed layer substitutes
    obtain rfl := (mk.inj (Except.ok.inj hd)).2
    rw [completeField] at hd'
    dsimp only at hd'
    split at hd'
    · cases hd'
    · next v hv =>
      obtain rfl := (mk.inj (Except.ok.inj hd')).2
      refine ⟨v, hget', ((substitute_eq_ok hps).mp hv).congr hps (fun _ _ => rfl) ?_⟩
      intro t _ u hu
      rwa [resolvedIn, if_pos hsandbox]
  · next hno =>
    cases hv : substitute [readKind, resourceKind] (resolveHere target byAddr (some w.allotment) r)
        (fun e => ⟨[], .template e⟩) r.raw with
    | error e => rw [hv] at hd; cases hd
    | ok v =>
      rw [hv] at hd
      obtain rfl := (mk.inj (Except.ok.inj hd)).2
      obtain rfl : .ready v = d' := (mk.inj (Except.ok.inj hd')).2
      refine ⟨v, hget', ((substitute_eq_ok hps).mp hv).congr hps
        (fun t ht => (claims_eq_of_not_needsSandbox (hfound r hr) hps hno ht).symm)
        fun t _ u hu => (resolvedIn_here hno).mpr hu⟩

/-! ### Texts that do not mislead -/

theorem denotes_resource (h : t.kind = some resourceKind) :
    w.denotes target.package t = .ok ((w.allotment.get? t.arg).getD t.raw) := by
  rw [DeferredWorld.denotes, if_pos h]

theorem Names.denotes (h : Names target.package r t p) : w.denotes target.package t =
    match p.kind with
    | .read => w.value p.addr
    | .src => onlyPath t.arg (w.staged p.addr).flatten := by
  rw [DeferredWorld.denotes, if_neg h.not_resource, h.parse.1]
  dsimp only
  rw [h.parse.2]

section

variable (h : Faithful target.package refs) (hr : r ∈ refs)

include h hr

/-- **What is read is replaced with what it names.** -/
theorem Faithful.resolvedIn_read (hread : readDeferred w target refs = .ok byAddr)
    (hn : Names target.package r t ⟨.read, a⟩) :
    ∃ v, resolvedIn w target refs byAddr lists r t = .ok v ∧
      w.denotes target.package t = .ok v := by
  obtain ⟨hprints, e, he, hsource⟩ := h.read r hr t a hn
  obtain ⟨v, hv, hget⟩ := exists_value_of_firstRead hread he
  exact ⟨v, Deferred.resolvedIn_read hn hprints hget,
    hn.denotes.trans (value_ok_of_source hsource hv)⟩

/-- **What is staged is replaced with the only line of what was listed.** -/
theorem Faithful.resolvedIn_src (hfound : FoundIn target.package r)
    (hstage : stage .empty (w.stagedFor (inputsFor refs)) = .ok lists)
    (hn : Names target.package r t ⟨.src, a⟩) :
    resolvedIn w target refs byAddr lists r t =
      if w.staged a = [] then .error (.notStaged t.arg (srcOriginId r))
      else onlyPath t.arg
        ((lines (listLines (w.staged a).flatten)).filter fun l => !l.isEmpty) := by
  obtain ⟨hspelt, hnot, halone⟩ := h.src r hr t a hn
  rw [resolvedIn_staged hn (hfound.needsSandbox hn) hnot, if_pos (hspelt ▸ hfound.prints hn),
    stagedPath_eq hstage, stagedUnder_eq_singleton.mpr halone, flatMap_singleton]
  exact if_congr (by simp) rfl rfl

/-- **A reference is replaced with what it names**, or it is said that it names nothing, if what
is staged can be listed. -/
theorem Faithful.resolvedIn_eq (hfound : FoundIn target.package r) (hw : w.Listed refs)
    (hmade : w.Made target refs byAddr lists) (ht : t ∈ claimed deferredKinds r.raw) :
    (∃ v, resolvedIn w target refs byAddr lists r t = .ok v ∧
        w.denotes target.package t = .ok v) ∨
      ∃ c, resolvedIn w target refs byAddr lists r t = .error c ∧
        w.Refuses target.package t c := by
  by_cases hres : t.kind = some resourceKind
  · exact .inl ⟨_, resolvedIn_resource hres, denotes_resource hres⟩
  · obtain ⟨⟨kind, a⟩, hn⟩ := hfound.exists_names (mem_targetRefs.mpr ⟨ht, hres⟩)
    cases kind with
    | read => exact .inl (h.resolvedIn_read hr hmade.read hn)
    | src =>
      have hden : w.denotes target.package t = onlyPath t.arg (w.staged a).flatten := hn.denotes
      rw [h.resolvedIn_src hr hfound hmade.stage hn]
      by_cases hnil : w.staged a = []
      · rw [if_pos hnil]
        exact .inr ⟨_, rfl, .inr ⟨by rw [hden, hnil]; rfl, _, rfl⟩⟩
      · have hlines := hw r hr _ (hfound.mem_producers.mpr ⟨t, hn⟩) rfl
        rw [if_neg hnil, lines_listLines hlines, ← hden]
        cases hpath : w.denotes target.package t with
        | ok v => exact .inl ⟨v, rfl, rfl⟩
        | error c => exact .inr ⟨c, rfl, .inl hpath⟩

end

theorem exists_of_mem_inputsFor {i : Input} (h : i ∈ inputsFor refs) :
    ∃ r ∈ refs, ∃ p ∈ r.producers, i = inputOf none (r, p) := by
  obtain ⟨⟨r, p⟩, he, rfl⟩ := mem_map.mp h
  have hmem := (firsts_sublist _ _ _).mem he
  simp only [namedBy, mem_flatMap, List.mem_map, mk.injEq] at hmem
  obtain ⟨r', hr, p', hp, rfl, rfl⟩ := hmem
  exact ⟨r', hr, p', hp, rfl⟩

theorem slash_mem_listPathFor {p : Producer} (hp : p.kind = .src) :
    '/' ∈ listPathFor (inputOf none (r, p)) ↔ '/' ∈ r.path := by
  have hid : (inputOf none (r, p)).originId = srcOriginId r := originIdFor_src hp
  rw [listPathFor, hid, srcOriginId]
  simp [deferredOriginPrefix, srcKind]

section

variable (h : Faithful target.package refs) {config : SortedMap Text Value}

include h

/-- The lists of the inputs can be made. -/
theorem Faithful.exists_stage :
    ∃ lists, stage .empty (w.stagedFor (inputsFor refs)) = .ok lists := by
  refine exists_stage_ok fun a ha => ?_
  obtain ⟨i, hi, ha⟩ := mem_flatMap.mp ha
  obtain ⟨paths, -, rfl⟩ := mem_map.mp ha
  obtain ⟨hi, hrun⟩ := mem_filter.mp hi
  obtain ⟨r, hr, p, hp, rfl⟩ := exists_of_mem_inputsFor hi
  have hsrc : p.kind = .src := of_decide_eq_true hrun
  rw [slash_mem_listPathFor hsrc]
  exact h.path r hr (any_eq_true.mpr ⟨p, hp, decide_eq_true hsrc⟩)

/-- The host renders all the fields. -/
theorem Faithful.exists_render (hfound : ∀ r ∈ refs, FoundIn target.package r)
    (hread : readDeferred w target refs = .ok byAddr) :
    ∃ values, renderDeferred target byAddr (some w.allotment) refs = .ok values := by
  obtain ⟨es, hes⟩ : ∃ es, refs.mapM (renderRef target byAddr (some w.allotment)) = .ok es := by
    refine mapM_ok_of_forall fun r hr => ?_
    rw [renderRef]
    split
    · exact ⟨_, rfl⟩
    · next hno =>
      obtain ⟨ps, hps⟩ := (hfound r hr).tokenizes
      obtain ⟨v, hv⟩ : ∃ v, substitute [readKind, resourceKind]
          (resolveHere target byAddr (some w.allotment) r) (fun e => ⟨[], .template e⟩) r.raw =
            .ok v := by
        refine exists_substitute_ok hps fun t ht => ?_
        rw [mem_claimed_of_not_needsSandbox (hfound r hr) hno] at ht
        obtain ⟨v, hv⟩ : ∃ v, resolvedIn w target refs byAddr .empty r t = .ok v := by
          by_cases hres : t.kind = some resourceKind
          · exact ⟨_, resolvedIn_resource hres⟩
          · obtain ⟨⟨kind, a⟩, hn⟩ := (hfound r hr).exists_names (mem_targetRefs.mpr ⟨ht, hres⟩)
            cases kind with
            | read => exact (h.resolvedIn_read hr hread hn).imp fun _ => And.left
            | src => exact absurd ((hfound r hr).needsSandbox hn) hno
        exact ⟨v, (resolvedIn_here hno).mp hv⟩
      exact ⟨_, by rw [hv]; rfl⟩
  exact ⟨_, bind_ok.mpr ⟨es, hes, rfl⟩⟩

/-- A field that cannot be finished has a reference that names nothing. -/
theorem Faithful.refuses_of_complete_error {e : DeferredError}
    (hfinds : Finds target.package (configTexts config) refs) (hw : w.Listed refs)
    (hmade : w.Made target refs byAddr lists)
    (hrender : renderDeferred target byAddr (some w.allotment) refs = .ok values)
    (he : completeDeferred target (w.stagedFor (inputsFor refs)) lists (some w.allotment) values =
      .error e) :
    ∃ s ∈ configTexts config, ∃ t ∈ claimed deferredKinds s,
      w.Refuses target.package t e.cause := by
  cases hes : values.entries.mapM (completeField target (w.stagedFor (inputsFor refs)) lists
      (some w.allotment)) with
  | ok es => simp [completeDeferred, hes, bind, Except.bind, pure, Except.pure] at he
  | error e' =>
    obtain rfl : e' = e := by
      simpa [completeDeferred, hes, bind, Except.bind, pure] using he
    obtain ⟨x, hx, hfail⟩ := exists_error_of_mapM_error hes
    obtain ⟨es, hes', hrender⟩ := bind_ok.mp hrender
    cases hrender
    obtain ⟨r, hr, hxr⟩ := (mem_iff_of_mapM_ok hes').mp (mem_of_mem_ofList hx)
    obtain ⟨hraw, hfound⟩ := hfinds.sound r hr
    obtain ⟨ps, hps⟩ := hfound.tokenizes
    rw [renderRef] at hxr
    split at hxr
    · next hsandbox =>
      cases hxr
      rw [completeField] at hfail
      dsimp only at hfail
      split at hfail
      · next c hc =>
        obtain rfl := Except.error.inj hfail
        obtain ⟨t, ht, hc⟩ := exists_of_substitute_error hps hc
        refine ⟨r.raw, hraw, t, ht, ?_⟩
        rcases h.resolvedIn_eq hr hfound hw hmade ht with ⟨v, hv, -⟩ | ⟨c', hc', hrefuses⟩
        · rw [resolvedIn, if_pos hsandbox, hc] at hv
          cases hv
        · rw [resolvedIn, if_pos hsandbox] at hc'
          rwa [← Except.error.inj (hc'.symm.trans hc)]
      · cases hfail
    · -- a field that the host has finished stays as it is
      cases hs : substitute [readKind, resourceKind]
        (resolveHere target byAddr (some w.allotment) r) (fun e => ⟨[], .template e⟩) r.raw with
      | error e => rw [hs] at hxr; cases hxr
      | ok v =>
        rw [hs] at hxr
        cases hxr
        cases hfail

/-- **If the texts do not mislead, the fields are substituted exactly.** -/
theorem Faithful.exact (hcollect : collect target.package config = .ok refs) (hw : w.Listed refs) :
    Exact config target w (w.fillFields target refs) := by
  have hfinds := finds_collect hcollect
  have hfound : ∀ r ∈ refs, FoundIn target.package r := fun r hr => (hfinds.sound r hr).2
  cases hfill : w.fillFields target refs with
  | ok values =>
    intro s hs hclaimed
    obtain ⟨r, hr, rfl⟩ := hfinds.all s hs hclaimed
    obtain ⟨byAddr, lists, hmade, hall⟩ :=
      replaced_of_fillFields hfill (nodup_collect hcollect) hfound
    obtain ⟨v, hget, hrep⟩ := hall r hr
    obtain ⟨ps, hps⟩ := (hfound r hr).tokenizes
    refine ⟨v, hrep.congr hps (fun _ _ => rfl) fun t ht v hv => ?_, hget⟩
    rcases h.resolvedIn_eq hr (hfound r hr) hw hmade ht with ⟨v', hv', hden⟩ | ⟨c, hc, -⟩
    · rwa [← Except.ok.inj (hv'.symm.trans hv)]
    · cases hv.symm.trans hc
  | error e =>
    rw [DeferredWorld.fillFields] at hfill
    cases hread : readDeferred w target refs with
    | error e' =>
      -- a target that has no value
      rw [hread] at hfill
      obtain rfl : e' = e := Except.error.inj hfill
      obtain ⟨⟨r, p⟩, hx, hvalue⟩ := exists_of_deferredValuesLoop_error hread
      obtain ⟨hr, hp, hkind⟩ := mem_readBy.mp hx
      obtain ⟨t, hn⟩ := (hfound r hr).mem_producers.mp hp
      refine ⟨r.raw, (hfinds.sound r hr).1, t, (mem_targetRefs.mp hn.mem).1, .inl ?_⟩
      rw [hn.denotes, hkind]
      exact hvalue
    | ok byAddr =>
      obtain ⟨rendered, hrender⟩ := h.exists_render hfound hread
      obtain ⟨lists, hstage⟩ := h.exists_stage (w := w)
      rw [hread] at hfill
      simp only [bind, Except.bind, hrender, hstage] at hfill
      exact h.refuses_of_complete_error hfinds hw ⟨hread, hstage⟩ hrender hfill

end

/-! ### What exactness says -/

/-- Where every reference names something, an exact run does not fail. -/
theorem not_exact_error {config : SortedMap Text Value} {e : DeferredError}
    (hcollect : collect target.package config = .ok refs)
    (hnames : w.NamesAll target.package refs) : ¬Exact config target w (.error e) := by
  rintro ⟨s, hs, t, ht, hrefuses⟩
  obtain ⟨r, hr, rfl⟩ := (finds_collect hcollect).all s hs (ne_nil_of_mem ht)
  obtain ⟨v, hv⟩ := hnames r hr t ht
  rcases hrefuses with hc | ⟨hc, -⟩
  all_goals
    rw [hv] at hc
    cases hc

/-- **What exactness says of a reference**: where each names something, and none is replaced with
what is longer than that, each is replaced with what it names. -/
theorem resolved_of_exact {config : SortedMap Text Value}
    (hcollect : collect target.package config = .ok refs) (hnames : w.NamesAll target.package refs)
    (hexact : Exact config target w (w.fillFields target refs))
    (hlen : ∀ byAddr lists, w.Made target refs byAddr lists → ∀ r ∈ refs, ∀ t p,
      Names target.package r t p → ∀ u u', w.denotes target.package t = .ok u →
        resolvedIn w target refs byAddr lists r t = .ok u' → u'.length ≤ u.length) :
    ∃ byAddr lists, w.Made target refs byAddr lists ∧
      ∀ r ∈ refs, ∀ t p, Names target.package r t p → ∃ v,
        w.denotes target.package t = .ok v ∧
          resolvedIn w target refs byAddr lists r t = .ok v := by
  have hfinds := finds_collect hcollect
  have hfound : ∀ r ∈ refs, FoundIn target.package r := fun r hr => (hfinds.sound r hr).2
  cases hfill : w.fillFields target refs with
  | error e =>
    rw [hfill] at hexact
    exact absurd hexact (not_exact_error hcollect hnames)
  | ok values =>
    rw [hfill] at hexact
    obtain ⟨byAddr, lists, hmade, hall⟩ :=
      replaced_of_fillFields hfill (nodup_collect hcollect) hfound
    refine ⟨byAddr, lists, hmade, fun r hr t p hn => ?_⟩
    obtain ⟨v, hget, hrep⟩ := hall r hr
    obtain ⟨v', hrep', hget'⟩ := hexact r.raw (hfinds.sound r hr).1 (hfound r hr).claimed
    obtain ⟨⟩ := some.inj (hget.symm.trans hget')
    refine hrep'.resolve_eq hrep (fun t ht u u' hu hu' => ?_) t (mem_targetRefs.mp hn.mem).1
    by_cases hres : t.kind = some resourceKind
    · rw [denotes_resource hres] at hu
      rw [resolvedIn_resource hres] at hu'
      rw [← Except.ok.inj hu, ← Except.ok.inj hu']
    · obtain ⟨p, hn⟩ := (hfound r hr).exists_names (mem_targetRefs.mpr ⟨ht, hres⟩)
      exact hlen byAddr lists hmade r hr t p hn u u' hu hu'

/-- **If the fields are substituted exactly, what is staged can be listed**, where every reference
names something. -/
theorem Faithful.listed_of_exact {config : SortedMap Text Value} (h : Faithful target.package refs)
    (hcollect : collect target.package config = .ok refs)
    (hnames : w.NamesAll target.package refs)
    (hexact : Exact config target w (w.fillFields target refs)) : w.Listed refs := by
  have hfound : ∀ r ∈ refs, FoundIn target.package r := fun r hr =>
    ((finds_collect hcollect).sound r hr).2
  -- what a reference to a staged target is replaced with is the only line of what it names
  have hline : ∀ {byAddr lists}, w.Made target refs byAddr lists → ∀ r ∈ refs, ∀ t a,
      Names target.package r t ⟨.src, a⟩ → ∀ u u', w.denotes target.package t = .ok u →
        resolvedIn w target refs byAddr lists r t = .ok u' →
        (w.staged a).flatten = [u] ∧
          (lines (listLines [u])).filter (fun l => !l.isEmpty) = [u'] := by
    intro byAddr lists hmade r hr t a hn u u' hu hu'
    rw [hn.denotes, onlyPath_eq_ok] at hu
    rw [h.resolvedIn_src hr (hfound r hr) hmade.stage hn, hu] at hu'
    split at hu'
    · cases hu'
    · exact ⟨hu, onlyPath_eq_ok.mp hu'⟩
  obtain ⟨byAddr, lists, hmade, hall⟩ := resolved_of_exact hcollect hnames hexact (by
    rintro byAddr lists hmade r hr t ⟨kind, a⟩ hn u u' hu hu'
    cases kind with
    | read =>
      obtain ⟨x, hx, hx'⟩ := h.resolvedIn_read hr hmade.read hn
      rw [← Except.ok.inj (hx.symm.trans hu'), ← Except.ok.inj (hx'.symm.trans hu)]
    | src =>
      have hmem : u' ∈ (lines (listLines [u])).filter fun l => !l.isEmpty := by
        rw [(hline hmade r hr t a hn u u' hu hu').2]
        exact mem_singleton_self u'
      have hlist : listLines [u] = u ++ ['\n'] := by simp [listLines]
      rw [hlist] at hmem
      simpa using length_le_of_linesLoop (mem_filter.mp hmem).1)
  rintro r hr ⟨kind, a⟩ hp rfl q hq
  obtain ⟨t, hn⟩ := (hfound r hr).mem_producers.mp hp
  obtain ⟨u, hu, hu'⟩ := hall r hr t _ hn
  obtain ⟨hflat, hpath⟩ := hline hmade r hr t a hn u u hu hu'
  rw [hflat, mem_singleton] at hq
  exact hq ▸ isLine_of_lines hpath

/-! ### Texts that mislead -/

section Necessary

/-- One of two texts of the same length. -/
def mark (b : Bool) : Text := if b then "/w/1".toList else "/w/0".toList

theorem mark_inj {b b' : Bool} : mark b = mark b' ↔ b = b' := by
  cases b <;> cases b' <;> decide

theorem length_mark (b : Bool) : (mark b).length = 4 := by cases b <;> rfl

/-- **A world that tells**: every target has a value and a path, each of them one of two texts. -/
def probe (val : Addr × Option Text → Bool) (path : TargetAddr → Bool) : DeferredWorld where
  artifacts s := [[⟨"o".toList, some (ofList (mark (val s))).toUTF8⟩]]
  staged a := [[mark (path a)]]
  allotment := .empty

variable {val : Addr × Option Text → Bool} {path : TargetAddr → Bool}
  {config : SortedMap Text Value}

theorem readDeferredValue_mark (a : TargetAddr) (b : Bool) :
    readDeferredValue a [[⟨"o".toList, some (ofList (mark b)).toUTF8⟩]] = .ok (mark b) := by
  have hsize : ¬maxValueBytes < (ofList (mark b)).toUTF8.size := by cases b <;> decide
  have hdecode : (ofList (mark b)).toUTF8.utf8Decode? = some (mark b).toArray := by simp
  have htrim : trim (mark b) = mark b := by cases b <;> decide
  have hne : mark b ≠ [] := by cases b <;> decide
  have hline : '\n' ∉ mark b := by cases b <;> decide
  generalize (ofList (mark b)).toUTF8 = bytes at hsize hdecode ⊢
  simp [readDeferredValue, hsize, hdecode, htrim, hne, hline]

theorem value_probe (a : TargetAddr) : (probe val path).value a = .ok (mark (val a.source)) :=
  readDeferredValue_mark a (val a.source)

theorem isLine_mark (b : Bool) : IsLine (mark b) := by
  cases b <;> exact ⟨by decide, by decide, by decide⟩

theorem listed_probe : (probe val path).Listed refs := by
  intro r _ p _ _ q hq
  obtain rfl : q = mark (path p.addr) := by simpa [probe] using hq
  exact isLine_mark _

/-- In a world that tells, a reference to a target names one of the two texts. -/
theorem denotes_probe (hn : Names target.package r t p) :
    (probe val path).denotes target.package t =
      .ok (mark (if p.kind = .read then val p.addr.source else path p.addr)) := by
  rw [hn.denotes]
  split
  · next hk => rw [value_probe, if_pos hk]
  · next hk =>
    rw [if_neg (by simp [hk])]
    rfl

theorem stagedPath_probe {o arg : Text}
    (hstage : stage .empty ((probe val path).stagedFor (inputsFor refs)) = .ok lists)
    (h : stagedPath ((probe val path).stagedFor (inputsFor refs)) lists o arg = .ok v) :
    ∃ c, stagedUnder (inputsFor refs) o = [c] ∧ v = mark (path c) := by
  rw [stagedPath_eq hstage] at h
  split at h
  · cases h
  · have hmap : ((stagedUnder (inputsFor refs) o).flatMap fun c =>
        ((probe val path).staged c).flatten) =
        (stagedUnder (inputsFor refs) o).map fun c => mark (path c) := by
      rw [map_eq_flatMap]
      rfl
    rw [hmap, lines_listLines fun p hp => ?_] at h
    swap
    · obtain ⟨c, -, rfl⟩ := mem_map.mp hp
      exact isLine_mark _
    have hlist := onlyPath_eq_ok.mp h
    obtain ⟨c, hc, hv⟩ := map_eq_singleton_iff.mp hlist
    exact ⟨c, hc, hv.symm⟩

/-- **What a reference to a target is replaced with** in such a world. -/
theorem resolvedIn_probe (hmade : (probe val path).Made target refs byAddr lists)
    (hfound : FoundIn target.package r) (hr : r ∈ refs) (hn : Names target.package r t p)
    (h : resolvedIn (probe val path) target refs byAddr lists r t = .ok v) :
    ((r.needsSandbox = true → r.Prints .read t.arg) ∧
      ∃ e, firstRead refs (readKey r t p.addr) = some e ∧ v = mark (val e.2.addr.source)) ∨
    ¬r.Prints .read t.arg ∧ r.Prints .src t.arg ∧
      ∃ c, stagedUnder (inputsFor refs) (srcOriginId r) = [c] ∧ v = mark (path c) := by
  by_cases hread : r.needsSandbox = true ∧ ¬r.Prints .read t.arg
  · right
    rw [resolvedIn_staged hn hread.1 hread.2] at h
    split at h
    · next hsrc => exact ⟨hread.2, hsrc, stagedPath_probe hmade.stage h⟩
    · cases h
  · left
    have hprints : r.needsSandbox = true → r.Prints .read t.arg := fun hs =>
      not_not.mp fun hnot => hread ⟨hs, hnot⟩
    obtain ⟨e, he⟩ : ∃ e, firstRead refs (readKey r t p.addr) = some e := by
      rw [readKey]
      split
      · next hs => exact exists_firstRead hr (hprints hs)
      · next hno =>
        obtain ⟨kind, a⟩ := p
        cases kind with
        | read => exact exists_firstRead hr (hfound.prints hn)
        | src => exact absurd (hfound.needsSandbox hn) hno
    obtain ⟨u, hu, hget⟩ := exists_value_of_firstRead hmade.read he
    rw [resolvedIn_read hn hprints hget] at h
    rw [value_probe] at hu
    exact ⟨hprints, e, he, (Except.ok.inj h).symm.trans (Except.ok.inj hu).symm⟩

theorem namesAll_probe (hcollect : collect target.package config = .ok refs) :
    (probe val path).NamesAll target.package refs := by
  intro r hr t ht
  by_cases hres : t.kind = some resourceKind
  · exact ⟨_, denotes_resource hres⟩
  · obtain ⟨p, hn⟩ := ((finds_collect hcollect).sound r hr).2.exists_names
      (mem_targetRefs.mpr ⟨ht, hres⟩)
    exact ⟨_, denotes_probe hn⟩

/-- In a world that tells, exactness says of every reference that it is replaced with what it
names. -/
theorem resolved_probe (val : Addr × Option Text → Bool) (path : TargetAddr → Bool)
    (hcollect : collect target.package config = .ok refs)
    (hexact : ∀ w : DeferredWorld, w.Listed refs →
      Exact config target w (w.fillFields target refs)) :
    ∃ byAddr lists, (probe val path).Made target refs byAddr lists ∧
      ∀ r ∈ refs, ∀ t p, Names target.package r t p →
        resolvedIn (probe val path) target refs byAddr lists r t =
          .ok (mark (if p.kind = .read then val p.addr.source else path p.addr)) := by
  obtain ⟨byAddr, lists, hmade, hall⟩ := resolved_of_exact hcollect (namesAll_probe hcollect)
    (hexact (probe val path) listed_probe) (by
      -- all texts are of the same length
      intro byAddr lists hmade r hr t p hn u u' hu hu'
      rw [denotes_probe hn] at hu
      rw [← Except.ok.inj hu, length_mark]
      rcases resolvedIn_probe hmade ((finds_collect hcollect).sound r hr).2 hr hn hu' with
        ⟨-, e, -, rfl⟩ | ⟨-, -, c, -, rfl⟩
      · rw [length_mark]
      · rw [length_mark])
  refine ⟨byAddr, lists, hmade, fun r hr t p hn => ?_⟩
  obtain ⟨v, hden, hv⟩ := hall r hr t p hn
  rw [hv, ← hden, denotes_probe hn]

variable (hcollect : collect target.package config = .ok refs)
  (hexact : ∀ w : DeferredWorld, w.Listed refs → Exact config target w (w.fillFields target refs))

include hcollect hexact

/-- What is staged under what the inputs of a field are called, if there is something that the
field stages. -/
theorem staged_of_exact (hr : r ∈ refs) (hn : Names target.package r t ⟨.src, a⟩) :
    ¬r.Prints .read t.arg ∧ r.Prints .src t.arg ∧
      stagedUnder (inputsFor refs) (srcOriginId r) = [a] := by
  -- no value is the second text, and no path but that of `a`
  obtain ⟨byAddr, lists, hmade, hall⟩ :=
    resolved_probe (fun _ => false) (fun c => c = a) hcollect hexact
  rcases resolvedIn_probe hmade ((finds_collect hcollect).sound r hr).2 hr hn (hall r hr t _ hn)
    with ⟨-, e, -, he⟩ | ⟨hnot, hsrc, c, hc, hv⟩
  · simp [mark_inj] at he
  · obtain rfl : c = a := by simpa [mark_inj, eq_comm] using hv
    exact ⟨hnot, hsrc, hc⟩

/-- **If the fields are substituted exactly, the texts do not mislead.** -/
theorem faithful_of_exact : Faithful target.package refs := by
  have hfound : ∀ r ∈ refs, FoundIn target.package r := fun r hr =>
    ((finds_collect hcollect).sound r hr).2
  constructor
  · intro r hr hsandbox
    obtain ⟨⟨kind, a⟩, hp, hkind⟩ := any_eq_true.mp hsandbox
    obtain rfl : kind = .src := of_decide_eq_true hkind
    obtain ⟨t, hn⟩ := (hfound r hr).mem_producers.mp hp
    obtain ⟨-, -, honly⟩ := staged_of_exact hcollect hexact hr hn
    -- its input is staged, so it has a list
    obtain ⟨byAddr, lists, hmade, -⟩ :=
      resolved_probe (fun _ => false) (fun _ => false) hcollect hexact
    have hmem : a ∈ stagedUnder (inputsFor refs) (srcOriginId r) := by
      rw [honly]
      exact mem_singleton_self _
    obtain ⟨b, hb, hid⟩ := (exists_stagedFor (w := probe (fun _ => false) fun _ => false)).mpr
      ⟨a, hmem, cons_ne_nil _ _⟩
    have hslash := slash_notMem_of_stage hmade.stage hb
    rw [listPathFor, hid, srcOriginId] at hslash
    simpa [deferredOriginPrefix, srcKind] using hslash
  · intro r hr t a hn
    obtain ⟨byAddr, lists, hmade, hall⟩ :=
      resolved_probe (fun s => s = a.source) (fun _ => false) hcollect hexact
    rcases resolvedIn_probe hmade (hfound r hr) hr hn (hall r hr t _ hn) with
      ⟨hprints, e, he, hv⟩ | ⟨-, -, c, -, hv⟩
    · exact ⟨hprints, e, he, by simpa [mark_inj, eq_comm] using hv⟩
    · simp [mark_inj] at hv
  · intro r hr t a hn
    obtain ⟨hone, ⟨⟨kind, a'⟩, hp, rfl, hformat⟩, honly⟩ := staged_of_exact hcollect hexact hr hn
    refine ⟨?_, hone, stagedUnder_eq_singleton.mp honly⟩
    -- the address that prints like this is staged by the field as well, so it is the same
    obtain ⟨t', hn'⟩ := (hfound r hr).mem_producers.mp hp
    obtain ⟨-, -, honly'⟩ := staged_of_exact hcollect hexact hr hn'
    rw [honly] at honly'
    rw [head_eq_of_cons_eq honly', hformat]

end Necessary

/-! ### When the fields are substituted exactly -/

/-- The target whose fields are filled below. -/
def consumer : Addr := ⟨"p".toList, "t".toList, .empty⟩

/-- A text with a reference to a staged target. -/
def stagedText : Text := "$\x7bsrc://a:b\x7d".toList

/-- One field, with a target that is staged and one that is read. -/
def oneField : SortedMap Text Value :=
  SortedMap.empty.insert "run".toList
    (.string (stagedText ++ " $\x7bread://a:c\x7d $HOME $$ $\x7bresource:cpu\x7d".toList))

/-- The target of a package. -/
def targetOf (name : Text) : TargetAddr := ⟨⟨"a".toList, name, .empty⟩, none, []⟩

/-- What is collected of one field. -/
def oneRef : DeferredRef :=
  ⟨stagedText ++ " $\x7bread://a:c\x7d $HOME $$ $\x7bresource:cpu\x7d".toList,
    [⟨.src, targetOf "b".toList⟩, ⟨.read, targetOf "c".toList⟩], "run".toList⟩

/-- The references of the one field that name a target. -/
theorem targetRefs_oneRef :
    targetRefs oneRef.raw = [refOf "src://a:b".toList, refOf "read://a:c".toList] :=
  rfl

/-- Two fields with the same target, which is staged. -/
def twoFields : SortedMap Text Value :=
  (SortedMap.empty.insert "x".toList (.string stagedText)).insert "y".toList
    (.string ('-' :: stagedText))

/-- What is collected of the two fields. -/
def twoRefs : List DeferredRef :=
  [⟨stagedText, [⟨.src, targetOf "b".toList⟩], "x".toList⟩,
    ⟨'-' :: stagedText, [⟨.src, targetOf "b".toList⟩], "y".toList⟩]

end Heph.Deferred
