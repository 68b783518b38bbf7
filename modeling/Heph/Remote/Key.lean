import Heph.Lib.Encoding
import Heph.Key.Target

/-!
# The keys of remote objects

What a remote cache holds of a target is kept under keys that read like the source tree: the
components of the package, the name with its arguments, the `hashin` of the revision and the
name of the artifact, each a segment. A segment that is not plain is written with the unsafe
characters replaced, and carries a hash of what it was (`Remote.keySegment`).

If the hash tells the segments that it is applied to apart then so do the keys, segment by
segment. But a segment with arguments joins them the way they are written, without quotes, so
two maps of arguments may read the same (`Remote.arguments_joined`); and a revision may lie
below another one, if a package goes on through the name and the `hashin` of a target. Those
are the only ways (`Remote.unaliased_iff`).
-/

namespace Heph.Remote

open List Addr ParseAddr Set

/-! ### Segments -/

/-- The characters that stay as they are. -/
def safeChar (c : Char) : Bool := c.isAlphanum || ['.', '_', '-', '@', '=', ','].contains c

/-- `contains(KEY_HASH_MARKER)`. -/
def hasMarker : Text → Bool
  | '-' :: '-' :: _ => true
  | _ :: s => hasMarker s
  | [] => false

/-- `KEY_SEGMENT_MAX`. -/
def keySegmentMax : ℕ := 96

/-- `key_segment_is_plain`. -/
def keySegmentIsPlain (raw : Text) : Bool :=
  !raw.isEmpty && decide ((utf8 raw).length ≤ keySegmentMax) && raw != ['.'] &&
    raw != ['.', '.'] && !hasMarker raw && raw.all safeChar

/-- `addr_name_segment`. -/
def addrNameSegment (a : Addr) : Text :=
  if a.args.entries = [] then a.name
  else a.name ++ '@' :: [','].intercalate (a.args.entries.map fun e => e.1 ++ '=' :: e.2)

section

variable (digest : List UInt8 → UInt64)

/-- `key_segment`. -/
def keySegment (raw : Text) : Text :=
  if keySegmentIsPlain raw then raw
  else
    (raw.map fun c => if safeChar c then c else '_').take keySegmentMax ++
      '-' :: '-' :: hex16 (digest (utf8 raw))

/-- `RemoteCacheSet::revision_prefix`. -/
def revisionPrefix (a : Addr) (hashin : Text) : Text :=
  ((pkgComponents a.package).flatMap fun c => keySegment digest c ++ ['/']) ++
    (keySegment digest (addrNameSegment a) ++ '/' :: keySegment digest hashin)

/-- `RemoteCacheSet::key`. -/
def key (a : Addr) (hashin name : Text) : Text :=
  revisionPrefix digest a hashin ++ '/' :: keySegment digest name

end

/-! ### What a key is made of -/

/-- An artifact of a revision of a target. -/
structure Artifact where
  addr : Addr
  hashin : Text
  name : Text
  deriving DecidableEq

/-- The segments of its revision, as they were before they were made safe. -/
def Artifact.revision (t : Artifact) : List Text :=
  pkgComponents t.addr.package ++ [addrNameSegment t.addr, t.hashin]

/-- All its segments. -/
def Artifact.segments (t : Artifact) : List Text := t.revision ++ [t.name]

variable {digest : List UInt8 → UInt64} {t t' : Artifact} {s : Text}

theorem hasMarker_append (l r : Text) : hasMarker (l ++ '-' :: '-' :: r) = true := by
  induction l with
  | nil => rfl
  | cons c l ih =>
    unfold hasMarker
    split
    · rfl
    · next heq => exact (cons.inj heq).2 ▸ ih
    · next heq => cases heq

theorem digit_ne_slash {d : UInt64} {c : Char} (h : c ∈ hex16 d) : c ≠ '/' := by
  rcases mem_append.mp h with h | h
  · rw [eq_of_mem_replicate h]
    decide
  · obtain ⟨m, hm, rfl⟩ := mem_toDigits_sixteen h
    have hdigit : ∀ m < 16, Nat.digitChar m ≠ '/' := by decide
    exact hdigit m hm

theorem length_hex16 (d : UInt64) : (hex16 d).length = 16 := by
  have hle : (Nat.toDigits 16 d.toNat).length ≤ 16 :=
    (Nat.length_toDigits_le_iff (by decide) (by decide)).mpr d.toNat_lt
  simp only [hex16, length_append, length_replicate]
  omega

theorem hex16_injective : Function.Injective hex16 := fun _ _ h =>
  UInt64.toNat_inj.mp (replicate_toDigits_sixteen_inj h)

theorem keySegment_of_plain (h : keySegmentIsPlain s = true) : keySegment digest s = s := if_pos h

theorem keySegment_of_not_plain (h : keySegmentIsPlain s = false) :
    keySegment digest s =
      (s.map fun c => if safeChar c then c else '_').take keySegmentMax ++
        '-' :: '-' :: hex16 (digest (utf8 s)) :=
  if_neg (by simp [h])

theorem slash_notMem_keySegment (s : Text) : '/' ∉ keySegment digest s := by
  have hslash : safeChar '/' = false := by decide
  cases hplain : keySegmentIsPlain s with
  | true =>
    rw [keySegment_of_plain hplain]
    simp only [keySegmentIsPlain, Bool.and_eq_true, all_eq_true] at hplain
    exact fun hmem => by simpa [hslash] using hplain.2 _ hmem
  | false =>
    rw [keySegment_of_not_plain hplain]
    simp only [mem_append, mem_cons, not_or]
    refine ⟨fun hmem => ?_, by decide, by decide, fun hmem => digit_ne_slash hmem rfl⟩
    obtain ⟨c, -, hc⟩ := mem_map.mp (mem_of_mem_take hmem)
    split at hc
    · next hsafe =>
      rw [hc] at hsafe
      cases hsafe
    · cases hc

/-- **A segment is read back from what is written for it**, if the hash tells apart what it is
applied to: the marker tells the two kinds of segment apart. -/
theorem keySegment_injOn {X : Set Text}
    (h : InjOn (fun s => digest (utf8 s)) {s | s ∈ X ∧ keySegmentIsPlain s = false}) :
    InjOn (keySegment digest) X := by
  have hmixed : ∀ s u, keySegmentIsPlain s = true → keySegmentIsPlain u = false →
      keySegment digest s ≠ keySegment digest u := by
    intro s u hs hu heq
    rw [keySegment_of_plain hs, keySegment_of_not_plain hu] at heq
    simp only [keySegmentIsPlain, Bool.and_eq_true, Bool.not_eq_true'] at hs
    rw [heq, hasMarker_append] at hs
    simp at hs
  intro s hs u hu heq
  cases hplain : keySegmentIsPlain s <;> cases hplain' : keySegmentIsPlain u
  · -- both are hashed, and the digits of the hash are the last sixteen characters
    rw [keySegment_of_not_plain hplain, keySegment_of_not_plain hplain'] at heq
    have hlen : ('-' :: '-' :: hex16 (digest (utf8 s))).length =
        ('-' :: '-' :: hex16 (digest (utf8 u))).length := by
      simp [length_hex16]
    have hhash := (append_inj' heq hlen).2
    simp only [cons.injEq, true_and] at hhash
    exact h ⟨hs, hplain⟩ ⟨hu, hplain'⟩ (hex16_injective hhash)
  · exact absurd heq.symm (hmixed u s hplain' hplain)
  · exact absurd heq (hmixed s u hplain hplain')
  · rwa [keySegment_of_plain hplain, keySegment_of_plain hplain'] at heq

/-- A revision prefix is the join of its segments. -/
theorem revisionPrefix_eq (a : Addr) (hashin name : Text) :
    revisionPrefix digest a hashin =
      ['/'].intercalate ((Artifact.revision ⟨a, hashin, name⟩).map (keySegment digest)) := by
  rw [revisionPrefix, Artifact.revision]
  induction pkgComponents a.package with
  | nil => simp
  | cons c l ih =>
    rw [flatMap_cons, append_assoc, ih, cons_append, map_cons,
      ← singleton_append (x := keySegment digest c),
      intercalate_append_of_ne_nil (by simp) (by simp), intercalate_singleton,
      append_assoc]

/-- A key is the join of its segments. -/
theorem key_eq (t : Artifact) :
    key digest t.addr t.hashin t.name =
      ['/'].intercalate (t.segments.map (keySegment digest)) := by
  rw [key, revisionPrefix_eq t.addr t.hashin t.name, Artifact.segments, map_append,
    intercalate_append_of_ne_nil (by simp [Artifact.revision]) (by simp)]
  simp

/-! ### When keys alias -/

/-- The object of the key is one of those under the prefix. -/
def Under (key pre : Text) : Prop := pre ++ ['/'] <+: key

/-- **Neither of two artifacts aliases the other**: their keys differ if they do, and if their
revisions differ then neither key is under the prefix of the other's revision. -/
def Unaliased (digest : List UInt8 → UInt64) (t t' : Artifact) : Prop :=
  (t ≠ t' → key digest t.addr t.hashin t.name ≠ key digest t'.addr t'.hashin t'.name) ∧
    ((t.addr, t.hashin) ≠ (t'.addr, t'.hashin) →
      ¬Under (key digest t.addr t.hashin t.name) (revisionPrefix digest t'.addr t'.hashin) ∧
      ¬Under (key digest t'.addr t'.hashin t'.name) (revisionPrefix digest t.addr t.hashin))

/-- The two addresses differ and read the same, and have the same `hashin`. -/
def Mixed (t t' : Artifact) : Prop :=
  t.addr ≠ t'.addr ∧ pkgComponents t.addr.package = pkgComponents t'.addr.package ∧
    addrNameSegment t.addr = addrNameSegment t'.addr ∧ t.hashin = t'.hashin

/-- The package and name of the second go on through the name and the `hashin` of the first. -/
def Nested (t t' : Artifact) : Prop :=
  t.revision <+: pkgComponents t'.addr.package ++ [addrNameSegment t'.addr]

/-- The hash tells apart the segments of the two that it is applied to. -/
def Telling (digest : List UInt8 → UInt64) (t t' : Artifact) : Prop :=
  InjOn (fun s => digest (utf8 s))
    {s | (s ∈ t.segments ∨ s ∈ t'.segments) ∧ keySegmentIsPlain s = false}

theorem Telling.injOn (h : Telling digest t t') :
    InjOn (keySegment digest) {s | s ∈ t.segments ∨ s ∈ t'.segments} :=
  keySegment_injOn h

theorem Telling.symm (h : Telling digest t t') : Telling digest t' t := by
  unfold Telling at h ⊢
  simpa only [or_comm] using h

theorem revision_eq_iff : t.revision = t'.revision ↔
    pkgComponents t.addr.package = pkgComponents t'.addr.package ∧
      addrNameSegment t.addr = addrNameSegment t'.addr ∧ t.hashin = t'.hashin := by
  refine ⟨fun h => ?_, fun ⟨hp, hn, hh⟩ => by rw [Artifact.revision, hp, hn, hh, Artifact.revision]⟩
  obtain ⟨hp, hrest⟩ := append_inj' h rfl
  simpa [hp] using hrest

theorem slash_notMem_map (l : List Text) : ∀ s ∈ l.map (keySegment digest), '/' ∉ s := by
  intro s hs
  obtain ⟨u, -, rfl⟩ := mem_map.mp hs
  exact slash_notMem_keySegment u

/-- Keys are the same exactly if the segments are. -/
theorem key_eq_iff (h : Telling digest t t') :
    key digest t.addr t.hashin t.name = key digest t'.addr t'.hashin t'.name ↔
      t.revision = t'.revision ∧ t.name = t'.name := by
  rw [key_eq, key_eq]
  constructor
  · intro heq
    have hmap := intercalate_inj (slash_notMem_map _) (slash_notMem_map _)
      (by simp [Artifact.segments]) (by simp [Artifact.segments]) heq
    have hpre := (map_prefix_map_iff h.injOn (fun _ => .inl) (fun _ => .inr)).mp
      (hmap ▸ prefix_rfl)
    have hsegments := hpre.eq_of_length (by simpa using congrArg length hmap)
    obtain ⟨hrev, hname⟩ := append_inj' hsegments rfl
    exact ⟨hrev, (cons.inj hname).1⟩
  · rintro ⟨hrev, hname⟩
    rw [Artifact.segments, hrev, hname, Artifact.segments]

/-- A key is under the prefix of a revision exactly if that is its own revision, or one that it
is nested in. -/
theorem under_iff (h : Telling digest t t') :
    Under (key digest t.addr t.hashin t.name) (revisionPrefix digest t'.addr t'.hashin) ↔
      t'.revision = t.revision ∨ Nested t' t := by
  have hmem : ∀ s ∈ t'.revision, s ∈ t.segments ∨ s ∈ t'.segments := fun s hs =>
    .inr (mem_append_left _ hs)
  rw [Under, key_eq, revisionPrefix_eq t'.addr t'.hashin t'.name,
    intercalate_below_iff (slash_notMem_map _) (slash_notMem_map _) (by simp [Artifact.revision]),
    map_prefix_map_iff h.injOn hmem fun _ => .inl, Nested]
  -- strictly below the segments of the key is below those of its revision
  have hrevision : t'.revision <+: t.segments ∧
      t'.revision.map (keySegment digest) ≠ t.segments.map (keySegment digest) ↔
      t'.revision <+: t.revision := by
    rw [Artifact.segments, prefix_concat_iff]
    constructor
    · rintro ⟨heq | hpre, hne⟩
      · exact absurd (congrArg (map (keySegment digest)) heq) hne
      · exact hpre
    · refine fun hpre => ⟨.inr hpre, fun heq => ?_⟩
      have hlen := congrArg length heq
      have hle := hpre.length_le
      simp only [length_map, length_append, length_singleton] at hlen
      omega
  have hconcat : t.revision =
      (pkgComponents t.addr.package ++ [addrNameSegment t.addr]) ++ [t.hashin] := by
    simp [Artifact.revision]
  rw [hrevision, hconcat, prefix_concat_iff]

theorem not_nested_self (t : Artifact) : ¬Nested t t := fun h => by
  have hlen := h.length_le
  simp [Artifact.revision] at hlen

/-- **When keys do not alias**: unless two different addresses read the same and have the same
`hashin`, or one revision is nested in the other. -/
theorem unaliased_iff (h : Telling digest t t') :
    Unaliased digest t t' ↔ ¬Mixed t t' ∧ ¬Nested t t' ∧ ¬Nested t' t := by
  refine (and_congr (imp_congr_right fun _ => (key_eq_iff h).not) (imp_congr_right fun _ =>
    and_congr (under_iff h).not (under_iff h.symm).not)).trans ?_
  have hmixed : Mixed t t' ↔ t.addr ≠ t'.addr ∧ t.revision = t'.revision := by
    rw [Mixed, revision_eq_iff]
  by_cases hrev : (t.addr, t.hashin) = (t'.addr, t'.hashin)
  · -- two artifacts of one revision have different names
    obtain ⟨haddr, hhashin⟩ := Prod.mk.inj hrev
    have hname : t.revision = t'.revision ∧ t.name = t'.name → t = t' := by
      rintro ⟨-, hname⟩
      obtain ⟨addr, hashin, name⟩ := t
      simp only at haddr hhashin hname
      rw [haddr, hhashin, hname]
    have hnested : ¬Nested t t' ∧ ¬Nested t' t := by
      have heq : t.revision = t'.revision := by
        rw [Artifact.revision, haddr, hhashin, Artifact.revision]
      unfold Nested
      rw [heq, haddr]
      exact ⟨not_nested_self t', not_nested_self t'⟩
    refine iff_of_true ⟨fun hne heq => hne (hname heq), fun hne => absurd hrev hne⟩
      ⟨fun hm => hm.1 haddr, hnested⟩
  · have haddr : t.revision = t'.revision → t.addr ≠ t'.addr := fun heq haddr =>
      hrev (by rw [haddr, (revision_eq_iff.mp heq).2.2])
    rw [hmixed]
    constructor
    · rintro ⟨-, hunder⟩
      obtain ⟨h₁, h₂⟩ := hunder hrev
      exact ⟨fun hm => h₁ (.inl hm.2.symm), fun hn => h₂ (.inr hn), fun hn => h₁ (.inr hn)⟩
    · rintro ⟨hm, hn, hn'⟩
      have hdiff : t.revision ≠ t'.revision := fun heq => hm ⟨haddr heq, heq⟩
      exact ⟨fun _ heq => hdiff heq.1, fun _ =>
        ⟨fun hu => hu.elim (fun heq => hdiff heq.symm) hn', fun hu => hu.elim hdiff hn⟩⟩

/-- Two targets of a package whose names differ in a character that is replaced, and a hash that
tells them apart by it. -/
theorem unaliased_iff_replaced :
    ∃ a b : Addr, parseAddr "//p:x+".toList = .ok a ∧ parseAddr "//p:x!".toList = .ok b ∧
      Unaliased (fun bytes => (bytes.getLastD 0).toUInt64) ⟨a, "1f".toList, "out".toList⟩
        ⟨b, "1f".toList, "out".toList⟩ := by
  refine ⟨⟨['p'], ['x', '+'], .empty⟩, ⟨['p'], ['x', '!'], .empty⟩, rfl, rfl,
    (unaliased_iff ?_).mpr ?_⟩
  · have hall : ∀ s ∈ Artifact.segments ⟨⟨['p'], ['x', '+'], .empty⟩, "1f".toList, "out".toList⟩ ++
        Artifact.segments ⟨⟨['p'], ['x', '!'], .empty⟩, "1f".toList, "out".toList⟩,
        keySegmentIsPlain s = true ∨ s = ['x', '+'] ∨ s = ['x', '!'] := by
      decide +kernel
    have hhashed : ∀ s, (s ∈ Artifact.segments ⟨⟨['p'], ['x', '+'], .empty⟩, "1f".toList,
        "out".toList⟩ ∨ s ∈ Artifact.segments ⟨⟨['p'], ['x', '!'], .empty⟩, "1f".toList,
          "out".toList⟩) ∧ keySegmentIsPlain s = false → s = ['x', '+'] ∨ s = ['x', '!'] := by
      rintro s ⟨hs, hplain⟩
      refine (hall s (mem_append.mpr hs)).resolve_left fun h => ?_
      rw [h] at hplain
      cases hplain
    intro s hs s' hs' heq
    rcases hhashed s hs with rfl | rfl <;> rcases hhashed s' hs' with rfl | rfl
    · rfl
    · exact absurd heq (by decide)
    · exact absurd heq (by decide)
    · rfl
  · unfold Mixed Nested
    decide +kernel

/-- **Arguments that read the same**: a value with a comma in it, and two arguments. Their keys
are the same, whatever the hash. -/
theorem arguments_joined :
    ∃ a b : Addr, parseAddr "//p:n@a=\"1,b=2\"".toList = .ok a ∧
      parseAddr "//p:n@a=1,b=2".toList = .ok b ∧ a ≠ b ∧
      ∀ digest hashin name, key digest a hashin name = key digest b hashin name := by
  refine ⟨⟨['p'], ['n'], .ofList [(['a'], "1,b=2".toList)]⟩,
    ⟨['p'], ['n'], .ofList [(['a'], ['1']), (['b'], ['2'])]⟩, rfl, rfl, by decide, ?_⟩
  intro digest hashin name
  rfl

/-! ### Arguments without commas -/

/-- **Addresses that were read, and have no comma in a value, read differently**: what is mixed
up has a comma in a value. -/
theorem eq_of_addrNameSegment {a b : Addr} {s u : Text} (ha : parseAddr s = .ok a)
    (hb : parseAddr u = .ok b) (hcomma : ∀ e ∈ a.args.entries ++ b.args.entries, ',' ∉ e.2)
    (hp : pkgComponents a.package = pkgComponents b.package)
    (h : addrNameSegment a = addrNameSegment b) : a = b := by
  have hwa := wellFormed_of_parseAddr ha
  have hwb := wellFormed_of_parseAddr hb
  have hat {a : Addr} (hw : a.WellFormed) : '@' ∉ a.name :=
    fun hc => by simpa [nameStop] using hw.name _ hc
  have hnone {a : Addr} (h : a.args.entries = []) : addrNameSegment a = a.name := if_pos h
  have hsome {a : Addr} (h : a.args.entries ≠ []) : addrNameSegment a =
      a.name ++ '@' :: [','].intercalate (a.args.entries.map fun e => e.1 ++ '=' :: e.2) := if_neg h
  suffices hsame : a.name = b.name ∧ a.args.entries = b.args.entries by
    have hpkg := hwa.normal.eq_of_pkgComponents hwb.normal hp
    obtain ⟨pkg, name, args⟩ := a
    obtain ⟨pkg', name', args'⟩ := b
    obtain rfl : name = name' := hsame.1
    congr
    exact SortedMap.ext hsame.2
  by_cases hargs : a.args.entries = [] <;> by_cases hargs' : b.args.entries = []
  · rw [hnone hargs, hnone hargs'] at h
    exact ⟨h, hargs.trans hargs'.symm⟩
  · rw [hnone hargs, hsome hargs'] at h
    exact absurd (h ▸ by simp) (hat hwa)
  · rw [hsome hargs, hnone hargs'] at h
    exact absurd (h ▸ by simp) (hat hwb)
  · rw [hsome hargs, hsome hargs'] at h
    obtain ⟨hname, hjoin⟩ := append_separator_inj (hat hwa) (hat hwb) h
    -- the arguments are read back at the commas, and each at its first equals sign
    have hcommas {a : Addr} (hw : a.WellFormed) (hcomma : ∀ e ∈ a.args.entries, ',' ∉ e.2) :
        ∀ s ∈ a.args.entries.map fun e => e.1 ++ '=' :: e.2, ',' ∉ s := by
      intro s hs
      obtain ⟨e, he, rfl⟩ := mem_map.mp hs
      have hkey : ',' ∉ e.1 := fun hc => by simpa [keyStop] using hw.key e he _ hc
      simpa [hkey] using hcomma e he
    have hequals {a : Addr} (hw : a.WellFormed) : ∀ e ∈ a.args.entries, '=' ∉ e.1 :=
      fun e he hc => by simpa [keyStop] using hw.key e he _ hc
    have hinj : InjOn (fun e : Text × Text => e.1 ++ '=' :: e.2) {e | '=' ∉ e.1} :=
      fun e he e' he' heq => Prod.ext_iff.mpr (append_separator_inj he he' heq)
    have hmap := intercalate_inj
      (hcommas hwa fun e he => hcomma e (mem_append_left _ he))
      (hcommas hwb fun e he => hcomma e (mem_append_right _ he))
      (by simpa using hargs) (by simpa using hargs') hjoin
    have hpre := (map_prefix_map_iff hinj (hequals hwa) (hequals hwb)).mp (hmap ▸ prefix_rfl)
    exact ⟨hname, hpre.eq_of_length (by simpa using congrArg length hmap)⟩

theorem eq_of_addrNameSegment_swapped : ∃ a b, parseAddr "//p:n@a=1,b=2".toList = .ok a ∧
    parseAddr "//p:n@b=2,a=1".toList = .ok b ∧ a = b :=
  ⟨⟨['p'], ['n'], .ofList [(['a'], ['1']), (['b'], ['2'])]⟩, _, rfl, rfl,
    eq_of_addrNameSegment (s := "//p:n@a=1,b=2".toList) (u := "//p:n@b=2,a=1".toList)
      rfl rfl (by decide) rfl rfl⟩

end Heph.Remote
