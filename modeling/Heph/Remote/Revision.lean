import Heph.Lib.Parties
import Heph.Remote.Key

/-!
# Pushing and pulling a revision

A revision is pushed to a remote cache blob by blob, all of them at once, and **the manifest
last**: once it can be seen, so can every blob that it names. Every step of an upload may fail,
the push may be dropped between any two steps, and a request that the client has given up on
may still take effect later; and any number of processes push the same revision to the same
caches, and pull it from them, at the same time.

None of that breaks what the manifest stands for (`Remote.manifest_complete`): an object
is only ever replaced by one that is whole, blobs and manifests have different keys
(`Remote.entryKey_ne_manifestKey`), and a manifest is sent only by a push that has seen all
its blobs stored in that cache. Who pulls stays with the cache that served the manifest, and
reports a blob that is not there, or that fails, as a miss.
-/

namespace Heph.Remote

open List Option Function

/-- What an object holds. -/
abbrev Bytes := List UInt8

/-! ### Manifests -/

/-- `ManifestArtifactType`. -/
inductive ArtifactType where
  | output
  | log
  | supportFile
  deriving DecidableEq

/-- `ManifestArtifactContentType`. -/
inductive ArtifactContentType where
  | tar
  | cpio
  deriving DecidableEq

/-- `ManifestArtifactEncoding`. -/
inductive ArtifactEncoding where
  | none
  | gzip
  deriving DecidableEq

/-- `RemoteManifestArtifact`. -/
structure RemoteArtifact where
  hashout : Text
  group : Text
  name : Text
  size : ℕ
  type : ArtifactType
  contentType : ArtifactContentType
  encoding : ArtifactEncoding
  deriving DecidableEq

/-- `RemoteManifest`. -/
structure RemoteManifest where
  version : Text
  target : Text
  hashin : Text
  artifacts : List RemoteArtifact
  deriving DecidableEq

/-- `MANIFEST_V1`: `manifest-v1.borsh`. -/
def manifestV1 : Text :=
  ['m', 'a', 'n', 'i', 'f', 'e', 's', 't', '-', 'v', '1', '.', 'b', 'o', 'r', 's', 'h']

/-- `cache_entry_name`: `packed` for what is put into a container on the way in. -/
def cacheEntryName (type : ArtifactType) (packed : Bool) (name : Text) : Text :=
  let mark : Text :=
    match type with
    | .output => ['o', 'u', 't']
    | .log => ['l', 'o', 'g']
    | .supportFile => ['s', 'u', 'p', 'p', 'o', 'r', 't']
  mark ++ '_' :: (name ++ if packed then ".tar".toList else [])

/-- What every process that pushes the revision holds, and how it is written down. -/
structure LocalRevision where
  addr : Addr
  hashin : Text
  manifest : RemoteManifest
  /-- The decoded bytes of the artifacts, by their names. -/
  content : Text → Bytes
  /-- The names of the artifacts are cache entry names. -/
  entry : ∀ a ∈ manifest.artifacts, ∃ type packed name, a.name = cacheEntryName type packed name

/-- How bytes are encoded and manifests are serialised. -/
structure Codec where
  digest : List UInt8 → UInt64
  gunzip : Bytes → Option Bytes
  toVec : RemoteManifest → Bytes
  fromSlice : Bytes → Option RemoteManifest

/-- The bytes of a blob, decoded the way its manifest says. -/
def Codec.decode (codec : Codec) (encoding : ArtifactEncoding) (bytes : Bytes) : Option Bytes :=
  match encoding with
  | .none => some bytes
  | .gzip => codec.gunzip bytes

/-- The pushes `π` of the revision: each has encoded every artifact into a file of its own. -/
structure Pushes (π : Type) where
  codec : Codec
  rev : LocalRevision
  /-- The encoded bytes, by the name of the artifact. -/
  temp : π → Text → Bytes
  whole : ∀ p, ∀ a ∈ rev.manifest.artifacts,
    codec.decode a.encoding (temp p a.name) = some (rev.content a.name)
  /-- The manifest is read back as it was written. -/
  readBack : codec.fromSlice (codec.toVec rev.manifest) = some rev.manifest

/-- What one cache is asked to hold. -/
inductive Slot where
  | blob (a : RemoteArtifact)
  | manifest
  deriving DecidableEq

section Push

variable {π γ ι : Type} (w : Pushes π)

/-- The key of a blob. -/
def entryKey (name : Text) : Text := key w.codec.digest w.rev.addr w.rev.hashin name

/-- The key of the manifest. -/
def manifestKey : Text := entryKey w manifestV1

/-- The key an upload writes to. -/
def slotKey : Slot → Text
  | .blob a => entryKey w a.name
  | .manifest => manifestKey w

/-- The bytes that an upload writes. -/
def slotBytes (p : π) : Slot → Bytes
  | .blob a => w.temp p a.name
  | .manifest => w.codec.toVec w.rev.manifest

/-! ### One upload -/

/-- Where the client of an upload is. -/
inductive Client where
  | idle
  /-- So many bytes are written. -/
  | writing (written : ℕ)
  /-- It waits for the writer to be shut down, which is when the object is to appear. -/
  | finalizing
  | stored
  | failed
  deriving DecidableEq

/-- Where its request is: it may take effect whether or not anyone still waits for it. -/
inductive Request where
  | unsent
  | pending
  | landed
  deriving DecidableEq

/-- An upload. -/
structure Upload where
  client : Client
  request : Request
  deriving DecidableEq

/-- What the client of an upload does next. -/
inductive ClientEvent where
  | openWrite
  | write (n : ℕ)
  | shutdown
  | confirm
  /-- An error, or a timeout. -/
  | fail

/-- `stream_file_to_backend` and `write_bytes_to_backend`: the object is whole before it is
asked for, and the upload is done only when the object is there. -/
def Upload.advance (u : Upload) (size : ℕ) : ClientEvent → Option Upload
  | .openWrite => if u.client = .idle then some { u with client := .writing 0 } else none
  | .write n =>
    match u.client with
    | .writing written =>
      if written + n ≤ size then some { u with client := .writing (written + n) } else none
    | _ => none
  | .shutdown => if u.client = .writing size then some ⟨.finalizing, .pending⟩ else none
  | .confirm =>
    if u.client = .finalizing ∧ u.request = .landed then some { u with client := .stored } else none
  | .fail => if u.client = .stored then none else some { u with client := .failed }

/-! ### Pushes and pulls -/

/-- A blob that was pulled: where from, and what it decoded to. -/
structure Pulled (γ : Type) where
  name : Text
  source : γ
  content : Bytes

/-- Why a pull ends with an error. -/
inductive PullError where
  /-- The local disk failed, or the request was cancelled. -/
  | aborted
  /-- `RemoteRevision::artifact` knows no artifact of this name. -/
  | noArtifact (name : Text)
  /-- What was served does not decode. -/
  | decode (name : Text)
  deriving DecidableEq

/-- How far a pull has come. -/
inductive Pull (γ : Type) where
  /-- `fetch_manifest` goes through the readable caches. -/
  | searching (rest : List γ)
  /-- `fetch_manifest` has found the manifest, and `pull_remote_blobs` is asked for blobs. -/
  | located (c : γ) (m : RemoteManifest) (wanted todo : List Text) (pulled : List (Pulled γ))
      (served : Bool)
  /-- A hit: these blobs are now in the local cache. -/
  | assembled (c : γ) (m : RemoteManifest) (wanted : List Text) (pulled : List (Pulled γ))
  /-- A miss: the target is executed. -/
  | missed
  | errored (e : PullError)

/-- What a party does: nothing yet, a push to one of the caches, or a pull. -/
inductive Task (π γ : Type) where
  | idle
  | push (p : π) (c : γ) (uploads : Slot → Upload) (dropped : Bool)
  | pull (r : Pull γ)

/-- How a cache answers. -/
inductive Reply where
  | served
  | absent
  /-- An error, a timeout, or a cache that is skipped because it is broken. -/
  | failed

/-- What happens next to a party. -/
inductive TaskEvent (π γ : Type) where
  | startPush (p : π) (c : γ)
  | startPull (order : List γ)
  | client (slot : Slot) (e : ClientEvent)
  /-- The request of an upload takes effect. -/
  | land (slot : Slot)
  /-- The push is dropped. -/
  | drop
  /-- The next cache is asked for the manifest, and these blobs will be wanted of it. -/
  | manifest (reply : Reply) (wanted : List Text)
  /-- `blobs_exist`. -/
  | blobsExist (all : Bool)
  /-- `fetch_blob`, and decoding what was fetched. -/
  | blob (reply : Reply)
  | finish
  | abort

/-- The cache does not serve what is asked of it. -/
def TaskEvent.unserved {π γ : Type} : TaskEvent π γ → Bool
  | .blobsExist all => !all
  | .blob .absent => true
  | .blob .failed => true
  | _ => false

/-- The objects of the caches. -/
abbrev Objects (γ : Type) := γ → Text → Option Bytes

/-- An upload may begin: the manifest's only when every blob is stored. -/
def Ready (uploads : Slot → Upload) : Slot → Prop
  | .blob a => a ∈ w.rev.manifest.artifacts
  | .manifest => ∀ a ∈ w.rev.manifest.artifacts, (uploads (.blob a)).client = .stored

instance (uploads : Slot → Upload) : (slot : Slot) → Decidable (Ready w uploads slot)
  | .blob a => inferInstanceAs (Decidable (a ∈ w.rev.manifest.artifacts))
  | .manifest => inferInstanceAs (Decidable (∀ a ∈ _, _))

variable [DecidableEq γ] (s : Objects γ)

/-- An object appears in a cache, or takes the place of another. -/
def landAt (c : γ) (k : Text) (bytes : Bytes) : Objects γ :=
  update s c (update (s c) k (some bytes))

theorem landAt_apply (c c' : γ) (k k' : Text) (bytes : Bytes) :
    landAt s c k bytes c' k' = if c' = c ∧ k' = k then some bytes else s c' k' := by
  rcases eq_or_ne c' c with rfl | hc
  · rcases eq_or_ne k' k with rfl | hk
    · simp [landAt]
    · simp [landAt, hk]
  · simp [landAt, hc]

/-- `put_revision`, on one cache. -/
def pushStep (p : π) (c : γ) (uploads : Slot → Upload) (dropped : Bool) :
    TaskEvent π γ → Option (Objects γ × Task π γ)
  | .client slot e =>
    if dropped = false ∧ Ready w uploads slot then
      ((uploads slot).advance (slotBytes w p slot).length e).map fun u =>
        (s, .push p c (update uploads slot u) dropped)
    else none
  | .land slot =>
    if (uploads slot).request = .pending then
      some (landAt s c (slotKey w slot) (slotBytes w p slot),
        .push p c (update uploads slot { uploads slot with request := .landed }) dropped)
    else none
  | .drop => some (s, .push p c uploads true)
  | _ => none

/-- `RemoteRevision::artifact`. -/
def RemoteManifest.artifact (m : RemoteManifest) (name : Text) : Option RemoteArtifact :=
  m.artifacts.find? fun a => a.name = name

/-- `fetch_manifest`: the first cache that serves a manifest is the one. -/
def searchStep : List γ → TaskEvent π γ → Option (Pull γ)
  | c :: rest, .manifest reply wanted =>
    match reply, s c (manifestKey w) with
    | .served, some bytes =>
      match w.codec.fromSlice bytes with
      | some m => some (.located c m wanted wanted [] true)
      | none => some .missed
    | .absent, none => some (.searching rest)
    | .failed, _ => some (.searching rest)
    | _, _ => none
  | [], .finish => some .missed
  | _, _ => none

/-- `pull_remote_blob`, for the next blob: what the cache replies to `fetch_blob`, and decoding
it. -/
def fetchStep (c : γ) (m : RemoteManifest) (wanted : List Text) (name : Text)
    (todo : List Text) (pulled : List (Pulled γ)) (served : Bool) (reply : Reply) :
    Option (Pull γ) :=
  match m.artifact name with
  | none => some (.errored (.noArtifact name))
  | some a =>
    match reply, s c (entryKey w name) with
    | .served, some bytes =>
      match w.codec.decode a.encoding bytes with
      | some content => some (.located c m wanted todo (pulled ++ [⟨name, c, content⟩]) served)
      | none => some (.errored (.decode name))
    | .absent, none => some (.located c m wanted todo pulled false)
    | .failed, _ => some (.located c m wanted todo pulled false)
    | _, _ => none

/-- A pull: `fetch_manifest`, `blobs_exist` and `pull_remote_blobs`. -/
def pullStep : Pull γ → TaskEvent π γ → Option (Pull γ)
  | .searching _, .abort => some (.errored .aborted)
  | .searching rest, e => searchStep w s rest e
  | .located .., .abort => some (.errored .aborted)
  | .located c m wanted todo pulled served, .blobsExist all =>
    if all then some (.located c m wanted todo pulled served) else some .missed
  | .located c m wanted (name :: todo) pulled served, .blob reply =>
    fetchStep w s c m wanted name todo pulled served reply
  | .located c m wanted [] pulled served, .finish =>
    if served then some (.assembled c m wanted pulled) else some .missed
  | _, _ => none

/-- The pushes and pulls of the revision, around the objects of the caches. -/
def transfers (ι : Type) (s₀ : Objects γ) : Parties ι (Objects γ) (Task π γ) (TaskEvent π γ) where
  init := s₀
  start := .idle
  step _ s
    | .idle, .startPush p c => some (s, .push p c (fun _ => ⟨.idle, .unsent⟩) false)
    | .idle, .startPull order => some (s, .pull (.searching order))
    | .idle, _ => none
    | .push p c uploads dropped, e => pushStep w s p c uploads dropped e
    | .pull r, e => (pullStep w s r e).map fun r' => (s, .pull r')

/-! ### What holds all along -/

/-- The bytes are the whole of an artifact that is kept under this key: *the* artifact, unless
the hash in the keys collides. -/
def WholeAt (k : Text) (bytes : Bytes) : Prop :=
  ∃ b ∈ w.rev.manifest.artifacts, entryKey w b.name = k ∧
    w.codec.decode b.encoding bytes = some (w.rev.content b.name)

/-- **The cache is complete**: it holds every blob that the manifest names, and all of it. -/
def Complete (c : γ) : Prop :=
  ∀ a ∈ w.rev.manifest.artifacts, ∃ bytes, s c (entryKey w a.name) = some bytes ∧
    WholeAt w (entryKey w a.name) bytes

/-- A manifest that can be seen is the revision's, and what it names is there. -/
def Visible : Prop :=
  ∀ c bytes, s c (manifestKey w) = some bytes →
    bytes = w.codec.toVec w.rev.manifest ∧ Complete w s c

/-- What is known of a push. -/
structure PushOk (s : Objects γ) (c : γ) (uploads : Slot → Upload) : Prop where
  stored : ∀ slot, (uploads slot).client = .stored → (uploads slot).request = .landed
  /-- Only the blobs of the revision are ever sent. -/
  blob : ∀ a, (uploads (.blob a)).request ≠ .unsent → a ∈ w.rev.manifest.artifacts
  landed : ∀ a, (uploads (.blob a)).request = .landed →
    ∃ bytes, s c (entryKey w a.name) = some bytes ∧ WholeAt w (entryKey w a.name) bytes
  /-- **The manifest is sent only to a complete cache.** -/
  manifest : (uploads .manifest).request ≠ .unsent → Complete w s c

/-- The blob came from this cache, and is what an artifact of that name decodes to. -/
structure PulledOk (c : γ) (x : Pulled γ) : Prop where
  source : x.source = c
  whole : ∃ a ∈ w.rev.manifest.artifacts, a.name = x.name ∧ ∃ bytes,
    WholeAt w (entryKey w a.name) bytes ∧ w.codec.decode a.encoding bytes = some x.content

/-- What is known of a pull. -/
def PullOk : Pull γ → Prop
  | .located c m wanted todo pulled served =>
    m = w.rev.manifest ∧ Complete w s c ∧
      (served = true → pulled.map Pulled.name ++ todo = wanted) ∧ ∀ x ∈ pulled, PulledOk w c x
  | .assembled c m wanted pulled =>
    m = w.rev.manifest ∧ pulled.map Pulled.name = wanted ∧ ∀ x ∈ pulled, PulledOk w c x
  | .errored (.noArtifact name) => w.rev.manifest.artifact name = none
  | .errored (.decode name) => ∃ a ∈ w.rev.manifest.artifacts, a.name = name ∧
      ∃ bytes, WholeAt w (entryKey w a.name) bytes ∧ w.codec.decode a.encoding bytes = none
  | _ => True

/-- What is known of a party. -/
def TaskOk : Task π γ → Prop
  | .idle => True
  | .push _ c uploads _ => PushOk w s c uploads
  | .pull r => PullOk w s r

variable {w} {s s' : Objects γ} {c : γ} {a : RemoteArtifact} {r : Pull γ} {e : TaskEvent π γ}

omit [DecidableEq γ] in
/-- **A blob is never kept where the manifest is.** -/
theorem entryKey_ne_manifestKey (ha : a ∈ w.rev.manifest.artifacts) :
    entryKey w a.name ≠ manifestKey w := by
  obtain ⟨type, packed, name, hname⟩ := w.rev.entry a ha
  rw [hname, manifestKey, entryKey, entryKey, key]
  intro heq
  have hseg := (cons.inj (append_cancel_left heq)).2
  have hplain : keySegmentIsPlain manifestV1 = true := by decide +kernel
  rw [keySegment_of_plain hplain] at hseg
  cases h : keySegmentIsPlain (cacheEntryName type packed name) with
  | true =>
    -- a plain entry name begins with another letter
    rw [keySegment_of_plain h] at hseg
    have hhead : (cacheEntryName type packed name).head? = manifestV1.head? := by rw [hseg]
    cases type <;> revert hhead <;> simp [cacheEntryName, manifestV1]
  | false =>
    -- and one that is not plain has the marker
    rw [keySegment_of_not_plain h] at hseg
    have hmark : hasMarker manifestV1 = false := by decide +kernel
    rw [← hseg, hasMarker_append] at hmark
    cases hmark

/-- The objects of an artifact of the revision stay what they are under a change. -/
def Grows (w : Pushes π) (s s' : Objects γ) : Prop :=
  ∀ c, ∀ a ∈ w.rev.manifest.artifacts,
    (∃ bytes, s c (entryKey w a.name) = some bytes ∧ WholeAt w (entryKey w a.name) bytes) →
    ∃ bytes, s' c (entryKey w a.name) = some bytes ∧ WholeAt w (entryKey w a.name) bytes

omit [DecidableEq γ] in
theorem Grows.refl (s : Objects γ) : Grows w s s := fun _ _ _ h => h

omit [DecidableEq γ] in
theorem Grows.complete (h : Grows w s s') (hc : Complete w s c) : Complete w s' c :=
  fun a ha => h c a ha (hc a ha)

omit [DecidableEq γ] in
theorem Grows.taskOk (h : Grows w s s') {t : Task π γ} (ht : TaskOk w s t) : TaskOk w s' t := by
  cases t with
  | idle => trivial
  | push p c uploads dropped =>
    exact ⟨ht.stored, ht.blob, fun a ha => h c a (ht.blob a (by simp [ha])) (ht.landed a ha),
      fun hm => h.complete (ht.manifest hm)⟩
  | pull r =>
    cases r with
    | located c m wanted todo pulled served =>
      obtain ⟨hm, hc, hrest⟩ := ht
      exact ⟨hm, h.complete hc, hrest⟩
    | errored e => cases e <;> exact ht
    | _ => exact ht

/-! ### One step of a push -/

section PushStep

variable {p : π} {uploads : Slot → Upload} {slot : Slot} {size : ℕ} {e : ClientEvent}

theorem grows_landAt (hslot : ∀ a, slot = .blob a → a ∈ w.rev.manifest.artifacts) :
    Grows w s (landAt s c (slotKey w slot) (slotBytes w p slot)) := by
  intro c' a ha hold
  by_cases hhere : c' = c ∧ entryKey w a.name = slotKey w slot
  · refine ⟨slotBytes w p slot, by rw [landAt_apply, if_pos hhere], ?_⟩
    cases slot with
    | blob b => exact ⟨b, hslot b rfl, hhere.2.symm, w.whole p b (hslot b rfl)⟩
    | manifest => exact absurd hhere.2 (entryKey_ne_manifestKey ha)
  · obtain ⟨bytes, hbytes, hwhole⟩ := hold
    exact ⟨bytes, by rw [landAt_apply, if_neg hhere, hbytes], hwhole⟩

theorem visible_landAt (h : Visible w s) (hok : PushOk w s c uploads)
    (hsent : (uploads slot).request ≠ .unsent) :
    Visible w (landAt s c (slotKey w slot) (slotBytes w p slot)) := by
  have hslot : ∀ a, slot = .blob a → a ∈ w.rev.manifest.artifacts := fun a ha =>
    hok.blob a (ha ▸ hsent)
  have hgrows : Grows w s (landAt s c (slotKey w slot) (slotBytes w p slot)) := grows_landAt hslot
  intro c' bytes hbytes
  rw [landAt_apply] at hbytes
  split at hbytes
  · next hhere =>
    cases slot with
    | blob b => exact absurd hhere.2.symm (entryKey_ne_manifestKey (hslot b rfl))
    | manifest =>
      refine ⟨(some.inj hbytes).symm, ?_⟩
      rw [hhere.1]
      exact hgrows.complete (hok.manifest hsent)
  · obtain ⟨hm, hc⟩ := h c' bytes hbytes
    exact ⟨hm, hgrows.complete hc⟩

theorem pushOk_landAt (hok : PushOk w s c uploads) (hpending : (uploads slot).request = .pending) :
    PushOk w (landAt s c (slotKey w slot) (slotBytes w p slot)) c
      (update uploads slot { uploads slot with request := .landed }) := by
  have hsent : (uploads slot).request ≠ .unsent := by simp [hpending]
  have hslot : ∀ a, slot = .blob a → a ∈ w.rev.manifest.artifacts := fun a ha =>
    hok.blob a (ha ▸ hsent)
  have hgrows : Grows w s (landAt s c (slotKey w slot) (slotBytes w p slot)) := grows_landAt hslot
  -- only the upload that has landed is another than before
  have hrequest : ∀ slot', (update uploads slot
      { uploads slot with request := .landed } slot').request ≠ .unsent →
      (uploads slot').request ≠ .unsent := by
    intro slot' h
    rcases eq_or_ne slot' slot with rfl | hne
    · exact hsent
    · rwa [update_of_ne hne] at h
  refine ⟨fun slot' h => ?_, fun a h => hok.blob a (hrequest _ h), fun a h => ?_,
    fun h => hgrows.complete (hok.manifest (hrequest _ h))⟩
  · rcases eq_or_ne slot' slot with rfl | hne
    · rw [update_self]
    · rw [update_of_ne hne] at h ⊢
      exact hok.stored slot' h
  · rcases eq_or_ne (.blob a) slot with rfl | hne
    · exact ⟨w.temp p a.name, by rw [landAt_apply, if_pos ⟨rfl, rfl⟩]; rfl, a, hslot a rfl, rfl,
        w.whole p a (hslot a rfl)⟩
    · rw [update_of_ne hne] at h
      exact hgrows c a (hok.blob a (by simp [h])) (hok.landed a h)

omit [DecidableEq γ] in
/-- What a client does leaves what has landed, and is stored only when it has. -/
theorem advance_spec {u u' : Upload}
    (h : u.advance size e = some u') (hu : u.client = .stored → u.request = .landed) :
    (u'.client = .stored → u'.request = .landed) ∧
      (u'.request = .landed → u.request = .landed) := by
  obtain ⟨client, request⟩ := u
  cases e <;> cases client <;> simp [Upload.advance] at h <;> grind

omit [DecidableEq γ] in
theorem pushOk_client (hok : PushOk w s c uploads) (hready : Ready w uploads slot) {u : Upload}
    (h : (uploads slot).advance size e = some u) :
    PushOk w s c (update uploads slot u) := by
  obtain ⟨hstored, hlanded⟩ := advance_spec h (hok.stored slot)
  refine ⟨fun slot' h => ?_, fun a h => ?_, fun a h => ?_, fun h => ?_⟩
  · rcases eq_or_ne slot' slot with rfl | hne
    · rw [update_self] at h ⊢
      exact hstored h
    · rw [update_of_ne hne] at h ⊢
      exact hok.stored slot' h
  · rcases eq_or_ne (.blob a) slot with rfl | hne
    · exact hready
    · rw [update_of_ne hne] at h
      exact hok.blob a h
  · rcases eq_or_ne (.blob a) slot with rfl | hne
    · rw [update_self] at h
      exact hok.landed a (hlanded h)
    · rw [update_of_ne hne] at h
      exact hok.landed a h
  · rcases eq_or_ne .manifest slot with rfl | hne
    · -- every blob is stored, so it has landed here
      exact fun a ha => hok.landed a (hok.stored _ (hready a ha))
    · rw [update_of_ne hne] at h
      exact hok.manifest h

theorem push_spec {dropped : Bool} {e : TaskEvent π γ} {t : Task π γ} (hv : Visible w s)
    (hok : PushOk w s c uploads) (h : pushStep w s p c uploads dropped e = some (s', t)) :
    Visible w s' ∧ Grows w s s' ∧ TaskOk w s' t := by
  cases e with
  | client slot e =>
    simp only [pushStep] at h
    split at h
    · next hready =>
      obtain ⟨u, hu, heq⟩ := map_eq_some_iff.mp h
      cases heq
      exact ⟨hv, .refl s, pushOk_client hok hready.2 hu⟩
    · cases h
  | land slot =>
    simp only [pushStep] at h
    split at h
    · next hpending =>
      cases h
      have hsent : (uploads slot).request ≠ .unsent := by simp [hpending]
      exact ⟨visible_landAt hv hok hsent,
        grows_landAt fun a ha => hok.blob a (ha ▸ hsent), pushOk_landAt hok hpending⟩
    · cases h
  | drop =>
    cases h
    exact ⟨hv, .refl s, hok⟩
  | _ => cases h

end PushStep

/-! ### One step of a pull -/

omit [DecidableEq γ] in
/-- A blob that a complete cache serves is whole. -/
theorem wholeAt_of_complete (hc : Complete w s c) {bytes : Bytes}
    (ha : a ∈ w.rev.manifest.artifacts) (h : s c (entryKey w a.name) = some bytes) :
    WholeAt w (entryKey w a.name) bytes := by
  obtain ⟨bytes', hbytes', hwhole⟩ := hc a ha
  obtain rfl : bytes' = bytes := some.inj (hbytes'.symm.trans h)
  exact hwhole

omit [DecidableEq γ] in
theorem search_spec {rest : List γ} (hv : Visible w s)
    (h : searchStep w s rest e = some r) : PullOk w s r := by
  unfold searchStep at h
  split at h
  · split at h
    · next bytes hbytes =>
      -- the only manifest there is, is the revision's
      obtain ⟨rfl, hcomplete⟩ := hv _ bytes hbytes
      rw [w.readBack] at h
      cases h
      exact ⟨rfl, hcomplete, fun _ => rfl, by simp⟩
    · cases h
      trivial
    · cases h
      trivial
    · cases h
  · cases h
    trivial
  · cases h

omit [DecidableEq γ] in
theorem fetch_spec {m : RemoteManifest} {wanted todo : List Text} {name : Text}
    {pulled : List (Pulled γ)} {served : Bool} {reply : Reply}
    (hok : PullOk w s (.located c m wanted (name :: todo) pulled served))
    (h : fetchStep w s c m wanted name todo pulled served reply = some r) : PullOk w s r := by
  obtain ⟨rfl, hcomplete, hwanted, hpulled⟩ := hok
  have hmiss : PullOk w s (.located c w.rev.manifest wanted todo pulled false) :=
    ⟨rfl, hcomplete, by simp, hpulled⟩
  unfold fetchStep at h
  split at h
  · next hnone =>
    cases h
    exact hnone
  · next a ha =>
    obtain ⟨hmem, hname⟩ : a ∈ w.rev.manifest.artifacts ∧ a.name = name :=
      ⟨mem_of_find?_eq_some ha, by simpa using find?_some ha⟩
    split at h
    · next bytes hbytes =>
      rw [← hname] at hbytes
      have hwhole := wholeAt_of_complete hcomplete hmem hbytes
      split at h
      · next content hcontent =>
        cases h
        refine ⟨rfl, hcomplete, fun hs => by simpa using hwanted hs, fun x hx => ?_⟩
        rcases mem_append.mp hx with hx | hx
        · exact hpulled x hx
        · rw [mem_singleton.mp hx]
          exact ⟨rfl, a, hmem, hname, bytes, hwhole, hcontent⟩
      · next hnone =>
        cases h
        exact ⟨a, hmem, hname, bytes, hwhole, hnone⟩
    · cases h
      exact hmiss
    · cases h
      exact hmiss
    · cases h

omit [DecidableEq γ] in
theorem pull_spec {r' : Pull γ} (hv : Visible w s) (hok : PullOk w s r)
    (h : pullStep w s r e = some r') : PullOk w s r' := by
  unfold pullStep at h
  split at h
  · cases h
    trivial
  · exact search_spec hv h
  · cases h
    trivial
  · split at h
    · cases h
      exact hok
    · cases h
      trivial
  · exact fetch_spec hok h
  · obtain ⟨hm, -, hwanted, hpulled⟩ := hok
    split at h
    · next hserved =>
      cases h
      exact ⟨hm, by simpa using hwanted hserved, hpulled⟩
    · cases h
      trivial
  · cases h

/-! ### What becomes of a pull that is not served -/

/-- **A pull that was not served everything** is on its way to a miss, has missed, or has ended
with an error; it ends by abortion only at an `abort`. -/
def Unserved (aborted : Prop) : Pull γ → Prop
  | .located _ _ _ _ _ served => served = false
  | .missed => True
  | .errored e => e = .aborted → aborted
  | _ => False

omit [DecidableEq γ] in
theorem Unserved.mono {aborted aborted' : Prop} (hr : Unserved aborted r)
    (ha : aborted → aborted') : Unserved aborted' r := by
  cases r with
  | errored e => exact fun he => ha (hr he)
  | _ => exact hr

omit [DecidableEq γ] in
/-- A reply that does not serve what is asked for is noted. -/
theorem unserved_of_reply {r' : Pull γ} {aborted : Prop} (he : e.unserved = true)
    (h : pullStep w s r e = some r') : Unserved aborted r' := by
  unfold pullStep at h
  split at h
  · cases he
  · unfold searchStep at h
    split at h
    · cases he
    · cases he
    · cases h
  · cases he
  · next all =>
    cases all with
    | true => cases he
    | false =>
      cases h
      trivial
  · next reply =>
    unfold fetchStep at h
    split at h
    · cases h
      intro heq
      cases heq
    · split at h
      · cases he
      · cases h
        rfl
      · cases h
        rfl
      · cases h
  · cases he
  · cases h

omit [DecidableEq γ] in
/-- And it stays noted: nothing that is served later makes up for it. -/
theorem Unserved.step {r' : Pull γ} {aborted aborted' : Prop} (hr : Unserved aborted r)
    (h : pullStep w s r e = some r') (he : e = .abort → aborted') :
    Unserved aborted' r' := by
  unfold pullStep at h
  split at h
  · exact hr.elim
  · exact hr.elim
  · cases h
    exact fun _ => he rfl
  · split at h
    · cases h
      exact hr
    · cases h
      trivial
  · unfold fetchStep at h
    split at h
    · cases h
      intro heq
      cases heq
    · split at h
      · split at h
        · cases h
          exact hr
        · cases h
          intro heq
          cases heq
      · cases h
        rfl
      · cases h
        rfl
      · cases h
  · cases hr
    cases h
    trivial
  · cases h

/-! ### Every run -/

variable [DecidableEq ι] {s₀ : Objects γ}

/-- What is not served is remembered to the end of the run. -/
theorem unserved_of_run {es : List (ι × TaskEvent π γ)} {tasks : ι → Task π γ} {i : ι}
    (h : (transfers w ι s₀).machine.run es = some (s, tasks))
    (hes : ∃ e, (i, e) ∈ es ∧ e.unserved = true) :
    ∃ r, tasks i = .pull r ∧ Unserved ((i, .abort) ∈ es) r := by
  refine Machine.run_history (P := fun es x => (∃ e, (i, e) ∈ es ∧ e.unserved = true) →
    ∃ r, x.2 i = .pull r ∧ Unserved ((i, .abort) ∈ es) r) (by simp) ?_ h hes
  rintro es ⟨s, tasks⟩ ⟨q, e⟩ y - ih hstep hes
  obtain ⟨⟨s', t'⟩, ht, rfl⟩ := map_eq_some_iff.mp hstep
  rcases eq_or_ne q i with rfl | hne
  · cases hq : tasks q with
    | pull r =>
      simp only [hq] at ht
      obtain ⟨r', hr', heq⟩ := map_eq_some_iff.mp ht
      cases heq
      refine ⟨r', update_self .., ?_⟩
      obtain ⟨e', hmem, he'⟩ := hes
      rcases mem_append.mp hmem with hmem | hmem
      · obtain ⟨r₀, hr₀, hok⟩ := ih ⟨e', hmem, he'⟩
        obtain rfl : r = r₀ := Task.pull.inj (hq.symm.trans hr₀)
        exact hok.step hr' (fun he => by simp [he])
      · cases mem_singleton.mp hmem
        exact unserved_of_reply he' hr'
    | idle | push =>
      -- nothing has been asked for yet, or ever will be
      obtain ⟨e', hmem, he'⟩ := hes
      rcases mem_append.mp hmem with hmem | hmem
      · obtain ⟨r₀, hr₀, -⟩ := ih ⟨e', hmem, he'⟩
        cases hq.symm.trans hr₀
      · cases mem_singleton.mp hmem
        simp only [hq] at ht
        cases e with
        | blobsExist | blob => cases ht
        | _ => cases he'
  · obtain ⟨e', hmem, he'⟩ := hes
    have hold : (i, e') ∈ es := by simpa [hne.symm] using hmem
    obtain ⟨r, hr, hok⟩ := ih ⟨e', hold, he'⟩
    exact ⟨r, (update_of_ne hne.symm ..).trans hr, hok.mono (mem_append_left _)⟩

omit [DecidableEq ι] in
/-- What one step of any party does. -/
theorem transfer_spec {i : ι} {t t' : Task π γ} (hv : Visible w s)
    (ht : TaskOk w s t) (h : (transfers w ι s₀).step i s t e = some (s', t')) :
    Visible w s' ∧ Grows w s s' ∧ TaskOk w s' t' := by
  rcases t with _ | ⟨p, c, uploads, dropped⟩ | r
  · cases e with
    | startPush p c =>
      cases h
      exact ⟨hv, .refl s, by simp, by simp, by simp, by simp⟩
    | startPull order =>
      cases h
      exact ⟨hv, .refl s, trivial⟩
    | _ => cases h
  · exact push_spec hv ht h
  · obtain ⟨r', hr', heq⟩ := map_eq_some_iff.mp h
    cases heq
    exact ⟨hv, .refl s, pull_spec hv ht hr'⟩

theorem transfers_ok (h₀ : ∀ c, s₀ c (manifestKey w) = none) {es : List (ι × TaskEvent π γ)}
    {tasks : ι → Task π γ} (h : (transfers w ι s₀).machine.run es = some (s, tasks)) :
    Visible w s ∧ ∀ i, TaskOk w s (tasks i) := by
  refine Parties.run_invariant
    (fun c bytes hbytes => ?_) (fun _ => trivial) ?_ ?_ h
  · exact absurd ((h₀ c).symm.trans hbytes) (by simp)
  · exact fun i s t e s' t' hv ht h => ⟨(transfer_spec hv ht h).1, (transfer_spec hv ht h).2.2⟩
  · exact fun i s t e s' t' hv ht h q _ k hk => (transfer_spec hv ht h).2.1.taskOk hk

/-- **A manifest that can be seen is complete, and a pull stays with the cache that served it.**
Whatever the pushes and pulls of the revision do, and wherever they fail: a cache that holds the
manifest holds every blob that it names, whole; and a pull that succeeds has every blob that was
wanted, and has it from the cache it found the manifest in.

A pull that was told of a blob that is not there, or that failed, is on its way to a miss, which
it ends in once the other blobs are through, or it has missed; unless it is aborted, or asks for
a name that the manifest does not have, or for a blob that does not decode. Unless the hash in
the keys collides on the names of the revision, every blob decodes, and to the one of that
name. -/
theorem manifest_complete (h₀ : ∀ c, s₀ c (manifestKey w) = none)
    {es : List (ι × TaskEvent π γ)} {tasks : ι → Task π γ}
    (h : (transfers w ι s₀).machine.run es = some (s, tasks)) :
    (∀ c bytes, s c (manifestKey w) = some bytes →
      w.codec.fromSlice bytes = some w.rev.manifest ∧ Complete w s c) ∧
    (∀ i c m wanted pulled, tasks i = .pull (.assembled c m wanted pulled) →
      m = w.rev.manifest ∧ pulled.map Pulled.name = wanted ∧ ∀ x ∈ pulled, PulledOk w c x) ∧
    (∀ i, (∃ e, (i, e) ∈ es ∧ e.unserved = true) →
      (∃ c wanted todo pulled,
        tasks i = .pull (.located c w.rev.manifest wanted todo pulled false) ∧
        (todo = [] → (transfers w ι s₀).machine.step (s, tasks) (i, .finish) =
          some (s, update tasks i (.pull .missed)))) ∨
      tasks i = .pull .missed ∨
      (tasks i = .pull (.errored .aborted) ∧ (i, .abort) ∈ es) ∨
      ∃ name, (tasks i = .pull (.errored (.noArtifact name)) ∧
          w.rev.manifest.artifact name = none) ∨
        tasks i = .pull (.errored (.decode name))) ∧
    ((∀ a ∈ w.rev.manifest.artifacts, ∀ b ∈ w.rev.manifest.artifacts,
        entryKey w a.name = entryKey w b.name → a = b) →
      (∀ c, s c (manifestKey w) ≠ none → ∀ a ∈ w.rev.manifest.artifacts, ∃ bytes,
        s c (entryKey w a.name) = some bytes ∧
          w.codec.decode a.encoding bytes = some (w.rev.content a.name)) ∧
      (∀ i c m wanted pulled, tasks i = .pull (.assembled c m wanted pulled) →
        ∀ x ∈ pulled, x.content = w.rev.content x.name) ∧
      ∀ i name, tasks i ≠ .pull (.errored (.decode name))) := by
  obtain ⟨hv, ht⟩ := transfers_ok h₀ h
  have hpulled : ∀ i c m wanted pulled, tasks i = .pull (.assembled c m wanted pulled) →
      PullOk w s (.assembled c m wanted pulled) := by
    intro i c m wanted pulled hi
    have hti := ht i
    rwa [hi] at hti
  refine ⟨fun c bytes hbytes => ?_, hpulled, fun i hes => ?_, fun hkeys => ⟨fun c hc a ha => ?_,
    fun i c m wanted pulled hi x hx => ?_, fun i name hi => ?_⟩⟩
  · obtain ⟨rfl, hcomplete⟩ := hv c bytes hbytes
    exact ⟨w.readBack, hcomplete⟩
  · obtain ⟨r, hi, hun⟩ := unserved_of_run h hes
    have hok := ht i
    rw [hi] at hok
    cases r with
    | located c m wanted todo pulled served =>
      obtain rfl : served = false := hun
      obtain rfl := hok.1
      refine .inl ⟨c, wanted, todo, pulled, hi, ?_⟩
      rintro rfl
      simp [Parties.machine, transfers, hi, pullStep]
    | missed => exact .inr (.inl hi)
    | errored e =>
      cases e with
      | aborted => exact .inr (.inr (.inl ⟨hi, hun rfl⟩))
      | noArtifact name => exact .inr (.inr (.inr ⟨name, .inl ⟨hi, hok⟩⟩))
      | decode name => exact .inr (.inr (.inr ⟨name, .inr hi⟩))
    | searching | assembled => exact hun.elim
  · obtain ⟨bytes, hbytes⟩ := ne_none_iff_exists'.mp hc
    obtain ⟨blob, hblob, b, hb, hkey, hwhole⟩ := (hv c bytes hbytes).2 a ha
    obtain rfl := hkeys b hb a ha hkey
    exact ⟨blob, hblob, hwhole⟩
  · obtain ⟨-, a, ha, hname, bytes, ⟨b, hb, hkey, hwhole⟩, hcontent⟩ :=
      (hpulled i c m wanted pulled hi).2.2 x hx
    obtain rfl := hkeys b hb a ha hkey
    rw [← hname]
    exact some.inj (hcontent.symm.trans hwhole)
  · have hok := ht i
    rw [hi] at hok
    obtain ⟨a, ha, -, bytes, ⟨b, hb, hkey, hwhole⟩, hnone⟩ := hok
    obtain rfl := hkeys b hb a ha hkey
    cases hnone.symm.trans hwhole

end Push

/-! ### A push and a pull -/

/-- A revision with one artifact, that is not compressed. -/
def singleArtifact : RemoteArtifact :=
  ⟨['h'], ['g'], cacheEntryName .output true ['a'], 2, .output, .tar, .none⟩

/-- One process pushes it. -/
def singlePush : Pushes Unit where
  codec := ⟨fun _ => 0, some, fun _ => [7],
    fun _ => some ⟨['1'], ['t'], ['f'], [singleArtifact]⟩⟩
  rev := ⟨⟨['p'], ['n'], .empty⟩, ['f'], ⟨['1'], ['t'], ['f'], [singleArtifact]⟩, fun _ => [1, 2],
    fun a ha => ⟨.output, true, ['a'], by rw [List.mem_singleton.mp ha]; rfl⟩⟩
  temp _ _ := [1, 2]
  whole _ a ha := by rw [List.mem_singleton.mp ha]; rfl
  readBack := rfl

/-- The push goes through, and a pull follows it. -/
def pushAndPull : List (Bool × TaskEvent Unit Unit) :=
  let upload (slot : Slot) (size : ℕ) : List (Bool × TaskEvent Unit Unit) :=
    [(true, .client slot .openWrite), (true, .client slot (.write size)),
      (true, .client slot .shutdown), (true, .land slot), (true, .client slot .confirm)]
  (true, .startPush () ()) :: upload (.blob singleArtifact) 2 ++ upload .manifest 1 ++
    [(false, .startPull [()]), (false, .manifest .served [singleArtifact.name]),
      (false, .blob .served), (false, .finish)]

/-- The blobs of a pull that has succeeded. -/
def Task.blobs {π γ : Type} : Task π γ → Option (List (Text × Bytes))
  | .pull (.assembled _ _ _ pulled) => some (pulled.map fun x => (x.name, x.content))
  | _ => none

theorem manifest_complete_pushAndPull :
    ∃ s tasks, (transfers singlePush Bool fun _ _ => none).machine.run pushAndPull =
        some (s, tasks) ∧
      (tasks false).blobs = some [(singleArtifact.name, [1, 2])] ∧ Complete singlePush s () := by
  have hfacts : ((transfers singlePush Bool fun _ _ => none).machine.run pushAndPull).map
      (fun r => ((r.2 false).blobs, (r.1 () (manifestKey singlePush)).isSome)) =
      some (some [(singleArtifact.name, [1, 2])], true) := by
    decide +kernel
  obtain ⟨⟨s, tasks⟩, hrun, hboth⟩ := map_eq_some_iff.mp hfacts
  obtain ⟨hblobs, hsome⟩ := Prod.mk.inj hboth
  obtain ⟨bytes, hbytes⟩ := isSome_iff_exists.mp hsome
  exact ⟨s, tasks, hrun, hblobs, ((manifest_complete (fun _ => rfl) hrun).1 () bytes hbytes).2⟩

end Heph.Remote
