import Heph.Lib.FileOps

/-!
# A directory as a tree of its own

What is below a directory can be looked at alone, as a tree whose root is the directory. The two
trees resolve a path alike **as long as it stays below the directory** (`FileTree.Stays`):
it is not led above the root, neither by a component nor by a link on its way. So does an operation:
if it succeeds in the large tree, it does in the small one and leaves the large one as it was
outside the directory (`FileTree.Mounted`).

The large tree may fail where the small one does not: links on the way to the directory count too,
and it may hold a file that the small one lacks. It may not succeed otherwise.
-/

namespace Heph.FileTree

open List Option FileKind

/-! ### Paths that stay -/

variable {κ : Type} {t t' : FileTree κ} {follow follow' : Bool} {r r' : Route κ}

/-- The components one after the other do not lead above the root. Where the path is not resolved
further it does not matter what follows. -/
def scanStays (t : FileTree κ) (follow : Bool) (stays : Place κ → Route κ → Prop) :
    Place κ → Route κ → Prop
  | _, [] => True
  | cur, .up :: rest => cur ≠ [] ∧ t.scanStays follow stays cur.tail rest
  | cur, .name c :: rest =>
    match t.kindAt (c :: cur) with
    | none => True
    | some .dir => t.scanStays follow stays (c :: cur) rest
    | some (.file _ _) => True
    | some (.link target) =>
      rest = [] ∧ follow = false ∨ target.absolute = false ∧ stays cur (target.parts ++ rest)

def staysFrom (t : FileTree κ) (follow : Bool) : ℕ → Place κ → Route κ → Prop
  | 0 => t.scanStays follow fun _ _ => True
  | n + 1 => t.scanStays follow (t.staysFrom follow n)

/-- **A path stays below the root**: it is not resolved to above it, and no link leads it away. -/
def Stays (t : FileTree κ) (follow : Bool) (r : Route κ) : Prop :=
  t.staysFrom follow maxLinks [] r

instance decidableScanStays [DecidableEq κ] (t : FileTree κ) (follow : Bool)
    (stays : Place κ → Route κ → Prop) [∀ p r, Decidable (stays p r)] :
    ∀ cur r, Decidable (t.scanStays follow stays cur r)
  | _, [] => isTrue trivial
  | cur, .up :: rest =>
    have := decidableScanStays t follow stays cur.tail rest
    inferInstanceAs (Decidable (_ ∧ _))
  | cur, .name c :: rest =>
    match hk : t.kindAt (c :: cur) with
    | none => isTrue (by rw [scanStays, hk]; trivial)
    | some .dir =>
      have := decidableScanStays t follow stays (c :: cur) rest
      decidable_of_iff (t.scanStays follow stays (c :: cur) rest) (by rw [scanStays, hk])
    | some (.file _ _) => isTrue (by rw [scanStays, hk]; trivial)
    | some (.link target) =>
      decidable_of_iff
        (rest = [] ∧ follow = false ∨ target.absolute = false ∧ stays cur (target.parts ++ rest))
        (by rw [scanStays, hk])

instance decidableStaysFrom [DecidableEq κ] (t : FileTree κ) (follow : Bool) :
    ∀ n cur r, Decidable (t.staysFrom follow n cur r)
  | 0, cur, r => decidableScanStays t follow (fun _ _ => True) cur r
  | n + 1, cur, r =>
    have := decidableStaysFrom t follow n
    decidableScanStays t follow (t.staysFrom follow n) cur r

instance [DecidableEq κ] (t : FileTree κ) (follow : Bool) (r : Route κ) :
    Decidable (t.Stays follow r) :=
  decidableStaysFrom t follow maxLinks [] r

/-- **A path stays if a longer one does** in a tree that has all that this one has, unless a link
is followed only here. -/
theorem scanStays_imp {stays stays' : Place κ → Route κ → Prop} (r' : Route κ)
    (hkind : ∀ q, t.kindAt q = t'.kindAt q ∨ t.kindAt q = none)
    (hlast : ∀ rest, rest ++ r' = [] ∧ follow' = false → rest = [] ∧ follow = false)
    (hjump : ∀ p x, stays' p (x ++ r') → stays p x) {cur : Place κ}
    (h : t'.scanStays follow' stays' cur (r ++ r')) : t.scanStays follow stays cur r := by
  induction r generalizing cur with
  | nil => trivial
  | cons part rest ih =>
    cases part with
    | up => exact ⟨h.1, ih h.2⟩
    | name c =>
      rw [cons_append, scanStays] at h
      rw [scanStays]
      rcases hkind (c :: cur) with hk | hk
      · rw [hk]
        split at h
        · trivial
        · exact ih h
        · trivial
        · exact h.imp (hlast rest) fun ⟨hrel, hstays⟩ => ⟨hrel, hjump _ _ (by rwa [append_assoc])⟩
      · rw [hk]
        trivial

theorem Stays.imp (r' : Route κ) (hkind : ∀ q, t.kindAt q = t'.kindAt q ∨ t.kindAt q = none)
    (hlast : ∀ rest, rest ++ r' = [] ∧ follow' = false → rest = [] ∧ follow = false)
    (h : t'.Stays follow' (r ++ r')) : t.Stays follow r := by
  have hfrom : ∀ n cur r, t'.staysFrom follow' n cur (r ++ r') → t.staysFrom follow n cur r := by
    intro n
    induction n with
    | zero => exact fun _ _ => scanStays_imp r' hkind hlast fun _ _ _ => trivial
    | succ n ih => exact fun _ _ => scanStays_imp r' hkind hlast fun _ _ => ih _ _
  exact hfrom _ _ _ h

/-- What comes before the end of a path that stays does so too, also if a link at its end is
followed. -/
theorem Stays.of_append (h : t.Stays follow (r ++ r')) (hr' : r' ≠ []) : t.Stays true r :=
  h.imp r' (fun _ => .inl rfl) fun _ hnil => absurd (append_eq_nil_iff.mp hnil.1).2 hr'

theorem Stays.dropLast (h : t.Stays follow r) (hr : r ≠ []) : t.Stays true r.dropLast := by
  rw [← dropLast_append_getLast hr] at h
  exact h.of_append nofun

theorem Stays.unfollowed (h : t.Stays true r) : t.Stays false r := by
  rw [← append_nil r] at h
  exact h.imp [] (fun _ => .inl rfl) (by simp)

/-- A path that stays after directories have been made did so before. -/
theorem Stays.of_grows (hg : Grows t t') (h : t'.Stays follow r) : t.Stays follow r := by
  rw [← append_nil r] at h
  refine h.imp [] (fun q => ?_) (by simp)
  rcases hg.nodes q with heq | ⟨hnone, -⟩
  · exact .inl (congrArg (Option.map FileNode.kind) heq.symm)
  · exact .inr (kindAt_eq_none.mpr hnone)

/-! ### The same path in both trees -/

section Mirror

variable {j : FileTree κ} {d : Place κ} {stays : Place κ → Route κ → Prop}
  {jump jump' : Place κ → Route κ → Except IoError (Place κ)} {cur : Place κ} {n : ℕ}
  {dst : Route κ} {k k' : Option (FileKind κ)}

/-- What is at a place of the small tree, and at that place in the large one. -/
inductive Agrees : Option (FileKind κ) → Option (FileKind κ) → Prop
  | same (k : Option (FileKind κ)) : Agrees k k
  | file (b : List UInt8) (m : UInt32) (b' : List UInt8) (m' : UInt32) :
    Agrees (some (.file b m)) (some (.file b' m'))
  /-- A file that the small tree lacks. -/
  | extra (b : List UInt8) (m : UInt32) : Agrees none (some (.file b m))

theorem Agrees.eq (h : Agrees k k')
    (hk : ∀ kind, k' = some kind → kind.type ≠ .file) : k = k' := by
  cases h with
  | same => rfl
  | file | extra => exact absurd rfl (hk _ rfl)

theorem Agrees.isFile (h : Agrees k k')
    (hk : ∀ kind, k' = some kind → kind.type = .file) (kind : FileKind κ) (hkind : k = some kind) :
    kind.type = .file := by
  cases h with
  | same => exact hk kind hkind
  | file =>
    cases hkind
    rfl
  | extra => cases hkind

/-- **The small tree is what is below the directory.** -/
def Mirrors (j t : FileTree κ) (d : Place κ) : Prop :=
  ∀ p, Agrees (j.kindAt p) (t.kindAt (p ++ d))

theorem Mirrors.dir (h : Mirrors j t d) : t.kindAt d = some .dir := by
  have hroot : Agrees (some .dir) (t.kindAt d) := j.root ▸ h []
  generalize t.kindAt d = k at hroot
  cases hroot
  rfl

/-- A path leads to a place in the small tree, and to the same one in the large. -/
inductive Tracks (d : Place κ) : Except IoError (Place κ) → Except IoError (Place κ) → Prop
  | ok (p : Place κ) : Tracks d (.ok p) (.ok (p ++ d))
  | missing : Tracks d (.error .notFound) (.error .notFound)
  /-- It leads nowhere in the large tree, and not because something is missing. -/
  | stops (x : Except IoError (Place κ)) (e : IoError) (he : e ≠ .notFound) :
    Tracks d x (.error e)

theorem scan_tracks (hm : Mirrors j t d)
    (hjump : ∀ p x, stays p x → Tracks d (jump p x) (jump' (p ++ d) x))
    (h : j.scanStays follow stays cur r) :
    Tracks d (j.scan follow jump cur r) (t.scan follow jump' (cur ++ d) r) := by
  induction r generalizing cur with
  | nil => exact .ok cur
  | cons part rest ih =>
    cases part with
    | up =>
      rw [scan, scan, tail_append_of_ne_nil h.1]
      exact ih h.2
    | name c =>
      rw [scanStays] at h
      have hagrees : Agrees (j.kindAt (c :: cur)) (t.kindAt (c :: (cur ++ d))) := hm (c :: cur)
      rw [scan, scan]
      generalize j.kindAt (c :: cur) = k at h hagrees
      generalize t.kindAt (c :: (cur ++ d)) = k' at hagrees
      by_cases hrest : rest = []
      · subst hrest
        cases hagrees with
        | same =>
          cases k with
          | none => exact .ok (c :: cur)
          | some kind =>
            cases kind with
            | dir => exact ih h
            | file => exact .ok (c :: cur)
            | link target =>
              by_cases hf : follow = false
              · simp only [hf, true_and]
                exact .ok (c :: cur)
              · obtain ⟨hrel, hstays⟩ := h.resolve_left fun hlast => hf hlast.2
                simp only [hf, hrel]
                exact hjump _ _ hstays
        | file | extra => exact .ok (c :: cur)
      · simp only [hrest, false_and, if_false]
        cases hagrees with
        | same =>
          cases k with
          | none => exact .missing
          | some kind =>
            cases kind with
            | dir => exact ih h
            | file => exact .stops _ _ (by simp)
            | link target =>
              obtain ⟨hrel, hstays⟩ := h.resolve_left fun hlast => hrest hlast.1
              simp only [hrel]
              exact hjump _ _ hstays
        | file | extra => exact .stops _ _ (by simp)

theorem locateFrom_tracks {follow : Bool} (hm : Mirrors j t d) {n' : ℕ} (hn : n' ≤ n) {r : Route κ}
    (h : j.staysFrom follow n cur r) :
    Tracks d (j.locateFrom follow n cur r) (t.locateFrom follow n' (cur ++ d) r) := by
  induction n' generalizing n cur r with
  | zero =>
    cases n with
    | zero | succ => exact scan_tracks hm (fun _ _ _ => .stops _ _ nofun) h
  | succ n' ih =>
    obtain ⟨n, rfl⟩ := Nat.exists_eq_add_of_le' (Nat.one_le_of_lt hn)
    exact scan_tracks hm (fun _ _ => ih (Nat.le_of_succ_le_succ hn)) h

/-! ### The way to the directory -/

/-- Directories and links are where they were. -/
def KeepsWays (t t' : FileTree κ) : Prop :=
  ∀ q kind, t.kindAt q = some kind → kind.type ≠ .file → t'.kindAt q = some kind

theorem KeepsWays.refl (t : FileTree κ) : KeepsWays t t := fun _ _ h _ => h

/-- The path is resolved in the second tree to the directory, and on from there, with the links
that are left. -/
structure Enters (t : FileTree κ) (n : ℕ) (cur : Place κ) (dst : Route κ) (d : Place κ) : Prop where
  finds : t.locateFrom true n cur dst = .ok d
  on : ∃ n' ≤ n, ∀ follow r, r ≠ [] →
    t.locateFrom follow n cur (dst ++ r) = t.locateFrom follow n' d r

theorem scan_enters {jump : Place κ → Route κ → Except IoError (Place κ)}
    (jump' : Bool → Place κ → Route κ → Except IoError (Place κ)) (hkeep : KeepsWays t t')
    (hd : t.kindAt d = some .dir)
    (hself : ∀ follow, t'.scan follow (jump' follow) = t'.locateFrom follow n)
    (hjump : ∀ cur x, jump cur x = .ok d → jump' true cur x = .ok d ∧
      ∃ n' ≤ n, ∀ follow r, r ≠ [] → jump' follow cur (x ++ r) = t'.locateFrom follow n' d r)
    (h : t.scan true jump cur dst = .ok d) :
    Enters t' n cur dst d := by
  induction dst generalizing cur with
  | nil =>
    obtain rfl : cur = d := Except.ok.inj h
    refine ⟨?_, n, le_rfl, fun _ _ _ => rfl⟩
    rw [← hself]
    rfl
  | cons part rest ih =>
    cases part with
    | up =>
      obtain ⟨hfinds, n', hn', hon⟩ := ih h
      rw [← hself] at hfinds
      refine ⟨?_, n', hn', fun follow r hr => ?_⟩
      · rw [← hself]
        exact hfinds
      · rw [← hon follow r hr, ← hself]
        rfl
    | name c =>
      rw [scan] at h
      split at h
      · next hk =>
        split at h
        · obtain rfl : c :: cur = d := Except.ok.inj h
          cases hk.symm.trans hd
        · cases h
      · next hk =>
        have hk' := hkeep _ _ hk (by simp [type])
        obtain ⟨hfinds, n', hn', hon⟩ := ih h
        rw [← hself] at hfinds
        refine ⟨?_, n', hn', fun follow r hr => ?_⟩
        · rw [← hself, scan, hk']
          exact hfinds
        · rw [← hon follow r hr, ← hself, cons_append, scan, hk']
      · next hk =>
        split at h
        · obtain rfl : c :: cur = d := Except.ok.inj h
          cases hk.symm.trans hd
        · cases h
      · next target hk =>
        have hk' := hkeep _ _ hk (by simp [type])
        rw [if_neg (by simp)] at h
        obtain ⟨hfinds, n', hn', hon⟩ := hjump _ _ h
        refine ⟨?_, n', hn', fun follow r hr => ?_⟩
        · rw [← hself, scan, hk']
          simpa using hfinds
        · rw [← hself, cons_append, scan, hk']
          have hrest : ¬(rest ++ r = [] ∧ follow = false) := by simp [hr]
          simp only [hrest, if_false]
          rw [← hon follow r hr, append_assoc]

/-- **The way to a directory stays open** while directories and links are kept. -/
theorem enters_of_keeps (hkeep : KeepsWays t t') (hd : t.kindAt d = some .dir)
    (h : t.locateFrom true n cur dst = .ok d) : Enters t' n cur dst d := by
  induction n generalizing cur dst with
  | zero =>
    refine scan_enters (fun _ _ _ => .error .filesystemLoop) hkeep hd (fun _ => rfl) ?_ h
    rintro _ _ ⟨⟩
  | succ n ih =>
    refine scan_enters (fun follow => t'.locateFrom follow n) hkeep hd (fun _ => rfl)
      (fun cur x hx => ?_) h
    obtain ⟨hfinds, n', hn', hon⟩ := ih hx
    exact ⟨hfinds, n', Nat.le_succ_of_le hn', hon⟩

end Mirror

/-! ### What is at the end of a path -/

section Dirs

variable {p : Place κ}

theorem scan_unfollowed {jump jump' : Place κ → Route κ → Except IoError (Place κ)}
    (hjump : ∀ cur x, jump cur x = .ok p →
      ∃ p', jump' cur x = .ok p' ∧ t.kindAt p' ≠ none)
    (hp : t.kindAt p ≠ none) {cur : Place κ} (h : t.scan true jump cur r = .ok p) :
    ∃ p', t.scan false jump' cur r = .ok p' ∧ t.kindAt p' ≠ none := by
  induction r generalizing cur with
  | nil =>
    obtain rfl : cur = p := Except.ok.inj h
    exact ⟨cur, rfl, hp⟩
  | cons part rest ih =>
    cases part with
    | up => exact ih h
    | name c =>
      rw [scan] at h ⊢
      split at h
      · next hk =>
        split at h
        · obtain rfl : c :: cur = p := Except.ok.inj h
          exact absurd hk hp
        · cases h
      · exact ih h
      · split at h
        · next hk hrest =>
          rw [if_pos hrest]
          exact ⟨c :: cur, rfl, by simp [hk]⟩
        · cases h
      · next hk =>
        rw [if_neg (by simp)] at h
        by_cases hrest : rest = []
        · exact ⟨c :: cur, if_pos ⟨hrest, rfl⟩, by simp [hk]⟩
        · rw [if_neg fun hlast => hrest hlast.1]
          exact hjump _ _ h

/-- If a path leads to something, there is something at its end – a link, if nothing else. -/
theorem locate_unfollowed (h : t.locate true r = .ok p) (hp : t.kindAt p ≠ none) :
    ∃ p', t.locate false r = .ok p' ∧ t.kindAt p' ≠ none := by
  have hfrom : ∀ n cur r, t.locateFrom true n cur r = .ok p →
      ∃ p', t.locateFrom false n cur r = .ok p' ∧ t.kindAt p' ≠ none := by
    intro n
    induction n with
    | zero =>
      intro cur r h
      refine scan_unfollowed ?_ hp h
      rintro _ _ ⟨⟩
    | succ n ih => exact fun _ _ => scan_unfollowed (fun _ _ => ih _ _) hp
  exact hfrom _ _ _ h

theorem isDir_iff : t.isDir r ↔ ∃ p, t.locate true r = .ok p ∧ t.kindAt p = some .dir := by
  constructor
  · intro h
    rw [isDir] at h
    split at h
    · next hdir =>
      obtain ⟨p, n, hfinds, hk⟩ := metadata_eq_ok.mp hdir
      exact ⟨p, hfinds.locate, hfinds.kindAt.trans (congrArg some hk)⟩
    · cases h
  · rintro ⟨p, hp, hk⟩
    have hdir : t.metadata r = .ok .dir := by
      rw [metadata, hp]
      simp only [bind, Except.bind, hk]
    rw [isDir, hdir]

variable [DecidableEq κ] {above : List (Part κ)} {c : Part κ}

theorem mkdir_of_isDir (h : t.isDir r) : t.mkdir r = .error .alreadyExists := by
  obtain ⟨p, hp, hk⟩ := isDir_iff.mp h
  obtain ⟨p', hp', hk'⟩ := locate_unfollowed hp (by simp [hk])
  rw [mkdir, hp']
  obtain ⟨n, hn⟩ := ne_none_iff_exists'.mp (mt kindAt_eq_none.mpr hk')
  simp only [bind, Except.bind, hn]

/-- A directory that is there is not made. -/
theorem createDirs_of_isDir (h : t.isDir above.reverse) :
    t.createDirs above = (.ok (), t) := by
  cases above with
  | nil => rfl
  | cons c above =>
    rw [createDirs, mkdir_of_isDir h]
    exact if_pos h

/-- A directory is made, or is there. -/
def ensureDir (t : FileTree κ) (r : Route κ) : Except IoError Unit × FileTree κ :=
  match t.mkdir r with
  | .ok t' => (.ok (), t')
  | .error e => if t.isDir r then (.ok (), t) else (.error e, t)

theorem ensureDir_of_isDir (h : t.isDir r) : t.ensureDir r = (.ok (), t) := by
  rw [ensureDir, mkdir_of_isDir h]
  exact if_pos h

theorem ensureDir_of_notFound (h : t.mkdir r = .error .notFound) :
    t.ensureDir r = (.error .notFound, t) := by
  have hdir : ¬t.isDir r := fun hdir => nomatch h.symm.trans (mkdir_of_isDir hdir)
  rw [ensureDir, h]
  exact if_neg hdir

theorem ensureDir_grows : Grows t (t.ensureDir r).2 := by
  rw [ensureDir]
  split
  · next hmk => exact mkdir_grows hmk
  · split <;> exact .refl t

theorem createDirs_of_notFound (h : t.mkdir (c :: above).reverse = .error .notFound) :
    t.createDirs (c :: above) = match t.createDirs above with
      | (.ok (), t') => t'.ensureDir (c :: above).reverse
      | (.error e, t') => (.error e, t') := by
  rw [createDirs, h]
  rfl

theorem createDirs_of_ne (h : t.mkdir (c :: above).reverse ≠ .error .notFound) :
    t.createDirs (c :: above) = t.ensureDir (c :: above).reverse := by
  rw [createDirs, ensureDir]
  split
  · next hok => rw [hok]
  · next hmissing => exact absurd hmissing h
  · next herr => rw [herr]

end Dirs

/-! ### Operations in both trees -/

section Mounted

variable {j j' : FileTree κ} {d : Place κ} {dst : Route κ} {p : Place κ}

/-- **The path leads to a directory, and the small tree is what is below it.** -/
structure Mounted (dst : Route κ) (d : Place κ) (j t : FileTree κ) : Prop where
  finds : t.locate true dst = .ok d
  mirrors : Mirrors j t d

/-- The two trees are alike but below the directory. -/
def SameOutside (d : Place κ) (t t' : FileTree κ) : Prop :=
  ∀ p, ¬ d <:+ p → t'.nodes p = t.nodes p

theorem SameOutside.refl (d : Place κ) (t : FileTree κ) : SameOutside d t t := fun _ _ => rfl

theorem SameOutside.trans {t'' : FileTree κ} (h : SameOutside d t t') (h' : SameOutside d t' t'') :
    SameOutside d t t'' :=
  fun p hp => (h' p hp).trans (h p hp)

namespace Mounted

variable (h : Mounted dst d j t) {p' : Place κ}

include h

theorem tracks (hr : r ≠ []) (hstays : j.Stays follow r) :
    Tracks d (j.locate follow r) (t.locate follow (dst ++ r)) := by
  obtain ⟨-, n', hn', hon⟩ := enters_of_keeps (.refl t) h.mirrors.dir h.finds
  have hlocate : t.locate follow (dst ++ r) = t.locateFrom follow n' d r := hon follow r hr
  rw [hlocate]
  exact locateFrom_tracks h.mirrors hn' hstays

theorem locate_ok (hr : r ≠ []) (hstays : j.Stays follow r)
    (hp : t.locate follow (dst ++ r) = .ok p') : ∃ p, j.locate follow r = .ok p ∧ p' = p ++ d := by
  have htracks := h.tracks hr hstays
  rw [hp] at htracks
  generalize j.locate follow r = x at htracks
  cases htracks with
  | ok p => exact ⟨p, rfl, rfl⟩

theorem locate_notFound (hr : r ≠ []) (hstays : j.Stays follow r)
    (hp : t.locate follow (dst ++ r) = .error .notFound) :
    j.locate follow r = .error .notFound := by
  have htracks := h.tracks hr hstays
  rw [hp] at htracks
  generalize j.locate follow r = x at htracks
  cases htracks with
  | missing => rfl
  | stops _ _ he => exact absurd rfl he

theorem isDir : t.isDir dst := isDir_iff.mpr ⟨d, h.finds, h.mirrors.dir⟩

theorem isDir_below (hr : r ≠ []) (hstays : j.Stays true r)
    (hdir : t.isDir (dst ++ r)) : j.isDir r := by
  obtain ⟨p', hp', hk⟩ := isDir_iff.mp hdir
  obtain ⟨p, hp, rfl⟩ := h.locate_ok hr hstays hp'
  refine isDir_iff.mpr ⟨p, hp, ((h.mirrors p).eq ?_).trans hk⟩
  simp [hk, type]

/-- Other trees for which the way to the directory is kept. -/
theorem of_keeps (hkeep : KeepsWays t t') (hm : Mirrors j' t' d) :
    Mounted dst d j' t' :=
  ⟨(enters_of_keeps hkeep h.mirrors.dir h.finds).finds, hm⟩

variable [DecidableEq κ] {n n' : FileNode κ} {target : PathBuf κ} {f : List UInt8 → List UInt8}
  {g : UInt32 → UInt32} {q : Place κ}

/-- A node is put at the same place of both trees, where there was none, or a file. -/
theorem puts (hj : j.Puts p (some n) j') (ht : t.Puts (p ++ d) (some n') t')
    (hk : ∀ kind, t.kindAt (p ++ d) = some kind → kind.type = .file)
    (hn : Agrees (some n.kind) (some n'.kind)) :
    Mounted dst d j' t' ∧ SameOutside d t t' := by
  refine ⟨h.of_keeps ?_ ?_, ?_⟩
  · intro q kind hq hne
    by_cases hqp : q = p ++ d
    · subst hqp
      exact absurd (hk kind hq) hne
    · rw [kindAt, kindOf, ht.of_ne hqp]
      exact hq
  · intro q
    by_cases hqp : q = p
    · subst hqp
      rw [kindAt_of_nodes hj.self, kindAt_of_nodes ht.self]
      exact hn
    · have hqd : q ++ d ≠ p ++ d := fun heq => hqp (append_cancel_right heq)
      rw [kindAt, kindOf, hj.of_ne hqp, kindAt, kindOf, ht.of_ne hqd]
      exact h.mirrors q
  · intro q hq
    refine ht.of_ne ?_
    rintro rfl
    exact hq (suffix_append p d)

section

variable (hr : r ≠ [])

include hr

/-- A node is put at the end of the path, where there was none. -/
theorem put_new (hstays : j.Stays false r)
    (hp : t.locate false (dst ++ r) = .ok p) (hnone : t.nodes p = none) :
    ∃ q, j.locate false r = .ok q ∧ j.nodes q = none ∧
      ∀ n, Mounted dst d (j.put q (some n)) (t.put p (some n)) ∧
        SameOutside d t (t.put p (some n)) := by
  obtain ⟨q, hq, rfl⟩ := h.locate_ok hr hstays hp
  have hk := kindAt_eq_none.mpr hnone
  have hj : j.kindAt q = none := ((h.mirrors q).eq (by simp [hk])).trans hk
  exact ⟨q, hq, kindAt_eq_none.mp hj, fun n => h.puts (puts_put (fits_of_locate hq (by simp [hj])))
    (puts_put (fits_of_locate hp (by simp [hk]))) (by simp [hk]) (.same _)⟩

theorem mkdir_notFound (hstays : j.Stays false r)
    (hmk : t.mkdir (dst ++ r) = .error .notFound) : j.mkdir r = .error .notFound := by
  rw [mkdir] at hmk ⊢
  cases hp : t.locate false (dst ++ r) with
  | error e =>
    rw [hp] at hmk
    obtain rfl : e = .notFound := Except.error.inj hmk
    rw [h.locate_notFound hr hstays hp]
    rfl
  | ok p =>
    rw [hp] at hmk
    simp only [bind, Except.bind] at hmk
    split at hmk <;> exact nomatch hmk

theorem mkdir_ok (hstays : j.Stays false r)
    (hmk : t.mkdir (dst ++ r) = .ok t') :
    ∃ j', j.mkdir r = .ok j' ∧ Mounted dst d j' t' ∧ SameOutside d t t' := by
  obtain ⟨p', hp', hput⟩ := bind_ok.mp hmk
  split at hput
  · next hnone =>
    cases hput
    obtain ⟨p, hp, hj, hputs⟩ := h.put_new hr hstays hp' hnone
    refine ⟨_, bind_ok.mpr ⟨p, hp, ?_⟩, hputs _⟩
    rw [hj]
  · cases hput

theorem ensureDir (hstays : j.Stays true r) :
    SameOutside d t (t.ensureDir (dst ++ r)).2 ∧
      ((t.ensureDir (dst ++ r)).1 = .ok () → (j.ensureDir r).1 = .ok () ∧
        Mounted dst d (j.ensureDir r).2 (t.ensureDir (dst ++ r)).2) := by
  rw [FileTree.ensureDir]
  split
  · next hmk =>
    obtain ⟨j', hmkj, h', hsame⟩ := h.mkdir_ok hr hstays.unfollowed hmk
    rw [FileTree.ensureDir, hmkj]
    exact ⟨hsame, fun _ => ⟨rfl, h'⟩⟩
  · split
    · next hdir =>
      rw [ensureDir_of_isDir (h.isDir_below hr hstays hdir)]
      exact ⟨.refl d t, fun _ => ⟨rfl, h⟩⟩
    · exact ⟨.refl d t, nofun⟩

end

/-- **Directories are made alike**, if the path stays when they have been made. -/
theorem createDirs {above : List (Part κ)}
    (hstays : (j.createDirs above).2.Stays true above.reverse) :
    SameOutside d t (t.createDirs (above ++ dst.reverse)).2 ∧
      ((t.createDirs (above ++ dst.reverse)).1 = .ok () → (j.createDirs above).1 = .ok () ∧
        Mounted dst d (j.createDirs above).2 (t.createDirs (above ++ dst.reverse)).2) := by
  induction above with
  | nil =>
    rw [nil_append, createDirs_of_isDir (by rw [reverse_reverse]; exact h.isDir)]
    exact ⟨.refl d t, fun _ => ⟨rfl, h⟩⟩
  | cons c above ih =>
    have hr : (c :: above).reverse ≠ [] := by simp
    have hroute : (c :: (above ++ dst.reverse)).reverse = dst ++ (c :: above).reverse := by simp
    -- every look at the path is at a tree that the final one has grown from
    have hj : j.Stays true (c :: above).reverse := hstays.of_grows (createDirs_grows rfl)
    by_cases hmk : t.mkdir (dst ++ (c :: above).reverse) = .error .notFound
    · have hmkj := h.mkdir_notFound hr hj.unfollowed hmk
      rw [cons_append, createDirs_of_notFound (hroute ▸ hmk), hroute]
      rw [createDirs_of_notFound hmkj] at hstays ⊢
      rcases hrecj : j.createDirs above with ⟨resj, j₁⟩
      rcases hrec : t.createDirs (above ++ dst.reverse) with ⟨res, t₁⟩
      rw [hrecj] at hstays
      rw [hrecj, hrec] at ih
      have hj₁ : j₁.Stays true (c :: above).reverse := by
        cases resj with
        | ok => exact hstays.of_grows ensureDir_grows
        | error => exact hstays
      have habove : j₁.Stays true above.reverse := by
        rw [reverse_cons] at hj₁
        exact hj₁.of_append nofun
      obtain ⟨hsame, hok⟩ := ih habove
      cases res with
      | error e => exact ⟨hsame, nofun⟩
      | ok =>
        obtain ⟨hresj, h₁⟩ := hok rfl
        obtain rfl : resj = .ok () := hresj
        obtain ⟨hsame₁, hok₁⟩ := h₁.ensureDir hr hj₁
        exact ⟨hsame.trans hsame₁, hok₁⟩
    · rw [cons_append, createDirs_of_ne (hroute ▸ hmk), hroute]
      obtain ⟨hsame, hok⟩ := h.ensureDir hr hj
      refine ⟨hsame, fun hres => ?_⟩
      by_cases hmkj : j.mkdir (c :: above).reverse = .error .notFound
      · have hresj := (hok hres).1
        rw [ensureDir_of_notFound hmkj] at hresj
        cases hresj
      · rw [createDirs_of_ne hmkj]
        exact hok hres

/-- A file is opened alike. -/
theorem openFile {truncate : Bool} (hr : r ≠ [])
    (hstays : j.Stays true r) (hopen : t.openFile truncate (dst ++ r) = .ok (p', t')) :
    ∃ p j', p' = p ++ d ∧ j.openFile truncate r = .ok (p, j') ∧ Mounted dst d j' t' ∧
      SameOutside d t t' := by
  obtain ⟨hp', hk, bytes, mode, attrs, hputs⟩ := openFile_ok hopen
  obtain ⟨p, hp, rfl⟩ := h.locate_ok hr hstays hp'
  obtain ⟨j', hopen'⟩ := openFile_of_locate truncate hp ((h.mirrors p).isFile hk)
  obtain ⟨-, -, bytes', mode', attrs', hputs'⟩ := openFile_ok hopen'
  exact ⟨p, j', rfl, hopen', h.puts hputs' hputs hk (.file _ _ _ _)⟩

/-- A link is made alike. -/
theorem symlink (hr : r ≠ [])
    (hstays : j.Stays false r) (hlink : t.symlink target (dst ++ r) = .ok t') :
    ∃ j', j.symlink target r = .ok j' ∧ Mounted dst d j' t' ∧ SameOutside d t t' := by
  obtain ⟨p', hp', hput⟩ := bind_ok.mp hlink
  split at hput
  · next hnone =>
    cases hput
    obtain ⟨p, hp, hj, hputs⟩ := h.put_new hr hstays hp' hnone
    refine ⟨_, bind_ok.mpr ⟨p, hp, ?_⟩, hputs _⟩
    rw [hj]
  · cases hput

/-- A link that is there is in both trees. -/
theorem readLink (hr : r ≠ [])
    (hstays : j.Stays false r) (hread : t.readLink (dst ++ r) = .ok target) :
    j.readLink r = .ok target ∧ ∀ target', j.symlink target' r = .error .alreadyExists := by
  obtain ⟨p', n, hfinds, hn⟩ := readLink_eq_ok.mp hread
  obtain ⟨p, hp, rfl⟩ := h.locate_ok hr hstays hfinds.locate
  have hk : t.kindAt (p ++ d) = some (.link target) := hfinds.kindAt.trans (congrArg some hn)
  have hj : j.kindAt p = some (.link target) :=
    ((h.mirrors p).eq (by simp [hk, type])).trans hk
  constructor
  · simp only [FileTree.readLink, hp, bind, Except.bind, hj]
  · intro target'
    have hnode : j.nodes p ≠ none := by
      intro hnone
      cases hj.symm.trans (kindAt_eq_none.mpr hnone)
    obtain ⟨n', hn'⟩ := ne_none_iff_exists'.mp hnode
    simp only [FileTree.symlink, hp, bind, Except.bind, hn']

/-- A file is put in the large tree, where there was none or another one. -/
theorem puts_right {bytes : List UInt8} {mode : UInt32}
    {attrs : κ → Option (List UInt8)} (hputs : t.Puts q (some ⟨.file bytes mode, attrs⟩) t')
    (hk : ∀ kind, t.kindAt q = some kind → kind.type = .file) : Mounted dst d j t' := by
  have hkind : ∀ q', q' ≠ q → t'.kindAt q' = t.kindAt q' :=
    fun q' hq' => congrArg (Option.map FileNode.kind) (hputs.of_ne hq')
  refine h.of_keeps ?_ fun p => ?_
  · intro q' kind hq' hne
    rw [hkind q' ?_]
    · exact hq'
    · rintro rfl
      exact hne (hk kind hq')
  · by_cases hp : p ++ d = q
    · have hfile := (h.mirrors p).isFile (hp ▸ hk)
      rw [hp, kindAt_of_nodes hputs.self]
      generalize j.kindAt p = k at hfile
      cases k with
      | none => exact .extra _ _
      | some kind =>
        cases kind with
        | file => exact .file _ _ _ _
        | dir | link => cases hfile _ rfl
    · rw [hkind _ hp]
      exact h.mirrors p

/-- A file of the large tree is changed. -/
theorem editFile_right :
    Mounted dst d j (t.editFile q f g) := by
  rcases t.editFile_cases q f g with heq | ⟨bytes, mode, attrs, hk, hputs⟩
  · rwa [heq]
  · exact h.puts_right hputs (by simp [hk, type])

/-- A file of the small tree is changed. -/
theorem editFile_left : Mounted dst d (j.editFile p f g) t := by
  rcases j.editFile_cases p f g with heq | ⟨bytes, mode, attrs, hk, hputs⟩
  · rwa [heq]
  · refine ⟨h.finds, fun q => ?_⟩
    by_cases hq : q = p
    · subst hq
      have hagrees := h.mirrors q
      rw [hk] at hagrees
      rw [kindAt_of_nodes hputs.self]
      generalize t.kindAt (q ++ d) = k at hagrees
      cases hagrees <;> exact .file _ _ _ _
    · rw [kindAt, kindOf, hputs.of_ne hq]
      exact h.mirrors q

end Mounted

theorem sameOutside_editFile [DecidableEq κ] {f : List UInt8 → List UInt8} {g : UInt32 → UInt32} :
    SameOutside d t (t.editFile (p ++ d) f g) := by
  intro q hq
  refine editFile_of_ne ?_
  rintro rfl
  exact hq (suffix_append p d)

end Mounted

end Heph.FileTree
