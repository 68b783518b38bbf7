import Heph.Matcher.Ladder
import Heph.Matcher.Packages

/-!
# Who writes into a package

`TreeOutputTo(p)` asks for the targets that write code into the package `p`, or into a directory
that contains it. What a target writes is known from its definition only, so targets are left out
before that by their address: one whose package is neither above nor below `p` cannot write there,
**if what it writes stays in its own package**.

It need not. The outputs of an exec target are joined to its package, and `..` takes the path out of
it as long as it stays in the workspace. For an output that lies in `p` the definition would say so
(`Content.reaches_of_liesIn`): the ladder says no exactly if the package of the target and `p`
do not lie on one path (`Matcher.treeOutputTo_found_iff`).
-/

namespace Heph

open List Content Bool

/-! ### The outputs of an exec target -/

/-- `resolving output path {raw:?} in package {pkg}`, and the error it is about. -/
structure OutputPathError where
  raw : Text
  pkg : PkgBuf
  cause : PkgError
  deriving DecidableEq, Repr

/-- The characters that make an output of an exec target a glob. -/
def isExecGlobMeta (c : Char) : Bool := c == '*' || c == '?' || c == '['

/-- `spec_path_to_target_path`. -/
def specPathToTargetPath (raw : Text) (pkg : PkgBuf) (codegen : CodegenMode) :
    Except OutputPathError Path :=
  match joinRelChecked pkg raw with
  | .error e => .error ⟨raw, pkg, e⟩
  | .ok path =>
    .ok ⟨if path.any isExecGlobMeta then .glob path
      else if path.getLast? = some '/' then .dirPath path
      else .filePath path, codegen⟩

/-- The outputs of the definition, from those of the spec. -/
def execOutputs (pkg : PkgBuf) (codegen : CodegenMode) (groups : SortedMap Text (List Text)) :
    Except OutputPathError (List Output) :=
  groups.entries.mapM fun g => do
    let paths ← g.2.mapM fun p => specPathToTargetPath p pkg codegen
    pure ⟨paths⟩

/-! ### Where an output lies -/

/-- The segments of a path. -/
def pathSegments (path : Text) : List Text := (path.splitOn '/').filter (· ≠ [])

/-- The directory of an output, by its segments: that of a file, the directory itself, and the
longest one that a glob names without a metacharacter. -/
def Content.dir : Content → List Text
  | filePath p => (pathSegments p).dropLast
  | dirPath p => pathSegments p
  | glob g => (pathSegments g).takeWhile fun s => !s.any isExecGlobMeta

/-- **The output lies in the package**, or under it. -/
def Content.LiesIn (p : PkgBuf) (c : Content) : Prop := segments p <+: c.dir

instance (p : PkgBuf) (c : Content) : Decidable (c.LiesIn p) :=
  inferInstanceAs (Decidable (segments p <+: c.dir))

/-! ### Joins of proper segments -/

variable {l l' : List Text} {s r : Text} {codegen : CodegenMode}

theorem intercalate_append (hne : l ≠ []) (r : List Text) :
    ['/'].intercalate (l ++ r) = ['/'].intercalate l ++ r.flatMap fun t => '/' :: t := by
  cases l with
  | nil => exact absurd rfl hne
  | cons s l => simp [intercalate_cons]

theorem intercalate_ne_nil (hl : ∀ s ∈ l, Segment s) (hne : l ≠ []) : ['/'].intercalate l ≠ [] :=
  fun h => hne (intercalate_eq_nil h fun s hs => (hl s hs).ne_nil)

/-- **A directory lies under those above it.** -/
theorem hasPrefix_intercalate (hl : ∀ s ∈ l, Segment s) (h : l' <+: l) :
    hasPrefix (['/'].intercalate l) (['/'].intercalate l') = true := by
  obtain ⟨r, rfl⟩ := h
  cases hl' : l' with
  | nil => rfl
  | cons s l₀ =>
    rw [← hl']
    have hne : l' ≠ [] := by simp [hl']
    have hprefix : ['/'].intercalate l' ≠ [] :=
      intercalate_ne_nil (fun s hs => hl s (mem_append_left _ hs)) hne
    have hdrop : (['/'].intercalate (l' ++ r)).dropPrefix? (['/'].intercalate l') =
        some (r.flatMap fun t => '/' :: t) :=
      dropPrefix?_eq_some_iff.mpr ⟨_, intercalate_append hne r, by simp⟩
    rw [hasPrefix, if_neg (by simpa using hprefix), hdrop]
    cases r with
    | nil | cons => rfl

/-- A path that begins with a proper segment does not begin with `./`. -/
theorem stripDotSlash_of_segment (hs : Segment s) (r : Text) : stripDotSlash (s ++ r) = s ++ r := by
  rcases s with _ | ⟨c, s⟩
  · exact absurd rfl hs.ne_nil
  rcases s with _ | ⟨c', s⟩
  · have hc : c ≠ '.' := fun h => hs.ne_dot (by rw [h])
    unfold stripDotSlash
    split
    · next h => exact absurd (cons.inj h).1 hc
    · rfl
  · have hc' : c' ≠ '/' := fun h => hs.noSlash (by simp [h])
    unfold stripDotSlash
    split
    · next h => exact absurd (cons.inj (cons.inj h).2).1 hc'
    · rfl

/-- The package of a directory, written with or without a slash at its end. -/
theorem pathToPkg_intercalate (hl : ∀ s ∈ l, Segment s) {e : Text} (he : e = [] ∨ e = ['/'])
    (hne : l = [] → e = []) : pathToPkg (['/'].intercalate l ++ e) = ['/'].intercalate l := by
  cases l with
  | nil =>
    rw [hne rfl]
    rfl
  | cons s l =>
    have hs := hl s mem_cons_self
    have htrim : (['/'].intercalate (s :: l)).rdropWhile (· == '/') = ['/'].intercalate (s :: l) :=
      rdropWhile_of_getLast?_ne (Normal.getLast?_ne ⟨s :: l, hl, rfl⟩)
    have hstrip : stripDotSlash (['/'].intercalate (s :: l) ++ e) =
        ['/'].intercalate (s :: l) ++ e := by
      rw [intercalate_cons, append_assoc]
      exact stripDotSlash_of_segment hs _
    have hdot : ¬ (['/'].intercalate (s :: l) ++ e = ['.'] ∨
        (['/'].intercalate (s :: l) ++ e).isEmpty) := by
      rw [intercalate_cons]
      rintro (h | h)
      · -- the first segment would be the dot
        rcases s with _ | ⟨c, s⟩
        · exact hs.ne_nil rfl
        · simp only [cons_append, cons.injEq, append_eq_nil_iff] at h
          exact hs.ne_dot (by rw [h.1, h.2.1.1])
      · simp [hs.ne_nil] at h
    rw [pathToPkg, if_neg hdot, hstrip]
    rcases he with rfl | rfl
    · rw [append_nil, htrim]
    · rw [rdropWhile_concat_pos _ _ _ (by simp), htrim]

theorem dropWhile_reverse (hs : '/' ∉ s) (r : Text) :
    (s.reverse ++ r).dropWhile (· != '/') = r.dropWhile (· != '/') := by
  refine dropWhile_append_of_pos fun c hc => ?_
  have : c ≠ '/' := fun h => hs (by rw [← h]; exact mem_reverse.mp hc)
  simpa using this

theorem parentDir_of_noSlash (hs : '/' ∉ s) : parentDir s = [] := by
  have h := dropWhile_reverse hs []
  rw [append_nil] at h
  rw [parentDir, h]
  rfl

theorem parentDir_append (hs : '/' ∉ s) (r : Text) : parentDir (r ++ '/' :: s) = r := by
  rw [parentDir, reverse_append, reverse_cons, append_assoc, dropWhile_reverse hs]
  simp

/-- The directory of a file. -/
theorem parentDir_intercalate (hl : ∀ s ∈ l, Segment s) :
    parentDir (['/'].intercalate l) = ['/'].intercalate l.dropLast := by
  rcases eq_nil_or_concat' l with rfl | ⟨l₀, s, rfl⟩
  · rfl
  have hs := (hl s (by simp)).noSlash
  by_cases hne : l₀ = []
  · subst hne
    simpa using parentDir_of_noSlash hs
  · rw [intercalate_append hne]
    simpa using parentDir_append hs _

/-! ### The literal part of a glob -/

/-- A segment with a metacharacter: what is before it is the literal part. -/
theorem globLoop_of_meta (hs : '/' ∉ s) (hmeta : s.any isGlobMeta = true) (base seg r : Text) :
    (globLoop base seg (s ++ r)).1 = base.dropLast := by
  induction s generalizing seg with
  | nil => simp at hmeta
  | cons c s ih =>
    have hc : c ≠ '/' := fun h => hs (by simp [h])
    rw [cons_append, globLoop, if_neg hc]
    by_cases hm : isGlobMeta c = true
    · rw [if_pos hm]
    · rw [if_neg hm]
      refine ih (fun h => hs (mem_cons_of_mem _ h)) ?_ _
      simpa [hm] using hmeta

/-- A segment without a metacharacter. -/
theorem globLoop_of_literal (hs : '/' ∉ s) (hmeta : s.any isGlobMeta = false) (base seg r : Text) :
    globLoop base seg (s ++ '/' :: r) = globLoop (base ++ (seg ++ s) ++ ['/']) [] r := by
  induction s generalizing seg with
  | nil => simp [globLoop]
  | cons c s ih =>
    have hc : c ≠ '/' := fun h => hs (by simp [h])
    rw [any_cons, or_eq_false_iff] at hmeta
    rw [cons_append, globLoop, if_neg hc, hmeta.1, ih (fun h => hs (mem_cons_of_mem _ h)) hmeta.2]
    simp

theorem globLoop_intercalate (hl : ∀ s ∈ l, Segment s) (hmeta : ∃ s ∈ l, s.any isGlobMeta = true)
    (base e : Text) :
    (globLoop base [] (['/'].intercalate l ++ e)).1 =
      (base ++ (l.takeWhile fun s => !s.any isGlobMeta).flatMap fun s => s ++ ['/']).dropLast := by
  induction l generalizing base with
  | nil => simp at hmeta
  | cons s l ih =>
    have hs := (hl s mem_cons_self).noSlash
    cases hm : s.any isGlobMeta with
    | true =>
      rw [intercalate_cons, append_assoc, globLoop_of_meta hs hm]
      simp [hm]
    | false =>
      -- there is a segment with a metacharacter after this one
      have hrest : ∃ s' ∈ l, s'.any isGlobMeta = true := by
        obtain ⟨s', hs', hm'⟩ := hmeta
        rcases mem_cons.mp hs' with rfl | hs'
        · rw [hm] at hm'
          cases hm'
        · exact ⟨s', hs', hm'⟩
      have hjoin : ['/'].intercalate (s :: l) = s ++ '/' :: ['/'].intercalate l := by
        cases l with
        | nil => simp at hrest
        | cons s' l => simp [intercalate_cons_cons]
      rw [hjoin, append_assoc, cons_append, globLoop_of_literal hs hm,
        ih (fun s' hs' => hl s' (mem_cons_of_mem _ hs')) hrest]
      simp [hm]

theorem dropLast_flatMap_slash (l : List Text) :
    (l.flatMap fun s => s ++ ['/']).dropLast = ['/'].intercalate l := by
  cases l with
  | nil => rfl
  | cons s l =>
    have hmove : ∀ (l : List Text) (s : Text), (s :: l).flatMap (fun s => s ++ ['/']) =
        (s ++ l.flatMap fun t => '/' :: t) ++ ['/'] := by
      intro l
      induction l with
      | nil => simp
      | cons s' l ih =>
        intro s
        rw [flatMap_cons, ih s']
        simp
    rw [hmove, dropLast_concat, intercalate_cons]
    rfl

/-- **The literal part of a glob** is made of the segments before the first with a
metacharacter. -/
theorem globSplit_intercalate (hl : ∀ s ∈ l, Segment s) (hmeta : ∃ s ∈ l, s.any isGlobMeta = true)
    (e : Text) : (globSplit (['/'].intercalate l ++ e)).1 =
      ['/'].intercalate (l.takeWhile fun s => !s.any isGlobMeta) := by
  rw [globSplit, globLoop_intercalate hl hmeta, nil_append, dropLast_flatMap_slash]

/-! ### What the definition says -/

/-- A checked join: its segments, and whether there is a slash at its end. -/
theorem joinRelChecked_ok {pkg rel path : Text} (h : joinRelChecked pkg rel = .ok path) :
    ∃ l e, (∀ s ∈ l, Segment s) ∧ path = ['/'].intercalate l ++ e ∧
      (e = [] ∨ e = ['/']) ∧ (l = [] → e = []) := by
  obtain ⟨l, hres, rfl⟩ := joinRelChecked_eq_ok.mp h
  obtain ⟨l, hl, hpath⟩ := neat_finish (segment_of_resolve hres) (joinRaw pkg rel)
  rw [hpath]
  split
  · next hend => exact ⟨l, ['/'], hl, rfl, .inr rfl, fun h => absurd h hend.2⟩
  · exact ⟨l, [], hl, rfl, .inl rfl, fun _ => rfl⟩

theorem pathSegments_intercalate {l : List Text} (hl : ∀ s ∈ l, Segment s) {e : Text}
    (he : e = [] ∨ e = ['/']) (hne : l = [] → e = []) :
    pathSegments (['/'].intercalate l ++ e) = l := by
  have hslash : ∀ s ∈ l, '/' ∉ s := fun s hs => (hl s hs).noSlash
  have hkeep : l.filter (· ≠ []) = l :=
    filter_eq_self.mpr fun s hs => by simpa using (hl s hs).ne_nil
  by_cases hnil : l = []
  · subst hnil
    rw [hne rfl]
    rfl
  · rcases he with rfl | rfl
    · rw [pathSegments, append_nil, splitOn_intercalate '/' hslash hnil, hkeep]
    · have hsplit : ['/'].intercalate l ++ ['/'] = ['/'].intercalate (l ++ [[]]) := by
        rw [intercalate_append hnil]
        simp
      rw [pathSegments, hsplit, splitOn_intercalate '/' _ (by simp), filter_append, hkeep]
      · simp
      · intro s hs
        rcases mem_append.mp hs with hs | hs
        · exact hslash s hs
        · rw [mem_singleton.mp hs]
          simp

theorem segments_intercalate {l : List Text} (hl : ∀ s ∈ l, Segment s) :
    segments (['/'].intercalate l) = l := by
  by_cases hnil : l = []
  · subst hnil
    rfl
  · rw [segments, if_neg (by simpa using intercalate_ne_nil hl hnil),
      splitOn_intercalate '/' (fun s hs => (hl s hs).noSlash) hnil]

/-- **An output that lies in a package reaches it**, by its definition. -/
theorem Content.reaches_of_liesIn {p : PkgBuf} (hp : Normal p) {raw : Text} {pkg : PkgBuf}
    {path : Path} (h : specPathToTargetPath raw pkg codegen = .ok path)
    (hlies : path.content.LiesIn p) : path.content.reaches p = true := by
  obtain ⟨lp, hlp, rfl⟩ := hp
  unfold specPathToTargetPath at h
  cases hjoin : joinRelChecked pkg raw with
  | error e => simp [hjoin] at h
  | ok joined =>
    obtain ⟨l, e, hl, rfl, he, hne⟩ := joinRelChecked_ok hjoin
    simp only [hjoin, Except.ok.injEq] at h
    subst h
    have hsegs := pathSegments_intercalate hl he hne
    have htake : ∀ q : Text → Bool, ∀ s ∈ l.takeWhile q, Segment s := fun q s hs => by
      have hpre : l.takeWhile q <+: l := takeWhile_prefix q
      exact hl s (hpre.subset hs)
    simp only [LiesIn, segments_intercalate hlp] at hlies
    split at hlies
    · -- a glob: its literal part and the package are both above its segments
      next hglob =>
      rw [dir, hsegs] at hlies
      have hmeta : ∃ s ∈ l, s.any isGlobMeta = true := by
        obtain ⟨c, hc, hm⟩ := any_eq_true.mp hglob
        have hslash : c ≠ '/' := by
          rintro rfl
          cases hm
        rcases mem_append.mp hc with hc | hc
        · rcases mem_intercalate hc with hc | ⟨s, hs, hc⟩
          · exact absurd hc hslash
          · refine ⟨s, hs, any_eq_true.mpr ⟨c, hc, ?_⟩⟩
            simp only [isExecGlobMeta, or_eq_true] at hm
            simp only [isGlobMeta, or_eq_true]
            exact .inl hm
        · rcases he with rfl | rfl
          · simp at hc
          · exact absurd (mem_singleton.mp hc) hslash
      have hbase := takeWhile_prefix (l := l) fun s => !s.any isGlobMeta
      rw [if_pos hglob, reaches, globSplit_intercalate hl hmeta,
        ← append_nil (['/'].intercalate (l.takeWhile fun s => !s.any isGlobMeta)),
        pathToPkg_intercalate (htake _) (.inl rfl) fun _ => rfl, or_eq_true]
      have hpre : (l.takeWhile fun s => !s.any isExecGlobMeta) <+: l := takeWhile_prefix _
      rcases prefix_or_prefix_of_prefix hbase (hlies.trans hpre) with h | h
      · exact .inr (hasPrefix_intercalate hlp h)
      · exact .inl (hasPrefix_intercalate (htake _) h)
    · next hglob =>
      rw [if_neg hglob]
      split at hlies
      · next hdir =>
        rw [dir, hsegs] at hlies
        rw [if_pos hdir, reaches, pathToPkg_intercalate hl he hne, or_eq_true]
        exact .inl (hasPrefix_intercalate hl hlies)
      · next hfile =>
        rw [dir, hsegs] at hlies
        -- a file has no slash at its end
        obtain rfl : e = [] := by
          rcases he with he | rfl
          · exact he
          · exact absurd getLast?_concat hfile
        have hdrop : ∀ s ∈ l.dropLast, Segment s := fun s hs => hl s (mem_of_mem_dropLast hs)
        rw [if_neg hfile, reaches, append_nil, parentDir_intercalate hl,
          ← append_nil (['/'].intercalate l.dropLast),
          pathToPkg_intercalate hdrop (.inl rfl) fun _ => rfl]
        exact hasPrefix_intercalate hdrop hlies

namespace Matcher

/-- The ladder for one candidate: what was listed of its address, then its spec, then its
definition. -/
def evaluate (m : Matcher) (facts : ListedFacts) (spec : TargetSpec) (t : TargetDef) :
    MatchResult :=
  match m.matchesListed spec.addr facts with
  | .shrug => m.resolve spec t
  | v => v

/-- The definition writes code into the package, or under it. -/
def WritesInto (t : TargetDef) (p : PkgBuf) : Prop :=
  ∃ o ∈ t.outputs, ∃ path ∈ o.paths, path.codegenTree ≠ .none ∧ path.content.LiesIn p

variable {spec : TargetSpec} {t : TargetDef} {facts : ListedFacts}

theorem evaluate_eq (m : Matcher) (haddr : t.addr = spec.addr) (hlabels : t.labels = spec.labels)
    (hfacts : Truthful facts spec t) : m.evaluate facts spec t = m.matchTarget spec t := by
  have hlisted : (m.matchesListed spec.addr facts).Below (m.matchTarget spec t) :=
    eval_below (listedAtom_below haddr hlabels hfacts) m
  unfold evaluate
  split
  · exact resolve_eq haddr hlabels
  · next hv => exact hlisted hv

/-- An exec target that writes into the package is found if the two packages lie on one path. -/
theorem matchTarget_treeOutputTo {p : PkgBuf} (hp : Normal p)
    {groups : SortedMap Text (List Text)}
    (hparse : execOutputs t.addr.package codegen groups = .ok t.outputs) (h : WritesInto t p) :
    (atom (.treeOutputTo p)).matchTarget spec t ≠ .no ↔
      (hasPrefix t.addr.package p || hasPrefix p t.addr.package) = true := by
  obtain ⟨o, ho, path, hpath, hmode, hlies⟩ := h
  -- the output comes from a path of the spec
  obtain ⟨g, -, hg⟩ := (mem_iff_of_mapM_ok hparse).mp ho
  obtain ⟨paths, hpaths, hopaths⟩ := bind_ok.mp hg
  obtain rfl : o = ⟨paths⟩ := (Except.ok.inj hopaths).symm
  obtain ⟨raw, -, hraw⟩ := (mem_iff_of_mapM_ok hpaths).mp hpath
  have hreach : (t.outputs.any fun o => o.paths.any fun path =>
      path.codegenTree ≠ .none && path.content.reaches p) = true := by
    refine any_eq_true.mpr ⟨⟨paths⟩, ho, any_eq_true.mpr ⟨path, hpath, ?_⟩⟩
    rw [reaches_of_liesIn hp hraw hlies]
    simpa using hmode
  rw [matchTarget, eval, targetAtom, hreach]
  cases hasPrefix t.addr.package p <;> cases hasPrefix p t.addr.package <;>
    simp [MatchResult.ofBool]

/-- **When those that write into a package are found.** For an exec target, the ladder for
`TreeOutputTo(p)` does not say no to one that writes into `p`, exactly if one that does has its
package above or below `p`. -/
theorem treeOutputTo_found_iff (p : PkgBuf) (hp : Normal p) (facts : ListedFacts)
    (spec : TargetSpec) (t : TargetDef) (haddr : t.addr = spec.addr)
    (hlabels : t.labels = spec.labels) (hfacts : Truthful facts spec t) (codegen : CodegenMode)
    (groups : SortedMap Text (List Text))
    (hparse : execOutputs t.addr.package codegen groups = .ok t.outputs) :
    (WritesInto t p → (atom (.treeOutputTo p)).evaluate facts spec t ≠ .no) ↔
      (WritesInto t p → (hasPrefix t.addr.package p || hasPrefix p t.addr.package) = true) := by
  rw [evaluate_eq _ haddr hlabels hfacts]
  exact forall_congr' fun h => matchTarget_treeOutputTo hp hparse h

/-- The target `//a:g` that copies the file into the tree. -/
def copies (file : Text) : TargetDef :=
  ⟨generator.addr, generator.labels, [⟨[⟨.filePath file, .copy⟩]⟩]⟩

/-- **An output that climbs out of its package is not found**: `../b/x.go` lies in `b`. -/
theorem climbing_output_missed :
    execOutputs ['a'] .copy (SortedMap.ofList [(['o'], ["../b/x.go".toList])]) =
        .ok (copies "b/x.go".toList).outputs ∧
      WritesInto (copies "b/x.go".toList) ['b'] ∧
      (atom (.treeOutputTo ['b'])).matchesAddr generator.addr = .no ∧
      (atom (.treeOutputTo ['b'])).evaluate .unknown generator (copies "b/x.go".toList) = .no :=
  ⟨by decide, ⟨_, mem_singleton_self _, _, mem_singleton_self _, by decide,
    by decide⟩, rfl, rfl⟩

/-- An output that does not is found. -/
theorem treeOutputTo_found_iff_below :
    WritesInto (copies "a/gen/x.go".toList) "a/gen".toList ∧
      (atom (.treeOutputTo "a/gen".toList)).evaluate .unknown generator
        (copies "a/gen/x.go".toList) ≠ .no := by
  have hwrites : WritesInto (copies "a/gen/x.go".toList) "a/gen".toList :=
    ⟨_, mem_singleton_self _, _, mem_singleton_self _, by decide, by decide⟩
  have hp : Normal "a/gen".toList :=
    normal_of_joinRelCheckedPkg (show joinRelCheckedPkg [] "a/gen".toList = .ok _ from rfl)
  have hparse : execOutputs ['a'] .copy (.ofList [(['o'], ["./gen/x.go".toList])]) =
      .ok (copies "a/gen/x.go".toList).outputs := by decide
  exact ⟨hwrites, (treeOutputTo_found_iff _ hp .unknown generator (copies "a/gen/x.go".toList) rfl
    rfl (truthful_unknown _ _) .copy _ hparse).mpr (fun _ => by decide) hwrites⟩

end Matcher

end Heph
