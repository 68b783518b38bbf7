import Heph.Lib.Split

/-!
# Packages

A package is named by its path from the workspace root, and the root itself by the empty
path. Paths that a user writes are **normalised** on the way in: empty and `.` segments are
dropped and a `..` segment takes one away, which fails where there is none left.

So every package that comes out of `joinRelCheckedPkg` is a join of proper segments
(`Normal`), and normalising it again changes nothing.
-/

namespace Heph

open List

/-- A string, by its characters. -/
abbrev Text := List Char

/-- `PkgBuf`. -/
abbrev PkgBuf := Text

/-- `bail!("path '{joined}' escapes workspace root")`. -/
inductive PkgError where
  | escapesWorkspaceRoot (joined : Text)
  deriving DecidableEq, Repr

/-! ### Joining paths -/

/-- `join_raw`. -/
def joinRaw (pkg rel : Text) : Text :=
  if pkg.isEmpty then rel else if rel.isEmpty then pkg else pkg ++ '/' :: rel

/-- The loop of `join_rel_checked` over the segments, `none` where `..` has nothing to take
away. -/
def resolveSegments (out : List Text) : List Text → Option (List Text)
  | [] => some out
  | c :: rest =>
    if c = [] ∨ c = ['.'] then resolveSegments out rest
    else if c = ['.', '.'] then
      if out.isEmpty then none else resolveSegments out.dropLast rest
    else resolveSegments (out ++ [c]) rest

/-- `finish`: a trailing slash of the original is kept. -/
def finish (out : List Text) (original : Text) : Text :=
  let s := ['/'].intercalate out
  if original.getLast? = some '/' ∧ s ≠ [] then s ++ ['/'] else s

/-- `join_rel_checked`. -/
def joinRelChecked (pkg rel : Text) : Except PkgError Text :=
  let joined := joinRaw pkg rel
  match resolveSegments [] (joined.splitOn '/') with
  | none => .error (.escapesWorkspaceRoot joined)
  | some out => .ok (finish out joined)

/-- `join_rel_checked_pkg`: a package has no trailing slash. -/
def joinRelCheckedPkg (pkg rel : Text) : Except PkgError PkgBuf :=
  match joinRelChecked pkg rel with
  | .error e => .error e
  | .ok path => .ok (path.rdropWhile (· == '/'))

/-- `PkgBuf::has_prefix`: `pkg` is `p` or lives under it. -/
def hasPrefix (pkg p : PkgBuf) : Bool :=
  if p.isEmpty then true
  else
    match pkg.dropPrefix? p with
    | some [] => true
    | some (c :: _) => c == '/'
    | none => false

/-! ### Normal packages -/

/-- A proper segment of a path. -/
structure Segment (s : Text) : Prop where
  ne_nil : s ≠ []
  ne_dot : s ≠ ['.']
  ne_dotDot : s ≠ ['.', '.']
  noSlash : '/' ∉ s

/-- **A normal package** is a join of proper segments. -/
def Normal (p : PkgBuf) : Prop := ∃ l : List Text, (∀ s ∈ l, Segment s) ∧ p = ['/'].intercalate l

/-- The segments of a package; the root package has none. -/
def segments (p : PkgBuf) : List Text := if p.isEmpty then [] else p.splitOn '/'

variable {p q base rel : Text} {out out' l : List Text} {s : Text}

/-- What the loop keeps is a segment it was given, and a proper one. -/
theorem mem_resolveSegments (h : resolveSegments out l = some out') (hs : s ∈ out') :
    s ∈ out ∨ s ∈ l ∧ s ≠ [] ∧ s ≠ ['.'] ∧ s ≠ ['.', '.'] := by
  induction l generalizing out with
  | nil =>
    cases h
    exact .inl hs
  | cons c l ih =>
    have hrest : ∀ {out}, resolveSegments out l = some out' →
        s ∈ out ∨ s ∈ c :: l ∧ s ≠ [] ∧ s ≠ ['.'] ∧ s ≠ ['.', '.'] := fun h =>
      (ih h).imp_right fun hs => ⟨mem_cons_of_mem c hs.1, hs.2⟩
    rw [resolveSegments] at h
    split at h
    · exact hrest h
    · next hdot =>
      split at h
      · split at h
        · simp at h
        · exact (hrest h).imp_left fun hs => (dropLast_sublist out).subset hs
      · next hdotDot =>
        rcases hrest h with hs | hs
        · rcases mem_append.mp hs with hs | hs
          · exact .inl hs
          · obtain rfl := mem_singleton.mp hs
            rw [not_or] at hdot
            exact .inr ⟨mem_cons_self, hdot.1, hdot.2, hdotDot⟩
        · exact .inr hs

/-- Proper segments are all kept. -/
theorem resolveSegments_of_proper (hl : ∀ s ∈ l, Segment s) :
    resolveSegments out l = some (out ++ l) := by
  induction l generalizing out with
  | nil => rw [resolveSegments, append_nil]
  | cons c l ih =>
    have hc := hl c mem_cons_self
    rw [resolveSegments, if_neg (not_or.mpr ⟨hc.ne_nil, hc.ne_dot⟩), if_neg hc.ne_dotDot,
      ih fun s hs => hl s (mem_cons_of_mem c hs), append_assoc]
    rfl

/-- The segments of a join of proper ones are those. -/
theorem resolveSegments_intercalate (hl : ∀ s ∈ l, Segment s) :
    resolveSegments [] ((['/'].intercalate l).splitOn '/') = some l := by
  cases l with
  | nil => rfl
  | cons s l =>
    rw [splitOn_intercalate '/' (fun s hs => (hl s hs).noSlash) (cons_ne_nil s l)]
    exact resolveSegments_of_proper hl

theorem Normal.getLast?_ne (hp : Normal p) : p.getLast? ≠ some '/' := by
  obtain ⟨l, hl, rfl⟩ := hp
  exact getLast?_intercalate_ne (fun s hs => (hl s hs).ne_nil) fun s hs => (hl s hs).noSlash

theorem Normal.head?_ne (hp : Normal p) : p.head? ≠ some '/' := by
  obtain ⟨l, hl, rfl⟩ := hp
  exact head?_intercalate_ne (fun s hs => (hl s hs).ne_nil) fun s hs => (hl s hs).noSlash

/-- **The segments of a normal package are proper.** -/
theorem Normal.segments (hp : Normal p) : ∀ s ∈ segments p, Segment s := by
  obtain ⟨l, hl, rfl⟩ := hp
  intro s hs
  unfold segments at hs
  split at hs
  · simp at hs
  · next hne =>
    rw [splitOn_intercalate '/' fun s hs => (hl s hs).noSlash] at hs
    · exact hl s hs
    · rintro rfl
      exact hne rfl

/-- What the loop keeps of a path are proper segments. -/
theorem segment_of_resolve {t : Text} (h : resolveSegments [] (t.splitOn '/') = some l) :
    ∀ s ∈ l, Segment s := by
  intro s hs
  rcases mem_resolveSegments h hs with hs | ⟨hs, hnil, hdot, hdotDot⟩
  · simp at hs
  · exact ⟨hnil, hdot, hdotDot, notMem_of_mem_splitOn hs⟩

theorem joinRelChecked_eq_ok : joinRelChecked base rel = .ok q ↔
    ∃ l, resolveSegments [] ((joinRaw base rel).splitOn '/') = some l ∧
      finish l (joinRaw base rel) = q := by
  rw [joinRelChecked]
  cases resolveSegments [] ((joinRaw base rel).splitOn '/') with
  | none | some => simp

/-- What a checked join is made of. -/
theorem joinRelCheckedPkg_ok (h : joinRelCheckedPkg base rel = .ok p) :
    ∃ l, resolveSegments [] ((joinRaw base rel).splitOn '/') = some l ∧ p = ['/'].intercalate l ∧
      ∀ s ∈ l, Segment s := by
  unfold joinRelCheckedPkg at h
  split at h
  · cases h
  · next path hpath =>
    obtain ⟨l, hres, rfl⟩ := joinRelChecked_eq_ok.mp hpath
    have hl := segment_of_resolve hres
    have hlast : (['/'].intercalate l).rdropWhile (· == '/') = ['/'].intercalate l :=
      rdropWhile_of_getLast?_ne (Normal.getLast?_ne ⟨l, hl, rfl⟩)
    refine ⟨l, hres, ?_, hl⟩
    cases h
    rw [finish]
    split
    · rw [rdropWhile_concat_pos _ _ _ (by simp), hlast]
    · exact hlast

/-- **A checked join is normal.** -/
theorem normal_of_joinRelCheckedPkg (h : joinRelCheckedPkg base rel = .ok p) : Normal p := by
  obtain ⟨l, -, hp, hl⟩ := joinRelCheckedPkg_ok h
  exact ⟨l, hl, hp⟩

/-- A checked join from the root has the characters of the path and no others. -/
theorem mem_of_joinRelCheckedPkg {c : Char} (h : joinRelCheckedPkg [] rel = .ok p) (hc : c ∈ p) :
    c = '/' ∨ c ∈ rel := by
  obtain ⟨l, hres, rfl, -⟩ := joinRelCheckedPkg_ok h
  rcases mem_intercalate hc with hc | ⟨s, hs, hc⟩
  · exact .inl hc
  · rcases mem_resolveSegments hres hs with hs | ⟨hs, -⟩
    · simp at hs
    · exact .inr (mem_of_mem_splitOn hs hc)

/-- **A normal package is its own normal form.** -/
theorem Normal.joinRelCheckedPkg (hp : Normal p) : joinRelCheckedPkg [] p = .ok p := by
  have htrim : p.rdropWhile (· == '/') = p := rdropWhile_of_getLast?_ne hp.getLast?_ne
  have hfinish : ∀ l, p = ['/'].intercalate l → finish l p = p := by
    rintro l rfl
    exact if_neg fun h => hp.getLast?_ne h.1
  obtain ⟨l, hl, hpl⟩ := hp
  have hres : resolveSegments [] (p.splitOn '/') = some l := by
    rw [hpl, resolveSegments_intercalate hl]
  have hraw : joinRaw [] p = p := rfl
  simp only [Heph.joinRelCheckedPkg, joinRelChecked, hraw, hres, hfinish l hpl, htrim]

/-! ### Components -/

/-- `PkgBuf::components`. Where the source makes a path or a key of an address it goes through
them one at a time. -/
def pkgComponents (p : PkgBuf) : List Text := (p.splitOn '/').filter (· ≠ [])

theorem pkgComponents_intercalate (hl : ∀ s ∈ l, Segment s) :
    pkgComponents (['/'].intercalate l) = l := by
  cases l with
  | nil => rfl
  | cons s l =>
    rw [pkgComponents, splitOn_intercalate '/' (fun s hs => (hl s hs).noSlash) (cons_ne_nil s l)]
    exact filter_eq_self.mpr fun s hs => decide_eq_true (hl s hs).ne_nil

/-- The components of a normal package are proper segments. -/
theorem Normal.pkgComponents (hp : Normal p) : ∀ s ∈ pkgComponents p, Segment s := by
  obtain ⟨l, hl, rfl⟩ := hp
  rwa [pkgComponents_intercalate hl]

/-- **Normal packages with the same components are the same.** -/
theorem Normal.eq_of_pkgComponents (hp : Normal p) (hq : Normal q)
    (h : Heph.pkgComponents p = Heph.pkgComponents q) : p = q := by
  obtain ⟨l, hl, rfl⟩ := hp
  obtain ⟨m, hm, rfl⟩ := hq
  rw [pkgComponents_intercalate hl, pkgComponents_intercalate hm] at h
  rw [h]

/-! ### Joins -/

/-- A segment that the loop pushes. -/
def ordinary (c : Text) : Bool := c ≠ [] ∧ c ≠ ['.'] ∧ c ≠ ['.', '.']

/-- **What a join looks like**: proper segments, and a slash at the end if there was one. -/
def Neat (joined r : Text) : Prop :=
  ∃ l : List Text, (∀ s ∈ l, Segment s) ∧
    r = ['/'].intercalate l ++ if joined.getLast? = some '/' ∧ l ≠ [] then ['/'] else []

/-- The loop fails where more has been taken away than there was. -/
theorem resolveSegments_eq_none : resolveSegments out l = none ↔
    ∃ pre, pre <+: l ∧ out.length + pre.countP ordinary < pre.count ['.', '.'] := by
  induction l generalizing out with
  | nil => simp [resolveSegments]
  | cons c l ih =>
    -- a prefix that fails is not empty
    have hcons : (∃ pre, pre <+: c :: l ∧
        out.length + pre.countP ordinary < pre.count ['.', '.']) ↔
        ∃ pre, pre <+: l ∧
          out.length + (c :: pre).countP ordinary < (c :: pre).count ['.', '.'] := by
      constructor
      · rintro ⟨pre, hpre, hlt⟩
        rcases prefix_cons_iff.mp hpre with rfl | ⟨pre, rfl, hpre⟩
        · simp at hlt
        · exact ⟨pre, (prefix_cons_inj c).mp hpre, hlt⟩
      · rintro ⟨pre, hpre, hlt⟩
        exact ⟨c :: pre, cons_prefix_cons.mpr ⟨rfl, hpre⟩, hlt⟩
    rw [hcons, resolveSegments]
    split
    · next hskip =>
      rw [ih]
      rcases hskip with rfl | rfl <;> simp [ordinary]
    · next hdot =>
      split
      · next hdots =>
        subst hdots
        cases out with
        | nil => exact iff_of_true rfl ⟨[], nil_prefix, by simp [ordinary]⟩
        | cons d out =>
          rw [isEmpty_cons, if_neg Bool.false_ne_true, ih]
          simp only [length_dropLast, ordinary, countP_cons, count_cons_self, length_cons]
          simp
          refine exists_congr fun pre => and_congr_right fun _ => ?_
          omega
      · next hdots =>
        have hord : ordinary c = true := by simpa [ordinary, hdots, not_or] using hdot
        rw [ih]
        refine exists_congr fun pre => and_congr_right fun _ => ?_
        rw [countP_cons_of_pos hord, count_cons_of_ne hdots, length_append, length_singleton]
        omega

theorem resolveSegments_append (l m : List Text) :
    resolveSegments out (l ++ m) = (resolveSegments out l).bind (resolveSegments · m) := by
  induction l generalizing out with
  | nil => rfl
  | cons c l ih =>
    rw [cons_append, resolveSegments, resolveSegments]
    split
    · exact ih
    · split
      · split
        · rfl
        · exact ih
      · exact ih

/-- **A join is of the segments of both**, since an empty one is left out. -/
theorem resolveSegments_joinRaw : resolveSegments out ((joinRaw base rel).splitOn '/') =
    resolveSegments out (base.splitOn '/' ++ rel.splitOn '/') := by
  rw [resolveSegments_append]
  cases base with
  | nil => rfl
  | cons b base =>
    cases rel with
    | nil => simp [joinRaw, resolveSegments]
    | cons r rel =>
      rw [← resolveSegments_append, ← splitOn_append_cons_self]
      rfl

/-- **A join is neat.** -/
theorem neat_finish (hl : ∀ s ∈ l, Segment s) (joined : Text) : Neat joined (finish l joined) := by
  have hnil : ['/'].intercalate l ≠ [] ↔ l ≠ [] :=
    not_congr ⟨fun h => intercalate_eq_nil h fun s hs => (hl s hs).ne_nil, fun h => by rw [h]; rfl⟩
  refine ⟨l, hl, ?_⟩
  simp only [finish, hnil]
  split
  · rfl
  · rw [append_nil]

/-- **What is neat is joined to the root as it is.** -/
theorem Neat.joinRelChecked {joined : Text} (h : Neat joined q) : joinRelChecked [] q = .ok q := by
  obtain ⟨l, hl, rfl⟩ := h
  have hraw : ∀ t, joinRaw [] t = t := fun _ => rfl
  refine joinRelChecked_eq_ok.mpr ⟨l, ?_, ?_⟩
  · rw [hraw]
    split
    · rw [splitOn_append_cons_self, resolveSegments_append, resolveSegments_intercalate hl]
      rfl
    · rw [append_nil, resolveSegments_intercalate hl]
  · rw [hraw, finish]
    split
    · next hslash =>
      have hne : ['/'].intercalate l ≠ [] := fun hnil =>
        hslash.2 (intercalate_eq_nil hnil fun s hs => (hl s hs).ne_nil)
      exact if_pos ⟨getLast?_concat, hne⟩
    · rw [append_nil]
      exact if_neg fun hlast => Normal.getLast?_ne ⟨l, hl, rfl⟩ hlast.1

theorem getLast?_joinRaw (h : rel ≠ []) : (joinRaw base rel).getLast? = rel.getLast? := by
  obtain ⟨c, t, rfl⟩ := exists_cons_of_ne_nil h
  cases base with
  | nil => rfl
  | cons b base =>
    have hne : '/' :: c :: t ≠ [] := cons_ne_nil _ _
    exact (getLast?_append_of_ne_nil (b :: base) hne).trans getLast?_cons_cons

/-- **Joins one after the other** are one join. -/
theorem joinRelChecked_joinRelChecked {a b r r' : Text} (hb : b ≠ [])
    (hp : joinRelCheckedPkg base a = .ok p) (h : joinRelChecked p b = .ok r)
    (h' : joinRelChecked base (a ++ '/' :: b) = .ok r') : r = r' := by
  obtain ⟨m, hm, rfl, hproper⟩ := joinRelCheckedPkg_ok hp
  rw [resolveSegments_joinRaw] at hm
  obtain ⟨l, hl, rfl⟩ := joinRelChecked_eq_ok.mp h
  obtain ⟨l', hl', rfl⟩ := joinRelChecked_eq_ok.mp h'
  rw [resolveSegments_joinRaw, resolveSegments_append, resolveSegments_intercalate hproper] at hl
  rw [resolveSegments_joinRaw, splitOn_append_cons_self, ← append_assoc, resolveSegments_append,
    hm] at hl'
  obtain rfl : l = l' := Option.some.inj (hl.symm.trans hl')
  rw [finish, finish, getLast?_joinRaw hb, getLast?_joinRaw (by simp),
    getLast?_append_of_ne_nil _ (cons_ne_nil '/' b)]
  obtain ⟨c, t, rfl⟩ := exists_cons_of_ne_nil hb
  rfl

/-- **The laws of joins**: a join fails exactly where the segments lead out of the workspace, it is
neat and stays as it is, and joins one after the other are one join. -/
theorem joinRelChecked_laws (pkg rel : Text) :
    ((∃ e, joinRelChecked pkg rel = .error e) ↔
      ∃ pre, pre <+: pkg.splitOn '/' ++ rel.splitOn '/' ∧
        pre.countP ordinary < pre.count ['.', '.']) ∧
    (∀ r, joinRelChecked pkg rel = .ok r →
      Neat (joinRaw pkg rel) r ∧ joinRelChecked [] r = .ok r) ∧
    ∀ a b p r r', b ≠ [] → joinRelCheckedPkg pkg a = .ok p → joinRelChecked p b = .ok r →
      joinRelChecked pkg (a ++ '/' :: b) = .ok r' → r = r' := by
  refine ⟨?_, fun r hr => ?_, fun a b p r r' hb hp h h' =>
    joinRelChecked_joinRelChecked hb hp h h'⟩
  · have hnone := @resolveSegments_eq_none [] (pkg.splitOn '/' ++ rel.splitOn '/')
    simp only [length_nil, zero_add] at hnone
    rw [← hnone, joinRelChecked, resolveSegments_joinRaw]
    cases resolveSegments [] (pkg.splitOn '/' ++ rel.splitOn '/') with
    | none | some => simp
  · obtain ⟨l, hl, rfl⟩ := joinRelChecked_eq_ok.mp hr
    have hneat := neat_finish (segment_of_resolve hl) (joinRaw pkg rel)
    exact ⟨hneat, hneat.joinRelChecked⟩

end Heph
