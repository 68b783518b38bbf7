import Heph.Lib.Machine
import Heph.Lib.Encoding
import Heph.Addr.Parse

/-!
# Where a target is executed

The sandbox of a target is a directory under `sandbox`: one level for each component of the
package, and then `__target_` with the name, followed by the hash of the address if there are
arguments. Two executes that must not be in each other's way are kept apart by the **execute
lock** of the address, which is named by the hash alone.

So two targets that are in each other's way must have one lock. They need not: a package may
lie below a directory that is the sandbox of a target (`Execute.nested_package`), a name
may end the way the hash of another target does, and a name may have slashes in it, so that it
leads below the sandbox of another target or, by `..`, out of its package. It is said exactly
which pairs of addresses are kept apart, over the components of packages and names, and that a
pair is kept apart exactly if no two executes of it ever run in overlapping trees
(`Execute.apart_iff`).
-/

namespace Heph.Execute

open List Machine Addr

/-! ### The directory and the lock -/

/-- `__target_`. -/
def targetMark : Text := ['_', '_', 't', 'a', 'r', 'g', 'e', 't', '_']

section

variable (digest : List UInt8 → UInt64)

/-- The last part of the sandbox directory: `__target_{name}`, or `__target_{name}_{hash}`. -/
def targetDir (a : Addr) : Text :=
  targetMark ++ (a.name ++ if a.args.entries = [] then [] else '_' :: a.hashStr digest)

/-- The sandbox directory that `execute` derives, as the path that it is joined to: a name with
slashes in it is several components. -/
def sandboxDir (home : List Text) (a : Addr) : List Text :=
  home ++ "sandbox".toList :: (pkgComponents a.package ++ (targetDir digest a).splitOn '/')

/-- Where a path leads: no component for an empty one or a `.`, and one less for a `..`. -/
def resolve (path : List Text) : List Text :=
  path.foldl (fun out s =>
    if s = [] ∨ s = ['.'] then out else if s = ['.', '.'] then out.dropLast else out ++ [s]) []

/-- What a relative path comes to: so many levels up, and then these components. -/
def reduce (path : List Text) : ℕ × List Text :=
  path.foldl (fun out s =>
    if s = [] ∨ s = ['.'] then out
    else if s = ['.', '.'] then
      if out.2 = [] then (out.1 + 1, []) else (out.1, out.2.dropLast)
    else (out.1, out.2 ++ [s])) (0, [])

/-- The directory that is worked in. -/
def sandbox (home : List Text) (a : Addr) : List Text := resolve (sandboxDir digest home a)

/-- Where the locks are: in files, for the processes of a workspace, or in memory. -/
inductive LockBackend where
  | fs
  | mem

/-- What tells two execute locks apart. -/
inductive ExecuteLock where
  | file (name : Text)
  | key (a : Addr)
  deriving DecidableEq

/-- `lock_execute`: in files, the lock is at `execute_lock_path`. -/
def executeLock : LockBackend → Addr → ExecuteLock
  | .fs, a => .file (a.hashStr digest ++ ".execute.lock".toList)
  | .mem, a => .key a

end

/-- One of two directories is, or contains, the other. -/
def Overlapping (d d' : List Text) : Prop := d <+: d' ∨ d' <+: d

/-! ### Executes -/

/-- An execute takes its lock and runs, or is over. -/
inductive ExecuteEvent where
  | start (a : Addr)
  | finish (a : Addr)

/-- The executes that run, each under the lock of its address. -/
def executes (lock : Addr → ExecuteLock) : Machine (List Addr) ExecuteEvent where
  init := []
  step live
    | .start a => if ∀ b ∈ live, lock b ≠ lock a then some (a :: live) else none
    | .finish a => if a ∈ live then some (live.erase a) else none

/-- **The locks exclude each other**, at every moment of every run. -/
theorem nodup_map_lock {lock : Addr → ExecuteLock} {es : List ExecuteEvent} {live : List Addr}
    (h : (executes lock).run es = some live) : (live.map lock).Nodup := by
  refine run_invariant (I := fun live => (live.map lock).Nodup) nodup_nil ?_ h
  rintro live (a | a) live' hlive hstep
  · by_cases hfree : ∀ b ∈ live, lock b ≠ lock a
    · obtain rfl : a :: live = live' := by simpa only [executes, if_pos hfree, Option.some.injEq]
        using hstep
      rw [map_cons, nodup_cons]
      refine ⟨fun hmem => ?_, hlive⟩
      obtain ⟨b, hb, hlock⟩ := mem_map.mp hmem
      exact hfree b hb hlock
    · simp [executes, hfree] at hstep
  · by_cases hmem : a ∈ live
    · obtain rfl : live.erase a = live' := by simpa only [executes, if_pos hmem, Option.some.injEq]
        using hstep
      exact hlive.sublist (erase_sublist.map lock)
    · simp [executes, hmem] at hstep

/-- Two targets can run at once exactly if their locks differ. -/
theorem exists_live_iff {lock : Addr → ExecuteLock} {a b : Addr} (hne : a ≠ b) :
    (∃ es live, (executes lock).run es = some live ∧ a ∈ live ∧ b ∈ live) ↔ lock a ≠ lock b := by
  constructor
  · rintro ⟨es, live, hrun, ha, hb⟩
    exact fun hlock => hne (inj_on_of_nodup_map (nodup_map_lock hrun) ha hb hlock)
  · intro hlock
    refine ⟨[.start a, .start b], [b, a], ?_, by simp, by simp⟩
    simp [run, runFrom, executes, hlock]

/-! ### When two sandboxes overlap -/

section

variable (digest : List UInt8 → UInt64)

/-- The name of the one, which has no arguments, is the name of the other and its hash. -/
def NamesHash (a b : Addr) : Prop :=
  a.args.entries ≠ [] ∧ b.args.entries = [] ∧ b.name = a.name ++ '_' :: a.hashStr digest

/-- The two have one name and one hash, and arguments. -/
def SharesHash (a b : Addr) : Prop :=
  a.args.entries ≠ [] ∧ b.args.entries ≠ [] ∧ a.name = b.name ∧ a.hashStr digest = b.hashStr digest

/-- The package of the second lies below the sandbox of the first. -/
def PackageWithin (a b : Addr) : Prop :=
  pkgComponents a.package ++ [targetDir digest a] <+: pkgComponents b.package

/-- What the components of a name come to. -/
def nameParts (a : Addr) : ℕ × List Text := reduce ((targetDir digest a).splitOn '/')

/-- The package of an address, without the levels that its name climbs. -/
def anchor (home : List Text) (a : Addr) : List Text :=
  (home ++ "sandbox".toList :: pkgComponents a.package).rdrop (nameParts digest a).1

/-- The names of two addresses meet: the second begins some levels below the first, and from
there on the one leads where the other does or further. -/
def NamesMeet (home : List Text) (a b : Addr) : Prop :=
  ∃ below, anchor digest home b = anchor digest home a ++ below ∧
    Overlapping (nameParts digest a).2 (below ++ (nameParts digest b).2)

/-- **The two addresses are kept apart**: they have one lock, or their names do not meet. -/
def KeptApart (backend : LockBackend) (home : List Text) (a b : Addr) : Prop :=
  executeLock digest backend a = executeLock digest backend b ∨
    ¬(NamesMeet digest home a b ∨ NamesMeet digest home b a)

end

variable {digest : List UInt8 → UInt64} {home : List Text} {a b : Addr}

theorem mem_hashStr {c : Char} (h : c ∈ a.hashStr digest) : c ≠ '/' ∧ c ≠ '_' := by
  obtain ⟨m, hm, rfl⟩ := mem_toDigits_sixteen h
  have hdigit : ∀ m < 16, Nat.digitChar m ≠ '/' ∧ Nat.digitChar m ≠ '_' := by decide
  exact hdigit m hm

theorem resolve_concat (path : List Text) (s : Text) :
    resolve (path ++ [s]) =
      if s = [] ∨ s = ['.'] then resolve path
      else if s = ['.', '.'] then (resolve path).dropLast else resolve path ++ [s] := by
  rw [resolve, foldl_append, ← resolve]
  rfl

theorem reduce_concat (path : List Text) (s : Text) :
    reduce (path ++ [s]) =
      if s = [] ∨ s = ['.'] then reduce path
      else if s = ['.', '.'] then
        if (reduce path).2 = [] then ((reduce path).1 + 1, [])
        else ((reduce path).1, (reduce path).2.dropLast)
      else ((reduce path).1, (reduce path).2 ++ [s]) := by
  rw [reduce, foldl_append, ← reduce]
  rfl

/-- **A path is followed from where it begins**: some levels up, and then down again. -/
theorem resolve_append (dir path : List Text) :
    resolve (dir ++ path) = (resolve dir).rdrop (reduce path).1 ++ (reduce path).2 := by
  induction path using reverseRecOn with
  | nil => simp [reduce]
  | append_singleton path s ih =>
    rw [← append_assoc, resolve_concat, reduce_concat, ih]
    split
    · rfl
    · split
      · split
        · next hnil =>
          simp only [hnil, append_nil, rdrop, dropLast_eq_take, take_take, length_take]
          congr 1
          omega
        · next hne => rw [dropLast_append_of_ne_nil hne]
      · rw [append_assoc]

/-- Nothing is to be resolved in a path of proper segments. -/
theorem resolve_of_segments {path : List Text} (h : ∀ s ∈ path, Segment s) :
    resolve path = path := by
  suffices hfold : ∀ out, path.foldl (fun out s =>
      if s = [] ∨ s = ['.'] then out else if s = ['.', '.'] then out.dropLast else out ++ [s]) out =
      out ++ path from hfold []
  induction path with
  | nil => simp
  | cons s path ih =>
    intro out
    have hs := h s mem_cons_self
    rw [foldl_cons, if_neg (not_or.mpr ⟨hs.ne_nil, hs.ne_dot⟩), if_neg hs.ne_dotDot,
      ih fun t ht => h t (mem_cons_of_mem s ht), append_assoc, singleton_append]

theorem segment_targetDir (ha : '/' ∉ a.name) : Segment (targetDir digest a) := by
  refine ⟨by simp [targetDir, targetMark], by simp [targetDir, targetMark],
    by simp [targetDir, targetMark], fun hslash => ?_⟩
  rw [targetDir, mem_append, mem_append] at hslash
  rcases hslash with hslash | hslash | hslash
  · revert hslash
    decide
  · exact ha hslash
  · split at hslash
    · cases hslash
    · rcases mem_cons.mp hslash with hslash | hslash
      · cases hslash
      · exact (mem_hashStr hslash).1 rfl

theorem segment_packageDir (hhome : ∀ s ∈ home, Segment s) (hp : Normal a.package) :
    ∀ s ∈ home ++ "sandbox".toList :: pkgComponents a.package, Segment s := by
  intro s hs
  rcases mem_append.mp hs with hs | hs
  · exact hhome s hs
  · rcases mem_cons.mp hs with rfl | hs
    · exact ⟨by decide, by decide, by decide, by decide⟩
    · exact hp.pkgComponents s hs

/-- **The sandbox of a name without slashes**: a directory of its own below its package's. -/
theorem sandbox_eq (hhome : ∀ s ∈ home, Segment s) (hp : Normal a.package) (ha : '/' ∉ a.name) :
    sandbox digest home a =
      home ++ "sandbox".toList :: (pkgComponents a.package ++ [targetDir digest a]) := by
  have hdir : Segment (targetDir digest a) := segment_targetDir ha
  have hsplit : (targetDir digest a).splitOn '/' = [targetDir digest a] := by
    have hone : (['/'].intercalate [targetDir digest a]).splitOn '/' = [targetDir digest a] :=
      splitOn_intercalate '/' (by simpa using hdir.noSlash) (cons_ne_nil _ _)
    simpa using hone
  rw [sandbox, sandboxDir, hsplit, ← cons_append, ← append_assoc]
  refine resolve_of_segments fun s hs => ?_
  rcases mem_append.mp hs with hs | hs
  · exact segment_packageDir hhome hp s hs
  · rw [mem_singleton.mp hs]
    exact hdir

/-- Two addresses of one package have one directory name exactly if the hash of the one is in
the name of the other, or shared. -/
theorem targetDir_eq_iff (hp : a.package = b.package) (hne : a ≠ b) :
    targetDir digest a = targetDir digest b ↔
      NamesHash digest a b ∨ NamesHash digest b a ∨ SharesHash digest a b := by
  have hnone {a : Addr} (h : a.args.entries = []) :
      targetDir digest a = targetMark ++ a.name := by
    rw [targetDir, if_pos h, append_nil]
  have hsome {a : Addr} (h : a.args.entries ≠ []) :
      targetDir digest a = targetMark ++ (a.name ++ '_' :: a.hashStr digest) := by
    rw [targetDir, if_neg h]
  by_cases hargs : a.args.entries = [] <;> by_cases hargs' : b.args.entries = []
  · -- without arguments the name is all there is
    rw [hnone hargs, hnone hargs', append_right_inj]
    refine iff_of_false (fun hname => hne ?_) (by simp [NamesHash, SharesHash, hargs, hargs'])
    obtain ⟨pkg, name, args⟩ := a
    congr
    exact SortedMap.ext (hargs.trans hargs'.symm)
  · rw [hnone hargs, hsome hargs', append_right_inj]
    simp [NamesHash, SharesHash, hargs, hargs']
  · rw [hsome hargs, hnone hargs', append_right_inj]
    simp [NamesHash, SharesHash, hargs, hargs', eq_comm]
  · rw [hsome hargs, hsome hargs', append_right_inj]
    simp only [NamesHash, SharesHash, hargs, hargs', ne_eq, not_false_eq_true,
      false_and, and_false, false_or, true_and]
    refine ⟨fun h => append_lastSeparator_inj (fun h => (mem_hashStr h).2 rfl)
      (fun h => (mem_hashStr h).2 rfl) h, ?_⟩
    rintro ⟨hname, hhash⟩
    rw [hname, hhash]

/-- **The sandbox of any name**: below its package, without the levels that it climbs. -/
theorem sandbox_eq_anchor (hhome : ∀ s ∈ home, Segment s) (hp : Normal a.package) :
    sandbox digest home a = anchor digest home a ++ (nameParts digest a).2 := by
  have hdir : ∀ s ∈ home ++ "sandbox".toList :: pkgComponents a.package, Segment s :=
    segment_packageDir hhome hp
  rw [sandbox, sandboxDir, ← cons_append, ← append_assoc, resolve_append,
    resolve_of_segments hdir]
  rfl

/-- **When two sandboxes overlap**: the names meet. -/
theorem overlapping_iff_namesMeet (hhome : ∀ s ∈ home, Segment s) (hp : Normal a.package)
    (hp' : Normal b.package) :
    Overlapping (sandbox digest home a) (sandbox digest home b) ↔
      NamesMeet digest home a b ∨ NamesMeet digest home b a := by
  rw [sandbox_eq_anchor hhome hp, sandbox_eq_anchor hhome hp']
  constructor
  · intro h
    -- what two paths begin with lies on one path
    have hanchors : anchor digest home a <+: anchor digest home b ∨
        anchor digest home b <+: anchor digest home a := by
      rcases h with h | h
      · exact prefix_or_prefix_of_prefix ((prefix_append _ _).trans h) (prefix_append _ _)
      · exact prefix_or_prefix_of_prefix (prefix_append _ _) ((prefix_append _ _).trans h)
    rcases hanchors with ⟨below, hbelow⟩ | ⟨below, hbelow⟩
    · refine .inl ⟨below, hbelow.symm, ?_⟩
      rwa [Overlapping, ← hbelow, append_assoc, prefix_append_right_inj,
        prefix_append_right_inj] at h
    · refine .inr ⟨below, hbelow.symm, ?_⟩
      rw [Overlapping, ← hbelow, append_assoc, prefix_append_right_inj,
        prefix_append_right_inj] at h
      exact h.symm
  · rintro (⟨below, hbelow, h⟩ | ⟨below, hbelow, h⟩)
    · rwa [Overlapping, hbelow, append_assoc, prefix_append_right_inj, prefix_append_right_inj]
    · rw [Overlapping, hbelow, append_assoc, prefix_append_right_inj, prefix_append_right_inj]
      exact h.symm

/-- **When two sandboxes of names without slashes overlap**: they are one, or the package of one
is in the other. -/
theorem overlapping_iff (hhome : ∀ s ∈ home, Segment s) (hp : Normal a.package)
    (hp' : Normal b.package) (ha : '/' ∉ a.name) (hb : '/' ∉ b.name) (hne : a ≠ b) :
    Overlapping (sandbox digest home a) (sandbox digest home b) ↔
      a.package = b.package ∧
          (NamesHash digest a b ∨ NamesHash digest b a ∨ SharesHash digest a b) ∨
        PackageWithin digest a b ∨ PackageWithin digest b a := by
  have hpre : ∀ l m : List Text, home ++ "sandbox".toList :: l <+: home ++ "sandbox".toList :: m ↔
      l <+: m := fun l m => by
    simp
  have hsame : pkgComponents a.package ++ [targetDir digest a] =
      pkgComponents b.package ++ [targetDir digest b] ↔
      a.package = b.package ∧
        (NamesHash digest a b ∨ NamesHash digest b a ∨ SharesHash digest a b) := by
    constructor
    · intro h
      obtain ⟨hpkg, hdir⟩ := append_inj' h rfl
      have hpkg := hp.eq_of_pkgComponents hp' hpkg
      exact ⟨hpkg, (targetDir_eq_iff hpkg hne).mp (cons.inj hdir).1⟩
    · rintro ⟨hpkg, h⟩
      rw [hpkg, (targetDir_eq_iff hpkg hne).mpr h]
  rw [Overlapping, sandbox_eq hhome hp ha, sandbox_eq hhome hp' hb, hpre, hpre,
    prefix_concat_iff, prefix_concat_iff, hsame,
    eq_comm (b := pkgComponents a.package ++ _), hsame, ← PackageWithin, ← PackageWithin]
  tauto

/-! ### Which targets are kept apart -/

/-- **Which targets are kept apart**: overlapping sandboxes have one lock – and no two executes
ever run in overlapping trees – exactly if the two have one lock, or their names do not meet. For
names without slashes these meet if the package of one is below the sandbox of the other or, in
one package, the hash of one is in the name of the other or shared by both. -/
theorem apart_iff {backend : LockBackend} {s t : Text} (hhome : ∀ c ∈ home, Segment c)
    (ha : parseAddr s = .ok a) (hb : parseAddr t = .ok b) (hne : a ≠ b) :
    ((Overlapping (sandbox digest home a) (sandbox digest home b) →
        executeLock digest backend a = executeLock digest backend b) ↔
      KeptApart digest backend home a b) ∧
    ((∀ es live, (executes (executeLock digest backend)).run es = some live →
        a ∈ live → b ∈ live → ¬Overlapping (sandbox digest home a) (sandbox digest home b)) ↔
      KeptApart digest backend home a b) ∧
    ('/' ∉ a.name → '/' ∉ b.name →
      (NamesMeet digest home a b ∨ NamesMeet digest home b a ↔
        a.package = b.package ∧
            (NamesHash digest a b ∨ NamesHash digest b a ∨ SharesHash digest a b) ∨
          PackageWithin digest a b ∨ PackageWithin digest b a)) := by
  have hp := (wellFormed_of_parseAddr ha).normal
  have hp' := (wellFormed_of_parseAddr hb).normal
  have hover := @overlapping_iff_namesMeet digest home a b hhome hp hp'
  have hlive := @exists_live_iff (executeLock digest backend) a b hne
  refine ⟨?_, ?_, fun hslash hslash' => ?_⟩
  · rw [KeptApart, ← hover]
    tauto
  · rw [KeptApart, ← hover]
    constructor
    · intro h
      by_contra hnot
      obtain ⟨hlock, hov⟩ := not_or.mp hnot
      obtain ⟨es, live, hrun, hal, hbl⟩ := hlive.mpr hlock
      exact h es live hrun hal hbl (not_not.mp hov)
    · rintro (hlock | hov) es live hrun hal hbl
      · exact absurd hlock (hlive.mp ⟨es, live, hrun, hal, hbl⟩)
      · exact hov
  · rw [← hover]
    exact overlapping_iff hhome hp hp' hslash hslash' hne

/-- Two targets in two packages, one of them with a slash in its name. -/
theorem apart_iff_packages :
    ∃ a b : Addr, parseAddr "//p:x/y".toList = .ok a ∧ parseAddr "//q:x".toList = .ok b ∧
      ∀ digest es live, (executes (executeLock digest .fs)).run es = some live → a ∈ live →
        b ∈ live → ¬Overlapping (sandbox digest [] a) (sandbox digest [] b) := by
  refine ⟨⟨['p'], ['x', '/', 'y'], .empty⟩, ⟨['q'], ['x'], .empty⟩, rfl, rfl, fun digest => ?_⟩
  refine (apart_iff (a := ⟨['p'], ['x', '/', 'y'], .empty⟩) (b := ⟨['q'], ['x'], .empty⟩)
    (s := "//p:x/y".toList) (t := "//q:x".toList) (by simp) rfl rfl (by decide)).2.1.mpr (.inr ?_)
  have hp : anchor digest [] ⟨['p'], ['x', '/', 'y'], .empty⟩ = ["sandbox".toList, ['p']] := rfl
  have hq : anchor digest [] ⟨['q'], ['x'], .empty⟩ = ["sandbox".toList, ['q']] := rfl
  simp [NamesMeet, hp, hq]

/-- **A package below the sandbox of a target**: the two sandboxes overlap, and unless the hash
collides the two targets have different locks and can be executed at once. -/
theorem nested_package :
    ∃ a b : Addr, parseAddr "//p:x".toList = .ok a ∧
      parseAddr "//p/__target_x:y".toList = .ok b ∧ a.hashBytes ≠ b.hashBytes ∧
      ∀ digest home, (∀ c ∈ home, Segment c) →
        Overlapping (sandbox digest home a) (sandbox digest home b) ∧
        (digest a.hashBytes ≠ digest b.hashBytes → ∀ backend,
          executeLock digest backend a ≠ executeLock digest backend b ∧
          ∃ es live, (executes (executeLock digest backend)).run es = some live ∧
            a ∈ live ∧ b ∈ live) := by
  set a : Addr := ⟨['p'], ['x'], .empty⟩
  set b : Addr := ⟨'p' :: '/' :: (targetMark ++ ['x']), ['y'], .empty⟩
  have hpa : parseAddr "//p:x".toList = .ok a := rfl
  have hpb : parseAddr "//p/__target_x:y".toList = .ok b := rfl
  have hne : a ≠ b := by decide
  refine ⟨a, b, hpa, hpb, by decide +kernel, fun digest home hhome =>
    ⟨?_, fun hdigest backend => ?_⟩⟩
  · have hwithin : PackageWithin digest a b := ⟨[], by
      rfl⟩
    exact (overlapping_iff hhome (wellFormed_of_parseAddr hpa).normal
      (wellFormed_of_parseAddr hpb).normal (by decide) (by decide) hne).mpr
      (.inr (.inl hwithin))
  · have hlock : executeLock digest backend a ≠ executeLock digest backend b := by
      cases backend with
      | fs =>
        intro h
        refine hdigest (UInt64.toNat_inj.mp (toDigits_sixteen_injective ?_))
        exact append_cancel_right (ExecuteLock.file.inj h)
      | mem => exact fun h => hne (ExecuteLock.key.inj h)
    exact ⟨hlock, (exists_live_iff hne).mpr hlock⟩

end Heph.Execute
