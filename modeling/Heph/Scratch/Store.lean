import Heph.Addr.Pkg
import Heph.Lib.PathMap

/-!
# Where a scratch cache is kept

A scratch cache has a **slot**, a hash of its declaration, and in it a lineage for each **scope**,
which is usually the name of a branch. A scope is made one component of a path: what might not be
allowed in one is replaced by an underscore. So scopes that differ may share a lineage. And since
dots are kept, a scope may be one of the two components that a file system reads as something
else: the lineage of `.` is the slot itself, with the lineages of the others in it.
-/

namespace Heph.Scratch

/-- The path of a file, from the home directory. -/
abbrev Path := List Text

/-- The id of a slot: a hash with sixteen digits. -/
structure Slot where
  digits : Text
  length : digits.length = 16

/-- A character that a scope keeps. -/
def keepsChar (c : Char) : Bool := c.isAlphanum || c = '.' || c = '-' || c = '_'

/-- `sanitize_scope`. -/
def sanitizeScope (scope : Text) : Text :=
  if scope.isEmpty then ['_'] else scope.map fun c => if keepsChar c then c else '_'

/-- A component is appended to a path, as the file system reads it. -/
def push (p : Path) (c : Text) : Path :=
  if c = ['.'] then p else if c = ['.', '.'] then p.dropLast else p ++ [c]

/-- The name of the store. -/
def storeName : Text := "scratch".toList

/-- The name of the directory that is mounted. -/
def headName : Text := "head".toList

variable (slot : Slot)

/-- `slot_dir`. -/
def slotDir : Path := [storeName, slot.digits]

/-- `lineage_dir`. -/
def lineageDir (scope : Text) : Path := push (slotDir slot) (sanitizeScope scope)

/-- `head_dir`. -/
def headDir (scope : Text) : Path := lineageDir slot scope ++ [headName]

/-- `local_meta_path`. -/
def localMetaPath (scope : Text) : Path :=
  lineageDir slot scope ++ ["head.meta".toList]

/-- The name of the store of runs that carry nothing over. -/
def auditName : Text := "scratch-audit".toList

/-- The directory of a run that carries nothing over, in `audit_root`. -/
def auditDir (run : Text) : Path := [auditName, run, slot.digits, headName]

/-- One of the directories is in the other. -/
def Overlap (p q : Path) : Prop := p <+: q ∨ q <+: p

variable {slot : Slot} {r s t : Text}

theorem digits_ne_headName (slot : Slot) : slot.digits ≠ headName := by
  intro h
  have hlength := slot.length
  rw [h] at hlength
  cases hlength

/-- **The directories of the lineages**: in the slot, next to the slot, or the slot itself. -/
theorem headDir_cases (slot : Slot) (scope : Text) :
    headDir slot scope = [storeName, slot.digits, headName] ∨
    headDir slot scope = [storeName, headName] ∨
    headDir slot scope = [storeName, slot.digits, sanitizeScope scope, headName] := by
  rw [headDir, lineageDir, push]
  split
  · exact .inl rfl
  · split
    · exact .inr (.inl rfl)
    · exact .inr (.inr rfl)

/-- **A lineage that is in another one** is that of a scope that is called like the directory. -/
theorem headDir_of_prefix (h : headDir slot r <+: headDir slot s) :
    headDir slot s = headDir slot r ∨ headDir slot s = headDir slot r ++ [headName] := by
  have hne := digits_ne_headName slot
  rcases headDir_cases slot r with hr | hr | hr <;> rw [hr] at h ⊢
  · rcases headDir_cases slot s with hs | hs | hs <;> rw [hs] at h ⊢
    · exact .inl rfl
    · simp at h
    · have hname : headName = sanitizeScope s := by simpa using h
      exact .inr (by rw [← hname]; rfl)
  · rcases headDir_cases slot s with hs | hs | hs <;> rw [hs] at h ⊢
    · exact absurd h (by simp [hne.symm])
    · exact .inl rfl
    · exact absurd h (by simp [hne.symm])
  · rcases headDir_cases slot s with hs | hs | hs <;> rw [hs] at h ⊢
    · simp at h
    · simp at h
    · have hname : sanitizeScope r = sanitizeScope s := by simpa using h
      exact .inl (by rw [hname])

/-- A name without underscores is that of one scope. -/
theorem eq_of_sanitizeScope (h : sanitizeScope r = t) (ht : '_' ∉ t) : r = t := by
  rw [sanitizeScope] at h
  split at h
  · exact absurd (h ▸ List.mem_cons_self) ht
  · rw [← h]
    refine (List.map_id r).symm.trans (List.map_congr_left fun c hc => ?_)
    have hmem : (if keepsChar c = true then c else '_') ∈ t := h ▸ List.mem_map_of_mem hc
    by_cases hkeeps : keepsChar c = true
    · rw [if_pos hkeeps]
      rfl
    · rw [if_neg hkeeps] at hmem
      exact absurd hmem ht

/-- The scope of a lineage that is in another one is not spelled in any other way. -/
theorem eq_of_headDir (hr : headDir slot s = headDir slot r ++ [headName])
    (ht : headDir slot t = headDir slot s) : t = s := by
  have hname : ∀ u, headDir slot u = headDir slot s → u = headName := by
    intro u hu
    refine eq_of_sanitizeScope ?_ (by decide)
    rw [hr] at hu
    have hlength := congrArg List.length hu
    rcases headDir_cases slot r with hr | hr | hr <;> rcases headDir_cases slot u with h | h | h <;>
      rw [hr, h] at hu hlength <;> simp at hlength
    · simpa using hu
    · exact absurd (by simpa using hu) (digits_ne_headName slot)
  rw [hname t ht, hname s rfl]

theorem prefix_or_prefix (hs : headDir slot r <+: headDir slot s)
    (ht : headDir slot r <+: headDir slot t) :
    headDir slot s <+: headDir slot t ∨ headDir slot t <+: headDir slot s := by
  rcases headDir_of_prefix hs with hs | hs <;> rcases headDir_of_prefix ht with ht | ht <;>
    rw [hs, ht]
  · exact .inl List.prefix_rfl
  · exact .inl (List.prefix_append ..)
  · exact .inr (List.prefix_append ..)
  · exact .inl List.prefix_rfl

/-- No lineage is in a directory of another name. -/
theorem not_snoc_prefix {x : Text} (hx : x ≠ headName) :
    ¬headDir slot r ++ [x] <+: headDir slot s := by
  intro h
  rcases headDir_of_prefix ((List.prefix_append _ _).trans h) with hs | hs <;> rw [hs] at h
  · simpa using h.length_le
  · exact hx (by simpa using h)

/-- The directory of a run that carries nothing over is elsewhere. -/
theorem not_prefix_auditDir {run : Text} :
    ¬headDir slot r <+: auditDir slot run ∧ ¬auditDir slot run <+: headDir slot r := by
  have hne : storeName ≠ auditName := by decide
  rcases headDir_cases slot r with h | h | h <;> rw [h, auditDir] <;> simp [hne, hne.symm]

end Heph.Scratch
