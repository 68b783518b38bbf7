import Heph.Addr.Parse
import Heph.Lib.Encoding

/-!
# Texts that two addresses share

The caches key their entries by the text of an address. The package and the name of an address can
be read off its text. The arguments cannot: a value is quoted where it has to be, but **a quote in
it is not escaped**, and a key is written as it is.

So the patterns `c",p="d ` and `d `, each with other files to leave out, are the same text
(`Addr.globAddr_shared`). More is true: the arguments but for the last value can be read as one
key, so that no address with two arguments is alone with its text. One with a single argument may
be; which of them are is said by `Addr.Unmistakable` (`Addr.format_unique_iff`).
-/

namespace Heph

open List ParseAddr SortedMap

/-! ### The addresses of files -/

/-- `PKG` of the file plugin. -/
def fsPkg : PkgBuf := "@heph/fs".toList

/-- `file_addr`. -/
def fileAddr (path : Text) : Addr :=
  ⟨fsPkg, "file".toList, ofList [("f".toList, path)]⟩

/-- `glob_addr`. -/
def globAddr (pattern : Text) (exclude : List Text) : Addr :=
  let args := ofList [("p".toList, pattern)]
  ⟨fsPkg, "glob".toList,
    if exclude.isEmpty then args else args.insert "e".toList ([','].intercalate exclude)⟩

/-- `LocalCacheSQLite::key`. -/
def sqliteKey (a : Addr) : Text := a.format

namespace Addr

/-- **A well-formed package and name**, with whatever arguments. -/
structure WellNamed (a : Addr) : Prop where
  normal : Normal a.package
  package : ∀ c ∈ a.package, pkgStop c = false
  name_ne_nil : a.name ≠ []
  name : ∀ c ∈ a.name, nameStop c = false

/-! ### Values -/

/-- The text of a value. -/
def renderValue (v : Text) : Text := if needsQuotes v then '"' :: (v ++ ['"']) else v

/-- A text that can stand in a value without quotes. -/
def Bare (s : Text) : Prop := ∀ c ∈ s, c ≠ ' ' ∧ c ≠ ',' ∧ c ≠ '|' ∧ c ≠ '"'

variable {v v' s k : Text}

theorem formatArg_eq (e : Text × Text) : formatArg e = e.1 ++ '=' :: renderValue e.2 := rfl

theorem needsQuotes_eq_false : needsQuotes v = false ↔ v ≠ [] ∧ Bare v := by
  simp [needsQuotes, Bare, and_assoc]

theorem needsQuotes_of_mem (h : '"' ∈ v) : needsQuotes v = true := by
  by_contra hv
  exact ((needsQuotes_eq_false.mp (by simpa using hv)).2 '"' h).2.2.2 rfl

theorem renderValue_of_quotes (h : needsQuotes v = true) : renderValue v = '"' :: (v ++ ['"']) :=
  if_pos h

theorem renderValue_of_bare (h : needsQuotes v = false) : renderValue v = v := by
  rw [renderValue, h]
  rfl

theorem renderValue_ne_nil (v : Text) : renderValue v ≠ [] := by
  cases h : needsQuotes v with
  | true => simp [renderValue_of_quotes h]
  | false =>
    rw [renderValue_of_bare h]
    exact (needsQuotes_eq_false.mp h).1

/-- A value is quoted if there is a quote in its text. -/
theorem needsQuotes_of_mem_renderValue (h : '"' ∈ renderValue v) : needsQuotes v = true := by
  by_contra hv
  have hv : needsQuotes v = false := by simpa using hv
  rw [renderValue_of_bare hv] at h
  exact ((needsQuotes_eq_false.mp hv).2 '"' h).2.2.2 rfl

theorem renderValue_injective : Function.Injective renderValue := by
  intro v v' h
  cases hv : needsQuotes v with
  | true =>
    have hv' : needsQuotes v' = true := by
      refine needsQuotes_of_mem_renderValue ?_
      rw [← h, renderValue_of_quotes hv]
      exact mem_cons_self
    rw [renderValue_of_quotes hv, renderValue_of_quotes hv'] at h
    simpa using h
  | false =>
    have hv' : needsQuotes v' = false := by
      by_contra hc
      rw [Bool.not_eq_false] at hc
      have hmem : '"' ∈ renderValue v := by
        rw [h, renderValue_of_quotes hc]
        exact mem_cons_self
      rw [needsQuotes_of_mem_renderValue hmem] at hv
      cases hv
    rw [renderValue_of_bare hv, renderValue_of_bare hv'] at h
    exact h

/-! ### Arguments -/

/-- The text of the arguments, without the mark before them. -/
def joinArgs : List (Text × Text) → Text
  | [] => []
  | e :: l => formatArg e ++ l.flatMap fun e => ',' :: formatArg e

variable (l : List (Text × Text))

/-- What is before the last value, but for the `=`. -/
def lastKey (k : Text) : Text :=
  if l = [] then k else joinArgs l ++ ',' :: k

theorem joinArgs_snoc (e : Text × Text) :
    joinArgs (l ++ [e]) = lastKey l e.1 ++ '=' :: renderValue e.2 := by
  cases l with
  | nil | cons => simp [joinArgs, lastKey, formatArg_eq]

theorem formatArgs_snoc (e : Text × Text) :
    formatArgs (l ++ [e]) = '@' :: (lastKey l e.1 ++ '=' :: renderValue e.2) := by
  rw [← joinArgs_snoc]
  cases l with
  | nil | cons => rfl

/-- **The package and the name can be read off the text.** -/
theorem WellNamed.eq_of_format {a b : Addr} (ha : a.WellNamed) (hb : b.WellNamed)
    (h : a.format = b.format) :
    a.package = b.package ∧ a.name = b.name ∧
      formatArgs a.args.entries = formatArgs b.args.entries := by
  have hcolon : ∀ {a : Addr}, a.WellNamed → ':' ∉ a.package := fun ha hm => by
    have := ha.package ':' hm
    simp [pkgStop] at this
  have hat : ∀ {a : Addr}, a.WellNamed → '@' ∉ a.name := fun ha hm => by
    have := ha.name '@' hm
    simp [nameStop] at this
  have hbody : a.package ++ ':' :: (a.name ++ formatArgs a.args.entries) =
      b.package ++ ':' :: (b.name ++ formatArgs b.args.entries) := append_cancel_left h
  obtain ⟨hp, hrest⟩ := append_separator_inj (hcolon ha) (hcolon hb) hbody
  refine ⟨hp, ?_⟩
  rcases eq_nil_or_concat' a.args.entries with hl | ⟨l, e, hl⟩ <;>
    rcases eq_nil_or_concat' b.args.entries with hl' | ⟨l', e', hl'⟩ <;>
    rw [hl, hl'] at hrest ⊢
  · simpa [formatArgs] using hrest
  · -- the mark would be in the name
    rw [formatArgs_snoc] at hrest
    refine absurd ?_ (hat ha)
    rw [show a.name = _ by simpa [formatArgs] using hrest]
    simp
  · rw [formatArgs_snoc] at hrest
    refine absurd ?_ (hat hb)
    rw [show b.name = _ by simpa [formatArgs] using hrest.symm]
    simp
  · rw [formatArgs_snoc, formatArgs_snoc] at hrest ⊢
    obtain ⟨hn, hargs⟩ := append_separator_inj (hat ha) (hat hb) hrest
    exact ⟨hn, congrArg _ hargs⟩

/-! ### Readings of one argument -/

/-- **The text of the argument can be read in no other way.** No `=` in the value begins a value of
its own; no `=` in the key begins a value, with the rest of the key and the value; and the key is
not itself some arguments, a comma and a later key. -/
structure Unmistakable (k v : Text) : Prop where
  value_bare : needsQuotes v = false → ∀ v₁ v₂, v = v₁ ++ '=' :: v₂ → v₂ = []
  value_quoted : needsQuotes v = true → ∀ v₁ v₂, v = v₁ ++ '=' :: '"' :: v₂ →
    needsQuotes v₂ = false
  key_bare : needsQuotes v = false → ∀ k₁ k₂, k = k₁ ++ '=' :: k₂ → ¬ Bare k₂
  key_quoted : needsQuotes v = true → ∀ k₁ k₂, k = k₁ ++ '=' :: k₂ → k₂.head? ≠ some '"'
  key_alone : ∀ l k', l ≠ [] → l.Pairwise (fun e e' => e.1 < e'.1) → (∀ e ∈ l, e.1 < k') →
    k ≠ joinArgs l ++ ',' :: k'

/-- The text of a value that is at the end of a quoted one ends with the quote. -/
theorem needsQuotes_of_suffix {s t : Text} (h : s ++ ['"'] = t ++ '=' :: renderValue v) :
    needsQuotes v = true := by
  refine needsQuotes_of_mem_renderValue ?_
  obtain ⟨r, c, hr⟩ :=
    (eq_nil_or_concat' (renderValue v)).resolve_left (renderValue_ne_nil v)
  rw [hr, ← cons_append, ← append_assoc] at h
  obtain ⟨-, hc⟩ := append_inj' h rfl
  rw [hr, (cons.inj hc).1]
  simp

section

variable (h : Unmistakable k v)

include h

/-- A longer key, with a shorter value, is no reading. -/
theorem Unmistakable.not_longer {v' t : Text}
    (hv : renderValue v = t ++ '=' :: renderValue v') : False := by
  cases hq : needsQuotes v with
  | false =>
    rw [renderValue_of_bare hq] at hv
    exact renderValue_ne_nil v' (h.value_bare hq _ _ hv)
  | true =>
    rw [renderValue_of_quotes hq] at hv
    cases t with
    | nil => simp at hv
    | cons c t =>
      rw [cons_append, cons.injEq] at hv
      obtain ⟨rfl, hv⟩ := hv
      -- the text of the shorter value has the last quote, so it is quoted itself
      have hq' := needsQuotes_of_suffix hv
      rw [renderValue_of_quotes hq'] at hv
      have hlast : v ++ ['"'] = (t ++ '=' :: '"' :: v') ++ ['"'] := by simpa using hv
      have hv' : v = t ++ '=' :: '"' :: v' := append_cancel_right hlast
      rw [h.value_quoted hq _ _ hv'] at hq'
      cases hq'

/-- A shorter key, with a longer value, is no reading. -/
theorem Unmistakable.not_shorter {k' t v' : Text}
    (hk : k = k' ++ '=' :: t) (hv : renderValue v' = t ++ '=' :: renderValue v) : False := by
  cases hq' : needsQuotes v' with
  | false =>
    rw [renderValue_of_bare hq'] at hv
    have hbare := (needsQuotes_eq_false.mp hq').2
    rw [hv] at hbare
    have hq : needsQuotes v = false := by
      by_contra hc
      rw [Bool.not_eq_false] at hc
      refine (hbare '"' ?_).2.2.2 rfl
      rw [renderValue_of_quotes hc]
      simp
    exact h.key_bare hq _ _ hk fun c hc => hbare c (mem_append_left _ hc)
  | true =>
    rw [renderValue_of_quotes hq'] at hv
    cases t with
    | nil => simp at hv
    | cons c t =>
      rw [cons_append, cons.injEq] at hv
      obtain ⟨rfl, hv⟩ := hv
      exact h.key_quoted (needsQuotes_of_suffix hv) _ _ hk rfl

/-- A reading with the same key and value is the argument itself. -/
theorem Unmistakable.eq_of_lastKey {l : List (Text × Text)} {k' : Text}
    (hl : (l ++ [(k', v)]).Pairwise fun e e' => e.1 < e'.1) (hk : lastKey l k' = k) :
    l ++ [(k', v)] = [(k, v)] := by
  by_cases hnil : l = []
  · subst hnil
    rw [← hk]
    rfl
  · obtain ⟨hsorted, -, hlt⟩ := pairwise_append.mp hl
    have hlt' : ∀ e ∈ l, e.1 < k' := fun e he => hlt e he (k', v) (mem_singleton_self _)
    refine absurd ?_ (h.key_alone l k' hnil hsorted hlt')
    rw [← hk, lastKey, if_neg hnil]

/-- **An argument that can be read in no other way is alone with its text.** -/
theorem Unmistakable.eq_of_formatArgs {l : List (Text × Text)}
    (hl : l.Pairwise fun e e' => e.1 < e'.1) (heq : formatArgs l = formatArgs [(k, v)]) :
    l = [(k, v)] := by
  rcases eq_nil_or_concat' l with rfl | ⟨l₀, ⟨k', v'⟩, rfl⟩
  · simp [formatArgs] at heq
  have htext : lastKey l₀ k' ++ '=' :: renderValue v' = k ++ '=' :: renderValue v := by
    have hkv := formatArgs_snoc [] (k, v)
    rw [nil_append] at hkv
    rw [formatArgs_snoc, hkv] at heq
    exact (cons.inj heq).2
  -- the two keys may end at different `=`
  rcases append_eq_append_iff.mp htext with ⟨t, hk, hv⟩ | ⟨t, hk, hv⟩
  · cases t with
    | nil =>
      rw [append_nil] at hk
      obtain rfl := renderValue_injective (cons.inj hv).2
      exact h.eq_of_lastKey hl hk.symm
    | cons c t =>
      rw [cons_append, cons.injEq] at hv
      obtain ⟨rfl, hv⟩ := hv
      exact (h.not_shorter hk hv).elim
  · cases t with
    | nil =>
      rw [append_nil] at hk
      obtain rfl := renderValue_injective (cons.inj hv).2
      exact h.eq_of_lastKey hl hk
    | cons c t =>
      rw [cons_append, cons.injEq] at hv
      obtain ⟨rfl, hv⟩ := hv
      exact (h.not_longer hv).elim

end

/-- Another argument, or more of them, with the text of the argument. -/
theorem unmistakable_of_unique (h : ∀ l : List (Text × Text), l.Pairwise (fun e e' => e.1 < e'.1) →
      joinArgs l = joinArgs [(k, v)] → l = [(k, v)]) : Unmistakable k v := by
  have hone : ∀ k' v', k' ++ '=' :: renderValue v' = k ++ '=' :: renderValue v → k' = k := by
    intro k' v' heq
    have := h [(k', v')] (pairwise_singleton ..) (by simpa [joinArgs, formatArg_eq] using heq)
    simpa using (congrArg (map Prod.fst) this)
  constructor
  · rintro hq v₁ v₂ rfl
    by_contra hne
    -- the value from the `=` on
    have hbare := (needsQuotes_eq_false.mp hq).2
    have hq₂ : needsQuotes v₂ = false :=
      needsQuotes_eq_false.mpr ⟨hne, fun c hc => hbare c (by simp [hc])⟩
    have := hone (k ++ '=' :: v₁) v₂ (by simp [renderValue_of_bare hq, renderValue_of_bare hq₂])
    simp at this
  · rintro hq v₁ v₂ rfl
    by_contra hq₂
    rw [Bool.not_eq_false] at hq₂
    have := hone (k ++ '=' :: '"' :: v₁) v₂
      (by simp [renderValue_of_quotes hq, renderValue_of_quotes hq₂])
    simp at this
  · rintro hq k₁ k₂ rfl hbare
    have hq' : needsQuotes (k₂ ++ '=' :: v) = false := by
      refine needsQuotes_eq_false.mpr ⟨by simp, fun c hc => ?_⟩
      rcases mem_append.mp hc with hc | hc
      · exact hbare c hc
      · rcases mem_cons.mp hc with rfl | hc
        · decide
        · exact (needsQuotes_eq_false.mp hq).2 c hc
    have := hone k₁ (k₂ ++ '=' :: v) (by simp [renderValue_of_bare hq, renderValue_of_bare hq'])
    simp at this
  · rintro hq k₁ k₂ rfl hhead
    obtain ⟨k₃, rfl⟩ : ∃ k₃, k₂ = '"' :: k₃ := head?_eq_some_iff.mp hhead
    have hq' : needsQuotes (k₃ ++ '=' :: '"' :: v) = true := needsQuotes_of_mem (by simp)
    have := hone k₁ (k₃ ++ '=' :: '"' :: v)
      (by simp [renderValue_of_quotes hq, renderValue_of_quotes hq'])
    simp at this
  · rintro l k' hne hsorted hlt rfl
    -- the arguments that the key consists of
    have hl : (l ++ [(k', v)]).Pairwise fun e e' => e.1 < e'.1 :=
      pairwise_append.mpr ⟨hsorted, pairwise_singleton .., by simpa using hlt⟩
    have := h _ hl (by rw [joinArgs_snoc, lastKey, if_neg hne]; simp [joinArgs, formatArg_eq])
    have hlen := congrArg length this
    simp [hne] at hlen

/-- The addresses of the file plugin. -/
theorem wellNamed_fsPkg {n : Text} (hn : n = "file".toList ∨ n = "glob".toList)
    (args : SortedMap Text Text) : (⟨fsPkg, n, args⟩ : Addr).WellNamed where
  normal := normal_of_joinRelCheckedPkg (show joinRelCheckedPkg [] fsPkg = .ok fsPkg from rfl)
  package := by
    change ∀ c ∈ ['@', 'h', 'e', 'p', 'h', '/', 'f', 's'], pkgStop c = false
    simp [pkgStop]
  name_ne_nil := by
    rcases hn with rfl | rfl
    · exact cons_ne_nil 'f' _
    · exact cons_ne_nil 'g' _
  name := by
    rcases hn with rfl | rfl
    · change ∀ c ∈ ['f', 'i', 'l', 'e'], nameStop c = false
      simp [nameStop]
    · change ∀ c ∈ ['g', 'l', 'o', 'b'], nameStop c = false
      simp [nameStop]

/-- A key and a value without any of the marks between arguments. -/
theorem unmistakable_of_notMem {k v : Text} (hk : '=' ∉ k) (hv : '=' ∉ v) (hcomma : ',' ∉ k) :
    Unmistakable k v where
  value_bare := fun _ v₁ v₂ h => absurd (by simp [h]) hv
  value_quoted := fun _ v₁ v₂ h => absurd (by simp [h]) hv
  key_bare := fun _ k₁ k₂ h => absurd (by simp [h]) hk
  key_quoted := fun _ k₁ k₂ h => absurd (by simp [h]) hk
  key_alone := fun l k' _ _ _ h => hcomma (by simp [h])

/-! ### Addresses that are alone with their text -/

/-- **Which addresses are alone with their text**, among those with a well-formed package and name:
those without arguments, and those with one that can be read in no other way. -/
theorem format_unique_iff (a : Addr) (ha : a.WellNamed) :
    (∀ b : Addr, b.WellNamed → b.format = a.format → b = a) ↔
      a.args.entries = [] ∨ ∃ k v, a.args.entries = [(k, v)] ∧ Unmistakable k v := by
  have hadd : ∀ args : SortedMap Text Text, formatArgs args.entries = formatArgs a.args.entries →
      (⟨a.package, a.name, args⟩ : Addr).format = a.format := fun args h => by
    rw [format, format, h]
  constructor
  · intro h
    have hargs : ∀ args : SortedMap Text Text,
        formatArgs args.entries = formatArgs a.args.entries → args = a.args := fun args heq =>
      congrArg Addr.args (h ⟨a.package, a.name, args⟩ ⟨ha.1, ha.2, ha.3, ha.4⟩ (hadd args heq))
    rcases eq_nil_or_concat' a.args.entries with hl | ⟨l, ⟨k, v⟩, hl⟩
    · exact .inl hl
    -- all but the last value may be read as a key
    have hkey := hargs ⟨[(lastKey l k, v)], pairwise_singleton ..⟩ (by
      rw [hl, formatArgs_snoc]
      exact formatArgs_snoc [] _)
    obtain rfl : l = [] := by
      have hlen := congrArg (fun m : SortedMap Text Text => m.entries.length) hkey
      simpa [hl] using hlen
    refine .inr ⟨k, v, hl, unmistakable_of_unique fun l' hl' heq => ?_⟩
    have hform : formatArgs l' = formatArgs a.args.entries := by
      rw [hl]
      cases l' with
      | nil => simp [joinArgs, formatArg_eq] at heq
      | cons e l' => exact congrArg ('@' :: ·) heq
    rw [← nil_append [(k, v)], ← hl]
    exact congrArg entries (hargs ⟨l', hl'⟩ hform)
  · intro h b hb heq
    obtain ⟨hp, hn, hform⟩ := hb.eq_of_format ha heq
    have hentries : b.args.entries = a.args.entries := by
      rcases h with hl | ⟨k, v, hl, hkv⟩
      · rw [hl] at hform ⊢
        rcases eq_nil_or_concat' b.args.entries with hl' | ⟨l', e, hl'⟩
        · exact hl'
        · rw [hl', formatArgs_snoc] at hform
          cases hform
      · rw [hl] at hform ⊢
        exact hkv.eq_of_formatArgs b.args.sorted hform
    obtain ⟨p, n, args⟩ := a
    obtain ⟨p', n', args'⟩ := b
    obtain rfl : p' = p := hp
    obtain rfl : n' = n := hn
    obtain rfl : args' = args := ext hentries
    rfl

/-- The address of a file whose path has no `=` is alone with its text. -/
theorem format_unique_iff_file :
    (fileAddr "a b".toList).format = "//@heph/fs:file@f=\"a b\"".toList ∧
      ∀ b : Addr, b.WellNamed → b.format = (fileAddr "a b".toList).format →
        b = fileAddr "a b".toList :=
  ⟨by decide, (format_unique_iff _ (wellNamed_fsPkg (.inl rfl) _)).mpr
    (.inr ⟨"f".toList, "a b".toList, rfl, unmistakable_of_notMem (by decide) (by decide)
      (by decide)⟩)⟩

/-- **Two globs with one text**: what one of them leaves out goes on with a pattern of its own. -/
theorem globAddr_shared :
    ∃ p e p' e', globAddr p e ≠ globAddr p' e' ∧
      (globAddr p e).WellNamed ∧ (globAddr p' e').WellNamed ∧
      (globAddr p e).format = (globAddr p' e').format ∧
      sqliteKey (globAddr p e) = sqliteKey (globAddr p' e') :=
  ⟨"c\",p=\"d ".toList, ["a b".toList], "d ".toList, ["a b\",p=\"c".toList], by decide,
    wellNamed_fsPkg (.inr rfl) _, wellNamed_fsPkg (.inr rfl) _, by decide, by decide⟩

end Addr

end Heph
