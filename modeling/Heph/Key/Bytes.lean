import Heph.Lib.Encoding
import Heph.Addr.Hash
import Heph.Key.Hashin

/-!
# The bytes of a cache key

What is hashed for the key of a target is the name of its driver, a zero byte, the hash of its
definition and the hashouts of its inputs, sorted and **back to back**. The driver ends at the zero
byte and the hash of the definition is of a fixed length, so both are read back from the bytes. The
hashouts are not: a hashout is a number in hexadecimal and without leading zeros, and so `1`, `23`
and `12`, `3` are the same bytes (`HashinInput.hashouts_run_together`).

The bytes determine the digits of the hashouts, and only the boundaries between them are lost. So a
key is told apart from all the others exactly if its digits can be cut into sorted hashouts in one
way only, which can be tried (`readings`). And for keys of a kind – so many hashouts at most, of
such numbers of digits – it depends on whether there is more than one hashout and more than one
number of digits (`HashinInput.determines_iff`).
-/

namespace Heph

open List Addr

/-- A digest as `{:x}`. -/
def hexDigits (d : UInt64) : Text := Nat.toDigits 16 d.toNat

theorem hexDigits_injective : Function.Injective hexDigits :=
  fun _ _ h => UInt64.toNat_inj.mp (toDigits_sixteen_injective h)

/-- The number with these digits. -/
def hexValue (w : Text) : ℕ :=
  w.foldl (fun n c => 16 * n + (if c.isDigit then c.toNat - 48 else c.toNat - 87)) 0

theorem hexValue_toDigits (n : ℕ) : hexValue (Nat.toDigits 16 n) = n := by
  induction n using Nat.strongRecOn with
  | ind n ih =>
    rcases lt_or_ge n 16 with hn | hn
    · rw [Nat.toDigits_of_lt_base hn]
      interval_cases n <;> rfl
    · have hlast : hexValue [Nat.digitChar (n % 16)] = n % 16 := by
        have hlt := Nat.mod_lt n (show 16 > 0 by decide)
        generalize n % 16 = k at hlt ⊢
        interval_cases k <;> rfl
      simp only [hexValue, foldl_cons, foldl_nil, Nat.mul_zero, Nat.zero_add] at hlast
      rw [Nat.toDigits_of_base_le (by decide) hn, hexValue, foldl_append, foldl_cons, foldl_nil,
        hlast, ← hexValue, ih (n / 16) (by omega)]
      omega

/-- The text is a hashout as it is written. -/
def IsHashout (w : Text) : Prop := hexDigits (.ofNat (hexValue w)) = w

instance (w : Text) : Decidable (IsHashout w) := inferInstanceAs (Decidable (_ = _))

theorem isHashout_hexDigits (d : UInt64) : IsHashout (hexDigits d) := by
  rw [IsHashout, hexDigits, hexDigits, hexValue_toDigits, UInt64.ofNat_toNat]

/-- What the key of a target is made of. -/
structure HashinInput where
  driver : Text
  driver_noNul : '\x00' ∉ driver
  hash : List UInt8
  hash_length : hash.length = 16
  /-- The hashouts of the inputs, in whichever order they come. -/
  hashouts : List UInt64

namespace HashinInput

/-- The hashouts, as they are written and sorted. -/
def sorted (t : HashinInput) : List Text := (t.hashouts.map hexDigits).insertionSort (· ≤ ·)

/-- What `hashin` writes to the hasher. -/
def bytes (t : HashinInput) : List UInt8 := hashinBytes t.driver t.hash t.sorted

/-- The keys are made of the same things: the hashouts are the same as a multiset. -/
def Same (t t' : HashinInput) : Prop :=
  t.driver = t'.driver ∧ t.hash = t'.hash ∧ t.hashouts.Perm t'.hashouts

end HashinInput

/-! ### The driver and the definition -/

/-- No character but NUL has a zero byte. -/
theorem zero_notMem_utf8EncodeChar {c : Char} (hc : c ≠ '\x00') :
    (0 : UInt8) ∉ String.utf8EncodeChar c := by
  have hne : c.val.toNat ≠ 0 := fun h => hc (Char.ext (UInt32.toNat_inj.mp h))
  have hzero : ∀ n, (0 : UInt8) = .ofNat n → n % 256 = 0 := fun n h => by
    simpa using (congrArg UInt8.toNat h).symm
  intro h
  rw [String.utf8EncodeChar] at h
  split_ifs at h <;> simp only [mem_cons, not_mem_nil, or_false] at h
  · have := hzero _ h
    omega
  · rcases h with h | h <;> have := hzero _ h <;> omega
  · rcases h with h | h | h <;> have := hzero _ h <;> omega
  · rcases h with h | h | h | h <;> have := hzero _ h <;> omega

theorem zero_notMem_utf8 {s : Text} (hs : '\x00' ∉ s) : (0 : UInt8) ∉ utf8 s := by
  rw [utf8, mem_flatMap]
  rintro ⟨c, hc, hzero⟩
  exact zero_notMem_utf8EncodeChar (fun h => hs (h ▸ hc)) hzero

theorem flatMap_utf8 (l : List Text) : l.flatMap utf8 = utf8 l.flatten := by
  rw [utf8, flatten_eq_flatMap, flatMap_assoc]
  rfl

namespace HashinInput

variable {t t' : HashinInput}

/-- **What the bytes determine**: the driver, the hash of the definition, and the digits of the
sorted hashouts. -/
theorem bytes_eq_iff : t.bytes = t'.bytes ↔
    t.driver = t'.driver ∧ t.hash = t'.hash ∧ t.sorted.flatten = t'.sorted.flatten := by
  rw [bytes, bytes, hashinBytes, hashinBytes, flatMap_utf8, flatMap_utf8]
  constructor
  · intro h
    obtain ⟨hdriver, hrest⟩ := append_separator_inj (zero_notMem_utf8 t.driver_noNul)
      (zero_notMem_utf8 t'.driver_noNul) h
    obtain ⟨hhash, hdigits⟩ := append_inj hrest (t.hash_length.trans t'.hash_length.symm)
    exact ⟨utf8_injective hdriver, hhash, utf8_injective hdigits⟩
  · rintro ⟨hdriver, hhash, hdigits⟩
    rw [hdriver, hhash, hdigits]

/-! ### The hashouts -/

theorem perm_of_sorted_eq (h : t.sorted = t'.sorted) : t.hashouts.Perm t'.hashouts := by
  have hperm := (perm_insertionSort (· ≤ ·) (t.hashouts.map hexDigits)).symm.trans
    ((Perm.of_eq h).trans (perm_insertionSort (· ≤ ·) (t'.hashouts.map hexDigits)))
  exact (map_perm_map_iff hexDigits_injective).mp hperm

theorem mem_sorted {w : Text} : w ∈ t.sorted ↔ ∃ d ∈ t.hashouts, hexDigits d = w := by
  rw [sorted, mem_insertionSort, mem_map]

/-- Hashouts of one length are read back. -/
theorem sorted_eq_of_length {n : ℕ} (hn : ∀ d ∈ t.hashouts ++ t'.hashouts, (hexDigits d).length = n)
    (h : t.sorted.flatten = t'.sorted.flatten) : t.sorted = t'.sorted := by
  have hlen : ∀ w ∈ t.sorted, w.length = n := fun w hw => by
    obtain ⟨d, hd, rfl⟩ := mem_sorted.mp hw
    exact hn d (mem_append_left _ hd)
  have hlen' : ∀ w ∈ t'.sorted, w.length = n := fun w hw => by
    obtain ⟨d, hd, rfl⟩ := mem_sorted.mp hw
    exact hn d (mem_append_right _ hd)
  rcases eq_or_ne n 0 with rfl | hpos
  · -- a hashout has a digit, so there is none
    have hnil : ∀ {u : HashinInput}, (∀ w ∈ u.sorted, w.length = 0) → u.sorted = [] := by
      intro u hu
      refine eq_nil_iff_forall_not_mem.mpr fun w hw => ?_
      obtain ⟨d, -, rfl⟩ := mem_sorted.mp hw
      exact Nat.toDigits_ne_nil (length_eq_zero_iff.mp (hu _ hw))
    rw [hnil hlen, hnil hlen']
  · exact flatten_inj_of_length hpos hlen hlen' h

theorem sorted_eq_of_perm (h : t.hashouts.Perm t'.hashouts) : t.sorted = t'.sorted := by
  refine Perm.eq_of_pairwise' (pairwise_insertionSort _ _) (pairwise_insertionSort _ _) ?_
  exact (perm_insertionSort _ _).trans ((h.map hexDigits).trans (perm_insertionSort _ _).symm)

end HashinInput

/-! ### The ways to read the digits -/

/-- All the ways to cut the digits into hashouts, in the order in which they are sorted, from one
on that is not before `low`. -/
def readings : ℕ → Text → Text → List (List Text)
  | 0, _, digits => if digits = [] then [[]] else []
  | fuel + 1, low, digits =>
    if digits = [] then [[]]
    else
      let firsts := (List.range digits.length).map fun i => digits.take (i + 1)
      (firsts.filter fun w => low ≤ w ∧ IsHashout w).flatMap fun w =>
        (readings fuel w (digits.drop w.length)).map (w :: ·)

theorem mem_readings {fuel : ℕ} {low digits : Text} {ws : List Text} (hws : ∀ w ∈ ws, IsHashout w)
    (hsorted : (low :: ws).Pairwise (· ≤ ·)) (hflat : ws.flatten = digits)
    (hfuel : digits.length ≤ fuel) : ws ∈ readings fuel low digits := by
  have hpos : ∀ w ∈ ws, w ≠ [] := by
    rintro w hw rfl
    exact Nat.toDigits_ne_nil (hws [] hw)
  induction fuel generalizing low digits ws with
  | zero =>
    obtain rfl : digits = [] := length_eq_zero_iff.mp (Nat.le_zero.mp hfuel)
    cases ws with
    | nil => simp [readings]
    | cons w ws => exact absurd (append_eq_nil_iff.mp hflat).1 (hpos w mem_cons_self)
  | succ fuel ih =>
    cases ws with
    | nil =>
      obtain rfl : [] = digits := hflat
      simp [readings]
    | cons w ws =>
      rw [flatten_cons] at hflat
      rw [forall_mem_cons] at hws hpos
      obtain ⟨hlow, hsorted⟩ := pairwise_cons.mp hsorted
      have hlen := congrArg length hflat
      rw [length_append] at hlen
      have hw := length_pos_iff.mpr hpos.1
      have hne : digits ≠ [] := ne_nil_of_length_pos (by omega)
      have hrest : ws ∈ readings fuel w (digits.drop w.length) := by
        refine ih hws.2 hsorted ?_ ?_ hpos.2
        · rw [← hflat, drop_left]
        · rw [length_drop]
          omega
      have hfirst : w = digits.take (w.length - 1 + 1) := by
        rw [Nat.sub_add_cancel hw, ← hflat, take_left]
      rw [readings, if_neg hne, mem_flatMap]
      refine ⟨w, mem_filter.mpr ⟨mem_map.mpr ⟨w.length - 1, ?_, hfirst.symm⟩, ?_⟩,
        mem_map.mpr ⟨ws, hrest, rfl⟩⟩
      · rw [List.mem_range]
        omega
      · exact decide_eq_true ⟨hlow w mem_cons_self, hws.1⟩

theorem of_mem_readings {fuel : ℕ} {low digits : Text} {ws : List Text}
    (h : ws ∈ readings fuel low digits) :
    (∀ w ∈ ws, IsHashout w) ∧ (low :: ws).IsChain (· ≤ ·) ∧ ws.flatten = digits := by
  induction fuel generalizing low digits ws with
  | zero =>
    rw [readings] at h
    split at h
    · next hd =>
      rw [mem_singleton.mp h]
      exact ⟨by simp, .singleton low, hd.symm⟩
    · cases h
  | succ fuel ih =>
    rw [readings] at h
    split at h
    · next hd =>
      rw [mem_singleton.mp h]
      exact ⟨by simp, .singleton low, hd.symm⟩
    · obtain ⟨w, hw, hmap⟩ := mem_flatMap.mp h
      obtain ⟨hfirst, hok⟩ := mem_filter.mp hw
      obtain ⟨i, -, rfl⟩ := mem_map.mp hfirst
      obtain ⟨hlow, hhash⟩ := of_decide_eq_true hok
      obtain ⟨ws, hrest, rfl⟩ := mem_map.mp hmap
      obtain ⟨hws, hchain, hflat⟩ := ih hrest
      refine ⟨forall_mem_cons.mpr ⟨hhash, hws⟩, .cons_cons hlow hchain, ?_⟩
      have hpre : digits.take (i + 1) <+: digits := take_prefix (i + 1) digits
      rw [flatten_cons, hflat]
      exact prefix_iff_eq_append.mp hpre

namespace HashinInput

variable {t t' : HashinInput}

/-- **The digits of the hashouts can be read in one way only.** -/
def ReadOneWay (t : HashinInput) : Prop :=
  ∀ ws ∈ readings t.sorted.flatten.length [] t.sorted.flatten, ws = t.sorted

instance (t : HashinInput) : Decidable t.ReadOneWay := inferInstanceAs (Decidable (∀ _ ∈ _, _))

/-- With the hashouts of a reading the digits are the same. -/
theorem sorted_of_mem_readings {ws : List Text}
    (h : ws ∈ readings t.sorted.flatten.length [] t.sorted.flatten) :
    ({ t with hashouts := ws.map fun w => .ofNat (hexValue w) } : HashinInput).sorted = ws := by
  obtain ⟨hws, hchain, -⟩ := of_mem_readings h
  have hmap : (ws.map fun w => UInt64.ofNat (hexValue w)).map hexDigits = ws := by
    rw [map_map]
    exact (map_congr_left hws).trans (map_id ws)
  rw [sorted, hmap]
  exact (pairwise_cons.mp (isChain_iff_pairwise.mp hchain)).2.insertionSort_eq

theorem sorted_mem_readings (h : t'.sorted.flatten = t.sorted.flatten) :
    t'.sorted ∈ readings t.sorted.flatten.length [] t.sorted.flatten := by
  refine mem_readings (fun w hw => ?_) (pairwise_cons.mpr ⟨fun w _ => not_lt.mp (not_lt_nil w), ?_⟩)
    h le_rfl
  · obtain ⟨d, -, rfl⟩ := mem_sorted.mp hw
    exact isHashout_hexDigits d
  · exact pairwise_insertionSort _ _

/-- **A key is told apart from all the others** exactly if its digits can be read in one way. -/
theorem readOneWay_iff : (∀ t' : HashinInput, t'.bytes = t.bytes → Same t' t) ↔ t.ReadOneWay := by
  constructor
  · intro htold ws hws
    have hsorted := sorted_of_mem_readings hws
    have hsame := htold { t with hashouts := ws.map fun w => .ofNat (hexValue w) } <|
      bytes_eq_iff.mpr ⟨rfl, rfl, by rw [hsorted, (of_mem_readings hws).2.2]⟩
    rw [← hsorted]
    exact sorted_eq_of_perm hsame.2.2
  · intro hone t' hbytes
    obtain ⟨hdriver, hhash, hdigits⟩ := bytes_eq_iff.mp hbytes
    exact ⟨hdriver, hhash, perm_of_sorted_eq (hone _ (sorted_mem_readings hdigits))⟩

/-! ### Keys of a kind -/

/-- The key has so many hashouts at most, of such numbers of digits. -/
def OfKind (counts : Set ℕ) (most : ℕ) (t : HashinInput) : Prop :=
  t.hashouts.length ≤ most ∧ ∀ d ∈ t.hashouts, (hexDigits d).length ∈ counts

theorem length_hexDigits (d : UInt64) : 0 < (hexDigits d).length ∧ (hexDigits d).length ≤ 16 :=
  ⟨Nat.length_toDigits_pos,
    (Nat.length_toDigits_le_iff (by decide) (by decide)).mpr d.toNat_lt⟩

/-- A single hashout is read back. -/
theorem sorted_eq_of_le_one (ht : t.hashouts.length ≤ 1) (ht' : t'.hashouts.length ≤ 1)
    (h : t.sorted.flatten = t'.sorted.flatten) : t.sorted = t'.sorted := by
  have hcases {u : HashinInput} (hu : u.hashouts.length ≤ 1) :
      u.sorted = [] ∨ ∃ d, u.sorted = [hexDigits d] := by
    rw [sorted]
    match hl : u.hashouts with
    | [] => exact .inl rfl
    | [d] => exact .inr ⟨d, rfl⟩
    | _ :: _ :: _ => simp [hl] at hu
  rcases hcases ht with hs | ⟨d, hs⟩ <;> rcases hcases ht' with hs' | ⟨d', hs'⟩ <;>
    rw [hs, hs'] at h ⊢
  · rw [flatten_singleton, flatten_nil] at h
    exact absurd h.symm Nat.toDigits_ne_nil
  · rw [flatten_singleton, flatten_nil] at h
    exact absurd h Nat.toDigits_ne_nil
  · rw [flatten_singleton, flatten_singleton] at h
    rw [h]

theorem sorted_eq_of_count {counts : Set ℕ} {most : ℕ}
    (hone : ∀ a ∈ counts, ∀ b ∈ counts, 0 < a → a < b → 16 < b) (ht : t.OfKind counts most)
    (ht' : t'.OfKind counts most) (h : t.sorted.flatten = t'.sorted.flatten) :
    t.sorted = t'.sorted := by
  have hmem : ∀ d ∈ t.hashouts ++ t'.hashouts, (hexDigits d).length ∈ counts := fun d hd =>
    (mem_append.mp hd).elim (ht.2 d) (ht'.2 d)
  have hle {d d' : UInt64} (hd : d ∈ t.hashouts ++ t'.hashouts)
      (hd' : d' ∈ t.hashouts ++ t'.hashouts) :
      (hexDigits d).length ≤ (hexDigits d').length := by
    by_contra hlt
    have hbig := hone _ (hmem d' hd') _ (hmem d hd) (length_hexDigits d').1 (not_le.mp hlt)
    have := (length_hexDigits d).2
    omega
  obtain ⟨n, hn⟩ : ∃ n, ∀ d ∈ t.hashouts ++ t'.hashouts, (hexDigits d).length = n := by
    by_cases hnil : t.hashouts ++ t'.hashouts = []
    · exact ⟨0, by simp [hnil]⟩
    · obtain ⟨d, hd⟩ := exists_mem_of_ne_nil _ hnil
      exact ⟨(hexDigits d).length, fun d' hd' => le_antisymm (hle hd' hd) (hle hd hd')⟩
  exact sorted_eq_of_length hn h

/-- A target of the `exec` driver with these hashouts. -/
def execInput (hashouts : List UInt64) : HashinInput :=
  ⟨"exec".toList, by decide, List.replicate 16 0, rfl, hashouts⟩

/-- The number with so many digits that are all `1`. -/
def ones (a : ℕ) : UInt64 := .ofNat ((16 ^ a - 1) / 15)

theorem length_ones : ∀ a < 17, 0 < a →
    (hexDigits (ones a)).length = a ∧ (hexDigits (2 * ones a)).length = a := by
  decide +kernel

theorem length_ones_add : ∀ a < 17, ∀ b < 17, 0 < a → a < b →
    (hexDigits (ones b + ones a)).length = b := by
  decide +kernel

/-- With two numbers of digits there are two pairs of hashouts with the same digits. -/
theorem ones_run_together : ∀ a < 17, ∀ b < 17, 0 < a → a < b →
    (execInput [ones a, ones b + ones a]).sorted.flatten =
      (execInput [ones b, 2 * ones a]).sorted.flatten := by
  decide +kernel

theorem ones_not_perm : ∀ a < 17, ∀ b < 17, 0 < a → a < b →
    ¬ [ones a, ones b + ones a].Perm [ones b, 2 * ones a] := by
  decide +kernel

/-- **When the bytes determine what the key is made of.** A key is told apart from all the others
exactly if the digits of its hashouts can be read in one way. And keys of a kind are told apart
from each other exactly if they have one hashout at most, or if there is one number of digits. -/
theorem determines_iff (t : HashinInput) (counts : Set ℕ) (most : ℕ) :
    ((∀ t' : HashinInput, t'.bytes = t.bytes → Same t' t) ↔ t.ReadOneWay) ∧
    ((∀ t t' : HashinInput, t.OfKind counts most → t'.OfKind counts most →
        t.bytes = t'.bytes → Same t t') ↔
      most ≤ 1 ∨ ∀ a ∈ counts, ∀ b ∈ counts, 0 < a → a < b → 16 < b) := by
  refine ⟨readOneWay_iff, fun htold => ?_, fun hkind => ?_⟩
  · by_contra hnot
    push Not at hnot
    obtain ⟨hmost, a, ha, b, hb, hpos, hlt, hle⟩ := hnot
    have ha' : a < 17 := by omega
    have hb' : b < 17 := by omega
    have hdigits := ones_run_together a ha' b hb' hpos hlt
    obtain ⟨hones, htwos⟩ := length_ones a ha' hpos
    refine ones_not_perm a ha' b hb' hpos hlt (htold (execInput [ones a, ones b + ones a])
      (execInput [ones b, 2 * ones a]) ⟨hmost, ?_⟩ ⟨hmost, ?_⟩
      (bytes_eq_iff.mpr ⟨rfl, rfl, hdigits⟩)).2.2
    · simp [execInput, hones, length_ones_add a ha' b hb' hpos hlt, ha, hb]
    · simp [execInput, htwos, (length_ones b hb' (hpos.trans hlt)).1, ha, hb]
  · intro t t' ht ht' hbytes
    obtain ⟨hdriver, hhash, hdigits⟩ := bytes_eq_iff.mp hbytes
    refine ⟨hdriver, hhash, perm_of_sorted_eq ?_⟩
    rcases hkind with hmost | hone
    · exact sorted_eq_of_le_one (ht.1.trans hmost) (ht'.1.trans hmost) hdigits
    · exact sorted_eq_of_count hone ht ht' hdigits

-- `21` is one hashout, since `2` is not before `1`; `12` may be `1` and `2`
example : (execInput [0x21]).ReadOneWay ∧ ¬ (execInput [0x12]).ReadOneWay := by decide +kernel

/-- The boundary between two hashouts is lost. -/
theorem hashouts_run_together :
    (execInput [0x111111111111111, 0x2222222222222223]).bytes =
      (execInput [0x1111111111111112, 0x222222222222223]).bytes ∧
    ¬ Same (execInput [0x111111111111111, 0x2222222222222223])
      (execInput [0x1111111111111112, 0x222222222222223]) := by
  refine ⟨by decide +kernel, fun h => absurd h.2.2 (by decide)⟩

end HashinInput

end Heph
