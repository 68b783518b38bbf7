import Heph.Lib.Split

/-!
# Reading an encoding back

Five ways in which a concatenation can be taken apart: at the first separator, where the part
before it has none; at the last, where the part after it has none; at every separator, where no
part has one; at the ends of words that are all of one length; and into the digits of a number,
which may be padded with zeros. And what is known about things of which only some code is known,
but not their order.
-/

namespace Heph

open List Nat Function

variable {α : Type} {x : α} {n : ℕ} {l l' r r' : List α}

/-- The first separator is where it is. -/
theorem append_separator_inj (hl : x ∉ l) (hl' : x ∉ l')
    (h : l ++ x :: r = l' ++ x :: r') : l = l' ∧ r = r' := by
  induction l generalizing l' with
  | nil =>
    cases l' with
    | nil => exact ⟨rfl, (cons.inj h).2⟩
    | cons y l' =>
      obtain rfl : x = y := (cons.inj h).1
      simp at hl'
  | cons y l ih =>
    cases l' with
    | nil =>
      obtain rfl : y = x := (cons.inj h).1
      simp at hl
    | cons z l' =>
      obtain ⟨rfl, htail⟩ := cons.inj h
      obtain ⟨rfl, rfl⟩ := ih (fun hx => hl (mem_cons_of_mem y hx))
        (fun hx => hl' (mem_cons_of_mem y hx)) htail
      exact ⟨rfl, rfl⟩

/-- The last separator is where it is. -/
theorem append_lastSeparator_inj (hr : x ∉ r) (hr' : x ∉ r')
    (h : l ++ x :: r = l' ++ x :: r') : l = l' ∧ r = r' := by
  have hrev : r.reverse ++ x :: l.reverse = r'.reverse ++ x :: l'.reverse := by
    simpa using congrArg reverse h
  obtain ⟨hright, hleft⟩ := append_separator_inj (by simpa using hr) (by simpa using hr') hrev
  exact ⟨reverse_injective hleft, reverse_injective hright⟩

/-- **Parts without the separator are read back from their join.** -/
theorem intercalate_inj {l m : List (List α)} (hl : ∀ s ∈ l, x ∉ s) (hm : ∀ s ∈ m, x ∉ s)
    (hne : l ≠ []) (hne' : m ≠ []) (h : [x].intercalate l = [x].intercalate m) : l = m := by
  classical
  rw [← splitOn_intercalate x hl hne, h, splitOn_intercalate x hm hne']

theorem intercalate_append_of_ne_nil {x : List α} {l k : List (List α)} (hl : l ≠ [])
    (hk : k ≠ []) : x.intercalate (l ++ k) = x.intercalate l ++ (x ++ x.intercalate k) := by
  have hjoin : x.intercalate ([l, k].map x.intercalate) = x.intercalate [l, k].flatten :=
    intercalate_map_intercalate (by simp [hl, hk])
  simpa using hjoin.symm

/-- What continues a join of parts after another separator is a join of these parts and more. -/
theorem intercalate_below_iff {l m : List (List α)} (hl : ∀ s ∈ l, x ∉ s)
    (hm : ∀ s ∈ m, x ∉ s) (hne : l ≠ []) :
    [x].intercalate l ++ [x] <+: [x].intercalate m ↔ l <+: m ∧ l ≠ m := by
  classical
  constructor
  · rintro ⟨r, hr⟩
    have hjoin : [x].intercalate m = [x].intercalate (l ++ r.splitOn x) := by
      rw [intercalate_append_of_ne_nil hne (splitOn_ne_nil x r), intercalate_splitOn, ← hr,
        append_assoc]
    have hne' : m ≠ [] := by
      rintro rfl
      simp at hr
    have hparts : ∀ s ∈ l ++ r.splitOn x, x ∉ s := fun s hs =>
      (mem_append.mp hs).elim (hl s) notMem_of_mem_splitOn
    rw [intercalate_inj hm hparts hne' (by simp [hne]) hjoin]
    exact ⟨prefix_append .., by simp⟩
  · rintro ⟨⟨k, rfl⟩, hlong⟩
    have hk : k ≠ [] := by
      rintro rfl
      simp at hlong
    rw [intercalate_append_of_ne_nil hne hk, ← append_assoc]
    exact prefix_append ..

/-- Codes that tell the members of a set apart tell the lists of them apart, and which of them
begins another. -/
theorem map_prefix_map_iff {β : Type} [Nonempty α] {f : α → β} {X : Set α} (h : Set.InjOn f X)
    {l m : List α} (hl : ∀ a ∈ l, a ∈ X) (hm : ∀ a ∈ m, a ∈ X) :
    l.map f <+: m.map f ↔ l <+: m := by
  have hback : ∀ k : List α, (∀ a ∈ k, a ∈ X) → (k.map f).map (invFunOn f X) = k := by
    intro k hk
    rw [map_map]
    exact (map_congr_left fun a ha => h.leftInvOn_invFunOn (hk a ha)).trans (map_id' k)
  refine ⟨fun hpre => ?_, fun hpre => hpre.map f⟩
  have hpre := hpre.map (invFunOn f X)
  rwa [hback l hl, hback m hm] at hpre

/-- Words of one length are read back from their concatenation. -/
theorem flatten_inj_of_length (hn : n ≠ 0) {L L' : List (List α)}
    (hL : ∀ w ∈ L, w.length = n) (hL' : ∀ w ∈ L', w.length = n) (h : L.flatten = L'.flatten) :
    L = L' := by
  have hlen := map_eq_replicate_iff.mpr hL
  have hlen' := map_eq_replicate_iff.mpr hL'
  have hsum : (L.map length).sum = (L'.map length).sum := by
    rw [← length_flatten, h, length_flatten]
  rw [hlen, hlen', sum_replicate, sum_replicate] at hsum
  refine eq_iff_flatten_eq.mpr ⟨h, ?_⟩
  rw [hlen, hlen', eq_of_mul_eq_mul_right (pos_of_ne_zero hn) hsum]

theorem digitChar_inj : ∀ m < 16, ∀ n < 16, Nat.digitChar m = Nat.digitChar n → m = n := by
  decide

/-- A number is read back from its hexadecimal digits. -/
theorem toDigits_sixteen_injective : Injective (Nat.toDigits 16) := by
  intro m
  induction m using Nat.strongRecOn with
  | ind m ih =>
    intro n h
    rcases lt_or_ge m 16 with hm | hm <;> rcases lt_or_ge n 16 with hn | hn
    · rw [toDigits_of_lt_base hm, toDigits_of_lt_base hn] at h
      exact digitChar_inj m hm n hn (cons.inj h).1
    · -- one digit against at least two
      rw [toDigits_of_lt_base hm, toDigits_of_base_le (by decide) hn] at h
      have hlen := congrArg length h
      simp at hlen
    · rw [toDigits_of_lt_base hn, toDigits_of_base_le (by decide) hm] at h
      have hlen := congrArg length h
      simp at hlen
    · rw [toDigits_of_base_le (by decide) hm, toDigits_of_base_le (by decide) hn] at h
      obtain ⟨hdiv, hmod⟩ := append_inj' h rfl
      have hdiv := ih (m / 16) (div_lt_self (by omega) (by decide)) hdiv
      have hmod := digitChar_inj _ (mod_lt m (by decide)) _ (mod_lt n (by decide))
        (cons.inj hmod).1
      omega

/-- The hexadecimal digits of a number are hexadecimal digits. -/
theorem mem_toDigits_sixteen {c : Char} (h : c ∈ Nat.toDigits 16 n) :
    ∃ m < 16, c = Nat.digitChar m := by
  induction n using Nat.strongRecOn with
  | ind n ih =>
    rcases lt_or_ge n 16 with hn | hn
    · rw [toDigits_of_lt_base hn, mem_singleton] at h
      exact ⟨n, hn, h⟩
    · rw [toDigits_of_base_le (by decide) hn, mem_append, mem_singleton] at h
      rcases h with h | h
      · exact ih (n / 16) (div_lt_self (by omega) (by decide)) h
      · exact ⟨n % 16, mod_lt n (by decide), h⟩

/-- The first digit of a number that is not zero is not zero. -/
theorem head?_toDigits_sixteen_ne (h : n ≠ 0) : (Nat.toDigits 16 n).head? ≠ some '0' := by
  induction n using Nat.strongRecOn with
  | ind n ih =>
    rcases lt_or_ge n 16 with hn | hn
    · have hdigit : ∀ m < 16, m ≠ 0 → digitChar m ≠ '0' := by decide
      rw [toDigits_of_lt_base hn]
      simpa using hdigit n hn h
    · rw [toDigits_of_base_le (by decide) hn, head?_append_of_ne_nil _ toDigits_ne_nil]
      exact ih (n / 16) (div_lt_self (by omega) (by decide)) (by omega)

/-- A number is read back from its hexadecimal digits, padded with zeros. -/
theorem replicate_toDigits_sixteen_inj {j k m : ℕ}
    (h : List.replicate j '0' ++ Nat.toDigits 16 m = List.replicate k '0' ++ Nat.toDigits 16 n) :
    m = n := by
  have hdrop : ∀ i l, (replicate i '0' ++ l).dropWhile (· == '0') = l.dropWhile (· == '0') :=
    fun i l => dropWhile_append_of_pos (by simp)
  -- without the zeros in front nothing is left of a zero, and all of any other number
  have hzero : (toDigits 16 0).dropWhile (· == '0') = [] := by decide
  have hother : ∀ i ≠ 0, (toDigits 16 i).dropWhile (· == '0') = toDigits 16 i := by
    intro i hi
    have hhead := head?_toDigits_sixteen_ne hi
    rcases hl : toDigits 16 i with _ | ⟨c, l⟩
    · rfl
    · rw [hl] at hhead
      exact dropWhile_cons_of_neg (by simpa using hhead)
  have heq := congrArg (dropWhile (· == '0')) h
  rw [hdrop, hdrop] at heq
  rcases eq_or_ne m 0 with rfl | hm <;> rcases eq_or_ne n 0 with rfl | hn
  · rfl
  · rw [hzero, hother n hn] at heq
    exact absurd heq.symm toDigits_ne_nil
  · rw [hzero, hother m hm] at heq
    exact absurd heq toDigits_ne_nil
  · rw [hother m hm, hother n hn] at heq
    exact toDigits_sixteen_injective heq

/-- **What the codes determine, the multiset of the codes determines.** -/
theorem perm_map_of_perm_map {β γ : Type} {f : α → β} {g : α → γ} {l l' : List α}
    (h : (l.map f).Perm (l'.map f)) (hg : ∀ a ∈ l, ∀ b ∈ l', f a = f b → g a = g b) :
    (l.map g).Perm (l'.map g) := by
  -- the second list in the order of the codes of the first
  have hcodes : Forall₂ (fun y b => y = f b) (l'.map f) l' :=
    forall₂_map_left_iff.mpr (forall₂_same.mpr fun _ _ => rfl)
  obtain ⟨m, hm, hperm⟩ := perm_comp_forall₂ h hcodes
  obtain ⟨hlen, hzip⟩ := forall₂_iff_zip.mp (forall₂_map_left_iff.mp hm)
  have hsame : Forall₂ (fun a b => g a = g b) l m :=
    forall₂_iff_zip.mpr ⟨hlen, fun hab => hg _ (of_mem_zip hab).1 _
      (hperm.subset (of_mem_zip hab).2) (hzip hab)⟩
  have heq : l.map g = m.map g :=
    forall₂_eq_eq_eq ▸ forall₂_map_left_iff.mpr (forall₂_map_right_iff.mpr hsame)
  exact heq ▸ hperm.map g

end Heph
