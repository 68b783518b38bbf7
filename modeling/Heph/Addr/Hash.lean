import Heph.Addr.Parse

/-!
# What the hash of an address tells

The hasher is written the package, the name, and the keys and values, and the writes are
not delimited. **The writes determine the address** (`Addr.hashWrites_injective`), but
what a streaming hash function sees is their concatenation, and that does not: wherever two
components meet, the boundary between them can be moved.
So no address is alone with its bytes (`Addr.hash_collides`), and addresses that a user
can write, such as `//a:bc` and `//ab:c`, have the same hash under every hash function.
-/

namespace Heph.Addr

open List

/-! ### The separate writes -/

theorem utf8_injective : Function.Injective utf8 := by
  intro s t h
  have hbytes : (String.ofList s).toByteArray = (String.ofList t).toByteArray :=
    congrArg toByteArray h
  simpa using congrArg String.toList (String.toByteArray_inj.mp hbytes)

/-- The writes for the arguments come in pairs. -/
theorem flatMap_writes_injective {l l' : List (Text × Text)}
    (h : (l.flatMap fun e => [utf8 e.1, utf8 e.2]) = l'.flatMap fun e => [utf8 e.1, utf8 e.2]) :
    l = l' := by
  induction l generalizing l' with
  | nil =>
    cases l' with
    | nil => rfl
    | cons e l' => simp at h
  | cons e l ih =>
    cases l' with
    | nil => simp at h
    | cons e' l' =>
      simp only [flatMap_cons, cons_append, nil_append, cons.injEq] at h
      obtain ⟨hk, hv, h⟩ := h
      rw [ih h, Prod.ext (utf8_injective hk) (utf8_injective hv)]

/-- **The separate writes determine the address.** -/
theorem hashWrites_injective : Function.Injective hashWrites := by
  rintro ⟨p, n, m⟩ ⟨p', n', m'⟩ h
  simp only [hashWrites, cons.injEq] at h
  obtain ⟨hp, hn, hm⟩ := h
  rw [utf8_injective hp, utf8_injective hn, SortedMap.ext (flatMap_writes_injective hm)]

/-! ### Their concatenation -/

theorem utf8_append (s t : Text) : utf8 (s ++ t) = utf8 s ++ utf8 t := flatMap_append

/-- **No address is alone with its bytes**: for every address there is another one for which
a hasher is fed the same bytes, and which therefore has the same hash under every hash
function. -/
theorem hash_collides (a : Addr) :
    ∃ b : Addr, b ≠ a ∧ b.hashBytes = a.hashBytes ∧
      ∀ digest, b.hashStr digest = a.hashStr digest := by
  suffices h : ∃ b : Addr, b ≠ a ∧ b.hashBytes = a.hashBytes by
    obtain ⟨b, hne, hb⟩ := h
    exact ⟨b, hne, hb, fun digest => by rw [hashStr, hashStr, hb]⟩
  obtain ⟨package, name, ⟨entries, sorted⟩⟩ := a
  cases entries with
  | cons e l =>
    -- the first argument can as well be the end of the name
    refine ⟨⟨package, name ++ (e.1 ++ e.2), ⟨l, (pairwise_cons.mp sorted).2⟩⟩, ?_, ?_⟩
    · intro h
      have hl : l = e :: l := congrArg (fun a : Addr => a.args.entries) h
      simpa using congrArg length hl
    · simp [hashBytes, hashWrites, utf8_append]
  | nil =>
    cases name with
    | cons c n =>
      -- the name can as well be the end of the package
      refine ⟨⟨package ++ c :: n, [], ⟨[], sorted⟩⟩, ?_, ?_⟩
      · intro h
        have hn : [] = c :: n := congrArg name h
        simp at hn
      · simp [hashBytes, hashWrites, utf8]
    | nil =>
      cases package with
      | cons c p =>
        refine ⟨⟨[], c :: p, ⟨[], sorted⟩⟩, ?_, ?_⟩
        · intro h
          have hp : [] = c :: p := congrArg package h
          simp at hp
        · simp [hashBytes, hashWrites, utf8]
      | nil =>
        -- an argument with an empty key and an empty value leaves no trace
        refine ⟨⟨[], [], .ofList [([], [])]⟩, ?_, rfl⟩
        intro h
        have hargs : [([], [])] = [] := congrArg (fun a : Addr => a.args.entries) h
        simp at hargs

/-- **Two addresses that a user can write**, and that differ in package and name. -/
theorem hash_collides_parsed :
    ∃ a b : Addr, parseAddr "//a:bc".toList = .ok a ∧ parseAddr "//ab:c".toList = .ok b ∧
      a.package ≠ b.package ∧ a.name ≠ b.name ∧ a.hashBytes = b.hashBytes :=
  ⟨⟨['a'], ['b', 'c'], .empty⟩, ⟨['a', 'b'], ['c'], .empty⟩, rfl, rfl, by decide, by decide, rfl⟩

end Heph.Addr
