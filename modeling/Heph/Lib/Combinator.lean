import Heph.Lib.Traverse

/-!
# Parser combinators

Parsers over lists of tokens that return what is left of the input with their value, or the
place and the kind of their failure. A failure is never final: `Parser.opt` and
`Parser.alt` go on from where they started.

Two kinds of rules come with the combinators. A parser **reads back** what was printed:
on the printed tokens, followed by something that it stops at, it returns the printed value
and what follows. And what a parser **accepts** is clean: its value has none of the tokens
that it stops at.
-/

namespace Heph

open List Nat

/-- What a parser failed at. -/
inductive ErrorKind where
  | tag
  | char
  | takeTill1
  | separatedList
  | eof
  deriving DecidableEq, Repr

/-- A failure: the input at the place of it, and its kind. -/
structure ParseError (τ : Type) where
  input : List τ
  code : ErrorKind
  deriving DecidableEq, Repr

/-- A parser returns the rest of its input and a value, or fails. -/
abbrev Parser (τ α : Type) := List τ → Except (ParseError τ) (List τ × α)

theorem bind_of_ok {ε α β : Type} {x : Except ε α} {f : α → Except ε β} {a : α}
    (h : x = .ok a) : x >>= f = f a := by
  rw [h]
  rfl

namespace Parser

variable {τ α β γ : Type} {p : τ → Bool} {i r v : List τ} {P : Parser τ α} {Q sep : Parser τ β}

/-! ### The combinators -/

/-- The tokens up to the first that `p` holds of. -/
def takeTill (p : τ → Bool) : Parser τ (List τ) := fun i =>
  .ok (i.dropWhile fun c => !p c, i.takeWhile fun c => !p c)

/-- The same, of at least one token. -/
def takeTill1 (p : τ → Bool) : Parser τ (List τ) := fun i =>
  if (i.takeWhile fun c => !p c).isEmpty then .error ⟨i, .takeTill1⟩ else takeTill p i

/-- One given token. -/
def item [DecidableEq τ] (a : τ) : Parser τ τ
  | [] => .error ⟨[], .char⟩
  | b :: i => if b = a then .ok (i, a) else .error ⟨b :: i, .char⟩

/-- Given tokens. -/
def tag [DecidableEq τ] (l : List τ) : Parser τ (List τ) := fun i =>
  match i.dropPrefix? l with
  | some rest => .ok (rest, l)
  | none => .error ⟨i, .tag⟩

/-- Something optional. -/
def opt (P : Parser τ α) : Parser τ (Option α) := fun i =>
  match P i with
  | .ok (rest, a) => .ok (rest, some a)
  | .error _ => .ok (i, none)

/-- The second of two parsers, or the first where it succeeds. -/
def alt (P Q : Parser τ α) : Parser τ α := fun i =>
  match P i with
  | .ok r => .ok r
  | .error _ => Q i

variable (P : Parser τ α)

/-- Two parsers in sequence, with the value of the second. -/
def preceded (Q : Parser τ β) : Parser τ β := fun i => do
  let (i, _) ← P i
  Q i

/-- Three parsers in sequence, with the value of the second. -/
def delimited (Q : Parser τ β) (R : Parser τ γ) : Parser τ β := fun i => do
  let (i, _) ← P i
  let (i, b) ← Q i
  let (i, _) ← R i
  return (i, b)

/-- A parser that leaves nothing. -/
def allConsuming : Parser τ α := fun i => do
  let (rest, a) ← P i
  if rest.isEmpty then return (rest, a) else .error ⟨rest, .eof⟩

variable {P}

/-- The items after the first one. An iteration that consumes nothing is an error, so the
length of the input bounds the number of iterations. -/
def separatedLoop (sep : Parser τ β) (P : Parser τ α) : ℕ → List α → Parser τ (List α)
  | 0, acc, i => .ok (i, acc)
  | n + 1, acc, i =>
    match sep i with
    | .error _ => .ok (i, acc)
    | .ok (i₁, _) =>
      match P i₁ with
      | .error _ => .ok (i, acc)
      | .ok (i₂, a) =>
        if i₂.length = i.length then .error ⟨i₂, .separatedList⟩
        else separatedLoop sep P n (acc ++ [a]) i₂

/-- At least one item, with separators between the items. -/
def separatedList1 (sep : Parser τ β) (P : Parser τ α) : Parser τ (List α) := fun i => do
  let (i, a) ← P i
  separatedLoop sep P (i.length + 1) [a] i

/-! ### Reading back -/

section ReadBack

variable {p : τ → Bool} {l r : List τ} {P : Parser τ α} {i : List τ} {a : α} {Q : Parser τ β}
  {R : Parser τ γ}

theorem takeTill_append (hl : ∀ c ∈ l, p c = false) (hr : ∀ c ∈ r.head?, p c = true) :
    takeTill p (l ++ r) = .ok (r, l) := by
  have hl' : ∀ c ∈ l, (!p c) = true := fun c hc => by simp [hl c hc]
  have hr' : (r.takeWhile fun c => !p c) = [] ∧ (r.dropWhile fun c => !p c) = r := by
    cases r with
    | nil => exact ⟨rfl, rfl⟩
    | cons c r => simp [hr c rfl]
  rw [takeTill, takeWhile_append_of_pos hl', dropWhile_append_of_pos hl', hr'.1, hr'.2,
    append_nil]

theorem takeTill1_append (hne : l ≠ []) (hl : ∀ c ∈ l, p c = false)
    (hr : ∀ c ∈ r.head?, p c = true) : takeTill1 p (l ++ r) = .ok (r, l) := by
  have h := takeTill_append hl hr
  have hvalue : ((l ++ r).takeWhile fun c => !p c) = l := congrArg Prod.snd (Except.ok.inj h)
  rw [takeTill1, hvalue, if_neg (by simpa using hne), h]

theorem opt_of_ok (h : P i = .ok (r, a)) :
    opt P i = .ok (r, some a) := by
  rw [opt, h]

theorem preceded_of_ok (h : P i = .ok (r, a)) : preceded P Q i = Q r :=
  bind_of_ok h

theorem delimited_of_ok {i₁ i₂ : List τ} {b : β} {c : γ} (hP : P i = .ok (i₁, a))
    (hQ : Q i₁ = .ok (i₂, b)) (hR : R i₂ = .ok (r, c)) : delimited P Q R i = .ok (r, b) :=
  (bind_of_ok hP).trans ((bind_of_ok hQ).trans (bind_of_ok hR))

theorem delimited_of_error
    {e : ParseError τ} (h : P i = .error e) : delimited P Q R i = .error e := by
  rw [delimited, h]
  rfl

variable [DecidableEq τ] {print : α → List τ} {l : List α}

theorem item_cons (a : τ) (r : List τ) : item a (a :: r) = .ok (r, a) := by
  rw [item, if_pos rfl]

/-- A token that is not there. -/
theorem item_error {a : τ} (h : r.head? ≠ some a) : ∃ e, item a r = .error e := by
  cases r with
  | nil => exact ⟨_, rfl⟩
  | cons b r =>
    rw [item, if_neg fun hb => h (by simp [hb])]
    exact ⟨_, rfl⟩

theorem tag_append (l r : List τ) : tag l (l ++ r) = .ok (r, l) := by
  rw [tag, dropPrefix?_append_of_beq r (by simp)]

/-- **A separated list is read back** if its items are, where they are followed by a
separator or by nothing. -/
theorem separatedLoop_intercalate {s : τ}
    (hP : ∀ a ∈ l, ∀ r, (∀ c ∈ r.head?, c = s) → P (print a ++ r) = .ok (r, a)) {n : ℕ}
    {acc : List α} (hn : (l.flatMap fun a => s :: print a).length < n) :
    separatedLoop (item s) P n acc (l.flatMap fun a => s :: print a) = .ok ([], acc ++ l) := by
  induction l generalizing n acc with
  | nil =>
    obtain ⟨n, rfl⟩ := exists_eq_add_one_of_ne_zero (ne_of_gt (zero_lt_of_lt hn))
    simp [separatedLoop, item]
  | cons a l ih =>
    obtain ⟨n, rfl⟩ := exists_eq_add_one_of_ne_zero (ne_of_gt (zero_lt_of_lt hn))
    have hhead : ∀ c ∈ (l.flatMap fun a => s :: print a).head?, c = s := by
      cases l with
      | nil | cons => simp
    have ha := hP a mem_cons_self _ hhead
    rw [flatMap_cons, cons_append, separatedLoop, item_cons]
    simp only [ha]
    rw [flatMap_cons, cons_append, length_cons, length_append] at hn
    rw [if_neg (by rw [length_cons, length_append]; omega),
      ih (fun b hb => hP b (mem_cons_of_mem a hb)) (by omega), append_assoc]
    rfl

theorem separatedList1_intercalate {s : τ}
    (hP : ∀ b ∈ a :: l, ∀ r, (∀ c ∈ r.head?, c = s) → P (print b ++ r) = .ok (r, b)) :
    separatedList1 (item s) P (print a ++ l.flatMap fun b => s :: print b) = .ok ([], a :: l) := by
  have hhead : ∀ c ∈ (l.flatMap fun a => s :: print a).head?, c = s := by
    cases l with
    | nil | cons => simp
  rw [separatedList1, hP a mem_cons_self _ hhead]
  exact separatedLoop_intercalate (fun b hb => hP b (mem_cons_of_mem a hb))
    (lt_succ_self _)

end ReadBack

/-! ### What is accepted -/

theorem takeTill_ok (h : takeTill p i = .ok (r, v)) : i = v ++ r ∧ ∀ c ∈ v, p c = false := by
  cases h
  refine ⟨takeWhile_append_dropWhile.symm, fun c hc => ?_⟩
  simpa using mem_takeWhile_imp hc

theorem takeTill1_ok (h : takeTill1 p i = .ok (r, v)) : v ≠ [] ∧ ∀ c ∈ v, p c = false := by
  unfold takeTill1 at h
  split at h
  · simp at h
  · next hne =>
    refine ⟨?_, (takeTill_ok h).2⟩
    cases h
    simpa using hne

theorem opt_ok {o : Option α} (h : opt P i = .ok (r, o)) :
    o = none ∨ ∃ a, o = some a ∧ P i = .ok (r, a) := by
  unfold opt at h
  split at h
  · next rest a hP =>
    cases h
    exact .inr ⟨a, rfl, hP⟩
  · cases h
    exact .inl rfl

theorem alt_ok {P Q : Parser τ α} {a : α} (h : alt P Q i = .ok (r, a)) :
    P i = .ok (r, a) ∨ Q i = .ok (r, a) := by
  unfold alt at h
  split at h
  · next hP => exact .inl (hP.trans h)
  · exact .inr h

theorem preceded_ok {b : β}
    (h : preceded P Q i = .ok (r, b)) : ∃ i', Q i' = .ok (r, b) := by
  obtain ⟨⟨i', a⟩, -, hQ⟩ := bind_ok.mp h
  exact ⟨i', hQ⟩

theorem delimited_ok {R : Parser τ γ} {b : β}
    (h : delimited P Q R i = .ok (r, b)) : ∃ i' r', Q i' = .ok (r', b) := by
  obtain ⟨⟨i', a⟩, -, h⟩ := bind_ok.mp h
  obtain ⟨⟨r', b'⟩, hQ, h⟩ := bind_ok.mp h
  obtain ⟨⟨r'', c⟩, -, h⟩ := bind_ok.mp h
  cases h
  exact ⟨i', r', hQ⟩

theorem allConsuming_ok {a : α} (h : allConsuming P i = .ok (r, a)) :
    P i = .ok ([], a) := by
  obtain ⟨⟨rest, a'⟩, hP, h⟩ := bind_ok.mp h
  dsimp only at h
  split at h
  · next hnil =>
    cases h
    rw [hP, isEmpty_iff.mp hnil]
  · simp at h

/-- Every item of a separated list was read by the parser of the items. -/
theorem separatedLoop_ok {n : ℕ} {acc l : List α}
    (h : separatedLoop sep P n acc i = .ok (r, l)) :
    ∀ a ∈ l, a ∈ acc ∨ ∃ i r, P i = .ok (r, a) := by
  induction n generalizing acc i with
  | zero =>
    cases h
    exact fun a ha => .inl ha
  | succ n ih =>
    rw [separatedLoop] at h
    split at h
    · cases h
      exact fun a ha => .inl ha
    · next i₁ s hs =>
      split at h
      · cases h
        exact fun a ha => .inl ha
      · next i₂ a hP =>
        split at h
        · simp at h
        · intro b hb
          rcases ih h b hb with hb | hb
          · rcases mem_append.mp hb with hb | hb
            · exact .inl hb
            · obtain rfl := mem_singleton.mp hb
              exact .inr ⟨i₁, i₂, hP⟩
          · exact .inr hb

theorem separatedList1_ok {l : List α}
    (h : separatedList1 sep P i = .ok (r, l)) : ∀ a ∈ l, ∃ i r, P i = .ok (r, a) := by
  obtain ⟨⟨i', a⟩, hP, h⟩ := bind_ok.mp h
  intro b hb
  rcases separatedLoop_ok h b hb with hb | hb
  · obtain rfl := mem_singleton.mp hb
    exact ⟨i, i', hP⟩
  · exact hb

end Parser

end Heph
