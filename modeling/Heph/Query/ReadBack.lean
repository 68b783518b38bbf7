import Heph.Query.Flatten

/-!
# Reading what was printed

The printed form of a flat matcher is cut into the tokens that one expects
(`Query.toksPrec`), and these are read by the parser at the level of the operator that
they are an operand of. So **reading the text of a matcher is reading the texts of its
atoms** (`Query.parse_format`): the operators, the parentheses, the quoting and the
limit on the nesting are all in order, and whatever goes wrong goes wrong within an atom.
-/

namespace Heph.Query

open List Nat

/-! ### Tokens -/

/-- The tokens of an argument. -/
def argToks (arg : Text) : List Tok :=
  if arg.isEmpty then [] else if isBareWord arg then [.word arg] else [.str arg]

/-- The tokens of a call. -/
def callToks (func arg : Text) : List Tok := .word func :: .lparen :: (argToks arg ++ [.rparen])

/-- The tokens of a pattern, which may have become a call. -/
def patternToks (bare func arg : Text) : List Tok :=
  if isBareWord bare then [.word bare] else callToks func arg

/-- The tokens of an atom. -/
def toksAtom : Atom → List Tok
  | .addr a => patternToks a.format "addr".toList a.format
  | .package p => patternToks ("//".toList ++ p) "package".toList p
  | .packagePrefix p => patternToks (prefixPattern p) "package_prefix".toList p
  | .label l => callToks "label".toList l
  | .driver d => callToks driverFn d
  | .treeOutputTo p => callToks "tree_output".toList p

/-- The tokens of the parentheses. -/
def parenToks (m : Matcher) (parentPrec : ℕ) (toks : List Tok) : List Tok :=
  if prec m < parentPrec then .lparen :: (toks ++ [.rparen]) else toks

mutual

/-- The tokens of what `fmtBody` prints. -/
def toksBody : Matcher → List Tok
  | .atom a => toksAtom a
  | .and ms => [Tok.and].intercalate (toksAll 2 ms)
  | .or ms => [Tok.or].intercalate (toksAll 1 ms)
  | .not m => .not :: parenToks m 3 (toksBody m)

/-- The tokens of the operands. -/
def toksAll (childPrec : ℕ) : List Matcher → List (List Tok)
  | [] => []
  | m :: ms => parenToks m childPrec (toksBody m) :: toksAll childPrec ms

end

/-- The tokens of what `fmtPrec` prints. -/
def toksPrec (m : Matcher) (parentPrec : ℕ) : List Tok := parenToks m parentPrec (toksBody m)

theorem toksAll_eq (k : ℕ) (ms : List Matcher) : toksAll k ms = ms.map fun m => toksPrec m k := by
  induction ms with
  | nil => rfl
  | cons m ms ih => rw [toksAll, ih, map_cons, toksPrec]

/-! ### The text is cut into the tokens -/

variable {tokens : List Tok} {rest : Text} {m : Matcher} {func : Text} {ms : List Matcher}

/-- A text that a word before it ends at. -/
def Ends (rest : Text) : Prop := ∀ c ∈ rest.head?, isWordBreak c = true

theorem lexes_arg (arg : Text) (h : argumentDue tokens = true) :
    Lexes tokens (fmtArg arg ++ ')' :: rest) (tokens ++ argToks arg) (')' :: rest) := by
  unfold fmtArg argToks
  cases harg : arg.isEmpty with
  | true =>
    rw [isEmpty_iff.mp harg]
    simpa using Lexes.refl tokens (')' :: rest)
  | false =>
    cases hbare : isBareWord arg with
    | true => exact lexes_word hbare (by simp [isWordBreak])
    | false => exact lexes_str h

/-- **A call is cut into its tokens.** -/
theorem lexes_call (hfunc : isBareWord func = true) (arg : Text) :
    Lexes tokens (fmtCall func arg ++ rest) (tokens ++ callToks func arg) rest := by
  have htext : fmtCall func arg ++ rest = func ++ '(' :: (fmtArg arg ++ ')' :: rest) := by
    simp [fmtCall]
  have htoks : tokens ++ callToks func arg =
      tokens ++ [.word func] ++ [.lparen] ++ argToks arg ++ [.rparen] := by
    simp [callToks]
  rw [htext, htoks]
  refine (lexes_word hfunc (by simp [isWordBreak])).trans (lexes_lparen.trans ?_)
  exact (lexes_arg arg (by simp [argumentDue])).trans lexes_rparen

theorem lexes_pattern (hfunc : isBareWord func = true) (bare arg : Text)
    (hrest : Ends rest) :
    Lexes tokens (fmtPattern bare func arg ++ rest) (tokens ++ patternToks bare func arg) rest := by
  unfold fmtPattern patternToks
  cases hbare : isBareWord bare with
  | true => exact lexes_word hbare hrest
  | false => exact lexes_call hfunc arg

theorem lexes_atom (a : Atom) (hrest : Ends rest) :
    Lexes tokens (fmtAtom a ++ rest) (tokens ++ toksAtom a) rest := by
  cases a with
  | addr | package | packagePrefix => exact lexes_pattern (by decide) _ _ hrest
  | label | driver | treeOutputTo => exact lexes_call (by decide) _

/-- The printed form of a matcher, between its parentheses, is cut into its tokens. -/
def LexesBody (m : Matcher) : Prop :=
  ∀ (tokens : List Tok) (rest : Text), Ends rest →
    Lexes tokens (fmtBody m ++ rest) (tokens ++ toksBody m) rest

theorem LexesBody.prec (h : LexesBody m) (k : ℕ) (hrest : Ends rest) :
    Lexes tokens (fmtPrec m k ++ rest) (tokens ++ toksPrec m k) rest := by
  unfold fmtPrec toksPrec paren parenToks
  split
  · have hclose : Ends (')' :: rest) := by simp [Ends, isWordBreak]
    have htoks : tokens ++ .lparen :: (toksBody m ++ [.rparen]) =
        tokens ++ [.lparen] ++ toksBody m ++ [.rparen] := by simp
    rw [cons_append, append_assoc, htoks]
    exact lexes_lparen.trans ((h _ _ hclose).trans lexes_rparen)
  · exact h _ _ hrest

/-- An operand ends where the operator after it begins. -/
theorem ends_operands (op : Op) (ms : List Matcher) (hrest : Ends rest) :
    Ends ((ms.flatMap fun m => op.sep ++ fmtPrec m op.prec) ++ rest) := by
  cases ms with
  | nil => exact hrest
  | cons m ms => cases op <;> simp [Ends, Op.sep, isWordBreak, isWhitespace]

/-- The operands of a chain, with the operators that precede them. -/
theorem lexes_operands (op : Op) (h : ∀ m ∈ ms, LexesBody m)
    (hrest : Ends rest) :
    Lexes tokens ((ms.flatMap fun m => op.sep ++ fmtPrec m op.prec) ++ rest)
      (tokens ++ ms.flatMap fun m => op.tok :: toksPrec m op.prec) rest := by
  have hop : ∀ (tokens : List Tok) (rest : Text),
      Lexes tokens (op.sep ++ rest) (tokens ++ [op.tok]) rest := by
    cases op
    · exact fun _ _ => lexes_or
    · exact fun _ _ => lexes_and
  induction ms generalizing tokens with
  | nil => simpa using Lexes.refl tokens rest
  | cons m ms ih =>
    have htoks : (tokens ++ (m :: ms).flatMap fun m => op.tok :: toksPrec m op.prec) =
        tokens ++ [op.tok] ++ toksPrec m op.prec ++
          ms.flatMap fun m => op.tok :: toksPrec m op.prec := by
      simp
    rw [flatMap_cons, append_assoc, append_assoc, htoks]
    refine (hop _ _).trans (((h m mem_cons_self).prec _ (ends_operands op ms hrest)).trans ?_)
    exact ih fun m hm => h m (mem_cons_of_mem _ hm)

theorem lexes_join (op : Op) (h : ∀ m ∈ ms, LexesBody m) (hrest : Ends rest) :
    Lexes tokens (fmtJoin op.sep op.prec ms ++ rest)
      (tokens ++ [op.tok].intercalate (toksAll op.prec ms)) rest := by
  rw [fmtJoin_eq, toksAll_eq]
  cases ms with
  | nil => simpa using Lexes.refl tokens rest
  | cons m ms =>
    rw [map_cons, map_cons, intercalate_cons, intercalate_cons, flatMap_map,
      flatMap_map, append_assoc, ← append_assoc tokens]
    refine ((h m mem_cons_self).prec _ (ends_operands op ms hrest)).trans ?_
    exact lexes_operands op (fun m hm => h m (mem_cons_of_mem _ hm)) hrest

/-- **A printed matcher is cut into its tokens.** -/
theorem lexesBody (m : Matcher) : LexesBody m := by
  induction m with
  | atom a => exact fun _ _ hrest => lexes_atom a hrest
  | or ms ih => exact fun _ _ hrest => lexes_join .or ih hrest
  | and ms ih => exact fun _ _ hrest => lexes_join .and ih hrest
  | not m ih =>
    intro tokens rest hrest
    have htoks : tokens ++ toksBody (.not m) = tokens ++ [.not] ++ toksPrec m 3 := by
      simp [toksBody, toksPrec]
    rw [htoks]
    exact lexes_not.trans (ih.prec 3 hrest)

theorem tokenize_fmtPrec (m : Matcher) (k : ℕ) : tokenize (fmtPrec m k) = .ok (toksPrec m k) := by
  have h : Lexes [] (fmtPrec m k ++ []) ([] ++ toksPrec m k) [] :=
    (lexesBody m).prec k (by simp [Ends])
  rw [append_nil] at h
  exact h.tokenize

/-! ### The atoms, read again -/

variable (base : PkgBuf)

/-- What a printed call is read as. -/
def rereadCall (func arg : Text) : Except QueryError Atom :=
  callToMatcher base func (if arg.isEmpty then none else some arg)

/-- What a printed pattern is read as. -/
def rereadPattern (bare func arg : Text) : Except QueryError Atom :=
  if isBareWord bare then patternToMatcher base bare else rereadCall base func arg

/-- What a printed atom is read as. -/
def rereadAtom : Atom → Except QueryError Atom
  | .addr a => rereadPattern base a.format "addr".toList a.format
  | .package p => rereadPattern base ("//".toList ++ p) "package".toList p
  | .packagePrefix p => rereadPattern base (prefixPattern p) "package_prefix".toList p
  | .label l => rereadCall base "label".toList l
  | .driver d => rereadCall base driverFn d
  | .treeOutputTo p => rereadCall base "tree_output".toList p

mutual

/-- A matcher with its atoms replaced, unless that fails for one of them. -/
def mapAtoms {ε : Type} (f : Atom → Except ε Atom) : Matcher → Except ε Matcher
  | .atom a => (f a).map .atom
  | .or ms => (mapAll f ms).map .or
  | .and ms => (mapAll f ms).map .and
  | .not m => (mapAtoms f m).map .not

/-- Several matchers with their atoms replaced. -/
def mapAll {ε : Type} (f : Atom → Except ε Atom) : List Matcher → Except ε (List Matcher)
  | [] => .ok []
  | m :: ms => do
    let m' ← mapAtoms f m
    let ms' ← mapAll f ms
    return m' :: ms'

end

/-! ### The tokens are read -/

section Parsing

variable {base : PkgBuf} {n : ℕ} {toks rest bad : List Tok} {sep : Tok}
  {mk : List Matcher → Matcher} {P : Reader Matcher} {f : Matcher → List Tok}
  {g : Atom → Except QueryError Atom}

/-- What comes next is none of these tokens. -/
def Follow (bad rest : List Tok) : Prop := ∀ t ∈ rest.head?, t ∉ bad

theorem Follow.mono {bad bad' : List Tok} (h : Follow bad rest) (hsub : bad' ⊆ bad) :
    Follow bad' rest :=
  fun t ht hbad => h t ht (hsub hbad)

theorem Follow.head?_ne {t : Tok} (h : Follow bad rest) (ht : t ∈ bad) :
    rest.head? ≠ some t :=
  fun hhead => h t hhead ht

variable (P : Reader Matcher)

/-- **The tokens of a call are read as the call.** -/
theorem parseAtom_call (func arg : Text) :
    parseAtom base P (callToks func arg ++ rest) =
      (rereadCall base func arg).map fun a => (rest, .atom a) := by
  have harg : parseArg func (argToks arg ++ .rparen :: rest) =
      .ok (.rparen :: rest, if arg.isEmpty then none else some arg) := by
    unfold argToks
    cases harg : arg.isEmpty with
    | true => rfl
    | false => cases hbare : isBareWord arg <;> rfl
  have htoks :
      callToks func arg ++ rest = .word func :: .lparen :: (argToks arg ++ .rparen :: rest) := by
    simp [callToks]
  rw [htoks, parseAtom, tail_cons, harg]
  show (do
    let a ← callToMatcher base func (if arg.isEmpty then none else some arg)
    return (rest, Matcher.atom a)) = _
  unfold rereadCall
  cases callToMatcher base func (if arg.isEmpty then none else some arg) <;> rfl

theorem parseAtom_pattern (bare func arg : Text)
    (hrest : Follow [.lparen] rest) :
    parseAtom base P (patternToks bare func arg ++ rest) =
      (rereadPattern base bare func arg).map fun a => (rest, .atom a) := by
  unfold patternToks rereadPattern
  split
  · rw [singleton_append, parseAtom, if_neg (hrest.head?_ne mem_cons_self)]
    cases patternToMatcher base bare <;> rfl
  · exact parseAtom_call P func arg

/-- **The tokens of an atom are read as the atom is.** -/
theorem parseAtom_atom (a : Atom) (hrest : Follow [.lparen] rest) :
    parseAtom base P (toksAtom a ++ rest) = (rereadAtom base a).map fun a => (rest, .atom a) := by
  cases a with
  | addr | package | packagePrefix => exact parseAtom_pattern P _ _ _ hrest
  | label | driver | treeOutputTo => exact parseAtom_call P _ _

variable {P}

/-- One operand is a chain, if no operator follows it. -/
theorem parseChain_single {x : Except QueryError Matcher} (h : P toks = x.map (Prod.mk rest))
    (hrest : rest.head? ≠ some sep) : parseChain sep mk P toks = x.map (Prod.mk rest) := by
  rw [parseChain, h]
  cases x with
  | error e => rfl
  | ok m => exact if_neg hrest

/-- What follows an operand: the next operator, or what follows the chain. -/
theorem follow_operands (hsep : sep ∉ bad)
    (hrest : Follow bad rest) (ms : List Matcher) :
    Follow bad ((ms.flatMap fun m => sep :: f m) ++ rest) := by
  cases ms with
  | nil => exact hrest
  | cons m ms =>
    intro t ht
    obtain rfl : sep = t := by simpa using ht
    exact hsep

section

variable (hP : ∀ m ∈ ms, ∀ r, Follow bad r → P (f m ++ r) = (mapAtoms g m).map (Prod.mk r))

include hP

/-- **The loop reads its operands**, if the parser of the operands does. -/
theorem parseLoop_operands {acc : List Matcher}
    (hsep : sep ∉ bad) (hbad : Follow bad rest) (hrest : rest.head? ≠ some sep)
    (hn : ((ms.flatMap fun m => sep :: f m) ++ rest).length ≤ n) :
    parseLoop sep P n acc ((ms.flatMap fun m => sep :: f m) ++ rest) =
      (mapAll g ms).map fun l => (rest, acc ++ l) := by
  induction ms generalizing n acc with
  | nil =>
    rw [flatMap_nil, nil_append, mapAll]
    cases n with
    | zero => rw [parseLoop, Except.map, append_nil]
    | succ n => rw [parseLoop, if_neg hrest, Except.map, append_nil]
  | cons m ms ih =>
    rw [flatMap_cons, append_assoc, cons_append] at hn ⊢
    obtain ⟨n, rfl⟩ := exists_eq_add_one_of_ne_zero (n := n) (by
      rintro rfl
      simp at hn)
    rw [parseLoop, if_pos head?_cons, tail_cons, hP m mem_cons_self _
      (follow_operands hsep hbad ms), mapAll]
    cases mapAtoms g m with
    | error e => rfl
    | ok m' =>
      have hrec : parseLoop sep P n (acc ++ [m']) ((ms.flatMap fun m => sep :: f m) ++ rest) =
          (mapAll g ms).map fun l => (rest, acc ++ [m'] ++ l) :=
        ih (fun m hm => hP m (mem_cons_of_mem _ hm)) (by
          rw [length_cons, length_append] at hn
          omega)
      refine Eq.trans hrec ?_
      cases mapAll g ms with
      | error e => rfl
      | ok l =>
        rw [Except.map, append_assoc]
        rfl

/-- **A chain reads its operands.** -/
theorem parseChain_operands
    (hsep : sep ∉ bad) (hbad : Follow bad rest) (hrest : rest.head? ≠ some sep)
    (hlen : 2 ≤ ms.length) :
    parseChain sep mk P ([sep].intercalate (ms.map f) ++ rest) =
      ((mapAll g ms).map mk).map (Prod.mk rest) := by
  obtain ⟨m, m', ms, rfl⟩ : ∃ m m' l, ms = m :: m' :: l := by
    match ms, hlen with
    | m :: m' :: l, _ => exact ⟨m, m', l, rfl⟩
  rw [map_cons, intercalate_cons, flatMap_map, append_assoc, parseChain]
  simp only [singleton_append]
  rw [hP m mem_cons_self _ (follow_operands hsep hbad (m' :: ms)), mapAll]
  cases mapAtoms g m with
  | error e => rfl
  | ok m₀ =>
    have hloop : parseLoop sep P _ [m₀] _ = _ := parseLoop_operands
      (fun m hm => hP m (mem_cons_of_mem _ hm)) hsep hbad hrest le_rfl
    refine (if_pos (by simp)).trans ?_
    rw [hloop]
    cases mapAll g (m' :: ms) <;> rfl

end

/-- **How the tokens of a matcher are read** at the three levels of the parser: by the atoms
they have, if the levels suffice and nothing follows that would be taken along. -/
structure Reads (base : PkgBuf) (m : Matcher) : Prop where
  not : ∀ (n : ℕ) (rest : List Tok), levels m 3 ≤ n → Follow [.lparen] rest →
    parseNot base n (toksPrec m 3 ++ rest) = (mapAtoms (rereadAtom base) m).map (Prod.mk rest)
  and : ∀ (n : ℕ) (rest : List Tok), levels m 2 ≤ n → Follow [.and, .lparen] rest →
    parseAnd (parseNot base n) (toksPrec m 2 ++ rest) =
      (mapAtoms (rereadAtom base) m).map (Prod.mk rest)
  or : ∀ (n : ℕ) (rest : List Tok), levels m 1 ≤ n → Follow [.or, .and, .lparen] rest →
    parseOr (parseNot base n) (toksPrec m 1 ++ rest) =
      (mapAtoms (rereadAtom base) m).map (Prod.mk rest)

/-- Parentheses that two precedences agree on. -/
theorem paren_congr {k l : ℕ} (h : prec m < k ↔ prec m < l) :
    toksPrec m k = toksPrec m l ∧ levels m k = levels m l := by
  simp only [toksPrec, parenToks, levels, parenLevels, h, and_self]

theorem prec_cases (m : Matcher) : prec m = 1 ∨ prec m = 2 ∨ prec m = 3 := by
  cases m <;> simp [prec]

/-- How the tokens of a matcher are read at one level of the parser. -/
def ReadsAt (base : PkgBuf) (m : Matcher) (k : ℕ) (bad : List Tok) (P : ℕ → Reader Matcher) :
    Prop :=
  ∀ (n : ℕ) (rest : List Tok), levels m k ≤ n → Follow bad rest →
    P n (toksPrec m k ++ rest) = (mapAtoms (rereadAtom base) m).map (Prod.mk rest)

section Levels

variable {k : ℕ} {P : ℕ → Reader Matcher}

/-- What is read below an operator is read as an operand of it. -/
theorem ReadsAt.chain (h : ReadsAt base m (k + 1) bad P) (hprec : prec m ≠ k) :
    ReadsAt base m k (sep :: bad) fun n => parseChain sep mk (P n) := by
  intro n rest hn hrest
  obtain ⟨htoks, hlev⟩ : toksPrec m k = toksPrec m (k + 1) ∧ levels m k = levels m (k + 1) :=
    paren_congr (by omega)
  rw [htoks]
  exact parseChain_single (h n rest (hlev ▸ hn) (hrest.mono (subset_cons_self _ _)))
    (hrest.head?_ne mem_cons_self)

/-- The operands of a chain are read one level down. -/
theorem readsAt_operands (hlen : 2 ≤ ms.length) (h : ∀ m ∈ ms, ReadsAt base m (k + 1) bad P)
    (hprec : ∀ m ∈ ms, prec m ≠ k) (hsep : sep ∉ bad) (hn : maxLevels k ms ≤ n)
    (hrest : Follow (sep :: bad) rest) :
    parseChain sep mk (P n) ([sep].intercalate (toksAll k ms) ++ rest) =
      ((mapAll (rereadAtom base) ms).map mk).map (Prod.mk rest) := by
  rw [toksAll_eq]
  refine parseChain_operands (fun m hm r hr => ?_) hsep
    (hrest.mono (subset_cons_self _ _)) (hrest.head?_ne mem_cons_self) hlen
  obtain ⟨htoks, hlev⟩ : toksPrec m k = toksPrec m (k + 1) ∧ levels m k = levels m (k + 1) :=
    paren_congr (by have := hprec m hm; omega)
  rw [htoks]
  exact h m hm n r (hlev ▸ maxLevels_le.mp hn m hm) hr

end Levels

/-- A chain in parentheses is read one level down. -/
theorem not_of_or (hprec : prec m < 3)
    (h : ReadsAt base m 1 [.or, .and, .lparen] fun n => parseOr (parseNot base n)) :
    ReadsAt base m 3 [.lparen] (parseNot base) := by
  intro n rest hn _
  have hone : ¬ prec m < 1 := by have := prec_cases m; omega
  rw [levels, parenLevels, if_pos hprec] at hn
  obtain ⟨n, rfl⟩ := exists_eq_add_one_of_ne_zero
    (ne_of_gt (lt_of_lt_of_le (succ_pos _) hn))
  have hread : parseOr (parseNot base n) _ = _ := h n (.rparen :: rest)
    (by rw [levels, parenLevels, if_neg hone]; exact le_of_succ_le_succ hn) (by simp [Follow])
  rw [toksPrec, parenToks, if_neg hone] at hread
  rw [toksPrec, parenToks, if_pos hprec, cons_append, append_assoc, parseNot,
    if_neg (by simp), parseAtom, singleton_append, hread]
  cases mapAtoms (rereadAtom base) m <;> rfl

/-- What is read without an operator is read at all levels. -/
theorem reads_of_not (hprec : prec m = 3) (h : ReadsAt base m 3 [.lparen] (parseNot base)) :
    Reads base m := by
  have hand : ReadsAt base m 2 [.and, .lparen] fun n => parseAnd (parseNot base n) :=
    h.chain (by omega)
  exact ⟨h, hand, hand.chain (by omega)⟩

theorem reads_atom (a : Atom) : Reads base (.atom a) := by
  refine reads_of_not rfl fun n rest hn hrest => ?_
  obtain ⟨n, rfl⟩ := exists_eq_add_one_of_ne_zero (ne_of_gt hn)
  have hhead : (toksAtom a ++ rest).head? ≠ some .not := by
    cases a <;> simp only [toksAtom, patternToks, callToks] <;> (try split) <;> simp
  show parseNot base (n + 1) (toksAtom a ++ rest) = _
  rw [parseNot, if_neg hhead, parseAtom_atom _ a hrest, mapAtoms]
  cases rereadAtom base a <;> rfl

theorem reads_not (h : Reads base m) : Reads base (.not m) := by
  refine reads_of_not rfl fun n rest hn hrest => ?_
  obtain ⟨n, rfl⟩ := exists_eq_add_one_of_ne_zero
    (ne_of_gt (lt_of_lt_of_le (succ_pos _) hn))
  have hread := h.not n rest (le_of_succ_le_succ hn) hrest
  show parseNot base (n + 1) (.not :: (toksPrec m 3 ++ rest)) = _
  rw [parseNot, tail_cons, hread, mapAtoms]
  cases mapAtoms (rereadAtom base) m <;> rfl

theorem reads_and (hlen : 2 ≤ ms.length) (h : ∀ m ∈ ms, Reads base m)
    (hprec : ∀ m ∈ ms, prec m ≠ 2) : Reads base (.and ms) := by
  have hand : ReadsAt base (.and ms) 2 [.and, .lparen] fun n => parseAnd (parseNot base n) :=
    fun n rest hn hrest =>
      (readsAt_operands hlen (fun m hm => (h m hm).not) hprec (by simp) hn hrest).trans
        (by rw [mapAtoms])
  have hor : ReadsAt base (.and ms) 1 [.or, .and, .lparen] fun n => parseOr (parseNot base n) :=
    hand.chain (by simp [prec])
  exact ⟨not_of_or (by simp [prec]) hor, hand, hor⟩

theorem reads_or (hlen : 2 ≤ ms.length) (h : ∀ m ∈ ms, Reads base m)
    (hprec : ∀ m ∈ ms, prec m ≠ 1) : Reads base (.or ms) := by
  have hor : ReadsAt base (.or ms) 1 [.or, .and, .lparen] fun n => parseOr (parseNot base n) :=
    fun n rest hn hrest =>
      (readsAt_operands hlen (fun m hm => (h m hm).and) hprec (by simp) hn hrest).trans
        (by rw [mapAtoms])
  have hnot := not_of_or (by simp [prec]) hor
  exact ⟨hnot, hnot.chain (by simp [prec]), hor⟩

/-- **The tokens of a flat matcher are read** by its atoms. -/
theorem reads (h : Flat m) : Reads base m := by
  induction h with
  | atom a => exact reads_atom a
  | or hlen _ hprec ih => exact reads_or hlen ih hprec
  | and hlen _ hprec ih => exact reads_and hlen ih hprec
  | not _ ih => exact reads_not ih

end Parsing

/-- **Reading the text of a matcher is reading the texts of its atoms**, if the matcher is
legible and not nested too deeply. -/
theorem parse_format {m : Matcher} (h : Legible m) (hlev : levels m 1 ≤ maxNestingDepth)
    (base : PkgBuf) : parse (format m) base = mapAtoms (rereadAtom base) (flat m) := by
  have hprec : ∀ k ≤ 1, prec (flat m) < k ↔ prec (flat m) < 0 := by
    have := prec_cases (flat m)
    omega
  have htext : format m = fmtPrec (flat m) 0 := by
    rw [format, fmtPrec, fmtPrec, paren, paren, prec_flat, fmtBody_flat h]
  have hreads : Reads base (flat m) := reads (flat_flat h)
  have hread := hreads.or maxNestingDepth [] ((levels_flat m 1).trans hlev) (by simp [Follow])
  rw [append_nil, (paren_congr (hprec 1 le_rfl)).1] at hread
  rw [parse, htext, tokenize_fmtPrec]
  simp only [hread]
  cases mapAtoms (rereadAtom base) (flat m) <;> rfl

end Heph.Query
