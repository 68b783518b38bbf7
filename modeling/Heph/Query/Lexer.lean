import Heph.Lib.Combinator
import Heph.Addr.Addr

/-!
# The words of a query

A query is cut into operators, parentheses, bare words and quoted strings. What a quote
opens depends on where it stands: a string literal with escapes where a function's argument
is due, and a plain word without escapes elsewhere.

The lexer is one loop (`Query.tokenizeLoop`), and `Query.Lexes` says of a stretch
of text that its iterations go through it and append some tokens. The rules for it say that
what the formatter prints is cut into the tokens it means: a bare word before a character
that ends it, and a quoted string in the place of an argument.
-/

namespace Heph.Query

open List Nat Bool

/-! ### Characters -/

/-- `char::is_whitespace`: the Unicode property `White_Space`. -/
def isWhitespace (c : Char) : Bool :=
  (9 ≤ c.toNat && c.toNat ≤ 13) || c.toNat == 0x20 || c.toNat == 0x85 || c.toNat == 0xa0 ||
    c.toNat == 0x1680 || (0x2000 ≤ c.toNat && c.toNat ≤ 0x200a) || c.toNat == 0x2028 ||
    c.toNat == 0x2029 || c.toNat == 0x202f || c.toNat == 0x205f || c.toNat == 0x3000

/-- `char::is_control`: the Unicode category `Cc`. -/
def isControl (c : Char) : Bool := c.toNat < 0x20 || (0x7f ≤ c.toNat && c.toNat < 0xa0)

/-- `is_word_break`. -/
def isWordBreak (c : Char) : Bool :=
  isWhitespace c || c == '(' || c == ')' || c == '&' || c == '|' || c == '!' || c == '"'

/-- `is_bare_word`. -/
def isBareWord (s : Text) : Bool := !s.isEmpty && s.all fun c => !isWordBreak c && !isControl c

/-- The value of a hexadecimal digit, of either case. -/
def hexValue (c : Char) : Option ℕ :=
  if '0' ≤ c ∧ c ≤ '9' then some (c.toNat - '0'.toNat)
  else if 'a' ≤ c ∧ c ≤ 'f' then some (c.toNat - 'a'.toNat + 10)
  else if 'A' ≤ c ∧ c ≤ 'F' then some (c.toNat - 'A'.toNat + 10)
  else none

/-- `u32::from_str_radix(hex, 16)`, for at most six digits. -/
def fromHex (hex : Text) : Option ℕ :=
  if hex.isEmpty then none
  else hex.foldl (fun acc c => do return (← acc) * 16 + (← hexValue c)) (some 0)

/-- `char::from_u32`. -/
def charFromU32 (n : ℕ) : Option Char := if n.isValidChar then some (Char.ofNat n) else none

/-! ### String literals -/

/-- `quote_string`, one character at a time. -/
def quoteChar (c : Char) : Text :=
  if c = '\\' then ['\\', '\\']
  else if c = '"' then ['\\', '"']
  else if c = '\n' then ['\\', 'n']
  else if c = '\r' then ['\\', 'r']
  else if c = '\t' then ['\\', 't']
  else if isControl c then '\\' :: 'u' :: '\x7b' :: (Nat.toDigits 16 c.toNat ++ ['\x7d'])
  else [c]

/-- `quote_string`. -/
def quoteString (s : Text) : Text := '"' :: (s.flatMap quoteChar ++ ['"'])

/-- The errors of `tokenize`. -/
inductive TokenError where
  /-- The text has one ampersand where it needs two. -/
  | singleAmpersand
  /-- The text has one bar where it needs two. -/
  | singleBar
  /-- `unterminated quoted string in query`. -/
  | unterminatedWord
  /-- `unterminated string literal in query`. -/
  | unterminatedLiteral
  /-- An opening brace is expected after the `u` of an escape. -/
  | missingBrace
  /-- `malformed … escape in string literal`. -/
  | malformedEscape
  /-- The escape is not a character. -/
  | notACharacter (hex : Text)
  /-- `unknown escape … in string literal`. -/
  | unknownEscape (c : Char)
  deriving DecidableEq, Repr

/-- The digits of an escape, up to the closing brace. -/
def unescapeHex (hex : Text) : Text → Except TokenError (Text × Text)
  | [] => .error .malformedEscape
  | c :: rest =>
    if c = '\x7d' then .ok (rest, hex)
    else if (hexValue c).isSome ∧ hex.length < 6 then unescapeHex (hex ++ [c]) rest
    else .error .malformedEscape

/-- What follows a backslash: the rest of the input and the character that is meant. -/
def unescapeChar : Text → Except TokenError (Text × Char)
  | [] => .error .unterminatedLiteral
  | c :: rest =>
    if c = '\\' then .ok (rest, '\\')
    else if c = '"' then .ok (rest, '"')
    else if c = 'n' then .ok (rest, '\n')
    else if c = 'r' then .ok (rest, '\r')
    else if c = 't' then .ok (rest, '\t')
    else if c = 'u' then
      match rest with
      | [] => .error .missingBrace
      | b :: rest =>
        if b = '\x7b' then do
          let (rest, hex) ← unescapeHex [] rest
          match (fromHex hex).bind charFromU32 with
          | some c => return (rest, c)
          | none => .error (.notACharacter hex)
        else .error .missingBrace
    else .error (.unknownEscape c)

/-- The loop of `unescape_string`. Every iteration consumes a character, so the length of
the input bounds their number. -/
def unescapeLoop : ℕ → Text → Text → Except TokenError (Text × Text)
  | 0, _, _ => .error .unterminatedLiteral
  | _ + 1, _, [] => .error .unterminatedLiteral
  | n + 1, s, c :: rest =>
    if c = '"' then .ok (rest, s)
    else if c = '\\' then do
      let (rest, c) ← unescapeChar rest
      unescapeLoop n (s ++ [c]) rest
    else unescapeLoop n (s ++ [c]) rest

/-- `unescape_string`: the rest of the input and the literal, after the opening quote. -/
def unescapeString (input : Text) : Except TokenError (Text × Text) :=
  unescapeLoop input.length [] input

/-! ### Tokens -/

/-- `Tok`. -/
inductive Tok where
  | and
  | or
  | not
  | lparen
  | rparen
  /-- A pattern or the name of a function. -/
  | word (w : Text)
  /-- A string literal with its escapes resolved. -/
  | str (s : Text)
  deriving DecidableEq, Repr

/-- `Tok::describe`. -/
def Tok.describe : Tok → Text
  | and => ['&', '&']
  | or => ['|', '|']
  | not => ['!']
  | lparen => ['(']
  | rparen => [')']
  | word w => w
  | str s => quoteString s

/-- `matches!(tokens.as_slice(), [.., Tok::Word(_), Tok::LParen])`. -/
def argumentDue (tokens : List Tok) : Bool :=
  match tokens.reverse with
  | .lparen :: .word _ :: _ => true
  | _ => false

/-- One iteration of the loop of `tokenize`. -/
def next (tokens : List Tok) : Text → Except TokenError (List Tok × Text)
  | [] => .ok (tokens, [])
  | c :: rest =>
    if isWhitespace c then .ok (tokens, rest)
    else if c = '(' then .ok (tokens ++ [.lparen], rest)
    else if c = ')' then .ok (tokens ++ [.rparen], rest)
    else if c = '!' then .ok (tokens ++ [.not], rest)
    else if c = '&' then
      if rest.head? = some '&' then .ok (tokens ++ [.and], rest.tail)
      else .error .singleAmpersand
    else if c = '|' then
      if rest.head? = some '|' then .ok (tokens ++ [.or], rest.tail) else .error .singleBar
    else if c = '"' then
      if argumentDue tokens then do
        let (rest, s) ← unescapeString rest
        return (tokens ++ [.str s], rest)
      else if '"' ∈ rest then
        .ok (tokens ++ [.word (rest.takeWhile (· != '"'))], (rest.dropWhile (· != '"')).tail)
      else .error .unterminatedWord
    else
      .ok (tokens ++ [.word ((c :: rest).takeWhile fun c => !isWordBreak c)],
        (c :: rest).dropWhile fun c => !isWordBreak c)

/-- The loop of `tokenize`. Every iteration consumes a character, so the length of the input
bounds their number. -/
def tokenizeLoop : ℕ → List Tok → Text → Except TokenError (List Tok)
  | 0, tokens, _ => .ok tokens
  | n + 1, tokens, input =>
    if input.isEmpty then .ok tokens
    else do
      let (tokens, input) ← next tokens input
      tokenizeLoop n tokens input

/-- `tokenize`. -/
def tokenize (input : Text) : Except TokenError (List Tok) := tokenizeLoop input.length [] input

/-! ### Literals are read back -/

variable {rest : Text} {n : ℕ}

/-- The digits of a control character are read back. -/
theorem hex_control : ∀ n < 160, (Nat.toDigits 16 n).all (fun c => (hexValue c).isSome) = true ∧
    (Nat.toDigits 16 n).length ≤ 2 ∧ fromHex (Nat.toDigits 16 n) = some n := by
  decide +kernel

theorem unescapeHex_append {hex digits : Text} (hd : ∀ c ∈ digits, (hexValue c).isSome = true)
    (hlen : hex.length + digits.length ≤ 6) :
    unescapeHex hex (digits ++ '\x7d' :: rest) = .ok (rest, hex ++ digits) := by
  induction digits generalizing hex with
  | nil => rw [nil_append, unescapeHex, if_pos rfl, append_nil]
  | cons c digits ih =>
    have hc : c ≠ '\x7d' := by
      rintro rfl
      exact absurd (hd _ mem_cons_self) (by decide)
    rw [length_cons] at hlen
    rw [cons_append, unescapeHex, if_neg hc,
      if_pos ⟨hd c mem_cons_self, by omega⟩,
      ih (fun c hc => hd c (mem_cons_of_mem _ hc))
        (by rw [length_append, length_singleton]; omega), append_assoc]
    rfl

/-- The escape of a control character is read back. -/
theorem unescapeChar_control {c : Char} (hc : isControl c = true) :
    unescapeChar ('u' :: '\x7b' :: (Nat.toDigits 16 c.toNat ++ '\x7d' :: rest)) =
      .ok (rest, c) := by
  have hlt : c.toNat < 160 := by
    simp only [isControl, or_eq_true, decide_eq_true_eq, and_eq_true] at hc
    omega
  obtain ⟨hdigits, hlen, hvalue⟩ := hex_control c.toNat hlt
  have hhex : unescapeHex [] (toDigits 16 c.toNat ++ '\x7d' :: rest) =
      .ok (rest, [] ++ toDigits 16 c.toNat) :=
    unescapeHex_append (all_eq_true.mp hdigits) (by simpa using hlen.trans (by decide))
  have hchar : charFromU32 c.toNat = some c := by
    have hvalid : c.toNat.isValidChar := c.valid
    rw [charFromU32, if_pos hvalid, Char.ofNat_toNat]
  simp [unescapeChar, hhex, hvalue, hchar, bind, Except.bind, pure, Except.pure]

/-- **A quoted character is read back.** -/
theorem unescapeLoop_quoteChar {s : Text} (c : Char) :
    unescapeLoop (n + 1) s (quoteChar c ++ rest) = unescapeLoop n (s ++ [c]) rest := by
  -- the escaped characters are read by `unescapeChar`, the others stand for themselves
  have hescape : ∀ t : Text, unescapeChar t = .ok (rest, c) →
      unescapeLoop (n + 1) s ('\\' :: t) = unescapeLoop n (s ++ [c]) rest := by
    intro t ht
    rw [unescapeLoop, if_pos rfl, ht]
    rfl
  unfold quoteChar
  split
  · next h => exact hescape _ (by simp [unescapeChar, h])
  split
  · next h => exact hescape _ (by simp [unescapeChar, h])
  split
  · next h => exact hescape _ (by simp [unescapeChar, h])
  split
  · next h => exact hescape _ (by simp [unescapeChar, h])
  split
  · next h => exact hescape _ (by simp [unescapeChar, h])
  split
  · next h =>
    simpa using hescape _ (unescapeChar_control h)
  · next hslash hquote _ _ _ _ =>
    rw [singleton_append, unescapeLoop, if_neg hquote, if_neg hslash]

/-- **A literal is read back.** -/
theorem unescapeLoop_quote {s t : Text} (hn : t.length < n) :
    unescapeLoop n s (t.flatMap quoteChar ++ '"' :: rest) = .ok (rest, s ++ t) := by
  induction t generalizing n s with
  | nil =>
    obtain ⟨n, rfl⟩ := exists_eq_add_one_of_ne_zero (ne_of_gt hn)
    simp [unescapeLoop]
  | cons c t ih =>
    obtain ⟨n, rfl⟩ := exists_eq_add_one_of_ne_zero (ne_of_gt (zero_lt_of_lt hn))
    rw [flatMap_cons, append_assoc, unescapeLoop_quoteChar,
      ih (lt_of_succ_lt_succ hn), append_assoc]
    rfl

theorem length_le_flatMap_quoteChar (s : Text) : s.length ≤ (s.flatMap quoteChar).length := by
  induction s with
  | nil => exact le_refl _
  | cons c s ih =>
    have hc : 1 ≤ (quoteChar c).length := by
      unfold quoteChar
      split_ifs <;> simp
    rw [flatMap_cons, length_append, length_cons]
    omega

theorem unescapeString_quote (s rest : Text) :
    unescapeString (s.flatMap quoteChar ++ '"' :: rest) = .ok (rest, s) := by
  refine unescapeLoop_quote ?_
  have := length_le_flatMap_quoteChar s
  rw [length_append, length_cons]
  omega

/-! ### Tokens are read back -/

/-- The iterations of the loop go from one state to another. -/
inductive Lexes : List Tok → Text → List Tok → Text → Prop
  | refl (tokens : List Tok) (input : Text) : Lexes tokens input tokens input
  | step {tokens tokens' tokens'' : List Tok} {input input' input'' : Text}
      (h : next tokens input = .ok (tokens', input')) (hlt : input'.length < input.length)
      (hrest : Lexes tokens' input' tokens'' input'') : Lexes tokens input tokens'' input''

variable {tokens tokens' tokens'' : List Tok} {input input' input'' : Text}

theorem Lexes.trans (h : Lexes tokens input tokens' input')
    (h' : Lexes tokens' input' tokens'' input'') : Lexes tokens input tokens'' input'' := by
  induction h with
  | refl => exact h'
  | step hnext hlt _ ih => exact .step hnext hlt (ih h')

/-- **The loop appends the tokens of a text that it goes through to its end.** -/
theorem Lexes.tokenizeLoop (h : Lexes tokens input tokens' []) (hn : input.length ≤ n) :
    tokenizeLoop n tokens input = .ok tokens' := by
  generalize hend : ([] : Text) = input' at h
  induction h generalizing n with
  | refl =>
    subst hend
    cases n <;> rfl
  | step hnext hlt _ ih =>
    obtain ⟨n, rfl⟩ := exists_eq_add_one_of_ne_zero
      (ne_of_gt (lt_of_lt_of_le (zero_lt_of_lt hlt) hn))
    have hne := ne_nil_of_length_pos (zero_lt_of_lt hlt)
    rw [tokenizeLoop, if_neg (by simpa using hne), hnext]
    exact ih (by omega) hend

theorem Lexes.tokenize (h : Lexes [] input tokens []) : tokenize input = .ok tokens :=
  h.tokenizeLoop le_rfl

/-- A character that is a token, or none. -/
theorem Lexes.single {c : Char} (h : next tokens (c :: rest) = .ok (tokens', rest)) :
    Lexes tokens (c :: rest) tokens' rest :=
  .step h (lt_succ_self _) (.refl _ _)

theorem lexes_space : Lexes tokens (' ' :: rest) tokens rest :=
  .single (by simp [next, isWhitespace])

theorem lexes_lparen : Lexes tokens ('(' :: rest) (tokens ++ [.lparen]) rest :=
  .single (by simp [next, isWhitespace])

theorem lexes_rparen : Lexes tokens (')' :: rest) (tokens ++ [.rparen]) rest :=
  .single (by simp [next, isWhitespace])

theorem lexes_not : Lexes tokens ('!' :: rest) (tokens ++ [.not]) rest :=
  .single (by simp [next, isWhitespace])

theorem lexes_and : Lexes tokens (" && ".toList ++ rest) (tokens ++ [.and]) rest := by
  have hnext : next tokens ('&' :: '&' :: ' ' :: rest) = .ok (tokens ++ [.and], ' ' :: rest) := by
    simp [next, isWhitespace]
  exact lexes_space.trans (.step hnext (by simp) lexes_space)

theorem lexes_or : Lexes tokens (" || ".toList ++ rest) (tokens ++ [.or]) rest := by
  have hnext : next tokens ('|' :: '|' :: ' ' :: rest) = .ok (tokens ++ [.or], ' ' :: rest) := by
    simp [next, isWhitespace]
  exact lexes_space.trans (.step hnext (by simp) lexes_space)

/-- **A word is read back**, before a character that ends it. -/
theorem lexes_word {w : Text} (hw : isBareWord w = true)
    (hrest : ∀ c ∈ rest.head?, isWordBreak c = true) :
    Lexes tokens (w ++ rest) (tokens ++ [.word w]) rest := by
  simp only [isBareWord, and_eq_true, not_eq_true', isEmpty_eq_false_iff,
    all_eq_true] at hw
  obtain ⟨hne, hall⟩ := hw
  have hbreak : ∀ c ∈ w, isWordBreak c = false := fun c hc => (hall c hc).1
  obtain ⟨hdrop, htake⟩ := Prod.mk.inj (Except.ok.inj (Parser.takeTill_append hbreak hrest))
  obtain ⟨c, w', rfl⟩ := exists_cons_of_ne_nil hne
  refine .step ?_ (by simp only [cons_append, length_cons, length_append]; omega)
    (.refl _ _)
  have hc := hbreak c mem_cons_self
  simp only [isWordBreak, or_eq_false_iff, beq_eq_false_iff_ne, ne_eq] at hc
  obtain ⟨⟨⟨⟨⟨⟨hspace, hl⟩, hr⟩, ha⟩, hb⟩, hn⟩, hq⟩ := hc
  rw [cons_append] at htake hdrop ⊢
  rw [next, if_neg (by simp [hspace]), if_neg hl, if_neg hr, if_neg hn, if_neg ha, if_neg hb,
    if_neg hq, htake, hdrop]

/-- **A string is read back** where an argument is due. -/
theorem lexes_str {s : Text} (htokens : argumentDue tokens = true) :
    Lexes tokens (quoteString s ++ rest) (tokens ++ [.str s]) rest := by
  have hquote : quoteString s ++ rest = '"' :: (s.flatMap quoteChar ++ '"' :: rest) := by
    simp [quoteString]
  rw [hquote]
  refine .step ?_ ?_ (.refl _ _)
  · have hread := unescapeString_quote s rest
    simp [next, isWhitespace, htokens, hread, bind, Except.bind, pure, Except.pure]
  · rw [length_cons, length_append, length_cons]
    omega

end Heph.Query
