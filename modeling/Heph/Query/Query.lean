import Heph.Addr.Parse
import Heph.Matcher.Matcher
import Heph.Query.Lexer

/-!
# Queries

The language that targets are selected with: bare patterns (`//pkg`, `//pkg/...`,
`//pkg:name`), functions with one argument, and the operators `!`, `&&` and `||`, with
parentheses. `Query.parse` reads a query into a matcher and `Query.format` prints a
matcher as a query, with parentheses only where the precedence demands them.

The parser descends through `||`, `&&` and `!`. Its recursion is bounded: every level of
nesting goes through `Query.parseNot`, which refuses beyond
`Query.maxNestingDepth` levels, so the number of levels left is what it recurses on.
-/

namespace Heph

/-! ### Labels -/

/-- `is_label_char`. -/
def isLabelChar (c : Char) : Bool := c.isAlphanum || c == '-' || c == '_'

/-- The errors of `htlabel::validate`. -/
inductive LabelError where
  /-- `empty label: a label must contain at least one character`. -/
  | empty
  /-- `invalid label {s:?}: … is not allowed`, with the first offending character. -/
  | invalid (s : Text) (bad : Char)
  deriving DecidableEq, Repr

/-- `htlabel::validate`. -/
def validateLabel (s : Text) : Except LabelError Unit :=
  if s.isEmpty then .error .empty
  else
    match s.find? fun c => !isLabelChar c with
    | some bad => .error (.invalid s bad)
    | none => .ok ()

/-! ### Package references -/

/-- The errors of `htpkg::parse`. -/
inductive PkgRefError where
  | path (e : PkgError)
  /-- `invalid package reference: '{input}' (must start with '//', './', or '../')`. -/
  | notAReference (input : Text)
  deriving DecidableEq, Repr

/-- A checked join, as a package or as a package prefix. -/
def pkgRef (mk : PkgBuf → Atom) (base rel : Text) : Except PkgRefError Atom :=
  match joinRelCheckedPkg base rel with
  | .error e => .error (.path e)
  | .ok p => .ok (mk p)

/-- `htpkg::parse`. -/
def parsePkgRef (input : Text) (base : PkgBuf) : Except PkgRefError Atom :=
  match input.dropPrefix? "//".toList with
  | some abs =>
    if abs = "...".toList then .ok (.packagePrefix [])
    else
      match abs.dropSuffix? "/...".toList with
      | some p => pkgRef .packagePrefix [] p
      | none => pkgRef .package [] abs
  | none =>
    if input = ".".toList || input = "..".toList || "./".toList.isPrefixOf input ||
        "../".toList.isPrefixOf input then
      match input.dropSuffix? "/...".toList with
      | some p => pkgRef .packagePrefix base p
      | none => pkgRef .package base input
    else .error (.notAReference input)

namespace Query

/-! ### Printing -/

/-- `prec`. -/
def prec : Matcher → ℕ
  | .or _ => 1
  | .and _ => 2
  | _ => 3

/-- `fmt_arg`. -/
def fmtArg (arg : Text) : Text := if arg.isEmpty || isBareWord arg then arg else quoteString arg

/-- `fmt_call`, and `call_display`. -/
def fmtCall (name arg : Text) : Text := name ++ '(' :: (fmtArg arg ++ [')'])

/-- `fmt_pattern`. -/
def fmtPattern (bare func arg : Text) : Text := if isBareWord bare then bare else fmtCall func arg

/-- `DRIVER_FN`. -/
def driverFn : Text := "driver".toList

/-- The pattern that a package prefix is printed as. -/
def prefixPattern (p : PkgBuf) : Text :=
  if p.isEmpty then "//...".toList else "//".toList ++ (p ++ "/...".toList)

/-- The arms of `fmt_prec` for the atoms. -/
def fmtAtom : Atom → Text
  | .addr a => fmtPattern a.format "addr".toList a.format
  | .package p => fmtPattern ("//".toList ++ p) "package".toList p
  | .packagePrefix p => fmtPattern (prefixPattern p) "package_prefix".toList p
  | .label l => fmtCall "label".toList l
  | .driver d => fmtCall driverFn d
  | .treeOutputTo p => fmtCall "tree_output".toList p

/-- The parentheses of `fmt_prec`, around what it prints between them. -/
def paren (m : Matcher) (parentPrec : ℕ) (s : Text) : Text :=
  if prec m < parentPrec then '(' :: (s ++ [')']) else s

mutual

/-- What `fmt_prec` prints between the parentheses. -/
def fmtBody : Matcher → Text
  | .atom a => fmtAtom a
  | .and ms => fmtJoin " && ".toList 2 ms
  | .or ms => fmtJoin " || ".toList 1 ms
  | .not m => '!' :: paren m 3 (fmtBody m)

/-- `fmt_join`. -/
def fmtJoin (sep : Text) (childPrec : ℕ) : List Matcher → Text
  | [] => []
  | [m] => paren m childPrec (fmtBody m)
  | m :: m' :: ms => paren m childPrec (fmtBody m) ++ (sep ++ fmtJoin sep childPrec (m' :: ms))

end

/-- `fmt_prec`. -/
def fmtPrec (m : Matcher) (parentPrec : ℕ) : Text := paren m parentPrec (fmtBody m)

/-- `format`. -/
def format (m : Matcher) : Text := fmtPrec m 0

/-! ### Parsing -/

/-- The errors of `parse`. -/
inductive QueryError where
  /-- `tokenizing query`. -/
  | tokenizing (e : TokenError)
  /-- The token is unexpected in the query. -/
  | unexpected (tok : Text)
  /-- `unexpected end of query, expected a pattern`. -/
  | endOfQuery
  /-- `query expression nested too deeply (limit: 256)`. -/
  | nestedTooDeeply
  /-- A closing parenthesis is expected. -/
  | expectedParen (found : Text)
  | unclosedParen
  /-- `expected argument to …, found …`. -/
  | expectedArgument (func found : Text)
  /-- `missing argument to …`. -/
  | missingArgument (func : Text)
  /-- A closing parenthesis is expected after the call. -/
  | expectedParenAfter (call found : Text)
  | unclosedCall (func : Text)
  /-- `driver()` needs a non-empty driver name. -/
  | driverName
  /-- `parsing {call}`, around the error of the argument. -/
  | label (call : Text) (e : LabelError)
  | package (call : Text) (e : PkgError)
  | addr (call : Text) (e : AddrError)
  /-- `unknown query function …`. -/
  | unknownFunction (func : Text)
  /-- `parsing {word}`, around the error of the pattern. -/
  | addrPattern (word : Text) (e : AddrError)
  | pkgPattern (word : Text) (e : PkgRefError)
  deriving DecidableEq, Repr

/-- The methods of `Parser` that advance: what they return, and the tokens that are left. -/
abbrev Reader (α : Type) := List Tok → Except QueryError (List Tok × α)

/-- `to_pkg`. -/
def toPkg (arg : Text) : Except PkgError PkgBuf :=
  joinRelCheckedPkg [] ((arg.dropPrefix? "//".toList).getD arg)

/-- A package argument of a function. -/
def pkgArg (mk : PkgBuf → Atom) (func arg : Text) : Except QueryError Atom :=
  match toPkg arg with
  | .error e => .error (.package (fmtCall func arg) e)
  | .ok p => .ok (mk p)

variable (base : PkgBuf)

/-- `func_to_matcher`, which returns an atom. -/
def funcToMatcher (func arg : Text) : Except QueryError Atom :=
  if func = "label".toList then
    match validateLabel arg with
    | .error e => .error (.label (fmtCall func arg) e)
    | .ok () => .ok (.label arg)
  else if func = "tree_output".toList ∨ func = "tree_output_to".toList then
    pkgArg .treeOutputTo func arg
  else if func = "addr".toList then
    match parseAddrWithBase arg base with
    | .error e => .error (.addr (fmtCall func arg) e)
    | .ok a => .ok (.addr a)
  else if func = "package".toList ∨ func = "pkg".toList then pkgArg .package func arg
  else if func = "package_prefix".toList then pkgArg .packagePrefix func arg
  else .error (.unknownFunction func)

/-- `pattern_to_matcher`, which returns an atom. -/
def patternToMatcher (word : Text) : Except QueryError Atom :=
  if ':' ∈ word then
    match parseAddrWithBase word base with
    | .error e => .error (.addrPattern word e)
    | .ok a => .ok (.addr a)
  else
    match parsePkgRef word base with
    | .error e => .error (.pkgPattern word e)
    | .ok a => .ok a

/-- A call, by its name and its argument. -/
def callToMatcher (func : Text) (arg : Option Text) :
    Except QueryError Atom :=
  if func = driverFn then
    match arg.filter fun a => !a.isEmpty with
    | some d => .ok (.driver d)
    | none => .error .driverName
  else funcToMatcher base func (arg.getD [])

/-- The argument of a call, if it has one. -/
def parseArg (func : Text) : Reader (Option Text)
  | [] => .error (.missingArgument func)
  | .rparen :: rest => .ok (.rparen :: rest, none)
  | .word a :: rest => .ok (rest, some a)
  | .str a :: rest => .ok (rest, some a)
  | t :: _ => .error (.expectedArgument func t.describe)

/-- The end of a call. -/
def closeCall (func : Text) (arg : Option Text) : Reader Unit
  | [] => .error (.unclosedCall func)
  | .rparen :: rest => .ok (rest, ())
  | t :: _ => .error (.expectedParenAfter (fmtCall func (arg.getD [])) t.describe)

/-- The end of a group. -/
def closeParen : Reader Unit
  | [] => .error .unclosedParen
  | .rparen :: rest => .ok (rest, ())
  | t :: _ => .error (.expectedParen t.describe)

/-- `parse_atom`. -/
def parseAtom (parseOr : Reader Matcher) : Reader Matcher
  | [] => .error .endOfQuery
  | .lparen :: rest => do
    let (rest, inner) ← parseOr rest
    let (rest, _) ← closeParen rest
    return (rest, inner)
  | .word w :: rest =>
    if rest.head? = some .lparen then do
      let (rest, arg) ← parseArg w rest.tail
      let (rest, _) ← closeCall w arg rest
      let a ← callToMatcher base w arg
      return (rest, .atom a)
    else do
      let a ← patternToMatcher base w
      return (rest, .atom a)
  | t :: _ => .error (.unexpected t.describe)

/-- The loops of `parse_or` and `parse_and`. Every iteration consumes the operator, so the
number of tokens bounds their number. -/
def parseLoop (sep : Tok) (P : Reader Matcher) : ℕ → List Matcher → Reader (List Matcher)
  | 0, terms, toks => .ok (toks, terms)
  | n + 1, terms, toks =>
    if toks.head? = some sep then do
      let (rest, m) ← P toks.tail
      parseLoop sep P n (terms ++ [m]) rest
    else .ok (toks, terms)

/-- `parse_or` and `parse_and`: one operand, or several with the operator between them. -/
def parseChain (sep : Tok) (mk : List Matcher → Matcher) (P : Reader Matcher) : Reader Matcher :=
  fun toks => do
    let (rest, first) ← P toks
    if rest.head? = some sep then do
      let (rest, terms) ← parseLoop sep P rest.length [first] rest
      return (rest, mk terms)
    else return (rest, first)

/-- `parse_and`, over `parse_not`. -/
def parseAnd (parseNot : Reader Matcher) : Reader Matcher := parseChain .and .and parseNot

/-- `parse_or`, over `parse_not`. -/
def parseOr (parseNot : Reader Matcher) : Reader Matcher :=
  parseChain .or .or (parseAnd parseNot)

/-- `parse_not`, with the number of levels that are left. -/
def parseNot (base : PkgBuf) : ℕ → Reader Matcher
  | 0, _ => .error .nestedTooDeeply
  | n + 1, toks =>
    if toks.head? = some .not then do
      let (rest, inner) ← parseNot base n toks.tail
      return (rest, .not inner)
    else parseAtom base (parseOr (parseNot base n)) toks

/-- `MAX_NESTING_DEPTH`. -/
def maxNestingDepth : ℕ := 256

/-- `parse`. -/
def parse (input : Text) (base : PkgBuf) : Except QueryError Matcher :=
  match tokenize input with
  | .error e => .error (.tokenizing e)
  | .ok toks => do
    let (rest, m) ← parseOr (parseNot base maxNestingDepth) toks
    match rest with
    | [] => return m
    | t :: _ => .error (.unexpected t.describe)

end Query

end Heph
