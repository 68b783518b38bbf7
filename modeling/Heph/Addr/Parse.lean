import Heph.Lib.Combinator
import Heph.Addr.Addr

/-!
# Reading an address

The grammar of `//package:name@key=value,…`. Every component has its own characters to
stop at, the package is normalised after it was read, and the arguments are collected in a
map, so a key that is given twice keeps its last value.

What the parser returns is **well-formed** (`Addr.WellFormed`): each component has
none of the characters that would end it. For such an address the printed text is read
back as the same address, since a value is quoted exactly where a bare value would stop.
-/

namespace Heph

namespace ParseAddr

open Heph.Parser

/-! ### The grammar -/

variable (c : Char)

/-- What a package stops at. -/
def pkgStop : Bool := c == ':' || c == ' '

/-- What a name stops at. -/
def nameStop : Bool := c == '@' || c == ':' || c == ' ' || c == '|'

/-- What a key stops at. -/
def keyStop : Bool :=
  c == '=' || c == ',' || c == '@' || c == ' ' || c == '|' || c == '"'

/-- What a bare value stops at. -/
def valueStop : Bool := c == ',' || c == ' ' || c == '|' || c == '"'

/-- `pkg`. -/
def pkg : Parser Char Text := takeTill pkgStop

/-- `name`. -/
def name : Parser Char Text := takeTill1 nameStop

/-- `key`. -/
def key : Parser Char Text := takeTill1 keyStop

/-- `bare_value`. -/
def bareValue : Parser Char Text := takeTill1 valueStop

/-- `quoted_value`. -/
def quotedValue : Parser Char Text := delimited (item '"') (takeTill fun c => c == '"') (item '"')

/-- `value`. -/
def value : Parser Char Text := alt quotedValue bareValue

/-- `arg`: a key without a value has the empty one. -/
def arg : Parser Char (Text × Text) := fun i => do
  let (i, k) ← key i
  let (i, v) ← opt (preceded (item '=') value) i
  return (i, (k, v.getD []))

/-- `args`. -/
def args : Parser Char (List (Text × Text)) := separatedList1 (item ',') arg

/-- `addr_parser`. -/
def addrParser : Parser Char (Text × Text × List (Text × Text)) := fun i => do
  let (i, _) ← tag "//".toList i
  let (i, p) ← pkg i
  let (i, _) ← item ':' i
  let (i, n) ← name i
  let (i, a) ← opt (preceded (item '@') args) i
  return (i, (p, n, a.getD []))

end ParseAddr

/-- The errors of `parse_addr` and `parse_addr_with_base`, by what their texts show. -/
inductive AddrError where
  /-- `invalid address {input:?}: {e}`, of the grammar. -/
  | invalid (input : Text) (e : ParseError Char)
  /-- `invalid address {input:?}`, around the error of the package. -/
  | invalidPackage (input : Text) (e : PkgError)
  /-- The relative path of an address that escapes from the workspace. -/
  | relativePath (e : PkgError)
  /-- `invalid address '{input}': a relative path reference must name a target`. -/
  | missingName (input : Text)
  /-- `invalid address '{input}': relative references must start with ':', './', '../', or
  '//'`. -/
  | notAReference (input : Text)
  deriving DecidableEq, Repr

/-- `parse_addr`. -/
def parseAddr (input : Text) : Except AddrError Addr :=
  match Parser.allConsuming ParseAddr.addrParser input with
  | .error e => .error (.invalid input e)
  | .ok (_, p, n, kvs) =>
    match joinRelCheckedPkg [] p with
    | .error e => .error (.invalidPackage input e)
    | .ok package => .ok ⟨package, n, .ofList kvs⟩

/-- `parse_addr_with_base`: a reference that is not absolute is relative to `base`. -/
def parseAddrWithBase (input : Text) (base : PkgBuf) : Except AddrError Addr :=
  if "//".toList.isPrefixOf input then parseAddr input
  else if [':'].isPrefixOf input then parseAddr ("//".toList ++ (base ++ input))
  else if "./".toList.isPrefixOf input || "../".toList.isPrefixOf input then
    if ':' ∈ input then
      match joinRelCheckedPkg base (input.takeWhile (· != ':')) with
      | .error e => .error (.relativePath e)
      | .ok pkg => parseAddr ("//".toList ++ (pkg ++ input.dropWhile (· != ':')))
    else .error (.missingName input)
  else .error (.notAReference input)

/-! ### Well-formed addresses -/

/-- **A well-formed address**: the package is normal, and no component has a character that
would end it. -/
structure Addr.WellFormed (a : Addr) : Prop where
  normal : Normal a.package
  package : ∀ c ∈ a.package, ParseAddr.pkgStop c = false
  name_ne_nil : a.name ≠ []
  name : ∀ c ∈ a.name, ParseAddr.nameStop c = false
  key_ne_nil : ∀ e ∈ a.args.entries, e.1 ≠ []
  key : ∀ e ∈ a.args.entries, ∀ c ∈ e.1, ParseAddr.keyStop c = false
  value : ∀ e ∈ a.args.entries, '"' ∉ e.2

namespace ParseAddr

open Heph.Parser

/-! ### What is accepted -/

variable {i r : Text} {e : Text × Text}

theorem value_ok {v : Text} (h : value i = .ok (r, v)) : '"' ∉ v := by
  rcases alt_ok h with h | h
  · obtain ⟨i', r', h⟩ := delimited_ok h
    intro hv
    simpa using (takeTill_ok h).2 _ hv
  · intro hv
    simpa [valueStop] using (takeTill1_ok h).2 _ hv

/-- A key has none of its stops, and a value has no quote. -/
theorem arg_ok (h : arg i = .ok (r, e)) :
    e.1 ≠ [] ∧ (∀ c ∈ e.1, keyStop c = false) ∧ '"' ∉ e.2 := by
  obtain ⟨⟨i₁, k⟩, hk, h⟩ := bind_ok.mp h
  obtain ⟨⟨i₂, o⟩, ho, h⟩ := bind_ok.mp h
  cases h
  obtain ⟨hne, hstop⟩ := takeTill1_ok hk
  refine ⟨hne, hstop, ?_⟩
  rcases opt_ok ho with rfl | ⟨v, rfl, hv⟩
  · simp
  · obtain ⟨i', hv⟩ := preceded_ok hv
    exact value_ok hv

theorem addrParser_ok {p n : Text} {kvs : List (Text × Text)}
    (h : addrParser i = .ok (r, p, n, kvs)) :
    (∀ c ∈ p, pkgStop c = false) ∧ n ≠ [] ∧ (∀ c ∈ n, nameStop c = false) ∧
      ∀ e ∈ kvs, e.1 ≠ [] ∧ (∀ c ∈ e.1, keyStop c = false) ∧ '"' ∉ e.2 := by
  obtain ⟨⟨i₁, t⟩, -, h⟩ := bind_ok.mp h
  obtain ⟨⟨i₂, p'⟩, hp, h⟩ := bind_ok.mp h
  obtain ⟨⟨i₃, c⟩, -, h⟩ := bind_ok.mp h
  obtain ⟨⟨i₄, n'⟩, hn, h⟩ := bind_ok.mp h
  obtain ⟨⟨i₅, o⟩, ho, h⟩ := bind_ok.mp h
  obtain ⟨-, rfl, rfl, rfl⟩ := h
  obtain ⟨hne, hname⟩ := takeTill1_ok hn
  refine ⟨(takeTill_ok hp).2, hne, hname, fun e he => ?_⟩
  rcases opt_ok ho with rfl | ⟨l, rfl, hl⟩
  · simp at he
  · obtain ⟨i', hl⟩ := preceded_ok hl
    obtain ⟨i'', r'', he⟩ := separatedList1_ok hl e he
    exact arg_ok he

/-! ### Reading back -/

/-- **A value is read back**, bare or quoted, before a comma or the end. -/
theorem value_format {v r : Text} (hv : '"' ∉ v) (hr : ∀ c ∈ r.head?, c = ',') :
    value ((if Addr.needsQuotes v then '"' :: (v ++ ['"']) else v) ++ r) = .ok (r, v) := by
  split
  · have htake : takeTill (fun c => c == '"') (v ++ '"' :: r) = .ok ('"' :: r, v) :=
      takeTill_append (fun c hc => by simpa using fun h : c = '"' => hv (h ▸ hc))
        (by simp)
    have hquoted : quotedValue ('"' :: (v ++ '"' :: r)) = .ok (r, v) :=
      delimited_of_ok (item_cons _ _) htake (item_cons _ _)
    rw [List.cons_append, List.append_assoc]
    show value ('"' :: (v ++ '"' :: r)) = _
    rw [value, alt, hquoted]
  · next hq =>
    -- a bare value is not empty and has none of the stops, so it is not a quoted one
    simp only [Addr.needsQuotes, Bool.or_eq_true, not_or, List.isEmpty_iff, List.any_eq_true,
      not_exists, not_and] at hq
    have hstop : ∀ c ∈ v, valueStop c = false := by
      simp only [valueStop]
      grind
    have hbare : bareValue (v ++ r) = .ok (r, v) :=
      takeTill1_append hq.1 hstop fun c hc => by simp [valueStop, hr c hc]
    obtain ⟨e, he⟩ : ∃ e, quotedValue (v ++ r) = .error e := by
      obtain ⟨e, he⟩ := item_error (r := v ++ r) (by
        obtain ⟨c, v', rfl⟩ := List.exists_cons_of_ne_nil hq.1
        intro h
        obtain rfl : c = '"' := by simpa using h
        exact hv List.mem_cons_self)
      exact ⟨e, delimited_of_error he⟩
    rw [value, alt, he]
    exact hbare

theorem arg_format {r : Text} (hne : e.1 ≠ [])
    (hk : ∀ c ∈ e.1, keyStop c = false) (hv : '"' ∉ e.2) (hr : ∀ c ∈ r.head?, c = ',') :
    arg (Addr.formatArg e ++ r) = .ok (r, e) := by
  have hkey : ∀ t, key (e.1 ++ '=' :: t) = .ok ('=' :: t, e.1) := fun t =>
    takeTill1_append hne hk (by simp [keyStop])
  have hvalue := (preceded_of_ok (item_cons '=' _)).trans (value_format hv hr)
  rw [Addr.formatArg, List.append_assoc]
  exact (bind_of_ok (hkey _)).trans (bind_of_ok (opt_of_ok hvalue))

/-- **The text of a well-formed address is read back** as its components. -/
theorem addrParser_format {a : Addr} (ha : a.WellFormed) :
    addrParser a.format = .ok ([], a.package, a.name, a.args.entries) := by
  have hpkg : pkg (a.package ++ ':' :: (a.name ++ Addr.formatArgs a.args.entries)) =
      .ok (':' :: (a.name ++ Addr.formatArgs a.args.entries), a.package) :=
    takeTill_append ha.package (by simp [pkgStop])
  have hname : name (a.name ++ Addr.formatArgs a.args.entries) =
      .ok (Addr.formatArgs a.args.entries, a.name) := by
    refine takeTill1_append ha.name_ne_nil ha.name fun c hc => ?_
    cases hargs : a.args.entries with
    | nil => simp [hargs, Addr.formatArgs] at hc
    | cons e l =>
      obtain rfl : '@' = c := by simpa [hargs, Addr.formatArgs] using hc
      rfl
  have hargs : ∃ o, opt (preceded (item '@') args) (Addr.formatArgs a.args.entries) = .ok ([], o) ∧
      o.getD [] = a.args.entries := by
    have hread : ∀ e ∈ a.args.entries, ∀ r, (∀ c ∈ r.head?, c = ',') →
        arg (Addr.formatArg e ++ r) = .ok (r, e) := fun e he r hr =>
      arg_format (ha.key_ne_nil e he) (ha.key e he) (ha.value e he) hr
    cases hargs : a.args.entries with
    | nil => exact ⟨none, rfl, rfl⟩
    | cons e l =>
      rw [hargs] at hread
      refine ⟨some (e :: l), opt_of_ok ?_, rfl⟩
      exact separatedList1_intercalate hread
  obtain ⟨o, ho, hentries⟩ := hargs
  calc addrParser a.format
    _ = .ok ([], a.package, a.name, o.getD []) :=
      (bind_of_ok (tag_append _ _)).trans <| (bind_of_ok hpkg).trans <|
        (bind_of_ok (item_cons _ _)).trans <| (bind_of_ok hname).trans (bind_of_ok ho)
    _ = .ok ([], a.package, a.name, a.args.entries) := by rw [hentries]

end ParseAddr

namespace Addr

variable {a : Addr} {s : Text}

/-- **What is accepted is well-formed.** -/
theorem wellFormed_of_parseAddr (h : parseAddr s = .ok a) : a.WellFormed := by
  unfold parseAddr at h
  split at h
  · simp at h
  · next r p n kvs hread =>
    split at h
    · simp at h
    · next package hpkg =>
      cases h
      obtain ⟨hp, hne, hn, hkvs⟩ := ParseAddr.addrParser_ok (Parser.allConsuming_ok hread)
      have hargs : ∀ e ∈ (SortedMap.ofList kvs).entries, _ := fun e he =>
        hkvs e (SortedMap.mem_of_mem_ofList he)
      refine ⟨normal_of_joinRelCheckedPkg hpkg, fun c hc => ?_, hne, hn, fun e he => (hargs e he).1,
        fun e he => (hargs e he).2.1, fun e he => (hargs e he).2.2⟩
      rcases mem_of_joinRelCheckedPkg hpkg hc with rfl | hc
      · rfl
      · exact hp c hc

/-- **The text of a well-formed address is read back as the address.** -/
theorem WellFormed.parseAddr_format (ha : a.WellFormed) : parseAddr a.format = .ok a := by
  have hread : Parser.allConsuming ParseAddr.addrParser a.format =
      .ok ([], a.package, a.name, a.args.entries) := by
    rw [Parser.allConsuming, ParseAddr.addrParser_format ha]
    rfl
  rw [parseAddr, hread]
  simp only [ha.normal.joinRelCheckedPkg, SortedMap.ofList_entries]

/-- **The text and the grammar agree.** An address that was read is read back from its own
text as the same address; and its package has only proper segments, with no slash before
the first or after the last. -/
theorem format_parseAddr (h : parseAddr s = .ok a) :
    parseAddr a.format = .ok a ∧
      (∀ seg ∈ segments a.package, seg ≠ [] ∧ seg ≠ ['.'] ∧ seg ≠ ['.', '.']) ∧
      a.package.head? ≠ some '/' ∧ a.package.getLast? ≠ some '/' := by
  have ha := wellFormed_of_parseAddr h
  refine ⟨ha.parseAddr_format, fun seg hseg => ?_, ha.normal.head?_ne, ha.normal.getLast?_ne⟩
  have hproper := ha.normal.segments seg hseg
  exact ⟨hproper.ne_nil, hproper.ne_dot, hproper.ne_dotDot⟩

/-- A package to normalise, a key without a value, and one given twice. -/
def untidy : Text := "//a/../b/./c/:n@z,k=v,k=\"x y\"".toList

theorem format_parseAddr_untidy :
    ∃ a, parseAddr untidy = .ok a ∧ a.format = "//b/c:n@k=\"x y\",z=\"\"".toList ∧
      parseAddr a.format = .ok a := by
  obtain ⟨a, h, hf⟩ : ∃ a, parseAddr untidy = .ok a ∧
      a.format = "//b/c:n@k=\"x y\",z=\"\"".toList := ⟨_, rfl, rfl⟩
  exact ⟨a, h, hf, (format_parseAddr h).1⟩

end Addr

end Heph
