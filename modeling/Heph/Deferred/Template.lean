import Heph.Lib.Traverse
import Heph.Addr.Addr

/-!
# Templates

A text may hold **references** `${kind:arg}`. The tokenizer cuts a text into literal pieces, `$$`
and references, and says nothing about what kinds there are: a reference is only **claimed** by
those who ask for its kind, and then only if its argument is of the right form. What is not
claimed is somebody else's text, and stays as it is.

The pieces put together are the text again (`Template.parse_text`). So a substitution, which
replaces the claimed references, changes nothing else.
-/

namespace Heph.Template

open List

/-! ### The tokenizer -/

/-- `Ref`: a reference, with its text. -/
structure Ref where
  kind : Option Text
  arg : Text
  raw : Text
  deriving DecidableEq

/-- `Piece`. -/
inductive Piece where
  | text (t : Text)
  | escape
  | ref (r : Ref)
  deriving DecidableEq

/-- The errors of `parse`, by what their texts show. -/
inductive TemplateError where
  /-- The reference that is never closed is somewhere in this text. -/
  | unterminated (s : Text)
  /-- There is a reference in the reference with this text. -/
  | nested (raw : Text)
  deriving DecidableEq

/-- What opens a reference. -/
def opening : Text := ['$', '\x7b']

/-- `push_text`. -/
def pushText (lit : Text) : List Piece := if lit.isEmpty then [] else [.text lit]

/-- A reference, by what is between its braces. -/
def refOf (body : Text) : Ref :=
  let raw := opening ++ (body ++ ['\x7d'])
  if ':' ∈ body then ⟨some (body.takeWhile (· != ':')), (body.dropWhile (· != ':')).drop 1, raw⟩
  else ⟨none, body, raw⟩

/-- The loop of `parse`, with how many characters are to be skipped and the literal so far. -/
def parseLoop (s : Text) : ℕ → Text → Text → Except TemplateError (List Piece)
  | _, lit, [] => .ok (pushText lit)
  | skip + 1, lit, _ :: rest => parseLoop s skip lit rest
  | 0, lit, c :: rest =>
    if c = '$' ∧ rest.head? = some '$' then do
      return pushText lit ++ .escape :: (← parseLoop s 1 [] rest)
    else if c = '$' ∧ rest.head? = some '\x7b' then
      if '\x7d' ∈ rest.drop 1 then
        let body := (rest.drop 1).takeWhile (· != '\x7d')
        if opening <:+: body then .error (.nested (refOf body).raw)
        else do
          return pushText lit ++ .ref (refOf body) :: (← parseLoop s (body.length + 2) [] rest)
      else .error (.unterminated s)
    else parseLoop s 0 (lit ++ [c]) rest

/-- `parse`. -/
def parse (s : Text) : Except TemplateError (List Piece) := parseLoop s 0 [] s

/-- The loop of `has_ref`, with how many characters are to be skipped. -/
def hasRefLoop : ℕ → Text → Bool
  | _, [] => false
  | skip + 1, _ :: rest => hasRefLoop skip rest
  | 0, c :: rest =>
    if c = '$' ∧ rest.head? = some '$' then hasRefLoop 1 rest
    else if c = '$' ∧ rest.head? = some '\x7b' then true
    else hasRefLoop 0 rest

/-- `has_ref`. -/
def hasRef (s : Text) : Bool := hasRefLoop 0 s

/-! ### Claimed references -/

/-- `READ_KIND`. -/
def readKind : Text := "read".toList

/-- `SRC_KIND`. -/
def srcKind : Text := "src".toList

/-- `RESOURCE_KIND`. -/
def resourceKind : Text := "resource".toList

/-- `DEFERRED_KINDS`. -/
def deferredKinds : List Text := [readKind, srcKind, resourceKind]

/-- `MAX_POOL_NAME_LEN`. -/
def maxPoolNameLen : ℕ := 64

/-- `is_pool_name`. -/
def isPoolName (s : Text) : Bool :=
  s.head?.any (fun c => 'a' ≤ c && c ≤ 'z') && (Addr.utf8 s).length ≤ maxPoolNameLen &&
    (s.drop 1).all fun c => ('a' ≤ c && c ≤ 'z') || ('0' ≤ c && c ≤ '9') || c == '_'

/-- `claims`. -/
def claims (kind : Option Text) (arg : Text) (kinds : List Text) : Bool :=
  kind.any fun k =>
    kinds.contains k && if k = resourceKind then isPoolName arg else "//".toList.isPrefixOf arg

/-- The reference that a piece is, if it is claimed. -/
def Piece.claimed? (want : List Text) : Piece → Option Ref
  | .ref r => if claims r.kind r.arg want then some r else none
  | _ => none

/-- The claimed references of a text. -/
def claimed (want : List Text) (s : Text) : List Ref :=
  match parse s with
  | .ok ps => ps.filterMap (Piece.claimed? want)
  | .error _ => []

/-- `first_ref_of`. -/
def firstRefOf (s : Text) (kinds : List Text) : Option Ref :=
  if hasRef s then (parse s).toOption.bind (findSome? (Piece.claimed? kinds)) else none

/-- `first_deferred_ref`. -/
def firstDeferredRef (s : Text) : Option Ref := firstRefOf s deferredKinds

/-- `has_deferred_ref`. -/
def hasDeferredRef (s : Text) : Bool :=
  hasRef s && (parse s).toOption.any (any · fun p => (p.claimed? deferredKinds).isSome)

/-! ### Substitution -/

/-- What a piece was in the text. -/
def Piece.source : Piece → Text
  | .text t => t
  | .escape => ['$', '$']
  | .ref r => r.raw

section Substitute

variable {ε : Type} (want : List Text) (resolve : Ref → Except ε Text)

/-- What a piece is replaced with. -/
def fill (p : Piece) : Except ε Text :=
  match p.claimed? want with
  | some r => resolve r
  | none => .ok p.source

/-- `substitute`, with what becomes of an error of the tokenizer. -/
def substitute (fail : TemplateError → ε) (s : Text) : Except ε Text :=
  match parse s with
  | .error e => .error (fail e)
  | .ok ps =>
    if ps.any fun p => (p.claimed? want).isSome then (ps.mapM (fill want resolve)).map List.flatten
    else .ok s

/-- **A text with its references replaced**: cut into its pieces, the claimed references are
replaced and everything else is as it was. -/
def Replaced (s v : Text) : Prop :=
  ∃ ps vs, parse s = .ok ps ∧ List.Forall₂ (fun p t => fill want resolve p = .ok t) ps vs ∧
    vs.flatten = v

end Substitute

section Asked

variable {m : Type → Type} [Monad m] (want : List Text) (resolve : Ref → m Text)

/-- What a piece is replaced with, where `resolve` may have effects. -/
def fillM (p : Piece) : m Text := (p.claimed? want).elim (pure p.source) resolve

/-- `substitute`, where `resolve` may have effects: it may fail, and may keep a state. -/
def substituteM (s : Text) : Except TemplateError (m Text) :=
  (parse s).map fun ps =>
    if ps.any fun p => (p.claimed? want).isSome then flatten <$> ps.mapM (fillM want resolve)
    else pure s

end Asked

/-- The pieces put together, with texts in place of the claimed references, in their order. -/
def weave (want : List Text) : List Piece → List Text → Text
  | [], _ => []
  | p :: ps, ts =>
    if (p.claimed? want).isSome then ts.headD [] ++ weave want ps ts.tail
    else p.source ++ weave want ps ts

/-! ### The pieces of a text -/

theorem flatMap_pushText (lit : Text) : (pushText lit).flatMap Piece.source = lit := by
  rw [pushText]
  split
  · next h => exact (isEmpty_iff.mp h).symm
  · exact append_nil lit

theorem refOf_raw (body : Text) : (refOf body).raw = opening ++ (body ++ ['\x7d']) := by
  rw [refOf]
  split <;> rfl

/-- A text with a closing brace, up to it and after it. -/
theorem exists_close {t : Text} (h : '\x7d' ∈ t) :
    ∃ after, t = t.takeWhile (· != '\x7d') ++ '\x7d' :: after := by
  obtain ⟨d, after, hdrop⟩ : ∃ d after, t.dropWhile (· != '\x7d') = d :: after := by
    refine exists_cons_of_ne_nil fun hnil => ?_
    have := dropWhile_eq_nil_iff.mp hnil _ h
    simp at this
  have hd : d = '\x7d' := by
    have := head_dropWhile_not (· != '\x7d') (l := t) (by simp [hdrop])
    simpa [hdrop] using this
  refine ⟨after, ?_⟩
  conv_lhs => rw [← takeWhile_append_dropWhile (l := t), hdrop, hd]

/-- **The text from the beginning of a reference to its end**, and what is skipped for it. -/
theorem opening_append {rest : Text} (hhead : rest.head? = some '\x7b')
    (hclose : '\x7d' ∈ rest.drop 1) :
    '$' :: rest = (refOf ((rest.drop 1).takeWhile (· != '\x7d'))).raw ++
      rest.drop (((rest.drop 1).takeWhile (· != '\x7d')).length + 2) := by
  cases rest with
  | nil => cases hhead
  | cons c rest =>
    cases hhead
    obtain ⟨after, hrest⟩ := exists_close hclose
    rw [drop_one, tail_cons] at hrest ⊢
    rw [refOf_raw]
    generalize rest.takeWhile (· != '\x7d') = body at hrest ⊢
    subst hrest
    simp [opening]

variable {s : Text} {ps : List Piece} {r : Ref} {want : List Text} {ε : Type}
  {resolve : Ref → Except ε Text} {fail : TemplateError → ε} {v : Text} {ε' : Type}
  {want' : List Text} {resolve' : Ref → Except ε' Text}

/-- What the loop makes, put together, is the literal so far and what is not skipped. -/
theorem parseLoop_text : ∀ {k : ℕ} {lit rest : Text} {ps : List Piece},
    parseLoop s k lit rest = .ok ps → ps.flatMap Piece.source = lit ++ rest.drop k := by
  intro k lit rest
  induction rest generalizing k lit with
  | nil =>
    rintro ps h
    obtain rfl : pushText lit = ps := by cases k <;> exact Except.ok.inj h
    rw [flatMap_pushText, drop_nil, append_nil]
  | cons c rest ih =>
    rintro ps h
    cases k with
    | succ k => exact ih h
    | zero =>
      rw [parseLoop] at h
      split at h
      · next hesc =>
        obtain ⟨ps', hps', h⟩ := bind_ok.mp h
        cases h
        obtain ⟨rfl, hhead⟩ := hesc
        rw [flatMap_append, flatMap_pushText, flatMap_cons, ih hps']
        cases rest with
        | nil => cases hhead
        | cons d rest =>
          cases hhead
          rfl
      · split at h
        · next hopen =>
          obtain ⟨rfl, hhead⟩ := hopen
          split at h
          · next hclose =>
            dsimp only at h
            split at h
            · cases h
            · obtain ⟨ps', hps', h⟩ := bind_ok.mp h
              cases h
              rw [flatMap_append, flatMap_pushText, flatMap_cons, ih hps',
                drop_zero, opening_append hhead hclose]
              rfl
          · cases h
        · rw [ih h]
          simp

/-- **The pieces put together are the text.** -/
theorem parse_text (h : parse s = .ok ps) :
    ps.flatMap Piece.source = s :=
  parseLoop_text h

/-- The two scanners agree on where a reference begins. -/
theorem hasRefLoop_eq :
    ∀ {k : ℕ} {lit rest : Text} {ps : List Piece}, parseLoop s k lit rest = .ok ps →
      (hasRefLoop k rest = true ↔ ∃ r, .ref r ∈ ps) := by
  have hlit : ∀ {r : Ref} {lit : Text}, .ref r ∉ pushText lit := by
    intro r lit
    rw [pushText]
    split <;> simp
  intro k lit rest
  induction rest generalizing k lit with
  | nil =>
    rintro ps h
    obtain rfl : pushText lit = ps := by cases k <;> exact Except.ok.inj h
    simp [hasRefLoop, hlit]
  | cons c rest ih =>
    rintro ps h
    cases k with
    | succ k => exact ih h
    | zero =>
      rw [parseLoop] at h
      rw [hasRefLoop]
      split at h
      · next hesc =>
        obtain ⟨ps', hps', h⟩ := bind_ok.mp h
        cases h
        rw [if_pos hesc, ih hps']
        simp [hlit]
      · next hesc =>
        rw [if_neg hesc]
        split at h
        · next hopen =>
          rw [if_pos hopen]
          split at h
          · dsimp only at h
            split at h
            · cases h
            · obtain ⟨ps', hps', h⟩ := bind_ok.mp h
              cases h
              exact ⟨fun _ => ⟨_, mem_append_right _ mem_cons_self⟩, fun _ => rfl⟩
          · cases h
        · next hopen => rw [if_neg hopen, ih h]

/-- **A text is found to have a reference exactly if one of its pieces is.** -/
theorem hasRef_iff (h : parse s = .ok ps) : hasRef s = true ↔ ∃ r, .ref r ∈ ps := hasRefLoop_eq h

/-! ### Claims -/

theorem claimed?_eq_some {p : Piece} :
    p.claimed? want = some r ↔ p = .ref r ∧ claims r.kind r.arg want = true := by
  cases p with
  | text | escape => simp [Piece.claimed?]
  | ref r' =>
    rw [Piece.claimed?, Option.ite_none_right_eq_some]
    constructor
    · rintro ⟨h, ⟨⟩⟩
      exact ⟨rfl, h⟩
    · rintro ⟨⟨⟩, h⟩
      exact ⟨h, rfl⟩

theorem mem_claimed (h : parse s = .ok ps) :
    r ∈ claimed want s ↔ .ref r ∈ ps ∧ claims r.kind r.arg want = true := by
  rw [claimed, h, mem_filterMap]
  constructor
  · rintro ⟨p, hp, hr⟩
    obtain ⟨rfl, hclaims⟩ := claimed?_eq_some.mp hr
    exact ⟨hp, hclaims⟩
  · rintro ⟨hp, hclaims⟩
    exact ⟨.ref r, hp, claimed?_eq_some.mpr ⟨rfl, hclaims⟩⟩

theorem any_claimed : (ps.any fun p => (p.claimed? want).isSome) = true ↔
    ps.filterMap (Piece.claimed? want) ≠ [] := by
  simp [filterMap_eq_nil_iff, ← Option.isSome_iff_ne_none]

/-- A text with a claimed reference tokenizes. -/
theorem exists_parse_of_mem_claimed (h : r ∈ claimed want s) : ∃ ps, parse s = .ok ps := by
  cases hs : parse s with
  | ok ps => exact ⟨ps, rfl⟩
  | error e => rw [claimed, hs] at h; cases h

/-! ### What a substitution makes -/

section

variable (h : parse s = .ok ps)

include h

/-- A substitution goes through the pieces; one that has nothing to do does as well. -/
theorem substitute_eq :
    substitute want resolve fail s = (ps.mapM (fill want resolve)).map List.flatten := by
  rw [substitute, h]
  dsimp only
  split
  · rfl
  · next hnone =>
    have hfill : ∀ p ∈ ps, fill want resolve p = .ok p.source := by
      intro p hp
      cases hp' : p.claimed? want with
      | none => rw [fill, hp']
      | some r => exact absurd (any_eq_true.mpr ⟨p, hp, by rw [hp']; rfl⟩) hnone
    have hmap : ps.mapM (fill want resolve) = .ok (ps.map Piece.source) :=
      mapM_ok_of_forall₂ (forall₂_map_right_iff.mpr (forall₂_same.mpr hfill))
    rw [hmap, Except.map, ← flatMap_def, parse_text h]

/-- **What a substitution makes of a text** is the text with its references replaced. -/
theorem substitute_eq_ok :
    substitute want resolve fail s = .ok v ↔ Replaced want resolve s v := by
  rw [substitute_eq h]
  constructor
  · intro hv
    cases hm : ps.mapM (fill want resolve) with
    | error e => rw [hm] at hv; cases hv
    | ok vs =>
      rw [hm] at hv
      exact ⟨ps, vs, h, forall₂_of_mapM_ok hm, Except.ok.inj hv⟩
  · rintro ⟨ps', vs, hps', hvs, rfl⟩
    obtain rfl := Except.ok.inj (h.symm.trans hps')
    rw [mapM_ok_of_forall₂ hvs, Except.map]

/-- A substitution that fails does so at a claimed reference. -/
theorem exists_of_substitute_error {e : ε}
    (he : substitute want resolve fail s = .error e) :
    ∃ r ∈ claimed want s, resolve r = .error e := by
  rw [substitute_eq h] at he
  cases hm : ps.mapM (fill want resolve) with
  | ok vs => rw [hm] at he; cases he
  | error e' =>
    rw [hm] at he
    obtain rfl : e' = e := Except.error.inj he
    obtain ⟨p, hp, hfail⟩ := exists_error_of_mapM_error hm
    cases hr : p.claimed? want with
    | none => rw [fill, hr] at hfail; cases hfail
    | some r =>
      rw [fill, hr] at hfail
      obtain ⟨rfl, hclaims⟩ := claimed?_eq_some.mp hr
      exact ⟨r, (mem_claimed h).mpr ⟨hp, hclaims⟩, hfail⟩

/-- A substitution that resolves every claimed reference succeeds. -/
theorem exists_substitute_ok (hall : ∀ r ∈ claimed want s, ∃ t, resolve r = .ok t) :
    ∃ v, substitute want resolve fail s = .ok v := by
  cases hs : substitute want resolve fail s with
  | ok v => exact ⟨v, rfl⟩
  | error e =>
    obtain ⟨r, hr, he⟩ := exists_of_substitute_error h hs
    obtain ⟨t, ht⟩ := hall r hr
    rw [ht] at he
    cases he

end

/-! ### What a substitution asks for -/

/-- Pieces of which none is claimed are put back as they were. -/
theorem weave_nil (h : ps.filterMap (Piece.claimed? want) = []) :
    weave want ps [] = ps.flatMap Piece.source := by
  rw [filterMap_eq_nil_iff] at h
  induction ps with
  | nil => rfl
  | cons p ps ih =>
    rw [weave, h p mem_cons_self, flatMap_cons, if_neg (by simp),
      ih fun q hq => h q (mem_cons_of_mem p hq)]

/-- Filling in the pieces asks for the claimed references, one after another. -/
theorem mapM_fillM {m : Type → Type} [Monad m] [LawfulMonad m] (resolve : Ref → m Text) :
    flatten <$> ps.mapM (fillM want resolve) =
      weave want ps <$> (ps.filterMap (Piece.claimed? want)).mapM resolve := by
  induction ps with
  | nil => simp [weave]
  | cons p ps ih =>
    have hrest : ∀ t, (fun vs => t ++ flatten vs) <$> ps.mapM (fillM want resolve) =
        (fun ts => t ++ weave want ps ts) <$>
          (ps.filterMap (Piece.claimed? want)).mapM resolve := by
      intro t
      simpa using congrArg (Functor.map (t ++ ·)) ih
    cases hp : p.claimed? want with
    | none => simpa [fillM, hp, weave] using hrest p.source
    | some r => simp [fillM, hp, weave, hrest]

/-- Where `resolve` may only fail, it is the same substitution. -/
theorem substitute_eq_substituteM :
    substitute want resolve fail s = ((substituteM want resolve s).mapError fail).bind id := by
  have hfill : fillM want resolve = fill want resolve := by
    funext p
    rw [fillM, fill]
    cases p.claimed? want <;> rfl
  rw [substitute, substituteM, hfill]
  cases parse s with
  | error e => rfl
  | ok ps => rfl

/-- **The scanners agree.** The pieces are the text, there is a reference among them if the text
is found to have one, and a substitution asks for the claimed references, each once and in order,
and changes nothing else. A text has a deferred reference if a substitution would ask for one. -/
theorem scanners_agree (s : Text) :
    (∀ ps, parse s = .ok ps → ps.flatMap Piece.source = s ∧
      (hasRef s = true ↔ ∃ r, .ref r ∈ ps) ∧
      ∀ (m : Type → Type) [Monad m] [LawfulMonad m] (want : List Text) (resolve : Ref → m Text),
        substituteM want resolve s = .ok (weave want ps <$> (claimed want s).mapM resolve)) ∧
    firstDeferredRef s = (claimed deferredKinds s).head? ∧
    (hasDeferredRef s = true ↔ claimed deferredKinds s ≠ []) := by
  refine ⟨fun ps h => ⟨parse_text h, hasRef_iff h, fun m _ _ want resolve => ?_⟩, ?_⟩
  · rw [claimed, h, substituteM, h, Except.map]
    dsimp only
    split
    · rw [mapM_fillM]
    · next hnone =>
      rw [any_claimed, not_not] at hnone
      rw [hnone, mapM_nil, map_pure, weave_nil hnone, parse_text h]
  · rw [firstDeferredRef, firstRefOf, hasDeferredRef]
    cases h : parse s with
    | error e => simp [claimed, h, Except.toOption]
    | ok ps =>
      rw [Except.toOption, Option.bind_some, Option.any_some, Bool.and_eq_true, any_claimed,
        ← head?_filterMap, claimed, h]
      by_cases href : hasRef s = true
      · simp [href]
      · have hnil : ps.filterMap (Piece.claimed? deferredKinds) = [] := by
          refine filterMap_eq_nil_iff.mpr fun p hp => Option.eq_none_iff_forall_ne_some.mpr ?_
          rintro r hr
          obtain ⟨rfl, -⟩ := claimed?_eq_some.mp hr
          exact href ((hasRef_iff h).mpr ⟨r, hp⟩)
        simp [hnil]

/-! ### Two ways to replace -/

/-- Where the same references are claimed and are replaced with the same, so is the text. -/
theorem Replaced.congr (h : Replaced want resolve s v) (hps : parse s = .ok ps)
    (hclaims : ∀ r, .ref r ∈ ps → claims r.kind r.arg want = claims r.kind r.arg want')
    (hres : ∀ r ∈ claimed want s, ∀ t, resolve r = .ok t → resolve' r = .ok t) :
    Replaced want' resolve' s v := by
  obtain ⟨ps', vs, hps', hvs, hv⟩ := h
  obtain rfl := Except.ok.inj (hps.symm.trans hps')
  refine ⟨ps, vs, hps, ?_, hv⟩
  have hsame : ∀ p ∈ ps, p.claimed? want' = p.claimed? want := by
    intro p hp
    cases p with
    | text | escape => rfl
    | ref r => rw [Piece.claimed?, Piece.claimed?, hclaims r hp]
  refine (forall₂_iff_get.mpr ⟨hvs.length_eq, fun i hi hi' => ?_⟩)
  have hp : ps.get ⟨i, hi⟩ ∈ ps := get_mem ..
  have hfill := hvs.get hi hi'
  generalize vs.get ⟨i, hi'⟩ = t at hfill ⊢
  generalize ps.get ⟨i, hi⟩ = p at hp hfill ⊢
  rw [fill] at hfill ⊢
  rw [hsame p hp]
  cases hr : p.claimed? want with
  | none => rw [hr] at hfill; exact congrArg Except.ok (Except.ok.inj hfill)
  | some r =>
    rw [hr] at hfill
    obtain ⟨rfl, hc⟩ := claimed?_eq_some.mp hr
    exact hres r ((mem_claimed hps).mpr ⟨hp, hc⟩) t hfill

/-- Texts that are never longer than others, and give the same when put together, are the same. -/
theorem eq_of_flatten_eq {vs vs' : List Text}
    (hlen : List.Forall₂ (fun t t' => t'.length ≤ t.length) vs vs')
    (h : vs.flatten = vs'.flatten) : vs = vs' := by
  have hle : ∀ {vs vs' : List Text}, List.Forall₂ (fun t t' => t'.length ≤ t.length) vs vs' →
      vs'.flatten.length ≤ vs.flatten.length := by
    intro vs vs' hlen
    induction hlen with
    | nil => exact le_rfl
    | cons ht _ ih =>
      rw [flatten_cons, flatten_cons, length_append, length_append]
      exact Nat.add_le_add ht ih
  induction hlen with
  | nil => rfl
  | cons ht hrest ih =>
    rw [flatten_cons, flatten_cons] at h
    have hsum := congrArg length h
    rw [length_append, length_append] at hsum
    have hrest := hle hrest
    obtain ⟨rfl, htail⟩ := append_inj h (by omega)
    rw [ih htail]

/-- **Two ways to replace that make the same text agree on every reference**, as long as what
the one replaces it with is never longer. -/
theorem Replaced.resolve_eq (h : Replaced want resolve s v) (h' : Replaced want resolve' s v)
    (hlen : ∀ r ∈ claimed want s, ∀ t t', resolve r = .ok t → resolve' r = .ok t' →
      t'.length ≤ t.length) :
    ∀ r ∈ claimed want s, ∃ t, resolve r = .ok t ∧ resolve' r = .ok t := by
  obtain ⟨ps, vs, hps, hvs, hv⟩ := h
  obtain ⟨ps', vs', hps', hvs', hv'⟩ := h'
  obtain rfl := Except.ok.inj (hps.symm.trans hps')
  obtain rfl : vs = vs' := by
    refine eq_of_flatten_eq (forall₂_iff_get.mpr ⟨?_, fun i hi hi' => ?_⟩) (hv.trans hv'.symm)
    · rw [← hvs.length_eq, ← hvs'.length_eq]
    have hi'' : i < ps.length := hvs.length_eq ▸ hi
    have hp : ps.get ⟨i, hi''⟩ ∈ ps := get_mem ..
    have hfill := hvs.get hi'' hi
    have hfill' := hvs'.get hi'' hi'
    simp only [get_eq_getElem] at hfill hfill' hp ⊢
    generalize vs[i] = t at hfill ⊢
    generalize vs'[i] = t' at hfill' ⊢
    generalize ps[i] = p at hp hfill hfill'
    rw [fill] at hfill hfill'
    cases hr : p.claimed? want with
    | none =>
      rw [hr] at hfill hfill'
      rw [← Except.ok.inj hfill, ← Except.ok.inj hfill']
    | some r =>
      rw [hr] at hfill hfill'
      obtain ⟨rfl, hc⟩ := claimed?_eq_some.mp hr
      exact hlen r ((mem_claimed hps).mpr ⟨hp, hc⟩) t t' hfill hfill'
  intro r hr
  obtain ⟨hp, hc⟩ := (mem_claimed hps).mp hr
  obtain ⟨⟨i, hi⟩, hget⟩ := get_of_mem hp
  have hi' : i < vs.length := hvs.length_eq ▸ hi
  have ht := hvs.get hi hi'
  have ht' := hvs'.get hi hi'
  have hsome : Piece.claimed? want (.ref r) = some r := claimed?_eq_some.mpr ⟨rfl, hc⟩
  rw [hget, fill, hsome] at ht ht'
  exact ⟨_, ht, ht'⟩

end Heph.Template
