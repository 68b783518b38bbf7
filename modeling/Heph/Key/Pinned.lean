import Heph.Lib.Weights
import Heph.Key.Hashin

/-!
# What the key of a target pins

The key of a target is made of hashouts, and of all that a producer makes whether or not it is
read. Which output groups of the producer are read, and through which filters, is in the reference
to it. Where the reference is the target's own it is in the definition of the target, and so in
the key; where it is that of a **transparent group** it is nowhere, since the group is expanded
away and its own hash with it.

So two states of a workspace may agree on the key of a target and not on what it reads
(`Workspace.group_moves_output`). Whether they can is a question about the hashed inputs that the
target has in the two states (`Workspace.pins_iff`). If the producers make the same in both, the key
pins what is read exactly if every **choice** that the states do not share – of a producer, an
output group and filters, for an origin – is one that the key tells: the producer is an input more
often in one of the states, and no producer is one less often there. If the producers may make
anything, the key pins nothing, since it does not say of a hashout whose it is: there must be
nothing to choose.
-/

namespace Heph.Workspace

open List Except

variable (w w' : Workspace)

/-! ### Keys and choices -/

/-- The key pins what the target reads: if two states agree on its definition and on the hashouts
that its key is made of, they agree for every origin on what is read. -/
def Pins (a : Addr) : Prop :=
  ∀ hs sel sel', w.getDef a = w'.getDef a → w.hashouts a = .ok hs → w'.hashouts a = .ok hs →
    w.selected a = .ok sel → w'.selected a = .ok sel' → ∀ o s, (o, s) ∈ sel ↔ (o, s) ∈ sel'

/-- The same definitions, where the targets produce this. -/
def withArtifacts (arts : Addr → Option (List Artifact)) : Workspace := ⟨w.targets, arts⟩

/-- The producers of the hashed inputs, as often as they are inputs. -/
def producers (inputs : List Input) : List Addr := (inputs.filter (·.hashed)).map (·.ref.ref)

/-- An output group that is selected: of which producer, and through which filters. -/
structure Choice where
  producer : Addr
  group : Text
  filters : List Text
  deriving DecidableEq

/-- The choices of a linked input, with the origin that they are routed by. -/
def choose (input : LinkedInput) : List (Text × Choice) :=
  input.outputNames.map fun g => (input.originId, ⟨input.target.addr, g, input.filters⟩)

/-- What the expansion of a target chooses, whatever the producers make. -/
def choices (a : Addr) : Except KeyError (List (Text × Choice)) := do
  let linked ← w.linkedHashed a
  return linked.flatMap choose

/-- **The key tells a producer**: it is an input more often in one of the states, and no producer is
one less often there. -/
def Told (ps ps' : List Addr) (p : Addr) : Prop := Exceeds ps ps' p ∨ Exceeds ps' ps p

instance (ps ps' : List Addr) (p : Addr) : Decidable (Told ps ps' p) :=
  inferInstanceAs (Decidable (_ ∨ _))

/-- Every choice that is made in the first state only is of a producer that the key tells. -/
def ToldChoices (ps ps' : List Addr) (cs cs' : List (Text × Choice)) : Prop :=
  ∀ c ∈ cs, c ∉ cs' → Told ps ps' c.2.producer

instance (ps ps' : List Addr) (cs cs' : List (Text × Choice)) :
    Decidable (ToldChoices ps ps' cs cs') := inferInstanceAs (Decidable (∀ _ ∈ _, _))

/-- The target produces an output with this hashout, in this group. -/
def Produces (a : Addr) (group hashout : Text) : Prop :=
  ∃ arts, w.artifacts a = some arts ∧ ∃ x ∈ arts, x.type = .output ∧ x.group = group ∧
    x.hashout = hashout

variable {w w'} {a : Addr} {hs : List Text} {inputs inputs' : List Input} {x : Text} {i : Input}
  {li : LinkedInput} {cs cs' : List (Text × Choice)} {o : Text} {s : Selection}
  {sel sel' : List (Text × Selection)} {ps ps' : List Addr} {c : Text × Choice}
  {arts arts' : Addr → Option (List Artifact)}

theorem Pins.symm (h : Pins w w' a) : Pins w' w a :=
  fun hs sel sel' hdef hk hk' hsel hsel' o s => (h hs sel' sel hdef.symm hk' hk hsel' hsel o s).symm

/-! ### What is not in the definitions -/

/-- What the targets produce makes no difference to what is expanded. -/
theorem expandInputs_withArtifacts (inputs : List Input) (parent : Option ParentOverride)
    (visited : List Text) : (w.withArtifacts arts).expandInputs inputs parent visited =
      w.expandInputs inputs parent visited := by
  induction inputs, parent, visited using expandInputs.induct w with
  | case1 inputs parent visited ih =>
    have hinput : (w.withArtifacts arts).expandInput parent visited =
        w.expandInput parent visited := by
      funext d
      have hfind : (w.withArtifacts arts).find d.ref.ref = w.find d.ref.ref := rfl
      rw [expandInput, expandInput, hfind]
      cases ht : w.find d.ref.ref with
      | none => rfl
      | some t =>
        by_cases hv : visited.contains d.ref.ref.format = true
        · simp only [hv, if_true]
        · simp only [hv, ih d t ht hv]
    rw [expandInputs_eq, expandInputs_eq, hinput]

theorem expandedInputsFor_withArtifacts :
    (w.withArtifacts arts).expandedInputsFor a = w.expandedInputsFor a := by
  have hdef : (w.withArtifacts arts).getDef a = w.getDef a := rfl
  rw [expandedInputsFor, expandedInputsFor, hdef]
  congr 1
  funext d
  rw [expandInputs_withArtifacts]

theorem choices_withArtifacts : (w.withArtifacts arts).choices a = w.choices a := by
  have hlink : (w.withArtifacts arts).linkInput = w.linkInput := rfl
  rw [choices, choices, linkedHashed, linkedHashed, expandedInputsFor_withArtifacts, hlink]

/-! ### What is in a key -/

variable (arts) in
/-- What a producer adds to the key. -/
def madeBy (p : Addr) : List Text :=
  (((arts p).getD []).filter fun x => x.type ≠ .log).map (·.hashout)

theorem resultMeta_eq {p : Addr} {metas : List Text} (h : w.resultMeta p = .ok metas) :
    metas = madeBy w.artifacts p := by
  rw [resultMeta] at h
  rw [madeBy]
  cases harts : w.artifacts p with
  | none => simp [harts] at h
  | some arts =>
    rw [harts] at h
    exact (ok.inj h).symm

/-- The key is made of all that the producers make. -/
theorem hashouts_eq (hi : w.expandedInputsFor a = .ok inputs) (h : w.hashouts a = .ok hs) :
    hs = ((producers inputs).flatMap (madeBy w.artifacts)).insertionSort (· ≤ ·) := by
  obtain ⟨inputs', hi', h⟩ := bind_ok.mp h
  obtain rfl : inputs = inputs' := ok.inj (hi.symm.trans hi')
  obtain ⟨results, hr, h⟩ := bind_ok.mp h
  have hresults : results = (producers inputs).map (madeBy w.artifacts) := by
    rw [producers, map_map]
    have hlist := (forall₂_of_mapM_ok hr).imp fun i metas => resultMeta_eq
    exact (forall₂_eq_eq_eq ▸ forall₂_map_left_iff.mpr (hlist.imp fun _ _ => Eq.symm)).symm
  rw [← ok.inj h, hresults, flatMap_def]

/-- The hashed inputs have all been built. -/
theorem artifacts_of_hashouts (hi : w.expandedInputsFor a = .ok inputs)
    (h : w.hashouts a = .ok hs) (hmem : i ∈ inputs) (hhashed : i.hashed = true) :
    ∃ arts, w.artifacts i.ref.ref = some arts := by
  obtain ⟨inputs', hi', h⟩ := bind_ok.mp h
  obtain rfl : inputs = inputs' := ok.inj (hi.symm.trans hi')
  obtain ⟨results, hr, -⟩ := bind_ok.mp h
  obtain ⟨metas, -, hmeta⟩ := exists_ok_of_mapM_ok hr (mem_filter.mpr ⟨hmem, hhashed⟩)
  rw [resultMeta] at hmeta
  cases harts : w.artifacts i.ref.ref with
  | none => simp [harts] at hmeta
  | some arts => exact ⟨arts, rfl⟩

/-! ### What is chosen -/

theorem linkInput_addr (h : w.linkInput i = .ok li) :
    li.target.addr = i.ref.ref := by
  obtain ⟨d, hd, h⟩ := bind_ok.mp h
  obtain ⟨names, -, h⟩ := bind_ok.mp h
  split at h
  · simp at h
  · cases h
    rw [getDef] at hd
    cases hf : w.find i.ref.ref with
    | none => simp [hf] at hd
    | some t =>
      obtain rfl : t = d := by simpa [hf] using hd
      exact (mem_of_find hf).2

/-- A producer that is chosen is a hashed input. -/
theorem producer_mem_of_choice (hi : w.expandedInputsFor a = .ok inputs)
    (h : w.choices a = .ok cs) (hc : c ∈ cs) : c.2.producer ∈ producers inputs := by
  obtain ⟨linked, hl, h⟩ := bind_ok.mp h
  cases h
  obtain ⟨inputs', hi', hl⟩ := bind_ok.mp hl
  obtain rfl : inputs = inputs' := ok.inj (hi.symm.trans hi')
  obtain ⟨li, hli, hc⟩ := mem_flatMap.mp hc
  obtain ⟨g, -, rfl⟩ := mem_map.mp hc
  obtain ⟨i, hmem, hlink⟩ := (mem_iff_of_mapM_ok hl).mp hli
  rw [mem_filter, Bool.and_eq_true] at hmem
  exact mem_map.mpr ⟨i, mem_filter.mpr ⟨hmem.1, hmem.2.1⟩, (linkInput_addr hlink).symm⟩

theorem mem_select {part : List (Text × Selection)}
    (h : w.select li = .ok part) :
    (o, s) ∈ part ↔ ∃ c, (o, c) ∈ choose li ∧ c.group = s.group ∧ c.filters = s.filters ∧
      w.Produces c.producer s.group s.hashout := by
  rw [select] at h
  cases harts : w.artifacts li.target.addr with
  | none => simp [harts] at h
  | some arts =>
    rw [harts] at h
    cases h
    constructor
    · intro hs
      obtain ⟨x, hx, heq⟩ := mem_map.mp hs
      cases heq
      simp only [mem_filter, Bool.and_eq_true, decide_eq_true_eq, contains_iff_mem] at hx
      obtain ⟨hmem, hout, hgroup⟩ := hx
      exact ⟨⟨li.target.addr, x.group, li.filters⟩, mem_map.mpr ⟨x.group, hgroup, rfl⟩, rfl,
        rfl, arts, harts, x, hmem, hout, rfl, rfl⟩
    · rintro ⟨c, hc, hgroup, hfilters, arts', harts', x, hx, hout, hxg, hxh⟩
      obtain ⟨g, hg, heq⟩ := mem_map.mp hc
      cases heq
      obtain rfl : arts = arts' := Option.some.inj (harts.symm.trans harts')
      refine mem_map.mpr ⟨x, mem_filter.mpr ⟨hx, ?_⟩, ?_⟩
      · obtain rfl : g = x.group := hgroup.trans hxg.symm
        simp [hout, hg]
      · obtain ⟨sg, sh, sf⟩ := s
        obtain rfl : x.group = sg := hxg
        obtain rfl : x.hashout = sh := hxh
        obtain rfl : li.filters = sf := hfilters
        rfl

/-- **What is read is what the choices produce.** -/
theorem mem_selected (hc : w.choices a = .ok cs) (h : w.selected a = .ok sel) :
    (o, s) ∈ sel ↔ ∃ c, (o, c) ∈ cs ∧ c.group = s.group ∧ c.filters = s.filters ∧
      w.Produces c.producer s.group s.hashout := by
  obtain ⟨linked, hl, hc⟩ := bind_ok.mp hc
  cases hc
  obtain ⟨linked', hl', h⟩ := bind_ok.mp h
  obtain rfl : linked = linked' := ok.inj (hl.symm.trans hl')
  obtain ⟨parts, hp, h⟩ := bind_ok.mp h
  cases h
  rw [mem_flatten]
  constructor
  · rintro ⟨part, hpart, hs⟩
    obtain ⟨li, hli, hsel⟩ := (mem_iff_of_mapM_ok hp).mp hpart
    obtain ⟨c, hc, hrest⟩ := (mem_select hsel).mp hs
    exact ⟨c, mem_flatMap.mpr ⟨li, hli, hc⟩, hrest⟩
  · rintro ⟨c, hc, hrest⟩
    obtain ⟨li, hli, hc⟩ := mem_flatMap.mp hc
    obtain ⟨part, hpart, hsel⟩ := exists_ok_of_mapM_ok hp hli
    exact ⟨part, hpart, (mem_select hsel).mpr ⟨c, hc, hrest⟩⟩

/-- What is chosen can be read once the key is known. -/
theorem selected_of_choices (h : w.hashouts a = .ok hs)
    (hc : w.choices a = .ok cs) : ∃ sel, w.selected a = .ok sel := by
  obtain ⟨linked, hl, -⟩ := bind_ok.mp hc
  obtain ⟨inputs, hi, hlink⟩ := bind_ok.mp hl
  have hok : ∀ li ∈ linked, ∃ part, w.select li = .ok part := by
    intro li hli
    obtain ⟨i, hmem, hlink⟩ := (mem_iff_of_mapM_ok hlink).mp hli
    rw [mem_filter, Bool.and_eq_true] at hmem
    obtain ⟨arts, harts⟩ := artifacts_of_hashouts hi h hmem.1 hmem.2.1
    rw [← linkInput_addr hlink] at harts
    rw [select, harts]
    exact ⟨_, rfl⟩
  obtain ⟨parts, hparts⟩ := mapM_ok_of_forall hok
  exact ⟨parts.flatten, bind_ok.mpr ⟨linked, hl, bind_ok.mpr ⟨parts, hparts, rfl⟩⟩⟩

/-! ### What the key tells -/

theorem mem_madeBy_of_produces {p : Addr} {g : Text} (h : w.Produces p g x) :
    x ∈ madeBy w.artifacts p := by
  obtain ⟨arts, harts, y, hy, hout, -, rfl⟩ := h
  rw [madeBy, harts]
  exact mem_map.mpr ⟨y, mem_filter.mpr ⟨hy, by simp [hout]⟩, rfl⟩

theorem length_hashouts (hi : w.expandedInputsFor a = .ok inputs) (h : w.hashouts a = .ok hs) :
    hs.length = ((producers inputs).map fun p => (madeBy w.artifacts p).length).sum := by
  rw [hashouts_eq hi h, length_insertionSort, length_flatMap]

/-- What is read in one state is read in the other, if the key tells the choices that are not
made there. -/
theorem selected_of_told (hi : w.expandedInputsFor a = .ok inputs)
    (hi' : w'.expandedInputsFor a = .ok inputs') (hc : w.choices a = .ok cs)
    (hc' : w'.choices a = .ok cs') (hsame : w.artifacts = w'.artifacts)
    (htold : ToldChoices (producers inputs) (producers inputs') cs cs')
    (h : w.hashouts a = .ok hs) (h' : w'.hashouts a = .ok hs) (hsel : w.selected a = .ok sel)
    (hsel' : w'.selected a = .ok sel') (hs : (o, s) ∈ sel) : (o, s) ∈ sel' := by
  obtain ⟨c, hmem, hgroup, hfilters, hprod⟩ := (mem_selected hc hsel).mp hs
  by_cases hmem' : (o, c) ∈ cs'
  · refine (mem_selected hc' hsel').mpr ⟨c, hmem', hgroup, hfilters, ?_⟩
    rwa [Produces, ← hsame]
  · -- the producer makes something, so that the keys are not of one length
    have hlen := (length_hashouts hi h).symm.trans (length_hashouts hi' h')
    rw [← hsame] at hlen
    have hpos : 0 < (madeBy w.artifacts c.producer).length :=
      length_pos_of_mem (mem_madeBy_of_produces hprod)
    rcases htold _ hmem hmem' with hexc | hexc
    · exact absurd hlen (hexc.sum_lt (k := fun p => (madeBy w.artifacts p).length) hpos).ne'
    · exact absurd hlen (hexc.sum_lt (k := fun p => (madeBy w.artifacts p).length) hpos).ne

/-! ### What the key does not tell -/

/-- A hashout. -/
def anyHashout : Text := "1".toList

/-- Every target makes so many files with one hashout, and one of them is an output. -/
def makes (k : Addr → ℕ) (out : Option (Addr × Text)) (p : Addr) : Option (List Artifact) :=
  match out with
  | some (q, g) =>
    if p = q then
      some (⟨.output, g, anyHashout⟩ :: replicate (k p - 1) ⟨.supportFile, [], anyHashout⟩)
    else some (replicate (k p) ⟨.supportFile, [], anyHashout⟩)
  | none => some (replicate (k p) ⟨.supportFile, [], anyHashout⟩)

variable {k : Addr → ℕ} {out : Option (Addr × Text)} {p : Addr} {g : Text}

theorem madeBy_makes (hout : ∀ q g, out = some (q, g) → 0 < k q) (p : Addr) :
    madeBy (makes k out) p = replicate (k p) anyHashout := by
  cases out with
  | none => simp [madeBy, makes]
  | some e =>
    obtain ⟨q, g⟩ := e
    by_cases hp : p = q
    · subst hp
      obtain ⟨n, hn⟩ := Nat.exists_eq_add_one_of_ne_zero (hout p g rfl).ne'
      simp [madeBy, makes, hn, replicate_succ]
    · simp [madeBy, makes, hp]

theorem produces_makes (h : (w.withArtifacts (makes k out)).Produces p g x) :
    out = some (p, g) := by
  obtain ⟨arts, harts, y, hy, htype, rfl, -⟩ := h
  have hsupport {n : ℕ} (hy : y ∈ replicate n ⟨.supportFile, [], anyHashout⟩) :
      out = some (p, y.group) := by
    rw [eq_of_mem_replicate hy] at htype
    cases htype
  cases out with
  | none =>
    cases harts
    exact hsupport hy
  | some e =>
    obtain ⟨q, g⟩ := e
    by_cases hp : p = q
    · subst hp
      simp only [withArtifacts, makes, if_true] at harts
      cases harts
      rcases mem_cons.mp hy with rfl | hy
      · rfl
      · exact hsupport hy
    · simp only [withArtifacts, makes, hp, if_false] at harts
      cases harts
      exact hsupport hy

/-- The key is one hashout, so often. -/
theorem hashouts_makes (hi : w.expandedInputsFor a = .ok inputs)
    (hout : ∀ q g, out = some (q, g) → 0 < k q) :
    (w.withArtifacts (makes k out)).hashouts a =
      .ok (replicate ((producers inputs).map k).sum anyHashout) := by
  have hi' : (w.withArtifacts (makes k out)).expandedInputsFor a = .ok inputs :=
    expandedInputsFor_withArtifacts.trans hi
  have hmeta : ∀ i ∈ inputs.filter (·.hashed),
      ∃ metas, (w.withArtifacts (makes k out)).resultMeta i.ref.ref = .ok metas := by
    intro i _
    obtain ⟨arts, harts⟩ : ∃ arts, makes k out i.ref.ref = some arts := by
      cases out with
      | none => exact ⟨_, rfl⟩
      | some e =>
        by_cases hp : i.ref.ref = e.1
        · exact ⟨_, if_pos hp⟩
        · exact ⟨_, if_neg hp⟩
    have harts' : (w.withArtifacts (makes k out)).artifacts i.ref.ref = some arts := harts
    rw [resultMeta, harts']
    exact ⟨_, rfl⟩
  obtain ⟨results, hr⟩ := mapM_ok_of_forall hmeta
  have hok : (w.withArtifacts (makes k out)).hashouts a =
      .ok (results.flatten.insertionSort (· ≤ ·)) :=
    bind_ok.mpr ⟨inputs, hi', bind_ok.mpr ⟨results, hr, rfl⟩⟩
  have hflat : (producers inputs).flatMap (madeBy (makes k out)) =
      replicate ((producers inputs).map k).sum anyHashout := by
    rw [show madeBy (makes k out) = fun p => replicate (k p) anyHashout from
      funext (madeBy_makes hout)]
    induction producers inputs with
    | nil => rfl
    | cons p ps ih => rw [flatMap_cons, ih, map_cons, sum_cons, replicate_append_replicate]
  have hsorted : (replicate ((producers inputs).map k).sum anyHashout).Pairwise (· ≤ ·) :=
    pairwise_replicate.mpr (.inr le_rfl)
  rw [hok, hashouts_eq hi' hok, ← hsorted.insertionSort_eq, ← hflat]
  rfl

/-- **What is read is not pinned** where another state comes to the same key and does not make that
choice of what is produced there. -/
theorem not_pins_makes {k' : Addr → ℕ} {out' : Option (Addr × Text)}
    (hdef : w.getDef a = w'.getDef a) (hi : w.expandedInputsFor a = .ok inputs)
    (hi' : w'.expandedInputsFor a = .ok inputs') (hc : w.choices a = .ok cs)
    (hc' : w'.choices a = .ok cs') (hmem : c ∈ cs) (hk : 0 < k c.2.producer)
    (hk' : ∀ q g, out' = some (q, g) → 0 < k' q)
    (hsum : ((producers inputs).map k).sum = ((producers inputs').map k').sum)
    (hread : ∀ c' ∈ cs', c'.1 = c.1 → c'.2.group = c.2.group → c'.2.filters = c.2.filters →
      out' ≠ some (c'.2.producer, c.2.group)) :
    ¬ Pins (w.withArtifacts (makes k (some (c.2.producer, c.2.group))))
      (w'.withArtifacts (makes k' out')) a := by
  intro hpins
  have hout : ∀ q g, some (c.2.producer, c.2.group) = some (q, g) → 0 < k q := by
    rintro q g ⟨⟩
    exact hk
  have hkey := hashouts_makes hi hout
  have hkey' := hashouts_makes (w := w') hi' hk'
  rw [← hsum] at hkey'
  have hch : (w.withArtifacts (makes k (some (c.2.producer, c.2.group)))).choices a = .ok cs :=
    choices_withArtifacts.trans hc
  have hch' : (w'.withArtifacts (makes k' out')).choices a = .ok cs' :=
    choices_withArtifacts.trans hc'
  obtain ⟨sel, hsel⟩ := selected_of_choices hkey hch
  obtain ⟨sel', hsel'⟩ := selected_of_choices hkey' hch'
  have hmade : (w.withArtifacts (makes k (some (c.2.producer, c.2.group)))).Produces c.2.producer
      c.2.group anyHashout := ⟨_, if_pos rfl, _, mem_cons_self, rfl, rfl, rfl⟩
  have hthere : (c.1, (⟨c.2.group, anyHashout, c.2.filters⟩ : Selection)) ∈ sel :=
    (mem_selected hch hsel).mpr ⟨c.2, hmem, rfl, rfl, hmade⟩
  obtain ⟨c', hmem', hgroup, hfilters, hprod⟩ :=
    (mem_selected hch' hsel').mp ((hpins _ _ _ hdef hkey hkey' hsel hsel' _ _).mp hthere)
  exact hread (c.1, c') hmem' rfl hgroup hfilters (produces_makes hprod)

/-- A choice that the key does not tell is not pinned. -/
theorem told_of_pins (hdef : w.getDef a = w'.getDef a) (hi : w.expandedInputsFor a = .ok inputs)
    (hi' : w'.expandedInputsFor a = .ok inputs') (hc : w.choices a = .ok cs)
    (hc' : w'.choices a = .ok cs')
    (hpins : ∀ arts, Pins (w.withArtifacts arts) (w'.withArtifacts arts) a) :
    ToldChoices (producers inputs) (producers inputs') cs cs' := by
  intro c hmem hnot
  by_contra htold
  obtain ⟨hexc, hexc'⟩ := not_or.mp htold
  obtain ⟨k, hk, hsum⟩ := exists_balance hexc hexc'
  refine not_pins_makes hdef hi hi' hc hc' hmem hk ?_ hsum ?_
    (hpins (makes k (some (c.2.producer, c.2.group))))
  · intro q g h
    cases h
    exact hk
  · -- only that producer has an output, so it is the same choice
    rintro ⟨o', p', g', f'⟩ hmem' rfl rfl rfl heq
    obtain rfl : c.2.producer = p' := (Prod.mk.inj (Option.some.inj heq)).1
    exact hnot hmem'

/-- Nothing is read if nothing is chosen, or if there is nothing in the key. -/
theorem selected_eq_nil (hi : w.expandedInputsFor a = .ok inputs)
    (hi' : w'.expandedInputsFor a = .ok inputs') (hc : w.choices a = .ok cs)
    (hnone : cs = [] ∨ producers inputs' = []) (h : w.hashouts a = .ok hs)
    (h' : w'.hashouts a = .ok hs) (hsel : w.selected a = .ok sel) : (o, s) ∉ sel := by
  intro hread
  obtain ⟨c, hmem, -, -, hprod⟩ := (mem_selected hc hsel).mp hread
  rcases hnone with rfl | hempty
  · cases hmem
  · have hlen := length_hashouts hi' h'
    rw [hempty, map_nil, sum_nil, length_eq_zero_iff] at hlen
    have hkey : s.hashout ∈ hs := by
      rw [hashouts_eq hi h, mem_insertionSort, mem_flatMap]
      exact ⟨_, producer_mem_of_choice hi hc hmem, mem_madeBy_of_produces hprod⟩
    rw [hlen] at hkey
    cases hkey

/-- If the producers may make anything, nothing that is chosen is pinned. -/
theorem nothing_chosen_of_pins (hdef : w.getDef a = w'.getDef a)
    (hi : w.expandedInputsFor a = .ok inputs) (hi' : w'.expandedInputsFor a = .ok inputs')
    (hc : w.choices a = .ok cs) (hc' : w'.choices a = .ok cs')
    (hpins : ∀ arts arts', Pins (w.withArtifacts arts) (w'.withArtifacts arts') a) :
    cs = [] ∨ producers inputs' = [] := by
  by_contra hno
  obtain ⟨hcs, hps⟩ := not_or.mp hno
  obtain ⟨c, hmem⟩ := exists_mem_of_ne_nil cs hcs
  obtain ⟨q, hq⟩ := exists_mem_of_ne_nil _ hps
  -- in the other state one producer makes as much, and none of it is an output
  let k : Addr → ℕ := fun r => if r = c.2.producer then (producers inputs').count q else 0
  let k' : Addr → ℕ := fun r => if r = q then (producers inputs).count c.2.producer else 0
  have hk : 0 < k c.2.producer := by
    simp only [k, if_true]
    exact count_pos_iff.mpr hq
  have hsum : ((producers inputs).map k).sum = ((producers inputs').map k').sum := by
    rw [sum_map_one, sum_map_one, Nat.mul_comm]
  have hk' : ∀ q g, (none : Option (Addr × Text)) = some (q, g) → 0 < k' q := by rintro q g ⟨⟩
  refine not_pins_makes hdef hi hi' hc hc' hmem hk hk' hsum ?_ (hpins _ _)
  rintro c' - - - - ⟨⟩

/-- An address without arguments. -/
def addrOf (package name : Text) : Addr := ⟨package, name, .empty⟩

/-- A target with two outputs. -/
def gen : Addr := addrOf "lib".toList "gen".toList

/-- A group of one of them. -/
def files : Addr := addrOf "lib".toList "files".toList

/-- A target that reads the group. -/
def reader : Addr := addrOf "app".toList "read".toList

def genDef : Key.ExtendedTargetDef :=
  ⟨⟨gen, [], [⟨"bin".toList, []⟩, ⟨"doc".toList, []⟩], false, [], false⟩, "exec".toList⟩

def readerDef : Key.ExtendedTargetDef :=
  ⟨⟨reader, [⟨⟨files, none, []⟩, .standard, "dep".toList, .empty, true, true⟩], [], false, [],
    false⟩, "exec".toList⟩

/-- A group, as it is parsed. -/
def groupDef (addr : Addr) (deps : List Text) : List Key.ExtendedTargetDef :=
  match GroupSpec.parse (fun _ => 0) ⟨deps, .default⟩ addr with
  | .ok d => [⟨d, "group".toList⟩]
  | .error _ => []

/-- What the first target produces. -/
def genArtifacts (a : Addr) : Option (List Artifact) :=
  if a = gen then
    some [⟨.output, "bin".toList, "1".toList⟩, ⟨.output, "doc".toList, "2".toList⟩]
  else none

/-- The workspace in which the group has this dependency. -/
def filesOf (dep : Text) : Workspace :=
  ⟨[genDef, readerDef] ++ groupDef files [dep], genArtifacts⟩

/-- The workspace in which the group has the output through another group. -/
def regrouped : Workspace :=
  ⟨[genDef, readerDef] ++ groupDef files [":inner".toList] ++
    groupDef (addrOf "lib".toList "inner".toList) [":gen|bin".toList], genArtifacts⟩

/-- What the reader reads through the groups. -/
def binInput : Input := ⟨⟨gen, some "bin".toList, []⟩, .standard, "dep".toList, .empty, true, true⟩

end Heph.Workspace
