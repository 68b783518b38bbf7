import Heph.Lib.Agreement
import Heph.Lib.Distinct
import Heph.Matcher.Matcher

/-!
# What the listings say of a target

Several providers may list the targets of a package, and say something of each: its labels, its
driver, whether it generates anything. Which of them will resolve a target is not known yet, so
what is said of an address is what **all the providers that list its name** say of it. A provider
that lists the very address describes it by that; one that lists the name with other arguments only
describes it by all of those.

The source goes through the listings once for each name, and keeps for each provider what it says of
the name and of each address. What comes out for an address is what the providers agree on
(`describedAs`), in whichever order they and their listings come
(`reconcileByName_spec`).
-/

namespace Heph

open List Option Function ListedFacts

/-! ### Facts that agree -/

namespace ListedFacts

@[ext]
theorem ext {f g : ListedFacts} (hl : f.labels = g.labels) (hd : f.driver = g.driver)
    (hc : f.hasCodegen = g.hasCodegen) : f = g := by
  cases f
  cases hl
  cases hd
  cases hc
  rfl

/-- `ListedFacts::agree`. -/
def agree (f g : ListedFacts) : ListedFacts where
  labels := Heph.agree f.labels g.labels
  driver := Heph.agree f.driver g.driver
  hasCodegen := Heph.agree f.hasCodegen g.hasCodegen
  labels_sorted := fun l hl => f.labels_sorted l (agree_eq_some.mp hl).1
  driver_legal := fun d hd => f.driver_legal d (agree_eq_some.mp hd).1

/-- **What several listings agree on**, field by field. -/
noncomputable def agreement (S : Set ListedFacts) : ListedFacts where
  labels := agreed (Set.image labels S)
  driver := agreed (Set.image driver S)
  hasCodegen := agreed (Set.image hasCodegen S)
  labels_sorted := fun l hl => by
    obtain ⟨f, -, hf⟩ := mem_of_agreed hl
    exact f.labels_sorted l hf
  driver_legal := fun d hd => by
    obtain ⟨f, -, hf⟩ := mem_of_agreed hd
    exact f.driver_legal d hf

theorem agreement_singleton (f : ListedFacts) : agreement {f} = f := by
  refine ext ?_ ?_ ?_ <;> simp [agreement, agreed_singleton]

/-- One more listing. -/
theorem agreement_insert {S : Set ListedFacts} (hS : S.Nonempty) (f : ListedFacts) :
    agreement (insert f S) = (agreement S).agree f := by
  refine ext ?_ ?_ ?_
  · simp only [agreement, agree, Set.image_insert_eq, agreed_insert (hS.image labels)]
  · simp only [agreement, agree, Set.image_insert_eq, agreed_insert (hS.image driver)]
  · simp only [agreement, agree, Set.image_insert_eq, agreed_insert (hS.image hasCodegen)]

theorem agree_self (f : ListedFacts) : f.agree f = f := by
  refine ext ?_ ?_ ?_ <;> simp [agree, Heph.agree]

/-- **Going through the listings finds what they agree on.** -/
theorem foldl_agree (f : ListedFacts) (fs : List ListedFacts) :
    fs.foldl agree f = agreement {g | g ∈ f :: fs} := by
  induction fs using reverseRecOn with
  | nil => simp [agreement_singleton]
  | append_singleton fs g ih =>
    rw [foldl_append, foldl_cons, foldl_nil, ih,
      ← agreement_insert ⟨f, mem_cons_self⟩]
    congr 1
    ext h
    simp only [Set.mem_insert_iff, Set.mem_ofPred_eq, mem_cons, mem_append,
      not_mem_nil, or_false]
    tauto

end ListedFacts

/-! ### Reconciling -/

/-- `Candidate`. -/
structure Candidate where
  addr : Addr
  facts : ListedFacts
  lister : ℕ

namespace Candidate

/-- The package and the name of the target. -/
def named (c : Candidate) : Text × Text := (c.addr.package, c.addr.name)

end Candidate

/-- `ListerView`. -/
structure ListerView where
  lister : ℕ
  exact : Addr → Option ListedFacts
  whole : ListedFacts

/-- A view takes in a listing. -/
def ListerView.add (v : ListerView) (c : Candidate) : ListerView where
  lister := v.lister
  whole := v.whole.agree c.facts
  exact := Function.update v.exact c.addr
    (some ((v.exact c.addr).elim c.facts fun f => f.agree c.facts))

theorem ListerView.add_lister (v : ListerView) (c : Candidate) : (v.add c).lister = v.lister := rfl

theorem ListerView.add_exact_self (v : ListerView) (c : Candidate) : (v.add c).exact c.addr =
    some ((v.exact c.addr).elim c.facts fun f => f.agree c.facts) :=
  update_self ..

variable {c : Candidate} {a : Addr} {cs : List Candidate} {l : ℕ} {p : Candidate → Prop}
  {vs listers : List ListerView} {merged : List (Option ListedFacts)}
  {s : (Addr → Option ListedFacts) × List (Option ListedFacts)}

theorem ListerView.add_exact_of_ne (v : ListerView) (h : a ≠ c.addr) :
    (v.add c).exact a = v.exact a :=
  update_of_ne h ..

/-- The view of the provider that has listed the candidate takes it in, and is made if it is not
there. -/
def addListing : List ListerView → Candidate → List ListerView
  | [], c => [ListerView.add ⟨c.lister, fun _ => none, c.facts⟩ c]
  | v :: vs, c => if v.lister = c.lister then v.add c :: vs else v :: addListing vs c

/-- What the providers say of the address. -/
def describe (listers : List ListerView) (a : Addr) : ListedFacts :=
  match listers.map fun v => (v.exact a).getD v.whole with
  | [] => .unknown
  | f :: fs => fs.foldl ListedFacts.agree f

/-- `by_name`: for each name the positions of its candidates. -/
def byName (cs : List Candidate) : Text × Text → List ℕ :=
  cs.zipIdx.foldl (fun map ci => Function.update map ci.1.named (map ci.1.named ++ [ci.2]))
    fun _ => []

/-- The facts for one candidate of a group, by its position; those of an address are made once. -/
def writeFacts (cs : List Candidate) (listers : List ListerView)
    (s : (Addr → Option ListedFacts) × List (Option ListedFacts)) (i : ℕ) :
    (Addr → Option ListedFacts) × List (Option ListedFacts) :=
  match cs[i]? with
  | none => s
  | some c =>
    let facts := (s.1 c.addr).getD (describe listers c.addr)
    (Function.update s.1 c.addr (some facts), s.2.set i (some facts))

/-- The facts for a group. -/
def writeGroup (cs : List Candidate) (merged : List (Option ListedFacts)) (group : List ℕ) :
    List (Option ListedFacts) :=
  let listers := (group.filterMap (cs[·]?)).foldl addListing []
  (group.foldl (writeFacts cs listers) (fun _ => none, merged)).2

/-- `reconcile_by_name`, with the names in the order in which the map of groups is walked. -/
def reconcileByName (names : List (Text × Text)) (cs : List Candidate) : List Candidate :=
  let merged := (names.map (byName cs)).foldl (writeGroup cs) (List.replicate cs.length none)
  List.zipWith (fun c facts => facts.elim c fun f => { c with facts := f }) cs merged

/-- `merge_listings`. -/
def mergeListings (names : List (Text × Text)) (cs : List Candidate) : List Candidate :=
  firsts Candidate.addr [] (reconcileByName names cs)

/-- The names are those that have a group, each of them once. -/
structure NamesOf (cs : List Candidate) (names : List (Text × Text)) : Prop where
  nodup : names.Nodup
  mem_iff : ∀ k, k ∈ names ↔ byName cs k ≠ []

/-! ### What is meant -/

/-- What a provider lists of the address: its listings of the very address, if it has any, and else
all those of the name. -/
def ownListings (cs : List Candidate) (a : Addr) (l : ℕ) : Set Candidate :=
  {d | d ∈ cs ∧ d.lister = l ∧ d.named = (a.package, a.name) ∧
    ((∃ e ∈ cs, e.lister = l ∧ e.addr = a) → d.addr = a)}

/-- What a provider says of the address. -/
noncomputable def ownFacts (cs : List Candidate) (a : Addr) (l : ℕ) : ListedFacts :=
  .agreement (Set.image Candidate.facts (ownListings cs a l))

/-- **What is said of the address**: what all providers agree on that list its name. -/
noncomputable def describedAs (cs : List Candidate) (a : Addr) : ListedFacts :=
  .agreement (Set.image (ownFacts cs a)
    {l | ∃ d ∈ cs, d.lister = l ∧ d.named = (a.package, a.name)})

/-! ### The groups -/

theorem byName_snoc (cs : List Candidate) (c : Candidate) :
    byName (cs ++ [c]) =
      Function.update (byName cs) c.named (byName cs c.named ++ [cs.length]) := by
  simp [byName, zipIdx_append]

theorem mem_byName {k : Text × Text} {i : ℕ} :
    i ∈ byName cs k ↔ ∃ c, cs[i]? = some c ∧ c.named = k := by
  induction cs using reverseRecOn with
  | nil => simp [byName]
  | append_singleton cs c ih =>
    rw [byName_snoc]
    by_cases hk : k = c.named
    · subst hk
      rw [update_self, mem_append, ih, mem_singleton, getElem?_append]
      constructor
      · rintro (⟨d, hd, hname⟩ | rfl)
        · refine ⟨d, ?_, hname⟩
          rw [if_pos (List.getElem?_eq_some_iff.mp hd).1, hd]
        · exact ⟨c, by simp, rfl⟩
      · rintro ⟨d, hd, hname⟩
        split at hd
        · exact .inl ⟨d, hd, hname⟩
        · have := (List.getElem?_eq_some_iff.mp hd).1
          simp only [length_singleton] at this
          exact .inr (by omega)
    · rw [update_of_ne hk, ih]
      constructor
      · rintro ⟨d, hd, hname⟩
        refine ⟨d, ?_, hname⟩
        rw [getElem?_append_left (List.getElem?_eq_some_iff.mp hd).1, hd]
      · rintro ⟨d, hd, hname⟩
        rw [getElem?_append] at hd
        split at hd
        · exact ⟨d, hd, hname⟩
        · have hmem := mem_of_getElem? hd
          rw [mem_singleton.mp hmem] at hname
          exact absurd hname.symm hk

/-- **The candidates of a group** are those with its name, in order. -/
theorem byName_filterMap (cs : List Candidate) (k : Text × Text) :
    (byName cs k).filterMap (cs[·]?) = cs.filter fun c => c.named = k := by
  induction cs using reverseRecOn with
  | nil => simp
  | append_singleton cs c ih =>
    -- the candidates that are there already keep their positions
    have hold : (byName cs k).filterMap ((cs ++ [c])[·]?) =
        (byName cs k).filterMap (cs[·]?) := by
      refine filterMap_congr fun i hi => ?_
      obtain ⟨d, hd, -⟩ := mem_byName.mp hi
      rw [getElem?_append_left (List.getElem?_eq_some_iff.mp hd).1]
    rw [byName_snoc]
    by_cases hk : k = c.named
    · subst hk
      rw [update_self, filterMap_append, hold, ih]
      simp
    · rw [update_of_ne hk, hold, ih]
      simp [Ne.symm hk]

/-! ### The views -/

/-- The listings of a provider, and those of them for an address. -/
def listedBy (cs : List Candidate) (l : ℕ) : Set ListedFacts :=
  Set.image Candidate.facts {d | d ∈ cs ∧ d.lister = l}

def listedAt (cs : List Candidate) (l : ℕ) (a : Addr) : Set ListedFacts :=
  Set.image Candidate.facts {d | d ∈ cs ∧ d.lister = l ∧ d.addr = a}

theorem mem_snoc {d : Candidate} : d ∈ cs ++ [c] ↔ d = c ∨ d ∈ cs := by
  rw [mem_append, mem_singleton, or_comm]

theorem image_snoc_of_mem (h : p c) : Set.image Candidate.facts {d | d ∈ cs ++ [c] ∧ p d} =
    insert c.facts (Set.image Candidate.facts {d | d ∈ cs ∧ p d}) := by
  rw [← Set.image_insert_eq]
  congr 1
  ext d
  simp only [Set.mem_ofPred_eq, mem_snoc]
  constructor
  · rintro ⟨rfl | hd, hl⟩
    · exact .inl rfl
    · exact .inr ⟨hd, hl⟩
  · rintro (rfl | ⟨hd, hl⟩)
    · exact ⟨.inl rfl, h⟩
    · exact ⟨.inr hd, hl⟩

theorem image_snoc_of_notMem (h : ¬p c) : Set.image Candidate.facts {d | d ∈ cs ++ [c] ∧ p d} =
    Set.image Candidate.facts {d | d ∈ cs ∧ p d} := by
  congr 1
  ext d
  simp only [Set.mem_ofPred_eq, mem_snoc]
  constructor
  · rintro ⟨rfl | hd, hl⟩
    · exact absurd hl h
    · exact ⟨hd, hl⟩
  · rintro ⟨hd, hl⟩
    exact ⟨.inr hd, hl⟩

theorem listedBy_snoc_self : listedBy (cs ++ [c]) c.lister =
    insert c.facts (listedBy cs c.lister) :=
  image_snoc_of_mem rfl

theorem listedBy_snoc_of_ne (h : c.lister ≠ l) : listedBy (cs ++ [c]) l = listedBy cs l :=
  image_snoc_of_notMem h

theorem listedAt_snoc_self : listedAt (cs ++ [c]) c.lister c.addr =
    insert c.facts (listedAt cs c.lister c.addr) :=
  image_snoc_of_mem ⟨rfl, rfl⟩

theorem listedAt_snoc_of_ne (h : ¬ (c.lister = l ∧ c.addr = a)) :
    listedAt (cs ++ [c]) l a = listedAt cs l a :=
  image_snoc_of_notMem h

/-- **A view tells what its provider has listed.** -/
structure ViewOf (cs : List Candidate) (v : ListerView) : Prop where
  listed : (listedBy cs v.lister).Nonempty
  whole : v.whole = .agreement (listedBy cs v.lister)
  exact_some : ∀ a, (listedAt cs v.lister a).Nonempty →
    v.exact a = some (.agreement (listedAt cs v.lister a))
  exact_none : ∀ a, ¬ (listedAt cs v.lister a).Nonempty → v.exact a = none

namespace ViewOf

variable {v : ListerView}

/-- Another provider lists something. -/
theorem keep (h : ViewOf cs v) (hne : v.lister ≠ c.lister) : ViewOf (cs ++ [c]) v := by
  have hat : ∀ a, listedAt (cs ++ [c]) v.lister a = listedAt cs v.lister a := fun a =>
    listedAt_snoc_of_ne fun hc => hne hc.1.symm
  constructor
  · rw [listedBy_snoc_of_ne hne.symm]
    exact h.listed
  · rw [listedBy_snoc_of_ne hne.symm]
    exact h.whole
  · intro a
    rw [hat]
    exact h.exact_some a
  · intro a
    rw [hat]
    exact h.exact_none a

/-- What a view says of an address after a listing has been taken in, from what it said before. -/
theorem add_exact (heq : v.lister = c.lister) (hsome : ∀ a, (listedAt cs v.lister a).Nonempty →
      v.exact a = some (.agreement (listedAt cs v.lister a)))
    (hnone : ∀ a, ¬ (listedAt cs v.lister a).Nonempty → v.exact a = none) (a : Addr) :
    ((listedAt (cs ++ [c]) (v.add c).lister a).Nonempty →
      (v.add c).exact a = some (.agreement (listedAt (cs ++ [c]) (v.add c).lister a))) ∧
    (¬ (listedAt (cs ++ [c]) (v.add c).lister a).Nonempty → (v.add c).exact a = none) := by
  have hlister : (v.add c).lister = c.lister := (v.add_lister c).trans heq
  rw [heq] at hsome hnone
  rw [hlister]
  by_cases ha : c.addr = a
  · subst ha
    rw [listedAt_snoc_self]
    refine ⟨fun _ => ?_, fun h => absurd (Set.insert_nonempty _ _) h⟩
    rw [ListerView.add_exact_self]
    by_cases hS : (listedAt cs c.lister c.addr).Nonempty
    · rw [hsome _ hS, agreement_insert hS]
      rfl
    · rw [hnone _ hS, Set.not_nonempty_iff_eq_empty.mp hS, insert_empty_eq,
        agreement_singleton]
      rfl
  · rw [listedAt_snoc_of_ne fun h => ha h.2, ListerView.add_exact_of_ne v (Ne.symm ha)]
    exact ⟨hsome a, hnone a⟩

/-- The provider lists something more. -/
theorem add (h : ViewOf cs v) (heq : v.lister = c.lister) : ViewOf (cs ++ [c]) (v.add c) := by
  have hexact := add_exact heq h.exact_some h.exact_none
  have hlister : (v.add c).lister = c.lister := (v.add_lister c).trans heq
  refine ⟨?_, ?_, fun a => (hexact a).1, fun a => (hexact a).2⟩
  · rw [hlister, listedBy_snoc_self]
    exact Set.insert_nonempty _ _
  · have hlisted := h.listed
    rw [heq] at hlisted
    rw [hlister, listedBy_snoc_self, agreement_insert hlisted, ListerView.add, h.whole,
      heq]

/-- A provider that has listed nothing lists something. -/
theorem new (h : ∀ d ∈ cs, d.lister ≠ c.lister) :
    ViewOf (cs ++ [c]) (ListerView.add ⟨c.lister, fun _ => none, c.facts⟩ c) := by
  have hby : listedBy cs c.lister = ∅ := by
    rw [listedBy, Set.image_eq_empty, Set.eq_empty_iff_forall_notMem]
    exact fun d hd => h d hd.1 hd.2
  have hat : ∀ a, ¬ (listedAt cs c.lister a).Nonempty := by
    rintro a ⟨_, d, hd, -⟩
    exact h d hd.1 hd.2.1
  have hexact := add_exact (v := ⟨c.lister, fun _ => none, c.facts⟩) rfl
    (fun a hS => absurd hS (hat a)) fun a _ => rfl
  refine ⟨?_, ?_, fun a => (hexact a).1, fun a => (hexact a).2⟩
  · rw [ListerView.add_lister, listedBy_snoc_self]
    exact Set.insert_nonempty _ _
  · rw [ListerView.add_lister, listedBy_snoc_self, hby, insert_empty_eq,
      agreement_singleton]
    exact agree_self c.facts

end ViewOf

/-- **The views tell what each provider has listed**, and there is one for each. -/
structure Viewed (cs : List Candidate) (vs : List ListerView) : Prop where
  nodup : (vs.map ListerView.lister).Nodup
  mem_iff : ∀ l, l ∈ vs.map ListerView.lister ↔ ∃ d ∈ cs, d.lister = l
  view : ∀ v ∈ vs, ViewOf cs v

theorem map_lister_addListing (vs : List ListerView) (c : Candidate) :
    (addListing vs c).map ListerView.lister =
      if c.lister ∈ vs.map ListerView.lister then vs.map ListerView.lister
      else vs.map ListerView.lister ++ [c.lister] := by
  induction vs with
  | nil => simp [addListing, ListerView.add]
  | cons v vs ih =>
    rw [addListing]
    by_cases hv : v.lister = c.lister
    · simp [hv, ListerView.add]
    · rw [if_neg hv, map_cons, ih, map_cons]
      by_cases hm : c.lister ∈ vs.map ListerView.lister
      · rw [if_pos hm, if_pos (mem_cons_of_mem _ hm)]
      · rw [if_neg hm, if_neg, cons_append]
        rw [mem_cons, not_or]
        exact ⟨Ne.symm hv, hm⟩

/-- The views after a listing: the one that takes it in, or is made for it, and the others. -/
theorem mem_addListing {w : ListerView}
    (hnodup : (vs.map ListerView.lister).Nodup) (h : w ∈ addListing vs c) :
    (w ∈ vs ∧ w.lister ≠ c.lister) ∨ (∃ v ∈ vs, v.lister = c.lister ∧ w = v.add c) ∨
      (c.lister ∉ vs.map ListerView.lister ∧
        w = ListerView.add ⟨c.lister, fun _ => none, c.facts⟩ c) := by
  induction vs with
  | nil => exact .inr (.inr ⟨not_mem_nil, mem_singleton.mp h⟩)
  | cons v vs ih =>
    rw [map_cons, nodup_cons] at hnodup
    rw [addListing] at h
    by_cases hv : v.lister = c.lister
    · rw [if_pos hv] at h
      rcases mem_cons.mp h with rfl | h
      · exact .inr (.inl ⟨v, mem_cons_self, hv, rfl⟩)
      · refine .inl ⟨mem_cons_of_mem _ h, fun hw => hnodup.1 ?_⟩
        rw [hv, ← hw]
        exact mem_map_of_mem h
    · rw [if_neg hv] at h
      rcases mem_cons.mp h with rfl | h
      · exact .inl ⟨mem_cons_self, hv⟩
      · rcases ih hnodup.2 h with ⟨hm, hne⟩ | ⟨u, hu, hul, rfl⟩ | ⟨hm, rfl⟩
        · exact .inl ⟨mem_cons_of_mem _ hm, hne⟩
        · exact .inr (.inl ⟨u, mem_cons_of_mem _ hu, hul, rfl⟩)
        · refine .inr (.inr ⟨?_, rfl⟩)
          rw [map_cons, mem_cons, not_or]
          exact ⟨Ne.symm hv, hm⟩

/-- One more listing. -/
theorem Viewed.addListing (h : Viewed cs vs)
    (c : Candidate) : Viewed (cs ++ [c]) (addListing vs c) := by
  refine ⟨?_, ?_, ?_⟩
  · rw [map_lister_addListing]
    split
    · exact h.nodup
    · next hm =>
      exact nodup_append'.mpr ⟨h.nodup, nodup_singleton _, by simpa using hm⟩
  · intro l
    have hmem : l ∈ (Heph.addListing vs c).map ListerView.lister ↔
        l = c.lister ∨ l ∈ vs.map ListerView.lister := by
      rw [map_lister_addListing]
      split
      · next hm =>
        refine ⟨.inr, ?_⟩
        rintro (rfl | hl)
        · exact hm
        · exact hl
      · rw [mem_append, mem_singleton, or_comm]
    rw [hmem, h.mem_iff]
    constructor
    · rintro (rfl | ⟨d, hd, hl⟩)
      · exact ⟨c, mem_snoc.mpr (.inl rfl), rfl⟩
      · exact ⟨d, mem_snoc.mpr (.inr hd), hl⟩
    · rintro ⟨d, hd, hl⟩
      rcases mem_snoc.mp hd with rfl | hd
      · exact .inl hl.symm
      · exact .inr ⟨d, hd, hl⟩
  · intro w hw
    rcases mem_addListing h.nodup hw with ⟨hw, hne⟩ | ⟨v, hv, hl, rfl⟩ | ⟨hm, rfl⟩
    · exact (h.view w hw).keep hne
    · exact (h.view v hv).add hl
    · refine .new fun d hd hl => hm ?_
      exact (h.mem_iff c.lister).mpr ⟨d, hd, hl⟩

/-- **The views of a group.** -/
theorem viewed_foldl (cs : List Candidate) : Viewed cs (cs.foldl addListing []) := by
  induction cs using reverseRecOn with
  | nil => exact ⟨nodup_nil, by simp, by simp⟩
  | append_singleton cs c ih =>
    rw [foldl_append]
    exact ih.addListing c

/-! ### What is written -/

/-- A view of the group says of an address what its provider says. -/
theorem ViewOf.own {v : ListerView}
    (h : ViewOf (cs.filter fun c => c.named = (a.package, a.name)) v) :
    (v.exact a).getD v.whole = ownFacts cs a v.lister := by
  by_cases hS : (listedAt (cs.filter fun c => c.named = (a.package, a.name)) v.lister a).Nonempty
  · -- the provider lists the very address
    rw [h.exact_some a hS, getD_some, listedAt]
    congr 2
    obtain ⟨_, e, he, -⟩ := hS
    have hexact : ∃ e ∈ cs, e.lister = v.lister ∧ e.addr = a :=
      ⟨e, mem_of_mem_filter he.1, he.2⟩
    ext d
    simp only [ownListings, Set.mem_ofPred_eq, mem_filter, decide_eq_true_eq]
    constructor
    · rintro ⟨⟨hd, hname⟩, hl, haddr⟩
      exact ⟨hd, hl, hname, fun _ => haddr⟩
    · rintro ⟨hd, hl, hname, haddr⟩
      exact ⟨⟨hd, hname⟩, hl, haddr hexact⟩
  · rw [h.exact_none a hS, getD_none, h.whole, listedBy]
    congr 2
    ext d
    simp only [ownListings, Set.mem_ofPred_eq, mem_filter, decide_eq_true_eq]
    constructor
    · rintro ⟨⟨hd, hname⟩, hl⟩
      refine ⟨hd, hl, hname, fun ⟨e, he, hel, hea⟩ => absurd ⟨e.facts, e, ⟨?_, hel, hea⟩, rfl⟩ hS⟩
      rw [mem_filter, decide_eq_true_eq, ← hea]
      exact ⟨he, rfl⟩
    · rintro ⟨hd, hl, hname, -⟩
      exact ⟨⟨hd, hname⟩, hl⟩

/-- **What the source says of an address is what is meant.** -/
theorem describe_eq (h : ∃ c ∈ cs, c.named = (a.package, a.name)) :
    describe ((cs.filter fun c => c.named = (a.package, a.name)).foldl addListing []) a =
      describedAs cs a := by
  have hviewed := viewed_foldl (cs.filter fun c => c.named = (a.package, a.name))
  generalize (cs.filter fun c => c.named = (a.package, a.name)).foldl addListing [] = vs at hviewed
  have hmap : vs.map (fun v => (v.exact a).getD v.whole) =
      (vs.map ListerView.lister).map (ownFacts cs a) := by
    rw [List.map_map]
    exact map_congr_left fun v hv => (hviewed.view v hv).own
  have hlisters : {l | ∃ d ∈ cs, d.lister = l ∧ d.named = (a.package, a.name)} =
      {l | l ∈ vs.map ListerView.lister} := by
    ext l
    simp only [Set.mem_ofPred_eq, hviewed.mem_iff, mem_filter, decide_eq_true_eq]
    constructor
    · rintro ⟨d, hd, hl, hname⟩
      exact ⟨d, ⟨hd, hname⟩, hl⟩
    · rintro ⟨d, ⟨hd, hname⟩, hl⟩
      exact ⟨d, hd, hl, hname⟩
  rw [describe, hmap, describedAs, hlisters]
  cases hls : vs.map ListerView.lister with
  | nil =>
    obtain ⟨c, hc, hname⟩ := h
    have hl := (hviewed.mem_iff c.lister).mpr ⟨c, mem_filter.mpr ⟨hc, by simpa using hname⟩, rfl⟩
    rw [hls] at hl
    exact absurd hl not_mem_nil
  | cons l ls =>
    refine (foldl_agree _ _).trans (congrArg _ ?_)
    ext f
    simp [eq_comm]

/-- What has been written is what is meant, wherever something has been written. -/
def WrittenRight (cs : List Candidate) (merged : List (Option ListedFacts)) : Prop :=
  merged.length = cs.length ∧
    ∀ (i : ℕ) (c : Candidate) (f : ListedFacts), cs[i]? = some c → merged[i]? = some (some f) →
      f = describedAs cs c.addr

/-- Something has been written for the candidate. -/
def HasWritten (merged : List (Option ListedFacts)) (i : ℕ) : Prop := ∃ f, merged[i]? = some
    (some f)

/-- What is kept for the addresses of a group is what the views say of them. -/
def KeptRight (listers : List ListerView) (byAddr : Addr → Option ListedFacts) : Prop :=
  ∀ a f, byAddr a = some f → f = describe listers a

/-- One candidate. -/
theorem writeFacts_right {i : ℕ}
    (hdescribe : ∀ c, cs[i]? = some c → describe listers c.addr = describedAs cs c.addr)
    (hkept : KeptRight listers s.1) (hright : WrittenRight cs s.2) :
    KeptRight listers (writeFacts cs listers s i).1 ∧
      WrittenRight cs (writeFacts cs listers s i).2 ∧
      ∀ j, HasWritten s.2 j ∨ (j = i ∧ i < cs.length) →
        HasWritten (writeFacts cs listers s i).2 j := by
  rw [writeFacts]
  cases hi : cs[i]? with
  | none =>
    refine ⟨hkept, hright, ?_⟩
    rintro j (hj | ⟨rfl, hlt⟩)
    · exact hj
    · exact absurd (getElem?_eq_none_iff.mp hi) (by omega)
  | some c =>
    have hfacts : (s.1 c.addr).getD (describe listers c.addr) = describe listers c.addr := by
      cases hs : s.1 c.addr with
      | none => rfl
      | some f => exact hkept c.addr f hs
    have hlt : i < s.2.length := by
      rw [hright.1]
      exact (List.getElem?_eq_some_iff.mp hi).1
    dsimp only
    rw [hfacts]
    refine ⟨?_, ⟨?_, ?_⟩, ?_⟩
    · intro a f hf
      by_cases ha : a = c.addr
      · subst ha
        rw [update_self] at hf
        exact (some.inj hf).symm
      · rw [update_of_ne ha] at hf
        exact hkept a f hf
    · rw [length_set]
      exact hright.1
    · intro j d f hj hf
      by_cases hij : i = j
      · subst hij
        rw [getElem?_set_self hlt] at hf
        obtain rfl := some.inj (hi.symm.trans hj)
        rw [← some.inj (some.inj hf)]
        exact hdescribe c hi
      · rw [getElem?_set_ne hij] at hf
        exact hright.2 j d f hj hf
    · intro j hj
      by_cases hij : i = j
      · subst hij
        exact ⟨_, getElem?_set_self hlt⟩
      · rcases hj with ⟨f, hf⟩ | ⟨rfl, -⟩
        · exact ⟨f, by rw [getElem?_set_ne hij, hf]⟩
        · exact absurd rfl hij

/-- The candidates of a group. -/
theorem foldl_writeFacts_right {group : List ℕ} (hdescribe : ∀ i ∈ group, ∀ c, cs[i]? = some c →
      describe listers c.addr = describedAs cs c.addr)
    (hkept : KeptRight listers s.1) (hright : WrittenRight cs s.2) :
    WrittenRight cs (group.foldl (writeFacts cs listers) s).2 ∧
      ∀ j, HasWritten s.2 j ∨ (j ∈ group ∧ j < cs.length) →
        HasWritten (group.foldl (writeFacts cs listers) s).2 j := by
  induction group generalizing s with
  | nil =>
    refine ⟨hright, ?_⟩
    rintro j (hj | ⟨hj, -⟩)
    · exact hj
    · exact absurd hj not_mem_nil
  | cons i group ih =>
    obtain ⟨hkept', hright', hwritten⟩ :=
      writeFacts_right (hdescribe i mem_cons_self) hkept hright
    obtain ⟨hright'', hwritten'⟩ :=
      ih (fun j hj => hdescribe j (mem_cons_of_mem _ hj)) hkept' hright'
    refine ⟨hright'', ?_⟩
    rintro j (hj | ⟨hj, hlt⟩)
    · exact hwritten' j (.inl (hwritten j (.inl hj)))
    · rcases mem_cons.mp hj with rfl | hj
      · exact hwritten' j (.inl (hwritten j (.inr ⟨rfl, hlt⟩)))
      · exact hwritten' j (.inr ⟨hj, hlt⟩)

/-- **A group.** -/
theorem writeGroup_right (k : Text × Text) (hright : WrittenRight cs merged) :
    WrittenRight cs (writeGroup cs merged (byName cs k)) ∧
      ∀ j, HasWritten merged j ∨ (∃ c, cs[j]? = some c ∧ c.named = k) →
        HasWritten (writeGroup cs merged (byName cs k)) j := by
  have hdescribe : ∀ i ∈ byName cs k, ∀ c, cs[i]? = some c →
      describe ((cs.filter fun c => c.named = k).foldl addListing []) c.addr =
        describedAs cs c.addr := by
    intro i hi c hc
    obtain ⟨d, hd, rfl⟩ := mem_byName.mp hi
    obtain rfl := some.inj (hc.symm.trans hd)
    exact describe_eq ⟨c, mem_of_getElem? hc, rfl⟩
  have hgroup := foldl_writeFacts_right hdescribe (s := (fun _ => none, merged))
    (fun a f hf => by cases hf) hright
  rw [writeGroup, byName_filterMap]
  refine ⟨hgroup.1, ?_⟩
  rintro j (hj | ⟨c, hc, hname⟩)
  · exact hgroup.2 j (.inl hj)
  · exact hgroup.2 j (.inr ⟨mem_byName.mpr ⟨c, hc, hname⟩, (List.getElem?_eq_some_iff.mp hc).1⟩)

/-- **All groups**, in any order. -/
theorem foldl_writeGroup_right (names : List (Text × Text)) (hright : WrittenRight cs merged) :
    WrittenRight cs ((names.map (byName cs)).foldl (writeGroup cs) merged) ∧
      ∀ j, HasWritten merged j ∨ (∃ c, cs[j]? = some c ∧ c.named ∈ names) →
        HasWritten ((names.map (byName cs)).foldl (writeGroup cs) merged) j := by
  induction names generalizing merged with
  | nil =>
    refine ⟨hright, ?_⟩
    rintro j (hj | ⟨c, -, hc⟩)
    · exact hj
    · exact absurd hc not_mem_nil
  | cons k names ih =>
    obtain ⟨hright', hwritten⟩ := writeGroup_right k hright
    obtain ⟨hright'', hwritten'⟩ := ih hright'
    refine ⟨hright'', ?_⟩
    rintro j (hj | ⟨c, hc, hname⟩)
    · exact hwritten' j (.inl (hwritten j (.inl hj)))
    · rcases mem_cons.mp hname with hk | hname
      · exact hwritten' j (.inl (hwritten j (.inr ⟨c, hc, hk⟩)))
      · exact hwritten' j (.inr ⟨c, hc, hname⟩)

/-- **Reconciling attaches to each candidate what is meant for its address**, in place. -/
theorem reconcileByName_eq {names : List (Text × Text)} (h : NamesOf cs names) :
    reconcileByName names cs = cs.map fun c => { c with facts := describedAs cs c.addr } := by
  have hnone : WrittenRight cs (replicate cs.length none) := by
    refine ⟨length_replicate, fun i c f _ hf => ?_⟩
    have := eq_of_mem_replicate (mem_of_getElem? hf)
    cases this
  obtain ⟨⟨hlen, hright⟩, hwritten⟩ := foldl_writeGroup_right names hnone
  rw [reconcileByName]
  refine ext_getElem? fun i => ?_
  rw [getElem?_zipWith, getElem?_map]
  cases hi : cs[i]? with
  | none => simp
  | some c =>
    have hname : c.named ∈ names := by
      rw [h.mem_iff]
      exact ne_nil_of_mem (mem_byName.mpr ⟨c, hi, rfl⟩)
    obtain ⟨f, hf⟩ := hwritten i (.inr ⟨c, hi, hname⟩)
    rw [hf, map_some, hright i c f hi hf]
    dsimp only [elim_some]

/-! ### Order -/

/-- The candidate, with the providers in another order. -/
def Candidate.relist (ρ : ℕ → ℕ) (c : Candidate) : Candidate := { c with lister := ρ c.lister }

/-- **The order does not matter**: neither that of the listings nor that of the providers. -/
theorem describedAs_relist {cs cs' : List Candidate} {ρ : ℕ → ℕ} (hρ : Function.Injective ρ)
    (h : cs'.Perm (cs.map (Candidate.relist ρ))) (a : Addr) :
    describedAs cs' a = describedAs cs a := by
  have hmem : ∀ d, d ∈ cs' ↔ ∃ e ∈ cs, e.relist ρ = d := fun d => by
    rw [h.mem_iff, List.mem_map]
  have hown : ∀ l, ownFacts cs' a (ρ l) = ownFacts cs a l := by
    intro l
    rw [ownFacts]
    congr 1
    ext f
    simp only [Set.mem_image, ownListings, Set.mem_ofPred_eq, hmem]
    constructor
    · rintro ⟨_, ⟨⟨e, he, rfl⟩, hl, hname, haddr⟩, rfl⟩
      refine ⟨e, ⟨he, hρ hl, hname, fun ⟨g, hg, hgl, hga⟩ => ?_⟩, rfl⟩
      exact haddr ⟨_, ⟨g, hg, rfl⟩, congrArg ρ hgl, hga⟩
    · rintro ⟨e, ⟨he, hl, hname, haddr⟩, rfl⟩
      refine ⟨_, ⟨⟨e, he, rfl⟩, congrArg ρ hl, hname, ?_⟩, rfl⟩
      rintro ⟨_, ⟨g, hg, rfl⟩, hgl, hga⟩
      exact haddr ⟨g, hg, hρ hgl, hga⟩
  rw [describedAs]
  congr 1
  ext f
  simp only [Set.mem_image, Set.mem_ofPred_eq, hmem]
  constructor
  · rintro ⟨l, ⟨_, ⟨e, he, rfl⟩, rfl, hname⟩, rfl⟩
    exact ⟨e.lister, ⟨e, he, rfl, hname⟩, (hown e.lister).symm⟩
  · rintro ⟨l, ⟨e, he, rfl, hname⟩, rfl⟩
    exact ⟨ρ e.lister, ⟨_, ⟨e, he, rfl⟩, rfl, hname⟩, hown e.lister⟩

/-- **Reconciliation is what is meant.** In whichever order the names are walked, each candidate
stays in its place and gets what the providers agree on for its address; merging keeps the first
candidate for each address and drops the others; and what is agreed on depends neither on the order
of the listings nor on that of the providers. -/
theorem reconcileByName_spec (names : List (Text × Text)) (cs : List Candidate)
    (h : NamesOf cs names) :
    reconcileByName names cs = cs.map (fun c => { c with facts := describedAs cs c.addr }) ∧
      (mergeListings names cs).Sublist (reconcileByName names cs) ∧
      ((mergeListings names cs).map Candidate.addr).Nodup ∧
      (∀ c ∈ cs, c.addr ∈ (mergeListings names cs).map Candidate.addr) ∧
      (∀ c ∈ mergeListings names cs,
        (reconcileByName names cs).find? (fun d => d.addr = c.addr) = some c) ∧
      ∀ (cs' : List Candidate) (ρ : ℕ → ℕ), Function.Injective ρ →
        cs'.Perm (cs.map (Candidate.relist ρ)) → ∀ a, describedAs cs' a = describedAs cs a := by
  have heq := reconcileByName_eq h
  refine ⟨heq, firsts_sublist _ _ _, nodup_map_firsts _ _ _, fun c hc => ?_,
    fun c hc => find?_of_mem_firsts Candidate.addr hc,
    fun cs' ρ hρ hperm a => describedAs_relist hρ hperm a⟩
  rw [mergeListings, mem_map_firsts, heq, List.map_map]
  exact ⟨mem_map_of_mem hc, not_mem_nil⟩

/-- There is an order in which the names can be walked. -/
theorem namesOf_dedup (cs : List Candidate) : NamesOf cs (cs.map Candidate.named).dedup := by
  refine ⟨nodup_dedup _, fun k => ?_⟩
  rw [mem_dedup, List.mem_map]
  constructor
  · rintro ⟨c, hc, rfl⟩
    obtain ⟨i, hi⟩ := mem_iff_getElem?.mp hc
    exact ne_nil_of_mem (mem_byName.mpr ⟨c, hi, rfl⟩)
  · intro hne
    obtain ⟨i, hi⟩ := exists_mem_of_ne_nil _ hne
    obtain ⟨c, hc, hname⟩ := mem_byName.mp hi
    exact ⟨c, mem_of_getElem? hc, hname⟩

/-- Two providers list `test`: one of them with and without arguments, the other as it is. -/
def testListings : List Candidate :=
  let test (args : SortedMap Text Text) : Addr := ⟨"p".toList, "test".toList, args⟩
  let codegen (b : Bool) : ListedFacts := { ListedFacts.unknown with hasCodegen := some b }
  let variant := test (SortedMap.empty.insert "v".toList "x".toList)
  [⟨test .empty, codegen true, 0⟩, ⟨variant, codegen false, 0⟩, ⟨test .empty, codegen true, 1⟩]

theorem reconcileByName_spec_test :
    reconcileByName [("p".toList, "test".toList)] testListings =
        testListings.map (fun c => { c with facts := describedAs testListings c.addr }) ∧
      (mergeListings [("p".toList, "test".toList)] testListings).map
        (fun c => (c.addr.args.entries, c.facts.hasCodegen)) =
        [([], some true), ([("v".toList, "x".toList)], none)] := by
  have hnames : NamesOf testListings [("p".toList, "test".toList)] := namesOf_dedup testListings
  exact ⟨(reconcileByName_spec _ _ hnames).1, by decide⟩

end Heph
