import Heph.Deferred.Collect
import Heph.Query.Lexer

/-!
# Deferred values: what is put in their place

The host reads what the targets have written and substitutes it, field by field. A field that
names a staged path has to wait until its inputs are in the sandbox: it is handed on as it was
written, with the values that it is to get, by address, and for each address to be staged what its
input is called. The managed layer stages the inputs. The paths of what it stages are appended to
a **list**, a file that is called as the input is; so two inputs that are called the same share
one. The layer then finishes the fields, and a path is the only line of a list.
-/

namespace Heph

open List Option SortedMap Except

/-- What is read of a target: one group of its outputs, or all of them. -/
def TargetAddr.source (a : TargetAddr) : Addr × Option Text := (a.ref, a.output)

namespace Deferred

open Template

/-! ### Values -/

/-- An entry of a packed output. -/
structure PackedEntry where
  path : Text
  /-- The bytes of a file; a symbolic link has none. -/
  data : Option ByteArray

/-- **What the targets and the machine have for a run**: the packed outputs of a target, those of
one group or all of them; for what a reference names, the paths that its artifacts are staged
under; and the allotment. -/
structure DeferredWorld where
  artifacts : Addr × Option Text → List (List PackedEntry)
  staged : TargetAddr → List (List Text)
  allotment : SortedMap Text Text

/-- `MAX_VALUE_BYTES`. -/
def maxValueBytes : ℕ := 64 * 1024

/-- `str::trim`. -/
def trim (s : Text) : Text := (s.dropWhile Query.isWhitespace).rdropWhile Query.isWhitespace

/-- `read_deferred_value`, for the artifacts of the target. -/
def readDeferredValue (addr : TargetAddr) (artifacts : List (List PackedEntry)) :
    Except DeferredCause Text :=
  let names := artifacts.flatten.map (·.path)
  if names.length ≠ 1 then .error (.files addr (names.insertionSort (· ≤ ·)))
  else
    let files := artifacts.flatten.filterMap (·.data)
    if files.any fun data => maxValueBytes < data.size then .error (.tooLarge addr)
    else
      match (files.foldl (· ++ ·) ByteArray.empty).utf8Decode? with
      | none => .error (.notUtf8 addr)
      | some text =>
        let text := trim text.toList
        if text.isEmpty then .error (.empty addr)
        else if '\n' ∈ text then .error (.manyLines addr)
        else .ok text

/-- The value of a reference. -/
def DeferredWorld.value (w : DeferredWorld) (a : TargetAddr) : Except DeferredCause Text :=
  readDeferredValue a (w.artifacts a.source)

section Host

variable (w : DeferredWorld) (target : Addr)

/-- The loop of `deferred_values`. -/
def deferredValuesLoop : SortedMap Text Text → List (DeferredRef × Producer) →
    Except DeferredError (SortedMap Text Text)
  | byAddr, [] => .ok byAddr
  | byAddr, e :: rest =>
    if (byAddr.get? e.2.addr.format).isSome then deferredValuesLoop byAddr rest
    else
      match w.value e.2.addr with
      | .error c => .error ⟨[.reading target e.1.raw e.1.path], c⟩
      | .ok v => deferredValuesLoop (byAddr.insert e.2.addr.format v) rest

/-- The targets that are read. -/
def readBy (refs : List DeferredRef) : List (DeferredRef × Producer) :=
  (namedBy refs).filter fun e => e.2.kind = .read

/-- `read_deferred`: the values, by address. -/
def readDeferred (refs : List DeferredRef) : Except DeferredError (SortedMap Text Text) :=
  deferredValuesLoop w target .empty (readBy refs)

/-- `Allotment::reference`. -/
def allotmentReference (allotment : Option (SortedMap Text Text)) (t : Ref) :
    Except DeferredCause Text :=
  match allotment with
  | none => .error (.noAllotment target t.raw)
  | some a => .ok ((a.get? t.arg).getD t.raw)

/-- `DeferredValue`. -/
inductive DeferredValue where
  | ready (v : Text)
  | needsSandbox (reads srcs : SortedMap Text Text)
  deriving DecidableEq

variable (byAddr : SortedMap Text Text) (allotment : Option (SortedMap Text Text))

variable (r : DeferredRef)

/-- The values that a field is to get when it is finished, by address. -/
def readsOf : SortedMap Text Text :=
  .ofList ((r.producers.filter fun p => p.kind = .read).filterMap fun p =>
    (byAddr.get? p.addr.format).map fun v => (p.addr.format, v))

/-- What the inputs of a field are called, by address. -/
def srcsOf : SortedMap Text Text :=
  .ofList ((r.producers.filter fun p => p.kind = .src).map fun p =>
    (p.addr.format, originIdFor r p none))

/-- What the host replaces a reference of a field with. -/
def resolveHere (t : Ref) : Except DeferredError Text :=
  if t.kind = some resourceKind then
    (allotmentReference target allotment t).mapError fun c => ⟨[.text r.raw r.path], c⟩
  else
    match TargetAddr.parse t.arg target.package with
    | .error e => .error ⟨[], .addr e⟩
    | .ok a =>
      match byAddr.get? a.format with
      | some v => .ok v
      | none => .error ⟨[], .noValue a⟩

/-- The loop body of `render_deferred`. -/
def renderRef : Except DeferredError (Text × DeferredValue) :=
  if r.needsSandbox then .ok (r.raw, .needsSandbox (readsOf byAddr r) (srcsOf r))
  else
    (substitute [readKind, resourceKind] (resolveHere target byAddr allotment r)
      (fun e => ⟨[], .template e⟩) r.raw).map fun v => (r.raw, .ready v)

/-- `render_deferred`. -/
def renderDeferred (refs : List DeferredRef) :
    Except DeferredError (SortedMap Text DeferredValue) := do
  return .ofList (← refs.mapM (renderRef target byAddr allotment))

end Host

/-! ### Staging -/

/-- An artifact that is staged for an input, with the paths it is staged under. -/
structure StagedArtifact where
  input : Input
  paths : List Text

/-- The artifacts that are staged for the inputs. -/
def DeferredWorld.stagedFor (w : DeferredWorld) (inputs : List Input) : List StagedArtifact :=
  (inputs.filter (·.runtime)).flatMap fun i => (w.staged i.ref).map (⟨i, ·⟩)

/-- `list_path_for`, in the directory of the lists. -/
def listPathFor (i : Input) : Text := "input_".toList ++ (i.originId ++ ".list".toList)

/-- What is appended to a list for an artifact. -/
def listLines (paths : List Text) : Text := paths.flatMap (· ++ ['\n'])

/-- The staging of artifacts: the lists, by name. There are no directories for a name with a
slash. -/
def stage : SortedMap Text Text → List StagedArtifact → Except DeferredError (SortedMap Text Text)
  | lists, [] => .ok lists
  | lists, a :: rest =>
    let name := listPathFor a.input
    if '/' ∈ name then .error ⟨[.unpack a.input.originId a.input.ref.ref], .openList name⟩
    else stage (lists.insert name ((lists.get? name).getD [] ++ listLines a.paths)) rest

/-! ### Finishing the fields -/

/-- The loop of `str::lines`, with the line so far. -/
def linesLoop : Text → Text → List Text
  | cur, [] => if cur.isEmpty then [] else [cur]
  | cur, c :: rest =>
    if c = '\n' then (if cur.getLast? = some '\r' then cur.dropLast else cur) :: linesLoop [] rest
    else linesLoop (cur ++ [c]) rest

/-- `str::lines`. -/
def lines (s : Text) : List Text := linesLoop [] s

/-- The only path of those that the reference with an argument was staged under. -/
def onlyPath (arg : Text) : List Text → Except DeferredCause Text
  | [] => .error (.stagedNone arg)
  | [first] => .ok first
  | all => .error (.stagedMany arg (all.insertionSort (· ≤ ·)))

theorem onlyPath_eq_ok {arg v : Text} {l : List Text} : onlyPath arg l = .ok v ↔ l = [v] := by
  cases l with
  | nil => simp [onlyPath]
  | cons x l => cases l <;> simp [onlyPath]

/-- `staged_path`. -/
def stagedPath (artifacts : List StagedArtifact) (lists : SortedMap Text Text)
    (originId arg : Text) : Except DeferredCause Text :=
  match artifacts.find? fun a => a.input.originId = originId with
  | none => .error (.notStaged arg originId)
  | some a =>
    match lists.get? (listPathFor a.input) with
    | none => .error (.readList (listPathFor a.input))
    | some listed => onlyPath arg ((lines listed).filter fun l => !l.isEmpty)

section Managed

variable (target : Addr) (artifacts : List StagedArtifact) (lists : SortedMap Text Text)
  (allotment : Option (SortedMap Text Text))

/-- What the managed layer replaces a reference of a field with. -/
def resolveStaged (reads srcs : SortedMap Text Text) (t : Ref) : Except DeferredCause Text :=
  if t.kind = some resourceKind then allotmentReference target allotment t
  else
    match reads.get? t.arg with
    | some v => .ok v
    | none =>
      match srcs.get? t.arg with
      | some originId => stagedPath artifacts lists originId t.arg
      | none => .error (.notResolved t.raw)

/-- The loop body of `complete_deferred`. -/
def completeField (e : Text × DeferredValue) : Except DeferredError (Text × DeferredValue) :=
  match e.2 with
  | .ready _ => .ok e
  | .needsSandbox reads srcs =>
    match substitute deferredKinds (resolveStaged target artifacts lists allotment reads srcs)
        .template e.1 with
    | .error c => .error ⟨[.staged target], c⟩
    | .ok v => .ok (e.1, .ready v)

/-- `complete_deferred`. -/
def completeDeferred (values : SortedMap Text DeferredValue) :
    Except DeferredError (SortedMap Text DeferredValue) := do
  return .ofList (← values.entries.mapM (completeField target artifacts lists allotment))

end Managed

/-- **The deferred fields of a run**: what `execute` and the managed layer make of the references
that were collected. -/
def DeferredWorld.fillFields (w : DeferredWorld) (target : Addr) (refs : List DeferredRef) :
    Except DeferredError (SortedMap Text DeferredValue) := do
  let byAddr ← readDeferred w target refs
  let values ← renderDeferred target byAddr (some w.allotment) refs
  let artifacts := w.stagedFor (inputsFor refs)
  let lists ← stage .empty artifacts
  completeDeferred target artifacts lists (some w.allotment) values

/-! ### What is read -/

section Read

variable {w : DeferredWorld} {target : Addr} {l : List (DeferredRef × Producer)}
  {byAddr byAddr' : SortedMap Text Text} {e : DeferredError}

section

variable (h : deferredValuesLoop w target byAddr l = .ok byAddr')

include h

/-- **What is read for an address** is the value of the first target that prints like it. -/
theorem get?_of_deferredValuesLoop (k : Text) : byAddr'.get? k = (byAddr.get? k).or
      ((l.find? fun x => x.2.addr.format = k).bind fun x => (w.value x.2.addr).toOption) := by
  induction l generalizing byAddr with
  | nil =>
    obtain rfl : byAddr = byAddr' := ok.inj h
    rw [find?_nil, bind_none, or_none]
  | cons x l ih =>
    rw [deferredValuesLoop] at h
    split at h
    · next hseen =>
      -- the address has its value
      rw [ih h]
      by_cases hk : x.2.addr.format = k
      · subst hk
        obtain ⟨v, hv⟩ := isSome_iff_exists.mp hseen
        rw [hv, some_or, some_or]
      · rw [find?_cons_of_neg (by simpa using hk)]
    · next hnew =>
      split at h
      · cases h
      · next v hv =>
        rw [ih h, get?_insert]
        by_cases hk : x.2.addr.format = k
        · subst hk
          rw [if_pos rfl, find?_cons_of_pos (by simp), bind_some, hv]
          rw [not_isSome_iff_eq_none.mp hnew]
          rfl
        · rw [if_neg (Ne.symm hk), find?_cons_of_neg (by simpa using hk)]

/-- **What is read has been read**: a target that has no value stops the reading. -/
theorem value_ok_of_deferredValuesLoop {x : DeferredRef × Producer}
    (hx : l.find? (fun y => y.2.addr.format = x.2.addr.format) = some x)
    (hnew : byAddr.get? x.2.addr.format = none) : ∃ v, w.value x.2.addr = .ok v := by
  induction l generalizing byAddr with
  | nil => cases hx
  | cons y l ih =>
    rw [deferredValuesLoop] at h
    by_cases hk : y.2.addr.format = x.2.addr.format
    · rw [find?_cons_of_pos (by simpa using hk)] at hx
      obtain rfl := some.inj hx
      rw [hnew, if_neg (by simp)] at h
      cases hv : w.value y.2.addr with
      | ok v => exact ⟨v, rfl⟩
      | error c => rw [hv] at h; cases h
    · rw [find?_cons_of_neg (by simpa using hk)] at hx
      split at h
      · exact ih h hx hnew
      · split at h
        · cases h
        · exact ih h hx (by rw [get?_insert, if_neg (Ne.symm hk), hnew])

end

/-- A reading that fails does so at a target that has no value. -/
theorem exists_of_deferredValuesLoop_error (h : deferredValuesLoop w target byAddr l = .error e) :
    ∃ x ∈ l, w.value x.2.addr = .error e.cause := by
  induction l generalizing byAddr with
  | nil => cases h
  | cons x l ih =>
    rw [deferredValuesLoop] at h
    split at h
    · obtain ⟨y, hy, hv⟩ := ih h
      exact ⟨y, mem_cons_of_mem x hy, hv⟩
    · split at h
      · next c hc =>
        obtain rfl := error.inj h
        exact ⟨x, mem_cons_self, hc⟩
      · obtain ⟨y, hy, hv⟩ := ih h
        exact ⟨y, mem_cons_of_mem x hy, hv⟩

end Read

/-! ### What is staged -/

section Staged

/-- What can be told from the others in a list: a path that is one line of it. -/
structure IsLine (p : Text) : Prop where
  ne_nil : p ≠ []
  newline : '\n' ∉ p
  getLast? : p.getLast? ≠ some '\r'

variable {paths : List Text} {p rest : Text} {l : List StagedArtifact}
  {lists lists' : SortedMap Text Text} {w : DeferredWorld} {inputs : List Input}
  {originId arg : Text}

theorem linesLoop_append (hp : '\n' ∉ p) (cur : Text) :
    linesLoop cur (p ++ '\n' :: rest) =
      (if (cur ++ p).getLast? = some '\r' then (cur ++ p).dropLast else cur ++ p) ::
        linesLoop [] rest := by
  induction p generalizing cur with
  | nil => rw [nil_append, append_nil, linesLoop, if_pos rfl]
  | cons c p ih =>
    obtain ⟨hc, hp⟩ := not_or.mp (mem_cons.not.mp hp)
    rw [cons_append, linesLoop, if_neg (Ne.symm hc), ih hp, append_assoc]
    rfl

/-- **The lines of a list are the paths that were appended to it.** -/
theorem lines_listLines (h : ∀ p ∈ paths, IsLine p) :
    (lines (listLines paths)).filter (fun l => !l.isEmpty) = paths := by
  induction paths with
  | nil => rfl
  | cons p paths ih =>
    have hp := h p mem_cons_self
    have hrest := ih fun q hq => h q (mem_cons_of_mem p hq)
    have happ : listLines (p :: paths) = p ++ '\n' :: listLines paths := by
      rw [listLines, flatMap_cons, append_assoc]
      rfl
    rw [happ, lines, linesLoop_append hp.newline, nil_append, if_neg hp.getLast?,
      filter_cons_of_pos (by simpa using hp.ne_nil)]
    exact congrArg (p :: ·) hrest

theorem newline_notMem_of_linesLoop {cur s l : Text} (hcur : '\n' ∉ cur)
    (h : l ∈ linesLoop cur s) : '\n' ∉ l := by
  induction s generalizing cur with
  | nil =>
    rw [linesLoop] at h
    split at h
    · cases h
    · rwa [mem_singleton.mp h]
  | cons c s ih =>
    rw [linesLoop] at h
    split at h
    · rcases mem_cons.mp h with rfl | h
      · split
        · exact fun hc => hcur (mem_of_mem_dropLast hc)
        · exact hcur
      · exact ih not_mem_nil h
    · next hc => exact ih (by simpa [hcur] using Ne.symm hc) h

/-- A line is not longer than the path that it is of. -/
theorem length_le_of_linesLoop {cur l : Text} (h : l ∈ linesLoop cur (p ++ ['\n'])) :
    l.length ≤ cur.length + p.length := by
  induction p generalizing cur with
  | nil =>
    obtain rfl : l = if cur.getLast? = some '\r' then cur.dropLast else cur := by
      simpa [linesLoop] using h
    split
    · simp
    · simp
  | cons c p ih =>
    rw [cons_append, linesLoop] at h
    split at h
    · rcases mem_cons.mp h with rfl | h
      · split
        · rw [length_dropLast]
          omega
        · omega
      · have hle := ih h
        simp only [length_nil, length_cons] at hle ⊢
        omega
    · have hle := ih h
      simp only [length_append, length_cons, length_nil] at hle ⊢
      omega

/-- **A path that is read back from its list is a line.** -/
theorem isLine_of_lines (h : (lines (listLines [p])).filter (fun l => !l.isEmpty) = [p]) :
    IsLine p := by
  have hmem : p ∈ (lines (listLines [p])).filter fun l => !l.isEmpty := by
    rw [h]
    exact mem_singleton_self p
  obtain ⟨hmem, hne⟩ := mem_filter.mp hmem
  have hne : p ≠ [] := by simpa using hne
  have hnewline : '\n' ∉ p := newline_notMem_of_linesLoop not_mem_nil hmem
  refine ⟨hne, hnewline, fun hlast => ?_⟩
  -- the carriage return would have gone
  have hlines : lines (listLines [p]) = [p.dropLast] := by
    have happ : listLines [p] = p ++ '\n' :: [] := by simp [listLines]
    rw [happ, lines, linesLoop_append hnewline, nil_append, if_pos hlast]
    rfl
  rw [hlines, mem_singleton] at hmem
  have hlen := congrArg length hmem
  have hpos := length_pos_iff.mpr hne
  rw [length_dropLast] at hlen
  omega

theorem listLines_append (paths paths' : List Text) :
    listLines (paths ++ paths') = listLines paths ++ listLines paths' := flatMap_append

theorem listPathFor_inj {i j : Input} :
    listPathFor i = listPathFor j ↔ i.originId = j.originId := by
  rw [listPathFor, listPathFor, append_right_inj, append_left_inj]

/-- **What a list holds** when all is staged: what the artifacts of the inputs that are called
like it were staged under, in their order. -/
theorem get?_of_stage (h : stage lists l = .ok lists') (i : Input) :
    lists'.get? (listPathFor i) =
      if ∃ a ∈ l, a.input.originId = i.originId then
        some ((lists.get? (listPathFor i)).getD [] ++
          listLines ((l.filter fun a => a.input.originId = i.originId).flatMap (·.paths)))
      else lists.get? (listPathFor i) := by
  induction l generalizing lists with
  | nil =>
    obtain rfl : lists = lists' := ok.inj h
    simp
  | cons a l ih =>
    rw [stage] at h
    split at h
    · cases h
    · rw [ih h, get?_insert]
      by_cases hname : a.input.originId = i.originId
      · rw [if_pos (listPathFor_inj.mpr hname.symm)]
        have hex : ∃ b ∈ a :: l, b.input.originId = i.originId := ⟨a, mem_cons_self, hname⟩
        rw [filter_cons_of_pos (by simpa using hname), flatMap_cons, listLines_append]
        split
        · next hlater => rw [getD_some, listPathFor_inj.mpr hname, append_assoc]
        · next hlater =>
          -- there is no other with this name
          have hnil : l.filter (fun b => b.input.originId = i.originId) = [] := by
            refine filter_eq_nil_iff.mpr fun b hb hbi => hlater ⟨b, hb, by simpa using hbi⟩
          rw [hnil, listPathFor_inj.mpr hname]
          exact congrArg some (congrArg _ (append_nil _).symm)
      · rw [if_neg fun hc => hname (listPathFor_inj.mp hc).symm]
        rw [filter_cons_of_neg (by simpa using hname)]
        simp only [exists_mem_cons_iff, hname, false_or]

/-- Staging succeeds as long as no input has a slash in what it is called. -/
theorem exists_stage_ok (h : ∀ a ∈ l, '/' ∉ listPathFor a.input) :
    ∃ lists', stage lists l = .ok lists' := by
  induction l generalizing lists with
  | nil => exact ⟨lists, rfl⟩
  | cons a l ih =>
    rw [stage, if_neg (h a mem_cons_self)]
    exact ih fun b hb => h b (mem_cons_of_mem a hb)

theorem slash_notMem_of_stage (h : stage lists l = .ok lists') {a : StagedArtifact} (ha : a ∈ l) :
    '/' ∉ listPathFor a.input := by
  induction l generalizing lists with
  | nil => cases ha
  | cons b l ih =>
    rw [stage] at h
    split at h
    · cases h
    · next hb =>
      rcases mem_cons.mp ha with rfl | ha
      · exact hb
      · exact ih h ha

/-- The references of the staged inputs that are called `originId`. -/
def stagedUnder (inputs : List Input) (originId : Text) : List TargetAddr :=
  (inputs.filter fun i => i.runtime && i.originId = originId).map (·.ref)

/-- What is staged for the inputs that are called `originId`. -/
theorem flatMap_stagedFor :
    ((w.stagedFor inputs).filter fun a => a.input.originId = originId).flatMap (·.paths) =
      (stagedUnder inputs originId).flatMap fun a => (w.staged a).flatten := by
  induction inputs with
  | nil => rfl
  | cons i inputs ih =>
    rw [DeferredWorld.stagedFor, stagedUnder] at *
    cases hrun : i.runtime with
    | false => simpa [hrun] using ih
    | true =>
      by_cases hid : i.originId = originId
      · simp [hrun, hid, List.filter_map, Function.comp_def, flatMap_map, ih]
      · simp [hrun, hid, List.filter_map, Function.comp_def, ih]

/-- Something is staged for the inputs that are called `originId`. -/
theorem exists_stagedFor :
    (∃ a ∈ w.stagedFor inputs, a.input.originId = originId) ↔
      ∃ a ∈ stagedUnder inputs originId, w.staged a ≠ [] := by
  simp only [DeferredWorld.stagedFor, stagedUnder, mem_flatMap, mem_filter, List.mem_map,
    Bool.and_eq_true, decide_eq_true_eq]
  constructor
  · rintro ⟨_, ⟨i, ⟨hi, hrun⟩, paths, hpaths, rfl⟩, hid⟩
    exact ⟨i.ref, ⟨i, ⟨hi, hrun, hid⟩, rfl⟩, ne_nil_of_mem hpaths⟩
  · rintro ⟨_, ⟨i, ⟨hi, hrun, hid⟩, rfl⟩, hne⟩
    obtain ⟨paths, hpaths⟩ := exists_mem_of_ne_nil _ hne
    exact ⟨⟨i, paths⟩, ⟨i, ⟨hi, hrun⟩, paths, hpaths, rfl⟩, hid⟩

/-- **What is found under a name**: the lines of all that is staged for the inputs that are called
like it. -/
theorem stagedPath_eq (h : stage .empty (w.stagedFor inputs) = .ok lists) :
    stagedPath (w.stagedFor inputs) lists originId arg =
      if ∀ a ∈ stagedUnder inputs originId, w.staged a = [] then .error (.notStaged arg originId)
      else onlyPath arg ((lines (listLines ((stagedUnder inputs originId).flatMap fun a =>
        (w.staged a).flatten))).filter fun l => !l.isEmpty) := by
  rw [stagedPath]
  cases hfind : (w.stagedFor inputs).find? fun a => a.input.originId = originId with
  | none =>
    refine (if_pos fun a ha => ?_).symm
    by_contra hne
    obtain ⟨b, hb, hid⟩ := exists_stagedFor.mpr ⟨a, ha, hne⟩
    exact find?_eq_none.mp hfind b hb (by simpa using hid)
  | some b =>
    have hb := mem_of_find?_eq_some hfind
    have hid : b.input.originId = originId := by simpa using find?_some hfind
    have hex : ∃ a ∈ w.stagedFor inputs, a.input.originId = b.input.originId := ⟨b, hb, rfl⟩
    dsimp only
    rw [get?_of_stage h b.input, if_pos hex]
    dsimp only
    rw [get?_empty, getD_none, nil_append, hid, flatMap_stagedFor, if_neg]
    obtain ⟨a, ha, hne⟩ := exists_stagedFor.mp ⟨b, hb, hid⟩
    exact fun hall => hne (hall a ha)

end Staged

/-! ### What a field gets -/

section Field

variable {target : Addr} {byAddr : SortedMap Text Text} {allotment : Option (SortedMap Text Text)}
  {refs : List DeferredRef} {r : DeferredRef} {values values' : SortedMap Text DeferredValue}
  {artifacts : List StagedArtifact} {lists : SortedMap Text Text}

theorem renderRef_fst {e : Text × DeferredValue}
    (h : renderRef target byAddr allotment r = .ok e) : e.1 = r.raw := by
  rw [renderRef] at h
  split at h
  · rw [← ok.inj h]
  · cases hs : substitute [readKind, resourceKind] (resolveHere target byAddr allotment r)
      (fun e => ⟨[], .template e⟩) r.raw with
    | error e => rw [hs] at h; cases h
    | ok v => rw [hs] at h; rw [← ok.inj h]

theorem completeField_fst {e e' : Text × DeferredValue}
    (h : completeField target artifacts lists allotment e = .ok e') : e'.1 = e.1 := by
  rw [completeField] at h
  split at h
  · rw [ok.inj h]
  · split at h
    · cases h
    · rw [← ok.inj h]

/-- The host renders every reference. -/
theorem get?_renderDeferred (h : renderDeferred target byAddr allotment refs = .ok values)
    (hnodup : (refs.map DeferredRef.raw).Nodup) (hr : r ∈ refs) :
    ∃ d, renderRef target byAddr allotment r = .ok (r.raw, d) ∧ values.get? r.raw = some d := by
  obtain ⟨es, hes, h⟩ := bind_ok.mp h
  cases h
  obtain ⟨e, he, hrender⟩ := exists_ok_of_mapM_ok hes hr
  have hkey := renderRef_fst hrender
  refine ⟨e.2, hkey ▸ hrender, hkey ▸ get?_ofList he fun e' he' hk => ?_⟩
  -- another entry with this text comes from the same reference
  obtain ⟨r', hr', hrender'⟩ := (mem_iff_of_mapM_ok hes).mp he'
  have hraw : r'.raw = r.raw := (renderRef_fst hrender').symm.trans (hk.trans hkey)
  obtain rfl := inj_on_of_nodup_map hnodup hr' hr hraw
  rw [ok.inj (hrender'.symm.trans hrender)]

/-- The managed layer finishes every field. -/
theorem get?_completeDeferred {s : Text} {d : DeferredValue}
    (h : completeDeferred target artifacts lists allotment values = .ok values')
    (hd : values.get? s = some d) :
    ∃ d', completeField target artifacts lists allotment (s, d) = .ok (s, d') ∧
      values'.get? s = some d' := by
  obtain ⟨es, hes, h⟩ := bind_ok.mp h
  cases h
  obtain ⟨e, he, hcomplete⟩ := exists_ok_of_mapM_ok hes (get?_eq_some.mp hd)
  have hkey : e.1 = s := completeField_fst hcomplete
  refine ⟨e.2, hkey ▸ hcomplete, hkey ▸ get?_ofList he fun e' he' hk => ?_⟩
  obtain ⟨x, hx, hcomplete'⟩ := (mem_iff_of_mapM_ok hes).mp he'
  have hxs : x.1 = s := (completeField_fst hcomplete').symm.trans (hk.trans hkey)
  obtain rfl : x = (s, d) :=
    inj_on_of_nodup_map values.nodup_keys hx (get?_eq_some.mp hd) hxs
  rw [ok.inj (hcomplete'.symm.trans hcomplete)]

end Field

end Deferred

end Heph
