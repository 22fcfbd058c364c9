import Fimbulwinter.TagLifeCycle

/-! # Failed requests of the file loader

`MessageLoadIndependent` and `MessageLoadDependency` with every allocation and copy that may
fail. The result tells whether the request went through without an error return. -/
namespace Fimbulwinter.Loader.FailedRequests

variable (hash : Name → Asset)

/-- Which allocations and copies succeed while a request is processed. No request makes one of
them twice. -/
structure Allocations where
  /-- `tags.emplace` -/
  tag : Bool
  /-- `attachments.insert` or `attachments.push_back` of the owner -/
  attachment : Bool
  /-- `loads.emplace<RadicalLoad>` -/
  radical : Bool
  /-- the shared data of a load and its first call -/
  call : Bool
  /-- the copy of the file path for the load entry -/
  filepath : Bool
  /-- `loads.emplace<LoadingLoad>` -/
  load : Bool
  /-- `owners.try_emplace_back` -/
  owner : Bool
  /-- the copy of the file path for the read request -/
  readFilepath : Bool
  deriving DecidableEq, Repr

/-- Every allocation succeeds. -/
def Allocations.all : Allocations := ⟨true, true, true, true, true, true, true, true⟩

variable (a : Allocations)

/-- `emplace` in a table whose storage may not grow. -/
def tryEmplace {V : Type} (succeeds : Bool) (t : DenseTable Asset V) (key : Asset) (v : V) :
    Option (DenseTable Asset V) :=
  if succeeds then t.emplace key v else none

/-- `load_new` -/
def loadNew (s : State) (tag : Token) (owner : Owner) (file : Asset) (name filetype : Asset)
    (callback : RelationCallback) : State × Bool :=
  match (if name = file then some s.loads
    else tryEmplace a.radical s.loads name (.radical file)) with
  | none => (s, false)
  | some loads =>
    match s.files.find file with
    | some (.unique uniqueFile) =>
      match s.filetypes.find filetype with
      | none => (s.setLoads loads, false)
      | some filetypeData =>
        if !a.call || !a.filepath then (s.setLoads loads, false)
        else
          match tryEmplace a.load loads file (.loading (newLoad s owner name filetype uniqueFile)) with
          | none => (s.setLoads loads, false)
          | some loads =>
            let callData : FileCallData := ⟨[(tag, callback)], filetypeData, false⟩
            if !a.owner then (s.setLoads (loads.erase Load.kind file), false)
            else if !a.readFilepath then
              ({ s with loads := loads, callData := s.callData ++ [callData] }, false)
            else (startLoad hash s loads file uniqueFile callData, true)
    | _ => (s.setLoads loads, false)

/-- `load_old` -/
def loadOld (s : State) (tag : Token) (owner : Owner) (file : Asset) (filetype : Asset)
    (callback : RelationCallback) : Except Fault (State × Bool) :=
  match (s.loads.find file).bind Load.entry with
  | none => .error .unreachable
  | some _ => if a.owner then Loader.loadOld s tag owner file filetype callback else .ok (s, false)

/-- `add_dependency_loaded` and `add_dependency_unloaded` -/
def addDependency (loaded : Bool) (s : State) (owner attachment : Asset) :
    Except Fault (State × Bool) :=
  match s.loads.find owner with
  | some (.loading _) =>
    if !a.attachment then .ok (s, false)
    else if loaded then addDependencyLoaded s owner attachment
    else addDependencyUnloaded s owner attachment
  | some (.loaded _) => .ok (s, false)
  | _ => .error .unreachable

/-- The tag is put on the file, and then the file is loaded. -/
def placeTag (s : State) (tag : Token) (file : Asset) (load : State → Except Fault (State × Bool)) :
    Except Fault (State × Bool) :=
  match tryEmplace a.tag s.tags tag file with
  | none => .ok (s, false)
  | some tags => load { s with tags := tags }

/-- `MessageLoadIndependent` -/
def processLoadIndependent (s : State) (x : MessageLoadIndependent) : Except Fault (State × Bool) :=
  match findUnderlyingLoad s.loads x.name with
  | (file, some _) =>
    placeTag a s x.tag file fun s => loadOld a s x.tag global file x.filetype x.callback
  | (_, none) =>
    match findUnderlyingFile s.files x.name with
    | (file, underlyingFile) =>
      match uniqueFile underlyingFile with
      | .error e => .error e
      | .ok false => .ok (s, false)
      | .ok true =>
        match findUnderlyingLoad s.loads file with
        | (file', some _) =>
          placeTag a s x.tag file' fun s => loadOld a s x.tag global file' x.filetype x.callback
        | (_, none) =>
          placeTag a s x.tag file fun s =>
            .ok (loadNew hash a s x.tag global file x.name x.filetype x.callback)

/-- `MessageLoadDependency` -/
def processLoadDependency (s : State) (x : MessageLoadDependency) : Except Fault (State × Bool) :=
  match findUnderlyingLoad s.loads x.owner with
  | (_, none) => .ok (s, false)
  | (owner, some _) =>
    match findUnderlyingLoad s.loads x.name with
    | (file, some load) =>
      match addDependency a (load.kind = .loadedLoad) s owner file with
      | .error e => .error e
      | .ok (s, false) => .ok (s, false)
      | .ok (s, true) => loadOld a s owner (some owner) file x.filetype x.callback
    | (_, none) =>
      match findUnderlyingFile s.files x.name with
      | (file, underlyingFile) =>
        match uniqueFile underlyingFile with
        | .error e => .error e
        | .ok false => .ok (s, false)
        | .ok true =>
          match addDependency a false s owner file with
          | .error e => .error e
          | .ok (s, false) => .ok (s, false)
          | .ok (s, true) =>
            match findUnderlyingLoad s.loads file with
            | (file', some _) => loadOld a s owner (some owner) file' x.filetype x.callback
            | (_, none) => .ok (loadNew hash a s owner (some owner) file x.name x.filetype x.callback)

inductive Request
  | independent (x : MessageLoadIndependent)
  | dependency (x : MessageLoadDependency)
  deriving DecidableEq, Repr

def Request.process (s : State) : Request → Except Fault (State × Bool)
  | .independent x => processLoadIndependent hash a s x
  | .dependency x => processLoadDependency hash a s x

def Request.message : Request → Message
  | .independent x => .loadIndependent x
  | .dependency x => .loadDependency x

/-! ## Without failures -/

variable {a} {s s' : State}

theorem addDependency_all (loaded : Bool) (owner attachment : Asset) :
    addDependency .all loaded s owner attachment =
      if loaded then addDependencyLoaded s owner attachment
      else addDependencyUnloaded s owner attachment := by
  unfold addDependency addDependencyLoaded addDependencyUnloaded
  cases hfind : s.loads.find owner with
  | none => cases loaded <;> rfl
  | some load => cases load <;> cases loaded <;> rfl

theorem loadOld_all (tag : Token) (owner : Owner) (file filetype : Asset)
    (callback : RelationCallback) :
    loadOld .all s tag owner file filetype callback =
      Loader.loadOld s tag owner file filetype callback := by
  unfold loadOld Loader.loadOld
  cases (s.loads.find file).bind Load.entry <;> rfl

theorem loadNew_all (tag : Token) (owner : Owner) (file name filetype : Asset)
    (callback : RelationCallback) :
    loadNew hash .all s tag owner file name filetype callback =
      Loader.loadNew hash s tag owner file name filetype callback := rfl

theorem processLoadIndependent_all (x : MessageLoadIndependent) :
    (processLoadIndependent hash .all s x).map Prod.fst =
      Loader.processLoadIndependent hash s x := by
  have hplace : ∀ (tag : Token) (file : Asset),
      tryEmplace Allocations.all.tag s.tags tag file = s.tags.emplace tag file := fun _ _ => rfl
  simp only [processLoadIndependent, Loader.processLoadIndependent, placeTag, loadOld_all,
    loadNew_all, hplace]
  obtain ⟨file, _ | load⟩ := findUnderlyingLoad s.loads x.name
  · obtain ⟨file, underlyingFile⟩ := findUnderlyingFile s.files x.name
    obtain e | (_ | _) := uniqueFile underlyingFile
    · rfl
    · rfl
    · dsimp only
      obtain ⟨file', _ | load⟩ := findUnderlyingLoad s.loads file
      · dsimp only
        cases s.tags.emplace x.tag file <;> rfl
      · dsimp only
        cases s.tags.emplace x.tag file' <;> rfl
  · dsimp only
    cases s.tags.emplace x.tag file <;> rfl

theorem processLoadDependency_all (x : MessageLoadDependency) :
    (processLoadDependency hash .all s x).map Prod.fst =
      Loader.processLoadDependency hash s x := by
  simp only [processLoadDependency, Loader.processLoadDependency, loadOld_all, loadNew_all,
    addDependency_all, decide_eq_true_eq, Bool.false_eq_true, if_false]
  obtain ⟨owner, _ | ownerLoad⟩ := findUnderlyingLoad s.loads x.owner
  · rfl
  obtain ⟨file, _ | load⟩ := findUnderlyingLoad s.loads x.name
  · obtain ⟨file, underlyingFile⟩ := findUnderlyingFile s.files x.name
    obtain e | (_ | _) := uniqueFile underlyingFile
    · rfl
    · rfl
    · dsimp only
      obtain e | ⟨t, _ | _⟩ := addDependencyUnloaded s owner file
      · rfl
      · rfl
      · dsimp only
        obtain ⟨file', _ | load⟩ := findUnderlyingLoad t.loads file <;> rfl
  · dsimp only
    obtain e | ⟨t, _ | _⟩ := (if load.kind = .loadedLoad then addDependencyLoaded s owner file
      else addDependencyUnloaded s owner file) <;> rfl

/-- When every allocation succeeds, requests are processed as by `process_message`. -/
theorem process_all (request : Request) :
    (request.process hash .all s).map Prod.fst = processMessage hash s request.message := by
  cases request with
  | independent x => exact processLoadIndependent_all hash x
  | dependency x => exact processLoadDependency_all hash x

/-! ## What a failed request leaves behind -/

variable (a s) in
/-- The file that a request is about: one with a load, or else a unique file. -/
def target (name : Asset) : Option Asset :=
  match findUnderlyingLoad s.loads name with
  | (file, some _) => some file
  | (_, none) =>
    match findUnderlyingFile s.files name with
    | (file, some (.unique _)) => some file
    | _ => none

variable (a s) in
/-- The owner is still loading and has room for another attachment. -/
def HasRoom (owner attachment : Asset) : Prop :=
  a.attachment = true ∧ ∃ y, s.loads.find owner = some (.loading y) ∧
    (y.attachments.pushBack attachment).isSome

variable (a s) in
/-- A request gets as far as its tag, or its attachment. -/
def Request.Places : Request → Prop
  | .independent x => (target s x.name).isSome ∧ a.tag = true ∧ s.tags.find x.tag = none
  | .dependency x => ∃ file, target s x.name = some file ∧
      (findUnderlyingLoad s.loads x.owner).2.isSome ∧
      HasRoom a s (findUnderlyingLoad s.loads x.owner).1 file

/-- The tables of files, loads and tags, with all owners and attachments, are the same. -/
structure Unchanged (s s' : State) : Prop where
  files : s'.files = s.files
  loads : s'.loads = s.loads
  tags : s'.tags = s.tags

theorem Unchanged.refl (s : State) : Unchanged s s := ⟨rfl, rfl, rfl⟩

/-- Files, tags and the loads that were there are the same. -/
structure Keeps (s s' : State) : Prop where
  files : s'.files = s.files
  loads : ∀ key load, s.loads.find key = some load → s'.loads.find key = some load
  tags : s'.tags = s.tags

theorem Keeps.refl (s : State) : Keeps s s := ⟨rfl, fun _ _ h => h, rfl⟩

section Keeps

variable {tag : Token} {owner : Owner} {file name filetype : Asset} {callback : RelationCallback}

theorem loadOld_failed (h : loadOld a s tag owner file filetype callback = .ok (s', false)) :
    s' = s := by
  unfold loadOld Loader.loadOld at h
  repeat' split at h
  all_goals cases h
  all_goals rfl

theorem find_tryEmplace {succeeds : Bool} {loads loads' : Loads} {key key' : Asset}
    {load load' : Load} (h : tryEmplace succeeds loads key load = some loads')
    (hfind : loads.find key' = some load') : loads'.find key' = some load' := by
  unfold tryEmplace at h
  split_ifs at h
  have hne : key' ≠ key := by
    rintro rfl
    rw [DenseTable.find_of_emplace h] at hfind
    cases hfind
  rw [DenseTable.find_emplace h, if_neg hne, hfind]

theorem loadNew_failed (h : loadNew hash a s tag owner file name filetype callback = (s', false)) :
    Keeps s s' := by
  unfold loadNew at h
  split at h
  · cases h
    exact .refl s
  next loads hradical =>
    have hloads : ∀ key load, s.loads.find key = some load → loads.find key = some load := by
      intro key load hfind
      split_ifs at hradical
      · cases hradical
        exact hfind
      · exact find_tryEmplace hradical hfind
    split at h
    next uniqueFile hfile =>
      split at h
      · cases h
        exact ⟨rfl, hloads, rfl⟩
      · split at h
        · cases h
          exact ⟨rfl, hloads, rfl⟩
        · split at h
          · cases h
            exact ⟨rfl, hloads, rfl⟩
          next loads' hload =>
            have hloads' : ∀ key load, s.loads.find key = some load →
                loads'.find key = some load :=
              fun key load hfind => find_tryEmplace hload (hloads key load hfind)
            dsimp only at h
            split at h
            · cases h
              refine ⟨rfl, fun key load hfind => ?_, rfl⟩
              have hne : key ≠ file := by
                rintro rfl
                unfold tryEmplace at hload
                split_ifs at hload
                have hnone := DenseTable.find_of_emplace hload
                rw [hloads key load hfind] at hnone
                cases hnone
              exact (DenseTable.find_erase ..).trans ((if_neg hne).trans (hloads' key load hfind))
            · split at h <;> cases h
              exact ⟨rfl, hloads', rfl⟩
    · cases h
      exact ⟨rfl, hloads, rfl⟩

/-- A request that fails after its tag was put on a file leaves the tag there. -/
theorem placeTag_failed {load : State → Except Fault (State × Bool)}
    (hload : ∀ t t', load t = .ok (t', false) → Keeps t t')
    (h : placeTag a s tag file load = .ok (s', false)) :
    Unchanged s s' ↔ ¬ (a.tag = true ∧ s.tags.find tag = none) := by
  unfold placeTag tryEmplace at h
  split at h
  next hplace =>
    cases h
    refine iff_of_true (.refl s) ?_
    rintro ⟨htag, hfind⟩
    rw [if_pos htag, DenseTable.emplace_eq_none_iff] at hplace
    exact hplace hfind
  next tags hplace =>
    split_ifs at hplace with htag
    have hnone := DenseTable.find_of_emplace hplace
    refine iff_of_false (fun hsame => ?_) (not_not.mpr ⟨htag, hnone⟩)
    have htags : tags = s.tags := (hload _ _ h).tags.symm.trans hsame.tags
    have hfind : tags.find tag = some file :=
      (DenseTable.find_emplace hplace tag).trans (if_pos rfl)
    rw [htags, hnone] at hfind
    cases hfind

theorem processLoadIndependent_failed {x : MessageLoadIndependent}
    (h : processLoadIndependent hash a s x = .ok (s', false)) :
    Unchanged s s' ↔ ¬ (Request.independent x).Places a s := by
  have hold : ∀ file t t', loadOld a t x.tag global file x.filetype x.callback = .ok (t', false) →
      Keeps t t' := by
    intro file t t' h
    rw [loadOld_failed h]
    exact .refl t
  have hnew : ∀ file t t', Except.ok (loadNew hash a t x.tag global file x.name x.filetype
      x.callback) = (.ok (t', false) : Except Fault _) → Keeps t t' :=
    fun file t t' h => loadNew_failed hash (Except.ok.inj h)
  simp only [processLoadIndependent] at h
  simp only [Request.Places, target]
  rcases hload : findUnderlyingLoad s.loads x.name with ⟨file, _ | load⟩
  · rcases hfile : findUnderlyingFile s.files x.name with ⟨file, _ | underlyingFile⟩
    · simp only [hload, hfile] at h ⊢
      cases h
      exact iff_of_true (.refl s) fun hplaces => by cases hplaces.1
    · simp only [hload, hfile] at h ⊢
      cases underlyingFile with
      | ambiguous | directory =>
        cases h
        exact iff_of_true (.refl s) fun hplaces => by cases hplaces.1
      | radical => cases h
      | unique y =>
        simp only [Option.isSome_some, true_and]
        simp only [uniqueFile] at h
        rcases hload' : findUnderlyingLoad s.loads file with ⟨file', _ | load⟩
        · rw [hload'] at h
          exact placeTag_failed (hnew file) h
        · rw [hload'] at h
          exact placeTag_failed (hold file') h
  · simp only [hload, Option.isSome_some, true_and] at h ⊢
    exact placeTag_failed (hold file) h

/-- An attachment is added exactly when the owner has room for it; else nothing changes. -/
theorem addDependency_spec {loaded placed : Bool} {holder attachment : Asset}
    (h : addDependency a loaded s holder attachment = .ok (s', placed)) :
    (placed = true ↔ HasRoom a s holder attachment) ∧ (placed = false → s' = s) ∧
      (placed = true → ∃ y y', s.loads.find holder = some (.loading y) ∧
        s'.loads.find holder = some (.loading y') ∧
        y'.attachments.size = y.attachments.size + 1) := by
  unfold addDependency at h
  split at h
  next y hfind =>
    have hroom : HasRoom a s holder attachment ↔
        a.attachment = true ∧ (y.attachments.pushBack attachment).isSome := by
      refine and_congr_right fun _ => ⟨?_, fun hsome => ⟨y, hfind, hsome⟩⟩
      rintro ⟨y', hfind', hsome⟩
      cases hfind.symm.trans hfind'
      exact hsome
    rw [hroom]
    have hmodify : ∀ f, (s.loads.modify holder f).find holder = some (f (.loading y)) := fun f => by
      rw [DenseTable.find_modify, if_pos rfl, hfind, Option.map_some]
    split at h
    next ha =>
      cases h
      simp at ha
      simp [ha]
    next ha =>
      simp only [Bool.not_eq_true', Bool.not_eq_false] at ha
      simp only [ha, true_and]
      split at h
      · simp only [addDependencyLoaded, hfind] at h
        split at h
        · cases h
        next hinsert =>
          cases h
          have hsome := HeapVector.isSome_insert hinsert
          simp [← hsome]
        next attachments hinsert =>
          cases h
          have hsome := HeapVector.isSome_insert hinsert
          refine ⟨by simp [← hsome], fun h => (by cases h), fun _ => ⟨y, _, hfind, hmodify _, ?_⟩⟩
          exact HeapVector.size_insert hinsert
      · simp only [addDependencyUnloaded, hfind] at h
        split at h
        next hpush =>
          cases h
          simp [hpush]
        next attachments hpush =>
          cases h
          refine ⟨by simp [hpush], fun h => (by cases h), fun _ => ⟨y, _, hfind, hmodify _, ?_⟩⟩
          exact HeapVector.size_pushBack hpush
  next y hfind =>
    cases h
    refine ⟨iff_of_false Bool.false_ne_true ?_, fun _ => rfl, fun h => by cases h⟩
    rintro ⟨-, y', hfind', -⟩
    cases hfind.symm.trans hfind'
  · cases h

/-- A request that fails after its attachment was added leaves the attachment there. -/
theorem addDependency_failed {loaded : Bool} {holder attachment : Asset}
    (load : State → Except Fault (State × Bool))
    (hload : ∀ t t', load t = .ok (t', false) → Keeps t t')
    (h : (match addDependency a loaded s holder attachment with
      | .error e => .error e
      | .ok (s, false) => .ok (s, false)
      | .ok (s, true) => load s) = (.ok (s', false) : Except Fault _)) :
    Unchanged s s' ↔ ¬ HasRoom a s holder attachment := by
  split at h
  · cases h
  next t hadd =>
    cases h
    obtain ⟨hroom, hsame, -⟩ := addDependency_spec hadd
    rw [hsame rfl, ← hroom]
    exact iff_of_true (.refl s) Bool.false_ne_true
  next t hadd =>
    obtain ⟨hroom, -, hsize⟩ := addDependency_spec hadd
    obtain ⟨y, y', hy, hy', hsize⟩ := hsize rfl
    rw [← hroom]
    refine iff_of_false (fun hsame => ?_) (not_not.mpr rfl)
    have hfind := (hload t s' h).loads holder _ hy'
    rw [hsame.loads, hy] at hfind
    cases hfind
    omega

theorem processLoadDependency_failed {x : MessageLoadDependency}
    (h : processLoadDependency hash a s x = .ok (s', false)) :
    Unchanged s s' ↔ ¬ (Request.dependency x).Places a s := by
  have hold : ∀ holder file t t', loadOld a t holder (some holder) file x.filetype x.callback =
      .ok (t', false) → Keeps t t' := by
    intro holder file t t' h
    rw [loadOld_failed h]
    exact .refl t
  have hnew : ∀ holder file t t', Except.ok (loadNew hash a t holder (some holder) file x.name
      x.filetype x.callback) = (.ok (t', false) : Except Fault _) → Keeps t t' :=
    fun holder file t t' h => loadNew_failed hash (Except.ok.inj h)
  simp only [processLoadDependency] at h
  simp only [Request.Places, target]
  rcases howner : findUnderlyingLoad s.loads x.owner with ⟨holder, _ | ownerLoad⟩
  · simp only [howner] at h
    cases h
    refine iff_of_true (.refl s) ?_
    rintro ⟨file, -, hsome, -⟩
    cases hsome
  simp only [howner] at h
  rcases hload : findUnderlyingLoad s.loads x.name with ⟨file, _ | load⟩
  · rcases hfile : findUnderlyingFile s.files x.name with ⟨file, _ | underlyingFile⟩
    · simp only [hload, hfile] at h ⊢
      cases h
      refine iff_of_true (.refl s) ?_
      rintro ⟨_, ⟨⟩, -⟩
    · simp only [hload, hfile] at h ⊢
      cases underlyingFile with
      | ambiguous | directory =>
        cases h
        refine iff_of_true (.refl s) ?_
        rintro ⟨_, ⟨⟩, -⟩
      | radical => cases h
      | unique y =>
        simp only [uniqueFile] at h
        simp only [Option.some.injEq, Option.isSome_some, true_and, exists_eq_left']
        refine addDependency_failed (fun t => match findUnderlyingLoad t.loads file with
          | (file', some _) => loadOld a t holder (some holder) file' x.filetype x.callback
          | (_, none) => .ok (loadNew hash a t holder (some holder) file x.name x.filetype
            x.callback)) (fun t t' ht => ?_) h
        split at ht
        · exact hold holder _ t t' ht
        · exact hnew holder file t t' ht
  · simp only [hload] at h ⊢
    simp only [Option.some.injEq, Option.isSome_some, true_and, exists_eq_left']
    exact addDependency_failed _ (hold holder file) h

end Keeps

/-- A failed request leaves the tables as they were if and only if it fails before its tag, or
its attachment, is placed. -/
theorem failed_unchanged_iff (hash : Name → Asset) (a : Allocations) {s s' : State}
    {request : Request} (h : request.process hash a s = .ok (s', false)) :
    Unchanged s s' ↔ ¬ request.Places a s := by
  cases request with
  | independent x => exact processLoadIndependent_failed hash h
  | dependency x => exact processLoadDependency_failed hash h

/-- A second load with the tag of the first is turned down, and changes nothing. -/
theorem failed_unchanged_used : ∃ s s',
    processMessages spell State.initial (oneFileLibrary ++ [loadOneFile]) = .ok s ∧
      (Request.independent ⟨5, spell ['a'], 7, 0, 0, 0⟩).process spell .all s = .ok (s', false) ∧
      Unchanged s s' := by
  refine ⟨_, _, rfl, rfl, ?_⟩
  refine (@failed_unchanged_iff spell .all _ _ (.independent ⟨5, spell ['a'], 7, 0, 0, 0⟩) rfl).mpr ?_
  rintro ⟨-, -, hfind⟩
  cases hfind

/-- A load with an unregistered file type leaves its tag on the file. -/
theorem failed_leaves_tag : ∃ s s',
    processMessages spell State.initial [.registerLibrary 1, .fileScan ⟨1, ['a'], []⟩] = .ok s ∧
      (Request.independent ⟨5, spell ['a'], 7, 0, 0, 0⟩).process spell .all s = .ok (s', false) ∧
      ¬ Unchanged s s' := by
  refine ⟨_, _, rfl, rfl, fun hsame => ?_⟩
  have hfind := congrArg (fun tags => tags.find 5) hsame.tags
  cases hfind

end Fimbulwinter.Loader.FailedRequests
