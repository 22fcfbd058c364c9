import Fimbulwinter.LoaderFrames

/-! # What messages do to the data of entries

The operations on load entries keep the data of every entry, and work that owns data is posted for
entries only. A load that starts has data of its own. -/
namespace Fimbulwinter.Loader
open UnstableErase

variable (hash : Name → Asset)

/-- The data of an entry. -/
def Load.call (load : Load) : Option CallPtr := load.entry.map LoadedLoad.callPtr

/-- A read of the entry has finished since it has become loading, or it is loaded. -/
def Load.Done : Load → Prop
  | .radical _ => False
  | .loading x => 0 ≤ x.remainingCount
  | .loaded _ => True

/-- The file whose read has finished. -/
def Message.finished : Message → Option Asset
  | .loadDone file | .loadInit file => some file
  | _ => none

/-- The data that a piece of work owns, and its file. -/
def Work.owned : Work → Option (Asset × CallPtr)
  | .loaderUpdate _ _ | .fileLoad _ => none
  | .ready file call | .addCall file call _ _ | .removeCall file call _ | .unload file call =>
    some (file, call)

/-! ## What operations do to entries -/

/-- Entries keep their data, and whether they are done; there are no new ones. -/
def Kept (loads loads' : Loads) : Prop :=
  ∀ file load' call, loads'.find file = some load' → load'.call = some call →
    ∃ load, loads.find file = some load ∧ load.call = some call ∧ (load'.Done ↔ load.Done)

/-- Besides, work is posted for entries only, and that of a file that is ready for those that are
done. -/
structure Moves (s t : State) : Prop where
  callData : t.callData = s.callData
  watches : t.watches = s.watches
  kept : Kept s.loads t.loads
  works : ∀ work ∈ t.works, work ∈ s.works ∨ ∃ file load call, work.owned = some (file, call) ∧
    s.loads.find file = some load ∧ load.call = some call ∧ (work = .ready file call → load.Done)
  requests : ∀ request ∈ t.requests, request ∈ s.requests ∨ ∃ id, request = .removeWatch id
  log : ∃ events, t.log = s.log ++ events ∧ ∀ call tag, .readycall call tag ∉ events

variable {s t u : State} {loads loads' : Loads} {file : Asset}

theorem Kept.refl (loads : Loads) : Kept loads loads := fun _ load _ hfind hcall =>
  ⟨load, hfind, hcall, Iff.rfl⟩

theorem Kept.trans {loads'' : Loads} (h : Kept loads loads') (h' : Kept loads' loads'') :
    Kept loads loads'' := fun file load'' call hfind hcall => by
  obtain ⟨load', hfind', hcall', hdone'⟩ := h' file load'' call hfind hcall
  obtain ⟨load, hfind, hcall, hdone⟩ := h file load' call hfind' hcall'
  exact ⟨load, hfind, hcall, hdone'.trans hdone⟩

theorem kept_erase (loads : Loads) (file : Asset) : Kept loads (loads.erase Load.kind file) :=
  fun other load call hfind hcall => by
    rw [DenseTable.find_erase] at hfind
    split_ifs at hfind
    exact ⟨load, hfind, hcall, Iff.rfl⟩

theorem kept_modify {g : Load → Load} (h : ∀ load, loads.find file = some load →
    (g load).call = load.call ∧ ((g load).Done ↔ load.Done)) : Kept loads (loads.modify file g) := by
  intro other load call hfind hcall
  rw [DenseTable.find_modify] at hfind
  split_ifs at hfind with heq
  · obtain ⟨load₀, hfind₀, rfl⟩ := Option.map_eq_some_iff.mp hfind
    obtain ⟨hsame, hdone⟩ := h load₀ hfind₀
    exact ⟨load₀, heq ▸ hfind₀, hsame ▸ hcall, hdone⟩
  · exact ⟨load, hfind, hcall, Iff.rfl⟩

theorem call_mapEntry {f : LoadedLoad → LoadedLoad} (hf : ∀ x, (f x).callPtr = x.callPtr)
    (load : Load) : (load.mapEntry f).call = load.call ∧ ((load.mapEntry f).Done ↔ load.Done) := by
  cases load with
  | radical file => exact ⟨rfl, Iff.rfl⟩
  | loading x => exact ⟨congrArg some (hf x.toLoadedLoad), Iff.rfl⟩
  | loaded x => exact ⟨congrArg some (hf x), Iff.rfl⟩

theorem kept_mapEntry (loads : Loads) (file : Asset) {f : LoadedLoad → LoadedLoad}
    (hf : ∀ x, (f x).callPtr = x.callPtr) : Kept loads (loads.modify file (Load.mapEntry f)) :=
  kept_modify fun load _ => call_mapEntry hf load

/-- An entry is put back under its file, with its data. -/
theorem kept_replace {load load' : Load} (hfind : loads.find file = some load)
    (hcall : load'.call = load.call) (hdone : load'.Done ↔ load.Done)
    (h : (loads.erase Load.kind file).emplace file load' = some loads') : Kept loads loads' := by
  intro other load'' call hfind' hcall'
  rw [DenseTable.find_emplace h, DenseTable.find_erase] at hfind'
  split_ifs at hfind' with heq
  · cases hfind'
    exact ⟨load, heq ▸ hfind, hcall ▸ hcall', hdone⟩
  · exact ⟨load'', hfind', hcall', Iff.rfl⟩

theorem Moves.refl (s : State) : Moves s s :=
  ⟨rfl, rfl, .refl _, fun _ h => .inl h, fun _ h => .inl h, [], (List.append_nil _).symm,
    fun _ _ => List.not_mem_nil⟩

theorem Moves.trans (h : Moves s t) (h' : Moves t u) : Moves s u where
  callData := h'.callData.trans h.callData
  watches := h'.watches.trans h.watches
  kept := h.kept.trans h'.kept
  works work hwork := by
    obtain hwork | ⟨file, load', call, howned, hfind, hcall, hready⟩ := h'.works work hwork
    · exact h.works work hwork
    · obtain ⟨load, hfind, hcall, hdone⟩ := h.kept file load' call hfind hcall
      exact .inr ⟨file, load, call, howned, hfind, hcall, fun heq => hdone.mp (hready heq)⟩
  requests request hrequest := by
    obtain hrequest | hremove := h'.requests request hrequest
    · exact h.requests request hrequest
    · exact .inr hremove
  log := by
    obtain ⟨events, hlog, hevents⟩ := h.log
    obtain ⟨events', hlog', hevents'⟩ := h'.log
    refine ⟨events ++ events', by rw [hlog', hlog, List.append_assoc], fun call tag hmem => ?_⟩
    obtain hmem | hmem := List.mem_append.mp hmem
    · exact hevents call tag hmem
    · exact hevents' call tag hmem

theorem moves_setLoads (s : State) (h : Kept s.loads loads) : Moves s (s.setLoads loads) :=
  { Moves.refl s with kept := h }

theorem moves_postWork {work : Work} {load : Load} {call : CallPtr}
    (howned : work.owned = some (file, call)) (hfind : s.loads.find file = some load)
    (hcall : load.call = some call) (hready : work = .ready file call → load.Done) :
    Moves s (s.postWork work) :=
  { Moves.refl s with
    works := fun work' hwork' => by
      obtain hwork' | hwork' := List.mem_append.mp hwork'
      · exact .inl hwork'
      · obtain rfl := List.mem_singleton.mp hwork'
        exact .inr ⟨file, load, call, howned, hfind, hcall, hready⟩ }

theorem moves_removeWatch (s : State) (id : ℕ) : Moves s (s.request (.removeWatch id)) :=
  { Moves.refl s with
    requests := fun request hrequest => by
      obtain hrequest | hrequest := List.mem_append.mp hrequest
      · exact .inl hrequest
      · exact .inr ⟨id, List.mem_singleton.mp hrequest⟩ }

theorem moves_record (s : State) {event : Event} (h : ∀ call tag, event ≠ .readycall call tag) :
    Moves s (s.record event) :=
  { Moves.refl s with
    log := ⟨[event], rfl, fun call tag hmem => h call tag (List.mem_singleton.mp hmem).symm⟩ }

theorem removeEntry_moves {x : LoadedLoad} {load : Load} (hfind : s.loads.find file = some load)
    (hentry : load.entry = some x) (unload : Bool) : Moves s (removeEntry hash s file x unload) := by
  have hcall : load.call = some x.callPtr := by rw [Load.call, hentry]; rfl
  have herase : Kept s.loads (eraseEntry s.loads file x) := by
    rw [eraseEntry]
    split_ifs
    · exact kept_erase _ _
    · exact (kept_erase _ _).trans (kept_erase _ _)
  have hrequest := moves_removeWatch s (makeToken x.directory (hash x.filepath))
  have hremoved : ∀ t : State, Moves t (t.record (.removed x.callPtr)) := fun t =>
    moves_record t fun _ _ => Event.noConfusion
  cases unload with
  | true =>
    have hunload : Moves _ ((s.request _).postWork (.unload file x.callPtr)) :=
      moves_postWork (s := s.request (.removeWatch (makeToken x.directory (hash x.filepath))))
        rfl hfind hcall Work.noConfusion
    refine hrequest.trans (hunload.trans ((moves_record _ fun _ _ => Event.noConfusion).trans
      ((moves_setLoads _ ?_).trans (hremoved _))))
    exact herase
  | false =>
    refine hrequest.trans ((moves_setLoads _ ?_).trans (hremoved _))
    exact herase

theorem releaseOwner_moves {x : LoadedLoad} {load : Load} (hfind : s.loads.find file = some load)
    (hentry : load.entry = some x) (owner : Owner) (tag : Token) (unload : Bool) :
    Moves s (releaseOwner hash s file x owner tag unload).1 := by
  have hcall : load.call = some x.callPtr := by rw [Load.call, hentry]; rfl
  have hpost : Moves s (s.postWork (.removeCall file x.callPtr tag)) :=
    moves_postWork rfl hfind hcall Work.noConfusion
  refine hpost.trans ?_
  simp only [releaseOwner]
  split_ifs
  · exact removeEntry_moves hash (s := s.postWork _) hfind hentry _
  · exact moves_setLoads _ (kept_mapEntry _ _ fun _ => rfl)

theorem removeAttachmentsLoop_moves (n : ℕ) (s : State) (relations : List (Asset × Asset)) :
    Ends (Moves s) (removeAttachmentsLoop hash n s relations) := by
  induction n generalizing s relations with
  | zero =>
    cases relations with
    | nil => exact Moves.refl s
    | cons r relations => exact Fault.noConfusion
  | succ n ih =>
    cases relations with
    | nil => exact Moves.refl s
    | cons r relations =>
      obtain ⟨owner, file⟩ := r
      simp only [removeAttachmentsLoop]
      split
      · exact Moves.refl s
      next load hfind =>
        split
        · exact Fault.noConfusion
        next x hentry =>
          split_ifs
          · exact (ih _ _).mono fun _ h => (releaseOwner_moves hash hfind hentry _ _ _).trans h
          · exact ih s relations

theorem removeFile_moves (s : State) (tag : Token) (file : Asset) :
    Ends (Moves s) (removeFile hash s tag file) := by
  unfold removeFile
  split
  · exact Moves.refl s
  next load hfind =>
    split
    · exact Fault.noConfusion
    next x hentry =>
      split_ifs
      · exact (removeAttachmentsLoop_moves hash _ _ _).mono fun _ h =>
          (releaseOwner_moves hash hfind hentry _ _ _).trans h
      · exact Moves.refl s

theorem loadOld_moves (s : State) (tag : Token) (owner : Owner) (file filetype : Asset)
    (callback : RelationCallback) :
    Ends (Moves s) ((loadOld s tag owner file filetype callback).map Prod.fst) := by
  unfold loadOld
  split
  · exact Fault.noConfusion
  next y hy =>
    obtain ⟨load, hfind, hentry⟩ := Option.bind_eq_some_iff.mp hy
    split_ifs
    · have hcall : load.call = some y.callPtr := by rw [Load.call, hentry]; rfl
      have hpost : Moves s (s.postWork (.addCall file y.callPtr tag callback)) :=
        moves_postWork rfl hfind hcall Work.noConfusion
      exact hpost.trans (moves_setLoads _ (kept_mapEntry _ _ fun _ => rfl))
    · exact Moves.refl s

/-- A file is made loaded when a read of it has finished. -/
theorem makeLoaded_moves
    (hdone : ∀ x, s.loads.find file = some (.loading x) → (Load.loading x).Done) :
    Ends (fun r => Moves s r.1) (makeLoaded s file) := by
  unfold makeLoaded
  split
  next x hfind =>
    have hloading := hdone _ hfind
    simp only
    split
    · exact moves_setLoads _ (kept_erase _ _)
    next loads hloads =>
      have hpost : Moves s (s.postWork (.ready file x.callPtr)) :=
        moves_postWork rfl hfind rfl fun _ => hloading
      have hcall : (Load.loaded x.toLoadedLoad).call = (Load.loading x).call := rfl
      have hkept := kept_replace hfind hcall (iff_of_true trivial hloading) hloads
      exact hpost.trans (moves_setLoads (s.postWork _) hkept)
  · exact Fault.noConfusion

theorem dropPrevious_moves (s : State) (holder first : Asset) (x : LoadingLoad) :
    Ends (Moves s) (dropPrevious hash s holder first x) := by
  unfold dropPrevious
  split_ifs
  · have h := removeAttachmentsLoop_moves hash
      ((s.setLoads (s.loads.modify holder (Load.mapEntry fun y =>
          { y with attachments := y.attachments.eraseFront x.previousCount.toNat }))).loads.sum
            attachmentWeight + ((x.attachments.toList.take x.previousCount.toNat).reverse.map
        fun attachment => (first, attachment)).length)
      (s.setLoads (s.loads.modify holder (Load.mapEntry fun y =>
          { y with attachments := y.attachments.eraseFront x.previousCount.toNat })))
      ((x.attachments.toList.take x.previousCount.toNat).reverse.map
        fun attachment => (first, attachment))
    simp only [removeAttachments]
    split
    next e he =>
      rw [he] at h
      exact h
    next s' hs =>
      split_ifs
      · refine (moves_setLoads _ ?_).trans (h.ok hs)
        exact kept_mapEntry _ _ fun _ => rfl
      · exact Fault.noConfusion
  · exact Moves.refl s

/-- Entries that are done stay so. -/
theorem Moves.done (h : Moves s t) (hdone : ∀ load, s.loads.find file = some load → load.Done)
    {x : LoadingLoad} (hfind : t.loads.find file = some (.loading x)) : (Load.loading x).Done := by
  obtain ⟨load, hload, -, hiff⟩ := h.kept file _ x.callPtr hfind rfl
  exact hiff.mpr (hdone load hload)

/-- An entry whose read has finished drops its previous attachments, and is made loaded. -/
theorem dropPrevious_makeLoaded_moves (s : State) (holder first : Asset) (x : LoadingLoad)
    (hdone : ∀ load, s.loads.find holder = some load → load.Done)
    (ht : dropPrevious hash s holder first x = .ok t) :
    Ends (fun r => Moves s r.1) (makeLoaded t holder) := by
  have hmoves := (dropPrevious_moves hash s holder first x).ok ht
  have hloaded : ∀ y, t.loads.find holder = some (.loading y) → (Load.loading y).Done :=
    fun y hy => hmoves.done hdone hy
  exact (makeLoaded_moves hloaded).mono fun _ h => hmoves.trans h

theorem settle_moves {y : LoadingLoad} {holder : Asset}
    (hfind : s.loads.find holder = some (.loading y)) (hmem : file ∈ y.tail) :
    Moves s (s.setLoads (s.loads.modify holder fun _ => .loading (y.settle file))) := by
  refine moves_setLoads _ (kept_modify fun load hload => ?_)
  obtain rfl := Option.some.inj (hfind.symm.trans hload)
  refine ⟨rfl, ?_⟩
  have hpos : y.remainingCount ≠ 0 := by
    intro hzero
    have htail : y.tail = [] := by
      rw [LoadingLoad.tail, LoadingLoad.split, LoadingLoad.count, hzero]
      exact List.drop_eq_nil_of_le (Nat.le_refl _)
    rw [htail] at hmem
    exact List.not_mem_nil hmem
  change 0 ≤ y.remainingCount - 1 ↔ 0 ≤ y.remainingCount
  omega

theorem notifyOwners_moves (n : ℕ) (s : State) (relations : List (Owner × Asset)) :
    Ends (Moves s) (notifyOwners hash n s relations) := by
  induction n generalizing s relations with
  | zero =>
    cases relations with
    | nil => exact Moves.refl s
    | cons r relations => exact Fault.noConfusion
  | succ n ih =>
    match relations with
    | [] => exact Moves.refl s
    | (none, _) :: relations => exact ih s relations
    | (some holder, file) :: relations =>
      simp only [notifyOwners]
      split
      next y hfind =>
        split_ifs with hmem hzero
        · have hsettle := settle_moves hfind hmem
          have hdone : ∀ load, (s.setLoads (s.loads.modify holder fun _ =>
              .loading (y.settle file))).loads.find holder = some load → load.Done := by
            intro load hload
            rw [loads_setLoads, DenseTable.find_modify, if_pos rfl, hfind] at hload
            cases hload
            exact Int.le_of_eq hzero.symm
          have hdrop := dropPrevious_moves hash
            (s.setLoads (s.loads.modify holder fun _ => .loading (y.settle file))) holder file
            (y.settle file)
          split
          next e he =>
            rw [he] at hdrop
            exact hdrop
          next t ht =>
            have hloaded := dropPrevious_makeLoaded_moves hash _ holder file _ hdone ht
            split
            next e he =>
              rw [he] at hloaded
              exact hloaded
            next u hu =>
              rw [hu] at hloaded
              exact hsettle.trans hloaded
            next u hu =>
              rw [hu] at hloaded
              exact (ih _ _).mono fun _ h => (hsettle.trans hloaded).trans h
        · exact (ih _ _).mono fun _ h => (settle_moves hfind hmem).trans h
        · exact ih s relations
      next => exact ih s relations

theorem finishLoading_moves (s : State) (file : Asset) (x : LoadingLoad)
    (hdone : ∀ load, s.loads.find file = some load → load.Done) :
    Ends (Moves s) (finishLoading hash s file x) := by
  unfold finishLoading
  have hdrop := dropPrevious_moves hash s file file x
  split
  next e he =>
    rw [he] at hdrop
    exact hdrop
  next t ht =>
    have hloaded := dropPrevious_makeLoaded_moves hash s file file x hdone ht
    split
    next e he =>
      rw [he] at hloaded
      exact hloaded
    next u hu =>
      rw [hu] at hloaded
      exact hloaded
    next u hu =>
      rw [hu] at hloaded
      exact (notifyOwners_moves hash _ _ _).mono fun _ h => Moves.trans hloaded h

theorem addDependencyLoaded_moves (s : State) (owner attachment : Asset) :
    Ends (fun r => Moves s r.1) (addDependencyLoaded s owner attachment) := by
  unfold addDependencyLoaded
  split
  next y _ =>
    split
    next e he =>
      unfold HeapVector.insert at he
      split_ifs at he <;> cases he <;> exact Fault.noConfusion
    · exact Moves.refl s
    · exact moves_setLoads _ (kept_mapEntry _ _ fun _ => rfl)
  · exact Moves.refl s
  · exact Fault.noConfusion

/-- The count of a loading entry does not reach the bit of its own read. -/
theorem addDependencyUnloaded_moves (s : State) (owner attachment : Asset)
    (hcount : ∀ y, s.loads.find owner = some (.loading y) → y.remainingCount ≠ -1) :
    Ends (fun r => Moves s r.1) (addDependencyUnloaded s owner attachment) := by
  unfold addDependencyUnloaded
  split
  next y hfind =>
    split
    · exact Moves.refl s
    · refine moves_setLoads _ (kept_modify fun load hload => ?_)
      obtain rfl := Option.some.inj (hfind.symm.trans hload)
      refine ⟨rfl, ?_⟩
      have hne := hcount y hfind
      change 0 ≤ y.remainingCount + 1 ↔ 0 ≤ y.remainingCount
      omega
  · exact Moves.refl s
  · exact Fault.noConfusion

/-! ## New entries -/

/-- A load is started: there is an entry of its own for the file, and a read of it. -/
structure Starts (s t : State) (file : Asset) : Prop where
  absent : s.loads.find file = none
  callData : ∃ d, t.callData = s.callData ++ [d] ∧ d.ready = false
  watches : t.watches = s.watches
  works : t.works = s.works
  log : t.log = s.log
  requests : ∃ id directory filepath, t.requests =
    s.requests ++ [.read id directory filepath ⟨file, s.callData.length⟩]
  entries : ∀ other load call, t.loads.find other = some load → load.call = some call →
    s.loads.find other = some load ∨
      (other = file ∧ call = s.callData.length ∧ ¬ load.Done)

theorem kept_radical {name : Asset} (h : loads.emplace name (.radical file) = some loads') :
    Kept loads loads' := by
  intro other load call hfind hcall
  rw [DenseTable.find_emplace h] at hfind
  split_ifs at hfind
  · cases hfind
    cases hcall
  · exact ⟨load, hfind, hcall, Iff.rfl⟩

theorem loadNew_cases (s : State) (tag : Token) (owner : Owner) (file name filetype : Asset)
    (callback : RelationCallback) :
    Moves s (loadNew hash s tag owner file name filetype callback).1 ∨
      Starts s (loadNew hash s tag owner file name filetype callback).1 file := by
  unfold loadNew
  split
  · exact .inl (Moves.refl s)
  next loads hloads =>
    have hkept : Kept s.loads loads := by
      split_ifs at hloads
      · cases hloads
        exact .refl _
      · exact kept_radical hloads
    split
    next y hfile =>
      split
      · exact .inl (moves_setLoads s hkept)
      next filetypeData _ =>
        split
        · exact .inl (moves_setLoads s hkept)
        next loads' hloads' =>
          refine .inr ⟨?_, ⟨_, rfl, rfl⟩, rfl, rfl, rfl, ⟨_, _, _, rfl⟩, ?_⟩
          · have hnone := DenseTable.find_of_emplace hloads'
            split_ifs at hloads with hname
            · cases hloads
              exact hnone
            · rwa [DenseTable.find_emplace hloads, if_neg (Ne.symm hname)] at hnone
          · intro other load call hfind hcall
            change loads'.find other = some load at hfind
            rw [DenseTable.find_emplace hloads'] at hfind
            split_ifs at hfind with heq
            · cases hfind
              cases hcall
              refine .inr ⟨heq, rfl, ?_⟩
              change ¬ (0 : ℤ) ≤ intMin
              decide
            · split_ifs at hloads
              · cases hloads
                exact .inl hfind
              · rw [DenseTable.find_emplace hloads] at hfind
                split_ifs at hfind
                · cases hfind
                  cases hcall
                · exact .inl hfind
    · exact .inl (moves_setLoads s hkept)

/-- A message moves entries, and may start a load of a file behind that. -/
def Proceeds (s : State) (file : Asset) (t : State) : Prop :=
  Moves s t ∨ ∃ u, Moves s u ∧ Starts u t file ∧ s.loads.find file = none

theorem moves_tags (s : State) (tags : DenseTable Token Asset) : Moves s { s with tags := tags } :=
  { Moves.refl s with }

theorem processLoadIndependent_proceeds (s : State) (x : MessageLoadIndependent) :
    Ends (Proceeds s (findUnderlyingFile s.files x.name).1) (processLoadIndependent hash s x) := by
  have hold : ∀ tags file, Ends (Proceeds s (findUnderlyingFile s.files x.name).1)
      ((loadOld { s with tags := tags } x.tag global file x.filetype x.callback).map Prod.fst) :=
    fun tags file => (loadOld_moves _ _ _ _ _ _).mono fun _ h => .inl ((moves_tags s tags).trans h)
  unfold processLoadIndependent
  split
  · split
    · exact .inl (Moves.refl s)
    · exact hold _ _
  · simp only
    split
    next e he =>
      unfold uniqueFile at he
      split at he <;> cases he
      exact Fault.noConfusion
    · exact .inl (Moves.refl s)
    · split
      · split
        · exact .inl (Moves.refl s)
        · exact hold _ _
      · split
        · exact .inl (Moves.refl s)
        next tags _ =>
          obtain hmoves | hstarts := loadNew_cases hash { s with tags := tags } x.tag global
            (findUnderlyingFile s.files x.name).1 x.name x.filetype x.callback
          · exact .inl ((moves_tags s tags).trans hmoves)
          · exact .inr ⟨_, moves_tags s tags, hstarts, hstarts.absent⟩

/-- The owner of a dependency keeps its entry. -/
theorem find_addDependencyUnloaded {owner attachment : Asset} {b : Bool}
    (h : addDependencyUnloaded s owner attachment = .ok (t, b)) (hnone : t.loads.find file = none) :
    s.loads.find file = none := by
  unfold addDependencyUnloaded at h
  split at h
  next y hfind =>
    split at h
    · cases h
      exact hnone
    · cases h
      rw [loads_setLoads, DenseTable.find_modify] at hnone
      split_ifs at hnone with heq
      · rw [heq]
        exact Option.map_eq_none_iff.mp hnone
      · exact hnone
  · cases h
    exact hnone
  · cases h

theorem processLoadDependency_proceeds (s : State) (x : MessageLoadDependency)
    (hcount : ∀ y, s.loads.find (findUnderlyingLoad s.loads x.owner).1 = some (.loading y) →
      y.remainingCount ≠ -1) :
    Ends (Proceeds s (findUnderlyingFile s.files x.name).1) (processLoadDependency hash s x) := by
  unfold processLoadDependency
  split
  · exact .inl (Moves.refl s)
  next owner _ howner =>
    rw [howner] at hcount
    split
    next file load _ =>
      have hadd : Ends (fun r => Moves s r.1) (if load.kind = .loadedLoad then
          addDependencyLoaded s owner file else addDependencyUnloaded s owner file) := by
        split_ifs
        · exact addDependencyLoaded_moves _ _ _
        · exact addDependencyUnloaded_moves _ _ _ hcount
      split
      next e he =>
        rw [he] at hadd
        exact hadd
      next t ht =>
        rw [ht] at hadd
        exact .inl hadd
      next t ht =>
        rw [ht] at hadd
        exact (loadOld_moves _ _ _ _ _ _).mono fun _ h => .inl (Moves.trans hadd h)
    · simp only
      split
      next e he =>
        unfold uniqueFile at he
        split at he <;> cases he
        exact Fault.noConfusion
      · exact .inl (Moves.refl s)
      · have hadd := addDependencyUnloaded_moves s owner (findUnderlyingFile s.files x.name).1 hcount
        split
        next e he =>
          rw [he] at hadd
          exact hadd
        next t ht =>
          rw [ht] at hadd
          exact .inl hadd
        next t ht =>
          rw [ht] at hadd
          split
          · exact (loadOld_moves _ _ _ _ _ _).mono fun _ h => .inl (Moves.trans hadd h)
          · obtain hmoves | hstarts := loadNew_cases hash t owner (some owner)
              (findUnderlyingFile s.files x.name).1 x.name x.filetype x.callback
            · exact .inl (Moves.trans hadd hmoves)
            · exact .inr ⟨t, hadd, hstarts, find_addDependencyUnloaded ht hstarts.absent⟩

end Fimbulwinter.Loader
