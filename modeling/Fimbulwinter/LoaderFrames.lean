import Fimbulwinter.LoaderSystem

/-! # What the operations of the file loader leave alone

Operations on load entries only append to the posted work, the requests, the shared
data and the log, and they keep every table but the one of load entries. -/
namespace Fimbulwinter.Loader

variable (hash : Name → Asset)

/-- The second state differs from the first in load entries and by what was appended. -/
structure Extends (s t : State) : Prop where
  scanning : t.scanningDirectory = s.scanningDirectory
  filetypes : t.filetypes = s.filetypes
  files : t.files = s.files
  tags : t.tags = s.tags
  watches : t.watches = s.watches
  callData : s.callData <+: t.callData
  works : s.works <+: t.works
  requests : s.requests <+: t.requests
  log : s.log <+: t.log

theorem Extends.refl (s : State) : Extends s s :=
  ⟨rfl, rfl, rfl, rfl, rfl, List.prefix_rfl, List.prefix_rfl, List.prefix_rfl, List.prefix_rfl⟩

theorem Extends.trans {s t u : State} (h : Extends s t) (h' : Extends t u) : Extends s u where
  scanning := h'.scanning.trans h.scanning
  filetypes := h'.filetypes.trans h.filetypes
  files := h'.files.trans h.files
  tags := h'.tags.trans h.tags
  watches := h'.watches.trans h.watches
  callData := h.callData.trans h'.callData
  works := h.works.trans h'.works
  requests := h.requests.trans h'.requests
  log := h.log.trans h'.log

/-- An operation ends in a state with a property, or in a fault other than a read of an
erased element. -/
def Ends {α : Type*} (property : α → Prop) : Except Fault α → Prop
  | .ok a => property a
  | .error e => e ≠ .erasedElement

theorem Ends.ok {α : Type*} {property : α → Prop} {r : Except Fault α} {s : α}
    (h : Ends property r) (hr : r = .ok s) : property s := by
  subst hr
  exact h

theorem Ends.mono {α : Type*} {p q : α → Prop} {r : Except Fault α} (h : Ends p r)
    (hpq : ∀ s, p s → q s) : Ends q r := by
  cases r with
  | ok s => exact hpq s h
  | error e => exact h

theorem Ends.ne_erasedElement {α : Type*} {property : α → Prop} {r : Except Fault α}
    (h : Ends property r) : r ≠ .error .erasedElement := by
  rintro rfl
  exact h rfl

theorem extends_setLoads (s : State) (loads : Loads) : Extends s (s.setLoads loads) :=
  ⟨rfl, rfl, rfl, rfl, rfl, List.prefix_rfl, List.prefix_rfl, List.prefix_rfl, List.prefix_rfl⟩

theorem extends_postWork (s : State) (work : Work) : Extends s (s.postWork work) :=
  ⟨rfl, rfl, rfl, rfl, rfl, List.prefix_rfl, List.prefix_append _ _, List.prefix_rfl,
    List.prefix_rfl⟩

theorem extends_record (s : State) (event : Event) : Extends s (s.record event) :=
  ⟨rfl, rfl, rfl, rfl, rfl, List.prefix_rfl, List.prefix_rfl, List.prefix_rfl,
    List.prefix_append _ _⟩

theorem extends_request (s : State) (request : FilesystemRequest) :
    Extends s (s.request request) :=
  ⟨rfl, rfl, rfl, rfl, rfl, List.prefix_rfl, List.prefix_rfl, List.prefix_append _ _,
    List.prefix_rfl⟩

theorem removeEntry_extends (s : State) (file : Asset) (x : LoadedLoad) (unload : Bool) :
    Extends s (removeEntry hash s file x unload) := by
  have hrequest := extends_request s (.removeWatch (makeToken x.directory (hash x.filepath)))
  cases unload with
  | true =>
    exact hrequest.trans ((extends_postWork _ _).trans ((extends_record _ _).trans
      ((extends_setLoads _ _).trans (extends_record _ _))))
  | false => exact hrequest.trans ((extends_setLoads _ _).trans (extends_record _ _))

theorem releaseOwner_extends (s : State) (file : Asset) (x : LoadedLoad) (owner : Owner)
    (tag : Token) (unload : Bool) :
    Extends s (releaseOwner hash s file x owner tag unload).1 := by
  refine (extends_postWork s (.removeCall file x.callPtr tag)).trans ?_
  simp only [releaseOwner]
  split_ifs
  · exact removeEntry_extends hash _ _ _ _
  · exact extends_setLoads _ _

theorem removeAttachmentsLoop_extends (n : ℕ) (s : State) (relations : List (Asset × Asset)) :
    Ends (Extends s) (removeAttachmentsLoop hash n s relations) := by
  induction n generalizing s relations with
  | zero =>
    cases relations with
    | nil => exact Extends.refl s
    | cons r relations => exact Fault.noConfusion
  | succ n ih =>
    cases relations with
    | nil => exact Extends.refl s
    | cons r relations =>
      obtain ⟨owner, file⟩ := r
      simp only [removeAttachmentsLoop]
      split
      · exact Extends.refl s
      · split
        · exact Fault.noConfusion
        · split_ifs
          · exact (ih _ _).mono fun _ h => (releaseOwner_extends hash _ _ _ _ _ _).trans h
          · exact ih s relations

theorem removeAttachments_extends (s : State) (relations : List (Asset × Asset)) :
    Ends (Extends s) (removeAttachments hash s relations) :=
  removeAttachmentsLoop_extends hash _ s relations

theorem loadNew_extends (s : State) (tag : Token) (owner : Owner) (file name filetype : Asset)
    (callback : RelationCallback) :
    Extends s (loadNew hash s tag owner file name filetype callback).1 := by
  unfold loadNew
  split
  · exact Extends.refl s
  next loads _ =>
    split
    · split
      · exact extends_setLoads s loads
      · split
        · exact extends_setLoads s loads
        · exact ⟨rfl, rfl, rfl, rfl, rfl, List.prefix_append _ _, List.prefix_rfl,
            List.prefix_append _ _, List.prefix_rfl⟩
    · exact extends_setLoads s loads

theorem loadOld_extends (s : State) (tag : Token) (owner : Owner) (file filetype : Asset)
    (callback : RelationCallback) :
    Ends (Extends s) ((loadOld s tag owner file filetype callback).map Prod.fst) := by
  unfold loadOld
  split
  · exact Fault.noConfusion
  · split_ifs
    · exact (extends_setLoads _ _).trans (extends_postWork _ _)
    · exact Extends.refl s

theorem removeFile_extends (s : State) (tag : Token) (file : Asset) :
    Ends (Extends s) (removeFile hash s tag file) := by
  unfold removeFile
  split
  · exact Extends.refl s
  · split
    · exact Fault.noConfusion
    · split_ifs
      · exact (removeAttachments_extends hash _ _).mono fun _ h =>
          (releaseOwner_extends hash _ _ _ _ _ _).trans h
      · exact Extends.refl s

theorem makeLoaded_extends (s : State) (file : Asset) :
    Ends (Extends s) ((makeLoaded s file).map Prod.fst) := by
  unfold makeLoaded
  split
  · simp only
    split
    · exact extends_setLoads _ _
    · exact (extends_setLoads _ _).trans (extends_postWork _ _)
  · exact Fault.noConfusion

theorem makeLoading_extends (s : State) (file : Asset) (x : LoadedLoad) :
    Extends s (makeLoading s file x) :=
  extends_setLoads _ _

theorem dropPrevious_extends (s : State) (holder first : Asset) (x : LoadingLoad) :
    Ends (Extends s) (dropPrevious hash s holder first x) := by
  unfold dropPrevious
  split_ifs
  · have h := removeAttachments_extends hash
      (s.setLoads (s.loads.modify holder (Load.mapEntry fun y =>
          { y with attachments := y.attachments.eraseFront x.previousCount.toNat })))
      ((x.attachments.toList.take x.previousCount.toNat).reverse.map
        fun attachment => (first, attachment))
    simp only
    split
    next e he =>
      rw [he] at h
      exact h
    next s' hs =>
      split_ifs
      · exact (extends_setLoads _ _).trans (h.ok hs)
      · exact Fault.noConfusion
  · exact Extends.refl s

theorem notifyOwners_extends (n : ℕ) (s : State) (relations : List (Owner × Asset)) :
    Ends (Extends s) (notifyOwners hash n s relations) := by
  induction n generalizing s relations with
  | zero =>
    cases relations with
    | nil => exact Extends.refl s
    | cons r relations => exact Fault.noConfusion
  | succ n ih =>
    match relations with
    | [] => exact Extends.refl s
    | (none, _) :: relations => exact ih s relations
    | (some holder, file) :: relations =>
      simp only [notifyOwners]
      split
      next y _ =>
        split_ifs
        · have hdrop := dropPrevious_extends hash
            (s.setLoads (s.loads.modify holder fun _ => .loading (y.settle file))) holder file
            (y.settle file)
          split
          next e he =>
            rw [he] at hdrop
            exact hdrop
          next t ht =>
            have hext := (extends_setLoads s _).trans (hdrop.ok ht)
            have hloaded := makeLoaded_extends t holder
            split
            next e he =>
              rw [he] at hloaded
              exact hloaded
            next u hu =>
              rw [hu] at hloaded
              exact hext.trans hloaded
            next u hu =>
              rw [hu] at hloaded
              exact (ih _ _).mono fun _ h => (hext.trans hloaded).trans h
        · exact (ih _ _).mono fun _ h => (extends_setLoads _ _).trans h
        · exact ih s relations
      next => exact ih s relations

theorem finishLoading_extends (s : State) (file : Asset) (x : LoadingLoad) :
    Ends (Extends s) (finishLoading hash s file x) := by
  unfold finishLoading
  have hdrop := dropPrevious_extends hash s file file x
  split
  next e he =>
    rw [he] at hdrop
    exact hdrop
  next t ht =>
    have hext := hdrop.ok ht
    have hloaded := makeLoaded_extends t file
    split
    next e he =>
      rw [he] at hloaded
      exact hloaded
    next u hu =>
      rw [hu] at hloaded
      exact hext.trans hloaded
    next u hu =>
      rw [hu] at hloaded
      exact (notifyOwners_extends hash _ _ _).mono fun _ h => (hext.trans hloaded).trans h

theorem addDependencyLoaded_extends (s : State) (owner attachment : Asset) :
    Ends (Extends s) ((addDependencyLoaded s owner attachment).map Prod.fst) := by
  unfold addDependencyLoaded
  split
  next y _ =>
    split
    next e he =>
      unfold HeapVector.insert at he
      split_ifs at he <;> cases he <;> exact Fault.noConfusion
    · exact Extends.refl s
    · exact extends_setLoads _ _
  · exact Extends.refl s
  · exact Fault.noConfusion

theorem addDependencyUnloaded_extends (s : State) (owner attachment : Asset) :
    Ends (Extends s) ((addDependencyUnloaded s owner attachment).map Prod.fst) := by
  unfold addDependencyUnloaded
  split
  · split
    · exact Extends.refl s
    · exact extends_setLoads _ _
  · exact Extends.refl s
  · exact Fault.noConfusion

/-! ## Messages -/

private theorem removeMeta_ends (directory : Asset) (files : Files) (filepath : Name) :
    Ends (fun _ => True) (removeMeta hash directory files filepath) := by
  simp only [removeMeta]
  repeat' split
  all_goals first | trivial | exact Fault.noConfusion

private theorem removeRadical_ends (directory : Asset) (files : Files) (file : Asset)
    (radical : Name) : Ends (fun _ => True) (removeRadical hash directory files file radical) := by
  simp only [removeRadical]
  repeat' split
  all_goals first | trivial | exact Fault.noConfusion

private theorem addRadical_ends (directory : Asset) (files : Files) (file : Asset)
    (radical : Name) : Ends (fun _ => True) (addRadical hash directory files file radical) := by
  simp only [addRadical]
  repeat' split
  all_goals first | trivial | exact Fault.noConfusion

private theorem removeFilepath_ends (directory : Asset) (files : Files) (filepath : Name) :
    Ends (fun _ => True) (removeFilepath hash directory files filepath) := by
  have h := removeMeta_ends hash directory files filepath
  unfold removeFilepath
  split
  next e he =>
    rw [he] at h
    exact h
  · split
    · trivial
    · exact removeRadical_ends hash _ _ _ _

private theorem addFilepath_ends (directory : Asset) (files : Files) (filepath : Name) :
    Ends (fun _ => True) (addFilepath hash directory files filepath) := by
  simp only [addFilepath]
  repeat' split
  all_goals first | trivial | exact Fault.noConfusion | exact addRadical_ends hash _ _ _ _

private theorem forEachFile_ends {f : Files → Name → Except Fault Files}
    (hf : ∀ files name, Ends (fun _ => True) (f files name)) (files : Files) (names : List Name) :
    Ends (fun _ => True) (forEachFile f files names) := by
  induction names generalizing files with
  | nil => trivial
  | cons name names ih =>
    cases name with
    | nil => trivial
    | cons c name =>
      have h := hf files (c :: name)
      simp only [forEachFile]
      split
      next e he =>
        rw [he] at h
        exact h
      · exact ih _

private theorem scanFiles_ends (files : Files) (x : MessageFileScan) :
    Ends (fun _ => True) (scanFiles hash files x) := by
  have hremove := forEachFile_ends (removeFilepath_ends hash x.directory) files
    (splitFiles x.removedFiles)
  unfold scanFiles
  split
  next e he =>
    rw [he] at hremove
    exact hremove
  · trivial
  next files' _ =>
    have hadd := forEachFile_ends (addFilepath_ends hash x.directory) files'
      (splitFiles x.existingFiles)
    split
    next e he =>
      rw [he] at hadd
      exact hadd
    · trivial

theorem processLoadIndependent_extends (s : State) (x : MessageLoadIndependent) :
    Ends (fun t => ∃ tags, Extends { s with tags := tags } t)
      (processLoadIndependent hash s x) := by
  have hrefl : ∃ tags, Extends { s with tags := tags } s := ⟨s.tags, Extends.refl s⟩
  have hold : ∀ tags file, Ends (fun t => ∃ tags, Extends { s with tags := tags } t)
      ((loadOld { s with tags := tags } x.tag global file x.filetype x.callback).map Prod.fst) :=
    fun tags file => (loadOld_extends _ _ _ _ _ _).mono fun _ h => ⟨tags, h⟩
  unfold processLoadIndependent
  split
  · split
    · exact hrefl
    · exact hold _ _
  · simp only
    split
    next e he =>
      unfold uniqueFile at he
      split at he <;> cases he
      exact Fault.noConfusion
    · exact hrefl
    · split
      · split
        · exact hrefl
        · exact hold _ _
      · split
        · exact hrefl
        · exact ⟨_, loadNew_extends hash _ _ _ _ _ _ _⟩

theorem processLoadDependency_extends (s : State) (x : MessageLoadDependency) :
    Ends (Extends s) (processLoadDependency hash s x) := by
  unfold processLoadDependency
  split
  · exact Extends.refl s
  next owner _ _ =>
    split
    next file load _ =>
      have hadd : Ends (Extends s) ((if load.kind = .loadedLoad then addDependencyLoaded s owner file
          else addDependencyUnloaded s owner file).map Prod.fst) := by
        split_ifs
        · exact addDependencyLoaded_extends _ _ _
        · exact addDependencyUnloaded_extends _ _ _
      split
      next e he =>
        rw [he] at hadd
        exact hadd
      next t ht =>
        rw [ht] at hadd
        exact hadd
      next t ht =>
        rw [ht] at hadd
        exact (loadOld_extends _ _ _ _ _ _).mono fun _ h => Extends.trans hadd h
    · simp only
      split
      next e he =>
        unfold uniqueFile at he
        split at he <;> cases he
        exact Fault.noConfusion
      · exact Extends.refl s
      · have hadd := addDependencyUnloaded_extends s owner (findUnderlyingFile s.files x.name).1
        split
        next e he =>
          rw [he] at hadd
          exact hadd
        next t ht =>
          rw [ht] at hadd
          exact hadd
        next t ht =>
          rw [ht] at hadd
          split
          · exact (loadOld_extends _ _ _ _ _ _).mono fun _ h => Extends.trans hadd h
          · exact Extends.trans hadd (loadNew_extends hash _ _ _ _ _ _ _)

theorem processLoadInit_extends (s : State) (file : Asset) : Extends s (processLoadInit s file) := by
  unfold processLoadInit
  split
  · exact makeLoading_extends _ _ _
  · exact Extends.refl s

theorem processLoadDone_extends (s : State) (file : Asset) :
    Ends (Extends s) (processLoadDone hash s file) := by
  unfold processLoadDone
  split
  · simp only
    split_ifs
    · exact (finishLoading_extends hash _ _ _).mono fun _ h => (extends_setLoads s _).trans h
    · exact extends_setLoads s _
  · exact Extends.refl s

theorem processUnloadIndependent_extends (s : State) (tag : Token) :
    Ends (Extends s) (processUnloadIndependent hash s tag) := by
  unfold processUnloadIndependent
  split
  · exact Extends.refl s
  · exact removeFile_extends hash _ _ _

/-- The directory being scanned after a message. -/
def Message.scanningAfter (scanning : Option Asset) : Message → Option Asset
  | .fileScan _ => none
  | .registerLibrary directory => some directory
  | _ => scanning

theorem processMessage_scanning (s : State) (message : Message) :
    Ends (fun t => t.scanningDirectory = message.scanningAfter s.scanningDirectory)
      (processMessage hash s message) := by
  cases message with
  | fileScan x =>
    have h := scanFiles_ends hash s.files x
    simp only [processMessage, processFileScan]
    split
    next e he =>
      rw [he] at h
      exact h
    · rfl
  | loadIndependent x =>
    exact (processLoadIndependent_extends hash s x).mono fun _ ⟨_, h⟩ => h.scanning
  | loadDependency x => exact (processLoadDependency_extends hash s x).mono fun _ h => h.scanning
  | loadDone file => exact (processLoadDone_extends hash s file).mono fun _ h => h.scanning
  | loadInit file => exact (processLoadInit_extends s file).scanning
  | registerFiletype filetype loadcall unloadcall => rfl
  | registerLibrary directory => rfl
  | unloadIndependent tag =>
    exact (processUnloadIndependent_extends hash s tag).mono fun _ h => h.scanning
  | unregisterFiletype filetype => rfl
  | unregisterLibrary directory =>
    simp only [processMessage, processUnregisterLibrary, Ends, Message.scanningAfter]
    split <;> rfl

/-! ## Other work -/

theorem runWork_scanning (s : State) (requests : List MessageLoadDependency) (work : Work) :
    (runWork s requests work).scanningDirectory = s.scanningDirectory := by
  cases work with
  | loaderUpdate message sender => rfl
  | fileLoad data =>
    simp only [runWork, fileLoad]
    split
    · rfl
    · split_ifs <;> rfl
  | ready file call =>
    simp only [runWork, readyWork]
    split
    · rfl
    · split_ifs <;> rfl
  | addCall file call tag callback =>
    simp only [runWork, addCallWork]
    split
    · rfl
    · split_ifs <;> rfl
  | removeCall file call tag =>
    simp only [runWork, removeCallWork]
    split
    · rfl
    · split
      · rfl
      · split_ifs <;> rfl
  | unload file call =>
    simp only [runWork, unloadWork]
    split
    · rfl
    · split_ifs <;> rfl

theorem processRequest_scanning (s : State) (request : FilesystemRequest) :
    (processRequest s request).scanningDirectory = s.scanningDirectory := by
  cases request <;> rfl

end Fimbulwinter.Loader
