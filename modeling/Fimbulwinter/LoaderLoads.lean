import Fimbulwinter.LoaderState

/-! # Load entries of the file loader

`load_new`, `load_old`, `remove_file`, `remove_attachments`, `finish_loading` and
the `add_dependency` functions. A vector used as a stack is a list whose head is
its back. Loops carry fuel; the callers pass a bound of the number of rounds. -/
namespace Fimbulwinter.Loader
open UnstableErase

variable (hash : Name → Asset)

/-- Attachments of an entry, counted. -/
def attachmentWeight (_ : Asset) (l : Load) : ℕ :=
  match l.entry with
  | none => 0
  | some x => x.attachments.size

/-- Owners of a loading entry, counted. -/
def loadingOwnerWeight (_ : Asset) : Load → ℕ
  | .loading x => x.owners.length
  | _ => 0

/-- The entries without an entry and its radical. -/
def eraseEntry (loads : Loads) (file : Asset) (x : LoadedLoad) : Loads :=
  (if x.radical = file then loads else loads.erase Load.kind x.radical).erase Load.kind file

/-- Remove an entry that has lost its last owner, with its radical and its watch. -/
def removeEntry (s : State) (file : Asset) (x : LoadedLoad) (unload : Bool) : State :=
  let loads := eraseEntry s.loads file x
  let s := s.request (.removeWatch (makeToken x.directory (hash x.filepath)))
  let s := if unload then (s.postWork (.unload file x.callPtr)).record (.unloadPosted x.callPtr)
    else s
  (s.setLoads loads).record (.removed x.callPtr)

/-- What happens to an entry when an owner that it has is dropped: the owner's
callback is removed, and with the last owner the entry itself. The relations to
drop next are returned. The branches of the source for loading and for loaded
entries differ in assertions, and in `remove_file` in whether the file is unloaded. -/
def releaseOwner (s : State) (file : Asset) (x : LoadedLoad) (owner : Owner) (tag : Token)
    (unload : Bool) : State × List (Asset × Asset) :=
  let s := s.postWork (.removeCall file x.callPtr tag)
  let owners := swapEraseValue x.owners owner
  if owners = [] then
    (removeEntry hash s file x unload,
      x.attachments.toList.reverse.map fun attachment => (file, attachment))
  else
    (s.setLoads (s.loads.modify file (Load.mapEntry fun y => { y with owners := owners })), [])

/-- The loop of `remove_attachments`. -/
def removeAttachmentsLoop : ℕ → State → List (Asset × Asset) → Except Fault State
  | _, s, [] => .ok s
  | 0, _, _ :: _ => .error .outOfFuel
  | n + 1, s, (owner, file) :: relations =>
    match s.loads.find file with
    | none => .ok s -- the assertion fails and the loop breaks
    | some load =>
      match load.entry with
      | none => .error .unreachable
      | some x =>
        if some owner ∈ x.owners then
          let r := releaseOwner hash s file x (some owner) owner true
          removeAttachmentsLoop n r.1 (r.2 ++ relations)
        else removeAttachmentsLoop n s relations

def removeAttachments (s : State) (relations : List (Asset × Asset)) : Except Fault State :=
  removeAttachmentsLoop hash (s.loads.sum attachmentWeight + relations.length) s relations

/-- The entry that `load_new` makes for a unique file. -/
def newLoad (s : State) (owner : Owner) (name filetype : Asset) (uniqueFile : UniqueFile) :
    LoadingLoad where
  filetype := filetype
  directory := uniqueFile.directory
  radical := name
  filepath := uniqueFile.filepath
  callPtr := s.callData.length
  owners := [owner]
  attachments := ∅
  previousCount := -1
  remainingCount := intMin

/-- The end of `load_new`: the shared data is made and the file is read. -/
def startLoad (s : State) (loads : Loads) (file : Asset) (uniqueFile : UniqueFile)
    (callData : FileCallData) : State :=
  let id := makeToken uniqueFile.directory (hash uniqueFile.filepath)
  { s.request (.read id uniqueFile.directory uniqueFile.filepath ⟨file, s.callData.length⟩) with
    loads := loads
    callData := s.callData ++ [callData] }

def loadNew (s : State) (tag : Token) (owner : Owner) (file : Asset) (name filetype : Asset)
    (callback : RelationCallback) : State × Bool :=
  match (if name = file then some s.loads else s.loads.emplace name (.radical file)) with
  | none => (s, false)
  | some loads =>
    match s.files.find file with
    | some (.unique uniqueFile) =>
      match s.filetypes.find filetype with
      | none => (s.setLoads loads, false)
      | some filetypeData =>
        match loads.emplace file (.loading (newLoad s owner name filetype uniqueFile)) with
        | none => (s.setLoads loads, false)
        | some loads =>
          (startLoad hash s loads file uniqueFile ⟨[(tag, callback)], filetypeData, false⟩, true)
    | _ => (s.setLoads loads, false)

/-- The branches of the source for loading and for loaded entries differ in assertions. -/
def loadOld (s : State) (tag : Token) (owner : Owner) (file : Asset) (filetype : Asset)
    (callback : RelationCallback) : Except Fault (State × Bool) :=
  match (s.loads.find file).bind Load.entry with
  | none => .error .unreachable
  | some y =>
    if y.filetype = filetype then
      let loads := s.loads.modify file
        (Load.mapEntry fun y => { y with owners := y.owners ++ [owner] })
      .ok ((s.setLoads loads).postWork (.addCall file y.callPtr tag callback), true)
    else .ok (s, false)

def removeFile (s : State) (tag : Token) (file : Asset) : Except Fault State :=
  match s.loads.find file with
  | none => .ok s
  | some load =>
    match load.entry with
    | none => .error .unreachable
    | some y =>
      if global ∈ y.owners then
        let unload := match load with
          | .loading x => decide (0 ≤ x.previousCount)
          | _ => true
        let r := releaseOwner hash s file y global tag unload
        removeAttachments hash r.1 r.2
      else .ok s

/-- `make_loaded`; the flag tells whether the entry could be placed again. -/
def makeLoaded (s : State) (file : Asset) : Except Fault (State × Bool) :=
  match s.loads.find file with
  | some (.loading x) =>
    let loads := s.loads.erase Load.kind file
    match loads.emplace file (.loaded x.toLoadedLoad) with
    | none => .ok (s.setLoads loads, false)
    | some loads => .ok ((s.setLoads loads).postWork (.ready file x.callPtr), true)
  | _ => .error .movedEntry

/-- `make_loading`: the constructor keeps the number of attachments as previous. -/
def makeLoading (s : State) (file : Asset) (x : LoadedLoad) : State :=
  let loads := s.loads.erase Load.kind file
  let loadingLoad : LoadingLoad := { x with
    previousCount := toInt32 x.attachments.size
    remainingCount := intMin }
  s.setLoads ((loads.emplace file (.loading loadingLoad)).getD loads)

/-- The part of `finish_loading` that releases the attachments of the previous
load of `holder`, in relations whose first component is `first`. The source keeps
a reference to the entry of `holder` across the call of `remove_attachments`. -/
def dropPrevious (s : State) (holder first : Asset) (x : LoadingLoad) : Except Fault State :=
  if 0 < x.previousCount then
    let k := x.previousCount.toNat
    let previous := x.attachments.toList.take k
    let loads := s.loads.modify holder
      (Load.mapEntry fun y => { y with attachments := y.attachments.eraseFront k })
    match removeAttachments hash (s.setLoads loads)
        (previous.reverse.map fun attachment => (first, attachment)) with
    | .error e => .error e
    | .ok s' =>
      if s'.loads.find holder ≠ none ∧ s'.loads.position Load.kind .loadingLoad holder =
          s.loads.position Load.kind .loadingLoad holder then .ok s'
      else .error .movedEntry
  else .ok s

/-- One required attachment of an entry has finished: it is swapped to the front
of the required ones, and their number drops. -/
def LoadingLoad.settle (y : LoadingLoad) (file : Asset) : LoadingLoad :=
  { y with
    attachments := y.attachments.swap (y.split + y.tail.idxOf file) y.split
    remainingCount := y.remainingCount - 1 }

/-- The loop of `finish_loading`, which tells owners that an attachment is loaded. -/
def notifyOwners : ℕ → State → List (Owner × Asset) → Except Fault State
  | _, s, [] => .ok s
  | 0, _, _ :: _ => .error .outOfFuel
  | n + 1, s, (none, _) :: relations => notifyOwners n s relations
  | n + 1, s, (some holder, file) :: relations =>
    match s.loads.find holder with
    | some (.loading y) =>
      if file ∈ y.tail then
        let y := y.settle file
        let s := s.setLoads (s.loads.modify holder fun _ => .loading y)
        if y.remainingCount = 0 then
          match dropPrevious hash s holder file y with
          | .error e => .error e
          | .ok s =>
            match makeLoaded s holder with
            | .error e => .error e
            | .ok (s, false) => .ok s
            | .ok (s, true) =>
              notifyOwners n s (y.owners.reverse.map (fun owner => (owner, holder)) ++ relations)
        else notifyOwners n s relations
      else notifyOwners n s relations
    | _ => notifyOwners n s relations

def finishLoading (s : State) (file : Asset) (x : LoadingLoad) : Except Fault State :=
  match dropPrevious hash s file file x with
  | .error e => .error e
  | .ok s =>
    match makeLoaded s file with
    | .error e => .error e
    | .ok (s, false) => .ok s
    | .ok (s, true) =>
      let relations := x.owners.reverse.map fun owner => (owner, file)
      notifyOwners hash (s.loads.sum loadingOwnerWeight + relations.length) s relations

def addDependencyLoaded (s : State) (owner attachment : Asset) : Except Fault (State × Bool) :=
  match s.loads.find owner with
  | some (.loading y) =>
    match y.attachments.insert y.split attachment with
    | .error e => .error e
    | .ok none => .ok (s, false)
    | .ok (some attachments) =>
      let loads := s.loads.modify owner
        (Load.mapEntry fun y => { y with attachments := attachments })
      .ok (s.setLoads loads, true)
  | some (.loaded _) => .ok (s, false)
  | _ => .error .unreachable

def addDependencyUnloaded (s : State) (owner attachment : Asset) : Except Fault (State × Bool) :=
  match s.loads.find owner with
  | some (.loading y) =>
    match y.attachments.pushBack attachment with
    | none => .ok (s, false)
    | some attachments =>
      let y : LoadingLoad := { y with
        attachments := attachments
        remainingCount := y.remainingCount + 1 }
      .ok (s.setLoads (s.loads.modify owner fun _ => .loading y), true)
  | some (.loaded _) => .ok (s, false)
  | _ => .error .unreachable

end Fimbulwinter.Loader
