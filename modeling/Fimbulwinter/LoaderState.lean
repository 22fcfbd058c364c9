import Fimbulwinter.DenseTable
import Fimbulwinter.HeapVector
import Mathlib.Data.PNat.Basic
import Mathlib.Data.UInt

/-! # State of the file loader

The tables of `engine/file/loader.cpp`, the messages it processes, and the work
and file requests it posts. Assertions are those of the debug build: they return
the value of their condition. Memory allocation succeeds.

Assets and tokens are nonzero hashes, since the null hash marks empty buckets in
every table; the null hash is also the owner `global`, written `none` here. -/
namespace Fimbulwinter.Loader

abbrev Name := List Char
abbrev Asset := ℕ+
abbrev Token := ℕ+
abbrev Owner := Option Asset
abbrev Callback := ℕ
abbrev Any := ℕ

/-- A shared pointer to a `FileCallData`: its index in the order of allocation. -/
abbrev CallPtr := ℕ

/-- The owner that stands for independent loads. -/
def global : Owner := none

structure Filetype where
  loadcall : Callback
  unloadcall : Callback
  deriving DecidableEq, Repr

structure RelationCallback where
  name : Asset
  readycall : Callback
  unreadycall : Callback
  data : Any
  deriving DecidableEq, Repr

structure FileCallData where
  calls : List (Token × RelationCallback)
  filetype : Filetype
  ready : Bool
  deriving DecidableEq, Repr

structure ReadData where
  file : Asset
  fileCallback : CallPtr
  deriving DecidableEq, Repr

/-! ## Messages -/

structure MessageFileScan where
  directory : Asset
  existingFiles : Name
  removedFiles : Name
  deriving DecidableEq, Repr

structure MessageLoadIndependent where
  tag : Token
  name : Asset
  filetype : Asset
  readycall : Callback
  unreadycall : Callback
  data : Any
  deriving DecidableEq, Repr

structure MessageLoadDependency where
  owner : Asset
  name : Asset
  filetype : Asset
  readycall : Callback
  unreadycall : Callback
  data : Any
  deriving DecidableEq, Repr

def MessageLoadIndependent.callback (x : MessageLoadIndependent) : RelationCallback :=
  ⟨x.name, x.readycall, x.unreadycall, x.data⟩

def MessageLoadDependency.callback (x : MessageLoadDependency) : RelationCallback :=
  ⟨x.name, x.readycall, x.unreadycall, x.data⟩

inductive Message
  | fileScan (x : MessageFileScan)
  | loadIndependent (x : MessageLoadIndependent)
  | loadDependency (x : MessageLoadDependency)
  | loadDone (file : Asset)
  | loadInit (file : Asset)
  | registerFiletype (filetype : Asset) (loadcall unloadcall : Callback)
  | registerLibrary (directory : Asset)
  | unloadIndependent (tag : Token)
  | unregisterFiletype (filetype : Asset)
  | unregisterLibrary (directory : Asset)
  deriving DecidableEq, Repr

/-! ## Files -/

structure AmbiguousFile where
  metas : List (Asset × Name)
  radicals : List (Asset × Asset)
  deriving DecidableEq, Repr

structure RadicalFile where
  directory : Asset
  file : Asset
  deriving DecidableEq, Repr

structure UniqueFile where
  directory : Asset
  filepath : Name
  radicals : List (Asset × Asset)
  deriving DecidableEq, Repr

inductive File
  | ambiguous (y : AmbiguousFile)
  | directory
  | radical (y : RadicalFile)
  | unique (y : UniqueFile)
  deriving DecidableEq, Repr

inductive FileKind | ambiguousFile | directoryFile | radicalFile | uniqueFile
  deriving DecidableEq, Repr

def File.kind : File → FileKind
  | .ambiguous _ => .ambiguousFile
  | .directory => .directoryFile
  | .radical _ => .radicalFile
  | .unique _ => .uniqueFile

abbrev Files := DenseTable Asset File

/-- The file a name stands for: a radical stands for its file. -/
def findUnderlyingFile (files : Files) (file : Asset) : Asset × Option File :=
  match files.find file with
  | some (.radical y) => (y.file, files.find y.file)
  | f => (file, f)

/-! ## Loads -/

structure LoadedLoad where
  filetype : Asset
  directory : Asset
  radical : Asset
  filepath : Name
  callPtr : CallPtr
  owners : List Owner
  attachments : HeapVector Asset
  deriving DecidableEq

/-- `previousCount` is the number of attachments of the previous load;
`remainingCount` is the number of attachments still required, with the most
significant bit set while the file itself is not finished reading. -/
structure LoadingLoad extends LoadedLoad where
  previousCount : ℤ
  remainingCount : ℤ
  deriving DecidableEq

def intMin : ℤ := -2 ^ 31

/-- `static_cast<std::int32_t>` of a size. -/
def toInt32 (n : ℕ) : ℤ := Int.bmod n (2 ^ 32)

/-- `remaining_count & INT_MAX` -/
def LoadingLoad.count (x : LoadingLoad) : ℕ := (x.remainingCount % 2 ^ 31).toNat

/-- `attachments.end() - count` as an index -/
def LoadingLoad.split (x : LoadingLoad) : ℕ := x.attachments.size - x.count

/-- The attachments that are still required. -/
def LoadingLoad.tail (x : LoadingLoad) : List Asset := x.attachments.toList.drop x.split

inductive Load
  | radical (file : Asset)
  | loading (x : LoadingLoad)
  | loaded (x : LoadedLoad)
  deriving DecidableEq

inductive LoadKind | radicalLoad | loadingLoad | loadedLoad
  deriving DecidableEq, Repr

def Load.kind : Load → LoadKind
  | .radical _ => .radicalLoad
  | .loading _ => .loadingLoad
  | .loaded _ => .loadedLoad

/-- What loading and loaded entries have in common. -/
def Load.entry : Load → Option LoadedLoad
  | .radical _ => none
  | .loading x => some x.toLoadedLoad
  | .loaded x => some x

/-- Change the common part of an entry. -/
def Load.mapEntry (f : LoadedLoad → LoadedLoad) : Load → Load
  | .radical file => .radical file
  | .loading x => .loading { x with toLoadedLoad := f x.toLoadedLoad }
  | .loaded x => .loaded (f x)

abbrev Loads := DenseTable Asset Load

/-- The load a name stands for: a radical stands for its file. -/
def findUnderlyingLoad (loads : Loads) (file : Asset) : Asset × Option Load :=
  match loads.find file with
  | some (.radical f) => (f, loads.find f)
  | x => (file, x)

/-! ## Posted work -/

inductive Work
  /-- `loader_update` on the loader's own strand -/
  | loaderUpdate (message : Message) (sender : Option CallPtr)
  /-- `ReadData::file_load`, posted by the file system -/
  | fileLoad (data : ReadData)
  /-- the work posted by `make_loaded` -/
  | ready (file : Asset) (call : CallPtr)
  /-- the work posted by `load_old` -/
  | addCall (file : Asset) (call : CallPtr) (tag : Token) (callback : RelationCallback)
  /-- the work posted when an owner is dropped -/
  | removeCall (file : Asset) (call : CallPtr) (tag : Token)
  /-- the work that unloads a file -/
  | unload (file : Asset) (call : CallPtr)
  deriving DecidableEq, Repr

/-- The strand of a piece of work; `none` is the loader's own strand. -/
def Work.strand : Work → Option Asset
  | .loaderUpdate _ _ => none
  | .fileLoad data => some data.file
  | .ready file _ | .addCall file _ _ _ | .removeCall file _ _ | .unload file _ => some file

inductive FilesystemRequest
  | read (id : ℕ) (directory : Asset) (filepath : Name) (data : ReadData)
  | removeWatch (id : ℕ)
  deriving DecidableEq, Repr

/-- Ghost history: calls into the client, and what became of each load entry. -/
inductive Event
  | loadcall (call : CallPtr) (requests : List MessageLoadDependency)
  | unloadcall (call : CallPtr)
  | readycall (call : CallPtr) (tag : Token)
  | unreadycall (call : CallPtr) (tag : Token)
  | unloadPosted (call : CallPtr)
  | removed (call : CallPtr)
  deriving DecidableEq, Repr

/-- What `process_message` reads and writes: the tables of the loader, the shared data of
its loads, the work and requests it has posted, and the watches of the file system.
The log is a ghost. -/
structure State where
  scanningDirectory : Option Asset
  filetypes : DenseTable Asset Filetype
  files : Files
  loads : Loads
  tags : DenseTable Token Asset
  callData : List FileCallData
  works : List Work
  requests : List FilesystemRequest
  watches : DenseTable ℕ ReadData
  log : List Event
  deriving DecidableEq

/-- The empty loader. -/
def State.initial : State := ⟨none, ∅, ∅, ∅, ∅, [], [], [], ∅, []⟩

/-- `engine::task::post_work` -/
def State.postWork (s : State) (work : Work) : State := { s with works := s.works ++ [work] }

/-- A request to the file system. -/
def State.request (s : State) (request : FilesystemRequest) : State :=
  { s with requests := s.requests ++ [request] }

def State.setLoads (s : State) (loads : Loads) : State := { s with loads := loads }

def State.record (s : State) (event : Event) : State := { s with log := s.log ++ [event] }

@[simp] theorem loads_postWork (s : State) (work : Work) : (s.postWork work).loads = s.loads := rfl

@[simp] theorem loads_request (s : State) (request : FilesystemRequest) :
    (s.request request).loads = s.loads := rfl

@[simp] theorem loads_setLoads (s : State) (loads : Loads) : (s.setLoads loads).loads = loads := rfl

@[simp] theorem loads_record (s : State) (event : Event) : (s.record event).loads = s.loads := rfl

/-- `make_token` of a directory and the hash of a file path -/
def makeToken (directory filepath : Asset) : ℕ := (directory : ℕ) ^^^ (filepath : ℕ)

end Fimbulwinter.Loader
