import Fimbulwinter.LoaderFiles
import Fimbulwinter.LoaderLoads

/-! # Messages of the file loader

`process_message` of `engine/file/loader.cpp`. -/
namespace Fimbulwinter.Loader

variable (hash : Name → Asset)

/-- A file can be loaded when it is unique. -/
def uniqueFile : Option File → Except Fault Bool
  | none => .ok false
  | some (.ambiguous _) => .ok false
  | some .directory => .ok false
  | some (.radical _) => .error .unreachable
  | some (.unique _) => .ok true

def processLoadIndependent (s : State) (x : MessageLoadIndependent) : Except Fault State :=
  match findUnderlyingLoad s.loads x.name with
  | (file, some _) =>
    match s.tags.emplace x.tag file with
    | none => .ok s
    | some tags =>
      (loadOld { s with tags := tags } x.tag global file x.filetype x.callback).map Prod.fst
  | (_, none) =>
    match findUnderlyingFile s.files x.name with
    | (file, underlyingFile) =>
      match uniqueFile underlyingFile with
      | .error e => .error e
      | .ok false => .ok s
      | .ok true =>
        match findUnderlyingLoad s.loads file with
        | (file', some _) =>
          match s.tags.emplace x.tag file' with
          | none => .ok s
          | some tags =>
            (loadOld { s with tags := tags } x.tag global file' x.filetype x.callback).map Prod.fst
        | (_, none) =>
          match s.tags.emplace x.tag file with
          | none => .ok s
          | some tags =>
            .ok (loadNew hash { s with tags := tags } x.tag global file x.name x.filetype
              x.callback).1

def processLoadDependency (s : State) (x : MessageLoadDependency) : Except Fault State :=
  match findUnderlyingLoad s.loads x.owner with
  | (_, none) => .ok s
  | (owner, some _) =>
    match findUnderlyingLoad s.loads x.name with
    | (file, some load) =>
      match (if load.kind = .loadedLoad then addDependencyLoaded s owner file
        else addDependencyUnloaded s owner file) with
      | .error e => .error e
      | .ok (s, false) => .ok s
      | .ok (s, true) => (loadOld s owner (some owner) file x.filetype x.callback).map Prod.fst
    | (_, none) =>
      match findUnderlyingFile s.files x.name with
      | (file, underlyingFile) =>
        match uniqueFile underlyingFile with
        | .error e => .error e
        | .ok false => .ok s
        | .ok true =>
          match addDependencyUnloaded s owner file with
          | .error e => .error e
          | .ok (s, false) => .ok s
          | .ok (s, true) =>
            match findUnderlyingLoad s.loads file with
            | (file', some _) =>
              (loadOld s owner (some owner) file' x.filetype x.callback).map Prod.fst
            | (_, none) =>
              .ok (loadNew hash s owner (some owner) file x.name x.filetype x.callback).1

def processLoadInit (s : State) (file : Asset) : State :=
  match s.loads.find file with
  | some (.loaded loadedLoad) => makeLoading s file loadedLoad
  | _ => s

def processLoadDone (s : State) (file : Asset) : Except Fault State :=
  match s.loads.find file with
  | some (.loading loadingLoad) =>
    let x := { loadingLoad with remainingCount := loadingLoad.remainingCount % 2 ^ 31 }
    let s := s.setLoads (s.loads.modify file fun _ => .loading x)
    if x.remainingCount = 0 then finishLoading hash s file x else .ok s
  | _ => .ok s

def processRegisterLibrary (s : State) (directory : Asset) : State :=
  { s with
    scanningDirectory := some directory
    files := (s.files.emplace directory .directory).getD s.files }

def processUnloadIndependent (s : State) (tag : Token) : Except Fault State :=
  match s.tags.find tag with
  | none => .ok s
  | some file => removeFile hash s tag file

def processUnregisterLibrary (s : State) (directory : Asset) : State :=
  match s.files.find directory with
  | some .directory => { s with files := s.files.erase File.kind directory }
  | _ => s

/-- `process_message` -/
def processMessage (s : State) : Message → Except Fault State
  | .fileScan x => processFileScan hash s x
  | .loadIndependent x => processLoadIndependent hash s x
  | .loadDependency x => processLoadDependency hash s x
  | .loadDone file => processLoadDone hash s file
  | .loadInit file => .ok (processLoadInit s file)
  | .registerFiletype filetype loadcall unloadcall =>
    .ok { s with
      filetypes := (s.filetypes.emplace filetype ⟨loadcall, unloadcall⟩).getD s.filetypes }
  | .registerLibrary directory => .ok (processRegisterLibrary s directory)
  | .unloadIndependent tag => processUnloadIndependent hash s tag
  | .unregisterFiletype filetype =>
    .ok { s with filetypes := s.filetypes.erase (fun _ => ()) filetype }
  | .unregisterLibrary directory => .ok (processUnregisterLibrary s directory)

end Fimbulwinter.Loader
