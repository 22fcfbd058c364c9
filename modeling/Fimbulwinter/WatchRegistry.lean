import Fimbulwinter.TransitionRuns
import Fimbulwinter.UnstableErase
import Mathlib.Data.List.Infix
import Mathlib.Data.List.Nodup

/-! # Watches of files and directories

The tables behind `watch_inotify`: the watches that have been asked for, the directories with
what is attached to them, and the aliases that count it. A path is a list of names; directories
are created while this goes on, and the kernel reports it. -/
namespace Fimbulwinter.WatchRegistry

variable {Id Name : Type*}

abbrev Path (Name : Type*) := List Name

/-- What has been asked for, with the pointer to its data. -/
inductive Watch (Name : Type*)
  | read (dirpath : Path Name) (ptr : ℕ)
  | scan (dirpath : Path Name) (ptr : ℕ)
  | scanRecursive (dirpath : Path Name) (ptr : ℕ)

def Watch.ptr : Watch Name → ℕ
  | read _ ptr => ptr
  | scan _ ptr => ptr
  | scanRecursive _ ptr => ptr

structure Directory (Name : Type*) where
  filepath : Path Name
  reads : List ℕ
  missingReads : List ℕ
  scans : List ℕ
  recursiveScans : List ℕ
  deriving DecidableEq

structure Alias where
  directory : ℕ
  useCount : ℤ

structure State (Id Name : Type*) where
  watches : Id → Option (Watch Name)
  aliases : Path Name → Option Alias
  directories : ℕ → Option (Directory Name)
  /-- The watches of the kernel. -/
  kernel : Path Name → Option ℕ
  /-- The directories that exist. -/
  existing : List (Path Name)
  /-- Directories that have been created in watched directories, oldest first. -/
  events : List (ℕ × Name)
  nextWatch : ℕ
  nextPtr : ℕ

def State.initial : State Id Name :=
  ⟨fun _ => none, fun _ => none, fun _ => none, fun _ => none, [[]], [], 0, 0⟩

/-- Requests, and what the kernel does. While a recursive scan is added, new directories can
be both listed and announced; they are part of the action. -/
inductive Action (Id Name : Type*)
  | addRead (id : Id) (dirpath : Path Name) (reportMissing : Bool)
  | addScan (id : Id) (dirpath : Path Name)
  | addScanRecursive (id : Id) (dirpath : Path Name) (created : List (Path Name × Name))
  | remove (id : Id)
  | mkdir (parent : Path Name) (name : Name)
  | notify (created : ℕ → List (Path Name × Name))

section Step

variable [DecidableEq Id] [DecidableEq Name] (s : State Id Name)

/-- `start_watch`: there is no watch of what does not exist or is watched already. -/
def startWatch (path : Path Name) : State Id Name × Option ℕ :=
  if path ∈ s.existing ∧ s.kernel path = none then
    ({ s with
        kernel := Function.update s.kernel path (some s.nextWatch)
        nextWatch := s.nextWatch + 1 }, some s.nextWatch)
  else (s, none)

def stopWatch (fd : ℕ) : State Id Name :=
  { s with kernel := fun path => if s.kernel path = some fd then none else s.kernel path }

/-- `get_directory`, as the descriptor of the directory -/
def getDirectory (path : Path Name) : Option (ℕ × Directory Name) :=
  match s.aliases path with
  | none => none
  | some a => (s.directories a.directory).map fun d => (a.directory, d)

def getOrCreateDirectory (path : Path Name) : State Id Name × Option (ℕ × Directory Name) :=
  match s.aliases path with
  | some a =>
    match s.directories a.directory with
    | none => (s, none)
    | some d =>
      ({ s with aliases :=
          Function.update s.aliases path (some { a with useCount := a.useCount + 1 }) },
        some (a.directory, d))
  | none =>
    match startWatch s path with
    | (s, none) => (s, none)
    | (s, some fd) =>
      ({ s with
          directories := Function.update s.directories fd (some ⟨path, [], [], [], []⟩)
          aliases := Function.update s.aliases path (some ⟨fd, 1⟩) },
        some (fd, ⟨path, [], [], [], []⟩))

def setDirectory (fd : ℕ) (d : Directory Name) : State Id Name :=
  { s with directories := Function.update s.directories fd (some d) }

def decrementAlias (path : Path Name) : State Id Name :=
  match s.aliases path with
  | none => s
  | some a =>
    if a.useCount - 1 ≤ 0 then
      stopWatch { s with
        aliases := Function.update s.aliases path none
        directories := Function.update s.directories a.directory none } a.directory
    else
      { s with aliases :=
          Function.update s.aliases path (some { a with useCount := a.useCount - 1 }) }

/-- Something is attached to a directory, which is watched from then on. -/
def attach (path : Path Name) (change : Directory Name → Directory Name) : State Id Name :=
  match getOrCreateDirectory s path with
  | (s, none) => s
  | (s, some (fd, d)) => setDirectory s fd (change d)

/-- Something is detached from a directory if it is there. -/
def detach (path : Path Name) (attached : Directory Name → Bool)
    (change : Directory Name → Directory Name) : State Id Name :=
  match getDirectory s path with
  | none => s
  | some (fd, d) => if attached d then decrementAlias (setDirectory s fd (change d)) path else s

/-- The directories from a path on, as they are found one below the other. -/
def below (existing : List (Path Name)) (path : Path Name) : List (Path Name) :=
  existing.filter (path <+: ·)

/-- Directories are created in others, and the list says which of them are new. -/
def create (existing : List (Path Name)) :
    List (Path Name × Name) → List (Path Name) × List (Path Name × Name)
  | [] => (existing, [])
  | (parent, name) :: rest =>
    if parent ∈ existing ∧ parent ++ [name] ∉ existing then
      let (existing, new) := create (existing ++ [parent ++ [name]]) rest
      (existing, (parent, name) :: new)
    else create existing rest

/-- The kernel reports new directories if their parents are watched. -/
def announce (new : List (Path Name × Name)) : State Id Name :=
  { s with events := s.events ++
      new.filterMap fun (parent, name) => (s.kernel parent).map fun fd => (fd, name) }

def mkdir (parent : Path Name) (name : Name) : State Id Name :=
  let (existing, new) := create s.existing [(parent, name)]
  announce { s with existing := existing } new

def addScanTo (ptr : ℕ) (d : Directory Name) : Directory Name :=
  { d with scans := d.scans ++ [ptr] }

def addScansTo (ptr : ℕ) (d : Directory Name) : Directory Name :=
  { d with scans := d.scans ++ [ptr], recursiveScans := d.recursiveScans ++ [ptr] }

def addReadTo (ptr : ℕ) (reportMissing : Bool) (d : Directory Name) : Directory Name :=
  { d with
    reads := d.reads ++ [ptr]
    missingReads := if reportMissing then d.missingReads ++ [ptr] else d.missingReads }

/-- `add_recursive_scan`: directories that are created meanwhile are listed and reported. -/
def addRecursiveScan (path : Path Name) (ptr : ℕ) (created : List (Path Name × Name)) :
    State Id Name :=
  let (existing, new) := create s.existing created
  announce ((below existing path).foldl (fun s p => attach s p (addScansTo ptr))
    { s with existing := existing }) new

/-- `process_remove` -/
def removeWatch (watch : Watch Name) : State Id Name :=
  match watch with
  | .read dirpath ptr =>
    detach s dirpath (fun d => ptr ∈ d.reads ∨ ptr ∈ d.missingReads) fun d =>
      { d with
        reads := UnstableErase.swapEraseValue d.reads ptr
        missingReads := UnstableErase.swapEraseValue d.missingReads ptr }
  | .scan dirpath ptr =>
    detach s dirpath (fun d => ptr ∈ d.scans) fun d =>
      { d with scans := UnstableErase.swapEraseValue d.scans ptr }
  | .scanRecursive dirpath ptr =>
    (below s.existing dirpath).foldl (fun s p =>
      detach s p (fun d => ptr ∈ d.recursiveScans ∨ ptr ∈ d.scans) fun d =>
        { d with
          scans := UnstableErase.swapEraseValue d.scans ptr
          recursiveScans := UnstableErase.swapEraseValue d.recursiveScans ptr }) s

/-- A watch is registered with a new pointer, unless its name is taken. -/
def register (id : Id) (watch : ℕ → Watch Name) (continuation : State Id Name → ℕ → State Id Name) :
    State Id Name :=
  match s.watches id with
  | some _ => s
  | none =>
    continuation { s with
      watches := Function.update s.watches id (some (watch s.nextPtr))
      nextPtr := s.nextPtr + 1 } s.nextPtr

def step : Action Id Name → State Id Name
  | .addRead id dirpath reportMissing => register s id (.read dirpath) fun s ptr =>
    attach s dirpath (addReadTo ptr reportMissing)
  | .addScan id dirpath => register s id (.scan dirpath) fun s ptr =>
    attach s dirpath (addScanTo ptr)
  | .addScanRecursive id dirpath created => register s id (.scanRecursive dirpath) fun s ptr =>
    addRecursiveScan s dirpath ptr created
  | .remove id =>
    match s.watches id with
    | none => s
    | some watch =>
      { removeWatch s watch with watches := Function.update s.watches id none }
  | .mkdir parent name => mkdir s parent name
  | .notify created =>
    match s.events with
    | [] => s
    | (fd, name) :: events =>
      match s.directories fd with
      | none => { s with events := events }
      | some d => d.recursiveScans.foldl
        (fun s ptr => addRecursiveScan s (d.filepath ++ [name]) ptr (created ptr))
        { s with events := events }

end Step

end Fimbulwinter.WatchRegistry
