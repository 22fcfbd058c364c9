import Fimbulwinter.DenseTable
import Fimbulwinter.HeapVector
import Fimbulwinter.TransitionRuns

/-! # Delivery of changes

A batch of events of `watch_inotify`. Changes are collected for pointers to directories, which
are kept in a dense array that grows and closes its holes. -/
namespace Fimbulwinter.ChangeDelivery

variable {Path Name : Type*}

/-- A file has been created or deleted: its name, with `+` or `-` in front of it. -/
inductive Change (Name : Type*)
  | added (name : Name)
  | removed (name : Name)
  deriving DecidableEq, Repr

structure Directory (Path : Type*) where
  filepath : Path
  scans : List ℕ
  recursiveScans : List ℕ
  deriving DecidableEq

structure Alias where
  directory : ℕ
  useCount : ℤ
  deriving DecidableEq

/-- The collections of directories and aliases. The array of the directories is in a block of its
own, and in another one each time it has grown. -/
structure Tables (Path : Type*) where
  directories : DenseTable ℕ (Directory Path)
  capacity : ℕ
  block : ℕ
  aliases : Path → Option Alias
  nextWatch : ℕ

def Tables.initial : Tables Path := ⟨∅, 0, 0, fun _ => none, 0⟩

/-- `ScanChangeWork` -/
structure Work (Path Name : Type*) where
  scan : ℕ
  dirpath : Path
  changes : List (Change Name)
  deriving DecidableEq

/-- A block and an index in it. -/
abbrev Pointer := ℕ × ℕ

structure State (Path Name : Type*) where
  tables : Tables Path
  changed : List (Pointer × List (Change Name))
  posted : List (Work Path Name)

/-- What the kernel reports. For a directory that has been created, the directories that are
found from there on by each scan, and whether the kernel would watch them, are part of it. -/
inductive Event (Path Name : Type*)
  | create (fd : ℕ) (name : Name)
  | createDirectory (fd : ℕ) (found : ℕ → List (Path × Bool))
  | delete (fd : ℕ) (name : Name)
  | deleteSelf (fd : ℕ)

/-- The parts of what is done about an event. -/
inductive Step (Path Name : Type*)
  | change (fd : ℕ) (change : Change Name)
  | attach (path : Path) (scan : ℕ) (watched : Bool)
  | deleteSelf (fd : ℕ)

section Tables

variable [DecidableEq Path] (t : Tables Path)

def addScan (scan : ℕ) (d : Directory Path) : Directory Path :=
  { d with scans := d.scans ++ [scan], recursiveScans := d.recursiveScans ++ [scan] }

/-- The body of the loop in `add_recursive_scan`, with `get_or_create_directory`. -/
def Tables.attach (path : Path) (scan : ℕ) (watched : Bool) : Tables Path :=
  match t.aliases path with
  | some a =>
    match t.directories.find a.directory with
    | none => t
    | some _ =>
      { t with
        directories := t.directories.modify a.directory (addScan scan)
        aliases := Function.update t.aliases path (some { a with useCount := a.useCount + 1 }) }
  | none =>
    if watched then
      match t.directories.emplace t.nextWatch (addScan scan ⟨path, [], []⟩) with
      | none => t
      | some directories =>
        let fits := t.directories.rows.length < t.capacity
        { directories := directories
          capacity := if fits then t.capacity else clp2 (t.directories.rows.length + 1)
          block := if fits then t.block else t.block + 1
          aliases := Function.update t.aliases path (some ⟨t.nextWatch, 1⟩)
          nextWatch := t.nextWatch + 1 }
    else t

/-- `decrement_alias` -/
def Tables.decrement (path : Path) : Tables Path :=
  match t.aliases path with
  | none => t
  | some a =>
    if a.useCount - 1 ≤ 0 then
      { t with
        directories := t.directories.erase (fun _ => ()) a.directory
        aliases := Function.update t.aliases path none }
    else
      { t with
        aliases := Function.update t.aliases path (some { a with useCount := a.useCount - 1 }) }

/-- Where a directory is. -/
def Tables.address (fd : ℕ) : Pointer :=
  (t.block, t.directories.position (fun _ => ()) () fd)

def Tables.deref (p : Pointer) : Option (Directory Path) :=
  if p.1 = t.block then ((t.directories.array (fun _ => ()) ())[p.2]?).map Prod.snd else none

end Tables

/-- `get_or_create_change`, and a change that is added to it -/
def addChange (p : Pointer) (c : Change Name) :
    List (Pointer × List (Change Name)) → List (Pointer × List (Change Name))
  | [] => [(p, [c])]
  | (q, changes) :: rest =>
    if q = p then (q, changes ++ [c]) :: rest else (q, changes) :: addChange p c rest

def eraseChange (changed : List (Pointer × List (Change Name))) (p : Pointer) :
    List (Pointer × List (Change Name)) :=
  UnstableErase.swapErase changed (changed.findIdx fun c => c.1 = p)

/-- The works for the changes of a directory. -/
def works (d : Directory Path) (changes : List (Change Name)) : List (Work Path Name) :=
  d.scans.map fun scan => ⟨scan, d.filepath, changes⟩

section Step

variable [DecidableEq Path]

def step (s : State Path Name) : Step Path Name → State Path Name
  | .change fd c =>
    match s.tables.directories.find fd with
    | none => s
    | some _ => { s with changed := addChange (s.tables.address fd) c s.changed }
  | .attach path scan watched => { s with tables := s.tables.attach path scan watched }
  | .deleteSelf fd =>
    match s.tables.directories.find fd with
    | none => s
    | some d =>
      match s.changed.find? fun c => c.1 = s.tables.address fd with
      | none => { s with tables := s.tables.decrement d.filepath }
      | some c =>
        { tables := s.tables.decrement d.filepath
          changed := eraseChange s.changed (s.tables.address fd)
          posted := s.posted ++ works d c.2 }

/-- What is done about an event in the order in which it is done. -/
def steps (t : Tables Path) : Event Path Name → List (Step Path Name)
  | .create fd name => [.change fd (.added name)]
  | .createDirectory fd found =>
    match t.directories.find fd with
    | none => []
    | some d => d.recursiveScans.flatMap fun scan =>
      (found scan).map fun (path, watched) => .attach path scan watched
  | .delete fd name => [.change fd (.removed name)]
  | .deleteSelf fd => [.deleteSelf fd]

/-- The steps of a batch. -/
def expand (s : State Path Name) : List (Event Path Name) → List (Step Path Name)
  | [] => []
  | event :: events =>
    steps s.tables event ++ expand ((steps s.tables event).foldl step s) events

/-- The works at the end of a batch; there are none if a pointer is dangling. -/
def flush (t : Tables Path) : List (Pointer × List (Change Name)) →
    Except Fault (List (Work Path Name))
  | [] => .ok []
  | (p, changes) :: rest =>
    match t.deref p with
    | none => .error .danglingIterator
    | some d =>
      match flush t rest with
      | .error e => .error e
      | .ok posted => .ok (works d changes ++ posted)

/-- `process_notifications`, for one batch -/
def processNotifications (t : Tables Path) (events : List (Event Path Name)) :
    Except Fault (List (Work Path Name)) :=
  let s := (expand ⟨t, [], []⟩ events).foldl step ⟨t, [], []⟩
  match flush s.tables s.changed with
  | .error e => .error e
  | .ok posted => .ok (s.posted ++ posted)

end Step

/-! ## Delivery by name -/

/-- The same with the changes of every directory kept for the directory itself. -/
structure Delivery (Path Name : Type*) where
  tables : Tables Path
  pending : ℕ → List (Change Name)
  posted : List (Work Path Name)

section Deliver

variable [DecidableEq Path]

/-- Works for the changes of a directory, if there are any. -/
def delivered (d : Directory Path) (changes : List (Change Name)) : List (Work Path Name) :=
  if changes.isEmpty then [] else works d changes

def deliver (s : Delivery Path Name) : Step Path Name → Delivery Path Name
  | .change fd c =>
    match s.tables.directories.find fd with
    | none => s
    | some _ => { s with pending := Function.update s.pending fd (s.pending fd ++ [c]) }
  | .attach path scan watched => { s with tables := s.tables.attach path scan watched }
  | .deleteSelf fd =>
    match s.tables.directories.find fd with
    | none => s
    | some d =>
      { tables := s.tables.decrement d.filepath
        pending := Function.update s.pending fd []
        posted := s.posted ++ delivered d (s.pending fd) }

def expandDelivery (s : Delivery Path Name) : List (Event Path Name) → List (Step Path Name)
  | [] => []
  | event :: events =>
    steps s.tables event ++ expandDelivery ((steps s.tables event).foldl deliver s) events

/-- The works that a batch should post: those of the directories that have deleted themselves,
and those of the others in the end. -/
def expected (t : Tables Path) (events : List (Event Path Name)) : List (Work Path Name) :=
  let s := (expandDelivery ⟨t, fun _ => [], []⟩ events).foldl deliver ⟨t, fun _ => [], []⟩
  s.posted ++ s.tables.directories.rows.flatMap fun r => delivered r.2 (s.pending r.1)

end Deliver

/-- No directory with changes is moved: when the array grows there are no changes yet, and a
directory that goes is the last one, or the last one has no changes. -/
def Stable [DecidableEq Path] (s : State Path Name) : Step Path Name → Prop
  | .change _ _ => True
  | .attach path _ watched => s.tables.aliases path = none → watched = true →
    s.changed ≠ [] → s.tables.directories.rows.length < s.tables.capacity
  | .deleteSelf fd => ∀ d ∈ s.tables.directories.find fd, ∀ a ∈ s.tables.aliases d.filepath,
    a.useCount ≤ 1 → s.tables.directories.position (fun _ => ()) () fd + 1 =
      s.tables.directories.rows.length ∨
        ∀ c ∈ s.changed, c.1 ≠ (s.tables.block, s.tables.directories.rows.length - 1)

instance [DecidableEq Path] (s : State Path Name) : ∀ st, Decidable (Stable s st)
  | .change _ _ => .isTrue trivial
  | .attach _ _ _ => inferInstanceAs (Decidable (_ → _))
  | .deleteSelf _ => inferInstanceAs (Decidable (∀ _ ∈ _, _))

/-- The alias of a path is about the directory with that path. -/
def Consistent (t : Tables Path) : Prop :=
  ∀ path fd, (t.aliases path).map Alias.directory = some fd ↔
    (t.directories.find fd).map Directory.filepath = some path

end Fimbulwinter.ChangeDelivery
