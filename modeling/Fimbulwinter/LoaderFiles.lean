import Fimbulwinter.LoaderState

/-! # The file table of the file loader

`MessageFileScan`: the files that are gone from a directory are taken out of the
table one by one, then the existing ones are put in. -/
namespace Fimbulwinter.Loader
open UnstableErase

variable (hash : Name → Asset)

/-- The part of a file path in front of its last dot. -/
def radicalOf (filepath : Name) : Option Name :=
  match filepath.reverse.dropWhile (· ≠ '.') with
  | [] => none
  | _ :: radical => some radical.reverse

/-- Replace an entry by one of another type: `files.erase` and `files.emplace`. -/
def replaceFile (files : Files) (erased emplaced : Asset) (f : File) : Files :=
  let files := files.erase File.kind erased
  (files.emplace emplaced f).getD files

/-- What a removed file changes at its own name. -/
def removeMeta (directory : Asset) (files : Files) (filepath : Name) : Except Fault Files :=
  let file := hash filepath
  match files.find file with
  | none => .ok files
  | some (.ambiguous y) =>
    if (directory, filepath) ∈ y.metas then
      match swapEraseValue y.metas (directory, filepath) with
      | [m] => .ok (replaceFile files file file (.unique ⟨m.1, m.2, y.radicals⟩))
      | metas => .ok (files.modify file fun _ => .ambiguous ⟨metas, y.radicals⟩)
    else .ok files
  | some .directory => .error .unreachable
  | some (.radical _) => .error .unreachable
  | some (.unique y) =>
    match y.radicals with
    | [] => .ok (files.erase File.kind file)
    | [r] => .ok (replaceFile files file file (.radical ⟨r.1, r.2⟩))
    | radicals => .ok (replaceFile files file file (.ambiguous ⟨[], radicals⟩))

/-- What a removed file changes at its radical. An ambiguous radical that keeps
one file is put back under the name of the removed file, as in the source. -/
def removeRadical (directory : Asset) (files : Files) (file : Asset) (radical : Name) :
    Except Fault Files :=
  if radical = [] then .error .nullKey
  else
    match files.find (hash radical) with
    | none => .ok files
    | some (.ambiguous y) =>
      let radicals := swapEraseValue y.radicals (directory, file)
      match radicals, y.metas with
      | [r], [] => .ok (replaceFile files (hash radical) file (.radical ⟨r.1, r.2⟩))
      | _, _ => .ok (files.modify (hash radical) fun _ => .ambiguous ⟨y.metas, radicals⟩)
    | some .directory => .error .unreachable
    | some (.radical _) => .ok (files.erase File.kind (hash radical))
    | some (.unique y) =>
      let radicals := swapEraseValue y.radicals (directory, file)
      .ok (files.modify (hash radical) fun _ => .unique ⟨y.directory, y.filepath, radicals⟩)

def removeFilepath (directory : Asset) (files : Files) (filepath : Name) : Except Fault Files :=
  match removeMeta hash directory files filepath with
  | .error e => .error e
  | .ok files =>
    match radicalOf filepath with
    | none => .ok files
    | some radical => removeRadical hash directory files (hash filepath) radical

/-- What a file without an entry at its own name changes at its radical. -/
def addRadical (directory : Asset) (files : Files) (file : Asset) (radical : Name) :
    Except Fault Files :=
  if radical = [] then .error .nullKey
  else
    match files.find (hash radical) with
    | none =>
      .ok ((files.emplace (hash radical) (.radical ⟨directory, file⟩)).getD files)
    | some (.ambiguous y) =>
      .ok (files.modify (hash radical) fun _ =>
        .ambiguous ⟨y.metas, y.radicals ++ [(directory, file)]⟩)
    | some .directory => .error .unreachable
    | some (.radical y) =>
      .ok (replaceFile files (hash radical) (hash radical)
        (.ambiguous ⟨[], [(y.directory, y.file), (directory, file)]⟩))
    | some (.unique y) =>
      .ok (files.modify (hash radical) fun _ =>
        .unique ⟨y.directory, y.filepath, y.radicals ++ [(directory, file)]⟩)

def addFilepath (directory : Asset) (files : Files) (filepath : Name) : Except Fault Files :=
  let file := hash filepath
  match files.find file with
  | some (.ambiguous y) =>
    if (directory, filepath) ∈ y.metas then .ok files
    else if y.metas = [] then
      .ok (replaceFile files file file (.unique ⟨directory, filepath, y.radicals⟩))
    else
      .ok (files.modify file fun _ =>
        .ambiguous ⟨y.metas ++ [(directory, filepath)], y.radicals⟩)
  | some .directory => .error .unreachable
  | some (.radical y) =>
    .ok (replaceFile files file file
      (.unique ⟨directory, filepath, [(y.directory, y.file)]⟩))
  | some (.unique y) =>
    if y.directory = directory ∧ y.filepath = filepath then .ok files
    else
      .ok (replaceFile files file file
        (.ambiguous ⟨[(y.directory, y.filepath), (directory, filepath)], y.radicals⟩))
  | none =>
    let files := (files.emplace file (.unique ⟨directory, filepath, []⟩)).getD files
    match radicalOf filepath with
    | none => .ok files
    | some radical => addRadical hash directory files file radical

/-- The loop over a list of names; a file without a name ends it, and the message. -/
def forEachFile (f : Files → Name → Except Fault Files) :
    Files → List Name → Except Fault (Files × Bool)
  | files, [] => .ok (files, true)
  | files, [] :: _ => .ok (files, false)
  | files, (c :: name) :: names =>
    match f files (c :: name) with
    | .error e => .error e
    | .ok files => forEachFile f files names

/-- The names of a list separated by `;`. -/
def splitFiles (names : Name) : List Name :=
  if names = [] then [] else names.splitOn ';'

def scanFiles (files : Files) (x : MessageFileScan) : Except Fault Files :=
  match forEachFile (removeFilepath hash x.directory) files (splitFiles x.removedFiles) with
  | .error e => .error e
  | .ok (files, false) => .ok files
  | .ok (files, true) =>
    match forEachFile (addFilepath hash x.directory) files (splitFiles x.existingFiles) with
    | .error e => .error e
    | .ok (files, _) => .ok files

def processFileScan (s : State) (x : MessageFileScan) : Except Fault State :=
  match scanFiles hash s.files x with
  | .error e => .error e
  | .ok files => .ok { s with scanningDirectory := none, files := files }

/-- A number whose digits are the letters of a name. -/
def spelling : Name → ℕ
  | [] => 0
  | c :: name => spelling name * 2097152 + (c.toNat + 1)

/-- A hash that tells all names apart. -/
def spell (name : Name) : Asset := ⟨spelling name + 1, Nat.succ_pos _⟩

private theorem toNat_bound (c : Char) : c.toNat + 1 < 2097152 := by
  have h : c.toNat < 0xd800 ∨ 0xdfff < c.toNat ∧ c.toNat < 0x110000 := c.valid
  omega

theorem spelling_injective : Function.Injective spelling := by
  intro a b h
  induction a generalizing b with
  | nil =>
    cases b with
    | nil => rfl
    | cons d b =>
      simp only [spelling] at h
      omega
  | cons c a ih =>
    cases b with
    | nil =>
      simp only [spelling] at h
      omega
    | cons d b =>
      have hc := toNat_bound c
      have hd := toNat_bound d
      simp only [spelling] at h
      have hhead : c = d := Char.toNat_inj.mp (by omega)
      rw [hhead, ih (show spelling a = spelling b by omega)]

theorem spell_injective : Function.Injective spell := fun _ _ h =>
  spelling_injective (Nat.succ_injective (congrArg PNat.val h))

end Fimbulwinter.Loader
