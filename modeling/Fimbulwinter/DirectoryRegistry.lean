import Fimbulwinter.DenseTable

/-! # The directories of the file system

Aliases refer to directories. A directory counts the aliases that share it, and is forgotten
with the last of them. -/
namespace Fimbulwinter.DirectoryRegistry

abbrev Text := List UInt8

abbrev slash : UInt8 := 0x2f

abbrev dot : UInt8 := 0x2e

variable {Token : Type*} [DecidableEq Token]

/-- `Directory` and `TemporaryDirectory` -/
inductive Entry
  | directory (dirpath : Text) (shareCount : ℤ)
  | temporary (dirpath : Text)
  deriving DecidableEq, Repr

/-- `get_dirpath` -/
def Entry.dirpath : Entry → Text
  | directory dirpath _ => dirpath
  | temporary dirpath => dirpath

/-- The two kinds of entries are in arrays of their own. -/
def Entry.isTemporary : Entry → Bool
  | directory _ _ => false
  | temporary _ => true

/-- `system_impl` -/
structure Registry (Token : Type*) where
  directories : DenseTable Token Entry
  aliases : DenseTable Token Token

/-- The names between the slashes: none of them is `.` or `..`, and only the last is empty. -/
def validateNames : List Text → Bool
  | [] => true
  | [name] => name != [dot] && name != [dot, dot]
  | name :: names =>
    name != [] && name != [dot] && name != [dot, dot] && validateNames names

/-- `validate_filepath` -/
def validateFilepath (filepath : Text) : Bool := validateNames (filepath.splitOn slash)

/-- The path of a directory that is registered below another one. -/
def directoryPath (dirpath filepath : Text) : Text :=
  let path := dirpath ++ filepath
  if path.getLast? = some slash then path else path ++ [slash]

/-- The messages that change the registry. The path that `mkdtemp` has made, if it has made
one, is part of the message. -/
inductive Message (Token : Type*)
  | registerDirectory (name : Token) (filepath : Text) (parent : Token)
  | registerTemporaryDirectory (name : Token) (created : Option Text)
  | unregisterDirectory (name : Token)

section Step

variable (asset : Text → Token) (r : Registry Token)

/-- `process_register_directory`, with a name that is free, below a directory that exists. -/
def shareDirectory (name : Token) (filepath : Text) : Registry Token :=
  let directory := asset filepath
  match r.directories.find directory with
  | some (.temporary _) => r
  | some (.directory _ _) =>
    match r.aliases.emplace name directory with
    | none => r
    | some aliases =>
      { directories := r.directories.modify directory fun
          | .directory dirpath shareCount => .directory dirpath (shareCount + 1)
          | .temporary dirpath => .temporary dirpath
        aliases := aliases }
  | none =>
    match r.directories.emplace directory (.directory filepath 0),
      r.aliases.emplace name directory with
    | some directories, some aliases => ⟨directories, aliases⟩
    | _, _ => r

/-- `process_register_directory` -/
def registerDirectory (name : Token) (filepath : Text) (parent : Token) : Registry Token :=
  if r.aliases.find name ≠ none then r
  else
    match r.aliases.find parent with
    | none => r
    | some parentDirectory =>
      if validateFilepath filepath then
        match r.directories.find parentDirectory with
        | none => r
        | some entry => shareDirectory asset r name (directoryPath entry.dirpath filepath)
      else r

/-- `process_register_temporary_directory` -/
def registerTemporaryDirectory (name : Token) (created : Option Text) : Registry Token :=
  if r.aliases.find name ≠ none then r
  else
    match created with
    | none => r
    | some path =>
      let filepath := path ++ [slash]
      let directory := asset filepath
      match r.directories.emplace directory (.temporary filepath),
        r.aliases.emplace name directory with
      | some directories, some aliases => ⟨directories, aliases⟩
      | _, _ => r

/-- `process_unregister_directory` -/
def unregisterDirectory (name : Token) : Registry Token :=
  match r.aliases.find name with
  | none => r
  | some directory =>
    match r.directories.find directory with
    | none => r
    | some (.directory dirpath shareCount) =>
      { directories :=
          if shareCount - 1 < 0 then r.directories.erase Entry.isTemporary directory
          else r.directories.modify directory fun _ => .directory dirpath (shareCount - 1)
        aliases := r.aliases.erase (fun _ => ()) name }
    | some (.temporary _) =>
      { directories := r.directories.erase Entry.isTemporary directory
        aliases := r.aliases.erase (fun _ => ()) name }

def step : Message Token → Registry Token
  | .registerDirectory name filepath parent => registerDirectory asset r name filepath parent
  | .registerTemporaryDirectory name created => registerTemporaryDirectory asset r name created
  | .unregisterDirectory name => unregisterDirectory r name

/-- A message that asks for something that is not possible. -/
def Refused : Message Token → Prop
  | .registerDirectory name filepath parent =>
    r.aliases.find name ≠ none ∨ r.aliases.find parent = none ∨
      validateFilepath filepath = false ∨
      ∃ parentDirectory entry dirpath, r.aliases.find parent = some parentDirectory ∧
        r.directories.find parentDirectory = some entry ∧
        r.directories.find (asset (directoryPath entry.dirpath filepath)) =
          some (.temporary dirpath)
  | .registerTemporaryDirectory name created => r.aliases.find name ≠ none ∨ created = none
  | .unregisterDirectory name => r.aliases.find name = none

end Step

/-- `system::construct`: the working directory has an alias. -/
def Registry.initial (asset : Text → Token) (workingDirectory : Token) (root : Text) :
    Registry Token where
  directories := ⟨[(asset root, .directory root 0)], List.nodup_singleton _⟩
  aliases := ⟨[(workingDirectory, asset root)], List.nodup_singleton _⟩

/-- The number of aliases that refer to a directory. -/
def aliasCount (r : Registry Token) (directory : Token) : ℕ :=
  r.aliases.sum fun _ d => if d = directory then 1 else 0

/-- How many aliases an entry has by its own account. -/
def uses : Option Entry → ℤ
  | none => 0
  | some (.directory _ shareCount) => shareCount + 1
  | some (.temporary _) => 1

/-- Entries have aliases, and know how many. -/
structure Consistent (r : Registry Token) : Prop where
  count : ∀ d, (aliasCount r d : ℤ) = uses (r.directories.find d)
  used : ∀ d entry, r.directories.find d = some entry → 0 < uses (some entry)

theorem Consistent.initial (asset : Text → Token) (workingDirectory : Token) (root : Text) :
    Consistent (.initial asset workingDirectory root) where
  count := by
    intro d
    by_cases hd : asset root = d
    · simp [aliasCount, DenseTable.sum, Registry.initial, DenseTable.find, hd, uses]
    · simp [aliasCount, DenseTable.sum, Registry.initial, DenseTable.find, hd, uses]
  used := by
    intro d entry h
    have hentry : entry = .directory root 0 := by
      rw [DenseTable.find_eq_some_iff] at h
      exact (Prod.mk.inj (List.mem_singleton.mp h)).2
    rw [hentry]
    exact Int.zero_lt_one

section Preserved

variable {r : Registry Token}

/-- An entry is changed together with the aliases that refer to it. -/
theorem Consistent.change (h : Consistent r) {r' : Registry Token} (directory : Token)
    (hcount : (aliasCount r' directory : ℤ) = uses (r'.directories.find directory))
    (hused : ∀ entry, r'.directories.find directory = some entry → 0 < uses (some entry))
    (hother : ∀ d, d ≠ directory →
      aliasCount r' d = aliasCount r d ∧ r'.directories.find d = r.directories.find d) :
    Consistent r' where
  count := by
    intro d
    by_cases hd : d = directory
    · rw [hd]
      exact hcount
    · rw [(hother d hd).1, (hother d hd).2]
      exact h.count d
  used := by
    intro d entry
    by_cases hd : d = directory
    · rw [hd]
      exact hused entry
    · rw [(hother d hd).2]
      exact h.used d entry

theorem aliasCount_emplace {aliases : DenseTable Token Token} {name directory : Token}
    (h : r.aliases.emplace name directory = some aliases)
    (directories : DenseTable Token Entry) (d : Token) :
    aliasCount ⟨directories, aliases⟩ d = aliasCount r d + if directory = d then 1 else 0 :=
  DenseTable.sum_emplace h

theorem aliasCount_erase {name directory : Token} (h : r.aliases.find name = some directory)
    (directories : DenseTable Token Entry) (d : Token) :
    aliasCount ⟨directories, r.aliases.erase (fun _ => ()) name⟩ d +
      (if directory = d then 1 else 0) = aliasCount r d :=
  DenseTable.sum_erase _ h

/-- A new entry with its name. -/
theorem Consistent.emplace (h : Consistent r) {directories : DenseTable Token Entry}
    {aliases : DenseTable Token Token} {name directory : Token} {entry : Entry}
    (hdirectories : r.directories.emplace directory entry = some directories)
    (haliases : r.aliases.emplace name directory = some aliases)
    (hentry : uses (some entry) = 1) : Consistent ⟨directories, aliases⟩ := by
  have hcount := h.count directory
  rw [DenseTable.find_of_emplace hdirectories] at hcount
  refine h.change directory ?_ (fun e he => ?_) (fun d hd => ⟨?_, ?_⟩)
  · rw [aliasCount_emplace haliases, DenseTable.find_emplace hdirectories, if_pos rfl, if_pos rfl,
      hentry]
    rw [uses] at hcount
    omega
  · rw [DenseTable.find_emplace hdirectories, if_pos rfl] at he
    cases he
    omega
  · rw [aliasCount_emplace haliases, if_neg hd.symm, Nat.add_zero]
  · rw [DenseTable.find_emplace hdirectories, if_neg hd]

theorem Consistent.shareDirectory (h : Consistent r) (asset : Text → Token) (name : Token)
    (filepath : Text) : Consistent (shareDirectory asset r name filepath) := by
  rw [DirectoryRegistry.shareDirectory]
  split
  · exact h
  · next dirpath shareCount hfind =>
    split
    · exact h
    · next aliases haliases =>
      have hcount := h.count (asset filepath)
      have hused := h.used _ _ hfind
      rw [hfind, uses] at hcount
      rw [uses] at hused
      refine h.change (asset filepath) ?_ (fun e he => ?_) (fun d hd => ⟨?_, ?_⟩)
      · rw [aliasCount_emplace haliases, if_pos rfl, DenseTable.find_modify, if_pos rfl, hfind]
        simp only [Option.map_some, uses]
        omega
      · rw [DenseTable.find_modify, if_pos rfl, hfind] at he
        cases he
        simp only [uses]
        omega
      · rw [aliasCount_emplace haliases, if_neg hd.symm, Nat.add_zero]
      · rw [DenseTable.find_modify, if_neg hd]
  · split
    · next directories aliases hdirectories haliases => exact h.emplace hdirectories haliases rfl
    · exact h

theorem Consistent.unregisterDirectory (h : Consistent r) (name : Token) :
    Consistent (unregisterDirectory r name) := by
  rw [DirectoryRegistry.unregisterDirectory]
  split
  · exact h
  next directory halias =>
  have hother : ∀ (directories : DenseTable Token Entry) (d : Token), d ≠ directory →
      aliasCount ⟨directories, r.aliases.erase (fun _ => ()) name⟩ d = aliasCount r d := by
    intro directories d hd
    have hcount := aliasCount_erase halias directories d
    rwa [if_neg hd.symm, Nat.add_zero] at hcount
  have hcount := h.count directory
  split
  · exact h
  · next dirpath shareCount hfind =>
    have hused := h.used _ _ hfind
    rw [hfind, uses] at hcount
    rw [uses] at hused
    split_ifs with hlast
    · have herase := aliasCount_erase halias (r.directories.erase Entry.isTemporary directory) directory
      rw [if_pos rfl] at herase
      refine h.change directory ?_ (fun e he => ?_) (fun d hd => ⟨hother _ d hd, ?_⟩)
      · rw [DenseTable.find_erase, if_pos rfl, uses]
        omega
      · rw [DenseTable.find_erase, if_pos rfl] at he
        cases he
      · rw [DenseTable.find_erase, if_neg hd]
    · have herase := aliasCount_erase halias
        (r.directories.modify directory fun _ => .directory dirpath (shareCount - 1)) directory
      rw [if_pos rfl] at herase
      refine h.change directory ?_ (fun e he => ?_) (fun d hd => ⟨hother _ d hd, ?_⟩)
      · rw [DenseTable.find_modify, if_pos rfl, hfind]
        simp only [Option.map_some, uses]
        omega
      · rw [DenseTable.find_modify, if_pos rfl, hfind] at he
        cases he
        simp only [uses]
        omega
      · rw [DenseTable.find_modify, if_neg hd]
  · next dirpath hfind =>
    rw [hfind, uses] at hcount
    have herase := aliasCount_erase halias (r.directories.erase Entry.isTemporary directory) directory
    rw [if_pos rfl] at herase
    refine h.change directory ?_ (fun e he => ?_) (fun d hd => ⟨hother _ d hd, ?_⟩)
    · rw [DenseTable.find_erase, if_pos rfl, uses]
      omega
    · rw [DenseTable.find_erase, if_pos rfl] at he
      cases he
    · rw [DenseTable.find_erase, if_neg hd]

theorem Consistent.step (h : Consistent r) (asset : Text → Token) (message : Message Token) :
    Consistent (step asset r message) := by
  cases message with
  | registerDirectory name filepath parent =>
    rw [DirectoryRegistry.step, registerDirectory]
    split
    · exact h
    split
    · exact h
    split
    · split
      · exact h
      · exact h.shareDirectory asset name _
    · exact h
  | registerTemporaryDirectory name created =>
    simp only [DirectoryRegistry.step, registerTemporaryDirectory.eq_def]
    split
    · exact h
    split
    · exact h
    · split
      · next directories aliases hdirectories haliases => exact h.emplace hdirectories haliases rfl
      · exact h
  | unregisterDirectory name => exact h.unregisterDirectory name

theorem Consistent.foldl (h : Consistent r) (asset : Text → Token)
    (messages : List (Message Token)) :
    Consistent (messages.foldl (DirectoryRegistry.step asset) r) := by
  induction messages generalizing r with
  | nil => exact h
  | cons message messages ih => exact ih (h.step asset message)

/-- An entry is there as long as an alias refers to it. -/
theorem Consistent.find_eq_none_iff (h : Consistent r) (d : Token) :
    r.directories.find d = none ↔ aliasCount r d = 0 := by
  have hcount := h.count d
  cases hfind : r.directories.find d with
  | none =>
    rw [hfind, uses] at hcount
    exact ⟨fun _ => by omega, fun _ => rfl⟩
  | some entry =>
    have hused := h.used d entry hfind
    rw [hfind] at hcount
    exact ⟨fun hnone => (nomatch hnone), fun hzero => by omega⟩

end Preserved

theorem step_of_refused (asset : Text → Token) {r : Registry Token} {message : Message Token}
    (h : Refused asset r message) : step asset r message = r := by
  cases message with
  | registerDirectory name filepath parent =>
    rw [step, registerDirectory]
    rcases h with hname | hparent | hpath |
      ⟨parentDirectory, entry, dirpath, hparent, hentry, htemporary⟩
    · rw [if_pos hname]
    · simp only [hparent, ite_self]
    · cases r.aliases.find parent with
      | none => exact ite_self r
      | some parentDirectory => simp [hpath]
    · simp only [hparent, hentry, shareDirectory, htemporary, ite_self]
  | registerTemporaryDirectory name created =>
    simp only [step, registerTemporaryDirectory.eq_def]
    rcases h with hname | rfl
    · rw [if_pos hname]
    · split_ifs <;> rfl
  | unregisterDirectory name =>
    rw [step, unregisterDirectory, (show r.aliases.find name = none from h)]

/-- Every alias refers to an entry, whose count of aliases is right. -/
structure Counted (r : Registry Token) : Prop where
  alias_exists : ∀ name d, r.aliases.find name = some d → ∃ entry, r.directories.find d = some entry
  shared : ∀ d dirpath shareCount, r.directories.find d = some (.directory dirpath shareCount) →
    shareCount + 1 = aliasCount r d
  temporary : ∀ d dirpath, r.directories.find d = some (.temporary dirpath) → aliasCount r d = 1

theorem Consistent.counted {r : Registry Token} (h : Consistent r) : Counted r where
  alias_exists := by
    intro name d hname
    refine Option.ne_none_iff_exists'.mp fun hnone => ?_
    have hle := DenseTable.le_sum (f := fun _ d' => if d' = d then 1 else 0) hname
    rw [if_pos rfl] at hle
    have hzero := (h.find_eq_none_iff d).mp hnone
    rw [aliasCount] at hzero
    omega
  shared := by
    intro d dirpath shareCount hfind
    have hcount := h.count d
    rw [hfind, uses] at hcount
    exact hcount.symm
  temporary := by
    intro d dirpath hfind
    have hcount := h.count d
    rw [hfind, uses] at hcount
    exact_mod_cast hcount

end Fimbulwinter.DirectoryRegistry
