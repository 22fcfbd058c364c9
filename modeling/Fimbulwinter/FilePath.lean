import Fimbulwinter.DirectoryRegistry
import Fimbulwinter.TextScan

/-! # Paths of files and directories

What `validate_filepath` accepts, and where the directories are that are registered below other
ones. -/
namespace Fimbulwinter.DirectoryRegistry

/-- `check_filepath`, from a position on: the position of a component that is wrong, or the end. -/
def checkFilepath (str : Text) : ℕ → ℕ → Except Scan.Failure ℕ
  | 0, _ => .error .outOfFuel
  | fuel + 1, first =>
    let stop := Scan.find str first slash
    let next := if stop = str.length then .ok str.length else checkFilepath str fuel (stop + 1)
    if stop = first then .ok stop
    else
      match Scan.read str first with
      | .error e => .error e
      | .ok c =>
        if c = dot then
          if first + 1 = stop then .ok first
          else
            match Scan.read str (first + 1) with
            | .error e => .error e
            | .ok d =>
              if d = dot then if first + 2 = stop then .ok first else next
              else next
        else next

/-- `validate_filepath`, as it reads its string. -/
def validates (str : Text) : Except Scan.Failure Bool :=
  match checkFilepath str (str.length + 1) 0 with
  | .error e => .error e
  | .ok last => .ok (last = str.length)

variable {name : Text} {fuel : ℕ}

/-- A component is wrong when it is `.` or `..`, and else the next one is checked. -/
theorem checkFilepath_component (front tail : Text) (fuel : ℕ) (hname : name ≠ [])
    (hstop : Scan.find (front ++ (name ++ tail)) front.length slash = front.length + name.length) :
    checkFilepath (front ++ (name ++ tail)) (fuel + 1) front.length =
      if name = [dot] ∨ name = [dot, dot] then .ok front.length
      else if tail = [] then .ok (front ++ (name ++ tail)).length
      else checkFilepath (front ++ (name ++ tail)) fuel (front.length + name.length + 1) := by
  have hend : front.length + name.length = (front ++ (name ++ tail)).length ↔ tail = [] := by
    rw [List.length_append, List.length_append, ← List.length_eq_zero_iff]
    omega
  obtain ⟨c, cs, rfl⟩ := List.exists_cons_of_ne_nil hname
  have hread : Scan.read (front ++ (c :: cs ++ tail)) front.length = .ok c :=
    Scan.read_append _ _ _
  have hlength : (c :: cs).length = cs.length + 1 := rfl
  rw [checkFilepath]
  simp only [hstop, hend, hread]
  rw [if_neg (by omega)]
  by_cases hdot : c = dot
  · subst hdot
    rw [if_pos rfl]
    cases cs with
    | nil =>
      have hone : front.length + 1 = front.length + [dot].length := rfl
      have hwrong : [dot] = [dot] ∨ [dot] = [dot, dot] := .inl rfl
      rw [if_pos hone, if_pos hwrong]
    | cons d ds =>
      have hread' : Scan.read (front ++ (dot :: d :: ds ++ tail)) (front.length + 1) = .ok d := by
        have h := Scan.read_append (front ++ [dot]) d (ds ++ tail)
        rwa [List.append_assoc, List.length_append] at h
      have hone : ¬ front.length + 1 = front.length + (dot :: d :: ds).length := by
        rw [List.length_cons, List.length_cons]
        omega
      rw [if_neg hone, hread']
      by_cases hdots : d = dot ∧ ds = []
      · obtain ⟨rfl, rfl⟩ := hdots
        have htwo : front.length + 2 = front.length + [dot, dot].length := rfl
        have hwrong : [dot, dot] = [dot] ∨ [dot, dot] = [dot, dot] := .inr rfl
        rw [if_pos hwrong]
        dsimp only
        rw [if_pos rfl, if_pos htwo]
      · have hnot : ¬ (dot :: d :: ds = [dot] ∨ dot :: d :: ds = [dot, dot]) := by
          rintro (h | h)
          · cases h
          · cases h
            exact hdots ⟨rfl, rfl⟩
        rw [if_neg hnot]
        dsimp only
        by_cases hd : d = dot
        · have hlonger : ¬ front.length + 2 = front.length + (dot :: d :: ds).length := by
            intro htwo
            rw [List.length_cons, List.length_cons] at htwo
            exact hdots ⟨hd, List.length_eq_zero_iff.mp (by omega)⟩
          rw [if_pos hd, if_neg hlonger]
        · rw [if_neg hd]
  · have hnot : ¬ (c :: cs = [dot] ∨ c :: cs = [dot, dot]) := by
      rintro (h | h)
      · exact hdot (List.cons.inj h).1
      · exact hdot (List.cons.inj h).1
    rw [if_neg hdot, if_neg hnot]

theorem validateNames_cons {names : List Text} (hnames : names ≠ []) (name : Text) :
    validateNames (name :: names) = true ↔
      name ≠ [] ∧ ¬ (name = [dot] ∨ name = [dot, dot]) ∧ validateNames names = true := by
  cases names with
  | nil => exact absurd rfl hnames
  | cons name' names => simp [validateNames, and_assoc]

/-- The check ends, inside the string, and finds the end exactly if all names are valid. -/
theorem checkFilepath_iff (front rest : Text) (hfuel : rest.length < fuel) :
    ∃ last, checkFilepath (front ++ rest) fuel front.length = .ok last ∧
      (last = (front ++ rest).length ↔ validateNames (rest.splitOn slash) = true) := by
  induction fuel generalizing front rest with
  | zero => omega
  | succ fuel ih =>
    obtain hnone | ⟨name, rest, hname, rfl⟩ := Scan.splits slash rest
    · have hstop := Scan.find_append_end front hnone
      rw [List.splitOn_eq_singleton hnone]
      by_cases hempty : rest = []
      · subst hempty
        refine ⟨_, ?_, iff_of_true rfl rfl⟩
        rw [checkFilepath, hstop, List.append_nil]
        exact if_pos rfl
      · have hstep := checkFilepath_component front [] fuel hempty
          (by rw [List.append_nil, hstop, List.length_append])
        rw [List.append_nil, if_pos rfl] at hstep
        rw [hstep]
        split_ifs with hdots
        · refine ⟨_, rfl, iff_of_false ?_ ?_⟩
          · rw [List.length_append]
            have := List.length_pos_iff.mpr hempty
            omega
          · simp only [validateNames, Bool.and_eq_true, bne_iff_ne]
            exact fun h => hdots.elim h.1 h.2
        · refine ⟨_, rfl, iff_of_true rfl ?_⟩
          simp only [validateNames, Bool.and_eq_true, bne_iff_ne]
          exact not_or.mp hdots
    · have hstop := Scan.find_append front rest hname
      have hlength : (front ++ (name ++ slash :: rest)).length =
          front.length + (name.length + (rest.length + 1)) := by simp
      rw [List.splitOn_append_cons_self_of_not_mem hname, validateNames_cons (List.splitOn_ne_nil _ _)]
      by_cases hempty : name = []
      · subst hempty
        refine ⟨front.length, ?_, iff_of_false ?_ fun h => h.1 rfl⟩
        · rw [checkFilepath, hstop]
          exact if_pos rfl
        · omega
      · rw [checkFilepath_component _ _ _ hempty hstop, if_neg (List.cons_ne_nil slash rest)]
        split_ifs with hdots
        · exact ⟨_, rfl, iff_of_false (by omega) fun h => h.2.1 hdots⟩
        · have hassoc : front ++ (name ++ slash :: rest) = (front ++ name ++ [slash]) ++ rest := by simp
          have hposition : front.length + name.length + 1 = (front ++ name ++ [slash]).length := by
            rw [List.length_append, List.length_append, List.length_singleton]
          rw [List.length_append, List.length_cons] at hfuel
          rw [hassoc, hposition]
          obtain ⟨last, hlast, hiff⟩ := ih (front ++ name ++ [slash]) rest (by omega)
          exact ⟨last, hlast, hiff.trans ⟨fun h => ⟨hempty, hdots, h⟩, fun h => h.2.2⟩⟩

/-- The scan computes what the registry relies on. -/
theorem validates_eq (str : Text) : validates str = .ok (validateFilepath str) := by
  obtain ⟨last, hlast, hiff⟩ := checkFilepath_iff [] str (Nat.lt_succ_self str.length)
  rw [List.nil_append] at hlast hiff
  have hrun : checkFilepath str (str.length + 1) 0 = .ok last := hlast
  rw [validates, hrun, validateFilepath]
  exact congrArg Except.ok (Bool.eq_iff_iff.mpr (decide_eq_true_iff.trans hiff))

theorem validateNames_iff (names : List Text) : validateNames names = true ↔
    (∀ name ∈ names, name ≠ [dot] ∧ name ≠ [dot, dot]) ∧ ∀ name ∈ names.dropLast, name ≠ [] := by
  induction names with
  | nil => simp [validateNames]
  | cons name names ih =>
    by_cases hnames : names = []
    · subst hnames
      simp [validateNames]
    · rw [validateNames_cons hnames, ih, List.dropLast_cons_of_ne_nil hnames]
      simp only [List.mem_cons, forall_eq_or_imp, not_or]
      tauto

/-! ## Lexical resolution -/

/-- A name leads to a directory below, `..` back up, and `.` and the empty name nowhere. -/
def descend (directories : List Text) (name : Text) : List Text :=
  if name = [] ∨ name = [dot] then directories
  else if name = [dot, dot] then directories.dropLast
  else directories ++ [name]

/-- The directories that a path leads through in the end. -/
def resolve (path : Text) : List Text := (path.splitOn slash).foldl descend []

/-- A path extends another one, and leads to the same place or below. -/
def LiesInside (path parent : Text) : Prop := parent <+: path ∧ resolve parent <+: resolve path

theorem prefix_foldl_descend {names : List Text} (h : ∀ name ∈ names, name ≠ [dot, dot])
    (directories : List Text) : directories <+: names.foldl descend directories := by
  induction names generalizing directories with
  | nil => exact List.prefix_rfl
  | cons name names ih =>
    have hstep : directories <+: descend directories name := by
      rw [descend]
      split_ifs with hstays hup
      · exact List.prefix_rfl
      · exact absurd hup (h name List.mem_cons_self)
      · exact List.prefix_append _ _
    exact hstep.trans (ih (fun name' hname' => h name' (List.mem_cons_of_mem _ hname')) _)

/-- Paths of directories end with a slash. -/
def Closed (dirpath : Text) : Prop := dirpath = [] ∨ dirpath.getLast? = some slash

theorem closed_append_slash (path : Text) : Closed (path ++ [slash]) :=
  .inr List.getLast?_concat

theorem closed_directoryPath (dirpath filepath : Text) :
    Closed (directoryPath dirpath filepath) := by
  rw [directoryPath]
  split_ifs with hclosed
  · exact .inr hclosed
  · exact closed_append_slash _

/-- Names below a directory are resolved from where it is. -/
theorem resolve_append {dirpath : Text} (h : Closed dirpath) (filepath : Text) :
    resolve (dirpath ++ filepath) = (filepath.splitOn slash).foldl descend (resolve dirpath) := by
  obtain rfl | hlast := h
  · rfl
  · obtain ⟨front, rfl⟩ := List.getLast?_eq_some_iff.mp hlast
    rw [resolve, resolve, List.append_assoc, List.singleton_append, List.splitOn_append_cons_self,
      List.splitOn_append_cons_self, List.foldl_append, List.foldl_append, List.splitOn_nil]
    rfl

theorem resolve_append_slash (path : Text) : resolve (path ++ [slash]) = resolve path := by
  rw [resolve, List.splitOn_append_cons_self, List.foldl_append, List.splitOn_nil]
  rfl

theorem directoryPath_liesInside {dirpath filepath : Text} (h : Closed dirpath)
    (hvalid : validateFilepath filepath = true) : LiesInside (directoryPath dirpath filepath) dirpath := by
  have hnames := ((validateNames_iff _).mp hvalid).1
  have hresolve : resolve dirpath <+: resolve (dirpath ++ filepath) := by
    rw [resolve_append h]
    exact prefix_foldl_descend (fun name hname => (hnames name hname).2) _
  rw [directoryPath]
  split_ifs
  · exact ⟨List.prefix_append _ _, hresolve⟩
  · refine ⟨?_, ?_⟩
    · rw [List.append_assoc]
      exact List.prefix_append _ _
    · rwa [resolve_append_slash]

/-! ## Registered directories -/

variable {Token : Type*} [DecidableEq Token]

/-- Directories are known by the assets of their paths, and their paths end with a slash. -/
def Rooted (asset : Text → Token) (r : Registry Token) : Prop :=
  ∀ d entry, r.directories.find d = some entry → d = asset entry.dirpath ∧ Closed entry.dirpath

variable {asset : Text → Token} {r : Registry Token}

theorem Rooted.initial (asset : Text → Token) (workingDirectory : Token) {root : Text}
    (hroot : Closed root) : Rooted asset (.initial asset workingDirectory root) := by
  intro d entry h
  rw [DenseTable.find_eq_some_iff] at h
  obtain ⟨rfl, rfl⟩ := Prod.mk.inj (List.mem_singleton.mp h)
  exact ⟨rfl, hroot⟩

theorem Rooted.emplace (h : Rooted asset r) {directories : DenseTable Token Entry} {entry : Entry}
    {directory : Token} (hdirectories : r.directories.emplace directory entry = some directories)
    (hasset : directory = asset entry.dirpath) (hclosed : Closed entry.dirpath)
    (aliases : DenseTable Token Token) :
    Rooted asset ⟨directories, aliases⟩ := by
  intro d e he
  rw [DenseTable.find_emplace hdirectories] at he
  split_ifs at he with hd
  · cases he
    exact ⟨hd.trans hasset, hclosed⟩
  · exact h d e he

/-- Counts do not matter. -/
theorem Rooted.modify (h : Rooted asset r) (directory : Token) {f : Entry → Entry}
    (hf : ∀ entry, r.directories.find directory = some entry → (f entry).dirpath = entry.dirpath)
    (aliases : DenseTable Token Token) : Rooted asset ⟨r.directories.modify directory f, aliases⟩ := by
  intro d e he
  rw [DenseTable.find_modify] at he
  split_ifs at he with hd
  · obtain ⟨entry, hentry, rfl⟩ := Option.map_eq_some_iff.mp he
    rw [hf entry hentry, hd]
    exact h directory entry hentry
  · exact h d e he

theorem Rooted.erase (h : Rooted asset r) (directory : Token) (aliases : DenseTable Token Token) :
    Rooted asset ⟨r.directories.erase Entry.isTemporary directory, aliases⟩ := by
  intro d e he
  rw [DenseTable.find_erase] at he
  split_ifs at he with hd
  exact h d e he

theorem Rooted.shareDirectory (h : Rooted asset r) (name : Token) {filepath : Text}
    (hclosed : Closed filepath) : Rooted asset (shareDirectory asset r name filepath) := by
  rw [DirectoryRegistry.shareDirectory]
  split
  · exact h
  · split
    · exact h
    · refine h.modify _ (fun entry _ => ?_) _
      cases entry <;> rfl
  · split
    · next hdirectories _ => exact h.emplace hdirectories rfl hclosed _
    · exact h

theorem Rooted.step (h : Rooted asset r) (message : Message Token) :
    Rooted asset (step asset r message) := by
  cases message with
  | registerDirectory name filepath parent =>
    rw [DirectoryRegistry.step, registerDirectory]
    split
    · exact h
    split
    · exact h
    split
    · split
      · exact h
      · exact h.shareDirectory name (closed_directoryPath _ _)
    · exact h
  | registerTemporaryDirectory name created =>
    simp only [DirectoryRegistry.step, registerTemporaryDirectory.eq_def]
    split
    · exact h
    split
    · exact h
    · split
      · next hdirectories _ => exact h.emplace hdirectories rfl (closed_append_slash _) _
      · exact h
  | unregisterDirectory name =>
    rw [DirectoryRegistry.step, unregisterDirectory]
    split
    · exact h
    split
    · exact h
    · next hfind =>
      split_ifs
      · exact h.erase _ _
      · refine h.modify _ (fun entry hentry => ?_) _
        rw [hfind] at hentry
        cases hentry
        rfl
    · exact h.erase _ _

theorem Rooted.foldl (h : Rooted asset r) (messages : List (Message Token)) :
    Rooted asset (messages.foldl (DirectoryRegistry.step asset) r) := by
  induction messages generalizing r with
  | nil => exact h
  | cons message messages ih => exact ih (h.step message)

/-- A directory that is shared or new has the path that it is registered with, if no other path
has the same asset. -/
theorem shareDirectory_registered {name : Token} {filepath : Text} (hr : Rooted asset r)
    (hfree : r.aliases.find name = none)
    (hname : (shareDirectory asset r name filepath).aliases.find name ≠ none)
    (hunique : ∀ d entry, r.directories.find d = some entry → asset entry.dirpath = asset filepath →
      entry.dirpath = filepath) :
    ∃ entry, (shareDirectory asset r name filepath).aliases.find name = some (asset filepath) ∧
      (shareDirectory asset r name filepath).directories.find (asset filepath) = some entry ∧
      entry.dirpath = filepath := by
  rw [DirectoryRegistry.shareDirectory] at hname ⊢
  split at hname
  · exact absurd hfree hname
  · next dirpath shareCount hfind =>
    split at hname
    · exact absurd hfree hname
    next aliases haliases =>
      have hpath : dirpath = filepath := hunique _ _ hfind (hr _ _ hfind).1.symm
      refine ⟨.directory dirpath (shareCount + 1), ?_, ?_, hpath⟩
      · rw [DenseTable.find_emplace haliases, if_pos rfl]
      · rw [DenseTable.find_modify, if_pos rfl, hfind]
        rfl
  · next hfind =>
    split at hname
    · next directories aliases hdirectories haliases =>
      refine ⟨.directory filepath 0, ?_, ?_, rfl⟩
      · rw [DenseTable.find_emplace haliases, if_pos rfl]
      · rw [DenseTable.find_emplace hdirectories, if_pos rfl]
    · exact absurd hfree hname

/-- Whatever has been registered before, a directory that is registered below another one lies
inside it, unless the path of a directory has the same asset. -/
theorem registered_liesInside (hr : Rooted asset r) {name parent : Token} {filepath : Text}
    (hfree : r.aliases.find name = none)
    (hname : (registerDirectory asset r name filepath parent).aliases.find name ≠ none) :
    ∃ parentDirectory parentEntry, r.aliases.find parent = some parentDirectory ∧
      r.directories.find parentDirectory = some parentEntry ∧
      ((∀ d entry, r.directories.find d = some entry →
          asset entry.dirpath = asset (directoryPath parentEntry.dirpath filepath) →
          entry.dirpath = directoryPath parentEntry.dirpath filepath) →
        ∃ d entry, (registerDirectory asset r name filepath parent).aliases.find name = some d ∧
          (registerDirectory asset r name filepath parent).directories.find d = some entry ∧
          LiesInside entry.dirpath parentEntry.dirpath) := by
  rw [registerDirectory, if_neg (not_not.mpr hfree)] at hname ⊢
  cases hparent : r.aliases.find parent with
  | none =>
    rw [hparent] at hname
    exact absurd hfree hname
  | some parentDirectory =>
    rw [hparent] at hname
    dsimp only at hname ⊢
    split_ifs at hname ⊢ with hvalid
    · cases hentry : r.directories.find parentDirectory with
      | none =>
        rw [hentry] at hname
        exact absurd hfree hname
      | some parentEntry =>
        rw [hentry] at hname
        refine ⟨parentDirectory, parentEntry, rfl, hentry, fun hunique => ?_⟩
        obtain ⟨entry, halias, hdirectory, hpath⟩ :=
          shareDirectory_registered hr hfree hname hunique
        refine ⟨_, entry, halias, hdirectory, ?_⟩
        rw [hpath]
        exact directoryPath_liesInside (hr _ _ hentry).2 hvalid
    · exact absurd hfree hname

/-- A path is accepted, without reading outside of it, exactly if no name is `.` or `..` and none
but the last is empty; and a directory registered below another one lies inside it. -/
theorem filepath_validated (asset : Text → Token) (workingDirectory : Token) {root : Text}
    (hroot : Closed root) (messages : List (Message Token)) :
    (∀ str : Text, ∃ accepted, validates str = .ok accepted ∧ (accepted = true ↔
      (∀ name ∈ str.splitOn slash, name ≠ [dot] ∧ name ≠ [dot, dot]) ∧
        ∀ name ∈ (str.splitOn slash).dropLast, name ≠ [])) ∧
      let r := messages.foldl (step asset) (.initial asset workingDirectory root)
      ∀ name filepath parent, r.aliases.find name = none →
        (registerDirectory asset r name filepath parent).aliases.find name ≠ none →
        ∃ parentDirectory parentEntry, r.aliases.find parent = some parentDirectory ∧
          r.directories.find parentDirectory = some parentEntry ∧
          ((∀ d entry, r.directories.find d = some entry →
              asset entry.dirpath = asset (directoryPath parentEntry.dirpath filepath) →
              entry.dirpath = directoryPath parentEntry.dirpath filepath) →
            ∃ d entry, (registerDirectory asset r name filepath parent).aliases.find name = some d ∧
              (registerDirectory asset r name filepath parent).directories.find d = some entry ∧
              LiesInside entry.dirpath parentEntry.dirpath) := by
  refine ⟨fun str => ⟨_, validates_eq str, validateNames_iff _⟩, ?_⟩
  intro r name filepath parent hfree hname
  exact registered_liesInside ((Rooted.initial asset workingDirectory hroot).foldl messages) hfree hname

theorem filepath_validated_below : ∃ d entry,
    (registerDirectory id (.initial id [] [slash]) [0x61] [0x62] []).aliases.find [0x61] = some d ∧
      (registerDirectory id (.initial id [] [slash]) [0x61] [0x62] []).directories.find d = some entry ∧
      LiesInside entry.dirpath [slash] := by
  obtain ⟨-, hregistered⟩ := filepath_validated (id : Text → Text) [] (.inr rfl : Closed [slash]) []
  obtain ⟨d, e, hd, he, hinside⟩ := hregistered [0x61] [0x62] [] (by decide) (by decide)
  cases hd
  cases he
  exact hinside fun _ _ _ heq => heq

/-! ## Two paths with one asset -/

/-- `crc32_table_gen` -/
def crcTableGen (rem : UInt32) : ℕ → UInt32
  | 0 => rem
  | n + 1 => crcTableGen ((if rem &&& 1 = 1 then (0xedb88320 : UInt32) else 0) ^^^ (rem >>> 1)) n

/-- `crc32_accumulate` -/
def crcAccumulate (crc : UInt32) (c : UInt8) : UInt32 :=
  crcTableGen ((c.toUInt32 ^^^ crc) &&& 0xff) 8 ^^^ (crc >>> 8)

/-- `engine::Asset` of a text: `crc32` -/
def crcAsset (str : Text) : UInt32 := ~~~ str.foldl crcAccumulate (~~~ 0)

/-- `00spU/`, a directory of the root. -/
def shortPath : Text := [0x30, 0x30, 0x73, 0x70, 0x55, slash]

/-- `CmIAP/`, a directory of `/p/`. -/
def nestedPath : Text := [0x43, 0x6d, 0x49, 0x41, 0x50, slash]

/-- The names of the three directories are numbers. -/
def collidingRegistry : Registry UInt32 :=
  [.registerDirectory 1 shortPath 0, .registerDirectory 2 [0x70, slash] 0,
    .registerDirectory 3 nestedPath 2].foldl (step crcAsset) (.initial crcAsset 0 [slash])

/-- A directory is registered below `/p/` and is not there. -/
theorem registered_outside : ∃ d d',
    collidingRegistry.aliases.find 2 = some d ∧
      collidingRegistry.directories.find d = some (.directory [slash, 0x70, slash] 0) ∧
      collidingRegistry.aliases.find 3 = some d' ∧
      collidingRegistry.directories.find d' = some (.directory (slash :: shortPath) 1) ∧
      ¬ LiesInside (slash :: shortPath) [slash, 0x70, slash] := by
  refine ⟨crcAsset [slash, 0x70, slash], crcAsset (slash :: shortPath), by decide +kernel,
    by decide +kernel, by decide +kernel, by decide +kernel, fun h => ?_⟩
  exact absurd h.1 (by decide)

end Fimbulwinter.DirectoryRegistry
