import Fimbulwinter.TextScan
import Mathlib.Data.List.Nodup
import Mathlib.Data.Set.Insert

/-! # Lists of files

The files of a directory are kept in one text, with semicolons between their names. Texts are
taken to have room to grow. -/
namespace Fimbulwinter.FileListing

open Scan (Failure find view)

abbrev Text := List UInt8

abbrev semicolon : UInt8 := 0x3b

abbrev plus : UInt8 := 0x2b

abbrev minus : UInt8 := 0x2d

/-- Whether what is from `first` to `last` is a file's name, after the name of its directory.
The latter is looked for up to `limit`. -/
def isFile (files subdir filename : Text) (first last limit : ℕ) : Except Failure Bool :=
  if subdir.isPrefixOf ((files.take limit).drop first) then
    match view files (first + subdir.length) last with
    | .error e => .error e
    | .ok name => .ok (name = filename)
  else .ok false

/-- The loop of `add_file`: whether the file has been added already. -/
def isAdded (files subdir filename : Text) : ℕ → ℕ → Except Failure Bool
  | 0, _ => .error .outOfFuel
  | fuel + 1, first =>
    let split := find files first semicolon
    match isFile files subdir filename first split files.length with
    | .error e => .error e
    | .ok true => .ok true
    | .ok false =>
      if split = files.length then .ok false else isAdded files subdir filename fuel (split + 1)

/-- `add_file`: the files, and whether the file has been added. -/
def addFile (files subdir filename : Text) : Except Failure (Text × Bool) :=
  if files = [] then .ok (files ++ subdir ++ filename, true)
  else
    match isAdded files subdir filename (files.length + 1) 0 with
    | .error e => .error e
    | .ok true => .ok (files, false)
    | .ok false => .ok (files ++ [semicolon] ++ subdir ++ filename, true)

/-- `remove_file`, from a position on: the files, and whether the file has been removed. -/
def removeFileFrom (files subdir filename : Text) : ℕ → ℕ → ℕ → Except Failure (Text × Bool)
  | 0, _, _ => .error .outOfFuel
  | fuel + 1, prevSplit, first =>
    let split := find files first semicolon
    match isFile files subdir filename first split split with
    | .error e => .error e
    | .ok found =>
      if split = files.length then
        if found then .ok (files.take prevSplit, true) else .ok (files, false)
      else if found then .ok (files.take first ++ files.drop (split + 1), true)
      else removeFileFrom files subdir filename fuel split (split + 1)

/-- `remove_file` -/
def removeFile (files subdir filename : Text) : Except Failure (Text × Bool) :=
  removeFileFrom files subdir filename (files.length + 1) 0 0

/-- The loop of `remove_duplicates`. -/
def removeDuplicatesFrom (duplicates : Text) : ℕ → Text → ℕ → Except Failure Text
  | 0, _, _ => .error .outOfFuel
  | fuel + 1, files, first =>
    let split := find duplicates first semicolon
    if split = first then .ok files
    else
      match view duplicates first split with
      | .error e => .error e
      | .ok name =>
        match removeFile files [] name with
        | .error e => .error e
        | .ok (files, _) =>
          if split = duplicates.length then .ok files
          else removeDuplicatesFrom duplicates fuel files (split + 1)

/-- `remove_duplicates` -/
def removeDuplicates (files duplicates : Text) : Except Failure Text :=
  if duplicates = [] then .ok files
  else removeDuplicatesFrom duplicates (duplicates.length + 1) files 0

/-- One round of the loop over the changes of a `ScanChangeWork`. -/
def change (files subdir file : Text) : Except Failure Text :=
  match Scan.read file 0 with
  | .error e => .error e
  | .ok c =>
    match view file 1 file.length with
    | .error e => .error e
    | .ok filename =>
      if c = plus then (addFile files subdir filename).map Prod.fst
      else if c = minus then (removeFile files subdir filename).map Prod.fst
      else .ok files

def changeAll (subdir : Text) : Text → List Text → Except Failure Text
  | files, [] => .ok files
  | files, file :: rest =>
    match change files subdir file with
    | .error e => .error e
    | .ok files => changeAll subdir files rest

/-- `post_work` for a `ScanChangeWork`: the existing files, which are kept, and the removed ones. -/
def scanChange (dirpath files filepath : Text) (changes : List Text) :
    Except Failure (Text × Text) :=
  match view filepath dirpath.length filepath.length with
  | .error e => .error e
  | .ok subdir =>
    match changeAll subdir files changes with
    | .error e => .error e
    | .ok existing => (removeDuplicates files existing).map fun removed => (existing, removed)

/-! ## Lists of names -/

/-- Names with semicolons between them. -/
abbrev join (names : List Text) : Text := [semicolon].intercalate names

/-- Names that can be told apart in a text. -/
def Proper (names : List Text) : Prop := names.Nodup ∧ ∀ name ∈ names, name ≠ [] ∧ semicolon ∉ name

variable {front name subdir filename rest : Text} {names : List Text} {fuel : ℕ}

theorem length_join_cons_cons (name next : Text) (names : List Text) :
    (join (name :: next :: names)).length = name.length + 1 + (join (next :: names)).length := by
  rw [join, List.intercalate_cons_cons]
  simp only [List.length_append, List.length_singleton]

theorem join_cons_cons (name next : Text) (names : List Text) :
    join (name :: next :: names) = name ++ semicolon :: join (next :: names) := by
  rw [join, List.intercalate_cons_cons, List.append_assoc, List.singleton_append]

theorem join_cons_ne_nil (hname : name ≠ []) (names : List Text) : join (name :: names) ≠ [] := by
  cases names with
  | nil => rwa [join, List.intercalate_singleton]
  | cons next names =>
    rw [join_cons_cons]
    exact List.append_ne_nil_of_left_ne_nil hname _

/-- A name behind the others. -/
theorem join_concat (name added : Text) (names : List Text) :
    join (name :: names ++ [added]) = join (name :: names) ++ semicolon :: added := by
  induction names generalizing name with
  | nil =>
    rw [List.singleton_append, join_cons_cons, join, join, List.intercalate_singleton,
      List.intercalate_singleton]
  | cons next names ih =>
    have h := ih next
    rw [List.cons_append] at h
    rw [List.cons_append, List.cons_append, join_cons_cons, h, join_cons_cons, List.append_assoc,
      List.cons_append]

/-- A text without a separator at the beginning of two texts that go on with one. -/
theorem prefix_append_cons_iff (h : semicolon ∉ subdir) :
    subdir <+: name ++ semicolon :: rest ↔ subdir <+: name := by
  constructor
  · intro hstarts
    rcases List.prefix_or_prefix_of_prefix hstarts (List.prefix_append name (semicolon :: rest)) with
      hname | hname
    · exact hname
    · obtain ⟨more, rfl⟩ := hname
      rw [List.prefix_append_right_inj] at hstarts
      cases more with
      | nil => simp
      | cons c more =>
        obtain ⟨rfl, -⟩ := List.cons_prefix_cons.mp hstarts
        exact absurd (List.mem_append_right _ List.mem_cons_self) h
  · exact fun hstarts => hstarts.trans (List.prefix_append _ _)

/-- A name is compared as a whole. -/
theorem isFile_eq (front name filename : Text) {limit : ℕ} {tail : Text}
    (hsubdir : semicolon ∉ subdir)
    (htail : tail = [] ∨ ∃ more, tail = semicolon :: more)
    (hlimit : limit = front.length + name.length ∨ limit = (front ++ (name ++ tail)).length) :
    isFile (front ++ (name ++ tail)) subdir filename front.length (front.length + name.length) limit =
      .ok (name = subdir ++ filename) := by
  have hstarts : subdir <+: ((front ++ (name ++ tail)).take limit).drop front.length ↔
      subdir <+: name := by
    rcases hlimit with rfl | rfl
    · rw [← List.append_assoc, ← List.length_append, List.take_left, List.drop_left]
    · rw [List.take_length, List.drop_left]
      rcases htail with rfl | ⟨more, rfl⟩
      · rw [List.append_nil]
      · exact prefix_append_cons_iff hsubdir
  rw [isFile]
  by_cases h : subdir <+: name
  · rw [if_pos (List.isPrefixOf_iff_prefix.mpr (hstarts.mpr h))]
    obtain ⟨base, rfl⟩ := h
    have hview := Scan.view_append (front ++ subdir) base tail
    rw [List.length_append, List.append_assoc, ← List.append_assoc subdir, Nat.add_assoc,
      ← @List.length_append _ subdir] at hview
    rw [hview]
    simp only [List.append_cancel_left_eq]
  · have hne : name ≠ subdir ++ filename := by
      rintro rfl
      exact h (List.prefix_append _ _)
    rw [if_neg fun hin => h (hstarts.mp (List.isPrefixOf_iff_prefix.mp hin)), decide_eq_false hne]

theorem join_cons_of_ne_nil (name : Text) (h : names ≠ []) :
    join (name :: names) = name ++ semicolon :: join names := by
  obtain ⟨next, names, rfl⟩ := List.exists_cons_of_ne_nil h
  exact join_cons_cons name next names

/-- Behind a name and its separator. -/
theorem append_join_cons_cons (front name next : Text) (names : List Text) :
    front ++ join (name :: next :: names) =
        (front ++ name ++ [semicolon]) ++ join (next :: names) ∧
      front.length + name.length + 1 = (front ++ name ++ [semicolon]).length := by
  rw [join_cons_cons]
  simp [Nat.add_assoc]

theorem split_ne_length (front name next : Text) (names : List Text) :
    front.length + name.length ≠ (front ++ join (name :: next :: names)).length := by
  rw [List.length_append, length_join_cons_cons]
  omega

theorem find_join (front next : Text) (names : List Text) (hname : semicolon ∉ name) :
    find (front ++ join (name :: next :: names)) front.length semicolon =
      front.length + name.length := by
  rw [join_cons_cons]
  exact Scan.find_append _ _ hname

theorem isFile_join (front name next : Text) (names : List Text) (filename : Text) {limit : ℕ}
    (hsubdir : semicolon ∉ subdir)
    (hlimit : limit = front.length + name.length ∨
      limit = (front ++ join (name :: next :: names)).length) :
    isFile (front ++ join (name :: next :: names)) subdir filename front.length
        (front.length + name.length) limit = .ok (name = subdir ++ filename) := by
  rw [join_cons_cons] at hlimit ⊢
  exact isFile_eq _ _ _ hsubdir (.inr ⟨_, rfl⟩) hlimit

/-! ## Adding -/

theorem isAdded_join (front filename : Text) (hsubdir : semicolon ∉ subdir)
    (hnames : ∀ n ∈ name :: names, semicolon ∉ n)
    (hfuel : (join (name :: names)).length < fuel) :
    isAdded (front ++ join (name :: names)) subdir filename fuel front.length =
      .ok (subdir ++ filename ∈ name :: names) := by
  induction names generalizing front name fuel with
  | nil =>
    obtain _ | fuel := fuel
    · omega
    have hname := hnames name List.mem_cons_self
    have hfile := isFile_eq front name filename
      hsubdir (.inl rfl) (.inr rfl)
    rw [List.append_nil, ← List.length_append] at hfile
    rw [join, List.intercalate_singleton, isAdded, Scan.find_append_end _ hname, hfile]
    by_cases heq : name = subdir ++ filename
    · simp [heq]
    · simp [heq, Ne.symm heq]
  | cons next names ih =>
    obtain _ | fuel := fuel
    · omega
    have hname := hnames name List.mem_cons_self
    obtain ⟨hassoc, hposition⟩ := append_join_cons_cons front name next names
    rw [length_join_cons_cons] at hfuel
    rw [isAdded, find_join front next names hname,
      isFile_join front name next names filename hsubdir (.inr rfl)]
    by_cases heq : name = subdir ++ filename
    · simp [heq]
    · simp only [heq, decide_false]
      rw [if_neg (split_ne_length front name next names), hposition, hassoc,
        ih _ (fun n hn => hnames n (List.mem_cons_of_mem _ hn)) (by omega)]
      simp [Ne.symm heq]

theorem addFile_join (hsubdir : semicolon ∉ subdir) (hnames : ∀ n ∈ names, n ≠ [] ∧ semicolon ∉ n) :
    addFile (join names) subdir filename =
      .ok (if subdir ++ filename ∈ names then (join names, false)
        else (join (names ++ [subdir ++ filename]), true)) := by
  cases names with
  | nil => simp [addFile, join]
  | cons name names =>
    have hadded := isAdded_join [] filename hsubdir
      (fun n hn => (hnames n hn).2) (Nat.lt_succ_self (join (name :: names)).length)
    rw [List.nil_append, List.length_nil] at hadded
    rw [addFile, if_neg (join_cons_ne_nil (hnames name List.mem_cons_self).1 names), hadded]
    by_cases hmem : subdir ++ filename ∈ name :: names
    · simp only [hmem, decide_true, if_true]
    · simp only [hmem, decide_false, if_false]
      rw [join_concat, List.append_assoc, List.append_assoc, List.singleton_append]

/-! ## Removing -/

theorem removeFileFrom_join (front filename : Text) (hsubdir : semicolon ∉ subdir)
    (hnames : ∀ n ∈ name :: names, semicolon ∉ n)
    (hfuel : (join (name :: names)).length < fuel) :
    removeFileFrom (front ++ join (name :: names)) subdir filename fuel (front.length - 1)
        front.length =
      .ok (if subdir ++ filename ∈ name :: names then
          (if (name :: names).erase (subdir ++ filename) = [] then front.dropLast
            else front ++ join ((name :: names).erase (subdir ++ filename)), true)
        else (front ++ join (name :: names), false)) := by
  induction names generalizing front name fuel with
  | nil =>
    obtain _ | fuel := fuel
    · omega
    have hname := hnames name List.mem_cons_self
    have hfile := isFile_eq front name filename
      hsubdir (.inl rfl) (.inl rfl)
    rw [List.append_nil, ← List.length_append] at hfile
    rw [join, List.intercalate_singleton, removeFileFrom, Scan.find_append_end _ hname, hfile]
    by_cases heq : name = subdir ++ filename
    · have htake : (front ++ name).take (front.length - 1) = front.dropLast := by
        rw [List.take_append_of_le_length (Nat.sub_le _ _), List.dropLast_eq_take]
      simp [heq, ← htake]
    · simp [heq, Ne.symm heq]
  | cons next names ih =>
    obtain _ | fuel := fuel
    · omega
    have hname := hnames name List.mem_cons_self
    obtain ⟨hassoc, hposition⟩ := append_join_cons_cons front name next names
    rw [length_join_cons_cons] at hfuel
    rw [removeFileFrom, find_join front next names hname,
      isFile_join front name next names filename hsubdir (.inl rfl)]
    dsimp only
    rw [if_neg (split_ne_length front name next names)]
    by_cases heq : name = subdir ++ filename
    · have hdrop : (front ++ join (name :: next :: names)).drop (front.length + name.length + 1) =
          join (next :: names) := by
        rw [hposition, hassoc, List.drop_left]
      rw [if_pos (decide_eq_true heq), hdrop, List.take_left, heq, if_pos List.mem_cons_self,
        List.erase_cons_head, if_neg (List.cons_ne_nil next names)]
    · have hlast : front.length + name.length = (front ++ name ++ [semicolon]).length - 1 := by
        rw [← hposition, Nat.add_sub_cancel]
      have herase : (name :: next :: names).erase (subdir ++ filename) =
          name :: (next :: names).erase (subdir ++ filename) :=
        List.erase_cons_tail (by simpa using heq)
      rw [if_neg (by simpa using heq), hposition, hlast, hassoc,
        ih _ (fun n hn => hnames n (List.mem_cons_of_mem _ hn)) (by omega), ← hassoc, herase,
        if_neg (List.cons_ne_nil name _)]
      have hmem : subdir ++ filename ∈ name :: next :: names ↔ subdir ++ filename ∈ next :: names :=
        ⟨fun h => (List.mem_cons.mp h).resolve_left (Ne.symm heq), List.mem_cons_of_mem _⟩
      simp only [hmem]
      split_ifs with hin hnil
      · rw [hnil, join, List.intercalate_singleton, List.dropLast_concat]
      · rw [join_cons_of_ne_nil name hnil]
        simp
      · rfl

theorem removeFile_join (hsubdir : semicolon ∉ subdir) (hnonempty : subdir ++ filename ≠ [])
    (hnames : ∀ n ∈ names, semicolon ∉ n) :
    removeFile (join names) subdir filename =
      .ok (join (names.erase (subdir ++ filename)), decide (subdir ++ filename ∈ names)) := by
  cases names with
  | nil =>
    cases subdir with
    | nil =>
      have hfilename : ¬ ([] : Text) = filename := fun h => hnonempty h.symm
      simp [removeFile, removeFileFrom, isFile, find, view, join, hfilename]
    | cons c subdir => simp [removeFile, removeFileFrom, isFile, find, join]
  | cons name names =>
    have hremove := removeFileFrom_join [] filename hsubdir hnames
      (Nat.lt_succ_self (join (name :: names)).length)
    rw [List.nil_append, List.length_nil, Nat.zero_sub] at hremove
    rw [removeFile, hremove]
    by_cases hmem : subdir ++ filename ∈ name :: names
    · rw [if_pos hmem, decide_eq_true hmem]
      split_ifs with hnil
      · rw [hnil]
        rfl
      · rfl
    · rw [if_neg hmem, decide_eq_false hmem, List.erase_of_not_mem hmem]

/-! ## Duplicates -/

theorem removeDuplicatesFrom_join (front : Text) {files : List Text}
    (hfiles : ∀ n ∈ files, semicolon ∉ n)
    (hnames : ∀ n ∈ name :: names, n ≠ [] ∧ semicolon ∉ n)
    (hfuel : (join (name :: names)).length < fuel) :
    removeDuplicatesFrom (front ++ join (name :: names)) fuel (join files) front.length =
      .ok (join (files.diff (name :: names))) := by
  induction names generalizing front name fuel files with
  | nil =>
    obtain _ | fuel := fuel
    · omega
    obtain ⟨hname, hfree⟩ := hnames name List.mem_cons_self
    have hne : (front ++ name).length ≠ front.length := by
      rw [List.length_append]
      have := List.length_pos_iff.mpr hname
      omega
    have hremove : removeFile (join files) [] name =
        .ok (join (files.erase name), decide (name ∈ files)) :=
      removeFile_join List.not_mem_nil hname hfiles
    rw [join, List.intercalate_singleton, removeDuplicatesFrom, Scan.find_append_end _ hfree]
    rw [if_neg hne, Scan.view_append_end]
    dsimp only
    rw [hremove]
    simp [List.diff_cons]
  | cons next names ih =>
    obtain _ | fuel := fuel
    · omega
    obtain ⟨hname, hfree⟩ := hnames name List.mem_cons_self
    obtain ⟨hassoc, hposition⟩ := append_join_cons_cons front name next names
    have hview : view (front ++ join (name :: next :: names)) front.length
        (front.length + name.length) = .ok name := by
      rw [join_cons_cons]
      exact Scan.view_append _ _ _
    have hne : front.length + name.length ≠ front.length := by
      have := List.length_pos_iff.mpr hname
      omega
    have hremove : removeFile (join files) [] name =
        .ok (join (files.erase name), decide (name ∈ files)) :=
      removeFile_join List.not_mem_nil hname hfiles
    rw [length_join_cons_cons] at hfuel
    rw [removeDuplicatesFrom, find_join front next names hfree, if_neg hne, hview]
    dsimp only
    rw [hremove]
    dsimp only
    rw [if_neg (split_ne_length front name next names), hposition, hassoc,
      ih _ (fun n hn => hfiles n (List.mem_of_mem_erase hn))
        (fun n hn => hnames n (List.mem_cons_of_mem _ hn)) (by omega),
      List.diff_cons files (next :: names) name]

theorem removeDuplicates_join {files : List Text} (hfiles : ∀ n ∈ files, semicolon ∉ n)
    (hnames : ∀ n ∈ names, n ≠ [] ∧ semicolon ∉ n) :
    removeDuplicates (join files) (join names) = .ok (join (files.diff names)) := by
  cases names with
  | nil => simp [removeDuplicates, join]
  | cons name names =>
    rw [removeDuplicates, if_neg (join_cons_ne_nil (hnames name List.mem_cons_self).1 names)]
    exact removeDuplicatesFrom_join [] hfiles hnames (Nat.lt_succ_self _)

/-! ## Sets of names -/

/-- The text lists the names of a set, each of them once. -/
def Lists (files : Text) (S : Set Text) : Prop :=
  ∃ names, Proper names ∧ files = join names ∧ ∀ name, name ∈ S ↔ name ∈ names

variable {files : Text} {S T : Set Text}

/-- A file is added to the set. -/
theorem Lists.addFile (h : Lists files S) (hsubdir : semicolon ∉ subdir)
    (hfilename : semicolon ∉ filename) (hnonempty : subdir ++ filename ≠ []) :
    ∃ added changed, FileListing.addFile files subdir filename = .ok (added, changed) ∧
      Lists added (insert (subdir ++ filename) S) ∧
      (changed = true ↔ subdir ++ filename ∉ S) := by
  obtain ⟨names, ⟨hnodup, hproper⟩, rfl, hS⟩ := h
  rw [addFile_join hsubdir hproper]
  by_cases hmem : subdir ++ filename ∈ names
  · rw [if_pos hmem]
    refine ⟨_, _, rfl, ⟨names, ⟨hnodup, hproper⟩, rfl, fun name => ?_⟩, ?_⟩
    · rw [Set.mem_insert_iff, hS]
      exact ⟨fun hname => hname.elim (fun heq => heq ▸ hmem) id, .inr⟩
    · rw [hS]
      exact iff_of_false Bool.false_ne_true (not_not.mpr hmem)
  · rw [if_neg hmem]
    refine ⟨_, _, rfl, ⟨_, ⟨?_, fun name hname => ?_⟩, rfl, fun name => ?_⟩, ?_⟩
    · exact List.nodup_append.mpr ⟨hnodup, List.nodup_singleton _, fun n hn m hm heq =>
        hmem (List.mem_singleton.mp hm ▸ heq ▸ hn)⟩
    · rcases List.mem_append.mp hname with hname | hname
      · exact hproper name hname
      · rw [List.mem_singleton.mp hname]
        exact ⟨hnonempty, fun hin => (List.mem_append.mp hin).elim hsubdir hfilename⟩
    · rw [Set.mem_insert_iff, hS, List.mem_append, List.mem_singleton, or_comm]
    · rw [hS]
      exact iff_of_true rfl hmem

/-- A file is removed from the set. -/
theorem Lists.removeFile (h : Lists files S) (hsubdir : semicolon ∉ subdir)
    (hnonempty : subdir ++ filename ≠ []) :
    ∃ left changed, FileListing.removeFile files subdir filename = .ok (left, changed) ∧
      Lists left (S \ {subdir ++ filename}) ∧ (changed = true ↔ subdir ++ filename ∈ S) := by
  obtain ⟨names, ⟨hnodup, hproper⟩, rfl, hS⟩ := h
  refine ⟨_, _, removeFile_join hsubdir hnonempty fun n hn => (hproper n hn).2,
    ⟨_, ⟨hnodup.erase _, fun name hname => hproper name (List.mem_of_mem_erase hname)⟩, rfl,
      fun name => ?_⟩, ?_⟩
  · rw [Set.mem_sdiff, Set.mem_singleton_iff, hS, hnodup.mem_erase_iff, and_comm]
  · rw [hS, decide_eq_true_iff]

theorem Lists.removeDuplicates {duplicates : Text} (h : Lists files S) (hT : Lists duplicates T) :
    ∃ left, FileListing.removeDuplicates files duplicates = .ok left ∧ Lists left (S \ T) := by
  obtain ⟨names, ⟨hnodup, hproper⟩, rfl, hS⟩ := h
  obtain ⟨others, ⟨-, hproper'⟩, rfl, hothers⟩ := hT
  refine ⟨_, removeDuplicates_join (fun n hn => (hproper n hn).2) hproper',
    _, ⟨hnodup.diff, fun name hname => hproper name (List.diff_subset _ _ hname)⟩, rfl,
    fun name => ?_⟩
  rw [Set.mem_sdiff, hS, hothers, hnodup.mem_sdiff_iff]

/-- A change that is reported for a directory. -/
inductive Change
  | added (filename : Text)
  | removed (filename : Text)

namespace Change

def file : Change → Text
  | added filename => filename
  | removed filename => filename

/-- How a change is reported. -/
def report : Change → Text
  | added filename => plus :: filename
  | removed filename => minus :: filename

/-- What a change does to a set of names. -/
def applyTo (subdir : Text) (S : Set Text) : Change → Set Text
  | added filename => insert (subdir ++ filename) S
  | removed filename => S \ {subdir ++ filename}

end Change

theorem Lists.change (h : Lists files S) (hsubdir : semicolon ∉ subdir) (c : Change)
    (hfilename : semicolon ∉ c.file) (hnonempty : subdir ++ c.file ≠ []) :
    ∃ changed, FileListing.change files subdir c.report = .ok changed ∧
      Lists changed (c.applyTo subdir S) := by
  cases c with
  | added filename =>
    obtain ⟨files', changed, hrun, hlists, -⟩ :=
      h.addFile hsubdir (show semicolon ∉ filename from hfilename)
        (show subdir ++ filename ≠ [] from hnonempty)
    have hview : view (plus :: filename) 1 (plus :: filename).length = .ok filename :=
      Scan.view_append_end [plus] filename
    refine ⟨files', ?_, hlists⟩
    rw [FileListing.change, Change.report]
    simp only [Scan.read, List.getElem?_cons_zero, hview, if_pos, hrun, Except.map]
  | removed filename =>
    obtain ⟨files', changed, hrun, hlists, -⟩ :=
      h.removeFile hsubdir (show subdir ++ filename ≠ [] from hnonempty)
    have hview : view (minus :: filename) 1 (minus :: filename).length = .ok filename :=
      Scan.view_append_end [minus] filename
    have hne : ¬ minus = plus := by decide
    refine ⟨files', ?_, hlists⟩
    rw [FileListing.change, Change.report]
    simp only [Scan.read, List.getElem?_cons_zero, hview, if_neg hne, if_pos, hrun, Except.map]

theorem Lists.changeAll (h : Lists files S) (hsubdir : semicolon ∉ subdir) (changes : List Change)
    (hchanges : ∀ c ∈ changes, semicolon ∉ c.file ∧ subdir ++ c.file ≠ []) :
    ∃ existing, FileListing.changeAll subdir files (changes.map Change.report) = .ok existing ∧
      Lists existing (changes.foldl (Change.applyTo subdir) S) := by
  induction changes generalizing files S with
  | nil => exact ⟨files, rfl, h⟩
  | cons c changes ih =>
    obtain ⟨hfilename, hnonempty⟩ := hchanges c List.mem_cons_self
    obtain ⟨changed, hrun, hlists⟩ := h.change hsubdir c hfilename hnonempty
    obtain ⟨existing, hrest, hexisting⟩ :=
      ih hlists fun c' hc' => hchanges c' (List.mem_cons_of_mem _ hc')
    refine ⟨existing, ?_, hexisting⟩
    rw [List.map_cons, FileListing.changeAll, hrun]
    exact hrest

/-- Texts of files are sets: files are added to and removed from them, and what a scan reports
after any changes is the changed set, and what has been in the set before and is not any more. -/
theorem listings_are_sets (h : Lists files S) (hsubdir : semicolon ∉ subdir) :
    (∀ filename, semicolon ∉ filename → subdir ++ filename ≠ [] →
      (∃ added changed, addFile files subdir filename = .ok (added, changed) ∧
        Lists added (insert (subdir ++ filename) S) ∧
        (changed = true ↔ subdir ++ filename ∉ S)) ∧
      ∃ left changed, removeFile files subdir filename = .ok (left, changed) ∧
        Lists left (S \ {subdir ++ filename}) ∧ (changed = true ↔ subdir ++ filename ∈ S)) ∧
    (∀ duplicates T, Lists duplicates T →
      ∃ left, removeDuplicates files duplicates = .ok left ∧ Lists left (S \ T)) ∧
    ∀ (dirpath : Text) (changes : List Change),
      (∀ c ∈ changes, semicolon ∉ c.file ∧ subdir ++ c.file ≠ []) →
      ∃ existing removed,
        scanChange dirpath files (dirpath ++ subdir) (changes.map Change.report) =
          .ok (existing, removed) ∧
        Lists existing (changes.foldl (Change.applyTo subdir) S) ∧
        Lists removed (S \ changes.foldl (Change.applyTo subdir) S) := by
  refine ⟨fun filename hfilename hnonempty => ⟨h.addFile hsubdir hfilename hnonempty,
    h.removeFile hsubdir hnonempty⟩, fun duplicates T hT => h.removeDuplicates hT, ?_⟩
  intro dirpath changes hchanges
  obtain ⟨existing, hrun, hexisting⟩ := h.changeAll hsubdir changes hchanges
  obtain ⟨removed, hremoved, hlists⟩ := h.removeDuplicates hexisting
  refine ⟨existing, removed, ?_, hexisting, hlists⟩
  rw [scanChange, Scan.view_append_end]
  simp only [hrun, hremoved, Except.map]

/-- `a;b`, where `a` is removed and `c` is added. -/
theorem listings_are_sets_changes : ∃ existing removed,
    scanChange [] [0x61, semicolon, 0x62] [] [[minus, 0x61], [plus, 0x63]] =
      .ok (existing, removed) ∧
    Lists removed ({[0x61], [0x62]} \ insert [0x63] ({[0x61], [0x62]} \ {[0x61]})) := by
  have hlists : Lists [0x61, semicolon, 0x62] {[0x61], [0x62]} := by
    refine ⟨[[0x61], [0x62]], ⟨by decide, by decide⟩, rfl, fun name => ?_⟩
    simp
  obtain ⟨existing, removed, hrun, -, hremoved⟩ :=
    (listings_are_sets hlists (List.not_mem_nil : semicolon ∉ ([] : Text))).2.2 []
      [.removed [0x61], .added [0x63]] (by decide)
  exact ⟨existing, removed, hrun, hremoved⟩

end Fimbulwinter.FileListing
