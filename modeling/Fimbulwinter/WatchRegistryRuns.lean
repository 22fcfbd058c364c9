import Fimbulwinter.WatchRegistry

/-! # Runs of watches

The use counts are the numbers of what is attached, as long as no directory is announced that a
recursive scan has been attached to already. -/
namespace Fimbulwinter.WatchRegistry

variable {Id Name : Type*}

/-- How much is attached to a directory. -/
def Directory.users (d : Directory Name) : ℕ := d.reads.length + d.scans.length

/-- Everything is attached once and counted, the kernel watches what something is attached to,
and nothing is left when there are no watches. -/
structure Balanced (s : State Id Name) : Prop where
  once : ∀ fd d, s.directories fd = some d → d.scans.Nodup ∧ d.recursiveScans.Nodup
  count : ∀ path a, s.aliases path = some a → ∃ d, s.directories a.directory = some d ∧
    d.filepath = path ∧ a.useCount = d.users
  kernel : ∀ path, s.kernel path ≠ none ↔
    ∃ fd d, s.directories fd = some d ∧ d.filepath = path ∧ 0 < d.users
  removed : (∀ id, s.watches id = none) → (∀ path, s.aliases path = none) ∧
    (∀ fd, s.directories fd = none) ∧ ∀ path, s.kernel path = none

/-- Aliases, directories and watches of the kernel belong together. -/
structure Tables (s : State Id Name) : Prop where
  alias' : ∀ path a, s.aliases path = some a → ∃ d, s.directories a.directory = some d ∧
    d.filepath = path ∧ a.useCount = d.users ∧ 0 < d.users
  directory : ∀ fd d, s.directories fd = some d →
    ∃ a, s.aliases d.filepath = some a ∧ a.directory = fd
  kernel : ∀ path, s.kernel path = (s.aliases path).map Alias.directory
  fresh : ∀ fd d, s.directories fd = some d → fd < s.nextWatch
  listed : ∀ path a, s.aliases path = some a → path ∈ s.existing
  nodup : s.existing.Nodup

/-- What is attached to a directory has been asked for. -/
structure Directory.Sound (watches : Id → Option (Watch Name)) (d : Directory Name) : Prop where
  scans : ∀ ptr ∈ d.scans, ∃ id, watches id = some (.scan d.filepath ptr) ∨
    ∃ root, watches id = some (.scanRecursive root ptr) ∧ root <+: d.filepath
  recursiveScans : ∀ ptr ∈ d.recursiveScans, ptr ∈ d.scans ∧
    ∃ id root, watches id = some (.scanRecursive root ptr) ∧ root <+: d.filepath
  reads : ∀ ptr ∈ d.reads, ∃ id, watches id = some (.read d.filepath ptr)
  missingReads : ∀ ptr ∈ d.missingReads, ptr ∈ d.reads
  nodup : d.scans.Nodup ∧ d.recursiveScans.Nodup ∧ d.reads.Nodup ∧ d.missingReads.Nodup

structure Sound (s : State Id Name) : Prop where
  tables : Tables s
  attached : ∀ fd d, s.directories fd = some d → d.Sound s.watches
  unique : ∀ id id' w w', s.watches id = some w → s.watches id' = some w' → w.ptr = w'.ptr →
    id = id'
  bound : ∀ id w, s.watches id = some w → w.ptr < s.nextPtr

/-- The state but for the tables of aliases and directories, and the kernel. -/
def SameRest (s t : State Id Name) : Prop :=
  t.watches = s.watches ∧ t.existing = s.existing ∧ t.events = s.events ∧ t.nextPtr = s.nextPtr

theorem SameRest.trans {s t u : State Id Name} (h : SameRest s t) (h' : SameRest t u) :
    SameRest s u :=
  ⟨h'.1.trans h.1, h'.2.1.trans h.2.1, h'.2.2.1.trans h.2.2.1, h'.2.2.2.trans h.2.2.2⟩

def Directory.empty (path : Path Name) : Directory Name := ⟨path, [], [], [], []⟩

theorem Directory.Sound.empty (watches : Id → Option (Watch Name)) (path : Path Name) :
    (Directory.empty path).Sound watches where
  scans := fun _ h => by cases h
  recursiveScans := fun _ h => by cases h
  reads := fun _ h => by cases h
  missingReads := fun _ h => by cases h
  nodup := ⟨List.nodup_nil, List.nodup_nil, List.nodup_nil, List.nodup_nil⟩

theorem Sound.initial : Sound (State.initial : State Id Name) where
  tables :=
    { alias' := fun _ _ h => by cases h
      directory := fun _ _ h => by cases h
      kernel := fun _ => rfl
      fresh := fun _ _ h => by cases h
      listed := fun _ _ h => by cases h
      nodup := List.nodup_cons.mpr ⟨List.not_mem_nil, List.nodup_nil⟩ }
  attached := fun _ _ h => by cases h
  unique := fun _ _ _ _ h => by cases h
  bound := fun _ _ h => by cases h

theorem Sound.balanced {s : State Id Name} (h : Sound s) : Balanced s where
  once := fun fd d hd => ⟨(h.attached fd d hd).nodup.1, (h.attached fd d hd).nodup.2.1⟩
  count := fun path a ha => by
    obtain ⟨d, hd, hpath, hcount, -⟩ := h.tables.alias' path a ha
    exact ⟨d, hd, hpath, hcount⟩
  kernel := fun path => by
    rw [h.tables.kernel, Ne, Option.map_eq_none_iff]
    constructor
    · intro hne
      obtain ⟨a, ha⟩ := Option.ne_none_iff_exists'.mp hne
      obtain ⟨d, hd, hpath, -, hpos⟩ := h.tables.alias' path a ha
      exact ⟨a.directory, d, hd, hpath, hpos⟩
    · rintro ⟨fd, d, hd, rfl, -⟩ hnone
      obtain ⟨a, ha, -⟩ := h.tables.directory fd d hd
      rw [hnone] at ha
      cases ha
  removed := fun hnone => by
    have haliases : ∀ path, s.aliases path = none := by
      intro path
      by_contra hne
      obtain ⟨a, ha⟩ := Option.ne_none_iff_exists'.mp hne
      obtain ⟨d, hd, -, -, hpos⟩ := h.tables.alias' path a ha
      have hsound := h.attached a.directory d hd
      -- Something is attached, so that it has been asked for.
      rcases Nat.eq_zero_or_pos d.reads.length with hreads | hreads
      · obtain ⟨ptr, hptr⟩ := List.exists_mem_of_length_pos
          (show 0 < d.scans.length by rw [Directory.users] at hpos; omega)
        obtain ⟨id, hid | ⟨root, hid, -⟩⟩ := hsound.scans ptr hptr
        · rw [hnone] at hid
          cases hid
        · rw [hnone] at hid
          cases hid
      · obtain ⟨ptr, hptr⟩ := List.exists_mem_of_length_pos hreads
        obtain ⟨id, hid⟩ := hsound.reads ptr hptr
        rw [hnone] at hid
        cases hid
    refine ⟨haliases, fun fd => ?_, fun path => ?_⟩
    · by_contra hne
      obtain ⟨d, hd⟩ := Option.ne_none_iff_exists'.mp hne
      obtain ⟨a, ha, -⟩ := h.tables.directory fd d hd
      rw [haliases] at ha
      cases ha
    · rw [h.tables.kernel, haliases]
      rfl

theorem nodup_concat {α : Type*} {xs : List α} {a : α} (h : xs.Nodup) (ha : a ∉ xs) :
    (xs ++ [a]).Nodup := by
  rw [← List.concat_eq_append]
  exact List.Nodup.concat ha h

section Attach

variable [DecidableEq Name] {s : State Id Name} {path : Path Name}
  {change : Directory Name → Directory Name}

omit [DecidableEq Name] in
/-- Another directory has another path. -/
theorem Tables.other (h : Tables s) {a : Alias} (ha : s.aliases path = some a) {fd : ℕ}
    {d : Directory Name} (hne : fd ≠ a.directory) (hd : s.directories fd = some d) :
    d.filepath ≠ path := by
  intro heq
  obtain ⟨a', ha', rfl⟩ := h.directory fd d hd
  rw [heq, ha] at ha'
  cases ha'
  exact hne rfl

omit [DecidableEq Name] in
/-- Another path has another directory. -/
theorem Tables.distinct (h : Tables s) {a a' : Alias} (ha : s.aliases path = some a)
    {p : Path Name} (hp : p ≠ path) (ha' : s.aliases p = some a') :
    a'.directory ≠ a.directory := by
  intro heq
  obtain ⟨d, hd, rfl, -⟩ := h.alias' path a ha
  obtain ⟨d', hd', rfl, -⟩ := h.alias' p a' ha'
  rw [heq, hd] at hd'
  cases hd'
  exact hp rfl

omit [DecidableEq Name] in
/-- A path without an alias is not the path of a directory. -/
theorem Tables.unknown (h : Tables s) (ha : s.aliases path = none) {fd : ℕ} {d : Directory Name}
    (hd : s.directories fd = some d) : d.filepath ≠ path := by
  intro heq
  obtain ⟨a, ha', -⟩ := h.directory fd d hd
  rw [heq, ha] at ha'
  cases ha'

/-- A directory is changed, and the uses of it are counted. -/
theorem Tables.replace (h : Tables s) {a : Alias} (ha : s.aliases path = some a)
    {d : Directory Name} (hpath : d.filepath = path) {n : ℤ} (hcount : n = d.users)
    (hpos : 0 < d.users) : Tables { s with
      aliases := Function.update s.aliases path (some { a with useCount := n })
      directories := Function.update s.directories a.directory (some d) } where
  alias' := by
    intro p a' ha'
    simp only [Function.update_apply] at ha' ⊢
    split_ifs at ha' with hp
    · cases ha'
      exact ⟨d, if_pos rfl, hpath.trans hp.symm, hcount, hpos⟩
    · obtain ⟨d', hd', rfl, hrest⟩ := h.alias' p a' ha'
      exact ⟨d', by rw [if_neg (h.distinct ha hp ha'), hd'], rfl, hrest⟩
  directory := by
    intro fd d' hd'
    simp only [Function.update_apply] at hd' ⊢
    split_ifs at hd' with hfd
    · cases hd'
      rw [hpath, if_pos rfl]
      exact ⟨_, rfl, hfd.symm⟩
    · obtain ⟨a', ha', hfd'⟩ := h.directory fd d' hd'
      rw [if_neg (h.other ha hfd hd')]
      exact ⟨a', ha', hfd'⟩
  kernel := by
    intro p
    simp only [Function.update_apply]
    split_ifs with hp
    · rw [h.kernel, hp, ha]
      rfl
    · exact h.kernel p
  fresh := by
    intro fd d' hd'
    simp only [Function.update_apply] at hd'
    split_ifs at hd' with hfd
    · obtain ⟨d₀, hd₀, -⟩ := h.alias' path a ha
      rw [hfd]
      exact h.fresh a.directory d₀ hd₀
    · exact h.fresh fd d' hd'
  listed := by
    intro p a' ha'
    simp only [Function.update_apply] at ha'
    split_ifs at ha' with hp
    · rw [hp]
      exact h.listed path a ha
    · exact h.listed p a' ha'
  nodup := h.nodup

/-- A directory is watched under a new descriptor. -/
theorem Tables.insert (h : Tables s) (ha : s.aliases path = none) (hexisting : path ∈ s.existing)
    {d : Directory Name} (hpath : d.filepath = path) (hcount : d.users = 1) : Tables { s with
      kernel := Function.update s.kernel path (some s.nextWatch)
      nextWatch := s.nextWatch + 1
      aliases := Function.update s.aliases path (some ⟨s.nextWatch, 1⟩)
      directories := Function.update s.directories s.nextWatch (some d) } where
  alias' := by
    intro p a' ha'
    simp only [Function.update_apply] at ha' ⊢
    split_ifs at ha' with hp
    · cases ha'
      refine ⟨d, if_pos rfl, hpath.trans hp.symm, ?_, ?_⟩
      · rw [hcount]
        rfl
      · rw [hcount]
        exact Nat.one_pos
    · obtain ⟨d', hd', rfl, hrest⟩ := h.alias' p a' ha'
      have hne : a'.directory ≠ s.nextWatch := Nat.ne_of_lt (h.fresh _ d' hd')
      exact ⟨d', by rw [if_neg hne, hd'], rfl, hrest⟩
  directory := by
    intro fd d' hd'
    simp only [Function.update_apply] at hd' ⊢
    split_ifs at hd' with hfd
    · cases hd'
      rw [hpath, if_pos rfl]
      exact ⟨_, rfl, hfd.symm⟩
    · obtain ⟨a', ha', hfd'⟩ := h.directory fd d' hd'
      rw [if_neg (h.unknown ha hd')]
      exact ⟨a', ha', hfd'⟩
  kernel := by
    intro p
    simp only [Function.update_apply]
    split_ifs with hp
    · rfl
    · exact h.kernel p
  fresh := by
    intro fd d' hd'
    simp only [Function.update_apply] at hd' ⊢
    split_ifs at hd' with hfd
    · omega
    · exact (h.fresh fd d' hd').trans (Nat.lt_succ_self _)
  listed := by
    intro p a' ha'
    simp only [Function.update_apply] at ha'
    split_ifs at ha' with hp
    · exact hp ▸ hexisting
    · exact h.listed p a' ha'
  nodup := h.nodup

/-- A directory is not watched any more. -/
theorem Tables.erase (h : Tables s) {a : Alias} (ha : s.aliases path = some a)
    (d : Directory Name) : Tables (stopWatch { s with
      aliases := Function.update s.aliases path none
      directories := Function.update (Function.update s.directories a.directory (some d))
        a.directory none } a.directory) where
  alias' := by
    intro p a' ha'
    simp only [stopWatch, Function.update_apply] at ha' ⊢
    split_ifs at ha' with hp
    obtain ⟨d', hd', rfl, hrest⟩ := h.alias' p a' ha'
    have hne := h.distinct ha hp ha'
    exact ⟨d', by rw [if_neg hne, if_neg hne, hd'], rfl, hrest⟩
  directory := by
    intro fd d' hd'
    simp only [stopWatch, Function.update_apply] at hd' ⊢
    split_ifs at hd' with hfd
    obtain ⟨a', ha', hfd'⟩ := h.directory fd d' hd'
    rw [if_neg (h.other ha hfd hd')]
    exact ⟨a', ha', hfd'⟩
  kernel := by
    intro p
    simp only [stopWatch, Function.update_apply, h.kernel]
    by_cases hp : p = path
    · rw [if_pos hp, hp, ha]
      exact if_pos rfl
    · rw [if_neg hp]
      cases ha' : s.aliases p with
      | none => exact if_neg (by simp)
      | some a' =>
        rw [if_neg]
        exact fun heq => h.distinct ha hp ha' (Option.some.inj heq)
  fresh := by
    intro fd d' hd'
    simp only [stopWatch, Function.update_apply] at hd'
    split_ifs at hd'
    exact h.fresh fd d' hd'
  listed := by
    intro p a' ha'
    simp only [stopWatch, Function.update_apply] at ha'
    split_ifs at ha'
    exact h.listed p a' ha'
  nodup := h.nodup

/-- What a directory is after something has been attached. -/
structure Attaches (s t : State Id Name) (path : Path Name)
    (change : Directory Name → Directory Name) : Prop where
  tables : Tables t
  rest : SameRest s t
  cases : ∀ fd d', t.directories fd = some d' →
    (s.directories fd = some d' ∧ d'.filepath ≠ path) ∨
      ∃ d, d' = change d ∧ d.filepath = path ∧
        (s.directories fd = some d ∨ d = Directory.empty path)

theorem Tables.attach (h : Tables s) (path : Path Name)
    (hpath : ∀ d, (change d).filepath = d.filepath) (husers : ∀ d, (change d).users = d.users + 1) :
    Attaches s (attach s path change) path change := by
  rw [WatchRegistry.attach, getOrCreateDirectory]
  cases ha : s.aliases path with
  | some a =>
    obtain ⟨d, hd, rfl, hcount, -⟩ := h.alias' path a ha
    dsimp only
    rw [hd]
    have hcount' : a.useCount + 1 = ((change d).users : ℤ) := by
      rw [husers, hcount]
      push_cast
      rfl
    refine ⟨h.replace ha (hpath d) hcount' (by rw [husers]; exact Nat.succ_pos _),
      ⟨rfl, rfl, rfl, rfl⟩, ?_⟩
    intro fd d' hd'
    simp only [setDirectory, Function.update_apply] at hd'
    split_ifs at hd' with hfd
    · cases hd'
      exact .inr ⟨d, rfl, rfl, .inl (hfd ▸ hd)⟩
    · exact .inl ⟨hd', h.other ha hfd hd'⟩
  | none =>
    have hkernel : s.kernel path = none := by rw [h.kernel, ha]; rfl
    dsimp only
    rw [startWatch]
    by_cases hexisting : path ∈ s.existing
    · rw [if_pos ⟨hexisting, hkernel⟩]
      dsimp only
      have hinsert := h.insert ha hexisting (d := change (Directory.empty path))
        (hpath (Directory.empty path)) (husers (Directory.empty path))
      refine ⟨?_, ⟨rfl, rfl, rfl, rfl⟩, ?_⟩
      · rw [setDirectory]
        dsimp only [Directory.empty] at hinsert ⊢
        rw [Function.update_idem]
        exact hinsert
      · intro fd d' hd'
        simp only [setDirectory, Function.update_apply] at hd'
        split_ifs at hd' with hfd
        · cases hd'
          exact .inr ⟨Directory.empty path, rfl, rfl, .inr rfl⟩
        · exact .inl ⟨hd', h.unknown ha hd'⟩
    · rw [if_neg fun hand => hexisting hand.1]
      exact ⟨h, ⟨rfl, rfl, rfl, rfl⟩, fun fd d' hd' => .inl ⟨hd', h.unknown ha hd'⟩⟩

/-- What a directory is after something has been detached, if it was attached. -/
structure Detaches (s t : State Id Name) (path : Path Name) (attached : Directory Name → Bool)
    (change : Directory Name → Directory Name) : Prop where
  tables : Tables t
  rest : SameRest s t
  cases : ∀ fd d', t.directories fd = some d' →
    (s.directories fd = some d' ∧ (d'.filepath = path → attached d' = false)) ∨
      ∃ d, d' = change d ∧ d.filepath = path ∧ s.directories fd = some d

theorem Tables.detach (h : Tables s) (path : Path Name) {attached : Directory Name → Bool}
    (hpath : ∀ d, (change d).filepath = d.filepath)
    (husers : ∀ fd d, s.directories fd = some d → attached d = true →
      (change d).users + 1 = d.users) :
    Detaches s (detach s path attached change) path attached change := by
  rw [WatchRegistry.detach, getDirectory]
  cases ha : s.aliases path with
  | none =>
    exact ⟨h, ⟨rfl, rfl, rfl, rfl⟩, fun fd d' hd' =>
      .inl ⟨hd', fun heq => absurd heq (h.unknown ha hd')⟩⟩
  | some a =>
    obtain ⟨d, hd, rfl, hcount, -⟩ := h.alias' path a ha
    dsimp only
    rw [hd]
    dsimp only [Option.map_some]
    by_cases hattached : attached d = true
    · have hless := husers a.directory d hd hattached
      rw [if_pos hattached, decrementAlias, setDirectory]
      dsimp only
      rw [ha]
      dsimp only
      by_cases hlast : a.useCount - 1 ≤ 0
      · -- The last one: the alias goes, and its directory.
        rw [if_pos hlast]
        refine ⟨h.erase ha (change d), ⟨rfl, rfl, rfl, rfl⟩, fun fd d' hd' => ?_⟩
        simp only [stopWatch, Function.update_apply] at hd'
        split_ifs at hd' with hfd
        exact .inl ⟨hd', fun heq => absurd heq (h.other ha hfd hd')⟩
      · rw [if_neg hlast]
        refine ⟨h.replace ha (hpath d) (by omega) (by omega), ⟨rfl, rfl, rfl, rfl⟩,
          fun fd d' hd' => ?_⟩
        simp only [Function.update_apply] at hd'
        split_ifs at hd' with hfd
        · cases hd'
          exact .inr ⟨d, rfl, rfl, hfd ▸ hd⟩
        · exact .inl ⟨hd', fun heq => absurd heq (h.other ha hfd hd')⟩
    · rw [if_neg hattached]
      refine ⟨h, ⟨rfl, rfl, rfl, rfl⟩, fun fd d' hd' => .inl ⟨hd', fun heq => ?_⟩⟩
      by_cases hfd : fd = a.directory
      · rw [hfd, hd] at hd'
        cases hd'
        exact Bool.eq_false_iff.mpr hattached
      · exact absurd heq (h.other ha hfd hd')

/-! ## Attaching and detaching -/

theorem Sound.attach (h : Sound s) (path : Path Name) (change : Directory Name → Directory Name)
    (hpath : ∀ d, (change d).filepath = d.filepath)
    (husers : ∀ d, (change d).users = d.users + 1)
    (hchange : ∀ d, d.filepath = path → d.Sound s.watches →
      (∀ ptr ∈ d.scans ++ d.reads, ∃ fd, s.directories fd = some d) → (change d).Sound s.watches) :
    Sound (attach s path change) ∧ Attaches s (WatchRegistry.attach s path change) path change := by
  have hattaches := h.tables.attach path hpath husers
  obtain ⟨hwatches, -, -, hptr⟩ := hattaches.rest
  refine ⟨⟨hattaches.tables, ?_, ?_, ?_⟩, hattaches⟩
  · intro fd d' hd'
    rw [hwatches]
    rcases hattaches.cases fd d' hd' with ⟨hd, -⟩ | ⟨d, rfl, hd, hor⟩
    · exact h.attached fd d' hd
    · rcases hor with hin | rfl
      · exact hchange d hd (h.attached fd d hin) fun _ _ => ⟨fd, hin⟩
      · exact hchange _ hd (Directory.Sound.empty _ _) fun _ hmem => by cases hmem
  · rw [hwatches]
    exact h.unique
  · rw [hwatches, hptr]
    exact h.bound

theorem Sound.detach (h : Sound s) (path : Path Name) (attached : Directory Name → Bool)
    (change : Directory Name → Directory Name)
    (hpath : ∀ d, (change d).filepath = d.filepath)
    (husers : ∀ fd d, s.directories fd = some d → attached d = true →
      (change d).users + 1 = d.users)
    (hchange : ∀ d, d.Sound s.watches → (change d).Sound s.watches) :
    Sound (detach s path attached change) ∧
      Detaches s (WatchRegistry.detach s path attached change) path attached change := by
  have hdetaches := h.tables.detach path hpath husers
  obtain ⟨hwatches, -, -, hptr⟩ := hdetaches.rest
  refine ⟨⟨hdetaches.tables, ?_, ?_, ?_⟩, hdetaches⟩
  · intro fd d' hd'
    rw [hwatches]
    rcases hdetaches.cases fd d' hd' with ⟨hd, -⟩ | ⟨d, rfl, -, hd⟩
    · exact h.attached fd d' hd
    · exact hchange d (h.attached fd d hd)
  · rw [hwatches]
    exact h.unique
  · rw [hwatches, hptr]
    exact h.bound

omit [DecidableEq Name] in
/-- New directories and events change nothing. -/
theorem Sound.existing (h : Sound s) {existing : List (Path Name)}
    (hsub : ∀ p ∈ s.existing, p ∈ existing) (hnodup : existing.Nodup) (events : List (ℕ × Name)) :
    Sound { s with existing := existing, events := events } where
  tables :=
    { alias' := h.tables.alias'
      directory := h.tables.directory
      kernel := h.tables.kernel
      fresh := h.tables.fresh
      listed := fun p a ha => hsub p (h.tables.listed p a ha)
      nodup := hnodup }
  attached := h.attached
  unique := h.unique
  bound := h.bound

omit [DecidableEq Name] in
theorem Sound.announce (h : Sound s) (new : List (Path Name × Name)) : Sound (announce s new) :=
  h.existing (fun _ hp => hp) h.tables.nodup _

theorem create_spec {existing : List (Path Name)} (hnodup : existing.Nodup)
    (created : List (Path Name × Name)) :
    (∀ p ∈ existing, p ∈ (create existing created).1) ∧ (create existing created).1.Nodup := by
  induction created generalizing existing with
  | nil => exact ⟨fun p hp => hp, hnodup⟩
  | cons c rest ih =>
    obtain ⟨parent, name⟩ := c
    rw [create]
    split_ifs with hnew
    · obtain ⟨hsub, hlast⟩ := ih (nodup_concat hnodup hnew.2)
      exact ⟨fun p hp => hsub p (List.mem_append_left _ hp), hlast⟩
    · exact ih hnodup

omit [DecidableEq Name] in
theorem Directory.Sound.addScans {watches : Id → Option (Watch Name)} {d : Directory Name}
    (h : d.Sound watches) {ptr : ℕ} (hnew : ptr ∉ d.scans)
    (hwatch : ∃ id root, watches id = some (.scanRecursive root ptr) ∧ root <+: d.filepath) :
    (addScansTo ptr d).Sound watches := by
  have hrecursive : ptr ∉ d.recursiveScans := fun hmem => hnew (h.recursiveScans ptr hmem).1
  exact
    { scans := by
        intro p hp
        rcases List.mem_append.mp hp with hp | hp
        · exact h.scans p hp
        · obtain rfl := List.mem_singleton.mp hp
          obtain ⟨id, root, hid, hroot⟩ := hwatch
          exact ⟨id, .inr ⟨root, hid, hroot⟩⟩
      recursiveScans := by
        intro p hp
        rcases List.mem_append.mp hp with hp | hp
        · exact ⟨List.mem_append_left _ (h.recursiveScans p hp).1, (h.recursiveScans p hp).2⟩
        · obtain rfl := List.mem_singleton.mp hp
          exact ⟨List.mem_append_right _ hp, hwatch⟩
      reads := h.reads
      missingReads := h.missingReads
      nodup := ⟨nodup_concat h.nodup.1 hnew, nodup_concat h.nodup.2.1 hrecursive, h.nodup.2.2⟩ }

omit [DecidableEq Name] in
theorem users_addScans (ptr : ℕ) (d : Directory Name) :
    (addScansTo ptr d).users = d.users + 1 := by
  simp only [Directory.users, addScansTo, List.length_append, List.length_singleton]
  omega

/-- Directories that a state has got only from attaching `ptr`. -/
def OnlyAdded (ptr : ℕ) (s t : State Id Name) : Prop :=
  ∀ fd d', t.directories fd = some d' → ∀ ptr' ∈ d'.scans, ptr' ≠ ptr →
    ∃ fd' d, s.directories fd' = some d ∧ d.filepath = d'.filepath ∧ ptr' ∈ d.scans

/-- A recursive scan is attached to directories that it is not attached to. -/
theorem Sound.attachAll (h : Sound s) {ptr : ℕ} {id : Id} {root : Path Name}
    (hwatch : s.watches id = some (.scanRecursive root ptr)) (paths : List (Path Name))
    (hnodup : paths.Nodup) (hroot : ∀ p ∈ paths, root <+: p)
    (hnew : ∀ fd d, s.directories fd = some d → d.filepath ∈ paths → ptr ∉ d.scans) :
    let t := paths.foldl (fun s p => WatchRegistry.attach s p (addScansTo ptr)) s
    Sound t ∧ SameRest s t ∧ OnlyAdded ptr s t := by
  induction paths generalizing s with
  | nil => exact ⟨h, ⟨rfl, rfl, rfl, rfl⟩, fun fd d hd ptr' hptr' _ => ⟨fd, d, hd, rfl, hptr'⟩⟩
  | cons p paths ih =>
    obtain ⟨hp, hnodup⟩ := List.nodup_cons.mp hnodup
    have hchange : ∀ d : Directory Name, d.filepath = p → d.Sound s.watches →
        (∀ ptr ∈ d.scans ++ d.reads, ∃ fd, s.directories fd = some d) →
          (addScansTo ptr d).Sound s.watches := by
      intro d hd hdsound hin
      refine hdsound.addScans (fun hmem => ?_)
        ⟨id, root, hwatch, hd ▸ hroot p List.mem_cons_self⟩
      obtain ⟨fd, hfd⟩ := hin ptr (List.mem_append_left _ hmem)
      exact hnew fd d hfd (hd ▸ List.mem_cons_self) hmem
    obtain ⟨hsound, hattaches⟩ := h.attach p (addScansTo ptr)
      (fun _ => rfl) (users_addScans ptr) hchange
    obtain ⟨hsound', hrest, honly⟩ := ih hsound (by rw [hattaches.rest.1]; exact hwatch) hnodup
      (fun q hq => hroot q (List.mem_cons_of_mem p hq)) (by
        intro fd d hd hmem
        rcases hattaches.cases fd d hd with ⟨hd, -⟩ | ⟨d', rfl, hd', -⟩
        · exact hnew fd d hd (List.mem_cons_of_mem p hmem)
        · exact absurd hmem (fun hmem => hp (hd' ▸ hmem)))
    refine ⟨hsound', hattaches.rest.trans hrest, fun fd d' hd' ptr' hptr' hne => ?_⟩
    obtain ⟨fd', d, hd, hfilepath, hmem⟩ := honly fd d' hd' ptr' hptr' hne
    rcases hattaches.cases fd' d hd with ⟨hd, -⟩ | ⟨e, rfl, -, hor⟩
    · exact ⟨fd', d, hd, hfilepath, hmem⟩
    · rcases List.mem_append.mp hmem with hmem | hmem
      · rcases hor with he | rfl
        · exact ⟨fd', e, he, hfilepath, hmem⟩
        · cases hmem
      · exact absurd (List.mem_singleton.mp hmem) hne

/-- A recursive scan is added below a path where it is attached to nothing. -/
theorem Sound.addRecursiveScan (h : Sound s) {ptr : ℕ} {id : Id} {root : Path Name}
    (hwatch : s.watches id = some (.scanRecursive root ptr)) (hroot : root <+: path)
    (hnew : ∀ fd d, s.directories fd = some d → path <+: d.filepath → ptr ∉ d.scans)
    (created : List (Path Name × Name)) :
    let t := addRecursiveScan s path ptr created
    Sound t ∧ t.watches = s.watches ∧ OnlyAdded ptr s t := by
  obtain ⟨hsub, hnodup⟩ := create_spec h.tables.nodup created
  have h' : Sound { s with existing := (create s.existing created).1 } :=
    h.existing hsub hnodup s.events
  obtain ⟨hsound, hrest, honly⟩ := h'.attachAll hwatch
    (below (create s.existing created).1 path) (hnodup.filter _)
    (fun p hp => hroot.trans (of_decide_eq_true (List.mem_filter.mp hp).2))
    (fun fd d hd hmem => hnew fd d hd (of_decide_eq_true (List.mem_filter.mp hmem).2))
  exact ⟨hsound.announce _, hrest.1, honly⟩

/-! ## Watches -/

section Watches

variable {watches : Id → Option (Watch Name)} {d : Directory Name}

omit [DecidableEq Name] in
theorem Directory.Sound.mono (h : d.Sound watches) {watches' : Id → Option (Watch Name)}
    (hkept : ∀ id w, watches id = some w → w.ptr ∈ d.scans ++ d.reads → watches' id = some w) :
    d.Sound watches' where
  scans := by
    intro ptr hptr
    obtain ⟨id, hid | ⟨root, hid, hroot⟩⟩ := h.scans ptr hptr
    · exact ⟨id, .inl (hkept id _ hid (List.mem_append_left _ hptr))⟩
    · exact ⟨id, .inr ⟨root, hkept id _ hid (List.mem_append_left _ hptr), hroot⟩⟩
  recursiveScans := by
    intro ptr hptr
    obtain ⟨hmem, id, root, hid, hroot⟩ := h.recursiveScans ptr hptr
    exact ⟨hmem, id, root, hkept id _ hid (List.mem_append_left _ hmem), hroot⟩
  reads := by
    intro ptr hptr
    obtain ⟨id, hid⟩ := h.reads ptr hptr
    exact ⟨id, hkept id _ hid (List.mem_append_right _ hptr)⟩
  missingReads := h.missingReads
  nodup := h.nodup

omit [DecidableEq Name] in
/-- Whatever is attached has the pointer of a watch. -/
theorem Directory.Sound.watched (h : d.Sound watches) {ptr : ℕ} (hptr : ptr ∈ d.scans ++ d.reads) :
    ∃ id w, watches id = some w ∧ w.ptr = ptr := by
  rcases List.mem_append.mp hptr with hptr | hptr
  · obtain ⟨id, hid | ⟨root, hid, -⟩⟩ := h.scans ptr hptr
    · exact ⟨id, _, hid, rfl⟩
    · exact ⟨id, _, hid, rfl⟩
  · obtain ⟨id, hid⟩ := h.reads ptr hptr
    exact ⟨id, _, hid, rfl⟩

end Watches

omit [DecidableEq Name] in
/-- What a watch is attached to. -/
theorem Sound.watch_eq (h : Sound s) {id id' : Id} {w w' : Watch Name}
    (hw : s.watches id = some w) (hw' : s.watches id' = some w') (hptr : w'.ptr = w.ptr) :
    w' = w := by
  rw [h.unique id id' w w' hw hw' hptr.symm] at hw
  exact Option.some.inj (hw'.symm.trans hw)

omit [DecidableEq Name] in
theorem Sound.registered [DecidableEq Id] (h : Sound s) {id : Id} (hnone : s.watches id = none) {w : Watch Name}
    (hptr : w.ptr = s.nextPtr) :
    Sound { s with
      watches := Function.update s.watches id (some w)
      nextPtr := s.nextPtr + 1 } ∧
      ∀ fd d, s.directories fd = some d → s.nextPtr ∉ d.scans ++ d.reads := by
  have hkept : ∀ id' w', s.watches id' = some w' →
      Function.update s.watches id (some w) id' = some w' := by
    intro id' w' hw'
    rw [Function.update_of_ne, hw']
    rintro rfl
    rw [hnone] at hw'
    cases hw'
  refine ⟨⟨?_, ?_, ?_, ?_⟩, ?_⟩
  · exact ⟨h.tables.alias', h.tables.directory, h.tables.kernel, h.tables.fresh,
      h.tables.listed, h.tables.nodup⟩
  · exact fun fd d hd => (h.attached fd d hd).mono fun id' w' hw' _ => hkept id' w' hw'
  · intro id₁ id₂ w₁ w₂ h₁ h₂ heq
    simp only [Function.update_apply] at h₁ h₂
    split_ifs at h₁ h₂ with he₁ he₂ he₂
    · exact he₁.trans he₂.symm
    · cases h₁
      have := h.bound id₂ w₂ h₂
      omega
    · cases h₂
      have := h.bound id₁ w₁ h₁
      omega
    · exact h.unique id₁ id₂ w₁ w₂ h₁ h₂ heq
  · intro id' w' hw'
    simp only [Function.update_apply] at hw'
    split_ifs at hw'
    · cases hw'
      dsimp only
      omega
    · exact (h.bound id' w' hw').trans (Nat.lt_succ_self _)
  · intro fd d hd hmem
    obtain ⟨id', w', hw', hptr'⟩ := (h.attached fd d hd).watched hmem
    have := h.bound id' w' hw'
    omega

omit [DecidableEq Name] in
/-- A watch goes that is attached to nothing. -/
theorem Sound.unregistered [DecidableEq Id] (h : Sound s) (id : Id) {w : Watch Name}
    (hw : s.watches id = some w)
    (hnot : ∀ fd d, s.directories fd = some d → w.ptr ∉ d.scans ++ d.reads) :
    Sound { s with watches := Function.update s.watches id none } where
  tables := ⟨h.tables.alias', h.tables.directory, h.tables.kernel, h.tables.fresh,
    h.tables.listed, h.tables.nodup⟩
  attached := fun fd d hd => (h.attached fd d hd).mono fun id' w' hw' hmem => by
    dsimp only
    rw [Function.update_of_ne, hw']
    rintro rfl
    obtain rfl := Option.some.inj (hw.symm.trans hw')
    exact hnot fd d hd hmem
  unique := by
    intro id₁ id₂ w₁ w₂ h₁ h₂
    simp only [Function.update_apply] at h₁ h₂
    split_ifs at h₁ h₂
    exact h.unique id₁ id₂ w₁ w₂ h₁ h₂
  bound := by
    intro id' w' hw'
    simp only [Function.update_apply] at hw'
    split_ifs at hw'
    exact h.bound id' w' hw'

/-! ## Requests -/

theorem Sound.addScan (h : Sound s) {id : Id} {ptr : ℕ} (hw : s.watches id = some (.scan path ptr))
    (hnew : ∀ fd d, s.directories fd = some d → ptr ∉ d.scans ++ d.reads) :
    Sound (WatchRegistry.attach s path (addScanTo ptr)) := by
  refine (h.attach _ (addScanTo ptr) (fun _ => rfl) (fun d => ?_) ?_).1
  · simp only [Directory.users, addScanTo, List.length_append, List.length_singleton]
    omega
  · intro d hd hsound hin
    have hnot : ptr ∉ d.scans := fun hmem => by
      obtain ⟨fd, hfd⟩ := hin ptr (List.mem_append_left _ hmem)
      exact hnew fd d hfd (List.mem_append_left _ hmem)
    exact
      { scans := by
          intro p hp
          rcases List.mem_append.mp hp with hp | hp
          · exact hsound.scans p hp
          · rw [List.mem_singleton.mp hp]
            exact ⟨id, .inl (hd ▸ hw)⟩
        recursiveScans := fun p hp => ⟨List.mem_append_left _ (hsound.recursiveScans p hp).1,
          (hsound.recursiveScans p hp).2⟩
        reads := hsound.reads
        missingReads := hsound.missingReads
        nodup := ⟨nodup_concat hsound.nodup.1 hnot, hsound.nodup.2⟩ }

theorem Sound.addRead (h : Sound s) {id : Id} {ptr : ℕ} (hw : s.watches id = some (.read path ptr))
    (hnew : ∀ fd d, s.directories fd = some d → ptr ∉ d.scans ++ d.reads) (reportMissing : Bool) :
    Sound (WatchRegistry.attach s path (addReadTo ptr reportMissing)) := by
  refine (h.attach _ (addReadTo ptr reportMissing) (fun _ => rfl) (fun d => ?_) ?_).1
  · simp only [Directory.users, addReadTo, List.length_append, List.length_singleton]
    omega
  · intro d hd hsound hin
    have hnot : ptr ∉ d.reads := fun hmem => by
      obtain ⟨fd, hfd⟩ := hin ptr (List.mem_append_right _ hmem)
      exact hnew fd d hfd (List.mem_append_right _ hmem)
    have hnot' : ptr ∉ d.missingReads := fun hmem => hnot (hsound.missingReads ptr hmem)
    exact
      { scans := hsound.scans
        recursiveScans := hsound.recursiveScans
        reads := by
          intro p hp
          rcases List.mem_append.mp hp with hp | hp
          · exact hsound.reads p hp
          · rw [List.mem_singleton.mp hp]
            exact ⟨id, hd ▸ hw⟩
        missingReads := by
          intro p hp
          simp only [addReadTo] at hp
          split_ifs at hp
          · rcases List.mem_append.mp hp with hp | hp
            · exact List.mem_append_left _ (hsound.missingReads p hp)
            · exact List.mem_append_right _ hp
          · exact List.mem_append_left _ (hsound.missingReads p hp)
        nodup := by
          refine ⟨hsound.nodup.1, hsound.nodup.2.1, nodup_concat hsound.nodup.2.2.1 hnot, ?_⟩
          simp only [addReadTo]
          split_ifs
          · exact nodup_concat hsound.nodup.2.2.2 hnot'
          · exact hsound.nodup.2.2.2 }

/-! ## Removal -/

open UnstableErase

/-- Nothing has the pointer any more. -/
def Detached (ptr : ℕ) (s : State Id Name) : Prop :=
  ∀ fd d, s.directories fd = some d → ptr ∉ d.scans ++ d.reads

omit [DecidableEq Name] in
/-- A read is detached from a directory, also if it is to be told about a missing file. -/
theorem Directory.Sound.removeRead {watches : Id → Option (Watch Name)} {d : Directory Name}
    (hd : d.Sound watches) (ptr : ℕ) : Directory.Sound watches { d with
      reads := swapEraseValue d.reads ptr
      missingReads := swapEraseValue d.missingReads ptr } where
  scans := hd.scans
  recursiveScans := hd.recursiveScans
  reads := fun p hp => hd.reads p ((mem_swapEraseValue hd.nodup.2.2.1 ptr p).mp hp).2
  missingReads := fun p hp => by
    obtain ⟨hne, hp⟩ := (mem_swapEraseValue hd.nodup.2.2.2 ptr p).mp hp
    exact (mem_swapEraseValue hd.nodup.2.2.1 ptr p).mpr ⟨hne, hd.missingReads p hp⟩
  nodup := ⟨hd.nodup.1, hd.nodup.2.1, nodup_swapEraseValue hd.nodup.2.2.1 ptr,
    nodup_swapEraseValue hd.nodup.2.2.2 ptr⟩

omit [DecidableEq Name] in
theorem users_removeRead {d : Directory Name} {ptr : ℕ} (hmem : ptr ∈ d.reads) :
    Directory.users { d with
      reads := swapEraseValue d.reads ptr
      missingReads := swapEraseValue d.missingReads ptr } + 1 = d.users := by
  have hlength := length_swapEraseValue hmem
  simp only [Directory.users]
  omega

theorem Sound.removeRead (h : Sound s) {id : Id} {ptr : ℕ}
    (hw : s.watches id = some (.read path ptr)) :
    Sound (removeWatch s (.read path ptr)) ∧ SameRest s (removeWatch s (.read path ptr)) ∧
      Detached ptr (removeWatch s (.read path ptr)) := by
  have hkind : ∀ fd d, s.directories fd = some d → ptr ∉ d.scans ∧
      (ptr ∈ d.reads → d.filepath = path) := by
    intro fd d hd
    refine ⟨fun hmem => ?_, fun hmem => ?_⟩
    · obtain ⟨id', hid | ⟨root, hid, -⟩⟩ := (h.attached fd d hd).scans ptr hmem
      · cases h.watch_eq hw hid rfl
      · cases h.watch_eq hw hid rfl
    · obtain ⟨id', hid⟩ := (h.attached fd d hd).reads ptr hmem
      cases h.watch_eq hw hid rfl
      rfl
  obtain ⟨hsound, hdetaches⟩ := h.detach path
    (fun d => ptr ∈ d.reads ∨ ptr ∈ d.missingReads)
    (fun d => { d with
      reads := swapEraseValue d.reads ptr
      missingReads := swapEraseValue d.missingReads ptr }) (fun _ => rfl)
    (fun fd d hd hattached => users_removeRead <|
      (of_decide_eq_true hattached).elim (fun hmem => hmem)
        ((h.attached fd d hd).missingReads ptr))
    fun d hd => hd.removeRead ptr
  refine ⟨hsound, hdetaches.rest, fun fd d' hd' hmem => ?_⟩
  rcases hdetaches.cases fd d' hd' with ⟨hd, hnot⟩ | ⟨d, rfl, -, hd⟩
  · rcases List.mem_append.mp hmem with hmem | hmem
    · exact (hkind fd d' hd).1 hmem
    · exact of_decide_eq_false (hnot ((hkind fd d' hd).2 hmem)) (.inl hmem)
  · rcases List.mem_append.mp hmem with hmem | hmem
    · exact (hkind fd d hd).1 hmem
    · exact ((mem_swapEraseValue (h.attached fd d hd).nodup.2.2.1 ptr ptr).mp hmem).1 rfl

omit [DecidableEq Name] in
/-- A scan is detached from a directory, and from its recursive scans if it is one. -/
theorem Directory.Sound.removeScan {watches : Id → Option (Watch Name)} {d : Directory Name}
    (hd : d.Sound watches) {ptr : ℕ} {recursiveScans : List ℕ}
    (hrecursive : ∀ p, p ∈ recursiveScans ↔ p ≠ ptr ∧ p ∈ d.recursiveScans)
    (hnodup : recursiveScans.Nodup) : Directory.Sound watches { d with
      scans := swapEraseValue d.scans ptr
      recursiveScans := recursiveScans } where
  scans := fun p hp => hd.scans p ((mem_swapEraseValue hd.nodup.1 ptr p).mp hp).2
  recursiveScans := fun p hp => by
    obtain ⟨hne, hp⟩ := (hrecursive p).mp hp
    obtain ⟨hmem, hwatch⟩ := hd.recursiveScans p hp
    exact ⟨(mem_swapEraseValue hd.nodup.1 ptr p).mpr ⟨hne, hmem⟩, hwatch⟩
  reads := hd.reads
  missingReads := hd.missingReads
  nodup := ⟨nodup_swapEraseValue hd.nodup.1 ptr, hnodup, hd.nodup.2.2⟩

omit [DecidableEq Name] in
theorem users_removeScan {d : Directory Name} {ptr : ℕ} (hmem : ptr ∈ d.scans)
    (recursiveScans : List ℕ) : Directory.users { d with
      scans := swapEraseValue d.scans ptr
      recursiveScans := recursiveScans } + 1 = d.users := by
  have hlength := length_swapEraseValue hmem
  simp only [Directory.users]
  omega

theorem Sound.removeScan (h : Sound s) {id : Id} {ptr : ℕ}
    (hw : s.watches id = some (.scan path ptr)) :
    Sound (removeWatch s (.scan path ptr)) ∧ SameRest s (removeWatch s (.scan path ptr)) ∧
      Detached ptr (removeWatch s (.scan path ptr)) := by
  have hkind : ∀ fd d, s.directories fd = some d → ptr ∉ d.reads ∧
      (ptr ∈ d.scans → d.filepath = path) := by
    intro fd d hd
    refine ⟨fun hmem => ?_, fun hmem => ?_⟩
    · obtain ⟨id', hid⟩ := (h.attached fd d hd).reads ptr hmem
      cases h.watch_eq hw hid rfl
    · obtain ⟨id', hid | ⟨root, hid, -⟩⟩ := (h.attached fd d hd).scans ptr hmem
      · cases h.watch_eq hw hid rfl
        rfl
      · cases h.watch_eq hw hid rfl
  have hnotRecursive : ∀ {d : Directory Name}, d.Sound s.watches → ∀ {p}, p ∈ d.recursiveScans →
      p ≠ ptr := by
    rintro d hd p hp rfl
    obtain ⟨-, id', root, hid, -⟩ := hd.recursiveScans p hp
    cases h.watch_eq hw hid rfl
  obtain ⟨hsound, hdetaches⟩ := h.detach path
    (fun d => ptr ∈ d.scans)
    (fun d => { d with scans := swapEraseValue d.scans ptr }) (fun _ => rfl)
    (fun fd d _ hattached => users_removeScan (of_decide_eq_true hattached) d.recursiveScans)
    fun d hd => hd.removeScan (fun p => ⟨fun hp => ⟨hnotRecursive hd hp, hp⟩, And.right⟩)
      hd.nodup.2.1
  refine ⟨hsound, hdetaches.rest, fun fd d' hd' hmem => ?_⟩
  rcases hdetaches.cases fd d' hd' with ⟨hd, hnot⟩ | ⟨d, rfl, -, hd⟩
  · rcases List.mem_append.mp hmem with hmem | hmem
    · exact of_decide_eq_false (hnot ((hkind fd d' hd).2 hmem)) hmem
    · exact (hkind fd d' hd).1 hmem
  · rcases List.mem_append.mp hmem with hmem | hmem
    · exact ((mem_swapEraseValue (h.attached fd d hd).nodup.1 ptr ptr).mp hmem).1 rfl
    · exact (hkind fd d hd).1 hmem

/-- The directories of a recursive scan are left one after another. -/
theorem Sound.detachAll (h : Sound s) (ptr : ℕ) (paths : List (Path Name)) :
    let t := paths.foldl (fun s p =>
      WatchRegistry.detach s p (fun d => ptr ∈ d.recursiveScans ∨ ptr ∈ d.scans) fun d =>
        { d with
          scans := swapEraseValue d.scans ptr
          recursiveScans := swapEraseValue d.recursiveScans ptr }) s
    Sound t ∧ SameRest s t ∧ ∀ fd d', t.directories fd = some d' →
      (ptr ∈ d'.scans → d'.filepath ∉ paths) ∧
        ∃ fd' d, s.directories fd' = some d ∧ d.filepath = d'.filepath ∧ d'.reads = d.reads ∧
          (ptr ∈ d'.scans → ptr ∈ d.scans) := by
  induction paths generalizing s with
  | nil =>
    exact ⟨h, ⟨rfl, rfl, rfl, rfl⟩, fun fd d hd =>
      ⟨fun _ => List.not_mem_nil, fd, d, hd, rfl, rfl, id⟩⟩
  | cons path paths ih =>
    obtain ⟨hsound, hdetaches⟩ := h.detach path
      (fun d => ptr ∈ d.recursiveScans ∨ ptr ∈ d.scans)
      (fun d => { d with
        scans := swapEraseValue d.scans ptr
        recursiveScans := swapEraseValue d.recursiveScans ptr }) (fun _ => rfl) (by
        intro fd d hd hattached
        exact users_removeScan ((of_decide_eq_true hattached).elim
          (fun hmem => ((h.attached fd d hd).recursiveScans ptr hmem).1) id) _)
      (fun d hd => hd.removeScan (mem_swapEraseValue hd.nodup.2.1 ptr)
        (nodup_swapEraseValue hd.nodup.2.1 ptr))
    obtain ⟨hsound', hrest, hcases⟩ := ih hsound
    refine ⟨hsound', hdetaches.rest.trans hrest, fun fd d' hd' => ?_⟩
    obtain ⟨hnot, fd₁, d₁, hd₁, hfilepath, hreads, hscans⟩ := hcases fd d' hd'
    rcases hdetaches.cases fd₁ d₁ hd₁ with ⟨hd, hnot'⟩ | ⟨d, rfl, hd, hin⟩
    · refine ⟨fun hmem hmem' => ?_, fd₁, d₁, hd, hfilepath, hreads, hscans⟩
      rcases List.mem_cons.mp hmem' with heq | hmem'
      · exact of_decide_eq_false (hnot' (hfilepath.trans heq)) (.inr (hscans hmem))
      · exact hnot hmem hmem'
    · have hgone : ptr ∉ swapEraseValue d.scans ptr := fun hmem =>
        ((mem_swapEraseValue (h.attached fd₁ d hin).nodup.1 ptr ptr).mp hmem).1 rfl
      exact ⟨fun hmem => absurd (hscans hmem) hgone, fd₁, d, hin, hfilepath, hreads,
        fun hmem => absurd (hscans hmem) hgone⟩

theorem Sound.removeScanRecursive (h : Sound s) {id : Id} {ptr : ℕ}
    (hw : s.watches id = some (.scanRecursive path ptr)) :
    Sound (removeWatch s (.scanRecursive path ptr)) ∧
      SameRest s (removeWatch s (.scanRecursive path ptr)) ∧
      Detached ptr (removeWatch s (.scanRecursive path ptr)) := by
  obtain ⟨hsound, hrest, hcases⟩ := h.detachAll ptr (below s.existing path)
  refine ⟨hsound, hrest, fun fd d' hd' hmem => ?_⟩
  obtain ⟨hnot, fd', d, hd, hfilepath, hreads, hscans⟩ := hcases fd d' hd'
  rcases List.mem_append.mp hmem with hmem | hmem
  · -- The directory exists below the path, so that it has been left.
    refine hnot hmem ?_
    obtain ⟨a, ha, -⟩ := h.tables.directory fd' d hd
    have hexisting := h.tables.listed d.filepath a ha
    rw [← hfilepath]
    refine List.mem_filter.mpr ⟨hexisting, decide_eq_true ?_⟩
    obtain ⟨id', hid | ⟨root, hid, hroot⟩⟩ := (h.attached fd' d hd).scans ptr (hscans hmem)
    · cases h.watch_eq hw hid rfl
    · cases h.watch_eq hw hid rfl
      exact hroot
  · rw [hreads] at hmem
    obtain ⟨id', hid⟩ := (h.attached fd' d hd).reads ptr hmem
    cases h.watch_eq hw hid rfl

/-! ## Steps -/

section Step

/-- No recursive scan is attached already where a directory is announced. -/
def Unlisted (s : State Id Name) : Action Id Name → Prop
  | .notify _ => ∀ event ∈ s.events.head?, ∀ d ∈ s.directories event.1, ∀ ptr ∈ d.recursiveScans,
    ∀ p ∈ below s.existing (d.filepath ++ [event.2]), ∀ e ∈ getDirectory s p, ptr ∉ e.2.scans
  | _ => True

instance (s : State Id Name) : ∀ action : Action Id Name, Decidable (Unlisted s action)
  | .notify _ => inferInstanceAs (Decidable (∀ event ∈ s.events.head?,
    ∀ d ∈ s.directories event.1, ∀ ptr ∈ d.recursiveScans,
    ∀ p ∈ below s.existing (d.filepath ++ [event.2]), ∀ e ∈ getDirectory s p, ptr ∉ e.2.scans))
  | .addRead _ _ _ => .isTrue trivial
  | .addScan _ _ => .isTrue trivial
  | .addScanRecursive _ _ _ => .isTrue trivial
  | .remove _ => .isTrue trivial
  | .mkdir _ _ => .isTrue trivial

/-- Recursive scans are added below a path one after another. -/
theorem Sound.addRecursiveScans (h : Sound s) {ptrs : List ℕ} (hnodup : ptrs.Nodup)
    (hwatch : ∀ ptr ∈ ptrs, ∃ id root, s.watches id = some (.scanRecursive root ptr) ∧
      root <+: path)
    (hnew : ∀ ptr ∈ ptrs, ∀ fd d, s.directories fd = some d → path <+: d.filepath →
      ptr ∉ d.scans) (created : ℕ → List (Path Name × Name)) :
    Sound (ptrs.foldl (fun s ptr => WatchRegistry.addRecursiveScan s path ptr (created ptr)) s) := by
  induction ptrs generalizing s with
  | nil => exact h
  | cons ptr ptrs ih =>
    obtain ⟨hptr, hnodup⟩ := List.nodup_cons.mp hnodup
    obtain ⟨id, root, hid, hroot⟩ := hwatch ptr List.mem_cons_self
    obtain ⟨hsound, hwatches, honly⟩ := h.addRecursiveScan hid hroot
      (hnew ptr List.mem_cons_self) (created ptr)
    refine ih hsound hnodup (fun ptr' hptr' => ?_) fun ptr' hptr' fd d' hd' hpath hmem => ?_
    · rw [hwatches]
      exact hwatch ptr' (List.mem_cons_of_mem ptr hptr')
    · obtain ⟨fd', d, hd, hfilepath, hmem⟩ :=
        honly fd d' hd' ptr' hmem (ne_of_mem_of_not_mem hptr' hptr)
      exact hnew ptr' (List.mem_cons_of_mem ptr hptr') fd' d hd (hfilepath ▸ hpath) hmem

theorem Sound.notify [DecidableEq Id] (h : Sound s) {created : ℕ → List (Path Name × Name)}
    (hunlisted : Unlisted s (.notify created : Action Id Name)) :
    Sound (step s (.notify created)) := by
  have hevents : ∀ events, Sound { s with events := events } := fun events =>
    h.existing (fun _ hp => hp) h.tables.nodup events
  rw [step]
  cases hevent : s.events with
  | nil => exact h
  | cons event events =>
    obtain ⟨fd, name⟩ := event
    have hunlisted := hunlisted (fd, name) (by rw [hevent]; rfl)
    dsimp only
    cases hd : s.directories fd with
    | none => exact hevents events
    | some d =>
      have hsound := h.attached fd d hd
      refine (hevents events).addRecursiveScans hsound.nodup.2.1 (fun ptr hptr => ?_)
        (fun ptr hptr fd' d' hd' hpath hmem => ?_) created
      · obtain ⟨-, id, root, hid, hroot⟩ := hsound.recursiveScans ptr hptr
        exact ⟨id, root, hid, hroot.trans (List.prefix_append _ _)⟩
      · obtain ⟨a, ha, hfd⟩ := h.tables.directory fd' d' hd'
        have hget : getDirectory s d'.filepath = some (fd', d') := by
          rw [getDirectory, ha]
          dsimp only
          rw [hfd, hd']
          rfl
        exact hunlisted d hd ptr hptr d'.filepath (List.mem_filter.mpr
          ⟨h.tables.listed d'.filepath a ha, decide_eq_true hpath⟩) (fd', d') hget hmem

variable [DecidableEq Id]

theorem Sound.remove (h : Sound s) (id : Id) : Sound (step s (.remove id)) := by
  rw [step]
  cases hw : s.watches id with
  | none => exact h
  | some w =>
    have hremove : Sound (removeWatch s w) ∧ SameRest s (removeWatch s w) ∧
        Detached w.ptr (removeWatch s w) := by
      cases w with
      | read path ptr => exact h.removeRead hw
      | scan path ptr => exact h.removeScan hw
      | scanRecursive path ptr => exact h.removeScanRecursive hw
    obtain ⟨hsound, hrest, hdetached⟩ := hremove
    have hwatches := hrest.1
    have hgone := hsound.unregistered id (w := w) (by rw [hwatches, hw]) hdetached
    rwa [hwatches] at hgone

theorem Sound.step (h : Sound s) {action : Action Id Name} (hunlisted : Unlisted s action) :
    Sound (step s action) := by
  cases action with
  | addRead id dirpath reportMissing =>
    rw [WatchRegistry.step, register]
    cases hnone : s.watches id with
    | some w => exact h
    | none =>
      obtain ⟨hsound, hnew⟩ := h.registered hnone (w := .read dirpath s.nextPtr) rfl
      exact hsound.addRead (Function.update_self _ _ _) hnew reportMissing
  | addScan id dirpath =>
    rw [WatchRegistry.step, register]
    cases hnone : s.watches id with
    | some w => exact h
    | none =>
      obtain ⟨hsound, hnew⟩ := h.registered hnone (w := .scan dirpath s.nextPtr) rfl
      exact hsound.addScan (Function.update_self _ _ _) hnew
  | addScanRecursive id dirpath created =>
    rw [WatchRegistry.step, register]
    cases hnone : s.watches id with
    | some w => exact h
    | none =>
      obtain ⟨hsound, hnew⟩ := h.registered hnone (w := .scanRecursive dirpath s.nextPtr) rfl
      exact (hsound.addRecursiveScan (Function.update_self _ _ _) (List.prefix_refl dirpath)
        (fun fd d hd _ hmem => hnew fd d hd (List.mem_append_left _ hmem)) created).1
  | remove id => exact h.remove id
  | mkdir parent name =>
    obtain ⟨hsub, hnodup⟩ := create_spec h.tables.nodup [(parent, name)]
    exact (h.existing hsub hnodup s.events).announce _
  | notify created => exact h.notify hunlisted

end Step

end Attach

/-- The steps as those of a transition system. -/
def transition [DecidableEq Id] [DecidableEq Name] (s : State Id Name) (action : Action Id Name) :
    Except Empty (State Id Name) :=
  .ok (step s action)

end Fimbulwinter.WatchRegistry
