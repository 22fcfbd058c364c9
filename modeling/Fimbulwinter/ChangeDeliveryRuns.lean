import Fimbulwinter.ChangeDelivery

/-! # Batches of changes

While the directories with changes stay in place, the changes that are collected for pointers
are those that are collected for the directories themselves. -/
namespace Fimbulwinter.ChangeDelivery

variable {Path Name : Type*} [DecidableEq Path]

section Tables

variable {t : Tables Path} {fd fd' : ℕ} {d d' : Directory Path}

omit [DecidableEq Path] in
theorem Tables.array_eq (t : Tables Path) :
    t.directories.array (fun _ => ()) () = t.directories.rows := by
  simp [DenseTable.array]

omit [DecidableEq Path] in
theorem Tables.address_inj (h : t.directories.find fd = some d)
    (h' : t.directories.find fd' = some d') (heq : t.address fd = t.address fd') : fd = fd' :=
  DenseTable.position_inj (fun _ => ()) h h' rfl (Prod.mk.inj heq).2

omit [DecidableEq Path] in
theorem Tables.deref_address (h : t.directories.find fd = some d) :
    t.deref (t.address fd) = some d := by
  have hget := DenseTable.getElem?_position (fun _ => ()) h
  simp only [Tables.deref, Tables.address, if_true, hget, Option.map_some]

/-- What is attached to a directory that is known changes the directory, and else a directory is
made with a new descriptor. -/
theorem Tables.attach_cases (t : Tables Path) (path : Path) (scan : ℕ) (watched : Bool) :
    t.attach path scan watched = t ∨
    (∃ a d, t.aliases path = some a ∧ t.directories.find a.directory = some d ∧
      t.attach path scan watched = { t with
        directories := t.directories.modify a.directory (addScan scan)
        aliases := Function.update t.aliases path (some { a with useCount := a.useCount + 1 }) }) ∨
    ∃ directories, t.aliases path = none ∧ watched = true ∧
      t.directories.emplace t.nextWatch (addScan scan ⟨path, [], []⟩) = some directories ∧
      t.attach path scan watched =
        { directories := directories
          capacity := if t.directories.rows.length < t.capacity then t.capacity
            else clp2 (t.directories.rows.length + 1)
          block := if t.directories.rows.length < t.capacity then t.block else t.block + 1
          aliases := Function.update t.aliases path (some ⟨t.nextWatch, 1⟩)
          nextWatch := t.nextWatch + 1 } := by
  unfold Tables.attach
  cases halias : t.aliases path with
  | some a =>
    cases hd : t.directories.find a.directory with
    | none => exact .inl (by simp [hd])
    | some d => exact .inr (.inl ⟨a, d, rfl, hd, by simp [hd]⟩)
  | none =>
    cases watched with
    | false => exact .inl rfl
    | true =>
      cases he : t.directories.emplace t.nextWatch (addScan scan ⟨path, [], []⟩) with
      | none => exact .inl (by simp)
      | some directories => exact .inr (.inr ⟨directories, rfl, rfl, rfl, by simp⟩)

/-- A directory goes with the last use of it. -/
theorem Tables.decrement_cases (h : Consistent t) (hd : t.directories.find fd = some d) :
    (∃ a, t.aliases d.filepath = some a ∧ a.directory = fd ∧ a.useCount ≤ 1 ∧
      t.decrement d.filepath = { t with
        directories := t.directories.erase (fun _ => ()) fd
        aliases := Function.update t.aliases d.filepath none }) ∨
    ∃ a, t.aliases d.filepath = some a ∧ a.directory = fd ∧
      t.decrement d.filepath = { t with
        aliases :=
          Function.update t.aliases d.filepath (some { a with useCount := a.useCount - 1 }) } := by
  obtain ⟨a, halias, rfl⟩ := Option.map_eq_some_iff.mp ((h d.filepath fd).mpr (by rw [hd]; rfl))
  unfold Tables.decrement
  by_cases hcount : a.useCount - 1 ≤ 0
  · exact .inl ⟨a, halias, rfl, by omega, by simp [halias, hcount]⟩
  · exact .inr ⟨a, halias, rfl, by simp [halias, hcount]⟩

omit [DecidableEq Path] in
theorem find_addScan (directories : DenseTable ℕ (Directory Path)) (k scan fd : ℕ) :
    ((directories.modify k (addScan scan)).find fd).map Directory.filepath =
      (directories.find fd).map Directory.filepath := by
  rw [DenseTable.find_modify]
  split
  next heq =>
    rw [heq, Option.map_map]
    rfl
  next => rfl

/-- Counting uses does not change which directory an alias is about. -/
theorem map_directory_update {aliases : Path → Option Alias} {path : Path} {a : Alias}
    (h : aliases path = some a) (n : ℤ) (p : Path) :
    (Function.update aliases path (some { a with useCount := n }) p).map Alias.directory =
      (aliases p).map Alias.directory := by
  by_cases hp : p = path
  · subst hp
    simp [h]
  · rw [Function.update_of_ne hp]

omit [DecidableEq Path] in
theorem consistent_initial : Consistent (Tables.initial : Tables Path) := by
  intro path fd
  simp [Tables.initial]

theorem Consistent.attach (h : Consistent t) (path : Path) (scan : ℕ) (watched : Bool) :
    Consistent (t.attach path scan watched) := by
  intro p fd
  obtain heq | ⟨a, d, halias, -, heq⟩ | ⟨directories, hnone, -, he, heq⟩ :=
    t.attach_cases path scan watched
  · rw [heq]
    exact h p fd
  · rw [heq]
    dsimp only
    rw [map_directory_update halias, find_addScan]
    exact h p fd
  · rw [heq]
    dsimp only
    have hnew := DenseTable.find_of_emplace he
    have hold := h p fd
    rw [DenseTable.find_emplace he]
    by_cases hp : p = path
    · subst hp
      rw [Function.update_self]
      split
      next hfd => simp [hfd, addScan]
      next hfd =>
        rw [← hold, hnone]
        simp [Ne.symm hfd]
    · rw [Function.update_of_ne hp]
      split
      next hfd =>
        rw [hold, hfd, hnew]
        simp [addScan, Ne.symm hp]
      next => exact hold

theorem Consistent.decrement (h : Consistent t) (hd : t.directories.find fd = some d) :
    Consistent (t.decrement d.filepath) := by
  intro p fd'
  obtain ⟨a, halias, rfl, -, heq⟩ | ⟨a, halias, rfl, heq⟩ := Tables.decrement_cases h hd
  · rw [heq]
    dsimp only
    have hold := h p fd'
    rw [DenseTable.find_erase]
    by_cases hp : p = d.filepath
    · subst hp
      rw [Function.update_self]
      split
      next => simp
      next hfd =>
        rw [← hold, halias]
        simp [Ne.symm hfd]
    · rw [Function.update_of_ne hp]
      split
      next hfd =>
        rw [hold, hfd, hd]
        simp [Ne.symm hp]
      next => exact hold
  · rw [heq]
    dsimp only
    rw [map_directory_update halias]
    exact h p fd'

end Tables

section Changed

variable {address : ℕ → Pointer} {pending : ℕ → List (Change Name)} {K : List ℕ} {fd : ℕ}

/-- What is collected when the directories `K` have changes. -/
def entries (address : ℕ → Pointer) (pending : ℕ → List (Change Name)) (K : List ℕ) :
    List (Pointer × List (Change Name)) :=
  K.map fun k => (address k, pending k)

@[simp] theorem entries_cons (k : ℕ) :
    entries address pending (k :: K) = (address k, pending k) :: entries address pending K := rfl

theorem entries_congr {address' : ℕ → Pointer} {pending' : ℕ → List (Change Name)}
    (haddress : ∀ k ∈ K, address' k = address k) (hpending : ∀ k ∈ K, pending' k = pending k) :
    entries address' pending' K = entries address pending K :=
  List.map_congr_left fun k hk => by rw [haddress k hk, hpending k hk]

theorem addChange_entries (hnodup : K.Nodup) (hpending : fd ∉ K → pending fd = [])
    (hinj : ∀ k ∈ K, address k = address fd → k = fd) (c : Change Name) :
    addChange (address fd) c (entries address pending K) =
      entries address (Function.update pending fd (pending fd ++ [c]))
        (if fd ∈ K then K else K ++ [fd]) := by
  induction K with
  | nil => simp [entries, addChange, hpending]
  | cons k K ih =>
    obtain ⟨hk, hnodup⟩ := List.nodup_cons.mp hnodup
    have hrest : ∀ k' ∈ K, address k' = address fd → k' = fd := fun k' h =>
      hinj k' (List.mem_cons_of_mem k h)
    by_cases heq : k = fd
    · subst heq
      rw [if_pos List.mem_cons_self]
      have hsame : entries address (Function.update pending k (pending k ++ [c])) K =
          entries address pending K :=
        entries_congr (fun _ _ => rfl) fun k' h =>
          Function.update_of_ne (ne_of_mem_of_not_mem h hk) _ _
      rw [entries_cons, addChange, if_pos rfl, entries_cons, hsame, Function.update_self]
    · have hne : address k ≠ address fd := fun he => heq (hinj k List.mem_cons_self he)
      have hmem : fd ∈ k :: K ↔ fd ∈ K := by simp [Ne.symm heq]
      have hrec := ih hnodup (fun h => hpending (by rwa [hmem])) hrest
      rw [entries_cons, addChange, if_neg hne, hrec]
      by_cases hfd : fd ∈ K
      · simp [hfd, entries, heq]
      · simp [hfd, entries, heq, Ne.symm heq]

theorem find?_entries (hinj : ∀ k ∈ K, address k = address fd → k = fd) :
    (entries address pending K).find? (fun c => c.1 = address fd) =
      if fd ∈ K then some (address fd, pending fd) else none := by
  induction K with
  | nil => rfl
  | cons k K ih =>
    have hrest := ih fun k' h => hinj k' (List.mem_cons_of_mem k h)
    rw [entries_cons]
    by_cases heq : k = fd
    · subst heq
      simp
    · have hne : address k ≠ address fd := fun he => heq (hinj k List.mem_cons_self he)
      rw [List.find?_cons_of_neg (by simpa using hne), hrest]
      simp [Ne.symm heq]

theorem eraseChange_entries (hinj : ∀ k ∈ K, address k = address fd → k = fd) :
    eraseChange (entries address pending K) (address fd) =
      entries address pending (UnstableErase.swapEraseValue K fd) := by
  have hidx : (entries address pending K).findIdx (fun c => c.1 = address fd) = K.idxOf fd := by
    rw [entries, List.findIdx_map, List.idxOf]
    induction K with
    | nil => rfl
    | cons k K ih =>
      have hrest := ih fun k' h => hinj k' (List.mem_cons_of_mem k h)
      have hk : address k = address fd ↔ k = fd :=
        ⟨hinj k List.mem_cons_self, fun h => by rw [h]⟩
      simp only [List.findIdx_cons, Function.comp_apply, hk, hrest, beq_eq_decide]
  rw [eraseChange, hidx, entries, UnstableErase.swapErase_map]
  rfl

end Changed

section Step

variable {s : State Path Name} {r : Delivery Path Name}

/-- The changes are those of the directories that have any. -/
structure Related (s : State Path Name) (r : Delivery Path Name) (K : List ℕ) : Prop where
  tables : s.tables = r.tables
  posted : s.posted = r.posted
  nodup : K.Nodup
  pending : ∀ fd, fd ∈ K ↔ r.pending fd ≠ []
  found : ∀ fd ∈ K, ∃ d, s.tables.directories.find fd = some d
  changed : s.changed = entries s.tables.address r.pending K

omit [DecidableEq Path] in
theorem Related.address_inj {K : List ℕ} (h : Related s r K) {fd : ℕ} {d : Directory Path}
    (hd : s.tables.directories.find fd = some d) :
    ∀ k ∈ K, s.tables.address k = s.tables.address fd → k = fd := fun k hk heq =>
  Tables.address_inj (h.found k hk).choose_spec hd heq

theorem Related.change {K : List ℕ} (h : Related s r K) (fd : ℕ) (c : Change Name) :
    ∃ K, Related (step s (.change fd c)) (deliver r (.change fd c)) K := by
  have htables := h.tables
  cases hd : s.tables.directories.find fd with
  | none =>
    refine ⟨K, ?_⟩
    simp only [step, deliver, ← htables, hd]
    exact h
  | some d =>
    have hnew := addChange_entries h.nodup (fun hfd => by simpa [h.pending] using hfd)
      (h.address_inj hd) c
    rw [← h.changed] at hnew
    refine ⟨if fd ∈ K then K else K ++ [fd], ?_⟩
    simp only [step, deliver, ← htables, hd, hnew]
    constructor
    · rfl
    · exact h.posted
    · split
      next => exact h.nodup
      next hfd => exact h.nodup.append (List.nodup_singleton fd) (by simpa using hfd)
    · intro k
      dsimp only
      by_cases hk : k = fd
      · subst hk
        by_cases hmem : k ∈ K <;> simp [hmem]
      · rw [Function.update_of_ne hk, ← h.pending]
        by_cases hmem : fd ∈ K <;> simp [hmem, hk]
    · intro k hk
      by_cases heq : k = fd
      · exact ⟨d, heq ▸ hd⟩
      · refine h.found k ?_
        by_cases hmem : fd ∈ K
        · simpa [hmem] using hk
        · simpa [hmem, heq] using hk
    · rfl

omit [DecidableEq Path] in
/-- The tables change, and the directories with changes stay where they are. -/
theorem Related.tables_step {K : List ℕ} (h : Related s r K) (t : Tables Path)
    (haddress : ∀ k ∈ K, ∀ d, s.tables.directories.find k = some d →
      t.address k = s.tables.address k ∧ ∃ d', t.directories.find k = some d') :
    Related { s with tables := t } { r with tables := t } K where
  tables := rfl
  posted := h.posted
  nodup := h.nodup
  pending := h.pending
  found k hk := by
    obtain ⟨d, hd⟩ := h.found k hk
    exact (haddress k hk d hd).2
  changed := by
    rw [h.changed]
    refine (entries_congr (fun k hk => ?_) fun _ _ => rfl).symm
    obtain ⟨d, hd⟩ := h.found k hk
    exact (haddress k hk d hd).1

theorem Related.attach {K : List ℕ} (h : Related s r K) {path : Path} {scan : ℕ} {watched : Bool}
    (hstable : Stable s (.attach path scan watched)) :
    Related (step s (.attach path scan watched)) (deliver r (.attach path scan watched)) K := by
  simp only [step, deliver, ← h.tables]
  refine h.tables_step _ fun k hk d hd => ?_
  obtain heq | ⟨a, e, -, he, heq⟩ | ⟨directories, hnone, hwatched, he, heq⟩ :=
    s.tables.attach_cases path scan watched
  · rw [heq]
    exact ⟨rfl, d, hd⟩
  · rw [heq]
    refine ⟨?_, ?_⟩
    · simp only [Tables.address]
      rw [DenseTable.position_modify (fun _ => ()) _ _ fun _ => rfl]
    · dsimp only
      rw [DenseTable.find_modify]
      split
      · exact ⟨_, by rw [he, Option.map_some]⟩
      · exact ⟨d, hd⟩
  · have hne : s.changed ≠ [] := by
      rw [h.changed]
      exact List.ne_nil_of_mem (List.mem_map_of_mem hk)
    have hfits := hstable hnone hwatched hne
    rw [heq]
    refine ⟨?_, ?_⟩
    · simp only [Tables.address, hfits, if_true]
      rw [DenseTable.position_emplace (fun _ => ()) he hd]
    · dsimp only
      rw [DenseTable.find_emplace he]
      split
      · exact ⟨_, rfl⟩
      · exact ⟨d, hd⟩

omit [DecidableEq Path] in
theorem Related.not_last {K : List ℕ} (h : Related s r K) {fd : ℕ} {d : Directory Path}
    (hd : s.tables.directories.find fd = some d)
    (hlast : s.tables.directories.position (fun _ => ()) () fd + 1 =
        s.tables.directories.rows.length ∨
      ∀ c ∈ s.changed, c.1 ≠ (s.tables.block, s.tables.directories.rows.length - 1))
    {k : ℕ} (hk : k ∈ K) (hne : k ≠ fd) :
    s.tables.directories.position (fun _ => ()) () k + 1 ≠ s.tables.directories.rows.length := by
  intro heq
  obtain hfd | hfree := hlast
  · have haddress : s.tables.address k = s.tables.address fd := by
      simp only [Tables.address, Prod.mk.injEq, true_and]
      omega
    exact hne (h.address_inj hd k hk haddress)
  · have hmem : (s.tables.address k, r.pending k) ∈ s.changed := by
      rw [h.changed]
      exact List.mem_map_of_mem hk
    refine hfree _ hmem ?_
    simp only [Tables.address, Prod.mk.injEq, true_and]
    omega

theorem Related.decrement {K : List ℕ} (h : Related s r K) (hconsistent : Consistent s.tables)
    {fd : ℕ} {d : Directory Path} (hd : s.tables.directories.find fd = some d) (hfd : fd ∉ K)
    (hlast : ∀ a ∈ s.tables.aliases d.filepath, a.useCount ≤ 1 → ∀ k ∈ K,
      s.tables.directories.position (fun _ => ()) () k + 1 ≠ s.tables.directories.rows.length) :
    Related { s with tables := s.tables.decrement d.filepath }
      { r with tables := s.tables.decrement d.filepath } K := by
  refine h.tables_step _ fun k hk e he => ?_
  have hne : k ≠ fd := ne_of_mem_of_not_mem hk hfd
  obtain ⟨a, halias, -, hcount, heq⟩ | ⟨a, -, -, heq⟩ := Tables.decrement_cases hconsistent hd
  · rw [heq]
    refine ⟨?_, e, ?_⟩
    · simp only [Tables.address]
      rw [DenseTable.position_erase (fun _ => ()) hd he rfl hne]
      rw [Tables.array_eq]
      exact hlast a halias hcount k hk
    · dsimp only
      rw [DenseTable.find_erase, if_neg hne, he]
  · rw [heq]
    exact ⟨rfl, e, he⟩

theorem Related.deleteSelf {K : List ℕ} (h : Related s r K) (hconsistent : Consistent s.tables)
    {fd : ℕ} (hstable : Stable s (.deleteSelf fd)) :
    ∃ K, Related (step s (.deleteSelf fd)) (deliver r (.deleteSelf fd)) K := by
  have htables := h.tables
  cases hd : s.tables.directories.find fd with
  | none =>
    refine ⟨K, ?_⟩
    simp only [step, deliver, ← htables, hd]
    exact h
  | some d =>
    have hmem := UnstableErase.mem_swapEraseValue h.nodup fd
    -- The changes of the directory are taken out first, and then the directory goes.
    have hout : Related
        { s with
          changed := entries s.tables.address (Function.update r.pending fd [])
            (UnstableErase.swapEraseValue K fd)
          posted := s.posted ++ delivered d (r.pending fd) }
        { r with
          pending := Function.update r.pending fd []
          posted := r.posted ++ delivered d (r.pending fd) }
        (UnstableErase.swapEraseValue K fd) := by
      constructor
      · exact htables
      · dsimp only
        rw [h.posted]
      · exact UnstableErase.nodup_swapEraseValue h.nodup fd
      · intro k
        dsimp only
        rw [hmem]
        by_cases hk : k = fd
        · simp [hk]
        · rw [Function.update_of_ne hk, ← h.pending, and_iff_right hk]
      · exact fun k hk => h.found k ((hmem k).mp hk).2
      · rfl
    have hlast := hout.decrement hconsistent hd (fun hfd => ((hmem fd).mp hfd).1 rfl)
      fun a ha hcount k hk => h.not_last hd (hstable d hd a ha hcount) ((hmem k).mp hk).2
        ((hmem k).mp hk).1
    refine ⟨UnstableErase.swapEraseValue K fd, ?_⟩
    have hfind : s.changed.find? (fun c => c.1 = s.tables.address fd) =
        if fd ∈ K then some (s.tables.address fd, r.pending fd) else none := by
      rw [h.changed]
      exact find?_entries (h.address_inj hd)
    have herase : eraseChange s.changed (s.tables.address fd) =
        entries s.tables.address r.pending (UnstableErase.swapEraseValue K fd) := by
      rw [h.changed]
      exact eraseChange_entries (h.address_inj hd)
    have hsame : entries s.tables.address (Function.update r.pending fd [])
        (UnstableErase.swapEraseValue K fd) =
          entries s.tables.address r.pending (UnstableErase.swapEraseValue K fd) :=
      entries_congr (fun _ _ => rfl) fun k hk => Function.update_of_ne ((hmem k).mp hk).1 _ _
    rw [hsame] at hlast
    by_cases hfd : fd ∈ K
    · have hsome : delivered d (r.pending fd) = works d (r.pending fd) := by
        simp [delivered, (h.pending fd).mp hfd]
      rw [hsome] at hlast
      simp only [step, deliver, ← htables, hd, hfind, hfd, if_true, herase, hsome]
      exact hlast
    · have hnil : r.pending fd = [] := by simpa [h.pending] using hfd
      have hnone : delivered d (r.pending fd) = ([] : List (Work Path Name)) := by
        simp [delivered, hnil]
      rw [UnstableErase.swapEraseValue_of_not_mem hfd] at hlast ⊢
      rw [← h.changed, hnone] at hlast
      simp only [step, deliver, ← htables, hd, hfind, hfd, if_false, hnone, List.append_nil]
      simpa using hlast

theorem Related.step {K : List ℕ} (h : Related s r K) (hconsistent : Consistent s.tables)
    {st : Step Path Name} (hstable : Stable s st) :
    (∃ K, Related (step s st) (deliver r st) K) ∧ Consistent (step s st).tables := by
  cases st with
  | change fd c =>
    refine ⟨h.change fd c, ?_⟩
    simp only [ChangeDelivery.step]
    split <;> exact hconsistent
  | attach path scan watched =>
    exact ⟨⟨K, h.attach hstable⟩, hconsistent.attach path scan watched⟩
  | deleteSelf fd =>
    refine ⟨h.deleteSelf hconsistent hstable, ?_⟩
    simp only [ChangeDelivery.step]
    cases hd : s.tables.directories.find fd with
    | none => exact hconsistent
    | some d =>
      dsimp only
      split <;> exact hconsistent.decrement hd

/-- Steps that leave the directories with changes in place. -/
abbrev StableAll (s : State Path Name) (sts : List (Step Path Name)) : Prop :=
  MeetsAll (fun s st => (.ok (step s st) : Except Empty (State Path Name))) Stable s sts

theorem stableAll_append {sts sts' : List (Step Path Name)} :
    StableAll s (sts ++ sts') ↔ StableAll s sts ∧ StableAll (sts.foldl ChangeDelivery.step s) sts' := by
  induction sts generalizing s with
  | nil => simp [StableAll, MeetsAll]
  | cons st sts ih =>
    simp only [StableAll, List.cons_append, List.foldl_cons] at ih ⊢
    rw [meetsAll_cons_ok rfl, meetsAll_cons_ok rfl, ih, and_assoc]

theorem Related.steps {K : List ℕ} (h : Related s r K) (hconsistent : Consistent s.tables)
    {sts : List (Step Path Name)} (hstable : StableAll s sts) :
    (∃ K, Related (sts.foldl ChangeDelivery.step s) (sts.foldl deliver r) K) ∧
      Consistent (sts.foldl ChangeDelivery.step s).tables := by
  induction sts generalizing s r K with
  | nil => exact ⟨⟨K, h⟩, hconsistent⟩
  | cons st sts ih =>
    obtain ⟨hst, hrest⟩ := hstable
    obtain ⟨⟨K', h'⟩, hconsistent'⟩ := h.step hconsistent hst
    exact ih h' hconsistent' (hrest _ rfl)

/-- The steps of a batch are the same for both, and so is what they lead to. -/
theorem Related.expand {K : List ℕ} (h : Related s r K) (hconsistent : Consistent s.tables)
    {events : List (Event Path Name)} (hstable : StableAll s (expand s events)) :
    expandDelivery r events = ChangeDelivery.expand s events ∧
      ∃ K, Related ((ChangeDelivery.expand s events).foldl ChangeDelivery.step s)
        ((ChangeDelivery.expand s events).foldl deliver r) K := by
  induction events generalizing s r K with
  | nil => exact ⟨rfl, K, h⟩
  | cons event events ih =>
    obtain ⟨hfirst, hrest⟩ := stableAll_append.mp hstable
    obtain ⟨⟨K', h'⟩, hconsistent'⟩ := h.steps hconsistent hfirst
    obtain ⟨heq, hlast⟩ := ih h' hconsistent' hrest
    simp only [expandDelivery, ChangeDelivery.expand, List.foldl_append, ← h.tables, heq]
    exact ⟨trivial, hlast⟩

end Step

section Flush

variable {t : Tables Path} {pending : ℕ → List (Change Name)} {K : List ℕ}

/-- The works for the changes of a directory that is given by its descriptor. -/
def worksOf (t : Tables Path) (pending : ℕ → List (Change Name)) (fd : ℕ) :
    List (Work Path Name) :=
  match t.directories.find fd with
  | none => []
  | some d => works d (pending fd)

omit [DecidableEq Path] in
theorem flush_entries (hfound : ∀ fd ∈ K, ∃ d, t.directories.find fd = some d) :
    flush t (entries t.address pending K) = .ok (K.flatMap (worksOf t pending)) := by
  induction K with
  | nil => rfl
  | cons k K ih =>
    obtain ⟨d, hd⟩ := hfound k List.mem_cons_self
    have hrest := ih fun fd hfd => hfound fd (List.mem_cons_of_mem k hfd)
    have hk : worksOf t pending k = works d (pending k) := by simp only [worksOf, hd]
    rw [entries_cons, flush, Tables.deref_address hd, hrest, List.flatMap_cons, hk]

omit [DecidableEq Path] in
/-- The directories with changes, one after another, are the rows with changes. -/
theorem flatMap_worksOf_perm (hnodup : K.Nodup) (hpending : ∀ fd, fd ∈ K ↔ pending fd ≠ [])
    (hfound : ∀ fd ∈ K, ∃ d, t.directories.find fd = some d) :
    (K.flatMap (worksOf t pending)).Perm
      (t.directories.rows.flatMap fun r => delivered r.2 (pending r.1)) := by
  have hkeys : K.Perm ((t.directories.rows.map Prod.fst).filter fun fd => fd ∈ K) := by
    refine (List.perm_ext_iff_of_nodup hnodup (t.directories.nodup.filter _)).mpr fun fd => ?_
    rw [List.mem_filter, decide_eq_true_iff]
    refine ⟨fun hfd => ⟨?_, hfd⟩, And.right⟩
    obtain ⟨d, hd⟩ := hfound fd hfd
    exact List.mem_map_of_mem (DenseTable.find_eq_some_iff.mp hd)
  refine (hkeys.flatMap_right _).trans (.of_eq ?_)
  have hrow : ∀ r ∈ t.directories.rows, delivered r.2 (pending r.1) =
      if r.1 ∈ K then worksOf t pending r.1 else [] := by
    intro r hr
    have hfind := DenseTable.find_eq_some_iff.mpr hr
    by_cases hmem : r.1 ∈ K
    · simp [hmem, worksOf, hfind, delivered, (hpending r.1).mp hmem]
    · have hnil : pending r.1 = [] := by simpa [hpending] using hmem
      simp [hmem, delivered, hnil]
  rw [List.flatMap_congr hrow]
  generalize t.directories.rows = rows
  induction rows with
  | nil => rfl
  | cons r rows ih =>
    by_cases hmem : r.1 ∈ K <;> simp [hmem, ih]

omit [DecidableEq Path] in
theorem Related.flush {s : State Path Name} {r : Delivery Path Name} (h : Related s r K) :
    ChangeDelivery.flush s.tables s.changed = .ok (K.flatMap (worksOf s.tables r.pending)) := by
  rw [h.changed]
  exact flush_entries h.found

end Flush

end Fimbulwinter.ChangeDelivery
