import Fimbulwinter.LoaderFiles
import Fimbulwinter.LoaderLoads

/-! # Entries that lose their owners

The entries that `remove_attachments` erases when a file that finishes loading drops the
attachments of its previous load, and what becomes of the place of the file itself. -/
namespace Fimbulwinter.Loader
open UnstableErase

variable (hash : Name → Asset)

/-- The loading or loaded entry of a file. -/
def entryOf (loads : Loads) (file : Asset) : Option LoadedLoad := (loads.find file).bind Load.entry

/-- How often a file is an attachment of another. -/
def attachmentCount (loads : Loads) (owner file : Asset) : ℕ :=
  match entryOf loads owner with
  | none => 0
  | some x => x.attachments.toList.count file

/-- How often a file is an owner of another. -/
def ownerCount (loads : Loads) (owner file : Asset) : ℕ :=
  match entryOf loads file with
  | none => 0
  | some x => x.owners.count (some owner)

/-- Owners have the files they own as attachments, or as relations that are to be dropped. -/
def Balanced (loads : Loads) (relations : List (Asset × Asset)) : Prop :=
  ∀ owner file, ownerCount loads owner file =
    attachmentCount loads owner file + relations.count (owner, file)

/-- The radical of an entry is the file itself, or has no entry of its own. -/
def RadicalsApart (loads : Loads) : Prop :=
  ∀ file x, entryOf loads file = some x → x.radical = file ∨ entryOf loads x.radical = none

/-- Owners and attachments are symmetric. The radicals are names, and a file that is loaded again
has its previous attachments. -/
structure Symmetric (loads : Loads) : Prop where
  balanced : Balanced loads []
  radicals : RadicalsApart loads
  previous : ∀ file x, loads.find file = some (.loading x) →
    x.previousCount.toNat ≤ x.attachments.size

/-- Files whose owners are all dropped. The holder has dropped what is no attachment of it. -/
inductive Dropped (loads : Loads) (holder : Asset) : Asset → Prop
  | intro {file : Asset} {x : LoadedLoad} (entry : entryOf loads file = some x)
    (owned : x.owners ≠ []) (notGlobal : global ∉ x.owners)
    (owners : ∀ owner, some owner ∈ x.owners →
      (owner = holder → 0 < attachmentCount loads holder file) → Dropped loads holder owner) :
    Dropped loads holder file

/-- The loads once a file has given up the attachments of its previous load. -/
def givePrevious (loads : Loads) (file : Asset) (x : LoadingLoad) : Loads :=
  loads.modify file
    (Load.mapEntry fun y => { y with attachments := y.attachments.eraseFront x.previousCount.toNat })

open Classical in
/-- The file is not dropped itself, and would have its place in the array of the loading entries
without those that are dropped. -/
def Stays (loads : Loads) (file : Asset) : Prop :=
  ¬ Dropped loads file file ∧ loads.position Load.kind .loadingLoad file <
    ((loads.array Load.kind .loadingLoad).filter fun r => ¬ Dropped loads file r.1).length

/-! ## Erasing an entry -/

variable {loads : Loads} {file : Asset} {x : LoadedLoad} {load : Load}

theorem entryOf_eq_some_iff : entryOf loads file = some x ↔
    ∃ load, loads.find file = some load ∧ load.entry = some x :=
  Option.bind_eq_some_iff

theorem entryOf_modify (f : LoadedLoad → LoadedLoad) (other : Asset) :
    entryOf (loads.modify file (Load.mapEntry f)) other =
      if other = file then (entryOf loads file).map f else entryOf loads other := by
  rw [entryOf, DenseTable.find_modify]
  split_ifs
  · rw [entryOf]
    cases loads.find file with
    | none => rfl
    | some load => cases load <;> rfl
  · rfl

/-- Erasing a file without entry changes nothing for the loading entries. -/
theorem erase_of_entryOf_eq_none (h : entryOf loads file = none) :
    (loads.erase Load.kind file).array Load.kind .loadingLoad =
        loads.array Load.kind .loadingLoad ∧
      (loads.erase Load.kind file).sum attachmentWeight = loads.sum attachmentWeight := by
  cases hfind : loads.find file with
  | none =>
    rw [DenseTable.erase_of_find_eq_none Load.kind hfind]
    exact ⟨rfl, rfl⟩
  | some load =>
    rw [entryOf, hfind] at h
    cases load with
    | radical f =>
      refine ⟨?_, ?_⟩
      · rw [DenseTable.array_erase _ hfind]
        exact if_neg (by simp [Load.kind])
      · simpa [attachmentWeight, Load.entry] using
          DenseTable.sum_erase (f := attachmentWeight) Load.kind hfind
    | loading y => cases h
    | loaded y => cases h

/-- The loads without an entry and its radical. -/
structure Erased (loads : Loads) (file : Asset) (x : LoadedLoad) (load : Load) : Prop where
  find : ∀ other, (eraseEntry loads file x).find other =
    if other = file ∨ other = x.radical then none else loads.find other
  entry : ∀ other, entryOf (eraseEntry loads file x) other =
    if other = file then none else entryOf loads other
  length : ((eraseEntry loads file x).array Load.kind .loadingLoad).length =
    (loads.array Load.kind .loadingLoad).length - if load.kind = .loadingLoad then 1 else 0
  place : ∀ holder y, holder ≠ file → loads.find holder = some (.loading y) →
    loads.position Load.kind .loadingLoad holder <
      ((eraseEntry loads file x).array Load.kind .loadingLoad).length →
    (eraseEntry loads file x).position Load.kind .loadingLoad holder =
      loads.position Load.kind .loadingLoad holder
  sum : (eraseEntry loads file x).sum attachmentWeight + x.attachments.size =
    loads.sum attachmentWeight

theorem erased_of_entry (hradical : x.radical = file ∨ entryOf loads x.radical = none)
    (hfind : loads.find file = some load) (hentry : load.entry = some x) :
    Erased loads file x load := by
  -- The table without the radical.
  obtain ⟨mid, hmid⟩ : ∃ mid, mid = if x.radical = file then loads
      else loads.erase Load.kind x.radical := ⟨_, rfl⟩
  have hother : ∀ other, mid.find other =
      if x.radical ≠ file ∧ other = x.radical then none else loads.find other := by
    intro other
    rw [hmid]
    by_cases hsame : x.radical = file
    · simp [hsame]
    · rw [if_neg hsame, DenseTable.find_erase]
      simp [hsame]
  have hfile : mid.find file = some load := by
    rw [hother, if_neg fun hradical => hradical.1 hradical.2.symm]
    exact hfind
  have harray : mid.array Load.kind .loadingLoad = loads.array Load.kind .loadingLoad ∧
      mid.sum attachmentWeight = loads.sum attachmentWeight := by
    rw [hmid]
    split_ifs with hsame
    · exact ⟨rfl, rfl⟩
    · exact erase_of_entryOf_eq_none (hradical.resolve_left hsame)
  have hposition : ∀ other, mid.position Load.kind .loadingLoad other =
      loads.position Load.kind .loadingLoad other := fun other => by
    rw [DenseTable.position, DenseTable.position, harray.1]
  have hform : eraseEntry loads file x = mid.erase Load.kind file := by
    rw [eraseEntry, hmid]
  have hlength : ((mid.erase Load.kind file).array Load.kind .loadingLoad).length =
      (mid.array Load.kind .loadingLoad).length - if load.kind = .loadingLoad then 1 else 0 := by
    rw [DenseTable.array_erase _ hfile]
    split_ifs with hkind
    · rw [length_swapErase]
      rw [← hkind]
      exact DenseTable.position_lt Load.kind hfile
    · rfl
  have hfinds : ∀ other, (mid.erase Load.kind file).find other =
      if other = file ∨ other = x.radical then none else loads.find other := by
    intro other
    rw [DenseTable.find_erase, hother]
    by_cases hof : other = file
    · simp [hof]
    · by_cases hor : other = x.radical
      · have hne : x.radical ≠ file := fun heq => hof (hor.trans heq)
        simp [hor, hne]
      · simp [hof, hor]
  refine ⟨?_, ?_, ?_, ?_, ?_⟩
  · rw [hform]
    exact hfinds
  · intro other
    rw [hform, entryOf, hfinds]
    by_cases hof : other = file
    · simp [hof]
    · by_cases hor : other = x.radical
      · have hnone := hradical.resolve_left fun heq => hof (hor.trans heq)
        simp [hor, hnone]
      · simp [hof, hor, entryOf]
  · rw [hform, hlength, harray.1]
  · intro holder y hne hy hlt
    rw [hform] at hlt ⊢
    have hy' : mid.find holder = some (.loading y) := by
      rw [hother, if_neg ?_]
      · exact hy
      · rintro ⟨hsame, rfl⟩
        have hnone := hradical.resolve_left hsame
        rw [entryOf, hy] at hnone
        cases hnone
    rw [hlength, harray.1] at hlt
    rw [← hposition] at hlt ⊢
    by_cases hkind : load.kind = .loadingLoad
    · rw [if_pos hkind] at hlt
      refine DenseTable.position_erase Load.kind hfile hy' hkind hne ?_
      change mid.position Load.kind .loadingLoad holder + 1 ≠
        (mid.array Load.kind .loadingLoad).length
      rw [harray.1]
      omega
    · rw [DenseTable.position, DenseTable.position, DenseTable.array_erase _ hfile, if_neg hkind]
  · rw [hform, ← harray.2, ← DenseTable.sum_erase Load.kind hfile]
    simp only [attachmentWeight, hentry]

/-! ## The loop -/

/-- What `remove_attachments` keeps, from the table that it is called with. -/
structure Cascade (loads₀ loads : Loads) (holder : Asset) (relations : List (Asset × Asset)) :
    Prop where
  balanced : Balanced loads relations
  radicals : RadicalsApart loads
  same : ∀ file x, entryOf loads file = some x → ∃ x₀, entryOf loads₀ file = some x₀ ∧
    x = { x₀ with owners := x.owners } ∧ x.owners ⊆ x₀.owners ∧
    (global ∈ x₀.owners → global ∈ x.owners) ∧ (x₀.owners ≠ [] → x.owners ≠ [])
  loading : ∀ file, (∃ y, loads.find file = some (.loading y)) ↔
    (∃ y, loads₀.find file = some (.loading y)) ∧ entryOf loads file ≠ none
  holding : ∃ y, loads₀.find holder = some (.loading y)
  held : ∀ y, loads.find holder = some (.loading y) → ∃ y₀ owners,
    loads₀.find holder = some (.loading y₀) ∧ y = { y₀ with owners := owners }
  dropped : ∀ file, entryOf loads file = none → entryOf loads₀ file ≠ none →
    Dropped loads₀ holder file
  released : ∀ owner file, entryOf loads file ≠ none →
    ownerCount loads owner file < ownerCount loads₀ owner file →
    owner = holder ∨ Dropped loads₀ holder owner
  pending : ∀ r ∈ relations, r.1 = holder ∨ Dropped loads₀ holder r.1
  place : entryOf loads holder ≠ none → loads₀.position Load.kind .loadingLoad holder <
    (loads.array Load.kind .loadingLoad).length → loads.position Load.kind .loadingLoad holder =
      loads₀.position Load.kind .loadingLoad holder

variable {loads₀ : Loads} {holder owner : Asset} {relations : List (Asset × Asset)}

theorem ownerCount_of_entry (h : entryOf loads file = some x) (owner : Asset) :
    ownerCount loads owner file = x.owners.count (some owner) := by
  rw [ownerCount, h]

theorem attachmentCount_of_entry (h : entryOf loads owner = some x) (file : Asset) :
    attachmentCount loads owner file = x.attachments.toList.count file := by
  rw [attachmentCount, h]

theorem attachmentCount_congr {loads' : Loads} (h : entryOf loads owner = entryOf loads' owner)
    (file : Asset) : attachmentCount loads owner file = attachmentCount loads' owner file := by
  rw [attachmentCount, attachmentCount, h]

/-- The file of a relation has the owner. -/
theorem Cascade.head (h : Cascade loads₀ loads holder ((owner, file) :: relations)) :
    ∃ load x, loads.find file = some load ∧ load.entry = some x ∧ some owner ∈ x.owners := by
  have hcount := h.balanced owner file
  rw [List.count_cons_self] at hcount
  cases hentry : entryOf loads file with
  | none =>
    simp only [ownerCount, hentry] at hcount
    omega
  | some x =>
    rw [ownerCount_of_entry hentry] at hcount
    obtain ⟨load, hfind, hload⟩ := entryOf_eq_some_iff.mp hentry
    exact ⟨load, x, hfind, hload, List.count_pos_iff.mp (by omega)⟩

/-- Owners of a file that have been released are the holder, or dropped. -/
theorem Cascade.owner_dropped (h : Cascade loads₀ loads holder ((owner, file) :: relations))
    {x₀ : LoadedLoad} (hentry : entryOf loads file = some x) (hentry₀ : entryOf loads₀ file = some x₀)
    (howners : x.owners = [some owner]) {other : Asset} (hother : some other ∈ x₀.owners)
    (hkept : other = holder → 0 < attachmentCount loads₀ holder file) :
    Dropped loads₀ holder other := by
  have hreleased : other = holder ∨ Dropped loads₀ holder other := by
    by_cases heq : other = owner
    · exact heq ▸ h.pending _ (.head _)
    · refine h.released other file (by simp [hentry]) ?_
      rw [ownerCount_of_entry hentry, ownerCount_of_entry hentry₀, howners,
        List.count_eq_zero_of_not_mem (by simpa using heq)]
      exact List.count_pos_iff.mpr hother
  refine hreleased.elim (fun heq => ?_) id
  subst heq
  -- The holder has the file as an attachment still, unless it is erased.
  cases hholder : entryOf loads other with
  | none =>
    refine h.dropped other hholder ?_
    obtain ⟨y, hy⟩ := h.holding
    rw [entryOf, hy]
    exact Option.some_ne_none _
  | some z =>
    obtain ⟨z₀, hz₀, hz, -⟩ := h.same other z hholder
    have hattached : 0 < attachmentCount loads other file := by
      rw [attachmentCount_of_entry hholder, hz, ← attachmentCount_of_entry hz₀]
      exact hkept rfl
    have hcount := h.balanced other file
    rw [ownerCount_of_entry hentry, howners] at hcount
    by_cases heq : other = owner
    · subst heq
      rw [List.count_cons_self, List.count_cons_self] at hcount
      simp only [List.count_nil] at hcount
      omega
    · rw [List.count_eq_zero_of_not_mem (by simpa using heq)] at hcount
      omega

/-- What becomes of the entries when a file loses an owner but not the last one. -/
structure Released (loads loads' : Loads) (file owner : Asset) (x : LoadedLoad) : Prop where
  entries : ∀ other, entryOf loads' other =
    if other = file then some { x with owners := swapEraseValue x.owners (some owner) }
    else entryOf loads other
  live : ∀ other, entryOf loads' other = none ↔ entryOf loads other = none
  attachments : ∀ other other', attachmentCount loads' other other' =
    attachmentCount loads other other'
  owners : ∀ other other', ownerCount loads' other other' =
    ownerCount loads other other' - if (owner, file) = (other, other') then 1 else 0
  loading : ∀ other, (∃ y, loads'.find other = some (.loading y)) ↔
    ∃ y, loads.find other = some (.loading y)
  held : ∀ other y, loads'.find other = some (.loading y) → ∃ z owners,
    loads.find other = some (.loading z) ∧ y = { z with owners := owners }
  length : (loads'.array Load.kind .loadingLoad).length =
    (loads.array Load.kind .loadingLoad).length
  position : ∀ other, loads'.position Load.kind .loadingLoad other =
    loads.position Load.kind .loadingLoad other

theorem released_of_entry (hentry : entryOf loads file = some x)
    (howner : some owner ∈ x.owners) :
    Released loads (loads.modify file (Load.mapEntry fun y =>
      { y with owners := swapEraseValue x.owners (some owner) })) file owner x := by
  have hentries : ∀ other, entryOf (loads.modify file (Load.mapEntry fun y =>
      { y with owners := swapEraseValue x.owners (some owner) })) other =
      if other = file then some { x with owners := swapEraseValue x.owners (some owner) }
      else entryOf loads other := fun other => by
    rw [entryOf_modify, hentry]
    rfl
  have hkind : ∀ load : Load, Load.kind (Load.mapEntry (fun y =>
      { y with owners := swapEraseValue x.owners (some owner) }) load) = Load.kind load := by
    intro load
    cases load <;> rfl
  refine ⟨hentries, fun other => ?_, fun other other' => ?_, fun other other' => ?_,
    fun other => ?_, fun other y hy => ?_, ?_, fun other => ?_⟩
  · rw [hentries]
    split_ifs with heq
    · rw [heq, hentry]
      simp
    · rfl
  · rw [attachmentCount, hentries]
    split_ifs with heq
    · rw [heq, attachmentCount_of_entry hentry]
    · rfl
  · rw [ownerCount, hentries]
    by_cases heq : other' = file
    · subst heq
      rw [if_pos rfl, ownerCount_of_entry hentry]
      have hcount := (perm_cons_swapEraseValue howner).count_eq (some other)
      rw [List.count_cons] at hcount
      simp only [beq_iff_eq, Option.some.injEq] at hcount
      simp only [Prod.mk.injEq, and_true]
      omega
    · rw [if_neg heq, if_neg fun hpair => heq (Prod.mk.inj hpair).2.symm]
      rfl
  · rw [DenseTable.find_modify]
    split_ifs with heq
    · rw [heq]
      cases loads.find file with
      | none => simp
      | some load => cases load <;> simp [Load.mapEntry]
    · rfl
  · rw [DenseTable.find_modify] at hy
    split_ifs at hy with heq
    · obtain ⟨load, hload, hmap⟩ := Option.map_eq_some_iff.mp hy
      cases load with
      | radical f => cases hmap
      | loaded z => cases hmap
      | loading z =>
        cases hmap
        exact ⟨z, _, heq ▸ hload, rfl⟩
    · exact ⟨y, y.owners, hy, rfl⟩
  · rw [DenseTable.array_modify Load.kind loads file hkind, List.length_map]
  · exact DenseTable.position_modify Load.kind loads file hkind .loadingLoad other

/-- A file keeps other owners. -/
theorem Cascade.keep (h : Cascade loads₀ loads holder ((owner, file) :: relations))
    (hentry : entryOf loads file = some x) (howner : some owner ∈ x.owners)
    (hleft : swapEraseValue x.owners (some owner) ≠ []) :
    Cascade loads₀ (loads.modify file (Load.mapEntry fun y =>
      { y with owners := swapEraseValue x.owners (some owner) })) holder relations := by
  have hperm := perm_cons_swapEraseValue howner
  have hreleased := released_of_entry hentry howner
  generalize loads.modify file (Load.mapEntry fun y =>
      { y with owners := swapEraseValue x.owners (some owner) }) = loads' at hreleased ⊢
  refine ⟨?_, ?_, ?_, ?_, h.holding, ?_, ?_, ?_, ?_, ?_⟩
  · intro other other'
    have hbalanced := h.balanced other other'
    rw [List.count_cons] at hbalanced
    rw [hreleased.owners, hreleased.attachments]
    simp only [beq_iff_eq] at hbalanced
    omega
  · intro other y hy
    have hradical : ∃ y', entryOf loads other = some y' ∧ y'.radical = y.radical := by
      rw [hreleased.entries] at hy
      split_ifs at hy with heq
      · cases hy
        exact ⟨x, heq ▸ hentry, rfl⟩
      · exact ⟨y, hy, rfl⟩
    obtain ⟨y', hy', heq⟩ := hradical
    rw [hreleased.live, ← heq]
    exact h.radicals other y' hy'
  · intro other y hy
    rw [hreleased.entries] at hy
    split_ifs at hy with heq
    · cases hy
      subst heq
      obtain ⟨x₀, hx₀, hform, hsub, hglobal, howned⟩ := h.same other x hentry
      refine ⟨x₀, hx₀, by rw [hform], fun o ho => hsub ?_, fun hmem => ?_, fun _ => hleft⟩
      · exact hperm.subset (List.mem_cons_of_mem _ ho)
      · refine (List.mem_cons.mp (hperm.symm.subset (hglobal hmem))).resolve_left ?_
        exact (Option.some_ne_none owner).symm
    · exact h.same other y hy
  · intro other
    rw [hreleased.loading, h.loading, ne_eq, ne_eq, hreleased.live]
  · intro y hy
    obtain ⟨z, owners, hz, rfl⟩ := hreleased.held holder y hy
    obtain ⟨y₀, owners₀, hy₀, rfl⟩ := h.held z hz
    exact ⟨y₀, owners, hy₀, rfl⟩
  · exact fun other hnone => h.dropped other ((hreleased.live other).mp hnone)
  · intro other other' hne hlt
    rw [hreleased.owners] at hlt
    by_cases heq : (owner, file) = (other, other')
    · obtain ⟨rfl, -⟩ := Prod.mk.inj heq
      exact h.pending _ (.head _)
    · rw [if_neg heq, Nat.sub_zero] at hlt
      exact h.released other other' (fun hnone => hne ((hreleased.live other').mpr hnone)) hlt
  · exact fun r hr => h.pending r (.tail _ hr)
  · intro hne hlt
    rw [hreleased.length] at hlt
    rw [hreleased.position]
    exact h.place (fun hnone => hne ((hreleased.live holder).mpr hnone)) hlt

/-- The relations that are balanced when a file has lost its last owner. -/
theorem Balanced.erase {loads' : Loads} (h : Balanced loads ((owner, file) :: relations))
    (hentry : entryOf loads file = some x) (howners : x.owners = [some owner])
    (hentries : ∀ other, entryOf loads' other = if other = file then none else entryOf loads other) :
    Balanced loads'
      ((x.attachments.toList.reverse.map fun attachment => (file, attachment)) ++ relations) := by
  -- Nothing else refers to the file.
  have hnone : ∀ other, attachmentCount loads other file = 0 ∧ relations.count (other, file) = 0 := by
    intro other
    have hbalanced := h other file
    rw [ownerCount_of_entry hentry, howners] at hbalanced
    simp only [List.count_cons, List.count_nil, beq_iff_eq, Option.some.injEq, Prod.mk.injEq,
      and_true] at hbalanced
    omega
  have hpairs : ∀ other other', (x.attachments.toList.reverse.map fun attachment =>
      (file, attachment)).count (other, other') =
      if other = file then attachmentCount loads file other' else 0 := by
    intro other other'
    split_ifs with heq
    · subst heq
      rw [attachmentCount_of_entry hentry, List.count_map_of_injective _ _
        (fun a b hab => (Prod.mk.inj hab).2), List.count_reverse]
    · refine List.count_eq_zero_of_not_mem fun hmem => ?_
      obtain ⟨attachment, -, hpair⟩ := List.mem_map.mp hmem
      exact heq (Prod.mk.inj hpair).1.symm
  intro other other'
  have hbalanced := h other other'
  rw [List.count_append, hpairs]
  have howner' : ownerCount loads' other other' =
      if other' = file then 0 else ownerCount loads other other' := by
    rw [ownerCount, hentries]
    split_ifs <;> rfl
  have hattachment' : attachmentCount loads' other other' =
      if other = file then 0 else attachmentCount loads other other' := by
    rw [attachmentCount, hentries]
    split_ifs <;> rfl
  rw [howner', hattachment']
  by_cases hof' : other' = file
  · subst hof'
    obtain ⟨hzero, hzero'⟩ := hnone other
    obtain ⟨hself, -⟩ := hnone other'
    rw [if_pos rfl, hzero, hzero', hself]
    simp
  · have hne : ¬ ((owner, file) == (other, other')) = true := fun hpair =>
      hof' (Prod.mk.inj (beq_iff_eq.mp hpair)).2.symm
    rw [List.count_cons, if_neg hne] at hbalanced
    rw [if_neg hof', hbalanced]
    split_ifs with hof
    · rw [hof]
      omega
    · omega

/-- A file loses its last owner. -/
theorem Cascade.erase (h : Cascade loads₀ loads holder ((owner, file) :: relations))
    (hfind : loads.find file = some load) (hload : load.entry = some x)
    (howners : x.owners = [some owner]) :
    Cascade loads₀ (eraseEntry loads file x) holder
      ((x.attachments.toList.reverse.map fun attachment => (file, attachment)) ++ relations) := by
  have hentry : entryOf loads file = some x := entryOf_eq_some_iff.mpr ⟨load, hfind, hload⟩
  obtain ⟨hfinds, hentries, hlengths, hplaces, -⟩ :=
    erased_of_entry (h.radicals file x hentry) hfind hload
  obtain ⟨x₀, hx₀, hform, hsub, hglobal, howned⟩ := h.same file x hentry
  have hdropped : Dropped loads₀ holder file := by
    refine .intro hx₀ ?_ ?_ fun other hother hkept => h.owner_dropped hentry hx₀ howners hother hkept
    · exact List.ne_nil_of_mem (hsub (howners ▸ List.mem_singleton.mpr rfl))
    · intro hmem
      have hglobal' := hglobal hmem
      rw [howners, List.mem_singleton] at hglobal'
      exact absurd hglobal'.symm (Option.some_ne_none owner)
  generalize eraseEntry loads file x = loads' at hfinds hentries hlengths hplaces ⊢
  have hlive : ∀ other, entryOf loads' other ≠ none → other ≠ file ∧ entryOf loads other ≠ none :=
    fun other hne => by
      rw [hentries] at hne
      split_ifs at hne with heq
      · exact absurd rfl hne
      · exact ⟨heq, hne⟩
  refine ⟨?_, ?_, ?_, ?_, h.holding, ?_, ?_, ?_, ?_, ?_⟩
  · exact h.balanced.erase hentry howners hentries
  · intro other y hy
    rw [hentries] at hy
    split_ifs at hy with heq
    refine (h.radicals other y hy).imp_right fun hnone => ?_
    rw [hentries, hnone]
    exact ite_self _
  · intro other y hy
    rw [hentries] at hy
    split_ifs at hy
    exact h.same other y hy
  · intro other
    constructor
    · rintro ⟨y, hy⟩
      rw [hfinds] at hy
      split_ifs at hy with heq
      obtain ⟨hloading, -⟩ := (h.loading other).mp ⟨y, hy⟩
      refine ⟨hloading, ?_⟩
      rw [hentries, if_neg fun hof => heq (.inl hof), entryOf, hy]
      exact Option.some_ne_none _
    · rintro ⟨hloading, hne⟩
      obtain ⟨hof, hne⟩ := hlive other hne
      obtain ⟨y, hy⟩ := (h.loading other).mpr ⟨hloading, hne⟩
      refine ⟨y, ?_⟩
      rw [hfinds, if_neg]
      · exact hy
      · rintro (heq | heq)
        · exact hof heq
        · obtain heq' | hnone := h.radicals file x hentry
          · exact hof (heq.trans heq')
          · exact hne (heq ▸ hnone)
  · intro y hy
    rw [hfinds] at hy
    split_ifs at hy
    exact h.held y hy
  · intro other hnone hne
    rw [hentries] at hnone
    split_ifs at hnone with heq
    · exact heq ▸ hdropped
    · exact h.dropped other hnone hne
  · intro other other' hne hlt
    obtain ⟨hof, hne⟩ := hlive other' hne
    refine h.released other other' hne ?_
    rwa [ownerCount, hentries, if_neg hof] at hlt
  · intro r hr
    obtain hr | hr := List.mem_append.mp hr
    · obtain ⟨attachment, -, rfl⟩ := List.mem_map.mp hr
      exact .inr hdropped
    · exact h.pending r (.tail _ hr)
  · intro hne hlt
    obtain ⟨hof, hne⟩ := hlive holder hne
    obtain ⟨y, hy⟩ := (h.loading holder).mpr ⟨h.holding, hne⟩
    have hle : (loads'.array Load.kind .loadingLoad).length ≤
        (loads.array Load.kind .loadingLoad).length := by
      rw [hlengths]
      exact Nat.sub_le _ _
    have hplace := h.place hne (hlt.trans_le hle)
    rw [hplaces holder y hof hy (hplace ▸ hlt), hplace]

theorem releaseOwner_last (s : State) (hlast : swapEraseValue x.owners (some owner) = []) :
    (releaseOwner hash s file x (some owner) owner true).1.loads = eraseEntry s.loads file x ∧
      (releaseOwner hash s file x (some owner) owner true).2 =
        x.attachments.toList.reverse.map fun attachment => (file, attachment) := by
  rw [releaseOwner, if_pos hlast]
  exact ⟨rfl, rfl⟩

theorem releaseOwner_other (s : State) (hleft : swapEraseValue x.owners (some owner) ≠ []) :
    (releaseOwner hash s file x (some owner) owner true).1.loads =
        s.loads.modify file (Load.mapEntry fun y =>
          { y with owners := swapEraseValue x.owners (some owner) }) ∧
      (releaseOwner hash s file x (some owner) owner true).2 = [] := by
  rw [releaseOwner, if_neg hleft]
  exact ⟨rfl, rfl⟩

/-- The loop of `remove_attachments` comes to its end, and keeps the invariant. -/
theorem Cascade.loop {n : ℕ} {s : State} (h : Cascade loads₀ s.loads holder relations)
    (hn : s.loads.sum attachmentWeight + relations.length ≤ n) :
    ∃ s', removeAttachmentsLoop hash n s relations = .ok s' ∧
      Cascade loads₀ s'.loads holder [] := by
  induction n generalizing s relations with
  | zero =>
    obtain rfl := List.length_eq_zero_iff.mp (Nat.eq_zero_of_add_eq_zero_left (Nat.le_zero.mp hn))
    exact ⟨s, rfl, h⟩
  | succ n ih =>
    cases relations with
    | nil => exact ⟨s, rfl, h⟩
    | cons r relations =>
      obtain ⟨owner, file⟩ := r
      obtain ⟨load, x, hfind, hload, howner⟩ := h.head
      have hentry : entryOf s.loads file = some x := entryOf_eq_some_iff.mpr ⟨load, hfind, hload⟩
      simp only [removeAttachmentsLoop, hfind, hload, howner, if_true]
      rw [List.length_cons] at hn
      by_cases hlast : swapEraseValue x.owners (some owner) = []
      · -- The file is erased, and its attachments are to be dropped.
        obtain ⟨hloads, hrelations⟩ := releaseOwner_last hash s hlast
        have howners : x.owners = [some owner] := by
          have hperm := perm_cons_swapEraseValue howner
          rw [hlast] at hperm
          exact List.perm_singleton.mp hperm.symm
        have hsum := (erased_of_entry (h.radicals file x hentry) hfind hload).sum
        refine ih ?_ ?_
        · rw [hloads, hrelations]
          exact h.erase hfind hload howners
        · rw [hloads, hrelations, List.length_append, List.length_map, List.length_reverse]
          have hsize : x.attachments.toList.length = x.attachments.size := rfl
          omega
      · obtain ⟨hloads, hrelations⟩ := releaseOwner_other hash s hlast
        refine ih ?_ ?_
        · rw [hloads, hrelations]
          exact h.keep hentry howner hlast
        · have hsum := DenseTable.sum_modify (f := attachmentWeight) (Load.mapEntry fun y =>
            { y with owners := swapEraseValue x.owners (some owner) }) hfind
          have hweight : attachmentWeight file (Load.mapEntry (fun y =>
              { y with owners := swapEraseValue x.owners (some owner) }) load) =
              attachmentWeight file load := by
            cases load <;> rfl
          rw [hloads, hrelations, List.nil_append]
          omega

/-! ## The file that finishes loading -/

/-- At the end every dropped file is erased. -/
theorem Cascade.complete (h : Cascade loads₀ loads holder []) (hdropped : Dropped loads₀ holder file) :
    entryOf loads file = none := by
  induction hdropped with
  | @intro file x₀ hentry₀ howned hglobal howners ih =>
    cases hentry : entryOf loads file with
    | none => rfl
    | some x =>
      obtain ⟨x₀', hx₀', hform, hsub, -, hleft⟩ := h.same file x hentry
      obtain rfl := Option.some.inj (hentry₀.symm.trans hx₀')
      obtain ⟨o, ho⟩ := List.exists_mem_of_ne_nil _ (hleft howned)
      obtain ⟨owner, rfl⟩ : ∃ owner, o = some owner := by
        cases o with
        | none => exact absurd (hsub ho) hglobal
        | some owner => exact ⟨owner, rfl⟩
      -- The owner is left with the file among its attachments.
      have hcount := h.balanced owner file
      rw [ownerCount_of_entry hentry, List.count_nil, Nat.add_zero] at hcount
      have hpos : 0 < attachmentCount loads owner file := by
        rw [← hcount]
        exact List.count_pos_iff.mpr ho
      cases howner : entryOf loads owner with
      | none =>
        rw [attachmentCount, howner] at hpos
        exact absurd hpos (Nat.lt_irrefl 0)
      | some z =>
        obtain ⟨z₀, hz₀, hz, -⟩ := h.same owner z howner
        have hkept : 0 < attachmentCount loads₀ owner file := by
          rw [attachmentCount_of_entry howner, hz] at hpos
          rwa [attachmentCount_of_entry hz₀]
        rw [ih owner (hsub ho) fun heq => heq ▸ hkept] at howner
        cases howner

open Classical in
/-- At the end the loading entries that are not dropped are left. -/
theorem Cascade.length (h : Cascade loads₀ loads holder []) :
    (loads.array Load.kind .loadingLoad).length =
      ((loads₀.array Load.kind .loadingLoad).filter fun r => ¬ Dropped loads₀ holder r.1).length := by
  have hloading : ∀ (t : Loads) (f : Asset), f ∈ (t.array Load.kind .loadingLoad).map Prod.fst ↔
      ∃ y, t.find f = some (.loading y) := by
    intro t f
    constructor
    · intro hmem
      obtain ⟨⟨f, load⟩, hr, rfl⟩ := List.mem_map.mp hmem
      obtain ⟨hfind, hkind⟩ := (DenseTable.mem_array_iff Load.kind .loadingLoad).mp hr
      cases load with
      | loading y => exact ⟨y, hfind⟩
      | radical f => cases hkind
      | loaded y => cases hkind
    · rintro ⟨y, hy⟩
      exact List.mem_map.mpr ⟨_, (DenseTable.mem_array_iff Load.kind .loadingLoad).mpr ⟨hy, rfl⟩, rfl⟩
  have hperm : ((loads.array Load.kind .loadingLoad).map Prod.fst).Perm
      (((loads₀.array Load.kind .loadingLoad).filter fun r =>
        ¬ Dropped loads₀ holder r.1).map Prod.fst) := by
    refine (List.perm_ext_iff_of_nodup (DenseTable.nodup_array _ _ _)
      ((DenseTable.nodup_array Load.kind loads₀ .loadingLoad).sublist
        (List.filter_sublist.map _))).mpr fun f => ?_
    have hfilter : f ∈ ((loads₀.array Load.kind .loadingLoad).filter fun r =>
        ¬ Dropped loads₀ holder r.1).map Prod.fst ↔
        f ∈ (loads₀.array Load.kind .loadingLoad).map Prod.fst ∧ ¬ Dropped loads₀ holder f := by
      simp only [List.mem_map, List.mem_filter, decide_eq_true_iff]
      constructor
      · rintro ⟨r, ⟨hr, hnot⟩, rfl⟩
        exact ⟨⟨r, hr, rfl⟩, hnot⟩
      · rintro ⟨⟨r, hr, rfl⟩, hnot⟩
        exact ⟨r, ⟨hr, hnot⟩, rfl⟩
    rw [hfilter, hloading, hloading, h.loading]
    refine and_congr_right fun hsome => ⟨fun hne hdropped => hne (h.complete hdropped), ?_⟩
    intro hnot hnone
    obtain ⟨y, hy⟩ := hsome
    refine hnot (h.dropped f hnone ?_)
    rw [entryOf, hy]
    exact Option.some_ne_none _
  simpa using hperm.length_eq

theorem cascade_start {loads : Loads} {x : LoadingLoad} (hsymmetric : Symmetric loads)
    (hfind : loads.find file = some (.loading x)) :
    Cascade (givePrevious loads file x) (givePrevious loads file x) file
      ((x.attachments.toList.take x.previousCount.toNat).reverse.map
        fun attachment => (file, attachment)) := by
  have hentry : entryOf loads file = some x.toLoadedLoad := by
    rw [entryOf, hfind]
    rfl
  have hentries : ∀ other, entryOf (givePrevious loads file x) other =
      if other = file then some { x.toLoadedLoad with
        attachments := x.attachments.eraseFront x.previousCount.toNat }
      else entryOf loads other := fun other => by
    rw [givePrevious, entryOf_modify, hentry]
    rfl
  have hfile : (givePrevious loads file x).find file = some (.loading { x with
      attachments := x.attachments.eraseFront x.previousCount.toNat }) := by
    rw [givePrevious, DenseTable.find_modify, if_pos rfl, hfind]
    rfl
  have hlive : ∀ other, entryOf (givePrevious loads file x) other = none ↔
      entryOf loads other = none := fun other => by
    rw [hentries]
    split_ifs with heq
    · rw [heq, hentry]
      simp
    · rfl
  have hpairs : ∀ other other', ((x.attachments.toList.take x.previousCount.toNat).reverse.map
      fun attachment => (file, attachment)).count (other, other') =
      if other = file then (x.attachments.toList.take x.previousCount.toNat).count other' else 0 := by
    intro other other'
    split_ifs with heq
    · subst heq
      rw [List.count_map_of_injective _ _ (fun a b hab => (Prod.mk.inj hab).2), List.count_reverse]
    · refine List.count_eq_zero_of_not_mem fun hmem => ?_
      obtain ⟨attachment, -, hpair⟩ := List.mem_map.mp hmem
      exact heq (Prod.mk.inj hpair).1.symm
  refine ⟨?_, ?_, fun other y hy => ⟨y, hy, rfl, fun o ho => ho, id, id⟩, ?_, ⟨_, hfile⟩,
    fun y hy => ⟨y, y.owners, hy, rfl⟩, fun other hnone hne => absurd hnone hne,
    fun other other' _ hlt => absurd hlt (Nat.lt_irrefl _), ?_, fun _ _ => rfl⟩
  · intro other other'
    have hbalanced := hsymmetric.balanced other other'
    rw [List.count_nil, Nat.add_zero] at hbalanced
    have howner : ownerCount (givePrevious loads file x) other other' =
        ownerCount loads other other' := by
      rw [ownerCount, hentries]
      split_ifs with heq
      · rw [heq, ownerCount_of_entry hentry]
      · rfl
    rw [howner, hbalanced, hpairs]
    split_ifs with heq
    · subst heq
      have hdrop := (x.attachments.toList_eraseFront (hsymmetric.previous other x hfind)).count_eq other'
      rw [attachmentCount_of_entry hentry, attachmentCount, hentries, if_pos rfl]
      dsimp only
      rw [hdrop, Nat.add_comm, ← List.count_append, List.take_append_drop]
    · rw [Nat.add_zero]
      exact (attachmentCount_congr (by rw [hentries, if_neg heq]) other').symm
  · intro other y hy
    have hradical : ∃ y', entryOf loads other = some y' ∧ y'.radical = y.radical := by
      rw [hentries] at hy
      split_ifs at hy with heq
      · cases hy
        exact ⟨x.toLoadedLoad, heq ▸ hentry, rfl⟩
      · exact ⟨y, hy, rfl⟩
    obtain ⟨y', hy', heq⟩ := hradical
    rw [hlive, ← heq]
    exact hsymmetric.radicals other y' hy'
  · intro other
    refine ⟨fun hsome => ⟨hsome, ?_⟩, And.left⟩
    obtain ⟨y, hy⟩ := hsome
    rw [entryOf, hy]
    exact Option.some_ne_none _
  · intro r hr
    obtain ⟨attachment, -, rfl⟩ := List.mem_map.mp hr
    exact .inl rfl

/-- `finish_loading` goes on with the entry of the file, with the attachments that it keeps. -/
def KeepsEntry (s : State) (file : Asset) (x : LoadingLoad) : Prop :=
  ∃ s' owners, dropPrevious hash s file file x = .ok s' ∧
    s'.loads.find file = some (.loading { x with
      owners := owners
      attachments := x.attachments.eraseFront x.previousCount.toNat })

/-- The entry is the one of the file exactly when there are no previous attachments, or the file is
not dropped and not too many loading entries are. -/
theorem keepsEntry_iff {s : State} {x : LoadingLoad} (hsymmetric : Symmetric s.loads)
    (hfind : s.loads.find file = some (.loading x)) :
    KeepsEntry hash s file x ↔
      x.previousCount ≤ 0 ∨ Stays (givePrevious s.loads file x) file := by
  by_cases hprevious : 0 < x.previousCount
  · have hstart := cascade_start hsymmetric hfind
    have hkind : ∀ load : Load, Load.kind (Load.mapEntry (fun y => { y with
        attachments := y.attachments.eraseFront x.previousCount.toNat }) load) = Load.kind load := by
      intro load
      cases load <;> rfl
    have hposition : (givePrevious s.loads file x).position Load.kind .loadingLoad file =
        s.loads.position Load.kind .loadingLoad file :=
      DenseTable.position_modify Load.kind s.loads file hkind .loadingLoad file
    obtain ⟨s', hs', hend⟩ := Cascade.loop hash (s := s.setLoads (givePrevious s.loads file x))
      hstart (Nat.le_refl _)
    have hdrop : dropPrevious hash s file file x =
        if s'.loads.find file ≠ none ∧ s'.loads.position Load.kind .loadingLoad file =
          s.loads.position Load.kind .loadingLoad file then .ok s' else .error .movedEntry := by
      rw [dropPrevious, if_pos hprevious]
      have hremove : removeAttachments hash (s.setLoads (givePrevious s.loads file x))
          ((x.attachments.toList.take x.previousCount.toNat).reverse.map
            fun attachment => (file, attachment)) = .ok s' := hs'
      simp only [givePrevious] at hremove
      simp only [hremove]
    refine Iff.trans ?_ (or_iff_right (not_le.mpr hprevious)).symm
    constructor
    · rintro ⟨s'', owners, hok, hentry⟩
      rw [hdrop] at hok
      split_ifs at hok with hsame
      obtain rfl := Except.ok.inj hok
      have hlive : entryOf s'.loads file ≠ none := by
        rw [entryOf, hentry]
        exact Option.some_ne_none _
      refine ⟨fun hdropped => hlive (hend.complete hdropped), ?_⟩
      rw [← hend.length, hposition, ← hsame.2]
      exact DenseTable.position_lt Load.kind hentry
    · rintro ⟨hnot, hlt⟩
      have hlive : entryOf s'.loads file ≠ none := fun hnone => by
        refine hnot (hend.dropped file hnone ?_)
        obtain ⟨y, hy⟩ := hstart.holding
        rw [entryOf, hy]
        exact Option.some_ne_none _
      obtain ⟨y, hy⟩ := (hend.loading file).mpr ⟨hend.holding, hlive⟩
      obtain ⟨y₀, owners, hy₀, rfl⟩ := hend.held y hy
      have hentry₀ : (givePrevious s.loads file x).find file = some (.loading { x with
          attachments := x.attachments.eraseFront x.previousCount.toNat }) := by
        rw [givePrevious, DenseTable.find_modify, if_pos rfl, hfind]
        rfl
      obtain rfl := Load.loading.inj (Option.some.inj (hy₀.symm.trans hentry₀))
      refine ⟨s', owners, ?_, hy⟩
      rw [hdrop, if_pos]
      refine ⟨by simp [hy], ?_⟩
      rw [← hposition]
      exact hend.place hlive (hend.length ▸ hlt)
  · refine iff_of_true ⟨s, x.owners, ?_, ?_⟩ (.inl (Int.not_lt.mp hprevious))
    · rw [dropPrevious, if_neg hprevious]
    · rw [hfind, Int.toNat_of_nonpos (Int.not_lt.mp hprevious)]
      rfl

/-! ## A file with one previous attachment -/

/-- A file that is loaded again. -/
def reloading : LoadingLoad := ⟨⟨7, 1, 1, ['a'], 0, [global], ⟨[2], 1, by decide⟩⟩, 1, 0⟩

/-- Its previous attachment, which is being loaded. -/
def attached : LoadingLoad := ⟨⟨7, 1, 2, ['b'], 1, [some 1], ∅⟩, -1, intMin⟩

/-- The attachment comes first. -/
def attachedFirst : Loads := ⟨[(2, .loading attached), (1, .loading reloading)], by decide⟩

/-- The attachment comes last. -/
def attachedLast : Loads := ⟨[(1, .loading reloading), (2, .loading attached)], by decide⟩

theorem symmetric_of_find {loads : Loads} (h : ∀ file, loads.find file =
    if file = 1 then some (.loading reloading) else if file = 2 then some (.loading attached)
    else none) : Symmetric loads := by
  have hentries : ∀ file, entryOf loads file = if file = 1 then some reloading.toLoadedLoad
      else if file = 2 then some attached.toLoadedLoad else none := by
    intro file
    rw [entryOf, h]
    split_ifs <;> rfl
  constructor
  · intro owner file
    rw [ownerCount, attachmentCount, hentries, hentries, List.count_nil, Nat.add_zero]
    by_cases hfile : file = 1
    · subst hfile
      rw [if_pos rfl]
      split_ifs <;> rfl
    · by_cases hfile' : file = 2
      · subst hfile'
        by_cases howner : owner = 1
        · subst howner
          rfl
        · have hne : (some 1 : Owner) ≠ some owner := fun heq => howner (Option.some.inj heq).symm
          split_ifs <;> simp_all [attached]
      · split_ifs <;> simp_all [reloading, attached, eq_comm]
  · intro file x hx
    rw [hentries] at hx
    split_ifs at hx with hfile hfile'
    · cases hx
      exact .inl hfile.symm
    · cases hx
      exact .inl hfile'.symm
  · intro file x hx
    rw [h] at hx
    split_ifs at hx
    · cases hx
      decide
    · cases hx
      decide

theorem find_attachedFirst (file : Asset) : attachedFirst.find file =
    if file = 1 then some (.loading reloading) else if file = 2 then some (.loading attached)
    else none := by
  by_cases hfile : file = 1
  · subst hfile
    rfl
  · by_cases hfile' : file = 2
    · subst hfile'
      rfl
    · simp [attachedFirst, DenseTable.find, hfile, hfile', Ne.symm hfile, Ne.symm hfile']

theorem find_attachedLast (file : Asset) : attachedLast.find file =
    if file = 1 then some (.loading reloading) else if file = 2 then some (.loading attached)
    else none := by
  by_cases hfile : file = 1
  · subst hfile
    rfl
  · by_cases hfile' : file = 2
    · subst hfile'
      rfl
    · simp [attachedLast, DenseTable.find, hfile, hfile', Ne.symm hfile, Ne.symm hfile']

theorem keepsEntry_last :
    KeepsEntry spell { State.initial with loads := attachedLast } 1 reloading := by
  have hnot : ¬ Dropped (givePrevious attachedLast 1 reloading) 1 1 := by
    rintro ⟨hentry, -, hglobal, -⟩
    cases hentry
    exact hglobal (.head _)
  have hmem : ((1, .loading { reloading with attachments := reloading.attachments.eraseFront 1 }) :
      Asset × Load) ∈ (givePrevious attachedLast 1 reloading).array Load.kind .loadingLoad :=
    .head _
  refine (keepsEntry_iff spell (symmetric_of_find find_attachedLast) rfl).mpr (.inr ⟨hnot, ?_⟩)
  exact Nat.lt_of_lt_of_le Nat.zero_lt_one
    (List.length_pos_of_mem (List.mem_filter.mpr ⟨hmem, by simpa using hnot⟩))

/-- The attachment is erased, and the file takes its place. -/
theorem not_keepsEntry_first : Symmetric attachedFirst ∧
    ¬ KeepsEntry spell { State.initial with loads := attachedFirst } 1 reloading := by
  refine ⟨symmetric_of_find find_attachedFirst, ?_⟩
  rintro ⟨s', owners, hok, -⟩
  cases show Except.error Fault.movedEntry = Except.ok s' from hok

end Fimbulwinter.Loader
