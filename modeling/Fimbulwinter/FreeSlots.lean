import Fimbulwinter.Fragmentation
import Mathlib.Data.List.Perm.Subperm

/-! # The free slots of `utility::fragmentation`

The last part of the indices lists the slots without elements, whatever is erased. The first
part is only right as long as no element is erased out of turn, and growth relies on it. -/
namespace Fimbulwinter.Fragmentation

variable {α : Type*}

/-- A fragmentation without elements. Static storage has its capacity from the beginning, and no
allocation succeeds. -/
def ofSlots (capacity : ℕ) : Fragmentation α := ⟨List.range capacity, 0, .raw⟩

/-- Only slots that there are can be erased. -/
def Called (f : Fragmentation α) : Operation α → Prop
  | .emplace _ _ => True
  | .erase i => i < f.capacity

/-- Storage that grows has each of its slots in the indices once. -/
def GrowsWhole (f : Fragmentation α) : Operation α → Prop
  | .emplace _ allocates =>
    f.size = f.capacity → allocates = true → f.size + 1 ≤ clp2 (f.size + 1) → f.indices.Nodup
  | .erase _ => True

/-- An emplace takes a slot without element, or there is none and the storage cannot grow. An
erase reports whether there has been an element. -/
def HandsOut (f : Fragmentation α) : Operation α → Prop
  | .emplace x allocates =>
    (∃ g i, f.tryEmplace x allocates = .ok (g, some i) ∧ f.storage i = none ∧
        g.storage = Function.update f.storage i (some x)) ∨
      f.tryEmplace x allocates = .ok (f, none) ∧ (∀ i < f.capacity, (f.storage i).isSome) ∧
        (allocates = false ∨ clp2 (f.size + 1) < f.size + 1)
  | .erase i =>
    ∃ g, f.tryErase i = .ok (g, (f.storage i).isSome) ∧ g.storage = Function.update f.storage i none

/-- The last part of the indices lists each slot without element once. -/
structure Tracked (f : Fragmentation α) : Prop where
  size_le : f.size ≤ f.capacity
  bounded : ∀ i ∈ f.indices, i < f.capacity
  nodup : f.unlisted.Nodup
  free : ∀ i, i ∈ f.unlisted ↔ i < f.capacity ∧ f.storage i = none
  outside : ∀ i, f.capacity ≤ i → f.storage i = none

variable {f g : Fragmentation α} {i : ℕ} {x : α} {allocates : Bool}

theorem ofSlots_tracked (capacity : ℕ) : (ofSlots capacity : Fragmentation α).Tracked where
  size_le := Nat.zero_le _
  bounded := by simp [ofSlots, Fragmentation.capacity]
  nodup := List.nodup_range
  free := by simp [ofSlots, Fragmentation.capacity, unlisted, ObjectStorage.raw]
  outside := fun _ _ => rfl

theorem Consistent.tracked (h : f.Consistent) : f.Tracked where
  size_le := h.size_le
  bounded := fun _ hi => h.mem_indices.mp hi
  nodup := h.nodup.sublist (List.drop_sublist _ _)
  free := fun _ => h.mem_unlisted
  outside := fun i hi => by
    rw [← Option.not_isSome_iff_eq_none, ← h.live]
    intro hlisted
    exact Nat.not_lt.mpr hi (h.mem_indices.mp (List.mem_of_mem_take hlisted))

theorem Tracked.perm (h : f.Tracked) (hnodup : f.indices.Nodup) :
    f.indices.Perm (List.range f.capacity) := by
  have hsubset : f.indices ⊆ List.range f.capacity := fun i hi =>
    List.mem_range.mpr (h.bounded i hi)
  exact (hnodup.subperm hsubset).perm_of_length_le (by rw [List.length_range, capacity])

/-- All slots of a full fragmentation have elements. -/
theorem Tracked.live_of_full (h : f.Tracked) (hfull : f.size = f.capacity) (hi : i < f.capacity) :
    (f.storage i).isSome := by
  by_contra hnone
  have hmem := (h.free i).mpr ⟨hi, Option.not_isSome_iff_eq_none.mp hnone⟩
  rw [unlisted, hfull, capacity, List.drop_length] at hmem
  exact List.not_mem_nil hmem

/-- A full fragmentation whose indices have no duplicates is consistent. -/
theorem Tracked.consistent (h : f.Tracked) (hfull : f.size = f.capacity)
    (hnodup : f.indices.Nodup) : f.Consistent where
  size_le := h.size_le
  permutation := h.perm hnodup
  live := fun i => by
    rw [listed, hfull, capacity, List.take_length, (h.perm hnodup).mem_iff, List.mem_range]
    constructor
    · exact h.live_of_full hfull
    · intro hsome
      by_contra hi
      rw [h.outside i (Nat.not_lt.mp hi)] at hsome
      exact Bool.false_ne_true hsome

/-! ## Emplacing -/

theorem Tracked.construct (h : f.Tracked) (hlt : f.size < f.capacity) (x : α) :
    ∃ i, f.indices[f.size]? = some i ∧ f.storage i = none ∧
      (⟨f.indices, f.size + 1, Function.update f.storage i (some x)⟩ : Fragmentation α).Tracked := by
  have hdrop : f.unlisted = f.indices[f.size] :: f.indices.drop (f.size + 1) :=
    List.drop_eq_getElem_cons hlt
  have hmem : f.indices[f.size] ∈ f.unlisted := by
    rw [hdrop]
    exact List.mem_cons_self
  have hnodup := h.nodup
  rw [hdrop, List.nodup_cons] at hnodup
  obtain ⟨hbound, hnone⟩ := (h.free _).mp hmem
  refine ⟨f.indices[f.size], List.getElem?_eq_getElem hlt, hnone,
    ⟨hlt, h.bounded, hnodup.2, fun j => ?_, fun j hj => ?_⟩⟩
  · have hfree := h.free j
    rw [hdrop, List.mem_cons] at hfree
    change j ∈ f.indices.drop (f.size + 1) ↔ j < f.capacity ∧ Function.update f.storage _ _ j = none
    by_cases hj : j = f.indices[f.size]
    · rw [hj, Function.update_self]
      exact ⟨fun hin => absurd hin hnodup.1, fun hsome => absurd hsome.2 (Option.some_ne_none x)⟩
    · rw [Function.update_of_ne hj, ← hfree]
      exact (or_iff_right hj).symm
  · change Function.update f.storage _ _ j = none
    have hj' : f.capacity ≤ j := hj
    rw [Function.update_of_ne (by omega), h.outside j hj']

/-- A list with an index twice cannot be moved to new storage. -/
theorem moveAll_of_not_nodup {source m : ObjectStorage ℕ α} {is : List ℕ} (h : ¬ is.Nodup)
    {m' : ObjectStorage ℕ α} : ObjectStorage.moveAll source m is ≠ .ok m' := by
  have hover : ∀ {is : List ℕ} {m m' : ObjectStorage ℕ α} {i : ℕ}, i ∈ is → m i ≠ none →
      ObjectStorage.moveAll source m is ≠ .ok m' := by
    intro is
    induction is with
    | nil =>
      intro _ _ _ hi
      exact absurd hi List.not_mem_nil
    | cons j is ih =>
      intro m m' i hi hm hmove
      rw [ObjectStorage.moveAll] at hmove
      split at hmove
      · cases hmove
      · split at hmove
        · cases hmove
        next n hn =>
          rw [ObjectStorage.construct] at hn
          split at hn
          next hraw =>
            cases hn
            have hij : i ≠ j := fun hij => hm (hij ▸ hraw)
            exact ih ((List.mem_cons.mp hi).resolve_left hij)
              (by rwa [Function.update_of_ne hij]) hmove
          · cases hn
  induction is generalizing m with
  | nil => exact absurd List.nodup_nil h
  | cons i is ih =>
    intro hmove
    rw [ObjectStorage.moveAll] at hmove
    split at hmove
    · cases hmove
    · split at hmove
      · cases hmove
      next n hn =>
        rw [ObjectStorage.construct] at hn
        split at hn
        · cases hn
          by_cases hi : i ∈ is
          · exact hover hi (by rw [Function.update_self]; exact Option.some_ne_none _) hmove
          · exact ih (fun hnodup => h (List.nodup_cons.mpr ⟨hi, hnodup⟩)) hmove
        · cases hn

theorem tryEmplace_of_reserved (x : α) (hreserve : f.tryReserve (f.size + 1) allocates = .ok (g, true))
    (hi : g.indices[g.size]? = some i) (hraw : g.storage i = none) :
    f.tryEmplace x allocates =
      .ok (⟨g.indices, g.size + 1, Function.update g.storage i (some x)⟩, some i) := by
  simp only [tryEmplace, hreserve, hi, ObjectStorage.construct_of_raw x hraw]

/-- An emplace hands out a free slot, unless there is none and no growth. -/
theorem Tracked.emplace (h : f.Tracked) (hgrows : f.GrowsWhole (.emplace x allocates)) :
    f.HandsOut (.emplace x allocates) ∧
      ∃ g r, f.tryEmplace x allocates = .ok (g, r) ∧ g.Tracked := by
  rcases Nat.lt_or_eq_of_le h.size_le with hlt | hfull
  · obtain ⟨i, hi, hnone, htracked⟩ := h.construct hlt x
    have hreserve : f.tryReserve (f.size + 1) allocates = .ok (f, true) := if_pos hlt
    have hemplace := tryEmplace_of_reserved x hreserve hi hnone
    exact ⟨.inl ⟨_, i, hemplace, hnone, rfl⟩, _, _, hemplace, htracked⟩
  · have hnot : ¬ f.size + 1 ≤ f.capacity := by omega
    by_cases hgrown : allocates = true ∧ f.size + 1 ≤ clp2 (f.size + 1)
    · obtain ⟨rfl, hle⟩ := hgrown
      obtain ⟨g, hg, hstorage, hsize, hcapacity, hconsistent⟩ :=
        (h.consistent hfull (hgrows hfull rfl hle)).tryReallocate hle (by omega)
      obtain ⟨i, hi, hnone, htracked⟩ := hconsistent.tracked.construct (by omega) x
      have hemplace := tryEmplace_of_reserved x (f := f)
        (by rw [tryReserve, if_neg hnot]; exact hg) hi hnone
      exact ⟨.inl ⟨_, i, hemplace, hstorage ▸ hnone, by rw [hstorage]⟩, _, _, hemplace, htracked⟩
    · have hfails : allocates = false ∨ clp2 (f.size + 1) < f.size + 1 := by
        rcases Bool.eq_false_or_eq_true allocates with htrue | hfalse
        · exact .inr (Nat.not_le.mp fun hle => hgrown ⟨htrue, hle⟩)
        · exact .inl hfalse
      have hreserve : f.tryReserve (f.size + 1) allocates = .ok (f, false) := by
        rw [tryReserve, if_neg hnot, tryReallocate]
        rcases hfails with rfl | hlt
        · simp
        · simp [hlt]
      have hemplace : f.tryEmplace x allocates = .ok (f, none) := by
        simp only [tryEmplace, hreserve]
      exact ⟨.inr ⟨hemplace, fun i hi => h.live_of_full hfull hi, hfails⟩, f, none, hemplace, h⟩

/-- A growth fails when the indices have a slot twice. -/
theorem growsWhole_of_tryEmplace {r : Option ℕ} (h : f.tryEmplace x allocates = .ok (g, r)) :
    f.GrowsWhole (.emplace x allocates) := by
  intro hfull hallocates hle
  by_contra hnodup
  have hnot : ¬ f.size + 1 ≤ f.capacity := by omega
  have hlisted : f.listed = f.indices := by
    rw [listed, hfull, capacity, List.take_length]
  rw [tryEmplace, tryReserve, if_neg hnot, tryReallocate, if_neg (Nat.not_lt.mpr hle), hallocates,
    hlisted] at h
  simp only [Bool.true_eq_false, if_false] at h
  cases hmove : f.storage.moveAll .raw f.indices with
  | error e =>
    rw [hmove] at h
    cases h
  | ok m => exact moveAll_of_not_nodup hnodup hmove

/-! ## Erasing -/

theorem Tracked.size_pos (h : f.Tracked) (hi : i < f.capacity) (hlive : i ∉ f.unlisted) :
    0 < f.size := by
  by_contra hzero
  have hsize : f.size = 0 := by omega
  have hindices : f.unlisted = f.indices := by rw [unlisted, hsize, List.drop_zero]
  have hnodup := h.nodup
  rw [hindices] at hlive hnodup
  exact hlive ((h.perm hnodup).mem_iff.mpr (List.mem_range.mpr hi))

theorem Tracked.erase (h : f.Tracked) (hi : i < f.capacity) :
    ∃ g, f.tryErase i = .ok (g, (f.storage i).isSome) ∧
      g.storage = Function.update f.storage i none ∧ g.Tracked := by
  by_cases hunlisted : i ∈ f.unlisted
  · have hnone := ((h.free i).mp hunlisted).2
    refine ⟨f, ?_, ?_, h⟩
    · rw [tryErase, if_pos hunlisted, hnone]
      rfl
    · rw [← hnone, Function.update_eq_self]
  · obtain ⟨x, hx⟩ : ∃ x, f.storage i = some x :=
      Option.ne_none_iff_exists'.mp fun hnone => hunlisted ((h.free i).mpr ⟨hi, hnone⟩)
    have hpos := h.size_pos hi hunlisted
    have hlt : f.size - 1 < (f.indices.set (f.size - 1) i).length := by
      rw [List.length_set]
      exact Nat.lt_of_lt_of_le (Nat.sub_one_lt_of_lt hpos) h.size_le
    -- The free slots are those from before, and the one that is erased in front of them.
    have hdrop : (f.indices.set (f.size - 1) i).drop (f.size - 1) = i :: f.unlisted := by
      rw [List.drop_eq_getElem_cons hlt, List.getElem_set_self, Nat.sub_add_cancel hpos,
        List.drop_set_of_lt (Nat.sub_one_lt_of_lt hpos), unlisted]
    have hcapacity : (f.indices.set (f.size - 1) i).length = f.capacity := List.length_set
    refine ⟨⟨f.indices.set (f.size - 1) i, f.size - 1, Function.update f.storage i none⟩,
      ?_, rfl, ⟨?_, fun j hj => ?_, ?_, fun j => ?_, fun j hj => ?_⟩⟩
    · simp only [tryErase, if_neg hunlisted, ObjectStorage.destruct_of_some hx, hx, Option.isSome_some]
    · exact hlt.le
    · rw [capacity, hcapacity]
      rcases List.mem_or_eq_of_mem_set hj with hj | rfl
      · exact h.bounded j hj
      · exact hi
    · rw [unlisted, hdrop]
      exact List.nodup_cons.mpr ⟨hunlisted, h.nodup⟩
    · change j ∈ (f.indices.set (f.size - 1) i).drop (f.size - 1) ↔
        j < (f.indices.set (f.size - 1) i).length ∧ Function.update f.storage i none j = none
      rw [hdrop, List.mem_cons, h.free, hcapacity]
      by_cases hji : j = i
      · subst hji
        rw [Function.update_self]
        exact ⟨fun _ => ⟨hi, rfl⟩, fun _ => .inl rfl⟩
      · rw [Function.update_of_ne hji]
        exact or_iff_right hji
    · rw [capacity, hcapacity] at hj
      change Function.update f.storage i none j = none
      rw [Function.update_of_ne (by omega), h.outside j hj]

/-! ## Histories -/

/-- What a call reports holds exactly if storage that it has to grow is whole. -/
theorem Tracked.handsOut_iff_growsWhole (h : f.Tracked) {operation : Operation α}
    (hcalled : f.Called operation) :
    f.HandsOut operation ↔ f.GrowsWhole operation := by
  cases operation with
  | emplace x allocates =>
    constructor
    · rintro (⟨g, i, hg, -⟩ | ⟨hg, -⟩)
      · exact growsWhole_of_tryEmplace hg
      · exact growsWhole_of_tryEmplace hg
    · exact fun hgrows => (h.emplace hgrows).1
  | erase i =>
    obtain ⟨g, hg, hstorage, -⟩ := h.erase hcalled
    exact ⟨fun _ => trivial, fun _ => ⟨g, hg, hstorage⟩⟩

theorem Tracked.apply (h : f.Tracked) {operation : Operation α}
    (hmeets : f.Called operation ∧ f.GrowsWhole operation) (hg : f.apply operation = .ok g) :
    g.Tracked := by
  cases operation with
  | emplace x allocates =>
    obtain ⟨-, g', r, hg', htracked⟩ := h.emplace hmeets.2
    rw [Fragmentation.apply, hg'] at hg
    cases hg
    exact htracked
  | erase i =>
    obtain ⟨g', hg', -, htracked⟩ := h.erase hmeets.1
    rw [Fragmentation.apply, hg'] at hg
    cases hg
    exact htracked

end Fimbulwinter.Fragmentation
