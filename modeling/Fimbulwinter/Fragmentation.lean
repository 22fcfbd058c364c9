import Fimbulwinter.HeapVector
import Fimbulwinter.ObjectStorage
import Fimbulwinter.TransitionRuns

/-! # `utility::fragmentation`

Elements that keep their slots. The first part of the indices lists the slots with
elements and the rest those without, as long as elements are erased from the last
one on: an erase writes its slot over the last index of the list, wherever the slot
was listed. -/
namespace Fimbulwinter

/-- A dynamically growing fragmentation; the capacity is the number of indices. -/
structure Fragmentation (α : Type*) where
  indices : List ℕ
  size : ℕ
  storage : ObjectStorage ℕ α

namespace Fragmentation

variable {α : Type*}

def capacity (f : Fragmentation α) : ℕ := f.indices.length

/-- The part of the indices that is taken for slots with elements. -/
def listed (f : Fragmentation α) : List ℕ := f.indices.take f.size

/-- The part of the indices that is taken for slots without elements. -/
def unlisted (f : Fragmentation α) : List ℕ := f.indices.drop f.size

/-- The constructor. -/
def ofCapacity (minCapacity : ℕ) : Fragmentation α := ⟨List.range (clp2 minCapacity), 0, .raw⟩

/-- Destruction of the elements, before the storage is released. -/
def purge (f : Fragmentation α) : Except Misuse (ObjectStorage ℕ α) :=
  f.storage.destructAll f.listed

/-- Growth into new storage, if that can be allocated. -/
def tryReallocate (f : Fragmentation α) (minCapacity : ℕ) (allocates : Bool) :
    Except Misuse (Fragmentation α × Bool) :=
  let newCapacity := clp2 minCapacity
  if newCapacity < minCapacity then .ok (f, false)
  else if allocates = false then .ok (f, false)
  else
    match f.storage.moveAll .raw f.listed with
    | .error e => .error e
    | .ok storage =>
      match f.purge with
      | .error e => .error e
      | .ok _ =>
        .ok (⟨f.indices ++ List.range' f.capacity (newCapacity - f.capacity), f.size, storage⟩, true)

def tryReserve (f : Fragmentation α) (minCapacity : ℕ) (allocates : Bool) :
    Except Misuse (Fragmentation α × Bool) :=
  if minCapacity ≤ f.capacity then .ok (f, true) else f.tryReallocate minCapacity allocates

/-- An element is constructed in the first unlisted slot. -/
def tryEmplace (f : Fragmentation α) (x : α) (allocates : Bool) :
    Except Misuse (Fragmentation α × Option ℕ) :=
  match f.tryReserve (f.size + 1) allocates with
  | .error e => .error e
  | .ok (f, false) => .ok (f, none)
  | .ok (f, true) =>
    match f.indices[f.size]? with
    | none => .error .readRaw
    | some index =>
      match f.storage.construct index x with
      | .error e => .error e
      | .ok storage => .ok (⟨f.indices, f.size + 1, storage⟩, some index)

/-- An element is destructed unless its slot is unlisted. -/
def tryErase (f : Fragmentation α) (index : ℕ) : Except Misuse (Fragmentation α × Bool) :=
  if index ∈ f.unlisted then .ok (f, false)
  else
    match f.storage.destruct index with
    | .error e => .error e
    | .ok storage =>
      let last := f.size - 1
      .ok (⟨f.indices.set last index, last, storage⟩, true)

/-- An emplace comes with what the allocator does, should it be asked. -/
inductive Operation (α : Type*)
  | emplace (x : α) (allocates : Bool)
  | erase (index : ℕ)
  deriving DecidableEq, Repr

def apply (f : Fragmentation α) : Operation α → Except Misuse (Fragmentation α)
  | .emplace x allocates => (f.tryEmplace x allocates).map Prod.fst
  | .erase index => (f.tryErase index).map Prod.fst

/-! ## Consistent indices -/

/-- The indices are a permutation of all slots, and list those that hold elements first. -/
structure Consistent (f : Fragmentation α) : Prop where
  size_le : f.size ≤ f.capacity
  permutation : f.indices.Perm (List.range f.capacity)
  live : ∀ i, i ∈ f.listed ↔ (f.storage i).isSome

variable {f g : Fragmentation α} {i : ℕ}

theorem listed_append_unlisted (f : Fragmentation α) : f.listed ++ f.unlisted = f.indices :=
  List.take_append_drop _ _

theorem Consistent.nodup (h : f.Consistent) : f.indices.Nodup :=
  h.permutation.nodup_iff.mpr List.nodup_range

theorem Consistent.nodup_listed (h : f.Consistent) : f.listed.Nodup :=
  h.nodup.sublist (List.take_sublist _ _)

theorem Consistent.mem_indices (h : f.Consistent) : i ∈ f.indices ↔ i < f.capacity := by
  rw [h.permutation.mem_iff, List.mem_range]

theorem Consistent.mem_unlisted (h : f.Consistent) :
    i ∈ f.unlisted ↔ i < f.capacity ∧ f.storage i = none := by
  have hnodup := h.nodup
  rw [← f.listed_append_unlisted, List.nodup_append] at hnodup
  rw [← h.mem_indices, ← f.listed_append_unlisted, List.mem_append]
  constructor
  · intro hi
    refine ⟨Or.inr hi, ?_⟩
    rw [← Option.not_isSome_iff_eq_none, ← h.live]
    exact fun hlisted => hnodup.2.2 i hlisted i hi rfl
  · rintro ⟨hlisted | hi, hnone⟩
    · rw [h.live, hnone] at hlisted
      exact absurd hlisted Bool.false_ne_true
    · exact hi

theorem ofCapacity_consistent (n : ℕ) : (ofCapacity n : Fragmentation α).Consistent where
  size_le := Nat.zero_le _
  permutation := by simp [ofCapacity, capacity]
  live := by simp [ofCapacity, listed, ObjectStorage.raw]

theorem Consistent.purge (h : f.Consistent) : f.purge = .ok .raw := by
  rw [Fragmentation.purge, ObjectStorage.destructAll_ok h.nodup_listed fun i hi => (h.live i).mp hi]
  congr 1
  funext i
  split_ifs with hi
  · rfl
  · rw [h.live, Option.not_isSome_iff_eq_none] at hi
    exact hi

/-- A growth keeps the size and every element at its own index. -/
theorem Consistent.tryReallocate (h : f.Consistent) {n : ℕ} (hle : n ≤ clp2 n)
    (hcapacity : f.capacity ≤ n) : ∃ g, f.tryReallocate n true = .ok (g, true) ∧
      g.storage = f.storage ∧ g.size = f.size ∧ g.capacity = clp2 n ∧ g.Consistent := by
  have hmove : f.storage.moveAll .raw f.listed = .ok f.storage := by
    rw [ObjectStorage.moveAll_ok (m := .raw) h.nodup_listed (fun i hi => (h.live i).mp hi)
      fun i _ => rfl]
    congr 1
    funext i
    split_ifs with hi
    · rfl
    · rw [h.live, Option.not_isSome_iff_eq_none] at hi
      exact hi.symm
  have hlength : (f.indices ++ List.range' f.capacity (clp2 n - f.capacity)).length = clp2 n := by
    rw [List.length_append, List.length_range']
    exact Nat.add_sub_cancel' (hcapacity.trans hle)
  refine ⟨⟨f.indices ++ List.range' f.capacity (clp2 n - f.capacity), f.size, f.storage⟩,
    ?_, rfl, rfl, hlength, ?_⟩
  · simp [Fragmentation.tryReallocate, Nat.not_lt.mpr hle, hmove, h.purge]
  · constructor
    · change f.size ≤ List.length _
      rw [hlength]
      exact h.size_le.trans (hcapacity.trans hle)
    · change List.Perm _ (List.range (List.length _))
      rw [hlength, ← Nat.add_sub_cancel' (hcapacity.trans hle), List.range_add,
        Nat.add_sub_cancel_left, ← List.range'_eq_map_range]
      exact h.permutation.append_right _
    · intro i
      rw [listed, List.take_append_of_le_length h.size_le]
      exact h.live i

/-- Nothing is emplaced when the storage is full and cannot grow. -/
def Exhausted (f : Fragmentation α) (allocates : Bool) : Prop :=
  f.size = f.capacity ∧ (allocates = false ∨ clp2 (f.size + 1) < f.size + 1)

/-- What an operation does to the elements. -/
def Changes (f : Fragmentation α) : Operation α → Fragmentation α → Prop
  | .emplace x allocates, g =>
    (f.Exhausted allocates ∧ g = f) ∨
      ∃ i, f.storage i = none ∧ g.storage = Function.update f.storage i (some x)
  | .erase i, g => g.storage = Function.update f.storage i none

theorem Consistent.tryReserve (h : f.Consistent) (allocates : Bool) :
    (f.Exhausted allocates ∧ f.tryReserve (f.size + 1) allocates = .ok (f, false)) ∨
    ∃ g, f.tryReserve (f.size + 1) allocates = .ok (g, true) ∧
      g.storage = f.storage ∧ g.size = f.size ∧ g.size < g.capacity ∧ g.Consistent := by
  rcases Nat.lt_or_eq_of_le h.size_le with hlt | heq
  · exact .inr ⟨f, if_pos hlt, rfl, rfl, hlt, h⟩
  · have hfull : ¬ f.size + 1 ≤ f.capacity := by rw [heq]; exact Nat.not_succ_le_self _
    rw [Fragmentation.tryReserve, if_neg hfull]
    rcases Nat.lt_or_ge (clp2 (f.size + 1)) (f.size + 1) with hoverflow | hle
    · exact .inl ⟨⟨heq, .inr hoverflow⟩, by simp [Fragmentation.tryReallocate, hoverflow]⟩
    · cases allocates with
      | false => exact .inl ⟨⟨heq, .inl rfl⟩, by simp [Fragmentation.tryReallocate]⟩
      | true =>
        obtain ⟨g, hg, hstorage, hsize, hcapacity, hconsistent⟩ :=
          h.tryReallocate hle (heq ▸ Nat.le_succ f.size)
        exact .inr ⟨g, hg, hstorage, hsize, by rw [hcapacity, hsize]; exact hle, hconsistent⟩

theorem Consistent.construct (h : f.Consistent) (hlt : f.size < f.capacity) (x : α) :
    ∃ i, f.indices[f.size]? = some i ∧ f.storage i = none ∧
      (⟨f.indices, f.size + 1, Function.update f.storage i (some x)⟩ :
        Fragmentation α).Consistent := by
  refine ⟨f.indices[f.size], List.getElem?_eq_getElem hlt, ?_, ?_⟩
  · have hmem : f.indices[f.size] ∈ f.unlisted := by
      rw [unlisted, List.drop_eq_getElem_cons hlt]
      exact List.mem_cons_self
    exact (h.mem_unlisted.mp hmem).2
  · refine ⟨hlt, h.permutation, fun i => ?_⟩
    have hlive := h.live i
    rw [listed] at hlive
    change i ∈ f.indices.take (f.size + 1) ↔
      (Function.update f.storage f.indices[f.size] (some x) i).isSome
    rw [List.take_add_one, List.getElem?_eq_getElem hlt, Option.toList_some, List.mem_append,
      List.mem_singleton]
    by_cases hi : i = f.indices[f.size]
    · simp [hi]
    · rw [Function.update_of_ne hi, ← hlive]
      exact or_iff_left hi

theorem Consistent.emplace (h : f.Consistent) (x : α) (allocates : Bool) :
    ∃ g, f.apply (.emplace x allocates) = .ok g ∧ f.Changes (.emplace x allocates) g ∧
      g.Consistent := by
  rcases h.tryReserve allocates with ⟨hexhausted, hreserve⟩ | ⟨g, hreserve, hstorage, hsize, hlt, hg⟩
  · exact ⟨f, by simp [apply, tryEmplace, hreserve, Except.map], .inl ⟨hexhausted, rfl⟩, h⟩
  · obtain ⟨i, hi, hraw, hconsistent⟩ := hg.construct hlt x
    refine ⟨_, ?_, .inr ⟨i, hstorage ▸ hraw, ?_⟩, hconsistent⟩
    · simp [apply, tryEmplace, hreserve, hi, ObjectStorage.construct_of_raw x hraw, Except.map]
    · rw [hstorage]

/-- Erased are the last element of the list, or slots without elements. -/
def ErasesLast (f : Fragmentation α) : Operation α → Prop
  | .emplace _ _ => True
  | .erase i => i ∈ f.unlisted ∨ f.listed.getLast? = some i

theorem Consistent.erase (h : f.Consistent) (hi : f.ErasesLast (.erase i)) :
    ∃ g, f.apply (.erase i) = .ok g ∧ f.Changes (.erase i) g ∧ g.Consistent := by
  by_cases hunlisted : i ∈ f.unlisted
  · refine ⟨f, by simp [apply, tryErase, hunlisted, Except.map], ?_, h⟩
    rw [Changes, ← (h.mem_unlisted.mp hunlisted).2, Function.update_eq_self]
  · have hlast : f.listed.getLast? = some i := hi.resolve_left hunlisted
    obtain ⟨init, hinit⟩ : ∃ init, f.listed = init ++ [i] :=
      List.getLast?_eq_some_iff.mp hlast
    have hsize : f.size = init.length + 1 := by
      have hlength : f.listed.length = f.size := List.length_take_of_le h.size_le
      rw [← hlength, hinit, List.length_append, List.length_singleton]
    have hset : f.indices.set (f.size - 1) i = f.indices := by
      rw [← f.listed_append_unlisted, hinit, hsize, Nat.add_sub_cancel, List.append_assoc,
        List.set_append_right _ _ (Nat.le_refl _), Nat.sub_self]
      rfl
    have hlisted : f.indices.take (f.size - 1) = init := by
      rw [← f.listed_append_unlisted, hinit, hsize, Nat.add_sub_cancel, List.append_assoc,
        List.take_left]
    obtain ⟨x, hx⟩ := Option.isSome_iff_exists.mp ((h.live i).mp (by simp [hinit]))
    refine ⟨⟨f.indices.set (f.size - 1) i, f.size - 1, Function.update f.storage i none⟩, ?_, rfl, ?_⟩
    · simp [apply, tryErase, hunlisted, ObjectStorage.destruct_of_some hx, Except.map]
    · rw [hset]
      refine ⟨(Nat.sub_le _ _).trans h.size_le, h.permutation, fun j => ?_⟩
      have hnodup := h.nodup_listed
      have hlive := h.live j
      rw [hinit] at hlive hnodup
      rw [listed, hlisted]
      change j ∈ init ↔ (Function.update f.storage i none j).isSome
      by_cases hj : j = i
      · subst hj
        have hnot : j ∉ init := fun hj => (List.nodup_append.mp hnodup).2.2 j hj j (by simp) rfl
        simp [hnot]
      · rw [Function.update_of_ne hj, ← hlive]
        simp [hj]

/-! ## Histories -/

/-- The indices list exactly the slots with elements before exactly the other ones, growth
keeps the elements, and destruction destroys each of them once. -/
structure Sound (f : Fragmentation α) : Prop where
  live : ∀ i, i ∈ f.listed ↔ (f.storage i).isSome
  free : ∀ i, i ∈ f.unlisted ↔ i < f.capacity ∧ f.storage i = none
  permutation : f.indices.Perm (List.range f.capacity)
  grows : ∀ n, n ≤ clp2 n → f.capacity ≤ n →
    ∃ g, f.tryReallocate n true = .ok (g, true) ∧ g.storage = f.storage
  destroys : f.purge = .ok .raw

theorem Consistent.sound (h : f.Consistent) : f.Sound where
  live := h.live
  free := fun _ => h.mem_unlisted
  permutation := h.permutation
  grows := fun n hle hcapacity => by
    obtain ⟨g, hg, hstorage, -⟩ := h.tryReallocate hle hcapacity
    exact ⟨g, hg, hstorage⟩
  destroys := h.purge

/-- An operation changes the elements as it should and leaves a sound fragmentation. -/
def Keeps (f : Fragmentation α) (operation : Operation α) (g : Fragmentation α) : Prop :=
  f.Changes operation g ∧ g.Sound

/-- An element that is erased out of turn is still listed. -/
theorem Consistent.erasesLast (h : f.Consistent) (hg : f.apply (.erase i) = .ok g)
    (hlive : ∀ j, j ∈ g.listed ↔ (g.storage j).isSome) : f.ErasesLast (.erase i) := by
  by_contra hi
  simp only [ErasesLast, not_or] at hi
  obtain ⟨hunlisted, hlast⟩ := hi
  cases hx : f.storage i with
  | none => simp [apply, tryErase, hunlisted, ObjectStorage.destruct, hx, Except.map] at hg
  | some x =>
    simp only [apply, tryErase, if_neg hunlisted, ObjectStorage.destruct_of_some hx, Except.map,
      Except.ok.injEq] at hg
    subst hg
    have hlisted : i ∈ f.listed := (h.live i).mpr (by rw [hx]; rfl)
    obtain ⟨init, last, hinit⟩ := 
      (List.eq_nil_or_concat' f.listed).resolve_left (List.ne_nil_of_mem hlisted)
    have hsize : f.size = init.length + 1 := by
      have hlength : f.listed.length = f.size := List.length_take_of_le h.size_le
      rw [← hlength, hinit, List.length_append, List.length_singleton]
    have hmem : i ∈ init := by
      rw [hinit, List.mem_append, List.mem_singleton] at hlisted
      refine hlisted.resolve_right fun heq => hlast ?_
      rw [hinit, List.getLast?_concat, heq]
    have hstill : i ∈ (f.indices.set (f.size - 1) i).take (f.size - 1) := by
      rw [List.take_set_of_le (Nat.le_refl _), ← f.listed_append_unlisted, hinit, hsize,
        Nat.add_sub_cancel, List.append_assoc, List.take_left]
      exact hmem
    have hgone := (hlive i).mp hstill
    simp at hgone

end Fragmentation

end Fimbulwinter
