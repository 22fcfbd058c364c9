import Fimbulwinter.Collection
import Fimbulwinter.FreeSlots
import Fimbulwinter.LookupPlacement

/-! # `core::container::UnorderedCollection`

Components of several types that keep their places, in one fragmentation for each type, under one
table of keys. Replacing a component destroys the old one first. -/
namespace Fimbulwinter

namespace Fragmentation

variable {α : Type*} {f g : Fragmentation α} {i : ℕ} {x : α} {allocates : Bool}

/-- The slot that the next element takes. -/
def next (f : Fragmentation α) : ℕ := f.indices[f.size]?.getD f.size

theorem tryReallocate_done {minCapacity : ℕ}
    (h : f.tryReallocate minCapacity allocates = .ok (g, true)) :
    ∃ added, g.indices = f.indices ++ List.range' f.capacity added ∧ g.size = f.size := by
  rw [tryReallocate] at h
  split_ifs at h
  · cases h
  · cases h
  · split at h
    · cases h
    · split at h
      · cases h
      · cases h
        exact ⟨_, rfl, rfl⟩

theorem next_of_tryEmplace (hsize : f.size ≤ f.capacity)
    (h : f.tryEmplace x allocates = .ok (g, some i)) : i = f.next := by
  rw [tryEmplace] at h
  cases hreserve : f.tryReserve (f.size + 1) allocates with
  | error e =>
    rw [hreserve] at h
    cases h
  | ok r =>
    obtain ⟨mid, reserved⟩ := r
    rw [hreserve] at h
    cases reserved with
    | false => cases h
    | true =>
      dsimp only at h
      have hindex : mid.indices[mid.size]? = some i := by
        cases hi : mid.indices[mid.size]? with
        | none =>
          rw [hi] at h
          cases h
        | some j =>
          rw [hi] at h
          dsimp only at h
          split at h
          · cases h
          · cases h
            rfl
      rw [tryReserve] at hreserve
      split_ifs at hreserve with hle
      · cases hreserve
        rw [next, hindex, Option.getD_some]
      · obtain ⟨added, hindices, hmid⟩ := tryReallocate_done hreserve
        have hfull : f.size = f.indices.length := by
          rw [capacity] at hle hsize
          omega
        have hnone : f.indices[f.size]? = none := List.getElem?_eq_none (by omega)
        rw [next, hnone, Option.getD_none]
        rw [hindices, hmid, List.getElem?_append_right (by omega)] at hindex
        obtain ⟨hlt, hget⟩ := List.getElem?_eq_some_iff.mp hindex
        rw [List.getElem_range', capacity] at hget
        omega

/-- An emplace takes the next slot, unless there is none and the storage cannot grow. -/
theorem Tracked.emplace_cases (h : f.Tracked) (x : α)
    (hgrows : f.GrowsWhole (.emplace x allocates)) :
    (f.Exhausted allocates ∧ f.tryEmplace x allocates = .ok (f, none)) ∨
      ∃ g, f.tryEmplace x allocates = .ok (g, some f.next) ∧ f.storage f.next = none ∧
        g.storage = Function.update f.storage f.next (some x) ∧ g.Tracked := by
  obtain ⟨hhands, g, r, hg, htracked⟩ := h.emplace hgrows
  rcases hhands with ⟨g', i, hg', hnone, hstorage⟩ | ⟨hfails, -, hreason⟩
  · rw [hg] at hg'
    cases hg'
    obtain rfl := next_of_tryEmplace h.size_le hg
    exact .inr ⟨g, hg, hnone, hstorage, htracked⟩
  · refine .inl ⟨⟨?_, hreason⟩, hfails⟩
    by_contra hne
    have hlt : f.size < f.capacity := Nat.lt_of_le_of_ne h.size_le hne
    obtain ⟨i, hi, hnone, -⟩ := h.construct hlt x
    have hreserve : f.tryReserve (f.size + 1) allocates = .ok (f, true) := if_pos hlt
    have hboth := (tryEmplace_of_reserved x hreserve hi hnone).symm.trans hfails
    exact Option.some_ne_none i (Prod.mk.inj (Except.ok.inj hboth)).2

/-- The slot of an element that is erased is the next one to be taken. -/
theorem Tracked.erase_live (h : f.Tracked) (hx : f.storage i = some x) :
    ∃ g, f.tryErase i = .ok (g, true) ∧ g.storage = Function.update f.storage i none ∧ g.Tracked ∧
      g.size < g.capacity ∧ g.next = i := by
  have hi : i < f.capacity := by
    by_contra hout
    rw [h.outside i (Nat.not_lt.mp hout)] at hx
    cases hx
  have hunlisted : i ∉ f.unlisted := fun hmem => by
    rw [((h.free i).mp hmem).2] at hx
    cases hx
  obtain ⟨g, hg, hstorage, htracked⟩ := h.erase hi
  have hpos := h.size_pos hi hunlisted
  have herase : f.tryErase i =
      .ok (⟨f.indices.set (f.size - 1) i, f.size - 1, Function.update f.storage i none⟩, true) := by
    simp only [tryErase, if_neg hunlisted, ObjectStorage.destruct_of_some hx]
  rw [herase] at hg
  have hsize := h.size_le
  have hlt : f.size - 1 < f.indices.length := by
    rw [capacity] at hsize
    omega
  rw [hx] at hg
  cases hg
  refine ⟨_, herase, rfl, htracked, ?_, ?_⟩
  · show f.size - 1 < (f.indices.set (f.size - 1) i).length
    rwa [List.length_set]
  · show (f.indices.set (f.size - 1) i)[f.size - 1]?.getD (f.size - 1) = i
    rw [List.getElem?_set_self hlt, Option.getD_some]

end Fragmentation

structure UnorderedCollection (K : Type*) {n : ℕ} (C : Fin n → Type*) where
  lookup : LookupTable K Slot
  arrays : (type : Fin n) → Fragmentation (C type)

namespace UnorderedCollection

inductive Failure
  | lookup (e : Fault)
  | storage (e : Misuse)
  deriving DecidableEq, Repr

/-- What the allocators do, should they be asked. -/
structure Memory where
  lookup : ℕ → Bool
  array : Bool

variable {K : Type*} [DecidableEq K] [Zero K] {n : ℕ} {C : Fin n → Type*}

section Operations

variable (usize : K → ℕ) (storage : LookupStorage)

/-- The collection without components. -/
def empty (capacities : Fin n → ℕ) : UnorderedCollection K C :=
  ⟨.zero storage.initialSize, fun type => .ofSlots (capacities type)⟩

/-- `find` and `get`: the component of a key. -/
def component (c : UnorderedCollection K C) (key : K) : Option (Σ type, C type) :=
  let bucket := c.lookup.find usize key
  if bucket = noBucket then none
  else
    let slot := c.lookup.slots bucket
    if h : slot.getType < n then
      ((c.arrays ⟨slot.getType, h⟩).storage slot.getIndex).map (Sigma.mk _)
    else none

/-- `add_impl` -/
def addImpl (c : UnorderedCollection K C) (bucket : ℕ) (type : Fin n) (x : C type) (key : K)
    (allocates : Bool) : Except Failure (UnorderedCollection K C × Bool) :=
  match (c.arrays type).tryEmplace x allocates with
  | .error e => .error (.storage e)
  | .ok (array, none) => .ok (⟨c.lookup, Function.update c.arrays type array⟩, false)
  | .ok (array, some index) =>
    .ok (⟨c.lookup.place bucket (Slot.set type index) key, Function.update c.arrays type array⟩, true)

/-- `remove_impl` -/
def removeImpl (c : UnorderedCollection K C) (bucket : ℕ) :
    Except Failure (UnorderedCollection K C) :=
  let slot := c.lookup.slots bucket
  if h : slot.getType < n then
    if slot.getIndex < (c.arrays ⟨slot.getType, h⟩).capacity then
      match (c.arrays ⟨slot.getType, h⟩).tryErase slot.getIndex with
      | .error e => .error (.storage e)
      | .ok (array, _) =>
        .ok ⟨{ c.lookup with keys := Function.update c.lookup.keys bucket 0 },
          Function.update c.arrays ⟨slot.getType, h⟩ array⟩
    else .ok c
  else .error (.lookup .unreachable)

/-- A new key is placed, and its component added. -/
def placeImpl (c : UnorderedCollection K C) (type : Fin n) (x : C type) (key : K) (memory : Memory) :
    Except Failure (UnorderedCollection K C × Bool) :=
  match c.lookup.tryPlaceIf usize memory.lookup storage key LookupTable.placeFuel with
  | .error e => .error (.lookup e)
  | .ok (lookup, bucket) =>
    if bucket = noBucket then .ok ({ c with lookup := lookup }, false)
    else addImpl { c with lookup := lookup } bucket type x key memory.array

def emplace (c : UnorderedCollection K C) (type : Fin n) (x : C type) (key : K) (memory : Memory) :
    Except Failure (UnorderedCollection K C × Bool) :=
  if c.lookup.find usize key ≠ noBucket then .ok (c, false)
  else c.placeImpl usize storage type x key memory

def replace (c : UnorderedCollection K C) (type : Fin n) (x : C type) (key : K) (memory : Memory) :
    Except Failure (UnorderedCollection K C × Bool) :=
  if c.lookup.find usize key = noBucket then c.placeImpl usize storage type x key memory
  else
    match c.removeImpl (c.lookup.find usize key) with
    | .error e => .error e
    | .ok c' => c'.addImpl (c.lookup.find usize key) type x key memory.array

/-- `erase`, of what `find` gives for a key. -/
def erase (c : UnorderedCollection K C) (key : K) : Except Failure (UnorderedCollection K C) :=
  if c.lookup.find usize key = noBucket then .ok c else c.removeImpl (c.lookup.find usize key)

inductive Operation (K : Type*) {n : ℕ} (C : Fin n → Type*)
  | emplace (type : Fin n) (x : C type) (key : K) (memory : Memory)
  | replace (type : Fin n) (x : C type) (key : K) (memory : Memory)
  | erase (key : K)

def apply (c : UnorderedCollection K C) :
    Operation K C → Except Failure (UnorderedCollection K C)
  | .emplace type x key memory => (c.emplace usize storage type x key memory).map Prod.fst
  | .replace type x key memory => (c.replace usize storage type x key memory).map Prod.fst
  | .erase key => c.erase usize key

/-! ## All or nothing -/

/-- Every component that is alive belongs to a key. -/
def Owned (c : UnorderedCollection K C) : Prop :=
  ∀ type index, ((c.arrays type).storage index).isSome →
    ∃ key, key ≠ 0 ∧ c.lookup.Holds key (Slot.set type index)

/-- The component is replaced, and the old one no longer alive, or nothing has changed. -/
def AllOrNothing (c : UnorderedCollection K C) (type : Fin n) (x : C type) (key : K)
    (memory : Memory) : Prop :=
  ∃ c' done, c.replace usize storage type x key memory = .ok (c', done) ∧ c'.Owned ∧
    (∀ key', key' ≠ 0 → key' ≠ key → c'.component usize key' = c.component usize key') ∧
    c'.component usize key = if done then some ⟨type, x⟩ else c.component usize key

/-- The array that a component is added to is not moved while it has a slot in its indices twice,
and the slot that is taken has a 24-bit number. -/
structure Takes {α : Type*} (array : Fragmentation α) (allocates : Bool) : Prop where
  whole : ∀ x, array.GrowsWhole (.emplace x allocates)
  short : array.next < 2 ^ 24

/-- One key has another component, or none. -/
def Sets (c c' : UnorderedCollection K C) (key : K) (y : Option (Σ type, C type)) : Prop :=
  ∀ key', key' ≠ 0 → c'.component usize key' = if key' = key then y else c.component usize key'

/-- What an operation does to the components. -/
def Changes (c : UnorderedCollection K C) : Operation K C → UnorderedCollection K C → Prop
  | .emplace type x key _, c' =>
    ∃ done, (done = true → c.component usize key = none) ∧
      c.Sets usize c' key (if done then some ⟨type, x⟩ else c.component usize key)
  | .replace type x key _, c' =>
    ∃ done, c.Sets usize c' key (if done = true then some ⟨type, x⟩ else c.component usize key)
  | .erase key, c' => c.Sets usize c' key none

/-- What keeps the collection in order. A key that is there is given a component of the type that
it has, or of one that there is room for. -/
def Meets (c : UnorderedCollection K C) : Operation K C → Prop
  | .emplace type _ key memory =>
    key ≠ 0 ∧ (∀ n, 2 ^ 32 < n → memory.lookup n = false) ∧ Takes (c.arrays type) memory.array
  | .replace type _ key memory =>
    key ≠ 0 ∧
      match c.component usize key with
      | none => (∀ n, 2 ^ 32 < n → memory.lookup n = false) ∧ Takes (c.arrays type) memory.array
      | some old => old.1 = type ∨
        Takes (c.arrays type) memory.array ∧ ¬ (c.arrays type).Exhausted memory.array
  | .erase key => key ≠ 0

end Operations

/-! ## Consistent collections -/

/-- Every key has a component of its own, and every component a key. -/
structure Consistent (usize : K → ℕ) (storage : LookupStorage) (c : UnorderedCollection K C) :
    Prop where
  valid : c.lookup.Valid usize
  admits : storage.Admits c.lookup.size
  tracked : ∀ type, (c.arrays type).Tracked
  short : ∀ type index, ((c.arrays type).storage index).isSome → index < 2 ^ 24
  holds : ∀ key slot, key ≠ 0 → c.lookup.Holds key slot →
    ∃ (type : Fin n) (index : ℕ), slot = Slot.set type index ∧
      ((c.arrays type).storage index).isSome
  owned : c.Owned
  apart : ∀ key key' slot, key ≠ 0 → key' ≠ 0 → c.lookup.Holds key slot →
    c.lookup.Holds key' slot → key = key'

variable {usize : K → ℕ} {storage : LookupStorage} {c : UnorderedCollection K C} {key : K}
  {type : Fin n} {index bucket : ℕ} {x : C type}

omit [DecidableEq K] in
theorem holds_unique {S : Type*} {t : LookupTable K S} {slot slot' : S} (h : t.Valid usize)
    (hkey : key ≠ 0) (hslot : t.Holds key slot) (hslot' : t.Holds key slot') : slot = slot' := by
  obtain ⟨b, hb, rfl⟩ := hslot
  obtain ⟨b', hb', rfl⟩ := hslot'
  rw [h.unique b b' (by rwa [hb]) (hb.trans hb'.symm)]

omit [Zero K] in
theorem component_of_slot (hfind : c.lookup.find usize key = bucket)
    (hbucket : bucket ≠ noBucket) (htype : (c.lookup.slots bucket).getType = type) :
    c.component usize key =
      ((c.arrays type).storage (c.lookup.slots bucket).getIndex).map (Sigma.mk type) := by
  subst hfind
  have hlt : (c.lookup.slots (c.lookup.find usize key)).getType < n := htype ▸ type.isLt
  have heq : (⟨(c.lookup.slots (c.lookup.find usize key)).getType, hlt⟩ : Fin n) = type :=
    Fin.ext htype
  simp only [component, if_neg hbucket, dif_pos hlt]
  rw [heq]

omit [DecidableEq K] in
theorem removeImpl_of_slot {array : Fragmentation (C type)} {erased : Bool}
    (htype : (c.lookup.slots bucket).getType = type)
    (hindex : (c.lookup.slots bucket).getIndex < (c.arrays type).capacity)
    (herase : (c.arrays type).tryErase (c.lookup.slots bucket).getIndex = .ok (array, erased)) :
    c.removeImpl bucket = .ok ⟨{ c.lookup with keys := Function.update c.lookup.keys bucket 0 },
      Function.update c.arrays type array⟩ := by
  have hlt : (c.lookup.slots bucket).getType < n := htype ▸ type.isLt
  obtain rfl : (⟨(c.lookup.slots bucket).getType, hlt⟩ : Fin n) = type := Fin.ext htype
  simp only [removeImpl, dif_pos hlt, if_pos hindex, herase]

/-- A key that has a slot. -/
theorem Consistent.component_of_holds (h : c.Consistent usize storage) (hkey : key ≠ 0)
    (hholds : c.lookup.Holds key (Slot.set type index)) (hindex : index < 2 ^ 24) :
    c.component usize key = ((c.arrays type).storage index).map (Sigma.mk type) := by
  obtain ⟨b, hb, hslot⟩ := hholds
  have htype : (c.lookup.slots b).getType = type := by rw [hslot, Slot.getType_set hindex]
  rw [component_of_slot (h.valid.find_eq hkey hb) (h.valid.placed b (by rwa [hb])).2 htype, hslot,
    Slot.getIndex_set hindex]

omit [Zero K] in
theorem component_of_not_holds (h : ∀ b, c.lookup.keys b ≠ key) : c.component usize key = none := by
  simp only [component, LookupTable.find_eq_noBucket h, if_true]

theorem Consistent.component_eq {c' : UnorderedCollection K C} (h : c.Consistent usize storage)
    (h' : c'.Consistent usize storage) (hkey : key ≠ 0)
    (hholds : ∀ slot, c'.lookup.Holds key slot ↔ c.lookup.Holds key slot)
    (hstorage : ∀ (type : Fin n) (index : ℕ), c.lookup.Holds key (Slot.set type index) →
      index < 2 ^ 24 → (c'.arrays type).storage index = (c.arrays type).storage index) :
    c'.component usize key = c.component usize key := by
  by_cases hthere : ∃ b, c.lookup.keys b = key
  · obtain ⟨b, hb⟩ := hthere
    obtain ⟨type, index, hslot, hsome⟩ := h.holds key _ hkey ⟨b, hb, rfl⟩
    have hindex := h.short type index hsome
    have hc : c.lookup.Holds key (Slot.set type index) := ⟨b, hb, hslot⟩
    rw [h.component_of_holds hkey hc hindex, h'.component_of_holds hkey ((hholds _).mpr hc) hindex,
      hstorage type index hc hindex]
  · have hnone : ∀ b, c.lookup.keys b ≠ key := fun b hb => hthere ⟨b, hb⟩
    rw [component_of_not_holds hnone, component_of_not_holds fun b hb => ?_]
    obtain ⟨b', hb', -⟩ := (hholds _).mp ⟨b, hb, rfl⟩
    exact hnone b' hb'

/-! ## Removing -/

section Arrays

variable {array : Fragmentation (C type)} {y : Option (C type)}

omit [DecidableEq K] [Zero K] in
theorem storage_self (c : UnorderedCollection K C)
    (h : array.storage = Function.update (c.arrays type).storage index y) :
    (Function.update c.arrays type array type).storage index = y := by
  rw [Function.update_self, h, Function.update_self]

omit [DecidableEq K] [Zero K] in
theorem storage_other (c : UnorderedCollection K C)
    (h : array.storage = Function.update (c.arrays type).storage index y) {type' : Fin n}
    {index' : ℕ} (hne : ¬ (type' = type ∧ index' = index)) :
    (Function.update c.arrays type array type').storage index' = (c.arrays type').storage index' := by
  by_cases htype : type' = type
  · subst htype
    have hindex : index' ≠ index := fun heq => hne ⟨rfl, heq⟩
    rw [Function.update_self, h, Function.update_of_ne hindex]
  · rw [Function.update_of_ne htype]

omit [DecidableEq K] [Zero K] in
theorem tracked_update (h : ∀ type, (c.arrays type).Tracked) (harray : array.Tracked)
    (type' : Fin n) : (Function.update c.arrays type array type').Tracked := by
  by_cases htype : type' = type
  · subst htype
    rwa [Function.update_self]
  · rw [Function.update_of_ne htype]
    exact h type'

end Arrays

omit [DecidableEq K] in
/-- The key of a bucket is taken out. -/
theorem holds_vacated {S : Type*} {t : LookupTable K S} (h : t.Valid usize)
    (hkey : key ≠ 0) (hb : t.keys bucket = key) {key' : K} (hkey' : key' ≠ 0) (slot : S) :
    LookupTable.Holds ⟨t.size, t.slots, Function.update t.keys bucket 0⟩ key' slot ↔
      key' ≠ key ∧ t.Holds key' slot := by
  constructor
  · rintro ⟨b', hb', hslot⟩
    have hne : b' ≠ bucket := by
      rintro rfl
      exact hkey' (hb'.symm.trans (Function.update_self _ _ _))
    have hb'' : t.keys b' = key' := (Function.update_of_ne hne _ _).symm.trans hb'
    refine ⟨?_, b', hb'', hslot⟩
    rintro rfl
    exact hne (h.unique b' bucket (by rwa [hb'']) (hb''.trans hb.symm))
  · rintro ⟨hne, b', hb', hslot⟩
    have hne' : b' ≠ bucket := by
      rintro rfl
      exact hne (hb'.symm.trans hb)
    exact ⟨b', (Function.update_of_ne hne' _ _).trans hb', hslot⟩

omit [DecidableEq K] in
/-- No other key has the slot of a key. -/
theorem Consistent.slot_ne (h : c.Consistent usize storage) (hkey : key ≠ 0)
    (hholds : c.lookup.Holds key (Slot.set type index)) {key' : K} {type' : Fin n} {index' : ℕ}
    (hkey' : key' ≠ 0) (hne : key' ≠ key) (hholds' : c.lookup.Holds key' (Slot.set type' index')) :
    ¬ (type' = type ∧ index' = index) := by
  rintro ⟨rfl, rfl⟩
  exact hne (h.apart key' key _ hkey' hkey hholds' hholds)

omit [DecidableEq K] in
/-- No key has a slot without component. -/
theorem Consistent.slot_ne_of_none (h : c.Consistent usize storage)
    (hraw : (c.arrays type).storage index = none) {key' : K} {type' : Fin n} {index' : ℕ}
    (hkey' : key' ≠ 0) (hindex' : index' < 2 ^ 24)
    (hholds' : c.lookup.Holds key' (Slot.set type' index')) :
    ¬ (type' = type ∧ index' = index) := by
  rintro ⟨rfl, rfl⟩
  obtain ⟨type₂, index₂, hslot, hsome₂⟩ := h.holds key' _ hkey' hholds'
  obtain ⟨htypes, hindices⟩ := Slot.set_injective hindex' (h.short type₂ index₂ hsome₂) hslot
  obtain rfl := Fin.ext htypes
  rw [← hindices, hraw] at hsome₂
  cases hsome₂

omit [DecidableEq K] [Zero K] in
theorem short_update {array : Fragmentation (C type)} {y : Option (C type)}
    (h : ∀ type index, ((c.arrays type).storage index).isSome → index < 2 ^ 24)
    (hindex : index < 2 ^ 24)
    (hstorage : array.storage = Function.update (c.arrays type).storage index y) (type' : Fin n)
    (index' : ℕ)
    (hsome : ((Function.update c.arrays type array type').storage index').isSome) :
    index' < 2 ^ 24 := by
  by_cases heq : type' = type ∧ index' = index
  · obtain ⟨rfl, rfl⟩ := heq
    exact hindex
  · rw [storage_other c hstorage heq] at hsome
    exact h type' index' hsome

omit [DecidableEq K] in
/-- A key is taken out together with its component. -/
theorem Consistent.vacate {array : Fragmentation (C type)} (h : c.Consistent usize storage)
    (hkey : key ≠ 0) (hb : c.lookup.keys bucket = key)
    (hholds : c.lookup.Holds key (Slot.set type index)) (hindex : index < 2 ^ 24)
    (hstorage : array.storage = Function.update (c.arrays type).storage index none)
    (htracked : array.Tracked) :
    Consistent usize storage (⟨{ c.lookup with keys := Function.update c.lookup.keys bucket 0 },
      Function.update c.arrays type array⟩ : UnorderedCollection K C) := by
  have hvacated : ∀ key', key' ≠ 0 → ∀ slot, LookupTable.Holds
      { c.lookup with keys := Function.update c.lookup.keys bucket 0 } key' slot ↔
        key' ≠ key ∧ c.lookup.Holds key' slot :=
    fun key' hkey' slot => holds_vacated h.valid hkey hb hkey' slot
  refine ⟨h.valid.vacate bucket, h.admits, tracked_update h.tracked htracked,
    short_update h.short hindex hstorage, ?_, ?_, ?_⟩
  · intro key' slot hkey' hholds'
    obtain ⟨hne, hholds'⟩ := (hvacated key' hkey' slot).mp hholds'
    obtain ⟨type', index', rfl, hsome'⟩ := h.holds key' slot hkey' hholds'
    refine ⟨type', index', rfl, ?_⟩
    rwa [storage_other c hstorage (h.slot_ne hkey hholds hkey' hne hholds')]
  · intro type' index' hsome'
    have heq : ¬ (type' = type ∧ index' = index) := by
      rintro ⟨rfl, rfl⟩
      rw [storage_self c hstorage] at hsome'
      cases hsome'
    rw [storage_other c hstorage heq] at hsome'
    obtain ⟨key', hkey', hholds'⟩ := h.owned type' index' hsome'
    refine ⟨key', hkey', (hvacated key' hkey' _).mpr ⟨?_, hholds'⟩⟩
    rintro rfl
    obtain ⟨htypes, hindices⟩ := Slot.set_injective (h.short type' index' hsome') hindex
      (holds_unique h.valid hkey' hholds' hholds)
    exact heq ⟨Fin.ext htypes, hindices⟩
  · intro key₁ key₂ slot hkey₁ hkey₂ hholds₁ hholds₂
    exact h.apart key₁ key₂ slot hkey₁ hkey₂ ((hvacated key₁ hkey₁ slot).mp hholds₁).2
      ((hvacated key₂ hkey₂ slot).mp hholds₂).2

/-- What is left when the component of a key has been removed. -/
structure Removed (usize : K → ℕ) (storage : LookupStorage) (c c' : UnorderedCollection K C)
    (bucket : ℕ) (key : K) (type : Fin n) : Prop where
  consistent : c'.Consistent usize storage
  lookup : c'.lookup = { c.lookup with keys := Function.update c.lookup.keys bucket 0 }
  others : ∀ other, other ≠ type → c'.arrays other = c.arrays other
  room : (c'.arrays type).size < (c'.arrays type).capacity
  next : (c'.arrays type).next < 2 ^ 24
  component : ∀ key', key' ≠ 0 → key' ≠ key → c'.component usize key' = c.component usize key'

theorem Consistent.remove (h : c.Consistent usize storage) (hkey : key ≠ 0)
    (hb : c.lookup.keys bucket = key) :
    ∃ c' type x, c.removeImpl bucket = .ok c' ∧ c.component usize key = some ⟨type, x⟩ ∧
      Removed usize storage c c' bucket key type := by
  obtain ⟨type, index, hslot, hsome⟩ := h.holds key _ hkey ⟨bucket, hb, rfl⟩
  have hindex := h.short type index hsome
  have hholds : c.lookup.Holds key (Slot.set type index) := ⟨bucket, hb, hslot⟩
  obtain ⟨x, hx⟩ := Option.isSome_iff_exists.mp hsome
  obtain ⟨array, herase, hstorage, htracked, hroom, hnext⟩ := (h.tracked type).erase_live hx
  have hcapacity : index < (c.arrays type).capacity := by
    by_contra hout
    rw [(h.tracked type).outside index (Nat.not_lt.mp hout)] at hx
    cases hx
  have htype : (c.lookup.slots bucket).getType = type := by rw [hslot, Slot.getType_set hindex]
  have hgetIndex : (c.lookup.slots bucket).getIndex = index := by
    rw [hslot, Slot.getIndex_set hindex]
  have hremove := removeImpl_of_slot htype (by rwa [hgetIndex])
    (show _ = Except.ok (array, true) by rw [hgetIndex]; exact herase)
  have hconsistent := h.vacate hkey hb hholds hindex hstorage htracked
  refine ⟨_, type, x, hremove, ?_, hconsistent, rfl, fun other hne => Function.update_of_ne hne _ _,
    ?_, ?_, fun key' hkey' hne => ?_⟩
  · rw [h.component_of_holds hkey hholds hindex, hx]
    rfl
  · show (Function.update c.arrays type array type).size <
      (Function.update c.arrays type array type).capacity
    rwa [Function.update_self]
  · show (Function.update c.arrays type array type).next < 2 ^ 24
    rwa [Function.update_self, hnext]
  · refine h.component_eq hconsistent hkey' (fun slot => ?_) fun type' index' hholds' _ => ?_
    · exact (holds_vacated h.valid hkey hb hkey' slot).trans (and_iff_right hne)
    · exact storage_other c hstorage (h.slot_ne hkey hholds hkey' hne hholds')

theorem Removed.fresh {c' : UnorderedCollection K C}
    (hremoved : Removed usize storage c c' bucket key type) (h : c.lookup.Valid usize)
    (hkey : key ≠ 0) (hb : c.lookup.keys bucket = key) (b : ℕ) :
    c'.lookup.keys b ≠ key := by
  intro hb'
  rw [hremoved.lookup] at hb'
  by_cases hbb : b = bucket
  · rw [hbb] at hb'
    exact hkey (hb'.symm.trans (Function.update_self _ _ _))
  · have hother : c.lookup.keys b = key := (Function.update_of_ne hbb _ _).symm.trans hb'
    exact hbb (h.unique b bucket (by rwa [hother]) (hother.trans hb.symm))

/-! ## Adding -/

/-- A key is put in together with its component. -/
theorem Consistent.place {array : Fragmentation (C type)} (h : c.Consistent usize storage)
    (hkey : key ≠ 0) (hfresh : ∀ b, c.lookup.keys b ≠ key) (hbucket : bucket ≠ noBucket)
    (hempty : c.lookup.keys bucket = 0)
    (hmem : bucket ∈ probes c.lookup.size (hashOf usize key c.lookup.size))
    (hindex : index < 2 ^ 24) (hraw : (c.arrays type).storage index = none)
    (hstorage : array.storage = Function.update (c.arrays type).storage index (some x))
    (htracked : array.Tracked) :
    Consistent usize storage (⟨c.lookup.place bucket (Slot.set type index) key,
      Function.update c.arrays type array⟩ : UnorderedCollection K C) := by
  have hplaced : ∀ key', key' ≠ 0 → ∀ slot,
      (c.lookup.place bucket (Slot.set type index) key).Holds key' slot ↔
        if key' = key then slot = Slot.set type index else c.lookup.Holds key' slot :=
    fun key' hkey' slot => LookupTable.holds_place hempty hfresh hkey'
  refine ⟨h.valid.place _ hbucket hmem hfresh, h.admits, tracked_update h.tracked htracked,
    short_update h.short hindex hstorage, ?_, ?_, ?_⟩
  · intro key' slot hkey' hholds'
    have hcases := (hplaced key' hkey' slot).mp hholds'
    split_ifs at hcases with hsame
    · refine ⟨type, index, hcases, ?_⟩
      rw [storage_self c hstorage]
      rfl
    · obtain ⟨type', index', rfl, hsome'⟩ := h.holds key' slot hkey' hcases
      refine ⟨type', index', rfl, ?_⟩
      rwa [storage_other c hstorage (h.slot_ne_of_none hraw hkey' (h.short _ _ hsome') hcases)]
  · intro type' index' hsome'
    by_cases heq : type' = type ∧ index' = index
    · obtain ⟨rfl, rfl⟩ := heq
      exact ⟨key, hkey, (hplaced key hkey _).mpr (by rw [if_pos rfl])⟩
    · rw [storage_other c hstorage heq] at hsome'
      obtain ⟨key', hkey', hholds'⟩ := h.owned type' index' hsome'
      have hne : key' ≠ key := by
        rintro rfl
        obtain ⟨b, hb, -⟩ := hholds'
        exact hfresh b hb
      exact ⟨key', hkey', (hplaced key' hkey' _).mpr (by rwa [if_neg hne])⟩
  · intro key₁ key₂ slot hkey₁ hkey₂ hholds₁ hholds₂
    have hcases₁ := (hplaced key₁ hkey₁ slot).mp hholds₁
    have hcases₂ := (hplaced key₂ hkey₂ slot).mp hholds₂
    split_ifs at hcases₁ hcases₂ with h₁ h₂ h₂
    · rw [h₁, h₂]
    · rw [hcases₁] at hcases₂
      exact absurd ⟨rfl, rfl⟩ (h.slot_ne_of_none hraw hkey₂ hindex hcases₂)
    · rw [hcases₂] at hcases₁
      exact absurd ⟨rfl, rfl⟩ (h.slot_ne_of_none hraw hkey₁ hindex hcases₁)
    · exact h.apart key₁ key₂ slot hkey₁ hkey₂ hcases₁ hcases₂

/-- A new component is added in an empty bucket, unless its array is full and cannot grow. -/
theorem Consistent.add {allocates : Bool} (h : c.Consistent usize storage) (hkey : key ≠ 0)
    (hfresh : ∀ b, c.lookup.keys b ≠ key) (hbucket : bucket ≠ noBucket)
    (hempty : c.lookup.keys bucket = 0)
    (hmem : bucket ∈ probes c.lookup.size (hashOf usize key c.lookup.size)) (x : C type)
    (htakes : Takes (c.arrays type) allocates) :
    ((c.arrays type).Exhausted allocates ∧ c.addImpl bucket type x key allocates = .ok (c, false)) ∨
      ∃ c', c.addImpl bucket type x key allocates = .ok (c', true) ∧ c'.Consistent usize storage ∧
        c'.component usize key = some ⟨type, x⟩ ∧
        ∀ key', key' ≠ 0 → key' ≠ key → c'.component usize key' = c.component usize key' := by
  rcases (h.tracked type).emplace_cases x (htakes.whole x) with
    ⟨hexhausted, hnone⟩ | ⟨array, hsome, hraw, hstorage, htracked⟩
  · refine .inl ⟨hexhausted, ?_⟩
    simp only [addImpl, hnone, Function.update_eq_self]
  set index := (c.arrays type).next
  have hindex : index < 2 ^ 24 := htakes.short
  have hadd : c.addImpl bucket type x key allocates =
      .ok (⟨c.lookup.place bucket (Slot.set type index) key,
        Function.update c.arrays type array⟩, true) := by
    simp only [addImpl, hsome]
  have hconsistent :=
    h.place hkey hfresh hbucket hempty hmem hindex hraw hstorage htracked
  refine .inr ⟨_, hadd, hconsistent, ?_, fun key' hkey' hne => ?_⟩
  · have hholds :
        (c.lookup.place bucket (Slot.set type index) key).Holds key (Slot.set type index) :=
      (LookupTable.holds_place hempty hfresh hkey).mpr (by rw [if_pos rfl])
    have hstored : (Function.update c.arrays type array type).storage index = some x :=
      storage_self c hstorage
    rw [hconsistent.component_of_holds hkey hholds hindex]
    exact congrArg (Option.map (Sigma.mk type)) hstored
  · refine h.component_eq hconsistent hkey' (fun slot => ?_) fun type' index' hholds' hindex' => ?_
    · exact (LookupTable.holds_place hempty hfresh hkey').trans (by rw [if_neg hne])
    · exact storage_other c hstorage (h.slot_ne_of_none hraw hkey' hindex' hholds')

/-! ## Replacing -/

omit [DecidableEq K] in
theorem Consistent.grow {lookup : LookupTable K Slot} (h : c.Consistent usize storage)
    (hkept : LookupTable.Kept usize storage key c.lookup lookup bucket) :
    Consistent usize storage { c with lookup := lookup } where
  valid := hkept.valid
  admits := hkept.admits
  tracked := h.tracked
  short := h.short
  holds key slot hkey hslot := h.holds key slot hkey ((hkept.holds key slot hkey).mp hslot)
  owned type index hsome := by
    obtain ⟨key, hkey, hslot⟩ := h.owned type index hsome
    exact ⟨key, hkey, (hkept.holds key _ hkey).mpr hslot⟩
  apart key key' slot hkey hkey' hslot hslot' :=
    h.apart key key' slot hkey hkey' ((hkept.holds key slot hkey).mp hslot)
      ((hkept.holds key' slot hkey').mp hslot')

/-- What becomes of a component that is put under a key. -/
structure Put (usize : K → ℕ) (storage : LookupStorage) (c c' : UnorderedCollection K C)
    (type : Fin n) (x : C type) (key : K) (done : Bool) : Prop where
  consistent : c'.Consistent usize storage
  others : ∀ key', key' ≠ 0 → key' ≠ key → c'.component usize key' = c.component usize key'
  component : c'.component usize key = if done then some ⟨type, x⟩ else c.component usize key

theorem sets_of_others {c' : UnorderedCollection K C}
    {y : Option (Σ type, C type)} (hkey : c'.component usize key = y)
    (hothers : ∀ key', key' ≠ 0 → key' ≠ key → c'.component usize key' = c.component usize key') :
    c.Sets usize c' key y := by
  intro key' hkey'
  split_ifs with heq
  · rw [heq, hkey]
  · exact hothers key' hkey' heq

theorem Consistent.placeImpl (h : c.Consistent usize storage) (hkey : key ≠ 0)
    (hfind : c.lookup.find usize key = noBucket) (x : C type) {memory : Memory}
    (hnumbers : ∀ n, 2 ^ 32 < n → memory.lookup n = false)
    (htakes : Takes (c.arrays type) memory.array) :
    ∃ c' done, c.placeImpl usize storage type x key memory = .ok (c', done) ∧
      Put usize storage c c' type x key done := by
  have hfresh : ∀ b, c.lookup.keys b ≠ key := fun b hb =>
    (h.valid.find_ne_noBucket_iff hkey).mpr ⟨b, hb⟩ hfind
  obtain ⟨lookup, bucket, hplace, hkept⟩ := h.valid.tryPlaceIf_ok key h.admits hnumbers
  have hholds := hkept.holds
  have hgrown := h.grow hkept
  have hsame : ∀ key', key' ≠ 0 → component usize { c with lookup := lookup } key' =
      c.component usize key' := fun key' hkey' =>
    h.component_eq hgrown hkey' (fun slot => hholds key' slot hkey') fun _ _ _ _ => rfl
  by_cases hnone : bucket = noBucket
  · refine ⟨{ c with lookup := lookup }, false, ?_, hgrown, fun key' hkey' _ => hsame key' hkey',
      hsame key hkey⟩
    simp only [UnorderedCollection.placeImpl, hplace, if_pos hnone]
  have himpl : c.placeImpl usize storage type x key memory =
      addImpl { c with lookup := lookup } bucket type x key memory.array := by
    simp only [UnorderedCollection.placeImpl, hplace, if_neg hnone]
  obtain ⟨hempty, hmem⟩ := hkept.room hnone
  have hfresh' : ∀ b, lookup.keys b ≠ key := LookupTable.fresh_of_holds hkey hfresh hholds
  rw [himpl]
  rcases hgrown.add hkey hfresh' hnone hempty hmem x htakes with
    ⟨-, hadd⟩ | ⟨c', hadd, hconsistent, hcomponent, hothers⟩
  · exact ⟨_, false, hadd, hgrown, fun key' hkey' _ => hsame key' hkey', hsame key hkey⟩
  · exact ⟨c', true, hadd, hconsistent,
      fun key' hkey' hne => (hothers key' hkey' hne).trans (hsame key' hkey'), hcomponent⟩

theorem Consistent.component_of_find (h : c.Consistent usize storage) (hkey : key ≠ 0)
    (hfind : c.lookup.find usize key = noBucket) : c.component usize key = none :=
  component_of_not_holds fun b hb => (h.valid.find_ne_noBucket_iff hkey).mpr ⟨b, hb⟩ hfind

theorem Consistent.emplace (h : c.Consistent usize storage) {memory : Memory}
    (hmeets : c.Meets usize (.emplace type x key memory)) :
    ∃ c' done, c.emplace usize storage type x key memory = .ok (c', done) ∧
      (done = true → c.component usize key = none) ∧ Put usize storage c c' type x key done := by
  obtain ⟨hkey, hnumbers, htakes⟩ := hmeets
  by_cases hfind : c.lookup.find usize key = noBucket
  · obtain ⟨c', done, hplace, hput⟩ := h.placeImpl hkey hfind x hnumbers htakes
    refine ⟨c', done, ?_, fun _ => h.component_of_find hkey hfind, hput⟩
    rwa [UnorderedCollection.emplace, if_neg (not_not.mpr hfind)]
  · exact ⟨c, false, if_pos hfind, fun hdone => Bool.noConfusion hdone, h, fun _ _ _ => rfl, rfl⟩

theorem Consistent.replace (h : c.Consistent usize storage) {memory : Memory}
    (hmeets : c.Meets usize (.replace type x key memory)) :
    ∃ c' done, c.replace usize storage type x key memory = .ok (c', done) ∧
      Put usize storage c c' type x key done := by
  obtain ⟨hkey, hmeets⟩ := hmeets
  by_cases hfind : c.lookup.find usize key = noBucket
  · rw [h.component_of_find hkey hfind] at hmeets
    obtain ⟨c', done, hplace, hput⟩ := h.placeImpl hkey hfind x hmeets.1 hmeets.2
    refine ⟨c', done, ?_, hput⟩
    rwa [UnorderedCollection.replace, if_pos hfind]
  obtain ⟨bucket, hb⟩ := (h.valid.find_ne_noBucket_iff hkey).mp hfind
  have hbucket := h.valid.find_eq hkey hb
  obtain ⟨hmem, hne⟩ := h.valid.placed bucket (by rwa [hb])
  rw [hb] at hmem
  obtain ⟨c₁, old, y, hremove, hcomponent, hremoved⟩ := h.remove hkey hb
  rw [hcomponent] at hmeets
  have himpl : c.replace usize storage type x key memory =
      c₁.addImpl bucket type x key memory.array := by
    simp only [UnorderedCollection.replace, hbucket, if_neg hne, hremove]
  have hsize : c₁.lookup.size = c.lookup.size := by rw [hremoved.lookup]
  have hfresh := hremoved.fresh h.valid hkey hb
  have hempty : c₁.lookup.keys bucket = 0 := by
    rw [hremoved.lookup]
    exact Function.update_self _ _ _
  -- The slot of the old component is free, and another array has not changed.
  have hroom : Takes (c₁.arrays type) memory.array ∧ ¬ (c₁.arrays type).Exhausted memory.array := by
    by_cases htype : type = old
    · subst htype
      have hlt := hremoved.room
      refine ⟨⟨fun _ hfull => ?_, hremoved.next⟩, fun hexhausted => ?_⟩
      · omega
      · have hfull := hexhausted.1
        omega
    · rw [hremoved.others type htype]
      exact hmeets.resolve_left fun heq => htype heq.symm
  rw [← hsize] at hmem
  rcases hremoved.consistent.add hkey hfresh hne hempty hmem x hroom.1 with
    ⟨hexhausted, -⟩ | ⟨c', hadd, hconsistent, hcomponent', hothers⟩
  · exact absurd hexhausted hroom.2
  · exact ⟨c', true, himpl.trans hadd, hconsistent,
      fun key' hkey' hne => (hothers key' hkey' hne).trans (hremoved.component key' hkey' hne),
      hcomponent'⟩

theorem Consistent.erase (h : c.Consistent usize storage) (hkey : key ≠ 0) :
    ∃ c', c.erase usize key = .ok c' ∧ c.Sets usize c' key none ∧ c'.Consistent usize storage := by
  by_cases hfind : c.lookup.find usize key = noBucket
  · exact ⟨c, if_pos hfind, sets_of_others (h.component_of_find hkey hfind) fun _ _ _ => rfl, h⟩
  · obtain ⟨bucket, hb⟩ := (h.valid.find_ne_noBucket_iff hkey).mp hfind
    obtain ⟨c', type, y, hremove, -, hremoved⟩ := h.remove hkey hb
    have hnone : c'.component usize key = none :=
      component_of_not_holds (hremoved.fresh h.valid hkey hb)
    refine ⟨c', ?_, sets_of_others hnone hremoved.component, hremoved.consistent⟩
    rw [UnorderedCollection.erase, if_neg hfind, h.valid.find_eq hkey hb, hremove]

/-! ## Histories -/

omit [DecidableEq K] in
theorem empty_consistent (hstorage : storage.Fits) (capacities : Fin n → ℕ) :
    (empty storage capacities : UnorderedCollection K C).Consistent usize storage where
  valid := LookupTable.zero_valid hstorage.initialSize_pos hstorage.initialSize_le
  admits := by
    cases storage with
    | heap => exact ⟨0, by decide, clp2_one⟩
    | fixed capacity => trivial
  tracked type := Fragmentation.ofSlots_tracked (capacities type)
  short type index h := by cases h
  holds key slot hkey hslot := by
    obtain ⟨b, hb, -⟩ := hslot
    exact absurd hb.symm hkey
  owned type index h := by cases h
  apart key key' slot hkey _ hslot _ := by
    obtain ⟨b, hb, -⟩ := hslot
    exact absurd hb.symm hkey

theorem Consistent.apply {operation : Operation K C} (h : c.Consistent usize storage)
    (hmeets : c.Meets usize operation) :
    ∃ c', c.apply usize storage operation = .ok c' ∧ c.Changes usize operation c' ∧
      c'.Consistent usize storage := by
  cases operation with
  | emplace type x key memory =>
    obtain ⟨c', done, hemplace, hnew, hput⟩ := h.emplace hmeets
    exact ⟨c', by rw [UnorderedCollection.apply, hemplace]; rfl,
      ⟨done, hnew, sets_of_others hput.component hput.others⟩, hput.consistent⟩
  | replace type x key memory =>
    obtain ⟨c', done, hreplace, hput⟩ := h.replace hmeets
    exact ⟨c', by rw [UnorderedCollection.apply, hreplace]; rfl,
      ⟨done, sets_of_others hput.component hput.others⟩, hput.consistent⟩
  | erase key => exact h.erase hmeets

/-- Over a whole run, every operation changes the component of its own key only. -/
theorem run_changes (hstorage : storage.Fits) (capacities : Fin n → ℕ)
    (operations : List (Operation K C))
    (hmeets : MeetsAll (apply usize storage) (Meets usize) (empty storage capacities) operations) :
    RelatesAll (apply usize storage) (Changes usize) (empty storage capacities) operations :=
  relatesAll_of_meetsAll (Consistent usize storage) (empty_consistent hstorage capacities)
    (fun h hmeets => h.apply hmeets) operations hmeets

/-- A component is replaced as a whole or not at all wherever the operations keep the collection in
order and there is room for the new component. -/
theorem reached_allOrNothing (hstorage : storage.Fits) {capacities : Fin n → ℕ}
    (hreached : Reached (apply usize storage) (Meets usize) (empty storage capacities) c)
    {memory : Memory} (hmeets : c.Meets usize (.replace type x key memory)) :
    c.AllOrNothing usize storage type x key memory := by
  have hconsistent : c.Consistent usize storage :=
    hreached.invariant (empty_consistent hstorage capacities) fun h hmeets happly => by
      obtain ⟨c', hc', -, hconsistent⟩ := h.apply hmeets
      obtain rfl := Except.ok.inj (hc'.symm.trans happly)
      exact hconsistent
  obtain ⟨c', done, hreplace, hput⟩ := hconsistent.replace hmeets
  exact ⟨c', done, hreplace, hput.consistent.owned, hput.others, hput.component⟩

/-- Two types of components, in static storage for one each. -/
abbrev Numbers (_ : Fin 2) : Type := ℕ

def noMemory : Memory := ⟨fun n => decide (n ≤ 2 ^ 32), false⟩

theorem neZero_two : NeZero 2 := ⟨by decide⟩

attribute [local instance] neZero_two

def filled : Except Failure (UnorderedCollection UInt32 Numbers) :=
  runAll (apply UInt32.toNat .heap) (empty .heap fun _ => 1)
    [.emplace 0 10 1 noMemory, .emplace 1 20 2 noMemory]

/-- The components of a key before and after it is replaced, and whether it has been. -/
def replaced (c : UnorderedCollection UInt32 Numbers) (type : Fin 2) (x : ℕ) (key : UInt32) :
    Option (Σ _ : Fin 2, ℕ) × Option (Bool × Option (Σ _ : Fin 2, ℕ)) :=
  (c.component UInt32.toNat key,
    (c.replace UInt32.toNat .heap type x key noMemory).toOption.map fun r =>
      (r.2, r.1.component UInt32.toNat key))

/-- The component of the first key is given up, and there is no room for the new one. -/
theorem not_allOrNothing_full :
    ∃ c, filled = .ok c ∧ ¬ c.AllOrNothing UInt32.toNat .heap 1 30 1 noMemory := by
  have hreplaced : (filled.toOption.map fun c => replaced c 1 30 1) =
      some (some ⟨0, 10⟩, some (false, none)) := by decide +kernel
  cases hfilled : filled with
  | error e =>
    rw [hfilled] at hreplaced
    cases hreplaced
  | ok c =>
    refine ⟨c, rfl, ?_⟩
    rintro ⟨c', done, hreplace, -, -, hcomponent⟩
    rw [hfilled] at hreplaced
    obtain ⟨hbefore, hafter⟩ := Prod.mk.inj (Option.some.inj hreplaced)
    rw [hreplace] at hafter
    obtain ⟨rfl, hnone⟩ := Prod.mk.inj (Option.some.inj hafter)
    have hlost : (none : Option (Σ type, Numbers type)) = some ⟨0, 10⟩ :=
      hnone.symm.trans (hcomponent.trans hbefore)
    cases hlost

/-- Replacing by a component of the same type, in the same collection. -/
theorem reached_allOrNothing_same :
    ∃ c, filled = .ok c ∧ c.AllOrNothing UInt32.toNat .heap 0 30 1 noMemory := by
  have hfits : LookupStorage.heap.Fits := trivial
  have hlookup : ∀ n, 2 ^ 32 < n → noMemory.lookup n = false := fun n hn =>
    decide_eq_false (Nat.not_le.mpr hn)
  have hfirst : ((empty .heap fun _ => 1 : UnorderedCollection UInt32 Numbers).apply UInt32.toNat
      .heap (.emplace 0 10 1 noMemory)).toOption.map (fun c => (c.arrays 1).next) = some 0 := by
    decide +kernel
  have hsecond :
      filled.toOption.map (fun c => c.component UInt32.toNat 1) = some (some ⟨0, 10⟩) := by
    decide +kernel
  have hmeets : MeetsAll (apply UInt32.toNat .heap) (Meets UInt32.toNat)
      (empty .heap fun _ => 1 : UnorderedCollection UInt32 Numbers)
      [.emplace 0 10 1 noMemory, .emplace 1 20 2 noMemory] := by
    refine ⟨⟨by decide, hlookup, ⟨fun _ _ h => Bool.noConfusion h, by decide⟩⟩, fun c hc => ?_⟩
    rw [hc] at hfirst
    have hnext : (c.arrays 1).next = 0 := Option.some.inj hfirst
    exact ⟨⟨by decide, hlookup, ⟨fun _ _ h => Bool.noConfusion h, hnext ▸ by decide⟩⟩,
      fun _ _ => trivial⟩
  cases hfilled : filled with
  | error e =>
    rw [hfilled] at hsecond
    cases hsecond
  | ok c =>
    rw [hfilled] at hsecond
    have hcomponent : c.component UInt32.toNat 1 = some ⟨0, 10⟩ := Option.some.inj hsecond
    refine ⟨c, rfl, reached_allOrNothing hfits (Reached.start.runAll _ hmeets hfilled) ?_⟩
    rw [Meets, hcomponent]
    exact ⟨by decide, .inl rfl⟩

end UnorderedCollection

end Fimbulwinter
