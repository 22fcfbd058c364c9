import Fimbulwinter.AggregationLayout
import Fimbulwinter.HeapVector
import Fimbulwinter.TransitionRuns

/-! # Reservations

The sizes of the blocks that containers with dynamic storage ask their allocator for. -/
namespace Fimbulwinter.Reservations
open AggregationLayout SerialLayout

/-- A container without its elements: its capacity and how many bytes its block has. -/
structure Container where
  capacity : ℕ
  block : Option ℕ
  deriving DecidableEq, Repr

def Container.empty : Container := ⟨0, none⟩

/-- `heap_allocator::allocate` for items of some size; `operator new` does not always grant. -/
def heapAllocate (grants : ℕ → Bool) (size n : ℕ) : Option ℕ :=
  if (2 ^ 64 - 1) / size < n then none
  else if grants (n * size % 2 ^ 64) then some (n * size % 2 ^ 64) else none

/-- `aggregation_allocator::allocate`, with `heap_allocator<char>` and no header. -/
def aggregationAllocate (grants : ℕ → Bool) (u1 : ElementType) (us : List ElementType)
    (capacity : ℕ) : Option ℕ := heapAllocate grants 1 (sizeOf 0 capacity u1 us)

/-- `allocate` of a container without a block. -/
def allocate (grants : ℕ → Bool) (u1 : ElementType) (us : List ElementType) (capacity : ℕ) :
    Container × Bool :=
  match aggregationAllocate grants u1 us capacity with
  | some bytes => (⟨capacity, some bytes⟩, true)
  | none => (.empty, false)

def reserveExact (size : ℕ) : ℕ := size

def reservePowerOfTwo (size : ℕ) : ℕ := clp2 size

def reserveAtLeast (least : ℕ) (strategy : ℕ → ℕ) (size : ℕ) : ℕ :=
  strategy (if size < least then least else size)

/-- What a reservation asks for, with what the world answers. -/
structure Request where
  minCapacity : ℕ
  grants : ℕ → Bool
  /-- The relocation of the elements succeeds; only that of a lookup table may not. -/
  relocates : Bool

section Operations

variable (reservation : ℕ → ℕ) (u1 : ElementType) (us : List ElementType)

/-- `try_reallocate_impl` -/
def tryReallocate (c : Container) (r : Request) : Container × Bool :=
  if reservation r.minCapacity < r.minCapacity then (c, false)
  else
    match allocate r.grants u1 us (reservation r.minCapacity) with
    | (_, false) => (c, false)
    | (newData, true) => if r.relocates then (newData, true) else (c, false)

def tryReserve (c : Container) (r : Request) : Container × Bool :=
  if r.minCapacity ≤ c.capacity then (c, true) else tryReallocate reservation u1 us c r

end Operations

/-! ## What a reservation should do -/

/-- The block has room for as many elements as the container's capacity. -/
def HasRoom (u1 : ElementType) (us : List ElementType) (c : Container) : Prop :=
  totalSize 0 c.capacity (u1 :: us) ≤ c.block.getD 0 ∧ c.block.getD 0 < 2 ^ 64

structure Allocates (u1 : ElementType) (us : List ElementType) (capacity : ℕ) : Prop where
  room : ∀ grants, (allocate grants u1 us capacity).2 = true →
    HasRoom u1 us (allocate grants u1 us capacity).1 ∧
      capacity ≤ (allocate grants u1 us capacity).1.capacity
  refuses : 2 ^ 64 ≤ totalSize 0 capacity (u1 :: us) →
    ∀ grants, allocate grants u1 us capacity = (.empty, false)

structure Reserves (reservation : ℕ → ℕ) (u1 : ElementType) (us : List ElementType) (c : Container)
    (minCapacity : ℕ) : Prop where
  room : ∀ grants relocates,
    (tryReserve reservation u1 us c ⟨minCapacity, grants, relocates⟩).2 = true →
      HasRoom u1 us (tryReserve reservation u1 us c ⟨minCapacity, grants, relocates⟩).1 ∧
        minCapacity ≤ (tryReserve reservation u1 us c ⟨minCapacity, grants, relocates⟩).1.capacity
  refuses : 2 ^ 64 ≤ totalSize 0 minCapacity (u1 :: us) → ∀ grants relocates,
    tryReserve reservation u1 us c ⟨minCapacity, grants, relocates⟩ = (c, false)

/-- The bytes that the reservation asks for are a number of 64 bits, unless it asks for none. -/
def Fit (reservation : ℕ → ℕ) (u1 : ElementType) (us : List ElementType) (c : Container)
    (minCapacity : ℕ) : Prop :=
  minCapacity ≤ c.capacity ∨ reservation minCapacity < minCapacity ∨
    totalSize 0 (reservation minCapacity) (u1 :: us) < 2 ^ 64

/-! ## Allocations -/

variable {reservation : ℕ → ℕ} {u1 : ElementType} {us : List ElementType} {grants : ℕ → Bool}
  {c : Container} {r : Request} {capacity minCapacity : ℕ}

/-- The allocator asks for as many bytes as its items take, or does not ask. -/
theorem heapAllocate_eq_some {size n bytes : ℕ} (h : heapAllocate grants size n = some bytes)
    (hsize : 0 < size) : bytes = n * size ∧ bytes < 2 ^ 64 := by
  rw [heapAllocate] at h
  split_ifs at h with hmax
  have hle : n * size ≤ 2 ^ 64 - 1 := (Nat.le_div_iff_mul_le hsize).mp (Nat.le_of_not_lt hmax)
  cases h
  rw [Nat.mod_eq_of_lt (by omega)]
  exact ⟨rfl, by omega⟩

theorem sizeOf_lt (header capacity : ℕ) (u1 : ElementType) (us : List ElementType) :
    sizeOf header capacity u1 us < 2 ^ 64 := Nat.mod_lt _ (by decide)

/-- The check against `max_size` does not refuse any size. -/
theorem aggregationAllocate_eq (grants : ℕ → Bool) (u1 : ElementType) (us : List ElementType)
    (capacity : ℕ) : aggregationAllocate grants u1 us capacity =
      if grants (sizeOf 0 capacity u1 us) then some (sizeOf 0 capacity u1 us) else none := by
  have hlt := sizeOf_lt 0 capacity u1 us
  rw [aggregationAllocate, heapAllocate, if_neg (by omega), Nat.mul_one, Nat.mod_eq_of_lt hlt]

theorem allocate_eq (grants : ℕ → Bool) (u1 : ElementType) (us : List ElementType)
    (capacity : ℕ) : allocate grants u1 us capacity =
      if grants (sizeOf 0 capacity u1 us) then (⟨capacity, some (sizeOf 0 capacity u1 us)⟩, true)
      else (.empty, false) := by
  rw [allocate, aggregationAllocate_eq]
  by_cases hgrants : grants (sizeOf 0 capacity u1 us) = true
  · rw [if_pos hgrants, if_pos hgrants]
  · rw [if_neg hgrants, if_neg hgrants]

theorem totalSize_zero (us : List ElementType) : totalSize 0 0 us = 0 := finish_zero _

theorem totalSize_mono {capacity' : ℕ} (h : capacity ≤ capacity') (us : List ElementType) :
    totalSize 0 capacity us ≤ totalSize 0 capacity' us := finish_mono h (Nat.le_refl 0)

/-- A block has room exactly if its exact size is a number of 64 bits. -/
theorem hasRoom_iff (u1 : ElementType) (us : List ElementType) (capacity : ℕ) :
    HasRoom u1 us ⟨capacity, some (sizeOf 0 capacity u1 us)⟩ ↔
      totalSize 0 capacity (u1 :: us) < 2 ^ 64 := by
  have hlt := sizeOf_lt 0 capacity u1 us
  refine ⟨fun h => Nat.lt_of_le_of_lt h.1 hlt, fun htotal => ⟨?_, hlt⟩⟩
  obtain rfl | hcapacity := Nat.eq_zero_or_pos capacity
  · rw [totalSize_zero]
    exact Nat.zero_le _
  · exact Nat.le_of_eq (sizeOf_eq hcapacity htotal).symm

theorem allocates_iff (u1 : ElementType) (us : List ElementType) (capacity : ℕ) :
    Allocates u1 us capacity ↔ totalSize 0 capacity (u1 :: us) < 2 ^ 64 := by
  constructor
  · intro h
    have hroom := h.room (fun _ => true)
    rw [allocate_eq, if_pos rfl] at hroom
    exact (hasRoom_iff u1 us capacity).mp (hroom rfl).1
  · intro htotal
    refine ⟨fun grants hsuccess => ?_, fun hwraps => absurd htotal (Nat.not_lt_of_le hwraps)⟩
    rw [allocate_eq] at hsuccess ⊢
    split_ifs at hsuccess ⊢
    exact ⟨(hasRoom_iff u1 us capacity).mpr htotal, Nat.le_refl capacity⟩

/-! ## Reservations -/

/-- What a reallocation does: nothing, or the container gets a block of the strategy's capacity. -/
theorem tryReallocate_cases (reservation : ℕ → ℕ) (u1 : ElementType) (us : List ElementType)
    (c : Container) (r : Request) :
    tryReallocate reservation u1 us c r = (c, false) ∨
      (r.minCapacity ≤ reservation r.minCapacity ∧ tryReallocate reservation u1 us c r =
        (⟨reservation r.minCapacity, some (sizeOf 0 (reservation r.minCapacity) u1 us)⟩, true)) := by
  rw [tryReallocate, allocate_eq]
  by_cases hless : reservation r.minCapacity < r.minCapacity
  · exact .inl (if_pos hless)
  rw [if_neg hless]
  by_cases hgrants : r.grants (sizeOf 0 (reservation r.minCapacity) u1 us) = true
  · rw [if_pos hgrants]
    by_cases hrelocates : r.relocates = true
    · exact .inr ⟨Nat.le_of_not_lt hless, if_pos hrelocates⟩
    · exact .inl (if_neg hrelocates)
  · rw [if_neg hgrants]
    exact .inl rfl

/-- A reservation whose bytes fit gives room, and so does one that does nothing. -/
theorem tryReserve_hasRoom (hroom : HasRoom u1 us c) (hfit : Fit reservation u1 us c r.minCapacity) :
    HasRoom u1 us (tryReserve reservation u1 us c r).1 ∧
      ((tryReserve reservation u1 us c r).2 = true →
        r.minCapacity ≤ (tryReserve reservation u1 us c r).1.capacity) := by
  rw [tryReserve]
  by_cases hcapacity : r.minCapacity ≤ c.capacity
  · rw [if_pos hcapacity]
    exact ⟨hroom, fun _ => hcapacity⟩
  rw [if_neg hcapacity]
  obtain hnone | ⟨hle, hsome⟩ := tryReallocate_cases reservation u1 us c r
  · rw [hnone]
    exact ⟨hroom, fun h => absurd h Bool.false_ne_true⟩
  · rw [hsome]
    obtain h | h | htotal := hfit
    · exact absurd h hcapacity
    · exact absurd hle (Nat.not_le_of_lt h)
    · exact ⟨(hasRoom_iff u1 us _).mpr htotal, fun _ => hle⟩

/-- A container with room reserves exactly if the bytes that it asks for fit. -/
theorem reserves_iff (hroom : HasRoom u1 us c) (minCapacity : ℕ) :
    Reserves reservation u1 us c minCapacity ↔ Fit reservation u1 us c minCapacity := by
  constructor
  · intro h
    by_contra hnot
    obtain ⟨hcapacity, hnot⟩ := not_or.mp hnot
    obtain ⟨hless, htotal⟩ := not_or.mp hnot
    have hsuccess := h.room (fun _ => true) true
    rw [tryReserve, if_neg hcapacity, tryReallocate, if_neg hless, allocate_eq, if_pos rfl] at hsuccess
    exact htotal ((hasRoom_iff u1 us _).mp (hsuccess rfl).1)
  · intro hfit
    refine ⟨fun grants relocates hsuccess => ?_, fun hwraps grants relocates => ?_⟩
    · have hreserve := tryReserve_hasRoom (r := ⟨minCapacity, grants, relocates⟩) hroom hfit
      exact ⟨hreserve.1, hreserve.2 hsuccess⟩
    · have hcapacity : ¬ minCapacity ≤ c.capacity := fun hle => by
        have hmono := totalSize_mono hle (u1 :: us)
        have hlt := Nat.lt_of_le_of_lt hroom.1 hroom.2
        omega
      rw [tryReserve, if_neg hcapacity]
      obtain hnone | ⟨hle, -⟩ := tryReallocate_cases reservation u1 us c ⟨minCapacity, grants, relocates⟩
      · exact hnone
      · have hmono := totalSize_mono hle (u1 :: us)
        obtain h | h | htotal := hfit
        · exact absurd h hcapacity
        · exact absurd hle (Nat.not_le_of_lt h)
        · dsimp only at hmono
          omega

/-- An exact reservation fits exactly if the requested capacity does. -/
theorem fit_reserveExact (hroom : HasRoom u1 us c) (minCapacity : ℕ) :
    Fit reserveExact u1 us c minCapacity ↔ totalSize 0 minCapacity (u1 :: us) < 2 ^ 64 := by
  refine ⟨fun h => ?_, fun h => .inr (.inr h)⟩
  obtain hle | hless | htotal := h
  · exact Nat.lt_of_le_of_lt (Nat.le_trans (totalSize_mono hle _) hroom.1) hroom.2
  · exact absurd hless (Nat.lt_irrefl minCapacity)
  · exact htotal

theorem hasRoom_empty (u1 : ElementType) (us : List ElementType) : HasRoom u1 us .empty := by
  refine ⟨?_, by decide⟩
  rw [Container.empty, totalSize_zero]
  exact Nat.zero_le _

/-- Requests whose bytes fit leave a container with room. -/
theorem reached_hasRoom (h : Reached
    (fun c r => (.ok (tryReserve reservation u1 us c r).1 : Except Empty Container))
    (fun c r => Fit reservation u1 us c r.minCapacity) .empty c) : HasRoom u1 us c :=
  h.invariant (hasRoom_empty u1 us) fun hroom hfit htaken => by
    cases htaken
    exact (tryReserve_hasRoom hroom hfit).1

end Fimbulwinter.Reservations
