import Fimbulwinter.UnstableErase

/-! # `utility::vector` on heap storage

Contents and capacity of a dynamically growing vector. Capacities are powers of
two; allocation itself succeeds. An insertion that has to grow keeps using the
iterator it was given, so it is reported as a fault. -/
namespace Fimbulwinter

/-- Behaviour that the program does not define, or where it traps. -/
inductive Fault
  /-- An iterator into storage that has been freed is used. -/
  | danglingIterator
  /-- A reference to an array slot is used after the slot's component has moved. -/
  | movedEntry
  /-- `debug_unreachable` is reached. -/
  | unreachable
  /-- An element that has been erased from a vector is read. -/
  | erasedElement
  /-- The null hash, which marks empty buckets, is looked up. -/
  | nullKey
  /-- A loop of the model has used up its fuel. -/
  | outOfFuel
  deriving DecidableEq, Repr

/-- Ceiling to a power of two in 64-bit arithmetic. -/
def clp2 (x : ℕ) : ℕ :=
  let x := (x + (2 ^ 64 - 1)) % 2 ^ 64
  let x := x ||| (x >>> 1)
  let x := x ||| (x >>> 2)
  let x := x ||| (x >>> 4)
  let x := x ||| (x >>> 8)
  let x := x ||| (x >>> 16)
  let x := x ||| (x >>> 32)
  (x + 1) % 2 ^ 64

private theorem or_shift_bounds {x n : ℕ} (k : ℕ) (h : x < 2 ^ n) :
    x ≤ x ||| (x >>> k) ∧ x ||| (x >>> k) < 2 ^ n :=
  ⟨Nat.left_le_or, Nat.or_lt_two_pow h (Nat.lt_of_le_of_lt (Nat.shiftRight_le x k) h)⟩

/-- Rounding up never shrinks a size that fits a 64-bit power of two. -/
theorem le_clp2 {x : ℕ} (h0 : 0 < x) (h : x ≤ 2 ^ 63) : x ≤ clp2 x := by
  have hx : (x + (2 ^ 64 - 1)) % 2 ^ 64 = x - 1 := by omega
  have h1 := or_shift_bounds 1 (show x - 1 < 2 ^ 63 by omega)
  have h2 := or_shift_bounds 2 h1.2
  have h3 := or_shift_bounds 4 h2.2
  have h4 := or_shift_bounds 8 h3.2
  have h5 := or_shift_bounds 16 h4.2
  have h6 := or_shift_bounds 32 h5.2
  simp only [clp2, hx]
  rw [Nat.mod_eq_of_lt (by omega)]
  omega

/-- A vector's elements and the capacity of the storage that holds them. -/
structure HeapVector (α : Type*) where
  toList : List α
  capacity : ℕ
  fits : toList.length ≤ capacity

namespace HeapVector

variable {α : Type*}

instance [DecidableEq α] : DecidableEq (HeapVector α) := fun v w =>
  decidable_of_iff (v.toList = w.toList ∧ v.capacity = w.capacity)
    ⟨fun h => by cases v; cases w; obtain ⟨rfl, rfl⟩ := h; rfl, fun h => by rw [h]; exact ⟨rfl, rfl⟩⟩

def empty : HeapVector α := ⟨[], 0, Nat.le_refl 0⟩

instance : EmptyCollection (HeapVector α) := ⟨empty⟩

def size (v : HeapVector α) : ℕ := v.toList.length

/-- `try_reserve` with the strategy `reserve_power_of_two`. -/
def tryReserve (v : HeapVector α) (minCapacity : ℕ) : Option (HeapVector α) :=
  if hv : minCapacity ≤ v.capacity then some v
  else if h : clp2 minCapacity < minCapacity then none
  else some ⟨v.toList, clp2 minCapacity,
    v.fits.trans ((Nat.le_of_not_le hv).trans (Nat.le_of_not_lt h))⟩

theorem tryReserve_spec {v w : HeapVector α} {n : ℕ} (h : v.tryReserve n = some w) :
    w.toList = v.toList ∧ n ≤ w.capacity := by
  unfold tryReserve at h
  split_ifs at h with hv hn
  · cases h
    exact ⟨rfl, hv⟩
  · cases h
    exact ⟨rfl, Nat.le_of_not_lt hn⟩

/-- `push_back`: append, growing first when the storage is full. -/
def pushBack (v : HeapVector α) (p : α) : Option (HeapVector α) :=
  if h : v.size < v.capacity then
    some ⟨v.toList ++ [p], v.capacity, by rw [List.length_append]; exact h⟩
  else match h : v.tryReserve (v.size + 1) with
    | none => none
    | some w => some ⟨w.toList ++ [p], w.capacity, by
        rw [List.length_append, (tryReserve_spec h).1]
        exact (tryReserve_spec h).2⟩

/-- `insert` before index `i`: the element at `i` is appended and `p` takes its place.
Growing frees the storage that the iterator points into. -/
def insert (v : HeapVector α) (i : ℕ) (p : α) : Except Fault (Option (HeapVector α)) :=
  if i = v.size then .ok (v.pushBack p)
  else if h : i < v.toList.length then
    if hc : v.size < v.capacity then
      .ok (some ⟨v.toList.set i p ++ [v.toList[i]], v.capacity, by
        rw [List.length_append, List.length_set]
        exact hc⟩)
    else .error .danglingIterator
  else .error .danglingIterator

/-- The unstable range erase of the first `k` elements. -/
def eraseFront (v : HeapVector α) (k : ℕ) : HeapVector α where
  toList := UnstableErase.eraseRange v.toList 0 k
  capacity := v.capacity
  fits := by
    rw [UnstableErase.length_eraseRange]
    exact Nat.le_trans (Nat.sub_le _ _) v.fits

/-- `std::swap(v[i], v[j])`; indices outside the vector change nothing. -/
def swap (v : HeapVector α) (i j : ℕ) : HeapVector α where
  toList := match v.toList[i]?, v.toList[j]? with
    | some a, some b => (v.toList.set i b).set j a
    | _, _ => v.toList
  capacity := v.capacity
  fits := by
    have := v.fits
    split <;> simpa using this

@[simp] theorem toList_empty : (∅ : HeapVector α).toList = [] := rfl

theorem toList_pushBack {v w : HeapVector α} {p : α} (h : v.pushBack p = some w) :
    w.toList = v.toList ++ [p] := by
  unfold pushBack at h
  split at h
  · cases h
    rfl
  · split at h
    · simp at h
    next u hu =>
      cases h
      exact congrArg (· ++ [p]) (tryReserve_spec hu).1

/-- Below 2^63 elements appending succeeds. -/
theorem exists_pushBack (v : HeapVector α) (p : α) (h : v.size < 2 ^ 63) :
    ∃ w, v.pushBack p = some w := by
  unfold pushBack
  split
  · exact ⟨_, rfl⟩
  next hfull =>
    have hle : v.size + 1 ≤ clp2 (v.size + 1) := le_clp2 (Nat.succ_pos v.size) h
    split
    next hnone =>
      unfold tryReserve at hnone
      split_ifs at hnone
      omega
    next => exact ⟨_, rfl⟩

/-- An insertion in front of an element neither loses nor adds anything else. -/
theorem toList_insert {v w : HeapVector α} {i : ℕ} {p : α} (h : v.insert i p = .ok (some w))
    (hi : i < v.size) : ∃ a, v.toList[i]? = some a ∧ w.toList = v.toList.set i p ++ [a] := by
  have hne : i ≠ v.size := Nat.ne_of_lt hi
  have hlt : i < v.toList.length := hi
  simp only [insert, hne, if_false, hlt, dite_true] at h
  split at h
  · cases h
    exact ⟨v.toList[i], List.getElem?_eq_getElem hlt, rfl⟩
  · simp at h

theorem toList_insert_end {v w : HeapVector α} {p : α}
    (h : v.insert v.size p = .ok (some w)) : w.toList = v.toList ++ [p] := by
  simp only [insert, if_true] at h
  exact toList_pushBack (Except.ok.inj h)

theorem size_pushBack {v w : HeapVector α} {p : α} (h : v.pushBack p = some w) :
    w.size = v.size + 1 := by
  rw [size, toList_pushBack h, List.length_append, List.length_singleton, size]

theorem size_insert {v w : HeapVector α} {i : ℕ} {p : α} (h : v.insert i p = .ok (some w)) :
    w.size = v.size + 1 := by
  unfold insert at h
  split_ifs at h
  · exact size_pushBack (Except.ok.inj h)
  · obtain rfl := Option.some.inj (Except.ok.inj h)
    simp [size]

/-- An insertion finds room exactly when appending does. -/
theorem isSome_insert {v : HeapVector α} {r : Option (HeapVector α)} {i : ℕ} {p : α}
    (h : v.insert i p = .ok r) : r.isSome = (v.pushBack p).isSome := by
  unfold insert at h
  split_ifs at h with hend hlt hroom
  · rw [Except.ok.inj h]
  · rw [← Except.ok.inj h, pushBack, dif_pos hroom]
    rfl

theorem toList_eraseFront (v : HeapVector α) {k : ℕ} (h : k ≤ v.size) :
    (v.eraseFront k).toList.Perm (v.toList.drop k) := by
  have := UnstableErase.eraseRange_perm v.toList (i := 0) (m := k) (by simpa [size] using h)
  simpa [eraseFront] using this

end HeapVector

end Fimbulwinter
