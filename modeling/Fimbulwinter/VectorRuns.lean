import Fimbulwinter.HeapVector
import Fimbulwinter.TransitionRuns
import Fimbulwinter.VectorContents

/-! # Runs of vectors

The contents of one vector under its operations, and the lifetimes of the elements of any number
of vectors. -/
namespace Fimbulwinter.Vector

variable {α : Type*}

/-- Operations of a vector. Whether the allocator gives out a block is part of the operation. -/
inductive Operation (α : Type*)
  | emplaceBack (p : Argument α) (granted : Bool)
  | reserve (minCapacity : ℕ) (granted : Bool)
  | resize (size : ℕ) (p : Argument α) (granted : Bool)
  | insert (it : ℕ) (p : Argument α) (granted : Bool)
  | erase (it : ℕ)
  | eraseRange (start stop : ℕ)
  | eraseStableAt (it : ℕ)
  | eraseStable (start stop : ℕ)
  | clear

/-- Whether an argument is a value or an element that there is. -/
def Argument.Valid (p : Argument α) (size : ℕ) : Prop :=
  match p with
  | .value _ => True
  | .element i => i < size

instance (p : Argument α) (size : ℕ) : Decidable (p.Valid size) :=
  match p with
  | .value _ => .isTrue True.intro
  | .element i => inferInstanceAs (Decidable (i < size))

instance (p : Argument α) : Decidable p.IsValue :=
  match p with
  | .value _ => .isTrue True.intro
  | .element _ => .isFalse id

instance (storage : Storage) (minCapacity : ℕ) : Decidable (storage.Sized minCapacity) :=
  match storage with
  | .static _ => .isTrue True.intro
  | .dynamic elementSize _ reservation =>
    inferInstanceAs (Decidable (elementSize * reservation minCapacity < 2 ^ 64))

instance (storage : Storage) (minCapacity : ℕ) (granted : Bool) :
    Decidable (VectorData.Grows storage minCapacity granted) :=
  match storage with
  | .static _ => .isFalse id
  | .dynamic _ _ reservation =>
    inferInstanceAs (Decidable (minCapacity ≤ reservation minCapacity ∧ granted = true))

/-- A vector with what its last operation has reported. -/
abbrev Reported (α : Type*) := VectorData α × Bool

def report : Except Misuse (VectorData α) → Except Misuse (Reported α)
  | .error e => .error e
  | .ok v => .ok (v, true)

/-- An operation; one with an argument or an iterator to no element is none of a program. -/
def Operation.run (storage : Storage) (trivial : Bool) (v : VectorData α) :
    Operation α → Except Misuse (Reported α)
  | .emplaceBack p granted =>
    if p.Valid v.size then v.tryEmplaceBack trivial storage p granted else .ok (v, false)
  | .reserve minCapacity granted => v.tryReserve trivial storage minCapacity granted
  | .resize size p granted =>
    if p.Valid v.size then v.resize trivial storage size p granted else .ok (v, false)
  | .insert it p granted =>
    if p.Valid v.size ∧ it ≤ v.size then v.insert trivial storage it p granted else .ok (v, false)
  | .erase it => report (v.erase trivial it)
  | .eraseRange start stop => report (v.eraseRange trivial start stop)
  | .eraseStableAt it => report (v.eraseStableAt trivial it)
  | .eraseStable start stop => report (v.eraseStable trivial start stop)
  | .clear => report (v.clear trivial)

/-- What an operation that succeeds does to a list. -/
def Operation.Spec (xs ys : List α) : Operation α → Prop
  | .emplaceBack p _ => ∃ x, p.value? xs = some x ∧ ys = xs ++ [x]
  | .reserve _ _ => ys = xs
  | .resize size p _ =>
    ∃ x, p.value? xs = some x ∧ ys = xs.take size ++ List.replicate (size - xs.length) x
  | .insert it p _ => ∃ x, p.value? xs = some x ∧ ys = match xs[it]? with
    | none => xs ++ [x]
    | some y => (xs ++ [y]).set it x
  | .erase it => ys = UnstableErase.swapErase xs it
  | .eraseRange start stop =>
    if start ≤ stop ∧ stop ≤ xs.length then
      ys.Perm (xs.take start ++ xs.drop stop) ∧ ys.take start = xs.take start
    else ys = xs
  | .eraseStableAt it => ys = xs.eraseIdx it
  | .eraseStable start stop =>
    ys = if start ≤ stop ∧ stop ≤ xs.length then xs.take start ++ xs.drop stop else xs
  | .clear => ys = []

/-- Storage that grows has its number of bytes in 64 bits, nothing refers to elements in storage
that is replaced, and an unstable range erase has enough elements behind the range unless there
is nothing to do for their destruction. -/
def Operation.Sound (storage : Storage) (trivial : Bool) (v : VectorData α) :
    Operation α → Prop
  | .emplaceBack p granted => v.size = v.capacity →
    VectorData.Grows storage (v.size + 1) granted → storage.Sized (v.size + 1) ∧ p.IsValue
  | .reserve minCapacity granted => v.capacity < minCapacity →
    VectorData.Grows storage minCapacity granted → storage.Sized minCapacity
  | .resize size p granted => v.capacity < size →
    VectorData.Grows storage size granted → storage.Sized size ∧ p.IsValue
  | .insert it p granted => v.size = v.capacity → VectorData.Grows storage (v.size + 1) granted →
    it = v.size ∧ storage.Sized (v.size + 1) ∧ p.IsValue
  | .eraseRange start stop => start ≤ stop → stop ≤ v.size →
    trivial = true ∨ stop - start ≤ v.size - stop
  | _ => True

instance (storage : Storage) (trivial : Bool) (v : VectorData α) :
    ∀ op : Operation α, Decidable (op.Sound storage trivial v)
  | .emplaceBack p granted => inferInstanceAs (Decidable (v.size = v.capacity →
    VectorData.Grows storage (v.size + 1) granted → storage.Sized (v.size + 1) ∧ p.IsValue))
  | .reserve minCapacity granted => inferInstanceAs (Decidable (v.capacity < minCapacity →
    VectorData.Grows storage minCapacity granted → storage.Sized minCapacity))
  | .resize size p granted => inferInstanceAs (Decidable (v.capacity < size →
    VectorData.Grows storage size granted → storage.Sized size ∧ p.IsValue))
  | .insert it p granted => inferInstanceAs (Decidable (v.size = v.capacity →
    VectorData.Grows storage (v.size + 1) granted →
      it = v.size ∧ storage.Sized (v.size + 1) ∧ p.IsValue))
  | .eraseRange start stop => inferInstanceAs (Decidable (start ≤ stop → stop ≤ v.size →
    trivial = true ∨ stop - start ≤ v.size - stop))
  | .erase _ => .isTrue True.intro
  | .eraseStableAt _ => .isTrue True.intro
  | .eraseStable _ _ => .isTrue True.intro
  | .clear => .isTrue True.intro

section Run

variable {storage : Storage} {trivial : Bool} {v : VectorData α} {xs : List α}

theorem Argument.Valid.value? {p : Argument α} (h : p.Valid xs.length) :
    ∃ x, p.value? xs = some x := by
  cases p with
  | value x => exact ⟨x, rfl⟩
  | element i => exact ⟨xs[i], List.getElem?_eq_getElem h⟩

/-- A sound operation does to the contents what it should. -/
theorem Operation.Sound.run (h : VectorData.Holds storage trivial v xs) {op : Operation α}
    (hsound : op.Sound storage trivial v) : ∃ w ok ys, op.run storage trivial v = .ok (w, ok) ∧
      VectorData.Holds storage trivial w ys ∧ if ok then op.Spec xs ys else ys = xs := by
  cases op with
  | emplaceBack p granted =>
    rw [Operation.run]
    split_ifs with hvalid
    · rw [h.size] at hvalid
      obtain ⟨x, hx⟩ := hvalid.value?
      obtain ⟨w, ok, hw, hholds⟩ := h.tryEmplaceBack _ _ hx hsound
      refine ⟨w, ok, _, hw, hholds, ?_⟩
      split_ifs with hok
      · exact ⟨x, hx, rfl⟩
      · rfl
    · exact ⟨v, false, xs, rfl, h, rfl⟩
  | reserve minCapacity granted =>
    obtain ⟨w, ok, hw, hholds⟩ := h.tryReserve hsound
    refine ⟨w, ok, xs, hw, hholds, ?_⟩
    split_ifs <;> rfl
  | resize size p granted =>
    rw [Operation.run]
    split_ifs with hvalid
    · rw [h.size] at hvalid
      obtain ⟨x, hx⟩ := hvalid.value?
      obtain ⟨w, ok, hw, hholds⟩ := h.resize hx hsound
      refine ⟨w, ok, _, hw, hholds, ?_⟩
      split_ifs with hok
      · exact ⟨x, hx, rfl⟩
      · rfl
    · exact ⟨v, false, xs, rfl, h, rfl⟩
  | insert it p granted =>
    rw [Operation.run]
    split_ifs with hvalid
    · obtain ⟨hvalid, hit⟩ := hvalid
      rw [h.size] at hvalid
      obtain ⟨x, hx⟩ := hvalid.value?
      obtain ⟨w, ok, hw, hholds⟩ := h.insert hit hx hsound
      refine ⟨w, ok, _, hw, hholds, ?_⟩
      split_ifs with hok
      · exact ⟨x, hx, rfl⟩
      · rfl
    · exact ⟨v, false, xs, rfl, h, rfl⟩
  | erase it =>
    obtain ⟨w, hw, hholds⟩ := h.erase it
    exact ⟨w, true, _, by rw [Operation.run, hw]; rfl, hholds, rfl⟩
  | eraseRange start stop =>
    obtain ⟨w, hw, hholds⟩ := h.eraseRange hsound
    refine ⟨w, true, _, by rw [Operation.run, hw]; rfl, hholds, ?_⟩
    rw [if_pos rfl, Operation.Spec]
    split_ifs with hrange
    · have hstop : start + (stop - start) = stop := by omega
      refine ⟨?_, ?_⟩
      · have hperm := UnstableErase.eraseRange_perm xs (i := start) (m := stop - start) (by omega)
        rwa [hstop] at hperm
      · exact UnstableErase.take_eraseRange xs le_rfl (by omega)
    · rfl
  | eraseStableAt it =>
    obtain ⟨w, hw, hholds⟩ := h.eraseStableAt it
    exact ⟨w, true, _, by rw [Operation.run, hw]; rfl, hholds, rfl⟩
  | eraseStable start stop =>
    obtain ⟨w, hw, hholds⟩ := h.eraseStable start stop
    exact ⟨w, true, _, by rw [Operation.run, hw]; rfl, hholds, rfl⟩
  | clear =>
    obtain ⟨w, hw, hholds⟩ := h.clear
    exact ⟨w, true, _, by rw [Operation.run, hw]; rfl, hholds, rfl⟩

/-- The vector that is constructed first. -/
theorem holds_initial {granted : Bool} (hsized : granted = true → storage.Sized 0) :
    VectorData.Holds storage trivial (initial storage granted : VectorData α) [] := by
  cases storage with
  | static capacity =>
    rw [initial, Storage.allocate, Storage.reservation, if_pos rfl]
    exact ⟨rfl, Nat.zero_le _, fun c hc => Storage.static.inj hc, le_rfl, fun _ _ => rfl⟩
  | dynamic elementSize pos reservation =>
    cases granted with
    | false => exact ⟨rfl, le_rfl, fun c hc => (by cases hc), le_rfl, fun _ _ => rfl⟩
    | true =>
      have hbytes : elementSize * reservation 0 < 2 ^ 64 := hsized rfl
      refine ⟨rfl, Nat.zero_le _, fun c hc => (by cases hc), ?_, fun _ _ => rfl⟩
      change reservation 0 ≤ elementSize * reservation 0 % 2 ^ 64 / elementSize
      rw [Nat.mod_eq_of_lt hbytes, Nat.mul_div_cancel_left _ pos]

/-- The elements of a vector, as far as it says that there are any. -/
def Contents (v : VectorData α) (xs : List α) : Prop :=
  v.size = xs.length ∧ ∀ i < xs.length, v.slots i = xs[i]?

theorem VectorData.Holds.contents_eq (h : VectorData.Holds storage trivial v xs) {ys : List α}
    (hys : Contents v ys) : ys = xs := by
  have hlength : ys.length = xs.length := hys.1.symm.trans h.size
  refine List.ext_getElem? fun i => ?_
  by_cases hi : i < xs.length
  · rw [← hys.2 i (by omega), h.slots i (.inl hi)]
  · rw [List.getElem?_eq_none (by omega), List.getElem?_eq_none (by omega)]

end Run

def step (storage : Storage) (trivial : Bool) (s : Reported α) (op : Operation α) :
    Except Misuse (Reported α) :=
  op.run storage trivial s.1

/-- The contents change as those of a list do, and not at all when an operation fails. -/
def Refines (s : Reported α) (op : Operation α) (t : Reported α) : Prop :=
  ∀ xs, Contents s.1 xs → ∃ ys, Contents t.1 ys ∧ if t.2 then op.Spec xs ys else ys = xs

end Fimbulwinter.Vector
