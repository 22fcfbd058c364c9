import Fimbulwinter.Vector

/-! # The contents of vectors

What every operation of a vector does to its contents, and when it uses no slot that it must not
use. -/
namespace Fimbulwinter.Vector

variable {α : Type*} {trivial : Bool}

namespace VectorData

variable {v source : VectorData α} {i n : ℕ} {x : α}

/-! ## Slots -/

/-- The slots after the elements in a range of slots have been destructed. -/
def destructed (trivial : Bool) (slots : ℕ → Option α) (i n : ℕ) : ℕ → Option α :=
  fun j => if trivial = false ∧ i ≤ j ∧ j < i + n then none else slots j

theorem ok_congr {slots slots' : ℕ → Option α} (h : ∀ j, slots j = slots' j) :
    (.ok { v with slots := slots } : Except Misuse (VectorData α)) =
      .ok { v with slots := slots' } := by
  rw [funext h]

theorem construct_ok (hroom : i < v.extent) (hraw : trivial = false → v.slots i = none) :
    v.construct trivial i x = .ok { v with slots := Function.update v.slots i (some x) } := by
  rw [construct, if_neg (Nat.not_le.mpr hroom), if_neg]
  rintro ⟨htrivial, hne⟩
  exact hne (hraw htrivial)

theorem read_ok (h : v.slots i = some x) : v.read i = .ok x := by
  rw [read, h]

theorem assign_ok (h : v.slots i ≠ none) (x : α) :
    v.assign i x = .ok { v with slots := Function.update v.slots i (some x) } := by
  obtain ⟨y, hy⟩ := Option.ne_none_iff_exists'.mp h
  rw [assign, hy]

theorem destruct_ok (h : v.slots i ≠ none) :
    v.destruct trivial i = .ok { v with slots := destructed trivial v.slots i 1 } := by
  obtain ⟨y, hy⟩ := Option.ne_none_iff_exists'.mp h
  cases trivial with
  | true =>
    rw [destruct, if_pos rfl]
    exact ok_congr fun j => (if_neg (by simp)).symm
  | false =>
    rw [destruct, if_neg (by simp), hy]
    refine ok_congr fun j => ?_
    by_cases hj : j = i
    · simp [destructed, hj]
    · rw [Function.update_of_ne hj, destructed, if_neg (by omega)]

theorem constructFill_ok (hroom : i + n ≤ v.extent)
    (hraw : trivial = false → ∀ j, i ≤ j → j < i + n → v.slots j = none) :
    v.constructFill trivial i x n = .ok { v with
      slots := fun j => if i ≤ j ∧ j < i + n then some x else v.slots j } := by
  induction n generalizing v i with
  | zero =>
    rw [constructFill]
    exact ok_congr fun j => (if_neg (by omega)).symm
  | succ n ih =>
    rw [constructFill, construct_ok (by omega) (fun h => hraw h i le_rfl (by omega))]
    dsimp only
    rw [ih (by dsimp only; omega)]
    · refine ok_congr fun j => ?_
      dsimp only
      by_cases hj : j = i
      · subst hj
        rw [if_neg (by omega), if_pos (by omega), Function.update_self]
      · rw [Function.update_of_ne hj]
        split_ifs <;> first | rfl | omega
    · intro htrivial j hj hj'
      dsimp only
      rw [Function.update_of_ne (by omega)]
      exact hraw htrivial j (by omega) (by omega)

theorem constructRange_ok (hroom : i + n ≤ v.extent)
    (hsource : ∀ j, i ≤ j → j < i + n → source.slots j ≠ none)
    (hraw : trivial = false → ∀ j, i ≤ j → j < i + n → v.slots j = none) :
    constructRange trivial source v i n = .ok { v with
      slots := fun j => if i ≤ j ∧ j < i + n then source.slots j else v.slots j } := by
  induction n generalizing v i with
  | zero =>
    rw [constructRange]
    exact ok_congr fun j => (if_neg (by omega)).symm
  | succ n ih =>
    obtain ⟨x, hx⟩ := Option.ne_none_iff_exists'.mp (hsource i le_rfl (by omega))
    rw [constructRange, read_ok hx]
    dsimp only
    rw [construct_ok (by omega) (fun h => hraw h i le_rfl (by omega))]
    dsimp only
    rw [ih (by dsimp only; omega)]
    · refine ok_congr fun j => ?_
      dsimp only
      by_cases hj : j = i
      · subst hj
        rw [if_neg (by omega), if_pos (by omega), Function.update_self, hx]
      · rw [Function.update_of_ne hj]
        split_ifs <;> first | rfl | omega
    · exact fun j hj hj' => hsource j (by omega) (by omega)
    · intro htrivial j hj hj'
      dsimp only
      rw [Function.update_of_ne (by omega)]
      exact hraw htrivial j (by omega) (by omega)

theorem destructRange_ok (h : ∀ j, i ≤ j → j < i + n → v.slots j ≠ none) :
    v.destructRange trivial i n = .ok { v with slots := destructed trivial v.slots i n } := by
  induction n generalizing v i with
  | zero =>
    rw [destructRange]
    exact ok_congr fun j => (if_neg (by omega)).symm
  | succ n ih =>
    rw [destructRange, destruct_ok (h i le_rfl (by omega))]
    dsimp only
    rw [ih]
    · refine ok_congr fun j => ?_
      cases trivial with
      | true => simp [destructed]
      | false =>
        simp only [destructed, true_and]
        split_ifs <;> first | rfl | omega
    · intro j hj hj'
      dsimp only
      rw [destructed, if_neg (by omega)]
      exact h j (by omega) (by omega)

/-- Elements are moved towards the front one after another. -/
theorem shift_ok {write read : ℕ} (hle : write ≤ read)
    (h : ∀ j, write ≤ j → j < read + n → v.slots j ≠ none) :
    v.shift write read n = .ok { v with
      slots := fun j => if write ≤ j ∧ j < write + n then v.slots (j + (read - write))
        else v.slots j } := by
  induction n generalizing v write read with
  | zero =>
    rw [shift]
    exact ok_congr fun j => (if_neg (by omega)).symm
  | succ n ih =>
    obtain ⟨x, hx⟩ := Option.ne_none_iff_exists'.mp (h read hle (by omega))
    rw [shift, read_ok hx]
    dsimp only
    rw [assign_ok (h write le_rfl (by omega))]
    dsimp only
    rw [ih (by omega)]
    · refine ok_congr fun j => ?_
      dsimp only
      have hdistance : read + 1 - (write + 1) = read - write := by omega
      rw [hdistance]
      by_cases hj : j = write
      · subst hj
        rw [if_neg (by omega), if_pos (by omega), Function.update_self, ← hx]
        congr 1
        omega
      · by_cases hin : write + 1 ≤ j ∧ j < write + 1 + n
        · rw [if_pos hin, if_pos (by omega), Function.update_of_ne (by omega)]
        · rw [if_neg hin, if_neg (by omega), Function.update_of_ne hj]
    · intro j hj hj'
      dsimp only
      rw [Function.update_of_ne (by omega)]
      exact h j (by omega) (by omega)

/-! ## Contents -/

/-- The slots hold these elements, and without trivial destruction nothing else. -/
structure Holds (storage : Storage) (trivial : Bool) (v : VectorData α) (xs : List α) : Prop where
  size : v.size = xs.length
  fits : xs.length ≤ v.capacity
  static : ∀ capacity, storage = .static capacity → v.capacity = capacity
  room : v.capacity ≤ v.extent
  slots : ∀ i, i < xs.length ∨ trivial = false → v.slots i = xs[i]?

variable {storage : Storage} {xs : List α}

theorem Holds.ne_none (h : Holds storage trivial v xs) (hi : i < xs.length) : v.slots i ≠ none := by
  rw [h.slots i (.inl hi), List.getElem?_eq_getElem hi]
  exact Option.some_ne_none _

theorem Holds.raw (h : Holds storage trivial v xs) (htrivial : trivial = false) (hi : xs.length ≤ i) :
    v.slots i = none := by
  rw [h.slots i (.inr htrivial), List.getElem?_eq_none hi]

/-- All storage can be returned. -/
theorem Holds.purge (h : Holds storage trivial v xs) : v.purge trivial = .ok () := by
  rw [VectorData.purge, h.size, destructRange_ok fun j _ hj => h.ne_none (by omega)]
  dsimp only
  rw [if_neg]
  rintro ⟨htrivial, j, -, hj⟩
  refine hj ?_
  rw [destructed]
  split_ifs with hin
  · rfl
  · exact h.raw htrivial (Nat.not_lt.mp fun hlt => hin ⟨htrivial, Nat.zero_le j, by omega⟩)

/-- The elements of one vector are copied to new storage. -/
theorem Holds.copy (h : Holds storage trivial source xs) (hraw : trivial = false → ∀ j, v.slots j = none)
    (hfits : xs.length ≤ v.capacity) (hroom : v.capacity ≤ v.extent)
    (hstatic : ∀ capacity, storage = .static capacity → v.capacity = capacity) :
    ∃ w, v.copy trivial source = .ok w ∧ Holds storage trivial w xs ∧ w.capacity = v.capacity := by
  rw [VectorData.copy, h.size, constructRange_ok (by omega) (fun j _ hj => h.ne_none (by omega))
    (fun htrivial j _ _ => hraw htrivial j)]
  refine ⟨_, rfl, ⟨rfl, hfits, hstatic, hroom, fun j hj => ?_⟩, rfl⟩
  dsimp only
  by_cases hin : j < xs.length
  · rw [if_pos (by omega), h.slots j (.inl hin)]
  · rw [if_neg (by omega), List.getElem?_eq_none (by omega)]
    exact hraw (hj.resolve_left hin) j

/-- Whether storage for a capacity is found. -/
def Grows (storage : Storage) (minCapacity : ℕ) (granted : Bool) : Prop :=
  match storage with
  | .static _ => False
  | .dynamic _ _ reservation => minCapacity ≤ reservation minCapacity ∧ granted = true

end VectorData

/-- Whether an argument is not an element of the vector. -/
def Argument.IsValue : Argument α → Prop
  | .value _ => True
  | .element _ => False

/-- The number of bytes that the reserved capacity takes fits 64 bits. -/
def Storage.Sized (storage : Storage) (minCapacity : ℕ) : Prop :=
  match storage with
  | .static _ => True
  | .dynamic elementSize _ reservation => elementSize * reservation minCapacity < 2 ^ 64

namespace VectorData

variable {storage : Storage} {minCapacity : ℕ} {granted : Bool} {v : VectorData α}
  {xs : List α} {n : ℕ}

theorem Holds.reallocate (storage : Storage) (granted : Bool) (minCapacity : ℕ)
    (h : Holds storage trivial v xs) (hle : v.size ≤ minCapacity)
    (hsized : Grows storage minCapacity granted → storage.Sized minCapacity) :
    (Grows storage minCapacity granted ∧ ∃ w,
      v.reallocate trivial storage minCapacity granted = .ok (w, true) ∧ Holds storage trivial w xs ∧
        minCapacity ≤ w.capacity) ∨
      ¬ Grows storage minCapacity granted ∧
        v.reallocate trivial storage minCapacity granted = .ok (v, false) := by
  cases storage with
  | static capacity => exact .inr ⟨id, rfl⟩
  | dynamic elementSize pos reservation =>
    rw [VectorData.reallocate]
    by_cases hsmall : reservation minCapacity < minCapacity
    · rw [if_pos hsmall]
      exact .inr ⟨fun hgrows => absurd hgrows.1 (Nat.not_le.mpr hsmall), rfl⟩
    · rw [if_neg hsmall]
      cases granted with
      | false => exact .inr ⟨fun hgrows => Bool.false_ne_true hgrows.2, rfl⟩
      | true =>
        have hgrows : Grows (.dynamic elementSize pos reservation) minCapacity true :=
          ⟨Nat.not_lt.mp hsmall, rfl⟩
        have hbytes : elementSize * reservation minCapacity < 2 ^ 64 := hsized hgrows
        have hextent : elementSize * reservation minCapacity % 2 ^ 64 / elementSize =
            reservation minCapacity := by
          rw [Nat.mod_eq_of_lt hbytes, Nat.mul_div_cancel_left _ pos]
        have hsize := h.size
        obtain ⟨w, hcopy, hw, hcapacity⟩ := h.copy
          (v := ⟨fun _ => none, elementSize * reservation minCapacity % 2 ^ 64 / elementSize,
            reservation minCapacity, 0⟩) (fun _ _ => rfl) (by dsimp only; omega)
          (by dsimp only; omega) (fun capacity hcapacity => by cases hcapacity)
        refine .inl ⟨hgrows, w, ?_, hw, by rw [hcapacity]; exact hgrows.1⟩
        simp only [Storage.allocate, if_true, hcopy, h.purge]

/-- One more element at the end. -/
theorem Holds.emplaceAtEnd (h : Holds storage trivial v xs) (hlt : xs.length < v.capacity) (x : α) :
    ∃ w, v.emplaceAtEnd trivial x = .ok (w, true) ∧ Holds storage trivial w (xs ++ [x]) ∧
      w.capacity = v.capacity := by
  have hroom := h.room
  rw [VectorData.emplaceAtEnd, h.size,
    construct_ok (by omega) (fun htrivial => h.raw htrivial le_rfl)]
  refine ⟨_, rfl, ⟨?_, ?_, h.static, hroom, fun j hj => ?_⟩, rfl⟩
  · rw [List.length_append, List.length_singleton, h.size]
  · rw [List.length_append, List.length_singleton]
    exact hlt
  · dsimp only
    rw [List.length_append, List.length_singleton] at hj
    by_cases hjl : j = xs.length
    · rw [hjl, Function.update_self, List.getElem?_concat_length]
    · rw [Function.update_of_ne hjl, h.slots j (hj.imp_left fun hj => by omega)]
      by_cases hlt' : j < xs.length
      · rw [List.getElem?_append_left hlt']
      · rw [List.getElem?_eq_none (by omega),
          List.getElem?_eq_none (by rw [List.length_append, List.length_singleton]; omega)]

theorem Holds.argument (h : Holds storage trivial v xs) {p : Argument α} {x : α}
    (hp : p.value? xs = some x) : v.argument p = .ok x := by
  cases p with
  | value y =>
    cases hp
    rfl
  | element i =>
    have hi : i < xs.length := (List.getElem?_eq_some_iff.mp hp).1
    exact read_ok ((h.slots i (.inl hi)).trans hp)

theorem Holds.tryEmplaceBack (storage : Storage) (granted : Bool)
    (h : Holds storage trivial v xs) {p : Argument α} {x : α}
    (hp : p.value? xs = some x) (hgrow : v.size = v.capacity →
      Grows storage (v.size + 1) granted → storage.Sized (v.size + 1) ∧ p.IsValue) :
    ∃ w ok, v.tryEmplaceBack trivial storage p granted = .ok (w, ok) ∧
      Holds storage trivial w (if ok then xs ++ [x] else xs) := by
  have hsize := h.size
  have hfits := h.fits
  rw [VectorData.tryEmplaceBack]
  by_cases hfull : v.size = v.capacity
  · rw [if_neg (not_not_intro hfull), VectorData.tryReserve, if_neg (by omega)]
    rcases h.reallocate storage granted _ (Nat.le_succ v.size)
      (fun hgrows => (hgrow hfull hgrows).1) with ⟨hgrows, w, hrun, hw, hcapacity⟩ | ⟨-, hrun⟩
    · have hvalue := (hgrow hfull hgrows).2
      cases p with
      | element i => exact absurd hvalue id
      | value y =>
        cases hp
        obtain ⟨u, hu, hholds, -⟩ := hw.emplaceAtEnd (by omega) x
        rw [hrun]
        exact ⟨u, true, hu, hholds⟩
    · rw [hrun]
      exact ⟨v, false, rfl, h⟩
  · rw [if_pos hfull, h.argument hp]
    obtain ⟨w, hw, hholds, -⟩ := h.emplaceAtEnd (by omega) x
    exact ⟨w, true, hw, hholds⟩

/-- Copies of an element at the end. -/
theorem Holds.constructFill (h : Holds storage trivial v xs) (hroom : xs.length + n ≤ v.capacity)
    (x : α) : ∃ w, v.constructFill trivial v.size x n = .ok w ∧
      Holds storage trivial { w with size := xs.length + n } (xs ++ List.replicate n x) := by
  have hextent := h.room
  rw [h.size, constructFill_ok (by omega) (fun htrivial j hj _ => h.raw htrivial hj)]
  refine ⟨_, rfl, ⟨?_, ?_, h.static, hextent, fun j hj => ?_⟩⟩
  · rw [List.length_append, List.length_replicate]
  · rw [List.length_append, List.length_replicate]
    exact hroom
  · rw [List.length_append, List.length_replicate] at hj
    dsimp only
    by_cases hlt : j < xs.length
    · rw [if_neg (by omega), h.slots j (.inl hlt), List.getElem?_append_left hlt]
    · rw [List.getElem?_append_right (by omega), List.getElem?_replicate]
      by_cases hin : j < xs.length + n
      · rw [if_pos (by omega), if_pos (by omega)]
      · rw [if_neg (by omega), if_neg (by omega)]
        exact h.raw (hj.resolve_left hin) (by omega)

/-- The elements from an index on are destructed. -/
theorem Holds.destructRange (h : Holds storage trivial v xs) (hle : n ≤ xs.length) :
    ∃ w, v.destructRange trivial n (xs.length - n) = .ok w ∧
      Holds storage trivial { w with size := n } (xs.take n) := by
  rw [destructRange_ok fun j _ hj => h.ne_none (by omega)]
  have hfits := h.fits
  refine ⟨_, rfl, ⟨?_, ?_, h.static, h.room, fun j hj => ?_⟩⟩
  · rw [List.length_take]
    exact (Nat.min_eq_left hle).symm
  · rw [List.length_take]
    exact (Nat.min_le_right _ _).trans hfits
  · rw [List.length_take, Nat.min_eq_left hle] at hj
    dsimp only
    rw [destructed, List.getElem?_take]
    by_cases hlt : j < n
    · rw [if_neg (by omega), if_pos hlt, h.slots j (.inl (by omega))]
    · have htrivial := hj.resolve_left hlt
      rw [if_neg hlt]
      split_ifs with hin
      · rfl
      · exact h.raw htrivial (Nat.not_lt.mp fun hlt' => hin ⟨htrivial, by omega, by omega⟩)

theorem Holds.resize (h : Holds storage trivial v xs) {p : Argument α} {x : α}
    (hp : p.value? xs = some x) (hgrow : v.capacity < n →
      Grows storage n granted → storage.Sized n ∧ p.IsValue) :
    ∃ w ok, v.resize trivial storage n p granted = .ok (w, ok) ∧ Holds storage trivial w
      (if ok then xs.take n ++ List.replicate (n - xs.length) x else xs) := by
  have hsize := h.size
  have hfits := h.fits
  rw [VectorData.resize]
  by_cases hlt : n < v.size
  · obtain ⟨w, hw, hholds⟩ := h.destructRange (n := n) (by omega)
    rw [if_pos hlt, hsize, hw]
    refine ⟨_, true, rfl, ?_⟩
    rw [if_pos rfl, Nat.sub_eq_zero_of_le (by omega), List.replicate_zero, List.append_nil]
    exact hholds
  · have hfill : ∀ {u : VectorData α}, Holds storage trivial u xs → n ≤ u.capacity →
        ∃ w, u.constructFill trivial u.size x (n - u.size) = .ok w ∧
          Holds storage trivial { w with size := n }
            (xs.take n ++ List.replicate (n - xs.length) x) := by
      intro u hu hcapacity
      have husize := hu.size
      obtain ⟨w, hw, hholds⟩ := hu.constructFill (n := n - u.size) (by omega) x
      rw [show xs.length + (n - u.size) = n by omega] at hholds
      rw [List.take_of_length_le (by omega), ← husize]
      exact ⟨w, hw, hholds⟩
    rw [if_neg hlt]
    by_cases hcapacity : v.capacity < n
    · rw [if_pos hcapacity]
      rcases h.reallocate storage granted n (by omega)
        (fun hgrows => (hgrow hcapacity hgrows).1) with ⟨hgrows, u, hrun, hu, hroom⟩ | ⟨-, hrun⟩
      · have hvalue := (hgrow hcapacity hgrows).2
        cases p with
        | element i => exact absurd hvalue id
        | value y =>
          cases hp
          obtain ⟨w, hw, hholds⟩ := hfill hu hroom
          rw [hrun]
          simp only [argumentAfter, hw]
          exact ⟨_, true, rfl, hholds⟩
      · rw [hrun]
        exact ⟨v, false, rfl, h⟩
    · obtain ⟨w, hw, hholds⟩ := hfill h (by omega)
      rw [if_neg hcapacity, h.argument hp]
      dsimp only
      rw [hw]
      exact ⟨_, true, rfl, hholds⟩

theorem Holds.tryReserve (h : Holds storage trivial v xs)
    (hgrow : v.capacity < n → Grows storage n granted → storage.Sized n) :
    ∃ w ok, v.tryReserve trivial storage n granted = .ok (w, ok) ∧ Holds storage trivial w xs := by
  have hsize := h.size
  have hfits := h.fits
  rw [VectorData.tryReserve]
  by_cases hcapacity : n ≤ v.capacity
  · rw [if_pos hcapacity]
    exact ⟨v, true, rfl, h⟩
  · rw [if_neg hcapacity]
    rcases h.reallocate storage granted n (by omega)
      (hgrow (by omega)) with ⟨-, w, hrun, hw, -⟩ | ⟨-, hrun⟩
    · exact ⟨w, true, hrun, hw⟩
    · exact ⟨v, false, hrun, h⟩

theorem Holds.clear (h : Holds storage trivial v xs) :
    ∃ w, v.clear trivial = .ok w ∧ Holds storage trivial w [] := by
  obtain ⟨w, hw, hholds⟩ := h.destructRange (n := 0) (Nat.zero_le _)
  rw [Nat.sub_zero] at hw
  rw [VectorData.clear, h.size, hw]
  exact ⟨_, rfl, hholds⟩

/-! ## Erasing -/

/-- The last element is moved over another one and is destructed. -/
theorem moveLast_ok {ys : List α} {z : α} (it : ℕ)
    (hslots : ∀ i, i < (ys ++ [z]).length ∨ trivial = false → v.slots i = (ys ++ [z])[i]?)
    (hsome : v.slots it ≠ none) : ∃ w, v.moveLast trivial it ys.length = .ok w ∧
      w.size = v.size ∧ w.capacity = v.capacity ∧ w.extent = v.extent ∧
      (∀ i, i < ys.length ∨ trivial = false →
        w.slots i = (((ys ++ [z]).set it z).dropLast)[i]?) ∧
      ∀ j, j ≠ ys.length ∨ trivial = true → v.slots j ≠ none → w.slots j ≠ none := by
  have hlast : v.slots ys.length = some z := by
    rw [hslots ys.length (.inl (by simp)), List.getElem?_concat_length]
  have hupdated : Function.update v.slots it (some z) ys.length ≠ none := by
    by_cases heq : ys.length = it
    · rw [heq, Function.update_self]
      exact Option.some_ne_none z
    · rw [Function.update_of_ne heq, hlast]
      exact Option.some_ne_none z
  rw [moveLast, read_ok hlast]
  dsimp only
  rw [assign_ok hsome]
  dsimp only
  rw [destruct_ok hupdated]
  refine ⟨_, rfl, rfl, rfl, rfl, fun i hi => ?_, fun j hj hne => ?_⟩
  · rw [List.dropLast_eq_take, List.getElem?_take, List.length_set, List.length_append,
      List.length_singleton, Nat.add_sub_cancel]
    dsimp only [destructed]
    by_cases hlt : i < ys.length
    · rw [if_neg (by omega), if_pos hlt, List.getElem?_set]
      by_cases heq : it = i
      · subst heq
        rw [Function.update_self, if_pos rfl, if_pos (by simp; omega)]
      · rw [Function.update_of_ne (Ne.symm heq), if_neg heq]
        exact hslots i (.inl (by simp; omega))
    · have htrivial := hi.resolve_left hlt
      rw [if_neg hlt]
      split_ifs with hin
      · rfl
      · have hle : ys.length + 1 ≤ i := by
          by_contra hlt'
          exact hin ⟨htrivial, by omega, by omega⟩
        have hraw : v.slots i = none := by
          rw [hslots i (.inr htrivial), List.getElem?_eq_none (by simp; omega)]
        rw [Function.update_of_ne, hraw]
        rintro rfl
        exact hsome hraw
  · dsimp only [destructed]
    rw [if_neg]
    · by_cases heq : j = it
      · rw [heq, Function.update_self]
        exact Option.some_ne_none z
      · rwa [Function.update_of_ne heq]
    · rintro ⟨htrivial, h₁, h₂⟩
      rcases hj with hj | hj
      · omega
      · rw [htrivial] at hj
        cases hj

theorem Holds.erase (h : Holds storage trivial v xs) (it : ℕ) :
    ∃ w, v.erase trivial it = .ok w ∧ Holds storage trivial w (UnstableErase.swapErase xs it) := by
  have hfits := h.fits
  have hroom := h.room
  rw [VectorData.erase]
  by_cases hit : it < v.size
  · rcases List.eq_nil_or_concat xs with rfl | ⟨ys, z, rfl⟩
    · rw [h.size] at hit
      cases hit
    · rw [List.concat_eq_append] at h hfits ⊢
      have hsize := h.size
      rw [List.length_append, List.length_singleton] at hsize hfits
      obtain ⟨w, hw, hwsize, hcapacity, hextent, hslots, -⟩ :=
        moveLast_ok it h.slots (h.ne_none (by rw [← h.size]; exact hit))
      rw [if_pos hit, show v.size - 1 = ys.length by omega, hw,
        UnstableErase.swapErase_append_singleton ys z (by omega)]
      have hset : ((ys ++ [z]).set it z).dropLast = ys.set it z := by
        rw [← UnstableErase.swapErase_append_singleton ys z (by omega), UnstableErase.swapErase,
          List.getLast?_concat]
        exact (if_pos (by simp; omega)).symm
      rw [hset] at hslots
      refine ⟨_, rfl, ⟨?_, ?_, fun c hc => hcapacity.trans (h.static c hc), ?_, ?_⟩⟩
      · rw [List.length_set]
        change w.size - 1 = ys.length
        omega
      · rw [List.length_set]
        change ys.length ≤ w.capacity
        omega
      · change w.capacity ≤ w.extent
        omega
      · rw [List.length_set]
        exact hslots
  · rw [if_neg hit]
    refine ⟨v, rfl, ?_⟩
    have hnone : UnstableErase.swapErase xs it = xs := by
      rw [UnstableErase.swapErase]
      cases xs.getLast? with
      | none => rfl
      | some last => exact if_neg (by rw [← h.size]; exact hit)
    rwa [hnone]

/-- The holes of an unstable range erase are filled with constructed elements as long as the
elements behind the range are not used up. -/
theorem eraseLoop_ok {it n : ℕ}
    (hslots : ∀ i, i < xs.length ∨ trivial = false → v.slots i = xs[i]?)
    (hsome : ∀ j, it ≤ j → j < it + n → v.slots j ≠ none) (hle : n ≤ xs.length)
    (htail : trivial = true ∨ it + 2 * n ≤ xs.length) (hfits : xs.length ≤ v.capacity)
    (hstatic : ∀ capacity, storage = .static capacity → v.capacity = capacity)
    (hroom : v.capacity ≤ v.extent) : ∃ w, v.eraseLoop trivial it xs.length n = .ok w ∧
      Holds storage trivial w (UnstableErase.eraseRange xs it n) := by
  induction n generalizing v xs it with
  | zero => exact ⟨_, rfl, ⟨rfl, hfits, hstatic, hroom, hslots⟩⟩
  | succ n ih =>
    rcases List.eq_nil_or_concat xs with rfl | ⟨ys, z, rfl⟩
    · cases hle
    · rw [List.concat_eq_append] at hslots hle htail hfits ⊢
      obtain ⟨w, hw, -, hcapacity, hextent, hslots', hkept⟩ :=
        moveLast_ok it hslots (hsome it le_rfl (by omega))
      rw [List.length_append, List.length_singleton] at hle htail hfits ⊢
      rw [VectorData.eraseLoop, Nat.add_sub_cancel, hw, UnstableErase.eraseRange_append_singleton]
      have hlength : (((ys ++ [z]).set it z).dropLast).length = ys.length := by simp
      dsimp only
      rw [← hlength]
      refine ih ?_ (fun j hj hj' => ?_) (by omega) ?_ (by omega)
        (fun c hc => hcapacity.trans (hstatic c hc)) (by omega)
      · rw [hlength]
        exact hslots'
      · refine hkept j ?_ (hsome j (by omega) (by omega))
        exact htail.symm.imp_left fun htail => by omega
      · exact htail.imp_right fun htail => by omega

theorem Holds.eraseRange (h : Holds storage trivial v xs) {start stop : ℕ}
    (htail : start ≤ stop → stop ≤ v.size → trivial = true ∨ stop - start ≤ v.size - stop) :
    ∃ w, v.eraseRange trivial start stop = .ok w ∧ Holds storage trivial w
      (if start ≤ stop ∧ stop ≤ xs.length then UnstableErase.eraseRange xs start (stop - start)
        else xs) := by
  rw [VectorData.eraseRange, h.size]
  split_ifs with hrange
  · have htail := htail hrange.1 (by rw [h.size]; exact hrange.2)
    rw [h.size] at htail
    exact eraseLoop_ok h.slots (fun j _ hj => h.ne_none (by omega)) (by omega)
      (htail.imp_right fun htail => by omega) h.fits h.static h.room
  · exact ⟨v, rfl, h⟩

theorem Holds.eraseStable (h : Holds storage trivial v xs) (start stop : ℕ) :
    ∃ w, v.eraseStable trivial start stop = .ok w ∧ Holds storage trivial w
      (if start ≤ stop ∧ stop ≤ xs.length then xs.take start ++ xs.drop stop else xs) := by
  have hfits := h.fits
  rw [VectorData.eraseStable, h.size]
  split_ifs with hrange
  · rw [shift_ok hrange.1 (fun j _ hj => h.ne_none (by omega))]
    dsimp only
    rw [h.size, destructRange_ok (fun j hj hj' => by
      dsimp only
      rw [if_neg (by omega)]
      exact h.ne_none (by omega))]
    have hlength : (xs.take start ++ xs.drop stop).length = start + (xs.length - stop) := by
      rw [List.length_append, List.length_take, List.length_drop]
      omega
    refine ⟨_, rfl, ⟨?_, ?_, h.static, h.room, fun j hj => ?_⟩⟩
    · rw [hlength, ← h.size]
    · rw [hlength]
      change start + (xs.length - stop) ≤ v.capacity
      omega
    · rw [hlength] at hj
      dsimp only [destructed]
      by_cases hlt : j < start + (xs.length - stop)
      · rw [if_neg (by omega)]
        by_cases hfront : j < start
        · rw [if_neg (by omega), h.slots j (.inl (by omega)),
            List.getElem?_append_left (by rw [List.length_take]; omega),
            List.getElem?_take_of_lt hfront]
        · rw [if_pos (by omega), h.slots _ (.inl (by omega)),
            List.getElem?_append_right (by rw [List.length_take]; omega), List.length_take,
            List.getElem?_drop]
          congr 1
          omega
      · have htrivial := hj.resolve_left hlt
        rw [List.getElem?_eq_none (by omega)]
        split_ifs with hin hin'
        · rfl
        · omega
        · exact h.raw htrivial (Nat.not_lt.mp fun hlt' => hin ⟨htrivial, by omega, by omega⟩)
  · exact ⟨v, rfl, h⟩

/-- The stable erase of an element is that of a range. -/
theorem eraseStableAt_eq (v : VectorData α) (it : ℕ) :
    v.eraseStableAt trivial it = if it < v.size then v.eraseStable trivial it (it + 1)
      else .ok v := by
  rw [eraseStableAt]
  by_cases hit : it < v.size
  · rw [if_pos hit, if_pos hit, eraseStable, if_pos ⟨Nat.le_succ it, hit⟩, Nat.add_sub_cancel_left]
    cases v.shift it (it + 1) (v.size - (it + 1)) with
    | error e => rfl
    | ok w =>
      simp only [VectorData.destructRange]
      cases w.destruct trivial (it + (w.size - (it + 1))) <;> rfl
  · rw [if_neg hit, if_neg hit]

theorem Holds.eraseStableAt (h : Holds storage trivial v xs) (it : ℕ) :
    ∃ w, v.eraseStableAt trivial it = .ok w ∧ Holds storage trivial w (xs.eraseIdx it) := by
  rw [eraseStableAt_eq, h.size]
  split_ifs with hit
  · obtain ⟨w, hw, hholds⟩ := h.eraseStable it (it + 1)
    rw [if_pos ⟨Nat.le_succ it, hit⟩, ← List.eraseIdx_eq_take_drop_succ] at hholds
    exact ⟨w, hw, hholds⟩
  · rw [List.eraseIdx_of_length_le (Nat.not_lt.mp hit)]
    exact ⟨v, rfl, h⟩

/-- The element in the way goes to the end. -/
theorem Holds.insert (h : Holds storage trivial v xs) {it : ℕ} {p : Argument α} {x : α}
    (hit : it ≤ v.size) (hp : p.value? xs = some x) (hgrow : v.size = v.capacity →
      Grows storage (v.size + 1) granted →
        it = v.size ∧ storage.Sized (v.size + 1) ∧ p.IsValue) :
    ∃ w ok, v.insert trivial storage it p granted = .ok (w, ok) ∧ Holds storage trivial w
      (if ok then (match xs[it]? with
        | none => xs ++ [x]
        | some y => (xs ++ [y]).set it x) else xs) := by
  have hsize := h.size
  rw [VectorData.insert]
  by_cases hend : it = v.size
  · rw [if_neg (not_not_intro hend), List.getElem?_eq_none (by omega)]
    exact h.tryEmplaceBack _ _ hp fun hfull hgrows => (hgrow hfull hgrows).2
  · have hlt : it < xs.length := by omega
    have hy : xs[it]? = some xs[it] := List.getElem?_eq_getElem hlt
    obtain ⟨w, ok, hw, hholds⟩ := h.tryEmplaceBack storage granted
      (p := .element it) hy fun hfull hgrows => absurd (hgrow hfull hgrows).1 hend
    rw [if_pos hend, hw, hy]
    cases ok with
    | false => exact ⟨w, false, rfl, hholds⟩
    | true =>
      rw [if_pos rfl] at hholds
      have hp' : p.value? (xs ++ [xs[it]]) = some x := by
        cases p with
        | value z => exact hp
        | element i =>
          have hi : i < xs.length := (List.getElem?_eq_some_iff.mp hp).1
          exact (List.getElem?_append_left hi).trans hp
      have hlt' : it < (xs ++ [xs[it]]).length := by
        rw [List.length_append]
        omega
      dsimp only
      rw [hholds.argument hp']
      dsimp only
      rw [assign_ok (hholds.ne_none hlt')]
      refine ⟨_, true, rfl, ⟨?_, ?_, hholds.static, hholds.room, fun j hj => ?_⟩⟩
      · rw [if_pos rfl, List.length_set]
        exact hholds.size
      · rw [if_pos rfl, List.length_set]
        exact hholds.fits
      · rw [if_pos rfl] at hj ⊢
        rw [List.length_set] at hj
        dsimp only
        rw [List.getElem?_set]
        by_cases heq : it = j
        · subst heq
          rw [Function.update_self, if_pos rfl, if_pos hlt']
        · rw [Function.update_of_ne (Ne.symm heq), if_neg heq, hholds.slots j hj]

end VectorData

end Fimbulwinter.Vector
