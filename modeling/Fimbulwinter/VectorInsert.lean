import Fimbulwinter.VectorRuns

/-! # `utility::vector::insert`

The element in the way goes to the end first, which takes a spare slot or new storage. In new
storage neither that element nor its place are what the iterator refers to. -/
namespace Fimbulwinter.Vector

variable {α : Type*}

/-- The list with an element at `i`, and the one that was there at the end. -/
def inserted (xs : List α) (i : ℕ) (p : α) : List α :=
  match xs[i]? with
  | none => xs ++ [p]
  | some y => (xs ++ [y]).set i p

theorem length_inserted (xs : List α) (i : ℕ) (p : α) :
    (inserted xs i p).length = xs.length + 1 := by
  rw [inserted]
  split
  · rw [List.length_append, List.length_singleton]
  · rw [List.length_set, List.length_append, List.length_singleton]

theorem getElem?_inserted {xs : List α} {i : ℕ} (hi : i ≤ xs.length) (p : α) :
    (inserted xs i p)[i]? = some p := by
  rw [inserted]
  rcases Nat.lt_or_eq_of_le hi with hlt | rfl
  · rw [List.getElem?_eq_getElem hlt]
    exact List.getElem?_set_self (by rw [List.length_append]; omega)
  · rw [List.getElem?_eq_none le_rfl]
    exact List.getElem?_concat_length

theorem getElem?_inserted_length {xs : List α} {i : ℕ} (hi : i < xs.length) (p : α) :
    (inserted xs i p)[xs.length]? = xs[i]? := by
  rw [inserted, List.getElem?_eq_getElem hi]
  dsimp only
  rw [List.getElem?_set_ne (by omega), List.getElem?_concat_length]

theorem getElem?_inserted_of_ne {xs : List α} {i j : ℕ} (hj : j < xs.length) (hne : j ≠ i) (p : α) :
    (inserted xs i p)[j]? = xs[j]? := by
  rw [inserted]
  split
  · exact List.getElem?_append_left hj
  · rw [List.getElem?_set_ne hne.symm]
    exact List.getElem?_append_left hj

/-- The block that is allocated for so many elements has slots for them. -/
def Storage.Extends (storage : Storage) (minCapacity : ℕ) : Prop :=
  match storage with
  | .static _ => True
  | .dynamic elementSize _ reservation =>
    minCapacity ≤ elementSize * reservation minCapacity % 2 ^ 64 / elementSize

/-- An insert does to the contents what it says. -/
def Inserts (storage : Storage) (trivial : Bool) (v : VectorData α) (xs : List α) (i : ℕ) (p : α)
    (granted : Bool) : Prop :=
  ∃ w ok, v.insert trivial storage i (.value p) granted = .ok (w, ok) ∧
    Contents w (if ok then inserted xs i p else xs)

namespace VectorData

variable {storage : Storage} {trivial granted : Bool} {v : VectorData α} {xs : List α}

theorem Holds.contents (h : Holds storage trivial v xs) : Contents v xs :=
  ⟨h.size, fun i hi => h.slots i (.inl hi)⟩

theorem extent_constructRange {source v w : VectorData α} {i n : ℕ}
    (h : constructRange trivial source v i n = .ok w) : w.extent = v.extent := by
  induction n generalizing v i with
  | zero =>
    cases h
    rfl
  | succ n ih =>
    rw [constructRange] at h
    split at h
    · cases h
    · split at h
      · cases h
      next u hu =>
        rw [ih h]
        rw [construct] at hu
        split_ifs at hu
        cases hu
        rfl

/-- New storage has as many slots as its bytes suffice for. -/
theorem extent_reallocate {elementSize : ℕ} {pos : 0 < elementSize} {reservation : ℕ → ℕ}
    {minCapacity : ℕ} {w : VectorData α}
    (h : v.reallocate trivial (.dynamic elementSize pos reservation) minCapacity true = .ok (w, true)) :
    w.size = v.size ∧ w.extent = elementSize * reservation minCapacity % 2 ^ 64 / elementSize := by
  rw [reallocate] at h
  split_ifs at h with hsmall
  · cases h
  · simp only [Storage.allocate, if_true, copy] at h
    split at h
    · cases h
    next data hdata =>
      split at hdata
      · cases hdata
      next u hu =>
        cases hdata
        split at h
        · cases h
        · cases h
          exact ⟨rfl, extent_constructRange hu⟩

/-- When there are enough slots for one more element, a full vector grows. -/
theorem Holds.reallocate_extends (h : Holds storage trivial v xs)
    (hgrows : Grows storage (v.size + 1) granted) (hextends : storage.Extends (v.size + 1)) :
    ∃ w, v.reallocate trivial storage (v.size + 1) granted = .ok (w, true) ∧ w.size = xs.length ∧
      w.size < w.extent ∧ ∀ i, i < xs.length ∨ trivial = false → w.slots i = xs[i]? := by
  cases storage with
  | static capacity => exact absurd hgrows id
  | dynamic elementSize pos reservation =>
    obtain ⟨hle, rfl⟩ := hgrows
    have hsize := h.size
    have hextent : v.size + 1 ≤ elementSize * reservation (v.size + 1) % 2 ^ 64 / elementSize :=
      hextends
    have hcopy := constructRange_ok
      (v := ⟨fun _ => none, elementSize * reservation (v.size + 1) % 2 ^ 64 / elementSize,
        reservation (v.size + 1), 0⟩) (i := 0) (n := v.size) (by dsimp only; omega)
      (fun j _ hj => h.ne_none (by omega)) (fun (_ : trivial = false) _ _ _ => rfl)
    rw [VectorData.reallocate, if_neg (Nat.not_lt.mpr hle)]
    simp only [Storage.allocate, if_true, VectorData.copy, hcopy, h.purge]
    refine ⟨_, rfl, hsize, by dsimp only; omega, fun j hj => ?_⟩
    dsimp only
    by_cases hin : j < v.size
    · rw [if_pos (by omega), h.slots j (.inl (by omega))]
    · rw [if_neg (by omega), List.getElem?_eq_none (by omega)]

theorem not_inserts_of_grows {i : ℕ} {p : α} (hfull : v.size = v.capacity)
    (hgrows : Grows storage (v.size + 1) granted) (hsize : v.size = xs.length)
    (h : Inserts storage trivial v xs i p granted) : i = v.size ∧ storage.Extends (v.size + 1) := by
  cases storage with
  | static capacity => exact absurd hgrows id
  | dynamic elementSize pos reservation =>
    obtain ⟨hle, rfl⟩ := hgrows
    obtain ⟨w, ok, hrun, -⟩ := h
    have hreserve : v.tryReserve trivial (.dynamic elementSize pos reservation) (v.size + 1) true =
        v.reallocate trivial (.dynamic elementSize pos reservation) (v.size + 1) true :=
      if_neg (by omega)
    have hgrown : ∀ u, v.reallocate trivial (.dynamic elementSize pos reservation) (v.size + 1) true ≠
        .ok (u, false) := by
      intro u hu
      rw [VectorData.reallocate, if_neg (Nat.not_lt.mpr hle)] at hu
      simp only [Storage.allocate, if_true] at hu
      split at hu
      · cases hu
      · split at hu <;> cases hu
    rw [VectorData.insert] at hrun
    split_ifs at hrun with hend
    · -- The element in the way is read after its storage has been returned.
      rw [tryEmplaceBack, if_neg (not_not_intro hfull), hreserve] at hrun
      cases hreallocate : v.reallocate trivial (.dynamic elementSize pos reservation) (v.size + 1) true with
      | error e =>
        rw [hreallocate] at hrun
        cases hrun
      | ok r =>
        obtain ⟨u, _ | _⟩ := r
        · exact absurd hreallocate (hgrown u)
        · rw [hreallocate] at hrun
          cases hrun
    · refine ⟨not_not.mp hend, ?_⟩
      rw [tryEmplaceBack, if_neg (not_not_intro hfull), hreserve] at hrun
      cases hreallocate : v.reallocate trivial (.dynamic elementSize pos reservation) (v.size + 1) true with
      | error e =>
        rw [hreallocate] at hrun
        cases hrun
      | ok r =>
        obtain ⟨u, _ | _⟩ := r
        · exact absurd hreallocate (hgrown u)
        · obtain ⟨husize, hextent⟩ := extent_reallocate hreallocate
          rw [hreallocate] at hrun
          simp only [argumentAfter, emplaceAtEnd, construct] at hrun
          by_cases hout : u.extent ≤ u.size
          · rw [if_pos hout] at hrun
            cases hrun
          · change v.size + 1 ≤ _
            omega

/-- At the end of a full vector that grows. -/
theorem Holds.inserts_end {p : α} (h : Holds storage trivial v xs) (hfull : v.size = v.capacity)
    (hgrows : Grows storage (v.size + 1) granted) (hextends : storage.Extends (v.size + 1)) :
    Inserts storage trivial v xs v.size p granted := by
  obtain ⟨w, hw, hsize, hroom, hslots⟩ := h.reallocate_extends hgrows hextends
  have hraw : trivial = false → w.slots w.size = none := fun htrivial => by
    rw [hslots _ (.inr htrivial), List.getElem?_eq_none (by omega)]
  have hfits : ¬ v.size + 1 ≤ v.capacity := by omega
  refine ⟨{ w with slots := Function.update w.slots w.size (some p), size := w.size + 1 }, true,
    ?_, ?_⟩
  · rw [VectorData.insert, if_neg (not_not_intro rfl), VectorData.tryEmplaceBack,
      if_neg (not_not_intro hfull), VectorData.tryReserve, if_neg hfits, hw]
    simp only [argumentAfter, VectorData.emplaceAtEnd, construct_ok hroom hraw]
  · rw [if_pos rfl, inserted, List.getElem?_eq_none (by rw [h.size])]
    refine ⟨?_, fun j hj => ?_⟩
    · rw [List.length_append, List.length_singleton, hsize]
    · rw [List.length_append, List.length_singleton] at hj
      dsimp only
      rw [hsize]
      by_cases hjl : j = xs.length
      · rw [hjl, Function.update_self, List.getElem?_concat_length]
      · rw [Function.update_of_ne hjl, hslots j (.inl (by omega)),
          List.getElem?_append_left (by omega)]

end VectorData

/-- An insert does what it says exactly if it is at the end whenever the vector grows, and there
are slots enough in the new storage. -/
theorem inserts_iff (storage : Storage) (trivial granted : Bool) (v : VectorData α) (xs : List α)
    (h : VectorData.Holds storage trivial v xs) {i : ℕ} (hi : i ≤ xs.length) (p : α) :
    Inserts storage trivial v xs i p granted ↔
      (v.size = v.capacity → VectorData.Grows storage (v.size + 1) granted →
        i = v.size ∧ storage.Extends (v.size + 1)) := by
  constructor
  · intro hinserts hfull hgrows
    exact VectorData.not_inserts_of_grows hfull hgrows h.size hinserts
  · intro hcondition
    by_cases hgrows : v.size = v.capacity ∧ VectorData.Grows storage (v.size + 1) granted
    · obtain ⟨rfl, hextends⟩ := hcondition hgrows.1 hgrows.2
      exact h.inserts_end hgrows.1 hgrows.2 hextends
    · obtain ⟨w, ok, hw, hholds⟩ := h.insert (p := .value p) (h.size ▸ hi) rfl
        fun hfull hgrow => absurd ⟨hfull, hgrow⟩ hgrows
      exact ⟨w, ok, hw, hholds.contents⟩

theorem inserts_spare : Inserts (.dynamic 4 (by decide) clp2) false
    ⟨fun i => ['a', 'b'][i]?, 4, 4, 2⟩ ['a', 'b'] 0 'c' true :=
  (inserts_iff _ _ _ _ _ ⟨rfl, by decide, fun _ h => (by cases h), le_rfl, fun _ _ => rfl⟩
    (by decide) 'c').mpr fun hfull => absurd hfull (by decide)

/-- An insert at the beginning of a vector that is full. -/
theorem not_inserts_first : ∃ v : VectorData Char,
    step (.dynamic 4 (by decide) id) true (initial (.dynamic 4 (by decide) id) true, true)
        (.emplaceBack (.value 'a') true) = .ok (v, true) ∧
      Contents v ['a'] ∧ ¬ Inserts (.dynamic 4 (by decide) id) true v ['a'] 0 'b' true := by
  refine ⟨_, rfl, ⟨rfl, fun i hi => ?_⟩, ?_⟩
  · obtain rfl : i = 0 := by simpa using hi
    rfl
  · rintro ⟨w, ok, hw, -⟩
    cases hw

end Fimbulwinter.Vector
