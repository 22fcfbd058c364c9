import Fimbulwinter.SerialLayout

/-! # `aggregation_allocator`

Where the arrays of an allocation start, in the arithmetic of `std::size_t`. -/
namespace Fimbulwinter.AggregationLayout
open SerialLayout

/-- An element type, whose size is a multiple of its alignment. -/
structure ElementType where
  size : ℕ
  alignment : ℕ
  pos : 0 < size
  fits : size < 2 ^ 64
  aligned : alignment ∣ size

/-- `align_upwards` -/
def alignUpwards (n a : ℕ) : ℕ := (n + a + (2 ^ 64 - 1)) % 2 ^ 64 / a * a

/-- The offset behind an array. -/
def advance (capacity acc : ℕ) (u : ElementType) : ℕ := (acc + u.size * capacity) % 2 ^ 64

/-- `offset_of_impl` -/
def offsetOfImpl (capacity acc : ℕ) (u1 : ElementType) : List ElementType → ℕ
  | [] => acc
  | u2 :: us => offsetOfImpl capacity (alignUpwards (advance capacity acc u1) u2.size) u2 us

/-- `offset_of`; a header of type `void` has size 0. -/
def offsetOf (header capacity : ℕ) (u1 : ElementType) (us : List ElementType) : ℕ :=
  offsetOfImpl capacity (alignUpwards header u1.size) u1 us

/-- `size_of` -/
def sizeOf (header capacity : ℕ) (u1 : ElementType) (us : List ElementType) : ℕ :=
  advance capacity (offsetOf header capacity u1 us) ((u1 :: us).getLast (List.cons_ne_nil u1 us))

/-- `offsets_impl` -/
def offsetsImpl (capacity acc : ℕ) (u1 : ElementType) : List ElementType → List ℕ → List ℕ
  | [], is => is ++ [acc]
  | u2 :: us, is =>
    offsetsImpl capacity (alignUpwards (advance capacity acc u1) u2.size) u2 us (is ++ [acc])

def offsets (header capacity : ℕ) (u1 : ElementType) (us : List ElementType) : List ℕ :=
  offsetsImpl capacity (alignUpwards header u1.size) u1 us []

/-- `address<I>`, from the start of the allocation; it takes the first element types. -/
def address (header capacity i : ℕ) (u1 : ElementType) (us : List ElementType) : ℕ :=
  offsetOf header capacity u1 (us.take i)

/-! ## What a layout should be -/

/-- The arrays with their offsets. -/
def placed (header capacity : ℕ) (u1 : ElementType) (us : List ElementType) :
    List (ℕ × ElementType) := (offsets header capacity u1 us).zip (u1 :: us)

/-- A byte is in an array. -/
def Holds (capacity : ℕ) (array : ℕ × ElementType) (byte : ℕ) : Prop :=
  array.1 ≤ byte ∧ byte < array.1 + array.2.size * capacity

structure LaidOut (header capacity : ℕ) (u1 : ElementType) (us : List ElementType) : Prop where
  complete : (offsets header capacity u1 us).length = us.length + 1
  aligned : ∀ array ∈ placed header capacity u1 us, array.2.alignment ∣ array.1
  apart : (placed header capacity u1 us).Pairwise fun a b =>
    ∀ byte, ¬ (Holds capacity a byte ∧ Holds capacity b byte)
  behindHeader : ∀ array ∈ placed header capacity u1 us, ∀ byte < header, ¬ Holds capacity array byte
  within : ∀ array ∈ placed header capacity u1 us,
    array.1 + array.2.size * capacity ≤ sizeOf header capacity u1 us
  same : ∀ i ≤ us.length, (offsets header capacity u1 us)[i]? = some (address header capacity i u1 us)

/-- The exact number of bytes that a layout takes. -/
def totalSize (header capacity : ℕ) (us : List ElementType) : ℕ :=
  finish capacity header (us.map ElementType.size)

/-- The sums in the roundings of ends up to starts are numbers of 64 bits. -/
def RoundingsFit (capacity : ℕ) : ℕ → List ElementType → Prop
  | _, [] => True
  | e, u :: us =>
    e + u.size ≤ 2 ^ 64 ∧ RoundingsFit capacity (roundUp e u.size + u.size * capacity) us

/-- Either no rounding behind the first array wraps, or the one in front of it does, so that all
arrays are without bytes at the start of the allocation. -/
def Fits (header capacity : ℕ) (u1 : ElementType) (us : List ElementType) : Prop :=
  2 ^ 64 < header + u1.size ∨
    RoundingsFit capacity (roundUp header u1.size + u1.size * capacity) us

/-! ## Two recursions -/

variable {header capacity acc e : ℕ} {u u1 : ElementType} {us : List ElementType}

theorem offsetsImpl_append (capacity acc : ℕ) (u1 : ElementType) (us : List ElementType)
    (is : List ℕ) : offsetsImpl capacity acc u1 us is = is ++ offsetsImpl capacity acc u1 us [] := by
  induction us generalizing acc u1 is with
  | nil => rfl
  | cons u2 us ih =>
    rw [offsetsImpl, offsetsImpl, ih, ih _ _ ([] ++ [acc]), List.append_assoc, List.nil_append]

theorem offsetsImpl_cons (capacity acc : ℕ) (u1 u2 : ElementType) (us : List ElementType) :
    offsetsImpl capacity acc u1 (u2 :: us) [] =
      acc :: offsetsImpl capacity (alignUpwards (advance capacity acc u1) u2.size) u2 us [] := by
  rw [offsetsImpl, offsetsImpl_append]
  rfl

theorem length_offsetsImpl (capacity acc : ℕ) (u1 : ElementType) (us : List ElementType) :
    (offsetsImpl capacity acc u1 us []).length = us.length + 1 := by
  induction us generalizing acc u1 with
  | nil => rfl
  | cons u2 us ih => rw [offsetsImpl_cons, List.length_cons, List.length_cons, ih]

/-- The recursion for one array gives what the recursion for all arrays does. -/
theorem getElem?_offsetsImpl (capacity acc : ℕ) (u1 : ElementType) (us : List ElementType) {i : ℕ}
    (hi : i ≤ us.length) :
    (offsetsImpl capacity acc u1 us [])[i]? = some (offsetOfImpl capacity acc u1 (us.take i)) := by
  induction us generalizing acc u1 i with
  | nil =>
    obtain rfl : i = 0 := Nat.le_zero.mp hi
    rfl
  | cons u2 us ih =>
    rw [offsetsImpl_cons]
    cases i with
    | zero => rfl
    | succ i => exact ih _ u2 (Nat.le_of_succ_le_succ hi)

/-! ## Roundings that fit -/

theorem alignUpwards_eq (h : e + u.size ≤ 2 ^ 64) : alignUpwards e u.size = roundUp e u.size := by
  have hpos := u.pos
  have hsum : (e + u.size + (2 ^ 64 - 1)) % 2 ^ 64 = e + u.size - 1 := by omega
  rw [alignUpwards, hsum, roundUp]

/-- The exact starts, if the total size is a number of 64 bits. -/
theorem offsetsImpl_eq (hfits : RoundingsFit capacity (acc + u1.size * capacity) us)
    (htotal : finish capacity (acc + u1.size * capacity) (us.map ElementType.size) < 2 ^ 64) :
    offsetsImpl capacity acc u1 us [] =
        acc :: starts capacity (acc + u1.size * capacity) (us.map ElementType.size) ∧
      advance capacity (offsetOfImpl capacity acc u1 us)
          ((u1 :: us).getLast (List.cons_ne_nil u1 us)) =
        finish capacity (acc + u1.size * capacity) (us.map ElementType.size) := by
  induction us generalizing acc u1 with
  | nil => exact ⟨rfl, Nat.mod_eq_of_lt htotal⟩
  | cons u2 us ih =>
    obtain ⟨hround, hrest⟩ := hfits
    have hpos := u2.pos
    have hsizes : ∀ size ∈ us.map ElementType.size, 0 < size := by
      intro size hsize
      obtain ⟨u, -, rfl⟩ := List.mem_map.mp hsize
      exact u.pos
    have hadvance : advance capacity acc u1 = acc + u1.size * capacity :=
      Nat.mod_eq_of_lt (by omega)
    have hstart : alignUpwards (advance capacity acc u1) u2.size =
        roundUp (acc + u1.size * capacity) u2.size := by
      rw [hadvance, alignUpwards_eq hround]
    obtain ⟨hoffsets, hend⟩ := ih hrest htotal
    refine ⟨?_, ?_⟩
    · rw [offsetsImpl_cons, hstart, hoffsets]
      rfl
    · rw [offsetOfImpl, hstart]
      exact hend

theorem sizes_pos (us : List ElementType) : ∀ size ∈ us.map ElementType.size, 0 < size := by
  intro size hsize
  obtain ⟨u, -, rfl⟩ := List.mem_map.mp hsize
  exact u.pos

/-- A layout of arrays with items makes no rounding wrap. -/
theorem roundingsFit_of_total (hcapacity : 0 < capacity)
    (htotal : finish capacity e (us.map ElementType.size) < 2 ^ 64) : RoundingsFit capacity e us := by
  induction us generalizing e with
  | nil => exact trivial
  | cons u us ih =>
    have hle : roundUp e u.size + u.size * capacity ≤ finish capacity
        (roundUp e u.size + u.size * capacity) (us.map ElementType.size) := le_finish (sizes_pos us)
    have hround := le_roundUp (n := e) u.pos
    have hitems : u.size ≤ u.size * capacity := Nat.le_mul_of_pos_right _ hcapacity
    rw [List.map_cons, finish] at htotal
    exact ⟨by omega, ih htotal⟩

theorem fits_of_total (hcapacity : 0 < capacity)
    (htotal : totalSize header capacity (u1 :: us) < 2 ^ 64) : Fits header capacity u1 us :=
  .inr (roundingsFit_of_total hcapacity htotal)

/-- The first rounding, of the header, fits if the layout does. -/
theorem alignUpwards_header (hfits : header + u1.size ≤ 2 ^ 64)
    (hround : RoundingsFit capacity (roundUp header u1.size + u1.size * capacity) us)
    (htotal : totalSize header capacity (u1 :: us) < 2 ^ 64) :
    offsets header capacity u1 us = starts capacity header ((u1 :: us).map ElementType.size) ∧
      sizeOf header capacity u1 us = totalSize header capacity (u1 :: us) := by
  rw [totalSize, List.map_cons, finish] at htotal ⊢
  rw [offsets, sizeOf, offsetOf, alignUpwards_eq hfits]
  exact offsetsImpl_eq hround htotal

/-- The number of bytes that is allocated is exact, for arrays with items. -/
theorem sizeOf_eq (hcapacity : 0 < capacity)
    (htotal : totalSize header capacity (u1 :: us) < 2 ^ 64) :
    sizeOf header capacity u1 us = totalSize header capacity (u1 :: us) := by
  have hround : RoundingsFit capacity header (u1 :: us) := roundingsFit_of_total hcapacity htotal
  exact (alignUpwards_header hround.1 hround.2 htotal).2

/-! ## Arrays without bytes -/

theorem alignUpwards_wraps (hwraps : 2 ^ 64 < e + u.size) (he : e < 2 ^ 64) :
    alignUpwards e u.size = 0 := by
  have hfits := u.fits
  have hsum : (e + u.size + (2 ^ 64 - 1)) % 2 ^ 64 = e + u.size - 1 - 2 ^ 64 := by omega
  rw [alignUpwards, hsum, Nat.div_eq_of_lt (by omega), Nat.zero_mul]

theorem advance_zero (h : acc < 2 ^ 64) : advance 0 acc u = acc := by
  rw [advance, Nat.mul_zero, Nat.add_zero, Nat.mod_eq_of_lt h]

theorem alignUpwards_zero (u : ElementType) : alignUpwards 0 u.size = 0 := by
  rw [alignUpwards_eq (by have := u.fits; omega), roundUp_zero]

/-- Behind an array at 0, all arrays without bytes are there. -/
theorem offsetsImpl_zero (u1 : ElementType) (us : List ElementType) :
    (∀ i ∈ offsetsImpl 0 0 u1 us [], i = 0) ∧ offsetOfImpl 0 0 u1 us = 0 := by
  induction us generalizing u1 with
  | nil => exact ⟨fun i hi => List.mem_singleton.mp hi, rfl⟩
  | cons u2 us ih =>
    have hnext : alignUpwards (advance 0 0 u1) u2.size = 0 := by
      rw [advance_zero (by decide), alignUpwards_zero]
    obtain ⟨hall, hlast⟩ := ih u2
    refine ⟨fun i hi => ?_, ?_⟩
    · rw [offsetsImpl_cons, hnext] at hi
      exact (List.mem_cons.mp hi).elim id (hall i)
    · rw [offsetOfImpl, hnext, hlast]

/-- When a rounding wraps, an array lies behind the end of the allocation. -/
theorem exists_behind_of_wraps (u1 : ElementType) (hacc : acc < 2 ^ 64) (hnot : ¬ RoundingsFit 0 acc us)
    (htotal : finish 0 acc (us.map ElementType.size) < 2 ^ 64) :
    (∃ i ∈ offsetsImpl 0 acc u1 us [], 0 < i) ∧ offsetOfImpl 0 acc u1 us = 0 := by
  induction us generalizing acc u1 with
  | nil => exact absurd trivial hnot
  | cons u2 us ih =>
    rw [offsetsImpl_cons, offsetOfImpl, advance_zero hacc]
    rw [List.map_cons, finish, Nat.mul_zero, Nat.add_zero] at htotal
    by_cases hwraps : 2 ^ 64 < acc + u2.size
    · rw [alignUpwards_wraps hwraps hacc]
      have hfits := u2.fits
      exact ⟨⟨acc, List.mem_cons_self .., by omega⟩, (offsetsImpl_zero u2 us).2⟩
    · have hround : acc + u2.size ≤ 2 ^ 64 := Nat.le_of_not_lt hwraps
      have hrest : ¬ RoundingsFit 0 (roundUp acc u2.size) us := fun h => hnot ⟨hround, h⟩
      have hle : roundUp acc u2.size ≤ finish 0 (roundUp acc u2.size) (us.map ElementType.size) :=
        le_finish (sizes_pos us)
      rw [alignUpwards_eq hround]
      obtain ⟨⟨i, hi, hpos⟩, hend⟩ := @ih _ u2 (by omega) hrest htotal
      exact ⟨⟨i, List.mem_cons_of_mem _ hi, hpos⟩, hend⟩

/-! ## Layouts -/

theorem length_offsets (header capacity : ℕ) (u1 : ElementType) (us : List ElementType) :
    (offsets header capacity u1 us).length = us.length + 1 := length_offsetsImpl _ _ _ _

theorem arrays_eq_placed
    (hoffsets : offsets header capacity u1 us = starts capacity header ((u1 :: us).map ElementType.size)) :
    arrays capacity header ((u1 :: us).map ElementType.size) =
      (placed header capacity u1 us).map (Prod.map id ElementType.size) := by
  rw [arrays, placed, hoffsets, List.zip_map_right]

/-- The exact layout is as it should be. -/
theorem laidOut_of_exact
    (hoffsets : offsets header capacity u1 us = starts capacity header ((u1 :: us).map ElementType.size))
    (hsize : sizeOf header capacity u1 us = totalSize header capacity (u1 :: us)) :
    LaidOut header capacity u1 us := by
  have harrays := arrays_eq_placed hoffsets
  have hwithin : ∀ array ∈ placed header capacity u1 us, header ≤ array.1 ∧
      array.2.size ∣ array.1 ∧
        array.1 + array.2.size * capacity ≤ totalSize header capacity (u1 :: us) := by
    intro array harray
    have hmem : (array.1, array.2.size) ∈ arrays capacity header ((u1 :: us).map ElementType.size) := by
      rw [harrays]
      exact List.mem_map.mpr ⟨array, harray, rfl⟩
    exact arrays_within (sizes_pos (u1 :: us)) hmem
  have hpairwise := arrays_pairwise capacity header (sizes_pos (u1 :: us))
  rw [harrays, List.pairwise_map] at hpairwise
  refine ⟨length_offsets _ _ _ _, fun array harray => ?_, ?_, fun array harray byte hbyte hholds => ?_,
    fun array harray => ?_, fun i hi => getElem?_offsetsImpl _ _ _ _ hi⟩
  · exact Nat.dvd_trans array.2.aligned (hwithin array harray).2.1
  · refine hpairwise.imp fun {a b} hle byte hholds => ?_
    obtain ⟨⟨-, hlt⟩, ⟨hge, -⟩⟩ := hholds
    dsimp only [Prod.map, id] at hle
    omega
  · have hheader := (hwithin array harray).1
    have hge := hholds.1
    omega
  · rw [hsize]
    exact (hwithin array harray).2.2

/-- Arrays without bytes at the start of the allocation are laid out as they should be. -/
theorem laidOut_of_zero (hoffsets : ∀ i ∈ offsets header 0 u1 us, i = 0) :
    LaidOut header 0 u1 us := by
  have hzero : ∀ array ∈ placed header 0 u1 us, array.1 = 0 := fun array harray =>
    hoffsets array.1 (List.of_mem_zip harray).1
  have hnone : ∀ (array : ℕ × ElementType) (byte : ℕ), ¬ Holds 0 array byte := by
    rintro array byte ⟨hle, hlt⟩
    omega
  refine ⟨length_offsets _ _ _ _, fun array harray => ?_, ?_, fun array _ byte _ => hnone array byte,
    fun array harray => ?_, fun i hi => getElem?_offsetsImpl _ _ _ _ hi⟩
  · rw [hzero array harray]
    exact Nat.dvd_zero _
  · exact List.pairwise_of_forall fun a b byte h => hnone a byte h.1
  · rw [hzero array harray, Nat.mul_zero]
    exact Nat.zero_le _

/-- A layout that fits in 64 bits is as it should be exactly if its roundings do not wrap, which
is so for all arrays with items. -/
theorem laidOut_iff (header capacity : ℕ) (u1 : ElementType) (us : List ElementType)
    (htotal : totalSize header capacity (u1 :: us) < 2 ^ 64) :
    (LaidOut header capacity u1 us ↔ Fits header capacity u1 us) ∧
      (0 < capacity → Fits header capacity u1 us) := by
  refine ⟨?_, fun hcapacity => fits_of_total hcapacity htotal⟩
  have hheader : header < 2 ^ 64 := Nat.lt_of_le_of_lt (le_finish (sizes_pos (u1 :: us))) htotal
  by_cases hfirst : header + u1.size ≤ 2 ^ 64
  · by_cases hround : RoundingsFit capacity (roundUp header u1.size + u1.size * capacity) us
    · obtain ⟨hoffsets, hsize⟩ := alignUpwards_header hfirst hround htotal
      exact iff_of_true (laidOut_of_exact hoffsets hsize) (.inr hround)
    · refine iff_of_false (fun h => ?_) fun h => h.elim (fun hwraps => by omega) hround
      obtain rfl : capacity = 0 := by
        by_contra hne
        obtain hwraps | h' := fits_of_total (Nat.pos_of_ne_zero hne) htotal
        · omega
        · exact hround h'
      rw [totalSize, List.map_cons, finish] at htotal
      rw [Nat.mul_zero, Nat.add_zero] at htotal hround
      have hstart : roundUp header u1.size < 2 ^ 64 := Nat.lt_of_le_of_lt (le_finish (sizes_pos us)) htotal
      obtain ⟨⟨i, hi, hpos⟩, hend⟩ := exists_behind_of_wraps u1 hstart hround htotal
      have hsize : sizeOf header 0 u1 us = 0 := by
        rw [sizeOf, offsetOf, alignUpwards_eq hfirst, hend, advance_zero (by decide)]
      have hmem : i ∈ (placed header 0 u1 us).map Prod.fst := by
        rw [placed, List.map_fst_zip (Nat.le_of_eq (length_offsets header 0 u1 us)), offsets, alignUpwards_eq hfirst]
        exact hi
      obtain ⟨array, harray, rfl⟩ := List.mem_map.mp hmem
      have hwithin := h.within array harray
      rw [hsize, Nat.mul_zero] at hwithin
      omega
  · have hwraps : 2 ^ 64 < header + u1.size := Nat.lt_of_not_le hfirst
    obtain rfl : capacity = 0 := by
      by_contra hne
      have hround : RoundingsFit capacity header (u1 :: us) :=
        roundingsFit_of_total (Nat.pos_of_ne_zero hne) htotal
      exact hfirst hround.1
    refine iff_of_true (laidOut_of_zero ?_) (.inl hwraps)
    rw [offsets, alignUpwards_wraps hwraps hheader]
    exact (offsetsImpl_zero u1 us).1

/-- An element type without an alignment of its own. -/
def bytes (size : ℕ) (pos : 0 < size) (fits : size < 2 ^ 64) : ElementType :=
  ⟨size, 1, pos, fits, Nat.one_dvd size⟩

theorem laidOut_iff_two : LaidOut 4 3 (bytes 1 (by decide) (by decide))
    [bytes 8 (by decide) (by decide)] :=
  have h := laidOut_iff 4 3 (bytes 1 (by decide) (by decide)) [bytes 8 (by decide) (by decide)] (by decide)
  h.1.mpr (h.2 (by decide))

/-- The offset of the second of two arrays without items wraps, and the first one lies behind the
end of the allocation. -/
theorem layout_wraps :
    let u1 := bytes (2 ^ 63 - 2) (by decide) (by decide)
    let u2 := bytes 5 (by decide) (by decide)
    totalSize (2 ^ 63 - 1) 0 [u1, u2] = 2 ^ 64 - 1 ∧
      offsets (2 ^ 63 - 1) 0 u1 [u2] = [2 ^ 64 - 4, 0] ∧ sizeOf (2 ^ 63 - 1) 0 u1 [u2] = 0 ∧
        ¬ LaidOut (2 ^ 63 - 1) 0 u1 [u2] := by
  refine ⟨by decide, by decide, by decide, fun h => ?_⟩
  have hwithin := h.within (2 ^ 64 - 4, _) (List.mem_cons_self ..)
  exact absurd hwithin (by decide)

end Fimbulwinter.AggregationLayout
