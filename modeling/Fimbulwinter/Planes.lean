import Fimbulwinter.ExactArithmetic
import Mathlib.Algebra.BigOperators.Field
import Mathlib.Algebra.BigOperators.Fin
import Mathlib.Data.Matrix.Mul
import Mathlib.LinearAlgebra.Matrix.Notation
import Mathlib.Order.Bounds.Basic
import Mathlib.Tactic.LinearCombination

/-! # Planes of `core::maths`

Of any dimension, with exact numbers. A plane keeps its normal and, behind it, its offset. -/
namespace Fimbulwinter.Planes
open Matrix ExactArithmetic

/-- `Plane` -/
structure Plane (D : ℕ) (K : Type*) where
  values : Fin (D + 1) → K

variable {D : ℕ} {K : Type*}

/-- `normal` -/
def Plane.normal (plane : Plane D K) : Fin D → K := fun i => plane.values i.castSucc

/-- `offset` -/
def Plane.offset (plane : Plane D K) : K := plane.values (Fin.last D)

section Ring
variable [CommRing K]

/-- `dot` -/
def dot (plane : Plane D K) (point : Fin D → K) : K :=
  ∑ i : Fin D, plane.values i.castSucc * point i

/-- `distance` -/
def distance (plane : Plane D K) (point : Fin D → K) : K := dot plane point + plane.offset

/-- `make_plane` -/
def makePlane (point normal : Fin D → K) : Plane D K := ⟨Fin.snoc normal (point ⬝ᵥ normal)⟩

end Ring

variable [Field K] [LinearOrder K] [IsStrictOrderedRing K]

/-- `normalize`: only the normal is scaled. -/
def normalize (S : SquareRoot K) (plane : Plane D K) : Option (Plane D K) := do
  let sqLen := ∑ i : Fin D, plane.values i.castSucc * plane.values i.castSucc
  let len ← S.sqrt sqLen
  let invLen ← divide 1 len
  return ⟨Fin.snoc (fun i => plane.values i.castSucc * invLen) plane.offset⟩

/-- The Euclidean distance of a point from the zeros of a plane. -/
def IsEuclideanDistance (plane : Plane D K) (x : Fin D → K) (r : K) : Prop :=
  IsLeast {r | 0 ≤ r ∧ ∃ y, distance plane y = 0 ∧ r * r = (x - y) ⬝ᵥ (x - y)} r

/-- A plane through a point, with the distances on the side of the normal positive. -/
structure MeasuresFrom (point normal : Fin D → K) (plane : Plane D K) : Prop where
  distance : ∀ x, distance plane x = normal ⬝ᵥ (x - point)
  zero : ∀ x, Planes.distance plane x = 0 ↔ normal ⬝ᵥ (x - point) = 0
  pos : ∀ x, 0 < Planes.distance plane x ↔ 0 < normal ⬝ᵥ (x - point)

/-- The second plane describes the first one, with a normal of length one. -/
structure Normalizes (plane plane' : Plane D K) : Prop where
  zero : ∀ x, distance plane' x = 0 ↔ distance plane x = 0
  pos : ∀ x, 0 < distance plane' x ↔ 0 < distance plane x
  euclidean : ∀ x, IsEuclideanDistance plane x |distance plane' x|

/-! ## Distances -/

omit [LinearOrder K] [IsStrictOrderedRing K] in
theorem distance_eq (plane : Plane D K) (x : Fin D → K) :
    distance plane x = plane.normal ⬝ᵥ x + plane.offset := rfl

section Snoc
omit [Field K] [LinearOrder K] [IsStrictOrderedRing K]

@[simp] theorem normal_snoc (normal : Fin D → K) (offset : K) :
    Plane.normal ⟨Fin.snoc normal offset⟩ = normal := by
  funext i
  exact Fin.snoc_castSucc (α := fun _ => K) offset normal i

@[simp] theorem offset_snoc (normal : Fin D → K) (offset : K) :
    Plane.offset (D := D) ⟨Fin.snoc normal offset⟩ = offset :=
  Fin.snoc_last (α := fun _ => K) offset normal

end Snoc

omit [LinearOrder K] [IsStrictOrderedRing K] in
theorem distance_makePlane (point normal x : Fin D → K) :
    distance (makePlane point normal) x = normal ⬝ᵥ x + normal ⬝ᵥ point := by
  rw [distance_eq, makePlane, normal_snoc, offset_snoc, dotProduct_comm point]

/-- The offset of a plane has the wrong sign. -/
theorem measuresFrom_iff (point normal : Fin D → K) :
    MeasuresFrom point normal (makePlane point normal) ↔ normal ⬝ᵥ point = 0 := by
  constructor
  · intro h
    have hpoint := h.distance point
    rw [distance_makePlane, sub_self, dotProduct_zero] at hpoint
    linarith
  · intro h
    have heq (x : Fin D → K) :
        distance (makePlane point normal) x = normal ⬝ᵥ (x - point) := by
      rw [distance_makePlane, dotProduct_sub, h, add_zero, sub_zero]
    exact ⟨heq, fun x => by rw [heq], fun x => by rw [heq]⟩

theorem dotProduct_self_pos {u : Fin D → K} (hu : u ≠ 0) : 0 < u ⬝ᵥ u := by
  obtain ⟨i, hi⟩ := Function.ne_iff.mp hu
  exact Finset.sum_pos' (fun j _ => mul_self_nonneg (u j))
    ⟨i, Finset.mem_univ i, mul_self_pos.mpr hi⟩

/-- The Cauchy-Schwarz inequality. -/
theorem dotProduct_mul_self_le (u v : Fin D → K) :
    (u ⬝ᵥ v) * (u ⬝ᵥ v) ≤ (u ⬝ᵥ u) * (v ⬝ᵥ v) := by
  simpa only [dotProduct, pow_two] using Finset.sum_mul_sq_le_sq_mul_sq Finset.univ u v

/-- The distance by the normal, divided by the length of the normal. -/
theorem isEuclideanDistance {plane : Plane D K} (hnormal : plane.normal ≠ 0) {len : K}
    (hlen : 0 < len) (hlen2 : len * len = plane.normal ⬝ᵥ plane.normal) (x : Fin D → K) :
    IsEuclideanDistance plane x (|distance plane x| / len) := by
  have hpos := dotProduct_self_pos hnormal
  have hsq : |distance plane x| / len * (|distance plane x| / len) *
      (plane.normal ⬝ᵥ plane.normal) = distance plane x * distance plane x := by
    rw [← hlen2, ← abs_mul_abs_self (distance plane x)]
    field_simp
  refine ⟨⟨by positivity, x - (distance plane x / (plane.normal ⬝ᵥ plane.normal)) • plane.normal,
    ?_, ?_⟩, ?_⟩
  · -- the foot of the perpendicular
    have hfoot : distance plane x / (plane.normal ⬝ᵥ plane.normal) *
        (plane.normal ⬝ᵥ plane.normal) = distance plane x := div_mul_cancel₀ _ hpos.ne'
    rw [distance_eq, dotProduct_sub, dotProduct_smul, smul_eq_mul, hfoot, distance_eq]
    ring
  · rw [sub_sub_cancel, dotProduct_smul, smul_dotProduct, smul_eq_mul, smul_eq_mul]
    refine mul_right_cancel₀ hpos.ne' (hsq.trans ?_)
    field_simp
  · rintro r ⟨hr, y, hy, hr2⟩
    have hdist : plane.normal ⬝ᵥ (x - y) = distance plane x := by
      rw [distance_eq] at hy
      rw [dotProduct_sub, distance_eq]
      linarith
    have hle := dotProduct_mul_self_le plane.normal (x - y)
    rw [hdist, ← hsq, ← hr2, mul_comm (plane.normal ⬝ᵥ plane.normal)] at hle
    exact (mul_self_le_mul_self_iff (by positivity) hr).mpr (le_of_mul_le_mul_right hle hpos)

/-! ## Normalizing -/

variable {S : SquareRoot K}

theorem normalize_eq {plane : Plane D K} (hnormal : plane.normal ≠ 0) :
    ∃ len plane', 0 < len ∧ len * len = plane.normal ⬝ᵥ plane.normal ∧
      normalize S plane = some plane' ∧
      ∀ x, distance plane' x = plane.normal ⬝ᵥ x / len + plane.offset := by
  have hpos := dotProduct_self_pos hnormal
  have hlen := S.root_pos hpos
  refine ⟨S.root (plane.normal ⬝ᵥ plane.normal),
    ⟨Fin.snoc (fun i => plane.normal i * (1 / S.root (plane.normal ⬝ᵥ plane.normal)))
      plane.offset⟩, hlen, S.root_mul_root _ hpos.le, ?_, fun x => ?_⟩
  · change (S.sqrt (plane.normal ⬝ᵥ plane.normal)).bind _ = _
    rw [S.sqrt_of_nonneg hpos.le]
    simp only [Option.bind_some, divide_of_ne hlen.ne', Option.bind_eq_bind, Option.pure_def]
    rfl
  · rw [distance_eq, normal_snoc, offset_snoc]
    congr 1
    simp only [dotProduct, Finset.sum_div]
    exact Finset.sum_congr rfl fun i _ => by ring

/-- The offset is not scaled with the normal. -/
theorem normalize_iff {plane : Plane D K} (hnormal : plane.normal ≠ 0) :
    (∃ plane', normalize S plane = some plane' ∧ Normalizes plane plane') ↔
      plane.offset = 0 ∨ plane.normal ⬝ᵥ plane.normal = 1 := by
  obtain ⟨len, plane', hlen, hlen2, heq, hdistance⟩ := normalize_eq (S := S) hnormal
  have hpos := dotProduct_self_pos hnormal
  constructor
  · rintro ⟨plane'', heq', hnormalizes⟩
    obtain rfl := Option.some.inj (heq.symm.trans heq')
    -- the zero of the plane on its normal
    have hzero := (hnormalizes.zero
      ((-plane.offset / (plane.normal ⬝ᵥ plane.normal)) • plane.normal)).mpr (by
        rw [distance_eq, dotProduct_smul, smul_eq_mul, div_mul_cancel₀ _ hpos.ne',
          neg_add_cancel])
    rw [hdistance, dotProduct_smul, smul_eq_mul, div_mul_cancel₀ _ hpos.ne'] at hzero
    refine or_iff_not_imp_left.mpr fun hoffset => ?_
    have hone : len = 1 := by
      have hprod : plane.offset * (len - 1) = 0 := by
        field_simp at hzero
        linear_combination hzero
      exact sub_eq_zero.mp ((mul_eq_zero.mp hprod).resolve_left hoffset)
    rw [← hlen2, hone, one_mul]
  · intro h
    have hscaled (x : Fin D → K) : distance plane' x = distance plane x / len := by
      rw [hdistance, distance_eq, add_div]
      rcases h with hoffset | hunit
      · rw [hoffset, zero_div]
      · have hone : len = 1 := by
          rw [← hlen2, mul_self_eq_one_iff] at hunit
          rcases hunit with hunit | hunit
          · exact hunit
          · linarith
        rw [hone, div_one, div_one]
    refine ⟨plane', heq, fun x => ?_, fun x => ?_, fun x => ?_⟩
    · rw [hscaled, div_eq_zero_iff, or_iff_left hlen.ne']
    · rw [hscaled, div_pos_iff_of_pos_right hlen]
    · rw [hscaled, abs_div, abs_of_pos hlen]
      exact isEuclideanDistance hnormal hlen hlen2 x

end Fimbulwinter.Planes
