import Fimbulwinter.ExactArithmetic
import Mathlib.Algebra.Order.Field.Basic
import Mathlib.Algebra.Quaternion
import Mathlib.LinearAlgebra.Matrix.Notation
import Mathlib.Tactic.FieldSimp
import Mathlib.Tactic.FinCases
import Mathlib.Tactic.LinearCombination
import Mathlib.Tactic.Linarith

/-! # Rotations of `core::maths`

Numbers are elements of a field. A matrix of `M` rows and `N` columns keeps the element of a row
and a column in `values[row + M * column]`, and is constructed from its rows. -/
namespace Fimbulwinter.Maths
open Matrix ExactArithmetic

variable {K : Type*}

/-! ## Numerals of the elements of vectors and matrices -/

scoped instance two_atLeastTwo : Nat.AtLeastTwo 2 := ⟨Nat.le_refl 2⟩

scoped instance three_neZero : NeZero 3 := ⟨Nat.succ_ne_zero 2⟩

scoped instance four_neZero : NeZero 4 := ⟨Nat.succ_ne_zero 3⟩

/-! ## Types -/

/-- `Quaternion` -/
@[ext] structure Quaternion (K : Type*) where
  w : K
  x : K
  y : K
  z : K
  deriving DecidableEq, Repr

/-- `Matrix<4, 4, T>` -/
abbrev Matrix4x4 (K : Type*) := Matrix (Fin 4) (Fin 4) K

/-! ## Quaternions -/

section Quaternion
variable [CommRing K]

/-- `operator *` -/
def Quaternion.mul (q₁ q₂ : Quaternion K) : Quaternion K where
  w := q₁.w * q₂.w - q₁.x * q₂.x - q₁.y * q₂.y - q₁.z * q₂.z
  x := q₁.w * q₂.x + q₁.x * q₂.w + q₁.y * q₂.z - q₁.z * q₂.y
  y := q₁.w * q₂.y - q₁.x * q₂.z + q₁.y * q₂.w + q₁.z * q₂.x
  z := q₁.w * q₂.z + q₁.x * q₂.y - q₁.y * q₂.x + q₁.z * q₂.w

instance : Mul (Quaternion K) := ⟨Quaternion.mul⟩

instance : Neg (Quaternion K) := ⟨fun q => ⟨-q.w, -q.x, -q.y, -q.z⟩⟩

/-- `conjugate` -/
def conjugate (q : Quaternion K) : Quaternion K := ⟨q.w, -q.x, -q.y, -q.z⟩

/-- `inverse` -/
def inverse (q : Quaternion K) : Quaternion K := conjugate q

/-- The square of `length`. -/
def Quaternion.normSq (q : Quaternion K) : K := q.w * q.w + q.x * q.x + q.y * q.y + q.z * q.z

/-- `axis_x` -/
def Quaternion.axisX (q : Quaternion K) : Fin 3 → K :=
  ![1 - 2 * (q.y * q.y + q.z * q.z), 2 * (q.x * q.y + q.w * q.z), 2 * (q.x * q.z - q.w * q.y)]

/-- `axis_y` -/
def Quaternion.axisY (q : Quaternion K) : Fin 3 → K :=
  ![2 * (q.x * q.y - q.w * q.z), 1 - 2 * (q.x * q.x + q.z * q.z), 2 * (q.y * q.z + q.w * q.x)]

/-- `axis_z` -/
def Quaternion.axisZ (q : Quaternion K) : Fin 3 → K :=
  ![2 * (q.x * q.z + q.w * q.y), 2 * (q.y * q.z - q.w * q.x), 1 - 2 * (q.x * q.x + q.y * q.y)]

/-- `make_matrix` -/
def makeMatrix (q : Quaternion K) : Matrix4x4 K :=
  let wx := q.w * q.x
  let wy := q.w * q.y
  let wz := q.w * q.z
  let xx := q.x * q.x
  let xy := q.x * q.y
  let xz := q.x * q.z
  let yy := q.y * q.y
  let yz := q.y * q.z
  let zz := q.z * q.z
  !![1 - 2 * (yy + zz), 2 * (xy - wz), 2 * (xz + wy), 0;
     2 * (xy + wz), 1 - 2 * (xx + zz), 2 * (yz - wx), 0;
     2 * (xz - wy), 2 * (yz + wx), 1 - 2 * (xx + yy), 0;
     0, 0, 0, 1]

/-- `algorithm::rotate` -/
def rotate (vec : Fin 3 → K) (q : Quaternion K) : Fin 3 → K :=
  let qec : Quaternion K := ⟨0, vec 0, vec 1, vec 2⟩
  let pec := q * qec * conjugate q
  ![pec.x, pec.y, pec.z]

/-! ## Hamilton's quaternions -/

/-- The quaternion as one of Hamilton's. -/
def Quaternion.toHamilton (q : Quaternion K) : QuaternionAlgebra K (-1) 0 (-1) :=
  ⟨q.w, q.x, q.y, q.z⟩

theorem Quaternion.toHamilton_injective :
    Function.Injective (Quaternion.toHamilton : Quaternion K → _) := fun q₁ q₂ h => by
  simpa only [toHamilton, QuaternionAlgebra.mk.injEq, Quaternion.ext_iff] using h

theorem Quaternion.mul_def (q₁ q₂ : Quaternion K) : q₁ * q₂ = q₁.mul q₂ := rfl

@[simp] theorem Quaternion.toHamilton_mul (q₁ q₂ : Quaternion K) :
    (q₁ * q₂).toHamilton = q₁.toHamilton * q₂.toHamilton := by
  ext <;> simp [mul_def, Quaternion.mul, toHamilton] <;> ring

@[simp] theorem Quaternion.toHamilton_conjugate (q : Quaternion K) :
    (conjugate q).toHamilton = star q.toHamilton := by
  ext <;> simp [conjugate, toHamilton]

theorem Quaternion.associative (q₁ q₂ q₃ : Quaternion K) : q₁ * q₂ * q₃ = q₁ * (q₂ * q₃) :=
  toHamilton_injective (by simp only [toHamilton_mul, mul_assoc])

@[simp] theorem conjugate_mul (q₁ q₂ : Quaternion K) :
    conjugate (q₁ * q₂) = conjugate q₂ * conjugate q₁ :=
  Quaternion.toHamilton_injective (by simp)

@[simp] theorem conjugate_conjugate (q : Quaternion K) : conjugate (conjugate q) = q :=
  Quaternion.toHamilton_injective (by simp)

theorem Quaternion.normSq_mul (q₁ q₂ : Quaternion K) :
    (q₁ * q₂).normSq = q₁.normSq * q₂.normSq := by
  simp only [mul_def, Quaternion.mul, normSq]
  ring

@[simp] theorem Quaternion.normSq_conjugate (q : Quaternion K) :
    (conjugate q).normSq = q.normSq := by
  simp only [conjugate, normSq]
  ring

theorem inverse_mul_self {q : Quaternion K} (hq : q.normSq = 1) :
    inverse q * q = ⟨1, 0, 0, 0⟩ := by
  simp only [Quaternion.normSq] at hq
  ext <;> simp only [Quaternion.mul_def, Quaternion.mul, inverse, conjugate]
  · linear_combination hq
  all_goals ring

/-! ## Rotating a vector -/

/-- A vector as a quaternion. -/
def Quaternion.ofVector (v : Fin 3 → K) : Quaternion K := ⟨0, v 0, v 1, v 2⟩

theorem Quaternion.ofVector_injective :
    Function.Injective (Quaternion.ofVector : (Fin 3 → K) → _) := fun u v h => by
  have huv := Quaternion.ext_iff.mp h
  funext i
  fin_cases i
  · exact huv.2.1
  · exact huv.2.2.1
  · exact huv.2.2.2

/-- Nothing is left of the real part. -/
theorem ofVector_rotate (v : Fin 3 → K) (q : Quaternion K) :
    Quaternion.ofVector (rotate v q) = q * Quaternion.ofVector v * conjugate q := by
  ext
  · simp only [Quaternion.ofVector, Quaternion.mul_def, Quaternion.mul, conjugate]
    ring
  all_goals rfl

theorem rotate_mul (v : Fin 3 → K) (q₁ q₂ : Quaternion K) :
    rotate v (q₁ * q₂) = rotate (rotate v q₂) q₁ :=
  Quaternion.ofVector_injective (by
    simp only [ofVector_rotate, conjugate_mul, Quaternion.associative])

@[simp] theorem rotate_one (v : Fin 3 → K) : rotate v ⟨1, 0, 0, 0⟩ = v := by
  funext i
  fin_cases i <;> simp [rotate, Quaternion.mul_def, Quaternion.mul, conjugate]

theorem rotate_neg (v : Fin 3 → K) (q : Quaternion K) : rotate (-v) q = -rotate v q := by
  funext i
  fin_cases i <;> simp [rotate, Quaternion.mul_def, Quaternion.mul, conjugate] <;> ring

/-- The conjugate turns back. -/
theorem rotate_conjugate_rotate {q : Quaternion K} (hq : q.normSq = 1) (v : Fin 3 → K) :
    rotate (rotate v q) (conjugate q) = v := by
  rw [← rotate_mul, ← inverse, inverse_mul_self hq, rotate_one]

/-! ## Matrices -/

/-- The matrix of a rotation in its homogeneous form, in which it is one of products. -/
def rotationMatrix (q : Quaternion K) : Matrix4x4 K :=
  !![q.w * q.w + q.x * q.x - q.y * q.y - q.z * q.z, 2 * (q.x * q.y - q.w * q.z),
       2 * (q.x * q.z + q.w * q.y), 0;
     2 * (q.x * q.y + q.w * q.z), q.w * q.w - q.x * q.x + q.y * q.y - q.z * q.z,
       2 * (q.y * q.z - q.w * q.x), 0;
     2 * (q.x * q.z - q.w * q.y), 2 * (q.y * q.z + q.w * q.x),
       q.w * q.w - q.x * q.x - q.y * q.y + q.z * q.z, 0;
     0, 0, 0, 1]

theorem makeMatrix_eq {q : Quaternion K} (hq : q.normSq = 1) :
    makeMatrix q = rotationMatrix q := by
  simp only [Quaternion.normSq] at hq
  have hx : 1 - 2 * (q.y * q.y + q.z * q.z) =
      q.w * q.w + q.x * q.x - q.y * q.y - q.z * q.z := by linear_combination -hq
  have hy : 1 - 2 * (q.x * q.x + q.z * q.z) =
      q.w * q.w - q.x * q.x + q.y * q.y - q.z * q.z := by linear_combination -hq
  have hz : 1 - 2 * (q.x * q.x + q.y * q.y) =
      q.w * q.w - q.x * q.x - q.y * q.y + q.z * q.z := by linear_combination -hq
  simp only [makeMatrix, rotationMatrix, hx, hy, hz]

theorem rotationMatrix_mul (q₁ q₂ : Quaternion K) :
    rotationMatrix (q₁ * q₂) = rotationMatrix q₁ * rotationMatrix q₂ := by
  ext i j
  fin_cases i <;> fin_cases j <;>
    simp [rotationMatrix, Matrix.mul_apply, Fin.sum_univ_four, Quaternion.mul_def,
      Quaternion.mul] <;> ring

theorem makeMatrix_mul {q₁ q₂ : Quaternion K} (hq₁ : q₁.normSq = 1) (hq₂ : q₂.normSq = 1) :
    makeMatrix (q₁ * q₂) = makeMatrix q₁ * makeMatrix q₂ := by
  have hq : (q₁ * q₂).normSq = 1 := by rw [Quaternion.normSq_mul, hq₁, hq₂, one_mul]
  rw [makeMatrix_eq hq, makeMatrix_eq hq₁, makeMatrix_eq hq₂, rotationMatrix_mul]

@[simp] theorem makeMatrix_conjugate (q : Quaternion K) :
    makeMatrix (conjugate q) = (makeMatrix q)ᵀ := by
  ext i j
  fin_cases i <;> fin_cases j <;> simp [makeMatrix, conjugate, sub_eq_add_neg]

/-- A point, or a direction, after the rotation. -/
theorem makeMatrix_mulVec {q : Quaternion K} (hq : q.normSq = 1) (v : Fin 3 → K) (a : K) :
    makeMatrix q *ᵥ ![v 0, v 1, v 2, a] =
      ![rotate v q 0, rotate v q 1, rotate v q 2, a] := by
  rw [makeMatrix_eq hq]
  funext i
  fin_cases i <;>
    simp [rotationMatrix, Matrix.mulVec, dotProduct, Fin.sum_univ_four, rotate,
      Quaternion.mul_def, Quaternion.mul, conjugate] <;> ring

theorem col_makeMatrix (q : Quaternion K) :
    (makeMatrix q).col 0 = ![q.axisX 0, q.axisX 1, q.axisX 2, 0] ∧
      (makeMatrix q).col 1 = ![q.axisY 0, q.axisY 1, q.axisY 2, 0] ∧
      (makeMatrix q).col 2 = ![q.axisZ 0, q.axisZ 1, q.axisZ 2, 0] := by
  refine ⟨?_, ?_, ?_⟩ <;> funext i <;> fin_cases i <;> rfl

/-- What becomes of the first axis. -/
theorem rotate_axisX {q : Quaternion K} (hq : q.normSq = 1) : rotate ![1, 0, 0] q = q.axisX := by
  simp only [Quaternion.normSq] at hq
  funext i
  fin_cases i <;>
    simp [rotate, Quaternion.axisX, Quaternion.mul_def, Quaternion.mul, conjugate]
  · linear_combination hq
  all_goals ring

end Quaternion

/-! ## The rotation to a direction -/

section RotationOf
variable [Field K] [LinearOrder K] [IsStrictOrderedRing K]

/-- `algorithm::rotation_of` -/
def rotationOf (S : SquareRoot K) (vec : Fin 3 → K) : Option (Quaternion K) :=
  if vec 0 < -999 / 1000 then some ⟨0, 0, 0, 1⟩
  else do
    let w2 := (vec 0 + 1) / 2
    let w ← S.sqrt w2
    let y ← divide (-vec 2) (2 * w)
    let z ← divide (vec 1) (2 * w)
    return ⟨w, 0, y, z⟩

variable {S : SquareRoot K} {v : Fin 3 → K}

theorem rotationOf_eq (hv : -999 / 1000 ≤ v 0) :
    ∃ w, 0 < w ∧ w * w = (v 0 + 1) / 2 ∧
      rotationOf S v = some ⟨w, 0, -v 2 / (2 * w), v 1 / (2 * w)⟩ := by
  have hw2 : 0 < (v 0 + 1) / 2 := by linarith
  have hw : 0 < S.root ((v 0 + 1) / 2) := S.root_pos hw2
  refine ⟨_, hw, S.root_mul_root _ hw2.le, ?_⟩
  have hne : 2 * S.root ((v 0 + 1) / 2) ≠ 0 := by positivity
  rw [rotationOf, if_neg (not_lt.mpr hv)]
  simp only [S.sqrt_of_nonneg hw2.le, divide_of_ne hne, Option.bind_eq_bind, Option.bind_some,
    Option.pure_def]

/-- The half angle: the real part is at least that of an angle of 180 degrees less a little. -/
theorem rotationOf_spec (hunit : v 0 * v 0 + v 1 * v 1 + v 2 * v 2 = 1)
    (hv : -999 / 1000 ≤ v 0) :
    ∃ q, rotationOf S v = some q ∧ q.normSq = 1 ∧ rotate ![1, 0, 0] q = v := by
  obtain ⟨w, hw, hw2, heq⟩ := rotationOf_eq (S := S) hv
  have hx : v 0 = 2 * (w * w) - 1 := by linarith
  have hyz : v 1 * v 1 + v 2 * v 2 = 4 * (w * w) * (1 - w * w) := by
    rw [hx] at hunit
    linear_combination hunit
  have hnorm : Quaternion.normSq ⟨w, 0, -v 2 / (2 * w), v 1 / (2 * w)⟩ = 1 := by
    simp only [Quaternion.normSq]
    field_simp
    linear_combination hyz
  refine ⟨_, heq, hnorm, ?_⟩
  rw [rotate_axisX hnorm]
  funext i
  fin_cases i <;> simp [Quaternion.axisX]
  · field_simp
    linear_combination -hyz - 2 * (w * w) * hx
  · field_simp
  · field_simp

/-- The Hamilton product, the matrix, its columns and the half angle describe one rotation. -/
theorem rotations_agree (S : SquareRoot K) {q q₁ q₂ : Quaternion K} (hq : q.normSq = 1)
    (hq₁ : q₁.normSq = 1) (hq₂ : q₂.normSq = 1) :
    (∀ (v : Fin 3 → K) (a : K), makeMatrix q *ᵥ ![v 0, v 1, v 2, a] =
      ![rotate v q 0, rotate v q 1, rotate v q 2, a]) ∧
    makeMatrix (q₁ * q₂) = makeMatrix q₁ * makeMatrix q₂ ∧
    (∀ v, rotate v (q₁ * q₂) = rotate (rotate v q₂) q₁) ∧
    (makeMatrix q).col 0 = ![q.axisX 0, q.axisX 1, q.axisX 2, 0] ∧
    (makeMatrix q).col 1 = ![q.axisY 0, q.axisY 1, q.axisY 2, 0] ∧
    (makeMatrix q).col 2 = ![q.axisZ 0, q.axisZ 1, q.axisZ 2, 0] ∧
    inverse q * q = ⟨1, 0, 0, 0⟩ ∧
    makeMatrix (inverse q) = (makeMatrix q)ᵀ ∧
    ∀ v : Fin 3 → K, v 0 * v 0 + v 1 * v 1 + v 2 * v 2 = 1 → -999 / 1000 ≤ v 0 →
      ∃ r, rotationOf S v = some r ∧ r.normSq = 1 ∧ rotate ![1, 0, 0] r = v := by
  obtain ⟨hx, hy, hz⟩ := col_makeMatrix q
  exact ⟨makeMatrix_mulVec hq, makeMatrix_mul hq₁ hq₂, fun v => rotate_mul v q₁ q₂, hx, hy, hz,
    inverse_mul_self hq, makeMatrix_conjugate q, fun _ => rotationOf_spec⟩

theorem rotations_agree_real :
    makeMatrix ((⟨3 / 5, 4 / 5, 0, 0⟩ : Quaternion ℝ) * ⟨1 / 2, 1 / 2, 1 / 2, 1 / 2⟩) =
      makeMatrix ⟨3 / 5, 4 / 5, 0, 0⟩ * makeMatrix ⟨1 / 2, 1 / 2, 1 / 2, 1 / 2⟩ ∧
    ∃ r, rotationOf SquareRoot.real ![3 / 5, 0, -4 / 5] = some r ∧ r.normSq = 1 ∧
      rotate ![1, 0, 0] r = ![3 / 5, 0, -4 / 5] := by
  have h : Quaternion.normSq (⟨3 / 5, 4 / 5, 0, 0⟩ : Quaternion ℝ) = 1 := by
    norm_num [Quaternion.normSq]
  have h' : Quaternion.normSq (⟨1 / 2, 1 / 2, 1 / 2, 1 / 2⟩ : Quaternion ℝ) = 1 := by
    norm_num [Quaternion.normSq]
  obtain ⟨-, hmul, -, -, -, -, -, -, hof⟩ := rotations_agree SquareRoot.real h h h'
  refine ⟨hmul, hof _ ?_ ?_⟩ <;> norm_num [Matrix.cons_val_two]

end RotationOf

end Fimbulwinter.Maths
