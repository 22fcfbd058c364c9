import Fimbulwinter.Rotations
import Fimbulwinter.ViewerDisplays
import Mathlib.Analysis.SpecialFunctions.Trigonometric.Basic
import Mathlib.LinearAlgebra.Matrix.RowCol

/-! # Matrices of three-dimensional cameras

`extract_camera_matrices_3d` of `engine/graphics/viewer.cpp`, with exact numbers. -/
namespace Fimbulwinter.Maths
open Matrix Viewer

variable {K : Type*} [Field K]

/-! ## Projections -/

/-- `ortho` -/
def ortho (left right bottom top nearVal farVal : K) : Matrix4x4 K :=
  let invWidth := 1 / (right - left)
  let invHeight := 1 / (top - bottom)
  let invDepth := 1 / (farVal - nearVal)
  !![2 * invWidth, 0, 0, -(right + left) * invWidth;
     0, 2 * invHeight, 0, -(top + bottom) * invHeight;
     0, 0, -2 * invDepth, -(farVal + nearVal) * invDepth;
     0, 0, 0, 1]

/-- `perspective`, and what it assigns to `inv`. -/
def perspective (tan : K → K) (fovy aspect zNear zFar : K) : Matrix4x4 K × Matrix4x4 K :=
  let f := 1 / tan (fovy / 2)
  let invDepth := 1 / (zNear - zFar)
  (!![f / aspect, 0, 0, 0;
      0, f, 0, 0;
      0, 0, (zFar + zNear) * invDepth, 2 * zFar * zNear * invDepth;
      0, 0, -1, 0],
    !![aspect / f, 0, 0, 0;
       0, 1 / f, 0, 0;
       0, 0, 0, -1;
       0, 0, (zNear - zFar) / (2 * zFar * zNear), (zFar + zNear) / (2 * zFar * zNear)])

/-! ## Cameras -/

/-- `camera_3d`; the inverse of the projection is `none` until it is set. -/
structure Camera3d (K : Type*) where
  projection : Matrix4x4 K
  frame : Matrix4x4 K
  view : Matrix4x4 K
  invProjection : Option (Matrix4x4 K)
  invFrame : Matrix4x4 K
  invView : Matrix4x4 K

/-- `to_xyz1` -/
def toXyz1 (v : Fin 3 → K) : Fin 4 → K := ![v 0, v 1, v 2, 1]

/-- `extract_projection_matrices_3d`: the projection, and its inverse where that is set. -/
def extractProjectionMatrices3d (tan : K → K) (viewport : Area) :
    Projection K → Matrix4x4 K × Option (Matrix4x4 K)
  | .orthographic zNear zFar => (ortho 0 viewport.width viewport.height 0 zNear zFar, none)
  | .perspective fovy zNear zFar =>
    let (projection, inv) := perspective tan fovy (viewport.width / viewport.height) zNear zFar
    (projection, some inv)

/-- `extract_camera_matrices_3d` -/
def extractCameraMatrices3d (tan : K → K) (projections : DenseTable Token (Projection K))
    (camera : Camera (Fin 3 → K) (Quaternion K)) (viewport : Area) : Camera3d K :=
  let (projection, invProjection) :=
    match camera.projection3d.bind projections.find with
    | some projection => extractProjectionMatrices3d tan viewport projection
    | none => (1, some 1)
  let view := makeMatrix (conjugate camera.rotation)
  let invView := makeMatrix camera.rotation
  { projection := projection
    invProjection := invProjection
    frame :=
      !![viewport.width / 2, 0, 0, viewport.width / 2;
         0, viewport.height / -2, 0, viewport.height / 2;
         0, 0, 0, 0;
         0, 0, 0, 1]
    invFrame :=
      !![2 / viewport.width, 0, 0, -1;
         0, -2 / viewport.height, 0, 1;
         0, 0, 0, 0;
         0, 0, 0, 1]
    view := view.updateCol 3 (view *ᵥ toXyz1 (-camera.translation))
    invView := invView.updateCol 3 (invView *ᵥ toXyz1 camera.translation) }

/-- The matrices and their inverses agree. -/
structure Camera3d.Agrees (c : Camera3d K) : Prop where
  view : c.view * c.invView = 1
  projection : ∃ inv, c.invProjection = some inv ∧ c.projection * inv = 1
  frame : ∀ (v : Fin 4 → K) (i : Fin 4), i ≠ 2 →
    (c.invFrame *ᵥ (c.frame *ᵥ v)) i = v i ∧ (c.frame *ᵥ (c.invFrame *ᵥ v)) i = v i

/-- A projection with nonzero, distinct planes, and a field of view that has a tangent. -/
def Regular (tan : K → K) : Projection K → Prop
  | .orthographic zNear zFar => zNear ≠ 0 ∧ zFar ≠ 0 ∧ zNear ≠ zFar
  | .perspective fovy zNear zFar => zNear ≠ 0 ∧ zFar ≠ 0 ∧ zNear ≠ zFar ∧ tan (fovy / 2) ≠ 0

/-! ## Inverses -/

variable {tan : K → K}

theorem perspective_mul [CharZero K] {fovy aspect zNear zFar : K} (haspect : aspect ≠ 0)
    (h : Regular tan (.perspective fovy zNear zFar)) :
    (perspective tan fovy aspect zNear zFar).1 * (perspective tan fovy aspect zNear zFar).2 =
      1 := by
  obtain ⟨hnear, hfar, hdistinct, htan⟩ := h
  have hdepth : zNear - zFar ≠ 0 := sub_ne_zero.mpr hdistinct
  ext i j
  fin_cases i <;> fin_cases j <;>
    simp [perspective, Matrix.mul_apply, Fin.sum_univ_four, htan]
  all_goals
    field_simp
    try ring

/-- The matrix of a rotation that is followed by a movement. -/
def rigid (q : Quaternion K) (u : Fin 3 → K) : Matrix4x4 K := (makeMatrix q).updateCol 3 (toXyz1 u)

theorem rigid_mul {q₁ q₂ : Quaternion K} (hq₁ : q₁.normSq = 1) (hq₂ : q₂.normSq = 1)
    (u₁ u₂ : Fin 3 → K) :
    rigid q₁ u₁ * rigid q₂ u₂ = rigid (q₁ * q₂) (rotate u₂ q₁ + u₁) := by
  have hq : (q₁ * q₂).normSq = 1 := by rw [Quaternion.normSq_mul, hq₁, hq₂, one_mul]
  rw [rigid, rigid, rigid, makeMatrix_eq hq, makeMatrix_eq hq₁, makeMatrix_eq hq₂]
  ext i j
  fin_cases i <;> fin_cases j <;>
    simp [rotationMatrix, toXyz1, Matrix.mul_apply, Fin.sum_univ_four, Matrix.updateCol_apply,
      Quaternion.mul_def, Quaternion.mul, rotate, conjugate] <;> ring

theorem rigid_one_eq_one {u : Fin 3 → K} : rigid ⟨1, 0, 0, 0⟩ u = 1 ↔ u = 0 := by
  constructor
  · intro h
    funext i
    fin_cases i
    · simpa [rigid, toXyz1] using congrFun (congrFun h 0) 3
    · simpa [rigid, toXyz1] using congrFun (congrFun h 1) 3
    · simpa [rigid, toXyz1] using congrFun (congrFun h 2) 3
  · rintro rfl
    ext i j
    fin_cases i <;> fin_cases j <;> simp [rigid, toXyz1, makeMatrix]

/-- A point after the rotation. -/
theorem makeMatrix_mulVec_toXyz1 {q : Quaternion K} (hq : q.normSq = 1) (v : Fin 3 → K) :
    makeMatrix q *ᵥ toXyz1 v = toXyz1 (rotate v q) := makeMatrix_mulVec hq v 1

/-- The translation is rotated in `inv_view` too, where it should be left as it is. -/
theorem view_mul_invView_iff {q : Quaternion K} (hq : q.normSq = 1) (t : Fin 3 → K) :
    (makeMatrix (conjugate q)).updateCol 3 (makeMatrix (conjugate q) *ᵥ toXyz1 (-t)) *
      (makeMatrix q).updateCol 3 (makeMatrix q *ᵥ toXyz1 t) = 1 ↔ rotate t q = t := by
  have hq' : (conjugate q).normSq = 1 := (Quaternion.normSq_conjugate q).trans hq
  rw [makeMatrix_mulVec_toXyz1 hq', makeMatrix_mulVec_toXyz1 hq]
  change rigid _ _ * rigid _ _ = 1 ↔ _
  rw [rigid_mul hq' hq, ← inverse, inverse_mul_self hq, rigid_one_eq_one, inverse,
    rotate_conjugate_rotate hq, rotate_neg, ← sub_eq_add_neg, sub_eq_zero]
  constructor
  · intro h
    have hback := rotate_conjugate_rotate hq' t
    rw [← h, conjugate_conjugate] at hback
    exact hback
  · intro h
    have hback := rotate_conjugate_rotate hq t
    rw [h] at hback
    exact hback.symm

/-- Everything but `z` is scaled and moved, and back. -/
theorem frame_agrees [CharZero K] {width height : K} (hwidth : width ≠ 0) (hheight : height ≠ 0)
    (v : Fin 4 → K) {i : Fin 4} (hi : i ≠ 2) :
    (!![2 / width, 0, 0, -1; 0, -2 / height, 0, 1; 0, 0, 0, 0; 0, 0, 0, 1] *ᵥ
      (!![width / 2, 0, 0, width / 2; 0, height / -2, 0, height / 2; 0, 0, 0, 0; 0, 0, 0, 1] *ᵥ
        v)) i = v i ∧
    (!![width / 2, 0, 0, width / 2; 0, height / -2, 0, height / 2; 0, 0, 0, 0; 0, 0, 0, 1] *ᵥ
      (!![2 / width, 0, 0, -1; 0, -2 / height, 0, 1; 0, 0, 0, 0; 0, 0, 0, 1] *ᵥ v)) i = v i := by
  fin_cases i
  case «2» => exact absurd rfl hi
  all_goals
    simp only [Matrix.mulVec, dotProduct, Fin.sum_univ_four]
    simp
  all_goals
    constructor
    · field_simp
      ring
    · field_simp
      ring

end Fimbulwinter.Maths
