import Fimbulwinter.Rotations

/-! # The decomposition of a matrix into a translation, a rotation and a scale -/
namespace Fimbulwinter.Maths
open Matrix ExactArithmetic

variable {K : Type*}

section Composition
variable [CommRing K]

/-- `scale` -/
def scale (x y z : K) : Matrix4x4 K :=
  !![x, 0, 0, 0;
     0, y, 0, 0;
     0, 0, z, 0;
     0, 0, 0, 1]

/-- `translation` -/
def translation (x y z : K) : Matrix4x4 K :=
  !![1, 0, 0, x;
     0, 1, 0, y;
     0, 0, 1, z;
     0, 0, 0, 1]

end Composition

variable [Field K] [LinearOrder K] [IsStrictOrderedRing K]

/-- What `algorithm::decompose` makes of the axes: `rxy` is `y` of the first one. -/
def decomposeRotation (S : SquareRoot K) (rxx rxy rxz ryx ryy ryz rzx rzy rzz : K) :
    Option (Quaternion K) :=
  let trace := rxx + ryy + rzz
  if 0 ≤ trace then do
    let qw ← S.sqrt ((1 + trace) / 4)
    let qw4 := 4 * qw
    let qx ← divide (ryz - rzy) qw4
    let qy ← divide (rzx - rxz) qw4
    let qz ← divide (rxy - ryx) qw4
    return ⟨qw, qx, qy, qz⟩
  else if ryy ≤ rxx ∧ rzz ≤ rxx then do
    let qx ← S.sqrt ((1 + rxx - ryy - rzz) / 4)
    let qx4 := 4 * qx
    let qy ← divide (rxy + ryx) qx4
    let qz ← divide (rzx + rxz) qx4
    let qw ← divide (ryz - rzy) qx4
    return ⟨qw, qx, qy, qz⟩
  else if rxx ≤ ryy ∧ rzz ≤ ryy then do
    let qy ← S.sqrt ((1 - rxx + ryy - rzz) / 4)
    let qy4 := 4 * qy
    let qx ← divide (rxy + ryx) qy4
    let qz ← divide (ryz + rzy) qy4
    let qw ← divide (rzx - rxz) qy4
    return ⟨qw, qx, qy, qz⟩
  else do
    let qz ← S.sqrt ((1 - rxx - ryy + rzz) / 4)
    let qz4 := 4 * qz
    let qx ← divide (rzx + rxz) qz4
    let qy ← divide (ryz + rzy) qz4
    let qw ← divide (rxy - ryx) qz4
    return ⟨qw, qx, qy, qz⟩

/-- `algorithm::decompose`: the translation, the rotation and the scale. -/
def decompose (S : SquareRoot K) (m : Matrix4x4 K) :
    Option ((Fin 3 → K) × Quaternion K × (Fin 3 → K)) := do
  let tx := m 0 3
  let ty := m 1 3
  let tz := m 2 3
  let xx := m 0 0
  let xy := m 1 0
  let xz := m 2 0
  let yx := m 0 1
  let yy := m 1 1
  let yz := m 2 1
  let zx := m 0 2
  let zy := m 1 2
  let zz := m 2 2
  let sx ← S.sqrt (xx * xx + xy * xy + xz * xz)
  let sy ← S.sqrt (yx * yx + yy * yy + yz * yz)
  let sz ← S.sqrt (zx * zx + zy * zy + zz * zz)
  let rxx ← divide xx sx
  let rxy ← divide xy sx
  let rxz ← divide xz sx
  let ryx ← divide yx sy
  let ryy ← divide yy sy
  let ryz ← divide yz sy
  let rzx ← divide zx sz
  let rzy ← divide zy sz
  let rzz ← divide zz sz
  let r ← decomposeRotation S rxx rxy rxz ryx ryy ryz rzx rzy rzz
  return (![tx, ty, tz], r, ![sx, sy, sz])

/-! ## The rotation -/

variable {S : SquareRoot K}

/-- A quaternion, or the one that describes the same rotation, by the sign of one of its parts. -/
def Quaternion.signed (a : K) (q : Quaternion K) : Quaternion K := if 0 ≤ a then q else -q

/-- A part of the quaternion, from its product with the one under the root. -/
theorem divide_abs {a b c : K} (ha : a ≠ 0) (h : c = 4 * (a * b)) :
    divide c (4 * |a|) = some (if 0 ≤ a then b else -b) := by
  have hne : 4 * |a| ≠ 0 := mul_ne_zero four_ne_zero (abs_ne_zero.mpr ha)
  refine divide_eq hne ?_
  split_ifs with hsign
  · rw [abs_of_nonneg hsign, h]
    ring
  · rw [abs_of_neg (not_le.mp hsign), h]
    ring

theorem abs_eq_signed (a : K) : |a| = if 0 ≤ a then a else -a := by
  split_ifs with hsign
  · exact abs_of_nonneg hsign
  · exact abs_of_neg (not_le.mp hsign)

omit [IsStrictOrderedRing K] in
theorem Quaternion.signed_eq (a : K) (q : Quaternion K) :
    q.signed a = ⟨if 0 ≤ a then q.w else -q.w, if 0 ≤ a then q.x else -q.x,
      if 0 ≤ a then q.y else -q.y, if 0 ≤ a then q.z else -q.z⟩ := by
  unfold signed
  split_ifs <;> rfl

omit [IsStrictOrderedRing K] in
theorem Quaternion.signed_eq_or (a : K) (q : Quaternion K) : q.signed a = q ∨ q.signed a = -q := by
  unfold signed
  split_ifs
  · exact Or.inl rfl
  · exact Or.inr rfl

/-- One branch: a root of the square of `a`, and three parts that `a` divides. -/
theorem branch_eq {a b c d r b' c' d' : K} (ha : a ≠ 0) (hr : r = a * a) (hb : b' = 4 * (a * b))
    (hc : c' = 4 * (a * c)) (hd : d' = 4 * (a * d)) (make : K → K → K → K → Quaternion K) :
    (do
      let qa ← S.sqrt r
      let qb ← divide b' (4 * qa)
      let qc ← divide c' (4 * qa)
      let qd ← divide d' (4 * qa)
      return make qa qb qc qd) =
      some (make (if 0 ≤ a then a else -a) (if 0 ≤ a then b else -b) (if 0 ≤ a then c else -c)
        (if 0 ≤ a then d else -d)) := by
  rw [S.sqrt_eq_abs hr]
  simp only [Option.bind_eq_bind, Option.bind_some, Option.pure_def, divide_abs ha hb,
    divide_abs ha hc, divide_abs ha hd]
  rw [← abs_eq_signed]

/-- Each branch divides by a part of the quaternion that is not zero, and finds it up to the sign of
that part. -/
theorem decomposeRotation_eq {q : Quaternion K} (hq : q.normSq = 1) :
    ∃ a, decomposeRotation S (q.axisX 0) (q.axisX 1) (q.axisX 2) (q.axisY 0) (q.axisY 1)
      (q.axisY 2) (q.axisZ 0) (q.axisZ 1) (q.axisZ 2) = some (q.signed a) := by
  obtain ⟨w, x, y, z⟩ := q
  simp only [Quaternion.normSq] at hq
  change ∃ a, decomposeRotation S (1 - 2 * (y * y + z * z)) (2 * (x * y + w * z))
    (2 * (x * z - w * y)) (2 * (x * y - w * z)) (1 - 2 * (x * x + z * z)) (2 * (y * z + w * x))
    (2 * (x * z + w * y)) (2 * (y * z - w * x)) (1 - 2 * (x * x + y * y)) = _
  simp only [Quaternion.signed_eq]
  -- a part is not zero where its square is at least a fourth
  have hne {a : K} (h : 1 ≤ 4 * (a * a)) : a ≠ 0 := fun ha => by
    rw [ha, mul_zero, mul_zero] at h
    exact absurd h (not_le.mpr zero_lt_one)
  unfold decomposeRotation
  dsimp only
  split_ifs with htrace hx hy
  · have hw : w ≠ 0 := hne (by linarith)
    refine ⟨w, branch_eq hw (by linear_combination -hq) ?_ ?_ ?_
      fun qw qx qy qz => ⟨qw, qx, qy, qz⟩⟩ <;> ring
  · have hx : x ≠ 0 := hne (by linarith)
    refine ⟨x, branch_eq hx (by ring) ?_ ?_ ?_
      fun qx qy qz qw => ⟨qw, qx, qy, qz⟩⟩ <;> ring
  · have hy : y ≠ 0 := hne (by linarith)
    refine ⟨y, branch_eq hy (by ring) ?_ ?_ ?_
      fun qy qx qz qw => ⟨qw, qx, qy, qz⟩⟩ <;> ring
  · have hz : z ≠ 0 := hne (by
      simp only [not_and_or, not_le] at hx hy
      rcases hx with hx | hx <;> rcases hy with hy | hy <;> linarith)
    refine ⟨z, branch_eq hz (by ring) ?_ ?_ ?_
      fun qz qx qy qw => ⟨qw, qx, qy, qz⟩⟩ <;> ring

/-! ## The composition -/

omit [LinearOrder K] [IsStrictOrderedRing K] in
/-- The columns of a composition are the scaled axes and the translation. -/
theorem composition_eq (t s : Fin 3 → K) (q : Quaternion K) :
    translation (t 0) (t 1) (t 2) * makeMatrix q * scale (s 0) (s 1) (s 2) =
      !![q.axisX 0 * s 0, q.axisY 0 * s 1, q.axisZ 0 * s 2, t 0;
         q.axisX 1 * s 0, q.axisY 1 * s 1, q.axisZ 1 * s 2, t 1;
         q.axisX 2 * s 0, q.axisY 2 * s 1, q.axisZ 2 * s 2, t 2;
         0, 0, 0, 1] := by
  ext i j
  fin_cases i <;> fin_cases j <;>
    simp [translation, scale, makeMatrix, Matrix.mul_apply, Fin.sum_univ_four, Quaternion.axisX,
      Quaternion.axisY, Quaternion.axisZ]

/-- The length of a scaled axis. -/
theorem sqrt_scaled {a b c s : K} (hs : 0 < s) (h : a * a + b * b + c * c = 1) :
    S.sqrt (a * s * (a * s) + b * s * (b * s) + c * s * (c * s)) = some s := by
  rw [S.sqrt_eq_abs (b := s) (by linear_combination s * s * h), abs_of_pos hs]

omit [LinearOrder K] [IsStrictOrderedRing K] in
theorem axes_normSq {q : Quaternion K} (hq : q.normSq = 1) :
    (q.axisX 0 * q.axisX 0 + q.axisX 1 * q.axisX 1 + q.axisX 2 * q.axisX 2 = 1) ∧
    (q.axisY 0 * q.axisY 0 + q.axisY 1 * q.axisY 1 + q.axisY 2 * q.axisY 2 = 1) ∧
    (q.axisZ 0 * q.axisZ 0 + q.axisZ 1 * q.axisZ 1 + q.axisZ 2 * q.axisZ 2 = 1) := by
  obtain ⟨w, x, y, z⟩ := q
  simp only [Quaternion.normSq] at hq
  simp only [Quaternion.axisX, Quaternion.axisY, Quaternion.axisZ, Matrix.cons_val]
  refine ⟨?_, ?_, ?_⟩
  · linear_combination 4 * (y * y + z * z) * hq
  · linear_combination 4 * (x * x + z * z) * hq
  · linear_combination 4 * (x * x + y * y) * hq

/-- Of what is composed of a translation, a rotation and a positive scale, all three are found, the
rotation up to the sign of its quaternion. -/
theorem decompose_composition (S : SquareRoot K) (t s : Fin 3 → K) {q : Quaternion K}
    (hq : q.normSq = 1) (hs : ∀ i, 0 < s i) :
    ∃ r, (r = q ∨ r = -q) ∧
      decompose S (translation (t 0) (t 1) (t 2) * makeMatrix q * scale (s 0) (s 1) (s 2)) =
        some (t, r, s) := by
  obtain ⟨a, ha⟩ := decomposeRotation_eq (S := S) hq
  obtain ⟨hx, hy, hz⟩ := axes_normSq hq
  have htriple (v : Fin 3 → K) : ![v 0, v 1, v 2] = v := by
    funext i
    fin_cases i <;> rfl
  have hdiv (b : K) (i : Fin 3) : divide (b * s i) (s i) = some b := divide_eq (hs i).ne' rfl
  refine ⟨q.signed a, q.signed_eq_or a, ?_⟩
  rw [composition_eq, decompose]
  simp only [Matrix.of_apply, Matrix.cons_val, sqrt_scaled (hs 0) hx, sqrt_scaled (hs 1) hy,
    sqrt_scaled (hs 2) hz, Option.bind_eq_bind, Option.bind_some, hdiv, ha, Option.pure_def,
    htriple]

theorem decompose_composition_real :
    ∃ r, (r = (⟨-3 / 5, 0, 4 / 5, 0⟩ : Quaternion ℝ) ∨ r = -⟨-3 / 5, 0, 4 / 5, 0⟩) ∧
      decompose SquareRoot.real
        (translation 5 (-6) 7 * makeMatrix ⟨-3 / 5, 0, 4 / 5, 0⟩ * scale 1 2 3) =
        some (![5, -6, 7], r, ![1, 2, 3]) :=
  decompose_composition SquareRoot.real ![5, -6, 7] ![1, 2, 3]
    (by norm_num [Quaternion.normSq]) (fun i => by fin_cases i <;> norm_num)

end Fimbulwinter.Maths
