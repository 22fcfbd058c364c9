import Mathlib.Analysis.Real.Sqrt
import Mathlib.Tactic.FieldSimp
import Mathlib.Tactic.Linarith

/-! # Square roots and quotients that need not exist

In an ordered field with square roots of what is not negative, both are computed step by step and
nothing comes out of a root of a negative number or of a division by zero. -/
namespace Fimbulwinter.ExactArithmetic

/-- The square root of everything that is not negative. -/
structure SquareRoot (K : Type*) [Field K] [LinearOrder K] [IsStrictOrderedRing K] where
  root : K → K
  root_nonneg : ∀ a, 0 ≤ a → 0 ≤ root a
  root_mul_root : ∀ a, 0 ≤ a → root a * root a = a

/-- The real one. -/
noncomputable def SquareRoot.real : SquareRoot ℝ where
  root := Real.sqrt
  root_nonneg := fun a _ => Real.sqrt_nonneg a
  root_mul_root := fun _ h => Real.mul_self_sqrt h

variable {K : Type*} [Field K] [LinearOrder K] [IsStrictOrderedRing K]

def SquareRoot.sqrt (S : SquareRoot K) (a : K) : Option K := if 0 ≤ a then some (S.root a) else none

omit [LinearOrder K] [IsStrictOrderedRing K] in
def divide [DecidableEq K] (a b : K) : Option K := if b = 0 then none else some (a / b)

variable {S : SquareRoot K}

theorem SquareRoot.root_sq {a b : K} (hb : 0 ≤ b) (h : a = b * b) : S.root a = b := by
  have ha : 0 ≤ a := by rw [h]; exact mul_nonneg hb hb
  have hroot := S.root_mul_root a ha
  rw [h, mul_self_eq_mul_self_iff, ← h] at hroot
  rcases hroot with hroot | hroot
  · exact hroot
  · have hnonneg := S.root_nonneg a ha
    linarith

@[simp] theorem SquareRoot.sqrt_of_nonneg {a : K} (ha : 0 ≤ a) : S.sqrt a = some (S.root a) :=
  if_pos ha

/-- The root of a square. -/
theorem SquareRoot.sqrt_eq_abs {a b : K} (h : a = b * b) : S.sqrt a = some |b| := by
  have ha : 0 ≤ a := by rw [h]; exact mul_self_nonneg b
  rw [sqrt_of_nonneg ha, root_sq (abs_nonneg b) (by rw [abs_mul_abs_self, h])]

theorem SquareRoot.root_pos {a : K} (ha : 0 < a) : 0 < S.root a := by
  refine lt_of_le_of_ne (S.root_nonneg a ha.le) fun h => ?_
  have hroot := S.root_mul_root a ha.le
  rw [← h, mul_zero] at hroot
  exact ha.ne hroot

omit [LinearOrder K] [IsStrictOrderedRing K] in
@[simp] theorem divide_of_ne [DecidableEq K] {a b : K} (hb : b ≠ 0) : divide a b = some (a / b) :=
  if_neg hb

omit [LinearOrder K] [IsStrictOrderedRing K] in
theorem divide_eq [DecidableEq K] {a b c : K} (hb : b ≠ 0) (h : a = c * b) :
    divide a b = some c := by
  rw [divide_of_ne hb, h, mul_div_cancel_right₀ c hb]

end Fimbulwinter.ExactArithmetic
