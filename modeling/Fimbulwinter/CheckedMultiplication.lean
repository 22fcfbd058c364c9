import Mathlib.Data.UInt
import Mathlib.Tactic.Ring

/-! # `mul_overflow`

Multiplication in 64 bits that tells whether it has gone out of range, where the compiler has
neither a product of 128 bits nor a function for it. -/
namespace Fimbulwinter.CheckedMultiplication

/-- The high and the low part of a product, from the products of the halves of its factors. -/
def mulHalves (a b : UInt64) : UInt64 × UInt64 :=
  let al := a &&& 0xffffffff
  let ah := a >>> 32
  let bl := b &&& 0xffffffff
  let bh := b >>> 32
  let x := al * bl
  let y := ah * bl
  let z := al * bh
  let w := ah * bh
  let carrySum := (x >>> 32) + (y &&& 0xffffffff) + (z &&& 0xffffffff)
  ((carrySum >>> 32) + (y >>> 32) + (z >>> 32) + w, (carrySum <<< 32) ||| (x &&& 0xffffffff))

/-- `mul_overflow` of `long long`: whether there is an overflow, and the result. -/
def mulOverflow (a b : Int64) : Bool × Int64 :=
  let ch := (mulHalves a.toUInt64 b.toUInt64).1.toInt64
  let cl := (mulHalves a.toUInt64 b.toUInt64).2.toInt64
  (ch != cl >>> 63, cl)

/-- `mul_overflow` of `unsigned long long` -/
def mulOverflowUnsigned (a b : UInt64) : Bool × UInt64 :=
  let ch := (mulHalves a b).1
  let cl := (mulHalves a b).2
  (ch != 0, cl)

/-- `__builtin_mul_overflow` of `long long` -/
def builtinMulOverflow (a b : Int64) : Bool × Int64 :=
  (a.toInt * b.toInt < -2 ^ 63 || 2 ^ 63 ≤ a.toInt * b.toInt, Int64.ofInt (a.toInt * b.toInt))

/-- `__builtin_mul_overflow` of `unsigned long long` -/
def builtinMulOverflowUnsigned (a b : UInt64) : Bool × UInt64 :=
  (2 ^ 64 ≤ a.toNat * b.toNat, UInt64.ofNat (a.toNat * b.toNat))

/-- The exact product is in the range of `long long`. -/
def InRange (a b : Int64) : Prop := -2 ^ 63 ≤ a.toInt * b.toInt ∧ a.toInt * b.toInt < 2 ^ 63

instance (a b : Int64) : Decidable (InRange a b) := instDecidableAnd

/-- What a checked multiplication should do. -/
structure Checks (a b : Int64) : Prop where
  reports : (mulOverflow a b).1 = true ↔ ¬ InRange a b
  stores : InRange a b → (mulOverflow a b).2.toInt = a.toInt * b.toInt
  wraps : (mulOverflow a b).2.toInt = (a.toInt * b.toInt).bmod (2 ^ 64)
  builtin : mulOverflow a b = builtinMulOverflow a b

structure ChecksUnsigned (a b : UInt64) : Prop where
  reports : (mulOverflowUnsigned a b).1 = true ↔ 2 ^ 64 ≤ a.toNat * b.toNat
  stores : a.toNat * b.toNat < 2 ^ 64 → (mulOverflowUnsigned a b).2.toNat = a.toNat * b.toNat
  wraps : (mulOverflowUnsigned a b).2.toNat = a.toNat * b.toNat % 2 ^ 64
  builtin : mulOverflowUnsigned a b = builtinMulOverflowUnsigned a b

/-! ## Halves -/

theorem toNat_low (a : UInt64) : (a &&& 0xffffffff).toNat = a.toNat % 2 ^ 32 := by
  rw [UInt64.toNat_and]
  exact Nat.and_two_pow_sub_one_eq_mod a.toNat 32

theorem toNat_high (a : UInt64) : (a >>> 32).toNat = a.toNat / 2 ^ 32 := by
  rw [UInt64.toNat_shiftRight]
  exact Nat.shiftRight_eq_div_pow a.toNat 32

theorem toNat_join (c x : UInt64) :
    ((c <<< 32) ||| (x &&& 0xffffffff)).toNat = c.toNat % 2 ^ 32 * 2 ^ 32 + x.toNat % 2 ^ 32 := by
  have hlow : x.toNat % 2 ^ 32 < 2 ^ 32 := Nat.mod_lt _ (by decide)
  have hshift : (c <<< 32).toNat = 2 ^ 32 * (c.toNat % 2 ^ 32) := by
    rw [UInt64.toNat_shiftLeft]
    change c.toNat <<< 32 % 2 ^ 64 = _
    rw [Nat.shiftLeft_eq]
    omega
  rw [UInt64.toNat_or, hshift, toNat_low, ← Nat.two_pow_add_eq_or_of_lt hlow, Nat.mul_comm]

/-- A product by the products of the halves of its factors. -/
theorem mul_eq_halves (a b : ℕ) : a * b = a / 2 ^ 32 * (b / 2 ^ 32) * 2 ^ 64 +
    (a / 2 ^ 32 * (b % 2 ^ 32) + a % 2 ^ 32 * (b / 2 ^ 32)) * 2 ^ 32 +
      a % 2 ^ 32 * (b % 2 ^ 32) := by
  calc a * b = (2 ^ 32 * (a / 2 ^ 32) + a % 2 ^ 32) * (2 ^ 32 * (b / 2 ^ 32) + b % 2 ^ 32) := by
        rw [Nat.div_add_mod, Nat.div_add_mod]
    _ = _ := by ring

theorem mul_half_le {m n : ℕ} (hm : m < 2 ^ 32) (hn : n < 2 ^ 32) :
    m * n ≤ (2 ^ 32 - 1) * (2 ^ 32 - 1) :=
  Nat.mul_le_mul (by omega) (by omega)

/-- The parts that are computed are those of the exact product. -/
theorem toNat_mulHalves (a b : UInt64) :
    (mulHalves a b).1.toNat = a.toNat * b.toNat / 2 ^ 64 ∧
      (mulHalves a b).2.toNat = a.toNat * b.toNat % 2 ^ 64 := by
  have ha := a.toNat_lt
  have hb := b.toNat_lt
  have hx := mul_half_le (Nat.mod_lt a.toNat (by decide)) (Nat.mod_lt b.toNat (by decide : 0 < 2 ^ 32))
  have hy := mul_half_le (show a.toNat / 2 ^ 32 < 2 ^ 32 by omega)
    (Nat.mod_lt b.toNat (by decide : 0 < 2 ^ 32))
  have hz := mul_half_le (Nat.mod_lt a.toNat (by decide)) (show b.toNat / 2 ^ 32 < 2 ^ 32 by omega)
  have hw := mul_half_le (show a.toNat / 2 ^ 32 < 2 ^ 32 by omega) (show b.toNat / 2 ^ 32 < 2 ^ 32 by omega)
  have hproduct := mul_eq_halves a.toNat b.toNat
  have hbound : a.toNat * b.toNat ≤ (2 ^ 64 - 1) * (2 ^ 64 - 1) :=
    Nat.mul_le_mul (by omega) (by omega)
  simp only [mulHalves, toNat_join, UInt64.toNat_add, toNat_high, toNat_low, UInt64.toNat_mul]
  generalize a.toNat % 2 ^ 32 * (b.toNat % 2 ^ 32) = x at hx hproduct ⊢
  generalize a.toNat / 2 ^ 32 * (b.toNat % 2 ^ 32) = y at hy hproduct ⊢
  generalize a.toNat % 2 ^ 32 * (b.toNat / 2 ^ 32) = z at hz hproduct ⊢
  generalize a.toNat / 2 ^ 32 * (b.toNat / 2 ^ 32) = w at hw hproduct ⊢
  generalize a.toNat * b.toNat = product at hproduct hbound ⊢
  rw [Nat.mod_eq_of_lt (show x < 2 ^ 64 by omega), Nat.mod_eq_of_lt (show y < 2 ^ 64 by omega),
    Nat.mod_eq_of_lt (show z < 2 ^ 64 by omega), Nat.mod_eq_of_lt (show w < 2 ^ 64 by omega)]
  omega

/-! ## Unsigned numbers -/

theorem mulOverflowUnsigned_eq (a b : UInt64) :
    mulOverflowUnsigned a b = builtinMulOverflowUnsigned a b := by
  obtain ⟨hhigh, hlow⟩ := toNat_mulHalves a b
  refine Prod.ext ?_ (UInt64.toNat_inj.mp ?_)
  · rw [Bool.eq_iff_iff]
    simp only [mulOverflowUnsigned, builtinMulOverflowUnsigned, bne_iff_ne, ne_eq,
      ← UInt64.toNat_inj, UInt64.toNat_zero, hhigh, decide_eq_true_eq]
    omega
  · simp only [mulOverflowUnsigned, builtinMulOverflowUnsigned, hlow, UInt64.toNat_ofNat']

theorem checksUnsigned (a b : UInt64) : ChecksUnsigned a b := by
  have hwraps : (mulOverflowUnsigned a b).2.toNat = a.toNat * b.toNat % 2 ^ 64 :=
    (toNat_mulHalves a b).2
  refine ⟨?_, fun h => ?_, hwraps, mulOverflowUnsigned_eq a b⟩
  · rw [mulOverflowUnsigned_eq]
    exact decide_eq_true_iff
  · rw [hwraps, Nat.mod_eq_of_lt h]

/-! ## Signed numbers -/

theorem toInt_eq (x : Int64) : x.toInt =
    if 2 * x.toUInt64.toNat < 2 ^ 64 then (x.toUInt64.toNat : ℤ) else x.toUInt64.toNat - 2 ^ 64 :=
  BitVec.toInt_eq_toNat_cond x.toBitVec

theorem toInt_shiftRight (x : Int64) : (x >>> 63).toInt = if x.toInt < 0 then -1 else 0 := by
  have hlt := x.toInt_lt
  have hle := x.le_toInt
  have hshift : (x >>> 63).toInt = x.toInt >>> (63 : ℕ) := by
    rw [← Int64.toInt_toBitVec, Int64.toBitVec_shiftRight, BitVec.sshiftRight_eq',
      BitVec.toInt_sshiftRight]
    rfl
  rw [hshift, Int.shiftRight_eq_div_pow]
  split_ifs <;> omega

variable (a b : Int64)

/-- The product that is stored is that of the numbers, modulo 2^64. -/
theorem mulOverflow_snd : (mulOverflow a b).2 = a * b := by
  have hlow : (mulHalves a.toUInt64 b.toUInt64).2 = a.toUInt64 * b.toUInt64 := by
    rw [← UInt64.toNat_inj, (toNat_mulHalves _ _).2, UInt64.toNat_mul]
  exact congrArg UInt64.toInt64 hlow

/-- An overflow is reported when the product of the bit patterns is not below 2^63. -/
theorem mulOverflow_fst : (mulOverflow a b).1 = true ↔
    2 ^ 63 ≤ a.toUInt64.toNat * b.toUInt64.toNat := by
  obtain ⟨hhigh, hlow⟩ := toNat_mulHalves a.toUInt64 b.toUInt64
  have hbound : a.toUInt64.toNat * b.toUInt64.toNat ≤ (2 ^ 64 - 1) * (2 ^ 64 - 1) :=
    Nat.mul_le_mul (Nat.le_pred_of_lt a.toUInt64.toNat_lt) (Nat.le_pred_of_lt b.toUInt64.toNat_lt)
  simp only [mulOverflow, bne_iff_ne, ne_eq, ← Int64.toInt_inj, toInt_shiftRight]
  rw [toInt_eq, toInt_eq]
  simp only [UInt64.toUInt64_toInt64, hhigh, hlow]
  generalize a.toUInt64.toNat * b.toUInt64.toNat = product at hbound ⊢
  split_ifs
  all_goals try simp only [not_false_iff, true_iff]
  all_goals omega

/-- Neither number is negative, or one is zero, or the product is out of range. -/
def Fits : Prop := 0 ≤ a.toInt ∧ 0 ≤ b.toInt ∨ a.toInt = 0 ∨ b.toInt = 0 ∨ ¬ InRange a b

instance : Decidable (Fits a b) := instDecidableOr

theorem toNat_eq_zero {a : Int64} (h : a.toInt = 0) : a.toUInt64.toNat = 0 := by
  have hlt := a.toUInt64.toNat_lt
  rw [toInt_eq] at h
  split_ifs at h <;> omega

theorem toInt_eq_toNat {a : Int64} (h : 0 ≤ a.toInt) : a.toInt = a.toUInt64.toNat := by
  have hlt := a.toUInt64.toNat_lt
  rw [toInt_eq] at h ⊢
  split_ifs at h ⊢ <;> omega

theorem mul_toNat_of_neg {a b : Int64} (ha : a.toInt < 0) (hb : b.toInt ≠ 0) :
    2 ^ 63 ≤ a.toUInt64.toNat * b.toUInt64.toNat := by
  have ha' : 2 ^ 63 ≤ a.toUInt64.toNat := by
    rw [toInt_eq] at ha
    split_ifs at ha <;> omega
  have hb' : 1 ≤ b.toUInt64.toNat := by
    rw [toInt_eq] at hb
    split_ifs at hb <;> omega
  have hle := Nat.mul_le_mul ha' hb'
  rwa [Nat.mul_one] at hle

/-- The report is right exactly if no negative number has a product in range with a number other
than zero. -/
theorem reports_iff : ((mulOverflow a b).1 = true ↔ ¬ InRange a b) ↔ Fits a b := by
  rw [mulOverflow_fst]
  by_cases hzero : a.toInt = 0 ∨ b.toInt = 0
  · have hproduct : a.toInt * b.toInt = 0 := mul_eq_zero.mpr hzero
    have hproduct' : a.toUInt64.toNat * b.toUInt64.toNat = 0 :=
      Nat.mul_eq_zero.mpr (hzero.imp toNat_eq_zero toNat_eq_zero)
    refine iff_of_true ?_ (.inr (by tauto))
    rw [hproduct', InRange, hproduct]
    decide
  obtain ⟨ha, hb⟩ := not_or.mp hzero
  by_cases hneg : a.toInt < 0 ∨ b.toInt < 0
  · have hreports : 2 ^ 63 ≤ a.toUInt64.toNat * b.toUInt64.toNat := by
      rcases hneg with h | h
      · exact mul_toNat_of_neg h hb
      · rw [Nat.mul_comm]
        exact mul_toNat_of_neg h ha
    rw [iff_true_left hreports]
    refine ⟨fun h => .inr (.inr (.inr h)), fun h => ?_⟩
    rcases h with h | h | h | h
    · omega
    · exact absurd h ha
    · exact absurd h hb
    · exact h
  · obtain ⟨ha', hb'⟩ : 0 ≤ a.toInt ∧ 0 ≤ b.toInt := by omega
    refine iff_of_true ?_ (.inl ⟨ha', hb'⟩)
    rw [InRange, toInt_eq_toNat ha', toInt_eq_toNat hb', ← Int.natCast_mul]
    omega

/-- Multiplication is checked for all unsigned numbers, and for signed ones unless a negative one
has a product in range with a number other than zero. -/
theorem checks_iff (a b : Int64) (c d : UInt64) :
    (Checks a b ↔ Fits a b) ∧ ChecksUnsigned c d := by
  refine ⟨⟨fun h => (reports_iff a b).mp h.reports, fun h => ?_⟩, checksUnsigned c d⟩
  have hreports := (reports_iff a b).mpr h
  have hwraps : (mulOverflow a b).2.toInt = (a.toInt * b.toInt).bmod (2 ^ 64) := by
    rw [mulOverflow_snd, Int64.toInt_mul]
  refine ⟨hreports, fun hrange => ?_, hwraps, Prod.ext ?_ ?_⟩
  · rw [hwraps]
    obtain ⟨hle, hlt⟩ := hrange
    exact Int.bmod_eq_of_le (by omega) (by omega)
  · rw [Bool.eq_iff_iff, hreports, InRange]
    simp only [builtinMulOverflow, Bool.or_eq_true, decide_eq_true_eq]
    omega
  · rw [mulOverflow_snd, builtinMulOverflow, Int64.ofInt_mul, Int64.ofInt_toInt, Int64.ofInt_toInt]

/-- The product of -1 and 1 is taken for an overflow. -/
theorem mulOverflow_minus_one : mulOverflow (-1) 1 = (true, -1) ∧ InRange (-1) 1 ∧
    ¬ Checks (-1) 1 := by
  have hvalue : mulOverflow (-1) 1 = (true, -1) := by decide
  have hrange : InRange (-1) 1 := by decide
  refine ⟨hvalue, hrange, fun h => ?_⟩
  exact h.reports.mp (by rw [hvalue]) hrange

end Fimbulwinter.CheckedMultiplication
