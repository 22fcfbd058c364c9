import Mathlib.Data.UInt
import Mathlib.Tactic.Ring

/-! # `interpolate_and_scale`

An interval of 32-bit numbers is scaled to the whole range of an axis. The product of the range and
a position is divided in two parts, of which the second one is computed in 32 bits. -/
namespace Fimbulwinter.AxisScaling

/-- `(uint32_t(1) << 31) - 1` -/
def axisMax : UInt32 := ((1 : UInt32) <<< 31) - 1

/-- `2 * ((uint32_t(1) << 31) - 1)` -/
def axisRange : UInt32 := 2 * axisMax

def interpolateAndScale (min max x : Int32) : Int32 :=
  let q := axisRange / (max.toUInt32 - min.toUInt32)
  let r := axisRange % (max.toUInt32 - min.toUInt32)
  ((x.toUInt32 - min.toUInt32) * q - axisMax +
    r * (x.toUInt32 - min.toUInt32) / (max.toUInt32 - min.toUInt32)).toInt32

/-- The position in the whole range, rounded down. -/
def scaled (min max x : Int32) : ℤ :=
  2 * (2 ^ 31 - 1) * (x.toInt - min.toInt) / (max.toInt - min.toInt) - (2 ^ 31 - 1)

/-- What an interval should be scaled to. -/
structure Scales (min max : Int32) : Prop where
  exact : ∀ x, min ≤ x → x ≤ max → (interpolateAndScale min max x).toInt = scaled min max x
  monotone : ∀ x y, min ≤ x → x ≤ y → y ≤ max →
    interpolateAndScale min max x ≤ interpolateAndScale min max y
  atMin : (interpolateAndScale min max min).toInt = -(2 ^ 31 - 1)
  atMax : (interpolateAndScale min max max).toInt = 2 ^ 31 - 1
  within : ∀ x, min ≤ x → x ≤ max →
    -(2 ^ 31 - 1) ≤ (interpolateAndScale min max x).toInt ∧
      (interpolateAndScale min max x).toInt ≤ 2 ^ 31 - 1

/-- The remainder of the range times the distance from the start of the interval fits in 32 bits. -/
def RemainderFits (min max x : Int32) : Prop :=
  2 * (2 ^ 31 - 1) % (max.toInt - min.toInt) * (x.toInt - min.toInt) < 2 ^ 32

instance (min max x : Int32) : Decidable (RemainderFits min max x) := Int.decLt _ _

/-! ## Two parts of a quotient -/

/-- The quotient of a product, by the quotient and the remainder of its first factor. -/
theorem mul_div_split (m t : ℕ) {d : ℕ} (hd : 0 < d) :
    m * t / d = t * (m / d) + m % d * t / d := by
  have hm : m * t = m % d * t + d * (t * (m / d)) := by
    calc m * t = (m % d + d * (m / d)) * t := by rw [Nat.mod_add_div]
      _ = m % d * t + d * (t * (m / d)) := by ring
  rw [hm, Nat.add_mul_div_left _ _ hd, Nat.add_comm]

/-- A dividend that wraps gives a smaller quotient. -/
theorem wrapped_div_eq_iff {n d : ℕ} (hd : 0 < d) (hlt : d < 2 ^ 32) :
    n % 2 ^ 32 / d = n / d ↔ n < 2 ^ 32 := by
  refine ⟨fun h => ?_, fun h => by rw [Nat.mod_eq_of_lt h]⟩
  by_contra hn
  have hle : n % 2 ^ 32 + d ≤ n := by omega
  have hdiv := Nat.div_le_div_right (c := d) hle
  rw [Nat.add_div_right _ hd] at hdiv
  omega

theorem scaled_le {m t d : ℕ} (ht : t ≤ d) (hd : 0 < d) : m * t / d ≤ m :=
  (Nat.div_le_div_right (Nat.mul_le_mul_left m ht)).trans (Nat.mul_div_cancel m hd).le

/-! ## Machine numbers -/

theorem toInt_eq (x : Int32) : x.toInt =
    if 2 * x.toUInt32.toNat < 2 ^ 32 then (x.toUInt32.toNat : ℤ) else x.toUInt32.toNat - 2 ^ 32 :=
  BitVec.toInt_eq_toNat_cond x.toBitVec

theorem toNat_sub {x y : Int32} (h : y ≤ x) :
    (x.toUInt32 - y.toUInt32).toNat = (x.toInt - y.toInt).toNat := by
  have hx := x.toUInt32.toNat_lt
  have hy := y.toUInt32.toNat_lt
  rw [Int32.le_iff_toInt_le, toInt_eq, toInt_eq] at h
  rw [UInt32.toNat_sub, toInt_eq, toInt_eq]
  split_ifs at h ⊢ <;> omega

variable {min max x y : Int32}

/-- The value for every position: the dividend of the second part wraps, and nothing else does. -/
theorem interpolateAndScale_eq (h : min < max) (hmin : min ≤ x) (hmax : x ≤ max) {d t : ℕ}
    (hd : (max.toInt - min.toInt).toNat = d) (ht : (x.toInt - min.toInt).toNat = t) :
    (interpolateAndScale min max x).toInt =
      (t * ((2 ^ 32 - 2) / d) + (2 ^ 32 - 2) % d * t % 2 ^ 32 / d : ℕ) - (2 ^ 31 - 1) := by
  rw [Int32.lt_iff_toInt_lt] at h
  have hxmin := Int32.le_iff_toInt_le.mp hmin
  have hxmax := Int32.le_iff_toInt_le.mp hmax
  have hpos : 0 < d := by omega
  have hsum : t * ((2 ^ 32 - 2) / d) + (2 ^ 32 - 2) % d * t % 2 ^ 32 / d ≤ 2 ^ 32 - 2 := by
    refine le_trans ?_ (scaled_le (show t ≤ d by omega) hpos)
    rw [mul_div_split _ _ hpos]
    exact Nat.add_le_add_left (Nat.div_le_div_right (Nat.mod_le _ _)) _
  have hrange : axisRange.toNat = 2 ^ 32 - 2 := by decide
  have haxis : axisMax.toNat = 2 ^ 31 - 1 := by decide
  rw [interpolateAndScale, toInt_eq, UInt32.toUInt32_toInt32, UInt32.toNat_add, UInt32.toNat_sub,
    UInt32.toNat_mul, UInt32.toNat_div, UInt32.toNat_div, UInt32.toNat_mul, UInt32.toNat_mod,
    toNat_sub hmin, toNat_sub (Int32.le_trans hmin hmax), hd, ht, hrange, haxis]
  generalize (2 ^ 32 - 2) % d * t % 2 ^ 32 / d = w at hsum ⊢
  generalize t * ((2 ^ 32 - 2) / d) = v at hsum ⊢
  have hv : v % 2 ^ 32 = v := Nat.mod_eq_of_lt (by omega)
  rw [hv]
  split_ifs <;> omega

/-- A position is scaled exactly if the second dividend does not wrap. -/
theorem interpolateAndScale_exact_iff (h : min < max) (hmin : min ≤ x) (hmax : x ≤ max) :
    (interpolateAndScale min max x).toInt = scaled min max x ↔ RemainderFits min max x := by
  have hlt := Int32.lt_iff_toInt_lt.mp h
  have hxmin := Int32.le_iff_toInt_le.mp hmin
  have hxmax := Int32.le_iff_toInt_le.mp hmax
  have hbelow := max.toInt_lt
  have habove := min.le_toInt
  obtain ⟨d, hd⟩ := Int.eq_ofNat_of_zero_le (show 0 ≤ max.toInt - min.toInt by omega)
  obtain ⟨t, ht⟩ := Int.eq_ofNat_of_zero_le (show 0 ≤ x.toInt - min.toInt by omega)
  have hpos : 0 < d := by omega
  have hrange : (2 * (2 ^ 31 - 1) : ℤ) = (2 ^ 32 - 2 : ℕ) := rfl
  have hvalue := interpolateAndScale_eq h hmin hmax (show _ = d by omega) (show _ = t by omega)
  have hquotient := wrapped_div_eq_iff (n := (2 ^ 32 - 2) % d * t) hpos (by omega)
  have hscaled : scaled min max x =
      (t * ((2 ^ 32 - 2) / d) + (2 ^ 32 - 2) % d * t / d : ℕ) - (2 ^ 31 - 1) := by
    rw [scaled, hd, ht, hrange, ← Int.natCast_mul, ← Int.natCast_ediv, mul_div_split _ _ hpos]
  have hfits : RemainderFits min max x ↔ (2 ^ 32 - 2) % d * t < 2 ^ 32 := by
    rw [RemainderFits, hd, ht, hrange, ← Int.natCast_emod, ← Int.natCast_mul]
    exact Int.ofNat_lt
  rw [hvalue, hscaled, hfits, ← hquotient]
  omega

/-- An interval is scaled exactly, and so monotonically and to the whole range, if the second
dividend does not wrap at its end. -/
theorem scales_iff (h : min < max) :
    (∀ x, min ≤ x → x ≤ max →
      ((interpolateAndScale min max x).toInt = scaled min max x ↔ RemainderFits min max x)) ∧
    (Scales min max ↔ RemainderFits min max max) := by
  refine ⟨fun x => interpolateAndScale_exact_iff h, fun hscales => ?_, fun hfits => ?_⟩
  · have hle := Int32.le_of_lt h
    exact (interpolateAndScale_exact_iff h hle (Int32.le_refl max)).mp
      (hscales.exact max hle (Int32.le_refl max))
  · have hlt := Int32.lt_iff_toInt_lt.mp h
    have hpos : 0 < max.toInt - min.toInt := by omega
    have hexact : ∀ x, min ≤ x → x ≤ max →
        (interpolateAndScale min max x).toInt = scaled min max x := by
      intro x hmin hmax
      refine (interpolateAndScale_exact_iff h hmin hmax).mpr ?_
      have hle := Int32.le_iff_toInt_le.mp hmax
      refine lt_of_le_of_lt ?_ hfits
      exact Int.mul_le_mul_of_nonneg_left (by omega) (Int.emod_nonneg _ hpos.ne')
    have hmono : ∀ x y, x ≤ y → scaled min max x ≤ scaled min max y := by
      intro x y hxy
      have hle := Int32.le_iff_toInt_le.mp hxy
      refine Int.sub_le_sub_right (Int.ediv_le_ediv hpos ?_) _
      exact Int.mul_le_mul_of_nonneg_left (by omega) (by decide)
    have hmin : scaled min max min = -(2 ^ 31 - 1) := by
      rw [scaled, Int.sub_self, Int.mul_zero, Int.zero_ediv, Int.zero_sub]
    have hmax : scaled min max max = 2 ^ 31 - 1 := by
      rw [scaled, Int.mul_ediv_cancel _ hpos.ne']
      rfl
    have hle := Int32.le_of_lt h
    refine ⟨hexact, fun x y hx hxy hy => ?_, ?_, ?_, fun x hx hy => ?_⟩
    · rw [Int32.le_iff_toInt_le, hexact x hx (Int32.le_trans hxy hy),
        hexact y (Int32.le_trans hx hxy) hy]
      exact hmono x y hxy
    · rw [hexact min (Int32.le_refl min) hle, hmin]
    · rw [hexact max hle (Int32.le_refl max), hmax]
    · rw [hexact x hx hy]
      exact ⟨hmin.ge.trans (hmono min x hx), (hmono x max hy).trans hmax.le⟩

theorem scales_iff_byte : Scales 0 255 :=
  ((scales_iff (show (0 : Int32) < 255 by decide)).2).mpr (by decide)

/-- The end of an interval of length 100000 is scaled to less than the end of the range. -/
theorem not_scales_hundredThousand :
    (interpolateAndScale 0 100000 100000).toInt = 2147440697 ∧ scaled 0 100000 100000 = 2 ^ 31 - 1 ∧
      ¬ Scales 0 100000 := by
  have hvalue : (interpolateAndScale 0 100000 100000).toInt = 2147440697 := by decide
  refine ⟨hvalue, by decide, fun h => ?_⟩
  have hmax := h.atMax
  rw [hvalue] at hmax
  cases hmax

end Fimbulwinter.AxisScaling
