import Mathlib.Order.Bounds.Basic
import Fimbulwinter.Reservations

/-! # `utility::clp2` and the reservations that it rounds

The strategies of containers, and what `try_reallocate` makes of the capacity they return. -/
namespace Fimbulwinter

/-! ## The next power of two -/

/-- One step spreads each bit over as many lower bits again. -/
theorem testBit_spread {x y m : ℕ} (n : ℕ) (hn : m + m = n)
    (hx : ∀ i, x.testBit i = true ↔ ∃ d < m, y.testBit (i + d) = true) (i : ℕ) :
    (x ||| (x >>> m)).testBit i = true ↔ ∃ d < n, y.testBit (i + d) = true := by
  subst hn
  rw [Nat.testBit_or, Nat.testBit_shiftRight, Bool.or_eq_true, hx, hx]
  constructor
  · rintro (⟨d, hd, hbit⟩ | ⟨d, hd, hbit⟩)
    · exact ⟨d, Nat.lt_add_left m hd, hbit⟩
    · refine ⟨m + d, Nat.add_lt_add_left hd m, ?_⟩
      rwa [← Nat.add_assoc, Nat.add_comm i m]
  · rintro ⟨d, hd, hbit⟩
    rcases Nat.lt_or_ge d m with hlt | hge
    · exact .inl ⟨d, hlt, hbit⟩
    · refine .inr ⟨d - m, by omega, ?_⟩
      rwa [show m + i + (d - m) = i + d by omega]

/-- The steps of `clp2` set every bit below the highest one. -/
theorem clp2_succ {y k : ℕ} (hk : k < 64) (hle : 2 ^ k ≤ y) (hlt : y < 2 ^ (k + 1)) :
    clp2 (y + 1) = 2 ^ (k + 1) % 2 ^ 64 := by
  have h1 : ∀ i, y.testBit i = true ↔ ∃ d < 1, y.testBit (i + d) = true := fun i =>
    ⟨fun h => ⟨0, Nat.one_pos, h⟩, fun ⟨d, hd, h⟩ => by
      rwa [Nat.lt_one_iff.mp hd, Nat.add_zero] at h⟩
  have h64 := testBit_spread 64 rfl (testBit_spread 32 rfl (testBit_spread 16 rfl
    (testBit_spread 8 rfl (testBit_spread 4 rfl (testBit_spread 2 rfl h1)))))
  have hhigh : y.testBit k = true := by
    have hdiv : y / 2 ^ k = 1 := Nat.div_eq_of_lt_le (by omega) (by rw [Nat.pow_succ] at hlt; omega)
    rw [Nat.testBit_eq_decide_div_mod_eq, hdiv]
    rfl
  have hy : (y + 1 + (2 ^ 64 - 1)) % 2 ^ 64 = y := by
    have hpow : 2 ^ (k + 1) ≤ 2 ^ 64 := Nat.pow_le_pow_right (by decide) hk
    omega
  simp only [clp2, hy]
  refine congrArg (· % 2 ^ 64) ?_
  have hones : ∀ x : ℕ, (∀ i, x.testBit i = true ↔ ∃ d < 64, y.testBit (i + d) = true) →
      x + 1 = 2 ^ (k + 1) := fun x hx => by
    have hpos : 0 < 2 ^ (k + 1) := Nat.two_pow_pos (k + 1)
    suffices hsub : x = 2 ^ (k + 1) - 1 by omega
    refine Nat.eq_of_testBit_eq fun i => Bool.eq_iff_iff.mpr ?_
    rw [hx, Nat.testBit_two_pow_sub_one, decide_eq_true_iff]
    constructor
    · rintro ⟨d, -, hbit⟩
      by_contra hnot
      have hzero := Nat.testBit_lt_two_pow
        (Nat.lt_of_lt_of_le hlt (Nat.pow_le_pow_right (by decide) (by omega : k + 1 ≤ i + d)))
      rw [hzero] at hbit
      exact Bool.false_ne_true hbit
    · intro hi
      have hsum : i + (k - i) = k := by omega
      exact ⟨k - i, by omega, (congrArg y.testBit hsum).trans hhigh⟩
  exact hones _ h64

theorem clp2_eq_zero {x : ℕ} (hx : x < 2 ^ 64) (hout : x = 0 ∨ 2 ^ 63 < x) : clp2 x = 0 := by
  obtain rfl | hlt := hout
  · decide +kernel
  · obtain ⟨y, rfl⟩ : ∃ y, x = y + 1 := ⟨x - 1, by omega⟩
    rw [clp2_succ (k := 63) (by decide) (by omega) (by omega)]
    decide +kernel

/-- Between one and `2 ^ 63` the least power of two that is not smaller. -/
theorem isLeast_clp2 {x : ℕ} (hpos : 1 ≤ x) (hle : x ≤ 2 ^ 63) :
    IsLeast {n | (∃ k, n = 2 ^ k) ∧ x ≤ n} (clp2 x) := by
  obtain ⟨y, rfl⟩ : ∃ y, x = y + 1 := ⟨x - 1, by omega⟩
  by_cases hy : y = 0
  · subst hy
    have hone : clp2 (0 + 1) = 1 := by decide +kernel
    rw [hone]
    exact ⟨⟨⟨0, rfl⟩, Nat.le_refl 1⟩, fun n hn => hn.2⟩
  have hlog := Nat.log2_self_le hy
  have hlog' : y < 2 ^ (y.log2 + 1) := Nat.lt_log2_self
  have hk : y.log2 < 63 := (Nat.pow_lt_pow_iff_right (by decide : 1 < 2)).mp
    (Nat.lt_of_le_of_lt hlog (by omega))
  have hmod : 2 ^ (y.log2 + 1) % 2 ^ 64 = 2 ^ (y.log2 + 1) :=
    Nat.mod_eq_of_lt (Nat.pow_lt_pow_right (by decide) (by omega))
  rw [clp2_succ (by omega) hlog hlog', hmod]
  refine ⟨⟨⟨y.log2 + 1, rfl⟩, hlog'⟩, ?_⟩
  rintro n ⟨⟨j, rfl⟩, hn⟩
  refine Nat.pow_le_pow_right (by decide) ?_
  exact (Nat.pow_lt_pow_iff_right (by decide : 1 < 2)).mp (Nat.lt_of_le_of_lt hlog hn)

/-! ## Reservations -/

namespace Reservations
open AggregationLayout

/-- `static_storage` of a capacity, or `dynamic_storage` -/
inductive Storage
  | fixed (capacityValue : ℕ)
  | dynamic

/-- `reserve_power_of_two`, and `reserve_at_least` of a size and a strategy. -/
inductive Strategy
  | powerOfTwo
  | atLeast (least : UInt64) (strategy : Strategy)

namespace Strategy

/-- `operator ()` -/
def reserve (storage : Storage) : Strategy → ℕ → ℕ
  | powerOfTwo, size =>
    match storage with
    | .fixed capacityValue => capacityValue
    | .dynamic => reservePowerOfTwo size
  | atLeast least strategy, size => reserveAtLeast least.toNat (strategy.reserve storage) size

/-- `reserve_nonempty` -/
def nonempty (strategy : Strategy) : Strategy := .atLeast 1 strategy

/-- The size that is rounded. -/
def rounded : Strategy → ℕ → ℕ
  | powerOfTwo, size => size
  | atLeast least strategy, size => strategy.rounded (max least.toNat size)

end Strategy

/-- `try_reallocate` -/
def tryReallocateFor (storage : Storage) (strategy : Strategy) (u1 : ElementType)
    (us : List ElementType) (c : Container) (r : Request) : Container × Bool :=
  match storage with
  | .fixed _ => (c, false)
  | .dynamic => tryReallocate (strategy.reserve .dynamic) u1 us c r

theorem reserve_dynamic (strategy : Strategy) (size : ℕ) :
    strategy.reserve .dynamic size = clp2 (strategy.rounded size) := by
  induction strategy generalizing size with
  | powerOfTwo => rfl
  | atLeast least strategy ih =>
    have hmax : (if size < least.toNat then least.toNat else size) = max least.toNat size := by
      split <;> omega
    rw [Strategy.reserve, reserveAtLeast, ih, hmax]
    rfl

theorem le_rounded (strategy : Strategy) (size : ℕ) : size ≤ strategy.rounded size := by
  induction strategy generalizing size with
  | powerOfTwo => exact Nat.le_refl size
  | atLeast least strategy ih => exact (Nat.le_max_right _ _).trans (ih _)

theorem rounded_lt (strategy : Strategy) {size : ℕ} (h : size < 2 ^ 64) :
    strategy.rounded size < 2 ^ 64 := by
  induction strategy generalizing size with
  | powerOfTwo => exact h
  | atLeast least strategy ih => exact ih (Nat.max_lt.mpr ⟨least.toNat_lt, h⟩)

/-- A reservation is large enough, or it is zero where zero is not what was asked for. -/
theorem reserve_dynamic_cases (strategy : Strategy) {size : ℕ} (h : size < 2 ^ 64) :
    (strategy.rounded size ≤ 2 ^ 63 ∧ size ≤ strategy.reserve .dynamic size) ∨
      (2 ^ 63 < strategy.rounded size ∧ strategy.reserve .dynamic size = 0) := by
  rw [reserve_dynamic]
  have hlt := rounded_lt strategy h
  have hle := le_rounded strategy size
  rcases Nat.lt_or_ge (2 ^ 63) (strategy.rounded size) with hover | hfit
  · exact .inr ⟨hover, clp2_eq_zero hlt (.inr hover)⟩
  · refine .inl ⟨hfit, ?_⟩
    rcases Nat.eq_zero_or_pos (strategy.rounded size) with hzero | hpos
    · omega
    · exact hle.trans (le_clp2 hpos hfit)

end Reservations
end Fimbulwinter
