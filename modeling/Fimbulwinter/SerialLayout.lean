import Mathlib.Algebra.BigOperators.Group.List.Basic
import Mathlib.Algebra.Ring.Nat
import Mathlib.Tactic.Common

/-! # Arrays one behind another

Arrays of the same number of items are laid out one behind another. Each starts at a multiple of
the size of its items. -/
namespace Fimbulwinter.SerialLayout

/-- The next multiple of a number. -/
def roundUp (n a : ℕ) : ℕ := (n + a - 1) / a * a

variable {n a e count : ℕ} {sizes : List ℕ}

theorem le_roundUp (ha : 0 < a) : n ≤ roundUp n a := by
  have hmod := Nat.mod_add_div (n + a - 1) a
  have hlt := Nat.mod_lt (n + a - 1) ha
  rw [roundUp, Nat.mul_comm]
  omega

theorem dvd_roundUp (n a : ℕ) : a ∣ roundUp n a := ⟨_, Nat.mul_comm _ _⟩

theorem roundUp_zero (a : ℕ) : roundUp 0 a = 0 := by
  rw [roundUp, Nat.mul_eq_zero]
  refine .inl (Nat.div_eq_zero_iff.mpr ?_)
  omega

theorem roundUp_mono {m : ℕ} (h : n ≤ m) : roundUp n a ≤ roundUp m a :=
  Nat.mul_le_mul_right a (Nat.div_le_div_right (Nat.sub_le_sub_right (Nat.add_le_add_right h a) 1))

/-- Where the arrays start, behind an end. -/
def starts (count : ℕ) : ℕ → List ℕ → List ℕ
  | _, [] => []
  | e, size :: sizes => roundUp e size :: starts count (roundUp e size + size * count) sizes

/-- Where the last array ends. -/
def finish (count : ℕ) : ℕ → List ℕ → ℕ
  | e, [] => e
  | e, size :: sizes => finish count (roundUp e size + size * count) sizes

/-- The arrays, with the sizes of their items. -/
def arrays (count e : ℕ) (sizes : List ℕ) : List (ℕ × ℕ) := (starts count e sizes).zip sizes

/-- The items fit between the ends. -/
theorem sum_le_finish (hsizes : ∀ size ∈ sizes, 0 < size) :
    e + sizes.sum * count ≤ finish count e sizes := by
  induction sizes generalizing e with
  | nil =>
    rw [List.sum_nil, Nat.zero_mul]
    exact Nat.le_refl e
  | cons size sizes ih =>
    have hle := le_roundUp (n := e) (hsizes size (List.mem_cons_self ..))
    have hrest := ih (e := roundUp e size + size * count) fun s hs =>
      hsizes s (List.mem_cons_of_mem _ hs)
    rw [List.sum_cons, Nat.add_mul, finish]
    omega

/-- More items take more room. -/
theorem finish_mono {count' e' : ℕ} (hcount : count ≤ count') (he : e ≤ e') :
    finish count e sizes ≤ finish count' e' sizes := by
  induction sizes generalizing e e' with
  | nil => exact he
  | cons size sizes ih =>
    exact ih (Nat.add_le_add (roundUp_mono he) (Nat.mul_le_mul_left size hcount))

theorem finish_zero (sizes : List ℕ) : finish 0 0 sizes = 0 := by
  induction sizes with
  | nil => rfl
  | cons size sizes ih => rw [finish, roundUp_zero, Nat.mul_zero, ih]

theorem le_finish (hsizes : ∀ size ∈ sizes, 0 < size) : e ≤ finish count e sizes :=
  Nat.le_trans (Nat.le_add_right _ _) (sum_le_finish hsizes)

theorem arrays_cons (count e size : ℕ) (sizes : List ℕ) : arrays count e (size :: sizes) =
    (roundUp e size, size) :: arrays count (roundUp e size + size * count) sizes := rfl

/-- An array starts at a multiple of the size of its items, and lies between the ends. -/
theorem arrays_within (hsizes : ∀ size ∈ sizes, 0 < size) {array : ℕ × ℕ}
    (h : array ∈ arrays count e sizes) :
    e ≤ array.1 ∧ array.2 ∣ array.1 ∧ array.1 + array.2 * count ≤ finish count e sizes := by
  induction sizes generalizing e with
  | nil => cases h
  | cons size sizes ih =>
    have hle := le_roundUp (n := e) (hsizes size (List.mem_cons_self ..))
    have hrest : ∀ s ∈ sizes, 0 < s := fun s hs => hsizes s (List.mem_cons_of_mem _ hs)
    rw [arrays_cons] at h
    rw [finish]
    rcases List.mem_cons.mp h with rfl | h
    · exact ⟨hle, dvd_roundUp e size, le_finish hrest⟩
    · obtain ⟨hbehind, hdvd, hend⟩ := ih hrest h
      exact ⟨by omega, hdvd, hend⟩

/-- Arrays end before the next ones start. -/
theorem arrays_pairwise (count e : ℕ) (hsizes : ∀ size ∈ sizes, 0 < size) :
    (arrays count e sizes).Pairwise fun a b => a.1 + a.2 * count ≤ b.1 := by
  induction sizes generalizing e with
  | nil => exact .nil
  | cons size sizes ih =>
    have hrest : ∀ s ∈ sizes, 0 < s := fun s hs => hsizes s (List.mem_cons_of_mem _ hs)
    rw [arrays_cons]
    exact List.pairwise_cons.mpr ⟨fun b hb => (arrays_within hrest hb).1, ih _ hrest⟩

end Fimbulwinter.SerialLayout
