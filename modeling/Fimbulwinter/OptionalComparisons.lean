import Mathlib.Order.WithBot

/-! # Comparisons of `utility::optional`

Each operator is overloaded for two optionals, for an optional and `nullopt`, and for an optional
and a value. An overload that does not compile has no result. -/
namespace Fimbulwinter.OptionalComparisons

inductive Comparison
  | eq
  | ne
  | lt
  | le
  | gt
  | ge
  deriving DecidableEq, Repr

/-- The operator that holds when another one does not. -/
def Comparison.negation : Comparison → Comparison
  | eq => ne
  | ne => eq
  | lt => ge
  | le => gt
  | gt => le
  | ge => lt

/-- The operator with its sides swapped. -/
def Comparison.mirror : Comparison → Comparison
  | eq => eq
  | ne => ne
  | lt => gt
  | le => ge
  | gt => lt
  | ge => le

section Order

variable {α : Type*} [LinearOrder α]

/-- A comparison of values. -/
def Comparison.holds (c : Comparison) (x y : α) : Bool :=
  match c with
  | eq => x = y
  | ne => x ≠ y
  | lt => x < y
  | le => x ≤ y
  | gt => y < x
  | ge => y ≤ x

theorem Comparison.holds_negation (c : Comparison) (x y : α) :
    c.negation.holds x y = !c.holds x y := by
  rw [Bool.eq_iff_iff]
  cases c <;> simp [negation, holds]

theorem Comparison.holds_mirror (c : Comparison) (x y : α) : c.mirror.holds y x = c.holds x y := by
  cases c <;> simp [mirror, holds, eq_comm]

end Order

/-! ## The overloads -/

variable {T : Type*} [LinearOrder T]

/-- `optional` and `optional` -/
def compareOptionals (c : Comparison) (a b : Option T) : Bool :=
  match a, b with
  | some x, some y => c.holds x y
  | _, _ =>
    match c with
    | .eq => a.isSome == b.isSome
    | .ne => a.isSome != b.isSome
    | .lt => b.isSome
    | .le => !a.isSome
    | .gt => a.isSome
    | .ge => !b.isSome

/-- `optional` and `nullopt` -/
def compareNulloptRight (c : Comparison) (a : Option T) : Bool :=
  match c with
  | .eq => !a.isSome
  | .ne => a.isSome
  | .lt => false
  | .le => !a.isSome
  | .gt => a.isSome
  | .ge => true

/-- `nullopt` and `optional` -/
def compareNulloptLeft (c : Comparison) (a : Option T) : Bool :=
  match c with
  | .eq => !a.isSome
  | .ne => a.isSome
  | .lt => a.isSome
  | .le => true
  | .gt => false
  | .ge => !a.isSome

/-- `optional` and a value -/
def compareValueRight (c : Comparison) (a : Option T) (b : T) : Bool :=
  match a with
  | some x => c.holds x b
  | none =>
    match c with
    | .eq => false
    | .ne => true
    | .lt => true
    | .le => true
    | .gt => false
    | .ge => false

/-- A value and `optional`. The operator `!=` compares with `==`, and `>=` reads a member that
storage does not have. -/
def compareValueLeft (c : Comparison) (a : T) (b : Option T) : Option Bool :=
  match c, b with
  | .eq, some y => some (Comparison.eq.holds a y)
  | .eq, none => some false
  | .ne, some y => some (Comparison.eq.holds a y)
  | .ne, none => some true
  | .lt, some y => some (Comparison.lt.holds a y)
  | .lt, none => some false
  | .le, some y => some (Comparison.le.holds a y)
  | .le, none => some false
  | .gt, some y => some (Comparison.gt.holds a y)
  | .gt, none => some true
  | .ge, _ => none

/-- The sides of a comparison. -/
inductive Sides (T : Type*)
  | optionals (a b : Option T)
  | nulloptRight (a : Option T)
  | nulloptLeft (a : Option T)
  | valueRight (a : Option T) (b : T)
  | valueLeft (a : T) (b : Option T)
  deriving DecidableEq, Repr

def Sides.compare (c : Comparison) : Sides T → Option Bool
  | optionals a b => some (compareOptionals c a b)
  | nulloptRight a => some (compareNulloptRight c a)
  | nulloptLeft a => some (compareNulloptLeft c a)
  | valueRight a b => some (compareValueRight c a b)
  | valueLeft a b => compareValueLeft c a b

def Sides.mirror : Sides T → Sides T
  | optionals a b => optionals b a
  | nulloptRight a => nulloptLeft a
  | nulloptLeft a => nulloptRight a
  | valueRight a b => valueLeft b a
  | valueLeft a b => valueRight b a

/-! ## The order -/

/-- An optional in the order in which `nullopt` is below every value. -/
def key : Option T → WithBot T
  | none => ⊥
  | some x => x

omit [LinearOrder T] in
@[simp] theorem key_none : key (none : Option T) = ⊥ := rfl

omit [LinearOrder T] in
@[simp] theorem key_some (x : T) : key (some x) = x := rfl

def Sides.left : Sides T → WithBot T
  | optionals a _ | nulloptRight a | valueRight a _ => key a
  | nulloptLeft _ => ⊥
  | valueLeft a _ => a

def Sides.right : Sides T → WithBot T
  | optionals _ b | nulloptLeft b | valueLeft _ b => key b
  | nulloptRight _ => ⊥
  | valueRight _ b => b

/-- An operator agrees with the order. -/
def Agrees (c : Comparison) (s : Sides T) : Prop := s.compare c = some (c.holds s.left s.right)

/-- An operator agrees with the order, and so do its negation and its mirror image. -/
structure Lawful (c : Comparison) (s : Sides T) : Prop where
  agrees : Agrees c s
  negates : ∃ b, s.compare c = some b ∧ s.compare c.negation = some !b
  mirrors : ∃ b, s.compare c = some b ∧ s.mirror.compare c.mirror = some b

/-- The comparison is none of a value that is greater than or equal to an optional, or that is
different from one with a value. -/
def Sound : Comparison → Sides T → Prop
  | .ge, .valueLeft _ _ => False
  | .ne, .valueLeft _ b => b = none
  | _, _ => True

theorem holds_coe (c : Comparison) (x y : T) : c.holds (x : WithBot T) y = c.holds x y := by
  cases c <;> simp [Comparison.holds]

theorem compareOptionals_eq (c : Comparison) (a b : Option T) :
    compareOptionals c a b = c.holds (key a) (key b) := by
  cases a with
  | none => cases b <;> cases c <;> simp [compareOptionals, Comparison.holds]
  | some x =>
    cases b with
    | none => cases c <;> simp [compareOptionals, Comparison.holds]
    | some y => exact (holds_coe c x y).symm

theorem compareNulloptRight_eq (c : Comparison) (a : Option T) :
    compareNulloptRight c a = c.holds (key a) ⊥ := by
  cases a <;> cases c <;> simp [compareNulloptRight, Comparison.holds]

theorem compareNulloptLeft_eq (c : Comparison) (a : Option T) :
    compareNulloptLeft c a = c.holds ⊥ (key a) := by
  cases a <;> cases c <;> simp [compareNulloptLeft, Comparison.holds]

theorem compareValueRight_eq (c : Comparison) (a : Option T) (b : T) :
    compareValueRight c a b = c.holds (key a) b := by
  cases a with
  | none => cases c <;> simp [compareValueRight, Comparison.holds]
  | some x => exact (holds_coe c x b).symm

theorem compareValueLeft_ne (a y : T) :
    compareValueLeft .ne a (some y) ≠ some (Comparison.ne.holds (a : WithBot T) (key (some y))) := by
  by_cases h : a = y <;> simp [compareValueLeft, Comparison.holds, h]

/-- An operator agrees with the order exactly if it is sound. -/
theorem agrees_iff (c : Comparison) (s : Sides T) : Agrees c s ↔ Sound c s := by
  cases s with
  | optionals a b =>
    exact iff_of_true (congrArg some (compareOptionals_eq c a b)) (by cases c <;> exact trivial)
  | nulloptRight a =>
    exact iff_of_true (congrArg some (compareNulloptRight_eq c a)) (by cases c <;> exact trivial)
  | nulloptLeft a =>
    exact iff_of_true (congrArg some (compareNulloptLeft_eq c a)) (by cases c <;> exact trivial)
  | valueRight a b =>
    exact iff_of_true (congrArg some (compareValueRight_eq c a b)) (by cases c <;> exact trivial)
  | valueLeft a b =>
    cases b with
    | none => cases c <;> simp [Agrees, Sides.compare, compareValueLeft, Sides.left, Sides.right,
        Comparison.holds, Sound]
    | some y =>
      cases c with
      | ne => exact iff_of_false (compareValueLeft_ne a y) (Option.some_ne_none y)
      | ge => exact iff_of_false (Option.some_ne_none _).symm id
      | eq | lt | le | gt => exact iff_of_true (congrArg some (holds_coe _ a y).symm) trivial

omit [LinearOrder T] in
theorem left_mirror (s : Sides T) : s.mirror.left = s.right := by
  cases s <;> rfl

omit [LinearOrder T] in
theorem right_mirror (s : Sides T) : s.mirror.right = s.left := by
  cases s <;> rfl

end Fimbulwinter.OptionalComparisons
