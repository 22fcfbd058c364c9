import Fimbulwinter.Mixer

/-! # Frames of object playbacks

`ObjectPlayback::update` with the arithmetic of `int`. Assertions are off, and so the number of
keys is cast without a check. -/
namespace Fimbulwinter.Mixer

inductive ArithmeticFault
  | divisionByZero
  /-- A sum that is no `int`. -/
  | overflow
  deriving DecidableEq, Repr

/-- The sum of two numbers, if it is an `int`. -/
def addInt (m n : ℤ) : Except ArithmeticFault ℤ :=
  if -2 ^ 31 ≤ m + n ∧ m + n < 2 ^ 31 then .ok (m + n) else .error .overflow

/-- `static_cast<int>` -/
def castInt (n : ℕ) : ℤ := (n : ℤ).bmod (2 ^ 32)

/-- The end of `ObjectPlayback::update`, once the sums are known. -/
def ObjectPlayback.moveTo (x : ObjectPlayback) :
    Except ArithmeticFault ℤ → Except ArithmeticFault ℤ → Except ArithmeticFault ObjectPlayback
  | .ok frameiNext, .ok actionLength =>
    if frameiNext < actionLength then .ok { x with framei := frameiNext }
    else if x.repetative then
      if actionLength = 0 then .error .divisionByZero
      else .ok { x with framei := frameiNext.tmod actionLength }
    else .ok { x with finished := true, framei := actionLength }
  | .error e, _ | _, .error e => .error e

/-- `ObjectPlayback::update` -/
def ObjectPlayback.advance (x : ObjectPlayback) : Except ArithmeticFault ObjectPlayback :=
  match x.action with
  | none => .ok x
  | some action => x.moveTo (addInt x.framei 1) (addInt (castInt action.keys) (-1))

/-- A playback from the start of an action. -/
def ObjectPlayback.start (object : Object) (action : ObjectAction) (repetative : Bool) :
    ObjectPlayback := ⟨object, some action, repetative, false, 0⟩

/-- States that are reached by updates. -/
def ObjectPlayback.Reaches (x y : ObjectPlayback) : Prop :=
  Reached (fun x (_ : Unit) => x.advance) (fun _ _ => True) x y

/-- What should hold of a playback of an action. -/
structure ObjectPlayback.StaysIn (action : ObjectAction) (x : ObjectPlayback) : Prop where
  defined : ∃ y, x.advance = .ok y
  within : 0 ≤ x.framei ∧ x.framei < action.keys
  finishes : x.repetative = false → (x.finished = true ↔ x.framei = action.keys - 1)
  repeats : x.repetative = true → x.finished = false

namespace ObjectPlayback

variable {x y : ObjectPlayback} {action : ObjectAction}

theorem addInt_eq {m n : ℤ} (h : -2 ^ 31 ≤ m + n ∧ m + n < 2 ^ 31) :
    addInt m n = .ok (m + n) := if_pos h

/-- An update whose sums are numbers. -/
theorem advance_eq {length : ℤ} (haction : x.action = some action)
    (hframei : -2 ^ 31 ≤ x.framei + 1 ∧ x.framei + 1 < 2 ^ 31)
    (hlength : addInt (castInt action.keys) (-1) = .ok length) :
    x.advance = if x.framei + 1 < length then .ok { x with framei := x.framei + 1 }
      else if x.repetative then
        if length = 0 then .error .divisionByZero
        else .ok { x with framei := (x.framei + 1).tmod length }
      else .ok { x with finished := true, framei := length } := by
  rw [advance, haction]
  dsimp only
  rw [addInt_eq hframei, hlength, moveTo, haction]

/-- The cast to `int` loses nothing of a number of keys that is an `int`. -/
theorem length_eq (hkeys : action.keys < 2 ^ 31) :
    addInt (castInt action.keys) (-1) = .ok (action.keys - 1) := by
  have hcast : castInt action.keys = action.keys := Int.bmod_eq_of_le (by omega) (by omega)
  rw [hcast, addInt_eq (by omega), Int.sub_eq_add_neg]

/-- While numbers are `int`s, this is the update of the mixer. -/
theorem advance_eq_update (haction : x.action = some action) (hkeys : action.keys < 2 ^ 31)
    (hframei : -2 ^ 31 ≤ x.framei + 1 ∧ x.framei + 1 < 2 ^ 31) :
    x.advance = .ok y ↔ x.update = .ok y := by
  rw [advance_eq haction hframei (length_eq hkeys)]
  simp only [update, haction]
  split_ifs
  · simp only [Except.ok.injEq]
  · exact iff_of_false (by simp) (by simp)
  · simp only [Except.ok.injEq]
  · simp only [Except.ok.injEq]

/-! ## Playbacks of actions of an ordinary length -/

/-- The frame of a playback, and when it is finished. -/
structure Sound (action : ObjectAction) (x : ObjectPlayback) : Prop where
  plays : x.action = some action
  within : 0 ≤ x.framei ∧ x.framei < action.keys
  finishes : x.repetative = false → (x.finished = true ↔ x.framei = action.keys - 1)
  repeats : x.repetative = true → x.finished = false ∧ x.framei < action.keys - 1

theorem Sound.advance (h : x.Sound action)
    (hle : 2 ≤ action.keys) (hlt : action.keys < 2 ^ 31) :
    ∃ y, x.advance = .ok y ∧ y.Sound action := by
  obtain ⟨haction, ⟨hnonneg, hwithin⟩, hfinishes, hrepeats⟩ := h
  rw [advance_eq haction (by omega) (length_eq hlt)]
  by_cases hbefore : x.framei + 1 < action.keys - 1
  · rw [if_pos hbefore]
    refine ⟨_, rfl, haction, ⟨by dsimp only; omega, by dsimp only; omega⟩, fun hrepeat => ?_,
      fun hrepeat => ⟨(hrepeats hrepeat).1, hbefore⟩⟩
    dsimp only
    rw [hfinishes hrepeat]
    omega
  rw [if_neg hbefore]
  cases hrepeat : x.repetative with
  | true =>
    have hlast : x.framei + 1 = action.keys - 1 := by
      have hframei := (hrepeats hrepeat).2
      omega
    rw [if_pos rfl, if_neg (by omega), hlast, Int.tmod_self]
    refine ⟨_, rfl, haction, ⟨le_rfl, by dsimp only; omega⟩, fun h => ?_,
      fun _ => ⟨(hrepeats hrepeat).1, by dsimp only; omega⟩⟩
    cases h
  | false =>
    rw [if_neg Bool.false_ne_true]
    refine ⟨_, rfl, haction, ⟨by dsimp only; omega, by dsimp only; omega⟩, fun _ => ?_, fun h => ?_⟩
    · exact iff_of_true rfl rfl
    · cases h

theorem Sound.staysIn (h : x.Sound action) (hle : 2 ≤ action.keys) (hlt : action.keys < 2 ^ 31) :
    x.StaysIn action := by
  obtain ⟨y, hy, -⟩ := h.advance hle hlt
  exact ⟨⟨y, hy⟩, h.within, h.finishes, fun hrepeat => (h.repeats hrepeat).1⟩

/-! ## All playbacks -/

variable {object : Object}

/-- The frames in front of the last one are passed one after another. -/
theorem reaches_frame {length : ℤ}
    (hlength : addInt (castInt action.keys) (-1) = .ok length) (i : ℕ)
    (hi : (i : ℤ) < length ∨ i = 0) :
    (start object action false).Reaches { start object action false with framei := i } := by
  have hbound : length < 2 ^ 31 := by
    unfold addInt at hlength
    split_ifs at hlength with h
    rw [← Except.ok.inj hlength]
    exact h.2
  induction i with
  | zero => exact .start
  | succ i ih =>
    have hlt : (i : ℤ) + 1 < length := by omega
    refine .step (ih (by omega)) trivial (a := ()) ?_
    dsimp only
    rw [advance_eq rfl (by dsimp only; omega) hlength, if_pos hlt, Nat.cast_succ]

/-- A playback of an action with too many keys for an `int` ends at a key that is not the last. -/
theorem keys_lt (h : ∀ x, (start object action false).Reaches x → x.StaysIn action) :
    action.keys < 2 ^ 31 := by
  have hcast : -2 ^ 31 ≤ castInt action.keys := Int.le_bmod (by decide)
  have hcast' : castInt action.keys < 2 ^ 31 := Int.bmod_lt (by decide)
  obtain ⟨y, hy⟩ := (h _ .start).defined
  by_cases hmin : castInt action.keys = -2 ^ 31
  · have hlength : addInt (castInt action.keys) (-1) = .error .overflow := by
      rw [hmin]
      rfl
    have hnext : addInt 0 1 = .ok 1 := rfl
    simp only [advance, start, hnext, hlength] at hy
    cases hy
  · obtain ⟨length, heq⟩ : ∃ length, length = castInt action.keys - 1 := ⟨_, rfl⟩
    have hlength : addInt (castInt action.keys) (-1) = .ok length := by
      rw [heq, addInt_eq (by omega)]
      rfl
    have hreached : (start object action false).Reaches
        { start object action false with framei := (length - 1).toNat } :=
      reaches_frame hlength (length - 1).toNat (by omega)
    have hlast : ({ start object action false with framei := (length - 1).toNat } :
        ObjectPlayback).advance =
        .ok { start object action false with finished := true, framei := length } := by
      rw [advance_eq rfl (by dsimp only; omega) hlength, if_neg (by dsimp only; omega)]
      rfl
    have hend := ((h _ (hreached.step trivial (a := ()) hlast)).finishes rfl).mp rfl
    dsimp only at hend
    omega

/-- Playbacks stay in their animation exactly if it has at least two keys, and so few that their
number is an `int`. -/
theorem staysIn_iff (object : Object) (action : ObjectAction) :
    (∀ repetative x, (start object action repetative).Reaches x → x.StaysIn action) ↔
      2 ≤ action.keys ∧ action.keys < 2 ^ 31 := by
  constructor
  · intro h
    have hlt := keys_lt (h false)
    have hstart := h false _ .start
    refine ⟨?_, hlt⟩
    by_contra hkeys
    have hwithin := hstart.within.2
    have hfinished := hstart.finishes rfl
    dsimp only [start] at hwithin hfinished
    have hone : (0 : ℤ) = action.keys - 1 := by omega
    cases hfinished.mpr hone
  · rintro ⟨hle, hlt⟩ repetative x hreached
    have hsound : x.Sound action := by
      refine hreached.invariant (?_ : Sound action _) fun h _ hstep => ?_
      · refine ⟨rfl, ⟨le_rfl, by dsimp only [start]; omega⟩, fun _ => ?_, fun _ => ⟨rfl, ?_⟩⟩
        · exact iff_of_false Bool.false_ne_true (by dsimp only [start]; omega)
        · dsimp only [start]
          omega
      · obtain ⟨y, hy, hsound⟩ := h.advance hle hlt
        obtain rfl := Except.ok.inj (hy.symm.trans hstep)
        exact hsound
    exact hsound.staysIn hle hlt

/-- A repeating playback of an animation with one key divides by zero in its first update, and one
that does not repeat is at its last key without being finished. -/
theorem one_key : let action : ObjectAction := ⟨['a'], 1⟩
    let object : Object := ⟨[action]⟩
    (start object action true).advance = .error .divisionByZero ∧
      (start object action false).framei = action.keys - 1 ∧
      (start object action false).finished = false ∧
      ¬ ∀ repetative x, (start object action repetative).Reaches x → x.StaysIn action := by
  refine ⟨by decide, rfl, rfl, fun h => ?_⟩
  obtain ⟨y, hy⟩ := (h true _ .start).defined
  have hvalue : (start ⟨[⟨['a'], 1⟩]⟩ ⟨['a'], 1⟩ true).advance = .error .divisionByZero := by decide
  rw [hvalue] at hy
  cases hy

end ObjectPlayback

end Fimbulwinter.Mixer
