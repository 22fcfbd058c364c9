import Mathlib.Data.Nat.Bitwise
import Mathlib.Data.List.Basic
import Mathlib.Tactic.Common

/-! # The capabilities of event devices

How `devices_x11` reads the bits that `EVIOCGBIT` gives in words of 64 bits. -/
namespace Fimbulwinter.HardwareEvents

/-! ## Constants of the kernel -/

abbrev evKey : ℕ := 0x01
abbrev evAbs : ℕ := 0x03
abbrev evCnt : ℕ := 0x20
abbrev keyEsc : ℕ := 1
abbrev btnMouse : ℕ := 0x110
abbrev btnJoystick : ℕ := 0x120
abbrev btnGamepad : ℕ := 0x130
abbrev keyCnt : ℕ := 0x300
abbrev absMtSlot : ℕ := 0x2f
abbrev absCnt : ℕ := 0x40

/-- What a device reports. -/
structure Capabilities where
  events : ℕ → Bool
  keys : ℕ → Bool
  abs : ℕ → Bool

/-- `n_longs_for` -/
def nLongsFor (bits : ℕ) : ℕ := (bits - 1) / 64 + 1

/-- An array of no bits. -/
def noBits (count : ℕ) : List ℕ := List.replicate (nLongsFor count) 0

/-- What `EVIOCGBIT` puts into an array. -/
def getBits (count : ℕ) (set : ℕ → Bool) : List ℕ :=
  (List.range (nLongsFor count)).map fun w =>
    Nat.ofBits fun i : Fin 64 => decide (64 * w + i < count) && set (64 * w + i)

/-- `test_bit` -/
def testBit (bit : ℕ) (longs : List ℕ) : Bool := (longs.getD (bit / 64) 0) >>> (bit % 64) != 0

inductive EventType
  | unknown
  | gamepad
  | keyboard
  | mouse
  | touch
  deriving DecidableEq, Repr

/-- `find_event_type` -/
def findEventType (d : Capabilities) : EventType :=
  let eventBits := getBits evCnt d.events
  let keyBits := if testBit evKey eventBits then getBits keyCnt d.keys else noBits keyCnt
  let absBits := if testBit evAbs eventBits then getBits absCnt d.abs else noBits absCnt
  if testBit btnJoystick keyBits then .gamepad
  else if testBit btnGamepad keyBits then .gamepad
  else if testBit absMtSlot absBits then .touch
  else if testBit keyEsc keyBits then .keyboard
  else if testBit btnMouse keyBits then .mouse
  else .unknown

/-- `set_absinfos`: the axes that are queried. -/
def setAbsinfos (d : Capabilities) : List ℕ :=
  (List.range absCnt).filter fun code => testBit code (getBits absCnt d.abs)

/-! ## What should be found -/

def Capabilities.HasKey (d : Capabilities) (key : ℕ) : Prop :=
  d.events evKey = true ∧ d.keys key = true

def Capabilities.HasAbs (d : Capabilities) (axis : ℕ) : Prop :=
  d.events evAbs = true ∧ d.abs axis = true

/-- The kind of a device goes by the first of its capabilities. -/
inductive Classified (d : Capabilities) : EventType → Prop
  | gamepad (h : d.HasKey btnJoystick ∨ d.HasKey btnGamepad) : Classified d .gamepad
  | touch (hpad : ¬ (d.HasKey btnJoystick ∨ d.HasKey btnGamepad)) (h : d.HasAbs absMtSlot) :
    Classified d .touch
  | keyboard (hpad : ¬ (d.HasKey btnJoystick ∨ d.HasKey btnGamepad)) (htouch : ¬ d.HasAbs absMtSlot)
    (h : d.HasKey keyEsc) : Classified d .keyboard
  | mouse (hpad : ¬ (d.HasKey btnJoystick ∨ d.HasKey btnGamepad)) (htouch : ¬ d.HasAbs absMtSlot)
    (hesc : ¬ d.HasKey keyEsc) (h : d.HasKey btnMouse) : Classified d .mouse
  | unknown (hpad : ¬ (d.HasKey btnJoystick ∨ d.HasKey btnGamepad)) (htouch : ¬ d.HasAbs absMtSlot)
    (hesc : ¬ d.HasKey keyEsc) (hmouse : ¬ d.HasKey btnMouse) : Classified d .unknown

structure Follows (d : Capabilities) : Prop where
  type : Classified d (findEventType d)
  absinfos : ∀ code, code ∈ setAbsinfos d ↔ code < absCnt ∧ d.abs code = true

/-! ## What a test sees -/

/-- The bit, or a higher one of its word. -/
def Sees (count : ℕ) (set : ℕ → Bool) (bit : ℕ) : Prop :=
  ∃ b, bit ≤ b ∧ b / 64 = bit / 64 ∧ b < count ∧ set b = true

theorem shiftRight_ne_zero_iff (x k : ℕ) : x >>> k ≠ 0 ↔ ∃ i, x.testBit (k + i) = true := by
  constructor
  · intro h
    obtain ⟨i, hi⟩ := Nat.exists_testBit_of_ne_zero h
    exact ⟨i, by rwa [Nat.testBit_shiftRight] at hi⟩
  · rintro ⟨i, hi⟩ hzero
    rw [← Nat.testBit_shiftRight, hzero, Nat.zero_testBit] at hi
    exact Bool.false_ne_true hi

theorem getD_noBits (count w : ℕ) : (noBits count).getD w 0 = 0 := by
  rw [noBits, List.getD_eq_getElem?_getD, List.getElem?_replicate]
  split <;> rfl

theorem testBit_noBits (bit count : ℕ) : testBit bit (noBits count) = false := by
  rw [testBit, getD_noBits, Nat.zero_shiftRight]
  rfl

theorem testBit_getBits {bit count : ℕ} (set : ℕ → Bool) (hbit : bit < count) :
    testBit bit (getBits count set) = true ↔ Sees count set bit := by
  have hword : bit / 64 < nLongsFor count :=
    Nat.lt_succ_of_le (Nat.div_le_div_right (Nat.le_sub_one_of_lt hbit))
  have hget : (getBits count set).getD (bit / 64) 0 =
      Nat.ofBits fun i : Fin 64 => decide (64 * (bit / 64) + i < count) && set (64 * (bit / 64) + i) := by
    rw [getBits, List.getD_eq_getElem?_getD, List.getElem?_map, List.getElem?_range hword]
    rfl
  rw [testBit, hget, bne_iff_ne, shiftRight_ne_zero_iff]
  constructor
  · rintro ⟨i, hi⟩
    rcases Nat.lt_or_ge (bit % 64 + i) 64 with hlt | hge
    · rw [Nat.testBit_ofBits_lt _ _ hlt, Bool.and_eq_true, decide_eq_true_iff] at hi
      exact ⟨64 * (bit / 64) + (bit % 64 + i), by omega, by omega, hi.1, hi.2⟩
    · rw [Nat.testBit_ofBits_ge _ _ hge] at hi
      exact absurd hi Bool.false_ne_true
  · rintro ⟨b, hle, hdiv, hlt, hset⟩
    have hmod : bit % 64 + (b - bit) < 64 := by omega
    have hb : 64 * (bit / 64) + (bit % 64 + (b - bit)) = b := by omega
    refine ⟨b - bit, ?_⟩
    rw [Nat.testBit_ofBits_lt _ _ hmod, Bool.and_eq_true, decide_eq_true_iff]
    simp only [hb]
    exact ⟨hlt, hset⟩

theorem Sees.of_mem {count bit : ℕ} {set : ℕ → Bool} (hbit : bit < count) (h : set bit = true) :
    Sees count set bit := ⟨bit, Nat.le_refl bit, rfl, hbit, h⟩

namespace Capabilities
variable (d : Capabilities)

/-- A key or a higher one of its word is seen, where keys or a higher kind of event are. -/
def SeesKey (key : ℕ) : Prop := Sees evCnt d.events evKey ∧ Sees keyCnt d.keys key

def SeesAbs (axis : ℕ) : Prop := Sees evCnt d.events evAbs ∧ Sees absCnt d.abs axis

theorem HasKey.sees {d : Capabilities} {key : ℕ} (hkey : key < keyCnt) (h : d.HasKey key) :
    d.SeesKey key := ⟨.of_mem (by decide) h.1, .of_mem hkey h.2⟩

theorem HasAbs.sees {d : Capabilities} {axis : ℕ} (haxis : axis < absCnt) (h : d.HasAbs axis) :
    d.SeesAbs axis := ⟨.of_mem (by decide) h.1, .of_mem haxis h.2⟩

/-- The gamepad's key is of the joystick's word, so that the joystick's test sees it first. -/
theorem SeesKey.joystick {d : Capabilities} (h : d.SeesKey btnGamepad) : d.SeesKey btnJoystick := by
  obtain ⟨hev, b, hle, hdiv, hlt, hset⟩ := h
  exact ⟨hev, b, Nat.le_trans (by decide) hle, hdiv, hlt, hset⟩

/-- The first kind that is seen is the device's, and every axis is below one that is not there. -/
structure Legible : Prop where
  gamepad : d.SeesKey btnJoystick → d.HasKey btnJoystick ∨ d.HasKey btnGamepad
  touch : ¬ d.SeesKey btnJoystick → d.SeesAbs absMtSlot → d.HasAbs absMtSlot
  keyboard : ¬ d.SeesKey btnJoystick → ¬ d.SeesAbs absMtSlot → d.SeesKey keyEsc → d.HasKey keyEsc
  mouse : ¬ d.SeesKey btnJoystick → ¬ d.SeesAbs absMtSlot → ¬ d.SeesKey keyEsc →
    d.SeesKey btnMouse → d.HasKey btnMouse
  axes : ∀ a b, a ≤ b → b < absCnt → d.abs b = true → d.abs a = true

end Capabilities

open Capabilities
variable {d : Capabilities}

/-- A test of bits that are got only where the kind of event is seen. -/
theorem testBit_reported {event bit count : ℕ} (set : ℕ → Bool) (hevent : event < evCnt)
    (hbit : bit < count) :
    testBit bit (if testBit event (getBits evCnt d.events) then getBits count set
      else noBits count) = true ↔ Sees evCnt d.events event ∧ Sees count set bit := by
  have hev := testBit_getBits d.events hevent
  by_cases h : testBit event (getBits evCnt d.events) = true
  · rw [if_pos h, testBit_getBits set hbit]
    exact (and_iff_right (hev.mp h)).symm
  · rw [if_neg h, testBit_noBits]
    exact ⟨fun h => absurd h Bool.false_ne_true, fun hsees => absurd (hev.mpr hsees.1) h⟩

theorem testBit_keys {key : ℕ} (hkey : key < keyCnt) :
    testBit key (if testBit evKey (getBits evCnt d.events) then getBits keyCnt d.keys
      else noBits keyCnt) = true ↔ d.SeesKey key :=
  testBit_reported d.keys (by decide) hkey

theorem testBit_axes {axis : ℕ} (haxis : axis < absCnt) :
    testBit axis (if testBit evAbs (getBits evCnt d.events) then getBits absCnt d.abs
      else noBits absCnt) = true ↔ d.SeesAbs axis :=
  testBit_reported d.abs (by decide) haxis

/-- The kind that is found is the first one that is seen. -/
inductive Found (d : Capabilities) : EventType → Prop
  | gamepad (h : d.SeesKey btnJoystick) : Found d .gamepad
  | touch (hpad : ¬ d.SeesKey btnJoystick) (h : d.SeesAbs absMtSlot) : Found d .touch
  | keyboard (hpad : ¬ d.SeesKey btnJoystick) (htouch : ¬ d.SeesAbs absMtSlot)
    (h : d.SeesKey keyEsc) : Found d .keyboard
  | mouse (hpad : ¬ d.SeesKey btnJoystick) (htouch : ¬ d.SeesAbs absMtSlot)
    (hesc : ¬ d.SeesKey keyEsc) (h : d.SeesKey btnMouse) : Found d .mouse
  | unknown (hpad : ¬ d.SeesKey btnJoystick) (htouch : ¬ d.SeesAbs absMtSlot)
    (hesc : ¬ d.SeesKey keyEsc) (hmouse : ¬ d.SeesKey btnMouse) : Found d .unknown

theorem findEventType_found (d : Capabilities) : Found d (findEventType d) := by
  have hjoystick := testBit_keys (d := d) (by decide : btnJoystick < keyCnt)
  have hgamepad := testBit_keys (d := d) (by decide : btnGamepad < keyCnt)
  have htouch := testBit_axes (d := d) (by decide : absMtSlot < absCnt)
  have hesc := testBit_keys (d := d) (by decide : keyEsc < keyCnt)
  have hmouse := testBit_keys (d := d) (by decide : btnMouse < keyCnt)
  simp only [findEventType]
  generalize (if testBit evKey (getBits evCnt d.events) then getBits keyCnt d.keys
    else noBits keyCnt) = keyBits at hjoystick hgamepad hesc hmouse ⊢
  generalize (if testBit evAbs (getBits evCnt d.events) then getBits absCnt d.abs
    else noBits absCnt) = absBits at htouch ⊢
  split_ifs with h1 h2 h3 h4 h5
  · exact .gamepad (hjoystick.mp h1)
  · exact .gamepad (hgamepad.mp h2).joystick
  · exact .touch (mt hjoystick.mpr h1) (htouch.mp h3)
  · exact .keyboard (mt hjoystick.mpr h1) (mt htouch.mpr h3) (hesc.mp h4)
  · exact .mouse (mt hjoystick.mpr h1) (mt htouch.mpr h3) (mt hesc.mpr h4) (hmouse.mp h5)
  · exact .unknown (mt hjoystick.mpr h1) (mt htouch.mpr h3) (mt hesc.mpr h4) (mt hmouse.mpr h5)

/-- What is there is seen. -/
theorem not_hasPad (h : ¬ d.SeesKey btnJoystick) :
    ¬ (d.HasKey btnJoystick ∨ d.HasKey btnGamepad) := by
  rintro (hhas | hhas)
  · exact h (hhas.sees (by decide))
  · exact h (hhas.sees (by decide)).joystick

theorem not_hasSlot (h : ¬ d.SeesAbs absMtSlot) : ¬ d.HasAbs absMtSlot := fun hhas =>
  h (hhas.sees (by decide))

theorem not_hasEsc (h : ¬ d.SeesKey keyEsc) : ¬ d.HasKey keyEsc := fun hhas =>
  h (hhas.sees (by decide))

theorem classified_iff : Classified d (findEventType d) ↔
    (d.SeesKey btnJoystick → d.HasKey btnJoystick ∨ d.HasKey btnGamepad) ∧
    (¬ d.SeesKey btnJoystick → d.SeesAbs absMtSlot → d.HasAbs absMtSlot) ∧
    (¬ d.SeesKey btnJoystick → ¬ d.SeesAbs absMtSlot → d.SeesKey keyEsc → d.HasKey keyEsc) ∧
    (¬ d.SeesKey btnJoystick → ¬ d.SeesAbs absMtSlot → ¬ d.SeesKey keyEsc →
      d.SeesKey btnMouse → d.HasKey btnMouse) := by
  have hfound := findEventType_found d
  generalize findEventType d = type at hfound
  cases hfound with
  | gamepad h =>
    refine ⟨fun hc => ?_, fun hc => .gamepad (hc.1 h)⟩
    cases hc with
    | gamepad hhas =>
      exact ⟨fun _ => hhas, fun hn => absurd h hn, fun hn => absurd h hn, fun hn => absurd h hn⟩
  | touch hpad h =>
    refine ⟨fun hc => ?_, fun hc => .touch (not_hasPad hpad) (hc.2.1 hpad h)⟩
    cases hc with
    | touch _ hhas =>
      exact ⟨fun hs => absurd hs hpad, fun _ _ => hhas, fun _ hn => absurd h hn,
        fun _ hn => absurd h hn⟩
  | keyboard hpad htouch h =>
    refine ⟨fun hc => ?_, fun hc =>
      .keyboard (not_hasPad hpad) (not_hasSlot htouch) (hc.2.2.1 hpad htouch h)⟩
    cases hc with
    | keyboard _ _ hhas =>
      exact ⟨fun hs => absurd hs hpad, fun _ hs => absurd hs htouch, fun _ _ _ => hhas,
        fun _ _ hn => absurd h hn⟩
  | mouse hpad htouch hesc h =>
    refine ⟨fun hc => ?_, fun hc => .mouse (not_hasPad hpad) (not_hasSlot htouch) (not_hasEsc hesc)
      (hc.2.2.2 hpad htouch hesc h)⟩
    cases hc with
    | mouse _ _ _ hhas =>
      exact ⟨fun hs => absurd hs hpad, fun _ hs => absurd hs htouch, fun _ _ hs => absurd hs hesc,
        fun _ _ _ _ => hhas⟩
  | unknown hpad htouch hesc hmouse =>
    refine ⟨fun _ => ⟨fun hs => absurd hs hpad, fun _ hs => absurd hs htouch,
      fun _ _ hs => absurd hs hesc, fun _ _ _ hs => absurd hs hmouse⟩, fun _ => ?_⟩
    exact .unknown (not_hasPad hpad) (not_hasSlot htouch) (not_hasEsc hesc) fun hhas =>
      hmouse (hhas.sees (by decide))

theorem mem_setAbsinfos (d : Capabilities) (code : ℕ) :
    code ∈ setAbsinfos d ↔ code < absCnt ∧ Sees absCnt d.abs code := by
  rw [setAbsinfos, List.mem_filter, List.mem_range]
  exact and_congr_right fun hlt => testBit_getBits d.abs hlt

theorem absinfos_iff : (∀ code, code ∈ setAbsinfos d ↔ code < absCnt ∧ d.abs code = true) ↔
    ∀ a b, a ≤ b → b < absCnt → d.abs b = true → d.abs a = true := by
  constructor
  · intro h a b hle hlt hset
    have ha : a < absCnt := Nat.lt_of_le_of_lt hle hlt
    have hdiv : b / 64 = a / 64 := by rw [Nat.div_eq_of_lt hlt, Nat.div_eq_of_lt ha]
    exact ((h a).mp ((mem_setAbsinfos d a).mpr ⟨ha, b, hle, hdiv, hlt, hset⟩)).2
  · intro h code
    rw [mem_setAbsinfos]
    refine and_congr_right fun hlt => ⟨?_, Sees.of_mem hlt⟩
    rintro ⟨b, hle, -, hb, hset⟩
    exact h code b hle hb hset

end Fimbulwinter.HardwareEvents
