import Fimbulwinter.LookupTable
import Fimbulwinter.UnstableErase
import Mathlib.Data.Fintype.Basic
import Mathlib.Data.List.FinRange

/-! # `core::container::MultiCollection`

Components under one table of keys, of which a key has at most one of each type. A slot
tells by its mask which types there are, and where their components are in the dense
arrays. Storage for components is taken to suffice. -/
namespace Fimbulwinter

/-- The types of a key's components and their indices; only types have bits. -/
structure MultiSlot (n : ℕ) where
  typeMask : BitVec 64
  indices : Fin n → ℕ
  bounded : ∀ i, n ≤ i → typeMask.getLsbD i = false

namespace MultiSlot

variable {n : ℕ} {slot : MultiSlot n} {type other : Fin n}

instance : Zero (MultiSlot n) := ⟨⟨0, fun _ => 0, fun _ _ => BitVec.getLsbD_zero⟩⟩

def typeBit (type : Fin n) : BitVec 64 := 1#64 <<< (type : ℕ)

theorem getLsbD_typeBit (hn : n ≤ 64) (type : Fin n) (i : ℕ) :
    (typeBit type).getLsbD i = decide (i = type) := by
  have htype : (type : ℕ) < 64 := Nat.lt_of_lt_of_le type.isLt hn
  rw [typeBit, ← BitVec.twoPow_eq, BitVec.getLsbD_twoPow]
  simp [htype, eq_comm]

theorem getLsbD_typeBit_of_le (type : Fin n) {i : ℕ} (hi : n ≤ i) :
    (typeBit type).getLsbD i = false := by
  have htype : (type : ℕ) ≠ i := (Nat.lt_of_lt_of_le type.isLt hi).ne
  rw [typeBit, ← BitVec.twoPow_eq, BitVec.getLsbD_twoPow]
  simp [htype]

def empty (slot : MultiSlot n) : Bool := slot.typeMask = 0

/-- `empty<type>` -/
def emptyAt (slot : MultiSlot n) (type : Fin n) : Bool := slot.typeMask &&& typeBit type = 0

def clear (slot : MultiSlot n) (type : Fin n) : MultiSlot n where
  typeMask := slot.typeMask &&& ~~~typeBit type
  indices := slot.indices
  bounded := fun i hi => by
    rw [BitVec.getLsbD_and, slot.bounded i hi, Bool.false_and]

/-- `set_index<type>` -/
def setIndex (slot : MultiSlot n) (type : Fin n) (index : ℕ) : MultiSlot n :=
  { slot with indices := Function.update slot.indices type (index % 2 ^ 16) }

def set (slot : MultiSlot n) (type : Fin n) (index : ℕ) : MultiSlot n where
  typeMask := slot.typeMask ||| typeBit type
  indices := Function.update slot.indices type (index % 2 ^ 16)
  bounded := fun i hi => by
    rw [BitVec.getLsbD_or, slot.bounded i hi, getLsbD_typeBit_of_le type hi, Bool.false_or]

theorem emptyAt_iff (hn : n ≤ 64) : slot.emptyAt type ↔ slot.typeMask.getLsbD type = false := by
  have htype : (type : ℕ) < 64 := Nat.lt_of_lt_of_le type.isLt hn
  rw [emptyAt, decide_eq_true_iff]
  constructor
  · intro h
    have hbit := congrArg (fun mask => mask.getLsbD type) h
    simpa [getLsbD_typeBit hn] using hbit
  · intro h
    refine BitVec.eq_of_getLsbD_eq fun i hi => ?_
    rw [BitVec.getLsbD_and, getLsbD_typeBit hn]
    by_cases hi : i = type
    · rw [hi, h]
      simp
    · simp [hi]

theorem empty_iff (hn : n ≤ 64) : slot.empty ↔ ∀ type, slot.emptyAt type := by
  rw [empty, decide_eq_true_iff]
  constructor
  · intro h type
    simp [emptyAt, h]
  · intro h
    refine BitVec.eq_of_getLsbD_eq fun i hi => ?_
    rw [show (0 : BitVec 64).getLsbD i = false from BitVec.getLsbD_zero]
    rcases Nat.lt_or_ge i n with hlt | hge
    · exact (emptyAt_iff hn).mp (h ⟨i, hlt⟩)
    · exact slot.bounded i hge

theorem empty_zero : (0 : MultiSlot n).empty := rfl

theorem emptyAt_clear (hn : n ≤ 64) :
    (slot.clear type).emptyAt other ↔ slot.emptyAt other ∨ other = type := by
  rw [emptyAt_iff hn, emptyAt_iff hn, clear, BitVec.getLsbD_and, BitVec.getLsbD_not,
    getLsbD_typeBit hn]
  have hother : (other : ℕ) < 64 := Nat.lt_of_lt_of_le other.isLt hn
  cases slot.typeMask.getLsbD other <;> simp [hother, Fin.ext_iff]

theorem emptyAt_setIndex {index : ℕ} :
    (slot.setIndex type index).emptyAt other ↔ slot.emptyAt other := Iff.rfl

theorem emptyAt_set (hn : n ≤ 64) {index : ℕ} :
    (slot.set type index).emptyAt other ↔ slot.emptyAt other ∧ other ≠ type := by
  rw [emptyAt_iff hn, emptyAt_iff hn, set, BitVec.getLsbD_or, getLsbD_typeBit hn]
  simp [Fin.ext_iff]

theorem indices_set {index : ℕ} (h : index < 2 ^ 16) :
    (slot.set type index).indices other = if other = type then index else slot.indices other := by
  simp only [set, Function.update_apply, Nat.mod_eq_of_lt h]

theorem indices_clear : (slot.clear type).indices other = slot.indices other := rfl

theorem indices_setIndex {index : ℕ} (h : index < 2 ^ 16) :
    (slot.setIndex type index).indices other =
      if other = type then index else slot.indices other := by
  simp only [setIndex, Function.update_apply, Nat.mod_eq_of_lt h]

end MultiSlot

variable {K : Type*} [DecidableEq K] [Zero K] {n : ℕ} {C : Fin n → Type*}

structure MultiCollection (K : Type*) {n : ℕ} (C : Fin n → Type*) where
  lookup : LookupTable K (MultiSlot n)
  arrays : (type : Fin n) → List (C type × K)

namespace MultiCollection

variable (usize : K → ℕ) (storage : LookupStorage)

def empty : MultiCollection K C := ⟨.zero storage.initialSize, fun _ => []⟩

/-- `find`: the bucket of a key. -/
def find (c : MultiCollection K C) (key : K) : ℕ := c.lookup.find usize key

def contains (c : MultiCollection K C) (type : Fin n) (bucket : ℕ) : Bool :=
  bucket ≠ noBucket ∧ ¬ (c.lookup.slots bucket).emptyAt type

def get (c : MultiCollection K C) (type : Fin n) (bucket : ℕ) : Option (C type) :=
  if bucket = noBucket then none
  else if (c.lookup.slots bucket).emptyAt type then none
  else (c.arrays type)[(c.lookup.slots bucket).indices type]?.map Prod.fst

def getKey (c : MultiCollection K C) (bucket : ℕ) : K :=
  if bucket = noBucket then 0 else c.lookup.keys bucket

/-- `try_place`: the bucket of the key, or an empty one. -/
def tryPlace (c : MultiCollection K C) (key : K) :
    Except Fault (LookupTable K (MultiSlot n) × ℕ) :=
  if c.find usize key ≠ noBucket then .ok (c.lookup, c.find usize key)
  else c.lookup.tryPlace usize storage key LookupTable.placeFuel

def emplace (c : MultiCollection K C) (type : Fin n) (component : C type) (key : K) :
    Except Fault (MultiCollection K C × Bool) :=
  match c.tryPlace usize storage key with
  | .error e => .error e
  | .ok (lookup, bucket) =>
    if bucket = noBucket then .ok ({ c with lookup := lookup }, false)
    else if ¬ (lookup.slots bucket).emptyAt type then .ok ({ c with lookup := lookup }, false)
    else
      let array := c.arrays type
      .ok (⟨lookup.place bucket ((lookup.slots bucket).set type array.length) key,
        Function.update c.arrays type (array ++ [(component, key)])⟩, true)

/-- `remove_at_impl`: the last component of the array takes the place of the removed one,
and a bucket without components loses its key. -/
def removeAtImpl (c : MultiCollection K C) (type : Fin n) (bucket index : ℕ) :
    MultiCollection K C :=
  let array := c.arrays type
  match array.getLast? with
  | none => c
  | some last =>
    let lastBucket := c.find usize last.2
    let slots := Function.update c.lookup.slots lastBucket
      ((c.lookup.slots lastBucket).setIndex type index)
    let slots := Function.update slots bucket ((slots bucket).clear type)
    { lookup := { c.lookup with
        slots := slots
        keys := if (slots bucket).empty then Function.update c.lookup.keys bucket 0
          else c.lookup.keys }
      arrays := Function.update c.arrays type (UnstableErase.swapErase array index) }

/-- `erase<C>` -/
def eraseType (c : MultiCollection K C) (type : Fin n) (bucket : ℕ) : MultiCollection K C :=
  if bucket = noBucket then c
  else if (c.lookup.slots bucket).emptyAt type then c
  else c.removeAtImpl usize type bucket ((c.lookup.slots bucket).indices type)

/-- One type of `remove_impl`. -/
def removeImpl (bucket : ℕ) (c : MultiCollection K C) (type : Fin n) : MultiCollection K C :=
  if (c.lookup.slots bucket).emptyAt type then c
  else c.removeAtImpl usize type bucket ((c.lookup.slots bucket).indices type)

def erase (c : MultiCollection K C) (bucket : ℕ) : MultiCollection K C :=
  if bucket = noBucket then c
  else (List.finRange n).foldl (removeImpl usize bucket) c

end MultiCollection

end Fimbulwinter
