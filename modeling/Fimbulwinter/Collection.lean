import Fimbulwinter.DenseTable
import Fimbulwinter.LookupTable
import Mathlib.Data.Nat.Bitwise

/-! # `core::container::Collection`

Components of several types under one table of keys: a lookup table of packed slots, and
for each type a dense array of components with their keys. Storage for components is
taken to suffice. -/
namespace Fimbulwinter

/-! ## Slots -/

/-- The type of a component in the upper 8 bits, and its index in the lower 24. -/
structure Slot where
  value : ℕ
  deriving DecidableEq, Repr

instance : Zero Slot := ⟨⟨0⟩⟩

namespace Slot

def getType (slot : Slot) : ℕ := slot.value >>> 24

def getIndex (slot : Slot) : ℕ := slot.value &&& 0x00ffffff

def set (type index : ℕ) : Slot := ⟨type <<< 24 ||| index % 2 ^ 32⟩

def setIndex (slot : Slot) (index : ℕ) : Slot := ⟨slot.value &&& 0xff000000 ||| index % 2 ^ 32⟩

variable {type index : ℕ}

theorem value_set (h : index < 2 ^ 24) : (set type index).value = type * 2 ^ 24 + index := by
  have hmod : index % 2 ^ 32 = index := Nat.mod_eq_of_lt (by omega)
  rw [set, hmod, ← Nat.shiftLeft_add_eq_or_of_lt h, Nat.shiftLeft_eq]

theorem getType_set (h : index < 2 ^ 24) : (set type index).getType = type := by
  rw [getType, value_set h, Nat.shiftRight_eq_div_pow]
  omega

theorem getIndex_set (h : index < 2 ^ 24) : (set type index).getIndex = index := by
  have hmask := Nat.and_two_pow_sub_one_eq_mod (type * 2 ^ 24 + index) 24
  rw [getIndex, value_set h]
  exact hmask.trans (by omega)

theorem setIndex_set {j : ℕ} (htype : type < 2 ^ 8) (h : index < 2 ^ 24) :
    (set type index).setIndex j = set type j := by
  have hmod : index % 2 ^ 32 = index := Nat.mod_eq_of_lt (by omega)
  have hmask : (type <<< 24 ||| index) &&& 255 <<< 24 = type <<< 24 := by
    refine Nat.eq_of_testBit_eq fun i => ?_
    simp only [Nat.testBit_and, Nat.testBit_or, Nat.testBit_shiftLeft]
    by_cases hi : 24 ≤ i
    · have hindex : index.testBit i = false :=
        Nat.testBit_lt_two_pow (Nat.lt_of_lt_of_le h (Nat.pow_le_pow_right (by omega) hi))
      by_cases hi' : i - 24 < 8
      · have hmask : (255 : ℕ).testBit (i - 24) = true := by
          rw [show (255 : ℕ) = 2 ^ 8 - 1 from rfl, Nat.testBit_two_pow_sub_one]
          simpa using hi'
        simp [hi, hindex, hmask]
      · have hbit : type.testBit (i - 24) = false :=
          Nat.testBit_lt_two_pow (Nat.lt_of_lt_of_le htype
            (Nat.pow_le_pow_right (by omega) (Nat.le_of_not_lt hi')))
        simp [hindex, hbit]
    · simp [hi]
  simp only [set, setIndex, hmod]
  rw [show (0xff000000 : ℕ) = 255 <<< 24 from rfl, hmask]

theorem set_injective {type' index' : ℕ} (h : index < 2 ^ 24) (h' : index' < 2 ^ 24)
    (heq : set type index = set type' index') : type = type' ∧ index = index' := by
  have htype : (set type index).getType = type := getType_set h
  have hindex : (set type index).getIndex = index := getIndex_set h
  rw [heq] at htype hindex
  exact ⟨htype.symm.trans (getType_set h'), hindex.symm.trans (getIndex_set h')⟩

end Slot

/-! ## Operations -/

variable {K : Type*} [DecidableEq K] [Zero K] {n : ℕ} {C : Fin n → Type*}

structure Collection (K : Type*) {n : ℕ} (C : Fin n → Type*) where
  lookup : LookupTable K Slot
  arrays : (type : Fin n) → List (C type × K)

namespace Collection

variable (usize : K → ℕ) (storage : LookupStorage)

def empty : Collection K C := ⟨.zero storage.initialSize, fun _ => []⟩

/-- `find`: the bucket of a key. -/
def find (c : Collection K C) (key : K) : ℕ := c.lookup.find usize key

def contains (c : Collection K C) (type : Fin n) (bucket : ℕ) : Bool :=
  bucket ≠ noBucket ∧ (c.lookup.slots bucket).getType = type

def get (c : Collection K C) (type : Fin n) (bucket : ℕ) : Option (C type) :=
  if bucket = noBucket then none
  else if (c.lookup.slots bucket).getType ≠ type then none
  else (c.arrays type)[(c.lookup.slots bucket).getIndex]?.map Prod.fst

/-- `call`: the key and the component that a function is called with. -/
def call (c : Collection K C) (bucket : ℕ) : Option (K × Σ type, C type) :=
  let slot := c.lookup.slots bucket
  if h : slot.getType < n then
    (c.arrays ⟨slot.getType, h⟩)[slot.getIndex]?.map fun p => (c.lookup.keys bucket, ⟨_, p.1⟩)
  else none

def emplace (c : Collection K C) (type : Fin n) (component : C type) (key : K) :
    Except Fault (Collection K C × Bool) :=
  if c.find usize key ≠ noBucket then .ok (c, false)
  else match c.lookup.tryPlace usize storage key LookupTable.placeFuel with
    | .error e => .error e
    | .ok (lookup, bucket) =>
      if bucket = noBucket then .ok ({ c with lookup := lookup }, false)
      else
        let array := c.arrays type
        .ok (⟨lookup.place bucket (Slot.set type array.length) key,
          Function.update c.arrays type (array ++ [(component, key)])⟩, true)

/-- `remove_impl`: the last component of the array takes the place of the removed one. -/
def removeImpl (c : Collection K C) (type : Fin n) (bucket index : ℕ) : Collection K C :=
  let array := c.arrays type
  match array.getLast? with
  | none => c
  | some last =>
    let lastBucket := c.find usize last.2
    { lookup := { c.lookup with
        slots := Function.update c.lookup.slots lastBucket
          ((c.lookup.slots lastBucket).setIndex index)
        keys := Function.update c.lookup.keys bucket 0 }
      arrays := Function.update c.arrays type (UnstableErase.swapErase array index) }

def erase (c : Collection K C) (bucket : ℕ) : Collection K C :=
  if bucket = noBucket then c
  else if h : (c.lookup.slots bucket).getType < n then
    c.removeImpl usize ⟨_, h⟩ bucket (c.lookup.slots bucket).getIndex
  else c

def clear (c : Collection K C) : Collection K C :=
  ⟨{ c.lookup with keys := fun _ => 0 }, fun _ => []⟩

/-! ## Refinement of a table of dense arrays -/

/-- A component with its type. -/
abbrev Component (C : Fin n → Type*) := Σ type, C type

/-- The lookup table and the arrays represent a table of dense arrays: the slot of a key is
its type and its position in the array of that type. -/
structure Refines (usize : K → ℕ) (c : Collection K C) (t : DenseTable K (Component C)) :
    Prop where
  valid : c.lookup.Valid usize
  arrays : ∀ type, t.array Sigma.fst type = (c.arrays type).map fun p => (p.2, ⟨type, p.1⟩)
  nonzero : t.find 0 = none
  short : ∀ type, (c.arrays type).length ≤ 2 ^ 24
  holds : ∀ key slot, key ≠ 0 → (c.lookup.Holds key slot ↔
    ∃ v, t.find key = some v ∧ slot = Slot.set v.1 (t.position Sigma.fst v.1 key))

section Refines

variable {usize storage} {c : Collection K C} {t : DenseTable K (Component C)} {key : K}
  {v : Component C}

theorem Refines.position_lt (h : c.Refines usize t) (hv : t.find key = some v) :
    t.position Sigma.fst v.1 key < (c.arrays v.1).length := by
  have := DenseTable.position_lt Sigma.fst hv
  rwa [h.arrays, List.length_map] at this

theorem Refines.position_bound (h : c.Refines usize t) (hv : t.find key = some v) :
    t.position Sigma.fst v.1 key < 2 ^ 24 :=
  Nat.lt_of_lt_of_le (h.position_lt hv) (h.short v.1)

theorem Refines.ne_zero (h : c.Refines usize t) (hv : t.find key = some v) : key ≠ 0 := by
  rintro rfl
  rw [h.nonzero] at hv
  exact Option.some_ne_none v hv.symm

/-- The bucket of a live key holds the key, its type and its position. -/
theorem Refines.find_some (h : c.Refines usize t) (hv : t.find key = some v) :
    c.find usize key ≠ noBucket ∧ c.lookup.keys (c.find usize key) = key ∧
      c.lookup.slots (c.find usize key) = Slot.set v.1 (t.position Sigma.fst v.1 key) := by
  have hkey := h.ne_zero hv
  obtain ⟨b, hb, hslot⟩ := (h.holds key _ hkey).mpr ⟨v, hv, rfl⟩
  have hfind : c.find usize key = b := h.valid.find_eq hkey hb
  rw [hfind]
  exact ⟨(h.valid.placed b (by rwa [hb])).2, hb, hslot⟩

theorem Refines.keys_ne (h : c.Refines usize t) (hkey : key ≠ 0) (hv : t.find key = none) (b : ℕ) :
    c.lookup.keys b ≠ key := fun hb => by
  obtain ⟨v, hv', -⟩ := (h.holds key _ hkey).mp ⟨b, hb, rfl⟩
  rw [hv] at hv'
  exact Option.some_ne_none v hv'.symm

theorem Refines.find_none (h : c.Refines usize t) (hkey : key ≠ 0) (hv : t.find key = none) :
    c.find usize key = noBucket :=
  LookupTable.find_eq_noBucket (h.keys_ne hkey hv)

theorem Refines.find_eq_noBucket_iff (h : c.Refines usize t) (hkey : key ≠ 0) :
    c.find usize key = noBucket ↔ t.find key = none := by
  refine ⟨fun hfind => ?_, h.find_none hkey⟩
  cases hv : t.find key with
  | none => rfl
  | some v => exact absurd hfind (h.find_some hv).1

/-- The entry of a live key in the array of its type. -/
theorem Refines.getElem?_position (h : c.Refines usize t) (hv : t.find key = some v) :
    (c.arrays v.1)[t.position Sigma.fst v.1 key]? = some (v.2, key) := by
  have hget := DenseTable.getElem?_position Sigma.fst hv
  rw [h.arrays, List.getElem?_map, Option.map_eq_some_iff] at hget
  obtain ⟨⟨component, key'⟩, hget, heq⟩ := hget
  obtain ⟨rfl, hcomponent⟩ := Prod.mk.inj heq
  obtain ⟨type, component'⟩ := v
  rw [← eq_of_heq (Sigma.mk.inj hcomponent).2]
  exact hget

/-- An entry of an array is a live key with that type and position. -/
theorem Refines.find_of_getElem? (h : c.Refines usize t) {type : Fin n} {index : ℕ}
    {component : C type} (hget : (c.arrays type)[index]? = some (component, key)) :
    t.find key = some ⟨type, component⟩ ∧ t.position Sigma.fst type key = index := by
  have hmap : (t.array Sigma.fst type)[index]? = some (key, ⟨type, component⟩) := by
    rw [h.arrays, List.getElem?_map, hget, Option.map_some]
  exact ⟨((DenseTable.mem_array_iff Sigma.fst type).mp (List.mem_of_getElem? hmap)).1,
    DenseTable.position_eq_of_getElem? Sigma.fst hmap⟩

theorem Refines.type_lt (hn : n ≤ 128) (type : Fin n) : (type : ℕ) < 2 ^ 8 := by
  have := type.isLt
  omega

theorem Refines.getType (h : c.Refines usize t) (hv : t.find key = some v) :
    (c.lookup.slots (c.find usize key)).getType = v.1 := by
  rw [(h.find_some hv).2.2, Slot.getType_set (h.position_bound hv)]

theorem Refines.getIndex (h : c.Refines usize t) (hv : t.find key = some v) :
    (c.lookup.slots (c.find usize key)).getIndex = t.position Sigma.fst v.1 key := by
  rw [(h.find_some hv).2.2, Slot.getIndex_set (h.position_bound hv)]

theorem erase_eq_removeImpl {bucket : ℕ} {type : Fin n} (hbucket : bucket ≠ noBucket)
    (htype : (c.lookup.slots bucket).getType = type) :
    c.erase usize bucket =
      c.removeImpl usize type bucket (c.lookup.slots bucket).getIndex := by
  have hlt : (c.lookup.slots bucket).getType < n := by
    rw [htype]
    exact type.isLt
  have hfin : (⟨_, hlt⟩ : Fin n) = type := Fin.ext htype
  rw [Collection.erase, if_neg hbucket, dif_pos hlt, hfin]

/-- A lookup finds the component under a key. -/
theorem Refines.call_find (h : c.Refines usize t) (hv : t.find key = some v) :
    c.call (c.find usize key) = some (key, v) := by
  have htype := h.getType hv
  have hlt : (c.lookup.slots (c.find usize key)).getType < n := by
    rw [htype]
    exact v.1.isLt
  have hfin : (⟨_, hlt⟩ : Fin n) = v.1 := Fin.ext htype
  have hget := h.getElem?_position hv
  simp only [call, hlt, dite_true, h.getIndex hv, (h.find_some hv).2.1]
  obtain ⟨type, component⟩ := v
  simp only at hfin hget ⊢
  subst hfin
  rw [hget]
  rfl

theorem Refines.contains_find (h : c.Refines usize t) (hv : t.find key = some v) (type : Fin n) :
    c.contains type (c.find usize key) ↔ v.1 = type := by
  simp [contains, (h.find_some hv).1, h.getType hv, Fin.ext_iff]

theorem Refines.get_find (h : c.Refines usize t) (hv : t.find key = some v) (type : Fin n)
    (component : C type) :
    c.get type (c.find usize key) = some component ↔ v = ⟨type, component⟩ := by
  obtain ⟨type', component'⟩ := v
  have hget := h.getElem?_position hv
  simp only [get, (h.find_some hv).1, if_false, h.getType hv, h.getIndex hv]
  by_cases htype : type' = type
  · subst htype
    simp [hget]
  · have hne : (type' : ℕ) ≠ type := fun heq => htype (Fin.ext heq)
    simp only [hne, ne_eq, not_false_eq_true, if_true]
    constructor
    · intro hnone
      exact absurd hnone.symm (Option.some_ne_none component)
    · intro heq
      exact absurd (congrArg Sigma.fst heq) htype

/-! ## What operations keep -/

theorem refines_empty (hpos : 0 < storage.initialSize) (hle : storage.initialSize ≤ 2 ^ 32) :
    (empty storage : Collection K C).Refines usize ∅ where
  valid := LookupTable.zero_valid hpos hle
  arrays := fun _ => rfl
  nonzero := rfl
  short := fun _ => Nat.zero_le _
  holds := fun key slot hkey => by
    constructor
    · rintro ⟨b, hb, -⟩
      exact absurd hb.symm hkey
    · rintro ⟨v, hv, -⟩
      simp at hv

theorem Refines.clear (h : c.Refines usize t) : c.clear.Refines usize ∅ where
  valid := ⟨h.valid.size_pos, h.valid.size_le, fun _ hb => absurd rfl hb,
    fun _ _ hb => absurd rfl hb⟩
  arrays := fun _ => rfl
  nonzero := rfl
  short := fun _ => Nat.zero_le _
  holds := fun key slot hkey => by
    constructor
    · rintro ⟨b, hb, -⟩
      exact absurd hb.symm hkey
    · rintro ⟨v, hv, -⟩
      simp at hv

omit [Zero K] in
/-- Positions of other keys do not change when a row is appended. -/
private theorem position_emplace {t' : DenseTable K (Component C)}
    (ht : t.emplace key v = some t') {key' : K} {w : Component C} (hw : t'.find key' = some w) :
    t'.position Sigma.fst w.1 key' =
      if key' = key then (t.array Sigma.fst w.1).length else t.position Sigma.fst w.1 key' := by
  rw [DenseTable.find_emplace ht] at hw
  apply DenseTable.position_eq_of_getElem? (v := w)
  rw [DenseTable.array_emplace Sigma.fst ht]
  by_cases hk : key' = key
  · subst hk
    rw [if_pos rfl] at hw
    cases hw
    simp
  · rw [if_neg hk] at hw
    have hget := DenseTable.getElem?_position Sigma.fst hw
    rw [if_neg hk]
    split_ifs
    · rwa [List.getElem?_append_left (DenseTable.position_lt Sigma.fst hw)]
    · exact hget

theorem Refines.emplace {c' : Collection K C} {type : Fin n} {component : C type}
    (h : c.Refines usize t) (hkey : key ≠ 0) (hshort : (c.arrays type).length < 2 ^ 24)
    (hroom : c.lookup.HasRoom usize storage key)
    (hc : c.emplace usize storage type component key = .ok (c', true)) :
    ∃ t', t.emplace key ⟨type, component⟩ = some t' ∧ c'.Refines usize t' := by
  unfold Collection.emplace at hc
  split_ifs at hc with hfind
  · simp at hc
  · rw [not_not] at hfind
    have hnone := (h.find_eq_noBucket_iff hkey).mp hfind
    obtain ⟨t', ht'⟩ := DenseTable.emplace_of_find_eq_none (v := (⟨type, component⟩ : Component C))
      hnone
    split at hc
    · simp at hc
    next lookup bucket hplace =>
      obtain ⟨hvalid, hbucket, hempty, hmem, hholds⟩ := h.valid.tryPlace hroom hplace
      simp only [hbucket, if_false, Except.ok.injEq, Prod.mk.injEq, and_true] at hc
      subst hc
      have hnew : ∀ b, lookup.keys b ≠ key := fun b hb =>
        h.keys_ne hkey hnone _ ((hholds key _ hkey).mp ⟨b, hb, rfl⟩).choose_spec.1
      have harray : (t.array Sigma.fst type).length = (c.arrays type).length := by
        rw [h.arrays, List.length_map]
      refine ⟨t', ht', ⟨hvalid.place _ hbucket hmem hnew, fun type' => ?_, ?_, fun type' => ?_,
        fun key' slot hkey' => ?_⟩⟩
      · rw [DenseTable.array_emplace Sigma.fst ht', h.arrays]
        by_cases htype : type = type'
        · subst htype
          simp
        · simp [htype, Function.update_of_ne (Ne.symm htype)]
      · rw [DenseTable.find_emplace ht', if_neg (Ne.symm hkey), h.nonzero]
      · by_cases htype : type' = type
        · subst htype
          simp only [Function.update_self, List.length_append, List.length_singleton]
          exact hshort
        · simpa [Function.update_of_ne htype] using h.short type'
      · rw [LookupTable.holds_place hempty hnew hkey', hholds key' slot hkey',
          h.holds key' slot hkey']
        split_ifs with hk
        · subst hk
          have hfind' : t'.find key' = some ⟨type, component⟩ := by
            rw [DenseTable.find_emplace ht', if_pos rfl]
          have hpos := position_emplace ht' hfind'
          rw [if_pos rfl, harray] at hpos
          simp [hfind', hpos]
        · have hfind' : t'.find key' = t.find key' := by
            rw [DenseTable.find_emplace ht', if_neg hk]
          refine exists_congr fun w => ?_
          rw [hfind']
          refine and_congr_right fun hw => ?_
          have hpos := position_emplace ht' (hfind'.trans hw)
          rw [if_neg hk] at hpos
          rw [hpos]

/-- A new key that finds room is emplaced. -/
theorem Refines.emplace_done {c' : Collection K C} {type : Fin n} {component : C type} {done : Bool}
    (h : c.Refines usize t) (hkey : key ≠ 0) (hnone : t.find key = none)
    (hroom : c.lookup.HasRoom usize storage key)
    (hc : c.emplace usize storage type component key = .ok (c', done)) : done = true := by
  rw [Collection.emplace, if_neg (not_not.mpr (h.find_none hkey hnone))] at hc
  split at hc
  · cases hc
  next lookup bucket hplace =>
    obtain ⟨-, hbucket, -⟩ := h.valid.tryPlace hroom hplace
    rw [if_neg hbucket] at hc
    exact (Prod.mk.inj (Except.ok.inj hc)).2.symm

omit [Zero K] in
/-- Positions after a key has been erased: the last key of its type moves to its position. -/
private theorem position_erase (hv : t.find key = some v) {lastKey key' : K}
    {last w : Component C} (hlast : (t.array Sigma.fst v.1).getLast? = some (lastKey, last))
    (hw : (t.erase Sigma.fst key).find key' = some w) :
    (t.erase Sigma.fst key).position Sigma.fst w.1 key' =
      if key' = lastKey then t.position Sigma.fst v.1 key else t.position Sigma.fst w.1 key' := by
  rw [DenseTable.find_erase] at hw
  split_ifs at hw with hk
  have hget := DenseTable.getElem?_position Sigma.fst hw
  have hlt := DenseTable.position_lt Sigma.fst hw
  have hgetv := DenseTable.getElem?_position Sigma.fst hv
  have hvlt := DenseTable.position_lt Sigma.fst hv
  have hlastGet : (t.array Sigma.fst v.1)[(t.array Sigma.fst v.1).length - 1]? =
      some (lastKey, last) := by rw [← List.getLast?_eq_getElem?, hlast]
  obtain ⟨hlastFind, hlastType⟩ :=
    (DenseTable.mem_array_iff Sigma.fst v.1).mp (List.mem_of_getElem? hlastGet)
  apply DenseTable.position_eq_of_getElem? (v := w)
  rw [DenseTable.array_erase Sigma.fst hv]
  split_ifs with htype hmoved hmoved
  -- The key is the last one of the type; the erased key is another one.
  · subst hmoved
    have hne : t.position Sigma.fst v.1 key ≠ (t.array Sigma.fst v.1).length - 1 := fun heq => by
      rw [heq, hlastGet] at hgetv
      exact hk (congrArg Prod.fst (Option.some.inj hgetv))
    rw [← htype, UnstableErase.getElem?_swapErase _ hvlt (by omega), if_pos rfl, hlast]
    exact congrArg (fun u => some (key', u)) (Option.some.inj (hlastFind.symm.trans hw))
  · rw [← htype] at hget hlt ⊢
    have hne : t.position Sigma.fst v.1 key' ≠ (t.array Sigma.fst v.1).length - 1 := fun heq => by
      rw [heq, hlastGet] at hget
      exact hmoved (congrArg Prod.fst (Option.some.inj hget)).symm
    have hpos : t.position Sigma.fst v.1 key' ≠ t.position Sigma.fst v.1 key := fun heq => by
      rw [heq, hgetv] at hget
      exact hk (congrArg Prod.fst (Option.some.inj hget)).symm
    rw [UnstableErase.getElem?_swapErase _ hvlt (by omega), if_neg hpos, hget]
  · subst hmoved
    rw [Option.some.inj (hw.symm.trans hlastFind)] at htype
    exact absurd hlastType.symm htype
  · exact hget

theorem Refines.erase (hn : n ≤ 128) (h : c.Refines usize t) (hv : t.find key = some v) :
    (c.erase usize (c.find usize key)).Refines usize (t.erase Sigma.fst key) := by
  obtain ⟨hbucket, hkeys, hslots⟩ := h.find_some hv
  have hvlt := h.position_lt hv
  obtain ⟨last, hlast⟩ : ∃ last, (c.arrays v.1).getLast? = some last := by
    rw [← Option.isSome_iff_exists, List.getLast?_isSome]
    rintro hnil
    rw [hnil] at hvlt
    exact Nat.not_lt_zero _ hvlt
  have hlastGet : (c.arrays v.1)[(c.arrays v.1).length - 1]? = some (last.1, last.2) := by
    rw [← List.getLast?_eq_getElem?, hlast]
  obtain ⟨hlastFind, hlastPos⟩ := h.find_of_getElem? hlastGet
  obtain ⟨-, hlastKeys, hlastSlots⟩ := h.find_some hlastFind
  have hlastArray : (t.array Sigma.fst v.1).getLast? = some (last.2, ⟨v.1, last.1⟩) := by
    rw [h.arrays, List.getLast?_map, hlast, Option.map_some]
  have hform : c.erase usize (c.find usize key) =
      { lookup := { c.lookup with
          slots := Function.update c.lookup.slots (c.find usize last.2)
            (Slot.set v.1 (t.position Sigma.fst v.1 key))
          keys := Function.update c.lookup.keys (c.find usize key) 0 }
        arrays := Function.update c.arrays v.1
          (UnstableErase.swapErase (c.arrays v.1) (t.position Sigma.fst v.1 key)) } := by
    have hset := Slot.setIndex_set (j := t.position Sigma.fst v.1 key)
      (Refines.type_lt hn v.1) (h.position_bound hlastFind)
    rw [erase_eq_removeImpl hbucket (h.getType hv), h.getIndex hv]
    simp only [removeImpl, hlast, hlastSlots, hset]
  rw [hform]
  have hkey := h.ne_zero hv
  constructor
  · exact h.valid.vacate _
  · intro type
    rw [DenseTable.array_erase Sigma.fst hv, h.arrays]
    by_cases hvt : v.1 = type
    · subst hvt
      simp only [if_true, Function.update_self, UnstableErase.swapErase_map]
    · simp only [hvt, if_false, Function.update_of_ne (Ne.symm hvt)]
  · rw [DenseTable.find_erase, h.nonzero]
    exact ite_self _
  · intro type
    by_cases hvt : type = v.1
    · subst hvt
      simp only [Function.update_self, UnstableErase.length_swapErase _ hvlt]
      exact Nat.le_trans (Nat.sub_le _ _) (h.short _)
    · simpa only [Function.update_of_ne hvt] using h.short type
  · intro key' slot hkey'
    constructor
    · rintro ⟨b, hb, hslot⟩
      simp only [Function.update_apply] at hb hslot
      split_ifs at hb with hbk
      · exact absurd hb.symm hkey'
      · obtain ⟨w, hw, hwslot⟩ := (h.holds key' _ hkey').mp ⟨b, hb, rfl⟩
        have hne : key' ≠ key := fun hk => hbk (by
          rw [hk] at hb
          exact (h.valid.find_eq hkey hb).symm)
        have hw' : (t.erase Sigma.fst key).find key' = some w := by
          rw [DenseTable.find_erase, if_neg hne, hw]
        refine ⟨w, hw', ?_⟩
        rw [position_erase hv hlastArray hw']
        split_ifs at hslot with hblast
        · have hk : key' = last.2 := by
            rw [← hb, hblast, hlastKeys]
          subst hk
          have hwlast : w = ⟨v.1, last.1⟩ := Option.some.inj (hw.symm.trans hlastFind)
          rw [if_pos rfl, ← hslot, hwlast]
        · have hk : last.2 ≠ key' := fun hk => hblast (by
            rw [← hk] at hb
            exact (h.valid.find_eq (h.ne_zero hlastFind) hb).symm)
          rw [if_neg (Ne.symm hk), ← hslot, hwslot]
    · rintro ⟨w, hw, rfl⟩
      have hpos := position_erase hv hlastArray hw
      rw [DenseTable.find_erase] at hw
      split_ifs at hw with hk
      obtain ⟨-, hwkeys, hwslots⟩ := h.find_some hw
      have hbk : c.find usize key' ≠ c.find usize key := fun heq => hk (by
        rw [← hwkeys, heq, hkeys])
      refine ⟨c.find usize key', ?_, ?_⟩
      · simp only [Function.update_of_ne hbk]
        exact hwkeys
      · rw [hpos]
        by_cases hlastk : last.2 = key'
        · subst hlastk
          have hwlast : w = ⟨v.1, last.1⟩ := Option.some.inj (hw.symm.trans hlastFind)
          simp only [Function.update_self, hwlast, if_true]
        · have hbl : c.find usize key' ≠ c.find usize last.2 := fun heq => hlastk (by
            rw [← hlastKeys, ← heq, hwkeys])
          rw [if_neg (Ne.symm hlastk)]
          simp only [Function.update_of_ne hbl]
          exact hwslots

end Refines

end Collection

end Fimbulwinter
