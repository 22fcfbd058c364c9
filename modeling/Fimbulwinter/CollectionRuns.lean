import Fimbulwinter.Collection
import Fimbulwinter.LookupOverflow

/-! # Runs of `core::container::Collection`

Sequences of operations whose emplaces succeed, against the map that they describe. Bucket
numbers are 32-bit numbers, so the collection is a map as long as every key finds room
in a table of at most 2^32 buckets, and loses keys beyond that. -/
namespace Fimbulwinter

variable {K : Type*} [DecidableEq K] [Zero K] {n : ℕ} {C : Fin n → Type*}

namespace Collection

inductive Operation (K : Type*) {n : ℕ} (C : Fin n → Type*)
  | emplace (type : Fin n) (component : C type) (key : K)
  | erase (key : K)
  | clear

/-- What an operation does to a map. -/
def Operation.write (contents : K → Option (Component C)) :
    Operation K C → K → Option (Component C)
  | .emplace type component key => Function.update contents key (some ⟨type, component⟩)
  | .erase key => Function.update contents key none
  | .clear => fun _ => none

/-- The component last emplaced under each key and not erased since. -/
def contents (operations : List (Operation K C)) : K → Option (Component C) :=
  operations.foldl Operation.write fun _ => none

variable (usize : K → ℕ) (storage : LookupStorage)

/-- An operation on a collection, and whether it has succeeded. -/
def apply (c : Collection K C) : Operation K C → Except Fault (Collection K C × Bool)
  | .emplace type component key => c.emplace usize storage type component key
  | .erase key => .ok (c.erase usize (c.find usize key), true)
  | .clear => .ok (c.clear, true)

/-- Keys are not null, indices fit 24 bits, and the key finds room in a table of at most
2^32 buckets. -/
def Operation.Fits (c : Collection K C) : Operation K C → Prop
  | .emplace type _ key =>
    key ≠ 0 ∧ (c.arrays type).length < 2 ^ 24 ∧ c.lookup.HasRoom usize storage key
  | .erase key => key ≠ 0
  | .clear => True

/-- Collections reached by operations that fit and succeed. -/
inductive Run : List (Operation K C) → Collection K C → Prop
  | empty : Run [] (empty storage)
  | apply {operations : List (Operation K C)} {operation : Operation K C} {c c' : Collection K C}
      (run : Run operations c) (fits : operation.Fits usize storage c)
      (done : c.apply usize storage operation = .ok (c', true)) :
      Run (operations ++ [operation]) c'

/-- Slots, buckets and the keys beside the components refer to each other. -/
structure CrossReferenced (c : Collection K C) : Prop where
  live : ∀ key, key ≠ 0 → c.find usize key ≠ noBucket →
    c.lookup.keys (c.find usize key) = key ∧ ∃ (type : Fin n) (component : C type),
      (c.lookup.slots (c.find usize key)).getType = type ∧
      (c.arrays type)[(c.lookup.slots (c.find usize key)).getIndex]? = some (component, key)
  entries : ∀ (type : Fin n) (index : ℕ) (component : C type) (key : K),
    (c.arrays type)[index]? = some (component, key) → key ≠ 0 ∧ c.find usize key ≠ noBucket ∧
      c.lookup.keys (c.find usize key) = key ∧
      c.lookup.slots (c.find usize key) = Slot.set type index

/-- The collection is a map: lookups find exactly its components, and its arrays hold
exactly its components, without gaps. -/
structure IsMap (c : Collection K C) (m : K → Option (Component C)) : Prop where
  find_none : ∀ key, key ≠ 0 → m key = none → c.find usize key = noBucket
  call_find : ∀ key v, m key = some v → c.call (c.find usize key) = some (key, v)
  contains_find : ∀ key v type, m key = some v →
    (c.contains type (c.find usize key) ↔ v.1 = type)
  get_find : ∀ key v type component, m key = some v →
    (c.get type (c.find usize key) = some component ↔ v = ⟨type, component⟩)
  dense : ∀ type, ((c.arrays type).map Prod.snd).Nodup
  mem_arrays : ∀ type component key,
    (component, key) ∈ c.arrays type ↔ m key = some ⟨type, component⟩
  crossReferenced : c.CrossReferenced usize

section Runs

variable {usize storage} {c : Collection K C}

theorem Refines.isMap {t : DenseTable K (Component C)} {m : K → Option (Component C)}
    (h : c.Refines usize t) (hm : ∀ key, t.find key = m key) : c.IsMap usize m where
  find_none := fun key hkey hnone => h.find_none hkey ((hm key).trans hnone)
  call_find := fun key v hv => h.call_find ((hm key).trans hv)
  contains_find := fun key v type hv => h.contains_find ((hm key).trans hv) type
  get_find := fun key v type component hv => h.get_find ((hm key).trans hv) type component
  dense := fun type => by
    have hnodup := DenseTable.nodup_array Sigma.fst t type
    rw [h.arrays, List.map_map] at hnodup
    exact hnodup
  mem_arrays := fun type component key => by
    have hmem := DenseTable.mem_array_iff (t := t) (k := key) (v := ⟨type, component⟩) Sigma.fst type
    rw [h.arrays, List.mem_map, hm] at hmem
    constructor
    · intro hin
      exact (hmem.mp ⟨_, hin, rfl⟩).1
    · intro hin
      obtain ⟨⟨component', key'⟩, hin', heq⟩ := hmem.mpr ⟨hin, rfl⟩
      obtain ⟨rfl, hcomponent⟩ := Prod.mk.inj heq
      rw [← eq_of_heq (Sigma.mk.inj hcomponent).2]
      exact hin'
  crossReferenced := by
    constructor
    · intro key hkey hfind
      cases hv : t.find key with
      | none => exact absurd (h.find_none hkey hv) hfind
      | some v =>
        refine ⟨(h.find_some hv).2.1, v.1, v.2, h.getType hv, ?_⟩
        rw [h.getIndex hv]
        exact h.getElem?_position hv
    · intro type index component key hget
      obtain ⟨hv, hpos⟩ := h.find_of_getElem? hget
      obtain ⟨hbucket, hkeys, hslots⟩ := h.find_some hv
      exact ⟨h.ne_zero hv, hbucket, hkeys, by rw [hslots, hpos]⟩

/-- A run refines a table of dense arrays with the contents that the operations describe. -/
theorem Run.refines {operations : List (Operation K C)} (hn : n ≤ 128) (hstorage : storage.Fits)
    (h : Run usize storage operations c) :
    ∃ t : DenseTable K (Component C), c.Refines usize t ∧
      ∀ key, t.find key = contents operations key := by
  induction h with
  | empty =>
    exact ⟨∅, refines_empty hstorage.initialSize_pos hstorage.initialSize_le, fun key => rfl⟩
  | @apply operations operation c c' run fits done ih =>
    obtain ⟨t, ht, hcontents⟩ := ih
    have hsnoc : contents (operations ++ [operation]) =
        operation.write (contents operations) := by
      simp [contents]
    rw [hsnoc]
    cases operation with
    | emplace type component key =>
      obtain ⟨hkey, hshort, hroom⟩ := fits
      obtain ⟨t', ht', hrefines⟩ := ht.emplace hkey hshort hroom done
      refine ⟨t', hrefines, fun key' => ?_⟩
      rw [DenseTable.find_emplace ht', Operation.write, Function.update_apply, hcontents]
    | erase key =>
      cases done
      cases hv : t.find key with
      | none =>
        refine ⟨t, ?_, fun key' => ?_⟩
        · rw [ht.find_none fits hv, Collection.erase, if_pos rfl]
          exact ht
        · rw [Operation.write, Function.update_apply, ← hcontents]
          split_ifs with hk
          · rw [hk, hv]
          · rfl
      | some v =>
        refine ⟨t.erase Sigma.fst key, ht.erase hn hv, fun key' => ?_⟩
        rw [DenseTable.find_erase, Operation.write, Function.update_apply, hcontents]
    | clear =>
      cases done
      exact ⟨∅, ht.clear, fun key' => rfl⟩

end Runs

end Collection

namespace Collection

variable {usize : K → ℕ} {storage : LookupStorage} {c : Collection K C}

variable (usize) in
theorem apply_ok (operation : Operation K C) (h : storage.Admits c.lookup.size) :
    ∃ c' done, c.apply usize storage operation = .ok (c', done) ∧
      storage.Admits c'.lookup.size := by
  cases operation with
  | emplace type component key =>
    simp only [apply, emplace]
    split_ifs
    · exact ⟨c, _, rfl, h⟩
    · obtain ⟨t', b, hplace, hadmits⟩ := LookupTable.tryPlace_admits usize key h
      rw [hplace]
      simp only
      split_ifs
      · exact ⟨_, _, rfl, hadmits⟩
      · exact ⟨_, _, rfl, hadmits⟩
  | erase key =>
    refine ⟨_, _, rfl, ?_⟩
    unfold erase removeImpl
    split_ifs
    · exact h
    · simp only
      split
      · exact h
      · exact h
    · exact h
  | clear => exact ⟨_, _, rfl, h⟩

theorem Run.admits {operations : List (Operation K C)} (h : Run usize storage operations c) :
    storage.Admits c.lookup.size := by
  induction h with
  | empty =>
    cases storage with
    | heap => exact ⟨0, Nat.succ_pos 63, clp2_one⟩
    | fixed capacity => trivial
  | @apply operations operation c c' run fits done ih =>
    obtain ⟨c'', done', heq, hadmits⟩ := apply_ok usize operation ih
    rw [heq] at done
    cases done
    exact hadmits

theorem emplace_of_tryPlace {key : K} {t : LookupTable K Slot} {b : ℕ} (type : Fin n) (component : C type)
    (hnew : c.find usize key = noBucket)
    (hplace : c.lookup.tryPlace usize storage key LookupTable.placeFuel = .ok (t, b)) (hb : b ≠ noBucket) :
    c.emplace usize storage type component key =
      .ok (⟨t.place b (Slot.set type (c.arrays type).length) key,
        Function.update c.arrays type (c.arrays type ++ [(component, key)])⟩, true) := by
  rw [emplace, if_neg (not_not.mpr hnew), hplace]
  exact if_neg hb

end Collection

/-! ## A key that is lost

The squares of the multiples of 2^16 are multiples of 2^32. The keys collide in every
table of up to 2^32 buckets, and the sixth one does not fit. In the table of 2^33
buckets the odd ones belong into bucket 2^32, whose number is cut to 0. -/

namespace Collection

open LookupTable

/-- Components of one type, by 32-bit keys. -/
abbrev Numbers : Fin 1 → Type := fun _ => ℕ

/-- Operations that all succeed. -/
def applyAll (c : Collection UInt32 Numbers) :
    List (Operation UInt32 Numbers) → Option (Collection UInt32 Numbers)
  | [] => some c
  | operation :: operations =>
    match c.apply UInt32.toNat .heap operation with
    | .ok (c, true) => applyAll c operations
    | _ => none

theorem applyAll_concat (c : Collection UInt32 Numbers)
    (operations : List (Operation UInt32 Numbers)) (operation : Operation UInt32 Numbers) :
    applyAll c (operations ++ [operation]) =
      (applyAll c operations).bind fun c => applyAll c [operation] := by
  induction operations generalizing c with
  | nil => rfl
  | cons first operations ih =>
    simp only [List.cons_append, applyAll]
    split
    · exact ih _
    · rfl

theorem neZero_one : NeZero 1 := ⟨Nat.one_ne_zero⟩

attribute [local instance] neZero_one

/-- Colliding keys, with their numbers as components. -/
def emplaceColliding (i : ℕ) : Operation UInt32 Numbers := .emplace 0 i (collidingKey i)

theorem applyAll_singleton {c c' : Collection UInt32 Numbers}
    (operation : Operation UInt32 Numbers)
    (h : c.apply UInt32.toNat .heap operation = .ok (c', true)) :
    applyAll c [operation] = some c' := by
  rw [applyAll, h]
  rfl

theorem applyAll_snoc {c c' c'' : Collection UInt32 Numbers}
    {operations : List (Operation UInt32 Numbers)} {operation : Operation UInt32 Numbers}
    (h : applyAll c operations = some c') (h' : applyAll c' [operation] = some c'') :
    applyAll c (operations ++ [operation]) = some c'' := by
  rw [applyAll_concat, h]
  exact h'

theorem applyAll_five : ∃ arrays,
    applyAll (empty .heap) ([1, 2, 3, 4, 5].map emplaceColliding) =
      some ⟨collidingKeys (Slot.set 0) 32 5, arrays⟩ := ⟨_, rfl⟩

/-- In a table of 2^33 buckets the third key is written over the first one. -/
theorem rehash_overflow : ∃ t : LookupTable UInt32 Slot,
    (collidingKeys (Slot.set 0) (2 ^ 32) 5).rehash UInt32.toNat (2 ^ 33) = some t ∧
      t.findEmpty UInt32.toNat (collidingKey 6) = 9 ∧
      ∀ slot, (t.place 9 slot (collidingKey 6)).find UInt32.toNat (collidingKey 1) = noBucket := by
  rw [rehash_collidingKeys_max]
  exact ⟨_, rfl, rfl, fun slot => rfl⟩

end Collection

end Fimbulwinter
