import Fimbulwinter.LookupTable
import Mathlib.Tactic.IntervalCases

/-! # Growing lookup tables

A table on the heap doubles until a key finds room, or the capacity overflows. Bucket
numbers are 32-bit numbers, and a table of more than 2^32 buckets can lose keys. -/
namespace Fimbulwinter

variable {K S : Type*} [DecidableEq K] [Zero K] [Zero S]

/-- The lookup table starts with at least one and at most 2^32 buckets. -/
def LookupStorage.Fits : LookupStorage → Prop
  | .heap => True
  | .fixed capacity => 0 < capacity ∧ capacity ≤ 2 ^ 32

theorem clp2_one : clp2 1 = 1 := by decide +kernel

theorem LookupStorage.Fits.initialSize_pos {storage : LookupStorage} (h : storage.Fits) :
    0 < storage.initialSize := by
  cases storage with
  | heap => simp [LookupStorage.initialSize, clp2_one]
  | fixed capacity => exact h.1

theorem LookupStorage.Fits.initialSize_le {storage : LookupStorage} (h : storage.Fits) :
    storage.initialSize ≤ 2 ^ 32 := by
  cases storage with
  | heap => simp [LookupStorage.initialSize, clp2_one]
  | fixed capacity => exact h.2

theorem clp2_succ_two_pow : ∀ k < 63, clp2 (2 ^ k + 1) = 2 ^ (k + 1) := by decide +kernel

theorem clp2_overflow : clp2 (2 ^ 63 + 1) = 0 := by decide +kernel

/-- A capacity above a power of two is the next power of two, if there is one. -/
theorem clp2_doubles {size capacity k : ℕ} (hsize : size = 2 ^ k) (hk : k < 64)
    (hcapacity : capacity = clp2 (size + 1)) (hle : ¬ capacity < size + 1) :
    k < 63 ∧ capacity = 2 ^ (k + 1) := by
  rw [hsize] at hle hcapacity
  rcases Nat.lt_or_eq_of_le (Nat.le_of_lt_succ hk) with hk' | rfl
  · exact ⟨hk', hcapacity.trans (clp2_succ_two_pow k hk')⟩
  · rw [clp2_overflow] at hcapacity
    rw [hcapacity] at hle
    exact absurd (Nat.succ_pos _) hle

/-- On the heap the number of buckets is a 64-bit power of two. -/
def LookupStorage.Admits (size : ℕ) : LookupStorage → Prop
  | .heap => ∃ k < 64, size = 2 ^ k
  | .fixed _ => True

namespace LookupTable

variable {usize : K → ℕ} {storage : LookupStorage}

theorem tryReserve_heap {t t' : LookupTable K S} {k : ℕ} (hsize : t.size = 2 ^ k) (hk : k < 64)
    (h : t.tryReserve usize (t.size + 1) .heap = some t') : k < 63 ∧ t'.size = 2 ^ (k + 1) := by
  unfold tryReserve at h
  split_ifs at h with hlt
  have hcapacity : t'.size = clp2 (t.size + 1) := size_foldlM_rehashBucket h
  exact clp2_doubles hsize hk hcapacity (hcapacity ▸ hlt)

/-- Every round doubles the table, so `try_place` ends. -/
theorem tryPlace_ok {t : LookupTable K S} {k m : ℕ} (key : K)
    (hdoubles : ∀ {t t' : LookupTable K S} {k : ℕ}, t.size = 2 ^ k → k < 64 →
      t.tryReserve usize (t.size + 1) storage = some t' → k < 63 ∧ t'.size = 2 ^ (k + 1))
    (hsize : t.size = 2 ^ k) (hk : k < 64) (hm : 64 ≤ k + m) :
    ∃ t' b, tryPlace usize storage key m t = .ok (t', b) ∧ ∃ k < 64, t'.size = 2 ^ k := by
  induction m generalizing t k with
  | zero => omega
  | succ m ih =>
    simp only [tryPlace]
    split_ifs
    · split
      · exact ⟨t, _, rfl, k, hk, hsize⟩
      next t' ht' =>
        obtain ⟨hk', hsize'⟩ := hdoubles hsize hk ht'
        exact ih hsize' (Nat.succ_lt_succ hk') (by omega)
    · exact ⟨t, _, rfl, k, hk, hsize⟩

variable (usize) in
theorem tryPlace_fixed (t : LookupTable K S) (key : K) (capacity m : ℕ) :
    ∃ b, tryPlace usize (.fixed capacity) key (m + 1) t = .ok (t, b) := by
  simp only [tryPlace, tryReserve]
  split_ifs <;> exact ⟨_, rfl⟩

variable (usize) in
theorem tryPlace_admits {t : LookupTable K S} (key : K) (h : storage.Admits t.size) :
    ∃ t' b, tryPlace usize storage key placeFuel t = .ok (t', b) ∧
      storage.Admits t'.size := by
  cases storage with
  | heap =>
    obtain ⟨k, hk, hsize⟩ := h
    exact tryPlace_ok key tryReserve_heap hsize hk (by rw [placeFuel]; omega)
  | fixed capacity =>
    obtain ⟨b, hb⟩ := tryPlace_fixed usize t key capacity 64
    exact ⟨t, b, hb, trivial⟩

/-! ## A key that is lost

The squares of the multiples of 2^16 are multiples of 2^32. The keys collide in every
table of up to 2^32 buckets, and the sixth one does not fit. In the table of 2^33
buckets the odd ones belong into bucket 2^32, whose number is cut to 0. -/

theorem tryPlace_full {storage : LookupStorage} {key : K} {m : ℕ} {t t' : LookupTable K S}
    (hfull : t.findEmpty usize key = noBucket)
    (hgrown : t.tryReserve usize (t.size + 1) storage = some t') :
    tryPlace usize storage key (m + 1) t = tryPlace usize storage key m t' := by
  rw [tryPlace, if_pos hfull, hgrown]

theorem tryPlace_empty {storage : LookupStorage} {key : K} {m : ℕ} {t : LookupTable K S}
    (hempty : t.findEmpty usize key ≠ noBucket) :
    tryPlace usize storage key (m + 1) t = .ok (t, t.findEmpty usize key) := by
  rw [tryPlace, if_neg hempty]

omit [Zero S] in
/-- Empty buckets do not matter for rehashing. -/
theorem foldlM_rehashBucket_filter (old new : LookupTable K S) (buckets : List ℕ) :
    buckets.foldlM (rehashBucket usize old) new =
      (buckets.filter fun b => old.keys b ≠ 0).foldlM (rehashBucket usize old) new := by
  induction buckets generalizing new with
  | nil => rfl
  | cons b buckets ih =>
    by_cases hb : old.keys b = 0
    · have hstep : rehashBucket usize old new b = some new := if_pos hb
      rw [List.foldlM_cons, hstep, List.filter_cons_of_neg (by simpa using hb)]
      exact ih new
    · rw [List.filter_cons_of_pos (by simpa using hb), List.foldlM_cons, List.foldlM_cons]
      exact congrArg _ (funext ih)

omit [Zero S] in
theorem rehashBucket_of_findEmpty {old new : LookupTable K S} {i b : ℕ} (hkey : old.keys i ≠ 0)
    (hfind : new.findEmpty usize (old.keys i) = b) (hb : b ≠ noBucket) :
    rehashBucket usize old new i = some (new.place b (old.slots i) (old.keys i)) := by
  subst hfind
  rw [rehashBucket, if_neg hkey, if_neg hb]

def collidingKey (i : ℕ) : UInt32 := UInt32.ofNat (i * 2 ^ 16)

/-- The first colliding keys in a table, where the probes for bucket 0 put them. -/
def collidingKeys (slot : ℕ → S) (size : ℕ) : ℕ → LookupTable UInt32 S
  | 0 => zero size
  | j + 1 => (collidingKeys slot size j).place (j * j) (slot j) (collidingKey (j + 1))

variable {slot : ℕ → S}

theorem size_collidingKeys (size j : ℕ) : (collidingKeys slot size j).size = size := by
  induction j with
  | zero => rfl
  | succ j ih => exact ih

theorem probes_collidingKey {i m : ℕ} (hi : i < 7) (h5 : 5 ≤ m) (hm : m ≤ 32) :
    probes (2 ^ m) (hashOf UInt32.toNat (collidingKey i) (2 ^ m)) = [0, 1, 4, 9, 16] := by
  have hsquare : ∀ i < 7, (collidingKey i).toNat * (collidingKey i).toNat % 2 ^ 64 =
      i * i * 2 ^ 32 := by decide +kernel
  have hhash : hashOf UInt32.toNat (collidingKey i) (2 ^ m) = 0 := by
    rw [hashOf, hsquare i hi]
    exact Nat.mod_eq_zero_of_dvd (Dvd.dvd.mul_left (Nat.pow_dvd_pow 2 hm) _)
  have hlarge : 2 ^ 5 ≤ 2 ^ m := Nat.pow_le_pow_right Nat.two_pos h5
  have hsmall : ∀ b < 32, b % 2 ^ m = b := fun b hb => Nat.mod_eq_of_lt (by omega)
  rw [hhash]
  simp [probes, hsmall]

omit [Zero S] in
theorem findEmpty_collidingKey {t : LookupTable UInt32 S} {i m : ℕ} (hi : i < 7) (h5 : 5 ≤ m)
    (hm : m ≤ 32) (hsize : t.size = 2 ^ m) : t.findEmpty UInt32.toNat (collidingKey i) =
      (([0, 1, 4, 9, 16].find? fun bucket => t.keys bucket = 0).map toBucket).getD noBucket := by
  have hpos : 2 ^ m ≠ 0 := Nat.pos_iff_ne_zero.mp (Nat.two_pow_pos m)
  rw [findEmpty, hsize, if_neg hpos, findBucket, probes_collidingKey hi h5 hm]
  cases [0, 1, 4, 9, 16].find? fun bucket => t.keys bucket = 0 <;> rfl

theorem filter_collidingKeys {size : ℕ} (h : 17 ≤ size) :
    (List.range size).filter (fun b => (collidingKeys slot size 5).keys b ≠ 0) = [0, 1, 4, 9, 16] := by
  have hrest : ∀ b ≥ 17, (collidingKeys slot size 5).keys b = 0 := fun b hb => by
    simp only [collidingKeys, place, zero]
    repeat rw [Function.update_of_ne (by omega)]
  obtain ⟨rest, hsize⟩ := Nat.exists_eq_add_of_le h
  have hnil : ((List.range rest).map (17 + ·)).filter
      (fun b => (collidingKeys slot size 5).keys b ≠ 0) = [] := by
    refine List.filter_eq_nil_iff.mpr fun b hb => ?_
    obtain ⟨b', -, rfl⟩ := List.mem_map.mp hb
    simpa using hrest (17 + b') (Nat.le_add_right 17 b')
  have hrange : List.range size = List.range 17 ++ (List.range rest).map (17 + ·) := by
    rw [hsize, List.range_add]
  rw [hrange, List.filter_append, hnil]
  rfl

/-- The next of the five keys is put where it was. -/
theorem rehashBucket_collidingKeys {j m size : ℕ} (hj : j < 5) (h5 : 5 ≤ m) (hm : m ≤ 32) :
    rehashBucket UInt32.toNat (collidingKeys slot size 5) (collidingKeys slot (2 ^ m) j) (j * j) =
      some (collidingKeys slot (2 ^ m) (j + 1)) := by
  have hkey : (collidingKeys slot size 5).keys (j * j) = collidingKey (j + 1) := by
    interval_cases j <;> rfl
  have hslot : (collidingKeys slot size 5).slots (j * j) = slot j := by
    interval_cases j <;> rfl
  have hfind : (collidingKeys slot (2 ^ m) j).findEmpty UInt32.toNat (collidingKey (j + 1)) = j * j := by
    rw [findEmpty_collidingKey (by omega) h5 hm (size_collidingKeys _ j)]
    interval_cases j <;> rfl
  have hzero : collidingKey (j + 1) ≠ 0 := by
    interval_cases j <;> decide
  have hbucket : j * j ≠ noBucket := by
    interval_cases j <;> decide
  rw [rehashBucket_of_findEmpty (b := j * j) (by rwa [hkey]) (by rw [hkey, hfind]) hbucket, hkey,
    hslot]
  rfl

/-- In tables of up to 2^32 buckets the five keys keep their buckets. -/
theorem rehash_collidingKeys {m : ℕ} (h5 : 5 ≤ m) (hm : m < 32) :
    (collidingKeys slot (2 ^ m) 5).rehash UInt32.toNat (2 ^ (m + 1)) =
      some (collidingKeys slot (2 ^ (m + 1)) 5) := by
  have hlarge : 17 ≤ 2 ^ m :=
    Nat.le_trans (by decide) (Nat.pow_le_pow_right Nat.two_pos h5 : 2 ^ 5 ≤ 2 ^ m)
  have hstep : ∀ j < 5, rehashBucket UInt32.toNat (collidingKeys slot (2 ^ m) 5)
      (collidingKeys slot (2 ^ (m + 1)) j) (j * j) = some (collidingKeys slot (2 ^ (m + 1)) (j + 1)) :=
    fun j hj => rehashBucket_collidingKeys hj (Nat.le_succ_of_le h5) hm
  rw [rehash, foldlM_rehashBucket_filter, size_collidingKeys, filter_collidingKeys hlarge]
  have h0 := hstep 0 (by decide)
  have h1 := hstep 1 (by decide)
  have h2 := hstep 2 (by decide)
  have h3 := hstep 3 (by decide)
  have h4 := hstep 4 (by decide)
  simp only [Nat.mul_zero, Nat.mul_one, Nat.reduceMul, Nat.reduceAdd] at h0 h1 h2 h3 h4
  simp only [List.foldlM_cons, List.foldlM_nil, Option.bind_eq_bind]
  change (rehashBucket _ _ (collidingKeys slot _ 0) 0).bind _ = _
  simp only [h0, h1, h2, h3, h4, Option.bind_some]
  rfl

theorem tryReserve_heap_eq {t : LookupTable UInt32 S} {size : ℕ} (hsize : clp2 (t.size + 1) = size)
    (hle : ¬ size < t.size + 1) :
    t.tryReserve UInt32.toNat (t.size + 1) .heap = t.rehash UInt32.toNat size := by
  rw [tryReserve, hsize, if_neg hle]

/-- The sixth key finds no room, and the table doubles. -/
theorem tryPlace_collidingKeys {k m : ℕ} (h5 : 5 ≤ k) (hk : k < 32) :
    tryPlace UInt32.toNat .heap (collidingKey 6) (m + 1) (collidingKeys slot (2 ^ k) 5) =
      tryPlace UInt32.toNat .heap (collidingKey 6) m (collidingKeys slot (2 ^ (k + 1)) 5) := by
  have hlt : 2 ^ k < 2 ^ (k + 1) := Nat.pow_lt_pow_right Nat.one_lt_two (Nat.lt_succ_self k)
  have hclp2 : clp2 ((collidingKeys slot (2 ^ k) 5).size + 1) = 2 ^ (k + 1) := by
    rw [size_collidingKeys]
    exact clp2_succ_two_pow k (Nat.lt_trans hk (by decide))
  refine tryPlace_full ?_ ?_
  · rw [findEmpty_collidingKey (by decide) h5 (Nat.le_of_lt hk) (size_collidingKeys _ 5)]
    rfl
  · rw [tryReserve_heap_eq hclp2 (by rw [size_collidingKeys]; exact Nat.not_lt.mpr hlt)]
    exact rehash_collidingKeys h5 hk

theorem tryPlace_collidingKeys_max (m : ℕ) {d : ℕ} (hd : d ≤ 27) :
    tryPlace UInt32.toNat .heap (collidingKey 6) (m + d) (collidingKeys slot (2 ^ (32 - d)) 5) =
      tryPlace UInt32.toNat .heap (collidingKey 6) m (collidingKeys slot (2 ^ 32) 5) := by
  induction d with
  | zero => rfl
  | succ d ih =>
    have hsucc : 32 - (d + 1) + 1 = 32 - d := by omega
    rw [← Nat.add_assoc, tryPlace_collidingKeys (by omega) (by omega), hsucc]
    exact ih (Nat.le_of_succ_le hd)

/-- Rehashing into 2^33 buckets only looks at the five keys. -/
theorem rehash_collidingKeys_max : (collidingKeys slot (2 ^ 32) 5).rehash UInt32.toNat (2 ^ 33) =
    [0, 1, 4, 9, 16].foldlM (rehashBucket UInt32.toNat (collidingKeys slot (2 ^ 32) 5))
      (zero (2 ^ 33)) := by
  rw [rehash, foldlM_rehashBucket_filter, size_collidingKeys, filter_collidingKeys (by decide)]

/-- The sixth key is placed in a table of 2^33 buckets. -/
theorem tryPlace_collidingKeys_overflow {t : LookupTable UInt32 S}
    (hrehash : (collidingKeys slot (2 ^ 32) 5).rehash UInt32.toNat (2 ^ 33) = some t)
    (hempty : t.findEmpty UInt32.toNat (collidingKey 6) = 9) :
    tryPlace UInt32.toNat .heap (collidingKey 6) placeFuel (collidingKeys slot 32 5) =
      .ok (t, 9) := by
  have hgrown : (collidingKeys slot (2 ^ 32) 5).tryReserve UInt32.toNat
      ((collidingKeys slot (2 ^ 32) 5).size + 1) .heap = some t := by
    have hclp2 : clp2 ((collidingKeys slot (2 ^ 32) 5).size + 1) = 2 ^ 33 := by
      rw [size_collidingKeys]
      exact clp2_succ_two_pow 32 (by decide)
    have hle : ¬ 2 ^ 33 < (collidingKeys slot (2 ^ 32) 5).size + 1 := by
      rw [size_collidingKeys]
      norm_num
    rw [tryReserve_heap_eq hclp2 hle]
    exact hrehash
  have hfull : (collidingKeys slot (2 ^ 32) 5).findEmpty UInt32.toNat (collidingKey 6) = noBucket := by
    rw [findEmpty_collidingKey (by decide) (by decide) (Nat.le_refl 32) (size_collidingKeys _ 5)]
    rfl
  have hbucket : t.findEmpty UInt32.toNat (collidingKey 6) ≠ noBucket := by
    rw [hempty]
    decide
  have hgrows := @tryPlace_collidingKeys_max S _ slot 38 27 (Nat.le_refl 27)
  rw [tryPlace_full hfull hgrown, tryPlace_empty hbucket, hempty] at hgrows
  exact hgrows

end LookupTable

end Fimbulwinter
