import Fimbulwinter.HeapVector
import Mathlib.Logic.Function.Basic
import Mathlib.Data.UInt

/-! # The lookup table of the collections in `core::container`

Keys and slots in an open addressing table with five probes. Bucket numbers are 32-bit
numbers, of which the largest stands for no bucket. -/
namespace Fimbulwinter

/-- `bucket_t(-1)` -/
def noBucket : ℕ := 2 ^ 32 - 1

/-- `static_cast<bucket_t>` -/
def toBucket (bucket : ℕ) : ℕ := bucket % 2 ^ 32

/-- Keys and slots by bucket; buckets from `size` on are not part of the table. The null
key marks an empty bucket. -/
structure LookupTable (K S : Type*) where
  size : ℕ
  slots : ℕ → S
  keys : ℕ → K

/-- The strategy for the table's storage: on the heap it grows to powers of two, otherwise
it has a fixed capacity. -/
inductive LookupStorage
  | heap
  | fixed (capacity : ℕ)
  deriving DecidableEq, Repr

def LookupStorage.initialSize : LookupStorage → ℕ
  | .heap => clp2 1
  | .fixed capacity => capacity

variable {K S : Type*} [DecidableEq K] [Zero K] (usize : K → ℕ)

/-- `hash_of`: the square of a key's value in 64-bit arithmetic. -/
def hashOf (key : K) (nkeys : ℕ) : ℕ := usize key * usize key % 2 ^ 64 % nkeys

/-- The buckets that are tried, in order. -/
def probes (nkeys first : ℕ) : List ℕ :=
  first :: [1, 2, 3, 4].map fun count => (first + count * count) % nkeys

/-- `find_bucket`: the first of the tried buckets that holds a key. -/
def findBucket (key : K) (keys : ℕ → K) (nkeys first : ℕ) : ℕ :=
  match (probes nkeys first).find? fun bucket => keys bucket = key with
  | some bucket => toBucket bucket
  | none => noBucket

namespace LookupTable

/-- The table without keys. -/
def zero [Zero S] (size : ℕ) : LookupTable K S := ⟨size, fun _ => 0, fun _ => 0⟩

def find (t : LookupTable K S) (key : K) : ℕ :=
  if t.size = 0 then noBucket else findBucket key t.keys t.size (hashOf usize key t.size)

/-- `find_empty_bucket` -/
def findEmpty (t : LookupTable K S) (key : K) : ℕ :=
  if t.size = 0 then noBucket else findBucket 0 t.keys t.size (hashOf usize key t.size)

/-- Write a slot and a key into a bucket. -/
def place (t : LookupTable K S) (bucket : ℕ) (slot : S) (key : K) : LookupTable K S :=
  { t with
    slots := Function.update t.slots bucket slot
    keys := Function.update t.keys bucket key }

/-- One round of the loop of `relocate_rehash`. -/
def rehashBucket (old new : LookupTable K S) (i : ℕ) : Option (LookupTable K S) :=
  if old.keys i = 0 then some new
  else if new.findEmpty usize (old.keys i) = noBucket then none
  else some (new.place (new.findEmpty usize (old.keys i)) (old.slots i) (old.keys i))

/-- `relocate_rehash` -/
def rehash [Zero S] (old : LookupTable K S) (size : ℕ) : Option (LookupTable K S) :=
  (List.range old.size).foldlM (rehashBucket usize old) (zero size)

/-- `try_reserve` of the table, for a capacity above the current one. -/
def tryReserve [Zero S] (t : LookupTable K S) (minCapacity : ℕ) :
    LookupStorage → Option (LookupTable K S)
  | .heap => if clp2 minCapacity < minCapacity then none else t.rehash usize (clp2 minCapacity)
  | .fixed _ => none

/-- The number of times the table may have to grow, and one more. -/
def placeFuel : ℕ := 65

/-- `try_place`: the table grows until one of the tried buckets is empty. -/
def tryPlace [Zero S] (storage : LookupStorage) (key : K) :
    ℕ → LookupTable K S → Except Fault (LookupTable K S × ℕ)
  | 0, _ => .error .outOfFuel
  | n + 1, t =>
    if t.findEmpty usize key = noBucket then
      match t.tryReserve usize (t.size + 1) storage with
      | none => .ok (t, noBucket)
      | some t => tryPlace storage key n t
    else .ok (t, t.findEmpty usize key)

/-! ## Tables whose keys can be found -/

/-- Every key is in one bucket only, which is one of those tried for it. -/
structure Valid (t : LookupTable K S) : Prop where
  size_pos : 0 < t.size
  size_le : t.size ≤ 2 ^ 32
  placed : ∀ b, t.keys b ≠ 0 → b ∈ probes t.size (hashOf usize (t.keys b) t.size) ∧ b ≠ noBucket
  unique : ∀ b b', t.keys b ≠ 0 → t.keys b = t.keys b' → b = b'

/-- A key is in the table with a slot. -/
def Holds (t : LookupTable K S) (key : K) (slot : S) : Prop :=
  ∃ b, t.keys b = key ∧ t.slots b = slot

variable {usize} {t : LookupTable K S} {key : K} {b : ℕ}

omit [DecidableEq K] [Zero K] in
theorem lt_of_mem_probes {nkeys : ℕ} (h : 0 < nkeys)
    (hb : b ∈ probes nkeys (hashOf usize key nkeys)) : b < nkeys := by
  rcases List.mem_cons.mp hb with rfl | hb
  · exact Nat.mod_lt _ h
  · obtain ⟨count, -, rfl⟩ := List.mem_map.mp hb
    exact Nat.mod_lt _ h

omit [DecidableEq K] in
theorem zero_valid [Zero S] {size : ℕ} (h : 0 < size) (hle : size ≤ 2 ^ 32) :
    (zero size : LookupTable K S).Valid usize :=
  ⟨h, hle, fun _ hb => absurd rfl hb, fun _ _ hb => absurd rfl hb⟩

omit [DecidableEq K] in
theorem Valid.lt_size (h : t.Valid usize) (hb : t.keys b ≠ 0) : b < t.size :=
  lt_of_mem_probes h.size_pos (h.placed b hb).1

theorem Valid.find_eq (h : t.Valid usize) (hkey : key ≠ 0) (hb : t.keys b = key) :
    t.find usize key = b := by
  have hb0 : t.keys b ≠ 0 := by rwa [hb]
  obtain ⟨hmem, -⟩ := h.placed b hb0
  rw [hb] at hmem
  have hlt := h.lt_size hb0
  have hsome : ∃ b', (probes t.size (hashOf usize key t.size)).find?
      (fun bucket => t.keys bucket = key) = some b' := by
    rw [← Option.isSome_iff_exists, List.find?_isSome]
    exact ⟨b, hmem, by simpa using hb⟩
  obtain ⟨b', hb'⟩ := hsome
  have hkey' : t.keys b' = key := by simpa using List.find?_some hb'
  have heq : b' = b := h.unique b' b (by rwa [hkey']) (hkey'.trans hb.symm)
  have hle := h.size_le
  rw [find, if_neg (Nat.pos_iff_ne_zero.mp h.size_pos), findBucket, hb', heq]
  exact Nat.mod_eq_of_lt (by omega)

omit [Zero K] in
theorem find_eq_noBucket (h : ∀ b, t.keys b ≠ key) : t.find usize key = noBucket := by
  have hnone : (probes t.size (hashOf usize key t.size)).find?
      (fun bucket => t.keys bucket = key) = none :=
    List.find?_eq_none.mpr fun b _ => by simpa using h b
  rw [find, findBucket, hnone]
  exact ite_self _

/-- A nonzero key is found exactly when some bucket holds it. -/
theorem Valid.find_ne_noBucket_iff (h : t.Valid usize) (hkey : key ≠ 0) :
    t.find usize key ≠ noBucket ↔ ∃ b, t.keys b = key := by
  constructor
  · intro hfind
    by_contra hnot
    exact hfind (find_eq_noBucket fun b hb => hnot ⟨b, hb⟩)
  · rintro ⟨b, hb⟩
    rw [h.find_eq hkey hb]
    exact (h.placed b (by rwa [hb])).2

theorem findEmpty_spec (hsize : 0 < t.size) (hle : t.size ≤ 2 ^ 32)
    (h : t.findEmpty usize key ≠ noBucket) : t.keys (t.findEmpty usize key) = 0 ∧
      t.findEmpty usize key ∈ probes t.size (hashOf usize key t.size) := by
  unfold findEmpty findBucket at h ⊢
  simp only [Nat.pos_iff_ne_zero.mp hsize, if_false] at h ⊢
  cases hf : (probes t.size (hashOf usize key t.size)).find? (fun bucket => t.keys bucket = 0) with
  | none => simp [hf] at h
  | some b =>
    have hmem := List.mem_of_find?_eq_some hf
    have hlt := lt_of_mem_probes hsize hmem
    have hb : toBucket b = b := Nat.mod_eq_of_lt (by omega)
    simp only [hb]
    exact ⟨by simpa using List.find?_some hf, hmem⟩

omit [Zero K] in
/-- Placing a new key in an empty bucket. -/
theorem holds_place [Zero K] {slot : S} (hempty : t.keys b = 0) (hnew : ∀ b, t.keys b ≠ key)
    {key' : K} (hkey' : key' ≠ 0) {slot' : S} :
    (t.place b slot key).Holds key' slot' ↔
      if key' = key then slot' = slot else t.Holds key' slot' := by
  constructor
  · rintro ⟨b', hk, hs⟩
    by_cases hb : b' = b
    · subst hb
      simp only [place, Function.update_self] at hk hs
      simp [← hk, ← hs]
    · simp only [place, Function.update_of_ne hb] at hk hs
      have hne : key' ≠ key := fun h => hnew b' (hk.trans h)
      simpa [hne] using ⟨b', hk, hs⟩
  · split_ifs with hk
    · rintro rfl
      exact ⟨b, by simp [place, hk], by simp [place]⟩
    · rintro ⟨b', hk', hs⟩
      have hb : b' ≠ b := by
        rintro rfl
        exact hkey' (hk'.symm.trans hempty)
      exact ⟨b', by simpa [place, Function.update_of_ne hb] using hk',
        by simpa [place, Function.update_of_ne hb] using hs⟩

omit [DecidableEq K] in
theorem Valid.place (h : t.Valid usize) (slot : S) (hb : b ≠ noBucket)
    (hmem : b ∈ probes t.size (hashOf usize key t.size)) (hnew : ∀ b, t.keys b ≠ key) :
    (t.place b slot key).Valid usize := by
  refine ⟨h.size_pos, h.size_le, fun b' hb' => ?_, fun b₁ b₂ h₁ heq => ?_⟩
  · by_cases hbb : b' = b
    · subst hbb
      simp only [LookupTable.place, Function.update_self]
      exact ⟨hmem, hb⟩
    · simp only [LookupTable.place, Function.update_of_ne hbb] at hb' ⊢
      exact h.placed b' hb'
  · simp only [LookupTable.place, Function.update_apply] at h₁ heq
    split_ifs at h₁ heq with hb₁ hb₂ hb₂
    · rw [hb₁, hb₂]
    · exact absurd heq.symm (hnew b₂)
    · exact absurd heq (hnew b₁)
    · exact h.unique b₁ b₂ h₁ heq

omit [DecidableEq K] in
/-- The slot of a key is written again. -/
theorem Valid.replace (h : t.Valid usize) (slot : S) (hb : t.keys b = key) :
    (t.place b slot key).Valid usize := by
  have hkeys : Function.update t.keys b key = t.keys := hb ▸ Function.update_eq_self b t.keys
  rw [LookupTable.place, hkeys]
  exact { h with }

omit [DecidableEq K] in
/-- A key is taken out of its bucket. -/
theorem Valid.vacate {slots : ℕ → S} (h : t.Valid usize) (b : ℕ) :
    Valid usize ⟨t.size, slots, Function.update t.keys b 0⟩ := by
  refine ⟨h.size_pos, h.size_le, fun b' hb' => ?_, fun b₁ b₂ h₁ heq => ?_⟩
  · simp only [Function.update_apply] at hb' ⊢
    split_ifs at hb' ⊢ with hbb
    · exact absurd rfl hb'
    · exact h.placed b' hb'
  · simp only [Function.update_apply] at h₁ heq
    split_ifs at h₁ heq with hb₁ hb₂ hb₂
    · exact absurd rfl h₁
    · exact absurd rfl h₁
    · exact absurd heq h₁
    · exact h.unique b₁ b₂ h₁ heq

/-! ## Growing -/

theorem size_foldlM_rehashBucket {old new new' : LookupTable K S} {buckets : List ℕ}
    (h : buckets.foldlM (rehashBucket usize old) new = some new') : new'.size = new.size := by
  induction buckets generalizing new with
  | nil =>
    cases h
    rfl
  | cons i buckets ih =>
    simp only [List.foldlM_cons, Option.bind_eq_bind, Option.bind_eq_some_iff] at h
    obtain ⟨mid, hmid, hrest⟩ := h
    rw [ih hrest]
    unfold rehashBucket at hmid
    split_ifs at hmid <;> cases hmid <;> rfl

/-- Rehashing some buckets into a new table moves their keys there with their slots. -/
theorem rehash_spec {old new new' : LookupTable K S} {done rest : List ℕ} (hold : old.Valid usize)
    (hnew : new.Valid usize) (hnodup : (done ++ rest).Nodup)
    (hdone : ∀ key slot, key ≠ 0 →
      (new.Holds key slot ↔ ∃ b ∈ done, old.keys b = key ∧ old.slots b = slot))
    (h : rest.foldlM (rehashBucket usize old) new = some new') :
    new'.Valid usize ∧ ∀ key slot, key ≠ 0 →
      (new'.Holds key slot ↔ ∃ b ∈ done ++ rest, old.keys b = key ∧ old.slots b = slot) := by
  induction rest generalizing new done with
  | nil =>
    cases h
    exact ⟨hnew, by simpa using hdone⟩
  | cons i rest ih =>
    have hassoc : done ++ i :: rest = (done ++ [i]) ++ rest := by simp
    have hi : i ∉ done := fun hmem =>
      (List.nodup_append.mp hnodup).2.2 i hmem i List.mem_cons_self rfl
    rw [hassoc] at hnodup ⊢
    simp only [List.foldlM_cons, Option.bind_eq_bind, Option.bind_eq_some_iff] at h
    obtain ⟨mid, hmid, hrest⟩ := h
    unfold rehashBucket at hmid
    split_ifs at hmid with hempty hfull
    · cases hmid
      refine ih hnew hnodup (fun key slot hkey => ?_) hrest
      rw [hdone key slot hkey]
      constructor
      · rintro ⟨b, hb, hk⟩
        exact ⟨b, List.mem_append_left _ hb, hk⟩
      · rintro ⟨b, hb, hk, hs⟩
        rcases List.mem_append.mp hb with hb | hb
        · exact ⟨b, hb, hk, hs⟩
        · rw [List.mem_singleton.mp hb] at hk
          exact absurd (hk.symm.trans hempty) hkey
    · cases hmid
      obtain ⟨hzero, hmem⟩ := findEmpty_spec hnew.size_pos hnew.size_le hfull
      -- The key of bucket `i` is not in the new table yet, since no other bucket holds it.
      have hfresh : ∀ b, new.keys b ≠ old.keys i := fun b hb => by
        obtain ⟨b', hb', hk, -⟩ := (hdone _ _ hempty).mp ⟨b, hb, rfl⟩
        exact hi (hold.unique i b' hempty hk.symm ▸ hb')
      have hplaced := hnew.place (old.slots i) hfull hmem hfresh
      refine ih hplaced hnodup (fun key slot hkey => ?_) hrest
      rw [holds_place hzero hfresh hkey]
      split_ifs with hk
      · subst hk
        constructor
        · rintro rfl
          exact ⟨i, by simp, rfl, rfl⟩
        · rintro ⟨b, -, hk, hs⟩
          rw [← hs, hold.unique b i (by rwa [hk]) hk]
      · rw [hdone key slot hkey]
        constructor
        · rintro ⟨b, hb, hk⟩
          exact ⟨b, List.mem_append_left _ hb, hk⟩
        · rintro ⟨b, hb, hk', hs⟩
          rcases List.mem_append.mp hb with hb | hb
          · exact ⟨b, hb, hk', hs⟩
          · rw [List.mem_singleton.mp hb] at hk'
            exact absurd hk'.symm hk

variable [Zero S]

theorem Valid.rehash {t' : LookupTable K S} {size : ℕ} (h : t.Valid usize) (hsize : 0 < size)
    (hle : size ≤ 2 ^ 32) (ht : t.rehash usize size = some t') :
    t'.Valid usize ∧ t'.size = size ∧
      ∀ key slot, key ≠ 0 → (t'.Holds key slot ↔ t.Holds key slot) := by
  obtain ⟨hvalid, hholds⟩ := rehash_spec h (zero_valid hsize hle)
    (show ([] ++ List.range t.size).Nodup from List.nodup_range)
    (fun key slot hkey => ⟨fun ⟨b, hb, _⟩ => absurd hb.symm hkey, by simp⟩) ht
  refine ⟨hvalid, size_foldlM_rehashBucket ht, fun key slot hkey => (hholds key slot hkey).trans ?_⟩
  constructor
  · rintro ⟨b, -, hb⟩
    exact ⟨b, hb⟩
  · rintro ⟨b, hk, hs⟩
    exact ⟨b, by simpa using h.lt_size (by rwa [hk]), hk, hs⟩

/-- One of the buckets tried for a key is empty before the table would have to grow beyond
the bucket numbers. -/
inductive HasRoom (usize : K → ℕ) (storage : LookupStorage) (key : K) : LookupTable K S → Prop
  | empty {t : LookupTable K S} (h : t.findEmpty usize key ≠ noBucket) :
    HasRoom usize storage key t
  | grown {t t' : LookupTable K S} (h : t.tryReserve usize (t.size + 1) storage = some t')
      (hle : t'.size ≤ 2 ^ 32) (room : HasRoom usize storage key t') : HasRoom usize storage key t

theorem Valid.tryReserve {storage : LookupStorage} {t' : LookupTable K S} (h : t.Valid usize)
    (ht : t.tryReserve usize (t.size + 1) storage = some t') (hle : t'.size ≤ 2 ^ 32) :
    t'.Valid usize ∧ ∀ key slot, key ≠ 0 → (t'.Holds key slot ↔ t.Holds key slot) := by
  cases storage with
  | fixed capacity => simp [LookupTable.tryReserve] at ht
  | heap =>
    simp only [LookupTable.tryReserve] at ht
    split_ifs at ht with hlt
    have hsize : t'.size = clp2 (t.size + 1) := size_foldlM_rehashBucket ht
    obtain ⟨hvalid, -, hholds⟩ := h.rehash (by omega) (hsize ▸ hle) ht
    exact ⟨hvalid, hholds⟩

theorem Valid.tryPlace {storage : LookupStorage} {n : ℕ} {t' : LookupTable K S} (h : t.Valid usize)
    (hroom : t.HasRoom usize storage key) (ht : tryPlace usize storage key n t = .ok (t', b)) :
    t'.Valid usize ∧ b ≠ noBucket ∧ t'.keys b = 0 ∧
      b ∈ probes t'.size (hashOf usize key t'.size) ∧
      ∀ key slot, key ≠ 0 → (t'.Holds key slot ↔ t.Holds key slot) := by
  induction n generalizing t with
  | zero => simp [LookupTable.tryPlace] at ht
  | succ n ih =>
    simp only [LookupTable.tryPlace] at ht
    split_ifs at ht with hfull
    · cases hroom with
      | empty hempty => exact absurd hfull hempty
      | grown hgrown hle room =>
        rw [hgrown] at ht
        obtain ⟨hvalid, hholds⟩ := h.tryReserve hgrown hle
        obtain ⟨hvalid', hb, hzero, hmem, hholds'⟩ := ih hvalid room ht
        exact ⟨hvalid', hb, hzero, hmem, fun key slot hkey =>
          (hholds' key slot hkey).trans (hholds key slot hkey)⟩
    · cases ht
      obtain ⟨hzero, hmem⟩ := findEmpty_spec h.size_pos h.size_le hfull
      exact ⟨h, hfull, hzero, hmem, fun _ _ _ => Iff.rfl⟩

/-! ## Empty buckets -/

/-- The slots of empty buckets have a property. -/
def Blank (t : LookupTable K S) (p : S → Prop) : Prop := ∀ b, t.keys b = 0 → p (t.slots b)

omit [DecidableEq K] in
theorem zero_blank {p : S → Prop} (hp : p 0) (size : ℕ) : (zero size : LookupTable K S).Blank p :=
  fun _ _ => hp

omit [DecidableEq K] [Zero S] in
theorem Blank.place {p : S → Prop} (h : t.Blank p) (slot : S) (hkey : key ≠ 0) :
    (t.place b slot key).Blank p := by
  intro b' hb'
  by_cases hbb : b' = b
  · subst hbb
    simp only [LookupTable.place, Function.update_self] at hb'
    exact absurd hb' hkey
  · simp only [LookupTable.place, Function.update_of_ne hbb] at hb' ⊢
    exact h b' hb'

omit [Zero S] in
theorem Blank.foldlM_rehashBucket {p : S → Prop} {old new new' : LookupTable K S}
    {buckets : List ℕ} (h : new.Blank p)
    (hnew : buckets.foldlM (rehashBucket usize old) new = some new') : new'.Blank p := by
  induction buckets generalizing new with
  | nil =>
    cases hnew
    exact h
  | cons i buckets ih =>
    simp only [List.foldlM_cons, Option.bind_eq_bind, Option.bind_eq_some_iff] at hnew
    obtain ⟨mid, hmid, hrest⟩ := hnew
    refine ih ?_ hrest
    unfold rehashBucket at hmid
    split_ifs at hmid with hempty
    · cases hmid
      exact h
    · cases hmid
      exact h.place _ hempty

theorem Blank.tryPlace {p : S → Prop} (hp : p 0) {storage : LookupStorage} {n : ℕ}
    {t' : LookupTable K S} (h : t.Blank p)
    (ht : tryPlace usize storage key n t = .ok (t', b)) : t'.Blank p := by
  induction n generalizing t with
  | zero => simp [LookupTable.tryPlace] at ht
  | succ n ih =>
    simp only [LookupTable.tryPlace] at ht
    split_ifs at ht
    · split at ht
      · cases ht
        exact h
      next grown hgrown =>
        refine ih ?_ ht
        cases storage with
        | fixed capacity => simp [LookupTable.tryReserve] at hgrown
        | heap =>
          simp only [LookupTable.tryReserve] at hgrown
          split_ifs at hgrown
          exact (zero_blank hp _).foldlM_rehashBucket hgrown
    · cases ht
      exact h

end LookupTable

end Fimbulwinter
