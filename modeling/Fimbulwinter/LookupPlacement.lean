import Fimbulwinter.LookupOverflow

/-! # Placing keys while memory lasts

`try_place` with an allocator that may fail. A key is placed unless the allocator fails, if
the keys can be spread over the larger tables that it asks for. -/
namespace Fimbulwinter.LookupTable

variable {K S : Type*} [DecidableEq K] [Zero K] [Zero S]

section Placement

variable (usize : K → ℕ) (allocates : ℕ → Bool)

/-- `try_reserve` of the table, for a capacity above the current one. -/
def tryReserveIf (t : LookupTable K S) (minCapacity : ℕ) :
    LookupStorage → Option (LookupTable K S)
  | .heap =>
    if clp2 minCapacity < minCapacity then none
    else if allocates (clp2 minCapacity) then t.rehash usize (clp2 minCapacity) else none
  | .fixed _ => none

/-- `try_place` -/
def tryPlaceIf (storage : LookupStorage) (key : K) :
    ℕ → LookupTable K S → Except Fault (LookupTable K S × ℕ)
  | 0, _ => .error .outOfFuel
  | n + 1, t =>
    if t.findEmpty usize key = noBucket then
      match t.tryReserveIf usize allocates (t.size + 1) storage with
      | none => .ok (t, noBucket)
      | some t => tryPlaceIf storage key n t
    else .ok (t, t.findEmpty usize key)

omit [DecidableEq K] [Zero K] [Zero S] in
/-- There is memory for a larger table. -/
def MoreMemory (t : LookupTable K S) : LookupStorage → Prop
  | .heap => t.size + 1 ≤ clp2 (t.size + 1) ∧ allocates (clp2 (t.size + 1)) = true
  | .fixed _ => False

/-- The table keeps its keys, and the new one gets a bucket under which it is found, unless there is
no more memory. -/
def Places (storage : LookupStorage) (key : K) (m : ℕ) (t : LookupTable K S) : Prop :=
  ∃ t' b, tryPlaceIf usize allocates storage key m t = .ok (t', b) ∧ t'.Valid usize ∧
    (∀ key slot, key ≠ 0 → (t'.Holds key slot ↔ t.Holds key slot)) ∧
    (b = noBucket → ¬ t'.MoreMemory allocates storage) ∧
    (b ≠ noBucket → ∀ slot, (t'.place b slot key).Valid usize ∧
      (t'.place b slot key).find usize key = b ∧
      ∀ key' slot', key' ≠ 0 → ((t'.place b slot key).Holds key' slot' ↔
        if key' = key then slot' = slot else t.Holds key' slot'))

/-- One key after another finds a free one of its five buckets. -/
inductive Spreads (size : ℕ) : List K → List ℕ → Prop
  | nil {taken : List ℕ} : Spreads size [] taken
  | cons {key : K} {keys : List K} {taken : List ℕ} {b : ℕ}
    (hb : (probes size (hashOf usize key size)).find? (fun bucket => bucket ∉ taken) = some b)
    (hne : b ≠ noBucket) (rest : Spreads size keys (b :: taken)) : Spreads size (key :: keys) taken

/-- The keys in a table, in the order of their buckets. -/
def keyList (t : LookupTable K S) : List K := ((List.range t.size).map t.keys).filter (· ≠ 0)

/-- While a key finds no room and there is more memory, the keys in the table can be spread over
twice as many buckets, and the buckets have numbers. -/
inductive KeepsSpreading (storage : LookupStorage) (key : K) : LookupTable K S → Prop
  | room {t : LookupTable K S} (h : t.findEmpty usize key ≠ noBucket) : KeepsSpreading storage key t
  | exhausted {t : LookupTable K S} (h : ¬ t.MoreMemory allocates storage) :
    KeepsSpreading storage key t
  | grown {t : LookupTable K S} (hle : 2 * t.size ≤ 2 ^ 32)
    (hspreads : Spreads usize (2 * t.size) t.keyList [])
    (next : ∀ t', t.rehash usize (2 * t.size) = some t' → KeepsSpreading storage key t') :
    KeepsSpreading storage key t

end Placement

section Spreads

variable {usize : K → ℕ} {allocates : ℕ → Bool} {storage : LookupStorage}
  {t t' t'' : LookupTable K S} {key : K} {b m size : ℕ}

/-! ## Spreading -/

omit [Zero S] in
theorem findEmpty_eq (usize : K → ℕ) (key : K) (hsize : t.size = size) (hpos : 0 < size)
    (hle : size ≤ 2 ^ 32) {taken : List ℕ} (htaken : ∀ b, t.keys b = 0 ↔ b ∉ taken) :
    t.findEmpty usize key = ((probes size (hashOf usize key size)).find?
      fun bucket => bucket ∉ taken).getD noBucket := by
  have hfind : (probes size (hashOf usize key size)).find? (fun bucket => t.keys bucket = 0) =
      (probes size (hashOf usize key size)).find? fun bucket => bucket ∉ taken :=
    congrArg (List.find? · _) (funext fun bucket => decide_eq_decide.mpr (htaken bucket))
  rw [findEmpty, hsize, if_neg (Nat.pos_iff_ne_zero.mp hpos), findBucket, hfind]
  cases hb : (probes size (hashOf usize key size)).find? fun bucket => bucket ∉ taken with
  | none => rfl
  | some b =>
    have hlt := lt_of_mem_probes hpos (List.mem_of_find?_eq_some hb)
    exact Nat.mod_eq_of_lt (Nat.lt_of_lt_of_le hlt hle)

omit [Zero S] in
theorem spreads_foldlM {old new : LookupTable K S} {buckets taken : List ℕ}
    (hsize : new.size = size) (hpos : 0 < size) (hle : size ≤ 2 ^ 32)
    (htaken : ∀ b, new.keys b = 0 ↔ b ∉ taken) :
    (∃ new', buckets.foldlM (rehashBucket usize old) new = some new') ↔
      Spreads usize size ((buckets.map old.keys).filter (· ≠ 0)) taken := by
  induction buckets generalizing new taken with
  | nil => exact iff_of_true ⟨new, rfl⟩ .nil
  | cons i buckets ih =>
    rw [List.foldlM_cons, List.map_cons]
    by_cases hkey : old.keys i = 0
    · have hstep : rehashBucket usize old new i = some new := if_pos hkey
      rw [hstep, List.filter_cons_of_neg (by simpa using hkey)]
      exact ih hsize htaken
    · rw [List.filter_cons_of_pos (by simpa using hkey)]
      have hfind := findEmpty_eq usize (old.keys i) hsize hpos hle htaken
      cases hb : (probes size (hashOf usize (old.keys i) size)).find? fun bucket => bucket ∉ taken with
      | none =>
        rw [hb, Option.getD_none] at hfind
        have hstep : rehashBucket usize old new i = none := by
          rw [rehashBucket, if_neg hkey, if_pos hfind]
        rw [hstep]
        refine iff_of_false (fun h => by obtain ⟨_, h⟩ := h; cases h) fun h => ?_
        cases h with
        | cons hb' => rw [hb] at hb'; cases hb'
      | some b =>
        rw [hb] at hfind
        by_cases hne : b = noBucket
        · have hstep : rehashBucket usize old new i = none := by
            rw [rehashBucket, if_neg hkey, if_pos (hfind.trans hne)]
          rw [hstep]
          refine iff_of_false (fun h => by obtain ⟨_, h⟩ := h; cases h) fun h => ?_
          cases h with
          | cons hb' hne' =>
            rw [hb] at hb'
            cases hb'
            exact hne' hne
        · have hplaced : ∀ b',
              (new.place b (old.slots i) (old.keys i)).keys b' = 0 ↔ b' ∉ b :: taken := by
            intro b'
            rw [List.mem_cons, not_or]
            by_cases hbb : b' = b
            · have hself : (new.place b (old.slots i) (old.keys i)).keys b' = old.keys i := by
                rw [hbb]
                exact Function.update_self _ _ _
              rw [hself]
              exact iff_of_false hkey fun h => h.1 hbb
            · have hother : (new.place b (old.slots i) (old.keys i)).keys b' = new.keys b' :=
                Function.update_of_ne hbb _ _
              rw [hother, htaken]
              exact ⟨fun h => ⟨hbb, h⟩, And.right⟩
          rw [rehashBucket_of_findEmpty hkey hfind hne]
          have hsize' : (new.place b (old.slots i) (old.keys i)).size = size := hsize
          refine (ih hsize' hplaced).trans ⟨.cons hb hne, fun h => ?_⟩
          cases h with
          | cons hb' _ rest =>
            rw [hb] at hb'
            cases hb'
            exact rest

/-- A larger table is there if the keys can be spread over it. -/
theorem rehash_iff (t : LookupTable K S) (hpos : 0 < size) (hle : size ≤ 2 ^ 32) :
    (∃ t', t.rehash usize size = some t') ↔ Spreads usize size t.keyList [] :=
  spreads_foldlM rfl hpos hle fun _ => iff_of_true rfl List.not_mem_nil

/-! ## Placing -/

/-- With memory for every capacity, `try_place` is that of a table whose allocator does not fail. -/
theorem tryPlaceIf_always (usize : K → ℕ) (storage : LookupStorage) (key : K) (m : ℕ)
    (t : LookupTable K S) :
    tryPlaceIf usize (fun _ => true) storage key m t = tryPlace usize storage key m t := by
  have hreserve : ∀ t : LookupTable K S, t.tryReserveIf usize (fun _ => true) (t.size + 1) storage =
      t.tryReserve usize (t.size + 1) storage := by
    intro t
    cases storage with
    | heap => simp only [tryReserveIf, tryReserve, if_true]
    | fixed capacity => rfl
  induction m generalizing t with
  | zero => rfl
  | succ m ih =>
    rw [tryPlaceIf, tryPlace, hreserve]
    cases t.tryReserve usize (t.size + 1) storage with
    | none => rfl
    | some t' =>
      dsimp only
      rw [ih]

theorem tryPlaceIf_room (h : t.findEmpty usize key ≠ noBucket) :
    tryPlaceIf usize allocates storage key (m + 1) t = .ok (t, t.findEmpty usize key) := by
  rw [tryPlaceIf, if_neg h]

theorem tryPlaceIf_none (hfull : t.findEmpty usize key = noBucket)
    (h : t.tryReserveIf usize allocates (t.size + 1) storage = none) :
    tryPlaceIf usize allocates storage key (m + 1) t = .ok (t, noBucket) := by
  rw [tryPlaceIf, if_pos hfull, h]

theorem tryPlaceIf_some (hfull : t.findEmpty usize key = noBucket)
    (h : t.tryReserveIf usize allocates (t.size + 1) storage = some t') :
    tryPlaceIf usize allocates storage key (m + 1) t =
      tryPlaceIf usize allocates storage key m t' := by
  rw [tryPlaceIf, if_pos hfull, h]

variable (usize) in
theorem tryReserveIf_heap (h : t.MoreMemory allocates .heap) :
    t.tryReserveIf usize allocates (t.size + 1) .heap = t.rehash usize (clp2 (t.size + 1)) := by
  rw [tryReserveIf, if_neg (Nat.not_lt.mpr h.1), if_pos h.2]

theorem tryReserveIf_exhausted (h : ¬ t.MoreMemory allocates storage) :
    t.tryReserveIf usize allocates (t.size + 1) storage = none := by
  cases storage with
  | heap =>
    rw [tryReserveIf]
    split_ifs with hlt hallocates
    · rfl
    · exact absurd ⟨Nat.not_lt.mp hlt, hallocates⟩ h
    · rfl
  | fixed capacity => rfl

theorem tryReserveIf_size (h : t.tryReserveIf usize allocates (t.size + 1) storage = some t') :
    t.size < t'.size := by
  by_cases hmemory : t.MoreMemory allocates storage
  · cases storage with
    | heap =>
      rw [tryReserveIf_heap usize hmemory] at h
      have hsize : t'.size = clp2 (t.size + 1) := size_foldlM_rehashBucket h
      rw [hsize]
      exact hmemory.1
    | fixed capacity => exact hmemory.elim
  · rw [tryReserveIf_exhausted hmemory] at h
    cases h

theorem size_le_of_tryPlaceIf (h : tryPlaceIf usize allocates storage key m t = .ok (t', b)) :
    t.size ≤ t'.size := by
  induction m generalizing t with
  | zero => cases h
  | succ m ih =>
    rw [tryPlaceIf] at h
    split_ifs at h with hfull
    · split at h
      · cases h
        exact Nat.le_refl _
      next mid hmid => exact Nat.le_trans (Nat.le_of_lt (tryReserveIf_size hmid)) (ih h)
    · cases h
      exact Nat.le_refl _

theorem Places.of_exhausted (h : t.Valid usize) (hfull : t.findEmpty usize key = noBucket)
    (hmemory : ¬ t.MoreMemory allocates storage) :
    Places usize allocates storage key (m + 1) t :=
  ⟨t, noBucket, tryPlaceIf_none hfull (tryReserveIf_exhausted hmemory), h, fun _ _ _ => Iff.rfl,
    fun _ => hmemory, fun hne => absurd rfl hne⟩

theorem Places.of_room (h : t.Valid usize) (hkey : key ≠ 0) (hfresh : ∀ b, t.keys b ≠ key)
    (hroom : t.findEmpty usize key ≠ noBucket) : Places usize allocates storage key (m + 1) t := by
  obtain ⟨hempty, hmem⟩ := findEmpty_spec h.size_pos h.size_le hroom
  refine ⟨t, _, tryPlaceIf_room hroom, h, fun _ _ _ => Iff.rfl, fun hnone => absurd hnone hroom,
    fun _ slot => ?_⟩
  have hplaced := h.place slot hroom hmem hfresh
  exact ⟨hplaced, hplaced.find_eq hkey (Function.update_self _ _ _),
    fun key' slot' hkey' => holds_place hempty hfresh hkey'⟩

/-- What comes of a table is what comes of the larger one. -/
theorem places_grown (hfull : t.findEmpty usize key = noBucket)
    (hgrown : t.tryReserveIf usize allocates (t.size + 1) storage = some t')
    (hholds : ∀ key slot, key ≠ 0 → (t'.Holds key slot ↔ t.Holds key slot)) :
    Places usize allocates storage key (m + 1) t ↔ Places usize allocates storage key m t' := by
  rw [Places, Places, tryPlaceIf_some hfull hgrown]
  refine exists_congr fun t'' => exists_congr fun b => and_congr_right fun _ =>
    and_congr_right fun _ => and_congr (forall₃_congr fun key slot hkey => ?_)
      (and_congr_right fun _ => ?_)
  · rw [hholds key slot hkey]
  · refine forall₂_congr fun _ slot => and_congr_right fun _ => and_congr_right fun _ =>
      forall₃_congr fun key' slot' hkey' => ?_
    rw [hholds key' slot' hkey']

omit [DecidableEq K] [Zero S] in
theorem fresh_of_holds (hkey : key ≠ 0) (hfresh : ∀ b, t.keys b ≠ key)
    (hholds : ∀ key slot, key ≠ 0 → (t'.Holds key slot ↔ t.Holds key slot)) (b : ℕ) :
    t'.keys b ≠ key := by
  intro hb
  obtain ⟨b', hb', -⟩ := (hholds key _ hkey).mp ⟨b, hb, rfl⟩
  exact hfresh b' hb'

/-- A key that finds no room is placed if the larger table can be had, and if it is there. -/
theorem keepsSpreading_grown_iff (hfull : t.findEmpty usize key = noBucket)
    (hmemory : t.MoreMemory allocates storage) :
    KeepsSpreading usize allocates storage key t ↔
      2 * t.size ≤ 2 ^ 32 ∧ Spreads usize (2 * t.size) t.keyList [] ∧
        ∀ t', t.rehash usize (2 * t.size) = some t' →
          KeepsSpreading usize allocates storage key t' := by
  constructor
  · intro h
    cases h with
    | room hroom => exact absurd hfull hroom
    | exhausted hnone => exact absurd hmemory hnone
    | grown hle hspreads next => exact ⟨hle, hspreads, next⟩
  · rintro ⟨hle, hspreads, next⟩
    exact .grown hle hspreads next

omit [DecidableEq K] [Zero S] in
theorem Valid.exponent_le {k : ℕ} (h : t.Valid usize) (hsize : t.size = 2 ^ k) : k ≤ 32 := by
  have hle := h.size_le
  rw [hsize] at hle
  exact (Nat.pow_le_pow_iff_right Nat.one_lt_two).mp hle

omit [DecidableEq K] [Zero S] in
theorem clp2_size_succ {k : ℕ} (h : t.Valid usize) (hsize : t.size = 2 ^ k) :
    clp2 (t.size + 1) = 2 * t.size := by
  have hk := h.exponent_le hsize
  rw [hsize, clp2_succ_two_pow k (by omega), Nat.pow_succ, Nat.mul_comm]

theorem tryReserveIf_doubles {k : ℕ} (h : t.Valid usize) (hsize : t.size = 2 ^ k)
    (hmemory : t.MoreMemory allocates .heap) :
    t.tryReserveIf usize allocates (t.size + 1) .heap = t.rehash usize (2 * t.size) := by
  rw [tryReserveIf_heap usize hmemory, clp2_size_succ h hsize]

theorem places_iff_heap {k : ℕ} (h : t.Valid usize) (hkey : key ≠ 0) (hfresh : ∀ b, t.keys b ≠ key)
    (hsize : t.size = 2 ^ k) (hm : 33 ≤ k + m) :
    Places usize allocates .heap key m t ↔ KeepsSpreading usize allocates .heap key t := by
  have hk := h.exponent_le hsize
  induction m generalizing t k with
  | zero => omega
  | succ m ih =>
    by_cases hfull : t.findEmpty usize key = noBucket
    swap
    · exact iff_of_true (.of_room h hkey hfresh hfull) (.room hfull)
    by_cases hmemory : t.MoreMemory allocates .heap
    swap
    · exact iff_of_true (.of_exhausted h hfull hmemory) (.exhausted hmemory)
    rw [keepsSpreading_grown_iff hfull hmemory]
    have hreserve := tryReserveIf_doubles h hsize hmemory
    have hpos : 0 < 2 * t.size := Nat.mul_pos Nat.two_pos h.size_pos
    cases hgrown : t.rehash usize (2 * t.size) with
    | none =>
      -- With memory, a rehash that fails is a failure all the same.
      refine iff_of_false ?_ fun ⟨hle, hspreads, _⟩ => ?_
      · rintro ⟨t', b, hrun, -, -, hexhausted, -⟩
        rw [tryPlaceIf_none hfull (hreserve.trans hgrown)] at hrun
        cases hrun
        exact hexhausted rfl hmemory
      · obtain ⟨t', ht'⟩ := (rehash_iff t hpos hle).mpr hspreads
        rw [hgrown] at ht'
        cases ht'
    | some mid =>
      have hmid : mid.size = 2 * t.size := size_foldlM_rehashBucket hgrown
      by_cases hle : 2 * t.size ≤ 2 ^ 32
      swap
      · -- A table with more buckets than have numbers is not valid.
        refine iff_of_false ?_ fun hkeeps => hle hkeeps.1
        rintro ⟨t', b, hrun, hvalid, -⟩
        rw [tryPlaceIf_some hfull (hreserve.trans hgrown)] at hrun
        have hsizes := size_le_of_tryPlaceIf hrun
        have hbound := hvalid.size_le
        omega
      obtain ⟨hvalid, -, hholds⟩ := h.rehash hpos hle hgrown
      have hsize' : mid.size = 2 ^ (k + 1) := by rw [hmid, hsize, Nat.pow_succ, Nat.mul_comm]
      have hnext := ih hvalid (fresh_of_holds hkey hfresh hholds) hsize' (by omega)
        (hvalid.exponent_le hsize')
      refine (places_grown hfull (hreserve.trans hgrown) hholds).trans (hnext.trans ?_)
      constructor
      · intro hkeeps
        refine ⟨hle, (rehash_iff t hpos hle).mp ⟨mid, hgrown⟩, fun t' ht' => ?_⟩
        cases ht'
        exact hkeeps
      · rintro ⟨-, -, next⟩
        exact next mid rfl

theorem places_fixed {capacity : ℕ} (h : t.Valid usize) (hkey : key ≠ 0)
    (hfresh : ∀ b, t.keys b ≠ key) : Places usize allocates (.fixed capacity) key (m + 1) t := by
  by_cases hfull : t.findEmpty usize key = noBucket
  · exact .of_exhausted h hfull id
  · exact .of_room h hkey hfresh hfull

/-! ## Keys that are kept -/

/-- The outcome of `try_place`: a table with the same keys, and a bucket for the new one if there is
room. -/
structure Kept (usize : K → ℕ) (storage : LookupStorage) (key : K) (t t' : LookupTable K S)
    (b : ℕ) : Prop where
  valid : t'.Valid usize
  admits : storage.Admits t'.size
  holds : ∀ key slot, key ≠ 0 → (t'.Holds key slot ↔ t.Holds key slot)
  room : b ≠ noBucket → t'.keys b = 0 ∧ b ∈ probes t'.size (hashOf usize key t'.size)

omit [Zero S] in
theorem Kept.refl (h : t.Valid usize) (hsize : storage.Admits t.size)
    (hb : b = t.findEmpty usize key) : Kept usize storage key t t b where
  valid := h
  admits := hsize
  holds _ _ _ := Iff.rfl
  room hne := by
    subst hb
    exact findEmpty_spec h.size_pos h.size_le hne

omit [DecidableEq K] [Zero S] in
theorem Kept.of_grown (h : Kept usize storage key t' t'' b)
    (hholds : ∀ key slot, key ≠ 0 → (t'.Holds key slot ↔ t.Holds key slot)) :
    Kept usize storage key t t'' b where
  valid := h.valid
  admits := h.admits
  holds key slot hkey := (h.holds key slot hkey).trans (hholds key slot hkey)
  room := h.room

theorem tryPlaceIf_kept_heap {k : ℕ} (key : K) (h : t.Valid usize) (hsize : t.size = 2 ^ k)
    (hm : 33 ≤ k + m) (hnumbers : ∀ n, 2 ^ 32 < n → allocates n = false) :
    ∃ t' b, tryPlaceIf usize allocates .heap key m t = .ok (t', b) ∧
      Kept usize .heap key t t' b := by
  have hk := h.exponent_le hsize
  have hadmits : LookupStorage.heap.Admits t.size := ⟨k, by omega, hsize⟩
  induction m generalizing t k with
  | zero => omega
  | succ m ih =>
    by_cases hfull : t.findEmpty usize key = noBucket
    swap
    · exact ⟨t, _, tryPlaceIf_room hfull, .refl h hadmits rfl⟩
    cases hgrown : t.tryReserveIf usize allocates (t.size + 1) .heap with
    | none => exact ⟨t, noBucket, tryPlaceIf_none hfull hgrown, .refl h hadmits hfull.symm⟩
    | some mid =>
      have hmemory : t.MoreMemory allocates .heap := by
        by_contra hnone
        rw [tryReserveIf_exhausted hnone] at hgrown
        cases hgrown
      have hrehash := (tryReserveIf_doubles h hsize hmemory).symm.trans hgrown
      have hle : 2 * t.size ≤ 2 ^ 32 := by
        by_contra hlt
        have hfalse := hnumbers _ (Nat.not_le.mp hlt)
        rw [← clp2_size_succ h hsize, hmemory.2] at hfalse
        cases hfalse
      obtain ⟨hvalid, hmid, hholds⟩ := h.rehash (Nat.mul_pos Nat.two_pos h.size_pos) hle hrehash
      have hsize' : mid.size = 2 ^ (k + 1) := by rw [hmid, hsize, Nat.pow_succ, Nat.mul_comm]
      have hk' := hvalid.exponent_le hsize'
      obtain ⟨t', b, hrun, hkept⟩ := ih hvalid hsize' (by omega) hk' ⟨k + 1, by omega, hsize'⟩
      exact ⟨t', b, (tryPlaceIf_some hfull hgrown).trans hrun, hkept.of_grown hholds⟩

/-- As long as no table has more buckets than have numbers, the table keeps its keys. -/
theorem Valid.tryPlaceIf_ok (key : K) (h : t.Valid usize) (hsize : storage.Admits t.size)
    (hnumbers : ∀ n, 2 ^ 32 < n → allocates n = false) :
    ∃ t' b, tryPlaceIf usize allocates storage key placeFuel t = .ok (t', b) ∧
      Kept usize storage key t t' b := by
  cases storage with
  | heap =>
    obtain ⟨k, -, hsize⟩ := hsize
    exact tryPlaceIf_kept_heap key h hsize (by rw [placeFuel]; omega) hnumbers
  | fixed capacity =>
    by_cases hfull : t.findEmpty usize key = noBucket
    · exact ⟨t, noBucket, tryPlaceIf_none hfull rfl, .refl h trivial hfull.symm⟩
    · exact ⟨t, _, tryPlaceIf_room hfull, .refl h trivial rfl⟩

end Spreads

/-- The table in which some keys have been placed, one after another. -/
def placeAll (keys : List UInt32) : LookupTable UInt32 ℕ :=
  keys.foldl (fun t key =>
    match t.tryPlaceIf UInt32.toNat (fun _ => true) .heap key placeFuel with
    | .ok (t, b) => t.place b 0 key
    | .error _ => t) (zero LookupStorage.heap.initialSize)

end Fimbulwinter.LookupTable
