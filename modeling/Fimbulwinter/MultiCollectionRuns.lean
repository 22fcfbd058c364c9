import Fimbulwinter.LookupOverflow
import Fimbulwinter.MultiCollection

/-! # Runs of `core::container::MultiCollection`

Sequences of operations whose emplaces succeed, against the map from keys and types that
they describe. -/
namespace Fimbulwinter.MultiCollection

variable {K : Type*} [DecidableEq K] [Zero K] {n : ℕ} {C : Fin n → Type*}

/-- Slots and arrays refer to each other, and exactly the buckets with components have keys. -/
structure Valid (usize : K → ℕ) (c : MultiCollection K C) : Prop where
  lookup : c.lookup.Valid usize
  blank : c.lookup.Blank fun slot => slot.empty
  live : ∀ b, c.lookup.keys b ≠ 0 → ¬ (c.lookup.slots b).empty
  component : ∀ b type, ¬ (c.lookup.slots b).emptyAt type →
    ∃ x, (c.arrays type)[(c.lookup.slots b).indices type]? = some (x, c.lookup.keys b)
  entry : ∀ type i x key, (c.arrays type)[i]? = some (x, key) →
    ∃ b, c.lookup.keys b = key ∧ ¬ (c.lookup.slots b).emptyAt type ∧
      (c.lookup.slots b).indices type = i
  short : ∀ type, (c.arrays type).length ≤ 2 ^ 16

section Valid

variable {usize : K → ℕ} {storage : LookupStorage} {c c' : MultiCollection K C} {type : Fin n}
  {b : ℕ} {key : K}

omit [DecidableEq K] in
theorem Valid.keys_ne_zero (hn : n ≤ 64) (h : c.Valid usize)
    (hb : ¬ (c.lookup.slots b).emptyAt type) : c.lookup.keys b ≠ 0 := fun hzero =>
  hb ((MultiSlot.empty_iff hn).mp (h.blank b hzero) type)

theorem Valid.find_eq (hn : n ≤ 64) (h : c.Valid usize)
    (hb : ¬ (c.lookup.slots b).emptyAt type) : c.find usize (c.lookup.keys b) = b :=
  h.lookup.find_eq (h.keys_ne_zero hn hb) rfl

omit [DecidableEq K] in
/-- A key has one entry in an array. -/
theorem Valid.entry_unique (hn : n ≤ 64) (h : c.Valid usize) {i j : ℕ} {x y : C type}
    (hi : (c.arrays type)[i]? = some (x, key)) (hj : (c.arrays type)[j]? = some (y, key)) :
    i = j := by
  obtain ⟨b, hkey, hempty, rfl⟩ := h.entry type i x key hi
  obtain ⟨b', hkey', -, rfl⟩ := h.entry type j y key hj
  rw [h.lookup.unique b b' (h.keys_ne_zero hn hempty) (hkey.trans hkey'.symm)]

omit [DecidableEq K] in
theorem Valid.nodup (hn : n ≤ 64) (h : c.Valid usize) (type : Fin n) :
    ((c.arrays type).map Prod.snd).Nodup := by
  refine List.nodup_iff_getElem?_ne_getElem?.mpr fun i j hij hj heq => ?_
  rw [List.length_map] at hj
  rw [List.getElem?_map, List.getElem?_map, List.getElem?_eq_getElem (Nat.lt_trans hij hj),
    List.getElem?_eq_getElem hj] at heq
  have hkey : (c.arrays type)[i].2 = (c.arrays type)[j].2 := Option.some.inj heq
  have hget : (c.arrays type)[i]? = some ((c.arrays type)[i].1, (c.arrays type)[j].2) := by
    rw [List.getElem?_eq_getElem (Nat.lt_trans hij hj), ← hkey]
  have hget' : (c.arrays type)[j]? = some ((c.arrays type)[j].1, (c.arrays type)[j].2) :=
    List.getElem?_eq_getElem hj
  exact hij.ne (h.entry_unique hn hget hget')

omit [DecidableEq K] in
theorem Valid.index_lt (h : c.Valid usize) (hb : ¬ (c.lookup.slots b).emptyAt type) :
    (c.lookup.slots b).indices type < (c.arrays type).length := by
  obtain ⟨x, hx⟩ := h.component b type hb
  exact (List.getElem?_eq_some_iff.mp hx).1

/-! ## Removing one component -/

/-- What `remove_at_impl` changes. -/
structure Removes (c c' : MultiCollection K C) (type : Fin n) (b lastBucket : ℕ)
    (usize : K → ℕ) : Prop where
  emptyAt : ∀ b' t, (c'.lookup.slots b').emptyAt t ↔
    (c.lookup.slots b').emptyAt t ∨ (b' = b ∧ t = type)
  indices : ∀ b' t, (c'.lookup.slots b').indices t =
    if b' = lastBucket ∧ t = type then (c.lookup.slots b).indices type
    else (c.lookup.slots b').indices t
  keys : ∀ b', c'.lookup.keys b' =
    if b' = b ∧ (c'.lookup.slots b).empty then 0 else c.lookup.keys b'
  arrays : c'.arrays = Function.update c.arrays type
    (UnstableErase.swapErase (c.arrays type) ((c.lookup.slots b).indices type))
  valid : c'.lookup.Valid usize

/-- The bucket of the last component of an array. -/
theorem Valid.last (hn : n ≤ 64) (h : c.Valid usize) (hb : ¬ (c.lookup.slots b).emptyAt type) :
    ∃ last, (c.arrays type).getLast? = some last ∧
      c.lookup.keys (c.find usize last.2) = last.2 ∧
      ¬ (c.lookup.slots (c.find usize last.2)).emptyAt type ∧
      (c.lookup.slots (c.find usize last.2)).indices type = (c.arrays type).length - 1 := by
  obtain ⟨last, hlast⟩ : ∃ last, (c.arrays type).getLast? = some last := by
    rw [← Option.isSome_iff_exists, List.getLast?_isSome]
    intro hnil
    have hlt := h.index_lt hb
    rw [hnil] at hlt
    exact Nat.not_lt_zero _ hlt
  have hget : (c.arrays type)[(c.arrays type).length - 1]? = some (last.1, last.2) := by
    rw [← List.getLast?_eq_getElem?, hlast]
  obtain ⟨lastBucket, hkeys, hempty, hindex⟩ := h.entry type _ _ _ hget
  have hfind : c.find usize last.2 = lastBucket := hkeys ▸ h.find_eq hn hempty
  rw [← hfind] at hkeys hempty hindex
  exact ⟨last, hlast, hkeys, hempty, hindex⟩

theorem Valid.removes (hn : n ≤ 64) (h : c.Valid usize)
    (hb : ¬ (c.lookup.slots b).emptyAt type) :
    ∃ last, (c.arrays type).getLast? = some last ∧
      Removes c (c.removeAtImpl usize type b ((c.lookup.slots b).indices type)) type b
        (c.find usize last.2) usize := by
  obtain ⟨last, hlast, -⟩ := h.last hn hb
  have hindex : (c.lookup.slots b).indices type < 2 ^ 16 :=
    Nat.lt_of_lt_of_le (h.index_lt hb) (h.short type)
  refine ⟨last, hlast, ?_⟩
  rw [removeAtImpl, hlast]
  constructor
  · intro b' t
    simp only [Function.update_apply]
    by_cases hbb : b' = b
    · rw [if_pos hbb, MultiSlot.emptyAt_clear hn, hbb]
      split_ifs with hl
      · rw [MultiSlot.emptyAt_setIndex, hl]
        simp
      · simp
    · rw [if_neg hbb]
      split_ifs with hl
      · rw [MultiSlot.emptyAt_setIndex, hl]
        simp [← hl, hbb]
      · simp [hbb]
  · intro b' t
    have hlastSlot : ∀ b', (if b' = c.find usize last.2 then
        (c.lookup.slots (c.find usize last.2)).setIndex type ((c.lookup.slots b).indices type)
        else c.lookup.slots b').indices t =
          if b' = c.find usize last.2 ∧ t = type then (c.lookup.slots b).indices type
          else (c.lookup.slots b').indices t := by
      intro b'
      by_cases hl : b' = c.find usize last.2
      · rw [if_pos hl, MultiSlot.indices_setIndex hindex, hl]
        simp
      · rw [if_neg hl]
        simp [hl]
    simp only [Function.update_apply]
    by_cases hbb : b' = b
    · rw [if_pos hbb, MultiSlot.indices_clear, hlastSlot, hbb]
    · rw [if_neg hbb, hlastSlot]
  · intro b'
    simp only [Function.update_self]
    split_ifs with hempty hbb hbb
    · rw [hbb.1, Function.update_self]
    · rw [Function.update_of_ne fun heq => hbb ⟨heq, hempty⟩]
    · exact absurd hbb.2 hempty
    · rfl
  · rfl
  · simp only
    split_ifs
    · exact h.lookup.vacate b
    · exact { h.lookup with }

section Removes

variable {last : C type × K} (hn : n ≤ 64) (h : c.Valid usize)
  (hb : ¬ (c.lookup.slots b).emptyAt type) (hlast : (c.arrays type).getLast? = some last)
  (hr : Removes c c' type b (c.find usize last.2) usize)

include hn hr in
theorem Removes.keys_eq {b' : ℕ} {t : Fin n} (hempty : ¬ (c'.lookup.slots b').emptyAt t) :
    c'.lookup.keys b' = c.lookup.keys b' := by
  rw [hr.keys, if_neg]
  rintro ⟨rfl, hall⟩
  exact hempty ((MultiSlot.empty_iff hn).mp hall t)

include hr in
theorem Removes.arrays_of_ne {t : Fin n} (ht : t ≠ type) : c'.arrays t = c.arrays t := by
  rw [hr.arrays, Function.update_of_ne ht]

include hr in
theorem Removes.arrays_self : c'.arrays type =
    UnstableErase.swapErase (c.arrays type) ((c.lookup.slots b).indices type) := by
  rw [hr.arrays, Function.update_self]

include hn h hb hlast hr

/-- The components that are left are where their slots say, also the one that moves into the hole. -/
theorem Removes.component {b' : ℕ} {t : Fin n} (hempty : ¬ (c'.lookup.slots b').emptyAt t) :
    ∃ x, (c'.arrays t)[(c'.lookup.slots b').indices t]? = some (x, c.lookup.keys b') := by
  obtain ⟨last', hlast', hlastKeys, hlastEmpty, hlastIndex⟩ := h.last hn hb
  rw [hlast] at hlast'
  cases hlast'
  have hlt := h.index_lt hb
  obtain ⟨x₀, hx₀⟩ := h.component b type hb
  set lastBucket := c.find usize last.2
  set index := (c.lookup.slots b).indices type
  rw [hr.emptyAt, not_or] at hempty
  obtain ⟨x, hx⟩ := h.component b' t hempty.1
  by_cases ht : t = type
  · subst ht
    have hbb : b' ≠ b := fun heq => hempty.2 ⟨heq, rfl⟩
    have hne : (c.lookup.slots b').indices t ≠ index := fun heq => by
      rw [heq, hx₀] at hx
      have hkey := congrArg Prod.snd (Option.some.inj hx)
      exact hbb (h.lookup.unique b b' (h.keys_ne_zero hn hb) hkey).symm
    have hlt' := h.index_lt hempty.1
    rw [hr.indices, hr.arrays_self]
    by_cases hl : b' = lastBucket
    -- The component was the last one and is now in the hole.
    · have hlastAt : (c.lookup.slots b').indices t = (c.arrays t).length - 1 := hl ▸ hlastIndex
      rw [if_pos ⟨hl, rfl⟩, UnstableErase.getElem?_swapErase _ hlt (by omega), if_pos rfl,
        List.getLast?_eq_getElem?, ← hlastAt]
      exact ⟨x, hx⟩
    · have hbefore : (c.lookup.slots b').indices t ≠ (c.arrays t).length - 1 := fun heq => by
        rw [heq, ← List.getLast?_eq_getElem?, hlast] at hx
        have hkey := congrArg Prod.snd (Option.some.inj hx)
        refine hl (h.lookup.unique _ _ (h.keys_ne_zero hn hempty.1) ?_)
        exact hkey.symm.trans hlastKeys.symm
      rw [if_neg fun hbt => hl hbt.1, UnstableErase.getElem?_swapErase _ hlt (by omega),
        if_neg hne]
      exact ⟨x, hx⟩
  · rw [hr.arrays_of_ne ht, hr.indices, if_neg fun hbt => ht hbt.2]
    exact ⟨x, hx⟩

/-- What is left in the arrays has a bucket. -/
theorem Removes.bucket {t : Fin n} {i : ℕ} {x : C t} (hget : (c'.arrays t)[i]? = some (x, key)) :
    ∃ b', c.lookup.keys b' = key ∧ ¬ (c'.lookup.slots b').emptyAt t ∧
      (c'.lookup.slots b').indices t = i := by
  obtain ⟨last', hlast', hlastKeys, hlastEmpty, hlastIndex⟩ := h.last hn hb
  rw [hlast] at hlast'
  cases hlast'
  have hlt := h.index_lt hb
  set lastBucket := c.find usize last.2
  set index := (c.lookup.slots b).indices type with hindex
  -- A bucket that is not emptied, with the index that it gets.
  have hleft : ∀ b', ¬ (c.lookup.slots b').emptyAt t → ¬ (b' = b ∧ t = type) →
      (if b' = lastBucket ∧ t = type then index else (c.lookup.slots b').indices t) = i →
      ¬ (c'.lookup.slots b').emptyAt t ∧ (c'.lookup.slots b').indices t = i := by
    intro b' hempty hremoved hat
    rw [hr.emptyAt, not_or, hr.indices]
    exact ⟨⟨hempty, hremoved⟩, hat⟩
  by_cases ht : t = type
  · subst ht
    have hi := (List.getElem?_eq_some_iff.mp hget).1
    rw [hr.arrays_self, UnstableErase.length_swapErase _ hlt] at hi
    rw [hr.arrays_self, UnstableErase.getElem?_swapErase _ hlt hi] at hget
    split_ifs at hget with hhole
    · rw [hlast] at hget
      have hkey : last.2 = key := congrArg Prod.snd (Option.some.inj hget)
      refine ⟨lastBucket, hlastKeys.trans hkey, hleft lastBucket hlastEmpty (fun hbt => ?_) ?_⟩
      · rw [hbt.1, ← hindex] at hlastIndex
        omega
      · rw [if_pos ⟨rfl, rfl⟩, hhole]
    · obtain ⟨b', hkey, hempty, hat⟩ := h.entry t i x key hget
      refine ⟨b', hkey, hleft b' hempty (fun hbt => ?_) ?_⟩
      · rw [hbt.1, ← hindex] at hat
        exact hhole hat.symm
      · rw [if_neg, hat]
        intro hbt
        rw [hbt.1, hlastIndex] at hat
        omega
  · rw [hr.arrays_of_ne ht] at hget
    obtain ⟨b', hkey, hempty, hat⟩ := h.entry t i x key hget
    exact ⟨b', hkey, hleft b' hempty (fun hbt => ht hbt.2)
      (by rw [if_neg fun hbt => ht hbt.2, hat])⟩

end Removes

/-- Removing a component keeps every other one, also the one that moves into its place. -/
theorem Valid.removeAtImpl (hn : n ≤ 64) (h : c.Valid usize)
    (hb : ¬ (c.lookup.slots b).emptyAt type) :
    (c.removeAtImpl usize type b ((c.lookup.slots b).indices type)).Valid usize ∧
      ∀ t x key,
        (x, key) ∈ (c.removeAtImpl usize type b ((c.lookup.slots b).indices type)).arrays t ↔
          (x, key) ∈ c.arrays t ∧ ¬ (t = type ∧ key = c.lookup.keys b) := by
  obtain ⟨last, hlast, hr⟩ := h.removes hn hb
  have hlt := h.index_lt hb
  obtain ⟨x₀, hx₀⟩ := h.component b type hb
  generalize c.removeAtImpl usize type b ((c.lookup.slots b).indices type) = c' at hr
  refine ⟨⟨hr.valid, fun b' hzero => ?_, fun b' hne hempty => ?_, fun b' t hempty => ?_,
    fun t i x key hget => ?_, fun t => ?_⟩, fun t x key => ?_⟩
  · rw [hr.keys] at hzero
    split_ifs at hzero with hlost
    · rw [hlost.1]
      exact hlost.2
    · refine (MultiSlot.empty_iff hn).mpr fun t => (hr.emptyAt b' t).mpr (.inl ?_)
      exact (MultiSlot.empty_iff hn).mp (h.blank b' hzero) t
  · rw [hr.keys] at hne
    split_ifs at hne with hlost
    · exact hne rfl
    · refine h.live b' hne ((MultiSlot.empty_iff hn).mpr fun t => ?_)
      have hor := (hr.emptyAt b' t).mp ((MultiSlot.empty_iff hn).mp hempty t)
      refine hor.resolve_right fun hbt => hlost ⟨hbt.1, ?_⟩
      exact hbt.1 ▸ hempty
  · rw [hr.keys_eq hn hempty]
    exact hr.component hn h hb hlast hempty
  · obtain ⟨b', hkey, hempty, hat⟩ := hr.bucket hn h hb hlast hget
    exact ⟨b', (hr.keys_eq hn hempty).trans hkey, hempty, hat⟩
  · by_cases ht : t = type
    · subst ht
      rw [hr.arrays_self, UnstableErase.length_swapErase _ hlt]
      exact (Nat.sub_le _ _).trans (h.short t)
    · rw [hr.arrays_of_ne ht]
      exact h.short t
  · by_cases ht : t = type
    · subst ht
      obtain ⟨hlt', heq⟩ := List.getElem?_eq_some_iff.mp hx₀
      rw [hr.arrays_self, UnstableErase.mem_swapErase_iff Prod.snd (h.nodup hn t) hlt', heq]
      simp
    · rw [hr.arrays_of_ne ht]
      simp [ht]

end Valid

/-! ## Refinement of a map -/

/-- The component of each type under each key. -/
abbrev Contents (K : Type*) {n : ℕ} (C : Fin n → Type*) := K → (type : Fin n) → Option (C type)

def Contents.remove (m : Contents K C) (key : K) (type : Fin n) : Contents K C :=
  Function.update m key (Function.update (m key) type none)

omit [Zero K] in
theorem Contents.remove_eq_some (m : Contents K C) (key key' : K) (type t : Fin n) (x : C t) :
    m.remove key type key' t = some x ↔ m key' t = some x ∧ ¬ (t = type ∧ key' = key) := by
  by_cases hk : key' = key
  · subst hk
    rw [Contents.remove, Function.update_self]
    by_cases ht : t = type
    · subst ht
      simp
    · rw [Function.update_of_ne ht]
      simp [ht]
  · rw [Contents.remove, Function.update_of_ne hk]
    simp [hk]

omit [Zero K] in
theorem Contents.remove_of_none {m : Contents K C} {key : K} {type : Fin n}
    (h : m key type = none) : m.remove key type = m := by
  rw [Contents.remove, ← h, Function.update_eq_self, Function.update_eq_self]

omit [Zero K] in
theorem Contents.foldl_remove (m : Contents K C) (key : K) (types : List (Fin n)) :
    types.foldl (fun m type => m.remove key type) m =
      Function.update m key fun type => if type ∈ types then none else m key type := by
  induction types generalizing m with
  | nil => simp
  | cons type types ih =>
    rw [List.foldl_cons, ih, Contents.remove, Function.update_idem, Function.update_self]
    congr 1
    funext t
    by_cases ht : t = type
    · subst ht
      simp
    · simp [ht]

def Contents.insert (m : Contents K C) (key : K) (type : Fin n) (x : C type) : Contents K C :=
  Function.update m key (Function.update (m key) type (some x))

omit [Zero K] in
theorem Contents.insert_self (m : Contents K C) (key : K) (type : Fin n) (x : C type) :
    m.insert key type x key type = some x := by
  rw [Contents.insert, Function.update_self, Function.update_self]

omit [Zero K] in
theorem Contents.insert_of_ne (m : Contents K C) {key key' : K} {type t : Fin n} (x : C type)
    (h : ¬ (t = type ∧ key' = key)) : m.insert key type x key' t = m key' t := by
  rw [Contents.insert]
  by_cases hk : key' = key
  · subst hk
    rw [Function.update_self, Function.update_of_ne fun ht => h ⟨ht, rfl⟩]
  · rw [Function.update_of_ne hk]

structure Refines (usize : K → ℕ) (c : MultiCollection K C) (m : Contents K C) : Prop where
  valid : c.Valid usize
  mem_arrays : ∀ type x key, (x, key) ∈ c.arrays type ↔ m key type = some x

section Refines

variable {usize : K → ℕ} {storage : LookupStorage} {c : MultiCollection K C} {m : Contents K C}
  {type : Fin n} {b : ℕ} {key : K}

omit [DecidableEq K] in
/-- The bucket of a key tells which components the key has. -/
theorem Refines.emptyAt_iff (h : c.Refines usize m) (hkey : key ≠ 0) (hb : c.lookup.keys b = key)
    (type : Fin n) : (c.lookup.slots b).emptyAt type ↔ m key type = none := by
  subst hb
  constructor
  · intro hempty
    refine Option.eq_none_iff_forall_not_mem.mpr fun x hx => ?_
    obtain ⟨i, hi⟩ := List.mem_iff_getElem?.mp ((h.mem_arrays type x _).mpr hx)
    obtain ⟨b', hb', hempty', -⟩ := h.valid.entry type i x _ hi
    rw [← h.valid.lookup.unique b b' hkey hb'.symm] at hempty'
    exact hempty' hempty
  · intro hnone
    by_contra hempty
    obtain ⟨x, hx⟩ := h.valid.component b type hempty
    rw [(h.mem_arrays type x _).mp (List.mem_of_getElem? hx)] at hnone
    exact Option.some_ne_none x hnone

omit [DecidableEq K] in
theorem Refines.getElem?_indices (h : c.Refines usize m)
    (hempty : ¬ (c.lookup.slots b).emptyAt type) :
    ((c.arrays type)[(c.lookup.slots b).indices type]?).map Prod.fst =
      m (c.lookup.keys b) type := by
  obtain ⟨x, hx⟩ := h.valid.component b type hempty
  rw [hx, (h.mem_arrays type x _).mp (List.mem_of_getElem? hx)]
  rfl

/-- A key has a bucket exactly when it has a component. -/
theorem Refines.find_eq_noBucket_iff (hn : n ≤ 64) (h : c.Refines usize m) (hkey : key ≠ 0) :
    c.find usize key = noBucket ↔ ∀ type, m key type = none := by
  constructor
  · intro hfind type
    refine Option.eq_none_iff_forall_not_mem.mpr fun x hx => ?_
    obtain ⟨i, hi⟩ := List.mem_iff_getElem?.mp ((h.mem_arrays type x _).mpr hx)
    obtain ⟨b, hb, -⟩ := h.valid.entry type i x _ hi
    exact (h.valid.lookup.find_ne_noBucket_iff hkey).mpr ⟨b, hb⟩ hfind
  · intro hnone
    by_contra hfind
    obtain ⟨b, hb⟩ := (h.valid.lookup.find_ne_noBucket_iff hkey).mp hfind
    refine h.valid.live b (hb ▸ hkey) ((MultiSlot.empty_iff hn).mpr fun type => ?_)
    exact (h.emptyAt_iff hkey hb type).mpr (hnone type)

theorem Refines.keys_find (h : c.Refines usize m) (hkey : key ≠ 0)
    (hfind : c.find usize key ≠ noBucket) : c.lookup.keys (c.find usize key) = key := by
  obtain ⟨b, hb⟩ := (h.valid.lookup.find_ne_noBucket_iff hkey).mp hfind
  rw [find, h.valid.lookup.find_eq hkey hb, hb]

theorem Refines.contains_find (hn : n ≤ 64) (h : c.Refines usize m) (hkey : key ≠ 0)
    (type : Fin n) : c.contains type (c.find usize key) ↔ (m key type).isSome := by
  by_cases hfind : c.find usize key = noBucket
  · simp [contains, hfind, (h.find_eq_noBucket_iff hn hkey).mp hfind type]
  · have hempty := h.emptyAt_iff hkey (h.keys_find hkey hfind) type
    simp [contains, hfind, hempty, Option.isSome_iff_ne_none]

theorem Refines.get_find (hn : n ≤ 64) (h : c.Refines usize m) (hkey : key ≠ 0) (type : Fin n) :
    c.get type (c.find usize key) = m key type := by
  rw [get]
  split_ifs with hfind hempty
  · exact ((h.find_eq_noBucket_iff hn hkey).mp hfind type).symm
  · exact ((h.emptyAt_iff hkey (h.keys_find hkey hfind) type).mp hempty).symm
  · rw [h.getElem?_indices hempty, h.keys_find hkey hfind]

omit [DecidableEq K] in
theorem refines_empty (hn : n ≤ 64) (hpos : 0 < storage.initialSize)
    (hle : storage.initialSize ≤ 2 ^ 32) :
    (empty storage : MultiCollection K C).Refines usize fun _ _ => none where
  valid := {
    lookup := LookupTable.zero_valid hpos hle
    blank := LookupTable.zero_blank MultiSlot.empty_zero _
    live := fun b hb => absurd rfl hb
    component := fun b type hempty =>
      absurd ((MultiSlot.empty_iff hn).mp MultiSlot.empty_zero type) hempty
    entry := fun type i x key hget => absurd hget (by simp [empty])
    short := fun _ => Nat.zero_le _ }
  mem_arrays := fun type x key => by simp [empty]

/-! ## Erasing -/

theorem Refines.removeAtImpl (hn : n ≤ 64) (h : c.Refines usize m)
    (hempty : ¬ (c.lookup.slots b).emptyAt type) :
    (c.removeAtImpl usize type b ((c.lookup.slots b).indices type)).Refines usize
      (m.remove (c.lookup.keys b) type) := by
  obtain ⟨hvalid, hmem⟩ := h.valid.removeAtImpl hn hempty
  refine ⟨hvalid, fun t x key => ?_⟩
  rw [hmem, h.mem_arrays, Contents.remove_eq_some]

theorem Refines.eraseType (hn : n ≤ 64) (h : c.Refines usize m) (hkey : key ≠ 0) (type : Fin n) :
    (c.eraseType usize type (c.find usize key)).Refines usize (m.remove key type) := by
  rw [MultiCollection.eraseType]
  split_ifs with hfind hempty
  · rw [Contents.remove_of_none ((h.find_eq_noBucket_iff hn hkey).mp hfind type)]
    exact h
  · rw [Contents.remove_of_none ((h.emptyAt_iff hkey (h.keys_find hkey hfind) type).mp hempty)]
    exact h
  · have hremoved := h.removeAtImpl hn hempty
    rwa [h.keys_find hkey hfind] at hremoved

/-- While the types of a key are removed one after another, its bucket tells which ones are
left, and loses the key with the last one. -/
theorem Refines.foldl_removeImpl (hn : n ≤ 64) (h : c.Refines usize m) (hkey : key ≠ 0)
    (hb : c.lookup.keys b = key ∨ ∀ t, m key t = none ∧ (c.lookup.slots b).emptyAt t)
    (types : List (Fin n)) : (types.foldl (removeImpl usize b) c).Refines usize
      (types.foldl (fun m type => m.remove key type) m) := by
  induction types generalizing c m with
  | nil => exact h
  | cons type types ih =>
    rw [List.foldl_cons, List.foldl_cons]
    by_cases hempty : (c.lookup.slots b).emptyAt type
    · have hnone : m key type = none := by
        rcases hb with hb | hnone
        · exact (h.emptyAt_iff hkey hb type).mp hempty
        · exact (hnone type).1
      rw [removeImpl, if_pos hempty, Contents.remove_of_none hnone]
      exact ih h hb
    · have hb' : c.lookup.keys b = key := hb.resolve_right fun hnone => hempty (hnone type).2
      have hremoved := h.removeAtImpl hn hempty
      rw [hb'] at hremoved
      rw [removeImpl, if_neg hempty]
      refine ih hremoved ?_
      obtain ⟨last, -, hr⟩ := h.valid.removes hn hempty
      by_cases hlost : ((c.removeAtImpl usize type b
          ((c.lookup.slots b).indices type)).lookup.slots b).empty
      · have hall := (MultiSlot.empty_iff hn).mp hlost
        refine .inr fun t => ⟨?_, hall t⟩
        -- All that the key had was in this bucket.
        refine Option.eq_none_iff_forall_not_mem.mpr fun x hx => ?_
        obtain ⟨hx, hne⟩ := (m.remove_eq_some key key type t x).mp hx
        have hleft : ¬ (c.lookup.slots b).emptyAt t := fun hgone => by
          rw [(h.emptyAt_iff hkey hb' t).mp hgone] at hx
          exact Option.some_ne_none x hx.symm
        rcases (hr.emptyAt b t).mp (hall t) with hgone | hgone
        · exact hleft hgone
        · exact hne ⟨hgone.2, rfl⟩
      · refine .inl ?_
        rw [hr.keys, if_neg fun hbt => hlost hbt.2, hb']

theorem Refines.erase (hn : n ≤ 64) (h : c.Refines usize m) (hkey : key ≠ 0) :
    (c.erase usize (c.find usize key)).Refines usize (Function.update m key fun _ => none) := by
  rw [MultiCollection.erase]
  split_ifs with hfind
  · have hnone : (fun type => none) = m key :=
      funext fun type => ((h.find_eq_noBucket_iff hn hkey).mp hfind type).symm
    rw [hnone, Function.update_eq_self]
    exact h
  · have hall := h.foldl_removeImpl hn hkey (.inl (h.keys_find hkey hfind)) (List.finRange n)
    rw [Contents.foldl_remove] at hall
    simpa only [List.mem_finRange, if_true] using hall

/-! ## Emplacing -/

omit [DecidableEq K] in
/-- Growing the table keeps what it holds. -/
theorem Refines.grow (hn : n ≤ 64) (h : c.Refines usize m) {lookup : LookupTable K (MultiSlot n)}
    (hvalid : lookup.Valid usize) (hblank : lookup.Blank fun slot => slot.empty)
    (hholds : ∀ key slot, key ≠ 0 → (lookup.Holds key slot ↔ c.lookup.Holds key slot)) :
    Refines usize { c with lookup := lookup } m := by
  have hold : ∀ b, lookup.keys b ≠ 0 →
      ∃ b', c.lookup.keys b' = lookup.keys b ∧ c.lookup.slots b' = lookup.slots b :=
    fun b hb => (hholds _ _ hb).mp ⟨b, rfl, rfl⟩
  refine ⟨⟨hvalid, hblank, fun b hb => ?_, fun b type hempty => ?_,
    fun type i x key hget => ?_, h.valid.short⟩, h.mem_arrays⟩
  · obtain ⟨b', hkeys, hslots⟩ := hold b hb
    change ¬ (lookup.slots b).empty
    rw [← hslots]
    exact h.valid.live b' (hkeys ▸ hb)
  · have hb : lookup.keys b ≠ 0 := fun hzero =>
      hempty ((MultiSlot.empty_iff hn).mp (hblank b hzero) type)
    obtain ⟨b', hkeys, hslots⟩ := hold b hb
    change ∃ x, (c.arrays type)[(lookup.slots b).indices type]? = some (x, lookup.keys b)
    rw [← hkeys, ← hslots]
    exact h.valid.component b' type (hslots ▸ hempty)
  · obtain ⟨b', hkeys, hempty, hindex⟩ := h.valid.entry type i x key hget
    have hkey : key ≠ 0 := hkeys ▸ h.valid.keys_ne_zero hn hempty
    obtain ⟨b, hb, hslot⟩ := (hholds key _ hkey).mpr ⟨b', hkeys, rfl⟩
    refine ⟨b, hb, ?_⟩
    change ¬ (lookup.slots b).emptyAt type ∧ (lookup.slots b).indices type = i
    rw [hslot]
    exact ⟨hempty, hindex⟩

/-- A component is added in the bucket of its key. -/
theorem Refines.place (hn : n ≤ 64) (h : c.Refines usize m) (hkey : key ≠ 0)
    (hshort : (c.arrays type).length < 2 ^ 16) (component : C type)
    (hempty : (c.lookup.slots b).emptyAt type)
    (hkeys : c.lookup.keys b = key ∨ c.lookup.keys b = 0) (hnew : m key type = none)
    (hvalid : (c.lookup.place b ((c.lookup.slots b).set type (c.arrays type).length) key).Valid
      usize) :
    Refines usize ⟨c.lookup.place b ((c.lookup.slots b).set type (c.arrays type).length) key,
      Function.update c.arrays type (c.arrays type ++ [(component, key)])⟩
      (m.insert key type component) := by
  have hself : ∀ t, ¬ (c.lookup.slots b).emptyAt t → c.lookup.keys b = key := fun t ht =>
    hkeys.resolve_right (h.valid.keys_ne_zero hn ht)
  refine ⟨⟨hvalid, h.valid.blank.place _ hkey, fun b' hb' => ?_, fun b' t ht => ?_,
    fun t i x key' hget => ?_, fun t => ?_⟩, fun t x key' => ?_⟩
  · simp only [LookupTable.place, Function.update_apply] at hb' ⊢
    split_ifs at hb' ⊢ with hbb
    · intro hnone
      have := (MultiSlot.emptyAt_set hn).mp ((MultiSlot.empty_iff hn).mp hnone type)
      exact this.2 rfl
    · exact h.valid.live b' hb'
  · simp only [LookupTable.place, Function.update_apply] at ht ⊢
    split_ifs at ht ⊢ with hbb
    · rw [MultiSlot.emptyAt_set hn, not_and_or, not_not] at ht
      rw [MultiSlot.indices_set hshort]
      by_cases htype : t = type
      · subst htype
        rw [if_pos rfl, Function.update_self]
        exact ⟨component, by simp⟩
      · have ht' := ht.resolve_right htype
        obtain ⟨x, hx⟩ := h.valid.component b t ht'
        rw [if_neg htype, Function.update_of_ne htype, hx, hself t ht']
        exact ⟨x, rfl⟩
    · obtain ⟨x, hx⟩ := h.valid.component b' t ht
      refine ⟨x, ?_⟩
      by_cases htype : t = type
      · subst htype
        rw [Function.update_self, List.getElem?_append_left (h.valid.index_lt ht), hx]
      · rw [Function.update_of_ne htype, hx]
  · -- An entry that was there before, or the new one.
    have hentry : (t = type ∧ i = (c.arrays type).length ∧ key' = key) ∨
        ((c.arrays t)[i]? = some (x, key')) := by
      by_cases htype : t = type
      · subst htype
        simp only [Function.update_self] at hget
        rcases Nat.lt_trichotomy i (c.arrays t).length with hlt | heq | hgt
        · rw [List.getElem?_append_left hlt] at hget
          exact .inr hget
        · subst heq
          rw [List.getElem?_concat_length] at hget
          exact .inl ⟨rfl, rfl, (congrArg Prod.snd (Option.some.inj hget)).symm⟩
        · rw [List.getElem?_eq_none (by simp; omega)] at hget
          exact absurd hget.symm (Option.some_ne_none _)
      · simp only [Function.update_of_ne htype] at hget
        exact .inr hget
    rcases hentry with ⟨rfl, rfl, rfl⟩ | hget
    · refine ⟨b, ?_⟩
      simp only [LookupTable.place, Function.update_self, MultiSlot.emptyAt_set hn,
        MultiSlot.indices_set hshort]
      simp
    · obtain ⟨b', hb', ht, hindex⟩ := h.valid.entry t i x key' hget
      refine ⟨b', ?_⟩
      simp only [LookupTable.place, Function.update_apply]
      split_ifs with hbb
      · subst hbb
        have htype : t ≠ type := fun htype => ht (htype ▸ hempty)
        rw [MultiSlot.emptyAt_set hn, MultiSlot.indices_set hshort, if_neg htype]
        exact ⟨(hself t ht).symm.trans hb', fun hnone => ht hnone.1, hindex⟩
      · exact ⟨hb', ht, hindex⟩
  · by_cases htype : t = type
    · subst htype
      simp only [Function.update_self, List.length_append]
      exact hshort
    · simpa [Function.update_of_ne htype] using h.valid.short t
  · by_cases hadded : t = type ∧ key' = key
    · obtain ⟨rfl, rfl⟩ := hadded
      have hnot : (x, key') ∉ c.arrays t := fun hmem => by
        rw [(h.mem_arrays t x key').mp hmem] at hnew
        exact Option.some_ne_none x hnew
      simp only [Function.update_self, List.mem_append, List.mem_singleton, Contents.insert_self,
        Prod.mk.injEq, and_true, Option.some.injEq, hnot, false_or]
      exact eq_comm
    · rw [Contents.insert_of_ne m component hadded, ← h.mem_arrays]
      by_cases htype : t = type
      · subst htype
        have hne : key' ≠ key := fun hk => hadded ⟨rfl, hk⟩
        simp [hne]
      · simp [Function.update_of_ne htype]

theorem Refines.emplace (hn : n ≤ 64) (h : c.Refines usize m) (hkey : key ≠ 0)
    {component : C type} {c' : MultiCollection K C} (hshort : (c.arrays type).length < 2 ^ 16)
    (hroom : c.find usize key = noBucket → c.lookup.HasRoom usize storage key)
    (hc : c.emplace usize storage type component key = .ok (c', true)) :
    c'.Refines usize (m.insert key type component) := by
  rw [MultiCollection.emplace, tryPlace] at hc
  by_cases hfind : c.find usize key = noBucket
  · rw [if_neg (not_not.mpr hfind)] at hc
    split at hc
    · simp at hc
    next lookup bucket hplace =>
      obtain ⟨hvalid, hbucket, hzero, hmem, hholds⟩ := h.valid.lookup.tryPlace (hroom hfind) hplace
      have hblank := h.valid.blank.tryPlace MultiSlot.empty_zero hplace
      have hgrown := h.grow hn hvalid hblank hholds
      have hnew : ∀ b, lookup.keys b ≠ key := fun b hb => by
        obtain ⟨b', hb', -⟩ := (hholds key _ hkey).mp ⟨b, hb, rfl⟩
        exact (h.valid.lookup.find_ne_noBucket_iff hkey).mpr ⟨b', hb'⟩ hfind
      have hempty := (MultiSlot.empty_iff hn).mp (hblank bucket hzero) type
      rw [if_neg hbucket, if_neg (not_not.mpr hempty)] at hc
      cases hc
      exact hgrown.place hn hkey hshort component hempty (.inr hzero)
        ((h.find_eq_noBucket_iff hn hkey).mp hfind type) (hvalid.place _ hbucket hmem hnew)
  · have hkeys := h.keys_find hkey hfind
    simp only [if_pos (show c.find usize key ≠ noBucket from hfind), if_neg hfind] at hc
    split_ifs at hc with hempty
    · cases hc
      exact h.place hn hkey hshort component hempty (.inl hkeys)
        ((h.emptyAt_iff hkey hkeys type).mp hempty) (h.valid.lookup.replace _ hkeys)
    · simp at hc

end Refines

/-! ## Runs -/

inductive Operation (K : Type*) {n : ℕ} (C : Fin n → Type*)
  | emplace (type : Fin n) (component : C type) (key : K)
  | eraseType (type : Fin n) (key : K)
  | erase (key : K)

/-- What an operation does to a map. -/
def Operation.write (m : Contents K C) : Operation K C → Contents K C
  | .emplace type component key => m.insert key type component
  | .eraseType type key => m.remove key type
  | .erase key => Function.update m key fun _ => none

/-- The component of each type last emplaced under each key and not erased since. -/
def contents (operations : List (Operation K C)) : Contents K C :=
  operations.foldl Operation.write fun _ _ => none

variable (usize : K → ℕ) (storage : LookupStorage)

/-- An operation on a collection, and whether it has succeeded. -/
def apply (c : MultiCollection K C) : Operation K C → Except Fault (MultiCollection K C × Bool)
  | .emplace type component key => c.emplace usize storage type component key
  | .eraseType type key => .ok (c.eraseType usize type (c.find usize key), true)
  | .erase key => .ok (c.erase usize (c.find usize key), true)

/-- Keys are not null, indices fit 16 bits, and a new key finds room in a table of at most
2^32 buckets. -/
def Operation.Fits (c : MultiCollection K C) : Operation K C → Prop
  | .emplace type _ key =>
    key ≠ 0 ∧ (c.arrays type).length < 2 ^ 16 ∧
      (c.find usize key = noBucket → c.lookup.HasRoom usize storage key)
  | .eraseType _ key | .erase key => key ≠ 0

/-- Collections reached by operations that fit and succeed. -/
inductive Run : List (Operation K C) → MultiCollection K C → Prop
  | empty : Run [] (empty storage)
  | apply {operations : List (Operation K C)} {operation : Operation K C}
      {c c' : MultiCollection K C} (run : Run operations c) (fits : operation.Fits usize storage c)
      (done : c.apply usize storage operation = .ok (c', true)) :
      Run (operations ++ [operation]) c'

/-- The collection is a map: lookups find exactly its components, a key is there exactly
when it has one, and the arrays hold exactly the components, without gaps. -/
structure IsMap (c : MultiCollection K C) (m : Contents K C) : Prop where
  find_iff : ∀ key, key ≠ 0 → (c.find usize key = noBucket ↔ ∀ type, m key type = none)
  contains_iff : ∀ key, key ≠ 0 → ∀ type,
    (c.contains type (c.find usize key) ↔ (m key type).isSome)
  get_eq : ∀ key, key ≠ 0 → ∀ type, c.get type (c.find usize key) = m key type
  getKey_eq : ∀ key, key ≠ 0 → c.find usize key ≠ noBucket → c.getKey (c.find usize key) = key
  dense : ∀ type, ((c.arrays type).map Prod.snd).Nodup
  mem_arrays : ∀ type x key, (x, key) ∈ c.arrays type ↔ m key type = some x

section Runs

variable {usize storage} {c : MultiCollection K C}

theorem Refines.isMap (hn : n ≤ 64) {m : Contents K C} (h : c.Refines usize m) :
    c.IsMap usize m where
  find_iff := fun _ hkey => h.find_eq_noBucket_iff hn hkey
  contains_iff := fun _ hkey => h.contains_find hn hkey
  get_eq := fun _ hkey => h.get_find hn hkey
  getKey_eq := fun _ hkey hfind => (if_neg hfind).trans (h.keys_find hkey hfind)
  dense := h.valid.nodup hn
  mem_arrays := h.mem_arrays

theorem Run.refines {operations : List (Operation K C)} (hn : n ≤ 64) (hstorage : storage.Fits)
    (h : Run usize storage operations c) : c.Refines usize (contents operations) := by
  induction h with
  | empty => exact refines_empty hn hstorage.initialSize_pos hstorage.initialSize_le
  | @apply operations operation c c' run fits done ih =>
    have hsnoc : contents (operations ++ [operation]) = operation.write (contents operations) := by
      simp [contents]
    rw [hsnoc]
    cases operation with
    | emplace type component key =>
      obtain ⟨hkey, hshort, hroom⟩ := fits
      exact ih.emplace hn hkey hshort hroom done
    | eraseType type key =>
      cases done
      exact ih.eraseType hn fits type
    | erase key =>
      cases done
      exact ih.erase hn fits

/-! ## The calls return -/

variable (usize) in
theorem size_removeImpl (c : MultiCollection K C) (b : ℕ) (type : Fin n) :
    (removeImpl usize b c type).lookup.size = c.lookup.size := by
  rw [removeImpl, MultiCollection.removeAtImpl]
  split_ifs
  · rfl
  · split <;> rfl

variable (usize) in
theorem size_foldl_removeImpl (b : ℕ) (types : List (Fin n)) (c : MultiCollection K C) :
    (types.foldl (removeImpl usize b) c).lookup.size = c.lookup.size := by
  induction types generalizing c with
  | nil => rfl
  | cons type types ih => rw [List.foldl_cons, ih, size_removeImpl]

variable (usize) in
theorem apply_ok (operation : Operation K C) (h : storage.Admits c.lookup.size) :
    ∃ c' done, c.apply usize storage operation = .ok (c', done) ∧
      storage.Admits c'.lookup.size := by
  cases operation with
  | emplace type component key =>
    have hplace : ∃ t b, c.tryPlace usize storage key = .ok (t, b) ∧ storage.Admits t.size := by
      rw [tryPlace]
      split_ifs
      · exact ⟨_, _, rfl, h⟩
      · exact LookupTable.tryPlace_admits usize key h
    obtain ⟨t, b, hplace, hadmits⟩ := hplace
    simp only [apply, MultiCollection.emplace, hplace]
    split_ifs
    · exact ⟨_, _, rfl, hadmits⟩
    · exact ⟨_, _, rfl, hadmits⟩
    · exact ⟨_, _, rfl, hadmits⟩
  | eraseType type key =>
    refine ⟨_, _, rfl, ?_⟩
    rw [MultiCollection.eraseType]
    split_ifs with hfind hempty
    · exact h
    · exact h
    · have hsize := size_removeImpl usize c (c.find usize key) type
      rw [removeImpl, if_neg hempty] at hsize
      rwa [hsize]
  | erase key =>
    refine ⟨_, _, rfl, ?_⟩
    rw [MultiCollection.erase]
    split_ifs
    · exact h
    · rwa [size_foldl_removeImpl]

theorem Run.admits {operations : List (Operation K C)} (h : Run usize storage operations c) :
    storage.Admits c.lookup.size := by
  induction h with
  | empty =>
    cases storage with
    | heap => exact ⟨0, Nat.succ_pos 63, clp2_one⟩
    | fixed capacity => trivial
  | @apply operations operation c c' run fits done ih =>
    obtain ⟨c'', done', heq, hadmits⟩ := apply_ok usize operation ih
    rw [heq] at done
    cases done
    exact hadmits

theorem emplace_of_tryPlace {key : K} {t : LookupTable K (MultiSlot n)} {b : ℕ} (type : Fin n)
    (component : C type) (hnew : c.lookup.find usize key = noBucket)
    (hplace : c.lookup.tryPlace usize storage key LookupTable.placeFuel = .ok (t, b))
    (hb : b ≠ noBucket) (hempty : (t.slots b).emptyAt type) :
    c.emplace usize storage type component key =
      .ok (⟨t.place b ((t.slots b).set type (c.arrays type).length) key,
        Function.update c.arrays type (c.arrays type ++ [(component, key)])⟩, true) := by
  have hfind : c.tryPlace usize storage key = .ok (t, b) :=
    (if_neg (not_not.mpr hnew)).trans hplace
  rw [MultiCollection.emplace, hfind]
  exact (if_neg hb).trans (if_neg (not_not.mpr hempty))

end Runs

/-! ## A key that is lost

The lookup table is the one of `Collection`, and loses the first of six colliding keys. -/

section Overflow

open LookupTable

/-- Components of two types, by 32-bit keys. -/
abbrev Pairs : Fin 2 → Type := fun _ => ℕ

theorem neZero_two : NeZero 2 := ⟨by decide⟩

attribute [local instance] neZero_two

def emplaceColliding (i : ℕ) : Operation UInt32 Pairs := .emplace 0 i (collidingKey i)

/-- Operations that all succeed. -/
def applyAll (c : MultiCollection UInt32 Pairs) :
    List (Operation UInt32 Pairs) → Option (MultiCollection UInt32 Pairs)
  | [] => some c
  | operation :: operations =>
    match c.apply UInt32.toNat .heap operation with
    | .ok (c, true) => applyAll c operations
    | _ => none

theorem applyAll_append (c : MultiCollection UInt32 Pairs)
    (operations operations' : List (Operation UInt32 Pairs)) :
    applyAll c (operations ++ operations') =
      (applyAll c operations).bind fun c => applyAll c operations' := by
  induction operations generalizing c with
  | nil => rfl
  | cons first operations ih =>
    simp only [List.cons_append, applyAll]
    split
    · exact ih _
    · rfl

theorem applyAll_singleton {c c' : MultiCollection UInt32 Pairs}
    (operation : Operation UInt32 Pairs)
    (h : c.apply UInt32.toNat .heap operation = .ok (c', true)) :
    applyAll c [operation] = some c' := by
  rw [applyAll, h]
  rfl

/-- The slots of the colliding keys. -/
def collidingSlot (i : ℕ) : MultiSlot 2 := MultiSlot.set 0 0 i

theorem applyAll_five : ∃ arrays,
    applyAll (empty .heap) ([1, 2, 3, 4, 5].map emplaceColliding) =
      some ⟨collidingKeys collidingSlot 32 5, arrays⟩ := ⟨_, rfl⟩

/-- In a table of 2^33 buckets the third key is written over the first one. -/
theorem rehash_overflow : ∃ t : LookupTable UInt32 (MultiSlot 2),
    (collidingKeys collidingSlot (2 ^ 32) 5).rehash UInt32.toNat (2 ^ 33) = some t ∧
      t.findEmpty UInt32.toNat (collidingKey 6) = 9 ∧ (t.slots 9).emptyAt 0 ∧
      ∀ slot, (t.place 9 slot (collidingKey 6)).find UInt32.toNat (collidingKey 1) = noBucket := by
  rw [rehash_collidingKeys_max]
  exact ⟨_, rfl, rfl, rfl, fun slot => rfl⟩

/-- The sixth key is placed over a table that has lost the first. -/
theorem emplace_overflow (arrays : (type : Fin 2) → List (Pairs type × UInt32)) : ∃ c,
    applyAll ⟨collidingKeys collidingSlot 32 5, arrays⟩ [emplaceColliding 6] = some c ∧
      c.find UInt32.toNat (collidingKey 1) = noBucket := by
  obtain ⟨t, hrehash, hempty, hslot, hlost⟩ := rehash_overflow
  have hnew : (collidingKeys collidingSlot 32 5).find UInt32.toNat (collidingKey 6) = noBucket :=
    rfl
  have hplace := tryPlace_collidingKeys_overflow hrehash hempty
  have hbucket : 9 ≠ noBucket := by decide
  have hsix := applyAll_singleton (emplaceColliding 6)
    (emplace_of_tryPlace (c := ⟨collidingKeys collidingSlot 32 5, arrays⟩) 0 (6 : ℕ) hnew hplace
      hbucket hslot)
  exact ⟨_, hsix, hlost _⟩

end Overflow

end Fimbulwinter.MultiCollection
