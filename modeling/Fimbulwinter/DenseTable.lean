import Fimbulwinter.UnstableErase
import Mathlib.Data.List.Nodup

/-! # Keyed tables made of dense arrays

A table keeps one row for each key. Rows of one kind form a dense array, in the
order of the rows; removing a row moves the last row of its kind into the hole.
Keys, values and kinds are arbitrary. -/
namespace Fimbulwinter

variable {K V ι : Type*} [DecidableEq K] [DecidableEq ι]

/-- Split a list at the last element that satisfies `p`. -/
def splitLast {α : Type*} (p : α → Bool) : List α → Option (List α × α × List α)
  | [] => none
  | x :: xs => match splitLast p xs with
    | some (before, last, after) => some (x :: before, last, after)
    | none => if p x then some ([], x, xs) else none

theorem splitLast_none {α : Type*} {p : α → Bool} {xs : List α} (h : splitLast p xs = none) :
    ∀ x ∈ xs, p x = false := by
  induction xs with
  | nil => simp
  | cons x xs ih =>
    cases hs : splitLast p xs with
    | some r => simp [splitLast, hs] at h
    | none =>
      have hx : p x = false := by simpa [splitLast, hs] using h
      exact List.forall_mem_cons.mpr ⟨hx, ih hs⟩

theorem splitLast_some {α : Type*} {p : α → Bool} {xs before after : List α} {last : α}
    (h : splitLast p xs = some (before, last, after)) :
    xs = before ++ last :: after ∧ p last = true ∧ ∀ x ∈ after, p x = false := by
  induction xs generalizing before with
  | nil => simp [splitLast] at h
  | cons x xs ih =>
    cases hs : splitLast p xs with
    | some r =>
      obtain ⟨b, l, a⟩ := r
      simp only [splitLast, hs, Option.some.injEq, Prod.mk.injEq] at h
      obtain ⟨rfl, rfl, rfl⟩ := h
      obtain ⟨hxs, hp, ha⟩ := ih hs
      exact ⟨by rw [hxs, List.cons_append], hp, ha⟩
    | none =>
      simp only [splitLast, hs] at h
      split at h
      next hp =>
        simp only [Option.some.injEq, Prod.mk.injEq] at h
        obtain ⟨rfl, rfl, rfl⟩ := h
        exact ⟨rfl, hp, splitLast_none hs⟩
      next => simp at h

/-- Rows with pairwise distinct keys. -/
structure DenseTable (K V : Type*) where
  rows : List (K × V)
  nodup : (rows.map Prod.fst).Nodup

namespace DenseTable

/-- Remove the row of `k`; the last later row of the same kind takes its place. -/
def eraseRows (kind : V → ι) (k : K) : List (K × V) → List (K × V)
  | [] => []
  | r :: rest =>
    if r.1 = k then
      match splitLast (fun q : K × V => kind q.2 = kind r.2) rest with
      | none => rest
      | some (before, last, after) => last :: (before ++ after)
    else r :: eraseRows kind k rest

theorem eraseRows_perm (kind : V → ι) (k : K) (rows : List (K × V)) :
    (eraseRows kind k rows).Perm (rows.eraseP (fun r => r.1 = k)) := by
  induction rows with
  | nil => exact .refl _
  | cons r rest ih =>
    by_cases hk : r.1 = k
    · simp only [eraseRows, hk, if_true, decide_true, List.eraseP_cons_of_pos]
      cases hs : splitLast (fun q : K × V => kind q.2 = kind r.2) rest with
      | none => exact .refl _
      | some s =>
        obtain ⟨before, last, after⟩ := s
        obtain ⟨hrest, -, -⟩ := splitLast_some hs
        rw [hrest]
        exact List.perm_middle.symm
    · simp only [eraseRows, hk, if_false, decide_false, Bool.false_eq_true, not_false_eq_true,
        List.eraseP_cons_of_neg]
      exact ih.cons r

theorem nodup_eraseRows (kind : V → ι) (k : K) {rows : List (K × V)}
    (h : (rows.map Prod.fst).Nodup) : ((eraseRows kind k rows).map Prod.fst).Nodup :=
  (((eraseRows_perm kind k rows).map Prod.fst).nodup_iff).mpr
    (h.sublist ((List.eraseP_sublist).map Prod.fst))

/-- The table without rows. -/
def empty : DenseTable K V := ⟨[], List.nodup_nil⟩

instance : EmptyCollection (DenseTable K V) := ⟨empty⟩

instance : Inhabited (DenseTable K V) := ⟨empty⟩

instance [DecidableEq V] : DecidableEq (DenseTable K V) := fun s t =>
  decidable_of_iff (s.rows = t.rows) ⟨fun h => by cases s; cases t; cases h; rfl, fun h => by rw [h]⟩

/-- The value stored under a key. -/
def find (t : DenseTable K V) (k : K) : Option V :=
  (t.rows.find? (fun r => r.1 = k)).map Prod.snd

/-- Append a row; a key that is already present is refused. -/
def emplace (t : DenseTable K V) (k : K) (v : V) : Option (DenseTable K V) :=
  if h : k ∈ t.rows.map Prod.fst then none
  else some ⟨t.rows ++ [(k, v)], by
    rw [List.map_append, List.map_singleton]
    exact List.nodup_append.mpr ⟨t.nodup, List.nodup_singleton k,
      fun a ha b hb hab => h (by rwa [hab, List.mem_singleton.mp hb] at ha)⟩⟩

/-- Change the value under a key in place. -/
def modify (t : DenseTable K V) (k : K) (f : V → V) : DenseTable K V where
  rows := t.rows.map (fun r => if r.1 = k then (r.1, f r.2) else r)
  nodup := by
    have hkeys : (t.rows.map (fun r => if r.1 = k then (r.1, f r.2) else r)).map Prod.fst =
        t.rows.map Prod.fst := by
      rw [List.map_map]
      refine List.map_congr_left fun r _ => ?_
      by_cases h : r.1 = k <;> simp [h]
    rw [hkeys]
    exact t.nodup

/-- Remove the row of a key; its array stays dense. -/
def erase (kind : V → ι) (t : DenseTable K V) (k : K) : DenseTable K V :=
  ⟨eraseRows kind k t.rows, nodup_eraseRows kind k t.nodup⟩

/-- The dense array of one kind. -/
def array (kind : V → ι) (t : DenseTable K V) (i : ι) : List (K × V) :=
  t.rows.filter (fun r => kind r.2 = i)

/-- The index of a key in the dense array of a kind. -/
def position (kind : V → ι) (t : DenseTable K V) (i : ι) (k : K) : ℕ :=
  (t.array kind i).findIdx (fun r => r.1 = k)

section Find

variable {t : DenseTable K V} {k k' : K} {v : V}

theorem find_eq_some_iff : t.find k = some v ↔ (k, v) ∈ t.rows := by
  constructor
  · intro h
    obtain ⟨r, hr, rfl⟩ := Option.map_eq_some_iff.mp h
    have hk : r.1 = k := by simpa using List.find?_some hr
    rw [← hk]
    exact List.mem_of_find?_eq_some hr
  · intro h
    cases hf : t.rows.find? (fun r => r.1 = k) with
    | none =>
      have := List.find?_eq_none.mp hf (k, v) h
      simp at this
    | some r =>
      have hk : r.1 = k := by simpa using List.find?_some hf
      have hr : r ∈ t.rows := List.mem_of_find?_eq_some hf
      have : r = (k, v) := List.inj_on_of_nodup_map t.nodup hr h hk
      simp [find, hf, this]

theorem find_eq_none_iff : t.find k = none ↔ k ∉ t.rows.map Prod.fst := by
  constructor
  · intro h hk
    obtain ⟨⟨k', v⟩, hr, rfl⟩ := List.mem_map.mp hk
    rw [find_eq_some_iff.mpr hr] at h
    simp at h
  · intro h
    refine Option.eq_none_iff_forall_ne_some.mpr fun v hv => h ?_
    exact List.mem_map.mpr ⟨(k, v), find_eq_some_iff.mp hv, rfl⟩

@[simp] theorem find_empty (k : K) : (∅ : DenseTable K V).find k = none := rfl

theorem emplace_eq_none_iff : t.emplace k v = none ↔ t.find k ≠ none := by
  rw [Ne, find_eq_none_iff, not_not]
  unfold emplace
  split <;> simp_all

theorem emplace_of_find_eq_none (h : t.find k = none) : ∃ t', t.emplace k v = some t' := by
  rw [← Option.ne_none_iff_exists', Ne, emplace_eq_none_iff]
  simp [h]

theorem rows_emplace {t' : DenseTable K V} (h : t.emplace k v = some t') :
    t'.rows = t.rows ++ [(k, v)] := by
  unfold emplace at h
  split at h
  · simp at h
  · rw [← Option.some.inj h]

theorem find_of_emplace {t' : DenseTable K V} (h : t.emplace k v = some t') :
    t.find k = none := by
  by_contra hne
  rw [emplace_eq_none_iff.mpr hne] at h
  simp at h

theorem find_emplace {t' : DenseTable K V} (h : t.emplace k v = some t') (k' : K) :
    t'.find k' = if k' = k then some v else t.find k' := by
  have hnone := find_of_emplace h
  refine Option.ext fun w => ?_
  rw [find_eq_some_iff, rows_emplace h, List.mem_append, List.mem_singleton]
  by_cases hk : k' = k
  · subst hk
    rw [← find_eq_some_iff, hnone]
    simp [eq_comm]
  · simp [hk, find_eq_some_iff]

theorem find_modify (t : DenseTable K V) (k : K) (f : V → V) (k' : K) :
    (t.modify k f).find k' = if k' = k then (t.find k).map f else t.find k' := by
  refine Option.ext fun w => ?_
  rw [find_eq_some_iff]
  simp only [modify, List.mem_map]
  by_cases hk : k' = k
  · subst hk
    simp only [if_true, Option.map_eq_some_iff, find_eq_some_iff]
    constructor
    · rintro ⟨⟨a, b⟩, hr, he⟩
      by_cases ha : a = k'
      · subst ha
        simp only [if_true, Prod.mk.injEq, true_and] at he
        exact ⟨b, hr, he⟩
      · simp [ha] at he
    · rintro ⟨b, hr, rfl⟩
      exact ⟨(k', b), hr, by simp⟩
  · simp only [hk, if_false, find_eq_some_iff]
    constructor
    · rintro ⟨⟨a, b⟩, hr, he⟩
      by_cases ha : a = k
      · subst ha
        simp [Ne.symm hk] at he
      · simp only [ha, if_false] at he
        exact he ▸ hr
    · intro hr
      exact ⟨(k', w), hr, by simp [hk]⟩

/-- A present key splits the rows around its only row. -/
theorem rows_split (h : t.find k = some v) :
    ∃ l₁ l₂, t.rows = l₁ ++ (k, v) :: l₂ ∧ (∀ r ∈ l₁, r.1 ≠ k) ∧ ∀ r ∈ l₂, r.1 ≠ k := by
  obtain ⟨l₁, l₂, hrows⟩ := List.append_of_mem (find_eq_some_iff.mp h)
  have hnodup := t.nodup
  rw [hrows, List.map_append, List.map_cons] at hnodup
  have hnot := (List.nodup_cons.mp (List.nodup_middle.mp hnodup)).1
  rw [List.mem_append, not_or] at hnot
  exact ⟨l₁, l₂, hrows, fun r hr he => hnot.1 (List.mem_map.mpr ⟨r, hr, he⟩),
    fun r hr he => hnot.2 (List.mem_map.mpr ⟨r, hr, he⟩)⟩

theorem erase_perm (kind : V → ι) {l₁ l₂ : List (K × V)} (hrows : t.rows = l₁ ++ (k, v) :: l₂)
    (h₁ : ∀ r ∈ l₁, r.1 ≠ k) : (t.erase kind k).rows.Perm (l₁ ++ l₂) := by
  have hperm := eraseRows_perm kind k t.rows
  have herase : t.rows.eraseP (fun r => r.1 = k) = l₁ ++ l₂ := by
    rw [hrows, List.eraseP_append_right _ (fun r hr => by simpa using h₁ r hr)]
    simp
  rwa [herase] at hperm

theorem mem_rows_erase (kind : V → ι) (t : DenseTable K V) (k : K) (r : K × V) :
    r ∈ (t.erase kind k).rows ↔ r ∈ t.rows ∧ r.1 ≠ k := by
  cases hf : t.find k with
  | none =>
    have hk : ∀ q ∈ t.rows, q.1 ≠ k := fun q hq he =>
      find_eq_none_iff.mp hf (List.mem_map.mpr ⟨q, hq, he⟩)
    have hperm := eraseRows_perm kind k t.rows
    rw [List.eraseP_of_forall_not (fun q hq => by simpa using hk q hq)] at hperm
    exact hperm.mem_iff.trans ⟨fun hr => ⟨hr, hk r hr⟩, And.left⟩
  | some v =>
    obtain ⟨l₁, l₂, hrows, h₁, h₂⟩ := rows_split hf
    rw [(erase_perm kind hrows h₁).mem_iff, hrows, List.mem_append, List.mem_append,
      List.mem_cons]
    constructor
    · rintro (hr | hr)
      · exact ⟨.inl hr, h₁ r hr⟩
      · exact ⟨.inr (.inr hr), h₂ r hr⟩
    · rintro ⟨hr | rfl | hr, hk⟩
      · exact .inl hr
      · exact absurd rfl hk
      · exact .inr hr

/-- Erasing a key that is not there changes nothing. -/
theorem erase_of_find_eq_none (kind : V → ι) (h : t.find k = none) : t.erase kind k = t := by
  have hrows : ∀ rows : List (K × V), k ∉ rows.map Prod.fst → eraseRows kind k rows = rows := by
    intro rows hk
    induction rows with
    | nil => rfl
    | cons r rest ih =>
      rw [List.map_cons, List.mem_cons, not_or] at hk
      rw [eraseRows, if_neg (Ne.symm hk.1), ih hk.2]
  obtain ⟨rows, nodup⟩ := t
  simp only [erase, hrows rows (find_eq_none_iff.mp h)]

theorem find_erase (kind : V → ι) (t : DenseTable K V) (k k' : K) :
    (t.erase kind k).find k' = if k' = k then none else t.find k' := by
  refine Option.ext fun w => ?_
  rw [find_eq_some_iff, mem_rows_erase]
  by_cases hk : k' = k
  · simp [hk]
  · simp [hk, find_eq_some_iff]

end Find

section Array

variable {t : DenseTable K V} {k : K} {v : V}

theorem mem_array_iff (kind : V → ι) (i : ι) :
    (k, v) ∈ t.array kind i ↔ t.find k = some v ∧ kind v = i := by
  simp [array, find_eq_some_iff]

omit [DecidableEq K] in
theorem nodup_array (kind : V → ι) (t : DenseTable K V) (i : ι) :
    ((t.array kind i).map Prod.fst).Nodup :=
  t.nodup.sublist ((List.filter_sublist).map Prod.fst)

theorem array_emplace (kind : V → ι) {t' : DenseTable K V} (h : t.emplace k v = some t') (i : ι) :
    t'.array kind i = if kind v = i then t.array kind i ++ [(k, v)] else t.array kind i := by
  simp only [array, rows_emplace h, List.filter_append]
  by_cases hi : kind v = i <;> simp [hi]

/-- The key at an index of an array has that index as its position. -/
theorem position_eq_of_getElem? (kind : V → ι) {i : ι} {j : ℕ}
    (h : (t.array kind i)[j]? = some (k, v)) : t.position kind i k = j := by
  obtain ⟨hj, hget⟩ := List.getElem?_eq_some_iff.mp h
  have hkey : (t.array kind i)[j].1 = k := by rw [hget]
  have hlt : t.position kind i k < (t.array kind i).length :=
    List.findIdx_lt_length.mpr ⟨_, List.getElem_mem hj, by simpa using hkey⟩
  have hpos : ((t.array kind i)[t.position kind i k]).1 = k := by
    have := List.findIdx_getElem (p := fun r : K × V => decide (r.1 = k)) (w := hlt)
    exact of_decide_eq_true this
  have hnodup := List.nodup_iff_injective_get.mp (nodup_array kind t i)
  have := @hnodup ⟨t.position kind i k, by simpa using hlt⟩ ⟨j, by simpa using hj⟩
    (by simp [hpos, hkey])
  simpa using this

/-- A key of a kind is found at its position in the array of the kind. -/
theorem getElem?_position (kind : V → ι) (h : t.find k = some v) :
    (t.array kind (kind v))[t.position kind (kind v) k]? = some (k, v) := by
  have hmem : (k, v) ∈ t.array kind (kind v) := (mem_array_iff kind _).mpr ⟨h, rfl⟩
  obtain ⟨j, hj⟩ := List.mem_iff_getElem?.mp hmem
  rwa [position_eq_of_getElem? kind hj]

theorem position_lt (kind : V → ι) (h : t.find k = some v) :
    t.position kind (kind v) k < (t.array kind (kind v)).length :=
  (List.getElem?_eq_some_iff.mp (getElem?_position kind h)).1

private theorem filter_eraseRows (kind : V → ι) (i : ι) {rows : List (K × V)}
    (hnodup : (rows.map Prod.fst).Nodup) (h : (k, v) ∈ rows) :
    (eraseRows kind k rows).filter (fun r => kind r.2 = i) =
      if kind v = i then
        UnstableErase.swapErase (rows.filter fun r => kind r.2 = i)
          ((rows.filter fun r => kind r.2 = i).findIdx fun r => r.1 = k)
      else rows.filter fun r => kind r.2 = i := by
  induction rows with
  | nil => simp at h
  | cons r rest ih =>
    obtain ⟨hr, hrest⟩ := List.nodup_cons.mp hnodup
    by_cases hk : r.1 = k
    · have hrv : r = (k, v) := by
        rcases List.mem_cons.mp h with h | h
        · exact h.symm
        · exact absurd (List.mem_map.mpr ⟨(k, v), h, hk.symm⟩) hr
      subst hrv
      simp only [eraseRows, if_true]
      cases hs : splitLast (fun q : K × V => kind q.2 = kind v) rest with
      | none =>
        have hnone := splitLast_none hs
        by_cases hi : kind v = i
        · subst hi
          have hnil : rest.filter (fun q => kind q.2 = kind v) = [] :=
            List.filter_eq_nil_iff.mpr fun q hq => by simpa using hnone q hq
          simp [hnil, UnstableErase.swapErase, List.findIdx_cons]
        · simp [hi]
      | some s =>
        obtain ⟨before, last, after⟩ := s
        obtain ⟨rfl, hlast, hafter⟩ := splitLast_some hs
        have hlast : kind last.2 = kind v := by simpa using hlast
        by_cases hi : kind v = i
        · subst hi
          have hnil : after.filter (fun q => kind q.2 = kind v) = [] :=
            List.filter_eq_nil_iff.mpr fun q hq => by simpa using hafter q hq
          have := UnstableErase.swapErase_append_singleton
            ((k, v) :: before.filter fun q => kind q.2 = kind v) last (Nat.zero_le _)
          simp only [List.cons_append, List.set_cons_zero] at this
          simp [List.filter_append, hlast, hnil, List.findIdx_cons, this]
        · simp [List.filter_append, hlast, hi]
    · have hmem : (k, v) ∈ rest := by
        rcases List.mem_cons.mp h with h | h
        · exact absurd (by rw [← h]) hk
        · exact h
      simp only [eraseRows, hk, if_false]
      by_cases hri : kind r.2 = i
      · rw [List.filter_cons_of_pos (by simpa using hri),
          List.filter_cons_of_pos (by simpa using hri), ih hrest hmem]
        by_cases hi : kind v = i
        · have hidx : ((rest.filter fun r => kind r.2 = i).findIdx fun r => r.1 = k) <
              (rest.filter fun r => kind r.2 = i).length :=
            List.findIdx_lt_length.mpr ⟨(k, v), by simp [hmem, hi], by simp⟩
          simp only [hi, if_true, List.findIdx_cons, hk, decide_false, cond_false]
          exact (UnstableErase.swapErase_cons r _ hidx).symm
        · simp [hi]
      · rw [List.filter_cons_of_neg (by simpa using hri),
          List.filter_cons_of_neg (by simpa using hri), ih hrest hmem]

/-- Erasing a key erases it unstably from the array of its kind. -/
theorem array_erase (kind : V → ι) (h : t.find k = some v) (i : ι) :
    (t.erase kind k).array kind i =
      if kind v = i then UnstableErase.swapErase (t.array kind i) (t.position kind i k)
      else t.array kind i :=
  filter_eraseRows kind i t.nodup (find_eq_some_iff.mp h)

theorem array_modify (kind : V → ι) (t : DenseTable K V) (k : K) {f : V → V}
    (hf : ∀ v, kind (f v) = kind v) (i : ι) :
    (t.modify k f).array kind i =
      (t.array kind i).map fun r => if r.1 = k then (r.1, f r.2) else r := by
  rw [array, array, modify, List.filter_map]
  congr 2
  funext r
  simp only [Function.comp_apply]
  split <;> simp [hf]

theorem position_modify (kind : V → ι) (t : DenseTable K V) (k : K) {f : V → V}
    (hf : ∀ v, kind (f v) = kind v) (i : ι) (k' : K) :
    (t.modify k f).position kind i k' = t.position kind i k' := by
  rw [position, position, array_modify kind t k hf, List.findIdx_map]
  congr 1
  funext r
  simp only [Function.comp_apply]
  split <;> rfl

theorem position_emplace (kind : V → ι) {t' : DenseTable K V} (h : t.emplace k v = some t')
    {k' : K} {v' : V} (h' : t.find k' = some v') :
    t'.position kind (kind v') k' = t.position kind (kind v') k' := by
  have hget := getElem?_position kind h'
  have hlt := position_lt kind h'
  apply position_eq_of_getElem? kind (v := v')
  rw [array_emplace kind h]
  split
  · rw [List.getElem?_append_left hlt, hget]
  · exact hget

/-- Two keys of a kind are in different places. -/
theorem position_inj (kind : V → ι) {k' : K} {v' : V} (h : t.find k = some v)
    (h' : t.find k' = some v') (hkind : kind v = kind v')
    (heq : t.position kind (kind v) k = t.position kind (kind v') k') : k = k' := by
  have hget := getElem?_position kind h
  rw [heq, hkind, getElem?_position kind h'] at hget
  exact (Prod.mk.inj (Option.some.inj hget)).1.symm

/-- A key that is not in the last place stays where it is when another one goes. -/
theorem position_erase (kind : V → ι) {k' : K} {v' : V} (h : t.find k = some v)
    (h' : t.find k' = some v') (hkind : kind v = kind v') (hne : k' ≠ k)
    (hlast : t.position kind (kind v') k' + 1 ≠ (t.array kind (kind v')).length) :
    (t.erase kind k).position kind (kind v') k' = t.position kind (kind v') k' := by
  have hlt := position_lt kind h
  have hlt' := position_lt kind h'
  have hplace : t.position kind (kind v') k' ≠ t.position kind (kind v) k := fun heq =>
    hne (position_inj kind h' h hkind.symm heq)
  rw [hkind] at hlt hplace
  apply position_eq_of_getElem? kind (v := v')
  rw [array_erase kind h, if_pos hkind,
    UnstableErase.getElem?_swapErase _ hlt (by omega), if_neg hplace, getElem?_position kind h']

end Array

section Sum

/-- The total of a measure over the rows. -/
def sum (f : K → V → ℕ) (t : DenseTable K V) : ℕ := (t.rows.map (fun r => f r.1 r.2)).sum

variable {f : K → V → ℕ} {t : DenseTable K V} {k : K} {v : V}

theorem sum_emplace {t' : DenseTable K V} (h : t.emplace k v = some t') :
    t'.sum f = t.sum f + f k v := by
  simp [sum, rows_emplace h]

theorem sum_erase (kind : V → ι) (h : t.find k = some v) :
    (t.erase kind k).sum f + f k v = t.sum f := by
  obtain ⟨l₁, l₂, hrows, h₁, -⟩ := rows_split h
  have hsum := ((erase_perm kind hrows h₁).map (fun r => f r.1 r.2)).sum_nat
  simp only [sum, hsum, hrows, List.map_append, List.map_cons, List.sum_append, List.sum_cons]
  omega

theorem sum_modify (g : V → V) (h : t.find k = some v) :
    (t.modify k g).sum f + f k v = t.sum f + f k (g v) := by
  obtain ⟨l₁, l₂, hrows, h₁, h₂⟩ := rows_split h
  have hid : ∀ l : List (K × V), (∀ r ∈ l, r.1 ≠ k) →
      l.map (fun r => if r.1 = k then (r.1, g r.2) else r) = l := by
    intro l hl
    conv_rhs => rw [← List.map_id l]
    exact List.map_congr_left fun r hr => by simp [hl r hr]
  simp only [sum, modify, hrows, List.map_append, List.map_cons, hid l₁ h₁, hid l₂ h₂, if_true,
    List.sum_append, List.sum_cons]
  omega

theorem le_sum (h : t.find k = some v) : f k v ≤ t.sum f := by
  have := sum_erase (f := f) (fun _ => ()) h
  omega

theorem sum_eq_zero (h : ∀ k v, t.find k = some v → f k v = 0) : t.sum f = 0 := by
  refine List.sum_eq_zero_iff_forall_eq_nat.mpr fun n hn => ?_
  obtain ⟨⟨k, v⟩, hr, rfl⟩ := List.mem_map.mp hn
  exact h k v (find_eq_some_iff.mpr hr)

end Sum

end DenseTable

end Fimbulwinter
