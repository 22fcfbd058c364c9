import Mathlib.Data.List.Nodup

/-! # Lists searched by a key

Lists whose elements have pairwise distinct keys, and the operations that look for the
first element with a key. Keys and elements are arbitrary. -/
namespace Fimbulwinter.KeyedList

variable {α K : Type*} [DecidableEq K] {key : α → K} {k : K} {a : α} {l : List α}

/-- Change the first element that satisfies `p`. -/
def modifyFirst (p : α → Bool) (f : α → α) : List α → List α
  | [] => []
  | a :: l => if p a then f a :: l else a :: modifyFirst p f l

/-- With distinct keys, the only element with a key is changed. -/
theorem modifyFirst_eq_map (h : (l.map key).Nodup) (f : α → α) :
    modifyFirst (fun a => key a = k) f l = l.map fun a => if key a = k then f a else a := by
  induction l with
  | nil => rfl
  | cons a l ih =>
    obtain ⟨hnot, hnodup⟩ := List.nodup_cons.mp h
    by_cases hk : key a = k
    · have hother : l.map (fun a => if key a = k then f a else a) = l := by
        refine (List.map_congr_left fun b hb => ?_).trans (List.map_id l)
        refine if_neg fun hb' => hnot ?_
        rw [hk, ← hb']
        exact List.mem_map_of_mem hb
      simp [modifyFirst, hk, hother]
    · simp [modifyFirst, hk, ih hnodup]

/-- With distinct keys, the first element that satisfies a predicate is changed. -/
theorem modifyFirst_of_find? (h : (l.map key).Nodup) {p : α → Bool} (hfind : l.find? p = some a)
    (f : α → α) : modifyFirst p f l = l.map fun b => if key b = key a then f b else b := by
  rw [← modifyFirst_eq_map h]
  induction l with
  | nil => cases hfind
  | cons b l ih =>
    obtain ⟨hnot, hnodup⟩ := List.nodup_cons.mp h
    by_cases hp : p b = true
    · rw [List.find?_cons_of_pos hp] at hfind
      cases hfind
      simp [modifyFirst, hp]
    · rw [List.find?_cons_of_neg hp] at hfind
      have hne : key b ≠ key a := fun heq =>
        hnot (heq ▸ List.mem_map_of_mem (List.mem_of_find?_eq_some hfind))
      simp [modifyFirst, hp, hne, ih hnodup hfind]

omit [DecidableEq K] in
theorem map_key_modifyFirst {p : α → Bool} {f : α → α} (h : ∀ a, key (f a) = key a) :
    (modifyFirst p f l).map key = l.map key := by
  induction l with
  | nil => rfl
  | cons a l ih =>
    unfold modifyFirst
    split
    · rw [List.map_cons, List.map_cons, h]
    · rw [List.map_cons, List.map_cons, ih]

/-- With distinct keys, erasing the first element with a key leaves those with other keys. -/
theorem eraseP_eq_filter (h : (l.map key).Nodup) :
    l.eraseP (fun a => key a = k) = l.filter fun a => key a ≠ k := by
  induction l with
  | nil => rfl
  | cons a l ih =>
    obtain ⟨hnot, hnodup⟩ := List.nodup_cons.mp h
    by_cases hk : key a = k
    · have hother : l.filter (fun a => key a ≠ k) = l := by
        refine List.filter_eq_self.mpr fun b hb => ?_
        rw [decide_eq_true_iff]
        rintro hb'
        refine hnot ?_
        rw [hk, ← hb']
        exact List.mem_map_of_mem hb
      simpa [hk] using hother.symm
    · simpa [hk] using ih hnodup

theorem find?_eq_some_iff (h : (l.map key).Nodup) :
    l.find? (fun a => key a = k) = some a ↔ a ∈ l ∧ key a = k := by
  constructor
  · intro hfind
    exact ⟨List.mem_of_find?_eq_some hfind, by simpa using List.find?_some hfind⟩
  · rintro ⟨ha, hk⟩
    cases hfind : l.find? (fun a => key a = k) with
    | none => simpa [hk] using List.find?_eq_none.mp hfind a ha
    | some b =>
      have hb : key b = k := by simpa using List.find?_some hfind
      have hmem := List.mem_of_find?_eq_some hfind
      rw [List.inj_on_of_nodup_map h hmem ha (hb.trans hk.symm)]

/-- With distinct keys, the elements after the element with a key has been changed. -/
theorem mem_modifyFirst_iff (h : (l.map key).Nodup) {f : α → α} {b : α} :
    b ∈ modifyFirst (fun a => key a = k) f l ↔
      (b ∈ l ∧ key b ≠ k) ∨ ∃ a ∈ l, key a = k ∧ b = f a := by
  rw [modifyFirst_eq_map h, List.mem_map]
  constructor
  · rintro ⟨a, ha, rfl⟩
    split_ifs with hk
    · exact .inr ⟨a, ha, hk, rfl⟩
    · exact .inl ⟨ha, hk⟩
  · rintro (⟨hb, hk⟩ | ⟨a, ha, hk, rfl⟩)
    · exact ⟨b, hb, if_neg hk⟩
    · exact ⟨a, ha, if_pos hk⟩

/-- Elements that do not satisfy the predicate stay where they are. -/
theorem getElem?_modifyFirst {p : α → Bool} {f : α → α} {i : ℕ} (hi : l[i]? = some a)
    (ha : p a = false) : (modifyFirst p f l)[i]? = some a := by
  induction l generalizing i with
  | nil => simp at hi
  | cons b l ih =>
    rw [modifyFirst]
    cases i with
    | zero =>
      obtain rfl : b = a := by simpa using hi
      rw [if_neg (by simp [ha])]
      rfl
    | succ i =>
      rw [List.getElem?_cons_succ] at hi
      split_ifs
      · exact hi
      · exact ih hi

omit [DecidableEq K] in
theorem length_modifyFirst (p : α → Bool) (f : α → α) (l : List α) :
    (modifyFirst p f l).length = l.length := by
  induction l with
  | nil => rfl
  | cons a l ih =>
    rw [modifyFirst]
    split <;> simp [ih]

omit [DecidableEq K] in
theorem exists_of_mem_modifyFirst {p : α → Bool} {f : α → α} {b : α} (h : b ∈ modifyFirst p f l) :
    b ∈ l ∨ ∃ a ∈ l, b = f a := by
  induction l with
  | nil => exact .inl h
  | cons a l ih =>
    rw [modifyFirst] at h
    split_ifs at h
    · obtain rfl | h := List.mem_cons.mp h
      · exact .inr ⟨a, .head _, rfl⟩
      · exact .inl (.tail _ h)
    · obtain rfl | h := List.mem_cons.mp h
      · exact .inl (.head _)
      · refine (ih h).imp (.tail _) ?_
        rintro ⟨a', ha', rfl⟩
        exact ⟨a', .tail _ ha', rfl⟩

/-- Elements with other keys are found as before. -/
theorem find?_modifyFirst_of_ne {f : α → α} (hf : ∀ a, key (f a) = key a) {k' : K} (hk : k' ≠ k) :
    (modifyFirst (fun a => key a = k) f l).find? (fun a => key a = k') =
      l.find? fun a => key a = k' := by
  induction l with
  | nil => rfl
  | cons a l ih =>
    rw [modifyFirst]
    split_ifs with ha
    · have ha' : key a ≠ k' := fun heq => hk (heq.symm.trans (by simpa using ha))
      rw [List.find?_cons_of_neg (by simpa [hf] using ha'), List.find?_cons_of_neg (by simpa using ha')]
    · simp only [List.find?_cons, ih]

end Fimbulwinter.KeyedList
