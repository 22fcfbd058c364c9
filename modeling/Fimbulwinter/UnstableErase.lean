import Mathlib.Data.List.Perm.Basic
import Mathlib.Data.List.Count
import Mathlib.Tactic.Linarith

/-! # Unstable removal from a dense list

A dense array closes the hole of a removed element with its last element. The
results here are about arbitrary lists: removal this way is the ordinary removal
up to a permutation, and it leaves every other index alone. -/
namespace Fimbulwinter.UnstableErase

variable {α : Type*}

/-- The last element is moved over index `i` and the last slot is dropped. -/
def swapErase (xs : List α) (i : ℕ) : List α :=
  match xs.getLast? with
  | none => xs
  | some last => if i < xs.length then (xs.set i last).dropLast else xs

theorem swapErase_append_singleton (ys : List α) (z : α) {i : ℕ} (h : i ≤ ys.length) :
    swapErase (ys ++ [z]) i = ys.set i z := by
  have hi : i < (ys ++ [z]).length := by simp; omega
  rw [swapErase, List.getLast?_concat]
  simp only [hi, if_true]
  rcases Nat.lt_or_eq_of_le h with hlt | rfl
  · rw [List.set_append_left _ _ hlt, List.dropLast_concat]
  · simp [List.set_eq_of_length_le]

theorem swapErase_cons (x : α) (xs : List α) {i : ℕ} (h : i < xs.length) :
    swapErase (x :: xs) (i + 1) = x :: swapErase xs i := by
  rcases List.eq_nil_or_concat xs with rfl | ⟨ys, z, rfl⟩
  · simp at h
  · rw [List.concat_eq_append] at h ⊢
    have hi : i ≤ ys.length := by simp at h; omega
    rw [swapErase_append_singleton ys z hi, ← List.cons_append,
      swapErase_append_singleton (x :: ys) z (Nat.succ_le_succ hi), List.set_cons_succ]

theorem swapErase_map {β : Type*} (f : α → β) (xs : List α) (i : ℕ) :
    swapErase (xs.map f) i = (swapErase xs i).map f := by
  rcases List.eq_nil_or_concat xs with rfl | ⟨ys, z, rfl⟩
  · rfl
  · simp only [swapErase, List.concat_eq_append, List.map_append, List.map_singleton,
      List.getLast?_concat, List.length_append, List.length_map, List.length_singleton]
    split_ifs <;> simp

theorem swapErase_perm (xs : List α) {i : ℕ} (h : i < xs.length) :
    (swapErase xs i).Perm (xs.eraseIdx i) := by
  rcases List.eq_nil_or_concat xs with rfl | ⟨ys, z, rfl⟩
  · simp at h
  · rw [List.concat_eq_append] at h ⊢
    have hi : i ≤ ys.length := by simp at h; omega
    rw [swapErase_append_singleton ys z hi]
    rcases Nat.lt_or_eq_of_le hi with hlt | rfl
    · rw [List.eraseIdx_append_of_lt_length hlt]
      exact (List.set_perm_cons_eraseIdx hlt z).trans (List.perm_append_singleton z _).symm
    · rw [List.set_eq_of_length_le (Nat.le_refl _), List.eraseIdx_append_of_length_le (Nat.le_refl _)]
      simp

theorem length_swapErase (xs : List α) {i : ℕ} (h : i < xs.length) :
    (swapErase xs i).length = xs.length - 1 := by
  rw [(swapErase_perm xs h).length_eq, List.length_eraseIdx_of_lt h]

/-- Every index but the hole keeps its element, and the hole receives the last one. -/
theorem getElem?_swapErase (xs : List α) {i j : ℕ} (hi : i < xs.length) (hj : j < xs.length - 1) :
    (swapErase xs i)[j]? = if j = i then xs.getLast? else xs[j]? := by
  rcases List.eq_nil_or_concat xs with rfl | ⟨ys, z, rfl⟩
  · simp at hi
  · rw [List.concat_eq_append] at hi hj ⊢
    have hi' : i ≤ ys.length := by simp at hi; omega
    have hj' : j < ys.length := by simp at hj; omega
    rw [swapErase_append_singleton ys z hi', List.getLast?_concat, List.getElem?_append_left hj']
    by_cases h : j = i
    · subst h
      simp [hj']
    · simp [h, List.getElem?_set_ne (Ne.symm h)]

/-- When a name is given once, an element stays unless it has the name of the removed one. -/
theorem mem_swapErase_iff {β : Type*} (f : α → β) {xs : List α} (h : (xs.map f).Nodup) {i : ℕ}
    (hi : i < xs.length) (y : α) : y ∈ swapErase xs i ↔ y ∈ xs ∧ f y ≠ f xs[i] := by
  have hperm : xs.Perm (xs[i] :: swapErase xs i) :=
    (List.getElem_cons_eraseIdx_perm hi).symm.trans ((swapErase_perm xs hi).symm.cons _)
  have hnodup := (hperm.map f).nodup_iff.mp h
  rw [List.map_cons, List.nodup_cons] at hnodup
  rw [hperm.mem_iff, List.mem_cons]
  constructor
  · intro hy
    exact ⟨.inr hy, fun heq => hnodup.1 (heq ▸ List.mem_map_of_mem hy)⟩
  · rintro ⟨rfl | hy, hne⟩
    · exact absurd rfl hne
    · exact hy

section Value

variable [DecidableEq α]

/-- Unstable removal of the first occurrence of a value; nothing happens without one. -/
def swapEraseValue (xs : List α) (a : α) : List α := swapErase xs (xs.idxOf a)

theorem swapEraseValue_of_not_mem {xs : List α} {a : α} (h : a ∉ xs) :
    swapEraseValue xs a = xs := by
  have hi : ¬ xs.idxOf a < xs.length := by rw [List.idxOf_lt_length_iff]; exact h
  unfold swapEraseValue swapErase
  cases xs.getLast? <;> simp [hi]

theorem swapEraseValue_perm (xs : List α) (a : α) : (swapEraseValue xs a).Perm (xs.erase a) := by
  by_cases h : a ∈ xs
  · have hi : xs.idxOf a < xs.length := List.idxOf_lt_length_iff.mpr h
    rw [← List.eraseIdx_idxOf_eq_erase]
    exact swapErase_perm xs hi
  · rw [swapEraseValue_of_not_mem h, List.erase_of_not_mem h]

theorem perm_cons_swapEraseValue {xs : List α} {a : α} (h : a ∈ xs) :
    (a :: swapEraseValue xs a).Perm xs :=
  ((swapEraseValue_perm xs a).cons a).trans (List.perm_cons_erase h).symm

theorem nodup_swapEraseValue {xs : List α} (h : xs.Nodup) (a : α) :
    (swapEraseValue xs a).Nodup :=
  (swapEraseValue_perm xs a).nodup_iff.mpr (h.erase a)

theorem mem_swapEraseValue {xs : List α} (h : xs.Nodup) (a b : α) :
    b ∈ swapEraseValue xs a ↔ b ≠ a ∧ b ∈ xs :=
  (swapEraseValue_perm xs a).mem_iff.trans h.mem_erase_iff

theorem length_swapEraseValue {xs : List α} {a : α} (h : a ∈ xs) :
    (swapEraseValue xs a).length + 1 = xs.length := by
  rw [(swapEraseValue_perm xs a).length_eq]
  exact List.length_erase_add_one h

end Value

/-- Unstable removal of `m` consecutive elements from index `i` on: every hole is
filled from the end, front to back. -/
def eraseRange (xs : List α) (i : ℕ) : ℕ → List α
  | 0 => xs
  | m + 1 => match xs.getLast? with
    | none => xs
    | some last => eraseRange (xs.set i last).dropLast (i + 1) m

theorem eraseRange_append_singleton (ys : List α) (z : α) (i m : ℕ) :
    eraseRange (ys ++ [z]) i (m + 1) = eraseRange ((ys ++ [z]).set i z).dropLast (i + 1) m := by
  rw [eraseRange, List.getLast?_concat]

theorem length_eraseRange (xs : List α) (i m : ℕ) :
    (eraseRange xs i m).length = xs.length - m := by
  induction m generalizing xs i with
  | zero => rfl
  | succ m ih =>
    rcases List.eq_nil_or_concat xs with rfl | ⟨ys, z, rfl⟩
    · simp [eraseRange]
    · rw [List.concat_eq_append, eraseRange_append_singleton, ih]
      simp

/-- Elements in front of the removed range and of the final length are untouched. -/
theorem take_eraseRange (xs : List α) {p i m : ℕ} (hi : p ≤ i) (hm : p + m ≤ xs.length) :
    (eraseRange xs i m).take p = xs.take p := by
  induction m generalizing xs i with
  | zero => rfl
  | succ m ih =>
    rcases List.eq_nil_or_concat xs with rfl | ⟨ys, z, rfl⟩
    · simp [eraseRange]
    · rw [List.concat_eq_append] at hm ⊢
      have hp : p ≤ ys.length := by simp at hm; omega
      rw [eraseRange_append_singleton, ih _ (by omega) (by simp at hm ⊢; omega)]
      have hmin : min p (((ys ++ [z]).set i z).length - 1) = p := by simp; omega
      rw [List.dropLast_eq_take, List.take_take, hmin, List.take_set_of_le hi]

theorem eraseRange_perm (xs : List α) {i m : ℕ} (h : i + m ≤ xs.length) :
    (eraseRange xs i m).Perm (xs.take i ++ xs.drop (i + m)) := by
  induction m generalizing xs i with
  | zero => simp [eraseRange]
  | succ m ih =>
    by_cases hr : i + (m + 1) = xs.length
    -- The range reaches the end: only the untouched front is left.
    · have hlen : (eraseRange xs i (m + 1)).length = i := by rw [length_eraseRange]; omega
      have htake := take_eraseRange xs (p := i) (i := i) (m := m + 1) (Nat.le_refl i) h
      rw [List.take_of_length_le (by omega)] at htake
      rw [htake, hr, List.drop_length, List.append_nil]
    · rcases List.eq_nil_or_concat xs with rfl | ⟨ys, z, rfl⟩
      · simp at h
      · rw [List.concat_eq_append] at h hr ⊢
        have hlen : i + (m + 1) ≤ ys.length := by simp at h hr; omega
        have hset : ((ys ++ [z]).set i z).dropLast = ys.set i z := by
          rw [List.set_append_left _ _ (by omega), List.dropLast_concat]
        rw [eraseRange_append_singleton, hset]
        refine (ih (ys.set i z) (by simp; omega)).trans ?_
        have htake : (ys.set i z).take (i + 1) = ys.take i ++ [z] := by
          rw [List.take_add_one, List.take_set_of_le (Nat.le_refl i)]
          simp [List.getElem?_set_self (show i < ys.length by omega)]
        rw [htake, List.drop_set_of_lt (by omega), List.take_append_of_le_length (by omega),
          List.drop_append_of_le_length (by omega), Nat.add_right_comm, List.append_assoc]
        exact (List.perm_append_comm).append_left _

end Fimbulwinter.UnstableErase
