import Mathlib.Data.List.Basic
import Mathlib.Data.Int.Basic
import Mathlib.Algebra.Ring.Int.Defs
import Mathlib.Tactic.Common

/-! # Scanning text

Positions in a list, what is read at them, and the search for the next separator. A position
is in front of as many elements as it says; what is read or viewed outside is a failure. The
lemmas take the list apart where a scan has got to. -/
namespace Fimbulwinter.Scan

variable {α : Type*}

inductive Failure
  /-- Something outside the text is read or viewed. -/
  | outside
  | outOfFuel
  deriving DecidableEq, Repr

/-- The element behind a position. -/
def read (text : List α) (i : ℕ) : Except Failure α :=
  match text[i]? with
  | none => .error .outside
  | some c => .ok c

/-- The elements between two positions. -/
def view (text : List α) (first last : ℕ) : Except Failure (List α) :=
  if first ≤ last ∧ last ≤ text.length then .ok ((text.take last).drop first) else .error .outside

variable [DecidableEq α]

/-- The position of the next `c` from a position on, or the end. -/
def find (text : List α) (first : ℕ) (c : α) : ℕ := first + (text.drop first).idxOf c

/-! ## From the end -/

omit [DecidableEq α] in
/-- The element behind an offset from the end. -/
def readBack (text : List α) (size : ℤ) : Except Failure α :=
  if 0 ≤ text.length + size then read text (text.length + size).toNat else .error .outside

omit [DecidableEq α] in
/-- The elements between two offsets from the end. -/
def viewBack (text : List α) (first last : ℤ) : Except Failure (List α) :=
  if 0 ≤ text.length + first ∧ 0 ≤ text.length + last then
    view text (text.length + first).toNat (text.length + last).toNat
  else .error .outside

/-- The offset of the next `c` from an offset on, or the end. -/
def findBack (text : List α) (size : ℤ) (c : α) : Except Failure ℤ :=
  if 0 ≤ text.length + size ∧ size ≤ 0 then
    .ok (find text (text.length + size).toNat c - text.length)
  else .error .outside

/-! ## Where things are -/

variable {name : List α} {c : α} {size first last : ℤ}

omit [DecidableEq α] in
theorem read_append (front : List α) (c : α) (rest : List α) :
    read (front ++ c :: rest) front.length = .ok c := by
  rw [read, List.getElem?_append_right (Nat.le_refl _), Nat.sub_self]
  rfl

omit [DecidableEq α] in
theorem view_append (front name rest : List α) :
    view (front ++ (name ++ rest)) front.length (front.length + name.length) = .ok name := by
  have hlength : front.length + name.length ≤ (front ++ (name ++ rest)).length := by
    rw [List.length_append, List.length_append]
    omega
  rw [view, if_pos ⟨Nat.le_add_right _ _, hlength⟩, ← List.append_assoc, ← List.length_append,
    List.take_left, List.drop_left]

omit [DecidableEq α] in
theorem view_append_end (front name : List α) :
    view (front ++ name) front.length (front ++ name).length = .ok name := by
  have h := view_append front name []
  rwa [List.append_nil, ← List.length_append] at h

theorem find_append (front rest : List α) (h : c ∉ name) :
    find (front ++ (name ++ c :: rest)) front.length c = front.length + name.length := by
  rw [find, List.drop_left, List.idxOf_append_of_notMem h, List.idxOf_cons_self, Nat.add_zero]

theorem find_append_end (front : List α) (h : c ∉ name) :
    find (front ++ name) front.length c = (front ++ name).length := by
  rw [find, List.drop_left, List.idxOf_of_notMem h, List.length_append]

omit [DecidableEq α] in
/-- Up to the first separator, or without one. -/
theorem splits (c : α) (text : List α) :
    c ∉ text ∨ ∃ name rest, c ∉ name ∧ text = name ++ c :: rest := by
  by_cases h : c ∈ text
  · obtain ⟨name, rest, htext, hname⟩ := List.eq_append_cons_of_mem h
    exact .inr ⟨name, rest, hname, htext⟩
  · exact .inl h

omit [DecidableEq α] in
theorem readBack_ok (text : List α) (hfirst : -(text.length : ℤ) ≤ size) (hlast : size < 0) :
    ∃ c, readBack text size = .ok c := by
  have hlt : (text.length + size).toNat < text.length := by omega
  refine ⟨text[(text.length + size).toNat], ?_⟩
  rw [readBack, if_pos (by omega), read, List.getElem?_eq_getElem hlt]

omit [DecidableEq α] in
theorem viewBack_ok (text : List α) (hfirst : -(text.length : ℤ) ≤ first) (hle : first ≤ last)
    (hlast : last ≤ 0) :
    ∃ x, viewBack text first last = .ok x ∧ x.length = last - first := by
  refine ⟨_, by rw [viewBack, if_pos ⟨by omega, by omega⟩, view, if_pos ⟨by omega, by omega⟩], ?_⟩
  rw [List.length_drop, List.length_take]
  omega

/-- What is found is in front of the end, or there is none. -/
theorem findBack_ok (text : List α) (c : α) (hfirst : -(text.length : ℤ) ≤ size) (hlast : size ≤ 0) :
    ∃ found, findBack text size c = .ok found ∧ size ≤ found ∧ found ≤ 0 ∧
      (found ≠ 0 → readBack text found = .ok c) := by
  have hlength := List.idxOf_le_length (l := text.drop (text.length + size).toNat) (a := c)
  rw [List.length_drop] at hlength
  refine ⟨_, by rw [findBack, if_pos ⟨by omega, hlast⟩], ?_⟩
  rw [find]
  refine ⟨by omega, by omega, fun hne => ?_⟩
  have hlt : (text.drop (text.length + size).toNat).idxOf c <
      (text.drop (text.length + size).toNat).length := by
    rw [List.length_drop]
    omega
  have hget := List.getElem_idxOf hlt
  rw [List.getElem_drop] at hget
  rw [readBack, if_pos (by omega), read, List.getElem?_eq_getElem (by omega)]
  refine congrArg Except.ok (Eq.trans ?_ hget)
  congr 1
  omega

end Fimbulwinter.Scan
