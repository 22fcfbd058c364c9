import Mathlib.Algebra.Group.Nat.Even
import Fimbulwinter.JsonGrammar

/-! # `read_string` of a text that begins with a quote

The string ends at the first quote behind an even number of backslashes. -/
namespace Fimbulwinter.Json

/-- A quote with an even number of backslashes before it. -/
def ClosesAt (cs : Text) (i : ℕ) : Prop :=
  cs[i]? = some quote ∧ Even (backslashes (cs.take i))

/-- A quote with more backslashes before it than are supported. -/
def UnsupportedAt (cs : Text) (i : ℕ) : Prop :=
  cs[i]? = some quote ∧ 4 ≤ backslashes (cs.take i)

/-- What the search makes of the rest of a text from a place on. -/
inductive SearchFrom (cs : Text) (k : ℕ) : Except Failure (Text × Text) → Prop
  | closed (i : ℕ) (hk : k ≤ i) (hi : ClosesAt cs i) (hsupported : ¬ UnsupportedAt cs i)
    (hbefore : ∀ j, k ≤ j → j < i → ¬ ClosesAt cs j ∧ ¬ UnsupportedAt cs j) :
    SearchFrom cs k (.ok (cs.take i, cs.drop i))
  | unsupported (i : ℕ) (hk : k ≤ i) (hi : UnsupportedAt cs i)
    (hbefore : ∀ j, k ≤ j → j < i → ¬ ClosesAt cs j ∧ ¬ UnsupportedAt cs j) :
    SearchFrom cs k (fail .unexpectedError (cs.drop i))
  | eof (start : Text) (hnone : ∀ j, k ≤ j → ¬ ClosesAt cs j ∧ ¬ UnsupportedAt cs j) :
    SearchFrom cs k (fail .unexpectedEof start)

theorem SearchFrom.of_succ {cs : Text} {k : ℕ} {r : Except Failure (Text × Text)}
    (hk : ¬ ClosesAt cs k ∧ ¬ UnsupportedAt cs k) (h : SearchFrom cs (k + 1) r) :
    SearchFrom cs k r := by
  have hextend (P : ℕ → Prop) (hP : ∀ j, k + 1 ≤ j → P j →
      ¬ ClosesAt cs j ∧ ¬ UnsupportedAt cs j) (j : ℕ) (hj : k ≤ j) (hPj : P j) :
      ¬ ClosesAt cs j ∧ ¬ UnsupportedAt cs j := by
    obtain rfl | hlt := Nat.eq_or_lt_of_le hj
    · exact hk
    · exact hP j hlt hPj
  cases h with
  | closed i hi hclose hsupported hbefore =>
    exact .closed i (Nat.le_of_succ_le hi) hclose hsupported (hextend (· < i) hbefore)
  | unsupported i hi hun hbefore =>
    exact .unsupported i (Nat.le_of_succ_le hi) hun (hextend (· < i) hbefore)
  | eof start hnone =>
    exact .eof start fun j hj => hextend (fun _ => True) (fun j hj _ => hnone j hj) j hj trivial

/-- By induction on the rest; what has been passed is what the program looks back at. -/
theorem readStringLoop_search (str start rest : Text) :
    SearchFrom (str ++ rest) str.length (readStringLoop str.reverse start rest) := by
  induction rest generalizing str start with
  | nil =>
    rw [List.append_nil, readStringLoop]
    have hnone : ∀ j, str.length ≤ j → str[j]? ≠ some quote := fun j hj heq => by
      rw [List.getElem?_eq_none hj] at heq
      cases heq
    exact .eof start fun j hj => ⟨fun h => hnone j hj h.1, fun h => hnone j hj h.1⟩
  | cons c rest ih =>
    have hcell : (str ++ c :: rest)[str.length]? = some c := by
      rw [List.getElem?_append_right (Nat.le_refl _), Nat.sub_self, List.getElem?_cons_zero]
    have htake : (str ++ c :: rest).take str.length = str := List.take_left' rfl
    have hdrop : (str ++ c :: rest).drop str.length = c :: rest := List.drop_left' rfl
    have hnext (start' : Text) (hgo : ¬ ClosesAt (str ++ c :: rest) str.length ∧
        ¬ UnsupportedAt (str ++ c :: rest) str.length) :
        SearchFrom (str ++ c :: rest) str.length
          (readStringLoop (str ++ [c]).reverse start' rest) := by
      have hrest := ih (str ++ [c]) start'
      rw [List.append_assoc, List.length_append] at hrest
      exact .of_succ hgo hrest
    have hfirst (j : ℕ) (hj : str.length ≤ j) (hlt : j < str.length) :
        ¬ ClosesAt (str ++ c :: rest) j ∧ ¬ UnsupportedAt (str ++ c :: rest) j :=
      absurd hlt (Nat.not_lt.mpr hj)
    by_cases hc : c = quote
    · subst hc
      have hcloses : ClosesAt (str ++ quote :: rest) str.length ↔ Even (backslashes str) := by
        rw [ClosesAt, htake]
        exact and_iff_right hcell
      have hunsupported : UnsupportedAt (str ++ quote :: rest) str.length ↔
          4 ≤ backslashes str := by
        rw [UnsupportedAt, htake]
        exact and_iff_right hcell
      rw [readStringLoop_quote]
      split_ifs with heven hodd
      · have hresult := @SearchFrom.closed (str ++ quote :: rest) str.length str.length (Nat.le_refl _)
          (hcloses.mpr (by rcases heven with h | h <;> rw [h] <;> decide))
          (fun h => by have := hunsupported.mp h; omega) hfirst
        rwa [htake, hdrop] at hresult
      · refine hnext rest ⟨fun h => ?_, fun h => ?_⟩
        · have := hcloses.mp h
          rcases hodd with h | h <;> rw [h] at this <;> exact absurd this (by decide)
        · have := hunsupported.mp h
          omega
      · have hresult := @SearchFrom.unsupported (str ++ quote :: rest) str.length str.length
          (Nat.le_refl _) (hunsupported.mpr (by omega)) hfirst
        rwa [hdrop] at hresult
    · have hgo : ¬ ClosesAt (str ++ c :: rest) str.length ∧
          ¬ UnsupportedAt (str ++ c :: rest) str.length :=
        ⟨fun h => hc (Option.some.inj (hcell.symm.trans h.1)),
          fun h => hc (Option.some.inj (hcell.symm.trans h.1))⟩
      rw [readStringLoop_of_ne hc]
      exact hnext start hgo

theorem readString_search (cs : Text) : SearchFrom cs 0 (readString (quote :: cs)) := by
  rw [readString, if_pos rfl]
  exact readStringLoop_search [] cs cs

/-- The string that is read ends at the first quote behind an even number of backslashes. There is
an error if there is none, or if a quote behind four or more of them is met first. -/
theorem readString_closes (cs : Text) :
    (∀ str rest, readString (quote :: cs) = .ok (str, rest) ↔
      ∃ i, ClosesAt cs i ∧ (∀ j < i, ¬ ClosesAt cs j) ∧ (∀ j ≤ i, ¬ UnsupportedAt cs j) ∧
        str = cs.take i ∧ rest = cs.drop i) ∧
    ((∃ e, readString (quote :: cs) = .error e) ↔
      (∀ i, ¬ ClosesAt cs i) ∨ ∃ i, UnsupportedAt cs i ∧ ∀ j < i, ¬ ClosesAt cs j) := by
  have hsearch := readString_search cs
  generalize readString (quote :: cs) = r at hsearch
  cases hsearch with
  | closed i hk hi hsupported hbefore =>
    have hfirst (j : ℕ) (hj : j < i) := hbefore j (Nat.zero_le j) hj
    have hle (j : ℕ) (hj : j ≤ i) : ¬ UnsupportedAt cs j := by
      obtain rfl | hlt := Nat.eq_or_lt_of_le hj
      · exact hsupported
      · exact (hfirst j hlt).2
    refine ⟨fun str rest => ⟨fun h => ?_, ?_⟩, ⟨fun ⟨e, he⟩ => (nomatch he), ?_⟩⟩
    · cases h
      exact ⟨i, hi, fun j hj => (hfirst j hj).1, hle, rfl, rfl⟩
    · rintro ⟨i', hi', hfirst', -, rfl, rfl⟩
      obtain hlt | rfl | hgt := Nat.lt_trichotomy i i'
      · exact absurd hi (hfirst' i hlt)
      · rfl
      · exact absurd hi' (hfirst i' hgt).1
    · rintro (hnone | ⟨j, hj, hbefore'⟩)
      · exact absurd hi (hnone i)
      · rcases Nat.lt_or_ge i j with hlt | hge
        · exact absurd hi (hbefore' i hlt)
        · exact absurd hj (hle j hge)
  | unsupported i hk hi hbefore =>
    refine ⟨fun str rest => ⟨fun h => (nomatch h), ?_⟩,
      ⟨fun _ => .inr ⟨i, hi, fun j hj => (hbefore j (Nat.zero_le j) hj).1⟩, fun _ => ⟨_, rfl⟩⟩⟩
    rintro ⟨i', hi', -, hle, -, -⟩
    rcases Nat.lt_or_ge i' i with hlt | hge
    · exact absurd hi' (hbefore i' (Nat.zero_le i') hlt).1
    · exact absurd hi (hle i hge)
  | eof start hnone =>
    refine ⟨fun str rest => ⟨fun h => (nomatch h), ?_⟩,
      ⟨fun _ => .inl fun i => (hnone i (Nat.zero_le i)).1, fun _ => ⟨_, rfl⟩⟩⟩
    rintro ⟨i, hi, -, -, -, -⟩
    exact absurd hi (hnone i (Nat.zero_le i)).1

end Fimbulwinter.Json
