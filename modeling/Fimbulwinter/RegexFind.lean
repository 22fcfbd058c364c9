import Fimbulwinter.Regex
import Mathlib.Order.Basic
import Mathlib.Data.Nat.Find

/-! # `rex::parser::find`

A pattern is tried at one position after another. The search is over when an attempt fails at
the end of the input, although the pattern may match behind its start. -/
namespace Fimbulwinter.Regex

/-- The loop of `parser::find`; the result is where the match begins and ends. -/
def findLoop (p : Pattern) (input : Text) : ℕ → ℕ → Option (ℕ × ℕ)
  | 0, _ => none
  | fuel + 1, it =>
    match p.run (input.drop it) with
    | none => none
    | some (true, n) => some (it, it + n)
    | some (false, n) =>
      if it + n = input.length then some (it + n, it + n) else findLoop p input fuel (it + 1)

/-- `parser::find` -/
def find (p : Pattern) (input : Text) : Option (ℕ × ℕ) := findLoop p input (input.length + 1) 0

/-- No repeated part of a pattern ever matches without passing a character. -/
def Pattern.Progresses : Pattern → Prop
  | composition p q | disjunction p q | conjunction p q => p.Progresses ∧ q.Progresses
  | anyNumberOf p | atLeastOne p => p.Progresses ∧ ∀ input, p.run input ≠ some (true, 0)
  | atMostOne p => p.Progresses
  | _ => True

/-- The pattern matches from one position to another. -/
def MatchesAt (p : Pattern) (input : Text) (i j : ℕ) : Prop :=
  i ≤ input.length ∧ ∃ n, p.run (input.drop i) = some (true, n) ∧ j = i + n

/-- The first position at which the pattern matches. -/
def FirstMatch (p : Pattern) (input : Text) (i : ℕ) : Prop :=
  (∃ j, MatchesAt p input i j) ∧ ∀ k < i, ∀ j, ¬ MatchesAt p input k j

/-- The search ends, gives the first match, and the end of the input twice exactly if there is no
match. -/
def FindsLeftmost (p : Pattern) (input : Text) : Prop :=
  ∃ i j, find p input = some (i, j) ∧
    (∀ k, FirstMatch p input k → i = k ∧ MatchesAt p input k j) ∧
    ((i = input.length ∧ j = input.length) ↔ ∀ k l, ¬ MatchesAt p input k l)

/-- The first match begins in front of the end of the input, and no attempt in front of it fails
at the end. -/
def Unhidden (p : Pattern) (input : Text) : Prop :=
  ∀ k, FirstMatch p input k →
    k < input.length ∧ ∀ i < k, p.run (input.drop i) ≠ some (false, input.length - i)

/-! ## Attempts -/

theorem matchStr_le (s input : Text) : (matchStr s input).2 ≤ input.length := by
  induction s generalizing input with
  | nil => exact Nat.zero_le _
  | cons c s ih =>
    cases input with
    | nil => exact le_rfl
    | cons d input =>
      rw [matchStr]
      split_ifs
      · exact Nat.succ_le_succ (ih input)
      · exact Nat.zero_le _

theorem matchOne_le (is : UInt8 → Bool) (input : Text) : (matchOne is input).2 ≤ input.length := by
  cases input with
  | nil => exact le_rfl
  | cons c input =>
    rw [matchOne]
    split_ifs
    · exact Nat.succ_le_succ (Nat.zero_le _)
    · exact Nat.zero_le _

theorem matchNewline_le (input : Text) : (matchNewline input).2 ≤ input.length := by
  cases input with
  | nil => exact le_rfl
  | cons c input =>
    unfold matchNewline
    dsimp only
    split_ifs
    · cases input with
      | nil => exact le_rfl
      | cons d input =>
        dsimp only
        split_ifs
        · exact Nat.succ_le_succ (Nat.succ_le_succ (Nat.zero_le _))
        · exact Nat.succ_le_succ (Nat.zero_le _)
    · exact Nat.succ_le_succ (Nat.zero_le _)
    · exact Nat.zero_le _

theorem matchLoop_le {p : Text → Option MatchResult} {input : Text}
    (hp : ∀ {input r}, p input = some r → r.2 ≤ input.length) {fuel position : ℕ} {r : MatchResult}
    (hposition : position ≤ input.length) (h : matchLoop p input fuel position = some r) :
    r.2 ≤ input.length := by
  induction fuel generalizing position with
  | zero => cases h
  | succ fuel ih =>
    rw [matchLoop] at h
    split at h
    · cases h
    · cases h
      exact hposition
    next more hmore =>
      have hle := hp hmore
      rw [List.length_drop] at hle
      exact ih (by dsimp only at hle; omega) h

theorem behind_le {input : Text} {n : ℕ} {r : MatchResult} (hn : n ≤ input.length)
    (hr : r.2 ≤ (input.drop n).length) : (r.behind n).2 ≤ input.length := by
  rw [List.length_drop] at hr
  dsimp only [MatchResult.behind]
  omega

/-- An attempt leaves no position behind the end of the input. -/
theorem Pattern.run_le {p : Pattern} {input : Text} {r : MatchResult} (h : p.run input = some r) :
    r.2 ≤ input.length := by
  induction p generalizing input r with
  | ch c =>
    cases h
    exact matchOne_le _ _
  | str s =>
    cases h
    exact matchStr_le _ _
  | blank =>
    cases h
    exact matchOne_le _ _
  | digit =>
    cases h
    exact matchOne_le _ _
  | word =>
    cases h
    exact matchOne_le _ _
  | newline =>
    cases h
    exact matchNewline_le _
  | atEnd =>
    cases h
    exact Nat.zero_le _
  | composition p q ihp ihq =>
    rw [run] at h
    split at h
    · cases h
    next n hn =>
      cases h
      exact ihp hn
    next n hn =>
      obtain ⟨r', hr', rfl⟩ := Option.map_eq_some_iff.mp h
      exact behind_le (ihp hn) (ihq hr')
  | disjunction p q ihp ihq =>
    rw [run] at h
    split at h
    · cases h
    next n hn =>
      obtain ⟨r', hr', rfl⟩ := Option.map_eq_some_iff.mp h
      exact behind_le (ihp hn) (ihq hr')
    next n hn =>
      cases h
      exact ihp hn
  | conjunction p q ihp ihq =>
    rw [run] at h
    split at h
    · cases h
    next n hn =>
      cases h
      exact ihp hn
    next n hn =>
      have hle := ihq h
      rw [List.length_take] at hle
      omega
  | anyNumberOf p ih => exact matchLoop_le ih (Nat.zero_le _) h
  | atLeastOne p ih =>
    rw [run] at h
    split at h
    · cases h
    next n hn =>
      cases h
      exact ih hn
    next n hn => exact matchLoop_le ih (ih hn) h
  | atMostOne p ih =>
    rw [run] at h
    split at h
    · cases h
    · cases h
      exact Nat.zero_le _
    next n hn =>
      cases h
      exact ih hn

theorem matchLoop_ok {p : Text → Option MatchResult} {input : Text}
    (hle : ∀ {input r}, p input = some r → r.2 ≤ input.length) (hp : ∀ input, ∃ r, p input = some r)
    (hempty : ∀ input, p input ≠ some (true, 0)) {fuel position : ℕ}
    (hposition : position ≤ input.length) (hfuel : input.length < position + fuel) :
    ∃ r, matchLoop p input fuel position = some r := by
  induction fuel generalizing position with
  | zero => omega
  | succ fuel ih =>
    rw [matchLoop]
    obtain ⟨⟨_ | _, more⟩, hr⟩ := hp (input.drop position)
    · rw [hr]
      exact ⟨_, rfl⟩
    · have hmore := hle hr
      have hpos : more ≠ 0 := by
        rintro rfl
        exact hempty _ hr
      rw [List.length_drop] at hmore
      rw [hr]
      exact ih (by dsimp only at hmore; omega) (by omega)

/-- Every attempt ends. -/
theorem Pattern.Progresses.run_ok {p : Pattern} (h : p.Progresses) (input : Text) :
    ∃ r, p.run input = some r := by
  induction p generalizing input with
  | ch c => exact ⟨_, rfl⟩
  | str s => exact ⟨_, rfl⟩
  | blank => exact ⟨_, rfl⟩
  | digit => exact ⟨_, rfl⟩
  | word => exact ⟨_, rfl⟩
  | newline => exact ⟨_, rfl⟩
  | atEnd => exact ⟨_, rfl⟩
  | composition p q ihp ihq =>
    obtain ⟨⟨_ | _, n⟩, hn⟩ := ihp h.1 input
    · exact ⟨_, by rw [run, hn]⟩
    · obtain ⟨r, hr⟩ := ihq h.2 (input.drop n)
      exact ⟨r.behind n, by rw [run, hn]; exact congrArg (Option.map _) hr⟩
  | disjunction p q ihp ihq =>
    obtain ⟨⟨_ | _, n⟩, hn⟩ := ihp h.1 input
    · obtain ⟨r, hr⟩ := ihq h.2 (input.drop n)
      exact ⟨r.behind n, by rw [run, hn]; exact congrArg (Option.map _) hr⟩
    · exact ⟨_, by rw [run, hn]⟩
  | conjunction p q ihp ihq =>
    obtain ⟨⟨_ | _, n⟩, hn⟩ := ihp h.1 input
    · exact ⟨_, by rw [run, hn]⟩
    · obtain ⟨r, hr⟩ := ihq h.2 (input.take n)
      exact ⟨r, by rw [run, hn]; exact hr⟩
  | anyNumberOf p ih => exact matchLoop_ok run_le (ih h.1) h.2 (Nat.zero_le _) (by omega)
  | atLeastOne p ih =>
    obtain ⟨⟨_ | _, n⟩, hn⟩ := ih h.1 input
    · exact ⟨_, by rw [run, hn]⟩
    · obtain ⟨r, hr⟩ := matchLoop_ok run_le (ih h.1) h.2 (run_le hn)
        (show input.length < n + (input.length + 1) by omega)
      exact ⟨r, by rw [run, hn]; exact hr⟩
  | atMostOne p ih =>
    obtain ⟨⟨_ | _, n⟩, hn⟩ := ih h input
    · exact ⟨_, by rw [run, hn]⟩
    · exact ⟨_, by rw [run, hn]⟩

/-! ## The search -/

variable {p : Pattern} {input : Text} {it i k : ℕ} {fuel : ℕ}

theorem not_matchesAt_iff (hi : i ≤ input.length) :
    (∀ j, ¬ MatchesAt p input i j) ↔ ∀ n, p.run (input.drop i) ≠ some (true, n) :=
  ⟨fun h n hn => h _ ⟨hi, n, hn, rfl⟩, fun h _ ⟨_, n, hn, _⟩ => h n hn⟩

/-- Where the pattern does not match, the search is over or goes on. -/
theorem findLoop_fails (fuel : ℕ) (hp : p.Progresses) (hit : it ≤ input.length)
    (hnone : ∀ j, ¬ MatchesAt p input it j) :
    (p.run (input.drop it) = some (false, input.length - it) ∧
        findLoop p input (fuel + 1) it = some (input.length, input.length)) ∨
      p.run (input.drop it) ≠ some (false, input.length - it) ∧
        findLoop p input (fuel + 1) it = findLoop p input fuel (it + 1) := by
  obtain ⟨⟨_ | _, n⟩, hn⟩ := hp.run_ok (input.drop it)
  · by_cases hend : it + n = input.length
    · have hlength : n = input.length - it := by omega
      refine .inl ⟨by rw [hn, hlength], ?_⟩
      rw [findLoop, hn]
      dsimp only
      rw [if_pos hend, hend]
    · refine .inr ⟨fun heq => ?_, ?_⟩
      · rw [hn] at heq
        cases heq
        omega
      · rw [findLoop, hn]
        dsimp only
        rw [if_neg hend]
  · exact absurd hn ((not_matchesAt_iff hit).mp hnone n)

/-- The first match is found, if no attempt in front of it fails at the end. -/
theorem findLoop_first (hp : p.Progresses) {n : ℕ} (hk : k ≤ input.length) (hle : it ≤ k)
    (hmatch : p.run (input.drop k) = some (true, n))
    (hnone : ∀ i, it ≤ i → i < k → (∀ j, ¬ MatchesAt p input i j) ∧
      p.run (input.drop i) ≠ some (false, input.length - i))
    (hfuel : k < it + fuel) : findLoop p input fuel it = some (k, k + n) := by
  induction fuel generalizing it with
  | zero => omega
  | succ fuel ih =>
    rcases Nat.lt_or_eq_of_le hle with hlt | rfl
    · obtain ⟨hno, hend⟩ := hnone it le_rfl hlt
      obtain ⟨hend', -⟩ | ⟨-, hstep⟩ := findLoop_fails fuel hp (by omega) hno
      · exact absurd hend' hend
      · rw [hstep]
        exact ih hlt (fun i hi => hnone i (by omega)) (by omega)
    · rw [findLoop, hmatch]

/-- When an attempt fails at the end and nothing has matched before, the search is over. -/
theorem findLoop_hidden (fuel : ℕ) (hp : p.Progresses) (hi : i ≤ input.length) (hle : it ≤ i)
    (hend : p.run (input.drop i) = some (false, input.length - i))
    (hnone : ∀ k, it ≤ k → k ≤ i → ∀ j, ¬ MatchesAt p input k j) (hfuel : i < it + fuel) :
    findLoop p input fuel it = some (input.length, input.length) := by
  induction fuel generalizing it with
  | zero => omega
  | succ fuel ih =>
    obtain ⟨-, hover⟩ | ⟨hnot, hstep⟩ :=
      findLoop_fails fuel hp (by omega) (hnone it le_rfl hle)
    · exact hover
    · have hne : it ≠ i := by
        rintro rfl
        exact hnot hend
      rw [hstep]
      exact ih (by omega) (fun k hk => hnone k (by omega)) (by omega)

/-- An attempt at the end that does not match fails there. -/
theorem run_fails_at_end (hp : p.Progresses) (hnone : ∀ j, ¬ MatchesAt p input input.length j) :
    p.run (input.drop input.length) = some (false, input.length - input.length) := by
  obtain ⟨⟨_ | _, n⟩, hn⟩ := hp.run_ok (input.drop input.length)
  · have hle := Pattern.run_le hn
    rw [List.drop_length] at hle
    obtain rfl : n = 0 := Nat.le_zero.mp hle
    rw [hn, Nat.sub_self]
  · exact absurd hn ((not_matchesAt_iff le_rfl).mp hnone n)

theorem exists_firstMatch {j : ℕ} (h : MatchesAt p input i j) : ∃ k, FirstMatch p input k := by
  classical
  have hex : ∃ k, ∃ j, MatchesAt p input k j := ⟨i, j, h⟩
  exact ⟨Nat.find hex, Nat.find_spec hex, fun k hk j hj => Nat.find_min hex hk ⟨j, hj⟩⟩

theorem FirstMatch.unique {k' : ℕ} (h : FirstMatch p input k) (h' : FirstMatch p input k') : k = k' := by
  obtain ⟨⟨j, hj⟩, hfirst⟩ := h
  obtain ⟨⟨j', hj'⟩, hfirst'⟩ := h'
  exact le_antisymm (Nat.le_of_not_lt fun hlt => hfirst k' hlt j' hj')
    (Nat.le_of_not_lt fun hlt => hfirst' k hlt j hj)

/-- `-(ch('a') >> ch('b')) >> ch('b')` -/
def optionalPair : Pattern := .composition (.atMostOne (.composition (.ch 0x61) (.ch 0x62))) (.ch 0x62)

end Fimbulwinter.Regex
