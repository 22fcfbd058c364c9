import Fimbulwinter.Regex

/-! # Matching has ordered choice

`parser::match` gives the one match of a pattern, as long as no alternative is tried behind
the start of the one before it. -/
namespace Fimbulwinter.Regex

/-! ## The match of a pattern -/

theorem firstOf_le {is : UInt8 → Bool} {input : Text} {n : ℕ} (h : firstOf is input = some n) :
    n ≤ input.length := by
  cases input with
  | nil => cases h
  | cons c input =>
    rw [firstOf] at h
    split_ifs at h
    cases h
    exact Nat.succ_le_succ (Nat.zero_le _)

theorem lineEnd_le {input : Text} {n : ℕ} (h : lineEnd input = some n) : n ≤ input.length := by
  unfold lineEnd at h
  split at h
  all_goals cases h
  all_goals simp only [List.length_cons]; omega

theorem Matches.le_length {p : Pattern} {input : Text} {r : Option ℕ} (h : Matches p input r) :
    ∀ n, r = some n → n ≤ input.length := by
  induction h with
  | ch | blank | digit | word => exact fun n hn => firstOf_le hn
  | newline => exact fun n hn => lineEnd_le hn
  | str s input =>
    intro n hn
    split_ifs at hn with hprefix
    cases hn
    exact (List.isPrefixOf_iff_prefix.mp hprefix).length_le
  | atEnd =>
    intro n hn
    split_ifs at hn
    cases hn
    exact Nat.zero_le _
  | composition _ _ ih₁ ih₂ =>
    intro n hn
    obtain ⟨k, hk, rfl⟩ := Option.map_eq_some_iff.mp hn
    have h₁ := ih₁ _ rfl
    have h₂ := ih₂ k hk
    rw [List.length_drop] at h₂
    omega
  | compositionFails | conjunctionFails | atLeastOneFails => exact fun n hn => nomatch hn
  | disjunction _ _ ih | atMostOne _ ih => exact ih
  | disjunctionFails _ _ _ ih => exact ih
  | conjunction _ _ _ ih =>
    intro n hn
    have h₂ := ih n hn
    rw [List.length_take] at h₂
    omega
  | anyNumberOf _ _ ih₁ ih₂ | atLeastOne _ _ ih₁ ih₂ =>
    intro n hn
    cases hn
    have h₁ := ih₁ _ rfl
    have h₂ := ih₂ _ rfl
    rw [List.length_drop] at h₂
    omega
  | anyNumberOfEnds | atMostOneFails =>
    intro n hn
    cases hn
    exact Nat.zero_le _

theorem Matches.unique {p : Pattern} {input : Text} {r r' : Option ℕ} (h : Matches p input r)
    (h' : Matches p input r') : r = r' := by
  induction h generalizing r' with
  | ch | str | blank | digit | word | newline | atEnd =>
    cases h'
    rfl
  | composition _ _ ih₁ ih₂ =>
    cases h' with
    | composition first second =>
      cases ih₁ first
      rw [ih₂ second]
    | compositionFails _ first => cases ih₁ first
  | compositionFails _ _ ih =>
    cases h' with
    | composition first => cases ih first
    | compositionFails => rfl
  | disjunction _ _ ih =>
    cases h' with
    | disjunction _ first => exact ih first
    | disjunctionFails first => cases ih first
  | disjunctionFails _ _ ih₁ ih₂ =>
    cases h' with
    | disjunction _ first => cases ih₁ first
    | disjunctionFails _ second => exact ih₂ second
  | conjunction _ _ ih₁ ih₂ =>
    cases h' with
    | conjunction first second =>
      cases ih₁ first
      exact ih₂ second
    | conjunctionFails _ first => cases ih₁ first
  | conjunctionFails _ _ ih =>
    cases h' with
    | conjunction first => cases ih first
    | conjunctionFails => rfl
  | anyNumberOf _ _ ih₁ ih₂ =>
    cases h' with
    | anyNumberOf first more =>
      cases ih₁ first
      cases ih₂ more
      rfl
    | anyNumberOfEnds first => cases ih₁ first
  | anyNumberOfEnds _ ih =>
    cases h' with
    | anyNumberOf first => cases ih first
    | anyNumberOfEnds => rfl
  | atLeastOne _ _ ih₁ ih₂ =>
    cases h' with
    | atLeastOne first more =>
      cases ih₁ first
      cases ih₂ more
      rfl
    | atLeastOneFails first => cases ih₁ first
  | atLeastOneFails _ ih =>
    cases h' with
    | atLeastOne first => cases ih first
    | atLeastOneFails => rfl
  | atMostOne _ ih =>
    cases h' with
    | atMostOne first => exact ih first
    | atMostOneFails first => cases ih first
  | atMostOneFails _ ih =>
    cases h' with
    | atMostOne first => cases ih first
    | atMostOneFails => rfl

/-- A pattern that does not match the empty text is repeated until it does not match. -/
theorem exists_anyNumberOf {p : Pattern} (h : ∀ input, ∃ r, Matches p input r)
    (hempty : ∀ input, ¬ Matches p input (some 0)) (input : Text) :
    ∃ n, Matches (.anyNumberOf p) input (some n) := by
  induction hlength : input.length using Nat.strongRecOn generalizing input with
  | ind k ih =>
    subst hlength
    obtain ⟨_ | m, hm⟩ := h input
    · exact ⟨0, .anyNumberOfEnds hm⟩
    · have hpos : 0 < m := Nat.pos_of_ne_zero fun hzero => hempty input (hzero ▸ hm)
      have hle := hm.le_length m rfl
      have hlt : (input.drop m).length < input.length := by
        rw [List.length_drop]
        omega
      obtain ⟨n, hn⟩ := ih _ hlt (input.drop m) rfl
      exact ⟨m + n, .anyNumberOf hm hn⟩

theorem Pattern.Advances.exists_matches {p : Pattern} (h : p.Advances) (input : Text) :
    ∃ r, Matches p input r := by
  induction p generalizing input with
  | ch c => exact ⟨_, .ch c input⟩
  | str s => exact ⟨_, .str s input⟩
  | blank => exact ⟨_, .blank input⟩
  | digit => exact ⟨_, .digit input⟩
  | word => exact ⟨_, .word input⟩
  | newline => exact ⟨_, .newline input⟩
  | atEnd => exact ⟨_, .atEnd input⟩
  | composition p q ihp ihq =>
    obtain ⟨_ | m, hm⟩ := ihp h.1 input
    · exact ⟨_, .compositionFails q hm⟩
    · obtain ⟨r, hr⟩ := ihq h.2 (input.drop m)
      exact ⟨_, .composition hm hr⟩
  | disjunction p q ihp ihq =>
    obtain ⟨_ | m, hm⟩ := ihp h.1 input
    · obtain ⟨r, hr⟩ := ihq h.2 input
      exact ⟨_, .disjunctionFails hm hr⟩
    · exact ⟨_, .disjunction q hm⟩
  | conjunction p q ihp ihq =>
    obtain ⟨_ | m, hm⟩ := ihp h.1 input
    · exact ⟨_, .conjunctionFails q hm⟩
    · obtain ⟨r, hr⟩ := ihq h.2 (input.take m)
      exact ⟨_, .conjunction hm hr⟩
  | anyNumberOf p ihp =>
    obtain ⟨n, hn⟩ := exists_anyNumberOf (ihp h.1) h.2 input
    exact ⟨_, hn⟩
  | atLeastOne p ihp =>
    obtain ⟨_ | m, hm⟩ := ihp h.1 input
    · exact ⟨_, .atLeastOneFails hm⟩
    · obtain ⟨n, hn⟩ := exists_anyNumberOf (ihp h.1) h.2 (input.drop m)
      exact ⟨_, .atLeastOne hm hn⟩
  | atMostOne p ihp =>
    obtain ⟨_ | m, hm⟩ := ihp h input
    · exact ⟨_, .atMostOneFails hm⟩
    · exact ⟨_, .atMostOne hm⟩

/-! ## What is run -/

/-- A pattern is matched as it should be; the position that a failed match leaves is free. -/
def Agrees (result : Option MatchResult) : Option ℕ → Prop
  | some n => result = some (true, n)
  | none => ∃ k, result = some (false, k)

theorem agrees_matchOne (is : UInt8 → Bool) (input : Text) :
    Agrees (some (matchOne is input)) (firstOf is input) := by
  cases input with
  | nil => exact ⟨0, rfl⟩
  | cons c input =>
    rw [matchOne, firstOf]
    split_ifs
    · exact rfl
    · exact ⟨0, rfl⟩

theorem matchOne_fails {is : UInt8 → Bool} {input : Text} (h : firstOf is input = none) :
    matchOne is input = (false, 0) := by
  cases input with
  | nil => rfl
  | cons c input =>
    rw [firstOf] at h
    split_ifs at h with hc
    rw [matchOne, if_neg hc]

theorem matchStr_eq (s input : Text) :
    ((matchStr s input).1 = s.isPrefixOf input) ∧
      (s.isPrefixOf input → (matchStr s input).2 = s.length) := by
  induction s generalizing input with
  | nil => exact ⟨rfl, fun _ => rfl⟩
  | cons c s ih =>
    cases input with
    | nil => exact ⟨rfl, fun h => nomatch h⟩
    | cons d input =>
      rw [matchStr, List.isPrefixOf_cons_cons]
      by_cases hc : d = c
      · subst hc
        simpa using ih input
      · have hne : (c == d) = false := beq_false_of_ne (Ne.symm hc)
        simp [hc, hne]

theorem agrees_matchStr (s input : Text) :
    Agrees (some (matchStr s input)) (if s.isPrefixOf input then some s.length else none) := by
  obtain ⟨hfirst, hsecond⟩ := matchStr_eq s input
  split_ifs with h
  · exact congrArg some (Prod.ext (hfirst.trans h) (hsecond h))
  · exact ⟨_, congrArg some (Prod.ext (hfirst.trans (Bool.eq_false_iff.mpr h)) rfl)⟩

theorem matchStr_fails {s input : Text} {c : UInt8} (hs : s.head? = some c)
    (hinput : input.head? ≠ some c) : matchStr s input = (false, 0) := by
  cases s with
  | nil => cases hs
  | cons c s =>
    cases hs
    cases input with
    | nil => rfl
    | cons d input => rw [matchStr, if_neg fun heq => hinput (congrArg some heq)]

theorem matchNewline_eq (input : Text) :
    matchNewline input = ((lineEnd input).isSome, (lineEnd input).getD 0) := by
  rcases input with _ | ⟨c, _ | ⟨d, input⟩⟩
  · rfl
  · by_cases hr : c = 0x0d
    · subst hr
      rfl
    · by_cases hn : c = 0x0a
      · subst hn
        rfl
      · simp [matchNewline, lineEnd, hr, hn]
  · by_cases hr : c = 0x0d
    · subst hr
      by_cases hn : d = 0x0a
      · subst hn
        rfl
      · simp [matchNewline, lineEnd, hn]
    · by_cases hn : c = 0x0a
      · subst hn
        rfl
      · simp [matchNewline, lineEnd, hr, hn]

theorem agrees_matchNewline (input : Text) :
    Agrees (some (matchNewline input)) (lineEnd input) := by
  rw [matchNewline_eq]
  cases lineEnd input with
  | none => exact ⟨0, rfl⟩
  | some n => exact rfl

theorem Agrees.behind {result : Option MatchResult} {r : Option ℕ} (h : Agrees result r) (n : ℕ) :
    Agrees (result.map (MatchResult.behind n)) (r.map (n + ·)) := by
  cases r with
  | some m =>
    rw [show result = some (true, m) from h]
    exact rfl
  | none =>
    obtain ⟨k, hk⟩ := h
    rw [hk]
    exact ⟨n + k, rfl⟩

/-- A pattern is matched as it should be, and does not move when its first character makes it
fail. -/
structure Pattern.Correct (p : Pattern) (input : Text) : Prop where
  agrees : ∀ r, Matches p input r → Agrees (p.run input) r
  stays : p.FailsAtStart input → p.run input = some (false, 0)

theorem Pattern.FailsAtStart.matches {p : Pattern} {input : Text} (h : p.FailsAtStart input) :
    Matches p input none := by
  induction p generalizing input with
  | ch | blank | digit | word | newline | atEnd | anyNumberOf | atMostOne => exact h
  | str s =>
    obtain ⟨c, hs, hinput⟩ := h
    have hprefix : ¬ s.isPrefixOf input := by
      cases s with
      | nil => cases hs
      | cons d s =>
        cases hs
        intro hprefix
        obtain ⟨rest, rfl⟩ := List.isPrefixOf_iff_prefix.mp hprefix
        exact hinput rfl
    have hmatch := Matches.str s input
    rwa [if_neg hprefix] at hmatch
  | composition p q ihp ihq =>
    rcases h with h | ⟨hm, h⟩
    · exact .compositionFails q (ihp h)
    · exact .composition hm (ihq (by rwa [List.drop_zero]))
  | disjunction p q ihp ihq => exact .disjunctionFails (ihp h.1) (ihq h.2)
  | conjunction p q ihp ihq =>
    rcases h with h | ⟨m, hm, h⟩
    · exact .conjunctionFails q (ihp h)
    · exact .conjunction hm (ihq h)
  | atLeastOne p ihp => exact .atLeastOneFails (ihp h)

section Correct

variable {p q : Pattern} {input : Text}

theorem Pattern.Correct.of_matches (h : p.Correct input) {n : ℕ}
    (hmatch : Matches p input (some n)) : p.run input = some (true, n) :=
  h.agrees (some n) hmatch

theorem Pattern.Correct.of_not_matches (h : p.Correct input) (hmatch : Matches p input none) :
    ∃ k, p.run input = some (false, k) :=
  h.agrees none hmatch

theorem Pattern.Correct.composition (hp : p.Correct input)
    (hq : ∀ m, Matches p input (some m) → q.Correct (input.drop m)) :
    (composition p q).Correct input where
  agrees := by
    intro r hr
    cases hr with
    | composition first second =>
      simp only [run, hp.of_matches first]
      exact ((hq _ first).agrees _ second).behind _
    | compositionFails _ first =>
      obtain ⟨k, hk⟩ := hp.of_not_matches first
      exact ⟨k, by simp only [run, hk]⟩
  stays := by
    rintro (h | ⟨hm, h⟩)
    · simp only [run, hp.stays h]
    · have hstays := (hq 0 hm).stays (by rwa [List.drop_zero])
      simp only [run, hp.of_matches hm, hstays]
      rfl

theorem Pattern.Correct.disjunction (hp : p.Correct input)
    (hq : Matches p input none → p.FailsAtStart input ∧ q.Correct input) :
    (disjunction p q).Correct input where
  agrees := by
    intro r hr
    cases hr with
    | disjunction _ first =>
      simp only [run, hp.of_matches first]
      exact rfl
    | disjunctionFails first second =>
      obtain ⟨hfails, hq⟩ := hq first
      have hsecond := (hq.agrees r second).behind 0
      simp only [run, hp.stays hfails, List.drop_zero]
      simpa using hsecond
  stays := by
    rintro ⟨hfails, h⟩
    simp only [run, hp.stays hfails, List.drop_zero, (hq hfails.matches).2.stays h]
    rfl

theorem Pattern.Correct.conjunction (hp : p.Correct input)
    (hq : ∀ m, Matches p input (some m) → q.Correct (input.take m)) :
    (conjunction p q).Correct input where
  agrees := by
    intro r hr
    cases hr with
    | conjunction first second =>
      simp only [run, hp.of_matches first]
      exact (hq _ first).agrees r second
    | conjunctionFails _ first =>
      obtain ⟨k, hk⟩ := hp.of_not_matches first
      exact ⟨k, by simp only [run, hk]⟩
  stays := by
    rintro (h | ⟨m, hm, h⟩)
    · simp only [run, hp.stays h]
    · simp only [run, hp.of_matches hm, (hq m hm).stays h]

/-- The loop goes on to the end of the repetition, with fuel for every character that is left. -/
theorem matchLoop_eq (hempty : ∀ input, ¬ Matches p input (some 0))
    (hp : ∀ n, Reaches p input n → p.Correct (input.drop n)) {fuel n k : ℕ}
    (hn : Reaches p input n) (hmatch : Matches (.anyNumberOf p) (input.drop n) (some k))
    (hfuel : input.length - n < fuel) : matchLoop p.run input fuel n = some (true, n + k) := by
  induction fuel generalizing n k with
  | zero => exact absurd hfuel (Nat.not_lt_zero _)
  | succ fuel ih =>
    cases hmatch with
    | anyNumberOfEnds first =>
      obtain ⟨j, hj⟩ := (hp n hn).of_not_matches first
      simp only [matchLoop, hj, Nat.add_zero]
    | @anyNumberOf _ _ m l first more =>
      have hpos : 0 < m := Nat.pos_of_ne_zero fun hzero => hempty _ (hzero ▸ first)
      have hle := first.le_length m rfl
      rw [List.length_drop] at hle
      rw [List.drop_drop] at more
      simp only [matchLoop, (hp n hn).of_matches first]
      rw [ih (.more hn first) more (by omega), Nat.add_assoc]

theorem Pattern.Correct.anyNumberOf (hempty : ∀ input, ¬ Matches p input (some 0))
    (hp : ∀ n, Reaches p input n → p.Correct (input.drop n)) :
    (anyNumberOf p).Correct input where
  agrees := by
    intro r hr
    have hloop : ∀ k, Matches (.anyNumberOf p) input (some k) →
        (Pattern.anyNumberOf p).run input = some (true, k) := by
      intro k hk
      rw [run, matchLoop_eq hempty hp .start (by rwa [List.drop_zero]) (by omega), Nat.zero_add]
    cases r with
    | some k => exact hloop k hr
    | none => cases hr
  stays := by
    intro h
    cases (show Matches (.anyNumberOf p) input none from h)

theorem Pattern.Correct.atLeastOne (hempty : ∀ input, ¬ Matches p input (some 0))
    (hp : ∀ n, Reaches p input n → p.Correct (input.drop n)) :
    (atLeastOne p).Correct input := by
  have hfirst : p.Correct input := hp 0 .start
  exact
    { agrees := by
        intro r hr
        cases hr with
        | @atLeastOne _ _ m n first more =>
          have hreaches : Reaches p input (0 + m) := .more .start first
          rw [Nat.zero_add] at hreaches
          simp only [run, hfirst.of_matches first]
          exact matchLoop_eq hempty hp hreaches more (by omega)
        | atLeastOneFails first =>
          obtain ⟨k, hk⟩ := hfirst.of_not_matches first
          exact ⟨k, by simp only [run, hk]⟩
      stays := fun h => by simp only [run, hfirst.stays h] }

theorem Pattern.Correct.atMostOne (hp : p.Correct input) : (atMostOne p).Correct input where
  agrees := by
    intro r hr
    cases hr with
    | atMostOne first =>
      simp only [run, hp.of_matches first]
      exact rfl
    | atMostOneFails first =>
      obtain ⟨k, hk⟩ := hp.of_not_matches first
      simp only [run, hk]
      exact rfl
  stays := by
    intro h
    cases (show Matches (.atMostOne p) input none from h)

end Correct

/-- One character is looked at. -/
theorem correct_matchOne {p : Pattern} {input : Text} {is : UInt8 → Bool}
    (hrun : p.run input = some (matchOne is input))
    (hmatch : ∀ r, Matches p input r → r = firstOf is input)
    (hfails : p.FailsAtStart input → Matches p input none) : p.Correct input where
  agrees := by
    intro r hr
    rw [hrun, hmatch r hr]
    exact agrees_matchOne is input
  stays := by
    intro h
    rw [hrun, matchOne_fails (hmatch none (hfails h)).symm]

theorem Pattern.Undisturbed.correct {p : Pattern} (hp : p.Advances) {input : Text}
    (h : p.Undisturbed input) : p.Correct input := by
  induction p generalizing input with
  | ch | blank | digit | word =>
    refine correct_matchOne rfl (fun r hr => ?_) id
    cases hr
    rfl
  | str s =>
    refine ⟨fun r hr => ?_, fun ⟨c, hs, hinput⟩ => ?_⟩
    · cases hr
      exact agrees_matchStr s input
    · rw [run, matchStr_fails hs hinput]
  | newline =>
    refine ⟨fun r hr => ?_, fun hfails => ?_⟩
    · cases hr
      exact agrees_matchNewline input
    · have hnone := Matches.unique (.newline input) hfails
      rw [run, matchNewline_eq, hnone]
      rfl
  | atEnd =>
    refine ⟨fun r hr => ?_, fun hfails => ?_⟩
    · cases hr
      rw [run]
      split_ifs with hempty
      · rw [hempty]
        exact rfl
      · exact ⟨0, by rw [Bool.eq_false_iff.mpr hempty]⟩
    · have hnone := Matches.unique (.atEnd input) hfails
      split_ifs at hnone with hempty
      rw [run, Bool.eq_false_iff.mpr hempty]
  | composition p q ihp ihq =>
    exact (ihp hp.1 h.1).composition fun m hm => ihq hp.2 (h.2 m hm)
  | disjunction p q ihp ihq =>
    exact (ihp hp.1 h.1).disjunction fun hm => ⟨(h.2 hm).1, ihq hp.2 (h.2 hm).2⟩
  | conjunction p q ihp ihq =>
    exact (ihp hp.1 h.1).conjunction fun m hm => ihq hp.2 (h.2 m hm)
  | anyNumberOf p ihp => exact .anyNumberOf hp.2 fun n hn => ihp hp.1 (h n hn)
  | atLeastOne p ihp => exact .atLeastOne hp.2 fun n hn => ihp hp.1 (h n hn)
  | atMostOne p ihp => exact (ihp hp h).atMostOne

/-- Matching ends, and succeeds with the length of the pattern's match exactly if there is one. -/
theorem run_orderedChoice {p : Pattern} (hp : p.Advances) {input : Text}
    (h : p.Undisturbed input) :
    (∃ result, p.run input = some result) ∧
      (∀ n, p.run input = some (true, n) ↔ Matches p input (some n)) ∧
      ((∃ k, p.run input = some (false, k)) ↔ Matches p input none) := by
  have hcorrect := h.correct hp
  obtain ⟨r, hr⟩ := hp.exists_matches input
  have hagrees := hcorrect.agrees r hr
  cases r with
  | some m =>
    have hrun : p.run input = some (true, m) := hagrees
    refine ⟨⟨_, hrun⟩, fun n => ⟨fun hn => ?_, hcorrect.of_matches⟩, fun ⟨k, hk⟩ => ?_,
      hcorrect.of_not_matches⟩
    · rw [hrun] at hn
      cases hn
      exact hr
    · rw [hrun] at hk
      cases hk
  | none =>
    obtain ⟨k, hrun⟩ := hagrees
    refine ⟨⟨_, hrun⟩, fun n => ⟨fun hn => ?_, hcorrect.of_matches⟩, fun _ => hr,
      hcorrect.of_not_matches⟩
    rw [hrun] at hn
    cases hn

/-- `(a >> b) | c`, with all three of them characters. -/
def sequenceOrChar : Pattern :=
  .disjunction (.composition (.ch 0x61) (.ch 0x62)) (.ch 0x63)

theorem run_orderedChoice_c :
    sequenceOrChar.Advances ∧ sequenceOrChar.Undisturbed [0x63] ∧
      (∀ n, sequenceOrChar.run [0x63] = some (true, n) ↔
        Matches sequenceOrChar [0x63] (some n)) := by
  have hadvances : sequenceOrChar.Advances := ⟨⟨trivial, trivial⟩, trivial⟩
  have hundisturbed : sequenceOrChar.Undisturbed [0x63] :=
    ⟨⟨trivial, fun _ _ => trivial⟩, fun _ => ⟨.inl (.ch 0x61 [0x63]), trivial⟩⟩
  exact ⟨hadvances, hundisturbed, (run_orderedChoice hadvances hundisturbed).2.1⟩

/-- Neither alternative matches `ac`, but the second one is tried at the `c`. -/
theorem run_leaks_position :
    sequenceOrChar.run [0x61, 0x63] = some (true, 2) ∧
      Matches sequenceOrChar [0x61, 0x63] none := by
  have hsecond : Matches (.ch 0x62) [0x63] none := .ch 0x62 [0x63]
  have hsequence : Matches (.composition (.ch 0x61) (.ch 0x62)) [0x61, 0x63] (none.map (1 + ·)) :=
    .composition (.ch 0x61 [0x61, 0x63]) hsecond
  exact ⟨by decide, .disjunctionFails hsequence (.ch 0x63 [0x61, 0x63])⟩

end Fimbulwinter.Regex
