import Fimbulwinter.IniGrammar

/-! # Acceptance by `core::structure_ini`

What is read is what the grammar says, one line and one section at a time. -/
namespace Fimbulwinter.Ini

open Json (Text space openBracket closeBracket trueText falseText findMember)

variable {Kind N : Type*} {fromChars : Kind → Text → ℕ × N}

/-! ## Values -/

theorem readLine_append {text : Text} (h : ∀ c ∈ text, ¬ LineEnd c) {b : UInt8} (hb : LineEnd b)
    (s : Text) : readLine (equals :: space :: (text ++ b :: s)) = .ok (text, b :: s) := by
  have hview : view (text ++ b :: s) (b :: s) = .ok text := view_append text rfl
  simp only [readLine, List.tail_cons, skipToLine, skipToLineLoop_append h hb, List.drop_succ_cons,
    List.drop_zero, hview]

theorem readLine_ok {s str last : Text}
    (h : readLine (equals :: space :: s) = .ok (str, last)) :
    ∃ b tail, s = str ++ b :: tail ∧ last = b :: tail ∧ LineEnd b ∧ ∀ c ∈ str, ¬ LineEnd c := by
  simp only [readLine, List.tail_cons, skipToLine] at h
  cases hline : skipToLineLoop s with
  | error e =>
    rw [hline] at h
    cases h
  | ok last' =>
    obtain ⟨text, b, tail, rfl, rfl, hb, htext⟩ := skipToLineLoop_ok hline
    have hview : view (text ++ b :: tail) (b :: tail) = .ok text := view_append text rfl
    simp only [hline, List.drop_succ_cons, List.drop_zero, hview, Except.ok.injEq,
      Prod.mk.injEq] at h
    obtain ⟨rfl, rfl⟩ := h
    exact ⟨b, tail, rfl, rfl, hb, htext⟩

/-- A word and the end of the line, when they are compared at once. -/
theorem take_word (word s : Text) :
    (s.take (word.length + 1) = word ++ [lineFeed] ∨
        s.take (word.length + 1) = word ++ [carriageReturn]) ↔
      ∃ b tail, s = word ++ b :: tail ∧ LineEnd b := by
  have hword : ∀ b, s.take (word.length + 1) = word ++ [b] ↔ word ++ [b] <+: s := fun b => by
    rw [List.prefix_iff_eq_take, List.length_append, List.length_singleton, eq_comm]
  rw [hword, hword]
  constructor
  · rintro (⟨tail, rfl⟩ | ⟨tail, rfl⟩)
    · exact ⟨lineFeed, tail, List.append_assoc _ _ _, .inr rfl⟩
    · exact ⟨carriageReturn, tail, List.append_assoc _ _ _, .inl rfl⟩
  · rintro ⟨b, tail, rfl, rfl | rfl⟩
    · exact .inr ⟨tail, List.append_assoc _ _ _⟩
    · exact .inl ⟨tail, List.append_assoc _ _ _⟩

variable {content : Text}

theorem readBool_eq {s : Text} (hbefore : byteBefore content (equals :: space :: s) = some space) :
    readBool content (equals :: space :: s) =
      if 5 ≤ s.length ∧ (s.take 5 = trueText ++ [lineFeed] ∨ s.take 5 = trueText ++ [carriageReturn])
      then .ok (s.drop 4, (.bool true : Value N))
      else if 6 ≤ s.length ∧
        (s.take 6 = falseText ++ [lineFeed] ∨ s.take 6 = falseText ++ [carriageReturn])
      then .ok (s.drop 5, .bool false)
      else .error .unexpectedValue2 := by
  simp [readBool, hbefore]

theorem readBool_ok {s : Text} (hbefore : byteBefore content (equals :: space :: s) = some space)
    {r : Text} {x : Value N} : readBool content (equals :: space :: s) = .ok (r, x) ↔
      ∃ text b tail, s = text ++ b :: tail ∧ r = b :: tail ∧ LineEnd b ∧
        Reads fromChars .bool text r x := by
  rw [readBool_eq hbefore]
  have htrue := take_word trueText s
  have hfalse := take_word falseText s
  constructor
  · intro h
    split_ifs at h with h₁ h₂
    · obtain ⟨b, tail, rfl, hb⟩ := htrue.mp h₁.2
      cases h
      exact ⟨trueText, b, tail, rfl, rfl, hb, .true⟩
    · obtain ⟨b, tail, rfl, hb⟩ := hfalse.mp h₂.2
      cases h
      exact ⟨falseText, b, tail, rfl, rfl, hb, .false⟩
  · rintro ⟨text, b, tail, rfl, rfl, hb, hreads⟩
    cases hreads with
    | true => rw [if_pos ⟨by simp [trueText], htrue.mpr ⟨b, tail, rfl, hb⟩⟩]; rfl
    | false =>
      have hnot : ¬ (5 ≤ (falseText ++ b :: tail).length ∧
          ((falseText ++ b :: tail).take 5 = trueText ++ [lineFeed] ∨
            (falseText ++ b :: tail).take 5 = trueText ++ [carriageReturn])) := by
        simp [falseText, trueText]
      rw [if_neg hnot, if_pos ⟨by simp [falseText], hfalse.mpr ⟨b, tail, rfl, hb⟩⟩]
      rfl

theorem readNumber_ok {kind : Kind} {s r : Text} {x : Value N} :
    readNumber fromChars kind (equals :: space :: s) = .ok (r, x) ↔
      ∃ text b tail, s = text ++ b :: tail ∧ r = b :: tail ∧ LineEnd b ∧
        Reads fromChars (.number kind) text r x := by
  simp only [readNumber, List.drop_succ_cons, List.drop_zero]
  constructor
  · intro h
    split_ifs at h with hpos
    cases hdrop : s.drop (fromChars kind s).1 with
    | nil =>
      rw [hdrop] at h
      cases h
    | cons b tail =>
      rw [hdrop] at h
      dsimp only at h
      split_ifs at h with hb
      cases h
      have hlt : (fromChars kind s).1 < s.length := by
        by_contra hle
        rw [List.drop_of_length_le (Nat.le_of_not_lt hle)] at hdrop
        cases hdrop
      have hsplit : s = s.take (fromChars kind s).1 ++ b :: tail := by
        rw [← hdrop, List.take_append_drop]
      have hlength : (s.take (fromChars kind s).1).length = (fromChars kind s).1 :=
        List.length_take_of_le (Nat.le_of_lt hlt)
      refine ⟨_, b, tail, hsplit, rfl, hb, .number (fun hnil => ?_) ?_⟩
      · rw [hnil] at hlength
        exact absurd hlength.symm (Nat.ne_of_gt hpos)
      · rw [← hsplit, hlength]
  · rintro ⟨text, b, tail, rfl, rfl, hb, hreads⟩
    cases hreads with
    | number hne hpassed =>
      rw [hpassed, if_pos (List.length_pos_iff.mpr hne), List.drop_left]
      exact if_pos hb

theorem readEnum_ok {table : List (Text × ℕ)} {s r : Text} {x : Value N} :
    readEnum table (equals :: space :: s) = .ok (r, x) ↔
      ∃ text b tail, s = text ++ b :: tail ∧ r = b :: tail ∧ LineEnd b ∧
        Reads fromChars (.enum table) text r x := by
  constructor
  · intro h
    rw [readEnum] at h
    cases hline : readLine (equals :: space :: s) with
    | error e =>
      rw [hline] at h
      cases h
    | ok p =>
      obtain ⟨str, last⟩ := p
      obtain ⟨b, tail, rfl, rfl, hb, hstr⟩ := readLine_ok hline
      rw [hline] at h
      dsimp only at h
      cases hfind : table.find? fun p => p.1 = str with
      | none =>
        rw [hfind] at h
        cases h
      | some p =>
        rw [hfind] at h
        cases h
        exact ⟨str, b, tail, rfl, rfl, hb, .enum hstr hfind⟩
  · rintro ⟨text, b, tail, rfl, rfl, hb, hreads⟩
    cases hreads with
    | enum hline hfound => simp only [readEnum, readLine_append hline hb, hfound]

theorem readString_ok {s r : Text} {x : Value N} :
    readString (equals :: space :: s) = .ok (r, x) ↔
      ∃ text b tail, s = text ++ b :: tail ∧ r = b :: tail ∧ LineEnd b ∧
        Reads fromChars .string text r x := by
  constructor
  · intro h
    rw [readString] at h
    cases hline : readLine (equals :: space :: s) with
    | error e =>
      rw [hline] at h
      cases h
    | ok p =>
      obtain ⟨str, last⟩ := p
      obtain ⟨b, tail, rfl, rfl, hb, hstr⟩ := readLine_ok hline
      rw [hline] at h
      cases h
      exact ⟨str, b, tail, rfl, rfl, hb, .string hstr⟩
  · rintro ⟨text, b, tail, rfl, rfl, hb, hreads⟩
    cases hreads with
    | string hline => simp only [readString, readLine_append hline hb]

/-- A value is read if it is one of the member's texts and the line ends after it. -/
theorem readValue_ok (member : Member Kind) {s r : Text} {x : Value N}
    (hbefore : byteBefore content (equals :: space :: s) = some space) :
    readValue fromChars content (equals :: space :: s) member = .ok (r, x) ↔
      ∃ type text b tail, member = .scalar type ∧ s = text ++ b :: tail ∧ r = b :: tail ∧
        LineEnd b ∧ Reads fromChars type text r x := by
  cases member with
  | members table => simp [readValue]
  | scalar type =>
    have hscalar : (∃ type' text b tail, Member.scalar type = .scalar type' ∧
        s = text ++ b :: tail ∧ r = b :: tail ∧ LineEnd b ∧ Reads fromChars type' text r x) ↔
          ∃ text b tail, s = text ++ b :: tail ∧ r = b :: tail ∧ LineEnd b ∧
            Reads fromChars type text r x := by
      constructor
      · rintro ⟨_, text, b, tail, heq, h⟩
        cases heq
        exact ⟨text, b, tail, h⟩
      · rintro ⟨text, b, tail, h⟩
        exact ⟨type, text, b, tail, rfl, h⟩
    rw [hscalar, readValue.eq_def]
    dsimp only
    rw [if_neg (by simp)]
    cases type with
    | bool => exact readBool_ok hbefore
    | number kind => exact readNumber_ok
    | enum table => exact readEnum_ok
    | string => exact readString_ok

/-! ## Errors -/

theorem skipToCharLoop_error {c : UInt8} {s : Text} {e : Failure}
    (h : skipToCharLoop c s = .error e) : e = .unexpectedEof ∨ e = .unexpectedEol := by
  induction s with
  | nil =>
    cases h
    exact .inl rfl
  | cons b s ih =>
    rw [skipToCharLoop] at h
    split_ifs at h
    · exact ih h
    · cases h
      exact .inr rfl
    · exact ih h

theorem skipToLineLoop_error {s : Text} {e : Failure} (h : skipToLineLoop s = .error e) :
    e = .unexpectedEof ∧ ∀ b ∈ s, ¬ LineEnd b := by
  induction s with
  | nil =>
    cases h
    exact ⟨rfl, fun b hb => absurd hb List.not_mem_nil⟩
  | cons b s ih =>
    rw [skipToLineLoop] at h
    split_ifs at h with hlt hne
    · obtain ⟨he, hs⟩ := ih h
      exact ⟨he, List.forall_mem_cons.mpr ⟨fun hend => UInt8.not_lt.mpr hend.le hlt, hs⟩⟩
    · obtain ⟨he, hs⟩ := ih h
      exact ⟨he, List.forall_mem_cons.mpr ⟨not_or.mpr hne, hs⟩⟩

theorem skipComments_error {n : ℕ} {s : Text} {e : Failure} (hs : s ≠ []) (hn : s.length ≤ n)
    (h : skipComments n s = .error e) : e = .unexpectedEof := by
  induction n generalizing s with
  | zero => exact absurd (List.length_eq_zero_iff.mp (Nat.le_zero.mp hn)) hs
  | succ n ih =>
    cases s with
    | nil => exact absurd rfl hs
    | cons b s =>
      rw [skipComments, skipToLine] at h
      cases hline : skipToLineLoop s with
      | error e' =>
        rw [hline] at h
        cases h
        exact (skipToLineLoop_error hline).1
      | ok r =>
        obtain ⟨text, c, tail, rfl, rfl, -, -⟩ := skipToLineLoop_ok hline
        rw [hline] at h
        have hle := length_skipBlanks_le tail
        simp only [List.length_cons, List.length_append] at hn
        by_cases hhead : (skipBlanks tail).head? = some semicolon
        · simp only [List.tail_cons, hhead, if_true] at h
          exact ih (fun hnil => by simp [hnil] at hhead) (by omega) h
        · simp only [List.tail_cons, hhead, if_false] at h
          cases h

theorem skipWhitespace_error {s : Text} {e : Failure} (h : skipWhitespace s = .error e) :
    e = .unexpectedEof := by
  cases s with
  | nil =>
    cases h
    rfl
  | cons b s =>
    rw [skipWhitespace] at h
    split_ifs at h with hb hle hhead
    · exact skipComments_error (List.cons_ne_nil b s) (Nat.le_refl _) h
    · exact skipComments_error (fun hnil => by simp [hnil] at hhead) (Nat.le_refl _) h

theorem readLine_error {s : Text} {e : Failure} (h : readLine (equals :: space :: s) = .error e) :
    e = .outside ∧ ∀ b ∈ s, ¬ LineEnd b := by
  simp only [readLine, List.tail_cons, skipToLine] at h
  cases hline : skipToLineLoop s with
  | error e' =>
    rw [hline] at h
    cases h
    exact ⟨rfl, (skipToLineLoop_error hline).2⟩
  | ok last =>
    obtain ⟨text, b, tail, rfl, rfl, -, -⟩ := skipToLineLoop_ok hline
    have hview : view (text ++ b :: tail) (b :: tail) = .ok text := view_append text rfl
    simp only [hline, List.drop_succ_cons, List.drop_zero, hview] at h
    cases h

/-- A value leads outside of the text only when it takes up the rest of it. -/
theorem readValue_error {s : Text} {member : Member Kind} {e : Failure}
    (hbefore : byteBefore content (equals :: space :: s) = some space)
    (h : readValue fromChars content (equals :: space :: s) member = .error e) :
    e ≠ .outOfFuel ∧ (e = .outside → ∃ type, member = .scalar type ∧ type.TakesLine ∧
      ∀ b ∈ s, ¬ LineEnd b) := by
  cases member with
  | members table =>
    cases h
    exact ⟨by decide, fun he => by cases he⟩
  | scalar type =>
    rw [readValue.eq_def] at h
    dsimp only at h
    rw [if_neg (by simp)] at h
    cases type with
    | bool =>
      dsimp only at h
      rw [readBool_eq hbefore] at h
      split_ifs at h
      cases h
      exact ⟨by decide, fun he => by cases he⟩
    | number kind =>
      simp only [readNumber] at h
      split_ifs at h
      · split at h
        · cases h
          exact ⟨by decide, fun he => by cases he⟩
        · split_ifs at h
          cases h
          exact ⟨by decide, fun he => by cases he⟩
      · cases h
        exact ⟨by decide, fun he => by cases he⟩
    | enum table =>
      simp only [readEnum] at h
      cases hline : readLine (equals :: space :: s) with
      | error e' =>
        rw [hline] at h
        cases h
        obtain ⟨rfl, hs⟩ := readLine_error hline
        exact ⟨by decide, fun _ => ⟨_, rfl, trivial, hs⟩⟩
      | ok p =>
        rw [hline] at h
        dsimp only at h
        split at h
        · cases h
          exact ⟨by decide, fun he => by cases he⟩
        · cases h
    | string =>
      simp only [readString] at h
      cases hline : readLine (equals :: space :: s) with
      | error e' =>
        rw [hline] at h
        cases h
        obtain ⟨rfl, hs⟩ := readLine_error hline
        exact ⟨by decide, fun _ => ⟨_, rfl, trivial, hs⟩⟩
      | ok p =>
        rw [hline] at h
        cases h

/-! ## Entries -/

theorem IsKey.ne_nil {key : Text} (h : IsKey key) : key ≠ [] := by
  obtain ⟨b, rest, rfl, -⟩ := h.first
  exact List.cons_ne_nil b rest

theorem byteBefore_of_eq {before key s : Text} (h : content = before ++ (key ++ space :: s)) :
    byteBefore content s = some space := by
  rw [h, ← List.append_assoc]
  exact byteBefore_append _ _ _

/-- There is a byte in front of a `=` in a text that does not begin with one. -/
theorem byteBefore_ne_none {before s : Text} (hcontent : content = before ++ equals :: s)
    (hhead : content.head? ≠ some equals) : byteBefore content (equals :: s) ≠ none := by
  obtain rfl | ⟨init, last, rfl⟩ := List.eq_nil_or_concat before
  · exact absurd (by rw [hcontent]; rfl) hhead
  · rw [hcontent, List.concat_eq_append, List.append_assoc, List.singleton_append,
      byteBefore_append]
    exact Option.some_ne_none last

theorem readKey_append {before key s : Text}
    (h : content = before ++ (key ++ space :: equals :: space :: s)) :
    readKey content (key ++ space :: equals :: space :: s) (equals :: space :: s) = .ok key := by
  rw [readKey, byteBefore_of_eq h]
  exact view_append key rfl

/-- The key and the spaces around a `=` that is not the first byte of a line. -/
theorem readKey_ok {before s key : Text} (text : Text) (hcontent : content = before ++ (text ++ s))
    (h : readKey content (text ++ s) s = .ok key) (hne : text ≠ []) :
    ∃ c tail, text = key ++ [space] ∧ s = c :: space :: tail := by
  obtain ⟨init, last, rfl⟩ := List.eq_nil_or_concat text |>.resolve_left hne
  have hbefore : byteBefore content s = some last := by
    rw [hcontent, List.concat_eq_append, ← List.append_assoc, ← List.append_assoc,
      List.append_assoc]
    exact byteBefore_append _ _ _
  rw [readKey, hbefore] at h
  dsimp only at h
  split_ifs at h with hlast
  obtain rfl := not_not.mp hlast
  match s, h with
  | c :: d :: tail, h =>
    simp only [List.getElem?_cons_succ, List.getElem?_cons_zero] at h
    split_ifs at h with hd
    obtain rfl := not_not.mp hd
    rw [List.concat_eq_append, List.append_assoc] at h
    have hview : view (init ++ ([space] ++ c :: space :: tail)) (space :: c :: space :: tail) =
        .ok init := view_append init rfl
    rw [hview] at h
    cases h
    exact ⟨c, tail, List.concat_eq_append, rfl⟩

/-- There is no key in front of a `=` that is the first byte of a line. -/
theorem readKey_self (s key : Text) : readKey content s s ≠ .ok key := by
  intro h
  rw [readKey] at h
  split at h
  · cases h
  · split_ifs at h
    split at h
    · cases h
    · split_ifs at h
      rw [view, if_neg (by simp)] at h
      cases h

theorem readKey_error {before s : Text} (text : Text) {e : Failure}
    (hcontent : content = before ++ (text ++ s)) (hne : text ≠ [])
    (h : readKey content (text ++ s) s = .error e) :
    e = .missingSpaces ∨ e = .outside ∧ s[1]? = none ∧ ∃ key, text = key ++ [space] := by
  obtain ⟨init, last, rfl⟩ := List.eq_nil_or_concat text |>.resolve_left hne
  rw [List.concat_eq_append] at hcontent h ⊢
  have hbefore : byteBefore content s = some last := by
    rw [hcontent, ← List.append_assoc, ← List.append_assoc, List.append_assoc]
    exact byteBefore_append _ _ _
  rw [readKey, hbefore] at h
  dsimp only at h
  split_ifs at h with hlast
  · cases h
    exact .inl rfl
  · obtain rfl := not_not.mp hlast
    cases hnext : s[1]? with
    | none =>
      rw [hnext] at h
      cases h
      exact .inr ⟨rfl, rfl, init, rfl⟩
    | some c =>
      rw [hnext] at h
      dsimp only at h
      split_ifs at h
      · cases h
        exact .inl rfl
      · rw [List.append_assoc] at h
        have hview : view (init ++ ([space] ++ s)) (space :: s) = .ok init :=
          view_append init rfl
        rw [hview] at h
        cases h

theorem readKey_self_error {s : Text} {e : Failure} (h : readKey content s s = .error e) :
    e = .missingSpaces ∨ e = .outside ∧ (byteBefore content s = none ∨
      byteBefore content s = some space ∧ (s[1]? = none ∨ s[1]? = some space)) := by
  rw [readKey] at h
  cases hbefore : byteBefore content s with
  | none =>
    rw [hbefore] at h
    cases h
    exact .inr ⟨rfl, .inl rfl⟩
  | some b =>
    rw [hbefore] at h
    dsimp only at h
    split_ifs at h with hb
    · cases h
      exact .inl rfl
    · obtain rfl := not_not.mp hb
      cases hnext : s[1]? with
      | none =>
        rw [hnext] at h
        cases h
        exact .inr ⟨rfl, .inr ⟨rfl, .inl rfl⟩⟩
      | some c =>
        rw [hnext] at h
        dsimp only at h
        split_ifs at h with hc
        · cases h
          exact .inl rfl
        · rw [view, if_neg (by simp)] at h
          cases h
          exact .inr ⟨rfl, .inr ⟨rfl, .inr (by rw [not_not.mp hc])⟩⟩

variable {table : List (Text × Member Kind)} {path : List ℕ} {x : Object N} {s : Text} {n : ℕ}

theorem readKeyValues_entry {before key text : Text} {i : ℕ} {type : Scalar Kind} {b : UInt8}
    {y : Value N} (hkey : IsKey key) (hfound : findMember table key = some (i, .scalar type))
    (hb : LineEnd b) (hreads : Reads fromChars type text (b :: s) y)
    (hcontent : content = before ++ (key ++ space :: equals :: space :: (text ++ b :: s))) :
    readKeyValues fromChars content table path (n + 1)
        (key ++ space :: equals :: space :: (text ++ b :: s)) x =
      readKeyValues fromChars content table path n (b :: s) (Function.update x (path ++ [i]) y) := by
  obtain ⟨c, k, rfl, hspace, hsemicolon, hbracket⟩ := hkey.first
  have hequals : c ≠ equals := (hkey.line c List.mem_cons_self).1
  have hchar : skipToChar equals (c :: (k ++ space :: equals :: space :: (text ++ b :: s))) =
      .ok (equals :: space :: (text ++ b :: s)) := by
    have hline : ∀ d ∈ k ++ [space], d ≠ equals ∧ ¬ LineEnd d := by
      intro d hd
      rcases List.mem_append.mp hd with hd | hd
      · exact hkey.line d (List.mem_cons_of_mem c hd)
      · rw [List.mem_singleton.mp hd]
        decide
    have hloop := skipToCharLoop_append (c := equals) (by decide) hline
      (space :: (text ++ b :: s))
    rwa [List.append_assoc] at hloop
  have hreadKey := readKey_append hcontent
  have hvalue := (readValue_ok (.scalar type) (byteBefore_of_eq hcontent)).mpr
    ⟨type, text, b, s, rfl, rfl, rfl, hb, hreads⟩
  rw [List.cons_append] at hreadKey ⊢
  rw [readKeyValues, skipWhitespace_of_ready hspace hsemicolon]
  simp only [if_neg hbracket, ne_eq, hequals, not_false_eq_true, if_true, hchar, hreadKey, hfound,
    hvalue]

/-- The members are read from what is left, if there is anything. -/
def readKeyValuesFrom (fromChars : Kind → Text → ℕ × N) (content : Text)
    (table : List (Text × Member Kind)) (path : List ℕ) (n : ℕ) (s : Text) (x : Object N) :
    Except Failure (Text × Object N) :=
  if s = [] then .ok ([], x) else readKeyValues fromChars content table path n s x

theorem readKeyValues_skip {s' : Text} (h : skipWhitespace s' = skipWhitespaceFrom s) :
    readKeyValues fromChars content table path (n + 1) s' x =
      readKeyValuesFrom fromChars content table path (n + 1) s x := by
  rw [readKeyValuesFrom, readKeyValues, h, skipWhitespaceFrom]
  split_ifs
  · rfl
  · rw [readKeyValues]

/-- When there is enough fuel for the text, a body is read, and then what is left. -/
theorem Body.readKeyValuesFrom_eq {es : List (ℕ × Value N)} {rest : Text}
    (h : Body fromChars table s es rest) {before : Text} (hcontent : content = before ++ s)
    (hn : s.length ≤ n) (path : List ℕ) (x : Object N) : ∃ m, rest.length ≤ m ∧
      Ini.readKeyValuesFrom fromChars content table path n s x =
        Ini.readKeyValuesFrom fromChars content table path m rest
          (written x (es.map fun e => (path ++ [e.1], e.2))) := by
  induction h generalizing before n x with
  | done => exact ⟨n, hn, rfl⟩
  | @blank b s es rest hb body ih =>
    obtain ⟨m, rfl⟩ := Nat.exists_eq_add_one_of_ne_zero (Nat.ne_zero_of_lt hn)
    rw [Ini.readKeyValuesFrom, if_neg (List.cons_ne_nil _ _),
      readKeyValues_skip (skipWhitespace_blank hb s)]
    have hcontent' : content = (before ++ [b]) ++ s := by
      rw [hcontent, List.append_assoc, List.singleton_append]
    exact ih hcontent' (Nat.le_of_succ_le hn) x
  | @comment text b s es rest line hb body ih =>
    obtain ⟨m, rfl⟩ := Nat.exists_eq_add_one_of_ne_zero (Nat.ne_zero_of_lt hn)
    rw [Ini.readKeyValuesFrom, if_neg (List.cons_ne_nil _ _),
      readKeyValues_skip (skipWhitespace_comment line hb s)]
    have hcontent' : content = (before ++ semicolon :: (text ++ [b])) ++ s := by
      rw [hcontent]
      simp
    simp only [List.length_cons, List.length_append] at hn
    exact ih hcontent' (by omega) x
  | @entry key i type text b s y es rest isKey found hb reads body ih =>
    simp only [List.length_cons, List.length_append] at hn
    obtain ⟨m, rfl⟩ : ∃ m, n = m + 2 := ⟨n - 2, by omega⟩
    rw [Ini.readKeyValuesFrom, if_neg (by simp), readKeyValues_entry isKey found hb reads hcontent,
      readKeyValues_skip (skipWhitespace_blank hb.le_space s), List.map_cons, written_cons]
    have hcontent' : content =
        (before ++ (key ++ space :: equals :: space :: (text ++ [b]))) ++ s := by
      rw [hcontent]
      simp
    exact ih hcontent' (by omega) _

/-- A body is read up to a section or the end. -/
theorem Body.readKeyValuesFrom {es : List (ℕ × Value N)} {rest : Text}
    (h : Body fromChars table s es rest) (hrest : rest = [] ∨ ∃ t, rest = openBracket :: t)
    {before : Text} (hcontent : content = before ++ s) (hn : s.length ≤ n) (path : List ℕ)
    (x : Object N) : Ini.readKeyValuesFrom fromChars content table path n s x =
      .ok (rest, written x (es.map fun e => (path ++ [e.1], e.2))) := by
  obtain ⟨m, hm, heq⟩ := h.readKeyValuesFrom_eq hcontent hn path x
  rw [heq]
  obtain rfl | ⟨t, rfl⟩ := hrest
  · rfl
  · obtain ⟨m, rfl⟩ := Nat.exists_eq_add_one_of_ne_zero (Nat.ne_zero_of_lt hm)
    rw [Ini.readKeyValuesFrom, if_neg (List.cons_ne_nil _ _), readKeyValues,
      skipWhitespace_of_ready (by decide) (by decide)]
    exact if_pos rfl

/-- What is in front of a `=`, without the space between, is a key. -/
theorem isKey_of_append {c : UInt8} {text key : Text} (heq : c :: text = key ++ [space])
    (hspace : space < c) (hsemicolon : c ≠ semicolon) (hbracket : c ≠ openBracket)
    (hequals : c ≠ equals) (htext : ∀ b ∈ text, b ≠ equals ∧ ¬ LineEnd b) : IsKey key := by
  cases key with
  | nil =>
    cases heq
    exact absurd hspace (UInt8.lt_irrefl _)
  | cons d k =>
    obtain ⟨rfl, rfl⟩ := List.cons.inj heq
    refine ⟨⟨c, k, rfl, hspace, hsemicolon, hbracket⟩, ?_⟩
    refine List.forall_mem_cons.mpr ⟨⟨hequals, fun hend => ?_⟩, fun d hd => ?_⟩
    · exact UInt8.not_le.mpr hspace hend.le_space
    · exact htext d (List.mem_append_left _ hd)

/-- A body does not begin with a `=`. -/
theorem readKeyValues_equals (r : Text × Object N) :
    Ini.readKeyValuesFrom fromChars content table path n (equals :: s) x ≠ .ok r := by
  intro h
  rw [Ini.readKeyValuesFrom, if_neg (List.cons_ne_nil _ _)] at h
  cases n with
  | zero => cases h
  | succ n =>
    rw [readKeyValues, skipWhitespace_of_ready (by decide) (by decide)] at h
    dsimp only at h
    rw [if_neg (by decide), if_neg (not_not.mpr rfl)] at h
    dsimp only at h
    cases hkey : readKey content (equals :: s) (equals :: s) with
    | error e =>
      rw [hkey] at h
      cases h
    | ok key => exact readKey_self _ _ hkey

/-- No key can be viewed in front of a `=` that is the first byte of a line. -/
theorem breaks_of_readKey_self {before first : Text} (hcontent : content = before ++ equals :: first)
    (hhead : content.head? ≠ some equals)
    (h : readKey content (equals :: first) (equals :: first) = .error .outside) :
    Breaks content table (equals :: first) := by
  obtain he | ⟨-, hnone | ⟨hbefore, hafter⟩⟩ := readKey_self_error h
  · cases he
  · exact absurd hnone (byteBefore_ne_none hcontent hhead)
  · refine .first hbefore ?_
    cases first with
    | nil => exact .inl rfl
    | cons c first =>
      obtain hafter | hafter := hafter
      · cases hafter
      · exact .inr ⟨first, by rw [Option.some.inj hafter]⟩

/-- A step of `read_key_values`: it fails, it is at a section or the end, or it reads an entry. -/
theorem readKeyValues_succ (fromChars : Kind → Text → ℕ × N) (table : List (Text × Member Kind))
    (path : List ℕ) (n : ℕ) (x : Object N) {before : Text} (hcontent : content = before ++ s) :
    (∃ e, readKeyValues fromChars content table path (n + 1) s x = .error e ∧ e ≠ .outOfFuel ∧
      (e = .outside → content.head? ≠ some equals → ∃ r, Skips s r ∧ Breaks content table r)) ∨
    (∃ r, Skips s r ∧ (r = [] ∨ ∃ t, r = openBracket :: t) ∧
      readKeyValues fromChars content table path (n + 1) s x = .ok (r, x)) ∨
    ∃ key i type text b tail y,
      Skips s (key ++ space :: equals :: space :: (text ++ b :: tail)) ∧ IsKey key ∧
        findMember table key = some (i, .scalar type) ∧ LineEnd b ∧
        Reads fromChars type text (b :: tail) y ∧
        readKeyValues fromChars content table path (n + 1) s x =
          readKeyValues fromChars content table path n (b :: tail)
            (Function.update x (path ++ [i]) y) := by
  rw [readKeyValues]
  cases hwhitespace : skipWhitespace s with
  | error e =>
    obtain rfl := skipWhitespace_error hwhitespace
    exact .inl ⟨_, rfl, by decide, fun he => by cases he⟩
  | ok first =>
    obtain ⟨hskips, hready⟩ := skipWhitespace_ok hwhitespace
    obtain ⟨skipped, rfl⟩ := hskips.suffix
    rw [← List.append_assoc] at hcontent
    cases first with
    | nil => exact .inr (.inl ⟨[], hskips, .inl rfl, rfl⟩)
    | cons c first =>
      obtain ⟨hspace, hsemicolon⟩ := hready c first rfl
      dsimp only
      by_cases hbracket : c = openBracket
      · exact .inr (.inl ⟨_, hskips, .inr ⟨first, by rw [hbracket]⟩, if_pos hbracket⟩)
      rw [if_neg hbracket]
      by_cases hequals : c = equals
      · rw [if_neg (not_not.mpr hequals)]
        dsimp only
        cases hkey : readKey content (c :: first) (c :: first) with
        | ok key => exact absurd hkey (readKey_self _ _)
        | error e =>
          refine .inl ⟨e, rfl, ?_, fun he hhead => ⟨_, hskips, ?_⟩⟩
          · obtain rfl | ⟨rfl, -⟩ := readKey_self_error hkey <;> decide
          · subst hequals he
            exact breaks_of_readKey_self hcontent hhead hkey
      rw [if_pos hequals, skipToChar]
      cases hchar : skipToCharLoop equals first with
      | error e =>
        refine .inl ⟨e, rfl, ?_, fun he => ?_⟩
        · obtain rfl | rfl := skipToCharLoop_error hchar <;> decide
        · subst he
          obtain he | he := skipToCharLoop_error hchar <;> cases he
      | ok last =>
        obtain ⟨text, tail, rfl, rfl, htext⟩ := skipToCharLoop_ok (by decide) hchar
        dsimp only
        cases hkey : readKey content (c :: (text ++ equals :: tail)) (equals :: tail) with
        | error e =>
          refine .inl ⟨e, rfl, ?_, fun he _ => ⟨_, hskips, ?_⟩⟩
          · obtain rfl | ⟨rfl, -⟩ :=
              readKey_error (c :: text) hcontent (List.cons_ne_nil c text) hkey <;> decide
          · subst he
            obtain he | ⟨-, hnone, key, heq⟩ :=
              readKey_error (c :: text) hcontent (List.cons_ne_nil c text) hkey
            · cases he
            · have hkeyOf := isKey_of_append heq hspace hsemicolon hbracket hequals htext
              obtain rfl : tail = [] := by simpa using hnone
              rw [← List.cons_append, heq, List.append_assoc]
              exact .last hkeyOf
        | ok key =>
          obtain ⟨d, tail', heq, hlast⟩ :=
            readKey_ok (c :: text) hcontent hkey (List.cons_ne_nil c text)
          cases hlast
          have hkeyOf := isKey_of_append heq hspace hsemicolon hbracket hequals htext
          have hline : c :: (text ++ equals :: space :: tail') =
              key ++ space :: equals :: space :: tail' := by
            rw [← List.cons_append, heq, List.append_assoc, List.singleton_append]
          rw [hline] at hcontent hskips ⊢
          dsimp only
          cases hfound : findMember table key with
          | none => exact .inl ⟨.unexpectedKey, rfl, by decide, fun he => by cases he⟩
          | some found =>
            obtain ⟨i, member⟩ := found
            dsimp only
            cases hvalue : readValue fromChars content (equals :: space :: tail') member with
            | error e =>
              obtain ⟨hfuel, houtside⟩ := readValue_error (byteBefore_of_eq hcontent) hvalue
              refine .inl ⟨e, rfl, hfuel, fun he _ => ⟨_, hskips, ?_⟩⟩
              obtain ⟨type, rfl, htype, hline⟩ := houtside he
              exact .value hkeyOf hfound htype hline
            | ok result =>
              obtain ⟨last, value⟩ := result
              obtain ⟨type, str, b, tail, rfl, rfl, rfl, hb, hreads⟩ :=
                (readValue_ok member (byteBefore_of_eq hcontent)).mp hvalue
              exact .inr (.inr ⟨key, i, type, str, b, tail, value, hskips, hkeyOf, hfound, hb,
                hreads, rfl⟩)

/-- What is read as a body is one. -/
theorem readKeyValues_ok {before r : Text} {y : Object N} (hcontent : content = before ++ s)
    (h : readKeyValues fromChars content table path n s x = .ok (r, y)) :
    ∃ es, Body fromChars table s es r ∧ (r = [] ∨ ∃ t, r = openBracket :: t) ∧
      y = written x (es.map fun e => (path ++ [e.1], e.2)) := by
  induction n generalizing before s x with
  | zero => cases h
  | succ n ih =>
    obtain ⟨e, hstep, -⟩ | ⟨last, hskips, hlast, hstep⟩ |
      ⟨key, i, type, text, b, tail, value, hskips, hkey, hfound, hb, hreads, hstep⟩ :=
        readKeyValues_succ fromChars table path n x hcontent
    · rw [hstep] at h
      cases h
    · rw [hstep] at h
      cases h
      exact ⟨[], hskips.body .done, hlast, rfl⟩
    · rw [hstep] at h
      obtain ⟨skipped, rfl⟩ := hskips.suffix
      have hbody : ∃ es, Body fromChars table tail es r ∧
          (r = [] ∨ ∃ t, r = openBracket :: t) ∧
            y = written (Function.update x (path ++ [i]) value)
              (es.map fun e => (path ++ [e.1], e.2)) := by
        cases n with
        | zero => cases h
        | succ n =>
          rw [readKeyValues_skip (skipWhitespace_blank hb.le_space tail),
            Ini.readKeyValuesFrom] at h
          split_ifs at h with hnil
          · cases h
            exact ⟨[], by rw [hnil]; exact .done, .inl rfl, rfl⟩
          · have hcontent' : content = (before ++ skipped ++
                (key ++ space :: equals :: space :: (text ++ [b]))) ++ tail := by
              rw [hcontent]
              simp
            exact ih hcontent' h
      obtain ⟨es, hbody, hlast, rfl⟩ := hbody
      exact ⟨(i, value) :: es, hskips.body (.entry hkey hfound hb hreads hbody), hlast,
        (written_cons x (path ++ [i], value) _).symm⟩

theorem readKeyValues_finishes {before : Text} (hcontent : content = before ++ s) (hs : s ≠ [])
    (hn : s.length ≤ n) : readKeyValues fromChars content table path n s x ≠ .error .outOfFuel := by
  induction n generalizing before s x with
  | zero => exact absurd (List.length_eq_zero_iff.mp (Nat.le_zero.mp hn)) hs
  | succ n ih =>
    obtain ⟨e, hstep, hne, -⟩ | ⟨last, -, -, hstep⟩ |
      ⟨key, i, type, text, b, tail, value, hskips, -, -, -, -, hstep⟩ :=
        readKeyValues_succ fromChars table path n x hcontent
    · rw [hstep]
      exact fun h => hne (Except.error.inj h)
    · rw [hstep]
      exact fun h => by cases h
    · rw [hstep]
      obtain ⟨skipped, rfl⟩ := hskips.suffix
      have hcontent' : content = (before ++ skipped ++
          (key ++ space :: equals :: space :: text)) ++ b :: tail := by
        rw [hcontent]
        simp
      simp only [List.length_append, List.length_cons] at hn
      refine ih hcontent' (List.cons_ne_nil b tail) ?_
      rw [List.length_cons]
      omega

theorem readKeyValuesFrom_ok {before r : Text} {y : Object N} (hcontent : content = before ++ s)
    (h : Ini.readKeyValuesFrom fromChars content table path n s x = .ok (r, y)) :
    ∃ es, Body fromChars table s es r ∧ (r = [] ∨ ∃ t, r = openBracket :: t) ∧
      y = written x (es.map fun e => (path ++ [e.1], e.2)) := by
  rw [Ini.readKeyValuesFrom] at h
  split_ifs at h with hnil
  · cases h
    exact ⟨[], by rw [hnil]; exact .done, .inl rfl, rfl⟩
  · exact readKeyValues_ok hcontent h

theorem Body.suffix {es : List (ℕ × Value N)} {rest : Text} (h : Body fromChars table s es rest) :
    ∃ before, s = before ++ rest := by
  induction h with
  | done => exact ⟨[], rfl⟩
  | @blank b _ _ _ _ _ ih =>
    obtain ⟨before, rfl⟩ := ih
    exact ⟨b :: before, rfl⟩
  | @comment text b _ _ _ _ _ _ ih =>
    obtain ⟨before, rfl⟩ := ih
    exact ⟨semicolon :: (text ++ b :: before), by simp⟩
  | @entry key _ _ text b _ _ _ _ _ _ _ _ _ ih =>
    obtain ⟨before, rfl⟩ := ih
    exact ⟨key ++ space :: equals :: space :: (text ++ b :: before), by simp⟩

/-! ## Sections -/

theorem readHeader_append {name : Text} (h : ∀ c ∈ name, c ≠ closeBracket ∧ ¬ LineEnd c)
    {b : UInt8} (hb : LineEnd b) (s : Text) :
    readHeader (openBracket :: (name ++ closeBracket :: b :: s)) = .ok (name, b :: s) := by
  have hchar := skipToCharLoop_append (by decide) h (b :: s)
  have hview : view (name ++ closeBracket :: b :: s) (closeBracket :: b :: s) = .ok name :=
    view_append name rfl
  simp only [readHeader, List.head?_cons, ne_eq, not_true_eq_false, if_false, skipToChar, hchar,
    List.tail_cons, hb, if_true, hview]

theorem readHeader_ok {name r : Text} (h : readHeader s = .ok (name, r)) :
    ∃ b tail, s = openBracket :: (name ++ closeBracket :: b :: tail) ∧ r = b :: tail ∧
      LineEnd b ∧ ∀ c ∈ name, c ≠ closeBracket ∧ ¬ LineEnd c := by
  rw [readHeader] at h
  split_ifs at h with hhead
  cases s with
  | nil => simp at hhead
  | cons c s =>
    obtain rfl : c = openBracket := by simpa using hhead
    rw [skipToChar] at h
    cases hchar : skipToCharLoop closeBracket s with
    | error e =>
      rw [hchar] at h
      cases h
    | ok last =>
      obtain ⟨text, tail, rfl, rfl, htext⟩ := skipToCharLoop_ok (by decide) hchar
      rw [hchar] at h
      cases tail with
      | nil => cases h
      | cons b tail =>
        have hview : view (text ++ closeBracket :: b :: tail) (closeBracket :: b :: tail) =
            .ok text := view_append text rfl
        simp only [List.tail_cons, hview] at h
        split_ifs at h with hb
        cases h
        exact ⟨b, tail, rfl, rfl, hb, htext⟩

theorem Sections.head {es : List (List ℕ × Value N)} (h : Sections fromChars table s es) :
    s = [] ∨ ∃ t, s = openBracket :: t := by
  cases h with
  | nil => exact .inl rfl
  | section' => exact .inr ⟨_, rfl⟩

/-- The sections are read, if there are any and there is enough fuel for the text. -/
theorem Sections.readSections {es : List (List ℕ × Value N)} (h : Sections fromChars table s es)
    {before : Text} (hcontent : content = before ++ s) (hn : s.length ≤ n) (x : Object N) :
    (if s = [] then .ok x else Ini.readSections fromChars content table n s x) =
      .ok (written x es) := by
  induction h generalizing before n x with
  | nil => rfl
  | @section' name i members b s es rest es' line found hb body sections ih =>
    simp only [List.length_cons, List.length_append] at hn
    obtain ⟨m, rfl⟩ := Nat.exists_eq_add_one_of_ne_zero (Nat.ne_zero_of_lt hn)
    have hcontent' : content =
        (before ++ openBracket :: (name ++ [closeBracket, b])) ++ s := by
      rw [hcontent]
      simp
    have hbody := body.readKeyValuesFrom sections.head hcontent'
      (Nat.le_succ s.length) [i] x
    rw [if_neg (List.cons_ne_nil _ _), Ini.readSections, readHeader_append line hb]
    simp only [found, List.length_cons, readKeyValues_skip (skipWhitespace_blank hb.le_space s),
      hbody]
    obtain ⟨passed, rfl⟩ := body.suffix
    rw [← List.append_assoc] at hcontent'
    rw [List.length_append] at hn
    have hsections := ih hcontent' (n := m) (by omega)
      (written x (es.map fun e => ([i] ++ [e.1], e.2)))
    rw [written_append]
    cases rest with
    | nil => simpa using hsections
    | cons c rest => simpa using hsections

theorem readSections_ok {before : Text} {y : Object N} (hcontent : content = before ++ s)
    (h : Ini.readSections fromChars content table n s x = .ok y) :
    ∃ es, Sections fromChars table s es ∧ y = written x es := by
  induction n generalizing before s x with
  | zero => cases h
  | succ n ih =>
    rw [Ini.readSections] at h
    cases hheader : readHeader s with
    | error e =>
      rw [hheader] at h
      cases h
    | ok header =>
      obtain ⟨name, last⟩ := header
      obtain ⟨b, tail, rfl, rfl, hb, hline⟩ := readHeader_ok hheader
      rw [hheader] at h
      dsimp only at h
      cases hfound : findMember table name with
      | none =>
        rw [hfound] at h
        cases h
      | some found =>
        obtain ⟨i, member⟩ := found
        rw [hfound] at h
        cases member with
        | scalar type => cases h
        | members members =>
          have hcontent' : content =
              (before ++ openBracket :: (name ++ [closeBracket, b])) ++ tail := by
            rw [hcontent]
            simp
          dsimp only at h
          rw [List.length_cons, readKeyValues_skip (skipWhitespace_blank hb.le_space tail)] at h
          cases hbody : Ini.readKeyValuesFrom fromChars content members [i] (tail.length + 1) tail x
            with
          | error e =>
            rw [hbody] at h
            cases h
          | ok result =>
            obtain ⟨rest, z⟩ := result
            obtain ⟨es, body, -, rfl⟩ := readKeyValuesFrom_ok hcontent' hbody
            obtain ⟨passed, rfl⟩ := body.suffix
            rw [← List.append_assoc] at hcontent'
            rw [hbody] at h
            cases rest with
            | nil =>
              cases h
              refine ⟨_, .section' hline hfound hb body .nil, ?_⟩
              rw [List.append_nil]
              rfl
            | cons c rest =>
              obtain ⟨es', sections, rfl⟩ := ih hcontent' h
              refine ⟨_, .section' hline hfound hb body sections, ?_⟩
              rw [written_append]
              rfl

theorem readHeader_error {e : Failure} (h : readHeader s = .error e) :
    e ≠ .outOfFuel ∧ e ≠ .outside := by
  rw [readHeader] at h
  split_ifs at h
  · cases h
    exact ⟨by decide, by decide⟩
  · cases s with
    | nil =>
      cases h
      exact ⟨by decide, by decide⟩
    | cons b s =>
      rw [skipToChar] at h
      cases hchar : skipToCharLoop closeBracket s with
      | error e' =>
        rw [hchar] at h
        cases h
        obtain rfl | rfl := skipToCharLoop_error hchar <;> exact ⟨by decide, by decide⟩
      | ok last =>
        obtain ⟨text, tail, rfl, rfl, -⟩ := skipToCharLoop_ok (by decide) hchar
        have hview : view (text ++ closeBracket :: tail) (closeBracket :: tail) = .ok text :=
          view_append text rfl
        rw [hchar] at h
        simp only [List.tail_cons, hview] at h
        split at h
        · cases h
          exact ⟨by decide, by decide⟩
        · split_ifs at h
          cases h
          exact ⟨by decide, by decide⟩

theorem readSections_finishes {before : Text} (hcontent : content = before ++ s) (hs : s ≠ [])
    (hn : s.length ≤ n) : Ini.readSections fromChars content table n s x ≠ .error .outOfFuel := by
  induction n generalizing before s x with
  | zero => exact absurd (List.length_eq_zero_iff.mp (Nat.le_zero.mp hn)) hs
  | succ n ih =>
    rw [Ini.readSections]
    cases hheader : readHeader s with
    | error e => exact fun h => (readHeader_error hheader).1 (Except.error.inj h)
    | ok header =>
      obtain ⟨name, last⟩ := header
      obtain ⟨b, tail, rfl, rfl, hb, -⟩ := readHeader_ok hheader
      dsimp only
      cases hfound : findMember table name with
      | none => exact fun h => by cases h
      | some found =>
        obtain ⟨i, member⟩ := found
        cases member with
        | scalar type => exact fun h => by cases h
        | members members =>
          have hcontent' : content =
              (before ++ openBracket :: (name ++ [closeBracket])) ++ b :: tail := by
            rw [hcontent]
            simp
          dsimp only
          cases hbody : readKeyValues fromChars content members [i] (b :: tail).length (b :: tail) x
            with
          | error e =>
            exact fun h => readKeyValues_finishes hcontent' (List.cons_ne_nil b tail)
              (Nat.le_refl _) (Except.error.inj h ▸ hbody)
          | ok result =>
            obtain ⟨rest, z⟩ := result
            obtain ⟨es, body, -, rfl⟩ := readKeyValues_ok hcontent' hbody
            obtain ⟨passed, hpassed⟩ := body.suffix
            rw [hpassed, ← List.append_assoc] at hcontent'
            have hlength := congrArg List.length hpassed
            simp only [List.length_append, List.length_cons] at hlength hn
            cases rest with
            | nil => exact fun h => by cases h
            | cons c rest =>
              refine ih hcontent' (List.cons_ne_nil c rest) ?_
              rw [List.length_cons] at hlength ⊢
              omega

/-- Reading comes to an end for every text. -/
theorem structureIni_finishes (fromChars : Kind → Text → ℕ × N) (content : Text)
    (table : List (Text × Member Kind)) (x : Object N) :
    structureIni fromChars content table x ≠ .error .outOfFuel := by
  cases content with
  | nil => exact fun h => by cases h
  | cons b content =>
    rw [structureIni]
    split_ifs
    · exact fun h => by cases h
    · cases hbody : readKeyValues fromChars (b :: content) table [] (b :: content).length
          (b :: content) x with
      | error e =>
        exact fun h => readKeyValues_finishes (List.nil_append _).symm (List.cons_ne_nil b content)
          (Nat.le_refl _) (Except.error.inj h ▸ hbody)
      | ok result =>
        obtain ⟨rest, z⟩ := result
        obtain ⟨es, body, -, rfl⟩ := readKeyValues_ok (List.nil_append _).symm hbody
        obtain ⟨passed, hpassed⟩ := body.suffix
        cases rest with
        | nil => exact fun h => by cases h
        | cons c rest => exact readSections_finishes hpassed (List.cons_ne_nil c rest) (Nat.le_refl _)

/-- A text that is accepted is a document, and its entries have been written. -/
theorem structureIni_ok {content : Text} {y : Object N}
    (h : structureIni fromChars content table x = .ok y) :
    ∃ es, Document fromChars table content es ∧ y = written x es := by
  cases content with
  | nil =>
    cases h
    exact ⟨[], ⟨[], [], [], .done, .nil, rfl⟩, rfl⟩
  | cons b content =>
    rw [structureIni] at h
    split_ifs at h
    cases hbody : readKeyValues fromChars (b :: content) table [] (b :: content).length
        (b :: content) x with
    | error e =>
      rw [hbody] at h
      cases h
    | ok result =>
      obtain ⟨rest, z⟩ := result
      obtain ⟨es, body, -, rfl⟩ := readKeyValues_ok (List.nil_append _).symm hbody
      rw [hbody] at h
      cases rest with
      | nil =>
        cases h
        exact ⟨_, ⟨es, [], [], body, .nil, rfl⟩, by rw [List.append_nil]; rfl⟩
      | cons c rest =>
        obtain ⟨passed, hpassed⟩ := body.suffix
        obtain ⟨es', sections, rfl⟩ := readSections_ok hpassed h
        exact ⟨_, ⟨es, c :: rest, es', body, sections, rfl⟩, by rw [written_append]; rfl⟩

/-- A document is accepted, and its entries are written. -/
theorem Document.structureIni {content : Text} {es : List (List ℕ × Value N)}
    (h : Document fromChars table content es) (x : Object N) :
    Ini.structureIni fromChars content table x = .ok (written x es) := by
  obtain ⟨es, rest, es', body, sections, rfl⟩ := h
  obtain ⟨passed, hpassed⟩ := body.suffix
  have hbody := body.readKeyValuesFrom sections.head (List.nil_append content).symm
    (Nat.le_refl _) [] x
  have hsections := sections.readSections hpassed (Nat.le_refl _)
    (written x (es.map fun e => ([] ++ [e.1], e.2)))
  rw [written_append]
  cases content with
  | nil =>
    obtain ⟨rfl, hx⟩ := Prod.mk.inj (Except.ok.inj hbody)
    have hsame : written x (es.map fun e => ([e.1], e.2)) = x := hx.symm
    rw [← hx] at hsections
    rw [hsame]
    exact hsections
  | cons b content =>
    have hequals : b ≠ equals := by
      rintro rfl
      exact readKeyValues_equals _ hbody
    rw [Ini.readKeyValuesFrom, if_neg (List.cons_ne_nil b content)] at hbody
    rw [Ini.structureIni, if_neg hequals, hbody]
    cases rest with
    | nil => exact hsections
    | cons c rest => exact hsections

/-- A text is accepted if and only if it is a document, and then every member has the value of the
last entry for it. -/
theorem structureIni_ok_iff (fromChars : Kind → Text → ℕ × N) (content : Text)
    (table : List (Text × Member Kind)) (x y : Object N) :
    structureIni fromChars content table x = .ok y ↔
      ∃ es, Document fromChars table content es ∧ y = written x es := by
  constructor
  · exact structureIni_ok
  · rintro ⟨es, hdocument, rfl⟩
    exact hdocument.structureIni x

/-- A key ends at the first `=`, also if there is a member with one in its name. -/
theorem structureIni_key_equals :
    findMember [([0x61, equals, 0x62], (.scalar .string : Member ℕ))] [0x61, equals, 0x62] =
        some (0, .scalar .string) ∧
      structureIni (fun _ _ => (0, ()))
        ([0x61, equals, 0x62] ++ space :: equals :: space :: ([0x63] ++ [lineFeed]))
        [([0x61, equals, 0x62], (.scalar .string : Member ℕ))] (fun _ => .bool true) =
          .error .missingSpaces :=
  ⟨rfl, rfl⟩

end Fimbulwinter.Ini
