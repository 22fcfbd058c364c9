import Fimbulwinter.IniAcceptance

/-! # Where `core::structure_ini` leaves the text

Reading stays inside of the text but for three kinds of lines. -/
namespace Fimbulwinter.Ini

open Json (Text space openBracket closeBracket findMember)

variable {Kind N : Type*} {fromChars : Kind → Text → ℕ × N} {content : Text}
  {table : List (Text × Member Kind)} {path : List ℕ} {x : Object N} {s : Text} {n : ℕ}

/-- The entry of a key with spaces around its `=`, up to the value -/
theorem IsKey.skipToChar {key : Text} (h : IsKey key) (rest : Text) : ∃ c k, key = c :: k ∧
    skipWhitespace (key ++ space :: equals :: rest) = .ok (key ++ space :: equals :: rest) ∧
    c ≠ openBracket ∧ c ≠ equals ∧
    Ini.skipToChar equals (key ++ space :: equals :: rest) = .ok (equals :: rest) := by
  obtain ⟨c, k, rfl, hspace, hsemicolon, hbracket⟩ := h.first
  refine ⟨c, k, rfl, skipWhitespace_of_ready hspace hsemicolon, hbracket,
    (h.line c List.mem_cons_self).1, ?_⟩
  have hline : ∀ d ∈ k ++ [space], d ≠ equals ∧ ¬ LineEnd d := by
    intro d hd
    rcases List.mem_append.mp hd with hd | hd
    · exact h.line d (List.mem_cons_of_mem c hd)
    · rw [List.mem_singleton.mp hd]
      decide
  have hloop := skipToCharLoop_append (c := equals) (by decide) hline rest
  rwa [List.append_assoc] at hloop

/-- A line that takes up the rest of the text is not read to its end. -/
theorem skipToLineLoop_unended {text : Text} (h : ∀ b ∈ text, ¬ LineEnd b) :
    skipToLineLoop text = .error .unexpectedEof := by
  cases hline : skipToLineLoop text with
  | error e => rw [(skipToLineLoop_error hline).1]
  | ok r =>
    obtain ⟨before, b, tail, rfl, -, hb, -⟩ := skipToLineLoop_ok hline
    exact absurd hb (h b (List.mem_append_right _ List.mem_cons_self))

theorem readValue_unended (fromChars : Kind → Text → ℕ × N) (content : Text) {type : Scalar Kind}
    {text : Text} (htype : type.TakesLine) (h : ∀ b ∈ text, ¬ LineEnd b) :
    readValue fromChars content (equals :: space :: text) (.scalar type) = .error .outside := by
  have hline : readLine (equals :: space :: text) = .error .outside := by
    simp only [readLine, List.tail_cons, skipToLine, skipToLineLoop_unended h]
  rw [readValue.eq_def]
  dsimp only
  rw [if_neg (by simp)]
  cases type with
  | bool => cases htype
  | number kind => cases htype
  | enum table => simp only [readEnum, hline]
  | string => simp only [readString, hline]

/-- The three kinds of lines lead outside of the text. -/
theorem Breaks.readKeyValues (h : Breaks content table s) {before : Text}
    (hcontent : content = before ++ s) :
    Ini.readKeyValues fromChars content table path (n + 1) s x = .error .outside := by
  cases h with
  | @last key isKey =>
    obtain ⟨c, k, rfl, hwhitespace, hbracket, hequals, hchar⟩ := isKey.skipToChar []
    have hbefore : byteBefore content [equals] = some space := byteBefore_of_eq hcontent
    rw [Ini.readKeyValues, hwhitespace]
    simp only [List.cons_append, if_neg hbracket, ne_eq, hequals, not_false_eq_true, if_true]
    rw [List.cons_append] at hchar
    rw [hchar]
    simp [readKey, hbefore]
  | @first s hbefore hafter =>
    rw [Ini.readKeyValues, skipWhitespace_of_ready (by decide) (by decide)]
    dsimp only
    rw [if_neg (by decide), if_neg (not_not.mpr rfl)]
    obtain rfl | ⟨t, rfl⟩ := hafter
    · simp [readKey, hbefore]
    · have hlength : ¬ t.length + 1 ≤ t.length := Nat.not_succ_le_self _
      simp [readKey, hbefore, view, hlength]
  | @value key i type text isKey found takesLine line =>
    obtain ⟨c, k, rfl, hwhitespace, hbracket, hequals, hchar⟩ := isKey.skipToChar (space :: text)
    have hkey := readKey_append hcontent
    have hvalue := readValue_unended fromChars content takesLine line
    rw [Ini.readKeyValues, hwhitespace]
    rw [List.cons_append] at hchar hkey ⊢
    simp only [if_neg hbracket, ne_eq, hequals, not_false_eq_true, if_true, hchar, hkey, found,
      hvalue]

theorem Breaks.ne_nil (h : Breaks content table s) : s ≠ [] := by
  cases h <;> simp

/-- A body leads outside of the text if it begins with entries and goes on with such a line. -/
theorem readKeyValuesFrom_outside (fromChars : Kind → Text → ℕ × N)
    (table : List (Text × Member Kind)) (path : List ℕ) (x : Object N)
    (hhead : content.head? ≠ some equals) {before : Text} (hcontent : content = before ++ s) (hn : s.length ≤ n) :
    readKeyValuesFrom fromChars content table path n s x = .error .outside ↔
      ∃ es r, Body fromChars table s es r ∧ Breaks content table r := by
  constructor
  · intro h
    rw [readKeyValuesFrom] at h
    split_ifs at h with hs
    clear hn hs
    induction n generalizing before s x with
    | zero => cases h
    | succ n ih =>
      obtain ⟨e, hstep, -, hbreaks⟩ | ⟨last, -, -, hstep⟩ |
        ⟨key, i, type, text, b, tail, value, hskips, hkey, hfound, hb, hreads, hstep⟩ :=
          readKeyValues_succ fromChars table path n x hcontent
      · rw [hstep] at h
        obtain ⟨r, hskips, hr⟩ := hbreaks (Except.error.inj h) hhead
        exact ⟨[], r, hskips.body .done, hr⟩
      · rw [hstep] at h
        cases h
      · rw [hstep] at h
        obtain ⟨skipped, rfl⟩ := hskips.suffix
        cases n with
        | zero => cases h
        | succ n =>
          rw [readKeyValues_skip (skipWhitespace_blank hb.le_space tail), readKeyValuesFrom] at h
          split_ifs at h
          have hcontent' : content = (before ++ skipped ++
              (key ++ space :: equals :: space :: (text ++ [b]))) ++ tail := by
            rw [hcontent]
            simp
          obtain ⟨es, r, hbody, hr⟩ := ih _ hcontent' h
          exact ⟨(i, value) :: es, r, hskips.body (.entry hkey hfound hb hreads hbody), hr⟩
  · rintro ⟨es, r, body, hr⟩
    obtain ⟨m, hm, heq⟩ := body.readKeyValuesFrom_eq hcontent hn path x
    obtain ⟨passed, rfl⟩ := body.suffix
    rw [← List.append_assoc] at hcontent
    obtain ⟨m, rfl⟩ : ∃ k, m = k + 1 :=
      Nat.exists_eq_add_one_of_ne_zero
        (Nat.ne_zero_of_lt (Nat.lt_of_lt_of_le (List.length_pos_iff.mpr hr.ne_nil) hm))
    rw [heq, readKeyValuesFrom, if_neg hr.ne_nil, hr.readKeyValues hcontent]

/-- Sections of which one leads outside of the text. -/
inductive SectionBreaks (fromChars : Kind → Text → ℕ × N) (content : Text)
    (table : List (Text × Member Kind)) : Text → Prop
  | here {name : Text} {i : ℕ} {members : List (Text × Member Kind)} {b : UInt8} {s : Text}
      {es : List (ℕ × Value N)} {r : Text} (line : ∀ c ∈ name, c ≠ closeBracket ∧ ¬ LineEnd c)
      (found : findMember table name = some (i, .members members)) (hb : LineEnd b)
      (body : Body fromChars members s es r) (breaks : Breaks content members r) :
      SectionBreaks fromChars content table (openBracket :: (name ++ closeBracket :: b :: s))
  | later {name : Text} {i : ℕ} {members : List (Text × Member Kind)} {b : UInt8} {s : Text}
      {es : List (ℕ × Value N)} {rest : Text} (line : ∀ c ∈ name, c ≠ closeBracket ∧ ¬ LineEnd c)
      (found : findMember table name = some (i, .members members)) (hb : LineEnd b)
      (body : Body fromChars members s es rest)
      (breaks : SectionBreaks fromChars content table rest) :
      SectionBreaks fromChars content table (openBracket :: (name ++ closeBracket :: b :: s))

theorem SectionBreaks.head (h : SectionBreaks fromChars content table s) :
    ∃ t, s = openBracket :: t := by
  cases h <;> exact ⟨_, rfl⟩

theorem SectionBreaks.readSections (h : SectionBreaks fromChars content table s)
    (hhead : content.head? ≠ some equals) {before : Text} (hcontent : content = before ++ s)
    (hn : s.length ≤ n) :
    Ini.readSections fromChars content table n s x = .error .outside := by
  induction h generalizing before n x with
  | @here name i members b s es r line found hb body breaks =>
    simp only [List.length_cons, List.length_append] at hn
    obtain ⟨m, rfl⟩ := Nat.exists_eq_add_one_of_ne_zero (Nat.ne_zero_of_lt hn)
    have hcontent' : content = (before ++ openBracket :: (name ++ [closeBracket, b])) ++ s := by
      rw [hcontent]
      simp
    have houtside : readKeyValuesFrom fromChars content members [i] (s.length + 1) s x =
        .error .outside :=
      (readKeyValuesFrom_outside fromChars members [i] x hhead hcontent' (Nat.le_succ _)).mpr ⟨es, r, body, breaks⟩
    rw [Ini.readSections, readHeader_append line hb]
    simp only [found, List.length_cons, readKeyValues_skip (skipWhitespace_blank hb.le_space s),
      houtside]
  | @later name i members b s es rest line found hb body breaks ih =>
    simp only [List.length_cons, List.length_append] at hn
    obtain ⟨m, rfl⟩ := Nat.exists_eq_add_one_of_ne_zero (Nat.ne_zero_of_lt hn)
    have hcontent' : content = (before ++ openBracket :: (name ++ [closeBracket, b])) ++ s := by
      rw [hcontent]
      simp
    have hbody := body.readKeyValuesFrom (.inr breaks.head) hcontent' (Nat.le_succ s.length) [i] x
    rw [Ini.readSections, readHeader_append line hb]
    simp only [found, List.length_cons, readKeyValues_skip (skipWhitespace_blank hb.le_space s),
      hbody]
    obtain ⟨passed, rfl⟩ := body.suffix
    rw [← List.append_assoc] at hcontent'
    rw [List.length_append] at hn
    obtain ⟨t, rfl⟩ := breaks.head
    exact ih hcontent' (by omega)

theorem sectionBreaks_of_readSections (hhead : content.head? ≠ some equals) {before : Text}
    (hcontent : content = before ++ s)
    (h : Ini.readSections fromChars content table n s x = .error .outside) :
    SectionBreaks fromChars content table s := by
  induction n generalizing before s x with
  | zero => cases h
  | succ n ih =>
    rw [Ini.readSections] at h
    cases hheader : readHeader s with
    | error e =>
      rw [hheader] at h
      exact absurd (Except.error.inj h) (readHeader_error hheader).2
    | ok header =>
      obtain ⟨name, last⟩ := header
      obtain ⟨b, tail, rfl, rfl, hb, hline⟩ := readHeader_ok hheader
      rw [hheader] at h
      dsimp only at h
      cases hfound : findMember table name with
      | none =>
        rw [hfound] at h
        cases h
      | some found =>
        obtain ⟨i, member⟩ := found
        rw [hfound] at h
        cases member with
        | scalar type => cases h
        | members members =>
          have hcontent' : content =
              (before ++ openBracket :: (name ++ [closeBracket, b])) ++ tail := by
            rw [hcontent]
            simp
          dsimp only at h
          rw [List.length_cons, readKeyValues_skip (skipWhitespace_blank hb.le_space tail)] at h
          cases hbody : readKeyValuesFrom fromChars content members [i] (tail.length + 1) tail x
            with
          | error e =>
            rw [hbody] at h
            obtain rfl : e = .outside := Except.error.inj h
            obtain ⟨es, r, body, breaks⟩ :=
              (readKeyValuesFrom_outside fromChars members [i] x hhead hcontent' (Nat.le_succ _)).mp hbody
            exact .here hline hfound hb body breaks
          | ok result =>
            obtain ⟨rest, z⟩ := result
            obtain ⟨es, body, -, rfl⟩ := readKeyValuesFrom_ok hcontent' hbody
            obtain ⟨passed, rfl⟩ := body.suffix
            rw [← List.append_assoc] at hcontent'
            rw [hbody] at h
            cases rest with
            | nil => cases h
            | cons c rest => exact .later hline hfound hb body (ih hcontent' h)

/-- The text begins with what is read, and goes on with a line of the three kinds. -/
def LeavesText (fromChars : Kind → Text → ℕ × N) (content : Text)
    (table : List (Text × Member Kind)) : Prop :=
  content.head? ≠ some equals ∧ ∃ es r, Body fromChars table content es r ∧
    (Breaks content table r ∨ SectionBreaks fromChars content table r)

theorem structureIni_outside_iff : structureIni fromChars content table x = .error .outside ↔
    LeavesText fromChars content table := by
  cases hcontent : content with
  | nil =>
    refine ⟨fun h => (by cases h), fun h => ?_⟩
    obtain ⟨-, es, r, body, hr⟩ := h
    obtain ⟨passed, hpassed⟩ := body.suffix
    obtain rfl : r = [] := (List.append_eq_nil_iff.mp hpassed.symm).2
    obtain hr | hr := hr
    · exact absurd rfl hr.ne_nil
    · obtain ⟨t, ht⟩ := hr.head
      cases ht
  | cons b tail =>
    rw [structureIni]
    by_cases hequals : b = equals
    · rw [if_pos hequals]
      exact ⟨fun h => (by cases h), fun h => absurd (by rw [hequals]; rfl) h.1⟩
    rw [if_neg hequals]
    have hhead : (b :: tail).head? ≠ some equals := fun h => hequals (Option.some.inj h)
    have hfrom : readKeyValuesFrom fromChars (b :: tail) table [] (b :: tail).length (b :: tail) x =
        readKeyValues fromChars (b :: tail) table [] (b :: tail).length (b :: tail) x :=
      if_neg (List.cons_ne_nil b tail)
    have houtside := readKeyValuesFrom_outside fromChars table [] x hhead (List.nil_append (b :: tail)).symm (Nat.le_refl _)
    have hbody : ∀ {es r}, Body fromChars table (b :: tail) es r →
        SectionBreaks fromChars (b :: tail) table r → readKeyValues fromChars (b :: tail) table []
          (b :: tail).length (b :: tail) x =
            .ok (r, written x (es.map fun e => ([] ++ [e.1], e.2))) := by
      intro es r body hr
      rw [← hfrom]
      exact body.readKeyValuesFrom (.inr hr.head) (List.nil_append _).symm (Nat.le_refl _) [] x
    rw [hfrom] at houtside
    cases hread : readKeyValues fromChars (b :: tail) table [] (b :: tail).length (b :: tail) x with
    | error e =>
      rw [hread] at houtside
      constructor
      · intro h
        obtain ⟨es, r, body, breaks⟩ := houtside.mp (by rw [Except.error.inj h])
        exact ⟨hhead, es, r, body, .inl breaks⟩
      · rintro ⟨-, es, r, body, breaks | breaks⟩
        · have he := houtside.mpr ⟨es, r, body, breaks⟩
          rw [Except.error.inj he]
        · rw [hbody body breaks] at hread
          cases hread
    | ok result =>
      obtain ⟨rest, z⟩ := result
      have hinside : ¬ ∃ es r, Body fromChars table (b :: tail) es r ∧ Breaks (b :: tail) table r :=
        fun h => by
          rw [houtside.mpr h] at hread
          cases hread
      obtain ⟨es, body, -, rfl⟩ := readKeyValues_ok (List.nil_append _).symm hread
      obtain ⟨passed, hpassed⟩ := body.suffix
      cases rest with
      | nil =>
        refine ⟨fun h => (by cases h), fun h => ?_⟩
        obtain ⟨-, es', r, body', hr⟩ := h
        obtain hr | hr := hr
        · exact absurd ⟨es', r, body', hr⟩ hinside
        · rw [hbody body' hr] at hread
          obtain ⟨t, rfl⟩ := hr.head
          cases hread
      | cons c rest =>
        constructor
        · intro h
          exact ⟨hhead, es, c :: rest, body, .inr (sectionBreaks_of_readSections hhead hpassed h)⟩
        · rintro ⟨-, es', r, body', hr | hr⟩
          · exact absurd ⟨es', r, body', hr⟩ hinside
          · rw [hbody body' hr] at hread
            obtain ⟨rfl, -⟩ := Prod.mk.inj (Except.ok.inj hread)
            exact hr.readSections hhead hpassed (Nat.le_refl _)

/-- Reading comes to an end, and it stays inside of the text if and only if no such line follows
what has been read. -/
theorem structureIni_inside_iff (fromChars : Kind → Text → ℕ × N) (content : Text)
    (table : List (Text × Member Kind)) (x : Object N) :
    structureIni fromChars content table x ≠ .error .outOfFuel ∧
      (structureIni fromChars content table x ≠ .error .outside ↔
        ¬ LeavesText fromChars content table) :=
  ⟨structureIni_finishes fromChars content table x, not_congr structureIni_outside_iff⟩

/-- A text that ends in a string, and one that ends in a `=`. -/
theorem structureIni_leaves :
    structureIni (fun _ _ => (0, ())) [0x61, space, equals, space, 0x62]
        [([0x61], (.scalar .string : Member ℕ))] (fun _ => .bool true) = .error .outside ∧
      structureIni (fun _ _ => (0, ())) [0x61, space, equals]
        [([0x61], (.scalar .string : Member ℕ))] (fun _ => .bool true) = .error .outside ∧
      structureIni (fun _ _ => (0, ())) [lineFeed, space, equals, space, 0x62]
        [([0x61], (.scalar .string : Member ℕ))] (fun _ => .bool true) = .error .outside :=
  ⟨rfl, rfl, rfl⟩

end Fimbulwinter.Ini
