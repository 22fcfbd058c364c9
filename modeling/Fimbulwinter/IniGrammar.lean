import Fimbulwinter.IniStructurer

/-! # What `core::structure_ini` accepts

A body of blanks, comments and entries, and sections with bodies of their own. -/
namespace Fimbulwinter.Ini

open Json (Text space openBracket closeBracket trueText falseText findMember)

/-! ## Grammar -/

/-- A key begins with something to read, and a `=` or the end of the line ends it. -/
structure IsKey (key : Text) : Prop where
  first : ∃ b rest, key = b :: rest ∧ space < b ∧ b ≠ semicolon ∧ b ≠ openBracket
  line : ∀ b ∈ key, b ≠ equals ∧ ¬ LineEnd b

section Grammar

variable {Kind N : Type*} (fromChars : Kind → Text → ℕ × N)

/-- The texts of a value. A number may look at what comes after it. -/
inductive Reads : Scalar Kind → Text → Text → Value N → Prop
  | true {after : Text} : Reads .bool trueText after (.bool true)
  | false {after : Text} : Reads .bool falseText after (.bool false)
  | number {kind : Kind} {text after : Text} {x : N} (nonempty : text ≠ [])
      (passed : fromChars kind (text ++ after) = (text.length, x)) :
      Reads (.number kind) text after (.number x)
  | enum {table : List (Text × ℕ)} {text after : Text} {p : Text × ℕ}
      (line : ∀ b ∈ text, ¬ LineEnd b) (found : table.find? (fun p => p.1 = text) = some p) :
      Reads (.enum table) text after (.enum p.2)
  | string {text after : Text} (line : ∀ b ∈ text, ¬ LineEnd b) :
      Reads .string text after (.string text)

/-- A text begins with a body, which has these entries, and the rest comes after it. -/
inductive Body (table : List (Text × Member Kind)) : Text → List (ℕ × Value N) → Text → Prop
  | done {rest : Text} : Body table rest [] rest
  | blank {b : UInt8} {s : Text} {es : List (ℕ × Value N)} {rest : Text} (hb : b ≤ space)
      (body : Body table s es rest) : Body table (b :: s) es rest
  | comment {text : Text} {b : UInt8} {s : Text} {es : List (ℕ × Value N)} {rest : Text}
      (line : ∀ c ∈ text, ¬ LineEnd c) (hb : LineEnd b) (body : Body table s es rest) :
      Body table (semicolon :: (text ++ b :: s)) es rest
  | entry {key : Text} {i : ℕ} {type : Scalar Kind} {text : Text} {b : UInt8} {s : Text}
      {x : Value N} {es : List (ℕ × Value N)} {rest : Text} (isKey : IsKey key)
      (found : findMember table key = some (i, .scalar type)) (hb : LineEnd b)
      (reads : Reads fromChars type text (b :: s) x) (body : Body table s es rest) :
      Body table (key ++ space :: equals :: space :: (text ++ b :: s)) ((i, x) :: es) rest

/-- The sections of a text and their entries. -/
inductive Sections (table : List (Text × Member Kind)) :
    Text → List (List ℕ × Value N) → Prop
  | nil : Sections table [] []
  | section' {name : Text} {i : ℕ} {members : List (Text × Member Kind)} {b : UInt8} {s : Text}
      {es : List (ℕ × Value N)} {rest : Text} {es' : List (List ℕ × Value N)}
      (line : ∀ c ∈ name, c ≠ closeBracket ∧ ¬ LineEnd c)
      (found : findMember table name = some (i, .members members)) (hb : LineEnd b)
      (body : Body fromChars members s es rest) (sections : Sections table rest es') :
      Sections table (openBracket :: (name ++ closeBracket :: b :: s))
        (es.map (fun e => ([i, e.1], e.2)) ++ es')

/-- A body for the class itself, and sections for members of it. -/
def Document (table : List (Text × Member Kind)) (content : Text)
    (es : List (List ℕ × Value N)) : Prop :=
  ∃ es₁ rest es₂, Body fromChars table content es₁ rest ∧ Sections fromChars table rest es₂ ∧
    es = es₁.map (fun e => ([e.1], e.2)) ++ es₂

end Grammar

/-- A value that takes up the rest of its line -/
def Scalar.TakesLine {Kind : Type*} : Scalar Kind → Prop
  | .enum _ => True
  | .string => True
  | _ => False

/-- A line with which reading goes outside of the text: a `=` is the last byte of the text, or the
first byte of the line, or the text ends in a value. -/
inductive Breaks {Kind : Type*} (content : Text) (table : List (Text × Member Kind)) : Text → Prop
  | last {key : Text} (isKey : IsKey key) : Breaks content table (key ++ [space, equals])
  | first {s : Text} (before : byteBefore content (equals :: s) = some space)
      (after : s = [] ∨ ∃ t, s = space :: t) : Breaks content table (equals :: s)
  | value {key : Text} {i : ℕ} {type : Scalar Kind} {text : Text} (isKey : IsKey key)
      (found : findMember table key = some (i, .scalar type)) (takesLine : type.TakesLine)
      (line : ∀ b ∈ text, ¬ LineEnd b) :
      Breaks content table (key ++ space :: equals :: space :: text)

/-- Every member has the value of the last entry for it, or is unchanged. -/
def written {N : Type*} (x : Object N) (es : List (List ℕ × Value N)) : Object N := fun path =>
  ((es.filter fun e => e.1 = path).getLast?.map Prod.snd).getD (x path)

section Written

variable {N : Type*} (x : Object N)

@[simp] theorem written_nil : written x [] = x := rfl

theorem written_cons (e : List ℕ × Value N) (es : List (List ℕ × Value N)) :
    written x (e :: es) = written (Function.update x e.1 e.2) es := by
  funext path
  unfold written
  by_cases he : e.1 = path
  · subst he
    rw [List.filter_cons_of_pos (by simp), List.getLast?_cons, Function.update_self]
    cases (es.filter fun e' => e'.1 = e.1).getLast? <;> rfl
  · rw [List.filter_cons_of_neg (by simpa using he), Function.update_of_ne (Ne.symm he)]

theorem written_append (es es' : List (List ℕ × Value N)) :
    written x (es ++ es') = written (written x es) es' := by
  induction es generalizing x with
  | nil => rfl
  | cons e es ih => rw [List.cons_append, written_cons, ih, ← written_cons]

end Written

/-! ## Positions -/

theorem LineEnd.le {b : UInt8} (h : LineEnd b) : b ≤ carriageReturn := by
  obtain rfl | rfl := h <;> decide

theorem LineEnd.le_space {b : UInt8} (h : LineEnd b) : b ≤ space := by
  obtain rfl | rfl := h <;> decide

theorem skipToCharLoop_append {c : UInt8} {text : Text} (hc : ¬ LineEnd c)
    (h : ∀ b ∈ text, b ≠ c ∧ ¬ LineEnd b) (rest : Text) :
    skipToCharLoop c (text ++ c :: rest) = .ok (c :: rest) := by
  induction text with
  | nil => simp only [List.nil_append, skipToCharLoop, UInt8.lt_irrefl, hc, if_false, ne_eq,
      not_true_eq_false]
  | cons b text ih =>
    obtain ⟨hne, hb⟩ := h b List.mem_cons_self
    have hrest := ih fun d hd => h d (List.mem_cons_of_mem b hd)
    simp only [List.cons_append, skipToCharLoop, hb, hrest, if_false, ne_eq, hne,
      not_false_eq_true, if_true, ite_self]

theorem skipToCharLoop_ok {c : UInt8} (hc : carriageReturn < c) {s rest : Text}
    (h : skipToCharLoop c s = .ok rest) : ∃ text tail, s = text ++ c :: tail ∧ rest = c :: tail ∧
      ∀ b ∈ text, b ≠ c ∧ ¬ LineEnd b := by
  induction s with
  | nil => cases h
  | cons b s ih =>
    rw [skipToCharLoop] at h
    have hpass : b ≠ c → ¬ LineEnd b → skipToCharLoop c s = .ok rest →
        ∃ text tail, b :: s = text ++ c :: tail ∧ rest = c :: tail ∧
          ∀ b ∈ text, b ≠ c ∧ ¬ LineEnd b := by
      intro hne hb h
      obtain ⟨text, tail, rfl, hrest, htext⟩ := ih h
      exact ⟨b :: text, tail, rfl, hrest, List.forall_mem_cons.mpr ⟨⟨hne, hb⟩, htext⟩⟩
    split_ifs at h with hlt hend hne
    · exact hpass (UInt8.ne_of_lt hlt).symm
        (fun hend => UInt8.not_lt.mpr hend.le (UInt8.lt_trans hc hlt)) h
    · exact hpass hne hend h
    · cases h
      obtain rfl := not_not.mp hne
      exact ⟨[], s, rfl, rfl, fun d hd => absurd hd List.not_mem_nil⟩

theorem skipToLineLoop_append {text : Text} (h : ∀ c ∈ text, ¬ LineEnd c) {b : UInt8}
    (hb : LineEnd b) (rest : Text) : skipToLineLoop (text ++ b :: rest) = .ok (b :: rest) := by
  induction text with
  | nil =>
    have hlt : ¬ carriageReturn < b := UInt8.not_lt.mpr hb.le
    have hnot : ¬ (b ≠ carriageReturn ∧ b ≠ lineFeed) := fun hne => hb.elim hne.1 hne.2
    simp only [List.nil_append, skipToLineLoop, hlt, hnot, if_false]
  | cons c text ih =>
    have hc : c ≠ carriageReturn ∧ c ≠ lineFeed := not_or.mp (h c List.mem_cons_self)
    have hrest := ih fun d hd => h d (List.mem_cons_of_mem c hd)
    rw [List.cons_append, skipToLineLoop, if_pos hc, hrest, ite_self]

theorem skipToLineLoop_ok {s rest : Text} (h : skipToLineLoop s = .ok rest) :
    ∃ text b tail, s = text ++ b :: tail ∧ rest = b :: tail ∧ LineEnd b ∧
      ∀ c ∈ text, ¬ LineEnd c := by
  induction s with
  | nil => cases h
  | cons b s ih =>
    have hpass : ¬ LineEnd b → skipToLineLoop s = .ok rest →
        ∃ text c tail, b :: s = text ++ c :: tail ∧ rest = c :: tail ∧ LineEnd c ∧
          ∀ c ∈ text, ¬ LineEnd c := by
      intro hb h
      obtain ⟨text, c, tail, rfl, hrest, hc, htext⟩ := ih h
      exact ⟨b :: text, c, tail, rfl, hrest, hc, List.forall_mem_cons.mpr ⟨hb, htext⟩⟩
    rw [skipToLineLoop] at h
    split_ifs at h with hlt hne
    · exact hpass (fun hend => UInt8.not_lt.mpr hend.le hlt) h
    · exact hpass (not_or.mpr hne) h
    · cases h
      have hend : LineEnd b := by
        by_contra hend
        exact hne (not_or.mp hend)
      exact ⟨[], b, s, rfl, rfl, hend, fun d hd => absurd hd List.not_mem_nil⟩

theorem byteBefore_append (before : Text) (b : UInt8) (s : Text) :
    byteBefore (before ++ b :: s) s = some b := by
  have hlt : s.length < (before ++ b :: s).length := by
    rw [List.length_append, List.length_cons]
    omega
  have hidx : (before ++ b :: s).length - (s.length + 1) = before.length := by simp
  rw [byteBefore, if_pos hlt, hidx]
  simp

theorem view_append (text : Text) {rest last : Text} (h : last.length = rest.length) :
    view (text ++ rest) last = .ok text := by
  have hle : last.length ≤ (text ++ rest).length := by simp [h]
  rw [view, if_pos hle, List.length_append, h, Nat.add_sub_cancel, List.take_left]

/-! ## Whitespace -/

theorem length_skipBlanks_le (s : Text) : (skipBlanks s).length ≤ s.length := by
  induction s with
  | nil => exact Nat.le_refl 0
  | cons b s ih =>
    rw [skipBlanks]
    split_ifs
    · exact Nat.le_succ_of_le ih
    · exact Nat.le_refl _

/-- Enough fuel for the comments of a text is enough. -/
theorem skipComments_congr {n m : ℕ} {s : Text} (hs : s ≠ []) (hn : s.length ≤ n)
    (hm : s.length ≤ m) : skipComments n s = skipComments m s := by
  induction n generalizing m s with
  | zero => exact absurd (List.length_eq_zero_iff.mp (Nat.le_zero.mp hn)) hs
  | succ n ih =>
    cases m with
    | zero => exact absurd (List.length_eq_zero_iff.mp (Nat.le_zero.mp hm)) hs
    | succ m =>
      rw [skipComments, skipComments]
      cases hline : skipToLine s with
      | error e => rfl
      | ok r =>
        cases s with
        | nil => cases hline
        | cons b s =>
          obtain ⟨text, c, tail, rfl, rfl, -, -⟩ := skipToLineLoop_ok hline
          have hle := length_skipBlanks_le tail
          simp only [List.length_cons, List.length_append] at hn hm
          by_cases hhead : (skipBlanks tail).head? = some semicolon
          · simp only [List.tail_cons, hhead, if_true]
            exact ih (fun hnil => by simp [hnil] at hhead) (by omega) (by omega)
          · simp only [List.tail_cons, hhead, if_false]

/-- Nothing is skipped at the end of a text. -/
def skipWhitespaceFrom (s : Text) : Except Failure Text :=
  if s = [] then .ok [] else skipWhitespace s

theorem skipBlanks_skipWhitespace {n : ℕ} (s : Text) (hn : (skipBlanks s).length ≤ n) :
    (if (skipBlanks s).head? = some semicolon then skipComments n (skipBlanks s)
      else .ok (skipBlanks s)) = skipWhitespaceFrom s := by
  cases s with
  | nil => rfl
  | cons b s =>
    rw [skipWhitespaceFrom, if_neg (List.cons_ne_nil b s), skipWhitespace]
    by_cases hb : b = semicolon
    · have hskip : skipBlanks (b :: s) = b :: s := by
        subst hb
        rfl
      rw [hskip] at hn ⊢
      rw [if_pos (by rw [hb]; rfl), if_pos hb]
      exact skipComments_congr (List.cons_ne_nil b s) hn (Nat.le_refl _)
    · rw [if_neg hb]
      by_cases hle : b ≤ space
      · rw [skipBlanks, if_pos hle] at hn ⊢
        rw [if_pos hle]
        split_ifs with hhead
        · exact skipComments_congr (fun hnil => by simp [hnil] at hhead) hn (Nat.le_refl _)
        · rfl
      · rw [skipBlanks, if_neg hle, if_neg hle, if_neg (by simpa using hb)]

theorem skipWhitespace_blank {b : UInt8} (hb : b ≤ space) (s : Text) :
    skipWhitespace (b :: s) = skipWhitespaceFrom s := by
  have hne : b ≠ semicolon := by
    rintro rfl
    exact absurd hb (by decide)
  rw [skipWhitespace, if_neg hne, if_pos hb]
  exact skipBlanks_skipWhitespace s (Nat.le_refl _)

theorem skipWhitespace_comment {text : Text} (h : ∀ c ∈ text, ¬ LineEnd c) {b : UInt8}
    (hb : LineEnd b) (s : Text) :
    skipWhitespace (semicolon :: (text ++ b :: s)) = skipWhitespaceFrom s := by
  have hle := length_skipBlanks_le s
  rw [skipWhitespace, if_pos rfl, List.length_cons, skipComments, skipToLine,
    skipToLineLoop_append h hb]
  refine skipBlanks_skipWhitespace s ?_
  rw [List.length_append, List.length_cons]
  omega

/-- Blanks and comments. -/
inductive Skips : Text → Text → Prop
  | refl {s : Text} : Skips s s
  | blank {b : UInt8} {s rest : Text} (hb : b ≤ space) (skips : Skips s rest) :
      Skips (b :: s) rest
  | comment {text : Text} {b : UInt8} {s rest : Text} (line : ∀ c ∈ text, ¬ LineEnd c)
      (hb : LineEnd b) (skips : Skips s rest) : Skips (semicolon :: (text ++ b :: s)) rest

theorem Skips.suffix {s rest : Text} (h : Skips s rest) : ∃ before, s = before ++ rest := by
  induction h with
  | refl => exact ⟨[], rfl⟩
  | blank _ _ ih =>
    obtain ⟨before, rfl⟩ := ih
    exact ⟨_ :: before, rfl⟩
  | @comment text b _ _ _ _ _ ih =>
    obtain ⟨before, rfl⟩ := ih
    exact ⟨semicolon :: (text ++ b :: before), by simp⟩

theorem skips_skipBlanks (s : Text) : Skips s (skipBlanks s) := by
  induction s with
  | nil => exact .refl
  | cons b s ih =>
    rw [skipBlanks]
    split_ifs with hb
    · exact .blank hb ih
    · exact .refl

theorem Skips.trans {s r rest : Text} (h : Skips s r) (h' : Skips r rest) : Skips s rest := by
  induction h with
  | refl => exact h'
  | blank hb _ ih => exact .blank hb (ih h')
  | comment line hb _ ih => exact .comment line hb (ih h')

/-- A text is skipped until there is something to read. -/
def Ready (s : Text) : Prop := ∀ b rest, s = b :: rest → space < b ∧ b ≠ semicolon

theorem ready_skipBlanks {s : Text} (h : (skipBlanks s).head? ≠ some semicolon) :
    Ready (skipBlanks s) := by
  induction s with
  | nil => exact fun b rest heq => by cases heq
  | cons b s ih =>
    rw [skipBlanks] at h ⊢
    split_ifs at h ⊢ with hb
    · exact ih h
    · intro c rest heq
      cases heq
      exact ⟨UInt8.not_le.mp hb, by simpa using h⟩

theorem skipComments_ok {n : ℕ} {s rest : Text} (hs : s.head? = some semicolon)
    (h : skipComments n s = .ok rest) : Skips s rest ∧ Ready rest := by
  induction n generalizing s with
  | zero => cases h
  | succ n ih =>
    obtain ⟨s, rfl⟩ : ∃ tail, s = semicolon :: tail := by
      cases s with
      | nil => cases hs
      | cons b s => exact ⟨s, by rw [Option.some.inj hs]⟩
    rw [skipComments, skipToLine] at h
    cases hline : skipToLineLoop s with
    | error e =>
      rw [hline] at h
      cases h
    | ok r =>
      obtain ⟨text, b, tail, rfl, rfl, hb, htext⟩ := skipToLineLoop_ok hline
      rw [hline] at h
      by_cases hhead : (skipBlanks tail).head? = some semicolon
      · simp only [List.tail_cons, hhead, if_true] at h
        obtain ⟨hskips, hready⟩ := ih hhead h
        exact ⟨.comment htext hb ((skips_skipBlanks tail).trans hskips), hready⟩
      · simp only [List.tail_cons, hhead, if_false] at h
        cases h
        exact ⟨.comment htext hb (skips_skipBlanks tail), ready_skipBlanks hhead⟩

theorem skipWhitespace_ok {s rest : Text} (h : skipWhitespace s = .ok rest) :
    Skips s rest ∧ Ready rest := by
  cases s with
  | nil => cases h
  | cons b s =>
    rw [skipWhitespace] at h
    split_ifs at h with hb hle hhead
    · exact skipComments_ok (by rw [hb]; rfl) h
    · obtain ⟨hskips, hready⟩ := skipComments_ok hhead h
      exact ⟨.blank hle ((skips_skipBlanks s).trans hskips), hready⟩
    · cases h
      exact ⟨.blank hle (skips_skipBlanks s), ready_skipBlanks hhead⟩
    · cases h
      refine ⟨.refl, fun c rest heq => ?_⟩
      cases heq
      exact ⟨UInt8.not_le.mp hle, hb⟩

theorem skipWhitespace_of_ready {b : UInt8} {s : Text} (h : space < b) (hb : b ≠ semicolon) :
    skipWhitespace (b :: s) = .ok (b :: s) := by
  rw [skipWhitespace, if_neg hb, if_neg (UInt8.not_le.mpr h)]

theorem Skips.body {Kind N : Type*} {fromChars : Kind → Text → ℕ × N}
    {table : List (Text × Member Kind)} {s r rest : Text} {es : List (ℕ × Value N)}
    (h : Skips s r) (body : Body fromChars table r es rest) : Body fromChars table s es rest := by
  induction h with
  | refl => exact body
  | blank hb _ ih => exact .blank hb (ih body)
  | comment line hb _ ih => exact .comment line hb (ih body)

end Fimbulwinter.Ini
