import Mathlib.Data.List.TakeWhile
import Fimbulwinter.JsonStructurer

/-! # What `core::structure_json` accepts

Complete values of a type at the beginning of a text, and texts that are cut off behind a
nested value. Both are accepted. -/
namespace Fimbulwinter.Json

/-! ## Whitespace -/

def Blank (ws : Text) : Prop := ∀ c ∈ ws, c ≤ space

/-- A symbol comes next, after whitespace. -/
def Next (c : UInt8) (input rest : Text) : Prop := ∃ ws, Blank ws ∧ input = ws ++ c :: rest

theorem skipWhitespace_blank {ws : Text} (h : Blank ws) (input : Text) :
    skipWhitespace (ws ++ input) = skipWhitespace input := by
  induction ws with
  | nil => rfl
  | cons c ws ih =>
    rw [List.cons_append, skipWhitespace, if_pos (h c List.mem_cons_self)]
    exact ih fun d hd => h d (List.mem_cons_of_mem c hd)

theorem skipWhitespace_of_lt {c : UInt8} (h : space < c) (input : Text) :
    skipWhitespace (c :: input) = .ok (c :: input) :=
  if_neg (UInt8.not_le.mpr h)

theorem Next.skipWhitespace {c : UInt8} {input rest : Text} (h : Next c input rest)
    (hc : space < c) : skipWhitespace input = .ok (c :: rest) := by
  obtain ⟨ws, hws, rfl⟩ := h
  rw [skipWhitespace_blank hws, skipWhitespace_of_lt hc]

theorem skipWhitespace_ok {input rest : Text} (h : skipWhitespace input = .ok rest) :
    ∃ ws c cs, Blank ws ∧ input = ws ++ rest ∧ rest = c :: cs ∧ space < c := by
  induction input with
  | nil => cases h
  | cons c input ih =>
    rw [skipWhitespace] at h
    split_ifs at h with hc
    · obtain ⟨ws, d, ds, hws, rfl, hrest, hd⟩ := ih h
      refine ⟨c :: ws, d, ds, fun e he => ?_, rfl, hrest, hd⟩
      rcases List.mem_cons.mp he with rfl | he
      · exact hc
      · exact hws e he
    · cases h
      exact ⟨[], c, input, fun _ hd => absurd hd List.not_mem_nil, rfl, rfl, UInt8.not_le.mp hc⟩

/-- The symbol that has been skipped to. -/
theorem next_of_skipWhitespace {c : UInt8} {input rest : Text}
    (h : skipWhitespace input = .ok rest) (hc : rest.head? = some c) :
    rest = c :: rest.tail ∧ Next c input rest.tail := by
  obtain ⟨ws, d, ds, hws, rfl, rfl, -⟩ := skipWhitespace_ok h
  cases hc
  exact ⟨rfl, ws, hws, rfl⟩

theorem Next.length_lt {c : UInt8} {input rest : Text} (h : Next c input rest) :
    rest.length < input.length := by
  obtain ⟨ws, -, rfl⟩ := h
  rw [List.length_append, List.length_cons]
  omega

theorem Next.eq_cons {c : UInt8} {input rest : Text} (h : Next c input rest) :
    ∃ d ds, input = d :: ds := by
  refine List.exists_cons_of_length_pos ?_
  have := h.length_lt
  omega

/-! ## Strings -/

/-- The number of backslashes at the end of a text. -/
def backslashes (str : Text) : ℕ := (str.reverse.takeWhile (· = backslash)).length

/-- A quote inside of a string comes after one or three backslashes, and none or two of them
end it. -/
structure IsString (str : Text) : Prop where
  closed : backslashes str = 0 ∨ backslashes str = 2
  quoted : ∀ before after, str = before ++ quote :: after →
    backslashes before = 1 ∨ backslashes before = 3

/-- What a quote does after a text. -/
theorem readStringLoop_quote (str start rest : Text) :
    readStringLoop str.reverse start (quote :: rest) =
      if backslashes str = 0 ∨ backslashes str = 2 then .ok (str, quote :: rest)
      else if backslashes str = 1 ∨ backslashes str = 3 then
        readStringLoop (str ++ [quote]).reverse rest rest
      else fail .unexpectedError (quote :: rest) := by
  rw [readStringLoop, if_pos rfl, List.reverse_append, List.reverse_reverse]
  unfold backslashes
  generalize str.reverse = passed
  rcases passed with _ | ⟨a, _ | ⟨b, _ | ⟨c, _ | ⟨d, passed⟩⟩⟩⟩
  · simp
  · by_cases ha : a = backslash
    · simp [ha]
    · simp [ha]
  · by_cases ha : a = backslash
    · by_cases hb : b = backslash
      · simp [ha, hb]
      · simp [ha, hb]
    · simp [ha]
  · by_cases ha : a = backslash
    · by_cases hb : b = backslash
      · by_cases hc : c = backslash
        · simp [ha, hb, hc]
        · simp [ha, hb, hc]
      · simp [ha, hb]
    · simp [ha]
  · by_cases ha : a = backslash
    · by_cases hb : b = backslash
      · by_cases hc : c = backslash
        · by_cases hd : d = backslash
          · simp [ha, hb, hc, hd]
          · simp [ha, hb, hc, hd]
        · simp [ha, hb, hc]
      · simp [ha, hb]
    · simp [ha]

theorem readStringLoop_of_ne {c : UInt8} (hc : c ≠ quote) (str start rest : Text) :
    readStringLoop str.reverse start (c :: rest) =
      readStringLoop (str ++ [c]).reverse start rest := by
  rw [readStringLoop, if_neg hc, List.reverse_append]
  rfl

theorem readStringLoop_ok {str start input str' rest : Text}
    (hquoted : ∀ before after, str = before ++ quote :: after →
      backslashes before = 1 ∨ backslashes before = 3)
    (h : readStringLoop str.reverse start input = .ok (str', rest)) :
    IsString str' ∧ rest = quote :: rest.tail ∧ str' ++ rest = str ++ input := by
  induction input generalizing str start with
  | nil => cases h
  | cons c input ih =>
    have hassoc : str ++ c :: input = str ++ [c] ++ input := by simp
    by_cases hc : c = quote
    · subst hc
      rw [readStringLoop_quote] at h
      split_ifs at h with hclosed hescaped
      · cases h
        exact ⟨⟨hclosed, hquoted⟩, rfl, rfl⟩
      · rw [hassoc]
        refine ih (fun before after heq => ?_) h
        rcases List.eq_nil_or_concat' after with rfl | ⟨after', d, rfl⟩
        · rw [← List.append_left_injective [quote] heq]
          exact hescaped
        · rw [← List.cons_append, ← List.append_assoc] at heq
          exact hquoted before after' (List.append_inj_left' heq rfl)
      · cases h
    · rw [readStringLoop_of_ne hc] at h
      rw [hassoc]
      refine ih (fun before after heq => ?_) h
      rcases List.eq_nil_or_concat' after with rfl | ⟨after', d, rfl⟩
      · exact absurd (List.cons.inj (List.append_inj_right' heq rfl)).1 hc
      · rw [← List.cons_append, ← List.append_assoc] at heq
        exact hquoted before after' (List.append_inj_left' heq rfl)

theorem IsString.readStringLoop {str tail start rest : Text} (h : IsString (str ++ tail)) :
    readStringLoop str.reverse start (tail ++ quote :: rest) =
      .ok (str ++ tail, quote :: rest) := by
  induction tail generalizing str start with
  | nil =>
    rw [List.append_nil] at h ⊢
    rw [List.nil_append, readStringLoop_quote, if_pos h.closed]
  | cons c tail ih =>
    have hassoc : str ++ c :: tail = str ++ [c] ++ tail := by simp
    by_cases hc : c = quote
    · subst hc
      have hescaped := h.quoted str tail rfl
      have hopen : ¬ (backslashes str = 0 ∨ backslashes str = 2) := by omega
      rw [List.cons_append, readStringLoop_quote, if_neg hopen, if_pos hescaped]
      rw [hassoc] at h ⊢
      exact ih h
    · rw [List.cons_append, readStringLoop_of_ne hc]
      rw [hassoc] at h ⊢
      exact ih h

theorem readString_ok {input str rest : Text} (h : readString input = .ok (str, rest)) :
    IsString str ∧ input = quote :: (str ++ quote :: rest.tail) := by
  cases input with
  | nil => cases h
  | cons c input =>
    rw [readString] at h
    split_ifs at h with hc
    · have hnone : ∀ before after : Text, [] = before ++ quote :: after →
          backslashes before = 1 ∨ backslashes before = 3 := fun before after heq =>
        absurd heq.symm (List.append_ne_nil_of_right_ne_nil _ (List.cons_ne_nil _ _))
      obtain ⟨hstr, hrest, heq⟩ := readStringLoop_ok hnone h
      rw [List.nil_append] at heq
      exact ⟨hstr, by rw [hc, ← heq, ← hrest]⟩
    · cases h

theorem IsString.readString {str : Text} (h : IsString str) (rest : Text) :
    readString (quote :: (str ++ quote :: rest)) = .ok (str, quote :: rest) := by
  rw [Json.readString, if_pos rfl]
  exact IsString.readStringLoop (show IsString ([] ++ str) from h)

/-- A string without quotes and backslashes. -/
theorem isString_of_not_mem {str : Text} (hquote : quote ∉ str) (hbackslash : backslash ∉ str) :
    IsString str where
  closed := by
    refine .inl (List.length_eq_zero_iff.mpr (List.takeWhile_eq_nil_iff.mpr fun hlt heq => ?_))
    have hmem := List.get_mem str.reverse ⟨0, hlt⟩
    rw [of_decide_eq_true heq] at hmem
    exact hbackslash (List.mem_reverse.mp hmem)
  quoted := fun before after heq => absurd (heq ▸ List.mem_append_right _ List.mem_cons_self) hquote

/-! ## Complete values -/

/-- What is read at a place in a text. -/
inductive Item (Ty : Type*)
  | value (t : Ty)
  | elements (element : Ty)
  | items (first : Ty) (rest : List Ty)
  | members (table : List (Text × Ty))

/-- The name of a member and a colon. -/
def MemberName {Ty : Type*} (table : List (Text × Ty)) (t : Ty) (input body : Text) : Prop :=
  ∃ ws key rest i, Blank ws ∧ IsString key ∧ findMember table key = some (i, t) ∧
    input = ws ++ quote :: (key ++ quote :: rest) ∧ Next colon rest body

/-- A member is found by its name. -/
theorem findMember_of_getElem? {Ty : Type*} {table : List (Text × Ty)}
    (hnodup : (table.map Prod.fst).Nodup) {i : ℕ} {name : Text} {t : Ty} (h : table[i]? = some (name, t)) :
    findMember table name = some (i, t) := by
  have hmem : ((name, t), i) ∈ table.zipIdx := List.mem_zipIdx_iff_getElem?.mpr h
  rw [findMember]
  cases hfind : table.zipIdx.find? fun p => p.1.1 = name with
  | none =>
    have hnone := List.find?_eq_none.mp hfind _ hmem
    simp at hnone
  | some p =>
    obtain ⟨⟨name', t'⟩, j⟩ := p
    have hname : name' = name := by simpa using List.find?_some hfind
    have hj : table[j]? = some (name', t') :=
      List.mem_zipIdx_iff_getElem?.mp (List.mem_of_find?_eq_some hfind)
    have hi : (table.map Prod.fst)[i]? = some name := by rw [List.getElem?_map, h]; rfl
    have hj' : (table.map Prod.fst)[j]? = some name := by rw [List.getElem?_map, hj, hname]; rfl
    obtain ⟨hlt, -⟩ := List.getElem?_eq_some_iff.mp hi
    obtain rfl := (List.getElem?_inj hlt hnodup).mp (hi.trans hj'.symm)
    rw [hj] at h
    cases h
    rfl

section Grammar

variable {Ty Kind N : Type*} (shape : Ty → Shape Ty Kind)
  (fromChars : Kind → Text → Option (N × ℕ))

/-- The text begins with a complete item, with every bracket, brace and quote closed and
every comma and colon in place. -/
inductive Complete : Item Ty → Text → Text → Prop
  | space {t : Ty} {c : UInt8} {input rest : Text} (h : c ≤ space)
    (value : Complete (.value t) input rest) : Complete (.value t) (c :: input) rest
  | true {t : Ty} {rest : Text} (h : shape t = .bool) :
    Complete (.value t) (trueText ++ rest) rest
  | false {t : Ty} {rest : Text} (h : shape t = .bool) :
    Complete (.value t) (falseText ++ rest) rest
  | number {t : Ty} {kind : Kind} {c : UInt8} {input : Text} {x : N} {n : ℕ}
    (h : shape t = .number kind) (hc : Json.space < c)
    (hx : fromChars kind (c :: input) = some (x, n)) (hn : 0 < n) :
    Complete (.value t) (c :: input) ((c :: input).drop n)
  | enum {t : Ty} {table : List (Text × ℕ)} {key rest : Text} {x : ℕ} (h : shape t = .enum table)
    (hkey : IsString key) (hmem : (key, x) ∈ table) :
    Complete (.value t) (quote :: (key ++ quote :: rest)) rest
  | string {t : Ty} {str rest : Text} (h : shape t = .string) (hstr : IsString str) :
    Complete (.value t) (quote :: (str ++ quote :: rest)) rest
  | emptyRange {t element : Ty} {input rest : Text} (h : shape t = .range element)
    (close : Next closeBracket input rest) : Complete (.value t) (openBracket :: input) rest
  | range {t element : Ty} {input rest : Text} (h : shape t = .range element)
    (open_ : ∀ rest, ¬ Next closeBracket input rest)
    (elements : Complete (.elements element) input rest) :
    Complete (.value t) (openBracket :: input) rest
  | tuple {t first : Ty} {more : List Ty} {input rest : Text} (h : shape t = .tuple first more)
    (items : Complete (.items first more) input rest) :
    Complete (.value t) (openBracket :: input) rest
  | members {t : Ty} {table : List (Text × Ty)} {input rest : Text}
    (h : shape t = .members table) (members : Complete (.members table) input rest) :
    Complete (.value t) (openBrace :: input) rest
  | lastElement {element : Ty} {input mid rest : Text}
    (value : Complete (.value element) input mid) (close : Next closeBracket mid rest) :
    Complete (.elements element) input rest
  | nextElement {element : Ty} {input mid input' rest : Text}
    (value : Complete (.value element) input mid) (comma : Next comma mid input')
    (elements : Complete (.elements element) input' rest) :
    Complete (.elements element) input rest
  | lastItem {t : Ty} {input mid rest : Text} (value : Complete (.value t) input mid)
    (close : Next closeBracket mid rest) : Complete (.items t []) input rest
  | nextItem {t t' : Ty} {ts : List Ty} {input mid input' rest : Text}
    (value : Complete (.value t) input mid) (comma : Next comma mid input')
    (items : Complete (.items t' ts) input' rest) : Complete (.items t (t' :: ts)) input rest
  | lastMember {table : List (Text × Ty)} {t : Ty} {input body mid rest : Text}
    (name : MemberName table t input body) (value : Complete (.value t) body mid)
    (close : Next closeBrace mid rest) : Complete (.members table) input rest
  | nextMember {table : List (Text × Ty)} {t : Ty} {input body mid input' rest : Text}
    (name : MemberName table t input body) (value : Complete (.value t) body mid)
    (comma : Next comma mid input') (members : Complete (.members table) input' rest) :
    Complete (.members table) input rest

/-- The text ends directly behind a nested value, of an item that is still open. -/
inductive Cut : Item Ty → Text → Prop
  | space {t : Ty} {c : UInt8} {input : Text} (h : c ≤ space) (value : Cut (.value t) input) :
    Cut (.value t) (c :: input)
  | range {t element : Ty} {input : Text} (h : shape t = .range element)
    (open_ : ∀ rest, ¬ Next closeBracket input rest) (elements : Cut (.elements element) input) :
    Cut (.value t) (openBracket :: input)
  | tuple {t first : Ty} {more : List Ty} {input : Text} (h : shape t = .tuple first more)
    (items : Cut (.items first more) input) : Cut (.value t) (openBracket :: input)
  | members {t : Ty} {table : List (Text × Ty)} {input : Text} (h : shape t = .members table)
    (members : Cut (.members table) input) : Cut (.value t) (openBrace :: input)
  | elementEnds {element : Ty} {input : Text}
    (value : Complete shape fromChars (.value element) input []) : Cut (.elements element) input
  | elementCut {element : Ty} {input : Text} (value : Cut (.value element) input) :
    Cut (.elements element) input
  | nextElement {element : Ty} {input mid input' : Text}
    (value : Complete shape fromChars (.value element) input mid) (comma : Next comma mid input')
    (elements : Cut (.elements element) input') : Cut (.elements element) input
  | itemEnds {t : Ty} {ts : List Ty} {input : Text}
    (value : Complete shape fromChars (.value t) input []) : Cut (.items t ts) input
  | itemCut {t : Ty} {ts : List Ty} {input : Text} (value : Cut (.value t) input) :
    Cut (.items t ts) input
  | nextItem {t t' : Ty} {ts : List Ty} {input mid input' : Text}
    (value : Complete shape fromChars (.value t) input mid) (comma : Next comma mid input')
    (items : Cut (.items t' ts) input') : Cut (.items t (t' :: ts)) input
  | memberEnds {table : List (Text × Ty)} {t : Ty} {input body : Text}
    (name : MemberName table t input body)
    (value : Complete shape fromChars (.value t) body []) : Cut (.members table) input
  | memberCut {table : List (Text × Ty)} {t : Ty} {input body : Text}
    (name : MemberName table t input body) (value : Cut (.value t) body) :
    Cut (.members table) input
  | nextMember {table : List (Text × Ty)} {t : Ty} {input body mid input' : Text}
    (name : MemberName table t input body)
    (value : Complete shape fromChars (.value t) body mid) (comma : Next comma mid input')
    (members : Cut (.members table) input') : Cut (.members table) input

end Grammar

end Fimbulwinter.Json
