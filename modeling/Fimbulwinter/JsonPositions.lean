import Fimbulwinter.JsonBounds
import Fimbulwinter.JsonTruncation

/-! # Positions and the rest of the text

The structurer with positions reads what the one with the rest of the text reads, as long as ranges
can grow. -/
namespace Fimbulwinter.JsonBounds

open Json (Text Shape Value ErrorCode findMember space quote comma colon openBracket backslash
  closeBracket openBrace closeBrace trueText falseText)

variable {text rest : Text} {size : ℤ} {α β γ : Type}

/-- What is behind a position. -/
structure At (text rest : Text) (size : ℤ) : Prop where
  suffix : rest <:+ text
  size_eq : size = -(rest.length : ℤ)

/-- The same error at the same position. -/
def Same : Failure → Json.Failure → Prop
  | .text code size, .text code' remaining => code = code' ∧ size = -(remaining : ℤ)
  | .scan e, .outOfFuel => e = .outOfFuel
  | _, _ => False

/-- The same result, or the same error. -/
def Agree (rel : α → β → Prop) : Except Failure α → Except Json.Failure β → Prop
  | .ok a, .ok b => rel a b
  | .error e, .error e' => Same e e'
  | _, _ => False

/-- The same value, with the same text behind it. -/
def Result {N : Type} (text : Text) (r : ℤ × Value N) (r' : Text × Value N) : Prop :=
  At text r'.1 r.1 ∧ r.2 = r'.2

theorem Agree.bind {rel : α → β → Prop} {δ : Type} {rel' : γ → δ → Prop}
    {r : Except Failure α} {r' : Except Json.Failure β}
    {f : α → Except Failure γ} {s : Except Json.Failure δ} (h : Agree rel r r')
    (hok : ∀ a b, rel a b → r' = .ok b → Agree rel' (f a) s)
    (herror : ∀ e, r' = .error e → s = .error e) : Agree rel' (r >>= f) s := by
  cases r with
  | ok a =>
    cases r' with
    | ok b => exact hok a b h rfl
    | error e' => exact h.elim
  | error e =>
    cases r' with
    | ok b => exact h.elim
    | error e' =>
      rw [herror e' rfl]
      exact h

theorem ok_bind (a : α) (f : α → Except Failure β) : (Except.ok a >>= f) = f a := rfl

/-! ## Positions -/

theorem At.tail {c : UInt8} (h : At text (c :: rest) size) : At text rest (size + 1) where
  suffix := (List.suffix_cons c rest).trans h.suffix
  size_eq := by
    have := h.size_eq
    rw [List.length_cons] at this
    omega

theorem At.at_end (h : At text [] size) : 0 ≤ size := Int.le_of_eq h.size_eq.symm

theorem At.not_at_end {c : UInt8} (h : At text (c :: rest) size) : ¬ 0 ≤ size := by
  have := h.size_eq
  rw [List.length_cons] at this
  omega

theorem agree_fail {rel : α → β → Prop} (code : ErrorCode) (h : At text rest size) :
    Agree rel (fail code size) (Json.fail code rest) := ⟨rfl, h.size_eq⟩

theorem peek_append (front : Text) {c : UInt8} (htext : text = front ++ c :: rest)
    (hsize : size = -((c :: rest).length : ℤ)) : peek text size = .ok c := by
  have hposition : (text.length : ℤ) + size = (front.length : ℤ) := by
    rw [hsize, htext, List.length_append]
    omega
  rw [peek, Scan.readBack, hposition, if_pos (Int.natCast_nonneg _), Int.toNat_natCast, htext,
    Scan.read_append]
  rfl

theorem At.peek {c : UInt8} (h : At text (c :: rest) size) : peek text size = .ok c := by
  obtain ⟨front, hfront⟩ := h.suffix
  exact peek_append front hfront.symm h.size_eq

theorem At.view (h : At text rest size) {n : ℕ} (hn : n ≤ rest.length) :
    view text size (size + n) = .ok (rest.take n) := by
  obtain ⟨front, rfl⟩ := h.suffix
  have hsize := h.size_eq
  have hfirst : ((front ++ rest).length : ℤ) + size = (front.length : ℤ) := by
    rw [hsize, List.length_append]
    omega
  have hlast : ((front ++ rest).length : ℤ) + (size + n) = ((front.length + n : ℕ) : ℤ) := by
    omega
  have hview := Scan.view_append front (rest.take n) (rest.drop n)
  rw [List.take_append_drop, List.length_take, Nat.min_eq_left hn] at hview
  rw [JsonBounds.view, Scan.viewBack, hfirst, hlast,
    if_pos ⟨Int.natCast_nonneg _, Int.natCast_nonneg _⟩, Int.toNat_natCast, Int.toNat_natCast,
    hview]
  rfl

theorem At.drop (h : At text rest size) {n : ℕ} (hn : n ≤ rest.length) :
    At text (rest.drop n) (size + n) where
  suffix := (List.drop_suffix n rest).trans h.suffix
  size_eq := by
    have := h.size_eq
    rw [List.length_drop]
    omega

/-! ## Whitespace -/

theorem agree_skipFrom {fuel : ℕ} (h : At text rest size) (hfuel : rest.length < fuel) :
    Agree (fun size' rest' => At text rest' size' ∧ ∃ c cs, rest' = c :: cs)
      (skipFrom text fuel size) (Json.skipWhitespace rest) := by
  induction rest generalizing size fuel with
  | nil =>
    obtain _ | fuel := fuel
    · omega
    have hend : 0 ≤ size := by
      rw [h.size_eq]
      exact Int.le_refl _
    rw [skipFrom, if_pos hend]
    exact agree_fail _ h
  | cons c cs ih =>
    obtain _ | fuel := fuel
    · omega
    have hsize := h.size_eq
    rw [List.length_cons] at hsize hfuel
    rw [skipFrom, if_neg (by omega), h.peek, ok_bind, Json.skipWhitespace]
    split_ifs
    · exact ih h.tail (by omega)
    · exact ⟨h, c, cs, rfl⟩

theorem agree_skipWhitespace (h : At text rest size) :
    Agree (fun size' rest' => At text rest' size' ∧ ∃ c cs, rest' = c :: cs)
      (skipWhitespace text size) (Json.skipWhitespace rest) :=
  agree_skipFrom h (Nat.lt_succ_of_le h.suffix.length_le)

/-! ## Strings -/

variable {front passed start name more : Text} {c : UInt8} {k : ℕ}

theorem readStringLoop_append (passed start rest : Text) (hname : quote ∉ name) :
    Json.readStringLoop passed start (name ++ rest) =
      Json.readStringLoop (name.reverse ++ passed) start rest := by
  induction name generalizing passed with
  | nil => rfl
  | cons c name ih =>
    obtain ⟨hc, hname⟩ := not_or.mp (mt List.mem_cons.mpr hname)
    rw [List.cons_append, Json.readStringLoop, if_neg (Ne.symm hc), ih _ hname, List.reverse_cons,
      List.append_assoc, List.singleton_append]

theorem readStringLoop_unended (hrest : quote ∉ rest) :
    Json.readStringLoop passed start rest = Json.fail .unexpectedEof start := by
  have h := readStringLoop_append passed start [] hrest
  rwa [List.append_nil] at h

theorem find_unended (front : Text) (htext : text = front ++ rest)
    (hsize : size = -(rest.length : ℤ)) (hrest : c ∉ rest) : find text size c = .ok 0 := by
  have hposition : (text.length : ℤ) + size = (front.length : ℤ) := by
    rw [hsize, htext, List.length_append]
    omega
  rw [find, Scan.findBack, hposition, if_pos ⟨Int.natCast_nonneg _, by omega⟩, Int.toNat_natCast,
    htext, Scan.find_append_end front hrest, sub_self]
  rfl

theorem find_ended (front : Text) (htext : text = front ++ (name ++ c :: more))
    (hsize : size = -((name ++ c :: more).length : ℤ)) (hname : c ∉ name) :
    find text size c = .ok (-((c :: more).length : ℤ)) := by
  have hposition : (text.length : ℤ) + size = (front.length : ℤ) := by
    rw [hsize, htext, List.length_append]
    omega
  have hfound :
      ((front.length + name.length : ℕ) : ℤ) - text.length = -((c :: more).length : ℤ) := by
    rw [htext, List.length_append, List.length_append]
    omega
  rw [find, Scan.findBack, hposition, if_pos ⟨Int.natCast_nonneg _, by omega⟩, Int.toNat_natCast]
  rw [← hfound, htext, Scan.find_append front more hname]
  rfl

/-- What has been passed since the opening quote, and the quote itself. -/
theorem peek_passed (htext : text = front ++ quote :: (passed.reverse ++ rest))
    (hsize : size + k + 1 = -(rest.length : ℤ)) (hk : k ≤ passed.length) :
    peek text size = .ok (passed[k]?.getD quote) := by
  cases hdrop : passed.drop k with
  | nil =>
    have hlength := List.drop_eq_nil_iff.mp hdrop
    rw [List.getElem?_eq_none hlength]
    refine peek_append front htext ?_
    rw [List.length_cons, List.length_append, List.length_reverse]
    omega
  | cons c cs =>
    have hget : passed[k]? = some c := by
      rw [← List.head?_drop, hdrop]
      rfl
    have hsplit : passed.reverse = cs.reverse ++ c :: (passed.take k).reverse := by
      have h := congrArg List.reverse (List.take_append_drop k passed)
      rw [← h, hdrop, List.reverse_append, List.reverse_cons, List.append_assoc,
        List.singleton_append]
    rw [hget]
    have hback :
        text = (front ++ quote :: cs.reverse) ++ c :: ((passed.take k).reverse ++ rest) := by
      rw [htext, hsplit]
      simp
    refine peek_append _ hback ?_
    rw [List.length_cons, List.length_append, List.length_reverse, List.length_take]
    omega

theorem getD_quote_eq (o : Option UInt8) : o.getD quote = backslash ↔ o = some backslash := by
  cases o with
  | none => exact iff_of_false (by decide) (by simp)
  | some c => simp

/-- Where a string ends, and what it is. -/
def Closes (text front : Text) (last : ℤ) (r : Text × Text) : Prop :=
  ∃ cs, r.2 = quote :: cs ∧ last = -((quote :: cs).length : ℤ) ∧
    text = front ++ quote :: (r.1 ++ quote :: cs)

theorem agree_closingQuote {fuel : ℕ} (htext : text = front ++ quote :: (passed.reverse ++ rest))
    (hsize : size + 1 = -(rest.length : ℤ)) (hfuel : rest.length < fuel) :
    Agree (Closes text front) (closingQuote text fuel size)
      (Json.readStringLoop passed rest rest) := by
  induction fuel generalizing size passed rest with
  | zero => omega
  | succ fuel ih =>
    rw [closingQuote]
    obtain hnone | ⟨name, more, hname, rfl⟩ := Scan.splits quote rest
    · have hfind : find text (size + 1) quote = .ok 0 :=
        find_unended (front ++ quote :: passed.reverse) (by rw [htext]; simp) hsize hnone
      rw [hfind, ok_bind, if_pos rfl, readStringLoop_unended hnone]
      exact ⟨rfl, hsize⟩
    · have hfind : find text (size + 1) quote = .ok (-((quote :: more).length : ℤ)) :=
        find_ended (front ++ quote :: passed.reverse) (by rw [htext]; simp) hsize hname
      rw [hfind, ok_bind, readStringLoop_append _ _ _ hname]
      have htext' :
          text = front ++ quote :: ((name.reverse ++ passed).reverse ++ quote :: more) := by
        rw [htext]
        simp
      rw [List.length_append, List.length_cons] at hfuel
      -- The characters in front of the quote are those that have been passed.
      generalize name.reverse ++ passed = passed at htext' ⊢
      have hclosed : Agree (Closes text front) (.ok (-((quote :: more).length : ℤ)))
          (.ok (passed.reverse, quote :: more)) := ⟨more, rfl, rfl, htext'⟩
      have hagain : Agree (Closes text front)
          (closingQuote text fuel (-((quote :: more).length : ℤ)))
          (Json.readStringLoop (quote :: passed) more more) := by
        refine ih ?_ ?_ (by omega)
        · rw [htext']
          simp
        · rw [List.length_cons]
          omega
      have hpeek : ∀ k ≤ passed.length, ∀ size, size + k + 1 = -((quote :: more).length : ℤ) →
          peek text size = .ok (passed[k]?.getD quote) :=
        fun k hk size hsize => peek_passed htext' hsize hk
      have hpassed : ∀ {k}, passed[k]? = some backslash → k + 1 ≤ passed.length := fun hk =>
        (List.getElem?_eq_some_iff.mp hk).1
      have hzero : ¬ (-((quote :: more).length : ℤ) = 0) := by
        rw [List.length_cons]
        omega
      rw [if_neg hzero, Json.readStringLoop, if_pos rfl,
        hpeek 0 (Nat.zero_le _) _ (by omega), ok_bind]
      simp only [ne_eq, getD_quote_eq]
      by_cases hone : passed[0]? = some backslash
      swap
      · rw [if_pos hone, if_pos hone]
        exact hclosed
      rw [if_neg (not_not.mpr hone), if_neg (not_not.mpr hone), hpeek 1 (hpassed hone) _ (by omega),
        ok_bind]
      simp only [getD_quote_eq]
      by_cases htwo : passed[1]? = some backslash
      swap
      · rw [if_neg htwo, if_neg htwo]
        exact hagain
      rw [if_pos htwo, if_pos htwo, hpeek 2 (hpassed htwo) _ (by omega), ok_bind]
      simp only [getD_quote_eq]
      by_cases hthree : passed[2]? = some backslash
      swap
      · rw [if_pos hthree, if_pos hthree]
        exact hclosed
      rw [if_neg (not_not.mpr hthree), if_neg (not_not.mpr hthree),
        hpeek 3 (hpassed hthree) _ (by omega), ok_bind]
      simp only [getD_quote_eq]
      by_cases hfour : passed[3]? = some backslash
      · rw [if_pos hfour, if_pos hfour]
        exact ⟨rfl, rfl⟩
      · rw [if_neg hfour, if_neg hfour]
        exact hagain

/-- The same string, with the same text behind its closing quote. -/
def Quoted (text : Text) (r : ℤ × Text) (r' : Text × Text) : Prop :=
  At text r'.2.tail (r.1 + 1) ∧ r.2 = r'.1

theorem agree_readString (h : At text (c :: rest) size) :
    Agree (Quoted text) (readString text size) (Json.readString (c :: rest)) := by
  rw [readString, h.peek, ok_bind, Json.readString]
  by_cases hc : c = quote
  swap
  · rw [if_pos hc, if_neg hc]
    exact agree_fail _ h
  subst hc
  rw [if_neg (not_not.mpr rfl), if_pos rfl]
  obtain ⟨front, htext⟩ := h.suffix
  have hsize := h.tail.size_eq
  have hfuel : rest.length < text.length + 1 := Nat.lt_succ_of_le h.tail.suffix.length_le
  have hclosing : Agree (Closes text front) (closingQuote text (text.length + 1) size)
      (Json.readStringLoop [] rest rest) := agree_closingQuote htext.symm hsize hfuel
  refine hclosing.bind (fun last r hcloses hr => ?_) fun e he => he
  obtain ⟨cs, hrest, hlast, hsplit⟩ := hcloses
  -- The string is between the quotes.
  have hinner : rest = r.1 ++ quote :: cs := by
    rw [hsplit] at htext
    exact (List.cons.inj (List.append_cancel_left htext)).2
  have hat : At text (r.1 ++ quote :: cs) (size + 1) := hinner ▸ h.tail
  have hposition : size + 1 + r.1.length = last := by
    rw [hlast, hsize, hinner, List.length_append]
    omega
  have hview : view text (size + 1) last = .ok r.1 := by
    have hview := hat.view (n := r.1.length) (by rw [List.length_append]; omega)
    rwa [hposition, List.take_left] at hview
  have hend : At text (quote :: cs) last := by
    have hdrop := hat.drop (n := r.1.length) (by rw [List.length_append]; omega)
    rwa [hposition, List.drop_left] at hdrop
  rw [hview, ok_bind, hr]
  refine ⟨?_, rfl⟩
  rw [hrest]
  exact hend.tail

/-! ## Words and numbers -/

section Structure

variable {Ty Kind : Type*} {N : Type} {shape : Ty → Shape Ty Kind}
  {fromChars : Kind → Text → Option (N × ℕ)} {fresh : Ty → Value N}

theorem agree_readFalse (h : At text rest size) (htrue : ¬ trueText.isPrefixOf rest) :
    Agree (Result text) (readFalse text size : Except Failure (ℤ × Value N))
      (Json.readBool rest) := by
  have hsize := h.size_eq
  have hstarts : falseText.isPrefixOf rest = true ↔ falseText = rest.take 5 :=
    List.isPrefixOf_iff_prefix.trans List.prefix_iff_eq_take
  rw [Json.readBool, if_neg htrue, readFalse]
  by_cases hlong : 5 ≤ rest.length
  · have hfour : 4 ≤ rest.length := by omega
    have hview : view text size (size + 4) = .ok (rest.take 4) := h.view hfour
    obtain ⟨c, more, hdrop⟩ : ∃ c more, rest.drop 4 = c :: more := by
      apply List.exists_cons_of_length_pos
      rw [List.length_drop]
      omega
    have hat : At text (c :: more) (size + 4) := hdrop ▸ h.drop hfour
    have hposition : size + 5 - 1 = size + 4 := by omega
    have hfive : rest.take 5 = rest.take 4 ++ [c] := by
      rw [List.take_add (i := 4) (j := 1), hdrop]
      rfl
    have hword : falseText.isPrefixOf rest = true ↔ rest.take 4 = falseText.take 4 ∧ c = 0x65 := by
      have hsplit : falseText = falseText.take 4 ++ [0x65] := rfl
      rw [hstarts, hfive, hsplit, List.append_singleton_inj]
      exact and_congr eq_comm eq_comm
    rw [if_pos (by omega), hview, ok_bind]
    by_cases hfalse : rest.take 4 = falseText.take 4
    · rw [if_pos hfalse, hposition, hat.peek, ok_bind]
      by_cases hc : c = 0x65
      · rw [if_pos hc, if_pos (hword.mpr ⟨hfalse, hc⟩)]
        exact ⟨h.drop hlong, rfl⟩
      · rw [if_neg hc, if_neg fun hin => hc (hword.mp hin).2]
        exact agree_fail _ h
    · rw [if_neg hfalse, if_neg fun hin => hfalse (hword.mp hin).1]
      exact agree_fail _ h
  · rw [if_neg (by omega), if_neg fun hin => ?_]
    · exact agree_fail _ h
    · have hlength := congrArg List.length (hstarts.mp hin)
      rw [List.length_take] at hlength
      have hfive : falseText.length = 5 := rfl
      omega

theorem agree_readBool (h : At text rest size) :
    Agree (Result text) (readBool text size : Except Failure (ℤ × Value N))
      (Json.readBool rest) := by
  have hsize := h.size_eq
  have hstarts : trueText.isPrefixOf rest = true ↔ trueText = rest.take 4 :=
    List.isPrefixOf_iff_prefix.trans List.prefix_iff_eq_take
  rw [readBool]
  split_ifs with hlong
  · have hfour : 4 ≤ rest.length := by omega
    have hview : view text size (size + 4) = .ok (rest.take 4) := h.view hfour
    rw [hview, ok_bind]
    split_ifs with htrue
    · rw [Json.readBool, if_pos (hstarts.mpr htrue.symm)]
      exact ⟨h.drop hfour, rfl⟩
    · exact agree_readFalse h fun hin => htrue (hstarts.mp hin).symm
  · refine agree_readFalse h fun hin => ?_
    have hlength := congrArg List.length (hstarts.mp hin)
    rw [List.length_take] at hlength
    have hfour : trueText.length = 4 := rfl
    omega

theorem agree_readNumber (hwithin : StaysWithin fromChars) (kind : Kind) (h : At text rest size) :
    Agree (Result text) (readNumber fromChars text kind size)
      (Json.readNumber fromChars kind rest) := by
  have hsize := h.size_eq
  have hend : size + (rest.length : ℤ) = 0 := by omega
  have hview := h.view (Nat.le_refl rest.length)
  rw [hend, List.take_length] at hview
  rw [readNumber, hview, ok_bind, Json.readNumber]
  cases hx : fromChars kind rest with
  | none => exact agree_fail _ h
  | some r =>
    dsimp only
    split_ifs
    · exact ⟨h.drop (hwithin kind rest r.1 r.2 hx), rfl⟩
    · exact agree_fail _ h

theorem agree_readEnum (table : List (Text × ℕ)) (h : At text (c :: rest) size) :
    Agree (Result text) (readEnum text table size : Except Failure (ℤ × Value N))
      (Json.readEnum table (c :: rest)) := by
  rw [readEnum, Json.readEnum]
  refine (agree_readString h).bind (fun r r' hr hr' => ?_) fun e he => by rw [he]
  rw [hr', hr.2]
  dsimp only
  cases table.find? fun p => p.1 = r'.1 with
  | none => exact agree_fail _ h
  | some p => exact ⟨hr.1, rfl⟩

theorem agree_readText (h : At text (c :: rest) size) :
    Agree (Result text) (readText text size : Except Failure (ℤ × Value N))
      (Json.readText (c :: rest)) := by
  rw [readText, Json.readText]
  refine (agree_readString h).bind (fun r r' hr hr' => ?_) fun e he => by rw [he]
  rw [hr', hr.2]
  exact ⟨hr.1, rfl⟩

/-! ## Values -/

theorem agree_symbol {rel : α → β → Prop} {r s : Except Failure α} {r' s' : Except Json.Failure β}
    (d : UInt8) (hagree : Agree rel r r') (helse : Agree rel s s') :
    Agree rel (if c = d then r else s) (if (c :: rest).head? = some d then r' else s') := by
  by_cases hc : c = d
  · have hhead : (c :: rest).head? = some d := congrArg some hc
    rw [if_pos hc, if_pos hhead]
    exact hagree
  · have hhead : ¬ (c :: rest).head? = some d := fun h => hc (Option.some.inj h)
    rw [if_neg hc, if_neg hhead]
    exact helse

theorem agree_expect {rel : α → β → Prop} {r : Except Failure α} {r' : Except Json.Failure β}
    (code : ErrorCode) (d : UInt8) (h : At text (c :: rest) size) (hagree : Agree rel r r') :
    Agree rel (if c ≠ d then fail code size else r)
      (if (c :: rest).head? = some d then r' else Json.fail code (c :: rest)) := by
  rw [ite_not]
  exact agree_symbol d hagree (agree_fail code h)

/-- Ranges that can grow. -/
abbrev always : Ty → ℤ → Value N → Bool := fun _ _ _ => true

variable (shape fromChars fresh text) in
structure Agrees (fuel : ℕ) : Prop where
  value : ∀ t rest size x, At text rest size → Agree (Result text)
    (readValue shape fromChars fresh always text fuel t size x)
    (Json.readValue shape fromChars fresh fuel t rest x)
  elements : ∀ element rest size x, At text rest size → Agree (Result text)
    (readElements shape fromChars fresh always text fuel element size x)
    (Json.readElements shape fromChars fresh fuel element rest x)
  items : ∀ i t ts rest size x, At text rest size → Agree (Result text)
    (readItems shape fromChars fresh always text fuel i t ts size x)
    (Json.readItems shape fromChars fresh fuel i t ts rest x)
  members : ∀ table rest size x, At text rest size → Agree (Result text)
    (readMembers shape fromChars fresh always text fuel table size x)
    (Json.readMembers shape fromChars fresh fuel table rest x)

variable {fuel : ℕ}

theorem Agrees.readValue (h : Agrees text shape fromChars fresh fuel)
    (hwithin : StaysWithin fromChars) (t : Ty) (x : Value N) (hat : At text rest size) :
    Agree (Result text) (readValue shape fromChars fresh always text (fuel + 1) t size x)
      (Json.readValue shape fromChars fresh (fuel + 1) t rest x) := by
  rw [JsonBounds.readValue, Json.readValue]
  refine (agree_skipWhitespace hat).bind (fun size rest hskip hr => ?_) fun e he => by rw [he]
  obtain ⟨hat, c, cs, rfl⟩ := hskip
  rw [hr]
  dsimp only
  cases shape t with
  | bool => exact agree_readBool hat
  | number kind => exact agree_readNumber hwithin kind hat
  | enum table => exact agree_readEnum table hat
  | string => exact agree_readText hat
  | range element =>
    dsimp only
    rw [hat.peek, ok_bind]
    refine agree_expect _ _ hat ?_
    refine (agree_skipWhitespace hat.tail).bind (fun size rest hskip hr => ?_) fun e he => by
      rw [List.tail_cons, he]
    obtain ⟨hat, c, cs, rfl⟩ := hskip
    rw [List.tail_cons, hr, hat.peek, ok_bind]
    exact agree_symbol _ ⟨hat.tail, rfl⟩ (h.elements element _ _ x hat)
  | tuple first rest =>
    dsimp only
    rw [hat.peek, ok_bind]
    exact agree_expect _ _ hat (h.items 0 first rest _ _ x hat.tail)
  | members table =>
    dsimp only
    rw [hat.peek, ok_bind]
    exact agree_expect _ _ hat (h.members table _ _ x hat.tail)

theorem Agrees.readElements (h : Agrees text shape fromChars fresh fuel) (element : Ty)
    (x : Value N) (hat : At text rest size) :
    Agree (Result text)
      (readElements shape fromChars fresh always text (fuel + 1) element size x)
      (Json.readElements shape fromChars fresh (fuel + 1) element rest x) := by
  rw [JsonBounds.readElements, Json.readElements, if_pos rfl]
  refine (h.value element rest size (fresh element) hat).bind (fun r r' hr hr' => ?_) fun e he => by
    rw [he]
  obtain ⟨size, y⟩ := r
  obtain ⟨rest, y'⟩ := r'
  obtain ⟨hat, rfl⟩ := hr
  rw [hr']
  cases rest with
  | nil =>
    rw [if_pos hat.at_end]
    exact ⟨hat, rfl⟩
  | cons c cs =>
    rw [if_neg hat.not_at_end]
    refine (agree_skipWhitespace hat).bind (fun size rest hskip hr => ?_) fun e he => by
      dsimp only
      rw [he]
    obtain ⟨hat, c, cs, rfl⟩ := hskip
    dsimp only
    rw [hr, hat.peek, ok_bind]
    exact agree_symbol _ (h.elements element _ _ _ hat.tail)
      (agree_symbol _ ⟨hat.tail, rfl⟩ (agree_fail _ hat))

theorem Agrees.readItems (h : Agrees text shape fromChars fresh fuel) (i : ℕ) (t : Ty)
    (ts : List Ty) (x : Value N) (hat : At text rest size) :
    Agree (Result text) (readItems shape fromChars fresh always text (fuel + 1) i t ts size x)
      (Json.readItems shape fromChars fresh (fuel + 1) i t ts rest x) := by
  rw [JsonBounds.readItems.eq_def, Json.readItems.eq_def]
  refine (h.value t rest size (x.item i) hat).bind (fun r r' hr hr' => ?_) fun e he => by
    dsimp only
    rw [he]
  obtain ⟨size, y⟩ := r
  obtain ⟨rest, y'⟩ := r'
  obtain ⟨hat, rfl⟩ := hr
  dsimp only
  rw [hr']
  cases rest with
  | nil =>
    rw [if_pos hat.at_end]
    exact ⟨hat, rfl⟩
  | cons c cs =>
    rw [if_neg hat.not_at_end]
    refine (agree_skipWhitespace hat).bind (fun size rest hskip hr => ?_) fun e he => by
      dsimp only
      rw [he]
    obtain ⟨hat, c, cs, rfl⟩ := hskip
    dsimp only
    rw [hr, hat.peek, ok_bind]
    cases ts with
    | nil => exact agree_symbol _ ⟨hat.tail, rfl⟩ (agree_fail _ hat)
    | cons t' ts =>
      exact agree_symbol _ (h.items (i + 1) t' ts _ _ _ hat.tail) (agree_fail _ hat)

theorem Agrees.readMembers (h : Agrees text shape fromChars fresh fuel) (table : List (Text × Ty))
    (x : Value N) (hat : At text rest size) :
    Agree (Result text)
      (readMembers shape fromChars fresh always text (fuel + 1) table size x)
      (Json.readMembers shape fromChars fresh (fuel + 1) table rest x) := by
  rw [JsonBounds.readMembers, Json.readMembers]
  refine (agree_skipWhitespace hat).bind (fun size rest hskip hr => ?_) fun e he => by rw [he]
  obtain ⟨hbegin, c, cs, rfl⟩ := hskip
  rw [hr]
  dsimp only
  refine (agree_readString hbegin).bind (fun key key' hkey hr => ?_) fun e he => by rw [he]
  obtain ⟨last, name⟩ := key
  obtain ⟨name', behind⟩ := key'
  obtain ⟨hat, rfl⟩ := hkey
  rw [hr]
  dsimp only
  cases findMember table name with
  | none => exact agree_fail _ hbegin
  | some member =>
    dsimp only
    refine (agree_skipWhitespace hat).bind (fun size rest hskip hr => ?_) fun e he => by
      dsimp only at he
      rw [he]
    obtain ⟨hat, c, cs, rfl⟩ := hskip
    dsimp only at hr
    rw [hr, hat.peek, ok_bind]
    refine agree_expect _ _ hat ?_
    refine (h.value member.2 cs (size + 1) (x.item member.1) hat.tail).bind
      (fun r r' hr hr' => ?_) fun e he => by rw [List.tail_cons, he]
    obtain ⟨size, y⟩ := r
    obtain ⟨rest, y'⟩ := r'
    obtain ⟨hat, rfl⟩ := hr
    rw [List.tail_cons, hr']
    cases rest with
    | nil =>
      rw [if_pos hat.at_end]
      exact ⟨hat, rfl⟩
    | cons c cs =>
      rw [if_neg hat.not_at_end]
      refine (agree_skipWhitespace hat).bind (fun size rest hskip hr => ?_) fun e he => by
        dsimp only
        rw [he]
      obtain ⟨hat, c, cs, rfl⟩ := hskip
      dsimp only
      rw [hr, hat.peek, ok_bind]
      exact agree_symbol _ (h.members table _ _ _ hat.tail)
        (agree_symbol _ ⟨hat.tail, rfl⟩ (agree_fail _ hat))

theorem agrees (text : Text) (shape : Ty → Shape Ty Kind) (fresh : Ty → Value N)
    (hwithin : StaysWithin fromChars) (fuel : ℕ) : Agrees text shape fromChars fresh fuel := by
  induction fuel with
  | zero => exact ⟨fun _ _ _ _ _ => rfl, fun _ _ _ _ _ => rfl, fun _ _ _ _ _ _ _ => rfl,
      fun _ _ _ _ _ => rfl⟩
  | succ fuel ih =>
    exact ⟨fun t _ _ x hat => ih.readValue hwithin t x hat,
      fun element _ _ x hat => ih.readElements element x hat,
      fun i t ts _ _ x hat => ih.readItems i t ts x hat,
      fun table _ _ x hat => ih.readMembers table x hat⟩

/-- The value is that of the structurer without positions, and an error is reported where its text
has been left. -/
theorem structureJson_eq (shape : Ty → Shape Ty Kind) (fresh : Ty → Value N)
    (hwithin : StaysWithin fromChars) (text : Text) (t : Ty) (x : Value N) :
    structureJson shape fromChars fresh always text t x =
      match Json.structureJson shape fromChars fresh t text x with
      | .ok y => .ok (.inl y)
      | .error (.text code remaining) =>
        (findRowAndCol text (-(remaining : ℤ))).map fun p => .inr (code, p)
      | .error .outOfFuel => .error (.scan .outOfFuel) := by
  have hagree := (agrees text shape fresh hwithin (2 * text.length + 1)).value t text
    (-(text.length : ℤ)) x ⟨List.suffix_rfl, rfl⟩
  rw [structureJson, Json.structureJson, Json.structureFuel]
  generalize readValue shape fromChars fresh always text (2 * text.length + 1) t
    (-(text.length : ℤ)) x = r at hagree ⊢
  generalize Json.readValue shape fromChars fresh (2 * text.length + 1) t text x = r' at hagree ⊢
  cases r with
  | ok r =>
    cases r' with
    | ok r' =>
      obtain ⟨-, hvalue⟩ := hagree
      exact congrArg (fun y => Except.ok (Sum.inl y)) hvalue
    | error e' => exact hagree.elim
  | error e =>
    cases r' with
    | ok r' => exact hagree.elim
    | error e' =>
      cases e with
      | text code size =>
        cases e' with
        | text code' remaining =>
          obtain ⟨rfl, rfl⟩ := hagree
          dsimp only [Except.map]
          cases findRowAndCol text (-(remaining : ℤ)) with
          | ok p => rfl
          | error e => rfl
        | outOfFuel => exact hagree.elim
      | scan e =>
        cases e' with
        | text code' remaining => exact hagree.elim
        | outOfFuel =>
          obtain rfl : e = .outOfFuel := hagree
          rfl

/-- With positions as well, a text is accepted if it begins with a complete value or is cut off
behind a nested one. -/
theorem accepts_iff (shape : Ty → Shape Ty Kind) (fresh : Ty → Value N)
    (hwithin : StaysWithin fromChars) (text : Text) (t : Ty) (x : Value N) :
    (∃ y, structureJson shape fromChars fresh always text t x = .ok (.inl y)) ↔
      (∃ rest, Json.Complete shape fromChars (.value t) text rest) ∨
        Json.Cut shape fromChars (.value t) text := by
  have hok : (∃ y, Json.structureJson shape fromChars fresh t text x = .ok y) ↔ _ :=
    Json.structureJson_ok_iff t text x
  rw [← hok, structureJson_eq shape fresh hwithin]
  cases hread : Json.structureJson shape fromChars fresh t text x with
  | ok y => exact ⟨fun _ => ⟨y, rfl⟩, fun _ => ⟨y, rfl⟩⟩
  | error e =>
    refine iff_of_false ?_ fun h => by
      obtain ⟨y, h⟩ := h
      cases h
    rintro ⟨y, h⟩
    cases e with
    | text code remaining =>
      dsimp only at h
      cases hrow : findRowAndCol text (-(remaining : ℤ)) with
      | ok p =>
        rw [hrow] at h
        cases h
      | error e =>
        rw [hrow] at h
        cases h
    | outOfFuel => cases h

end Structure

end Fimbulwinter.JsonBounds
