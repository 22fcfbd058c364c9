import Fimbulwinter.TextScan
import Fimbulwinter.JsonStructurer

/-! # Where `core::structure_json` reads

The structurer with its positions, which are offsets from the end of the text. What it reads,
compares and views is checked to be inside. -/
namespace Fimbulwinter.JsonBounds

open Json (Text Shape Value ErrorCode findMember space quote comma colon openBracket backslash
  closeBracket openBrace closeBrace trueText falseText)
open Scan (readBack viewBack findBack)

/-- An error in the text, with `error_.where`, or something that should not happen. -/
inductive Failure
  | text (code : ErrorCode) (size : ℤ)
  | scan (e : Scan.Failure)
  deriving DecidableEq, Repr

variable {α β : Type}

/-- `error` -/
def fail (code : ErrorCode) (size : ℤ) : Except Failure α := .error (.text code size)

/-- `*(end + size)` -/
def peek (text : Text) (size : ℤ) : Except Failure UInt8 := (readBack text size).mapError .scan

def view (text : Text) (first last : ℤ) : Except Failure Text :=
  (viewBack text first last).mapError .scan

def find (text : Text) (size : ℤ) (c : UInt8) : Except Failure ℤ :=
  (findBack text size c).mapError .scan

/-- The loop of `skip_whitespace`. -/
def skipFrom (text : Text) : ℕ → ℤ → Except Failure ℤ
  | 0, _ => .error (.scan .outOfFuel)
  | fuel + 1, size =>
    if 0 ≤ size then fail .unexpectedEof size
    else do
      let c ← peek text size
      if c ≤ space then skipFrom text fuel (size + 1) else .ok size

/-- `skip_whitespace` -/
def skipWhitespace (text : Text) (size : ℤ) : Except Failure ℤ :=
  skipFrom text (text.length + 1) size

/-- The loop of `read_string`, from a quote to the one that closes the string. The characters in
front of a quote are only looked at while there are backslashes behind them. -/
def closingQuote (text : Text) : ℕ → ℤ → Except Failure ℤ
  | 0, _ => .error (.scan .outOfFuel)
  | fuel + 1, size => do
    let found ← find text (size + 1) quote
    if found = 0 then fail .unexpectedEof (size + 1)
    else do
      let c ← peek text (found - 1)
      if c ≠ backslash then .ok found
      else do
        let c ← peek text (found - 2)
        if c = backslash then do
          let c ← peek text (found - 3)
          if c ≠ backslash then .ok found
          else do
            let c ← peek text (found - 4)
            if c = backslash then fail .unexpectedError found else closingQuote text fuel found
        else closingQuote text fuel found

/-- `read_string`: where the closing quote is, and the string. -/
def readString (text : Text) (size : ℤ) : Except Failure (ℤ × Text) := do
  let c ← peek text size
  if c ≠ quote then fail .expectedString size
  else do
    let last ← closingQuote text (text.length + 1) size
    let x ← view text (size + 1) last
    .ok (last, x)

section Structure

variable {Ty Kind : Type*} {N : Type} (shape : Ty → Shape Ty Kind)
  (fromChars : Kind → Text → Option (N × ℕ)) (fresh : Ty → Value N)
  (grows : Ty → ℤ → Value N → Bool) (text : Text)

/-- The second half of `read_value` for truth values. -/
def readFalse (size : ℤ) : Except Failure (ℤ × Value N) :=
  if size ≤ -5 then do
    let word ← view text size (size + 4)
    if word = falseText.take 4 then do
      let c ← peek text (size + 5 - 1)
      if c = 0x65 then .ok (size + 5, .bool false) else fail .unexpectedValue size
    else fail .unexpectedValue size
  else fail .unexpectedValue size

def readBool (size : ℤ) : Except Failure (ℤ × Value N) :=
  if size ≤ -4 then do
    let word ← view text size (size + 4)
    if word = trueText then .ok (size + 4, .bool true) else readFalse text size
  else readFalse text size

def readNumber (kind : Kind) (size : ℤ) : Except Failure (ℤ × Value N) := do
  let input ← view text size 0
  match fromChars kind input with
  | some (x, n) => if 0 < n then .ok (size + n, .number x) else fail .unexpectedValue size
  | none => fail .unexpectedValue size

def readEnum (table : List (Text × ℕ)) (size : ℤ) : Except Failure (ℤ × Value N) := do
  let r ← readString text size
  match table.find? fun p => p.1 = r.2 with
  | none => fail .unexpectedValue size
  | some p => .ok (r.1 + 1, .enum p.2)

def readText (size : ℤ) : Except Failure (ℤ × Value N) := do
  let r ← readString text size
  .ok (r.1 + 1, .string r.2)

mutual

/-- `read_value` -/
def readValue : ℕ → Ty → ℤ → Value N → Except Failure (ℤ × Value N)
  | 0, _, _, _ => .error (.scan .outOfFuel)
  | fuel + 1, t, size, x => do
    let size ← skipWhitespace text size
    match shape t with
    | .bool => readBool text size
    | .number kind => readNumber fromChars text kind size
    | .enum table => readEnum text table size
    | .string => readText text size
    | .range element => do
      let c ← peek text size
      if c ≠ openBracket then fail .expectedArray size
      else do
        let size ← skipWhitespace text (size + 1)
        let c ← peek text size
        if c = closeBracket then .ok (size + 1, x) else readElements fuel element size x
    | .tuple first rest => do
      let c ← peek text size
      if c ≠ openBracket then fail .expectedArray size
      else readItems fuel 0 first rest (size + 1) x
    | .members table => do
      let c ← peek text size
      if c ≠ openBrace then fail .expectedObject size else readMembers fuel table (size + 1) x

/-- The loop over the elements of a range, which may fail to grow. -/
def readElements : ℕ → Ty → ℤ → Value N → Except Failure (ℤ × Value N)
  | 0, _, _, _ => .error (.scan .outOfFuel)
  | fuel + 1, element, size, x =>
    if grows element size x then do
      let r ← readValue fuel element size (fresh element)
      if 0 ≤ r.1 then .ok (r.1, x.push r.2)
      else do
        let size ← skipWhitespace text r.1
        let c ← peek text size
        if c = comma then readElements fuel element (size + 1) (x.push r.2)
        else if c = closeBracket then .ok (size + 1, x.push r.2)
        else fail .unexpectedSymbol size
    else fail .unexpectedError size

/-- `read_value_tuple_impl`, behind the bracket or the comma. -/
def readItems : ℕ → ℕ → Ty → List Ty → ℤ → Value N → Except Failure (ℤ × Value N)
  | 0, _, _, _, _, _ => .error (.scan .outOfFuel)
  | fuel + 1, i, t, ts, size, x => do
    let r ← readValue fuel t size (x.item i)
    if 0 ≤ r.1 then .ok (r.1, x.setItem i r.2)
    else do
      let size ← skipWhitespace text r.1
      let c ← peek text size
      match ts with
      | [] =>
        if c = closeBracket then .ok (size + 1, x.setItem i r.2) else fail .expectedLess size
      | t :: ts =>
        if c = comma then readItems fuel (i + 1) t ts (size + 1) (x.setItem i r.2)
        else fail .expectedMore size

/-- The loop over the members of a class, behind the brace or a comma. -/
def readMembers : ℕ → List (Text × Ty) → ℤ → Value N → Except Failure (ℤ × Value N)
  | 0, _, _, _ => .error (.scan .outOfFuel)
  | fuel + 1, table, size, x => do
    let size ← skipWhitespace text size
    let key ← readString text size
    match findMember table key.2 with
    | none => fail .unexpectedKey size
    | some (i, t) => do
      let size ← skipWhitespace text (key.1 + 1)
      let c ← peek text size
      if c ≠ colon then fail .unexpectedSymbol size
      else do
        let r ← readValue fuel t (size + 1) (x.item i)
        if 0 ≤ r.1 then .ok (r.1, x.setItem i r.2)
        else do
          let size ← skipWhitespace text r.1
          let c ← peek text size
          if c = comma then readMembers fuel table (size + 1) (x.setItem i r.2)
          else if c = closeBrace then .ok (size + 1, x.setItem i r.2)
          else fail .unexpectedSymbol size

end

/-- The loops of `find_row_and_col`, up to the position `stop`. -/
def rowAndColFrom (stop : ℤ) : ℕ → ℤ → ℤ → ℤ → Except Failure (ℤ × ℤ)
  | 0, _, _, _ => .error (.scan .outOfFuel)
  | fuel + 1, size, m, n =>
    if 0 ≤ size + 1 then .ok (m + 1, 0 - n)
    else do
      let c ← peek text (stop + (size + 1))
      if c ≠ 0x0a then rowAndColFrom stop fuel (size + 1) m n
      else rowAndColFrom stop fuel (size + 1) (m + 1) (size + 1)

/-- `find_row_and_col`, as `report_text_error` uses it. -/
def findRowAndCol (stop : ℤ) : Except Failure (ℤ × ℤ) :=
  let size := -(text.length : ℤ) - stop
  if size < 0 then do
    let c ← peek text (stop + size)
    if c ≠ 0x0a then rowAndColFrom text stop (text.length + 1) size 0 (size - 1)
    else .ok (1, 0 - (size - 1))
  else .ok (1, 0 - (size - 1))

/-- `structure_json`: the value, or the row and the column of the error. -/
def structureJson (t : Ty) (x : Value N) :
    Except Failure (Value N ⊕ ErrorCode × ℤ × ℤ) :=
  match readValue shape fromChars fresh grows text (2 * text.length + 1) t (-(text.length : ℤ)) x with
  | .ok r => .ok (.inl r.2)
  | .error (.text code size) => do
    let p ← findRowAndCol text size
    .ok (.inr (code, p))
  | .error (.scan e) => .error (.scan e)

end Structure

/-! ## Reading inside -/

/-- What comes out is as it should be, or there is an error in the text. -/
def Safe (text : Text) (post : α → Prop) : Except Failure α → Prop
  | .ok a => post a
  | .error (.text _ size) => -(text.length : ℤ) ≤ size ∧ size ≤ 0
  | .error (.scan _) => False

variable {text : Text} {p : α → Prop} {q : β → Prop} {size first : ℤ}

theorem Safe.bind {r : Except Failure α} {f : α → Except Failure β} (hr : Safe text p r)
    (hf : ∀ a, p a → Safe text q (f a)) : Safe text q (r >>= f) := by
  cases r with
  | ok a => exact hf a hr
  | error e =>
    cases e with
    | text code size => exact hr
    | scan e => exact hr.elim

theorem Safe.mono {p' : α → Prop} {r : Except Failure α} (hr : Safe text p r)
    (h : ∀ a, p a → p' a) : Safe text p' r := by
  cases r with
  | ok a => exact h a hr
  | error e =>
    cases e with
    | text code size => exact hr
    | scan e => exact hr.elim

/-- The position is inside, or at the end. -/
structure Inside (text : Text) (size : ℤ) : Prop where
  first_le : -(text.length : ℤ) ≤ size
  le_last : size ≤ 0

theorem safe_fail (code : ErrorCode) (h : Inside text size) : Safe text p (fail code size) :=
  ⟨h.first_le, h.le_last⟩

theorem peek_ok (text : Text) (hfirst : -(text.length : ℤ) ≤ size) (hlast : size < 0) :
    ∃ c, peek text size = .ok c := by
  obtain ⟨c, hc⟩ := Scan.readBack_ok text hfirst hlast
  exact ⟨c, by rw [peek, hc]; rfl⟩

theorem safe_peek (hfirst : -(text.length : ℤ) ≤ size) (hlast : size < 0) :
    Safe text (fun c => peek text size = .ok c) (peek text size) := by
  obtain ⟨c, hc⟩ := peek_ok text hfirst hlast
  rw [hc]
  rfl

theorem safe_view {last : ℤ} (hfirst : -(text.length : ℤ) ≤ first) (hle : first ≤ last)
    (hlast : last ≤ 0) :
    Safe text (fun x => (x.length : ℤ) = last - first) (view text first last) := by
  obtain ⟨x, hx, hlength⟩ := Scan.viewBack_ok text hfirst hle hlast
  have hview : view text first last = .ok x := by rw [view, hx]; rfl
  rw [hview]
  exact hlength

theorem safe_find (c : UInt8) (h : Inside text size) :
    Safe text (fun found => size ≤ found ∧ found ≤ 0 ∧ (found ≠ 0 → peek text found = .ok c))
      (find text size c) := by
  obtain ⟨found, hfound, hle, hlast, hread⟩ := Scan.findBack_ok text c h.first_le h.le_last
  have hfind : find text size c = .ok found := by rw [find, hfound]; rfl
  rw [hfind]
  exact ⟨hle, hlast, fun hne => by rw [peek, hread hne]; rfl⟩

theorem safe_skipFrom {fuel : ℕ} (h : Inside text size) (hfuel : -size < fuel) :
    Safe text (fun size' => size ≤ size' ∧ size' < 0) (skipFrom text fuel size) := by
  induction fuel generalizing size with
  | zero =>
    have := h.le_last
    omega
  | succ fuel ih =>
    have hfirst := h.first_le
    rw [skipFrom]
    split_ifs with hend
    · exact safe_fail _ h
    · refine (safe_peek hfirst (by omega)).bind fun c _ => ?_
      split_ifs
      · exact (ih ⟨by omega, by omega⟩ (by omega)).mono fun size' h => ⟨by omega, h.2⟩
      · exact ⟨Int.le_refl size, by omega⟩

theorem safe_skipWhitespace (h : Inside text size) :
    Safe text (fun size' => size ≤ size' ∧ size' < 0) (skipWhitespace text size) := by
  have hfirst := h.first_le
  exact safe_skipFrom h (by omega)

/-- The characters that are looked at in front of a quote are behind the quote before it, or are
that quote, which is no backslash. -/
theorem safe_closingQuote {fuel : ℕ} (hfirst : -(text.length : ℤ) ≤ size) (hlast : size < 0)
    (hquote : peek text size = .ok quote) (hfuel : -size < fuel) :
    Safe text (fun last => size < last ∧ last < 0) (closingQuote text fuel size) := by
  induction fuel generalizing size with
  | zero => omega
  | succ fuel ih =>
    have hbackslash : ∀ {i : ℤ}, size ≤ i → peek text i = .ok backslash → size ≤ i - 1 := by
      intro i hle hi
      by_cases heq : i = size
      · rw [heq, hquote] at hi
        cases hi
      · omega
    rw [closingQuote]
    refine (safe_find quote ⟨by omega, by omega⟩).bind fun found hfound => ?_
    obtain ⟨hle, hend, hfound⟩ := hfound
    split_ifs with hzero
    · exact safe_fail _ ⟨by omega, by omega⟩
    have hclosed : Safe text (fun last => size < last ∧ last < 0) (.ok found) :=
      ⟨by omega, by omega⟩
    have hagain : Safe text (fun last => size < last ∧ last < 0) (closingQuote text fuel found) :=
      (ih (by omega) (by omega) (hfound hzero) (by omega)).mono fun last h => ⟨by omega, h.2⟩
    have hone : size ≤ found - 1 := by omega
    refine (safe_peek (by omega) (by omega)).bind fun c hc => ?_
    split_ifs with hnot
    · exact hclosed
    rw [not_not] at hnot
    have htwo : size ≤ found - 1 - 1 := hbackslash hone (hnot ▸ hc)
    refine (safe_peek (by omega) (by omega)).bind fun c hc => ?_
    split_ifs with hescaped
    swap
    · exact hagain
    have hthree : size ≤ found - 2 - 1 := hbackslash (by omega) (hescaped ▸ hc)
    refine (safe_peek (by omega) (by omega)).bind fun c hc => ?_
    split_ifs with hnot
    · exact hclosed
    rw [not_not] at hnot
    have hfour : size ≤ found - 3 - 1 := hbackslash (by omega) (hnot ▸ hc)
    refine (safe_peek (by omega) (by omega)).bind fun c hc => ?_
    split_ifs
    · exact safe_fail _ ⟨by omega, by omega⟩
    · exact hagain

theorem safe_readString (hfirst : -(text.length : ℤ) ≤ size) (hlast : size < 0) :
    Safe text (fun r => size < r.1 ∧ r.1 < 0) (readString text size) := by
  rw [readString]
  refine (safe_peek hfirst hlast).bind fun c hc => ?_
  split_ifs with hquote
  · exact safe_fail _ ⟨hfirst, by omega⟩
  rw [not_not] at hquote
  refine (safe_closingQuote hfirst hlast (hquote ▸ hc) (by omega)).bind fun last h => ?_
  exact (safe_view (by omega) (by omega) (by omega)).bind fun x _ => h

/-! ## Values -/

variable {Ty Kind : Type*} {N : Type} {shape : Ty → Shape Ty Kind}
  {fromChars : Kind → Text → Option (N × ℕ)} {fresh : Ty → Value N}
  {grows : Ty → ℤ → Value N → Bool}

/-- Something has been read, and what is behind it is inside. -/
def Passes (text : Text) (size : ℤ) (r : Except Failure (ℤ × Value N)) : Prop :=
  Safe text (fun r => size < r.1 ∧ r.1 ≤ 0) r

theorem Passes.mono {r : Except Failure (ℤ × Value N)} (h : Passes text size r)
    (hle : first ≤ size) :
    Passes text first r :=
  Safe.mono h fun _ h => ⟨by omega, h.2⟩

theorem passes_fail (code : ErrorCode) (h : Inside text size) :
    Passes text first (fail code size : Except Failure (ℤ × Value N)) :=
  safe_fail code h

theorem passes_readFalse (hfirst : -(text.length : ℤ) ≤ size) (hlast : size < 0) :
    Passes text size (readFalse text size : Except Failure (ℤ × Value N)) := by
  have hfail : Passes text size (fail .unexpectedValue size : Except Failure (ℤ × Value N)) :=
    passes_fail _ ⟨hfirst, by omega⟩
  rw [readFalse]
  split_ifs with hlong
  swap
  · exact hfail
  refine (safe_view hfirst (by omega) (by omega)).bind fun word _ => ?_
  split_ifs
  swap
  · exact hfail
  refine (safe_peek (by omega) (by omega)).bind fun c _ => ?_
  split_ifs
  · exact ⟨by omega, by omega⟩
  · exact hfail

theorem passes_readBool (hfirst : -(text.length : ℤ) ≤ size) (hlast : size < 0) :
    Passes text size (readBool text size : Except Failure (ℤ × Value N)) := by
  rw [readBool]
  split_ifs with hlong
  swap
  · exact passes_readFalse hfirst hlast
  refine (safe_view hfirst (by omega) (by omega)).bind fun word _ => ?_
  split_ifs
  · exact ⟨by omega, by omega⟩
  · exact passes_readFalse hfirst hlast

/-- `fio::from_chars` stays within the range that it is given. -/
def StaysWithin (fromChars : Kind → Text → Option (N × ℕ)) : Prop :=
  ∀ kind input x n, fromChars kind input = some (x, n) → n ≤ input.length

theorem passes_readNumber (hwithin : StaysWithin fromChars) (kind : Kind)
    (hfirst : -(text.length : ℤ) ≤ size) (hlast : size < 0) :
    Passes text size (readNumber fromChars text kind size) := by
  have hfail : Passes text size (fail .unexpectedValue size : Except Failure (ℤ × Value N)) :=
    passes_fail _ ⟨hfirst, by omega⟩
  rw [readNumber]
  refine (safe_view hfirst (by omega) (Int.le_refl 0)).bind fun input hinput => ?_
  split
  next x n hx =>
    split_ifs with hpos
    · have hle := hwithin kind input x n hx
      exact ⟨by omega, by omega⟩
    · exact hfail
  next => exact hfail

theorem passes_readEnum (table : List (Text × ℕ)) (hfirst : -(text.length : ℤ) ≤ size)
    (hlast : size < 0) :
    Passes text size (readEnum text table size : Except Failure (ℤ × Value N)) := by
  rw [readEnum]
  refine (safe_readString hfirst hlast).bind fun r hr => ?_
  split
  · exact passes_fail _ ⟨hfirst, by omega⟩
  · exact ⟨by omega, by omega⟩

theorem passes_readText (hfirst : -(text.length : ℤ) ≤ size) (hlast : size < 0) :
    Passes text size (readText text size : Except Failure (ℤ × Value N)) := by
  rw [readText]
  refine (safe_readString hfirst hlast).bind fun r hr => ?_
  exact ⟨by omega, by omega⟩

variable (shape fromChars fresh grows text) in
/-- With so much fuel every value, and every loop over values, stays inside. -/
structure Stays (fuel : ℕ) : Prop where
  value : ∀ t size x, Inside text size → 2 * -size + 1 ≤ fuel →
    Passes text size (readValue shape fromChars fresh grows text fuel t size x)
  elements : ∀ element size x, Inside text size → 2 * -size + 2 ≤ fuel →
    Passes text size (readElements shape fromChars fresh grows text fuel element size x)
  items : ∀ i t ts size x, Inside text size → 2 * -size + 2 ≤ fuel →
    Passes text size (readItems shape fromChars fresh grows text fuel i t ts size x)
  members : ∀ table size x, Inside text size → 2 * -size + 2 ≤ fuel →
    Passes text size (readMembers shape fromChars fresh grows text fuel table size x)

variable {fuel : ℕ}

theorem Stays.readValue (h : Stays text shape fromChars fresh grows fuel)
    (hwithin : StaysWithin fromChars) (t : Ty) (x : Value N) (hsize : Inside text size)
    (hfuel : 2 * -size ≤ fuel) :
    Passes text size (readValue shape fromChars fresh grows text (fuel + 1) t size x) := by
  have hfirst := hsize.first_le
  rw [JsonBounds.readValue]
  refine (safe_skipWhitespace hsize).bind fun size' hskip => ?_
  obtain ⟨hle, hlast⟩ := hskip
  have hfirst' : -(text.length : ℤ) ≤ size' := by omega
  have hfail : ∀ code, Passes text size (fail code size' : Except Failure (ℤ × Value N)) :=
    fun code => passes_fail code ⟨hfirst', by omega⟩
  split
  next => exact (passes_readBool hfirst' hlast).mono hle
  next kind _ => exact (passes_readNumber hwithin kind hfirst' hlast).mono hle
  next table _ => exact (passes_readEnum table hfirst' hlast).mono hle
  next => exact (passes_readText hfirst' hlast).mono hle
  next element _ =>
    refine (safe_peek hfirst' hlast).bind fun c _ => ?_
    split_ifs
    · exact hfail _
    refine (safe_skipWhitespace ⟨by omega, by omega⟩).bind fun size'' hskip => ?_
    refine (safe_peek (by omega) hskip.2).bind fun c _ => ?_
    split_ifs
    · exact ⟨by omega, by omega⟩
    · exact (h.elements element size'' x ⟨by omega, by omega⟩ (by omega)).mono (by omega)
  next first rest _ =>
    refine (safe_peek hfirst' hlast).bind fun c _ => ?_
    split_ifs
    · exact hfail _
    · exact (h.items 0 first rest (size' + 1) x ⟨by omega, by omega⟩ (by omega)).mono (by omega)
  next table _ =>
    refine (safe_peek hfirst' hlast).bind fun c _ => ?_
    split_ifs
    · exact hfail _
    · exact (h.members table (size' + 1) x ⟨by omega, by omega⟩ (by omega)).mono (by omega)

theorem Stays.readElements (h : Stays text shape fromChars fresh grows fuel) (element : Ty)
    (x : Value N) (hsize : Inside text size) (hfuel : 2 * -size + 1 ≤ fuel) :
    Passes text size (readElements shape fromChars fresh grows text (fuel + 1) element size x) := by
  have hfirst := hsize.first_le
  rw [JsonBounds.readElements]
  split_ifs
  swap
  · exact passes_fail _ hsize
  refine (h.value element size (fresh element) hsize hfuel).bind fun r hr => ?_
  split_ifs
  · exact hr
  refine (safe_skipWhitespace ⟨by omega, hr.2⟩).bind fun size' hskip => ?_
  refine (safe_peek (by omega) hskip.2).bind fun c _ => ?_
  split_ifs
  · exact (h.elements element (size' + 1) (x.push r.2) ⟨by omega, by omega⟩ (by omega)).mono (by omega)
  · exact ⟨by omega, by omega⟩
  · exact passes_fail _ ⟨by omega, by omega⟩

theorem Stays.readItems (h : Stays text shape fromChars fresh grows fuel) (i : ℕ) (t : Ty)
    (ts : List Ty) (x : Value N) (hsize : Inside text size) (hfuel : 2 * -size + 1 ≤ fuel) :
    Passes text size (readItems shape fromChars fresh grows text (fuel + 1) i t ts size x) := by
  have hfirst := hsize.first_le
  rw [JsonBounds.readItems.eq_def]
  refine (h.value t size (x.item i) hsize hfuel).bind fun r hr => ?_
  split_ifs
  · exact hr
  refine (safe_skipWhitespace ⟨by omega, hr.2⟩).bind fun size' hskip => ?_
  refine (safe_peek (by omega) hskip.2).bind fun c _ => ?_
  cases ts with
  | nil =>
    dsimp only
    split_ifs
    · exact ⟨by omega, by omega⟩
    · exact passes_fail _ ⟨by omega, by omega⟩
  | cons t' ts =>
    dsimp only
    split_ifs
    · exact (h.items (i + 1) t' ts (size' + 1) (x.setItem i r.2) ⟨by omega, by omega⟩
        (by omega)).mono (by omega)
    · exact passes_fail _ ⟨by omega, by omega⟩

theorem Stays.readMembers (h : Stays text shape fromChars fresh grows fuel)
    (table : List (Text × Ty)) (x : Value N) (hsize : Inside text size)
    (hfuel : 2 * -size + 1 ≤ fuel) :
    Passes text size (readMembers shape fromChars fresh grows text (fuel + 1) table size x) := by
  have hfirst := hsize.first_le
  rw [JsonBounds.readMembers]
  refine (safe_skipWhitespace hsize).bind fun size' hskip => ?_
  refine (safe_readString (by omega) hskip.2).bind fun key hkey => ?_
  split
  next => exact passes_fail _ ⟨by omega, by omega⟩
  next i t _ =>
    refine (safe_skipWhitespace ⟨by omega, by omega⟩).bind fun colonSize hcolon => ?_
    refine (safe_peek (by omega) hcolon.2).bind fun c _ => ?_
    split_ifs
    · exact passes_fail _ ⟨by omega, by omega⟩
    refine (h.value t (colonSize + 1) (x.item i) ⟨by omega, by omega⟩ (by omega)).bind
      fun r hr => ?_
    split_ifs
    · exact ⟨by omega, hr.2⟩
    refine (safe_skipWhitespace ⟨by omega, hr.2⟩).bind fun next hnext => ?_
    refine (safe_peek (by omega) hnext.2).bind fun c _ => ?_
    split_ifs
    · exact (h.members table (next + 1) (x.setItem i r.2) ⟨by omega, by omega⟩ (by omega)).mono
        (by omega)
    · exact ⟨by omega, by omega⟩
    · exact passes_fail _ ⟨by omega, by omega⟩

theorem stays (text : Text) (shape : Ty → Shape Ty Kind) (fresh : Ty → Value N)
    (grows : Ty → ℤ → Value N → Bool) (hwithin : StaysWithin fromChars) (fuel : ℕ) :
    Stays text shape fromChars fresh grows fuel := by
  induction fuel with
  | zero =>
    constructor
    all_goals
      intros
      have := Inside.le_last ‹_›
      omega
  | succ fuel ih =>
    refine ⟨?_, ?_, ?_, ?_⟩
    · exact fun t size x hsize hfuel => ih.readValue hwithin t x hsize (by omega)
    · exact fun element size x hsize hfuel => ih.readElements element x hsize (by omega)
    · exact fun i t ts size x hsize hfuel => ih.readItems i t ts x hsize (by omega)
    · exact fun table size x hsize hfuel => ih.readMembers table x hsize (by omega)

/-! ## The error's row and column -/

theorem rowAndColFrom_ok {stop : ℤ} (m n : ℤ) (hfirst : -(text.length : ℤ) ≤ stop + size)
    (hlast : stop ≤ 0) (hsize : size < 0) (hfuel : -size < fuel) :
    ∃ p, rowAndColFrom text stop fuel size m n = .ok p := by
  induction fuel generalizing size m n with
  | zero => omega
  | succ fuel ih =>
    rw [rowAndColFrom]
    split_ifs with hend
    · exact ⟨_, rfl⟩
    have hpeek : ∃ c, peek text (stop + (size + 1)) = .ok c := peek_ok text (by omega) (by omega)
    obtain ⟨c, hc⟩ := hpeek
    rw [hc]
    by_cases hline : c ≠ 0x0a
    · have hrows : ∃ p, rowAndColFrom text stop fuel (size + 1) m n = .ok p :=
        ih m n (by omega) (by omega) (by omega)
      obtain ⟨p, hp⟩ := hrows
      exact ⟨p, (if_pos hline).trans hp⟩
    · have hrows : ∃ p, rowAndColFrom text stop fuel (size + 1) (m + 1) (size + 1) = .ok p :=
        ih (m + 1) (size + 1) (by omega) (by omega) (by omega)
      obtain ⟨p, hp⟩ := hrows
      exact ⟨p, (if_neg hline).trans hp⟩

theorem findRowAndCol_ok {stop : ℤ} (h : Inside text stop) :
    ∃ p, findRowAndCol text stop = .ok p := by
  have hfirst := h.first_le
  have hlast := h.le_last
  rw [findRowAndCol]
  split_ifs with hsize
  swap
  · exact ⟨_, rfl⟩
  have hpeek : ∃ c, peek text (stop + (-(text.length : ℤ) - stop)) = .ok c :=
    peek_ok text (by omega) (by omega)
  obtain ⟨c, hc⟩ := hpeek
  rw [hc]
  by_cases hline : c ≠ 0x0a
  · have hrows : ∃ p, rowAndColFrom text stop (text.length + 1) (-(text.length : ℤ) - stop) 0
        (-(text.length : ℤ) - stop - 1) = .ok p :=
      rowAndColFrom_ok _ _ (by omega) hlast hsize (by omega)
    obtain ⟨p, hp⟩ := hrows
    exact ⟨p, (if_pos hline).trans hp⟩
  · exact ⟨_, if_neg hline⟩

/-- Every text is read to an end, and nothing outside of it. -/
theorem structureJson_inside (shape : Ty → Shape Ty Kind) (fresh : Ty → Value N)
    (grows : Ty → ℤ → Value N → Bool) (hwithin : StaysWithin fromChars) (text : Text) (t : Ty)
    (x : Value N) : ∃ r, structureJson shape fromChars fresh grows text t x = .ok r := by
  have hvalue := (stays text shape fresh grows hwithin (2 * text.length + 1)).value t
    (-(text.length : ℤ)) x ⟨Int.le_refl _, by omega⟩ (by omega)
  rw [structureJson]
  cases hread : readValue shape fromChars fresh grows text (2 * text.length + 1) t
      (-(text.length : ℤ)) x with
  | ok r => exact ⟨.inl r.2, rfl⟩
  | error e =>
    rw [hread] at hvalue
    cases e with
    | scan e => exact hvalue.elim
    | text code size =>
      obtain ⟨p, hp⟩ := findRowAndCol_ok ⟨hvalue.1, hvalue.2⟩
      refine ⟨.inr (code, p), ?_⟩
      dsimp only
      rw [hp]
      rfl

/-- One digit. -/
def digitFromChars (_ : Unit) : Text → Option (ℕ × ℕ)
  | c :: _ => if 0x30 ≤ c ∧ c ≤ 0x39 then some ((c - 0x30).toNat, 1) else none
  | [] => none

/-- A range of numbers that is cut off. -/
def numbersShape (nested : Bool) : Shape Bool Unit := if nested then .number () else .range true

theorem structureJson_inside_numbers : ∃ r, structureJson numbersShape digitFromChars
    (fun nested => if nested then .number 0 else .items []) (fun _ _ _ => true)
    [openBracket, 0x37, comma] false (.items []) = .ok r := by
  refine structureJson_inside _ _ _ (fun kind input x n h => ?_) _ _ _
  cases input with
  | nil => cases h
  | cons c cs =>
    rw [digitFromChars] at h
    split_ifs at h
    cases h
    exact Nat.succ_le_succ (Nat.zero_le _)

end Fimbulwinter.JsonBounds
