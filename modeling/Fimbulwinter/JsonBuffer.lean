import Fimbulwinter.JsonSerializer

/-! # How `core::serialize_json` fills a buffer

The position in the buffer is an offset from its end, and above it after a write that has
failed. What has been written is compared with the text of the value. -/
namespace Fimbulwinter.JsonBuffer

open Json (Text Shape Value quote comma colon space openBracket closeBracket openBrace closeBrace
  tab trueText falseText indentation)
open Ini (lineFeed)

structure Output where
  buffer : Text
  size : ℤ
  deriving DecidableEq, Repr

inductive Failure
  /-- Something outside the buffer is written, or outside of a literal is read. -/
  | outside
  /-- The value is not of its type. -/
  | mistyped
  deriving DecidableEq, Repr

/-- The data is put at `end + size`. -/
def put (data : Text) (out : Output) : Except Failure Output :=
  if 0 ≤ out.buffer.length + out.size ∧ out.size + data.length ≤ 0 then
    .ok ⟨out.buffer.take (out.buffer.length + out.size).toNat ++ data ++
      out.buffer.drop ((out.buffer.length + out.size).toNat + data.length),
      out.size + data.length⟩
  else .error .outside

/-- `write`, of a character -/
def writeChar (c : UInt8) (out : Output) : Except Failure Output :=
  if out.size < 0 then put [c] out else .ok out

/-- `write`; `ful::copy` fails, and writes nothing, when the data does not fit. -/
def write (data : Text) (out : Output) : Except Failure Output :=
  if out.size + data.length ≤ 0 then put data out else .ok { out with size := -out.size }

/-- `write_string` -/
def writeString (x : Text) (out : Output) : Except Failure Output := do
  let out ← writeChar quote out
  if 0 ≤ out.size then .ok out
  else do
    let out ← write x out
    if 0 ≤ out.size then .ok out else writeChar quote out

def tabs : Text := List.replicate 16 tab

/-- `ful::first` -/
def first (literal : Text) (n : ℕ) : Except Failure Text :=
  if n ≤ literal.length then .ok (literal.take n) else .error .outside

def separator : Text := [space, colon, space]

section Serializer

variable {Ty Kind N : Type*} (shape : Ty → Shape Ty Kind) (toChars : Kind → N → ℕ → Option Text)

/-- `fio::to_chars`, with how much room there is, gives what it has written. -/
def writeNumber (kind : Kind) (x : N) (out : Output) : Except Failure Output :=
  match toChars kind x (-out.size).toNat with
  | some data => put data out
  | none => .ok { out with size := -out.size }

mutual

/-- `write_value` -/
def writeValue (depth : ℕ) (t : Ty) : Value N → Output → Except Failure Output
  | .bool x, out =>
    match shape t with
    | .bool => write (if x then trueText else falseText) out
    | _ => .error .mistyped
  | .number x, out =>
    match shape t with
    | .number kind => writeNumber toChars kind x out
    | _ => .error .mistyped
  | .enum x, out =>
    match shape t with
    | .enum table =>
      match table.find? fun p => p.2 = x with
      | some p => writeString p.1 out
      | none => .error .mistyped
    | _ => .error .mistyped
  | .string x, out =>
    match shape t with
    | .string => writeString x out
    | _ => .error .mistyped
  | .items xs, out =>
    match shape t with
    | .range element =>
      if xs.isEmpty then write [openBracket, closeBracket] out
      else do
        let out ← writeChar openBracket out
        if 0 ≤ out.size then .ok out
        else do
          let out ← writeItems (depth + 1) true (List.replicate xs.length element) xs out
          if 0 ≤ out.size then .ok out else writeChar closeBracket out
    | .tuple first rest => do
      let out ← writeChar openBracket out
      if 0 ≤ out.size then .ok out
      else do
        let out ← writeItems (depth + 1) true (first :: rest) xs out
        if 0 ≤ out.size then .ok out else writeChar closeBracket out
    | .members table =>
      if table.isEmpty then write [openBrace, closeBrace] out
      else do
        let line ← first (openBrace :: lineFeed :: tabs) (2 + (depth + 1))
        let out ← write line out
        if 0 ≤ out.size then .ok out
        else do
          let out ← writeMembers (depth + 1) true table xs out
          if 0 ≤ out.size then .ok out
          else do
            let line ← first (lineFeed :: tabs) (depth + 1)
            let out ← write line out
            if 0 ≤ out.size then .ok out else writeChar closeBrace out
    | _ => .error .mistyped

/-- The loop over the elements of a range or the items of a tuple, which begins in front of the
end of the buffer. -/
def writeItems (depth : ℕ) (first : Bool) :
    List Ty → List (Value N) → Output → Except Failure Output
  | [], [], out => .ok out
  | t :: ts, x :: xs, out => do
    let out ← if first then .ok out else write [comma, space] out
    if 0 ≤ out.size then .ok out
    else do
      let out ← writeValue depth t x out
      if 0 ≤ out.size then .ok out else writeItems depth false ts xs out
  | _, _, _ => .error .mistyped

/-- The loop over the members of a class, at their depth. What comes of writing a key is not
looked at. -/
def writeMembers (depth : ℕ) (isFirst : Bool) :
    List (Text × Ty) → List (Value N) → Output → Except Failure Output
  | [], [], out => .ok out
  | (key, t) :: table, x :: xs, out => do
    let out ← if isFirst then .ok out else do
      let line ← first (comma :: lineFeed :: tabs) (2 + depth)
      write line out
    if 0 ≤ out.size then .ok out
    else do
      let out ← writeString key out
      let out ← write separator out
      if 0 ≤ out.size then .ok out
      else do
        let out ← writeValue depth t x out
        if 0 ≤ out.size then .ok out else writeMembers depth false table xs out
  | _, _, _ => .error .mistyped

end

/-- `serialize_json`: the length, and the buffer. -/
def serializeJson (t : Ty) (x : Value N) (buffer : Text) : Except Failure (ℤ × Text) := do
  let out ← writeValue shape toChars 0 t x ⟨buffer, -(buffer.length : ℤ)⟩
  if out.size < 0 then do
    let ended ← put [lineFeed] out
    .ok (out.size + 1 - -(buffer.length : ℤ), ended.buffer)
  else .ok (0, out.buffer)

/-! ## The parts of a value -/

inductive Part (Kind N : Type*)
  | text (x : Text)
  | number (kind : Kind) (x : N)
  /-- The name of a member, with its quotes and the colon. -/
  | key (x : Text)
  /-- A line with more tabs than the literal has. -/
  | beyond

mutual

/-- What is written one after another. -/
def parts (depth : ℕ) (t : Ty) : Value N → Option (List (Part Kind N))
  | .bool x =>
    match shape t with
    | .bool => some [.text (if x then trueText else falseText)]
    | _ => none
  | .number x =>
    match shape t with
    | .number kind => some [.number kind x]
    | _ => none
  | .enum x =>
    match shape t with
    | .enum table =>
      match table.find? fun p => p.2 = x with
      | some p => some [.text [quote], .text p.1, .text [quote]]
      | none => none
    | _ => none
  | .string x =>
    match shape t with
    | .string => some [.text [quote], .text x, .text [quote]]
    | _ => none
  | .items xs =>
    match shape t with
    | .range element =>
      if xs.isEmpty then some [.text [openBracket, closeBracket]]
      else
        match itemParts (depth + 1) true (List.replicate xs.length element) xs with
        | none => none
        | some ps => some (.text [openBracket] :: (ps ++ [.text [closeBracket]]))
    | .tuple first rest =>
      match itemParts (depth + 1) true (first :: rest) xs with
      | none => none
      | some ps => some (.text [openBracket] :: (ps ++ [.text [closeBracket]]))
    | .members table =>
      if table.isEmpty then some [.text [openBrace, closeBrace]]
      else
        match memberParts (depth + 1) true table xs with
        | none => none
        | some ps =>
          if 16 < depth + 1 then some [.beyond]
          else some (.text (openBrace :: indentation (depth + 2)) ::
            (ps ++ [.text (indentation (depth + 1)), .text [closeBrace]]))
    | _ => none

def itemParts (depth : ℕ) (first : Bool) : List Ty → List (Value N) → Option (List (Part Kind N))
  | [], [] => some []
  | t :: ts, x :: xs =>
    match parts depth t x with
    | none => none
    | some ps =>
      match itemParts depth false ts xs with
      | none => none
      | some more => some ((if first then [] else [.text [comma, space]]) ++ (ps ++ more))
  | _, _ => none

def memberParts (depth : ℕ) (isFirst : Bool) :
    List (Text × Ty) → List (Value N) → Option (List (Part Kind N))
  | [], [] => some []
  | (key, t) :: table, x :: xs =>
    match parts depth t x with
    | none => none
    | some ps =>
      match memberParts depth false table xs with
      | none => none
      | some more =>
        some ((if isFirst then [] else [.text (comma :: indentation (depth + 1))]) ++
          (.key key :: (ps ++ more)))
  | _, _ => none

end

def writePart : Part Kind N → Output → Except Failure Output
  | .text x, out => write x out
  | .number kind x, out => writeNumber toChars kind x out
  | .key x, out => do
    let out ← writeString x out
    write separator out
  | .beyond, _ => .error .outside

def writeParts : List (Part Kind N) → Output → Except Failure Output
  | [], out => .ok out
  | p :: ps, out => do
    let out ← writePart toChars p out
    if 0 ≤ out.size then .ok out else writeParts ps out

end Serializer

/-! ## All or nothing -/

section Parts

variable {Ty Kind N : Type*} (shape : Ty → Shape Ty Kind) (toChars : Kind → N → ℕ → Option Text)
  (text : Kind → N → Text)

/-- The complete text of a part. -/
def Part.full : Part Kind N → Text
  | .text x => x
  | .number kind x => text kind x
  | .key x => quote :: (x ++ quote :: separator)
  | .beyond => []

def fullText (ps : List (Part Kind N)) : Text := ps.flatMap (Part.full text)

/-- A name that does not fit behind its opening quote. -/
def Part.Lost : Part Kind N → ℕ → Prop
  | .key x, room => 1 < room ∧ room - 1 < x.length
  | _, _ => False

/-- How much room is left behind a part. Nothing is written behind one that does not fit, or that
leaves no room, but what comes behind the opening quote of a name that is lost. -/
def Part.left : Part Kind N → ℕ → Option ℕ
  | .text x, room => if x.length < room then some (room - x.length) else none
  | .number kind x, room =>
    match toChars kind x room with
    | some data => if data.length < room then some (room - data.length) else none
    | none => none
  | .key x, room =>
    if x.length + 5 < room then some (room - (x.length + 5))
    else if 1 < room ∧ room - 1 < x.length then some (room - 1)
    else none
  | .beyond, _ => none

/-- The writing comes to the end of the parts. -/
def Ends : ℕ → List (Part Kind N) → Prop
  | _, [] => True
  | room, p :: ps => ∃ room', p.left toChars room = some room' ∧ Ends room' ps

/-- It comes to a name that is lost. -/
def Loses : ℕ → List (Part Kind N) → Prop
  | _, [] => False
  | room, p :: ps => p.Lost room ∨ ∃ room', p.left toChars room = some room' ∧ Loses room' ps

/-- It comes to a line with too many tabs. -/
def GoesBeyond : ℕ → List (Part Kind N) → Prop
  | _, [] => False
  | room, p :: ps =>
    p = .beyond ∨ ∃ room', p.left toChars room = some room' ∧ GoesBeyond room' ps

/-- A name is lost and everything behind it is written, or a literal is left. -/
def GoesWrong (room : ℕ) (ps : List (Part Kind N)) : Prop :=
  GoesBeyond toChars room ps ∨ Ends toChars room ps ∧ Loses toChars room ps

/-- `fio::to_chars` writes the text of the number if it fits, and nothing if it does not. -/
structure Fits : Prop where
  text_eq : ∀ kind x room data, toChars kind x room = some data → data = text kind x
  length_le : ∀ kind x room data, toChars kind x room = some data → data.length ≤ room

/-- The whole text is there with its newline, or there is nothing. -/
def AllOrNothing (t : Ty) (x : Value N) (buffer : Text) : Prop :=
  ∃ n buffer', serializeJson shape toChars t x buffer = .ok (n, buffer') ∧
    buffer'.length = buffer.length ∧
    (n ≠ 0 → ∃ texts, Json.writeValue shape text 0 t x = some texts ∧
      n = (texts.flatten ++ [lineFeed]).length ∧ buffer'.take n.toNat = texts.flatten ++ [lineFeed]) ∧
    ∀ texts, Json.writeValue shape text 0 t x = some texts →
      buffer.length < (texts.flatten ++ [lineFeed]).length → n = 0

end Parts

/-! ## Values are written part by part -/

variable {Ty Kind N : Type*} {shape : Ty → Shape Ty Kind} {toChars : Kind → N → ℕ → Option Text}
  {out : Output}

theorem writeChar_eq (c : UInt8) (h : out.size ≤ 0) : writeChar c out = write [c] out := by
  rw [writeChar, write]
  by_cases hlt : out.size < 0
  · have hfits : out.size + ([c] : Text).length ≤ 0 := by
      rw [List.length_singleton]
      omega
    rw [if_pos hlt, if_pos hfits]
  · have hzero : out.size = 0 := by omega
    rw [if_neg hlt, if_neg (by rw [hzero, List.length_singleton]; decide)]
    obtain ⟨buffer, size⟩ := out
    obtain rfl : size = 0 := hzero
    rfl

/-- Something more is written unless a write has failed. -/
def andThen (r : Except Failure Output) (f : Output → Except Failure Output) :
    Except Failure Output :=
  r >>= fun out => if 0 ≤ out.size then .ok out else f out

theorem andThen_ok (f : Output → Except Failure Output) :
    andThen (.ok out) f = if 0 ≤ out.size then .ok out else f out := rfl

theorem andThen_assoc (r : Except Failure Output) (f g : Output → Except Failure Output) :
    andThen (andThen r f) g = andThen r fun out => andThen (f out) g := by
  cases r with
  | error e => rfl
  | ok out =>
    rw [andThen_ok, andThen_ok]
    by_cases hend : 0 ≤ out.size
    · rw [if_pos hend, if_pos hend, andThen_ok, if_pos hend]
    · rw [if_neg hend, if_neg hend]

theorem andThen_congr {f g : Output → Except Failure Output} (r : Except Failure Output)
    (h : ∀ out : Output, out.size < 0 → f out = g out) : andThen r f = andThen r g := by
  cases r with
  | error e => rfl
  | ok out =>
    rw [andThen_ok, andThen_ok]
    split_ifs with hend
    · rfl
    · exact h out (by omega)

theorem andThen_of_neg (f : Output → Except Failure Output) (h : out.size < 0) :
    andThen (.ok out) f = f out := if_neg (by omega)

theorem andThen_pure (r : Except Failure Output) : andThen r .ok = r := by
  cases r with
  | error e => rfl
  | ok out => exact ite_self _

theorem writeParts_cons (p : Part Kind N) (ps : List (Part Kind N)) (out : Output) :
    writeParts toChars (p :: ps) out = andThen (writePart toChars p out) (writeParts toChars ps) := rfl

theorem writeParts_append (ps qs : List (Part Kind N)) (h : out.size < 0) :
    writeParts toChars (ps ++ qs) out =
      andThen (writeParts toChars ps out) (writeParts toChars qs) := by
  induction ps generalizing out with
  | nil => exact (andThen_of_neg _ h).symm
  | cons p ps ih =>
    rw [List.cons_append, writeParts_cons, writeParts_cons, andThen_assoc]
    exact andThen_congr _ fun out hlt => ih hlt

/-- A string in quotes, as three parts. -/
theorem writeString_eq (x : Text) (h : out.size ≤ 0) :
    writeString x out = writeParts toChars [.text [quote], .text x, .text [quote]] out := by
  have hclose : ∀ out : Output, out.size < 0 →
      writeChar quote out = writeParts toChars [.text [quote]] out := by
    intro out hlt
    rw [writeParts_cons, writeChar_eq quote (by omega)]
    exact (andThen_pure _).symm
  have hopen : writeChar quote out = writePart toChars (.text [quote]) out := writeChar_eq quote h
  rw [writeParts_cons, ← hopen]
  refine andThen_congr _ fun out _ => ?_
  rw [writeParts_cons]
  exact andThen_congr _ hclose

theorem writeParts_single (p : Part Kind N) (out : Output) :
    writeParts toChars [p] out = writePart toChars p out := andThen_pure _

theorem first_line (c : UInt8) {depth : ℕ} (h : depth ≤ 16) :
    first (c :: lineFeed :: tabs) (2 + depth) = .ok (c :: indentation (depth + 1)) := by
  have hlength : 2 + depth ≤ (c :: lineFeed :: tabs).length := by
    simp [tabs]
    omega
  have hsucc : 2 + depth = depth + 1 + 1 := by omega
  rw [first, if_pos hlength, hsucc, List.take_succ_cons]
  rfl

theorem first_indentation {depth : ℕ} (h : depth ≤ 16) :
    first (lineFeed :: tabs) depth = .ok (indentation depth) := by
  have hlength : depth ≤ (lineFeed :: tabs).length := by
    simp [tabs]
    omega
  rw [first, if_pos hlength]
  rfl

theorem first_outside (c : UInt8) {depth : ℕ} (h : 16 < depth) :
    first (c :: lineFeed :: tabs) (2 + depth) = .error .outside := by
  have hlength : ¬ 2 + depth ≤ (c :: lineFeed :: tabs).length := by
    simp [tabs]
    omega
  exact if_neg hlength

/-- What is in brackets: an opening part, the items, and the closing parts. -/
theorem writeParts_enclosed (p : Part Kind N) (ps qs : List (Part Kind N)) (out : Output) :
    writeParts toChars (p :: (ps ++ qs)) out = andThen (writePart toChars p out) fun out =>
      andThen (writeParts toChars ps out) (writeParts toChars qs) := by
  rw [writeParts_cons]
  exact andThen_congr _ fun out hlt => writeParts_append ps qs hlt

theorem write_eq (x : Text) (out : Output) :
    write x out = writeParts toChars [.text x] out := by
  rw [writeParts_single]
  rfl

theorem writeClosing_eq (c : UInt8) (h : out.size < 0) :
    writeChar c out = writeParts toChars [.text [c]] out := by
  rw [writeChar_eq c (by omega)]
  exact write_eq [c] out

theorem writeBrackets_eq {items : List (Part Kind N)} {f : Output → Except Failure Output}
    (h : out.size ≤ 0)
    (hitems : ∀ out : Output, out.size < 0 → f out = writeParts toChars items out) :
    (andThen (writeChar openBracket out) fun out => andThen (f out) (writeChar closeBracket)) =
      writeParts toChars (.text [openBracket] :: (items ++ [.text [closeBracket]])) out := by
  rw [writeParts_enclosed, writeChar_eq openBracket h]
  refine andThen_congr _ fun out hlt => ?_
  rw [← hitems out hlt]
  exact andThen_congr _ fun out hlt => writeClosing_eq closeBracket hlt

mutual

theorem writeValue_eq {depth : ℕ} {t : Ty} (ps : List (Part Kind N)) :
    ∀ (x : Value N) (out : Output), out.size ≤ 0 → parts shape depth t x = some ps →
      writeValue shape toChars depth t x out = writeParts toChars ps out
  | .bool x, out, _, h => by
    rw [parts] at h
    rw [writeValue]
    split at h
    · cases h
      exact write_eq _ out
    · cases h
  | .number x, out, _, h => by
    rw [parts] at h
    rw [writeValue]
    split at h
    next kind _ =>
      cases h
      exact (writeParts_single (.number kind x) out).symm
    · cases h
  | .enum x, out, hsize, h => by
    rw [parts] at h
    rw [writeValue]
    split at h
    · split at h
      · cases h
        exact writeString_eq _ hsize
      · cases h
    · cases h
  | .string x, out, hsize, h => by
    rw [parts] at h
    rw [writeValue]
    split at h
    · cases h
      exact writeString_eq _ hsize
    · cases h
  | .items xs, out, hsize, h => by
    rw [parts] at h
    rw [writeValue]
    split at h
    next element _ =>
      split_ifs at h with hempty
      · cases h
        rw [if_pos hempty]
        exact write_eq _ out
      rw [if_neg hempty]
      split at h
      · cases h
      next items hitems =>
        cases h
        exact writeBrackets_eq hsize fun out hlt => writeItems_eq items _ xs out hlt hitems
    next first rest _ =>
      split at h
      · cases h
      next items hitems =>
        cases h
        exact writeBrackets_eq hsize fun out hlt => writeItems_eq items _ xs out hlt hitems
    next table _ =>
      by_cases hempty : table.isEmpty
      · rw [if_pos hempty] at h ⊢
        cases h
        exact write_eq _ out
      rw [if_neg hempty] at h ⊢
      cases hitems : memberParts shape (depth + 1) true table xs with
      | none =>
        rw [hitems] at h
        cases h
      | some items =>
        rw [hitems] at h
        dsimp only at h
        split_ifs at h with hdeep
        · cases h
          rw [first_outside openBrace hdeep]
          rfl
        · cases h
          have hclose : ∀ out : Output, out.size < 0 →
              (andThen (write (indentation (depth + 1)) out) (writeChar closeBrace)) =
                writeParts toChars [.text (indentation (depth + 1)), .text [closeBrace]] out := by
            intro out _
            rw [writeParts_cons]
            exact andThen_congr _ fun out hlt => writeClosing_eq closeBrace hlt
          rw [writeParts_enclosed, first_line openBrace (by omega), first_indentation (by omega)]
          refine andThen_congr _ fun out hlt => ?_
          rw [← writeMembers_eq (by omega) items table xs out hlt hitems]
          exact andThen_congr _ hclose
    · cases h

theorem writeItems_eq {depth : ℕ} {first : Bool} (ps : List (Part Kind N)) :
    ∀ (ts : List Ty) (xs : List (Value N)) (out : Output), out.size < 0 →
      itemParts shape depth first ts xs = some ps →
      writeItems shape toChars depth first ts xs out = writeParts toChars ps out
  | [], [], out, _, h => by
    rw [itemParts] at h
    cases h
    rfl
  | t :: ts, x :: xs, out, hsize, h => by
    rw [itemParts] at h
    split at h
    · cases h
    next value hvalue =>
      split at h
      · cases h
      next more hmore =>
        cases h
        have hitem : ∀ out : Output, out.size < 0 →
            (andThen (writeValue shape toChars depth t x out) fun out =>
              writeItems shape toChars depth false ts xs out) =
              writeParts toChars (value ++ more) out := by
          intro out hlt
          rw [writeParts_append value more hlt, writeValue_eq value x out (by omega) hvalue]
          exact andThen_congr _ fun out hlt => writeItems_eq more ts xs out hlt hmore
        rw [writeItems]
        cases first with
        | true => exact (andThen_of_neg _ hsize).trans (hitem out hsize)
        | false => exact andThen_congr _ hitem
  | [], _ :: _, _, _, h => by cases h
  | _ :: _, [], _, _, h => by cases h

theorem writeMembers_eq {depth : ℕ} {isFirst : Bool} (hdepth : depth ≤ 16)
    (ps : List (Part Kind N)) :
    ∀ (table : List (Text × Ty)) (xs : List (Value N)) (out : Output), out.size < 0 →
      memberParts shape depth isFirst table xs = some ps →
      writeMembers shape toChars depth isFirst table xs out = writeParts toChars ps out
  | [], [], out, _, h => by
    rw [memberParts] at h
    cases h
    rfl
  | (key, t) :: table, x :: xs, out, hsize, h => by
    rw [memberParts] at h
    split at h
    · cases h
    next value hvalue =>
      split at h
      · cases h
      next more hmore =>
        cases h
        have hmember : ∀ out : Output, out.size < 0 →
            (andThen (writePart toChars (.key key) out) fun out =>
              andThen (writeValue shape toChars depth t x out) fun out =>
                writeMembers shape toChars depth false table xs out) =
              writeParts toChars (.key key :: (value ++ more)) out := by
          intro out _
          rw [writeParts_enclosed]
          refine andThen_congr _ fun out hlt => ?_
          rw [writeValue_eq value x out (by omega) hvalue]
          exact andThen_congr _ fun out hlt => writeMembers_eq hdepth more table xs out hlt hmore
        have hkey : ∀ (out : Output) (f : Output → Except Failure Output),
            (writeString key out >>= fun out => write separator out >>= fun out =>
              if 0 ≤ out.size then .ok out else f out) =
              andThen (writePart toChars (.key key) out) f := by
          intro out f
          exact (bind_assoc _ _ _).symm
        rw [writeMembers]
        cases isFirst with
        | true => exact (andThen_of_neg _ hsize).trans ((hkey out _).trans (hmember out hsize))
        | false =>
          rw [first_line comma hdepth]
          exact andThen_congr _ fun out hlt => (hkey out _).trans (hmember out hlt)
  | [], _ :: _, _, _, h => by cases h
  | _ :: _, [], _, _, h => by cases h

end

/-! ## What is written into the buffer -/

variable {text : Kind → N → Text} {before after : Text} {room : ℕ}

/-- The position in a buffer. -/
def Output.at (before after : Text) : Output := ⟨before ++ after, -(after.length : ℤ)⟩

/-- A write has failed. -/
def Failed (length : ℕ) (r : Except Failure Output) : Prop :=
  ∃ out : Output, r = .ok out ∧ 0 ≤ out.size ∧ out.buffer.length = length

theorem put_at {data : Text} (before : Text) (h : data.length ≤ after.length) :
    put data (.at before after) = .ok (.at (before ++ data) (after.drop data.length)) := by
  have hposition : ((before ++ after).length + -(after.length : ℤ)).toNat = before.length := by
    rw [List.length_append]
    omega
  have hroom : 0 ≤ ((before ++ after).length : ℤ) + -(after.length : ℤ) ∧
      -(after.length : ℤ) + data.length ≤ 0 := by
    rw [List.length_append]
    omega
  have hsize : -(after.length : ℤ) + data.length = -((after.drop data.length).length : ℤ) := by
    rw [List.length_drop]
    omega
  rw [put, Output.at, if_pos hroom]
  dsimp only
  rw [hposition, List.take_left, List.drop_append, Output.at, hsize]
  have hdrop : before.length + data.length - before.length = data.length := by omega
  rw [List.drop_eq_nil_of_le (by omega), hdrop, List.nil_append]

theorem write_at {data : Text} (before : Text) (h : data.length ≤ after.length) :
    write data (.at before after) = .ok (.at (before ++ data) (after.drop data.length)) := by
  have hfits : (Output.at before after).size + data.length ≤ 0 := by
    show -(after.length : ℤ) + data.length ≤ 0
    omega
  rw [write, if_pos hfits, put_at before h]

theorem write_failed {data : Text} (before : Text) (h : after.length < data.length) :
    write data (.at before after) = .ok ⟨before ++ after, after.length⟩ := by
  have hfits : ¬ (Output.at before after).size + data.length ≤ 0 := by
    show ¬ -(after.length : ℤ) + data.length ≤ 0
    omega
  rw [write, if_neg hfits]
  exact congrArg (fun size => Except.ok (Output.mk (before ++ after) size)) (Int.neg_neg _)

theorem length_at_drop (before data : Text) (h : data.length ≤ after.length) :
    (before ++ data ++ after.drop data.length).length = (before ++ after).length := by
  rw [List.length_append, List.length_append, List.length_drop, List.length_append]
  omega

/-- Data that leaves no room. -/
theorem write_stops {data : Text} (before : Text) (h : after.length ≤ data.length) :
    Failed (before ++ after).length (write data (.at before after)) := by
  rcases Nat.eq_or_lt_of_le h with heq | hlt
  · refine ⟨_, write_at before (by omega), ?_, length_at_drop before data (by omega)⟩
    show 0 ≤ -((after.drop data.length).length : ℤ)
    rw [List.length_drop]
    omega
  · exact ⟨_, write_failed before hlt, Int.natCast_nonneg _, rfl⟩

theorem writeChar_at (c : UInt8) (before : Text) (h : 0 < after.length) :
    writeChar c (.at before after) = .ok (.at (before ++ [c]) (after.drop 1)) :=
  (if_pos (show -(after.length : ℤ) < 0 by omega)).trans (put_at before h)

theorem andThen_at (f : Output → Except Failure Output) (before : Text) (h : 0 < after.length) :
    andThen (.ok (.at before after)) f = f (.at before after) :=
  andThen_of_neg f (show -(after.length : ℤ) < 0 by omega)

theorem andThen_stops (f : Output → Except Failure Output) (h : 0 ≤ out.size) :
    andThen (.ok out) f = .ok out := if_pos h

/-- Behind a failure in a name the colon is written all the same. -/
theorem writeKey_eq (x : Text) (out : Output) :
    writePart toChars (.key x) out =
      (andThen (writeChar quote out) fun out => andThen (write x out) (writeChar quote)) >>=
        write separator := rfl

/-- A name that is lost leaves its opening quote. -/
theorem writeKey_lost {x : Text} (before : Text) (hroom : 1 < after.length)
    (h : after.length - 1 < x.length) :
    writePart toChars (.key x) (.at before after) = .ok (.at (before ++ [quote]) (after.drop 1)) := by
  have hlength : (after.drop 1).length = after.length - 1 := List.length_drop
  have hx : write x (.at (before ++ [quote]) (after.drop 1)) =
      .ok ⟨before ++ [quote] ++ after.drop 1, (after.drop 1).length⟩ := write_failed _ (by omega)
  rw [writeKey_eq, writeChar_at quote before (by omega), andThen_at _ _ (by omega), hx,
    andThen_stops _ (Int.natCast_nonneg _)]
  have hfits : ¬ ((after.drop 1).length : ℤ) + separator.length ≤ 0 := by
    show ¬ ((after.drop 1).length : ℤ) + 3 ≤ 0
    omega
  have hseparator : write separator ⟨before ++ [quote] ++ after.drop 1, (after.drop 1).length⟩ =
      .ok (.at (before ++ [quote]) (after.drop 1)) := if_neg hfits
  exact hseparator

/-- A name that fits. -/
theorem writeKey_at {x : Text} (before : Text) (h : x.length + 5 ≤ after.length) :
    writePart toChars (.key x) (.at before after) =
      .ok (.at (before ++ quote :: (x ++ quote :: separator)) (after.drop (x.length + 5))) := by
  have hone : (after.drop 1).length = after.length - 1 := List.length_drop
  have htwo : ((after.drop 1).drop x.length).length = after.length - 1 - x.length := by
    rw [List.length_drop, hone]
  have hthree :
      (((after.drop 1).drop x.length).drop 1).length = after.length - 1 - x.length - 1 := by
    rw [List.length_drop, htwo]
  rw [writeKey_eq, writeChar_at quote before (by omega), andThen_at _ _ (by omega),
    write_at _ (by omega), andThen_at _ _ (by omega), writeChar_at quote _ (by omega)]
  have hdrop : 1 + (x.length + (1 + separator.length)) = x.length + 5 := by
    show 1 + (x.length + (1 + 3)) = x.length + 5
    omega
  have hseparator : separator.length ≤ (((after.drop 1).drop x.length).drop 1).length := by
    rw [hthree]
    show 3 ≤ _
    omega
  refine (write_at _ hseparator).trans ?_
  rw [List.drop_drop, List.drop_drop, List.drop_drop, hdrop]
  simp

/-- A name that neither fits with the colon nor is lost. -/
theorem writeKey_stops {x : Text} (before : Text) (hlong : after.length ≤ x.length + 5)
    (hlost : ¬ (1 < after.length ∧ after.length - 1 < x.length)) :
    Failed (before ++ after).length (writePart toChars (.key x) (.at before after)) := by
  have hstops : ∀ {front back : Text}, front.length + back.length = (before ++ after).length →
      back.length ≤ 3 → Failed (before ++ after).length (write separator (.at front back)) := by
    intro front back hlength hle
    rw [← hlength, ← List.length_append]
    exact write_stops front hle
  have hone : (after.drop 1).length = after.length - 1 := List.length_drop
  rw [writeKey_eq]
  by_cases hzero : 0 < after.length
  · rw [writeChar_at quote before hzero]
    have hlengthOne :
        (before ++ [quote]).length + (after.drop 1).length = (before ++ after).length := by
      simp
      omega
    by_cases hroom : 1 < after.length
    · rw [andThen_at _ _ (by omega), write_at _ (by omega)]
      have htwo : ((after.drop 1).drop x.length).length = after.length - 1 - x.length := by
        rw [List.length_drop, hone]
      have hlengthTwo : (before ++ [quote] ++ x).length + ((after.drop 1).drop x.length).length =
          (before ++ after).length := by
        simp
        omega
      by_cases hclose : 0 < ((after.drop 1).drop x.length).length
      · rw [andThen_at _ _ hclose, writeChar_at quote _ hclose]
        refine hstops ?_ ?_
        · simp
          omega
        · rw [List.length_drop]
          omega
      · rw [andThen_stops _ (by show 0 ≤ -(((after.drop 1).drop x.length).length : ℤ); omega)]
        exact hstops hlengthTwo (by omega)
    · rw [andThen_stops _ (by show 0 ≤ -((after.drop 1).length : ℤ); omega)]
      exact hstops hlengthOne (by omega)
  · have hnone : writeChar quote (.at before after) = .ok (.at before after) :=
      if_neg (show ¬ -(after.length : ℤ) < 0 by omega)
    rw [hnone, andThen_stops _ (by show 0 ≤ -(after.length : ℤ); omega)]
    exact hstops List.length_append.symm (by omega)

/-- What a part that leaves room has written. -/
structure Wrote (full after w after' : Text) (lost : Prop) : Prop where
  length : w.length + after'.length = after.length
  full_of_kept : ¬ lost → w = full
  lt_of_lost : lost → w.length < full.length

theorem Wrote.drop {full : Text} {lost : Prop} (hlost : ¬ lost) (h : full.length ≤ after.length) :
    Wrote full after full (after.drop full.length) lost where
  length := by
    rw [List.length_drop]
    omega
  full_of_kept _ := rfl
  lt_of_lost hl := absurd hl hlost

/-- A part that leaves room. -/
theorem writePart_left (hfits : Fits toChars text) {p : Part Kind N} (before : Text)
    (h : p.left toChars after.length = some room) :
    ∃ w after', writePart toChars p (.at before after) = .ok (.at (before ++ w) after') ∧
      after'.length = room ∧ 0 < room ∧ Wrote (p.full text) after w after' (p.Lost after.length) := by
  cases p with
  | text x =>
    rw [Part.left] at h
    split_ifs at h with hlt
    cases h
    exact ⟨x, after.drop x.length, write_at before hlt.le, List.length_drop, by omega,
      .drop id hlt.le⟩
  | number kind x =>
    rw [Part.left] at h
    split at h
    next data hdata =>
      split_ifs at h with hlt
      cases h
      have hroom : (-(Output.at before after).size).toNat = after.length := by
        show (- -(after.length : ℤ)).toNat = after.length
        omega
      refine ⟨data, after.drop data.length, ?_, List.length_drop, by omega, ?_⟩
      · rw [writePart, writeNumber, hroom, hdata]
        exact put_at before hlt.le
      · have hfull : (Part.number kind x).full text = data := (hfits.text_eq kind x _ data hdata).symm
        rw [hfull]
        exact .drop id hlt.le
    · cases h
  | key x =>
    rw [Part.left] at h
    split_ifs at h with hlt hlost
    · cases h
      have hlength : ((Part.key x : Part Kind N).full text).length = x.length + 5 := by
        simp [Part.full, separator]
      have hkept : ¬ (1 < after.length ∧ after.length - 1 < x.length) := by omega
      refine ⟨_, _, writeKey_at before hlt.le, List.length_drop, by omega, ?_⟩
      rw [← hlength] at hlt ⊢
      exact .drop hkept hlt.le
    · cases h
      refine ⟨[quote], after.drop 1, writeKey_lost before hlost.1 hlost.2, List.length_drop, by omega,
        ?_, fun hkept => absurd hlost hkept, fun _ => ?_⟩
      · rw [List.length_drop, List.length_singleton]
        omega
      · simp only [Part.full, List.length_cons, List.length_append]
        exact Nat.succ_lt_succ (Nat.lt_add_left _ (Nat.succ_pos _))
  | beyond => cases h

/-- A part behind which nothing is written. -/
theorem writePart_stops (hfits : Fits toChars text) {p : Part Kind N} (before : Text)
    (hp : p ≠ .beyond) (h : p.left toChars after.length = none) :
    Failed (before ++ after).length (writePart toChars p (.at before after)) := by
  cases p with
  | text x =>
    rw [Part.left] at h
    split_ifs at h with hlt
    exact write_stops before (by omega)
  | number kind x =>
    have hroom : (-(Output.at before after).size).toNat = after.length := by
      show (- -(after.length : ℤ)).toNat = after.length
      omega
    rw [Part.left] at h
    rw [writePart, writeNumber, hroom]
    split at h
    next data hdata =>
      split_ifs at h with hlt
      have hle := hfits.length_le kind x _ data hdata
      refine ⟨_, put_at before hle, ?_, length_at_drop before data hle⟩
      show 0 ≤ -((after.drop data.length).length : ℤ)
      rw [List.length_drop]
      omega
    next hdata =>
      refine ⟨_, rfl, ?_, rfl⟩
      show 0 ≤ - -(after.length : ℤ)
      omega
  | key x =>
    rw [Part.left] at h
    split_ifs at h with hlt hlost
    exact writeKey_stops before (by omega) hlost
  | beyond => exact absurd rfl hp

/-- All parts have been written. -/
theorem writeParts_ends (hfits : Fits toChars text) {ps : List (Part Kind N)} (before : Text)
    (hroom : 0 < after.length ∨ ps ≠ []) (h : Ends toChars after.length ps) :
    ∃ w after', writeParts toChars ps (.at before after) = .ok (.at (before ++ w) after') ∧
      0 < after'.length ∧ Wrote (fullText text ps) after w after' (Loses toChars after.length ps) := by
  induction ps generalizing before after with
  | nil =>
    have hpos : 0 < after.length := hroom.resolve_right fun hne => hne rfl
    refine ⟨[], after, ?_, hpos, Nat.zero_add _, fun _ => rfl, False.elim⟩
    rw [List.append_nil]
    rfl
  | cons p ps ih =>
    obtain ⟨room, hleft, hends⟩ := h
    obtain ⟨w, mid, hwrite, rfl, hpos, hw⟩ := writePart_left hfits before hleft
    obtain ⟨w', after', hmore, hpos', hw'⟩ := ih (before ++ w) (.inl hpos) hends
    have hlength := hw.length
    have hlength' := hw'.length
    have hfull : fullText text (p :: ps) = p.full text ++ fullText text ps := List.flatMap_cons
    refine ⟨w ++ w', after', ?_, hpos', ?_, fun hkept => ?_, fun hlost => ?_⟩
    · rw [writeParts_cons, hwrite, andThen_at _ _ hpos, hmore, List.append_assoc]
    · rw [List.length_append]
      omega
    · rw [hfull, hw.full_of_kept fun hl => hkept (.inl hl),
        hw'.full_of_kept fun hl => hkept (.inr ⟨_, hleft, hl⟩)]
    · rw [hfull, List.length_append, List.length_append]
      have hle : w.length ≤ (p.full text).length := by
        by_cases hl : p.Lost after.length
        · exact (hw.lt_of_lost hl).le
        · exact (congrArg List.length (hw.full_of_kept hl)).le
      have hle' : w'.length ≤ (fullText text ps).length := by
        by_cases hl : Loses toChars mid.length ps
        · exact (hw'.lt_of_lost hl).le
        · exact (congrArg List.length (hw'.full_of_kept hl)).le
      rcases hlost with hl | ⟨room, hleft', hl⟩
      · have := hw.lt_of_lost hl
        omega
      · rw [hleft] at hleft'
        cases hleft'
        have := hw'.lt_of_lost hl
        omega

/-- A literal has been left. -/
theorem writeParts_beyond (hfits : Fits toChars text) {ps : List (Part Kind N)} (before : Text)
    (h : GoesBeyond toChars after.length ps) :
    writeParts toChars ps (.at before after) = .error .outside := by
  induction ps generalizing before after with
  | nil => exact h.elim
  | cons p ps ih =>
    rcases h with rfl | ⟨room, hleft, h⟩
    · rfl
    · obtain ⟨w, mid, hwrite, rfl, hpos, -⟩ := writePart_left hfits before hleft
      rw [writeParts_cons, hwrite, andThen_at _ _ hpos]
      exact ih (before ++ w) h

/-- The writing has stopped before the end. -/
theorem writeParts_stops (hfits : Fits toChars text) {ps : List (Part Kind N)} (before : Text)
    (hends : ¬ Ends toChars after.length ps) (hbeyond : ¬ GoesBeyond toChars after.length ps) :
    Failed (before ++ after).length (writeParts toChars ps (.at before after)) := by
  induction ps generalizing before after with
  | nil => exact absurd trivial hends
  | cons p ps ih =>
    rw [writeParts_cons]
    cases hleft : p.left toChars after.length with
    | none =>
      obtain ⟨out, hwrite, hsize, hlength⟩ :=
        writePart_stops hfits before (fun hp => hbeyond (.inl hp)) hleft
      rw [hwrite, andThen_stops _ hsize]
      exact ⟨out, rfl, hsize, hlength⟩
    | some room =>
      obtain ⟨w, mid, hwrite, rfl, hpos, hw⟩ := writePart_left hfits before hleft
      have hlength : (before ++ w ++ mid).length = (before ++ after).length := by
        have := hw.length
        simp
        omega
      rw [hwrite, andThen_at _ _ hpos, ← hlength]
      exact ih (before ++ w) (fun h => hends ⟨_, hleft, h⟩) fun h => hbeyond (.inr ⟨_, hleft, h⟩)

/-! ## The complete text -/

theorem fullText_append (ps qs : List (Part Kind N)) :
    fullText text (ps ++ qs) = fullText text ps ++ fullText text qs := List.flatMap_append

theorem fullText_cons (p : Part Kind N) (ps : List (Part Kind N)) :
    fullText text (p :: ps) = p.full text ++ fullText text ps := List.flatMap_cons

theorem not_mem_enclosed {p q : Part Kind N} {ps qs : List (Part Kind N)}
    (h : q ∉ p :: (ps ++ qs)) : q ∉ ps :=
  fun hmem => h (List.mem_cons_of_mem _ (List.mem_append_left _ hmem))

theorem flatten_enclosed (p : Part Kind N) (qs : List (Part Kind N)) {ps : List (Part Kind N)}
    {texts : List Text} (h : texts.flatten = fullText text ps) :
    (p.full text :: texts ++ qs.map (Part.full text)).flatten = fullText text (p :: (ps ++ qs)) := by
  rw [fullText_cons, fullText_append, ← h, List.cons_append, List.flatten_cons, List.flatten_append,
    fullText, List.flatMap_def]

mutual

/-- The parts have the text that is read back. -/
theorem parts_texts {depth : ℕ} {t : Ty} (ps : List (Part Kind N)) :
    ∀ x : Value N, parts shape depth t x = some ps → .beyond ∉ ps →
      ∃ texts, Json.writeValue shape text depth t x = some texts ∧
        texts.flatten = fullText text ps
  | .bool x, h, _ => by
    rw [parts] at h
    split at h
    next hshape =>
      cases h
      exact ⟨[if x then trueText else falseText], by rw [Json.writeValue, hshape], rfl⟩
    · cases h
  | .number x, h, _ => by
    rw [parts] at h
    split at h
    next kind hshape =>
      cases h
      exact ⟨[text kind x], by rw [Json.writeValue, hshape], rfl⟩
    · cases h
  | .enum x, h, _ => by
    rw [parts] at h
    split at h
    next table hshape =>
      split at h
      next p hp =>
        cases h
        exact ⟨Json.writeString p.1, by rw [Json.writeValue, hshape]; dsimp only; rw [hp]; rfl, rfl⟩
      · cases h
    · cases h
  | .string x, h, _ => by
    rw [parts] at h
    split at h
    next hshape =>
      cases h
      exact ⟨Json.writeString x, by rw [Json.writeValue, hshape], rfl⟩
    · cases h
  | .items xs, h, hbeyond => by
    rw [parts] at h
    split at h
    next element hshape =>
      split_ifs at h with hempty
      · cases h
        exact ⟨[[openBracket, closeBracket]],
          by rw [Json.writeValue, hshape]; exact if_pos hempty, rfl⟩
      split at h
      · cases h
      next items hitems =>
        cases h
        obtain ⟨texts, htexts, hflatten⟩ :=
          itemParts_texts items _ xs hitems (not_mem_enclosed hbeyond)
        refine ⟨[openBracket] :: texts ++ [[closeBracket]], ?_, ?_⟩
        · rw [Json.writeValue, hshape]
          dsimp only
          rw [if_neg hempty, htexts]
          rfl
        · exact flatten_enclosed (.text [openBracket]) [.text [closeBracket]] hflatten
    next first rest hshape =>
      split at h
      · cases h
      next items hitems =>
        cases h
        obtain ⟨texts, htexts, hflatten⟩ :=
          itemParts_texts items _ xs hitems (not_mem_enclosed hbeyond)
        refine ⟨[openBracket] :: texts ++ [[closeBracket]], ?_, ?_⟩
        · rw [Json.writeValue, hshape]
          dsimp only
          rw [htexts]
          rfl
        · exact flatten_enclosed (.text [openBracket]) [.text [closeBracket]] hflatten
    next table hshape =>
      by_cases hempty : table.isEmpty
      · rw [if_pos hempty] at h
        cases h
        exact ⟨[[openBrace, closeBrace]], by rw [Json.writeValue, hshape]; exact if_pos hempty, rfl⟩
      rw [if_neg hempty] at h
      cases hitems : memberParts shape (depth + 1) true table xs with
      | none =>
        rw [hitems] at h
        cases h
      | some items =>
        rw [hitems] at h
        dsimp only at h
        split_ifs at h with hdeep
        · cases h
          exact absurd List.mem_cons_self hbeyond
        · cases h
          obtain ⟨texts, htexts, hflatten⟩ :=
            memberParts_texts items table xs hitems (not_mem_enclosed hbeyond)
          refine ⟨(openBrace :: indentation (depth + 2)) :: texts ++
            [indentation (depth + 1), [closeBrace]], ?_, ?_⟩
          · rw [Json.writeValue, hshape]
            dsimp only
            rw [if_neg hempty, if_neg hdeep, htexts]
            rfl
          · exact flatten_enclosed (.text (openBrace :: indentation (depth + 2)))
              [.text (indentation (depth + 1)), .text [closeBrace]] hflatten
    · cases h

theorem itemParts_texts {depth : ℕ} {first : Bool} (ps : List (Part Kind N)) :
    ∀ (ts : List Ty) (xs : List (Value N)), itemParts shape depth first ts xs = some ps →
      .beyond ∉ ps → ∃ texts, Json.writeItems shape text depth first ts xs = some texts ∧
        texts.flatten = fullText text ps
  | [], [], h, _ => by
    rw [itemParts] at h
    cases h
    exact ⟨[], rfl, rfl⟩
  | t :: ts, x :: xs, h, hbeyond => by
    rw [itemParts] at h
    split at h
    · cases h
    next value hvalue =>
      split at h
      · cases h
      next more hmore =>
        cases h
        have hvalueBeyond : .beyond ∉ value := fun hmem =>
          hbeyond (List.mem_append_right _ (List.mem_append_left _ hmem))
        have hmoreBeyond : .beyond ∉ more := fun hmem =>
          hbeyond (List.mem_append_right _ (List.mem_append_right _ hmem))
        obtain ⟨a, ha, hatext⟩ := parts_texts value x hvalue hvalueBeyond
        obtain ⟨b, hb, hbtext⟩ := itemParts_texts more ts xs hmore hmoreBeyond
        refine ⟨_, by rw [Json.writeItems, ha, hb]; rfl, ?_⟩
        rw [fullText_append, fullText_append, ← hatext, ← hbtext]
        cases first with
        | true => simp [fullText]
        | false => simp [fullText, Part.full]
  | [], _ :: _, h, _ => by cases h
  | _ :: _, [], h, _ => by cases h

theorem memberParts_texts {depth : ℕ} {isFirst : Bool} (ps : List (Part Kind N)) :
    ∀ (table : List (Text × Ty)) (xs : List (Value N)),
      memberParts shape depth isFirst table xs = some ps → .beyond ∉ ps →
      ∃ texts, Json.writeMembers shape text depth isFirst table xs = some texts ∧
        texts.flatten = fullText text ps
  | [], [], h, _ => by
    rw [memberParts] at h
    cases h
    exact ⟨[], rfl, rfl⟩
  | (key, t) :: table, x :: xs, h, hbeyond => by
    rw [memberParts] at h
    split at h
    · cases h
    next value hvalue =>
      split at h
      · cases h
      next more hmore =>
        cases h
        have hvalueBeyond : .beyond ∉ value := fun hmem => hbeyond
          (List.mem_append_right _ (List.mem_cons_of_mem _ (List.mem_append_left _ hmem)))
        have hmoreBeyond : .beyond ∉ more := fun hmem => hbeyond
          (List.mem_append_right _ (List.mem_cons_of_mem _ (List.mem_append_right _ hmem)))
        obtain ⟨a, ha, hatext⟩ := parts_texts value x hvalue hvalueBeyond
        obtain ⟨b, hb, hbtext⟩ := memberParts_texts more table xs hmore hmoreBeyond
        refine ⟨_, by rw [Json.writeMembers, ha, hb]; rfl, ?_⟩
        have hkey : ((Part.key key : Part Kind N).full text) =
            (Json.writeString key ++ [separator]).flatten := by
          simp [Part.full, Json.writeString]
        rw [fullText_append, fullText_cons, fullText_append, hkey, ← hatext, ← hbtext]
        cases isFirst with
        | true => simp [separator, fullText]
        | false => simp [separator, fullText, Part.full]
  | [], _ :: _, h, _ => by cases h
  | _ :: _, [], h, _ => by cases h

end

/-! ## All or nothing -/

theorem Ends.not_mem_beyond {ps : List (Part Kind N)} (h : Ends toChars room ps) : .beyond ∉ ps := by
  induction ps generalizing room with
  | nil => exact List.not_mem_nil
  | cons p ps ih =>
    obtain ⟨room', hleft, hends⟩ := h
    intro hmem
    rcases List.mem_cons.mp hmem with rfl | hmem
    · cases hleft
    · exact ih hends hmem

theorem parts_ne_nil {depth : ℕ} {t : Ty} {x : Value N} {ps : List (Part Kind N)}
    (h : parts shape depth t x = some ps) : ps ≠ [] := by
  rintro rfl
  cases x with
  | items xs =>
    rw [parts] at h
    repeat' split at h
    all_goals cases h
  | bool | number | enum | string =>
    rw [parts] at h
    repeat' split at h
    all_goals cases h

/-- What `serialize_json` gives back, by what comes of the parts. -/
theorem serializeJson_eq {t : Ty} {x : Value N} {ps : List (Part Kind N)} (buffer : Text)
    (h : parts shape 0 t x = some ps) :
    serializeJson shape toChars t x buffer =
      writeParts toChars ps (.at [] buffer) >>= fun out =>
        if out.size < 0 then put [lineFeed] out >>= fun ended =>
          .ok (out.size + 1 - -(buffer.length : ℤ), ended.buffer)
        else .ok (0, out.buffer) := by
  rw [← writeValue_eq ps x _ (by show -(buffer.length : ℤ) ≤ 0; omega) h]
  rfl

/-- A value fills its buffer as it should unless it goes wrong. -/
theorem allOrNothing_iff (hfits : Fits toChars text) {t : Ty} {x : Value N}
    {ps : List (Part Kind N)} (hparts : parts shape 0 t x = some ps) (buffer : Text) :
    AllOrNothing shape toChars text t x buffer ↔ ¬ GoesWrong toChars buffer.length ps := by
  have heq : serializeJson shape toChars t x buffer = _ := serializeJson_eq buffer hparts
  by_cases hends : Ends toChars buffer.length ps
  · obtain ⟨w, after, hwrite, hpos, hw⟩ :=
      writeParts_ends hfits [] (.inr (parts_ne_nil hparts)) hends
    obtain ⟨texts, htexts, hflatten⟩ := parts_texts ps x hparts hends.not_mem_beyond
    have hlength := hw.length
    -- The newline fits, as there is room left.
    have hresult : serializeJson shape toChars t x buffer =
        .ok (((w.length + 1 : ℕ) : ℤ), w ++ [lineFeed] ++ after.drop 1) := by
      rw [heq, hwrite]
      have hneg : (Output.at w after).size < 0 := by
        show -(after.length : ℤ) < 0
        omega
      refine (if_pos hneg).trans ?_
      have hput : put [lineFeed] (.at w after) = .ok (.at (w ++ [lineFeed]) (after.drop 1)) :=
        put_at w hpos
      have hsize :
          (Output.at w after).size + 1 - -(buffer.length : ℤ) = ((w.length + 1 : ℕ) : ℤ) := by
        show -(after.length : ℤ) + 1 - -(buffer.length : ℤ) = _
        omega
      rw [List.nil_append, hput, hsize]
      rfl
    constructor
    · rintro ⟨n, buffer', hrun, -, hall, -⟩ (hbeyond | ⟨-, hlost⟩)
      · rw [heq, writeParts_beyond hfits [] hbeyond] at hrun
        cases hrun
      · rw [hresult] at hrun
        cases hrun
        obtain ⟨texts', htexts', hn, -⟩ := hall (by omega)
        rw [htexts] at htexts'
        cases htexts'
        have hlt := hw.lt_of_lost hlost
        rw [List.length_append, List.length_singleton, hflatten] at hn
        omega
    · intro hright
      have hfull := hw.full_of_kept fun hlost => hright (.inr ⟨hends, hlost⟩)
      refine ⟨_, _, hresult, ?_, fun _ => ⟨texts, htexts, ?_, ?_⟩, fun texts' htexts' hlong => ?_⟩
      · rw [List.length_append, List.length_append, List.length_drop, List.length_singleton]
        omega
      · rw [hflatten, ← hfull, List.length_append, List.length_singleton]
      · rw [hflatten, ← hfull, Int.toNat_natCast]
        exact List.take_left' (by rw [List.length_append, List.length_singleton])
      · rw [htexts] at htexts'
        cases htexts'
        rw [hflatten, ← hfull, List.length_append, List.length_singleton] at hlong
        omega
  by_cases hbeyond : GoesBeyond toChars buffer.length ps
  · refine iff_of_false ?_ (not_not_intro (.inl hbeyond))
    rintro ⟨n, buffer', hrun, -⟩
    rw [heq, writeParts_beyond hfits [] hbeyond] at hrun
    cases hrun
  · refine iff_of_true ?_ fun hwrong => hwrong.elim hbeyond fun h => hends h.1
    obtain ⟨out, hwrite, hsize, hlength⟩ := writeParts_stops hfits [] hends hbeyond
    refine ⟨0, out.buffer, ?_, hlength, fun hne => absurd rfl hne, fun _ _ _ => rfl⟩
    rw [heq, hwrite]
    exact if_neg (by omega)

/-- A class with a number. -/
def counterShape (nested : Bool) : Shape Bool Unit :=
  if nested then .number () else .members [(List.replicate 8 0x61, true)]

def digitToChars (kind : Unit) (x : Bool) (room : ℕ) : Option Text :=
  if (Ini.digitToChars kind x).length ≤ room then some (Ini.digitToChars kind x) else none

theorem fits_digitToChars : Fits digitToChars Ini.digitToChars where
  text_eq kind x room data h := by
    rw [digitToChars] at h
    split_ifs at h
    cases h
    rfl
  length_le kind x room data h := by
    rw [digitToChars] at h
    split_ifs at h with hle
    cases h
    exact hle

theorem allOrNothing_iff_counter :
    AllOrNothing counterShape digitToChars Ini.digitToChars false (.items [.number true])
      (List.replicate 32 0) ↔
      ¬ GoesWrong digitToChars 32 [.text [openBrace, lineFeed, tab], .key (List.replicate 8 0x61),
        .number () true, .text [lineFeed], .text [closeBrace]] :=
  allOrNothing_iff fits_digitToChars rfl (List.replicate 32 0)

/-- The name and the colon are missing from what has been written. -/
theorem not_allOrNothing_lost : ¬ AllOrNothing counterShape digitToChars Ini.digitToChars false
    (.items [.number true]) (List.replicate 8 0) := by
  rintro ⟨n, buffer', hrun, -, hall, -⟩
  have hwritten : serializeJson counterShape digitToChars false (.items [.number true])
      (List.replicate 8 0) =
        .ok (8, [openBrace, lineFeed, tab, quote, 0x31, lineFeed, closeBrace, lineFeed]) := rfl
  rw [hwritten] at hrun
  cases hrun
  obtain ⟨texts, htexts, hn, -⟩ := hall (by decide)
  cases htexts
  exact absurd hn (by decide)

end Fimbulwinter.JsonBuffer
