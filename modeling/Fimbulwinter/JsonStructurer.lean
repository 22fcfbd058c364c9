import Mathlib.Data.List.Basic
import Mathlib.Tactic.Common

/-! # `core::structure_json`

Reads a value of a given type from JSON text. The position in the text is the rest of it;
nothing is left where the program's position is zero. -/
namespace Fimbulwinter.Json

abbrev Text := List UInt8

abbrev space : UInt8 := 0x20
abbrev quote : UInt8 := 0x22
abbrev comma : UInt8 := 0x2c
abbrev colon : UInt8 := 0x3a
abbrev openBracket : UInt8 := 0x5b
abbrev backslash : UInt8 := 0x5c
abbrev closeBracket : UInt8 := 0x5d
abbrev openBrace : UInt8 := 0x7b
abbrev closeBrace : UInt8 := 0x7d

def trueText : Text := [0x74, 0x72, 0x75, 0x65]

def falseText : Text := [0x66, 0x61, 0x6c, 0x73, 0x65]

/-- What a type is made of. Types are referred to by name, so they can contain themselves. -/
inductive Shape (Ty Kind : Type*)
  | bool
  /-- A type with `fio::from_chars`. -/
  | number (kind : Kind)
  /-- The keys and values of an enumeration. -/
  | enum (table : List (Text × ℕ))
  | string
  /-- A range that can grow. -/
  | range (element : Ty)
  /-- A tuple of at least one element. -/
  | tuple (first : Ty) (rest : List Ty)
  /-- The names and types of a class's members. -/
  | members (table : List (Text × Ty))

/-- The items are those of a range or a tuple, or the members of a class in the order of
its table. -/
inductive Value (N : Type*)
  | bool (x : Bool)
  | number (x : N)
  | enum (x : ℕ)
  | string (x : Text)
  | items (xs : List (Value N))

namespace Value

variable {N : Type*}

/-- An item of a tuple, or a member of a class. -/
def item (x : Value N) (i : ℕ) : Value N :=
  match x with
  | items xs => xs[i]?.getD x
  | x => x

def setItem (x : Value N) (i : ℕ) (y : Value N) : Value N :=
  match x with
  | items xs => items (xs.set i y)
  | x => x

/-- `grow_range`, with the element that is read into afterwards. -/
def push (x y : Value N) : Value N :=
  match x with
  | items xs => items (xs ++ [y])
  | x => x

end Value

/-- `error_code` -/
inductive ErrorCode
  | unexpectedEof
  | unexpectedError
  | unexpectedKey
  | unexpectedSymbol
  | unexpectedValue
  | expectedArray
  | expectedLess
  | expectedMore
  | expectedObject
  | expectedString
  deriving DecidableEq, Repr

/-- An error, with how much of the text is left. -/
inductive Failure
  | text (code : ErrorCode) (remaining : ℕ)
  | outOfFuel
  deriving DecidableEq, Repr

/-- `error` -/
def fail {α : Type*} (code : ErrorCode) (rest : Text) : Except Failure α :=
  .error (.text code rest.length)

/-- `skip_whitespace` -/
def skipWhitespace : Text → Except Failure Text
  | [] => fail .unexpectedEof []
  | c :: cs => if c ≤ space then skipWhitespace cs else .ok (c :: cs)

/-- The rest of a string, with what has been passed of it since its opening quote in reverse
order, and where the search for the next quote has begun. A quote after one or three
backslashes is part of the string; more of them are not supported. -/
def readStringLoop (passed start : Text) : Text → Except Failure (Text × Text)
  | [] => fail .unexpectedEof start
  | c :: cs =>
    if c = quote then
      if passed[0]? ≠ some backslash then .ok (passed.reverse, c :: cs)
      else if passed[1]? = some backslash then
        if passed[2]? ≠ some backslash then .ok (passed.reverse, c :: cs)
        else if passed[3]? = some backslash then fail .unexpectedError (c :: cs)
        else readStringLoop (c :: passed) cs cs
      else readStringLoop (c :: passed) cs cs
    else readStringLoop (c :: passed) start cs

/-- `read_string`: the string and the text from its closing quote on. -/
def readString : Text → Except Failure (Text × Text)
  | [] => fail .expectedString []
  | c :: cs => if c = quote then readStringLoop [] cs cs else fail .expectedString (c :: cs)

/-- `find` in the table of a class: the number and the type of a member. -/
def findMember {Ty : Type*} (table : List (Text × Ty)) (key : Text) : Option (ℕ × Ty) :=
  (table.zipIdx.find? fun p => p.1.1 = key).map fun p => (p.2, p.1.2)

section Structure

variable {Ty Kind N : Type*} (shape : Ty → Shape Ty Kind)
  (fromChars : Kind → Text → Option (N × ℕ)) (fresh : Ty → Value N)

def readBool (input : Text) : Except Failure (Text × Value N) :=
  if trueText.isPrefixOf input then .ok (input.drop 4, .bool true)
  else if falseText.isPrefixOf input then .ok (input.drop 5, .bool false)
  else fail .unexpectedValue input

/-- `fio::from_chars` gives the number and how many characters it has; it fails with none. -/
def readNumber (kind : Kind) (input : Text) : Except Failure (Text × Value N) :=
  match fromChars kind input with
  | some (x, n) => if 0 < n then .ok (input.drop n, .number x) else fail .unexpectedValue input
  | none => fail .unexpectedValue input

def readEnum (table : List (Text × ℕ)) (input : Text) : Except Failure (Text × Value N) :=
  match readString input with
  | .error e => .error e
  | .ok (key, rest) =>
    match table.find? fun p => p.1 = key with
    | none => fail .unexpectedValue input
    | some p => .ok (rest.tail, .enum p.2)

def readText (input : Text) : Except Failure (Text × Value N) :=
  match readString input with
  | .error e => .error e
  | .ok (str, rest) => .ok (rest.tail, .string str)

mutual

/-- `read_value`. When a nested value ends at the end of the text, so does the outer one. -/
def readValue : ℕ → Ty → Text → Value N → Except Failure (Text × Value N)
  | 0, _, _, _ => .error .outOfFuel
  | fuel + 1, t, input, x =>
    match skipWhitespace input with
    | .error e => .error e
    | .ok input =>
      match shape t with
      | .bool => readBool input
      | .number kind => readNumber fromChars kind input
      | .enum table => readEnum table input
      | .string => readText input
      | .range element =>
        if input.head? = some openBracket then
          match skipWhitespace input.tail with
          | .error e => .error e
          | .ok input =>
            if input.head? = some closeBracket then .ok (input.tail, x)
            else readElements fuel element input x
        else fail .expectedArray input
      | .tuple first rest =>
        if input.head? = some openBracket then readItems fuel 0 first rest input.tail x
        else fail .expectedArray input
      | .members table =>
        if input.head? = some openBrace then readMembers fuel table input.tail x
        else fail .expectedObject input

/-- The loop over the elements of a range. -/
def readElements : ℕ → Ty → Text → Value N → Except Failure (Text × Value N)
  | 0, _, _, _ => .error .outOfFuel
  | fuel + 1, element, input, x =>
    match readValue fuel element input (fresh element) with
    | .error e => .error e
    | .ok ([], y) => .ok ([], x.push y)
    | .ok (rest, y) =>
      match skipWhitespace rest with
      | .error e => .error e
      | .ok rest =>
        if rest.head? = some comma then readElements fuel element rest.tail (x.push y)
        else if rest.head? = some closeBracket then .ok (rest.tail, x.push y)
        else fail .unexpectedSymbol rest

/-- `read_value_tuple_impl` -/
def readItems : ℕ → ℕ → Ty → List Ty → Text → Value N → Except Failure (Text × Value N)
  | 0, _, _, _, _, _ => .error .outOfFuel
  | fuel + 1, i, t, ts, input, x =>
    match readValue fuel t input (x.item i) with
    | .error e => .error e
    | .ok ([], y) => .ok ([], x.setItem i y)
    | .ok (rest, y) =>
      match skipWhitespace rest with
      | .error e => .error e
      | .ok rest =>
        match ts with
        | [] =>
          if rest.head? = some closeBracket then .ok (rest.tail, x.setItem i y)
          else fail .expectedLess rest
        | t :: ts =>
          if rest.head? = some comma then readItems fuel (i + 1) t ts rest.tail (x.setItem i y)
          else fail .expectedMore rest

/-- The loop over the members of a class. -/
def readMembers :
    ℕ → List (Text × Ty) → Text → Value N → Except Failure (Text × Value N)
  | 0, _, _, _ => .error .outOfFuel
  | fuel + 1, table, input, x =>
    match skipWhitespace input with
    | .error e => .error e
    | .ok input =>
      match readString input with
      | .error e => .error e
      | .ok (key, rest) =>
        match findMember table key with
        | none => fail .unexpectedKey input
        | some (i, t) =>
          match skipWhitespace rest.tail with
          | .error e => .error e
          | .ok rest =>
            if rest.head? = some colon then
              match readValue fuel t rest.tail (x.item i) with
              | .error e => .error e
              | .ok ([], y) => .ok ([], x.setItem i y)
              | .ok (rest, y) =>
                match skipWhitespace rest with
                | .error e => .error e
                | .ok rest =>
                  if rest.head? = some comma then readMembers fuel table rest.tail (x.setItem i y)
                  else if rest.head? = some closeBrace then .ok (rest.tail, x.setItem i y)
                  else fail .unexpectedSymbol rest
            else fail .unexpectedSymbol rest

end

/-- Every call passes a character or is made by one that has, so this much fuel suffices. -/
def structureFuel (input : Text) : ℕ := 2 * input.length + 1

/-- `structure_json`: the value that has been read, if the text has been accepted. -/
def structureJson (t : Ty) (input : Text) (x : Value N) : Except Failure (Value N) :=
  (readValue shape fromChars fresh (structureFuel input) t input x).map Prod.snd

end Structure

end Fimbulwinter.Json
