import Fimbulwinter.JsonStructurer
import Mathlib.Logic.Function.Basic

/-! # `core::structure_ini`

Reads the members of a class from lines of text. The position in the text is the rest of it, and
the whole text is there for what is looked at behind a position. -/
namespace Fimbulwinter.Ini

open Json (Text space openBracket closeBracket trueText falseText findMember)

abbrev lineFeed : UInt8 := 0x0a
abbrev carriageReturn : UInt8 := 0x0d
abbrev semicolon : UInt8 := 0x3b
abbrev equals : UInt8 := 0x3d

abbrev LineEnd (b : UInt8) : Prop := b = carriageReturn ∨ b = lineFeed

/-- The types of the values on a line. -/
inductive Scalar (Kind : Type*)
  | bool
  /-- A type with `fio::from_chars`. -/
  | number (kind : Kind)
  /-- The keys and values of an enumeration. -/
  | enum (table : List (Text × ℕ))
  | string

/-- What a member is, with the names of its own members if it is of a class. -/
inductive Member (Kind : Type*)
  | scalar (type : Scalar Kind)
  | members (table : List (Text × Member Kind))

inductive Value (N : Type*)
  | bool (x : Bool)
  | number (x : N)
  | enum (x : ℕ)
  | string (x : Text)
  deriving DecidableEq

/-- The members of an object and those of its members, by their places in the tables. -/
abbrev Object (N : Type*) := List ℕ → Value N

/-- `error_code`, and what does not come to an error -/
inductive Failure
  | unexpectedEof
  | unexpectedEol
  | unexpectedHeader1
  | unexpectedKey
  | unexpectedSymbol
  | unexpectedValue
  | unexpectedValue2
  | missingSpaces
  | typeMismatch
  /-- Something outside of the text is read or viewed. -/
  | outside
  | outOfFuel
  deriving DecidableEq, Repr

def skipToCharLoop (c : UInt8) : Text → Except Failure Text
  | [] => .error .unexpectedEof
  | b :: rest =>
    if c < b then skipToCharLoop c rest
    else if LineEnd b then .error .unexpectedEol
    else if b ≠ c then skipToCharLoop c rest
    else .ok (b :: rest)

/-- `skip_to_char`: the first byte is passed without a look. -/
def skipToChar (c : UInt8) : Text → Except Failure Text
  | [] => .error .unexpectedEof
  | _ :: rest => skipToCharLoop c rest

def skipToLineLoop : Text → Except Failure Text
  | [] => .error .unexpectedEof
  | b :: rest =>
    if carriageReturn < b then skipToLineLoop rest
    else if b ≠ carriageReturn ∧ b ≠ lineFeed then skipToLineLoop rest
    else .ok (b :: rest)

/-- `skip_to_line` -/
def skipToLine : Text → Except Failure Text
  | [] => .error .unexpectedEof
  | _ :: rest => skipToLineLoop rest

def skipBlanks : Text → Text
  | [] => []
  | b :: rest => if b ≤ space then skipBlanks rest else b :: rest

/-- The loop in `skip_whitespace`, from a comment on. -/
def skipComments : ℕ → Text → Except Failure Text
  | 0, _ => .error .outOfFuel
  | fuel + 1, s =>
    match skipToLine s with
    | .error e => .error e
    | .ok s =>
      if (skipBlanks s.tail).head? = some semicolon then skipComments fuel (skipBlanks s.tail)
      else .ok (skipBlanks s.tail)

/-- `skip_whitespace` -/
def skipWhitespace : Text → Except Failure Text
  | [] => .error .unexpectedEof
  | b :: rest =>
    if b = semicolon then skipComments (b :: rest).length (b :: rest)
    else if b ≤ space then
      if (skipBlanks rest).head? = some semicolon then
        skipComments (skipBlanks rest).length (skipBlanks rest)
      else .ok (skipBlanks rest)
    else .ok (b :: rest)

/-- The byte in front of a position. -/
def byteBefore (content s : Text) : Option UInt8 :=
  if s.length < content.length then content[content.length - (s.length + 1)]? else none

/-- What is between two positions, as long as they are in order. -/
def view (first last : Text) : Except Failure Text :=
  if last.length ≤ first.length then .ok (first.take (first.length - last.length))
  else .error .outside

section Structure

variable {Kind N : Type*} (fromChars : Kind → Text → ℕ × N) (content : Text)

/-- The word ` = true` and the word `= false` are compared together with the end of the line. -/
def readBool (s : Text) : Except Failure (Text × Value N) :=
  match byteBefore content s with
  | none => .error .outside
  | some b =>
    if 2 + 4 + 1 ≤ s.length ∧ ((b :: s).take 8 = [space, equals, space] ++ trueText ++ [lineFeed] ∨
        (b :: s).take 8 = [space, equals, space] ++ trueText ++ [carriageReturn]) then
      .ok (s.drop (2 + 4), .bool true)
    else if 2 + 5 + 1 ≤ s.length ∧ (s.take 8 = [equals, space] ++ falseText ++ [lineFeed] ∨
        s.take 8 = [equals, space] ++ falseText ++ [carriageReturn]) then
      .ok (s.drop (2 + 5), .bool false)
    else .error .unexpectedValue2

/-- `fio::from_chars` gives how many bytes it has passed, and the number. -/
def readNumber (kind : Kind) (s : Text) : Except Failure (Text × Value N) :=
  let n := (fromChars kind (s.drop 2)).1
  if 0 < n then
    match (s.drop 2).drop n with
    | [] => .error .unexpectedValue
    | b :: rest =>
      if LineEnd b then .ok (b :: rest, .number (fromChars kind (s.drop 2)).2)
      else .error .unexpectedValue
  else .error .unexpectedValue

/-- The rest of the line; without the end of a line, an error code is taken for its end. -/
def readLine (s : Text) : Except Failure (Text × Text) :=
  match skipToLine s.tail with
  | .error _ => .error .outside
  | .ok last =>
    match view (s.drop 2) last with
    | .error e => .error e
    | .ok str => .ok (str, last)

def readEnum (table : List (Text × ℕ)) (s : Text) : Except Failure (Text × Value N) :=
  match readLine s with
  | .error e => .error e
  | .ok (str, last) =>
    match table.find? fun p => p.1 = str with
    | none => .error .unexpectedValue2
    | some p => .ok (last, .enum p.2)

def readString (s : Text) : Except Failure (Text × Value N) :=
  match readLine s with
  | .error e => .error e
  | .ok (str, last) => .ok (last, .string str)

/-- `read_value` -/
def readValue (s : Text) : Member Kind → Except Failure (Text × Value N)
  | .members _ => .error .typeMismatch
  | .scalar type =>
    if s.head? ≠ some equals then .error .unexpectedSymbol
    else
      match type with
      | .bool => readBool content s
      | .number kind => readNumber fromChars kind s
      | .enum table => readEnum table s
      | .string => readString s

/-- The key in front of a `=` that has spaces around it. -/
def readKey (first s : Text) : Except Failure Text :=
  match byteBefore content s with
  | none => .error .outside
  | some b =>
    if b ≠ space then .error .missingSpaces
    else
      match s[1]? with
      | none => .error .outside
      | some c => if c ≠ space then .error .missingSpaces else view first (b :: s)

/-- `read_key_values` -/
def readKeyValues (table : List (Text × Member Kind)) (path : List ℕ) :
    ℕ → Text → Object N → Except Failure (Text × Object N)
  | 0, _, _ => .error .outOfFuel
  | fuel + 1, s, x =>
    match skipWhitespace s with
    | .error e => .error e
    | .ok [] => .ok ([], x)
    | .ok (b :: rest) =>
      if b = openBracket then .ok (b :: rest, x)
      else
        match if b ≠ equals then skipToChar equals (b :: rest) else .ok (b :: rest) with
        | .error e => .error e
        | .ok s =>
          match readKey content (b :: rest) s with
          | .error e => .error e
          | .ok key =>
            match findMember table key with
            | none => .error .unexpectedKey
            | some (i, member) =>
              match readValue fromChars content s member with
              | .error e => .error e
              | .ok (s, y) => readKeyValues table path fuel s (Function.update x (path ++ [i]) y)

/-- `read_header`: the name of a section and the text from the end of the line on. -/
def readHeader (s : Text) : Except Failure (Text × Text) :=
  if s.head? ≠ some openBracket then .error .unexpectedSymbol
  else
    match skipToChar closeBracket s with
    | .error e => .error e
    | .ok last =>
      match last.tail with
      | [] => .error .unexpectedEof
      | b :: rest =>
        if LineEnd b then
          match view s.tail last with
          | .error e => .error e
          | .ok header => .ok (header, b :: rest)
        else .error .unexpectedSymbol

/-- The loop in `read_all`, over the sections. -/
def readSections (table : List (Text × Member Kind)) :
    ℕ → Text → Object N → Except Failure (Object N)
  | 0, _, _ => .error .outOfFuel
  | fuel + 1, s, x =>
    match readHeader s with
    | .error e => .error e
    | .ok (header, s) =>
      match findMember table header with
      | none => .error .unexpectedHeader1
      | some (_, .scalar _) => .error .typeMismatch
      | some (i, .members members) =>
        match readKeyValues fromChars content members [i] s.length s x with
        | .error e => .error e
        | .ok ([], x) => .ok x
        | .ok (b :: rest, x) => readSections table fuel (b :: rest) x

/-- `structure_ini`, with `read_all`: the object, if the text is accepted. -/
def structureIni (table : List (Text × Member Kind)) (x : Object N) : Except Failure (Object N) :=
  match content with
  | [] => .ok x
  | b :: rest =>
    if b = equals then .error .missingSpaces
    else
      match readKeyValues fromChars (b :: rest) table [] (b :: rest).length (b :: rest) x with
      | .error e => .error e
      | .ok ([], x) => .ok x
      | .ok (c :: s, x) => readSections fromChars (b :: rest) table (c :: s).length (c :: s) x

end Structure

end Fimbulwinter.Ini
