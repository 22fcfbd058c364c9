import Mathlib.Data.List.Basic
import Mathlib.Tactic.Common

/-! # `rex`

Patterns and how they are matched. A range of characters is the list of them, and a
position in it is the number of characters in front of it. -/
namespace Fimbulwinter.Regex

abbrev Text := List UInt8

inductive Pattern
  | ch (c : UInt8)
  | str (s : Text)
  | blank
  | digit
  | word
  | newline
  /-- `end` -/
  | atEnd
  /-- `p >> q` -/
  | composition (p q : Pattern)
  /-- `p | q` -/
  | disjunction (p q : Pattern)
  /-- `p & q` -/
  | conjunction (p q : Pattern)
  /-- `*p` -/
  | anyNumberOf (p : Pattern)
  /-- `+p` -/
  | atLeastOne (p : Pattern)
  /-- `-p` -/
  | atMostOne (p : Pattern)
  deriving DecidableEq, Repr

def isBlank (c : UInt8) : Bool := c == 0x20 || c == 0x09

def isDigit (c : UInt8) : Bool := 0x30 ≤ c && c ≤ 0x39

def isWord (c : UInt8) : Bool :=
  (0x30 ≤ c && c ≤ 0x39) || (0x41 ≤ c && c ≤ 0x5a) || (0x61 ≤ c && c ≤ 0x7a) || c == 0x5f

/-- Whether a pattern matches, and the position that it leaves behind in both cases. -/
abbrev MatchResult := Bool × ℕ

def matchOne (is : UInt8 → Bool) : Text → MatchResult
  | [] => (false, 0)
  | c :: _ => if is c then (true, 1) else (false, 0)

/-- `string_t`: as many characters are passed as are the same. -/
def matchStr : Text → Text → MatchResult
  | [], _ => (true, 0)
  | _ :: _, [] => (false, 0)
  | c :: s, d :: input =>
    if d = c then ((matchStr s input).1, (matchStr s input).2 + 1) else (false, 0)

def matchNewline : Text → MatchResult
  | [] => (false, 0)
  | c :: input =>
    if c = 0x0d then
      match input with
      | [] => (true, 1)
      | d :: _ => if d = 0x0a then (true, 2) else (true, 1)
    else if c = 0x0a then (true, 1)
    else (false, 0)

/-- The loop of `*` and `+` from a position on; there is no result when it does not end. -/
def matchLoop (p : Text → Option MatchResult) (input : Text) : ℕ → ℕ → Option MatchResult
  | 0, _ => none
  | fuel + 1, position =>
    match p (input.drop position) with
    | none => none
    | some (false, _) => some (true, position)
    | some (true, more) => matchLoop p input fuel (position + more)

/-- A position behind another one. -/
def MatchResult.behind (n : ℕ) (r : MatchResult) : MatchResult := (r.1, n + r.2)

/-- `parser::match`. The second pattern of a disjunction begins where the first one has stopped. -/
def Pattern.run : Pattern → Text → Option MatchResult
  | ch c, input => some (matchOne (· == c) input)
  | str s, input => some (matchStr s input)
  | blank, input => some (matchOne isBlank input)
  | digit, input => some (matchOne isDigit input)
  | word, input => some (matchOne isWord input)
  | newline, input => some (matchNewline input)
  | atEnd, input => some (input.isEmpty, 0)
  | composition p q, input =>
    match p.run input with
    | none => none
    | some (false, n) => some (false, n)
    | some (true, n) => (q.run (input.drop n)).map (MatchResult.behind n)
  | disjunction p q, input =>
    match p.run input with
    | none => none
    | some (false, n) => (q.run (input.drop n)).map (MatchResult.behind n)
    | some (true, n) => some (true, n)
  | conjunction p q, input =>
    match p.run input with
    | none => none
    | some (false, n) => some (false, n)
    | some (true, n) => q.run (input.take n)
  | anyNumberOf p, input => matchLoop p.run input (input.length + 1) 0
  | atLeastOne p, input =>
    match p.run input with
    | none => none
    | some (false, n) => some (false, n)
    | some (true, n) => matchLoop p.run input (input.length + 1) n
  | atMostOne p, input =>
    match p.run input with
    | none => none
    | some (false, _) => some (true, 0)
    | some (true, n) => some (true, n)

example : (Pattern.composition (.anyNumberOf (.ch 0x61)) (.ch 0x62)).run [0x61, 0x61, 0x62] =
    some (true, 3) := by decide

/-! ## What patterns mean -/

/-- The length of the first character, if it is one of a class. -/
def firstOf (is : UInt8 → Bool) : Text → Option ℕ
  | [] => none
  | c :: _ => if is c then some 1 else none

/-- The length of the line end at the beginning of a text. -/
def lineEnd : Text → Option ℕ
  | 0x0d :: 0x0a :: _ => some 2
  | 0x0d :: _ => some 1
  | 0x0a :: _ => some 1
  | _ => none

/-- The length of the only match of a pattern at the beginning of a text, or none. -/
inductive Matches : Pattern → Text → Option ℕ → Prop
  | ch (c : UInt8) (input : Text) : Matches (.ch c) input (firstOf (· == c) input)
  | str (s input : Text) :
    Matches (.str s) input (if s.isPrefixOf input then some s.length else none)
  | blank (input : Text) : Matches .blank input (firstOf isBlank input)
  | digit (input : Text) : Matches .digit input (firstOf isDigit input)
  | word (input : Text) : Matches .word input (firstOf isWord input)
  | newline (input : Text) : Matches .newline input (lineEnd input)
  | atEnd (input : Text) : Matches .atEnd input (if input.isEmpty then some 0 else none)
  | composition {p q : Pattern} {input : Text} {m : ℕ} {r : Option ℕ}
    (first : Matches p input (some m)) (second : Matches q (input.drop m) r) :
    Matches (.composition p q) input (r.map (m + ·))
  | compositionFails {p : Pattern} (q : Pattern) {input : Text} (first : Matches p input none) :
    Matches (.composition p q) input none
  | disjunction {p : Pattern} (q : Pattern) {input : Text} {m : ℕ}
    (first : Matches p input (some m)) : Matches (.disjunction p q) input (some m)
  | disjunctionFails {p q : Pattern} {input : Text} {r : Option ℕ}
    (first : Matches p input none) (second : Matches q input r) :
    Matches (.disjunction p q) input r
  | conjunction {p q : Pattern} {input : Text} {m : ℕ} {r : Option ℕ}
    (first : Matches p input (some m)) (second : Matches q (input.take m) r) :
    Matches (.conjunction p q) input r
  | conjunctionFails {p : Pattern} (q : Pattern) {input : Text} (first : Matches p input none) :
    Matches (.conjunction p q) input none
  | anyNumberOf {p : Pattern} {input : Text} {m n : ℕ} (first : Matches p input (some m))
    (more : Matches (.anyNumberOf p) (input.drop m) (some n)) :
    Matches (.anyNumberOf p) input (some (m + n))
  | anyNumberOfEnds {p : Pattern} {input : Text} (first : Matches p input none) :
    Matches (.anyNumberOf p) input (some 0)
  | atLeastOne {p : Pattern} {input : Text} {m n : ℕ} (first : Matches p input (some m))
    (more : Matches (.anyNumberOf p) (input.drop m) (some n)) :
    Matches (.atLeastOne p) input (some (m + n))
  | atLeastOneFails {p : Pattern} {input : Text} (first : Matches p input none) :
    Matches (.atLeastOne p) input none
  | atMostOne {p : Pattern} {input : Text} {m : ℕ} (first : Matches p input (some m)) :
    Matches (.atMostOne p) input (some m)
  | atMostOneFails {p : Pattern} {input : Text} (first : Matches p input none) :
    Matches (.atMostOne p) input (some 0)

/-- No repeated part of a pattern matches the empty text. -/
def Pattern.Advances : Pattern → Prop
  | composition p q | disjunction p q | conjunction p q => p.Advances ∧ q.Advances
  | anyNumberOf p | atLeastOne p => p.Advances ∧ ∀ input, ¬ Matches p input (some 0)
  | atMostOne p => p.Advances
  | _ => True

/-- A pattern that does not match, because of the first character already. -/
def Pattern.FailsAtStart : Pattern → Text → Prop
  | str s, input => ∃ c, s.head? = some c ∧ input.head? ≠ some c
  | composition p q, input =>
    p.FailsAtStart input ∨ Matches p input (some 0) ∧ q.FailsAtStart input
  | disjunction p q, input => p.FailsAtStart input ∧ q.FailsAtStart input
  | conjunction p q, input =>
    p.FailsAtStart input ∨ ∃ m, Matches p input (some m) ∧ q.FailsAtStart (input.take m)
  | atLeastOne p, input => p.FailsAtStart input
  | p, input => Matches p input none

/-- Where the repetition of a pattern gets to. -/
inductive Reaches (p : Pattern) (input : Text) : ℕ → Prop
  | start : Reaches p input 0
  | more {m n : ℕ} (h : Reaches p input n) (first : Matches p (input.drop n) (some m)) :
    Reaches p input (n + m)

/-- Wherever the second pattern of a disjunction is tried, the first one has failed at its
start. -/
def Pattern.Undisturbed : Pattern → Text → Prop
  | composition p q, input =>
    p.Undisturbed input ∧ ∀ m, Matches p input (some m) → q.Undisturbed (input.drop m)
  | disjunction p q, input =>
    p.Undisturbed input ∧ (Matches p input none → p.FailsAtStart input ∧ q.Undisturbed input)
  | conjunction p q, input =>
    p.Undisturbed input ∧ ∀ m, Matches p input (some m) → q.Undisturbed (input.take m)
  | anyNumberOf p, input | atLeastOne p, input =>
    ∀ n, Reaches p input n → p.Undisturbed (input.drop n)
  | atMostOne p, input => p.Undisturbed input
  | _, _ => True

end Fimbulwinter.Regex
