import Fimbulwinter.RegexMatches

/-! # The uniforms of a shader

The scan for uniforms in `create_shader`. A position is what is left of the source there, names
fit, and there is memory for them. -/
namespace Fimbulwinter.UniformScan
open Regex

abbrev Matcher := Text → Option MatchResult

/-- `!str(s)` -/
def matchStrNot : Text → Text → MatchResult
  | [], _ => (false, 0)
  | _ :: _, [] => (false, 0)
  | c :: s, d :: input =>
    if d = c then ((matchStrNot s input).1, (matchStrNot s input).2 + 1) else (true, 0)

/-- `!newline` -/
def matchNotNewline (input : Text) : MatchResult := matchOne (fun c => !(c == 0x0d || c == 0x0a)) input

/-- `p >> q` -/
def sequence (p q : Matcher) : Matcher := fun input =>
  match p input with
  | none => none
  | some (false, n) => some (false, n)
  | some (true, n) => (q (input.drop n)).map (MatchResult.behind n)

/-- `p | q` -/
def choice (p q : Matcher) : Matcher := fun input =>
  match p input with
  | none => none
  | some (false, n) => (q (input.drop n)).map (MatchResult.behind n)
  | some (true, n) => some (true, n)

/-- `*p` -/
def many (p : Matcher) : Matcher := fun input => matchLoop p input (input.length + 1) 0

/-- `uniform` -/
def uniform : Text := [0x75, 0x6e, 0x69, 0x66, 0x6f, 0x72, 0x6d]

/-- `sampler2D` -/
def sampler2D : Text := [0x73, 0x61, 0x6d, 0x70, 0x6c, 0x65, 0x72, 0x32, 0x44]

/-- The end of a block comment. -/
def close : Text := [0x2a, 0x2f]

def uniformBlanks : Matcher := (Pattern.composition (.str uniform) (.atLeastOne .blank)).run

def lineComment : Matcher :=
  sequence (sequence (Pattern.ch 0x2f).run (many fun input => some (matchNotNewline input)))
    Pattern.newline.run

def blockComment : Matcher :=
  sequence (sequence (Pattern.ch 0x2a).run (many fun input => some (matchStrNot close input)))
    (Pattern.str close).run

def comment : Matcher := sequence (Pattern.ch 0x2f).run (choice lineComment blockComment)

/-- What the scan searches for. -/
def marker : Matcher := choice uniformBlanks comment

/-- `parser::find` -/
def find (p : Matcher) (input : Text) : Option (Text × Text) :=
  match p input with
  | none => none
  | some (true, n) => some (input, input.drop n)
  | some (false, n) =>
    if n = input.length then some ([], [])
    else
      match input with
      | [] => none
      | _ :: rest => find p rest

/-- The matches behind what has been found; where the parser is then, and the name if it is that
of a texture. -/
def readDeclaration (second : Text) : Option (Text × Option Text) :=
  match (Pattern.atLeastOne .word).run second with
  | none => none
  | some (false, _) => some (second, none)
  | some (true, t) =>
    match (Pattern.atLeastOne .blank).run (second.drop t) with
    | none => none
    | some (false, _) => some (second.drop t, none)
    | some (true, b) =>
      let name := (second.drop t).drop b
      match (Pattern.atLeastOne .word).run name with
      | none => none
      | some (false, _) => some (name, none)
      | some (true, n) =>
        match (Pattern.composition (.anyNumberOf .blank) (.ch 0x3b)).run (name.drop n) with
        | none => none
        | some (false, _) => some (name.drop n, none)
        | some (true, _) =>
          some (name.drop n, if second.take t = sampler2D then some (name.take n) else none)

/-- The loop of the scan, with the positions of what it records; there is no result when it does
not end. -/
def scan : ℕ → Text → Option (List (Text × Text))
  | 0, _ => none
  | fuel + 1, input =>
    match find marker input with
    | none => none
    | some (first, second) =>
      if first = second then some []
      else if first.head? = some 0x2f then scan fuel second
      else
        match readDeclaration second with
        | none => none
        | some (rest, none) => scan fuel rest
        | some (rest, some name) => (scan fuel rest).map ((first, name) :: ·)

/-! ## What a scan should record -/

/-- Behind the end of a line. -/
def afterLine (input : Text) : Text :=
  let rest := input.dropWhile fun c => !(c == 0x0d || c == 0x0a)
  rest.drop ((lineEnd rest).getD 0)

/-- Behind the end of a block comment. -/
def afterBlock : Text → Text
  | 0x2a :: 0x2f :: rest => rest
  | _ :: rest => afterBlock rest
  | [] => []

/-- There is a comment, and behind it a rest. -/
inductive CommentAt : Text → Text → Prop
  | line (input : Text) : CommentAt (0x2f :: 0x2f :: input) (afterLine input)
  | block (input : Text) : CommentAt (0x2f :: 0x2a :: input) (afterBlock input)

/-- `sampler2D` blank+ name blank* `;` -/
def Typed (input name : Text) : Prop :=
  ∃ b₂ b₃ rest, input = sampler2D ++ (b₂ ++ (name ++ (b₃ ++ 0x3b :: rest))) ∧
    (∀ c ∈ b₂, isBlank c) ∧ (∀ c ∈ name, isWord c) ∧ (∀ c ∈ b₃, isBlank c) ∧ b₂ ≠ [] ∧ name ≠ []

/-- `uniform` blank+ `sampler2D` blank+ name blank* `;` -/
def IsDeclaration (input name : Text) : Prop :=
  ∃ b₁ second, input = uniform ++ (b₁ ++ second) ∧ (∀ c ∈ b₁, isBlank c) ∧ b₁ ≠ [] ∧
    Typed second name

/-- The declarations outside comments with their names, in the order of the source. -/
inductive Records : Text → List (Text × Text) → Prop
  | nil : Records [] []
  | comment {input rest : Text} {names : List (Text × Text)} (found : CommentAt input rest)
    (more : Records rest names) : Records input names
  | declaration {c : UInt8} {rest name : Text} {names : List (Text × Text)}
    (declared : IsDeclaration (c :: rest) name) (more : Records rest names) :
    Records (c :: rest) ((c :: rest, name) :: names)
  | other {c : UInt8} {rest : Text} {names : List (Text × Text)}
    (outside : ∀ rest', ¬ CommentAt (c :: rest) rest')
    (undeclared : ∀ name, ¬ IsDeclaration (c :: rest) name) (more : Records rest names) :
    Records (c :: rest) names

/-- The scan ends with a result. -/
def Ends (source : Text) (names : List (Text × Text)) : Prop :=
  ∃ bound, ∀ fuel ≥ bound, scan fuel source = some names

/-- The scan ends with the names that it should record. -/
def Scans (source : Text) : Prop := ∃ names, Records source names ∧ Ends source names

/-! ## Where the scan looks -/

/-- A block comment with nothing but stars in it. -/
def Bare (input : Text) : Prop :=
  ∃ n rest, input = List.replicate n 0x2a ++ rest ∧ (rest = [] ∨ 0 < n ∧ rest.head? = some 0x2f)

/-- The text behind is read as that of a declaration: it is behind `uniform` blank+, or behind a
comment that comes directly after a beginning of `uniform`. -/
inductive Reads : Text → Text → Prop
  | uniform {b second : Text} (blank : ∀ c ∈ b, isBlank c) (some : b ≠ [])
    (all : ∀ c, second.head? = Option.some c → isBlank c = false) :
    Reads (uniform ++ (b ++ second)) second
  | comment {k : ℕ} {input second : Text} (pos : 0 < k) (le : k ≤ 7)
    (found : CommentAt input second) : Reads (UniformScan.uniform.take k ++ input) second

/-- Behind a word, blanks and another word, as far as they are there. -/
def behindWords (second : Text) : Text :=
  if second.takeWhile isWord = [] then second
  else
    let rest := second.dropWhile isWord
    if rest.takeWhile isBlank = [] then rest else (rest.dropWhile isBlank).dropWhile isWord

/-- Positions that the scan searches at. -/
inductive Looks (source : Text) : Text → Prop
  | start : Looks source source
  | char {c : UInt8} {rest : Text} (before : Looks source (c :: rest))
    (outside : ∀ rest', ¬ CommentAt (c :: rest) rest')
    (unread : ∀ second, ¬ Reads (c :: rest) second) : Looks source rest
  | comment {input rest : Text} (before : Looks source input) (found : CommentAt input rest) :
    Looks source rest
  | read {input second : Text} (before : Looks source input) (read : Reads input second) :
    Looks source (behindWords second)

/-- What is good at a position. -/
structure Clean (input : Text) : Prop where
  /-- A block comment there, or behind a beginning of `uniform` there, is bare. -/
  bare : ∀ k rest, k ≤ 7 → input = uniform.take k ++ 0x2f :: 0x2a :: rest → Bare rest
  /-- What is read as a declaration of a texture is one. -/
  founded : ∀ second name, Reads input second → Typed second name → IsDeclaration input name
  /-- No declaration begins in the words that are read. -/
  whole : ∀ second, Reads input second → ∀ skipped left, second = skipped ++ left →
    (behindWords second).length < left.length → ∀ name, ¬ IsDeclaration left name

/-! ## Matchers -/

/-- A beginning of the string is passed. -/
theorem exists_matchStr (s input : Text) : ∃ k t, input = s.take k ++ t ∧ k ≤ s.length ∧
    ((k = s.length ∧ matchStr s input = (true, k)) ∨
      (k < s.length ∧ t.head? ≠ s[k]? ∧ matchStr s input = (false, k))) := by
  induction s generalizing input with
  | nil => exact ⟨0, input, rfl, Nat.le_refl 0, .inl ⟨rfl, rfl⟩⟩
  | cons c s ih =>
    cases input with
    | nil => exact ⟨0, [], rfl, Nat.zero_le _, .inr ⟨Nat.succ_pos _, (fun h => by cases h), rfl⟩⟩
    | cons d input =>
      by_cases hc : d = c
      · subst hc
        obtain ⟨k, t, rfl, hk, hmatch⟩ := ih input
        refine ⟨k + 1, t, rfl, Nat.succ_le_succ hk, ?_⟩
        rw [matchStr, if_pos rfl]
        obtain ⟨rfl, hmatch⟩ | ⟨hlt, hhead, hmatch⟩ := hmatch
        · exact .inl ⟨rfl, by rw [hmatch]⟩
        · exact .inr ⟨Nat.succ_lt_succ hlt, by rwa [List.getElem?_cons_succ], by rw [hmatch]⟩
      · refine ⟨0, d :: input, rfl, Nat.zero_le _, .inr ⟨Nat.succ_pos _, fun h => hc ?_, ?_⟩⟩
        · exact Option.some.inj h
        · rw [matchStr, if_neg hc]

/-- What stops the string stops the match. -/
theorem matchStr_take {s t : Text} {k : ℕ} (hk : k < s.length) (ht : t.head? ≠ s[k]?) :
    matchStr s (s.take k ++ t) = (false, k) := by
  induction s generalizing k with
  | nil => cases hk
  | cons c s ih =>
    cases k with
    | zero =>
      cases t with
      | nil => rfl
      | cons d t => exact if_neg fun heq => ht (congrArg some heq)
    | succ k =>
      have hmatch := ih (Nat.lt_of_succ_lt_succ hk) (by rwa [List.getElem?_cons_succ] at ht)
      rw [List.take_succ_cons, List.cons_append, matchStr, if_pos rfl, hmatch]

theorem matchStr_append (s t : Text) : matchStr s (s ++ t) = (true, s.length) := by
  induction s with
  | nil => cases t <;> rfl
  | cons c s ih => rw [List.cons_append, matchStr, if_pos rfl, ih, List.length_cons]

section Loops

variable {p : Matcher} {is : UInt8 → Bool} {input : Text}

/-- A loop over characters of a class passes all of them. -/
theorem matchLoop_one (hp : ∀ t, p t = some (matchOne is t)) {fuel : ℕ} (done t : Text)
    (hfuel : t.length < fuel) :
    matchLoop p (done ++ t) fuel done.length =
      some (true, done.length + (t.takeWhile is).length) := by
  induction fuel generalizing done t with
  | zero => cases hfuel
  | succ fuel ih =>
    rw [matchLoop, List.drop_left, hp]
    cases t with
    | nil => rfl
    | cons c t =>
      rw [matchOne, List.takeWhile_cons]
      by_cases hc : is c = true
      · rw [if_pos hc, if_pos hc]
        have hmore := ih (done ++ [c]) t (Nat.lt_of_succ_lt_succ hfuel)
        rw [List.append_assoc, List.singleton_append, List.length_append, List.length_singleton] at hmore
        rw [List.length_cons]
        dsimp only
        rw [hmore]
        congr 2
        omega
      · rw [if_neg hc, if_neg hc]
        rfl

theorem many_one (hp : ∀ t, p t = some (matchOne is t)) (input : Text) :
    many p input = some (true, (input.takeWhile is).length) := by
  have hloop := matchLoop_one hp [] input (Nat.lt_succ_self input.length)
  rw [List.nil_append, List.length_nil, Nat.zero_add] at hloop
  exact hloop

/-- One or more characters of a class. -/
theorem run_atLeastOne (is : UInt8 → Bool) {q : Pattern}
    (hq : ∀ t, q.run t = some (matchOne is t)) (input : Text) :
    (Pattern.atLeastOne q).run input =
      if input.takeWhile is = [] then some (false, 0)
      else some (true, (input.takeWhile is).length) := by
  rw [Pattern.run, hq]
  cases input with
  | nil => rfl
  | cons c input =>
    rw [matchOne, List.takeWhile_cons]
    by_cases hc : is c = true
    · rw [if_pos hc, if_pos hc, if_neg (List.cons_ne_nil _ _)]
      have hloop := matchLoop_one hq [c] input (show input.length < input.length + 1 + 1 by omega)
      rw [List.singleton_append, List.length_singleton] at hloop
      dsimp only
      rw [List.length_cons, hloop, List.length_cons, Nat.add_comm]
    · rw [if_neg hc, if_neg hc, if_pos rfl]

theorem run_anyNumberOf (is : UInt8 → Bool) {q : Pattern}
    (hq : ∀ t, q.run t = some (matchOne is t)) (input : Text) :
    (Pattern.anyNumberOf q).run input = some (true, (input.takeWhile is).length) :=
  many_one hq input

theorem drop_takeWhile (is : UInt8 → Bool) (input : Text) :
    input.drop (input.takeWhile is).length = input.dropWhile is := by
  conv_lhs => rw [← List.takeWhile_append_dropWhile (p := is) (l := input)]
  exact List.drop_left' (by rw [List.takeWhile_append_dropWhile])

theorem take_takeWhile (is : UInt8 → Bool) (input : Text) :
    input.take (input.takeWhile is).length = input.takeWhile is := by
  conv_lhs => rw [← List.takeWhile_append_dropWhile (p := is) (l := input)]
  exact List.take_left' (by rw [List.takeWhile_append_dropWhile])

/-- All characters of a class at the beginning of a text. -/
theorem takeWhile_append {a t : Text} (ha : ∀ c ∈ a, is c)
    (ht : ∀ c, t.head? = some c → is c = false) :
    (a ++ t).takeWhile is = a ∧ (a ++ t).dropWhile is = t := by
  rw [List.takeWhile_append_of_pos ha, List.dropWhile_append_of_pos ha]
  cases t with
  | nil => exact ⟨List.append_nil a, rfl⟩
  | cons c t =>
    have hc := ht c rfl
    rw [List.takeWhile_cons, List.dropWhile_cons, if_neg (by rw [hc]; exact Bool.false_ne_true),
      if_neg (by rw [hc]; exact Bool.false_ne_true), List.append_nil]
    exact ⟨rfl, rfl⟩

end Loops

/-! ## Comments -/

section Comments

variable {u t rest : Text}

/-- A loop over the stars of a bare comment stops in front of the last one. -/
theorem matchLoop_stars {fuel : ℕ} (n : ℕ) (done : Text) {r : Text} (hr : r = [] ∨ r.head? = some 0x2f)
    (hfuel : n < fuel) :
    matchLoop (fun input => some (matchStrNot close input))
        (done ++ (List.replicate (n + 1) 0x2a ++ r)) fuel done.length =
      some (true, done.length + n) := by
  induction fuel generalizing done n with
  | zero => cases hfuel
  | succ fuel ih =>
    rw [matchLoop, List.drop_left, List.replicate_succ, List.cons_append, close, matchStrNot, if_pos rfl]
    cases n with
    | zero =>
      obtain rfl | hr := hr
      · rfl
      · obtain ⟨r, rfl⟩ := List.head?_eq_some_iff.mp hr
        rfl
    | succ n =>
      have hmore := ih n (done ++ [0x2a]) (Nat.lt_of_succ_lt_succ hfuel)
      rw [List.append_assoc, List.singleton_append, List.length_append, List.length_singleton] at hmore
      rw [List.replicate_succ, List.cons_append, matchStrNot, if_neg (by decide)]
      dsimp only
      rw [← List.cons_append, ← List.replicate_succ]
      rw [close] at hmore
      rw [hmore]
      congr 2
      omega

/-- A loop over anything else does not end. -/
theorem matchLoop_not_bare (fuel m : ℕ) (hbare : ¬ Bare (List.replicate m 0x2a ++ t)) :
    matchLoop (fun input => some (matchStrNot close input)) (List.replicate m 0x2a ++ t) fuel m =
      none := by
  induction fuel generalizing m t with
  | zero => rfl
  | succ fuel ih =>
    rw [matchLoop, List.drop_left' List.length_replicate]
    cases t with
    | nil => exact absurd ⟨m, [], rfl, .inl rfl⟩ hbare
    | cons c t =>
      by_cases hc : c = 0x2a
      · subst hc
        have hstep : List.replicate m 0x2a ++ 0x2a :: t = List.replicate (m + 1) 0x2a ++ t := by
          rw [List.replicate_succ', List.append_assoc]
          rfl
        rw [close, matchStrNot, if_pos rfl]
        cases t with
        | nil => exact absurd ⟨m + 1, [], hstep, .inl rfl⟩ hbare
        | cons d t =>
          have hd : d ≠ 0x2f := fun hd => hbare ⟨m + 1, d :: t, hstep, .inr ⟨Nat.succ_pos m, congrArg some hd⟩⟩
          rw [matchStrNot, if_neg hd, hstep]
          rw [hstep] at hbare
          exact ih (m + 1) hbare
      · rw [close, matchStrNot, if_neg hc]
        exact ih m hbare

theorem many_not_bare (hbare : ¬ Bare u) :
    many (fun input => some (matchStrNot close input)) u = none :=
  matchLoop_not_bare (u.length + 1) 0 hbare

theorem afterBlock_stars (n : ℕ) (r : Text) :
    afterBlock (List.replicate (n + 1) 0x2a ++ 0x2f :: r) = r ∧
      afterBlock (List.replicate n 0x2a) = [] := by
  constructor
  · induction n with
    | zero => rfl
    | succ n ih =>
      rw [List.replicate_succ, List.cons_append, List.replicate_succ, List.cons_append, afterBlock]
      · rwa [List.replicate_succ, List.cons_append] at ih
      · rintro rest - h
        cases h
  · induction n with
    | zero => rfl
    | succ n ih =>
      rw [List.replicate_succ, afterBlock]
      · exact ih
      · intro rest _ h
        cases n with
        | zero => cases h
        | succ n =>
          rw [List.replicate_succ] at h
          cases h

theorem comment_cons (u : Text) : comment (0x2f :: u) =
    (choice lineComment blockComment u).map (MatchResult.behind 1) := rfl

theorem run_ch_other {c : UInt8} (h : u.head? ≠ some c) :
    (Pattern.ch c).run u = some (false, 0) := by
  rw [Pattern.run, matchOne_fails]
  cases u with
  | nil => rfl
  | cons d u => exact if_neg fun heq => h (congrArg some (eq_of_beq heq))

theorem comment_other (h : u.head? ≠ some 0x2f) : comment u = some (false, 0) := by
  rw [comment, sequence, run_ch_other h]

theorem lineComment_other (h : u.head? ≠ some 0x2f) : lineComment u = some (false, 0) := by
  rw [lineComment, sequence, sequence, run_ch_other h]

theorem blockComment_other (h : u.head? ≠ some 0x2a) : blockComment u = some (false, 0) := by
  rw [blockComment, sequence, sequence, run_ch_other h]

theorem comment_slash (hline : u.head? ≠ some 0x2f) (hblock : u.head? ≠ some 0x2a) :
    comment (0x2f :: u) = some (false, 1) := by
  rw [comment_cons, choice, lineComment_other hline]
  dsimp only
  rw [List.drop_zero, blockComment_other hblock]
  rfl

theorem exists_lineEnd {c : UInt8} {r : Text}
    (h : (u.dropWhile fun c => !(c == 0x0d || c == 0x0a)) = c :: r) : ∃ n, lineEnd (c :: r) = some n := by
  have hhead := List.head?_dropWhile_not (fun c : UInt8 => !(c == 0x0d || c == 0x0a)) u
  rw [h, List.head?_cons] at hhead
  have hc : c = 0x0d ∨ c = 0x0a := by simpa [or_iff_not_imp_left] using hhead
  obtain rfl | rfl := hc
  · obtain _ | ⟨d, r⟩ := r
    · exact ⟨1, rfl⟩
    · by_cases hd : d = 0x0a
      · rw [hd]
        exact ⟨2, rfl⟩
      · exact ⟨1, by simp [lineEnd, hd]⟩
  · exact ⟨1, rfl⟩

theorem lineComment_slash (u : Text) : lineComment (0x2f :: u) =
    (Pattern.newline.run (u.dropWhile fun c => !(c == 0x0d || c == 0x0a))).map
      (MatchResult.behind (1 + (u.takeWhile fun c => !(c == 0x0d || c == 0x0a)).length)) := by
  have hfirst : (Pattern.ch 0x2f).run (0x2f :: u) = some (true, 1) := rfl
  rw [lineComment, sequence, sequence, hfirst]
  dsimp only
  rw [List.drop_succ_cons, List.drop_zero, @many_one (fun input => some (matchNotNewline input))
    (fun c => !(c == 0x0d || c == 0x0a)) fun _ => rfl]
  dsimp only [Option.map_some, MatchResult.behind]
  rw [Nat.add_comm 1, List.drop_succ_cons, drop_takeWhile]

/-- A line comment is passed, with the end of its line or up to the end of the source. -/
theorem comment_line (u : Text) :
    (∃ n, comment (0x2f :: 0x2f :: u) = some (true, n) ∧ 0 < n ∧ n ≤ u.length + 2 ∧
        (0x2f :: 0x2f :: u).drop n = afterLine u) ∨
      (comment (0x2f :: 0x2f :: u) = some (false, u.length + 2) ∧ afterLine u = []) := by
  have hlength := congrArg List.length
    (List.takeWhile_append_dropWhile (p := fun c : UInt8 => !(c == 0x0d || c == 0x0a)) (l := u))
  rw [List.length_append] at hlength
  rw [comment_cons, choice, lineComment_slash, Pattern.run, matchNewline_eq, afterLine]
  cases hrest : u.dropWhile fun c => !(c == 0x0d || c == 0x0a) with
  | nil =>
    refine .inr ⟨?_, rfl⟩
    rw [hrest, List.length_nil, Nat.add_zero] at hlength
    dsimp only [lineEnd, Option.isSome, Option.getD, Option.map_some, MatchResult.behind]
    rw [hlength, List.drop_of_length_le (by rw [List.length_cons]; omega), blockComment_other (by decide)]
    dsimp only [Option.map_some, MatchResult.behind]
    congr 2
    omega
  | cons c r =>
    obtain ⟨n, hn⟩ := exists_lineEnd hrest
    have hle := lineEnd_le hn
    rw [hrest] at hlength
    refine .inl ⟨1 + (1 + (u.takeWhile fun c => !(c == 0x0d || c == 0x0a)).length + n), ?_, by omega,
      by omega, ?_⟩
    · rw [hn]
      rfl
    · have hsum : 1 + (1 + (u.takeWhile fun c => !(c == 0x0d || c == 0x0a)).length + n) =
          (u.takeWhile fun c => !(c == 0x0d || c == 0x0a)).length + n + 1 + 1 := by omega
      rw [hsum, List.drop_succ_cons, List.drop_succ_cons, ← List.drop_drop, drop_takeWhile, hrest, hn]
      rfl

/-- The loop decides what a block comment matches, and the end behind it. -/
theorem comment_star (u : Text) : comment (0x2f :: 0x2a :: u) =
    match many (fun input => some (matchStrNot close input)) u with
    | none => none
    | some (false, n) => some (false, 1 + (0 + (1 + n)))
    | some (true, n) =>
      some ((matchStr close (u.drop n)).behind (1 + n) |>.behind 0 |>.behind 1) := by
  have hfirst : (Pattern.ch 0x2a).run (0x2a :: u) = some (true, 1) := rfl
  have hline : lineComment (0x2a :: u) = some (false, 0) :=
    lineComment_other fun h => absurd (Option.some.inj h) (by decide)
  rw [comment_cons, choice, hline]
  dsimp only
  rw [List.drop_zero, blockComment, sequence, sequence, hfirst]
  dsimp only
  rw [List.drop_succ_cons, List.drop_zero]
  obtain _ | ⟨_ | _, n⟩ := many (fun input => some (matchStrNot close input)) u
  · rfl
  · rfl
  · dsimp only [Option.map_some, MatchResult.behind]
    rw [Nat.add_comm 1, List.drop_succ_cons]
    rfl

/-- A bare block comment is passed, or the source ends in it. -/
theorem comment_block (hbare : Bare u) :
    (∃ n, comment (0x2f :: 0x2a :: u) = some (true, n) ∧ 0 < n ∧ n ≤ u.length + 2 ∧
        (0x2f :: 0x2a :: u).drop n = afterBlock u) ∨
      (comment (0x2f :: 0x2a :: u) = some (false, u.length + 2) ∧ afterBlock u = []) := by
  rw [comment_star]
  obtain ⟨n, r, rfl, hr⟩ := hbare
  cases n with
  | zero =>
    obtain rfl | hr := hr
    · exact .inr ⟨rfl, rfl⟩
    · exact absurd hr.1 (Nat.lt_irrefl 0)
  | succ n =>
    have hfuel : n < (List.replicate (n + 1) (0x2a : UInt8) ++ r).length + 1 := by
      rw [List.length_append, List.length_replicate]
      omega
    have hloop := matchLoop_stars n [] (hr.imp id And.right) hfuel
    rw [List.nil_append, List.length_nil, Nat.zero_add] at hloop
    rw [many, hloop]
    have hdrop : (List.replicate (n + 1) 0x2a ++ r).drop n = 0x2a :: r := by
      rw [List.replicate_succ', List.append_assoc, List.drop_left' List.length_replicate]
      rfl
    dsimp only
    rw [hdrop]
    obtain rfl | ⟨-, hr⟩ := hr
    · refine .inr ⟨?_, ?_⟩
      · rw [List.append_nil, List.length_replicate]
        have hmatch : matchStr close [0x2a] = (false, 1) := rfl
        rw [hmatch]
        dsimp only [MatchResult.behind]
        congr 2
        omega
      · rw [List.append_nil]
        exact (afterBlock_stars (n + 1) []).2
    · obtain ⟨r, rfl⟩ := List.head?_eq_some_iff.mp hr
      have hmatch : matchStr close (0x2a :: 0x2f :: r) = (true, 2) := matchStr_append close r
      rw [hmatch]
      refine .inl ⟨1 + (0 + (1 + n + 2)), rfl, by omega, ?_, ?_⟩
      · rw [List.length_append, List.length_replicate, List.length_cons]
        omega
      · have hsum : 1 + (0 + (1 + n + 2)) = n + 2 + 1 + 1 := by omega
        rw [hsum, List.drop_succ_cons, List.drop_succ_cons, ← List.drop_drop, hdrop,
          (afterBlock_stars n r).1]
        rfl

theorem comment_not_bare (hbare : ¬ Bare u) : comment (0x2f :: 0x2a :: u) = none := by
  rw [comment_star, many_not_bare hbare]

/-- A comment is passed, or the source ends in it. -/
theorem CommentAt.comment (h : CommentAt t rest) (hbare : ∀ u, t = 0x2f :: 0x2a :: u → Bare u) :
    (∃ n, comment t = some (true, n) ∧ 0 < n ∧ n ≤ t.length ∧ t.drop n = rest) ∨
      (UniformScan.comment t = some (false, t.length) ∧ rest = []) := by
  cases h with
  | line u => exact comment_line u
  | block u => exact comment_block (hbare u rfl)

theorem CommentAt.head (h : CommentAt t rest) : t.head? = some 0x2f := by
  cases h <;> rfl

theorem length_afterBlock_le (u : Text) : (afterBlock u).length ≤ u.length := by
  fun_induction afterBlock u with
  | case1 rest => exact Nat.le_trans (Nat.le_succ _) (Nat.le_succ _)
  | case2 c rest hnot ih => exact Nat.le_succ_of_le ih
  | case3 => exact Nat.le_refl 0

theorem CommentAt.length_lt (h : CommentAt t rest) : rest.length < t.length := by
  cases h with
  | line u =>
    have hle := (List.dropWhile_sublist (fun c : UInt8 => !(c == 0x0d || c == 0x0a)) (l := u)).length_le
    rw [afterLine, List.length_drop, List.length_cons, List.length_cons]
    omega
  | block u =>
    have hle := length_afterBlock_le u
    rw [List.length_cons, List.length_cons]
    omega

theorem CommentAt.unique {rest' : Text} (h : CommentAt t rest) (h' : CommentAt t rest') :
    rest = rest' := by
  cases h <;> cases h' <;> rfl

end Comments

/-! ## Declarations -/

section Declarations

variable {second name : Text}

theorem isWord_of_isBlank {c : UInt8} (h : isBlank c = true) : isWord c = false := by
  rw [isBlank, Bool.or_eq_true, beq_iff_eq, beq_iff_eq] at h
  obtain rfl | rfl := h <;> rfl

theorem isBlank_of_isWord {c : UInt8} (h : isWord c = true) : isBlank c = false := by
  refine Bool.eq_false_iff.mpr fun hblank => ?_
  rw [isWord_of_isBlank hblank] at h
  cases h

theorem isWord_sampler2D : ∀ c ∈ sampler2D, isWord c := List.all_eq_true.mp rfl

/-- The parts of a typed name are what the matchers pass. -/
theorem Typed.parts (h : Typed second name) : second.takeWhile isWord = sampler2D ∧
    (second.dropWhile isWord).takeWhile isBlank ≠ [] ∧
    (((second.dropWhile isWord).dropWhile isBlank).takeWhile isWord = name ∧ name ≠ []) ∧
    ∃ rest, (((second.dropWhile isWord).dropWhile isBlank).dropWhile isWord).dropWhile isBlank =
      0x3b :: rest := by
  obtain ⟨b₂, b₃, rest, rfl, hb₂, hname, hb₃, hb₂', hname'⟩ := h
  obtain ⟨c, b₂, rfl⟩ := List.exists_cons_of_ne_nil hb₂'
  obtain ⟨d, name, rfl⟩ := List.exists_cons_of_ne_nil hname'
  have htype := @takeWhile_append isWord sampler2D (c :: b₂ ++ (d :: name ++ (b₃ ++ 0x3b :: rest)))
    isWord_sampler2D fun e he => by
      cases he
      exact isWord_of_isBlank (hb₂ c (List.mem_cons_self ..))
  have hblanks := @takeWhile_append isBlank (c :: b₂) (d :: name ++ (b₃ ++ 0x3b :: rest)) hb₂
    fun e he => by
      cases he
      exact isBlank_of_isWord (hname d (List.mem_cons_self ..))
  have hword := @takeWhile_append isWord (d :: name) (b₃ ++ 0x3b :: rest) hname fun e he => by
      cases b₃ with
      | nil =>
        cases he
        rfl
      | cons f b₃ =>
        cases he
        exact isWord_of_isBlank (hb₃ e (List.mem_cons_self ..))
  have hend := @takeWhile_append isBlank b₃ (0x3b :: rest) hb₃ fun e he => by
    cases he
    rfl
  rw [htype.1, htype.2, hblanks.1, hblanks.2, hword.1, hword.2, hend.2]
  exact ⟨rfl, hb₂', ⟨rfl, hname'⟩, rest, rfl⟩

theorem all_takeWhile (is : UInt8 → Bool) (input : Text) : ∀ c ∈ input.takeWhile is, is c :=
  List.all_eq_true.mp List.all_takeWhile

theorem dropWhile_of_takeWhile {is : UInt8 → Bool} {input : Text} (h : input.takeWhile is = []) :
    input.dropWhile is = input := by
  have hparts := List.takeWhile_append_dropWhile (p := is) (l := input)
  rwa [h, List.nil_append] at hparts

/-- What the matchers pass is a typed name. -/
theorem typed_of_parts {rest : Text} (htype : second.takeWhile isWord = sampler2D)
    (hblanks : (second.dropWhile isWord).takeWhile isBlank ≠ [])
    (hname : ((second.dropWhile isWord).dropWhile isBlank).takeWhile isWord ≠ [])
    (hend : (((second.dropWhile isWord).dropWhile isBlank).dropWhile isWord).dropWhile isBlank =
      0x3b :: rest) : Typed second (((second.dropWhile isWord).dropWhile isBlank).takeWhile isWord) := by
  refine ⟨(second.dropWhile isWord).takeWhile isBlank, _, rest, ?_, all_takeWhile _ _,
    all_takeWhile _ _, all_takeWhile isBlank
      (((second.dropWhile isWord).dropWhile isBlank).dropWhile isWord), hblanks, hname⟩
  rw [← hend, List.takeWhile_append_dropWhile, List.takeWhile_append_dropWhile,
    List.takeWhile_append_dropWhile, ← htype, List.takeWhile_append_dropWhile]

/-- What is read behind a beginning of a declaration: the parser is behind the words, and there is
a name exactly if it is that of a texture. -/
theorem readDeclaration_eq (second : Text) : ∃ name,
    readDeclaration second = some (behindWords second, name) ∧
      ∀ n, name = some n ↔ Typed second n := by
  rw [readDeclaration, run_atLeastOne isWord fun _ => rfl, behindWords]
  by_cases htype : second.takeWhile isWord = []
  · rw [if_pos htype, if_pos htype]
    refine ⟨none, rfl, fun n => ⟨(fun h => by cases h), fun h => ?_⟩⟩
    rw [h.parts.1] at htype
    cases htype
  rw [if_neg htype, if_neg htype]
  dsimp only
  rw [drop_takeWhile, run_atLeastOne isBlank fun _ => rfl]
  by_cases hblanks : (second.dropWhile isWord).takeWhile isBlank = []
  · rw [if_pos hblanks, if_pos hblanks]
    exact ⟨none, rfl, fun n => ⟨(fun h => by cases h), fun h => absurd hblanks h.parts.2.1⟩⟩
  rw [if_neg hblanks, if_neg hblanks]
  dsimp only
  rw [drop_takeWhile, run_atLeastOne isWord fun _ => rfl]
  by_cases hname : ((second.dropWhile isWord).dropWhile isBlank).takeWhile isWord = []
  · rw [if_pos hname, dropWhile_of_takeWhile hname]
    refine ⟨none, rfl, fun n => ⟨(fun h => by cases h), fun h => ?_⟩⟩
    exact absurd (h.parts.2.2.1.1.symm.trans hname) h.parts.2.2.1.2
  rw [if_neg hname]
  dsimp only
  rw [drop_takeWhile, take_takeWhile, take_takeWhile, Pattern.run, run_anyNumberOf isBlank fun _ => rfl]
  dsimp only
  rw [drop_takeWhile, Pattern.run]
  cases hend : (((second.dropWhile isWord).dropWhile isBlank).dropWhile isWord).dropWhile isBlank with
  | nil =>
    refine ⟨none, rfl, fun n => ⟨(fun h => by cases h), fun h => ?_⟩⟩
    obtain ⟨rest, hrest⟩ := h.parts.2.2.2
    rw [hend] at hrest
    cases hrest
  | cons c rest =>
    rw [matchOne]
    by_cases hc : (c == 0x3b) = true
    · rw [if_pos hc]
      obtain rfl : c = 0x3b := eq_of_beq hc
      refine ⟨if second.takeWhile isWord = sampler2D then
        some (((second.dropWhile isWord).dropWhile isBlank).takeWhile isWord) else none, rfl, fun n => ?_⟩
      constructor
      · intro h
        split_ifs at h with hsampler
        cases h
        exact typed_of_parts hsampler hblanks hname hend
      · intro h
        obtain ⟨hsampler, -, ⟨hn, -⟩, -⟩ := h.parts
        rw [if_pos hsampler, hn]
    · rw [if_neg hc]
      refine ⟨none, rfl, fun n => ⟨(fun h => by cases h), fun h => ?_⟩⟩
      obtain ⟨rest', hrest⟩ := h.parts.2.2.2
      rw [hend] at hrest
      cases hrest
      exact absurd rfl hc

/-- The words are a part of the text in which no comment begins. -/
theorem exists_words (second : Text) :
    ∃ words, second = words ++ behindWords second ∧ 0x2f ∉ words := by
  have hslash : ∀ (is : UInt8 → Bool) (input : Text), is 0x2f = false →
      0x2f ∉ input.takeWhile is := fun is input his hmem => by
    have h := all_takeWhile is input _ hmem
    rw [his] at h
    cases h
  rw [behindWords]
  by_cases htype : second.takeWhile isWord = []
  · rw [if_pos htype]
    exact ⟨[], rfl, List.not_mem_nil⟩
  rw [if_neg htype]
  dsimp only
  by_cases hblanks : (second.dropWhile isWord).takeWhile isBlank = []
  · rw [if_pos hblanks]
    exact ⟨_, (List.takeWhile_append_dropWhile).symm, hslash isWord second rfl⟩
  rw [if_neg hblanks]
  refine ⟨second.takeWhile isWord ++ ((second.dropWhile isWord).takeWhile isBlank ++
    ((second.dropWhile isWord).dropWhile isBlank).takeWhile isWord), ?_, ?_⟩
  · rw [List.append_assoc, List.append_assoc, List.takeWhile_append_dropWhile,
      List.takeWhile_append_dropWhile, List.takeWhile_append_dropWhile]
  · rw [List.mem_append, List.mem_append]
    rintro (h | h | h)
    · exact hslash isWord _ rfl h
    · exact hslash isBlank _ rfl h
    · exact hslash isWord _ rfl h

end Declarations

/-! ## Attempts -/

section Attempts

variable {k : ℕ} {b second s t rest : Text}

/-- What follows a beginning of `uniform` does not go on with it. -/
def Stops (k : ℕ) (t : Text) : Prop :=
  (k < 7 → t.head? ≠ uniform[k]?) ∧ (k = 7 → t.takeWhile isBlank = [])

theorem length_beginning (hk : k ≤ 7) : (uniform.take k).length = k := by
  rw [List.length_take]
  exact Nat.min_eq_left hk

theorem uniformBlanks_beginning (hk : k ≤ 7) (hstops : Stops k t) :
    uniformBlanks (uniform.take k ++ t) = some (false, k) := by
  rw [uniformBlanks, Pattern.run, Pattern.run]
  obtain hlt | rfl := Nat.lt_or_eq_of_le hk
  · rw [matchStr_take hlt (hstops.1 hlt)]
  · rw [show uniform.take 7 = uniform from rfl, matchStr_append]
    dsimp only
    rw [List.drop_left, run_atLeastOne isBlank fun _ => rfl, if_pos (hstops.2 rfl)]
    rfl

theorem marker_beginning (hk : k ≤ 7) (hstops : Stops k t) :
    marker (uniform.take k ++ t) = (comment t).map (MatchResult.behind k) := by
  rw [marker, choice, uniformBlanks_beginning hk hstops]
  dsimp only
  rw [List.drop_left' (length_beginning hk)]

theorem uniformBlanks_uniform (hb : ∀ c ∈ b, isBlank c) (hb' : b ≠ [])
    (hsecond : ∀ c, second.head? = some c → isBlank c = false) :
    uniformBlanks (uniform ++ (b ++ second)) = some (true, 7 + b.length) := by
  rw [uniformBlanks, Pattern.run, Pattern.run, matchStr_append]
  dsimp only
  rw [List.drop_left, run_atLeastOne isBlank fun _ => rfl, (takeWhile_append hb hsecond).1,
    if_neg hb']
  rfl

theorem marker_uniform (hb : ∀ c ∈ b, isBlank c) (hb' : b ≠ [])
    (hsecond : ∀ c, second.head? = some c → isBlank c = false) :
    marker (uniform ++ (b ++ second)) = some (true, 7 + b.length) := by
  rw [marker, choice, uniformBlanks_uniform hb hb' hsecond]

/-- A text is that of `uniform` blank+, or something stops it before. -/
theorem exists_beginning (s : Text) :
    (∃ b second, s = uniform ++ (b ++ second) ∧ (∀ c ∈ b, isBlank c) ∧ b ≠ [] ∧
        ∀ c, second.head? = some c → isBlank c = false) ∨
      ∃ k t, s = uniform.take k ++ t ∧ k ≤ 7 ∧ Stops k t := by
  obtain ⟨k, t, rfl, hk, ⟨rfl, -⟩ | ⟨hlt, hhead, -⟩⟩ := exists_matchStr uniform s
  · by_cases hblanks : t.takeWhile isBlank = []
    · exact .inr ⟨7, t, rfl, Nat.le_refl 7, fun h => absurd h (Nat.lt_irrefl 7), fun _ => hblanks⟩
    · refine .inl ⟨t.takeWhile isBlank, t.dropWhile isBlank, ?_, all_takeWhile isBlank t, hblanks,
        fun c hc => ?_⟩
      · rw [List.takeWhile_append_dropWhile]
        rfl
      · have hhead := List.head?_dropWhile_not isBlank t
        rw [hc] at hhead
        exact hhead
  · exact .inr ⟨k, t, rfl, hk, fun _ => hhead, fun h => absurd hlt (by rw [h]; exact Nat.lt_irrefl 7)⟩

theorem CommentAt.stops (h : CommentAt t rest) (k : ℕ) : Stops k t := by
  have hslash : ∀ i < 7, some 0x2f ≠ uniform[i]? := by decide
  refine ⟨fun hlt => ?_, fun _ => ?_⟩
  · rw [h.head]
    exact hslash k hlt
  · cases h <;> rfl

/-- Only a slash may be passed where there is no comment. -/
theorem comment_of_not (h : ∀ rest, ¬ CommentAt t rest) :
    (comment t = some (false, 0) ∧ t.head? ≠ some 0x2f) ∨
      ∃ u, t = 0x2f :: u ∧ comment t = some (false, 1) := by
  by_cases hhead : t.head? = some 0x2f
  · cases t with
    | nil => cases hhead
    | cons c u =>
      cases hhead
      refine .inr ⟨u, rfl, comment_slash (fun hu => ?_) fun hu => ?_⟩
      · cases u with
        | nil => cases hu
        | cons d u =>
          cases hu
          exact h _ (.line u)
      · cases u with
        | nil => cases hu
        | cons d u =>
          cases hu
          exact h _ (.block u)
  · exact .inl ⟨comment_other hhead, hhead⟩

end Attempts

/-! ## How scans go on -/

section Scans

variable {k : ℕ} {c : UInt8} {s t rest second : Text} {names : List (Text × Text)}

theorem ends_iff_of_find (h : find marker s = some ([], [])) : Ends s names ↔ names = [] := by
  have hscan : ∀ fuel, scan (fuel + 1) s = some [] := fun fuel => by rw [scan, h]; rfl
  constructor
  · rintro ⟨bound, hbound⟩
    have hends := hbound (bound + 1) (Nat.le_succ bound)
    rw [hscan] at hends
    exact (Option.some.inj hends).symm
  · rintro rfl
    refine ⟨1, fun fuel hfuel => ?_⟩
    obtain ⟨fuel, rfl⟩ : ∃ fuel', fuel = fuel' + 1 := ⟨fuel - 1, by omega⟩
    exact hscan fuel

theorem ends_nil : Ends [] names ↔ names = [] := ends_iff_of_find rfl

/-- A scan that goes on elsewhere, with one unit of fuel less. -/
theorem ends_iff_of_scan {f : List (Text × Text) → List (Text × Text)} (hf : Function.Injective f)
    (h : ∀ fuel, scan (fuel + 1) s = (scan fuel t).map f) :
    Ends s names ↔ ∃ names', Ends t names' ∧ names = f names' := by
  constructor
  · rintro ⟨bound, hbound⟩
    have hends := fun fuel (hfuel : fuel ≥ bound) => hbound (fuel + 1) (by omega)
    simp only [h] at hends
    obtain ⟨names', -, rfl⟩ := Option.map_eq_some_iff.mp (hends bound (Nat.le_refl bound))
    exact ⟨names', ⟨bound, fun fuel hfuel => Option.map_injective hf (hends fuel hfuel)⟩, rfl⟩
  · rintro ⟨names', ⟨bound, hbound⟩, rfl⟩
    refine ⟨bound + 1, fun fuel hfuel => ?_⟩
    obtain ⟨fuel, rfl⟩ : ∃ fuel', fuel = fuel' + 1 := ⟨fuel - 1, by omega⟩
    rw [h, hbound fuel (by omega)]
    rfl

theorem ends_iff_of_skip (h : ∀ fuel, scan fuel s = scan fuel t) : Ends s names ↔ Ends t names := by
  simp only [Ends, h]

/-- An attempt that fails at the end ends the search. -/
theorem find_end (h : marker s = some (false, s.length)) : find marker s = some ([], []) := by
  rw [find.eq_def, h]
  exact if_pos rfl

/-- An attempt that fails goes on with the next position, if there is nothing to find there when
it fails at the end. -/
theorem ends_of_fails {n : ℕ} (h : marker (c :: rest) = some (false, n))
    (hend : n = rest.length + 1 → find marker rest = some ([], [])) :
    Ends (c :: rest) names ↔ Ends rest names := by
  by_cases hn : n = rest.length + 1
  · rw [ends_iff_of_find (hend hn), ends_iff_of_find (find_end (by rw [h, hn]; rfl))]
  · have hfind : find marker (c :: rest) = find marker rest := by
      rw [find, h]
      exact if_neg hn
    refine ends_iff_of_skip fun fuel => ?_
    cases fuel with
    | zero => rfl
    | succ fuel => rw [scan, scan, hfind]

theorem find_quiet (hk : k ≤ 7) : find marker (uniform.take k).tail = some ([], []) ∧
    find marker (uniform.take k ++ [0x2f]).tail = some ([], []) := by
  obtain rfl | rfl | rfl | rfl | rfl | rfl | rfl | rfl : k = 0 ∨ k = 1 ∨ k = 2 ∨ k = 3 ∨ k = 4 ∨
    k = 5 ∨ k = 6 ∨ k = 7 := by omega
  all_goals exact ⟨rfl, rfl⟩

/-- Where there is nothing to read, the scan goes on with the next position. -/
theorem ends_char (hcomment : ∀ rest', ¬ CommentAt (c :: rest) rest')
    (hread : ∀ second, ¬ Reads (c :: rest) second) :
    Ends (c :: rest) names ↔ Ends rest names := by
  obtain ⟨b, second, hs, hb, hb', hsecond⟩ | ⟨k, t, hs, hk, hstops⟩ := exists_beginning (c :: rest)
  · exact absurd (hs ▸ Reads.uniform hb hb' hsecond) (hread second)
  have hlength := congrArg List.length hs
  rw [List.length_append, length_beginning hk, List.length_cons] at hlength
  have hquiet := find_quiet hk
  have hnot : ∀ rest', ¬ CommentAt t rest' := fun rest' hfound => by
    obtain rfl | hpos := Nat.eq_zero_or_pos k
    · rw [List.take_zero, List.nil_append] at hs
      exact hcomment rest' (hs ▸ hfound)
    · exact hread rest' (hs ▸ Reads.comment hpos hk hfound)
  have hmarker := marker_beginning hk hstops
  rw [← hs] at hmarker
  obtain ⟨hfails, hhead⟩ | ⟨u, rfl, hfails⟩ := comment_of_not hnot
  · rw [hfails] at hmarker
    refine ends_of_fails hmarker fun hend => ?_
    rw [Nat.add_zero] at hend
    obtain rfl : t = [] := List.eq_nil_of_length_eq_zero (by omega)
    rw [List.append_nil] at hs
    rw [← hs] at hquiet
    exact hquiet.1
  · rw [hfails] at hmarker
    refine ends_of_fails hmarker fun hend => ?_
    rw [List.length_cons] at hlength
    obtain rfl : u = [] := List.eq_nil_of_length_eq_zero (by omega)
    rw [← hs] at hquiet
    exact hquiet.2

/-- A comment is passed. -/
theorem ends_comment (hfound : CommentAt s rest) (hbare : ∀ u, s = 0x2f :: 0x2a :: u → Bare u) :
    Ends s names ↔ Ends rest names := by
  have hmarker := marker_beginning (k := 0) (Nat.zero_le 7) (hfound.stops 0)
  rw [List.take_zero, List.nil_append] at hmarker
  obtain ⟨n, hn, hpos, hle, rfl⟩ | ⟨hfails, rfl⟩ := hfound.comment hbare
  · rw [hn] at hmarker
    have hfind : find marker s = some (s, s.drop n) := by
      rw [find.eq_def, hmarker]
      dsimp only [Option.map_some, MatchResult.behind]
      rw [Nat.zero_add]
    have hne : s ≠ s.drop n := fun heq => by
      have hlength := congrArg List.length heq
      rw [List.length_drop] at hlength
      omega
    have hscan : ∀ fuel, scan (fuel + 1) s = (scan fuel (s.drop n)).map id := fun fuel => by
      rw [scan, hfind]
      dsimp only
      rw [if_neg hne, if_pos hfound.head, Option.map_id, id]
    rw [ends_iff_of_scan Function.injective_id hscan]
    exact ⟨fun ⟨_, h, heq⟩ => heq ▸ h, fun h => ⟨names, h, rfl⟩⟩
  · rw [hfails] at hmarker
    rw [ends_nil, ends_iff_of_find (find_end (by rw [hmarker]; exact congrArg (fun n => some (false, n)) (Nat.zero_add _)))]

/-- A block comment that is not bare is not passed. -/
theorem not_ends (hk : k ≤ 7) (hbare : ¬ Bare rest) :
    ¬ Ends (uniform.take k ++ 0x2f :: 0x2a :: rest) names := by
  rintro ⟨bound, hbound⟩
  have hmarker := marker_beginning hk ((CommentAt.block rest).stops k)
  rw [comment_not_bare hbare] at hmarker
  have hfind : find marker (uniform.take k ++ 0x2f :: 0x2a :: rest) = none := by
    rw [find.eq_def, hmarker]
    rfl
  have hends := hbound (bound + 1) (Nat.le_succ bound)
  rw [scan, hfind] at hends
  cases hends

/-- What the scan records of what it reads. -/
def recorded (s : Text) (name : Option Text) : List (Text × Text) := (name.map fun n => (s, n)).toList

/-- What has been found is read, and the scan goes on behind the words. -/
theorem ends_found {name : Option Text} (hfind : find marker s = some (s, second))
    (hlength : second.length < s.length) (hhead : s.head? ≠ some 0x2f)
    (hread : readDeclaration second = some (rest, name)) :
    Ends s names ↔ ∃ names', Ends rest names' ∧ names = recorded s name ++ names' := by
  have hne : s ≠ second := fun heq => absurd hlength (by rw [← heq]; exact Nat.lt_irrefl _)
  refine ends_iff_of_scan (List.append_right_injective _) fun fuel => ?_
  rw [scan, hfind]
  dsimp only
  rw [if_neg hne, if_neg hhead, hread]
  cases name with
  | none => exact (Option.map_id' ..).symm
  | some n => rfl

/-- What is read as a declaration is recorded exactly if it is typed. -/
theorem ends_read (hreads : Reads s second)
    (hbare : ∀ k rest, k ≤ 7 → s = uniform.take k ++ 0x2f :: 0x2a :: rest → Bare rest) :
    ∃ name, (∀ n, name = some n ↔ Typed second n) ∧ ∀ names, Ends s names ↔
      ∃ names', Ends (behindWords second) names' ∧ names = recorded s name ++ names' := by
  obtain ⟨name, hread, htyped⟩ := readDeclaration_eq second
  refine ⟨name, htyped, fun names => ?_⟩
  cases hreads with
  | @uniform b _ hb hb' hsecond =>
    refine ends_found ?_ ?_ (fun h => absurd (Option.some.inj h) (by decide)) hread
    · rw [find.eq_def, marker_uniform hb hb' hsecond]
      dsimp only
      rw [← List.append_assoc, List.drop_left' (by rw [List.length_append]; rfl)]
    · rw [List.length_append, List.length_append]
      have hpos : uniform.length = 7 := rfl
      omega
  | @comment k input _ hpos hk hfound =>
    have hmarker := marker_beginning hk (hfound.stops k)
    obtain ⟨n, hn, hn', hle, rfl⟩ | ⟨hfails, rfl⟩ :=
      hfound.comment fun u hu => hbare k u hk (by rw [hu])
    · rw [hn] at hmarker
      refine ends_found ?_ ?_ (fun h => ?_) hread
      · rw [find.eq_def, hmarker]
        dsimp only [Option.map_some, MatchResult.behind]
        rw [← List.drop_drop, List.drop_left' (length_beginning hk)]
      · rw [List.length_append, List.length_drop]
        omega
      · obtain ⟨k, rfl⟩ : ∃ k', k = k' + 1 := ⟨k - 1, by omega⟩
        exact absurd (Option.some.inj h) (by decide)
    · rw [hfails] at hmarker
      have hfind : find marker (UniformScan.uniform.take k ++ input) = some ([], []) := by
        refine find_end ?_
        rw [hmarker, List.length_append, length_beginning hk]
        rfl
      cases hread
      rw [ends_iff_of_find hfind]
      refine ⟨fun h => ⟨[], ends_nil.mpr rfl, h⟩, ?_⟩
      rintro ⟨names', h, rfl⟩
      exact ends_nil.mp h

/-- Positions that are recorded are not in front of the source. -/
theorem find_le {p : Matcher} {first : Text} (h : find p s = some (first, second)) :
    first.length ≤ s.length ∧ second.length ≤ s.length := by
  induction s with
  | nil =>
    rw [find.eq_def] at h
    split at h
    · cases h
    · cases h
      exact ⟨Nat.le_refl _, Nat.le_of_eq (congrArg List.length List.drop_nil)⟩
    · split_ifs at h
      cases h
      exact ⟨Nat.le_refl _, Nat.le_refl _⟩
  | cons c s ih =>
    rw [find] at h
    split at h
    · cases h
    · cases h
      exact ⟨Nat.le_refl _, by rw [List.length_drop]; exact Nat.sub_le _ _⟩
    · split_ifs at h
      · cases h
        exact ⟨Nat.zero_le _, Nat.zero_le _⟩
      · obtain ⟨hfirst, hsecond⟩ := ih h
        rw [List.length_cons]
        omega

theorem length_behindWords_le (second : Text) : (behindWords second).length ≤ second.length := by
  obtain ⟨words, hwords, -⟩ := exists_words second
  have hlength := congrArg List.length hwords
  rw [List.length_append] at hlength
  omega

theorem length_le_of_scan {fuel : ℕ} (h : scan fuel s = some names) :
    ∀ entry ∈ names, entry.1.length ≤ s.length := by
  induction fuel generalizing s names with
  | zero => cases h
  | succ fuel ih =>
    rw [scan] at h
    split at h
    · cases h
    next first second hfind =>
      obtain ⟨hfirst, hsecond⟩ := find_le hfind
      split_ifs at h
      · cases h
        exact fun entry hentry => absurd hentry List.not_mem_nil
      · exact fun entry hentry => Nat.le_trans (ih h entry hentry) hsecond
      · obtain ⟨name, hread, -⟩ := readDeclaration_eq second
        have hle := Nat.le_trans (length_behindWords_le second) hsecond
        rw [hread] at h
        cases name with
        | none => exact fun entry hentry => Nat.le_trans (ih h entry hentry) hle
        | some n =>
          obtain ⟨names', hnames, rfl⟩ := Option.map_eq_some_iff.mp h
          intro entry hentry
          obtain rfl | hentry := List.mem_cons.mp hentry
          · exact hfirst
          · exact Nat.le_trans (ih hnames entry hentry) hle

end Scans

/-! ## What is recorded -/

section Recorded

variable {c : UInt8} {k : ℕ} {a s t rest second name : Text} {names : List (Text × Text)}

theorem Typed.head (h : Typed second name) : ∀ c, second.head? = some c → isBlank c = false := by
  obtain ⟨b₂, b₃, rest, rfl, -⟩ := h
  intro c hc
  cases hc
  rfl

theorem IsDeclaration.head (h : IsDeclaration s name) : s.head? = some 0x75 := by
  obtain ⟨b₁, second, rfl, -⟩ := h
  rfl

theorem IsDeclaration.not_commentAt (h : IsDeclaration s name) (rest : Text) :
    ¬ CommentAt s rest := fun hfound => by
  have hhead := h.head.symm.trans hfound.head
  cases hhead

/-- What is behind `uniform` blank+ is where it ends. -/
theorem second_unique {b b' second' : Text} (hb : ∀ c ∈ b, isBlank c) (hb' : ∀ c ∈ b', isBlank c)
    (hsecond : ∀ c, second.head? = some c → isBlank c = false)
    (hsecond' : ∀ c, second'.head? = some c → isBlank c = false)
    (h : uniform ++ (b ++ second) = uniform ++ (b' ++ second')) : second = second' := by
  have hrest := List.append_cancel_left h
  rw [← (takeWhile_append hb hsecond).2, hrest, (takeWhile_append hb' hsecond').2]

/-- A declaration is read, and typed. -/
theorem IsDeclaration.reads (h : IsDeclaration s name) : ∃ second, Reads s second ∧ Typed second name := by
  obtain ⟨b₁, second, rfl, hb, hb', htyped⟩ := h
  exact ⟨second, .uniform hb hb' htyped.head, htyped⟩

theorem not_isDeclaration_of_unread (h : ∀ second, ¬ Reads s second) (name : Text) :
    ¬ IsDeclaration s name := fun hdeclared => by
  obtain ⟨second, hreads, -⟩ := hdeclared.reads
  exact h second hreads

theorem Typed.unique {name' : Text} (h : Typed second name) (h' : Typed second name') :
    name = name' := h.parts.2.2.1.1.symm.trans h'.parts.2.2.1.1

theorem IsDeclaration.typed {b : Text} (h : IsDeclaration (uniform ++ (b ++ second)) name)
    (hb : ∀ c ∈ b, isBlank c) (hsecond : ∀ c, second.head? = some c → isBlank c = false) :
    Typed second name := by
  obtain ⟨b₁, second', hs, hb₁, -, htyped⟩ := h
  rwa [second_unique hb hb₁ hsecond htyped.head hs]

theorem IsDeclaration.unique {name' : Text} (h : IsDeclaration s name) (h' : IsDeclaration s name') :
    name = name' := by
  obtain ⟨b₁, second, rfl, hb, -, htyped⟩ := h
  exact htyped.unique (h'.typed hb htyped.head)

/-- No declaration begins where something stops `uniform` blank+. -/
theorem not_isDeclaration_beginning (hk : k ≤ 7) (hstops : Stops k t) (name : Text) :
    ¬ IsDeclaration (uniform.take k ++ t) name := by
  rintro ⟨b₁, second, hs, hb, hb', htyped⟩
  have hfails := uniformBlanks_beginning hk hstops
  rw [hs, uniformBlanks_uniform hb hb' htyped.head] at hfails
  cases hfails

theorem records_comment (hfound : CommentAt s rest) : Records s names ↔ Records rest names := by
  refine ⟨fun h => ?_, .comment hfound⟩
  cases h with
  | nil => cases hfound
  | comment found more => rwa [hfound.unique found]
  | declaration declared more => exact absurd hfound (declared.not_commentAt rest)
  | other outside undeclared more => exact absurd hfound (outside rest)

theorem records_declaration (h : IsDeclaration (c :: rest) name) : Records (c :: rest) names ↔
    ∃ names', Records rest names' ∧ names = (c :: rest, name) :: names' := by
  constructor
  · intro hrecords
    cases hrecords with
    | comment found more => exact absurd found (h.not_commentAt _)
    | declaration declared more => exact ⟨_, more, by rw [h.unique declared]⟩
    | other outside undeclared more => exact absurd h (undeclared name)
  · rintro ⟨names', hrecords, rfl⟩
    exact .declaration h hrecords

theorem records_char (hcomment : ∀ rest', ¬ CommentAt (c :: rest) rest')
    (hundeclared : ∀ name, ¬ IsDeclaration (c :: rest) name) :
    Records (c :: rest) names ↔ Records rest names := by
  refine ⟨fun h => ?_, .other hcomment hundeclared⟩
  cases h with
  | comment found more => exact absurd found (hcomment _)
  | declaration declared more => exact absurd declared (hundeclared _)
  | other outside undeclared more => exact more

theorem not_commentAt_of_ne (hc : c ≠ 0x2f) (rest' : Text) : ¬ CommentAt (c :: rest) rest' :=
  fun h => hc (Option.some.inj h.head)

/-- Text without slashes in which no declaration begins is skipped. -/
theorem records_skip (hslash : 0x2f ∉ a)
    (hundeclared : ∀ skipped left, a = skipped ++ left → left ≠ [] → ∀ name,
      ¬ IsDeclaration (left ++ t) name) : Records (a ++ t) names ↔ Records t names := by
  induction a with
  | nil => exact Iff.rfl
  | cons c a ih =>
    rw [List.mem_cons, not_or] at hslash
    refine (records_char (not_commentAt_of_ne (Ne.symm hslash.1))
      (hundeclared [] (c :: a) rfl (List.cons_ne_nil c a))).trans ?_
    exact ih hslash.2 fun skipped left hleft => hundeclared (c :: skipped) left (by rw [hleft]; rfl)

/-- What is recorded is a declaration. -/
theorem Records.sound (h : Records s names) : ∀ entry ∈ names, IsDeclaration entry.1 entry.2 := by
  induction h with
  | nil => exact fun entry hentry => absurd hentry List.not_mem_nil
  | comment found more ih => exact ih
  | declaration declared more ih =>
    intro entry hentry
    obtain rfl | hentry := List.mem_cons.mp hentry
    · exact declared
    · exact ih entry hentry
  | other outside undeclared more ih => exact ih

/-- A declaration behind text without slashes is recorded. -/
theorem Records.complete (h : Records (a ++ t) names) (hslash : 0x2f ∉ a) (hdeclared : IsDeclaration t name) :
    (t, name) ∈ names := by
  induction a generalizing names with
  | nil =>
    obtain ⟨c, rest, rfl⟩ : ∃ c rest, t = c :: rest := by
      cases t with
      | nil => cases hdeclared.head
      | cons c rest => exact ⟨c, rest, rfl⟩
    obtain ⟨names', -, rfl⟩ := (records_declaration hdeclared).mp h
    exact List.mem_cons_self ..
  | cons c a ih =>
    rw [List.mem_cons, not_or] at hslash
    cases h with
    | comment found more => exact absurd found (not_commentAt_of_ne (Ne.symm hslash.1) _)
    | declaration declared more => exact List.mem_cons_of_mem _ (ih more hslash.2)
    | other outside undeclared more => exact ih more hslash.2

theorem not_isDeclaration_of_not_mem (hu : 0x75 ∉ a) (ha : a ≠ []) (name : Text) :
    ¬ IsDeclaration (a ++ t) name := by
  intro hdeclared
  obtain ⟨c, a, rfl⟩ := List.exists_cons_of_ne_nil ha
  obtain rfl : c = 0x75 := Option.some.inj hdeclared.head
  exact hu (List.mem_cons_self ..)

/-- Behind its first character `uniform` blank* does not begin again. -/
theorem not_mem_left {b skipped left : Text} (hb : ∀ c ∈ b, isBlank c)
    (h : uniform ++ b = skipped ++ left) (hskipped : skipped ≠ []) : 0x75 ∉ left := by
  intro hmem
  obtain ⟨c, skipped, rfl⟩ := List.exists_cons_of_ne_nil hskipped
  have htail : uniform.tail ++ b = skipped ++ left := (List.cons.inj h).2
  have hmem : 0x75 ∈ uniform.tail ++ b := by
    rw [htail]
    exact List.mem_append_right _ hmem
  obtain hmem | hmem := List.mem_append.mp hmem
  · exact absurd hmem (by decide)
  · exact absurd (hb _ hmem) (by decide)

theorem slash_not_mem {b : Text} (hb : ∀ c ∈ b, isBlank c) : 0x2f ∉ uniform ++ b := by
  rw [List.mem_append, not_or]
  exact ⟨by decide, fun hmem => absurd (hb _ hmem) (by decide)⟩

/-- A beginning of `uniform` in front of a comment is skipped with it. -/
theorem records_beginning (hk : k ≤ 7) (hfound : CommentAt t rest) :
    Records (uniform.take k ++ t) names ↔ Records rest names := by
  rw [← records_comment hfound]
  refine records_skip (fun hmem => absurd (List.mem_of_mem_take hmem) (by decide)) ?_
  intro skipped left hleft hne name
  by_cases hskipped : skipped = []
  · subst hskipped
    rw [← List.nil_append left, ← hleft]
    exact not_isDeclaration_beginning hk (hfound.stops k) name
  · have h : uniform ++ ([] : Text) = skipped ++ (left ++ uniform.drop k) := by
      rw [List.append_nil, ← List.append_assoc, ← hleft, List.take_append_drop]
    have hu := not_mem_left (fun _ hc => absurd hc List.not_mem_nil) h hskipped
    exact not_isDeclaration_of_not_mem (fun hmem => hu (List.mem_append_left _ hmem)) hne name

/-- The words that are read, as a part of the text in which no comment and no declaration begins. -/
theorem records_words (hwhole : ∀ skipped left, second = skipped ++ left →
    (behindWords second).length < left.length → ∀ name, ¬ IsDeclaration left name) :
    Records second names ↔ Records (behindWords second) names := by
  obtain ⟨words, hwords, hslash⟩ := exists_words second
  conv_lhs => rw [hwords]
  refine records_skip hslash fun skipped left hleft hne name => ?_
  refine hwhole skipped (left ++ behindWords second) ?_ ?_ name
  · rw [← List.append_assoc, ← hleft, ← hwords]
  · have hpos := List.length_pos_of_ne_nil hne
    rw [List.length_append]
    omega

/-- No declaration begins behind the first character of `uniform` blank*. -/
theorem not_isDeclaration_left {b skipped left : Text} (hb : ∀ c ∈ b, isBlank c)
    (h : uniform ++ b = skipped ++ left) (hskipped : skipped ≠ []) (hleft : left ≠ []) (name : Text) :
    ¬ IsDeclaration (left ++ second) name :=
  not_isDeclaration_of_not_mem (not_mem_left hb h hskipped) hleft name

/-- `uniform` blank+ in front of something else than a texture is skipped. -/
theorem records_untyped {b : Text} (hb : ∀ c ∈ b, isBlank c)
    (hsecond : ∀ c, second.head? = some c → isBlank c = false) (h : ∀ name, ¬ Typed second name) :
    Records (uniform ++ (b ++ second)) names ↔ Records second names := by
  have hundeclared : ∀ n, ¬ IsDeclaration (uniform ++ (b ++ second)) n := fun n hdeclared =>
    h n (hdeclared.typed hb hsecond)
  rw [← List.append_assoc] at hundeclared ⊢
  refine records_skip (slash_not_mem hb) fun skipped left hleft hne n => ?_
  by_cases hskipped : skipped = []
  · subst hskipped
    rw [← List.nil_append left, ← hleft]
    exact hundeclared n
  · exact not_isDeclaration_left hb hleft hskipped hne n

/-- `uniform` blank+ in front of a texture is recorded. -/
theorem records_typed {b : Text} (hb : ∀ c ∈ b, isBlank c) (hb' : b ≠ [])
    (h : Typed second name) : Records (uniform ++ (b ++ second)) names ↔
      ∃ names', Records second names' ∧ names = (uniform ++ (b ++ second), name) :: names' := by
  have hdeclared : IsDeclaration (uniform ++ (b ++ second)) name := ⟨b, second, rfl, hb, hb', h⟩
  refine (records_declaration hdeclared).trans (exists_congr fun names' => and_congr_left' ?_)
  have hslash : 0x2f ∉ uniform.tail ++ b := fun hmem =>
    slash_not_mem hb (List.mem_cons_of_mem _ hmem)
  have htail : Records (uniform.tail ++ b ++ second) names' ↔ Records second names' := by
    refine records_skip hslash fun skipped left hleft hne n => ?_
    have huniform : uniform ++ b = (0x75 :: skipped) ++ left := congrArg (0x75 :: ·) hleft
    exact not_isDeclaration_left hb huniform (List.cons_ne_nil _ _) hne n
  rw [List.append_assoc] at htail
  exact htail

/-- Where positions are clean, what is recorded of what is read is what should be recorded. -/
theorem records_read (hclean : Clean s) (hreads : Reads s second) {name : Option Text}
    (htyped : ∀ n, name = some n ↔ Typed second n) : Records s names ↔
      ∃ names', Records (behindWords second) names' ∧ names = recorded s name ++ names' := by
  have hwhole := hclean.whole second hreads
  have hfounded := hclean.founded second
  have hnone : (∃ names', Records (behindWords second) names' ∧ names = recorded s none ++ names') ↔
      Records (behindWords second) names :=
    ⟨fun ⟨names', h, heq⟩ => heq ▸ h, fun h => ⟨names, h, rfl⟩⟩
  cases hreads with
  | @uniform b _ hb hb' hsecond =>
    cases name with
    | none =>
      have huntyped : ∀ n, ¬ Typed second n := fun n h => by
        have hsome := (htyped n).mpr h
        cases hsome
      rw [records_untyped hb hsecond huntyped, records_words hwhole, hnone]
    | some n =>
      refine (records_typed hb hb' ((htyped n).mp rfl)).trans ?_
      exact exists_congr fun names' => and_congr_left' (records_words hwhole)
  | @comment k input _ hpos hk hfound =>
    obtain rfl : name = none := by
      cases name with
      | none => rfl
      | some n =>
        exact absurd (hfounded n (.comment hpos hk hfound) ((htyped n).mp rfl))
          (not_isDeclaration_beginning hk (hfound.stops k) n)
    rw [records_beginning hk hfound, records_words hwhole, hnone]

end Recorded

/-! ## Scans -/

section Main

variable {source s second rest : Text}

theorem Reads.length_lt (h : Reads s second) : second.length < s.length := by
  cases h with
  | @uniform b _ hb hb' hsecond =>
    have hpos : UniformScan.uniform.length = 7 := rfl
    rw [List.length_append, List.length_append]
    omega
  | @comment k input _ hpos hk hfound =>
    have hle := hfound.length_lt
    rw [List.length_append]
    omega

/-- A declaration that begins in the words that are read should be recorded. -/
theorem Records.complete_read {names : List (Text × Text)} {skipped left name : Text}
    (h : Records s names) (hreads : Reads s second) (hsecond : second = skipped ++ left)
    (hlt : (behindWords second).length < left.length) (hdeclared : IsDeclaration left name) :
    (left, name) ∈ names := by
  have hslash : 0x2f ∉ skipped := fun hmem => by
    obtain ⟨words, hwords, hslash⟩ := exists_words second
    have hlength := congrArg List.length (hwords.symm.trans hsecond)
    rw [List.length_append, List.length_append] at hlength
    have hskipped : skipped = words.take skipped.length := by
      have htake : (words ++ behindWords second).take skipped.length = words.take skipped.length :=
        List.take_append_of_le_length (by omega)
      rw [← htake, ← hwords, hsecond, List.take_left]
    rw [hskipped] at hmem
    exact hslash (List.mem_of_mem_take hmem)
  subst hsecond
  cases hreads with
  | @uniform b _ hb hb' _ =>
    rw [← List.append_assoc, ← List.append_assoc] at h
    refine h.complete (fun hmem => ?_) hdeclared
    obtain hmem | hmem := List.mem_append.mp hmem
    · exact slash_not_mem hb hmem
    · exact hslash hmem
  | @comment k input _ hpos hk hfound =>
    exact ((records_beginning hk hfound).mp h).complete hslash hdeclared

/-- A scan that records what it should has a clean position in front of it. -/
theorem Scans.clean (h : Scans s) : Clean s := by
  obtain ⟨names, hrecords, hends⟩ := h
  have hbare : ∀ k rest, k ≤ 7 → s = uniform.take k ++ 0x2f :: 0x2a :: rest → Bare rest :=
    fun k rest hk hs => by
      by_contra hnot
      exact not_ends hk hnot (hs ▸ hends)
  refine ⟨hbare, fun second name hreads htyped => ?_, fun second hreads skipped left hsecond hlt name hdeclared => ?_⟩
  · obtain ⟨name', hname', hiff⟩ := ends_read hreads hbare
    obtain ⟨names', -, rfl⟩ := (hiff names).mp hends
    obtain rfl := (hname' name).mpr htyped
    exact hrecords.sound (s, name) (List.mem_append_left _ (List.mem_singleton_self _))
  · obtain ⟨name', -, hiff⟩ := ends_read hreads hbare
    obtain ⟨names', ⟨bound, hbound⟩, rfl⟩ := (hiff names).mp hends
    have hmem := hrecords.complete_read hreads hsecond hlt hdeclared
    obtain hmem | hmem := List.mem_append.mp hmem
    · have hlength := hreads.length_lt
      cases name' with
      | none => cases hmem
      | some n =>
        obtain rfl : left = s := congrArg Prod.fst (List.mem_singleton.mp hmem)
        rw [hsecond, List.length_append] at hlength
        omega
    · have hle := length_le_of_scan (hbound bound (Nat.le_refl bound)) _ hmem
      exact absurd hlt (Nat.not_lt_of_le hle)

/-- Behind a position the scan goes on as it should. -/
theorem Scans.looks (h : Scans source) (hlooks : Looks source s) : Scans s := by
  induction hlooks with
  | start => exact h
  | char before outside unread ih =>
    obtain ⟨names, hrecords, hends⟩ := ih
    exact ⟨names, (records_char outside (not_isDeclaration_of_unread unread)).mp hrecords,
      (ends_char outside unread).mp hends⟩
  | comment before found ih =>
    have hclean := ih.clean
    obtain ⟨names, hrecords, hends⟩ := ih
    exact ⟨names, (records_comment found).mp hrecords,
      (ends_comment found fun u hu => hclean.bare 0 u (Nat.zero_le 7) hu).mp hends⟩
  | read before reads ih =>
    have hclean := ih.clean
    obtain ⟨names, hrecords, hends⟩ := ih
    obtain ⟨name, hname, hiff⟩ := ends_read reads hclean.bare
    obtain ⟨names', hends', rfl⟩ := (hiff names).mp hends
    obtain ⟨names'', hrecords', heq⟩ := (records_read hclean reads hname).mp hrecords
    exact ⟨names', List.append_cancel_left heq ▸ hrecords', hends'⟩

theorem Looks.trans (h : Looks source s) (h' : Looks s rest) : Looks source rest := by
  induction h' with
  | start => exact h
  | char before outside unread ih => exact .char ih outside unread
  | comment before found ih => exact .comment ih found
  | read before reads ih => exact .read ih reads

/-- Where all positions are clean, the scan records what it should. -/
theorem scans_of_clean (h : ∀ s, Looks source s → Clean s) : Scans source := by
  induction hn : source.length using Nat.strongRecOn generalizing source with
  | ind n ih =>
    subst hn
    have hclean := h source .start
    by_cases hreads : ∃ second, Reads source second
    · obtain ⟨second, hreads⟩ := hreads
      obtain ⟨names', hrecords, hends⟩ := ih (behindWords second).length
        (Nat.lt_of_le_of_lt (length_behindWords_le second) hreads.length_lt)
        (fun s hs => h s ((Looks.start.read hreads).trans hs)) rfl
      obtain ⟨name, hname, hiff⟩ := ends_read hreads hclean.bare
      exact ⟨recorded source name ++ names',
        (records_read hclean hreads hname).mpr ⟨names', hrecords, rfl⟩, (hiff _).mpr ⟨names', hends, rfl⟩⟩
    by_cases hcomment : ∃ rest, CommentAt source rest
    · obtain ⟨rest, hcomment⟩ := hcomment
      obtain ⟨names, hrecords, hends⟩ := ih rest.length hcomment.length_lt
        (fun s hs => h s ((Looks.start.comment hcomment).trans hs)) rfl
      exact ⟨names, (records_comment hcomment).mpr hrecords,
        (ends_comment hcomment fun u hu => hclean.bare 0 u (Nat.zero_le 7) hu).mpr hends⟩
    cases source with
    | nil => exact ⟨[], .nil, ends_nil.mpr rfl⟩
    | cons c rest =>
      have hread : ∀ second, ¬ Reads (c :: rest) second := fun second h => hreads ⟨second, h⟩
      have hnot : ∀ rest', ¬ CommentAt (c :: rest) rest' := fun rest' h => hcomment ⟨rest', h⟩
      obtain ⟨names, hrecords, hends⟩ := ih rest.length (Nat.lt_succ_self _)
        (fun s hs => h s ((Looks.start.char hnot hread).trans hs)) rfl
      exact ⟨names, (records_char hnot (not_isDeclaration_of_unread hread)).mpr hrecords,
        (ends_char hnot hread).mpr hends⟩

/-- The scan ends and records what it should exactly if all positions that it searches at are
clean. -/
theorem scans_iff (source : Text) : Scans source ↔ ∀ s, Looks source s → Clean s :=
  ⟨fun h _ hlooks => (h.looks hlooks).clean, scans_of_clean⟩

/-- A block comment with a blank in it is not passed. -/
theorem not_scans_blank :
    (∀ fuel, scan fuel [0x2f, 0x2a, 0x20, 0x2a, 0x2f] = none) ∧
      ¬ Scans [0x2f, 0x2a, 0x20, 0x2a, 0x2f] := by
  have hnone : ∀ fuel, scan fuel [0x2f, 0x2a, 0x20, 0x2a, 0x2f] = none := fun fuel => by
    cases fuel <;> rfl
  refine ⟨hnone, ?_⟩
  rintro ⟨names, -, bound, hbound⟩
  have hends := (hnone bound).symm.trans (hbound bound (Nat.le_refl bound))
  cases hends

end Main

end Fimbulwinter.UniformScan
