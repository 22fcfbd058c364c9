import Fimbulwinter.TextScan

/-! # The console

A line has the name of a command in front, and behind a space its parameters. -/
namespace Fimbulwinter.Console

open Scan (Failure find read view)

abbrev Text := List UInt8

abbrev space : UInt8 := 0x20

abbrev quote : UInt8 := 0x22

def trueText : Text := [0x74, 0x72, 0x75, 0x65]

def falseText : Text := [0x66, 0x61, 0x6c, 0x73, 0x65]

/-- A parameter. What integers and floats are is left to `fio::from_chars`. -/
inductive Argument (I F : Type*)
  | string (x : Text)
  | bool (x : Bool)
  | integer (x : I)
  | float (x : F)
  deriving DecidableEq, Repr

section Model

variable {I F K C : Type*} [DecidableEq K]

/-- `fio::from_chars` for integers and floats gives the number and how many characters it has. The
vector of parameters has room for some number of them. -/
structure Environment (I F : Type*) where
  integerFromChars : Text → Option (I × ℕ)
  floatFromChars : Text → Option (F × ℕ)
  room : ℕ

variable (env : Environment I F)

/-- What an unquoted word is. -/
def wordArgument (word : Text) : Option (Argument I F) :=
  if word = trueText then some (.bool true)
  else if word = falseText then some (.bool false)
  else
    match env.integerFromChars word with
    | some (x, n) =>
      if n = word.length then some (.integer x)
      else
        match env.floatFromChars word with
        | some (x, n) => if n = word.length then some (.float x) else none
        | none => none
    | none =>
      match env.floatFromChars word with
      | some (x, n) => if n = word.length then some (.float x) else none
      | none => none

/-- The loop of `parse_params`. -/
def parseFrom (line : Text) : ℕ → ℕ → List (Argument I F) → Except Failure (List (Argument I F))
  | 0, _, _ => .error .outOfFuel
  | fuel + 1, first, params =>
    if first = line.length then .ok params
    else
      match read line first with
      | .error e => .error e
      | .ok c =>
        if c = quote then
          let stop := find line (first + 1) quote
          if stop = line.length then .ok params
          else
            match view line (first + 1) stop with
            | .error e => .error e
            | .ok x =>
              if env.room ≤ params.length then .ok params
              else parseFrom line fuel (stop + 1) (params ++ [.string x])
        else
          let stop := find line first space
          if stop = first then parseFrom line fuel (first + 1) params
          else
            match view line first stop with
            | .error e => .error e
            | .ok word =>
              match wordArgument env word with
              | none => parseFrom line fuel stop params
              | some x =>
                if env.room ≤ params.length then .ok params
                else parseFrom line fuel stop (params ++ [x])

/-- `parse_params` -/
def parseParams (line : Text) : Except Failure (List (Argument I F)) :=
  parseFrom env line (line.length + 1) 0 []

/-- `read_input`: the observer that is called, if there is one, and its parameters. -/
def readInput (asset : Text → K) (observers : List (K × C)) (line : Text) :
    Except Failure (Option (C × List (Argument I F))) :=
  if line = [] then .ok none
  else
    let commandEnd := find line 0 space
    match view line 0 commandEnd with
    | .error e => .error e
    | .ok commandName =>
      match view line (commandEnd + 1) line.length with
      | .error e => .error e
      | .ok rest =>
        match parseParams env rest with
        | .error e => .error e
        | .ok params =>
          .ok ((observers.find? fun observer => observer.1 = asset commandName).map fun observer =>
            (observer.2, params))

/-! ## What lines mean -/

/-- The argument that an unquoted word stands for, if any: a truth value, or else an integer if
all of it is one, or else a float if all of it is one. -/
inductive Means : Text → Option (Argument I F) → Prop
  | true : Means trueText (some (.bool true))
  | false : Means falseText (some (.bool false))
  | integer {word : Text} {x : I} (htrue : word ≠ trueText) (hfalse : word ≠ falseText)
    (h : env.integerFromChars word = some (x, word.length)) : Means word (some (.integer x))
  | float {word : Text} {x : F} (htrue : word ≠ trueText) (hfalse : word ≠ falseText)
    (hinteger : ∀ x, env.integerFromChars word ≠ some (x, word.length))
    (h : env.floatFromChars word = some (x, word.length)) : Means word (some (.float x))
  | other {word : Text} (htrue : word ≠ trueText) (hfalse : word ≠ falseText)
    (hinteger : ∀ x, env.integerFromChars word ≠ some (x, word.length))
    (hfloat : ∀ x, env.floatFromChars word ≠ some (x, word.length)) : Means word none

/-- The parameters in a text: quoted strings, and the words between the spaces, up to a quote
that is not closed. -/
inductive Parameters : Text → List (Argument I F) → Prop
  | nil : Parameters [] []
  | space {rest : Text} {params : List (Argument I F)} (h : Parameters rest params) :
    Parameters (space :: rest) params
  | unbalanced {x : Text} (hx : quote ∉ x) : Parameters (quote :: x) []
  | string {x rest : Text} {params : List (Argument I F)} (hx : quote ∉ x)
    (h : Parameters rest params) : Parameters (quote :: (x ++ quote :: rest)) (.string x :: params)
  | word {c : UInt8} {cs rest : Text} {x : Option (Argument I F)} {params : List (Argument I F)}
    (hquote : c ≠ quote) (hword : Console.space ∉ c :: cs)
    (hrest : rest = [] ∨ ∃ more, rest = Console.space :: more) (hmeans : Means env (c :: cs) x)
    (h : Parameters rest params) : Parameters (c :: cs ++ rest) (x.toList ++ params)

/-- A line is read inside of it, and its observer is called with the parameters that are in it. -/
def Reads (asset : Text → K) (observers : List (K × C)) (line : Text) : Prop :=
  line = [] ∧ readInput env asset observers line = .ok none ∨
    ∃ commandName rest params, line ≠ [] ∧ space ∉ commandName ∧
      (line = commandName ∧ rest = [] ∨ line = commandName ++ space :: rest) ∧
      Parameters env rest params ∧
      readInput env asset observers line =
        .ok ((observers.find? fun observer => observer.1 = asset commandName).map fun observer =>
          (observer.2, params.take env.room))

end Model

/-! ## Parsing -/

variable {I F K C : Type*} [DecidableEq K] {env : Environment I F} {front rest word : Text}
  {fuel : ℕ} {params : List (Argument I F)}

theorem means_wordArgument (env : Environment I F) (word : Text) :
    Means env word (wordArgument env word) := by
  rw [wordArgument]
  split_ifs with htrue hfalse
  · rw [htrue]
    exact .true
  · rw [hfalse]
    exact .false
  · have hfloat : (∀ x, env.integerFromChars word ≠ some (x, word.length)) →
        Means env word (match env.floatFromChars word with
          | some (x, n) => if n = word.length then some (.float x) else none
          | none => none) := by
      intro hinteger
      split
      next x n hx =>
        split_ifs with hn
        · exact .float htrue hfalse hinteger (hn ▸ hx)
        · refine .other htrue hfalse hinteger fun y hy => hn ?_
          rw [hx] at hy
          cases hy
          rfl
      next hnone =>
        refine .other htrue hfalse hinteger fun y hy => ?_
        rw [hnone] at hy
        cases hy
    split
    next x n hx =>
      split_ifs with hn
      · exact .integer htrue hfalse (hn ▸ hx)
      · refine hfloat fun y hy => hn ?_
        rw [hx] at hy
        cases hy
        rfl
    next hnone =>
      refine hfloat fun y hy => ?_
      rw [hnone] at hy
      cases hy

/-- A quoted string is passed. -/
theorem parseFrom_string (front : Text) {x : Text} (rest : Text) (hx : quote ∉ x) :
    parseFrom env (front ++ quote :: (x ++ quote :: rest)) (fuel + 1) front.length params =
      if env.room ≤ params.length then .ok params
      else parseFrom env (front ++ quote :: (x ++ quote :: rest)) fuel
        (front.length + x.length + 2) (params ++ [.string x]) := by
  have hassoc : front ++ quote :: (x ++ quote :: rest) =
      (front ++ [quote]) ++ (x ++ quote :: rest) := by simp
  have hposition : front.length + 1 = (front ++ [quote]).length := by simp
  have hfind : find (front ++ quote :: (x ++ quote :: rest)) (front.length + 1) quote =
      front.length + 1 + x.length := by
    rw [hassoc, hposition]
    exact Scan.find_append _ _ hx
  have hview : view (front ++ quote :: (x ++ quote :: rest)) (front.length + 1)
      (front.length + 1 + x.length) = .ok x := by
    rw [hassoc, hposition]
    exact Scan.view_append _ _ _
  have hlength : (front ++ quote :: (x ++ quote :: rest)).length =
      front.length + x.length + rest.length + 2 := by
    simp
    omega
  rw [parseFrom, if_neg (by omega), Scan.read_append]
  dsimp only
  rw [if_pos rfl, hfind, if_neg (by omega), hview]
  dsimp only
  have hnext : front.length + 1 + x.length + 1 = front.length + x.length + 2 := by omega
  rw [hnext]

/-- A word is passed, up to a space or the end. -/
theorem parseFrom_word (front : Text) {c : UInt8} {cs rest : Text} (hquote : c ≠ quote)
    (hword : space ∉ c :: cs) (hrest : rest = [] ∨ ∃ more, rest = space :: more) :
    parseFrom env (front ++ (c :: cs ++ rest)) (fuel + 1) front.length params =
      match wordArgument env (c :: cs) with
      | none =>
        parseFrom env (front ++ (c :: cs ++ rest)) fuel (front.length + (c :: cs).length) params
      | some x =>
        if env.room ≤ params.length then .ok params
        else parseFrom env (front ++ (c :: cs ++ rest)) fuel (front.length + (c :: cs).length)
          (params ++ [x]) := by
  have hfind : find (front ++ (c :: cs ++ rest)) front.length space =
      front.length + (c :: cs).length := by
    rcases hrest with rfl | ⟨more, rfl⟩
    · rw [List.append_nil, Scan.find_append_end _ hword, List.length_append]
    · exact Scan.find_append _ _ hword
  have hread : read (front ++ (c :: cs ++ rest)) front.length = .ok c := Scan.read_append _ _ _
  have hlength : (front ++ (c :: cs ++ rest)).length = front.length + cs.length + rest.length + 1 := by
    simp
    omega
  rw [parseFrom, if_neg (by omega), hread]
  dsimp only
  rw [if_neg hquote, hfind, if_neg (by rw [List.length_cons]; omega), Scan.view_append]

/-- A space is passed over. -/
theorem parseFrom_space (front rest : Text) :
    parseFrom env (front ++ space :: rest) (fuel + 1) front.length params =
      parseFrom env (front ++ space :: rest) fuel (front.length + 1) params := by
  have hfind : find (front ++ space :: rest) front.length space = front.length := by
    have h := Scan.find_append front rest (List.not_mem_nil : space ∉ ([] : Text))
    simpa using h
  rw [parseFrom, if_neg (by simp), Scan.read_append]
  dsimp only
  rw [if_neg (by decide), hfind, if_pos rfl]

/-- Nothing is passed from an unbalanced quote on. -/
theorem parseFrom_unbalanced (front : Text) (hrest : quote ∉ rest) :
    parseFrom env (front ++ quote :: rest) (fuel + 1) front.length params = .ok params := by
  have hfind : find (front ++ quote :: rest) (front.length + 1) quote =
      (front ++ quote :: rest).length := by
    have h := Scan.find_append_end (front ++ [quote]) hrest
    simpa using h
  rw [parseFrom, if_neg (by simp), Scan.read_append]
  dsimp only
  rw [if_pos rfl, hfind, if_pos rfl]

/-- What fits behind one more parameter. -/
theorem take_room (params : List (Argument I F)) (x : Argument I F)
    (more : List (Argument I F)) {room : ℕ} :
    (if room ≤ params.length then Except.ok params
      else .ok (params ++ [x] ++ more.take (room - (params ++ [x]).length)) :
        Except Failure (List (Argument I F))) =
      .ok (params ++ (x :: more).take (room - params.length)) := by
  split_ifs with hroom
  · rw [Nat.sub_eq_zero_of_le hroom, List.take_zero, List.append_nil]
  · have hsucc : room - params.length = room - (params ++ [x]).length + 1 := by
      rw [List.length_append, List.length_singleton]
      omega
    rw [hsucc, List.take_succ_cons, List.append_assoc, List.singleton_append]

/-- From any position on the loop passes the parameters that are there. -/
theorem parseFrom_eq (env : Environment I F) (front rest : Text) (params : List (Argument I F))
    (hfuel : rest.length < fuel) :
    ∃ more, Parameters env rest more ∧
      parseFrom env (front ++ rest) fuel front.length params =
        .ok (params ++ more.take (env.room - params.length)) := by
  induction fuel generalizing front rest params with
  | zero => omega
  | succ fuel ih =>
    cases rest with
    | nil =>
      refine ⟨[], .nil, ?_⟩
      rw [parseFrom, List.append_nil, if_pos rfl]
      simp
    | cons c cs =>
      rw [List.length_cons] at hfuel
      by_cases hquote : c = quote
      · subst hquote
        obtain hnone | ⟨x, rest, hx, rfl⟩ := Scan.splits quote cs
        · refine ⟨[], .unbalanced hnone, ?_⟩
          rw [parseFrom_unbalanced front hnone, List.take_nil, List.append_nil]
        · rw [parseFrom_string front rest hx]
          have hassoc : front ++ quote :: (x ++ quote :: rest) =
              (front ++ quote :: (x ++ [quote])) ++ rest := by simp
          have hposition :
              front.length + x.length + 2 = (front ++ quote :: (x ++ [quote])).length := by
            simp
            omega
          rw [List.length_append, List.length_cons] at hfuel
          obtain ⟨more, hmore, hrun⟩ := ih (front ++ quote :: (x ++ [quote])) rest
            (params ++ [.string x]) (by omega)
          refine ⟨.string x :: more, .string hx hmore, ?_⟩
          rw [hassoc, hposition, hrun]
          exact take_room params (.string x) more
      · -- A space is passed over, and a word ends in front of one.
        have hwords : ∀ ws tail : Text, space ∉ c :: ws → c :: cs = c :: ws ++ tail →
            (tail = [] ∨ ∃ more, tail = space :: more) → ∃ more, Parameters env (c :: cs) more ∧
              parseFrom env (front ++ c :: cs) (fuel + 1) front.length params =
                .ok (params ++ more.take (env.room - params.length)) := by
          intro ws tail hword hsplit htail
          have hlength : (c :: cs).length = (c :: ws).length + tail.length := by
            rw [hsplit, List.length_append]
          rw [List.length_cons, List.length_cons] at hlength
          have hassoc : front ++ (c :: ws ++ tail) = (front ++ c :: ws) ++ tail :=
            (List.append_assoc _ _ _).symm
          rw [hsplit, parseFrom_word front hquote hword htail, hassoc, ← List.length_append]
          have hmeans := means_wordArgument env (c :: ws)
          cases hargument : wordArgument env (c :: ws) with
          | none =>
            rw [hargument] at hmeans
            obtain ⟨more, hmore, hrun⟩ := ih (front ++ c :: ws) tail params (by omega)
            exact ⟨more, .word hquote hword htail hmeans hmore, hrun⟩
          | some x =>
            rw [hargument] at hmeans
            obtain ⟨more, hmore, hrun⟩ := ih (front ++ c :: ws) tail (params ++ [x]) (by omega)
            refine ⟨x :: more, .word hquote hword htail hmeans hmore, ?_⟩
            dsimp only
            rw [hrun]
            exact take_room params x more
        obtain hnone | ⟨word, rest, hword, hsplit⟩ := Scan.splits space (c :: cs)
        · exact hwords cs [] hnone (List.append_nil _).symm (.inl rfl)
        · cases word with
          | nil =>
            obtain ⟨rfl, rfl⟩ := List.cons.inj hsplit
            have hposition : front.length + 1 = (front ++ [space]).length := by simp
            have hassoc : front ++ space :: cs = (front ++ [space]) ++ cs := by simp
            obtain ⟨more, hmore, hrun⟩ := ih (front ++ [space]) cs params (by omega)
            refine ⟨more, .space hmore, ?_⟩
            rw [parseFrom_space, hposition, hassoc, hrun]
          | cons d ws =>
            obtain ⟨rfl, -⟩ := List.cons.inj hsplit
            exact hwords ws (space :: rest) hword hsplit (.inr ⟨rest, rfl⟩)

theorem parseParams_eq (env : Environment I F) (line : Text) :
    ∃ params, Parameters env line params ∧ parseParams env line = .ok (params.take env.room) := by
  obtain ⟨params, hparams, hrun⟩ := parseFrom_eq env [] line [] (Nat.lt_succ_self line.length)
  exact ⟨params, hparams, hrun⟩

/-- A line is read as it should exactly if it is empty or has a space. -/
theorem reads_iff (env : Environment I F) (asset : Text → K) (observers : List (K × C)) (line : Text) :
    Reads env asset observers line ↔ line = [] ∨ space ∈ line := by
  obtain hnone | ⟨commandName, rest, hname, rfl⟩ := Scan.splits space line
  · -- Without a space the view of the parameters begins behind the end.
    refine ⟨fun h => ?_, fun h => h.elim (fun hnil => .inl ⟨hnil, if_pos hnil⟩)
      fun hspace => absurd hspace hnone⟩
    by_contra hnot
    have hne : line ≠ [] := fun hnil => hnot (.inl hnil)
    have hfind : find line 0 space = line.length := Scan.find_append_end [] hnone
    have hfails : readInput env asset observers line = .error .outside := by
      have hname : view line 0 line.length = .ok line := Scan.view_append_end [] line
      have hview : view line (line.length + 1) line.length = .error .outside := if_neg (by omega)
      rw [readInput, if_neg hne]
      simp only [hfind, hname, hview]
    rcases h with ⟨-, hrun⟩ | ⟨_, _, _, -, -, -, -, hrun⟩
    · rw [hfails] at hrun
      cases hrun
    · rw [hfails] at hrun
      cases hrun
  · refine iff_of_true ?_ (.inr (by simp))
    obtain ⟨params, hparams, hrun⟩ := parseParams_eq env rest
    have hfind : find (commandName ++ space :: rest) 0 space = commandName.length := by
      have h := Scan.find_append [] rest hname
      simpa using h
    have hview : view (commandName ++ space :: rest) 0 commandName.length = .ok commandName := by
      have h := Scan.view_append [] commandName (space :: rest)
      simpa using h
    have hrest : view (commandName ++ space :: rest) (commandName.length + 1)
        (commandName ++ space :: rest).length = .ok rest := by
      have h := Scan.view_append_end (commandName ++ [space]) rest
      simpa using h
    refine .inr ⟨commandName, rest, params, by simp, hname, .inr rfl, hparams, ?_⟩
    rw [readInput, if_neg (by simp)]
    simp only [hfind, hview, hrest, hrun]

/-- A command without parameters and without a space. -/
theorem not_reads_command : ¬ Reads (⟨fun _ => none, fun _ => none, 8⟩ : Environment Unit Unit) id
    [([0x71], ())] [0x71] := by
  rintro (⟨hnil, -⟩ | ⟨_, _, _, -, -, -, -, hrun⟩)
  · cases hnil
  · cases hrun

end Fimbulwinter.Console
