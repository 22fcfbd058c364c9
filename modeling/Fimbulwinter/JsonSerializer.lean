import Fimbulwinter.IniSerializer
import Fimbulwinter.JsonAcceptance
import Fimbulwinter.KeyedList
import Mathlib.Tactic.FinCases

/-! # `core::serialize_json`

Writes a value as text, and what is written is read back. -/
namespace Fimbulwinter.Json

open Ini (lineFeed writeTexts writeTexts_ok)

abbrev tab : UInt8 := 0x09

section Serializer

variable {Ty Kind N : Type*} (shape : Ty → Shape Ty Kind) (toChars : Kind → N → Text)

/-- `write_string` -/
def writeString (x : Text) : List Text := [[quote], x, [quote]]

/-- A line feed and tabs, from a literal with sixteen of them. -/
def indentation (n : ℕ) : Text := (lineFeed :: List.replicate 16 tab).take n

mutual

/-- `write_value`, as the texts that are written one after another. There are none for a value of
another type, and for a class that is nested deeper than the literals with tabs are long. -/
def writeValue (depth : ℕ) (t : Ty) : Value N → Option (List Text)
  | .bool x =>
    match shape t with
    | .bool => some [if x then trueText else falseText]
    | _ => none
  | .number x =>
    match shape t with
    | .number kind => some [toChars kind x]
    | _ => none
  | .enum x =>
    match shape t with
    | .enum table => (table.find? fun p => p.2 = x).map fun p => writeString p.1
    | _ => none
  | .string x =>
    match shape t with
    | .string => some (writeString x)
    | _ => none
  | .items xs =>
    match shape t with
    | .range element =>
      if xs.isEmpty then some [[openBracket, closeBracket]]
      else (writeItems (depth + 1) true (List.replicate xs.length element) xs).map fun texts =>
        [openBracket] :: texts ++ [[closeBracket]]
    | .tuple first rest =>
      (writeItems (depth + 1) true (first :: rest) xs).map fun texts =>
        [openBracket] :: texts ++ [[closeBracket]]
    | .members table =>
      if table.isEmpty then some [[openBrace, closeBrace]]
      else if 16 < depth + 1 then none
      else (writeMembers (depth + 1) true table xs).map fun texts =>
        (openBrace :: indentation (depth + 2)) :: texts ++ [indentation (depth + 1), [closeBrace]]
    | _ => none

/-- The loop over the elements of a range or the items of a tuple. -/
def writeItems (depth : ℕ) (first : Bool) : List Ty → List (Value N) → Option (List Text)
  | [], [] => some []
  | t :: ts, x :: xs =>
    match writeValue depth t x with
    | none => none
    | some texts => (writeItems depth false ts xs).map fun rest =>
      (if first then [] else [[comma, space]]) ++ texts ++ rest
  | _, _ => none

/-- The loop over the members of a class. -/
def writeMembers (depth : ℕ) (first : Bool) :
    List (Text × Ty) → List (Value N) → Option (List Text)
  | [], [] => some []
  | (key, t) :: table, x :: xs =>
    match writeValue depth t x with
    | none => none
    | some texts => (writeMembers depth false table xs).map fun rest =>
      (if first then [] else [comma :: indentation (depth + 1)]) ++ writeString key ++
        [[space, colon, space]] ++ texts ++ rest
  | _, _ => none

end

/-- `serialize_json`: the text that is written into a buffer, if it has room enough. -/
def serializeJson (t : Ty) (x : Value N) (room : ℕ) : Option Text :=
  match writeValue shape toChars 0 t x with
  | none => none
  | some texts => (writeTexts room [] texts).map (· ++ [lineFeed])

end Serializer

/-! ## Values that are read back -/

section Values

variable {Ty Kind N : Type*}

/-- No string in a value has a quote or a backslash. -/
inductive Plain : Value N → Prop
  | bool (x : Bool) : Plain (.bool x)
  | number (x : N) : Plain (.number x)
  | enum (x : ℕ) : Plain (.enum x)
  | string (x : Text) (hquote : quote ∉ x) (hbackslash : backslash ∉ x) : Plain (.string x)
  | items (xs : List (Value N)) (h : ∀ x ∈ xs, Plain x) : Plain (.items xs)

/-- An object whose ranges are empty. -/
inductive Fresh (shape : Ty → Shape Ty Kind) : Ty → Value N → Prop
  | bool {t : Ty} (x : Value N) (h : shape t = .bool) : Fresh shape t x
  | number {t : Ty} {kind : Kind} (x : Value N) (h : shape t = .number kind) : Fresh shape t x
  | enum {t : Ty} {table : List (Text × ℕ)} (x : Value N) (h : shape t = .enum table) :
    Fresh shape t x
  | string {t : Ty} (x : Value N) (h : shape t = .string) : Fresh shape t x
  | range {t element : Ty} (h : shape t = .range element) : Fresh shape t (.items [])
  | tuple {t first : Ty} {rest : List Ty} (xs : List (Value N)) (h : shape t = .tuple first rest)
    (hlength : xs.length = rest.length + 1)
    (hitems : ∀ (i : ℕ) t x, (first :: rest)[i]? = some t → xs[i]? = some x → Fresh shape t x) :
    Fresh shape t (.items xs)
  | members {t : Ty} {table : List (Text × Ty)} (xs : List (Value N))
    (h : shape t = .members table) (hlength : xs.length = table.length)
    (hitems : ∀ (i : ℕ) t x, (table.map Prod.snd)[i]? = some t → xs[i]? = some x → Fresh shape t x) :
    Fresh shape t (.items xs)

/-- Enumerations with distinct keys, and classes with at least one member and distinct names. -/
structure Readable (shape : Ty → Shape Ty Kind) : Prop where
  keys : ∀ t table, shape t = .enum table → (table.map Prod.fst).Nodup ∧
    ∀ p ∈ table, quote ∉ p.1 ∧ backslash ∉ p.1
  names : ∀ t table, shape t = .members table → table ≠ [] ∧ (table.map Prod.fst).Nodup ∧
    ∀ p ∈ table, quote ∉ p.1 ∧ backslash ∉ p.1

/-- What comes behind a value that has been written. -/
def Separated (rest : Text) : Prop :=
  ∃ c cs, rest = c :: cs ∧ (c = comma ∨ c = closeBracket ∨ c = lineFeed)

/-- `fio::from_chars` gives back what `fio::to_chars` has written in front of a separator. -/
structure Inverts (toChars : Kind → N → Text) (fromChars : Kind → Text → Option (N × ℕ)) :
    Prop where
  begins : ∀ kind x, ∃ c cs, toChars kind x = c :: cs ∧ space < c ∧ c ≠ closeBracket
  passed : ∀ kind x rest, Separated rest →
    fromChars kind (toChars kind x ++ rest) = some (x, (toChars kind x).length)

end Values

variable {Ty Kind N : Type*} {shape : Ty → Shape Ty Kind} {toChars : Kind → N → Text}
  {fromChars : Kind → Text → Option (N × ℕ)} {fresh : Ty → Value N}

theorem blank_indentation (n : ℕ) : Blank (indentation n) := by
  intro c hc
  have hmem := List.mem_of_mem_take hc
  obtain rfl | hmem := List.mem_cons.mp hmem
  · decide
  · rw [List.eq_of_mem_replicate hmem]
    decide

variable (shape toChars fromChars fresh) in
/-- A value is read back from what is written for it, whatever comes behind. -/
def ReadBack (v : Value N) : Prop :=
  ∀ {depth : ℕ} {t : Ty} {texts : List Text} {x : Value N} {rest : Text} (fuel : ℕ),
    writeValue shape toChars depth t v = some texts → Fresh shape t x → Separated rest →
    2 * (texts.flatten ++ rest).length + 1 ≤ fuel →
    readValue shape fromChars fresh fuel t (texts.flatten ++ rest) x = .ok (rest, v)

/-! ## Single values -/

/-- A value that begins with a symbol or a digit. -/
theorem readValue_begins {t : Ty} {c : UInt8} {input : Text} {x : Value N}
    {r : Except Failure (Text × Value N)} {fuel : ℕ} (hfuel : 2 * (c :: input).length + 1 ≤ fuel)
    (h : ∀ fuel, 2 * input.length + 2 ≤ fuel →
      readValue shape fromChars fresh (fuel + 1) t (c :: input) x = r) :
    readValue shape fromChars fresh fuel t (c :: input) x = r := by
  rw [List.length_cons] at hfuel
  obtain _ | fuel := fuel
  · omega
  · exact h fuel (by omega)

theorem readBack_bool (b : Bool) : ReadBack shape toChars fromChars fresh (.bool b) := by
  intro depth t texts x rest fuel hwrite _ _ hfuel
  rw [writeValue] at hwrite
  split at hwrite
  next hshape =>
    cases hwrite
    rw [List.flatten_singleton] at hfuel ⊢
    cases b with
    | true =>
      refine readValue_begins (c := 0x74) hfuel fun fuel _ => ?_
      rw [readValue, skipWhitespace_of_lt (by decide), hshape]
      rfl
    | false =>
      refine readValue_begins (c := 0x66) hfuel fun fuel _ => ?_
      rw [readValue, skipWhitespace_of_lt (by decide), hshape]
      rfl
  · cases hwrite

theorem readBack_number (hinverts : Inverts toChars fromChars) (n : N) :
    ReadBack shape toChars fromChars fresh (.number n) := by
  intro depth t texts x rest fuel hwrite _ hrest hfuel
  rw [writeValue] at hwrite
  split at hwrite
  next kind hshape =>
    cases hwrite
    rw [List.flatten_singleton] at hfuel ⊢
    have hpassed := hinverts.passed kind n rest hrest
    obtain ⟨c, cs, hbegins, hc, -⟩ := hinverts.begins kind n
    rw [hbegins, List.cons_append] at hpassed hfuel ⊢
    refine readValue_begins hfuel fun fuel _ => ?_
    rw [readValue, skipWhitespace_of_lt hc, hshape]
    simp only [readNumber, hpassed, List.length_cons, Nat.succ_pos, if_pos]
    rw [← List.cons_append, ← List.length_cons (a := c), List.drop_left]
  · cases hwrite

theorem flatten_writeString (str rest : Text) :
    (writeString str).flatten ++ rest = quote :: (str ++ quote :: rest) := by
  simp [writeString]

theorem readBack_enum (hreadable : Readable shape) (n : ℕ) :
    ReadBack shape toChars fromChars fresh (.enum n) := by
  intro depth t texts x rest fuel hwrite _ _ hfuel
  rw [writeValue] at hwrite
  split at hwrite
  next table hshape =>
    obtain ⟨⟨key, m⟩, hfind, rfl⟩ := Option.map_eq_some_iff.mp hwrite
    obtain ⟨hnodup, hplain⟩ := hreadable.keys t table hshape
    have hmem := List.mem_of_find?_eq_some hfind
    have hm : m = n := by simpa using List.find?_some hfind
    obtain ⟨hquote, hbackslash⟩ := hplain _ hmem
    have hkey : table.find? (fun p => p.1 = key) = some (key, m) :=
      (KeyedList.find?_eq_some_iff hnodup).mpr ⟨hmem, rfl⟩
    rw [flatten_writeString] at hfuel ⊢
    refine readValue_begins hfuel fun fuel _ => ?_
    rw [readValue, skipWhitespace_of_lt (by decide), hshape]
    simp only [readEnum, (isString_of_not_mem hquote hbackslash).readString, hkey, List.tail_cons,
      hm]
  · cases hwrite

theorem readBack_string {str : Text} (hquote : quote ∉ str) (hbackslash : backslash ∉ str) :
    ReadBack shape toChars fromChars fresh (.string str) := by
  intro depth t texts x rest fuel hwrite _ _ hfuel
  rw [writeValue] at hwrite
  split at hwrite
  next hshape =>
    cases hwrite
    rw [flatten_writeString] at hfuel ⊢
    refine readValue_begins hfuel fun fuel _ => ?_
    rw [readValue, skipWhitespace_of_lt (by decide), hshape]
    simp only [readText, (isString_of_not_mem hquote hbackslash).readString, List.tail_cons]
  · cases hwrite

/-! ## Items -/

/-- What is written for items: the first one, a comma and a space before each other one. -/
theorem writeItems_cons {depth : ℕ} {t : Ty} {ts : List Ty} {x : Value N} {xs : List (Value N)}
    {texts : List Text}
    (h : writeItems shape toChars depth true (t :: ts) (x :: xs) = some texts) :
    ∃ a, writeValue shape toChars depth t x = some a ∧
      (ts = [] ∧ xs = [] ∧ texts = a ∨
        ∃ t' ts' x' xs' b, ts = t' :: ts' ∧ xs = x' :: xs' ∧
          writeItems shape toChars depth true (t' :: ts') (x' :: xs') = some b ∧
          texts = a ++ [comma, space] :: b) := by
  rw [writeItems] at h
  split at h
  · cases h
  next a ha =>
    obtain ⟨r, hr, rfl⟩ := Option.map_eq_some_iff.mp h
    refine ⟨a, ha, ?_⟩
    cases ts with
    | nil =>
      cases xs with
      | nil =>
        cases hr
        exact .inl ⟨rfl, rfl, by simp⟩
      | cons x' xs' => cases hr
    | cons t' ts' =>
      cases xs with
      | nil => cases hr
      | cons x' xs' =>
        refine .inr ⟨t', ts', x', xs', ?_⟩
        rw [writeItems] at hr ⊢
        split at hr
        · cases hr
        next a' ha' =>
          obtain ⟨r', hr', rfl⟩ := Option.map_eq_some_iff.mp hr
          refine ⟨a' ++ r', rfl, rfl, by simp [hr'], by simp⟩

theorem separated_comma (rest : Text) : Separated (comma :: rest) := ⟨_, _, rfl, .inl rfl⟩

theorem separated_closeBracket (rest : Text) : Separated (closeBracket :: rest) :=
  ⟨_, _, rfl, .inr (.inl rfl)⟩

theorem blank_space : Blank [space] := fun c h => by
  rw [List.mem_singleton.mp h]
  decide

theorem next_cons (c : UInt8) (rest : Text) : Next c (c :: rest) rest :=
  ⟨[], fun _ h => absurd h List.not_mem_nil, rfl⟩

/-- The elements of a range are read behind those that have been read. -/
theorem readElements_written (hfresh : ∀ t, Fresh shape t (fresh t)) {depth : ℕ} {element : Ty}
    {v : Value N} {vs : List (Value N)}
    (hback : ∀ v' ∈ v :: vs, ReadBack shape toChars fromChars fresh v') {texts : List Text}
    (hwrite : writeItems shape toChars depth true (List.replicate (v :: vs).length element)
      (v :: vs) = some texts) (rest : Text) {fuel : ℕ} (done : List (Value N))
    (hfuel : 2 * (texts.flatten ++ closeBracket :: rest).length + 2 ≤ fuel) :
    readElements shape fromChars fresh fuel element (texts.flatten ++ closeBracket :: rest)
      (.items done) = .ok (rest, .items (done ++ v :: vs)) := by
  induction vs generalizing v texts fuel done with
  | nil =>
    obtain ⟨a, ha, ⟨-, -, rfl⟩ | ⟨t', ts', x', xs', b, h, -⟩⟩ := writeItems_cons hwrite
    · obtain _ | fuel := fuel
      · omega
      have hvalue := hback v List.mem_cons_self fuel ha (hfresh element)
        (separated_closeBracket rest) (by omega)
      rw [readElements_continues hvalue (next_cons _ _) (by decide), if_neg (by decide), if_pos rfl]
      rfl
    · cases h
  | cons v' vs ih =>
    obtain ⟨a, ha, ⟨h, -⟩ | ⟨t', ts', x', xs', b, hts, hxs, hb, rfl⟩⟩ := writeItems_cons hwrite
    · cases h
    · cases hts
      cases hxs
      have hflatten : (a ++ [comma, space] :: b).flatten ++ closeBracket :: rest =
          a.flatten ++ (comma :: ([space] ++ (b.flatten ++ closeBracket :: rest))) := by simp
      rw [hflatten] at hfuel ⊢
      obtain _ | fuel := fuel
      · omega
      have hvalue := hback v List.mem_cons_self fuel ha (hfresh element)
        (separated_comma ([space] ++ (b.flatten ++ closeBracket :: rest))) (by omega)
      have hleft : 2 * (b.flatten ++ closeBracket :: rest).length + 2 ≤ fuel := by
        simp only [List.length_append, List.length_cons] at hfuel ⊢
        omega
      have hlast := ih (fun v'' h => hback v'' (List.mem_cons_of_mem v h)) hb (done ++ [v]) hleft
      rw [readElements_continues hvalue (next_cons _ _) (by decide), if_pos rfl,
        readElements_blank blank_space]
      rw [Value.push, hlast, List.append_assoc, List.singleton_append]

theorem readItems_blank {fuel i : ℕ} {t : Ty} {ts : List Ty} {ws : Text} (hws : Blank ws)
    (input : Text) (x : Value N) :
    readItems shape fromChars fresh fuel i t ts (ws ++ input) x =
      readItems shape fromChars fresh fuel i t ts input x := by
  cases fuel with
  | zero => rfl
  | succ fuel => rw [readItems.eq_def, readItems.eq_def]; simp only [readValue_blank hws]

theorem item_append (done todo : List (Value N)) (y : Value N) :
    (Value.items (done ++ y :: todo)).item done.length = y := by
  simp [Value.item]

theorem setItem_append (done todo : List (Value N)) (y v : Value N) :
    (Value.items (done ++ y :: todo)).setItem done.length v = .items (done ++ v :: todo) := by
  simp [Value.setItem]

/-- The items of a tuple are read behind those that have been read. -/
theorem readItems_written {depth : ℕ} {t : Ty} {ts : List Ty} {v : Value N} {vs : List (Value N)}
    (hback : ∀ v' ∈ v :: vs, ReadBack shape toChars fromChars fresh v') {texts : List Text}
    (hwrite : writeItems shape toChars depth true (t :: ts) (v :: vs) = some texts) (rest : Text)
    {fuel : ℕ} (done : List (Value N)) {todo : List (Value N)}
    (hlength : todo.length = ts.length + 1)
    (htodo : ∀ (i : ℕ) t' y, (t :: ts)[i]? = some t' → todo[i]? = some y → Fresh shape t' y)
    (hfuel : 2 * (texts.flatten ++ closeBracket :: rest).length + 2 ≤ fuel) :
    readItems shape fromChars fresh fuel done.length t ts (texts.flatten ++ closeBracket :: rest)
      (.items (done ++ todo)) = .ok (rest, .items (done ++ v :: vs)) := by
  induction vs generalizing v t ts texts fuel done todo with
  | nil =>
    obtain ⟨a, ha, ⟨rfl, -, rfl⟩ | ⟨t', ts', x', xs', b, -, h, -⟩⟩ := writeItems_cons hwrite
    · obtain _ | fuel := fuel
      · omega
      obtain ⟨y, rfl⟩ := List.length_eq_one_iff.mp hlength
      have hvalue := hback v List.mem_cons_self fuel ha (htodo 0 t y rfl rfl)
        (separated_closeBracket rest) (by omega)
      rw [← item_append done [] y] at hvalue
      rw [readItems_last hvalue (next_cons _ _), setItem_append]
    · cases h
  | cons v' vs ih =>
    obtain ⟨a, ha, ⟨-, h, -⟩ | ⟨t', ts', x', xs', b, rfl, hxs, hb, rfl⟩⟩ := writeItems_cons hwrite
    · cases h
    · cases hxs
      have hflatten : (a ++ [comma, space] :: b).flatten ++ closeBracket :: rest =
          a.flatten ++ (comma :: ([space] ++ (b.flatten ++ closeBracket :: rest))) := by simp
      rw [hflatten] at hfuel ⊢
      obtain _ | fuel := fuel
      · omega
      obtain _ | ⟨y, todo⟩ := todo
      · cases hlength
      have hvalue := hback v List.mem_cons_self fuel ha (htodo 0 t y rfl rfl)
        (separated_comma ([space] ++ (b.flatten ++ closeBracket :: rest))) (by omega)
      rw [← item_append done todo y] at hvalue
      have hleft : 2 * (b.flatten ++ closeBracket :: rest).length + 2 ≤ fuel := by
        simp only [List.length_append, List.length_cons] at hfuel ⊢
        omega
      have hlast := ih (fun v'' h => hback v'' (List.mem_cons_of_mem v h)) hb (done ++ [v])
        (Nat.succ.inj hlength) (fun i t'' y' ht hy => htodo (i + 1) t'' y' ht hy) hleft
      rw [List.length_append, List.length_singleton, List.append_assoc, List.append_assoc,
        List.singleton_append, List.singleton_append] at hlast
      rw [readItems_next hvalue (next_cons _ _), readItems_blank blank_space, setItem_append, hlast]

/-! ## Members -/

/-- What is written for members: the first one, and indentations between them. -/
theorem writeMembers_cons {depth : ℕ} {key : Text} {t : Ty} {table : List (Text × Ty)}
    {x : Value N} {xs : List (Value N)} {texts : List Text}
    (h : writeMembers shape toChars depth true ((key, t) :: table) (x :: xs) = some texts) :
    ∃ a, writeValue shape toChars depth t x = some a ∧
      (table = [] ∧ xs = [] ∧ texts = writeString key ++ [[space, colon, space]] ++ a ∨
        ∃ p table' x' xs' b, table = p :: table' ∧ xs = x' :: xs' ∧
          writeMembers shape toChars depth true (p :: table') (x' :: xs') = some b ∧
          texts = writeString key ++ [[space, colon, space]] ++ a ++
            (comma :: indentation (depth + 1)) :: b) := by
  rw [writeMembers] at h
  split at h
  · cases h
  next a ha =>
    obtain ⟨r, hr, rfl⟩ := Option.map_eq_some_iff.mp h
    refine ⟨a, ha, ?_⟩
    cases table with
    | nil =>
      cases xs with
      | nil =>
        cases hr
        exact .inl ⟨rfl, rfl, by simp⟩
      | cons x' xs' => cases hr
    | cons p table' =>
      obtain ⟨key', t'⟩ := p
      cases xs with
      | nil => cases hr
      | cons x' xs' =>
        refine .inr ⟨(key', t'), table', x', xs', ?_⟩
        rw [writeMembers] at hr ⊢
        split at hr
        · cases hr
        next a' ha' =>
          obtain ⟨r', hr', rfl⟩ := Option.map_eq_some_iff.mp hr
          exact ⟨writeString key' ++ [[space, colon, space]] ++ a' ++ r', rfl, rfl, by simp [hr'],
            by simp⟩

/-- One member is read, with its name. -/
theorem readMembers_member {table : List (Text × Ty)} {key : Text} {i : ℕ} {t : Ty}
    {ws body mid rest : Text} {c : UInt8} {fuel : ℕ} {x y : Value N} (hws : Blank ws)
    (hkey : IsString key) (hfind : findMember table key = some (i, t))
    (hvalue : readValue shape fromChars fresh fuel t body (x.item i) = .ok (mid, y))
    (hnext : Next c mid rest) (hc : space < c) :
    readMembers shape fromChars fresh (fuel + 1) table
        (ws ++ quote :: (key ++ quote :: space :: colon :: ([space] ++ body))) x =
      if c = comma then readMembers shape fromChars fresh fuel table rest (x.setItem i y)
      else if c = closeBrace then .ok (rest, x.setItem i y)
      else fail .unexpectedSymbol (c :: rest) := by
  have hquote : skipWhitespace (ws ++ quote ::
      (key ++ quote :: space :: colon :: ([space] ++ body))) = .ok (quote ::
      (key ++ quote :: space :: colon :: ([space] ++ body))) := Next.skipWhitespace ⟨ws, hws, rfl⟩
    (by decide)
  have hcolon : Next colon (space :: colon :: ([space] ++ body)) ([space] ++ body) :=
    ⟨[space], blank_space, rfl⟩
  rw [← readValue_blank blank_space] at hvalue
  obtain ⟨d, ds, rfl⟩ := hnext.eq_cons
  rw [Json.readMembers, hquote]
  simp only [hkey.readString, hfind, List.tail_cons, hcolon.skipWhitespace (by decide),
    List.head?_cons, if_pos, hvalue, hnext.skipWhitespace hc, Option.some.injEq]

theorem flatten_member (key : Text) (a : List Text) (rest : Text) :
    (writeString key ++ [[space, colon, space]] ++ a).flatten ++ rest =
      quote :: (key ++ quote :: space :: colon :: ([space] ++ (a.flatten ++ rest))) := by
  simp [writeString]

theorem indentation_succ (n : ℕ) : ∃ ws, indentation (n + 1) = lineFeed :: ws :=
  ⟨(List.replicate 16 tab).take n, rfl⟩

/-- The members of a class are read behind those that have been read. -/
theorem readMembers_written {depth : ℕ} (before : List (Text × Ty)) {table : List (Text × Ty)} {key : Text} {t : Ty}
    (hnodup : ((before ++ (key, t) :: table).map Prod.fst).Nodup)
    (hplain : ∀ p ∈ before ++ (key, t) :: table, quote ∉ p.1 ∧ backslash ∉ p.1)
    {v : Value N} {vs : List (Value N)}
    (hback : ∀ v' ∈ v :: vs, ReadBack shape toChars fromChars fresh v') {texts : List Text}
    (hwrite : writeMembers shape toChars (depth + 1) true ((key, t) :: table) (v :: vs) = some texts)
    {ws : Text} (hws : Blank ws) (rest : Text) {fuel : ℕ} (done : List (Value N)) {todo : List (Value N)}
    (hdone : done.length = before.length) (hlength : todo.length = table.length + 1)
    (htodo : ∀ (i : ℕ) t' y, (((key, t) :: table).map Prod.snd)[i]? = some t' →
      todo[i]? = some y → Fresh shape t' y)
    (hfuel : 2 * (ws ++ (texts.flatten ++ (indentation (depth + 1) ++ closeBrace :: rest))).length +
      2 ≤ fuel) :
    readMembers shape fromChars fresh fuel (before ++ (key, t) :: table)
      (ws ++ (texts.flatten ++ (indentation (depth + 1) ++ closeBrace :: rest)))
      (.items (done ++ todo)) = .ok (rest, .items (done ++ v :: vs)) := by
  induction vs generalizing v key t before table texts fuel ws done todo with
  | nil =>
    obtain ⟨hquote, hbackslash⟩ := hplain (key, t) (by simp)
    have hfind : findMember (before ++ (key, t) :: table) key = some (done.length, t) :=
      hdone ▸ findMember_of_getElem? hnodup (by simp)
    obtain ⟨a, ha, ⟨rfl, -, rfl⟩ | ⟨p, table', x', xs', b, -, h, -⟩⟩ := writeMembers_cons hwrite
    · obtain _ | fuel := fuel
      · omega
      obtain ⟨y, rfl⟩ := List.length_eq_one_iff.mp hlength
      rw [flatten_member] at hfuel ⊢
      have hrest : Separated (indentation (depth + 1) ++ closeBrace :: rest) := by
        obtain ⟨tabs, htabs⟩ := indentation_succ depth
        exact ⟨lineFeed, tabs ++ closeBrace :: rest, by rw [htabs]; rfl, .inr (.inr rfl)⟩
      have hvalue := hback v List.mem_cons_self fuel ha (htodo 0 t y rfl rfl) hrest (by
        simp only [List.length_append, List.length_cons] at hfuel ⊢
        omega)
      rw [← item_append done [] y] at hvalue
      rw [readMembers_member hws (isString_of_not_mem hquote hbackslash) hfind hvalue
        ⟨indentation (depth + 1), blank_indentation _, rfl⟩ (by decide), if_neg (by decide),
        if_pos rfl, setItem_append]
    · cases h
  | cons v' vs ih =>
    obtain ⟨hquote, hbackslash⟩ := hplain (key, t) (by simp)
    have hfind : findMember (before ++ (key, t) :: table) key = some (done.length, t) :=
      hdone ▸ findMember_of_getElem? hnodup (by simp)
    obtain ⟨a, ha, ⟨-, h, -⟩ | ⟨⟨key', t'⟩, table', x', xs', b, rfl, hxs, hb, rfl⟩⟩ :=
      writeMembers_cons hwrite
    · cases h
    · cases hxs
      have hflatten : (writeString key ++ [[space, colon, space]] ++ a ++
          (comma :: indentation (depth + 1 + 1)) :: b).flatten ++
            (indentation (depth + 1) ++ closeBrace :: rest) =
          (writeString key ++ [[space, colon, space]] ++ a).flatten ++
            (comma :: (indentation (depth + 1 + 1) ++ (b.flatten ++
              (indentation (depth + 1) ++ closeBrace :: rest)))) := by simp
      rw [hflatten, flatten_member] at hfuel ⊢
      obtain _ | fuel := fuel
      · omega
      obtain _ | ⟨y, todo⟩ := todo
      · cases hlength
      have hvalue := hback v List.mem_cons_self fuel ha (htodo 0 t y rfl rfl)
        (separated_comma (indentation (depth + 1 + 1) ++ (b.flatten ++
          (indentation (depth + 1) ++ closeBrace :: rest)))) (by
        simp only [List.length_append, List.length_cons] at hfuel ⊢
        omega)
      rw [← item_append done todo y] at hvalue
      have hleft : 2 * (indentation (depth + 1 + 1) ++ (b.flatten ++
          (indentation (depth + 1) ++ closeBrace :: rest))).length + 2 ≤ fuel := by
        simp only [List.length_append, List.length_cons] at hfuel ⊢
        omega
      have hsplit : before ++ (key, t) :: (key', t') :: table' =
          (before ++ [(key, t)]) ++ (key', t') :: table' := by simp
      have hcount : (done ++ [v]).length = (before ++ [(key, t)]).length := by simp [hdone]
      have hlast := ih (before ++ [(key, t)]) (hsplit ▸ hnodup) (hsplit ▸ hplain)
        (fun v'' h => hback v'' (List.mem_cons_of_mem v h)) hb (blank_indentation _) (done ++ [v]) hcount
        (Nat.succ.inj hlength) (fun i t'' y' ht hy => htodo (i + 1) t'' y' ht hy) hleft
      rw [← hsplit, List.append_assoc, List.append_assoc, List.singleton_append,
        List.singleton_append] at hlast
      rw [readMembers_member hws (isString_of_not_mem hquote hbackslash) hfind hvalue
        (next_cons _ _) (by decide), if_pos rfl, setItem_append, hlast]

/-! ## Round trip -/

theorem Fresh.items_eq {t element : Ty} {x : Value N} (h : Fresh shape t x)
    (hshape : shape t = .range element) : x = .items [] := by
  cases h with
  | range _ => rfl
  | bool _ h | number _ h | enum _ h | string _ h | tuple _ h _ _ | members _ h _ _ =>
    cases hshape.symm.trans h

theorem Fresh.tuple_items {t first : Ty} {ts : List Ty} {x : Value N} (h : Fresh shape t x)
    (hshape : shape t = .tuple first ts) : ∃ xs, x = .items xs ∧ xs.length = ts.length + 1 ∧
      ∀ (i : ℕ) t y, (first :: ts)[i]? = some t → xs[i]? = some y → Fresh shape t y := by
  cases h with
  | tuple xs h hlength hitems =>
    cases hshape.symm.trans h
    exact ⟨xs, rfl, hlength, hitems⟩
  | bool _ h | number _ h | enum _ h | string _ h | range h | members _ h _ _ =>
    cases hshape.symm.trans h

theorem Fresh.member_items {t : Ty} {table : List (Text × Ty)} {x : Value N}
    (h : Fresh shape t x) (hshape : shape t = .members table) :
    ∃ xs, x = .items xs ∧ xs.length = table.length ∧
      ∀ (i : ℕ) t y, (table.map Prod.snd)[i]? = some t → xs[i]? = some y → Fresh shape t y := by
  cases h with
  | members xs h hlength hitems =>
    cases hshape.symm.trans h
    exact ⟨xs, rfl, hlength, hitems⟩
  | bool _ h | number _ h | enum _ h | string _ h | range h | tuple _ h _ _ =>
    cases hshape.symm.trans h

/-- What is written for a value begins with a symbol or a digit, and does not close a range. -/
theorem writeValue_begins (hinverts : Inverts toChars fromChars) {depth : ℕ} {t : Ty} {v : Value N}
    {texts : List Text} (h : writeValue shape toChars depth t v = some texts) :
    ∃ c cs, texts.flatten = c :: cs ∧ space < c ∧ c ≠ closeBracket := by
  cases v with
  | bool b =>
    rw [writeValue] at h
    split at h
    · cases h
      cases b
      · exact ⟨0x66, _, rfl, by decide, by decide⟩
      · exact ⟨0x74, _, rfl, by decide, by decide⟩
    · cases h
  | number n =>
    rw [writeValue] at h
    split at h
    next kind hshape =>
      cases h
      rw [List.flatten_singleton]
      exact hinverts.begins kind n
    · cases h
  | enum n =>
    rw [writeValue] at h
    split at h
    · obtain ⟨p, -, rfl⟩ := Option.map_eq_some_iff.mp h
      exact ⟨quote, _, rfl, by decide, by decide⟩
    · cases h
  | string str =>
    rw [writeValue] at h
    split at h
    · cases h
      exact ⟨quote, _, rfl, by decide, by decide⟩
    · cases h
  | items vs =>
    rw [writeValue] at h
    split at h
    · split_ifs at h
      · cases h
        exact ⟨openBracket, _, rfl, by decide, by decide⟩
      · obtain ⟨_, -, rfl⟩ := Option.map_eq_some_iff.mp h
        exact ⟨openBracket, _, rfl, by decide, by decide⟩
    · obtain ⟨_, -, rfl⟩ := Option.map_eq_some_iff.mp h
      exact ⟨openBracket, _, rfl, by decide, by decide⟩
    · split_ifs at h
      · cases h
        exact ⟨openBrace, _, rfl, by decide, by decide⟩
      · obtain ⟨_, -, rfl⟩ := Option.map_eq_some_iff.mp h
        exact ⟨openBrace, _, rfl, by decide, by decide⟩
    · cases h

theorem flatten_brackets (texts : List Text) (rest : Text) :
    ([openBracket] :: texts ++ [[closeBracket]]).flatten ++ rest =
      openBracket :: (texts.flatten ++ closeBracket :: rest) := by
  simp

theorem readBack_items (hinverts : Inverts toChars fromChars) (hreadable : Readable shape) (hfresh : ∀ t, Fresh shape t (fresh t))
    {vs : List (Value N)} (hback : ∀ v ∈ vs, ReadBack shape toChars fromChars fresh v) :
    ReadBack shape toChars fromChars fresh (.items vs) := by
  intro depth t texts x rest fuel hwrite hx _ hfuel
  rw [writeValue] at hwrite
  split at hwrite
  next element hshape =>
    obtain rfl := hx.items_eq hshape
    split_ifs at hwrite with hempty
    · cases hwrite
      obtain rfl := List.isEmpty_iff.mp hempty
      have hclose : skipWhitespace (closeBracket :: rest) = .ok (closeBracket :: rest) :=
        skipWhitespace_of_lt (by decide) rest
      change readValue shape fromChars fresh fuel t (openBracket :: closeBracket :: rest) _ = _
      refine readValue_begins hfuel fun fuel _ => ?_
      rw [readValue, skipWhitespace_of_lt (by decide), hshape]
      simp only [List.head?_cons, List.tail_cons, if_pos, hclose]
    · obtain ⟨texts, hitems, rfl⟩ := Option.map_eq_some_iff.mp hwrite
      obtain _ | ⟨v, vs⟩ := vs
      · exact absurd rfl hempty
      rw [flatten_brackets] at hfuel ⊢
      refine readValue_begins hfuel fun fuel hle => ?_
      -- an element does not begin with a bracket that closes
      obtain ⟨c, cs, hbegins, hc, hne⟩ : ∃ c cs, texts.flatten = c :: cs ∧ space < c ∧
          c ≠ closeBracket := by
        obtain ⟨a, ha, ⟨-, -, rfl⟩ | ⟨_, _, _, _, b, -, -, -, rfl⟩⟩ := writeItems_cons hitems
        · exact writeValue_begins hinverts ha
        · obtain ⟨c, cs, hbegins, hc, hne⟩ := writeValue_begins hinverts ha
          exact ⟨c, cs ++ ([comma, space] :: b).flatten, by
            rw [List.flatten_append, hbegins, List.cons_append], hc, hne⟩
      have hread := readElements_written hfresh hback hitems rest [] hle
      rw [hbegins, List.cons_append, List.nil_append] at hread
      have hskip := skipWhitespace_of_lt hc (cs ++ closeBracket :: rest)
      have hopen : ¬ some c = some closeBracket := fun heq => hne (Option.some.inj heq)
      rw [readValue, skipWhitespace_of_lt (by decide), hshape, hbegins, List.cons_append]
      simp only [List.head?_cons, List.tail_cons, if_pos, hskip, if_neg hopen, hread]
  next first ts hshape =>
    obtain ⟨texts, hitems, rfl⟩ := Option.map_eq_some_iff.mp hwrite
    obtain ⟨xs, rfl, hlength, hfreshItems⟩ := hx.tuple_items hshape
    obtain _ | ⟨v, vs⟩ := vs
    · cases hitems
    rw [flatten_brackets] at hfuel ⊢
    refine readValue_begins hfuel fun fuel hle => ?_
    have hread := readItems_written hback hitems rest [] hlength hfreshItems hle
    rw [readValue, skipWhitespace_of_lt (by decide), hshape]
    simp only [List.head?_cons, List.tail_cons, if_pos]
    exact hread
  next table hshape =>
    obtain ⟨hne, hnodup, hplain⟩ := hreadable.names t table hshape
    obtain ⟨xs, rfl, hlength, hfreshItems⟩ := hx.member_items hshape
    split_ifs at hwrite with hempty hdeep
    · exact absurd (List.isEmpty_iff.mp hempty) hne
    · obtain ⟨texts, hmembers, rfl⟩ := Option.map_eq_some_iff.mp hwrite
      obtain _ | ⟨⟨key, type⟩, table⟩ := table
      · exact absurd rfl hne
      obtain _ | ⟨v, vs⟩ := vs
      · cases hmembers
      have hflatten : ((openBrace :: indentation (depth + 2)) :: texts ++
          [indentation (depth + 1), [closeBrace]]).flatten ++ rest =
          openBrace :: (indentation (depth + 2) ++ (texts.flatten ++
            (indentation (depth + 1) ++ closeBrace :: rest))) := by simp
      rw [hflatten] at hfuel ⊢
      refine readValue_begins hfuel fun fuel hle => ?_
      have hread := readMembers_written [] hnodup hplain hback hmembers
        (blank_indentation (depth + 2)) rest [] rfl hlength hfreshItems hle
      rw [readValue, skipWhitespace_of_lt (by decide), hshape]
      simp only [List.head?_cons, List.tail_cons, if_pos]
      exact hread
  next => cases hwrite

theorem Plain.readBack (hinverts : Inverts toChars fromChars) (hreadable : Readable shape)
    (hfresh : ∀ t, Fresh shape t (fresh t)) {v : Value N} (h : Plain v) :
    ReadBack shape toChars fromChars fresh v := by
  induction h with
  | bool b => exact readBack_bool b
  | number n => exact readBack_number hinverts n
  | enum n => exact readBack_enum hreadable n
  | string str hquote hbackslash => exact readBack_string hquote hbackslash
  | items vs _ ih => exact readBack_items hinverts hreadable hfresh ih

/-- The digits `0` and `1`, as they are read. -/
def digitFromChars (_ : Unit) (s : Text) : Option (Bool × ℕ) :=
  if s.head? = some 0x31 then some (true, 1) else if s.head? = some 0x30 then some (false, 1) else none

theorem inverts_digits : Inverts Ini.digitToChars digitFromChars where
  begins := by
    rintro _ (_ | _) <;> exact ⟨_, _, rfl, by decide, by decide⟩
  passed := by
    rintro _ (_ | _) rest _ <;> rfl

/-- A class with a range of numbers and an enumeration, and the types of its members. -/
def sampleShape : Fin 4 → Shape (Fin 4) Unit
  | 0 => .members [([0x61], 1), ([0x62], 2)]
  | 1 => .range 3
  | 2 => .enum [([0x65], 5)]
  | 3 => .number ()

def sampleFresh : Fin 4 → Value Bool
  | 0 => .items [.items [], .enum 0]
  | 1 => .items []
  | 2 => .enum 0
  | 3 => .number false

theorem readable_sample : Readable sampleShape where
  keys := by
    intro t table h
    match t with
    | 0 | 1 | 3 => cases h
    | 2 =>
      cases h
      decide
  names := by
    intro t table h
    match t with
    | 0 =>
      cases h
      decide
    | 1 | 2 | 3 => cases h

theorem fresh_sample : ∀ t, Fresh sampleShape t (sampleFresh t)
  | 0 => by
    refine .members _ rfl rfl fun i t x ht hx => ?_
    match i with
    | 0 =>
      cases ht
      cases hx
      exact .range rfl
    | 1 =>
      cases ht
      cases hx
      exact .enum _ rfl
  | 1 => .range rfl
  | 2 => .enum _ rfl
  | 3 => .number _ rfl

end Fimbulwinter.Json
