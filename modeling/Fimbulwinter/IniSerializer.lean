import Fimbulwinter.IniAcceptance
import Fimbulwinter.JsonGrammar
import Mathlib.Data.List.Nodup

/-! # `core::serialize_ini`

Writes the members of an object as lines of text, those of its members in sections, and what is
written is read back. -/
namespace Fimbulwinter.Ini

open Json (Text space openBracket closeBracket trueText falseText findMember findMember_of_getElem?)

section Serializer

variable {Kind N : Type*} (toChars : Kind → N → Text)

/-- The text of a value; there is none for a value of another type. -/
def valueText : Scalar Kind → Value N → Option Text
  | .bool, .bool x => some (if x then trueText else falseText)
  | .number kind, .number x => some (toChars kind x)
  | .enum table, .enum x => (table.find? fun p => p.2 = x).map Prod.fst
  | .string, .string x => some x
  | _, _ => none

/-- `write_key_value`, as the texts that are written one after another -/
def writeKeyValue (name : Text) (type : Scalar Kind) (x : Value N) : Option (List Text) :=
  match type with
  | .bool => (valueText toChars type x).map fun text =>
      [name, [space, equals, space] ++ text ++ [lineFeed]]
  | _ => (valueText toChars type x).map fun text =>
      [name, [space, equals, space], text, [lineFeed]]

/-- The members that are not of a class. -/
def writeKeyValues (x : Object N) (path : List ℕ) :
    ℕ → List (Text × Member Kind) → Option (List Text)
  | _, [] => some []
  | i, (name, .scalar type) :: rest =>
    match writeKeyValue toChars name type (x (path ++ [i])) with
    | none => none
    | some texts => (writeKeyValues x path (i + 1) rest).map (texts ++ ·)
  | i, (_, .members _) :: rest => writeKeyValues x path (i + 1) rest

def Member.isScalar : Member Kind → Bool
  | .scalar _ => true
  | .members _ => false

/-- The members that are not of a class, with an empty line after them if there are any. -/
def writeBody (x : Object N) (path : List ℕ) (table : List (Text × Member Kind)) :
    Option (List Text) :=
  (writeKeyValues toChars x path 0 table).map fun texts =>
    if table.any fun p => p.2.isScalar then texts ++ [[lineFeed]] else texts

/-- The members that are of a class, with headers. -/
def writeHeaders (x : Object N) (path : List ℕ) :
    ℕ → List (Text × Member Kind) → Option (List Text)
  | _, [] => some []
  | i, (_, .scalar _) :: rest => writeHeaders x path (i + 1) rest
  | i, (name, .members table) :: rest =>
    match writeBody toChars x (path ++ [i]) table with
    | none => none
    | some body =>
      match writeHeaders x (path ++ [i]) 0 table with
      | none => none
      | some headers =>
        (writeHeaders x path (i + 1) rest).map fun texts =>
          [[openBracket], name, [closeBracket, lineFeed]] ++ body ++ headers ++ texts

/-- `write`: something has to be left of the buffer. -/
def writeTexts : ℕ → Text → List Text → Option Text
  | room, written, [] => if 0 < room then some written else none
  | room, written, text :: rest =>
    if text.length < room then writeTexts (room - text.length) (written ++ text) rest else none

/-- `serialize_ini`, with `write_all` -/
def serializeIni (table : List (Text × Member Kind)) (x : Object N) (room : ℕ) : Option Text :=
  match writeBody toChars x [] table with
  | none => none
  | some body =>
    match writeHeaders toChars x [] 0 table with
    | none => none
    | some headers => writeTexts room [] (body ++ headers)

end Serializer

/-! ## Round trip -/

/-- What makes a name the name of a member on a line and in a header. -/
def IsName (name : Text) : Prop := IsKey name ∧ ∀ b ∈ name, b ≠ closeBracket

/-- The keys of an enumeration are distinct and do not end a line. -/
def Scalar.Readable {Kind : Type*} : Scalar Kind → Prop
  | .enum table => (table.map Prod.fst).Nodup ∧ ∀ p ∈ table, ∀ b ∈ p.1, ¬ LineEnd b
  | _ => True

/-- A class with names for its members by which they are found. -/
structure Readable {Kind : Type*} (table : List (Text × Member Kind)) : Prop where
  nodup : (table.map Prod.fst).Nodup
  names : ∀ p ∈ table, IsName p.1
  scalars : ∀ name type, (name, Member.scalar type) ∈ table → type.Readable

variable {Kind N : Type*} {toChars : Kind → N → Text} {fromChars : Kind → Text → ℕ × N}

/-- `fio::from_chars` gives back what `fio::to_chars` has written in front of the end of a line. -/
structure Inverts (toChars : Kind → N → Text) (fromChars : Kind → Text → ℕ × N) : Prop where
  nonempty : ∀ kind x, toChars kind x ≠ []
  passed : ∀ kind x rest, fromChars kind (toChars kind x ++ lineFeed :: rest) =
    ((toChars kind x).length, x)

theorem writeTexts_ok {room : ℕ} {before text : Text} {texts : List Text}
    (h : writeTexts room before texts = some text) : text = before ++ texts.flatten := by
  induction texts generalizing room before with
  | nil =>
    rw [writeTexts] at h
    split_ifs at h
    cases h
    simp
  | cons t texts ih =>
    rw [writeTexts] at h
    split_ifs at h
    rw [ih h, List.flatten_cons, List.append_assoc]

theorem writeKeyValue_flatten {name : Text} {type : Scalar Kind} {x : Value N}
    {texts : List Text} (h : writeKeyValue toChars name type x = some texts) :
    ∃ text, valueText toChars type x = some text ∧
      texts.flatten = name ++ space :: equals :: space :: (text ++ [lineFeed]) := by
  unfold writeKeyValue at h
  split at h <;>
  · obtain ⟨text, htext, rfl⟩ := Option.map_eq_some_iff.mp h
    exact ⟨text, htext, by simp⟩

/-- The text of a value is read as the value. -/
theorem reads_valueText (hinverts : Inverts toChars fromChars) {type : Scalar Kind}
    (htype : type.Readable) {x : Value N} {text : Text}
    (hstring : ∀ str, x = .string str → ∀ b ∈ str, ¬ LineEnd b)
    (h : valueText toChars type x = some text) (rest : Text) :
    Reads fromChars type text (lineFeed :: rest) x := by
  cases type with
  | bool =>
    cases x with
    | bool x =>
      cases h
      cases x
      · exact .false
      · exact .true
    | _ => cases h
  | number kind =>
    cases x with
    | number x =>
      cases h
      exact .number (hinverts.nonempty kind x) (hinverts.passed kind x rest)
    | _ => cases h
  | enum table =>
    cases x with
    | enum x =>
      obtain ⟨p, hp, rfl⟩ := Option.map_eq_some_iff.mp h
      have hmem := List.mem_of_find?_eq_some hp
      have hx : p.2 = x := by simpa using List.find?_some hp
      obtain ⟨q, hq⟩ : ∃ q, table.find? (fun q => q.1 = p.1) = some q := by
        rw [← Option.isSome_iff_exists, List.find?_isSome]
        exact ⟨p, hmem, by simp⟩
      have hkey : q.1 = p.1 := by simpa using List.find?_some hq
      have heq : q = p :=
        List.inj_on_of_nodup_map htype.1 (List.mem_of_find?_eq_some hq) hmem hkey
      subst heq
      rw [← hx]
      exact .enum (htype.2 q hmem) hq
    | _ => cases h
  | string =>
    cases x with
    | string x =>
      cases h
      exact .string (hstring _ rfl)
    | _ => cases h

/-- No string has the end of a line in it. -/
def OnLines (x : Object N) : Prop := ∀ path str, x path = .string str → ∀ b ∈ str, ¬ LineEnd b

variable {x : Object N} {table : List (Text × Member Kind)}

/-- The entries that are written for members from the `k`-th one on come before other ones. -/
theorem body_writeKeyValues (hinverts : Inverts toChars fromChars) (hx : OnLines x)
    (htable : Readable table) {path : List ℕ} {k : ℕ} {members : List (Text × Member Kind)}
    (hmembers : ∀ j, members[j]? = table[k + j]?) {texts : List Text}
    (h : writeKeyValues toChars x path k members = some texts) : ∃ es : List (ℕ × Value N),
      (∀ s es' rest, Body fromChars table s es' rest →
        Body fromChars table (texts.flatten ++ s) (es ++ es') rest) ∧
      (∀ e ∈ es, e.2 = x (path ++ [e.1])) ∧
      ∀ j name type, members[j]? = some (name, .scalar type) → k + j ∈ es.map Prod.fst := by
  induction members generalizing k texts with
  | nil =>
    cases h
    exact ⟨[], fun s es' rest h => h, fun e he => absurd he List.not_mem_nil,
      fun j name type hj => by simp at hj⟩
  | cons p members ih =>
    obtain ⟨name, member⟩ := p
    have hfirst : table[k]? = some (name, member) := (hmembers 0).symm
    have hrest : ∀ j, members[j]? = table[k + 1 + j]? := fun j => by
      rw [Nat.add_right_comm, Nat.add_assoc]
      exact hmembers (j + 1)
    cases member with
    | members sub =>
      obtain ⟨es, hbody, hvalues, hall⟩ := ih hrest h
      refine ⟨es, hbody, hvalues, fun j name' type hj => ?_⟩
      cases j with
      | zero => cases hj
      | succ j =>
        have := hall j name' type hj
        rwa [Nat.add_right_comm, Nat.add_assoc] at this
    | scalar type =>
      rw [writeKeyValues] at h
      cases hwrite : writeKeyValue toChars name type (x (path ++ [k])) with
      | none =>
        rw [hwrite] at h
        cases h
      | some ts =>
        rw [hwrite] at h
        obtain ⟨texts, htexts, rfl⟩ := Option.map_eq_some_iff.mp h
        obtain ⟨text, htext, hflatten⟩ := writeKeyValue_flatten hwrite
        obtain ⟨es, hbody, hvalues, hall⟩ := ih hrest htexts
        have hmem := List.mem_of_getElem? hfirst
        refine ⟨(k, x (path ++ [k])) :: es, fun s es' rest hs => ?_, ?_, ?_⟩
        · have hline : (ts ++ texts).flatten ++ s =
              name ++ space :: equals :: space :: (text ++ lineFeed :: (texts.flatten ++ s)) := by
            rw [List.flatten_append, hflatten]
            simp
          rw [hline]
          exact .entry (htable.names _ hmem).1 (findMember_of_getElem? htable.nodup hfirst)
            (.inr rfl) (reads_valueText hinverts (htable.scalars _ _ hmem) (hx _) htext _)
            (hbody s es' rest hs)
        · exact List.forall_mem_cons.mpr ⟨rfl, hvalues⟩
        · intro j name' type' hj
          cases j with
          | zero => exact List.mem_cons_self
          | succ j =>
            have := hall j name' type' hj
            rw [Nat.add_right_comm, Nat.add_assoc] at this
            exact List.mem_cons_of_mem _ this

theorem body_writeBody (hinverts : Inverts toChars fromChars) (hx : OnLines x)
    (htable : Readable table) {path : List ℕ} {texts : List Text}
    (h : writeBody toChars x path table = some texts) : ∃ es : List (ℕ × Value N),
      (∀ rest, Body fromChars table (texts.flatten ++ rest) es rest) ∧
      (∀ e ∈ es, e.2 = x (path ++ [e.1])) ∧
      ∀ j name type, table[j]? = some (name, .scalar type) → j ∈ es.map Prod.fst := by
  obtain ⟨texts, htexts, rfl⟩ := Option.map_eq_some_iff.mp h
  obtain ⟨es, hbody, hvalues, hall⟩ := body_writeKeyValues hinverts hx htable
    (fun j => by rw [Nat.zero_add]) htexts
  refine ⟨es, fun rest => ?_, hvalues, fun j name type hj => ?_⟩
  · split_ifs
    · have hblank : Body fromChars table (lineFeed :: rest) [] rest := .blank (by decide) .done
      have := hbody _ _ _ hblank
      rw [List.append_nil] at this
      simpa using this
    · have := hbody rest [] rest .done
      rwa [List.append_nil] at this
  · have := hall j name type hj
    rwa [Nat.zero_add] at this

theorem writeHeaders_scalars {path : List ℕ} {k : ℕ} {members : List (Text × Member Kind)}
    (h : ∀ p ∈ members, p.2.isScalar = true) :
    writeHeaders toChars x path k members = some [] := by
  induction members generalizing k with
  | nil => rw [writeHeaders]
  | cons p members ih =>
    obtain ⟨name, member⟩ := p
    cases member with
    | scalar type =>
      rw [writeHeaders]
      exact ih fun p hp => h p (List.mem_cons_of_mem _ hp)
    | members sub => cases h _ List.mem_cons_self

/-- A class that is readable, with members of classes that have no such members themselves. -/
structure Sectioned (table : List (Text × Member Kind)) : Prop where
  readable : Readable table
  sections : ∀ name sub, (name, Member.members sub) ∈ table →
    Readable sub ∧ ∀ p ∈ sub, p.2.isScalar = true

theorem sections_writeHeaders (hinverts : Inverts toChars fromChars) (hx : OnLines x)
    (htable : Sectioned table) {k : ℕ} {members : List (Text × Member Kind)}
    (hmembers : ∀ j, members[j]? = table[k + j]?) {texts : List Text}
    (h : writeHeaders toChars x [] k members = some texts) : ∃ es : List (List ℕ × Value N),
      Sections fromChars table texts.flatten es ∧ (∀ e ∈ es, e.2 = x e.1) ∧
      ∀ j name sub, members[j]? = some (name, .members sub) →
        ∀ j' name' type, sub[j']? = some (name', .scalar type) → [k + j, j'] ∈ es.map Prod.fst := by
  induction members generalizing k texts with
  | nil =>
    rw [writeHeaders] at h
    cases h
    exact ⟨[], .nil, fun e he => absurd he List.not_mem_nil, fun j name sub hj => by simp at hj⟩
  | cons p members ih =>
    obtain ⟨name, member⟩ := p
    have hfirst : table[k]? = some (name, member) := (hmembers 0).symm
    have hrest : ∀ j, members[j]? = table[k + 1 + j]? := fun j => by
      rw [Nat.add_right_comm, Nat.add_assoc]
      exact hmembers (j + 1)
    cases member with
    | scalar type =>
      rw [writeHeaders] at h
      obtain ⟨es, hsections, hvalues, hall⟩ := ih hrest h
      refine ⟨es, hsections, hvalues, fun j name' sub hj => ?_⟩
      cases j with
      | zero => cases hj
      | succ j =>
        have := hall j name' sub hj
        rwa [Nat.add_right_comm, Nat.add_assoc] at this
    | members sub =>
      have hmem := List.mem_of_getElem? hfirst
      obtain ⟨hsub, hscalars⟩ := htable.sections name sub hmem
      rw [writeHeaders] at h
      cases hwrite : writeBody toChars x ([] ++ [k]) sub with
      | none =>
        rw [hwrite] at h
        cases h
      | some body =>
        rw [hwrite, writeHeaders_scalars hscalars] at h
        obtain ⟨texts, htexts, rfl⟩ := Option.map_eq_some_iff.mp h
        obtain ⟨es, hsections, hvalues, hall⟩ := ih hrest htexts
        obtain ⟨es', hbody, hvalues', hall'⟩ := body_writeBody hinverts hx hsub hwrite
        refine ⟨es'.map (fun e => ([k, e.1], e.2)) ++ es, ?_, ?_, ?_⟩
        · have hline : ([[openBracket], name, [closeBracket, lineFeed]] ++ body ++ [] ++
              texts).flatten = openBracket :: (name ++ closeBracket :: lineFeed ::
                (body.flatten ++ texts.flatten)) := by
            simp
          rw [hline]
          have hname := htable.readable.names _ hmem
          exact .section' (fun c hc => ⟨hname.2 c hc, (hname.1.line c hc).2⟩)
            (findMember_of_getElem? htable.readable.nodup hfirst) (.inr rfl) (hbody _) hsections
        · intro e he
          rcases List.mem_append.mp he with he | he
          · obtain ⟨e', he', rfl⟩ := List.mem_map.mp he
            exact hvalues' e' he'
          · exact hvalues e he
        · intro j name' sub' hj j' name'' type hj'
          rw [List.map_append, List.map_map]
          cases j with
          | zero =>
            cases hj
            obtain ⟨e, he, rfl⟩ := List.mem_map.mp (hall' j' name'' type hj')
            exact List.mem_append_left _ (List.mem_map.mpr ⟨e, he, rfl⟩)
          | succ j =>
            have := hall j name' sub' hj j' name'' type hj'
            rw [Nat.add_right_comm, Nat.add_assoc] at this
            exact List.mem_append_right _ this

theorem written_eq {x₀ : Object N} {es : List (List ℕ × Value N)} (h : ∀ e ∈ es, e.2 = x e.1)
    {path : List ℕ} (hpath : path ∈ es.map Prod.fst) : written x₀ es path = x path := by
  obtain ⟨e, he, rfl⟩ := List.mem_map.mp hpath
  have hmem : e ∈ es.filter fun e' => e'.1 = e.1 := List.mem_filter.mpr ⟨he, by simp⟩
  rw [written]
  cases hlast : (es.filter fun e' => e'.1 = e.1).getLast? with
  | none =>
    rw [List.getLast?_eq_none_iff.mp hlast] at hmem
    cases hmem
  | some e' =>
    obtain ⟨he', hsame⟩ := List.mem_filter.mp (List.mem_of_getLast? hlast)
    have hsame : e'.1 = e.1 := by simpa using hsame
    rw [Option.map_some, Option.getD_some, h e' he', hsame]

/-- What has been written for an object is read into an object with the same members. -/
theorem structureIni_serializeIni (hinverts : Inverts toChars fromChars) (htable : Sectioned table)
    (hx : OnLines x) {room : ℕ} {text : Text}
    (h : serializeIni toChars table x room = some text) (x₀ : Object N) :
    ∃ y, structureIni fromChars text table x₀ = .ok y ∧
      (∀ i name type, table[i]? = some (name, .scalar type) → y [i] = x [i]) ∧
      ∀ i name sub, table[i]? = some (name, .members sub) →
        ∀ j name' type, sub[j]? = some (name', .scalar type) → y [i, j] = x [i, j] := by
  rw [serializeIni] at h
  cases hbody : writeBody toChars x [] table with
  | none =>
    rw [hbody] at h
    cases h
  | some body =>
    rw [hbody] at h
    cases hheaders : writeHeaders toChars x [] 0 table with
    | none =>
      rw [hheaders] at h
      cases h
    | some headers =>
      rw [hheaders] at h
      obtain rfl := writeTexts_ok h
      obtain ⟨es, hes, hvalues, hall⟩ := body_writeBody hinverts hx htable.readable hbody
      obtain ⟨es', hes', hvalues', hall'⟩ := sections_writeHeaders hinverts hx htable
        (fun j => by rw [Nat.zero_add]) hheaders
      have hdocument : Document fromChars table ([] ++ (body ++ headers).flatten)
          (es.map (fun e => ([e.1], e.2)) ++ es') :=
        ⟨es, headers.flatten, es', by simpa using hes headers.flatten, hes', rfl⟩
      have hagree : ∀ e ∈ es.map (fun e => ([e.1], e.2)) ++ es', e.2 = x e.1 := by
        intro e he
        rcases List.mem_append.mp he with he | he
        · obtain ⟨e', he', rfl⟩ := List.mem_map.mp he
          exact hvalues e' he'
        · exact hvalues' e he
      refine ⟨_, hdocument.structureIni x₀, ?_, ?_⟩
      · intro i name type hi
        obtain ⟨e, he, rfl⟩ := List.mem_map.mp (hall i name type hi)
        refine written_eq hagree (List.mem_map.mpr ⟨([e.1], e.2), ?_, rfl⟩)
        exact List.mem_append_left _ (List.mem_map.mpr ⟨e, he, rfl⟩)
      · intro i name sub hi j name' type hj
        have := hall' i name sub hi j name' type hj
        rw [Nat.zero_add] at this
        refine written_eq hagree ?_
        rw [List.map_append]
        exact List.mem_append_right _ this

/-- The digits `0` and `1`, as they are written and read. -/
def digitToChars (_ : Unit) (x : Bool) : Text := if x then [0x31] else [0x30]

def digitFromChars (_ : Unit) (s : Text) : ℕ × Bool :=
  if s.head? = some 0x31 then (1, true) else if s.head? = some 0x30 then (1, false) else (0, false)

theorem inverts_digit : Inverts digitToChars digitFromChars where
  nonempty := by
    rintro _ (_ | _) <;> exact List.cons_ne_nil _ _
  passed := by
    rintro _ (_ | _) rest <;> rfl

/-- A class with a number, and with a member `s` that has an enumeration. -/
def sampleTable : List (Text × Member Unit) :=
  [([0x6e], .scalar (.number ())), ([0x73], .members [([0x65], .scalar (.enum [([0x61], 5)]))])]

/-- A sample with `1` and the enumerator `a`. -/
def sample : Object Bool := fun path => if path = [0] then .number true else .enum 5

theorem isName_singleton {b : UInt8} (h : space < b ∧ b ≠ semicolon ∧ b ≠ openBracket ∧
    b ≠ equals ∧ b ≠ closeBracket) : IsName [b] := by
  have hend : ¬ LineEnd b := fun hend => UInt8.not_le.mpr h.1 hend.le_space
  refine ⟨⟨⟨b, [], rfl, h.1, h.2.1, h.2.2.1⟩, ?_⟩, ?_⟩
  · simpa using ⟨h.2.2.2.1, not_or.mp hend⟩
  · simpa using h.2.2.2.2

theorem sectioned_sample : Sectioned sampleTable := by
  refine ⟨⟨by decide, ?_, ?_⟩, ?_⟩
  · exact List.forall_mem_cons.mpr ⟨isName_singleton (by decide),
      List.forall_mem_singleton.mpr (isName_singleton (by decide))⟩
  · rintro name type h
    rcases List.mem_cons.mp h with h | h
    · cases h
      exact trivial
    · cases List.mem_singleton.mp h
  · rintro name sub h
    rcases List.mem_cons.mp h with h | h
    · cases h
    · cases List.mem_singleton.mp h
      refine ⟨⟨by decide, List.forall_mem_singleton.mpr (isName_singleton (by decide)), ?_⟩,
        List.forall_mem_singleton.mpr rfl⟩
      rintro name type h
      cases List.mem_singleton.mp h
      exact ⟨by decide, by simp; decide⟩

theorem onLines_sample : OnLines sample := by
  intro path str h
  unfold sample at h
  split_ifs at h

theorem structureIni_serializeIni_sample : ∃ y,
    structureIni digitFromChars [0x6e, 0x20, 0x3d, 0x20, 0x31, 0x0a, 0x0a, 0x5b, 0x73, 0x5d, 0x0a,
      0x65, 0x20, 0x3d, 0x20, 0x61, 0x0a, 0x0a] sampleTable (fun _ => .bool true) = .ok y ∧
      (∀ i name type, sampleTable[i]? = some (name, .scalar type) → y [i] = sample [i]) ∧
      ∀ i name sub, sampleTable[i]? = some (name, .members sub) →
        ∀ j name' type, sub[j]? = some (name', .scalar type) → y [i, j] = sample [i, j] :=
  structureIni_serializeIni inverts_digit sectioned_sample onLines_sample
    (show serializeIni digitToChars sampleTable sample 64 = some _ by
      simp [serializeIni, writeBody, writeKeyValues, writeKeyValue, valueText, writeHeaders,
      writeTexts, Member.isScalar, sample, sampleTable, digitToChars])
    fun _ => .bool true

/-- A member without a name, an enumerator with the end of a line in its key, and a key that is
given twice. -/
theorem serializeIni_not_read :
    (serializeIni digitToChars [([], .scalar .string)] (fun _ => .string [0x63]) 64 =
        some [0x20, 0x3d, 0x20, 0x63, 0x0a, 0x0a] ∧
      structureIni digitFromChars [0x20, 0x3d, 0x20, 0x63, 0x0a, 0x0a]
        [([], .scalar .string)] (fun _ => .bool true) = .error .outside) ∧
    (serializeIni digitToChars [([0x65], .scalar (.enum [([0x0a], 0)]))] (fun _ => .enum 0) 64 =
        some [0x65, 0x20, 0x3d, 0x20, 0x0a, 0x0a, 0x0a] ∧
      structureIni digitFromChars [0x65, 0x20, 0x3d, 0x20, 0x0a, 0x0a, 0x0a]
        [([0x65], .scalar (.enum [([0x0a], 0)]))] (fun _ => .bool true) =
          .error .unexpectedValue2) ∧
    serializeIni digitToChars [([0x65], .scalar (.enum [([0x61], 0), ([0x61], 1)]))]
        (fun _ => .enum 1) 64 = some [0x65, 0x20, 0x3d, 0x20, 0x61, 0x0a, 0x0a] ∧
      ∃ y, structureIni digitFromChars [0x65, 0x20, 0x3d, 0x20, 0x61, 0x0a, 0x0a]
        [([0x65], .scalar (.enum [([0x61], 0), ([0x61], 1)]))] (fun _ => .bool true) = .ok y ∧
          y [0] = .enum 0 :=
  ⟨⟨by simp [serializeIni, writeBody, writeKeyValues, writeKeyValue, valueText, writeHeaders,
      writeTexts, Member.isScalar], rfl⟩,
    ⟨by simp [serializeIni, writeBody, writeKeyValues, writeKeyValue, valueText, writeHeaders,
      writeTexts, Member.isScalar], rfl⟩,
    by simp [serializeIni, writeBody, writeKeyValues, writeKeyValue, valueText, writeHeaders,
      writeTexts, Member.isScalar], _, rfl, rfl⟩

end Fimbulwinter.Ini
